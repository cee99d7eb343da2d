import PathGuard.Zygisk.TransactionInv

/-!
# The death of the worker

The companion must leave a terminal status behind, and `kNamespaceTainted` when the worker died under the
lease. It looks at the word before it signals the worker, after `waitpid`, and once more at the end, and the
word can move in between. `OwnerDeathMissed` lists the three places where that goes wrong:

* the load before the signal found `kPending`, so no owner death is recorded; no result comes, and after
  `waitpid` the word stands at `kApplying` or `kCancelRequested`;
* the app cancels after the load that follows `waitpid` and before the companion's last look;
* the worker died after it sent a result whose publish had lost against the app's cancel, so the companion
  takes that result for the end of the story.

In every run without these the companion keeps its duty (`terminal_of_returned`); the run `lateLeaseRun` takes
the first.
-/

namespace PathGuard.Zygisk

open MountTransactionState

variable {plan : TransactionPlan}

/-- The worker died, or was killed, under the lease and before it published. -/
def Worker.diedHolding (w : Worker) : Bool := !w.alive && w.pc != .exited && w.leased && !w.published

/-- The app's compare-and-swap to `kCancelRequested` is about to succeed. -/
def aboutToCancel (s : Transaction) : Bool :=
  s.app.pc == .casPending && s.shared.status == pending ||
    s.app.pc == .casApplying && s.shared.status == applying

/-- The steps after which the companion misses the death of the worker. -/
def OwnerDeathMissed (s : Transaction) : Label → Prop
  | .companion _ =>
      s.companion.pc = .afterWait ∧
        (s.companion.mountResultReceived = false ∧ s.companion.ownerDeathTainted = false ∧
            (s.shared.status = applying ∨ s.shared.status = cancelRequested) ∨
          s.companion.mountResultReceived = true ∧ s.worker.diedHolding = true)
  | .app _ =>
      aboutToCancel s = true ∧ s.companion.mountResultReceived = false ∧
        (s.companion.pc = .taintStore ∨ s.companion.pc = .taintCas ∨
          s.companion.pc = .finalLoad ∧ s.companion.forked = true)
  | _ => False

instance (s : Transaction) : (l : Label) → Decidable (OwnerDeathMissed s l)
  | .companion _ => inferInstanceAs (Decidable (_ ∧ (_ ∧ _ ∧ (_ ∨ _) ∨ _ ∧ _)))
  | .app _ => inferInstanceAs (Decidable (_ ∧ _ ∧ (_ ∨ _ ∨ _ ∧ _)))
  | .worker _ | .workerDies => inferInstanceAs (Decidable False)

def OwnerDeathSeen (s : Transaction) (l : Label) : Prop := ¬ OwnerDeathMissed s l

instance (s : Transaction) (l : Label) : Decidable (OwnerDeathSeen s l) :=
  inferInstanceAs (Decidable (¬ _))

/-! ## The invariant -/

/-- What the companion can rely on where it stands. -/
def Watches (c : Companion) (status : MountTransactionState) (w : Worker) : Prop :=
  match c.pc with
  | .fork | .read | .signalLoad | .sigkill | .sigterm | .readAgain | .sigkillAgain => c.ownerDeathTainted = false
  | .wait | .afterWait => c.ownerDeathTainted = true → c.mountResultReceived = false
  | .taintStore | .taintCas => c.mountResultReceived = false ∧ status = c.afterWait
  | .finalLoad => c.forked = true → status = pending ∨
      c.mountResultReceived = true ∧ status = cancelRequested ∧ w.diedHolding = false ∨
        isMountTransactionTerminal status = true
  | .failStore | .failCas => status = pending ∨ status = cancelRequested
  | .failLoad | .failMark => status = cancelRequested
  | .publishStore _ _ | .publishCas _ _ => status = cancelRequested ∧ w.diedHolding = false
  | .returned => c.forked = true → isMountTransactionTerminal status = true

structure OwnerInv (c : Companion) (status : MountTransactionState) (w : Worker) : Prop where
  died : w.diedHolding = true → status = applying ∨ status = cancelRequested ∨ status = namespaceTainted
  signalled : c.ownerDeathTainted = true ∨ c.pc = .sigkill → status ≠ pending
  watches : Watches c status w

theorem diedHolding_leased {w : Worker} (h : w.diedHolding = true) : w.leased = true ∧ w.published = false := by
  simp only [Worker.diedHolding, Bool.and_eq_true, Bool.not_eq_true'] at h
  exact ⟨h.1.2, h.2⟩

theorem not_diedHolding_of_unleased {w : Worker} (h : w.leased = false) : w.diedHolding = false := by
  simp [Worker.diedHolding, h]

theorem Watches.running {c : Companion} {status status' : MountTransactionState} {w w' : Worker}
    (h : Watches c status w) (hknows : Knows c w) (hrun : w.gone = false) (hforked : c.forked = true) :
    Watches c status' w' := by
  unfold Knows at hknows
  unfold Watches at h ⊢
  cases hpc : c.pc <;> simp_all

theorem WorkerMove.status_of_leased {s s' : Transaction} (hmove : WorkerMove s s') (hinv : Inv plan s)
    (hinv' : Inv plan s') (hrun : s.worker.gone = false) (hl : s'.worker.leased = true)
    (hp : s'.worker.published = false) :
    s'.shared.status = applying ∨ s'.shared.status = cancelRequested := by
  have hheld : s.worker.leased = true → s.worker.published = false → s'.shared.status = s.shared.status →
      s'.shared.status = applying ∨ s'.shared.status = cancelRequested := by
    intro hl hp hs
    rw [hs]
    exact hinv.status.held hl hp hrun
  have hhold : s.worker.pc.stage = .holding ∨ s.worker.pc.stage = .final →
      s'.shared.status = s.shared.status → s'.shared.status = applying ∨ s'.shared.status = cancelRequested := by
    intro hs
    obtain ⟨hl, hp⟩ := hinv.status.loc.holding hs
    exact hheld hl hp
  cases hmove with
  | work hstage hearly hs =>
      rcases hearly with hearly | hearly
      · rw [(hinv'.status.loc.before (hstage ▸ hearly)).1] at hl
        cases hl
      · exact hhold (Or.inl hearly) hs
  | giveUp hs _ hleased _ _ =>
      rw [hleased, (hinv.status.loc.before hs).1] at hl
      cases hl
  | mark hs _ hleased _ _ _ =>
      rw [hleased, (hinv.status.loc.before hs).1] at hl
      cases hl
  | lease _ _ _ hs => exact Or.inl hs
  | commit _ _ _ hpub _ _ =>
      rw [hpub] at hp
      cases hp
  | choose _ hpc _ _ hs => exact hhold (Or.inl (by rw [hpc]; rfl)) hs
  | skip hpc _ _ _ hs => exact hhold (Or.inl (by rw [hpc]; rfl)) hs
  | store _ hpc _ hs => exact hhold (Or.inr (by rw [hpc]; rfl)) hs
  | publish _ _ hw _ _ _ =>
      rw [hw] at hp
      cases hp
  | lose _ hpc _ _ hs => exact hhold (Or.inr (by rw [hpc]; rfl)) hs
  | leave _ _ hw hs =>
      rw [hw] at hl hp
      exact hheld hl hp hs

theorem WorkerMove.not_pending {s s' : Transaction} (hmove : WorkerMove s s')
    (hloc : Local plan s.worker s.namespaceLog) (hs : s.shared.status ≠ pending) :
    s'.shared.status ≠ pending := by
  cases hmove with
  | work _ _ h => rwa [h]
  | giveUp _ _ _ _ h => rwa [h]
  | mark _ _ _ _ _ h => rw [h]; decide
  | lease _ _ _ h => rw [h]; decide
  | commit _ _ _ _ _ h => rw [h]; decide
  | choose _ _ _ _ h => rwa [h]
  | skip _ _ _ _ h => rwa [h]
  | store _ _ _ h => rwa [h]
  | publish terminal hpc _ _ _ h =>
      rw [h]
      rcases hloc.terminal hpc with rfl | rfl <;> decide
  | lose _ _ _ _ h => rwa [h]
  | leave _ _ _ h => rwa [h]

/-! ## Steps -/

/-- **A step of the worker keeps `OwnerInv`.** -/
theorem OwnerInv.work {s s' : Transaction} (hinv : Inv plan s) (hinv' : Inv plan s')
    (h : OwnerInv s.companion s.shared.status s.worker) (hmove : WorkerMove s s') (hframe : WorkerFrame s s') :
    OwnerInv s'.companion s'.shared.status s'.worker := by
  have hforked : s.companion.forked = true := by
    by_contra hf
    exact hframe.started (hinv.companion.unforked (Bool.not_eq_true _ ▸ hf))
  rw [hframe.companion]
  refine ⟨fun hd => ?_, fun hsig => hmove.not_pending hinv.status.loc (h.signalled hsig),
    h.watches.running hinv.companion.knows hframe.running hforked⟩
  obtain ⟨hl, hp⟩ := diedHolding_leased hd
  exact (hmove.status_of_leased hinv hinv' hframe.running hl hp).imp_right Or.inl

theorem OwnerInv.cancel {s : Transaction} {deadlinePassed : Bool} (hinv : Inv plan s)
    (h : OwnerInv s.companion s.shared.status s.worker) (hok : OwnerDeathSeen s (.app deadlinePassed))
    (hsource : s.app.pc = .casPending ∧ s.shared.status = pending ∨
      s.app.pc = .casApplying ∧ s.shared.status = applying) :
    OwnerInv s.companion cancelRequested s.worker := by
  have habout : aboutToCancel s = true := by
    rcases hsource with ⟨hpc, hs⟩ | ⟨hpc, hs⟩ <;> simp [aboutToCancel, hpc, hs]
  have hopen : isMountTransactionTerminal s.shared.status = false ∧ s.shared.status ≠ cancelRequested := by
    rcases hsource with ⟨-, hs⟩ | ⟨-, hs⟩ <;> rw [hs] <;> decide
  have hw := h.watches
  refine ⟨fun _ => Or.inr (Or.inl rfl), fun _ => by decide, ?_⟩
  unfold Watches at hw ⊢
  cases hpc : s.companion.pc <;> rw [hpc] at hw
  case taintStore => exact absurd ⟨habout, hw.1, Or.inl hpc⟩ hok
  case taintCas => exact absurd ⟨habout, hw.1, Or.inr (Or.inl hpc)⟩ hok
  case finalLoad =>
      intro hforked
      rcases hw hforked with hs | ⟨-, hs, -⟩ | hs
      · by_cases hr : s.companion.mountResultReceived = true
        · exact Or.inr (Or.inl ⟨hr, rfl, not_diedHolding_of_unleased (hinv.status.pending hs).1⟩)
        · exact absurd ⟨habout, Bool.not_eq_true _ ▸ hr, Or.inr (Or.inr ⟨hpc, hforked⟩)⟩ hok
      · exact absurd hs hopen.2
      · rw [hopen.1] at hs
        cases hs
  case failStore => exact Or.inr rfl
  case failCas => exact Or.inr rfl
  case publishStore => exact absurd hw.1 hopen.2
  case publishCas => exact absurd hw.1 hopen.2
  case returned =>
      intro hforked
      have hs := hw hforked
      rw [hopen.1] at hs
      cases hs
  all_goals exact hw

theorem OwnerInv.die {s : Transaction} (hinv : Inv plan s) (h : OwnerInv s.companion s.shared.status s.worker)
    (hstarted : s.worker.pc ≠ .notStarted) (hrun : s.worker.gone = false) :
    OwnerInv s.companion s.shared.status { s.worker with alive := false } := by
  have hforked : s.companion.forked = true := by
    by_contra hf
    exact hstarted (hinv.companion.unforked (Bool.not_eq_true _ ▸ hf))
  refine ⟨fun hd => ?_, h.signalled, h.watches.running hinv.companion.knows hrun hforked⟩
  obtain ⟨hl, hp⟩ := diedHolding_leased hd
  exact (hinv.status.held hl hp hrun).imp_right Or.inl

theorem Inv.result_ne_zero {s : Transaction} (hinv : Inv plan s) (hr : s.companion.mountResultReceived = true)
    (hs : s.shared.status = cancelRequested) : s.companion.mountResult.result ≠ 0 := by
  obtain ⟨hpc, hperf⟩ := hinv.companion.received hr
  rw [hperf]
  rcases hinv.status.loc.finished (by rcases hpc with hpc | hpc <;> rw [hpc] <;> rfl) with
    ⟨-, hfailed, -⟩ | ⟨-, hpub, -⟩ | hend
  · exact hfailed
  · have hterminal := hinv.status.published hpub
    rw [hs] at hterminal
    cases hterminal
  · exact hend.failed

theorem OwnerInv.goto {c c' : Companion} {status : MountTransactionState} {w : Worker} (h : OwnerInv c status w)
    (htainted : c'.ownerDeathTainted = c.ownerDeathTainted) (hpc : c'.pc ≠ .sigkill)
    (hw : Watches c' status w) : OwnerInv c' status w := by
  refine ⟨h.died, fun hsig => h.signalled (Or.inl ?_), hw⟩
  rw [← htainted]
  exact hsig.resolve_right hpc

theorem OwnerInv.close {c' : Companion} {status : MountTransactionState} {w : Worker}
    (hterminal : isMountTransactionTerminal status = true)
    (hdied : w.diedHolding = true → status = namespaceTainted)
    (hpc : c'.pc = .finalLoad ∨ c'.pc = .returned) : OwnerInv c' status w := by
  refine ⟨fun hd => Or.inr (Or.inr (hdied hd)), fun _ hs => ?_, ?_⟩
  · rw [hs] at hterminal
    cases hterminal
  · unfold Watches
    rcases hpc with hpc | hpc <;> rw [hpc]
    · exact fun _ => Or.inr (Or.inr hterminal)
    · exact fun _ => hterminal

theorem Inv.finalLoad_watches {s : Transaction} {outcome : Outcome} {c' : Companion} (hinv : Inv plan s)
    (hok : OwnerDeathSeen s (.companion outcome))
    (hpc : s.companion.pc = .afterWait) (hpc' : c'.pc = .finalLoad)
    (hreceived : c'.mountResultReceived = s.companion.mountResultReceived)
    (huntainted : s.companion.ownerDeathTainted = true →
      s.shared.status ≠ applying ∧ s.shared.status ≠ cancelRequested) :
    Watches c' s.shared.status s.worker := by
  unfold Watches
  rw [hpc']
  intro _
  have hmissed : ∀ hs : s.shared.status = applying ∨ s.shared.status = cancelRequested,
      s.companion.mountResultReceived = true ∧ s.worker.diedHolding = false := by
    intro hs
    have hunt : s.companion.ownerDeathTainted = false := by
      by_contra ht
      obtain ⟨hna, hnc⟩ := huntainted (Bool.not_eq_false _ ▸ ht)
      exact hs.elim hna hnc
    by_cases hr : s.companion.mountResultReceived = true
    · refine ⟨hr, ?_⟩
      by_contra hd
      exact hok ⟨hpc, Or.inr ⟨hr, Bool.not_eq_false _ ▸ hd⟩⟩
    · exact absurd ⟨hpc, Or.inl ⟨Bool.not_eq_true _ ▸ hr, hunt, hs⟩⟩ hok
  cases hs : s.shared.status with
  | pending => exact Or.inl rfl
  | applying =>
      refine absurd ?_ (hinv.status.applying hs).2.2
      rcases (hinv.companion.received (hmissed (Or.inl hs)).1).1 with hpc | hpc <;> rw [hpc] <;> rfl
  | cancelRequested =>
      obtain ⟨hr, hd⟩ := hmissed (Or.inr hs)
      exact Or.inr (Or.inl ⟨hreceived.trans hr, rfl, hd⟩)
  | complete => exact Or.inr (Or.inr rfl)
  | cancelled => exact Or.inr (Or.inr rfl)
  | failed => exact Or.inr (Or.inr rfl)
  | rollbackComplete => exact Or.inr (Or.inr rfl)
  | namespaceTainted => exact Or.inr (Or.inr rfl)

/-- **A step of the companion that does not miss a death keeps `OwnerInv`.** -/
theorem OwnerInv.watch {s s' : Transaction} {outcome : Outcome} (hinv : Inv plan s)
    (h : OwnerInv s.companion s.shared.status s.worker) (hok : OwnerDeathSeen s (.companion outcome))
    (hstep : companionStep plan s outcome = some s') :
    OwnerInv s'.companion s'.shared.status s'.worker := by
  have hw := h.watches
  have hknows := hinv.companion.knows
  unfold companionStep at hstep
  simp only at hstep
  split at hstep
  · next hpc =>
    simp only [Watches, Knows, hpc] at hw hknows
    rw [← Option.some.inj hstep]
    refine ⟨fun hd => ?_, fun hsig => ?_, hw⟩
    · have hl := (hinv.status.loc.before (by rw [hinv.companion.unforked hknows.1]; rfl)).1
      have hl' := (diedHolding_leased hd).1
      rw [show s.worker.leased = true from hl'] at hl
      cases hl
    · rcases hsig with hsig | hsig
      · rw [show s.companion.ownerDeathTainted = true from hsig] at hw
        cases hw
      · cases hsig
  · next hpc =>
    simp only [Watches, Knows, hpc] at hw hknows
    rw [← Option.some.inj hstep]
    refine h.goto rfl (by simp) fun hf => ?_
    rw [show s.companion.forked = true from hf] at hknows
    cases hknows.1
  · next hpc =>
    simp only [Watches, hpc] at hw
    split at hstep
    · rw [← Option.some.inj hstep]
      refine h.goto rfl (by simp) fun ht => ?_
      rw [show s.companion.ownerDeathTainted = true from ht] at hw
      cases hw
    · cases hstep
  · next hpc =>
    simp only [Watches, hpc] at hw
    split at hstep
    · cases hstep
    · rw [← Option.some.inj hstep]
      exact h.goto rfl (by simp) hw
  · next hpc =>
    simp only [Watches, hpc] at hw
    split at hstep <;> rw [← Option.some.inj hstep]
    · next hs =>
      refine ⟨h.died, fun _ hp => ?_, hw⟩
      rw [show s.shared.status = pending from hp] at hs
      simp at hs
    · exact h.goto rfl (by simp) hw
  · next hpc =>
    simp only [Knows, hpc] at hknows
    rw [← Option.some.inj hstep]
    exact ⟨h.died, fun _ => h.signalled (Or.inr hpc), fun _ => hknows.2⟩
  · next hpc =>
    simp only [Watches, hpc] at hw
    rw [← Option.some.inj hstep]
    exact h.goto rfl (by simp) hw
  · next hpc =>
    simp only [Watches, hpc] at hw
    split at hstep
    · rw [← Option.some.inj hstep]
      refine h.goto rfl (by simp) fun ht => ?_
      rw [show s.companion.ownerDeathTainted = true from ht] at hw
      cases hw
    · cases hstep
  · next hpc =>
    simp only [Watches, hpc] at hw
    split at hstep
    · cases hstep
    · rw [← Option.some.inj hstep]
      exact h.goto rfl (by simp) hw
  · next hpc =>
    simp only [Watches, hpc] at hw
    rw [← Option.some.inj hstep]
    refine h.goto rfl (by simp) fun ht => ?_
    rw [show s.companion.ownerDeathTainted = true from ht] at hw
    cases hw
  · next hpc =>
    simp only [Watches, hpc] at hw
    split at hstep
    · rw [← Option.some.inj hstep]
      exact h.goto rfl (by simp) hw
    · cases hstep
  · next hpc =>
    simp only [Watches, hpc] at hw
    split at hstep <;> rw [← Option.some.inj hstep]
    · next hc =>
      simp only [Bool.and_eq_true] at hc
      exact h.goto rfl (by simp) ⟨hw hc.1, rfl⟩
    · next hc =>
      refine h.goto rfl (by simp) (hinv.finalLoad_watches hok hpc rfl rfl fun ht => ?_)
      simpa [ht] using hc
  · next hpc =>
    simp only [Watches, hpc] at hw
    rw [← Option.some.inj hstep]
    exact h.goto rfl (by simp) hw
  · next hpc =>
    simp only [Watches, Knows, hpc] at hw hknows
    have hcas : isMountTransitionAllowed s.companion.afterWait namespaceTainted = true ∧
        s.shared.status = s.companion.afterWait := by
      refine ⟨?_, hw.2⟩
      rcases hknows.2 with ha | ha <;> rw [ha] <;> rfl
    have hs : (transitionSharedState s.shared s.companion.afterWait namespaceTainted).1.status =
        namespaceTainted := (transition_status _ _ _).trans (if_pos hcas)
    rw [← Option.some.inj hstep]
    exact .close (by rw [hs]; rfl) (fun _ => hs) (Or.inl rfl)
  · next hpc =>
    simp only [Watches, hpc] at hw
    split at hstep
    · next hpending =>
      rw [← Option.some.inj hstep]
      exact h.goto rfl (by simp) (Or.inl hpending)
    · next hpending =>
      split at hstep
      · next hc =>
        simp only [Bool.and_eq_true, decide_eq_true_eq] at hc
        rw [← Option.some.inj hstep]
        refine h.goto rfl (by simp) ⟨hc.1.2, ?_⟩
        rcases hw (hinv.companion.forked_of_received hc.1.1) with hs | ⟨-, -, hd⟩ | hs
        · exact absurd hs hpending
        · exact hd
        · rw [hc.1.2] at hs
          cases hs
      · next hc =>
        split at hstep
        · next ha =>
          simp only [Bool.and_eq_true, decide_eq_true_eq] at ha
          refine absurd ?_ (hinv.status.applying ha.2).2.2
          rcases (hinv.companion.received ha.1).1 with hpc | hpc <;> rw [hpc] <;> rfl
        · rw [← Option.some.inj hstep]
          refine h.goto rfl (by simp) fun hforked => ?_
          rcases hw hforked with hs | ⟨hr, hs, -⟩ | hs
          · exact absurd hs hpending
          · refine absurd ?_ hc
            simp [hr, hs, hinv.result_ne_zero hr hs]
          · exact hs
  · next hpc =>
    simp only [Watches, hpc] at hw
    rw [← Option.some.inj hstep]
    exact h.goto rfl (by simp) hw
  · next hpc =>
    simp only [Watches, Knows, hpc] at hw hknows
    split at hstep
    · next hcas =>
      rw [← Option.some.inj hstep]
      have hs := (transition_status s.shared pending failed).trans (if_pos (transition_succeeds.mp hcas))
      refine .close (by rw [hs]; rfl) (fun hd => ?_) (Or.inr rfl)
      rw [not_diedHolding_of_unleased hknows.1] at hd
      cases hd
    · next hcas =>
      rw [← Option.some.inj hstep]
      refine h.goto rfl (by simp) (hw.resolve_left fun hs => hcas ?_)
      exact transition_succeeds.mpr ⟨rfl, hs⟩
  · next hpc =>
    simp only [Watches, hpc] at hw
    split at hstep
    · rw [← Option.some.inj hstep]
      exact h.goto rfl (by simp) hw
    · next hs => exact absurd hw hs
  · next hpc =>
    simp only [Watches, Knows, hpc] at hw hknows
    rw [← Option.some.inj hstep]
    have hs := (transition_status s.shared cancelRequested cancelled).trans (if_pos ⟨rfl, hw⟩)
    refine .close (by rw [hs]; rfl) (fun hd => ?_) (Or.inr rfl)
    rw [not_diedHolding_of_unleased hknows.1] at hd
    cases hd
  · next hpc =>
    simp only [Watches, hpc] at hw
    rw [← Option.some.inj hstep]
    exact h.goto rfl (by simp) hw
  · next hpc =>
    simp only [Watches, Knows, hpc] at hw hknows
    obtain ⟨-, -, rfl, rfl, -⟩ := hknows
    rw [← Option.some.inj hstep]
    have hs := (transition_status s.shared cancelRequested rollbackComplete).trans (if_pos ⟨rfl, hw.1⟩)
    refine .close (by rw [hs]; rfl) (fun hd => ?_) (Or.inr rfl)
    rw [hw.2] at hd
    cases hd
  · cases hstep

/-- **Every step that misses no death keeps `OwnerInv`.** -/
theorem step_ownerInv {s s' : Transaction} {l : Label} (hinv : Inv plan s)
    (h : OwnerInv s.companion s.shared.status s.worker) (hok : OwnerDeathSeen s l)
    (hstep : step plan s l = some s') : OwnerInv s'.companion s'.shared.status s'.worker := by
  have hinv' := step_inv hstep hinv
  cases l with
  | app deadlinePassed =>
      obtain ⟨hworker, hcompanion, -, -⟩ := appStep_frame hstep
      rw [hworker, hcompanion]
      cases appStep_move hstep with
      | idle hshared _ =>
          rw [hshared]
          exact h
      | cancel hsource hstatus _ =>
          rw [hstatus]
          exact h.cancel hinv hok hsource
  | worker input => exact h.work hinv hinv' (workerStep_move hstep hinv.status.loc) (workerStep_frame hstep)
  | workerDies =>
      obtain ⟨hstarted, hrun, rfl⟩ := workerDies_eq_some hstep
      have hdie := OwnerInv.die hinv h hstarted hrun
      exact hdie
  | companion outcome => exact h.watch hinv hok hstep

theorem initial_ownerInv : OwnerInv Transaction.initial.companion Transaction.initial.shared.status
    Transaction.initial.worker :=
  ⟨fun hd => (nomatch hd), fun hs => (nomatch hs), rfl⟩

/-- **The companion sees every death**: in every run without a missed one, when it returns after the fork the
status is terminal, and it is `kNamespaceTainted` if the worker died under the lease before it published. -/
theorem terminal_of_returned (plan : TransactionPlan) {s : Transaction}
    (h : Run.ReachesBy (step plan) OwnerDeathSeen .initial s) (hret : s.companion.pc = .returned)
    (hforked : s.companion.forked = true) :
    isMountTransactionTerminal s.shared.status = true ∧
      (s.worker.diedHolding = true → s.shared.status = namespaceTainted) := by
  have hinv : OwnerInv s.companion s.shared.status s.worker := by
    refine h.invariant_under (I := fun s => OwnerInv s.companion s.shared.status s.worker)
      (fun _ => reachable_inv) initial_ownerInv fun _ _ _ hinv ho hok hstep => ?_
    exact step_ownerInv hinv ho hok hstep
  have hterminal : isMountTransactionTerminal s.shared.status = true := by
    have hw := hinv.watches
    simp only [Watches, hret] at hw
    exact hw hforked
  refine ⟨hterminal, fun hd => ?_⟩
  rcases hinv.died hd with hs | hs | hs
  · rw [hs] at hterminal
    cases hterminal
  · rw [hs] at hterminal
    cases hterminal
  · exact hs

/-- The worker dies under the lease; the companion's read fails and it finds `kApplying`. -/
def ownerDeathRun : List Label :=
  [.companion .ok, .worker .tick, .worker (.preflight (.passed false {} true)), .worker .tick, .worker .tick,
    .worker (.call .ok), .worker .tick, .worker .mounted, .workerDies, .companion (.fail ⟨ EIO, EIO_ne_zero⟩),
    .companion .ok, .companion .ok, .companion .ok, .companion .ok, .companion .ok, .companion .ok, .companion .ok]

theorem terminal_of_returned_ownerDeathRun :
    ∃ s, Run.ReachesBy (step oneRedirect) OwnerDeathSeen .initial s ∧ s.companion.pc = .returned ∧
      s.worker.diedHolding = true ∧ s.shared.status = namespaceTainted := by
  refine ⟨_, Run.reachesBy_of_runLabels ownerDeathRun rfl, rfl, rfl, ?_⟩
  exact (terminal_of_returned oneRedirect (Run.reachesBy_of_runLabels ownerDeathRun rfl) rfl rfl).2 rfl

/-- The companion's read times out while the word is still `kPending`; the worker takes the lease and mounts
before SIGTERM reaches it. -/
def lateLeaseRun : List Label :=
  [.companion .ok, .worker .tick, .worker (.preflight (.passed false {} true)), .worker .tick,
    .companion (.fail ⟨ EIO, EIO_ne_zero⟩), .companion .ok, .worker .tick, .worker (.call .ok), .worker .tick,
    .worker .mounted, .companion .ok, .workerDies, .companion (.fail ⟨ EIO, EIO_ne_zero⟩), .companion .ok,
    .companion .ok, .companion .ok, .companion .ok]

/-- **A missed death**: the companion returns, a mount is left in the namespace and the word stays at
`kApplying`. -/
theorem applying_of_lateLease :
    ∃ s, Reachable oneRedirect s ∧ s.companion.pc = .returned ∧ s.companion.forked = true ∧
      s.worker.diedHolding = true ∧ s.namespaceLog = [.attach 0] ∧ s.shared.status = applying ∧
      isMountTransactionTerminal s.shared.status = false :=
  ⟨_, Run.reaches_of_runLabels lateLeaseRun rfl, rfl, rfl, rfl, rfl, rfl, rfl⟩

end PathGuard.Zygisk

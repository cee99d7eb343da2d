import PathGuard.Zygisk.TransactionInv

/-!
# What `kRollbackComplete` promises

The worker that has changed the propagation of `/storage`, failed in its rollback or lost track of a mount
publishes `kNamespaceTainted` by a compare-and-swap from the value it loaded before it stored the result. The
app's cancel may slip in between: the swap then fails, the result goes to the companion all the same, and the
companion, which finds `kCancelRequested` and an error, reports the rollback as complete. `TaintRaced` is that
cancel. In every run without it `kRollbackComplete` means that nothing is left of the mutation
(`rolledBack_of_unraced`); with it the promise breaks (`rollbackComplete_raced`).

* `TaintRaced` : the cancel; `RollbackInv` : the invariant of the runs without it (`step_rollbackInv`).
-/

namespace PathGuard.Zygisk

open MountTransactionState

variable {plan : TransactionPlan}

/-- The app is about to move `kApplying` to `kCancelRequested` while the worker stands between its last load
of the word and its publish of `kNamespaceTainted`. -/
def TaintRaced (s : Transaction) : Label → Prop
  | .app _ =>
      s.app.pc = .casApplying ∧ s.shared.status = applying ∧ s.worker.alive = true ∧
        (s.worker.pc = .finalStore namespaceTainted ∨ s.worker.pc = .finalCas namespaceTainted)
  | _ => False

instance (s : Transaction) : (l : Label) → Decidable (TaintRaced s l)
  | .app _ => inferInstanceAs (Decidable (_ ∧ _ ∧ _ ∧ (_ ∨ _)))
  | .worker _ | .workerDies | .companion _ => inferInstanceAs (Decidable False)

/-- A run in which no cancel races with a publish of `kNamespaceTainted`. -/
def UnracedTaint (s : Transaction) (l : Label) : Prop := ¬ TaintRaced s l

instance (s : Transaction) (l : Label) : Decidable (UnracedTaint s l) :=
  inferInstanceAs (Decidable (¬ _))

/-- What the word says about the flags of a worker that is done, or about to be. -/
structure RollbackInv (status : MountTransactionState) (w : Worker) (log : List NamespaceEvent) : Prop where
  final : w.pc.stage = .final → w.gone = false → w.flagged = true → w.current = status
  unpublished : w.pc.stage = .finished → w.published = false → w.flagged = false
  rolledBack : status = rollbackComplete → RolledBack log ∧ w.flagged = false

theorem Local.final_terminal {w : Worker} {log : List NamespaceEvent} (h : Local plan w log)
    (hs : w.pc.stage = .final) :
    (w.flagged = false → RolledBack log) ∧
      (w.pc = .finalStore (if w.flagged then namespaceTainted else rollbackComplete) ∨
        w.pc = .finalCas (if w.flagged then namespaceTainted else rollbackComplete)) := by
  unfold Local at h
  cases hpc : w.pc <;> rw [hpc] at h hs <;> simp only [WorkerPc.stage, reduceCtorEq] at hs
  · exact ⟨h.1.undone, Or.inl (by rw [h.2.2])⟩
  · exact ⟨h.1.undone, Or.inr (by rw [h.2.2])⟩

theorem RollbackInv.of_unleased {status : MountTransactionState} {w : Worker} {log : List NamespaceEvent}
    (hloc : Local plan w log) (hl : w.leased = false) : RollbackInv status w log := by
  obtain ⟨-, hlog, hflag⟩ := hloc.unleased hl
  refine ⟨fun _ _ hf => ?_, fun _ _ => hflag, fun _ => ⟨?_, hflag⟩⟩
  · rw [hflag] at hf
    cases hf
  · rw [hlog]
    exact rolledBack_nil

theorem RollbackInv.of_holding {status : MountTransactionState} {w : Worker} {log : List NamespaceEvent}
    (hs : w.pc.stage = .holding) (hstatus : status = applying ∨ status = cancelRequested) :
    RollbackInv status w log := by
  refine ⟨fun hf => ?_, fun hf => ?_, fun hr => ?_⟩
  · rw [hs] at hf
    cases hf
  · rw [hs] at hf
    cases hf
  · rcases hstatus with rfl | rfl <;> cases hr

/-- **A step of the worker keeps `RollbackInv`.** -/
theorem RollbackInv.work {s s' : Transaction} (hinv : Inv plan s)
    (h : RollbackInv s.shared.status s.worker s.namespaceLog) (hmove : WorkerMove s s')
    (hframe : WorkerFrame s s') (hloc : Local plan s'.worker s'.namespaceLog) :
    RollbackInv s'.shared.status s'.worker s'.namespaceLog := by
  have hheld : s.worker.pc.stage = .holding ∨ s.worker.pc.stage = .final →
      s.shared.status = applying ∨ s.shared.status = cancelRequested := by
    intro hs
    obtain ⟨hl, hp⟩ := hinv.status.loc.holding hs
    exact hinv.status.held hl hp hframe.running
  have hopen : s.shared.status = applying ∨ s.shared.status = cancelRequested →
      s.shared.status ≠ rollbackComplete := by
    rintro (hs | hs) hr <;> rw [hs] at hr <;> cases hr
  cases hmove with
  | work hstage hearly hstatus =>
      rcases hearly with hs | hs
      · exact .of_unleased hloc (hloc.before (hstage ▸ hs)).1
      · rw [hstatus]
        exact .of_holding (hstage ▸ hs) (hheld (Or.inl hs))
  | giveUp hs _ hl _ _ => exact .of_unleased hloc (hl.trans (hinv.status.loc.before hs).1)
  | mark hs _ hl _ _ _ => exact .of_unleased hloc (hl.trans (hinv.status.loc.before hs).1)
  | lease _ hs' _ hstatus => exact .of_holding hs' (Or.inl hstatus)
  | commit _ hpc _ hpub _ hstatus =>
      refine ⟨fun hf => ?_, fun _ hp => ?_, fun hr => ?_⟩
      · rw [hpc] at hf
        cases hf
      · rw [hpub] at hp
        cases hp
      · rw [hstatus] at hr
        cases hr
  | choose terminal hpc hpc' hcur hstatus =>
      have hs := hheld (Or.inl (by rw [hpc]; rfl))
      rw [hstatus]
      refine ⟨fun _ _ _ => hcur, fun hf => ?_, fun hr => absurd hr (hopen hs)⟩
      rw [hpc'] at hf
      cases hf
  | skip hpc _ hna hnc _ =>
      rcases hheld (Or.inl (by rw [hpc]; rfl)) with hs | hs
      · exact absurd hs hna
      · exact absurd hs hnc
  | store terminal hpc hw hstatus =>
      have hstage : s.worker.pc.stage = .final := by rw [hpc]; rfl
      rw [hstatus, hw]
      exact ⟨fun _ _ hflag => h.final hstage hframe.running hflag, fun hf => (nomatch hf),
        fun hr => absurd hr (hopen (hheld (Or.inr hstage)))⟩
  | publish terminal hpc hw _ _ hstatus =>
      have hstage : s.worker.pc.stage = .final := by rw [hpc]; rfl
      obtain ⟨hundone, hterminal⟩ := hinv.status.loc.final_terminal hstage
      rw [hstatus, hw, hframe.logKept (by rw [hstage]; decide)]
      refine ⟨fun hf => (nomatch hf), fun _ hp => (nomatch hp), fun hr => ?_⟩
      have hflag : s.worker.flagged = false := by
        by_contra hflag
        simp [hpc, Bool.not_eq_false _ ▸ hflag, hr] at hterminal
      exact ⟨hundone hflag, hflag⟩
  | lose terminal hpc hw hlost hstatus =>
      have hstage : s.worker.pc.stage = .final := by rw [hpc]; rfl
      have hs := hheld (Or.inr hstage)
      rw [hstatus, hw]
      refine ⟨fun hf => (nomatch hf), fun _ _ => ?_, fun hr => absurd hr (hopen hs)⟩
      by_contra hflag
      rw [Bool.not_eq_false] at hflag
      have hflag : s.worker.flagged = true := hflag
      -- the swap goes from the value the word still has, so it cannot have failed
      have hcur := h.final hstage hframe.running hflag
      have hterminal : terminal = namespaceTainted := by
        have hpc' := (hinv.status.loc.final_terminal hstage).2
        simpa [hpc, hflag] using hpc'
      refine hlost ⟨?_, hcur.symm⟩
      rw [hcur, hterminal]
      rcases hs with hs | hs <;> rw [hs] <;> rfl
  | leave pc hpc hw hstatus =>
      have hstage : s.worker.pc.stage = .finished := by
        rcases hpc with ⟨hpc, -⟩ | ⟨hpc, -⟩ <;> rw [hpc] <;> rfl
      rw [hstatus, hw, hframe.logKept (by rw [hstage]; decide)]
      refine ⟨fun hf => ?_, fun _ hp => h.unpublished hstage hp, h.rolledBack⟩
      rcases hpc with ⟨-, rfl⟩ | ⟨-, rfl⟩ <;> cases hf

/-- A worker that sent its result and left the word at `kCancelRequested` has undone everything. -/
theorem RollbackInv.undone_of_sent {status : MountTransactionState}
    {cancelledFrom : Option MountTransactionState} {w : Worker} {log : List NamespaceEvent}
    (h : RollbackInv status w log) (hstatus : StatusInv plan status cancelledFrom w log)
    (hpc : w.pc = .sent ∨ w.pc = .exited) (hs : status = cancelRequested) :
    RolledBack log ∧ w.flagged = false := by
  have hstage : w.pc.stage = .finished := by rcases hpc with hpc | hpc <;> rw [hpc] <;> rfl
  have hp : w.published = false := by
    by_contra hp
    have hterminal := hstatus.published (Bool.not_eq_false _ ▸ hp)
    rw [hs] at hterminal
    cases hterminal
  have hflag := h.unpublished hstage hp
  rcases hstatus.loc.finished hstage with ⟨hu, -⟩ | ⟨-, hpub, -⟩ | hend
  · rw [hu.logEmpty]
    exact ⟨rolledBack_nil, hflag⟩
  · rw [hp] at hpub
    cases hpub
  · exact ⟨hend.undone hflag, hflag⟩

/-- **A step of the companion keeps `RollbackInv`.** -/
theorem RollbackInv.companionStep {s s' : Transaction} {outcome : Outcome} (hinv : Inv plan s)
    (h : RollbackInv s.shared.status s.worker s.namespaceLog) (hstep : companionStep plan s outcome = some s') :
    RollbackInv s'.shared.status s'.worker s'.namespaceLog := by
  have hinv' : Inv plan s' := companionStep_inv hstep hinv
  obtain ⟨-, hlog, hworker⟩ := companionStep_frame hstep
  have hknows := hinv.companion.knows
  rcases hworker with hworker | ⟨-, perf, hworker⟩
  · rw [hworker, hlog]
    cases companionStep_move hstep with
    | idle hs =>
        rw [hs]
        exact h
    | taint hpc _ hs =>
        simp only [Knows, hpc] at hknows
        refine ⟨fun _ hg => ?_, h.unpublished, fun hr => ?_⟩
        · rw [hknows.1] at hg
          cases hg
        · rw [hs] at hr
          cases hr
    | fail hpc _ _ =>
        simp only [Knows, hpc] at hknows
        exact .of_unleased hinv.status.loc hknows.1
    | mark hpc _ _ =>
        simp only [Knows, hpc] at hknows
        exact .of_unleased hinv.status.loc hknows.1
    | publish source terminal hpc hs _ =>
        simp only [Knows, hpc] at hknows
        obtain ⟨hgone, hreceived, rfl, -, -⟩ := hknows
        refine ⟨fun _ hg => ?_, h.unpublished, fun _ => ?_⟩
        · rw [hgone] at hg
          cases hg
        · exact h.undone_of_sent hinv.status (hinv.companion.received hreceived).1 hs
  · refine .of_unleased hinv'.status.loc (hinv'.status.loc.before ?_).1
    rw [hworker]
    rfl

theorem RollbackInv.cancel {s : Transaction} {deadlinePassed : Bool} (hinv : Inv plan s)
    (h : RollbackInv s.shared.status s.worker s.namespaceLog) (hok : UnracedTaint s (.app deadlinePassed))
    (hsource : s.app.pc = .casPending ∧ s.shared.status = pending ∨
      s.app.pc = .casApplying ∧ s.shared.status = applying) :
    RollbackInv cancelRequested s.worker s.namespaceLog := by
  refine ⟨fun hstage hrun hflag => ?_, h.unpublished, fun hr => (nomatch hr)⟩
  rcases hsource with ⟨-, hs⟩ | ⟨hpc, hs⟩
  · have hl := (hinv.status.pending hs).1
    rw [(hinv.status.loc.holding (Or.inr hstage)).1] at hl
    cases hl
  · refine absurd ⟨hpc, hs, ?_, ?_⟩ hok
    · simp only [Worker.gone, Bool.or_eq_false_iff, Bool.not_eq_false'] at hrun
      exact hrun.1
    · simpa [hflag] using (hinv.status.loc.final_terminal hstage).2

/-- **Every step that is not a raced cancel keeps `RollbackInv`.** -/
theorem step_rollbackInv {s s' : Transaction} {l : Label} (hinv : Inv plan s)
    (h : RollbackInv s.shared.status s.worker s.namespaceLog) (hok : UnracedTaint s l)
    (hstep : step plan s l = some s') : RollbackInv s'.shared.status s'.worker s'.namespaceLog := by
  cases l with
  | app deadlinePassed =>
      obtain ⟨hworker, -, -, hlog⟩ := appStep_frame hstep
      rw [hworker, hlog]
      cases appStep_move hstep with
      | idle hshared _ =>
          rw [hshared]
          exact h
      | cancel hsource hstatus _ =>
          rw [hstatus]
          exact h.cancel hinv hok hsource
  | worker input =>
      exact h.work hinv (workerStep_move hstep hinv.status.loc) (workerStep_frame hstep)
        (workerStep_local hstep hinv.status.loc)
  | workerDies =>
      obtain ⟨-, -, rfl⟩ := workerDies_eq_some hstep
      exact ⟨fun _ hg => (nomatch hg), h.unpublished, h.rolledBack⟩
  | companion outcome => exact h.companionStep hinv hstep

/-- **`kRollbackComplete` keeps its promise in every run without a raced cancel**: `/storage` kept its
propagation, every mount that was attached is detached and was found gone, and none of the worker's flags is
up. -/
theorem rolledBack_of_unraced (plan : TransactionPlan) {s : Transaction}
    (h : Run.ReachesBy (step plan) UnracedTaint .initial s) (hs : s.shared.status = rollbackComplete) :
    RolledBack s.namespaceLog ∧ s.worker.flagged = false := by
  have hinv : RollbackInv s.shared.status s.worker s.namespaceLog := by
    refine h.invariant_under (I := fun s => RollbackInv s.shared.status s.worker s.namespaceLog)
      (fun _ => reachable_inv) ?_ fun _ _ _ hinv hr hok hstep => ?_
    · exact .of_unleased (initial_inv plan).status.loc rfl
    · exact step_rollbackInv hinv hr hok hstep
  exact hinv.rolledBack hs

/-- The app's deadline passes, its grace passes too, and it is about to cancel. -/
def appTimesOut : List Label := [.app true, .app true, .app true, .app true]

/-- The redirect is mounted, the app cancels, and the worker takes the mount back. -/
def cancelledRun : List Label :=
  [.companion .ok, .worker .tick, .worker (.preflight (.passed false {} true)), .worker .tick, .worker .tick,
    .worker (.call .ok), .worker .tick, .worker .mounted] ++ appTimesOut ++
  [.app true, .worker .tick, .worker .tick, .worker (.call .ok), .worker (.confirmed 7), .worker (.call .ok),
    .worker (.call .ok), .worker (.call .ok), .worker (.call .ok), .worker .tick, .worker .tick, .worker .tick]

theorem rolledBack_of_unraced_cancelledRun :
    ∃ s, Run.ReachesBy (step oneRedirect) UnracedTaint .initial s ∧ s.shared.status = rollbackComplete ∧
      s.namespaceLog = [.attach 0, .detach 0, .verifiedGone 0] ∧ RolledBack s.namespaceLog := by
  refine ⟨_, Run.reachesBy_of_runLabels cancelledRun rfl, rfl, rfl, ?_⟩
  exact (rolledBack_of_unraced oneRedirect (Run.reachesBy_of_runLabels cancelledRun rfl) rfl).1

/-- `/storage` is made private, the mount fails, and the app cancels just before the worker's publish of
`kNamespaceTainted`. -/
def racedRun : List Label :=
  [.companion .ok, .worker .tick,
    .worker (.preflight (.passed true
      { capabilities := { primitives := kCapabilityOpenTreeMoveMount, strictActions := kMountActionRedirect } } true)),
    .worker .tick, .worker .tick, .worker (.call .ok), .worker .tick,
    .worker (.notMounted ⟨ EIO, EIO_ne_zero⟩ .apply true)] ++ appTimesOut ++
  [.worker .tick, .worker .tick, .worker .tick, .worker .tick, .app true, .worker .tick, .worker (.call .ok),
    .worker .tick, .companion .ok, .companion .ok, .companion .ok, .companion .ok, .companion .ok, .companion .ok]

/-- **A raced cancel breaks the promise**: `kRollbackComplete` over a `/storage` that was made private. -/
theorem rollbackComplete_raced :
    ∃ s, Reachable oneRedirect s ∧ s.shared.status = rollbackComplete ∧ s.worker.propagationChanged = true ∧
      ¬ RolledBack s.namespaceLog := by
  refine ⟨_, Run.reaches_of_runLabels racedRun rfl, rfl, rfl, fun h => h.1 ?_⟩
  exact List.mem_singleton_self _

end PathGuard.Zygisk

import PathGuard.Zygisk.Moves

/-!
# The invariant of the transaction

Which standing of the worker goes with which value of the status word (`StatusInv`), and what the companion
knows at each place of `CompanionHandler` (`CompanionInv`). Every step keeps both (`step_inv`), so they hold
in every reachable state (`reachable_inv`).
-/

namespace PathGuard.Zygisk

open MountTransactionState

/-! ## The status word and the worker -/

/-- What the value of the status word says about the worker and about the app's cancel. -/
structure StatusInv (plan : TransactionPlan) (status : MountTransactionState)
    (cancelledFrom : Option MountTransactionState) (w : Worker) (log : List NamespaceEvent) : Prop where
  loc : Local plan w log
  pending : status = pending → w.leased = false ∧ cancelledFrom = none
  applying : status = applying → w.leased = true ∧ cancelledFrom = none ∧ w.pc.stage ≠ .finished
  complete : status = complete →
    w.pc.stage = .finished ∧ w.published = true ∧ w.perf.result = 0 ∧ cancelledFrom = none
  released : status = cancelled ∨ status = failed → w.leased = false
  cancelledEarly : cancelledFrom = some .pending → w.leased = false
  published : w.published = true → isMountTransactionTerminal status = true
  held : w.leased = true → w.published = false → w.gone = false →
    status = .applying ∨ status = .cancelRequested
  final : w.pc.stage = .final → w.gone = false →
    w.current = status ∨ w.current = .applying ∧ status = .cancelRequested

theorem Local.unleased {plan : TransactionPlan} {w : Worker} {log : List NamespaceEvent} (h : Local plan w log)
    (hl : w.leased = false) : w.published = false ∧ log = [] ∧ w.flagged = false := by
  cases hs : w.pc.stage with
  | before => exact (h.before hs).2
  | holding => rw [(h.holding (Or.inl hs)).1] at hl; cases hl
  | final => rw [(h.holding (Or.inr hs)).1] at hl; cases hl
  | finished =>
      rcases h.finished hs with ⟨hu, -, hflag⟩ | ⟨hleased, -⟩ | hend
      · exact ⟨hu.unpublished, hu.logEmpty, hflag⟩
      · rw [hleased] at hl; cases hl
      · rw [hend.leased] at hl; cases hl

theorem Local.die {plan : TransactionPlan} {w : Worker} {log : List NamespaceEvent} (h : Local plan w log) :
    Local plan { w with alive := false } log := by
  have untouched : Untouched w log → Untouched { w with alive := false } log :=
    fun h => ⟨h.leased, h.unpublished, h.logEmpty⟩
  have fresh : Fresh w → Fresh { w with alive := false } :=
    fun h => ⟨h.error, h.journal, h.notChanged, h.notUntracked, h.notFailed, h.notPublished⟩
  have holding : Holding w log → Holding { w with alive := false } log :=
    fun h => ⟨h.leased, h.unpublished, h.privateKnown, h.tracked, h.journaled⟩
  have mutating : ∀ {n}, Mutating w log n → Mutating { w with alive := false } log n :=
    fun h => ⟨holding h.toHolding, h.noDetach, h.attached, h.notFailed, h.notPublished⟩
  have ending : Ending w log → Ending { w with alive := false } log :=
    fun h => ⟨h.leased, h.failed, h.undone⟩
  have finished : Finished plan w log → Finished plan { w with alive := false } log :=
    Or.imp (And.imp_left untouched) (Or.imp_right ending)
  obtain ⟨pc⟩ := w
  cases pc <;>
    first
    | exact ⟨untouched h.1, fresh h.2⟩
    | exact mutating h
    | exact ⟨mutating h.1, h.2⟩
    | exact ⟨holding h.1, h.2⟩
    | exact ⟨ending h.1, h.2⟩
    | exact finished h

theorem Local.terminal {plan : TransactionPlan} {w : Worker} {log : List NamespaceEvent}
    {terminal : MountTransactionState} (h : Local plan w log) (hpc : w.pc = .finalCas terminal) :
    terminal = namespaceTainted ∨ terminal = rollbackComplete := by
  unfold Local at h
  rw [hpc] at h
  rw [h.2.2]
  split
  · exact Or.inl rfl
  · exact Or.inr rfl

theorem StatusInv.close {plan : TransactionPlan} {status terminal : MountTransactionState}
    {cancelledFrom : Option MountTransactionState} {w : Worker} {log : List NamespaceEvent}
    (h : StatusInv plan status cancelledFrom w log) (hover : w.gone = true ∨ w.leased = false)
    (hterminal : terminal = cancelled ∨ terminal = failed ∨ terminal = rollbackComplete ∨
      terminal = namespaceTainted)
    (hreleased : terminal = cancelled ∨ terminal = failed → w.leased = false) :
    StatusInv plan terminal cancelledFrom w log := by
  refine ⟨h.loc, ?_, ?_, ?_, hreleased, h.cancelledEarly, ?_, ?_, ?_⟩
  · rintro rfl
    simp at hterminal
  · rintro rfl
    simp at hterminal
  · rintro rfl
    simp at hterminal
  · intro _
    rcases hterminal with rfl | rfl | rfl | rfl <;> rfl
  · intro hl _ hg
    rcases hover with hover | hover
    · rw [hg] at hover; cases hover
    · rw [hl] at hover; cases hover
  · intro hs hg
    rcases hover with hover | hover
    · rw [hg] at hover; cases hover
    · rw [(h.loc.holding (Or.inr hs)).1] at hover; cases hover

theorem StatusInv.cancel {plan : TransactionPlan} {status : MountTransactionState}
    {cancelledFrom : Option MountTransactionState} {w : Worker} {log : List NamespaceEvent}
    (h : StatusInv plan status cancelledFrom w log)
    (hstatus : status = .pending ∨ status = .applying) :
    StatusInv plan cancelRequested (some status) w log := by
  refine ⟨h.loc, fun hc => (nomatch hc), fun hc => (nomatch hc), fun hc => (nomatch hc), by simp, ?_, ?_,
    fun _ _ _ => Or.inr rfl, ?_⟩
  · intro hc
    exact (h.pending (Option.some.inj hc)).1
  · intro hp
    have hterminal := h.published hp
    rcases hstatus with rfl | rfl <;> cases hterminal
  · intro hs hg
    rcases h.final hs hg with hcur | ⟨hcur, -⟩
    · rcases hstatus with rfl | rfl
      · have hl := (h.pending rfl).1
        rw [(h.loc.holding (Or.inr hs)).1] at hl
        cases hl
      · exact Or.inr ⟨hcur, rfl⟩
    · exact Or.inr ⟨hcur, rfl⟩

theorem StatusInv.die {plan : TransactionPlan} {status : MountTransactionState}
    {cancelledFrom : Option MountTransactionState} {w : Worker} {log : List NamespaceEvent}
    (h : StatusInv plan status cancelledFrom w log) :
    StatusInv plan status cancelledFrom { w with alive := false } log :=
  ⟨h.loc.die, h.pending, h.applying, h.complete, h.released, h.cancelledEarly, h.published,
    fun _ _ hg => (nomatch hg), fun _ hg => (nomatch hg)⟩

theorem StatusInv.keep {plan : TransactionPlan} {status : MountTransactionState}
    {cancelledFrom : Option MountTransactionState} {w w' : Worker} {log log' : List NamespaceEvent}
    (h : StatusInv plan status cancelledFrom w log) (hloc : Local plan w' log') (hrun : w.gone = false)
    (hl : w'.leased = w.leased) (hp : w'.published = w.published)
    (happlying : status = .applying → w'.pc.stage ≠ .finished)
    (hcomplete : w.pc.stage = .finished → w'.pc.stage = .finished ∧ w'.perf = w.perf)
    (hfinal : w'.pc.stage = .final →
      w'.current = status ∨ w'.current = .applying ∧ status = .cancelRequested) :
    StatusInv plan status cancelledFrom w' log' := by
  refine ⟨hloc, ?_, ?_, ?_, ?_, ?_, ?_, ?_, fun hs _ => hfinal hs⟩
  · rw [hl]
    exact h.pending
  · intro hs
    obtain ⟨hleased, hcancel, -⟩ := h.applying hs
    exact ⟨hl.trans hleased, hcancel, happlying hs⟩
  · intro hs
    obtain ⟨hstage, hpub, hres, hcancel⟩ := h.complete hs
    obtain ⟨hstage', hperf⟩ := hcomplete hstage
    exact ⟨hstage', hp.trans hpub, hperf ▸ hres, hcancel⟩
  · rw [hl]
    exact h.released
  · rw [hl]
    exact h.cancelledEarly
  · rw [hp]
    exact h.published
  · rw [hl, hp]
    exact fun hleased hpub _ => h.held hleased hpub hrun

/-- **A step of the worker keeps `StatusInv`.** -/
theorem StatusInv.work {plan : TransactionPlan} {cancelledFrom : Option MountTransactionState}
    {s s' : Transaction} (h : StatusInv plan s.shared.status cancelledFrom s.worker s.namespaceLog)
    (hmove : WorkerMove s s') (hrun : s.worker.gone = false) (hloc : Local plan s'.worker s'.namespaceLog) :
    StatusInv plan s'.shared.status cancelledFrom s'.worker s'.namespaceLog := by
  cases hmove with
  | work hstage hearly hstatus =>
      have hsame : s'.worker.leased = s.worker.leased ∧ s'.worker.published = s.worker.published := by
        rcases hearly with hs | hs
        · obtain ⟨hl, hp, -⟩ := h.loc.before hs
          obtain ⟨hl', hp', -⟩ := hloc.before (hstage ▸ hs)
          exact ⟨hl'.trans hl.symm, hp'.trans hp.symm⟩
        · obtain ⟨hl, hp⟩ := h.loc.holding (Or.inl hs)
          obtain ⟨hl', hp'⟩ := hloc.holding (Or.inl (hstage ▸ hs))
          exact ⟨hl'.trans hl.symm, hp'.trans hp.symm⟩
      rw [hstatus]
      refine h.keep hloc hrun hsame.1 hsame.2 (fun _ hf => ?_) (fun hf => ?_) (fun hf => ?_) <;>
        rcases hearly with hs | hs <;> rw [hs] at hstage <;> simp_all
  | giveUp hs hpc hl hp hstatus =>
      obtain ⟨hl0, -⟩ := h.loc.before hs
      rw [hstatus]
      refine h.keep hloc hrun hl hp (fun ha => ?_) (fun hf => ?_) (fun hf => ?_)
      · rw [(h.applying ha).1] at hl0
        cases hl0
      · rw [hs] at hf
        cases hf
      · rw [hpc] at hf
        cases hf
  | mark hs hpc hl hp hcancel hstatus =>
      obtain ⟨hl0, hp0, -⟩ := h.loc.before hs
      have hkeep : StatusInv plan s.shared.status cancelledFrom s'.worker s'.namespaceLog := by
        refine h.keep hloc hrun hl hp (fun ha => ?_) (fun hf => ?_) (fun hf => ?_)
        · rw [hcancel] at ha
          cases ha
        · rw [hs] at hf
          cases hf
        · rw [hpc] at hf
          cases hf
      rw [hstatus]
      exact hkeep.close (Or.inr (hl.trans hl0)) (Or.inl rfl) fun _ => hl.trans hl0
  | lease hs hs' hpending hstatus =>
      obtain ⟨hl, hp⟩ := hloc.holding (Or.inl hs')
      obtain ⟨-, hcancel⟩ := h.pending hpending
      rw [hstatus]
      refine ⟨hloc, fun hc => (nomatch hc), fun _ => ⟨hl, hcancel, by rw [hs']; decide⟩,
        fun hc => (nomatch hc), by simp, fun hc => ?_, fun hpub => ?_, fun _ _ _ => Or.inl rfl, fun hf => ?_⟩
      · rw [hcancel] at hc
        cases hc
      · rw [hp] at hpub
        cases hpub
      · rw [hs'] at hf
        cases hf
  | commit hs hpc hresult hpub happlying hstatus =>
      obtain ⟨-, hcancel, -⟩ := h.applying happlying
      have hstage : s'.worker.pc.stage = .finished := by rw [hpc]; rfl
      rw [hstatus]
      refine ⟨hloc, fun hc => (nomatch hc), fun hc => (nomatch hc),
        fun _ => ⟨hstage, hpub, hresult, hcancel⟩, by simp, fun hc => ?_, fun _ => rfl,
        fun _ hn => ?_, fun hf => ?_⟩
      · rw [hcancel] at hc
        cases hc
      · rw [hpub] at hn
        cases hn
      · rw [hstage] at hf
        cases hf
  | choose terminal hpc hpc' hcur hstatus =>
      obtain ⟨hl, hp⟩ := h.loc.holding (Or.inl (by rw [hpc]; rfl))
      obtain ⟨hl', hp'⟩ := hloc.holding (Or.inr (by rw [hpc']; rfl))
      rw [hstatus]
      refine h.keep hloc hrun (hl'.trans hl.symm) (hp'.trans hp.symm) (fun _ => ?_) (fun hf => ?_)
        (fun _ => Or.inl hcur)
      · rw [hpc']
        exact fun hf => (nomatch hf)
      · rw [hpc] at hf
        cases hf
  | skip hpc hpc' hna hnc hstatus =>
      obtain ⟨hl, hp⟩ := h.loc.holding (Or.inl (by rw [hpc]; rfl))
      rcases h.held hl hp hrun with hs | hs
      · exact absurd hs hna
      · exact absurd hs hnc
  | store terminal hpc hw hstatus =>
      have hstage : s.worker.pc.stage = .final := by rw [hpc]; rfl
      rw [hstatus]
      refine h.keep hloc hrun (by rw [hw]) (by rw [hw]) (fun _ => ?_) (fun hf => ?_) (fun _ => ?_)
      · rw [hw]
        exact fun hf => (nomatch hf)
      · rw [hstage] at hf
        cases hf
      · rw [hw]
        exact h.final hstage hrun
  | publish terminal hpc hw _ hcur hstatus =>
      have hleased : s'.worker.leased = true := by
        rw [hw]
        exact (h.loc.holding (Or.inr (by rw [hpc]; rfl))).1
      have hpub : s'.worker.published = true := by rw [hw]
      have hstage : s'.worker.pc.stage = .finished := by rw [hw]; rfl
      have hcancel : cancelledFrom ≠ some .pending := by
        intro hc
        rw [hw, h.cancelledEarly hc] at hleased
        cases hleased
      rw [hstatus]
      refine ⟨hloc, ?_, ?_, ?_, ?_, fun hc => absurd hc hcancel, fun _ => ?_, fun _ hn => ?_, fun hf => ?_⟩
      · rintro rfl
        rcases h.loc.terminal hpc with ht | ht <;> cases ht
      · rintro rfl
        rcases h.loc.terminal hpc with ht | ht <;> cases ht
      · rintro rfl
        rcases h.loc.terminal hpc with ht | ht <;> cases ht
      · rcases h.loc.terminal hpc with rfl | rfl <;> simp
      · rcases h.loc.terminal hpc with rfl | rfl <;> rfl
      · rw [hpub] at hn
        cases hn
      · rw [hstage] at hf
        cases hf
  | lose terminal hpc hw hlost hstatus =>
      have hstage : s.worker.pc.stage = .final := by rw [hpc]; rfl
      rw [hstatus]
      refine h.keep hloc hrun (by rw [hw]) (by rw [hw]) (fun ha => ?_) (fun hf => ?_) (fun hf => ?_)
      · refine absurd ?_ hlost
        have hcur : s.worker.current = .applying := by
          rcases h.final hstage hrun with hcur | ⟨hcur, -⟩
          · exact hcur.trans ha
          · exact hcur
        rw [hcur, ha]
        rcases h.loc.terminal hpc with rfl | rfl <;> exact ⟨rfl, rfl⟩
      · rw [hstage] at hf
        cases hf
      · rw [hw] at hf
        cases hf
  | leave pc hpc hw hstatus =>
      have hstage : s.worker.pc.stage = .finished := by
        rcases hpc with ⟨hpc, -⟩ | ⟨hpc, -⟩ <;> rw [hpc] <;> rfl
      have hstage' : s'.worker.pc.stage = .finished := by
        rw [hw]
        rcases hpc with ⟨-, rfl⟩ | ⟨-, rfl⟩ <;> rfl
      rw [hstatus]
      refine h.keep hloc hrun (by rw [hw]) (by rw [hw]) (fun ha => ?_) (fun _ => ⟨hstage', by rw [hw]⟩)
        (fun hf => ?_)
      · exact absurd hstage (h.applying ha).2.2
      · rw [hstage'] at hf
        cases hf

/-! ## What the companion knows -/

/-- What the companion knows of the worker, and what it is about to publish, where it stands. -/
def Knows (c : Companion) (w : Worker) : Prop :=
  match c.pc with
  | .fork => c.forked = false ∧ c.mountResultReceived = false
  | .read | .signalLoad | .sigkill | .sigterm | .readAgain | .sigkillAgain =>
      c.forked = true ∧ c.mountResultReceived = false
  | .wait => c.forked = true
  | .afterWait => w.gone = true
  | .taintStore | .taintCas => w.gone = true ∧ (c.afterWait = applying ∨ c.afterWait = cancelRequested)
  | .finalLoad | .returned => w.gone = true ∨ c.forked = false
  | .failStore | .failCas | .failLoad | .failMark => w.leased = false ∧ (w.gone = true ∨ c.forked = false)
  | .publishStore source terminal | .publishCas source terminal =>
      w.gone = true ∧ c.mountResultReceived = true ∧ source = cancelRequested ∧ terminal = rollbackComplete ∧
        c.mountResult.result ≠ 0

/-- What passes from the worker to the companion. -/
structure CompanionInv (c : Companion) (w : Worker) (channel : Option MountPerfResult) : Prop where
  knows : Knows c w
  unforked : c.forked = false → w.pc = .notStarted
  sent : ∀ result, channel = some result → (w.pc = .sent ∨ w.pc = .exited) ∧ result = w.perf
  received : c.mountResultReceived = true → (w.pc = .sent ∨ w.pc = .exited) ∧ c.mountResult = w.perf

/-- **The invariant of the transaction.** -/
structure Inv (plan : TransactionPlan) (s : Transaction) : Prop where
  status : StatusInv plan s.shared.status s.app.cancelledFrom s.worker s.namespaceLog
  companion : CompanionInv s.companion s.worker s.channel

theorem CompanionInv.forked_of_received {c : Companion} {w : Worker} {channel : Option MountPerfResult}
    (h : CompanionInv c w channel) (hr : c.mountResultReceived = true) : c.forked = true := by
  by_contra hf
  have hw := (h.received hr).1
  rw [h.unforked (Bool.not_eq_true _ ▸ hf)] at hw
  simp at hw

theorem Knows.running {c : Companion} {w w' : Worker} (h : Knows c w) (hrun : w.gone = false)
    (hforked : c.forked = true) : Knows c w' := by
  unfold Knows at h ⊢
  split at h <;> simp_all

theorem WorkerMove.leaving {s s' : Transaction} (hmove : WorkerMove s s')
    (hstage : s.worker.pc.stage = .finished) :
    s'.shared.status = s.shared.status ∧
      (s.worker.pc = .send ∧ s'.worker = { s.worker with pc := .sent } ∨
        s.worker.pc = .sent ∧ s'.worker = { s.worker with pc := .exited }) := by
  cases hmove with
  | work _ hs _ => rcases hs with hs | hs <;> rw [hstage] at hs <;> cases hs
  | giveUp hs => rw [hstage] at hs; cases hs
  | mark hs => rw [hstage] at hs; cases hs
  | lease hs => rw [hstage] at hs; cases hs
  | commit hs => rw [hstage] at hs; cases hs
  | choose _ hs => rw [hs] at hstage; cases hstage
  | skip hs => rw [hs] at hstage; cases hstage
  | store _ hs => rw [hs] at hstage; cases hstage
  | publish _ hs => rw [hs] at hstage; cases hstage
  | lose _ hs => rw [hs] at hstage; cases hstage
  | leave pc hs hw hstatus =>
      rcases hs with ⟨hs, rfl⟩ | ⟨hs, rfl⟩
      · exact ⟨hstatus, Or.inl ⟨hs, hw⟩⟩
      · exact ⟨hstatus, Or.inr ⟨hs, hw⟩⟩

/-- **A step of the worker keeps `CompanionInv`.** -/
theorem CompanionInv.work {s s' : Transaction} (h : CompanionInv s.companion s.worker s.channel)
    (hmove : WorkerMove s s') (hframe : WorkerFrame s s') :
    CompanionInv s.companion s'.worker s'.channel := by
  have hforked : s.companion.forked = true := by
    by_contra hf
    exact hframe.started (h.unforked (Bool.not_eq_true _ ▸ hf))
  have hexited : s.worker.pc ≠ .exited := by
    intro hpc
    have hrun := hframe.running
    simp [Worker.gone, hpc] at hrun
  have hstep : s.worker.pc = .sent ∨ s.worker.pc = .exited →
      (s'.worker.pc = .sent ∨ s'.worker.pc = .exited) ∧ s'.worker.perf = s.worker.perf := by
    intro hpc
    have hsent := hpc.resolve_right hexited
    rcases (hmove.leaving (by rw [hsent]; rfl)).2 with ⟨hsend, -⟩ | ⟨-, hw⟩
    · rw [hsent] at hsend
      cases hsend
    · rw [hw]
      exact ⟨Or.inr rfl, rfl⟩
  refine ⟨h.knows.running hframe.running hforked, fun hf => ?_, fun result hresult => ?_, fun hreceived => ?_⟩
  · rw [hforked] at hf
    cases hf
  · rcases hframe.channel with hchannel | ⟨hpc, hchannel⟩
    · obtain ⟨hpc, hperf⟩ := h.sent result (hchannel ▸ hresult)
      exact ⟨(hstep hpc).1, hperf.trans (hstep hpc).2.symm⟩
    · rw [hchannel, Option.some.injEq] at hresult
      rcases (hmove.leaving (by rw [hpc]; rfl)).2 with ⟨-, hw⟩ | ⟨hsent, -⟩
      · rw [hw]
        exact ⟨Or.inl rfl, hresult.symm⟩
      · rw [hpc] at hsent
        cases hsent
  · obtain ⟨hpc, hperf⟩ := h.received hreceived
    exact ⟨(hstep hpc).1, hperf.trans (hstep hpc).2.symm⟩

theorem CompanionInv.die {c : Companion} {w : Worker} {channel : Option MountPerfResult}
    (h : CompanionInv c w channel) : CompanionInv c { w with alive := false } channel := by
  have hknows : Knows c { w with alive := false } := by
    have hk := h.knows
    unfold Knows at hk ⊢
    split at hk <;> simp_all [Worker.gone]
  exact ⟨hknows, h.unforked, h.sent, h.received⟩

/-! ## Every step keeps the invariant -/

theorem StatusInv.cas {plan : TransactionPlan} {shared : SharedMountState} {expected desired : MountTransactionState}
    {cancelledFrom : Option MountTransactionState} {w : Worker} {log : List NamespaceEvent}
    (h : StatusInv plan shared.status cancelledFrom w log) (hover : w.gone = true ∨ w.leased = false)
    (hterminal : desired = cancelled ∨ desired = failed ∨ desired = rollbackComplete ∨
      desired = namespaceTainted)
    (hreleased : desired = cancelled ∨ desired = failed → w.leased = false) :
    StatusInv plan (transitionSharedState shared expected desired).1.status cancelledFrom w log := by
  rw [transition_status]
  split
  · exact h.close hover hterminal hreleased
  · exact h

theorem StatusInv.fork {plan : TransactionPlan} {status : MountTransactionState}
    {cancelledFrom : Option MountTransactionState} {w : Worker} {log : List NamespaceEvent}
    (h : StatusInv plan status cancelledFrom w log) (hpc : w.pc = .notStarted) (perf : MountPerfResult) :
    StatusInv plan status cancelledFrom { w with pc := .checkStart, perf := perf } log := by
  have hloc := h.loc
  simp only [Local, hpc] at hloc
  obtain ⟨hu, hf⟩ := hloc
  refine ⟨⟨(hu.setPc _).setPerf _, (hf.setPc _).setPerf _⟩, h.pending, fun hs => ?_, fun hs => ?_, h.released,
    h.cancelledEarly, h.published, fun hl => ?_, (fun hs => by cases hs)⟩
  · exact ⟨(h.applying hs).1, (h.applying hs).2.1, (fun hc => by cases hc)⟩
  · have hstage := (h.complete hs).1
    rw [hpc] at hstage
    cases hstage
  · exact absurd (hu.leased.symm.trans hl) (by decide)

/-- **A step of the companion keeps the invariant.** -/
theorem companionStep_inv {plan : TransactionPlan} {s s' : Transaction} {outcome : Outcome}
    (hstep : companionStep plan s outcome = some s') (h : Inv plan s) : Inv plan s' := by
  have hinv := h.companion
  obtain ⟨hstatus, hknows, hunforked, hsent, hreceived⟩ := h
  unfold companionStep at hstep
  simp only at hstep
  split at hstep
  · next hpc =>
    simp only [Knows, hpc] at hknows
    rw [← Option.some.inj hstep]
    refine ⟨hstatus.fork (hunforked hknows.1) _, ⟨rfl, hknows.2⟩, fun hf => (nomatch hf), fun result hr => ?_,
      fun hr => ?_⟩
    · have hw := (hsent result hr).1
      rw [hunforked hknows.1] at hw
      simp at hw
    · rw [hknows.2] at hr
      cases hr
  · next error hpc =>
    simp only [Knows, hpc] at hknows
    rw [← Option.some.inj hstep]
    refine ⟨hstatus, Or.inr hknows.1, hunforked, hsent, fun hr => ?_⟩
    rw [hknows.2] at hr
    cases hr
  · next hpc =>
    simp only [Knows, hpc] at hknows
    split at hstep
    · next result hchannel =>
      rw [← Option.some.inj hstep]
      exact ⟨hstatus, hknows.1, hunforked, fun _ hr => (nomatch hr), fun _ => hsent result hchannel⟩
    · cases hstep
  · next hpc =>
    simp only [Knows, hpc] at hknows
    split at hstep
    · cases hstep
    · rw [← Option.some.inj hstep]
      exact ⟨hstatus, hknows, hunforked, hsent, hreceived⟩
  · next hpc =>
    simp only [Knows, hpc] at hknows
    split at hstep <;> rw [← Option.some.inj hstep] <;> exact ⟨hstatus, hknows, hunforked, hsent, hreceived⟩
  · next hpc =>
    simp only [Knows, hpc] at hknows
    rw [← Option.some.inj hstep]
    refine ⟨hstatus, hknows.1, hunforked, hsent, fun hr => ?_⟩
    rw [hknows.2] at hr
    cases hr
  · next hpc =>
    simp only [Knows, hpc] at hknows
    rw [← Option.some.inj hstep]
    exact ⟨hstatus, hknows, hunforked, hsent, hreceived⟩
  · next hpc =>
    simp only [Knows, hpc] at hknows
    split at hstep
    · next result hchannel =>
      rw [← Option.some.inj hstep]
      exact ⟨hstatus, hknows.1, hunforked, fun _ hr => (nomatch hr), fun _ => hsent result hchannel⟩
    · cases hstep
  · next hpc =>
    simp only [Knows, hpc] at hknows
    split at hstep
    · cases hstep
    · rw [← Option.some.inj hstep]
      exact ⟨hstatus, hknows, hunforked, hsent, hreceived⟩
  · next hpc =>
    simp only [Knows, hpc] at hknows
    rw [← Option.some.inj hstep]
    refine ⟨hstatus, hknows.1, hunforked, hsent, fun hr => ?_⟩
    rw [hknows.2] at hr
    cases hr
  · split at hstep
    · next hgone =>
      rw [← Option.some.inj hstep]
      exact ⟨hstatus, hgone, hunforked, hsent, hreceived⟩
    · cases hstep
  · next hpc =>
    simp only [Knows, hpc] at hknows
    split at hstep <;> rw [← Option.some.inj hstep]
    · next hc =>
      simp only [Bool.and_eq_true, Bool.or_eq_true, decide_eq_true_eq] at hc
      exact ⟨hstatus, ⟨hknows, hc.2⟩, hunforked, hsent, hreceived⟩
    · exact ⟨hstatus, Or.inl hknows, hunforked, hsent, hreceived⟩
  · next hpc =>
    simp only [Knows, hpc] at hknows
    rw [← Option.some.inj hstep]
    exact ⟨hstatus, hknows, hunforked, hsent, hreceived⟩
  · next hpc =>
    simp only [Knows, hpc] at hknows
    rw [← Option.some.inj hstep]
    exact ⟨hstatus.cas (Or.inl hknows.1) (by simp) (by simp), Or.inl hknows.1, hunforked, hsent, hreceived⟩
  · next hpc =>
    simp only [Knows, hpc] at hknows
    split at hstep
    · next hpending =>
      rw [← Option.some.inj hstep]
      exact ⟨hstatus, ⟨(hstatus.pending hpending).1, hknows⟩, hunforked, hsent, hreceived⟩
    · have hgone : s.companion.mountResultReceived = true → s.worker.gone = true := by
        intro hr
        exact hknows.resolve_right (by rw [hinv.forked_of_received hr]; decide)
      split at hstep
      · next hc =>
        simp only [Bool.and_eq_true, decide_eq_true_eq] at hc
        rw [← Option.some.inj hstep]
        exact ⟨hstatus, ⟨hgone hc.1.1, hc.1.1, rfl, rfl, hc.2⟩, hunforked, hsent, hreceived⟩
      · split at hstep
        · next hc =>
          -- a worker that has sent its result does not leave the word at kApplying
          simp only [Bool.and_eq_true, decide_eq_true_eq] at hc
          refine absurd ?_ (hstatus.applying hc.2).2.2
          rcases (hreceived hc.1).1 with hpc | hpc <;> rw [hpc] <;> rfl
        · rw [← Option.some.inj hstep]
          exact ⟨hstatus, hknows, hunforked, hsent, hreceived⟩
  · next hpc =>
    simp only [Knows, hpc] at hknows
    rw [← Option.some.inj hstep]
    exact ⟨hstatus, hknows, hunforked, hsent, hreceived⟩
  · next hpc =>
    simp only [Knows, hpc] at hknows
    split at hstep <;> rw [← Option.some.inj hstep]
    · exact ⟨hstatus.cas (Or.inr hknows.1) (by simp) fun _ => hknows.1, hknows.2, hunforked, hsent, hreceived⟩
    · exact ⟨hstatus, hknows, hunforked, hsent, hreceived⟩
  · next hpc =>
    simp only [Knows, hpc] at hknows
    split at hstep <;> rw [← Option.some.inj hstep]
    · exact ⟨hstatus, hknows, hunforked, hsent, hreceived⟩
    · exact ⟨hstatus, hknows.2, hunforked, hsent, hreceived⟩
  · next hpc =>
    simp only [Knows, hpc] at hknows
    rw [← Option.some.inj hstep]
    exact ⟨hstatus.cas (Or.inr hknows.1) (by simp) fun _ => hknows.1, hknows.2, hunforked, hsent, hreceived⟩
  · next hpc =>
    simp only [Knows, hpc] at hknows
    rw [← Option.some.inj hstep]
    exact ⟨hstatus, hknows, hunforked, hsent, hreceived⟩
  · next hpc =>
    simp only [Knows, hpc] at hknows
    obtain ⟨hgone, -, rfl, rfl, -⟩ := hknows
    rw [← Option.some.inj hstep]
    exact ⟨hstatus.cas (Or.inl hgone) (by simp) (by simp), Or.inl hgone, hunforked, hsent, hreceived⟩
  · cases hstep

theorem workerDies_inv {plan : TransactionPlan} {s s' : Transaction} (hstep : workerDies s = some s')
    (h : Inv plan s) : Inv plan s' := by
  obtain ⟨-, -, rfl⟩ := workerDies_eq_some hstep
  exact ⟨h.status.die, h.companion.die⟩

/-- **Every step keeps the invariant.** -/
theorem step_inv {plan : TransactionPlan} {s s' : Transaction} {l : Label} (hstep : step plan s l = some s')
    (h : Inv plan s) : Inv plan s' := by
  cases l with
  | app deadlinePassed =>
      obtain ⟨hworker, hcompanion, hchannel, hlog⟩ := appStep_frame hstep
      have hstatus : StatusInv plan s'.shared.status s'.app.cancelledFrom s.worker s.namespaceLog := by
        cases appStep_move hstep with
        | idle hshared hcancel =>
            rw [hshared, hcancel]
            exact h.status
        | cancel hsource hstatus hcancel =>
            rw [hstatus, hcancel]
            exact h.status.cancel (hsource.imp And.right And.right)
      exact ⟨by rw [hworker, hlog]; exact hstatus, by rw [hworker, hcompanion, hchannel]; exact h.companion⟩
  | worker input =>
      have hframe := workerStep_frame hstep
      have hmove := workerStep_move hstep h.status.loc
      refine ⟨?_, ?_⟩
      · rw [hframe.app]
        exact h.status.work hmove hframe.running (workerStep_local hstep h.status.loc)
      · rw [hframe.companion]
        exact h.companion.work hmove hframe
  | workerDies => exact workerDies_inv hstep h
  | companion outcome => exact companionStep_inv hstep h

theorem initial_inv (plan : TransactionPlan) : Inv plan .initial := by
  refine ⟨⟨?_, fun _ => ⟨rfl, rfl⟩, ?_, ?_, ?_, ?_, ?_, ?_, ?_⟩, ⟨⟨rfl, rfl⟩, fun _ => rfl, ?_, ?_⟩⟩
  · exact ⟨⟨rfl, rfl, rfl⟩, rfl, rfl, rfl, rfl, rfl, rfl⟩
  all_goals simp [Transaction.initial, WorkerPc.stage]

/-- **The invariant holds in every reachable state.** -/
theorem reachable_inv {plan : TransactionPlan} {s : Transaction} (h : Reachable plan s) : Inv plan s :=
  h.invariant (initial_inv plan) fun _ _ _ hinv _ hstep => step_inv hstep hinv

end PathGuard.Zygisk

import PathGuard.Zygisk.WorkerInv

/-!
# What a step can do to the status word

`WorkerMove`, `AppMove` and `CompanionMove` list what a step of each party can do to the shared status word
and to the party's own standing; `WorkerFrame`, `AppFrame` and `CompanionFrame` say what it leaves alone. The
later invariants are proved from these lists and do not open the step functions of the app and of the worker
again.
-/

namespace PathGuard.Zygisk

open MountTransactionState

/-! ## The compare-and-swap -/

theorem transition_status (state : SharedMountState) (expected desired : MountTransactionState) :
    (transitionSharedState state expected desired).1.status =
      if isMountTransitionAllowed expected desired ∧ state.status = expected then desired
      else state.status := by
  unfold transitionSharedState
  by_cases h : isMountTransitionAllowed expected desired && state.status == expected
  · rw [if_pos h, if_pos (by simpa using h)]
  · rw [if_neg h, if_neg (by simpa using h)]

theorem transition_succeeds {state : SharedMountState} {expected desired : MountTransactionState} :
    (transitionSharedState state expected desired).2 = true ↔
      isMountTransitionAllowed expected desired = true ∧ state.status = expected := by
  unfold transitionSharedState
  split <;> simp_all

theorem transition_cases (state : SharedMountState) (expected desired : MountTransactionState) :
    (transitionSharedState state expected desired).1.status = state.status ∨
      state.status = expected ∧ (transitionSharedState state expected desired).1.status = desired := by
  rw [transition_status]
  split
  · next hcas => exact Or.inr ⟨hcas.2, rfl⟩
  · exact Or.inl rfl

/-! ## Moves of the worker -/

/-- Before the lease, holding it, about to publish the outcome of a rollback, or done. -/
inductive Stage
  | before
  | holding
  | final
  | finished
  deriving DecidableEq

def WorkerPc.stage : WorkerPc → Stage
  | .notStarted | .checkStart | .preflight | .checkLease | .lease | .leaseLoad | .leaseMark => .before
  | .finalStore _ | .finalCas _ => .final
  | .send | .sent | .exited => .finished
  | _ => .holding

theorem Local.before {plan : TransactionPlan} {w : Worker} {log : List NamespaceEvent} (h : Local plan w log)
    (hs : w.pc.stage = .before) :
    w.leased = false ∧ w.published = false ∧ log = [] ∧ w.flagged = false := by
  have key : Untouched w log ∧ Fresh w := by
    unfold Local at h
    cases hpc : w.pc <;> rw [hpc] at h hs <;> first | exact h | cases hs
  exact ⟨key.1.leased, key.1.unpublished, key.1.logEmpty, key.2.not_flagged⟩

theorem Local.holding {plan : TransactionPlan} {w : Worker} {log : List NamespaceEvent} (h : Local plan w log)
    (hs : w.pc.stage = .holding ∨ w.pc.stage = .final) : w.leased = true ∧ w.published = false := by
  unfold Local at h
  cases hpc : w.pc <;> rw [hpc] at h hs <;>
    first
    | exact ⟨h.leased, h.unpublished⟩
    | exact ⟨h.1.leased, h.1.unpublished⟩
    | exact ⟨h.1.leased, h.2⟩
    | exact ⟨h.1.leased, h.2.1⟩
    | simp [WorkerPc.stage] at hs

theorem Local.finished {plan : TransactionPlan} {w : Worker} {log : List NamespaceEvent} (h : Local plan w log)
    (hs : w.pc.stage = .finished) : Finished plan w log := by
  unfold Local at h
  cases hpc : w.pc <;> rw [hpc] at h hs <;> first | exact h | cases hs

/-- What a step of the worker does to the status word and to its stage. -/
inductive WorkerMove (s s' : Transaction) : Prop
  | work : s.worker.pc.stage = s'.worker.pc.stage → s.worker.pc.stage = .before ∨ s.worker.pc.stage = .holding →
      s'.shared.status = s.shared.status → WorkerMove s s'
  | giveUp : s.worker.pc.stage = .before → s'.worker.pc = .send → s'.worker.leased = s.worker.leased →
      s'.worker.published = s.worker.published → s'.shared.status = s.shared.status → WorkerMove s s'
  | mark : s.worker.pc.stage = .before → s'.worker.pc = .send → s'.worker.leased = s.worker.leased →
      s'.worker.published = s.worker.published → s.shared.status = cancelRequested →
      s'.shared.status = cancelled → WorkerMove s s'
  | lease : s.worker.pc.stage = .before → s'.worker.pc.stage = .holding → s.shared.status = pending →
      s'.shared.status = applying → WorkerMove s s'
  | commit : s.worker.pc.stage = .holding → s'.worker.pc = .send → s'.worker.perf.result = 0 →
      s'.worker.published = true → s.shared.status = applying → s'.shared.status = complete → WorkerMove s s'
  | choose (terminal : MountTransactionState) : s.worker.pc = .finalLoad →
      s'.worker.pc = .finalStore terminal → s'.worker.current = s.shared.status →
      s'.shared.status = s.shared.status → WorkerMove s s'
  | skip : s.worker.pc = .finalLoad → s'.worker.pc = .send → s.shared.status ≠ applying →
      s.shared.status ≠ cancelRequested → s'.shared.status = s.shared.status → WorkerMove s s'
  | store (terminal : MountTransactionState) : s.worker.pc = .finalStore terminal →
      s'.worker = { s.worker with pc := .finalCas terminal } → s'.shared.status = s.shared.status →
      WorkerMove s s'
  | publish (terminal : MountTransactionState) : s.worker.pc = .finalCas terminal →
      s'.worker = { s.worker with pc := .send, published := true } →
      isMountTransitionAllowed s.worker.current terminal = true → s.shared.status = s.worker.current →
      s'.shared.status = terminal → WorkerMove s s'
  | lose (terminal : MountTransactionState) : s.worker.pc = .finalCas terminal →
      s'.worker = { s.worker with pc := .send } →
      ¬ (isMountTransitionAllowed s.worker.current terminal = true ∧ s.shared.status = s.worker.current) →
      s'.shared.status = s.shared.status → WorkerMove s s'
  | leave (pc : WorkerPc) : s.worker.pc = .send ∧ pc = .sent ∨ s.worker.pc = .sent ∧ pc = .exited →
      s'.worker = { s.worker with pc := pc } → s'.shared.status = s.shared.status → WorkerMove s s'

/-- What a step of the worker leaves alone, and where it may happen. -/
structure WorkerFrame (s s' : Transaction) : Prop where
  app : s'.app = s.app
  companion : s'.companion = s.companion
  running : s.worker.gone = false
  started : s.worker.pc ≠ .notStarted
  channel : s'.channel = s.channel ∨ s.worker.pc = .send ∧ s'.channel = some s.worker.perf
  log : s.namespaceLog <+: s'.namespaceLog
  logKept : s.worker.pc.stage ≠ .holding → s'.namespaceLog = s.namespaceLog

theorem toRollbackVerify_stage (w : Worker) (index : Nat) :
    (w.toRollbackVerify index).pc.stage = .holding := by
  unfold Worker.toRollbackVerify
  split <;> rfl

theorem toRollbackAfter_stage (w : Worker) : w.toRollbackAfter.pc.stage = .holding := by
  unfold Worker.toRollbackAfter
  split
  · rfl
  · exact toRollbackVerify_stage w _

theorem toRollbackUnmount_stage (w : Worker) (index : Nat) :
    (w.toRollbackUnmount index).pc.stage = .holding := by
  unfold Worker.toRollbackUnmount
  split
  · rfl
  · exact toRollbackAfter_stage w

theorem toRollbackValidate_stage (w : Worker) (index : Nat) :
    (w.toRollbackValidate index).pc.stage = .holding := by
  unfold Worker.toRollbackValidate
  split
  · rfl
  · exact toRollbackUnmount_stage w _

theorem toRollback_stage {w : Worker} (he : w.error ≠ 0) : w.toRollback.pc.stage = .holding := by
  unfold Worker.toRollback
  rw [if_pos he]
  split
  · exact toRollbackValidate_stage w _
  · rfl

theorem toPublish_stage {w : Worker} (hp : w.resultPublished = false) : w.toPublish.pc.stage = .holding := by
  unfold Worker.toPublish
  split
  · rfl
  · next hc =>
    refine toRollback_stage fun he => hc ?_
    rw [he, hp]
    rfl

theorem toVerify_stage {w : Worker} (hp : w.resultPublished = false) (journalIndex : Nat) :
    (w.toVerify journalIndex).pc.stage = .holding := by
  unfold Worker.toVerify
  split
  · rfl
  · exact toPublish_stage hp

theorem toSnapshot_stage {w : Worker} (hp : w.resultPublished = false) : w.toSnapshot.pc.stage = .holding := by
  unfold Worker.toSnapshot
  split
  · rfl
  · exact toPublish_stage hp

theorem toCommit_stage {w : Worker} (hp : w.resultPublished = false) : w.toCommit.pc.stage = .holding := by
  unfold Worker.toCommit
  split
  · rfl
  · exact toSnapshot_stage hp

theorem afterPreflight_stage (plan : TransactionPlan) (w : Worker) (outcome : PreflightOutcome) :
    (w.afterPreflight plan outcome).pc = .send ∨ (w.afterPreflight plan outcome).pc = .checkLease := by
  cases outcome with
  | failed perf => exact Or.inl rfl
  | passed requiresPrivate probe disposable =>
      simp only [Worker.afterPreflight]
      split_ifs <;> simp [Worker.finishPreflight]

theorem afterPreflight_leased (plan : TransactionPlan) (w : Worker) (outcome : PreflightOutcome) :
    (w.afterPreflight plan outcome).leased = w.leased := by
  cases outcome with
  | failed perf => rfl
  | passed requiresPrivate probe disposable =>
      simp only [Worker.afterPreflight]
      split_ifs <;> rfl

theorem afterPreflight_published (plan : TransactionPlan) (w : Worker) (outcome : PreflightOutcome) :
    (w.afterPreflight plan outcome).published = w.published := by
  cases outcome with
  | failed perf => rfl
  | passed requiresPrivate probe disposable =>
      simp only [Worker.afterPreflight]
      split_ifs <;> rfl

theorem recordMount_pc (w : Worker) (ruleIndex : Nat) :
    (w.recordMount ruleIndex).pc = .loop (ruleIndex + 1) := by
  simp only [Worker.recordMount]
  split <;> rfl

theorem failMount_stage {plan : TransactionPlan} {w : Worker} {ruleIndex : Nat} (hpc : w.pc = .apply ruleIndex)
    (error : Nat) (stage : MountOperationStage) (disposable : Bool) :
    (w.failMount plan ruleIndex error stage disposable).pc.stage = .holding := by
  simp only [Worker.failMount]
  split_ifs <;> first | rfl | (rw [hpc]; rfl)

theorem verifyMount_resultPublished (plan : TransactionPlan) (w : Worker) (journalIndex : Nat)
    (verified : Except Errno Nat) :
    (w.verifyMount plan journalIndex verified).resultPublished = w.resultPublished := by
  unfold Worker.verifyMount
  repeat' split
  all_goals rfl

theorem WorkerMove.hold {s s' : Transaction} (h : s.worker.pc.stage = .holding)
    (h' : s'.worker.pc.stage = .holding) (hstatus : s'.shared.status = s.shared.status) : WorkerMove s s' :=
  .work (h.trans h'.symm) (Or.inr h) hstatus

theorem toSnapshot_commit {w : Worker} (he : w.error = 0)
    (hn : needsPostMountSnapshot w.backend (!w.journal.isEmpty) true = false) :
    { w with resultPublished := true, published := true }.toSnapshot =
      { w with
        resultPublished := true, published := true, pc := .send
        perf := { w.perf with result := w.error } } := by
  simp [Worker.toSnapshot, Worker.toPublish, Worker.toRollback, he, hn]

theorem toRollback_done {w : Worker} (he : w.error = 0) :
    w.toRollback = { w with pc := .send, perf := { w.perf with result := w.error } } := by
  unfold Worker.toRollback
  rw [if_neg (not_not_intro he)]

/-- **A step of the worker is one of the moves.** -/
theorem workerStep_move {plan : TransactionPlan} {s s' : Transaction} {input : WorkerInput}
    (hstep : workerStep plan s input = some s') (h : Local plan s.worker s.namespaceLog) :
    WorkerMove s s' := by
  unfold workerStep at hstep
  simp only at hstep
  split at hstep
  · cases hstep
  split at hstep
  · next hpc =>
    split at hstep <;> rw [← Option.some.inj hstep]
    · exact .giveUp (by rw [hpc]; rfl) rfl rfl rfl rfl
    · exact .work (by rw [hpc]; rfl) (by rw [hpc]; exact Or.inl rfl) rfl
  · next outcome hpc =>
    rw [← Option.some.inj hstep]
    rcases afterPreflight_stage plan s.worker outcome with hsend | hlease
    · refine .giveUp (by rw [hpc]; rfl) hsend ?_ ?_ rfl
      · exact afterPreflight_leased plan s.worker outcome
      · exact afterPreflight_published plan s.worker outcome
    · exact .work (by rw [hpc, hlease]; rfl) (by rw [hpc]; exact Or.inl rfl) rfl
  · next hpc =>
    split at hstep <;> rw [← Option.some.inj hstep]
    · exact .giveUp (by rw [hpc]; rfl) rfl rfl rfl rfl
    · exact .work (by rw [hpc]; rfl) (by rw [hpc]; exact Or.inl rfl) rfl
  · next hpc =>
    split at hstep
    · next hcas =>
      rw [← Option.some.inj hstep]
      have hcas := transition_succeeds.mp hcas
      refine .lease (by rw [hpc]; rfl) rfl hcas.2 ?_
      exact (transition_status _ _ _).trans (if_pos hcas)
    · rw [← Option.some.inj hstep]
      exact .work (by rw [hpc]; rfl) (by rw [hpc]; exact Or.inl rfl) rfl
  · next hpc =>
    split at hstep <;> rw [← Option.some.inj hstep]
    · exact .work (by rw [hpc]; rfl) (by rw [hpc]; exact Or.inl rfl) rfl
    · exact .giveUp (by rw [hpc]; rfl) rfl rfl rfl rfl
  · next hpc =>
    rw [← Option.some.inj hstep]
    by_cases hc : s.shared.status = cancelRequested
    · exact .mark (by rw [hpc]; rfl) rfl rfl rfl hc ((transition_status _ _ _).trans (if_pos ⟨rfl, hc⟩))
    · refine .giveUp (by rw [hpc]; rfl) rfl rfl rfl ?_
      exact (transition_status _ _ _).trans (if_neg fun hcas => hc hcas.2)
  · next hpc =>
    split at hstep
    · rw [← Option.some.inj hstep]
      exact .hold (by rw [hpc]; rfl) rfl rfl
    · split at hstep <;> rw [← Option.some.inj hstep] <;> exact .hold (by rw [hpc]; rfl) rfl rfl
  · next hpc =>
    split at hstep
    · split at hstep
      · rw [← Option.some.inj hstep]
        exact .hold (by rw [hpc]; rfl) rfl rfl
      · split at hstep <;> rw [← Option.some.inj hstep] <;> exact .hold (by rw [hpc]; rfl) rfl rfl
    · rw [← Option.some.inj hstep]
      exact .hold (by rw [hpc]; rfl) rfl rfl
  · next ruleIndex hpc =>
    rw [← Option.some.inj hstep]
    exact .hold (by rw [hpc]; rfl) (congrArg WorkerPc.stage (recordMount_pc s.worker ruleIndex)) rfl
  · next ruleIndex error stage disposable hpc =>
    rw [← Option.some.inj hstep]
    exact .hold (by rw [hpc]; rfl) (failMount_stage hpc _ _ _) rfl
  · next hpc =>
    simp only [Local, hpc] at h
    split at hstep <;> rw [← Option.some.inj hstep] <;>
      exact .hold (by rw [hpc]; rfl) (toCommit_stage h.notPublished) rfl
  · next hpc =>
    rw [← Option.some.inj hstep]
    exact .hold (by rw [hpc]; rfl) rfl rfl
  · next hpc =>
    simp only [Local, hpc] at h
    split at hstep
    · next hcas =>
      rw [← Option.some.inj hstep, toSnapshot_commit h.2.1 h.2.2]
      have hcas := transition_succeeds.mp hcas
      exact .commit (by rw [hpc]; rfl) rfl h.2.1 rfl hcas.2 ((transition_status _ _ _).trans (if_pos hcas))
    · rw [← Option.some.inj hstep]
      exact .hold (by rw [hpc]; rfl) (toSnapshot_stage h.1.notPublished) rfl
  · next hpc =>
    simp only [Local, hpc] at h
    rw [← Option.some.inj hstep]
    exact .hold (by rw [hpc]; rfl) (toVerify_stage (by exact h.notPublished) _) rfl
  · next hpc =>
    simp only [Local, hpc] at h
    rw [← Option.some.inj hstep]
    exact .hold (by rw [hpc]; rfl) (toPublish_stage h.notPublished) rfl
  · next hpc =>
    simp only [Local, hpc] at h
    rw [← Option.some.inj hstep]
    exact .hold (by rw [hpc]; rfl)
      (toVerify_stage ((verifyMount_resultPublished _ _ _ _).trans h.notPublished) _) rfl
  · next hpc =>
    simp only [Local, hpc] at h
    rw [← Option.some.inj hstep]
    exact .hold (by rw [hpc]; rfl)
      (toVerify_stage ((verifyMount_resultPublished _ _ _ _).trans h.notPublished) _) rfl
  · next hpc =>
    rw [← Option.some.inj hstep]
    exact .hold (by rw [hpc]; rfl) rfl rfl
  · next hpc =>
    simp only [Local, hpc] at h
    split at hstep
    · next hcas =>
      rw [← Option.some.inj hstep, toRollback_done (by exact h.2)]
      have hcas := transition_succeeds.mp hcas
      exact .commit (by rw [hpc]; rfl) rfl h.2 rfl hcas.2 ((transition_status _ _ _).trans (if_pos hcas))
    · rw [← Option.some.inj hstep]
      exact .hold (by rw [hpc]; rfl) (toRollback_stage (show ECANCELED ≠ 0 by decide)) rfl
  · next hpc =>
    rw [← Option.some.inj hstep]
    exact .hold (by rw [hpc]; rfl) (toRollbackValidate_stage _ _) rfl
  · next hpc =>
    rw [← Option.some.inj hstep]
    exact .hold (by rw [hpc]; rfl) (toRollbackValidate_stage _ _) rfl
  · next hpc =>
    split at hstep
    · rw [← Option.some.inj hstep]
      exact .hold (by rw [hpc]; rfl) (toRollbackUnmount_stage _ _) rfl
    · split at hstep
      · rw [← Option.some.inj hstep]
        exact .hold (by rw [hpc]; rfl) (toRollbackValidate_stage _ _) rfl
      · split at hstep <;> rw [← Option.some.inj hstep] <;>
          exact .hold (by rw [hpc]; rfl) (toRollbackValidate_stage _ _) rfl
  · next hpc =>
    split at hstep
    · rw [← Option.some.inj hstep]
      exact .hold (by rw [hpc]; rfl) (toRollbackUnmount_stage _ _) rfl
    · rw [← Option.some.inj hstep]
      exact .hold (by rw [hpc]; rfl) (toRollbackUnmount_stage _ _) rfl
    · cases hstep
  · next hpc =>
    rw [← Option.some.inj hstep]
    exact .hold (by rw [hpc]; rfl) (toRollbackVerify_stage _ _) rfl
  · next hpc =>
    rw [← Option.some.inj hstep]
    exact .hold (by rw [hpc]; rfl) (toRollbackVerify_stage _ _) rfl
  · next hpc =>
    split at hstep
    · rw [← Option.some.inj hstep]
      exact .hold (by rw [hpc]; rfl) (toRollbackVerify_stage _ _) rfl
    · rw [← Option.some.inj hstep]
      exact .hold (by rw [hpc]; rfl) (toRollbackVerify_stage _ _) rfl
    · cases hstep
  · next hpc =>
    rw [← Option.some.inj hstep]
    unfold Worker.chooseFinal
    split_ifs with hflag hcur
    · exact .choose _ hpc rfl rfl rfl
    · exact .choose _ hpc rfl rfl rfl
    · rw [Bool.or_eq_true, decide_eq_true_eq, decide_eq_true_eq, not_or] at hcur
      exact .skip hpc rfl hcur.2 hcur.1 rfl
  · next terminal hpc =>
    rw [← Option.some.inj hstep]
    exact .store terminal hpc rfl rfl
  · next terminal hpc =>
    split at hstep
    · next hcas =>
      rw [← Option.some.inj hstep]
      have hcas := transition_succeeds.mp hcas
      exact .publish terminal hpc rfl hcas.1 hcas.2 ((transition_status _ _ _).trans (if_pos hcas))
    · next hcas =>
      rw [← Option.some.inj hstep]
      exact .lose terminal hpc rfl (fun hc => hcas (transition_succeeds.mpr hc)) rfl
  · next hpc =>
    rw [← Option.some.inj hstep]
    exact .leave .sent (Or.inl ⟨hpc, rfl⟩) rfl rfl
  · next hpc =>
    rw [← Option.some.inj hstep]
    exact .leave .sent (Or.inl ⟨hpc, rfl⟩) rfl rfl
  · next hpc =>
    rw [← Option.some.inj hstep]
    exact .leave .exited (Or.inr ⟨hpc, rfl⟩) rfl rfl
  · cases hstep

theorem workerStep_running {plan : TransactionPlan} {s s' : Transaction} {input : WorkerInput}
    (hstep : workerStep plan s input = some s') : s.worker.gone = false ∧ s.worker.pc ≠ .notStarted := by
  unfold workerStep at hstep
  simp only at hstep
  split at hstep
  · cases hstep
  · next halive =>
    have hexited : s.worker.pc ≠ .exited := by
      intro hpc
      rw [hpc] at hstep
      cases hstep
    have hnotStarted : s.worker.pc ≠ .notStarted := by
      intro hpc
      rw [hpc] at hstep
      cases hstep
    rw [Worker.gone, Bool.or_eq_false_iff, beq_eq_false_iff_ne]
    exact ⟨⟨Bool.eq_false_iff.mpr halive, hexited⟩, hnotStarted⟩

theorem workerStep_frame {plan : TransactionPlan} {s s' : Transaction} {input : WorkerInput}
    (hstep : workerStep plan s input = some s') : WorkerFrame s s' := by
  have hrun := workerStep_running hstep
  have hlog : ∀ e, s.namespaceLog <+: s.namespaceLog ++ [e] := fun e => List.prefix_append _ _
  have hhold : ∀ {pc : WorkerPc} {P : Prop}, s.worker.pc = pc → pc.stage = .holding →
      s.worker.pc.stage ≠ .holding → P := fun hpc hs hn => absurd (hpc ▸ hs) hn
  unfold workerStep at hstep
  simp only at hstep
  split at hstep
  · cases hstep
  split at hstep
  all_goals repeat' split at hstep
  all_goals first | cases hstep; done | skip
  all_goals rw [← Option.some.inj hstep]
  all_goals first
    | exact ⟨rfl, rfl, hrun.1, hrun.2, Or.inl rfl, List.prefix_rfl, fun _ => rfl⟩
    | exact ⟨rfl, rfl, hrun.1, hrun.2, Or.inr ⟨‹_›, rfl⟩, List.prefix_rfl, fun _ => rfl⟩
    | exact ⟨rfl, rfl, hrun.1, hrun.2, Or.inl rfl, hlog _, hhold ‹s.worker.pc = _› rfl⟩

theorem workerDies_eq_some {s s' : Transaction} (hstep : workerDies s = some s') :
    s.worker.pc ≠ .notStarted ∧ s.worker.gone = false ∧ s' = { s with worker := { s.worker with alive := false } } := by
  unfold workerDies at hstep
  split at hstep
  · cases hstep
  · next hrun =>
    simp only [Bool.or_eq_true, decide_eq_true_eq, not_or, Bool.not_eq_true] at hrun
    exact ⟨hrun.1, hrun.2, (Option.some.inj hstep).symm⟩

/-! ## Moves of the app -/

/-- What a step of the app does to the status word. -/
inductive AppMove (s s' : Transaction) : Prop
  | idle : s'.shared = s.shared → s'.app.cancelledFrom = s.app.cancelledFrom → AppMove s s'
  | cancel : s.app.pc = .casPending ∧ s.shared.status = pending ∨
      s.app.pc = .casApplying ∧ s.shared.status = applying → s'.shared.status = cancelRequested →
      s'.app.cancelledFrom = some s.shared.status → AppMove s s'

/-- What a step of the app leaves alone. -/
structure AppFrame (s s' : Transaction) : Prop where
  worker : s'.worker = s.worker
  companion : s'.companion = s.companion
  channel : s'.channel = s.channel
  log : s'.namespaceLog = s.namespaceLog

theorem appStep_frame {s s' : Transaction} {deadlinePassed : Bool} (hstep : appStep s deadlinePassed = some s') :
    AppFrame s s' := by
  unfold appStep at hstep
  simp only at hstep
  repeat' split at hstep
  all_goals first | cases hstep; done | skip
  all_goals rw [← Option.some.inj hstep]; exact ⟨rfl, rfl, rfl, rfl⟩

/-- **A step of the app is one of the moves.** -/
theorem appStep_move {s s' : Transaction} {deadlinePassed : Bool} (hstep : appStep s deadlinePassed = some s') :
    AppMove s s' := by
  unfold appStep at hstep
  simp only at hstep
  split at hstep
  · repeat' split at hstep
    all_goals rw [← Option.some.inj hstep]; exact .idle rfl rfl
  · repeat' split at hstep
    all_goals rw [← Option.some.inj hstep]; exact .idle rfl rfl
  · next hpc =>
    split at hstep
    · next hcas =>
      rw [← Option.some.inj hstep]
      have hcas := transition_succeeds.mp hcas
      exact .cancel (Or.inl ⟨hpc, hcas.2⟩) ((transition_status _ _ _).trans (if_pos hcas))
        (congrArg some hcas.2.symm)
    · rw [← Option.some.inj hstep]
      exact .idle rfl rfl
  · next hpc =>
    split at hstep
    · next hcas =>
      rw [← Option.some.inj hstep]
      have hcas := transition_succeeds.mp hcas
      exact .cancel (Or.inr ⟨hpc, hcas.2⟩) ((transition_status _ _ _).trans (if_pos hcas))
        (congrArg some hcas.2.symm)
    · rw [← Option.some.inj hstep]
      exact .idle rfl rfl
  · repeat' split at hstep
    all_goals rw [← Option.some.inj hstep]; exact .idle rfl rfl
  · cases hstep
  · cases hstep

/-! ## Moves of the companion -/

/-- What a step of the companion does to the status word. -/
inductive CompanionMove (s s' : Transaction) : Prop
  | idle : s'.shared.status = s.shared.status → CompanionMove s s'
  | taint : s.companion.pc = .taintCas → s.shared.status = s.companion.afterWait →
      s'.shared.status = namespaceTainted → CompanionMove s s'
  | fail : s.companion.pc = .failCas → s.shared.status = pending → s'.shared.status = failed →
      CompanionMove s s'
  | mark : s.companion.pc = .failMark → s.shared.status = cancelRequested → s'.shared.status = cancelled →
      CompanionMove s s'
  | publish (source terminal : MountTransactionState) : s.companion.pc = .publishCas source terminal →
      s.shared.status = source → s'.shared.status = terminal → CompanionMove s s'

/-- What a step of the companion leaves alone; the fork starts the worker. -/
structure CompanionFrame (s s' : Transaction) : Prop where
  app : s'.app = s.app
  log : s'.namespaceLog = s.namespaceLog
  worker : s'.worker = s.worker ∨
    s.companion.pc = .fork ∧ ∃ perf, s'.worker = { s.worker with pc := .checkStart, perf := perf }

theorem companionStep_frame {plan : TransactionPlan} {s s' : Transaction} {outcome : Outcome}
    (hstep : companionStep plan s outcome = some s') : CompanionFrame s s' := by
  unfold companionStep at hstep
  simp only at hstep
  split at hstep
  · next hpc =>
    rw [← Option.some.inj hstep]
    exact ⟨rfl, rfl, Or.inr ⟨hpc, _, rfl⟩⟩
  all_goals repeat' split at hstep
  all_goals first | cases hstep; done | skip
  all_goals rw [← Option.some.inj hstep]; exact ⟨rfl, rfl, Or.inl rfl⟩

/-- **A step of the companion is one of the moves.** -/
theorem companionStep_move {plan : TransactionPlan} {s s' : Transaction} {outcome : Outcome}
    (hstep : companionStep plan s outcome = some s') : CompanionMove s s' := by
  unfold companionStep at hstep
  simp only at hstep
  split at hstep
  case h_14 hpc =>
    rw [← Option.some.inj hstep]
    rcases transition_cases s.shared s.companion.afterWait namespaceTainted with hsame | ⟨hsource, hstatus⟩
    · exact .idle hsame
    · exact .taint hpc hsource hstatus
  case h_17 hpc =>
    split at hstep
    · next hdone =>
      rw [← Option.some.inj hstep]
      have hdone := transition_succeeds.mp hdone
      exact .fail hpc hdone.2 ((transition_status _ _ _).trans (if_pos hdone))
    · rw [← Option.some.inj hstep]
      exact .idle rfl
  case h_19 hpc =>
    rw [← Option.some.inj hstep]
    rcases transition_cases s.shared cancelRequested cancelled with hsame | ⟨hsource, hstatus⟩
    · exact .idle hsame
    · exact .mark hpc hsource hstatus
  case h_21 source terminal hpc =>
    rw [← Option.some.inj hstep]
    rcases transition_cases s.shared source terminal with hsame | ⟨hsource, hstatus⟩
    · exact .idle hsame
    · exact .publish source terminal hpc hsource hstatus
  all_goals repeat' split at hstep
  all_goals first | cases hstep; done | skip
  all_goals rw [← Option.some.inj hstep]; exact .idle rfl

end PathGuard.Zygisk

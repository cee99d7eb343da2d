import PathGuard.Zygisk.Session

/-!
# The result record

The record of the shared page is written by plain stores, each before a compare-and-swap that may fail: by the worker,
and by the companion before the fork, after the worker's death and at its end. A store and its compare-and-swap belong
together: no one else stores in between (`atCas_exclusive`), and nobody stores once the status has a result
(`writesRecord_live`). So what the app copies is what the party that installed the status stored.

* `SessionInv`, `Recorded` : who is where, and whose record it is (`step_record`, `reachable_recorded`);
* `sharedResult_of_returned` : the app copies what the installer of the status stored.
-/

namespace PathGuard.Zygisk

open MountTransactionState

/-- Who writes the record. -/
inductive Party
  | worker
  | companion
  deriving DecidableEq

/-! ## Where a party stands -/

/-- The worker is at a store of the record. -/
def WorkerPc.atStore : WorkerPc → Bool
  | .commitStore | .publishStore | .finalStore _ => true
  | _ => false

/-- The worker is at the compare-and-swap that goes with a store. -/
def WorkerPc.atCas : WorkerPc → Bool
  | .commitCas | .publishCas | .finalCas _ => true
  | _ => false

def CompanionPc.atStore : CompanionPc → Bool
  | .taintStore | .failStore | .publishStore _ _ => true
  | _ => false

def CompanionPc.atCas : CompanionPc → Bool
  | .taintCas | .failCas | .publishCas _ _ => true
  | _ => false

def ArrivalPc.atStore : ArrivalPc → Bool
  | .readyStore _ | .failStore _ => true
  | _ => false

def ArrivalPc.atCas : ArrivalPc → Bool
  | .failCas => true
  | _ => false

/-- The companion has the page, and has not forked. -/
def ArrivalPc.waiting : ArrivalPc → Bool
  | .forked | .returned => false
  | _ => true

namespace Session

def Label.party : Label → Option Party
  | .arrival _ | .transaction (.companion _) => some .companion
  | .transaction (.worker _) => some .worker
  | .transaction (.app _) | .transaction .workerDies => none

/-- The step writes the record. -/
def writesRecord (s : Session) : Label → Bool
  | .arrival _ => s.arrival.atStore
  | .transaction (.worker _) => s.transaction.worker.pc.atStore
  | .transaction (.companion _) => s.transaction.companion.pc.atStore
  | .transaction (.app _) | .transaction .workerDies => false

/-- The party has stored a record and is about to install a status. -/
def atCas (s : Session) : Party → Bool
  | .worker => !s.transaction.worker.gone && s.transaction.worker.pc.atCas
  | .companion => s.arrival.atCas || s.transaction.companion.pc.atCas

end Session

/-! ## Steps of the transaction -/

section Transaction
variable {plan : TransactionPlan} {s s' : Transaction}

theorem transition_result (state : SharedMountState) (expected desired : MountTransactionState) :
    (transitionSharedState state expected desired).1.result = state.result := by
  unfold transitionSharedState
  split <;> rfl

theorem hasResult_of_transition {state : SharedMountState} {expected desired : MountTransactionState}
    (hdesired : mountTransactionHasResult desired = false)
    (h : mountTransactionHasResult (transitionSharedState state expected desired).1.status = true) :
    mountTransactionHasResult state.status = true := by
  rw [transition_status] at h
  split at h
  · rw [hdesired] at h
    cases h
  · exact h

@[simp] theorem Worker.toRollbackVerify_atCas (w : Worker) (index : Nat) :
    (w.toRollbackVerify index).pc.atCas = false := by
  unfold toRollbackVerify
  split <;> rfl

@[simp] theorem Worker.toRollbackAfter_atCas (w : Worker) : w.toRollbackAfter.pc.atCas = false := by
  unfold toRollbackAfter
  split
  · rfl
  · simp

@[simp] theorem Worker.toRollbackUnmount_atCas (w : Worker) (index : Nat) :
    (w.toRollbackUnmount index).pc.atCas = false := by
  unfold toRollbackUnmount
  split
  · rfl
  · simp

@[simp] theorem Worker.toRollbackValidate_atCas (w : Worker) (index : Nat) :
    (w.toRollbackValidate index).pc.atCas = false := by
  unfold toRollbackValidate
  split
  · rfl
  · simp

@[simp] theorem Worker.toRollback_atCas (w : Worker) : w.toRollback.pc.atCas = false := by
  unfold toRollback
  split
  · split
    · simp
    · rfl
  · rfl

@[simp] theorem Worker.toPublish_atCas (w : Worker) : w.toPublish.pc.atCas = false := by
  unfold toPublish
  split
  · rfl
  · simp

@[simp] theorem Worker.toVerify_atCas (w : Worker) (journalIndex : Nat) : (w.toVerify journalIndex).pc.atCas = false := by
  unfold toVerify
  split
  · rfl
  · simp

@[simp] theorem Worker.toSnapshot_atCas (w : Worker) : w.toSnapshot.pc.atCas = false := by
  unfold toSnapshot
  split
  · rfl
  · simp

@[simp] theorem Worker.toCommit_atCas (w : Worker) : w.toCommit.pc.atCas = false := by
  unfold toCommit
  split
  · rfl
  · simp

@[simp] theorem Worker.chooseFinal_atCas (w : Worker) (current : MountTransactionState) :
    (w.chooseFinal current).pc.atCas = false := by
  unfold chooseFinal
  split_ifs <;> rfl

@[simp] theorem Worker.recordMount_atCas (w : Worker) (ruleIndex : Nat) : (w.recordMount ruleIndex).pc.atCas = false := by
  unfold recordMount
  simp only
  split <;> rfl

theorem Worker.failMount_atCas {w : Worker} (h : w.pc.atCas = false) (ruleIndex error : Nat) (stage : MountOperationStage)
    (disposable : Bool) : (w.failMount plan ruleIndex error stage disposable).pc.atCas = false := by
  unfold failMount
  simp only
  split_ifs
  · rfl
  · rfl
  · rfl
  · exact h

@[simp] theorem Worker.afterPreflight_atCas {w : Worker} (outcome : PreflightOutcome) :
    (w.afterPreflight plan outcome).pc.atCas = false := by
  cases outcome with
  | failed perf => rfl
  | passed requiresPrivate probe disposable =>
      unfold afterPreflight
      simp only
      split_ifs <;> rfl

/-- What a step does to the record: a store, which leaves the status alone, or nothing; then it is not followed by the
compare-and-swap of a store, and a status with a result is installed only by one. -/
inductive RecordMove (s s' : Transaction) (atStore atCas atCas' : Bool) : Prop
  | store : atStore = true → atCas = false → s'.shared.status = s.shared.status → RecordMove s s' atStore atCas atCas'
  | quiet : atStore = false → s'.shared.result = s.shared.result → atCas' = false →
      (mountTransactionHasResult s'.shared.status = true →
        mountTransactionHasResult s.shared.status = true ∨ atCas = true) →
      RecordMove s s' atStore atCas atCas'

theorem RecordMove.mono {atStore atCas atCas' atCas'' : Bool} (h : RecordMove s s' atStore atCas atCas')
    (hcas : atCas'' = true → atCas' = true) : RecordMove s s' atStore atCas atCas'' := by
  cases h with
  | store hstore hbefore hstatus => exact .store hstore hbefore hstatus
  | quiet hstore hresult hafter hstatus =>
      refine .quiet hstore hresult (Bool.eq_false_iff.mpr fun h => ?_) hstatus
      rw [hcas h] at hafter
      cases hafter

theorem RecordMove.keep {atStore atCas atCas' : Bool} (hstore : atStore = false) (hafter : atCas' = false)
    (hshared : s'.shared = s.shared) : RecordMove s s' atStore atCas atCas' :=
  .quiet hstore (congrArg SharedMountState.result hshared) hafter fun h => Or.inl (by rwa [hshared] at h)

theorem workerStep_record {input : WorkerInput} (hstep : workerStep plan s input = some s') :
    RecordMove s s' s.worker.pc.atStore s.worker.pc.atCas s'.worker.pc.atCas := by
  unfold workerStep at hstep
  simp only at hstep
  split at hstep
  · cases hstep
  split at hstep
  · next hpc =>
    split at hstep <;> rw [← Option.some.inj hstep] <;> exact .keep (by rw [hpc]; rfl) rfl rfl
  · next outcome hpc =>
    rw [← Option.some.inj hstep]
    exact .keep (by rw [hpc]; rfl) (Worker.afterPreflight_atCas outcome) rfl
  · next hpc =>
    split at hstep <;> rw [← Option.some.inj hstep] <;> exact .keep (by rw [hpc]; rfl) rfl rfl
  · -- the lease
    next hpc =>
    split at hstep <;> rw [← Option.some.inj hstep]
    · exact .quiet (by rw [hpc]; rfl) (transition_result _ _ _) rfl fun h => Or.inl (hasResult_of_transition rfl h)
    · exact .keep (by rw [hpc]; rfl) rfl rfl
  · next hpc =>
    split at hstep <;> rw [← Option.some.inj hstep] <;> exact .keep (by rw [hpc]; rfl) rfl rfl
  · next hpc =>
    rw [← Option.some.inj hstep]
    exact .quiet (by rw [hpc]; rfl) (transition_result _ _ _) rfl fun h => Or.inl (hasResult_of_transition rfl h)
  · next hpc =>
    split at hstep
    · rw [← Option.some.inj hstep]
      exact .keep (by rw [hpc]; rfl) rfl rfl
    · split at hstep <;> rw [← Option.some.inj hstep] <;> exact .keep (by rw [hpc]; rfl) rfl rfl
  · -- the rule loop
    next hpc =>
    split at hstep
    · split at hstep
      · rw [← Option.some.inj hstep]
        exact .keep (by rw [hpc]; rfl) rfl rfl
      · split at hstep <;> rw [← Option.some.inj hstep] <;> exact .keep (by rw [hpc]; rfl) rfl rfl
    · rw [← Option.some.inj hstep]
      exact .keep (by rw [hpc]; rfl) rfl rfl
  · next ruleIndex hpc =>
    rw [← Option.some.inj hstep]
    exact .keep (by rw [hpc]; rfl) (Worker.recordMount_atCas _ ruleIndex) rfl
  · next hpc =>
    rw [← Option.some.inj hstep]
    exact .keep (by rw [hpc]; rfl) (Worker.failMount_atCas (by rw [hpc]; rfl) _ _ _ _) rfl
  · next hpc =>
    split at hstep <;> rw [← Option.some.inj hstep] <;> exact .keep (by rw [hpc]; rfl) (Worker.toCommit_atCas _) rfl
  · -- the three stores, each with its compare-and-swap
    next hpc =>
    rw [← Option.some.inj hstep]
    exact .store (by rw [hpc]; rfl) (by rw [hpc]; rfl) rfl
  · next hpc =>
    split at hstep <;> rw [← Option.some.inj hstep]
    · exact .quiet (by rw [hpc]; rfl) (transition_result _ _ _) (Worker.toSnapshot_atCas _) fun _ =>
        Or.inr (by rw [hpc]; rfl)
    · exact .keep (by rw [hpc]; rfl) (Worker.toSnapshot_atCas _) rfl
  · next hpc =>
    rw [← Option.some.inj hstep]
    exact .keep (by rw [hpc]; rfl) (Worker.toVerify_atCas _ _) rfl
  · next hpc =>
    rw [← Option.some.inj hstep]
    exact .keep (by rw [hpc]; rfl) (Worker.toPublish_atCas _) rfl
  · next hpc =>
    rw [← Option.some.inj hstep]
    exact .keep (by rw [hpc]; rfl) (Worker.toVerify_atCas _ _) rfl
  · next hpc =>
    rw [← Option.some.inj hstep]
    exact .keep (by rw [hpc]; rfl) (Worker.toVerify_atCas _ _) rfl
  · next hpc =>
    rw [← Option.some.inj hstep]
    exact .store (by rw [hpc]; rfl) (by rw [hpc]; rfl) rfl
  · next hpc =>
    split at hstep <;> rw [← Option.some.inj hstep]
    · exact .quiet (by rw [hpc]; rfl) (transition_result _ _ _) (Worker.toRollback_atCas _) fun _ =>
        Or.inr (by rw [hpc]; rfl)
    · exact .keep (by rw [hpc]; rfl) (Worker.toRollback_atCas _) rfl
  · -- the rollback
    next hpc =>
    rw [← Option.some.inj hstep]
    exact .keep (by rw [hpc]; rfl) (Worker.toRollbackValidate_atCas _ _) rfl
  · next hpc =>
    rw [← Option.some.inj hstep]
    exact .keep (by rw [hpc]; rfl) (Worker.toRollbackValidate_atCas _ _) rfl
  · next hpc =>
    split at hstep
    · rw [← Option.some.inj hstep]
      exact .keep (by rw [hpc]; rfl) (Worker.toRollbackUnmount_atCas _ _) rfl
    · split at hstep
      · rw [← Option.some.inj hstep]
        exact .keep (by rw [hpc]; rfl) (Worker.toRollbackValidate_atCas _ _) rfl
      · split at hstep <;> rw [← Option.some.inj hstep] <;>
          exact .keep (by rw [hpc]; rfl) (Worker.toRollbackValidate_atCas _ _) rfl
  · next hpc =>
    split at hstep
    · rw [← Option.some.inj hstep]
      exact .keep (by rw [hpc]; rfl) (Worker.toRollbackUnmount_atCas _ _) rfl
    · rw [← Option.some.inj hstep]
      exact .keep (by rw [hpc]; rfl) (Worker.toRollbackUnmount_atCas _ _) rfl
    · cases hstep
  · next hpc =>
    rw [← Option.some.inj hstep]
    exact .keep (by rw [hpc]; rfl) (Worker.toRollbackVerify_atCas _ _) rfl
  · next hpc =>
    rw [← Option.some.inj hstep]
    exact .keep (by rw [hpc]; rfl) (Worker.toRollbackVerify_atCas _ _) rfl
  · next hpc =>
    split at hstep
    · rw [← Option.some.inj hstep]
      exact .keep (by rw [hpc]; rfl) (Worker.toRollbackVerify_atCas _ _) rfl
    · rw [← Option.some.inj hstep]
      exact .keep (by rw [hpc]; rfl) (Worker.toRollbackVerify_atCas _ _) rfl
    · cases hstep
  · next hpc =>
    rw [← Option.some.inj hstep]
    exact .keep (by rw [hpc]; rfl) (Worker.chooseFinal_atCas _ _) rfl
  · next hpc =>
    rw [← Option.some.inj hstep]
    exact .store (by rw [hpc]; rfl) (by rw [hpc]; rfl) rfl
  · next hpc =>
    split at hstep <;> rw [← Option.some.inj hstep]
    · exact .quiet (by rw [hpc]; rfl) (transition_result _ _ _) rfl fun _ => Or.inr (by rw [hpc]; rfl)
    · exact .keep (by rw [hpc]; rfl) rfl rfl
  · -- what is sent
    next hpc =>
    rw [← Option.some.inj hstep]
    exact .keep (by rw [hpc]; rfl) rfl rfl
  · next hpc =>
    rw [← Option.some.inj hstep]
    exact .keep (by rw [hpc]; rfl) rfl rfl
  · next hpc =>
    rw [← Option.some.inj hstep]
    exact .keep (by rw [hpc]; rfl) rfl rfl
  · cases hstep

theorem companionStep_record {outcome : Outcome} (hstep : companionStep plan s outcome = some s') :
    RecordMove s s' s.companion.pc.atStore s.companion.pc.atCas s'.companion.pc.atCas := by
  unfold companionStep at hstep
  simp only at hstep
  split at hstep
  all_goals rename_i hpc
  all_goals repeat' split at hstep
  all_goals first | cases hstep; done | skip
  all_goals rw [← Option.some.inj hstep]
  all_goals first
    | exact .store (by rw [hpc]; rfl) (by rw [hpc]; rfl) rfl
    | exact .quiet (by rw [hpc]; rfl) rfl rfl Or.inl
    | exact .quiet (by rw [hpc]; rfl) (transition_result _ _ _) rfl fun h => Or.inl (hasResult_of_transition rfl h)
    | exact .quiet (by rw [hpc]; rfl) (transition_result _ _ _) rfl fun _ => Or.inr (by rw [hpc]; rfl)

/-- The companion comes to a store only with a status that is still open, and goes from it to its compare-and-swap. -/
theorem companionStep_open {outcome : Outcome} (hstep : companionStep plan s outcome = some s')
    (h : s'.companion.pc.atStore = true ∨ s'.companion.pc.atCas = true) :
    s'.shared.status = s.shared.status ∧
      (isMountTransactionTerminal s.shared.status = false ∨ s.companion.pc.atStore = true) := by
  have hopen : ∀ {status : MountTransactionState}, s.shared.status = status →
      isMountTransactionTerminal status = false → isMountTransactionTerminal s.shared.status = false := by
    intro status hs hterminal
    rw [hs]
    exact hterminal
  unfold companionStep at hstep
  simp only at hstep
  split at hstep
  case h_12 =>
    split at hstep <;> obtain rfl := Option.some.inj hstep
    · next hc =>
      simp only [Bool.and_eq_true, Bool.or_eq_true, decide_eq_true_eq] at hc
      obtain hs | hs := hc.2
      · exact ⟨rfl, Or.inl (hopen hs rfl)⟩
      · exact ⟨rfl, Or.inl (hopen hs rfl)⟩
    · exact absurd h (by simp [CompanionPc.atStore, CompanionPc.atCas])
  case h_15 =>
    split at hstep
    · next hs =>
      obtain rfl := Option.some.inj hstep
      exact ⟨rfl, Or.inl (hopen hs rfl)⟩
    · split at hstep
      · next hc =>
        simp only [Bool.and_eq_true, decide_eq_true_eq] at hc
        obtain rfl := Option.some.inj hstep
        exact ⟨rfl, Or.inl (hopen hc.1.2 rfl)⟩
      · split at hstep <;> obtain rfl := Option.some.inj hstep
        · next hc =>
          simp only [Bool.and_eq_true, decide_eq_true_eq] at hc
          exact ⟨rfl, Or.inl (hopen hc.2 rfl)⟩
        · exact absurd h (by simp [CompanionPc.atStore, CompanionPc.atCas])
  all_goals rename_i hpc
  all_goals repeat' split at hstep
  all_goals first | cases hstep; done | skip
  all_goals obtain rfl := Option.some.inj hstep
  all_goals first
    | exact ⟨rfl, Or.inr (by rw [hpc]; rfl)⟩
    | exact absurd h (by simp [CompanionPc.atStore, CompanionPc.atCas])

theorem appStep_result {deadlinePassed : Bool} (hstep : appStep s deadlinePassed = some s') :
    s'.shared.result = s.shared.result := by
  unfold appStep at hstep
  simp only at hstep
  repeat' split at hstep
  all_goals first | cases hstep; done | skip
  all_goals
    obtain rfl := Option.some.inj hstep
    first | rfl | exact transition_result _ _ _

theorem appStep_deadline {deadlinePassed : Bool} (hstep : appStep s deadlinePassed = some s')
    (h : s'.app.pc = .deadline) : isMountTransactionTerminal s'.app.current = false := by
  unfold appStep at hstep
  simp only at hstep
  split at hstep
  case h_1 =>
    split at hstep
    · obtain rfl := Option.some.inj hstep
      cases h
    · next hresult =>
      split at hstep <;> obtain rfl := Option.some.inj hstep
      · cases h
      · next hcancelled =>
        show isMountTransactionTerminal s.shared.status = false
        cases hs : s.shared.status <;> rw [hs] at hresult hcancelled <;> first | rfl | contradiction
  all_goals repeat' split at hstep
  all_goals first | cases hstep; done | skip
  all_goals
    obtain rfl := Option.some.inj hstep
    first | cases h | simp_all

theorem hasResult_of_appStep {deadlinePassed : Bool} (hstep : appStep s deadlinePassed = some s')
    (hopen : s.app.pc = .deadline → isMountTransactionTerminal s.app.current = false)
    (h : s'.app.pc = .returned true) : mountTransactionHasResult s.shared.status = true := by
  unfold appStep at hstep
  simp only at hstep
  split at hstep
  case h_2 hpc =>
    rw [hopen hpc] at hstep
    repeat' split at hstep
    all_goals
      obtain rfl := Option.some.inj hstep
      first | cases h | contradiction
  all_goals repeat' split at hstep
  all_goals first | cases hstep; done | skip
  all_goals
    obtain rfl := Option.some.inj hstep
    first | assumption | cases h | simp_all

theorem CompanionInv.publishing {c : Companion} {w : Worker} {channel : Option MountPerfResult}
    (h : CompanionInv c w channel) (hpc : c.pc.atStore = true ∨ c.pc.atCas = true) :
    w.gone = true ∨ w.pc = .notStarted := by
  have hknows := h.knows
  unfold Knows at hknows
  cases hc : c.pc <;> rw [hc] at hknows hpc
  case taintStore | taintCas | publishStore | publishCas => exact Or.inl hknows.1
  case failStore | failCas => exact hknows.2.imp_right h.unforked
  all_goals simp [CompanionPc.atStore, CompanionPc.atCas] at hpc

end Transaction

/-! ## Steps of a session -/

namespace Session
variable {plan : TransactionPlan} {s s' : Session} {l : Label} {party : Party}

/-- A step of the companion before the fork. -/
structure ArrivalMove (s s' : Session) : Prop where
  waiting : s.arrival.waiting = true
  frame : s'.transaction = { s.transaction with shared := s'.shared }
  record : RecordMove s.transaction s'.transaction s.arrival.atStore s.arrival.atCas s'.arrival.atCas
  status : s'.shared.status = s.shared.status ∨
    s'.arrival.waiting = false ∧ (s'.shared.status = cancelled ∨ s'.shared.status = failed)

theorem arrivalStep_move {input : ArrivalInput} (h : s.arrivalStep input = some s') : ArrivalMove s s' := by
  unfold arrivalStep at h
  simp only at h
  split at h
  all_goals rename_i hpc
  case h_9 =>
    obtain rfl := Option.some.inj h
    refine ⟨by rw [hpc]; rfl, rfl, .quiet (by rw [hpc]; rfl) (transition_result _ _ _) ?_ fun _ => ?_, ?_⟩
    · show ArrivalPc.atCas (if _ then _ else _) = false
      split <;> rfl
    · rw [hpc]
      exact Or.inr rfl
    · by_cases hcas : (transitionSharedState s.shared pending failed).2 = true
      · have hdone := transition_succeeds.mp hcas
        refine Or.inr ⟨?_, Or.inr ((transition_status _ _ _).trans (if_pos hdone))⟩
        show ArrivalPc.waiting (if _ then _ else _) = false
        rw [if_pos hcas]
        rfl
      · exact Or.inl ((transition_status _ _ _).trans (if_neg fun hdone => hcas (transition_succeeds.mpr hdone)))
  case h_11 =>
    obtain rfl := Option.some.inj h
    refine ⟨by rw [hpc]; rfl, rfl, .quiet (by rw [hpc]; rfl) (transition_result _ _ _) rfl fun hresult =>
      Or.inl (hasResult_of_transition rfl hresult), ?_⟩
    exact (transition_cases s.shared cancelRequested cancelled).imp_right fun hcas => ⟨rfl, Or.inl hcas.2⟩
  all_goals repeat' split at h
  all_goals first | cases h; done | skip
  all_goals obtain rfl := Option.some.inj h
  all_goals refine ⟨by rw [hpc]; rfl, rfl, ?_, Or.inl rfl⟩
  all_goals first
    | exact .store (by rw [hpc]; rfl) (by rw [hpc]; rfl) rfl
    | exact .quiet (by rw [hpc]; rfl) rfl rfl Or.inl

theorem ArrivalMove.isForked (h : ArrivalMove s s') : s.isForked = false := by
  have hwaiting := h.waiting
  unfold Session.isForked
  split
  · next hpc =>
    rw [hpc] at hwaiting
    cases hwaiting
  · rfl

theorem step_cases (h : step plan s l = some s') :
    (∃ input, l = .arrival input ∧ ArrivalMove s s') ∨
      ∃ label, l = .transaction label ∧ (s.isForked = false → ∃ deadlinePassed, label = .app deadlinePassed) ∧
        Zygisk.step plan s.transaction label = some s'.transaction ∧ s'.arrival = s.arrival := by
  cases l with
  | arrival input => exact Or.inl ⟨input, rfl, arrivalStep_move h⟩
  | transaction label =>
      right
      simp only [step] at h
      split at h
      · next hrun =>
        obtain ⟨transaction, htransaction, rfl⟩ := Option.map_eq_some_iff.mp h
        refine ⟨label, rfl, fun hforked => ?_, htransaction, rfl⟩
        rw [hforked, Bool.false_or] at hrun
        cases label with
        | app deadlinePassed => exact ⟨deadlinePassed, rfl⟩
        | worker _ | workerDies | companion _ => cases hrun
      · cases h

/-! ## The invariant of a session -/

/-- Until the fork only the app and the companion act, and the word is open; and the companion is at a store, or at its
compare-and-swap, only while the word is open. -/
structure SessionInv (plan : TransactionPlan) (s : Session) : Prop where
  transaction : Inv plan s.transaction
  unforked : s.isForked = false → s.transaction.worker.pc = .notStarted ∧ s.transaction.companion.pc = .fork
  waiting : s.arrival.waiting = true → s.shared.status = pending ∨ s.shared.status = cancelRequested
  publishing : s.transaction.companion.pc.atStore = true ∨ s.transaction.companion.pc.atCas = true →
    isMountTransactionTerminal s.shared.status = false
  deadline : s.transaction.app.pc = .deadline → isMountTransactionTerminal s.transaction.app.current = false

theorem initial_inv (plan : TransactionPlan) : SessionInv plan initial := by
  have h := Zygisk.initial_inv plan
  refine ⟨⟨h.status, h.companion⟩, fun _ => ⟨rfl, rfl⟩, fun _ => Or.inl rfl, ?_, fun hpc => (nomatch hpc)⟩
  rintro (hpc | hpc) <;> cases hpc

theorem SessionInv.arrival (h : SessionInv plan s) (hmove : ArrivalMove s s') : SessionInv plan s' := by
  obtain ⟨hworker, hcompanion⟩ := h.unforked hmove.isForked
  have hleased : s.transaction.worker.leased = false := (h.transaction.status.loc.before (by rw [hworker]; rfl)).1
  have hstatus : StatusInv plan s'.shared.status s.transaction.app.cancelledFrom s.transaction.worker
      s.transaction.namespaceLog := by
    rcases hmove.status with hs | ⟨-, hs⟩
    · rw [hs]
      exact h.transaction.status
    · exact h.transaction.status.close (Or.inr hleased) (hs.imp_right Or.inl) fun _ => hleased
  have hframe := hmove.frame
  refine ⟨?_, ?_, fun hwaiting => ?_, ?_, ?_⟩
  · rw [hframe]
    exact ⟨hstatus, h.transaction.companion⟩
  · rw [hframe]
    exact fun _ => ⟨hworker, hcompanion⟩
  · rcases hmove.status with hs | ⟨hend, -⟩
    · rw [hs]
      exact h.waiting hmove.waiting
    · rw [hend] at hwaiting
      cases hwaiting
  · rw [hframe]
    show s.transaction.companion.pc.atStore = true ∨ s.transaction.companion.pc.atCas = true → _
    rw [hcompanion]
    rintro (hpc | hpc) <;> cases hpc
  · rw [hframe]
    exact h.deadline

theorem SessionInv.publishing_step {s s' : Transaction} {l : Zygisk.Label} (hinv : Inv plan s)
    (hstep : Zygisk.step plan s l = some s')
    (h : s.companion.pc.atStore = true ∨ s.companion.pc.atCas = true → isMountTransactionTerminal s.shared.status = false)
    (hpc : s'.companion.pc.atStore = true ∨ s'.companion.pc.atCas = true) :
    isMountTransactionTerminal s'.shared.status = false := by
  cases l with
  | app deadlinePassed =>
      rw [(appStep_frame hstep).companion] at hpc
      cases appStep_move hstep with
      | idle hshared _ =>
          rw [hshared]
          exact h hpc
      | cancel _ hstatus _ =>
          rw [hstatus]
          rfl
  | worker input =>
      have hframe := workerStep_frame hstep
      rw [hframe.companion] at hpc
      rcases hinv.companion.publishing hpc with hgone | hnotStarted
      · rw [hframe.running] at hgone
        cases hgone
      · exact absurd hnotStarted hframe.started
  | workerDies =>
      obtain ⟨-, -, rfl⟩ := workerDies_eq_some hstep
      exact h hpc
  | companion outcome =>
      obtain ⟨hstatus, hopen | hstore⟩ := companionStep_open hstep hpc
      · rw [hstatus]
        exact hopen
      · rw [hstatus]
        exact h (Or.inl hstore)

theorem SessionInv.deadline_step {s s' : Transaction} {l : Zygisk.Label} (hstep : Zygisk.step plan s l = some s')
    (h : s.app.pc = .deadline → isMountTransactionTerminal s.app.current = false) (hpc : s'.app.pc = .deadline) :
    isMountTransactionTerminal s'.app.current = false := by
  cases l with
  | app deadlinePassed => exact appStep_deadline hstep hpc
  | worker input =>
      rw [(workerStep_frame hstep).app] at hpc ⊢
      exact h hpc
  | workerDies =>
      obtain ⟨-, -, rfl⟩ := workerDies_eq_some hstep
      exact h hpc
  | companion outcome =>
      rw [(companionStep_frame hstep).app] at hpc ⊢
      exact h hpc

/-- **Every step of the session keeps its invariant.** -/
theorem step_inv (hstep : step plan s l = some s') (h : SessionInv plan s) : SessionInv plan s' := by
  rcases step_cases hstep with ⟨input, -, hmove⟩ | ⟨label, -, hofApp, hstep, harrival⟩
  · exact h.arrival hmove
  · refine ⟨Zygisk.step_inv hstep h.transaction, fun hforked => ?_, fun hwaiting => ?_,
      SessionInv.publishing_step h.transaction hstep h.publishing, SessionInv.deadline_step hstep h.deadline⟩
    · have hforked : s.isForked = false := by rw [← hforked, isForked, isForked, harrival]
      obtain ⟨deadlinePassed, rfl⟩ := hofApp hforked
      have hframe := appStep_frame hstep
      rw [hframe.worker, hframe.companion]
      exact h.unforked hforked
    · rw [harrival] at hwaiting
      have hforked : s.isForked = false := by
        unfold isForked
        split
        · next hpc =>
          rw [hpc] at hwaiting
          cases hwaiting
        · rfl
      obtain ⟨deadlinePassed, rfl⟩ := hofApp hforked
      cases appStep_move hstep with
      | idle hshared _ =>
          show s'.transaction.shared.status = pending ∨ s'.transaction.shared.status = cancelRequested
          rw [hshared]
          exact h.waiting hwaiting
      | cancel _ hstatus _ => exact Or.inr hstatus

theorem reachable_inv (h : Run.Reaches (step plan) initial s) : SessionInv plan s :=
  h.invariant (initial_inv plan) fun _ _ _ hinv _ hstep => step_inv hstep hinv

/-! ## Stores and compare-and-swaps -/

theorem atCas_companion_of_fork (h : s.transaction.companion.pc = .fork) :
    s.atCas .companion = s.arrival.atCas := by
  simp [atCas, h, CompanionPc.atCas]

theorem atCas_companion_of_forked (h : s.isForked = true) :
    s.atCas .companion = s.transaction.companion.pc.atCas := by
  unfold isForked at h
  split at h
  · next hpc => simp [atCas, hpc, ArrivalPc.atCas]
  · cases h

theorem atCas_worker_of_running (h : s.transaction.worker.gone = false) :
    s.atCas .worker = s.transaction.worker.pc.atCas := by
  simp [atCas, h]

/-- What a step of the session does to the record and to the place of each party. -/
inductive StepRecord (s s' : Session) (l : Label) : Prop
  | writer (party : Party) : l.party = some party →
      RecordMove s.transaction s'.transaction (s.writesRecord l) (s.atCas party) (s'.atCas party) →
      (∀ other, other ≠ party → s'.atCas other = true → s.atCas other = true) → StepRecord s s' l
  | reader : l.party = none → s.writesRecord l = false → s'.shared.result = s.shared.result →
      (mountTransactionHasResult s'.shared.status = true → mountTransactionHasResult s.shared.status = true) →
      (∀ party, s'.atCas party = true → s.atCas party = true) → StepRecord s s' l

theorem stepRecord_arrival {input : ArrivalInput} (hinv : SessionInv plan s) (hmove : ArrivalMove s s') :
    StepRecord s s' (.arrival input) := by
  obtain ⟨-, hcompanion⟩ := hinv.unforked hmove.isForked
  have hcompanion' : s'.transaction.companion.pc = .fork := by
    rw [hmove.frame]
    exact hcompanion
  refine .writer .companion rfl ?_ fun other hother hcas => ?_
  · rw [atCas_companion_of_fork hcompanion, atCas_companion_of_fork hcompanion']
    exact hmove.record
  · cases other with
    | companion => exact absurd rfl hother
    | worker =>
        rw [atCas, hmove.frame] at hcas
        exact hcas

theorem stepRecord_app {deadlinePassed : Bool} (hstep : appStep s.transaction deadlinePassed = some s'.transaction)
    (harrival : s'.arrival = s.arrival) : StepRecord s s' (.transaction (.app deadlinePassed)) := by
  have hframe := appStep_frame hstep
  refine .reader rfl rfl (appStep_result hstep) ?_ fun party hcas => ?_
  · show mountTransactionHasResult s'.transaction.shared.status = true → _
    cases appStep_move hstep with
    | idle hshared _ =>
        rw [hshared]
        exact id
    | cancel _ hstatus _ =>
        rw [hstatus]
        intro hresult
        cases hresult
  · cases party with
    | worker =>
        rw [atCas, hframe.worker] at hcas
        exact hcas
    | companion =>
        rw [atCas, hframe.companion, harrival] at hcas
        exact hcas

theorem stepRecord_worker {input : WorkerInput} (hstep : workerStep plan s.transaction input = some s'.transaction)
    (harrival : s'.arrival = s.arrival) : StepRecord s s' (.transaction (.worker input)) := by
  have hframe := workerStep_frame hstep
  refine .writer .worker rfl ?_ fun other hother hcas => ?_
  · rw [atCas_worker_of_running hframe.running]
    refine (workerStep_record hstep).mono fun hcas => ?_
    rw [atCas, Bool.and_eq_true] at hcas
    exact hcas.2
  · cases other with
    | worker => exact absurd rfl hother
    | companion =>
        rw [atCas, hframe.companion, harrival] at hcas
        exact hcas

theorem stepRecord_workerDies (hstep : workerDies s.transaction = some s'.transaction)
    (harrival : s'.arrival = s.arrival) : StepRecord s s' (.transaction .workerDies) := by
  obtain ⟨-, -, heq⟩ := workerDies_eq_some hstep
  refine .reader rfl rfl (by rw [shared, heq]) (by rw [shared, heq]; exact id) fun party hcas => ?_
  cases party with
  | worker =>
      rw [atCas, heq] at hcas
      simp [Worker.gone] at hcas
  | companion =>
      rw [atCas, heq, harrival] at hcas
      exact hcas

theorem stepRecord_companion {outcome : Outcome} (hforked : s.isForked = true)
    (hstep : companionStep plan s.transaction outcome = some s'.transaction) (harrival : s'.arrival = s.arrival) :
    StepRecord s s' (.transaction (.companion outcome)) := by
  have hforked' : s'.isForked = true := by rw [← hforked, isForked, isForked, harrival]
  refine .writer .companion rfl ?_ fun other hother hcas => ?_
  · rw [atCas_companion_of_forked hforked, atCas_companion_of_forked hforked']
    exact companionStep_record hstep
  · cases other with
    | companion => exact absurd rfl hother
    | worker =>
        rcases (companionStep_frame hstep).worker with hworker | ⟨-, perf, hworker⟩
        · rw [atCas, hworker] at hcas
          exact hcas
        · rw [atCas, hworker] at hcas
          simp [WorkerPc.atCas] at hcas

/-- **What a step does to the record.** -/
theorem step_record (hinv : SessionInv plan s) (hstep : step plan s l = some s') : StepRecord s s' l := by
  rcases step_cases hstep with ⟨input, rfl, hmove⟩ | ⟨label, rfl, hofApp, hstep, harrival⟩
  · exact stepRecord_arrival hinv hmove
  · cases label with
    | app deadlinePassed => exact stepRecord_app hstep harrival
    | worker input => exact stepRecord_worker hstep harrival
    | workerDies => exact stepRecord_workerDies hstep harrival
    | companion outcome =>
        refine stepRecord_companion ?_ hstep harrival
        by_contra hnot
        obtain ⟨deadlinePassed, hlabel⟩ := hofApp (Bool.not_eq_true _ ▸ hnot)
        cases hlabel

/-- A running worker at a store is alone: the companion is at no compare-and-swap. -/
theorem atCas_of_worker {input : WorkerInput} {s' : Transaction} (hinv : SessionInv plan s)
    (hstep : workerStep plan s.transaction input = some s') (hstore : s.transaction.worker.pc.atStore = true)
    (party : Party) : s.atCas party = false := by
  have hframe := workerStep_frame hstep
  cases party with
  | worker =>
      rw [atCas_worker_of_running hframe.running]
      cases hpc : s.transaction.worker.pc <;> rw [hpc] at hstore <;> first | rfl | cases hstore
  | companion =>
      have hforked : s.isForked = true := by
        by_contra hnot
        exact hframe.started (hinv.unforked (Bool.not_eq_true _ ▸ hnot)).1
      rw [atCas_companion_of_forked hforked]
      by_contra hcas
      rcases hinv.transaction.companion.publishing (Or.inr (Bool.not_eq_false _ ▸ hcas)) with hgone | hnotStarted
      · rw [hframe.running] at hgone
        cases hgone
      · exact hframe.started hnotStarted

theorem atCas_of_companion (hinv : SessionInv plan s) (hstore : s.transaction.companion.pc.atStore = true)
    (party : Party) : s.atCas party = false := by
  cases party with
  | worker =>
      rcases hinv.transaction.companion.publishing (Or.inl hstore) with hgone | hnotStarted
      · simp [atCas, hgone]
      · simp [atCas, hnotStarted, WorkerPc.atCas]
  | companion =>
      have hforked : s.isForked = true := by
        by_contra hnot
        rw [(hinv.unforked (Bool.not_eq_true _ ▸ hnot)).2] at hstore
        cases hstore
      rw [atCas_companion_of_forked hforked]
      cases hpc : s.transaction.companion.pc <;> rw [hpc] at hstore <;> first | rfl | cases hstore

theorem atCas_of_arrival (hinv : SessionInv plan s) (hforked : s.isForked = false) (hstore : s.arrival.atStore = true)
    (party : Party) : s.atCas party = false := by
  obtain ⟨hworker, hcompanion⟩ := hinv.unforked hforked
  cases party with
  | worker => simp [atCas, hworker, WorkerPc.atCas]
  | companion =>
      rw [atCas_companion_of_fork hcompanion]
      cases hpc : s.arrival <;> rw [hpc] at hstore <;> first | rfl | cases hstore

/-- **Exclusion.** Nobody writes the record between a store and its compare-and-swap. -/
theorem atCas_exclusive (hinv : SessionInv plan s) (hstep : step plan s l = some s') (hwrites : s.writesRecord l = true)
    (party : Party) : s.atCas party = false := by
  rcases step_cases hstep with ⟨input, rfl, hmove⟩ | ⟨label, rfl, -, hstep, -⟩
  · exact atCas_of_arrival hinv hmove.isForked hwrites party
  · cases label with
    | app _ | workerDies => cases hwrites
    | worker input => exact atCas_of_worker hinv hstep hwrites party
    | companion outcome => exact atCas_of_companion hinv hwrites party

theorem writesRecord_live (hinv : SessionInv plan s) (hstep : step plan s l = some s')
    (hwrites : s.writesRecord l = true) : isMountTransactionTerminal s.shared.status = false := by
  rcases step_cases hstep with ⟨input, rfl, hmove⟩ | ⟨label, rfl, -, hstep, -⟩
  · rcases hinv.waiting hmove.waiting with hs | hs <;> rw [hs] <;> rfl
  · cases label with
    | app _ | workerDies => cases hwrites
    | worker input =>
        have hstage : s.transaction.worker.pc.stage = .holding ∨ s.transaction.worker.pc.stage = .final := by
          cases hpc : s.transaction.worker.pc <;> rw [writesRecord, hpc] at hwrites <;>
            first | exact Or.inl rfl | exact Or.inr rfl | cases hwrites
        obtain ⟨hleased, hpublished⟩ := hinv.transaction.status.loc.holding hstage
        rcases hinv.transaction.status.held hleased hpublished (workerStep_frame hstep).running with hs | hs <;>
          rw [shared, hs] <;> rfl
    | companion outcome => exact hinv.publishing (Or.inl hwrites)

theorem isTerminal_of_hasResult {status : MountTransactionState} (h : mountTransactionHasResult status = true) :
    isMountTransactionTerminal status = true := by
  cases status <;> first | rfl | cases h

theorem step_status_of_terminal (hinv : SessionInv plan s) (hstep : step plan s l = some s')
    (hterminal : isMountTransactionTerminal s.shared.status = true) : s'.shared.status = s.shared.status := by
  rcases step_cases hstep with ⟨input, rfl, hmove⟩ | ⟨label, rfl, -, hstep, -⟩
  · rcases hinv.waiting hmove.waiting with hs | hs <;> rw [hs] at hterminal <;> cases hterminal
  · exact Zygisk.step_status_of_terminal hinv.transaction hstep hterminal

/-! ## Whose record it is -/

/-- The step from `s` to `s'` is a store of the record by the party. -/
def Stores (plan : TransactionPlan) (party : Party) (s s' : Session) : Prop :=
  ∃ l, step plan s l = some s' ∧ l.party = some party ∧ s.writesRecord l = true

/-- The step from `s` to `s'` is a compare-and-swap of the party that gives the status a result. -/
def Installs (plan : TransactionPlan) (party : Party) (s s' : Session) : Prop :=
  ∃ l, step plan s l = some s' ∧ l.party = some party ∧ mountTransactionHasResult s.shared.status = false ∧
    mountTransactionHasResult s'.shared.status = true

/-- The step does not write the record. -/
def Unwritten (s : Session) (l : Label) : Prop := s.writesRecord l = false

/-- The party stored the record as it is. -/
def Stored (plan : TransactionPlan) (party : Party) (s : Session) : Prop :=
  ∃ v v', Run.Reaches (step plan) initial v ∧ Stores plan party v v' ∧ Run.ReachesBy (step plan) Unwritten v' s

/-- The party stored the record as it is, and installed the status with nothing written in between. -/
def Installed (plan : TransactionPlan) (party : Party) (s : Session) : Prop :=
  ∃ u u', Stored plan party u ∧ Installs plan party u u' ∧ Run.ReachesBy (step plan) Unwritten u' s

/-- Who is at a compare-and-swap has stored the record, and so has who installed the status. -/
structure Recorded (plan : TransactionPlan) (s : Session) : Prop where
  stored : ∀ party, s.atCas party = true → Stored plan party s
  installed : mountTransactionHasResult s.shared.status = true → ∃ party, Installed plan party s

theorem Stored.step (h : Stored plan party s) (hstep : Session.step plan s l = some s')
    (hquiet : s.writesRecord l = false) : Stored plan party s' := by
  obtain ⟨v, v', hv, hstores, hrun⟩ := h
  exact ⟨v, v', hv, hstores, hrun.tail hquiet hstep⟩

theorem Installed.step (h : Installed plan party s) (hstep : Session.step plan s l = some s')
    (hquiet : s.writesRecord l = false) : Installed plan party s' := by
  obtain ⟨u, u', hu, hinstalls, hrun⟩ := h
  exact ⟨u, u', hu, hinstalls, hrun.tail hquiet hstep⟩

/-- Who is at its compare-and-swap now has just stored the record, or was there before while nobody wrote. -/
theorem Recorded.stored_step (h : Recorded plan s) (hs : Run.Reaches (Session.step plan) initial s)
    (hstep : Session.step plan s l = some s') (hcas : s'.atCas party = true) : Stored plan party s' := by
  have hinv := reachable_inv hs
  have hkeep : s.atCas party = true → Stored plan party s' := by
    intro hbefore
    refine (h.stored party hbefore).step hstep (Bool.eq_false_iff.mpr fun hwrites => ?_)
    rw [atCas_exclusive hinv hstep hwrites party] at hbefore
    cases hbefore
  cases step_record hinv hstep with
  | reader _ _ _ _ hothers => exact hkeep (hothers party hcas)
  | writer writer hparty hrecord hothers =>
      by_cases hsame : party = writer
      · subst hsame
        cases hrecord with
        | store hwrites _ _ => exact ⟨s, s', hs, ⟨l, hstep, hparty, hwrites⟩, .refl s'⟩
        | quiet _ _ hafter _ =>
            rw [hafter] at hcas
            cases hcas
      · exact hkeep (hothers party hsame hcas)

theorem installs_of_step (hinv : SessionInv plan s) (hstep : step plan s l = some s')
    (hbefore : mountTransactionHasResult s.shared.status = false)
    (hafter : mountTransactionHasResult s'.shared.status = true) :
    ∃ party, Installs plan party s s' ∧ s.atCas party = true := by
  cases step_record hinv hstep with
  | reader _ _ _ hstatus _ =>
      rw [hstatus hafter] at hbefore
      cases hbefore
  | writer party hparty hrecord _ =>
      refine ⟨party, ⟨l, hstep, hparty, hbefore, hafter⟩, ?_⟩
      cases hrecord with
      | store _ _ hstatus =>
          rw [show s'.shared.status = s.shared.status from hstatus, hbefore] at hafter
          cases hafter
      | quiet _ _ _ hstatus => exact (hstatus hafter).resolve_left (by rw [hbefore]; decide)

theorem Recorded.step (h : Recorded plan s) (hs : Run.Reaches (Session.step plan) initial s)
    (hstep : Session.step plan s l = some s') : Recorded plan s' := by
  have hinv := reachable_inv hs
  refine ⟨fun party => h.stored_step hs hstep, fun hafter => ?_⟩
  cases hbefore : mountTransactionHasResult s.shared.status with
  | true =>
      obtain ⟨party, hinstalled⟩ := h.installed hbefore
      refine ⟨party, hinstalled.step hstep (Bool.eq_false_iff.mpr fun hwrites => ?_)⟩
      have hlive := writesRecord_live hinv hstep hwrites
      rw [isTerminal_of_hasResult hbefore] at hlive
      cases hlive
  | false =>
      obtain ⟨party, hinstalls, hcas⟩ := installs_of_step hinv hstep hbefore hafter
      exact ⟨party, s, s', h.stored party hcas, hinstalls, .refl s'⟩

/-- **Every record is somebody's.** -/
theorem reachable_recorded (h : Run.Reaches (step plan) initial s) : Recorded plan s := by
  refine h.invariant_under (K := Run.Reaches (step plan) initial) (fun _ hu => hu)
    ⟨fun party hcas => ?_, fun hs => (nomatch hs)⟩ fun _ _ _ hu hrecorded _ hstep => hrecorded.step hu hstep
  cases party <;> cases hcas

theorem step_result (hinv : SessionInv plan s) (hstep : step plan s l = some s') (hquiet : s.writesRecord l = false) :
    s'.shared.result = s.shared.result := by
  cases step_record hinv hstep with
  | reader _ _ hresult _ _ => exact hresult
  | writer party _ hrecord _ =>
      cases hrecord with
      | store hwrites _ _ =>
          rw [hquiet] at hwrites
          cases hwrites
      | quiet _ hresult _ _ => exact hresult

theorem result_of_unwritten {t : Session} (hs : Run.Reaches (step plan) initial s)
    (ht : Run.ReachesBy (step plan) Unwritten s t) : t.shared.result = s.shared.result := by
  refine ht.invariant_under (I := fun u => u.shared.result = s.shared.result)
    (fun _ hu => reachable_inv (hs.trans hu)) rfl fun u l u' hinv hu hquiet hstep => ?_
  rw [step_result hinv hstep hquiet, hu]

theorem unwritten_of_hasResult (hinv : SessionInv plan s) (hresult : mountTransactionHasResult s.shared.status = true)
    (hstep : step plan s l = some s') : s.writesRecord l = false := by
  refine Bool.eq_false_iff.mpr fun hwrites => ?_
  have hlive := writesRecord_live hinv hstep hwrites
  rw [isTerminal_of_hasResult hresult] at hlive
  cases hlive

theorem unwritten_of_installs (hinv : SessionInv plan s) (hstep : step plan s l = some s')
    (hbefore : mountTransactionHasResult s.shared.status = false)
    (hafter : mountTransactionHasResult s'.shared.status = true) : s.writesRecord l = false := by
  obtain ⟨party, -, hcas⟩ := installs_of_step hinv hstep hbefore hafter
  refine Bool.eq_false_iff.mpr fun hwrites => ?_
  rw [atCas_exclusive hinv hstep hwrites party] at hcas
  cases hcas

/-- From a status with a result on, neither the status nor the record changes. -/
theorem settled {t : Session} (hs : Run.Reaches (step plan) initial s)
    (hresult : mountTransactionHasResult s.shared.status = true) (ht : Run.Reaches (step plan) s t) :
    t.shared.status = s.shared.status ∧ t.shared.result = s.shared.result := by
  refine ht.invariant_under (I := fun u => u.shared.status = s.shared.status ∧ u.shared.result = s.shared.result)
    (fun _ hu => reachable_inv (hs.trans hu)) ⟨rfl, rfl⟩ fun u l u' hinv hu _ hstep => ?_
  obtain ⟨hustatus, huresult⟩ := hu
  have hu : mountTransactionHasResult u.shared.status = true := by rw [hustatus, hresult]
  refine ⟨?_, ?_⟩
  · rw [step_status_of_terminal hinv hstep (isTerminal_of_hasResult hu), hustatus]
  · rw [step_result hinv hstep (unwritten_of_hasResult hinv hu hstep), huresult]

end Session

/-! ## What the app copies -/

open Session in
/-- **The result record.** When `WaitForSharedResult` returns true, some party has stored a record, and then installed
the status that the app has seen, while nobody wrote the record in between; and in every state of every run from there
on, when the app copies the record and later, it is this record with this status, and no step writes it. -/
theorem sharedResult_of_returned (plan : TransactionPlan) {s t : Session} {deadlinePassed : Bool}
    (hs : Run.Reaches (Session.step plan) .initial s)
    (hstep : Session.step plan s (.transaction (.app deadlinePassed)) = some t)
    (hreturned : t.transaction.app.pc = .returned true) :
    ∃ party v v' u u', Run.Reaches (Session.step plan) .initial v ∧ Stores plan party v v' ∧
      Run.ReachesBy (Session.step plan) Unwritten v' u ∧ Installs plan party u u' ∧
      Run.Reaches (Session.step plan) u' s ∧
      ∀ w, Run.Reaches (Session.step plan) u' w →
        w.shared.status = u'.shared.status ∧ w.shared.result = v'.shared.result ∧
          ∀ l w', Session.step plan w l = some w' → w.writesRecord l = false := by
  have hresult : mountTransactionHasResult s.shared.status = true := by
    rcases step_cases hstep with ⟨input, hlabel, -⟩ | ⟨label, hlabel, -, happ, -⟩
    · cases hlabel
    · cases hlabel
      exact hasResult_of_appStep happ (Session.reachable_inv hs).deadline hreturned
  obtain ⟨party, u, u', ⟨v, v', hv, hstores, hquiet⟩, hinstalls, hrun⟩ := (reachable_recorded hs).installed hresult
  refine ⟨party, v, v', u, u', hv, hstores, hquiet, hinstalls, hrun.reaches, fun w hw => ?_⟩
  obtain ⟨store, hstore, -, -⟩ := hstores
  obtain ⟨install, hinstall, hparty, hbefore, hafter⟩ := hinstalls
  have hv' : Run.Reaches (Session.step plan) .initial v' := hv.tail trivial hstore
  have hu : Run.Reaches (Session.step plan) .initial u := hv'.trans hquiet.reaches
  have hu' : Run.Reaches (Session.step plan) .initial u' := hu.tail trivial hinstall
  have hinstalled : u'.shared.result = v'.shared.result := by
    have hunwritten := unwritten_of_installs (Session.reachable_inv hu) hinstall hbefore hafter
    rw [step_result (Session.reachable_inv hu) hinstall hunwritten, result_of_unwritten hv' hquiet]
  obtain ⟨hstatus, hrecord⟩ := settled hu' hafter hw
  refine ⟨hstatus, hrecord.trans hinstalled, fun l w' hnext => ?_⟩
  exact unwritten_of_hasResult (Session.reachable_inv (hu'.trans hw)) (by rw [hstatus, hafter]) hnext

theorem receivePlan_album :
    ∃ packed bytes header rebuilt, receivePlan true true bytes = some ((header, rebuilt), []) ∧
      sameProcessPlan rebuilt packed = true := by
  obtain ⟨packed, hload⟩ := albumFile_loads
  obtain ⟨plan, hplan, hpacked⟩ := loadPackedPlan_ok_iff.mp hload
  have hloaded := wellLoaded_of_loadProcessPlan hplan
  obtain ⟨bytes, -, hconsumes⟩ := consumes_receivePlan hloaded hpacked (show (0 : Int32) < 4321 by decide)
    (show 10000 ≤ (10123 : Uid).val by decide)
  exact ⟨packed, bytes, _, _, hconsumes.eq_some, (packed_fields hloaded hpacked).1.sameProcessPlan⟩

theorem runLabels_arrive (plan : TransactionPlan) {bytes : Bytes} {packed rebuilt : PackedPlan} {header : BootstrapHeader}
    (hreceive : receivePlan true true bytes = some ((header, rebuilt), []))
    (hsame : sameProcessPlan rebuilt packed = true) (ls : List Session.Label) :
    Run.runLabels (Session.step plan) .initial
        (.arrival (.received bytes true true) :: .arrival (.reloaded (some packed)) :: ls) =
      Run.runLabels (Session.step plan) { Session.initial with arrival := .ready } ls := by
  have hreload : Session.step plan .initial (.arrival (.received bytes true true)) =
      some { Session.initial with arrival := .reload rebuilt } := by
    simp only [Session.step, Session.arrivalStep, Session.initial, hreceive]
  have hready : Session.step plan { Session.initial with arrival := .reload rebuilt } (.arrival (.reloaded (some packed))) =
      some { Session.initial with arrival := .ready } := by
    simp only [Session.step, Session.arrivalStep, Option.map_some, hsame, Option.getD_some, if_true]
  rw [Run.runLabels, hreload, Option.bind_some, Run.runLabels, hready, Option.bind_some]

/-- The app is specialized, and the worker mounts the redirect, commits and leaves the record to the app. -/
def readyRun : List Session.Label :=
  [.arrival (.waited .ready 7), .arrival .tick, .arrival (.topology true)] ++ commitRun.map .transaction

theorem sharedResult_of_returned_readyRun :
    ∃ bytes packed s t, Run.runLabels (Session.step oneRedirect) .initial
        (.arrival (.received bytes true true) :: .arrival (.reloaded (some packed)) :: readyRun) = some s ∧
      Session.step oneRedirect s (.transaction (.app false)) = some t ∧
      t.transaction.app.pc = .returned true ∧ t.shared.status = complete ∧ t.shared.result.readyNs = 7 ∧
      ∃ party v v', Session.Stores oneRedirect party v v' ∧ t.shared.result = v'.shared.result := by
  obtain ⟨packed, bytes, header, rebuilt, hreceive, hsame⟩ := receivePlan_album
  have hrun := runLabels_arrive oneRedirect hreceive hsame readyRun
  obtain ⟨s, t, hs, ht, hpc, hstatus, hready⟩ :
      ∃ s t, Run.runLabels (Session.step oneRedirect) { Session.initial with arrival := .ready } readyRun = some s ∧
        Session.step oneRedirect s (.transaction (.app false)) = some t ∧ t.transaction.app.pc = .returned true ∧
        t.shared.status = complete ∧ t.shared.result.readyNs = 7 :=
    ⟨_, _, rfl, rfl, rfl, rfl, rfl⟩
  rw [hs] at hrun
  obtain ⟨party, v, v', u, u', -, hstores, -, -, hafter, hsettled⟩ :=
    sharedResult_of_returned oneRedirect (Run.reaches_of_runLabels _ hrun) ht hpc
  exact ⟨bytes, packed, s, t, hrun, ht, hpc, hstatus, hready, party, v, v', hstores,
    (hsettled t (hafter.tail trivial ht)).2.1⟩

end PathGuard.Zygisk

import PathGuard.Zygisk.Lease

/-!
# One backend for a whole history

`ApplyProcessPlan` tries another backend only when the first rule could not be mounted. So all mounts of a history
were made by one backend, the one the worker has at the end. `workerStep_cases` lists the four steps that touch the
variables the choice is made with; all others keep them (`Kept`).
-/

namespace PathGuard.Zygisk

/-! ## What leaves the choice alone -/

/-- The variables of the choice are kept, and no mount is added to the journal. -/
structure Worker.Kept (w w' : Worker) : Prop where
  backend : w'.backend = w.backend
  backendLocked : w'.backendLocked = w.backendLocked
  requiresPrivate : w'.requiresPrivate = w.requiresPrivate
  propagationChanged : w'.propagationChanged = w.propagationChanged
  journal : ∀ applied ∈ w'.journal.entries, ∃ recorded ∈ w.journal.entries,
    applied.backend = recorded.backend ∧ applied.operationId = recorded.operationId

namespace Worker

theorem Kept.refl (w : Worker) : Kept w w := ⟨rfl, rfl, rfl, rfl, fun applied h => ⟨applied, h, rfl, rfl⟩⟩

theorem Kept.after {w w' w'' : Worker} (h' : Kept w' w'') (h : Kept w w') : Kept w w'' := by
  refine ⟨h'.backend.trans h.backend, h'.backendLocked.trans h.backendLocked,
    h'.requiresPrivate.trans h.requiresPrivate, h'.propagationChanged.trans h.propagationChanged, ?_⟩
  intro applied happlied
  obtain ⟨between, hbetween, hb, ho⟩ := h'.journal applied happlied
  obtain ⟨recorded, hrecorded, hb', ho'⟩ := h.journal between hbetween
  exact ⟨recorded, hrecorded, hb.trans hb', ho.trans ho'⟩

theorem Kept.of_eq {w w' : Worker} (hb : w'.backend = w.backend) (hl : w'.backendLocked = w.backendLocked)
    (hr : w'.requiresPrivate = w.requiresPrivate) (hp : w'.propagationChanged = w.propagationChanged)
    (hj : w'.journal = w.journal) : Kept w w' := by
  refine ⟨hb, hl, hr, hp, fun applied h => ⟨applied, ?_, rfl, rfl⟩⟩
  rw [← hj]
  exact h

theorem toFinal_kept (w : Worker) : Kept w w.toFinal := by
  refine ⟨rfl, rfl, rfl, rfl, fun applied h => ?_⟩
  unfold toFinal at h
  dsimp only at h
  split at h
  · exact ⟨applied, h, rfl, rfl⟩
  · cases h

theorem toRollbackVerify_kept (w : Worker) (index : Nat) : Kept w (w.toRollbackVerify index) := by
  unfold toRollbackVerify
  split
  · exact .of_eq rfl rfl rfl rfl rfl
  · exact toFinal_kept w

theorem toRollbackAfter_kept (w : Worker) : Kept w w.toRollbackAfter := by
  unfold toRollbackAfter
  split
  · exact .of_eq rfl rfl rfl rfl rfl
  · exact toRollbackVerify_kept w _

theorem toRollbackUnmount_kept (w : Worker) (index : Nat) : Kept w (w.toRollbackUnmount index) := by
  unfold toRollbackUnmount
  split
  · exact .of_eq rfl rfl rfl rfl rfl
  · exact toRollbackAfter_kept w

theorem toRollbackValidate_kept (w : Worker) (index : Nat) : Kept w (w.toRollbackValidate index) := by
  unfold toRollbackValidate
  split
  · exact .of_eq rfl rfl rfl rfl rfl
  · exact toRollbackUnmount_kept w _

theorem toRollback_kept (w : Worker) : Kept w w.toRollback := by
  unfold toRollback
  split
  · split
    · exact toRollbackValidate_kept w _
    · exact .of_eq rfl rfl rfl rfl rfl
  · exact .of_eq rfl rfl rfl rfl rfl

theorem toPublish_kept (w : Worker) : Kept w w.toPublish := by
  unfold toPublish
  split
  · exact .of_eq rfl rfl rfl rfl rfl
  · exact toRollback_kept w

theorem toVerify_kept (w : Worker) (journalIndex : Nat) : Kept w (w.toVerify journalIndex) := by
  unfold toVerify
  split
  · exact .of_eq rfl rfl rfl rfl rfl
  · exact toPublish_kept w

theorem toSnapshot_kept (w : Worker) : Kept w w.toSnapshot := by
  unfold toSnapshot
  split
  · exact .of_eq rfl rfl rfl rfl rfl
  · exact toPublish_kept w

theorem toCommit_kept (w : Worker) : Kept w w.toCommit := by
  unfold toCommit
  split
  · exact .of_eq rfl rfl rfl rfl rfl
  · exact toSnapshot_kept w

theorem chooseFinal_kept (w : Worker) (current : MountTransactionState) : Kept w (w.chooseFinal current) := by
  unfold chooseFinal
  split_ifs <;> exact .of_eq rfl rfl rfl rfl rfl

theorem verifyMount_kept (plan : TransactionPlan) (w : Worker) (journalIndex : Nat) (verified : Except Errno Nat) :
    Kept w (w.verifyMount plan journalIndex verified) := by
  unfold verifyMount
  split
  · exact .of_eq rfl rfl rfl rfl rfl
  · next recorded hrec =>
    split
    · exact .of_eq rfl rfl rfl rfl rfl
    · cases verified with
      | ok mountId =>
          dsimp only
          split
          · next journal hupd =>
            refine ⟨rfl, rfl, rfl, rfl, fun applied happlied => ?_⟩
            rw [MutationJournal.updateAt_entries hupd] at happlied
            obtain happlied | rfl := List.mem_or_eq_of_mem_set happlied
            · exact ⟨applied, happlied, rfl, rfl⟩
            · exact ⟨recorded, List.mem_of_getElem? hrec, rfl, rfl⟩
          · exact .of_eq rfl rfl rfl rfl rfl
      | error error => exact .of_eq rfl rfl rfl rfl rfl

@[simp] theorem recordMount_backend (w : Worker) (ruleIndex : Nat) : (w.recordMount ruleIndex).backend = w.backend := by
  unfold recordMount
  simp only
  split <;> rfl

/-- Only the first rule of an unlocked transaction tries another backend. -/
theorem failMount_backend {plan : TransactionPlan} {w : Worker} {ruleIndex error : Nat} {stage : MountOperationStage}
    {disposable : Bool} (h : w.backendLocked = true ∨ ruleIndex ≠ 0) :
    (w.failMount plan ruleIndex error stage disposable).backend = w.backend := by
  unfold failMount
  simp only
  rw [if_pos (by simpa using h)]

end Worker

/-- **The steps that touch the choice**: the preflight, the propagation change and the two answers to a mount. -/
theorem workerStep_cases {plan : TransactionPlan} {s s' : Transaction} {input : WorkerInput}
    (hstep : workerStep plan s input = some s') :
    s.worker.Kept s'.worker ∨
      (∃ outcome, s.worker.pc = .preflight ∧ input = .preflight outcome ∧
        s' = { s with worker := s.worker.afterPreflight plan outcome }) ∨
      (s.worker.pc = .propagation ∧ s.worker.requiresPrivate = true ∧
        s'.worker = { s.worker with pc := .loop 0, propagationChanged := true }) ∨
      (∃ ruleIndex, s.worker.pc = .apply ruleIndex ∧ input = .mounted ∧
        s' = { s with
          worker := s.worker.recordMount ruleIndex, namespaceLog := s.namespaceLog ++ [.attach ruleIndex] }) ∨
      ∃ ruleIndex error stage disposable, s.worker.pc = .apply ruleIndex ∧ input = .notMounted error stage disposable ∧
        s' = { s with worker := s.worker.failMount plan ruleIndex error.1 stage disposable } := by
  unfold workerStep at hstep
  simp only at hstep
  split at hstep
  · cases hstep
  split at hstep
  case h_2 outcome hpc => exact Or.inr (Or.inl ⟨outcome, hpc, rfl, (Option.some.inj hstep).symm⟩)
  case h_7 outcome hpc =>
    split at hstep
    · rw [← Option.some.inj hstep]
      exact Or.inl (.of_eq rfl rfl rfl rfl rfl)
    · next hprivate =>
      split at hstep <;> rw [← Option.some.inj hstep]
      · exact Or.inr (Or.inr (Or.inl ⟨hpc, by simpa using hprivate, rfl⟩))
      · exact Or.inl (.of_eq rfl rfl rfl rfl rfl)
  case h_9 ruleIndex hpc =>
    exact Or.inr (Or.inr (Or.inr (Or.inl ⟨ruleIndex, hpc, rfl, (Option.some.inj hstep).symm⟩)))
  case h_10 ruleIndex error stage disposable hpc =>
    exact Or.inr (Or.inr (Or.inr (Or.inr
      ⟨ruleIndex, error, stage, disposable, hpc, rfl, (Option.some.inj hstep).symm⟩)))
  all_goals
    left
    repeat' split at hstep
  all_goals first | cases hstep; done | rw [← Option.some.inj hstep]
  -- what is set before the local code that follows is none of the five
  all_goals first
    | exact .of_eq rfl rfl rfl rfl rfl
    | exact (Worker.toCommit_kept _).after (.of_eq rfl rfl rfl rfl rfl)
    | exact (Worker.toSnapshot_kept _).after (.of_eq rfl rfl rfl rfl rfl)
    | exact (Worker.toPublish_kept _).after (.of_eq rfl rfl rfl rfl rfl)
    | exact (Worker.toRollback_kept _).after (.of_eq rfl rfl rfl rfl rfl)
    | exact (Worker.toRollback_kept { s.worker with error := ECANCELED }).after (.of_eq rfl rfl rfl rfl rfl)
    | exact (Worker.toVerify_kept _ _).after (.of_eq rfl rfl rfl rfl rfl)
    | exact (Worker.toVerify_kept _ _).after (Worker.verifyMount_kept _ _ _ _)
    | exact (Worker.toRollbackValidate_kept _ _).after (.of_eq rfl rfl rfl rfl rfl)
    | exact (Worker.toRollbackUnmount_kept _ _).after (.of_eq rfl rfl rfl rfl rfl)
    | exact (Worker.toRollbackVerify_kept _ _).after (.of_eq rfl rfl rfl rfl rfl)
    | exact Worker.chooseFinal_kept _ _

theorem workerStep_backend {plan : TransactionPlan} {s s' : Transaction} {input : WorkerInput} (hinv : Inv plan s)
    (hstep : workerStep plan s input = some s') (hattached : attachedOps s.namespaceLog ≠ []) :
    s'.worker.backend = s.worker.backend := by
  have hloc := hinv.status.loc
  obtain hkept | ⟨outcome, hpc, -, -⟩ | ⟨-, -, hw⟩ | ⟨ruleIndex, -, -, rfl⟩ |
    ⟨ruleIndex, error, stage, disposable, hpc, -, rfl⟩ := workerStep_cases hstep
  · exact hkept.backend
  · rw [Local, hpc] at hloc
    rw [hloc.1.logEmpty] at hattached
    exact absurd rfl hattached
  · rw [hw]
  · exact Worker.recordMount_backend _ _
  · rw [Local, hpc] at hloc
    rw [hloc.1.attached hloc.2.1] at hattached
    exact Worker.failMount_backend (Or.inr fun hzero => hattached (by rw [hzero]; rfl))

/-! ## Runs -/

theorem step_backend {plan : TransactionPlan} {s s' : Transaction} {l : Label} (hinv : Inv plan s)
    (hstep : step plan s l = some s') (hattached : attachedOps s.namespaceLog ≠ []) :
    s'.worker.backend = s.worker.backend := by
  cases l with
  | app deadlinePassed => rw [(appStep_frame hstep).worker]
  | worker input => exact workerStep_backend hinv hstep hattached
  | workerDies =>
      obtain ⟨-, -, rfl⟩ := workerDies_eq_some hstep
      rfl
  | companion outcome =>
      rcases (companionStep_frame hstep).worker with hw | ⟨-, perf, hw⟩ <;> rw [hw]

theorem step_log_grows {plan : TransactionPlan} {s s' : Transaction} {l : Label} (hstep : step plan s l = some s') :
    s.namespaceLog <+: s'.namespaceLog := by
  have hsame : ∀ {log : List NamespaceEvent}, log = s.namespaceLog → s.namespaceLog <+: log := by
    rintro log rfl
    exact List.prefix_rfl
  cases l with
  | app deadlinePassed => exact hsame (appStep_frame hstep).log
  | worker input => exact (workerStep_frame hstep).log
  | workerDies =>
      obtain ⟨-, -, rfl⟩ := workerDies_eq_some hstep
      exact hsame rfl
  | companion outcome => exact hsame (companionStep_frame hstep).log

/-- **One backend.** Once something is mounted, the backend stays what it is to the end of every run. -/
theorem Reachable.backend_of_attached {plan : TransactionPlan} {s t : Transaction} (h : Reachable plan s)
    (hrun : Run.Reaches (step plan) s t) (hattached : attachedOps s.namespaceLog ≠ []) :
    t.worker.backend = s.worker.backend := by
  refine (hrun.invariant_under
    (I := fun u => attachedOps u.namespaceLog ≠ [] ∧ u.worker.backend = s.worker.backend)
    (fun _ hu => reachable_inv (h.trans hu)) ⟨hattached, rfl⟩ ?_).2
  rintro u l u' hinv ⟨hmounted, hbackend⟩ - hstep
  refine ⟨fun hnil => hmounted ?_, (step_backend hinv hstep hmounted).trans hbackend⟩
  obtain ⟨more, hmore⟩ := step_log_grows hstep
  rw [← hmore, attachedOps, List.filterMap_append, List.append_eq_nil_iff] at hnil
  exact hnil.1

end PathGuard.Zygisk

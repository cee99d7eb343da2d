import PathGuard.Zygisk.MountedBackend
import PathGuard.Zygisk.ProcessPlan

/-!
# The backend lock

`native/mount_executor.cpp`: what the capability probe and one mount attempt can return, and over them the rules of
`ApplyProcessPlan` for its backend: one for the whole transaction, another one only while nothing is mutated, the
string bind only for redirects, on request, in a namespace of the app's own.

* `IsProbeResult`, `Answers` : what probe and attempts can return, and runs with such answers;
* `Locked` : the invariant of the choice (`workerStep_locked`, `step_switch`);
* `mountBackend_locked` : one backend, and the string bind only as allowed.
-/

namespace PathGuard.Zygisk

/-! ## What the two calls return -/

/-- `ProbeDirectoryMountBackends`, from what pinning the two directories returned and which of the three trial mounts
`ProbeOne` accepted. -/
def probeDirectoryMountBackends (pinError : Nat) (openTree procFd legacyString : Bool) : MountBackendProbe :=
  if pinError ≠ 0 then { error := pinError }
  else
    { capabilities := {
        strictActions := kMountActionRedirect ||| kMountActionDenyAnchor
        legacyActions := kMountActionRedirect
        primitives := kCapabilityComponentFdWalk |||
          (if openTree then kCapabilityOpenTreeMoveMount else 0) |||
          (if procFd then kCapabilityProcFdMount else 0) |||
          (if legacyString then kCapabilityStringBindMount else 0) } }

/-- `ProbeMountBackendsIsolated`: `isolationError` is what the socket, the fork, the private namespace or the read
back failed with. -/
def probeMountBackendsIsolated (isolationError : Nat) (probe : MountBackendProbe) : MountBackendProbe :=
  if isolationError ≠ 0 then { error := isolationError } else probe

/-- The results the preflight can get. -/
def IsProbeResult (probe : MountBackendProbe) : Prop :=
  ∃ isolationError pinError openTree procFd legacyString,
    probe = probeMountBackendsIsolated isolationError (probeDirectoryMountBackends pinError openTree procFd legacyString)

/-- What one attempt meets: whether both descriptors are there, what the two looks of the legacy backend return, and
what its system call returns. -/
structure MountAttempt where
  pinned : Bool
  verifySource : Nat
  verifyTarget : Nat
  mountError : Nat

/-- `MountApplyResult`, what the worker reads of it. -/
structure MountApplyResult where
  error : Nat := 0
  stage : MountOperationStage := .none
  mutationHappened : Bool := false

def applyRaw (backend : MountBackendKind) (mountError : Nat) : Nat :=
  match backend with
  | .strictOpenTree | .strictProcFd | .legacyString => mountError
  | .unsupported => ENOTSUP

def applyDirectoryMountRaw (backend : MountBackendKind) (attempt : MountAttempt) : MountApplyResult :=
  if !attempt.pinned then { error := EINVAL, stage := .preflight }
  else if backend = .legacyString && attempt.verifySource != 0 then
    { error := attempt.verifySource, stage := .preflight }
  else if backend = .legacyString && attempt.verifyTarget != 0 then
    { error := attempt.verifyTarget, stage := .preflight }
  else if applyRaw backend attempt.mountError ≠ 0 then
    { error := applyRaw backend attempt.mountError, stage := .apply }
  else { mutationHappened := true }

/-- An attempt mutates the namespace exactly when it reports no error. -/
theorem applyDirectoryMountRaw_mutationHappened (backend : MountBackendKind) (attempt : MountAttempt) :
    (applyDirectoryMountRaw backend attempt).mutationHappened = true ↔
      (applyDirectoryMountRaw backend attempt).error = 0 := by
  unfold applyDirectoryMountRaw
  split_ifs with h1 h2 h3 h4
  · simp [EINVAL]
  · simp_all
  · simp_all
  · simp_all
  · simp

/-! ## One round of the mutation loop -/

namespace Worker

/-- The mutation loop after its inner loop: the lock, the journal and the error of the last attempt. -/
def endAttempts (w : Worker) (ruleIndex : Nat) (result : MountApplyResult) : Worker :=
  let w := if result.error = 0 && result.mutationHappened then
    { w with backendLocked := true, perf := { w.perf with backend := w.backend, backendReason := .none } } else w
  let w := if result.mutationHappened then
    match w.journal.push { backend := w.backend, operationId := ruleIndex } with
    | some journal => { w with journal := journal }
    | none => { w with error := EOVERFLOW, untrackedMutation := true }
    else w
  { w with
    error := if w.error = 0 then result.error else w.error
    perf := { w.perf with failureStage := result.stage }
    pc := .loop (ruleIndex + 1) }

/-- One turn of the inner loop: the tests on the result as the source has them. -/
def attemptMount (plan : TransactionPlan) (w : Worker) (ruleIndex : Nat) (result : MountApplyResult)
    (disposable : Bool) : Worker :=
  if result.error = 0 || result.mutationHappened || w.backendLocked || ruleIndex ≠ 0 then
    w.endAttempts ruleIndex result
  else
    let legacyNamespaceAllowed := w.backend = .strictProcFd && plan.allowLegacy &&
      plan.requiredActions = kMountActionRedirect && disposable
    let next := nextMountBackend w.backend plan.requiredActions plan.allowLegacy legacyNamespaceAllowed
    if next = .unsupported then
      { w with perf := { w.perf with
        backend := next
        backendReason := if plan.requiredActions = kMountActionRedirect && !plan.allowLegacy then
          .legacyNotAuthorized else .capabilityMissing } }.endAttempts ruleIndex result
    else { w with backend := next, perf := { w.perf with backend := next } }

end Worker

/-- The answer a result is to the step relation. -/
def MountApplyResult.input (result : MountApplyResult) (disposable : Bool) : WorkerInput :=
  if h : result.error = 0 then .mounted else .notMounted ⟨result.error, h⟩ result.stage disposable

theorem applyDirectoryMountRaw_ok {backend : MountBackendKind} {attempt : MountAttempt}
    (h : (applyDirectoryMountRaw backend attempt).error = 0) :
    applyDirectoryMountRaw backend attempt = { mutationHappened := true } := by
  unfold applyDirectoryMountRaw at h ⊢
  split_ifs at h ⊢ with h1 h2 h3 h4
  · simp [EINVAL] at h
  · simp_all
  · simp_all
  · exact absurd h h4
  · rfl

theorem endAttempts_mounted {w : Worker} (ruleIndex : Nat) (herror : w.error = 0) :
    w.endAttempts ruleIndex { mutationHappened := true } = w.recordMount ruleIndex := by
  cases hpush : w.journal.push { backend := w.backend, operationId := ruleIndex } with
  | none => simp [Worker.endAttempts, Worker.recordMount, hpush, EOVERFLOW]
  | some journal => simp [Worker.endAttempts, Worker.recordMount, hpush, herror]

/-- **The two answers are the source's round.** What the worker does with an answer is what the tests of the inner loop
do with the result it stands for. -/
theorem workerStep_attempt {plan : TransactionPlan} {s : Transaction} {ruleIndex : Nat} (attempt : MountAttempt)
    (disposable : Bool) (halive : s.worker.alive = true) (hpc : s.worker.pc = .apply ruleIndex)
    (herror : s.worker.error = 0) :
    (workerStep plan s ((applyDirectoryMountRaw s.worker.backend attempt).input disposable)).map Transaction.worker =
      some (s.worker.attemptMount plan ruleIndex (applyDirectoryMountRaw s.worker.backend attempt) disposable) := by
  have hmutation := applyDirectoryMountRaw_mutationHappened s.worker.backend attempt
  have hmounted := @applyDirectoryMountRaw_ok s.worker.backend attempt
  generalize applyDirectoryMountRaw s.worker.backend attempt = result at *
  unfold MountApplyResult.input
  split
  · next hok =>
    rw [hmounted hok, Worker.attemptMount, if_pos (by simp), endAttempts_mounted ruleIndex herror]
    simp [workerStep, halive, hpc]
  · next hfail =>
    have hnone : result.mutationHappened = false := by simpa [hfail] using hmutation
    have hstep : workerStep plan s (.notMounted ⟨result.error, hfail⟩ result.stage disposable) = some { s with
        worker := s.worker.failMount plan ruleIndex result.error result.stage disposable } := by
      simp [workerStep, halive, hpc]
    rw [hstep, Option.map_some]
    simp [Worker.attemptMount, Worker.failMount, Worker.endAttempts, hnone, hfail, herror]

/-! ## When the string bind is chosen -/

theorem supportsAllActions_redirect {required : MountActionMask}
    (h : supportsAllActions kMountActionRedirect required = true) : required = kMountActionRedirect := by
  rw [show kMountActionRedirect = 1 from rfl] at h ⊢
  rw [supportsAllActions, Bool.and_eq_true, bne_iff_ne, beq_iff_eq, Nat.one_and_eq_mod_two] at h
  have hone : ∀ mask : Nat, mask ≠ 0 → mask % 2 = mask → mask = 1 := by omega
  exact hone required h.1 h.2

theorem supportsAllActions_none (required : MountActionMask) : supportsAllActions 0 required = false := by
  rw [supportsAllActions, Nat.zero_and, Bool.and_eq_false_iff]
  by_cases h : required = 0
  · exact Or.inl (by simp [h])
  · exact Or.inr (beq_eq_false_iff_ne.mpr (Ne.symm h))

theorem selectMountBackend_legacyString {required : MountActionMask} {capabilities : MountBackendCapabilities}
    {allowLegacy : Bool} (h : (selectMountBackend required capabilities allowLegacy).backend = .legacyString) :
    allowLegacy = true ∧ supportsAllActions capabilities.legacyActions required = true := by
  unfold selectMountBackend at h
  split_ifs at h with h1 h2 h3 h4 h5 h6
  exact ⟨by simpa using h5, by simpa using h6⟩

theorem IsProbeResult.legacyActions {probe : MountBackendProbe} (h : IsProbeResult probe) :
    probe.capabilities.legacyActions = 0 ∨ probe.capabilities.legacyActions = kMountActionRedirect := by
  obtain ⟨isolationError, pinError, openTree, procFd, legacyString, rfl⟩ := h
  unfold probeMountBackendsIsolated probeDirectoryMountBackends
  split
  · exact Or.inl rfl
  · split
    · exact Or.inl rfl
    · exact Or.inr rfl

/-- Whatever the probe returns, the preflight chooses the string bind only for redirects, on request. -/
theorem IsProbeResult.selected_legacyString {probe : MountBackendProbe} (h : IsProbeResult probe)
    {required : MountActionMask} {allowLegacy : Bool}
    (hselected : (selectMountBackend required probe.capabilities allowLegacy).backend = .legacyString) :
    allowLegacy = true ∧ required = kMountActionRedirect := by
  obtain ⟨hallow, hsupported⟩ := selectMountBackend_legacyString hselected
  refine ⟨hallow, ?_⟩
  obtain hnone | hredirect := h.legacyActions
  · rw [hnone, supportsAllActions_none] at hsupported
    cases hsupported
  · rw [hredirect] at hsupported
    exact supportsAllActions_redirect hsupported

theorem nextMountBackend_legacyString {current : MountBackendKind} {required : MountActionMask} {allow disposable : Bool}
    (h : nextMountBackend current required allow disposable = .legacyString) :
    allow = true ∧ disposable = true ∧ required = kMountActionRedirect := by
  unfold nextMountBackend at h
  split_ifs at h with h1 h2
  simp only [Bool.and_eq_true, decide_eq_true_eq] at h2
  exact ⟨h2.1.1.2, h2.1.2, supportsAllActions_redirect h2.2⟩

namespace Worker

theorem afterPreflight_choice (plan : TransactionPlan) (w : Worker) (outcome : PreflightOutcome) :
    w.Kept (w.afterPreflight plan outcome) ∨
      ∃ probe disposable, outcome = .passed true probe disposable ∧
        (w.afterPreflight plan outcome).journal = w.journal ∧ (w.afterPreflight plan outcome).backendLocked = true ∧
        (w.afterPreflight plan outcome).backend =
          (selectMountBackend plan.requiredActions probe.capabilities plan.allowLegacy).backend ∧
        ((w.afterPreflight plan outcome).backend = .legacyString → disposable = true) := by
  cases outcome with
  | failed perf => exact Or.inl (.of_eq rfl rfl rfl rfl rfl)
  | passed requiresPrivate probe disposable =>
      simp only [afterPreflight]
      split_ifs with h0 h1 h2 h3 h4
      · exact Or.inl (.of_eq rfl rfl rfl rfl rfl)
      · exact Or.inl (.of_eq rfl rfl rfl rfl rfl)
      · exact Or.inl (.of_eq rfl rfl rfl rfl rfl)
      · exact Or.inl (.of_eq rfl rfl rfl rfl rfl)
      · refine Or.inr ⟨probe, disposable, by rw [h1], rfl, rfl, rfl, fun hlegacy => ?_⟩
        have hfound : (selectMountBackend plan.requiredActions probe.capabilities plan.allowLegacy).backend = .legacyString →
            disposable = true := by simpa using h4
        exact hfound hlegacy
      · exact Or.inl (.of_eq rfl rfl rfl rfl rfl)

theorem recordMount_backendLocked (w : Worker) (ruleIndex : Nat) : (w.recordMount ruleIndex).backendLocked = true := by
  unfold recordMount
  simp only
  split <;> rfl

theorem mem_recordMount {w : Worker} {ruleIndex : Nat} {applied : AppliedMount}
    (h : applied ∈ (w.recordMount ruleIndex).journal.entries) :
    applied ∈ w.journal.entries ∨ applied = { backend := w.backend, operationId := ruleIndex } := by
  unfold recordMount at h
  simp only at h
  split at h
  · next journal hpush =>
    rw [MutationJournal.push_entries hpush] at h
    exact (List.mem_append.mp h).imp_right List.mem_singleton.mp
  · exact Or.inl h

/-- A failed mount keeps the choice but for the backend, which it changes for the first rule of an unlocked
transaction. -/
theorem failMount_choice (plan : TransactionPlan) (w : Worker) (ruleIndex error : Nat) (stage : MountOperationStage)
    (disposable : Bool) :
    w.Kept (w.failMount plan ruleIndex error stage disposable) ∨
      w.backendLocked = false ∧ ruleIndex = 0 ∧
        ∃ next, w.failMount plan ruleIndex error stage disposable =
            { w with backend := next, perf := { w.perf with backend := next } } ∧
          (next = .legacyString →
            plan.allowLegacy = true ∧ disposable = true ∧ plan.requiredActions = kMountActionRedirect) := by
  simp only [failMount]
  split_ifs with h1 h2 h3
  · exact Or.inl (.of_eq rfl rfl rfl rfl rfl)
  · exact Or.inl (.of_eq rfl rfl rfl rfl rfl)
  · exact Or.inl (.of_eq rfl rfl rfl rfl rfl)
  · simp only [Bool.or_eq_true, decide_eq_true_eq, not_or, not_not, Bool.not_eq_true] at h1
    refine Or.inr ⟨h1.1, h1.2, _, rfl, fun hlegacy => ?_⟩
    obtain ⟨hallow, hnamespace, hrequired⟩ := nextMountBackend_legacyString hlegacy
    simp only [Bool.and_eq_true] at hnamespace
    exact ⟨hallow, hnamespace.2, hrequired⟩

end Worker

theorem redirects_of_requiredMountActions {plan : ProcessPlan} (h : requiredMountActions plan = kMountActionRedirect) :
    ∀ mount ∈ plan.mounts, mount.action = .redirect := by
  have hbit : ∀ (mounts : List PlannedMount) (required : MountActionMask),
      (mounts.foldl (fun required mount =>
        required ||| (if mount.action = .deny then kMountActionDenyAnchor else kMountActionRedirect)) required).testBit 1 =
        (required.testBit 1 || mounts.any fun mount => mount.action = .deny) := by
    intro mounts
    induction mounts with
    | nil =>
        intro required
        rw [List.foldl_nil, List.any_nil, Bool.or_false]
    | cons mount mounts ih =>
        intro required
        rw [List.foldl_cons, ih, Nat.testBit_or, List.any_cons, Bool.or_assoc]
        congr 2
        by_cases hdeny : mount.action = .deny
        · rw [if_pos hdeny, decide_eq_true hdeny]
          rfl
        · rw [if_neg hdeny, decide_eq_false hdeny]
          rfl
  unfold requiredMountActions at h
  split at h
  · next hexecutable =>
    intro mount hmem
    have hnone := congrArg (Nat.testBit · 1) h
    simp only [hbit] at hnone
    have hdeny : mount.action ≠ .deny := by
      intro hdeny
      have hany : (plan.mounts.any fun mount => mount.action = .deny) = true :=
        List.any_eq_true.mpr ⟨mount, hmem, decide_eq_true hdeny⟩
      rw [hany] at hnone
      cases hnone
    have hone := List.all_eq_true.mp hexecutable mount hmem
    simp only [isExecutableMountAction, Bool.or_eq_true, decide_eq_true_eq] at hone
    exact hone.resolve_left hdeny
  · cases h

/-! ## Runs -/

/-- What the calls of the worker can answer where it stands: a result of the probe, and of an attempt with the backend
it has. -/
def Answers (s : Transaction) : Label → Prop
  | .worker (.preflight (.passed _ probe _)) => IsProbeResult probe
  | .worker .mounted => ∃ attempt, (applyDirectoryMountRaw s.worker.backend attempt).error = 0
  | .worker (.notMounted error stage disposable) => ∃ attempt,
      (applyDirectoryMountRaw s.worker.backend attempt).input disposable = .notMounted error stage disposable
  | _ => True

/-- The step was told by `IsDisposableAppNamespace` that the namespace is the app's own. -/
def Label.foundDisposable : Label → Bool
  | .worker (.preflight (.passed _ _ disposable)) => disposable
  | .worker (.notMounted _ _ disposable) => disposable
  | _ => false

/-- What the variables of the choice say about each other, the plan and the history. -/
structure Locked (plan : TransactionPlan) (s : Transaction) : Prop where
  requiresPrivate : s.worker.requiresPrivate = true → s.worker.backendLocked = true
  propagationChanged : s.worker.propagationChanged = true → s.worker.backendLocked = true
  journal : ∀ applied ∈ s.worker.journal.entries,
    applied.backend = s.worker.backend ∧ .attach applied.operationId ∈ s.namespaceLog
  legacy : s.worker.backend = .legacyString →
    plan.allowLegacy = true ∧ plan.requiredActions = kMountActionRedirect

theorem mem_attachedOps {log : List NamespaceEvent} {operationId : Nat} (h : .attach operationId ∈ log) :
    operationId ∈ attachedOps log := List.mem_filterMap.mpr ⟨_, h, rfl⟩

/-- Before the first mount nothing is attached, and the journal is empty. -/
theorem Mutating.first {w : Worker} {log : List NamespaceEvent} (h : Mutating w log 0) (herror : w.error = 0) :
    w.journal.entries = [] ∧ ∀ operationId, .attach operationId ∉ log := by
  have hnone : ∀ operationId, .attach operationId ∉ log := by
    intro operationId hmem
    have hop := mem_attachedOps hmem
    rw [h.attached herror] at hop
    cases hop
  exact ⟨List.eq_nil_iff_forall_not_mem.mpr fun applied hmem => hnone _ (h.journaled applied hmem), hnone⟩

theorem Locked.kept {plan : TransactionPlan} {s s' : Transaction} (h : Locked plan s) (hkept : s.worker.Kept s'.worker)
    (hlog : s.namespaceLog <+: s'.namespaceLog) : Locked plan s' := by
  refine ⟨?_, ?_, fun applied happlied => ?_, ?_⟩
  · rw [hkept.requiresPrivate, hkept.backendLocked]
    exact h.requiresPrivate
  · rw [hkept.propagationChanged, hkept.backendLocked]
    exact h.propagationChanged
  · obtain ⟨recorded, hrecorded, hb, ho⟩ := hkept.journal applied happlied
    rw [hb, ho, hkept.backend]
    exact ⟨(h.journal recorded hrecorded).1, hlog.subset (h.journal recorded hrecorded).2⟩
  · rw [hkept.backend]
    exact h.legacy

theorem step_kept {plan : TransactionPlan} {s s' : Transaction} {l : Label} (hstep : step plan s l = some s')
    (hl : ∀ input, l ≠ .worker input) : s.worker.Kept s'.worker := by
  cases l with
  | app deadlinePassed =>
      rw [(appStep_frame hstep).worker]
      exact .refl _
  | worker input => exact absurd rfl (hl input)
  | workerDies =>
      obtain ⟨-, -, rfl⟩ := workerDies_eq_some hstep
      exact .of_eq rfl rfl rfl rfl rfl
  | companion outcome =>
      obtain hw | ⟨-, perf, hw⟩ := (companionStep_frame hstep).worker
      · rw [hw]
        exact .refl _
      · rw [hw]
        exact .of_eq rfl rfl rfl rfl rfl

theorem workerStep_locked {plan : TransactionPlan} {s s' : Transaction} {input : WorkerInput} (hinv : Inv plan s)
    (h : Locked plan s) (hok : Answers s (.worker input)) (hstep : workerStep plan s input = some s') :
    Locked plan s' := by
  have hloc := hinv.status.loc
  have hlog := (workerStep_frame hstep).log
  obtain hkept | ⟨outcome, hpc, rfl, rfl⟩ | ⟨hpc, hprivate, hw⟩ | ⟨ruleIndex, hpc, -, rfl⟩ |
    ⟨ruleIndex, error, stage, disposable, hpc, -, rfl⟩ := workerStep_cases hstep
  · exact h.kept hkept hlog
  · obtain hkept | ⟨probe, disposable, rfl, hjournal, hlocked, hbackend, -⟩ :=
      s.worker.afterPreflight_choice plan outcome
    · exact h.kept hkept hlog
    · rw [Local, hpc] at hloc
      refine ⟨fun _ => hlocked, fun _ => hlocked, fun applied happlied => ?_, fun hlegacy => ?_⟩
      · rw [hjournal, hloc.2.journal] at happlied
        cases happlied
      · exact (show IsProbeResult probe from hok).selected_legacyString (hbackend.symm.trans hlegacy)
  · refine ⟨?_, ?_, fun applied happlied => ?_, ?_⟩
    · rw [hw]
      exact fun _ => h.requiresPrivate hprivate
    · rw [hw]
      exact fun _ => h.requiresPrivate hprivate
    · rw [hw] at happlied ⊢
      exact ⟨(h.journal applied happlied).1, hlog.subset (h.journal applied happlied).2⟩
    · rw [hw]
      exact h.legacy
  · refine ⟨fun _ => ?_, fun _ => ?_, fun applied happlied => ?_, fun hlegacy => ?_⟩
    · exact Worker.recordMount_backendLocked _ _
    · exact Worker.recordMount_backendLocked _ _
    · rw [Worker.recordMount_backend]
      obtain happlied | rfl := Worker.mem_recordMount happlied
      · exact ⟨(h.journal applied happlied).1, hlog.subset (h.journal applied happlied).2⟩
      · exact ⟨rfl, List.mem_append_right _ (List.mem_singleton_self _)⟩
    · exact h.legacy ((Worker.recordMount_backend _ _).symm.trans hlegacy)
  · obtain hkept | ⟨hunlocked, rfl, next, hw, hnext⟩ :=
      s.worker.failMount_choice plan ruleIndex error.1 stage disposable
    · exact h.kept hkept hlog
    · rw [Local, hpc] at hloc
      refine ⟨?_, ?_, fun applied happlied => ?_, ?_⟩
      · rw [hw]
        exact h.requiresPrivate
      · rw [hw]
        exact h.propagationChanged
      · rw [hw] at happlied
        rw [(hloc.1.first hloc.2.1).1] at happlied
        cases happlied
      · rw [hw]
        exact fun hlegacy => ⟨(hnext hlegacy).1, (hnext hlegacy).2.2⟩

theorem step_locked {plan : TransactionPlan} {s s' : Transaction} {l : Label} (hinv : Inv plan s) (h : Locked plan s)
    (hok : Answers s l) (hstep : step plan s l = some s') : Locked plan s' := by
  cases l with
  | worker input => exact workerStep_locked hinv h hok hstep
  | app _ | workerDies | companion _ => exact h.kept (step_kept hstep (by simp)) (step_log_grows hstep)

theorem locked_of_reachesBy {plan : TransactionPlan} {s : Transaction}
    (h : Run.ReachesBy (step plan) Answers .initial s) : Locked plan s := by
  refine h.invariant_under (K := Inv plan) (fun _ => reachable_inv) ⟨nofun, nofun, nofun, nofun⟩ ?_
  intro u l u' hinv hlocked hok hstep
  exact step_locked hinv hlocked hok hstep

/-- A step that changes the backend comes before every mutation, and is the preflight or the answer to an attempt
that mutated nothing. -/
theorem step_switch {plan : TransactionPlan} {s s' : Transaction} {l : Label} (hinv : Inv plan s) (h : Locked plan s)
    (hok : Answers s l) (hstep : step plan s l = some s') (hswitch : s'.worker.backend ≠ s.worker.backend) :
    s.worker.journal.entries = [] ∧ s.worker.propagationChanged = false ∧
      (∀ event ∈ s'.namespaceLog, event.isMutation = false) ∧
      (s.worker.pc = .preflight ∨ s.worker.pc = .apply 0 ∧ ∃ attempt disposable,
        l = .worker ((applyDirectoryMountRaw s.worker.backend attempt).input disposable) ∧
          (applyDirectoryMountRaw s.worker.backend attempt).mutationHappened = false) ∧
      (s'.worker.backend = .legacyString → l.foundDisposable = true) := by
  have hloc := hinv.status.loc
  cases l with
  | app _ | workerDies | companion _ => exact absurd (step_kept hstep (by simp)).backend hswitch
  | worker input =>
    obtain hkept | ⟨outcome, hpc, rfl, rfl⟩ | ⟨-, -, hw⟩ | ⟨ruleIndex, -, -, rfl⟩ |
      ⟨ruleIndex, error, stage, disposable, hpc, rfl, rfl⟩ := workerStep_cases hstep
    · exact absurd hkept.backend hswitch
    · obtain hkept | ⟨probe, disposable, rfl, -, -, -, hdisposable⟩ := s.worker.afterPreflight_choice plan outcome
      · exact absurd hkept.backend hswitch
      · rw [Local, hpc] at hloc
        refine ⟨congrArg MutationJournal.entries hloc.2.journal, hloc.2.notChanged, fun event hmem => ?_, Or.inl hpc,
          hdisposable⟩
        rw [hloc.1.logEmpty] at hmem
        cases hmem
    · exact absurd (congrArg Worker.backend hw) hswitch
    · exact absurd (Worker.recordMount_backend _ _) hswitch
    · obtain hkept | ⟨hunlocked, rfl, next, hw, hnext⟩ :=
        s.worker.failMount_choice plan ruleIndex error.1 stage disposable
      · exact absurd hkept.backend hswitch
      · rw [Local, hpc] at hloc
        have hpropagation : s.worker.propagationChanged = false := by
          by_contra hchanged
          rw [h.propagationChanged (by simpa using hchanged)] at hunlocked
          cases hunlocked
        obtain ⟨hjournal, hattach⟩ := hloc.1.first hloc.2.1
        refine ⟨hjournal, hpropagation, fun event hmem => ?_, Or.inr ⟨hpc, ?_⟩, ?_⟩
        · cases event with
          | makePrivate => rw [hloc.1.privateKnown hmem] at hpropagation; cases hpropagation
          | attach operationId => exact absurd hmem (hattach operationId)
          | detach operationId => exact absurd hmem (hloc.1.noDetach operationId)
          | verifiedGone operationId => rfl
        · obtain ⟨attempt, hinput⟩ := hok
          refine ⟨attempt, disposable, congrArg Label.worker hinput.symm, ?_⟩
          unfold MountApplyResult.input at hinput
          split at hinput
          · cases hinput
          · next hfail => simpa [hfail] using applyDirectoryMountRaw_mutationHappened s.worker.backend attempt
        · rw [hw]
          exact fun hlegacy => (hnext hlegacy).2.1

/-- **The backend lock.** In every run, with whatever the probe and the mounts answer: any two mounts of the journal,
now or later, were made by one backend; the backend changes only while the journal is empty and nothing was mutated,
not by the failed attempt either; and the string bind is used only when the policy allows it, for redirects alone, once
the namespace was found disposable. -/
theorem mountBackend_locked (plan : ProcessPlan) (workspace : Workspace) (allowLegacy : Bool) {s : Transaction}
    (hs : Run.ReachesBy (step (transactionPlan plan workspace allowLegacy)) Answers .initial s) :
    (∀ t, Run.ReachesBy (step (transactionPlan plan workspace allowLegacy)) Answers s t →
      ∀ applied ∈ s.worker.journal.entries, ∀ later ∈ t.worker.journal.entries, applied.backend = later.backend) ∧
    (∀ l s', Answers s l → step (transactionPlan plan workspace allowLegacy) s l = some s' →
      s'.worker.backend ≠ s.worker.backend →
        s.worker.journal.entries = [] ∧ s.worker.propagationChanged = false ∧
          (∀ event ∈ s'.namespaceLog, event.isMutation = false) ∧
          (s.worker.pc = .preflight ∨ s.worker.pc = .apply 0 ∧ ∃ attempt disposable,
            l = .worker ((applyDirectoryMountRaw s.worker.backend attempt).input disposable) ∧
              (applyDirectoryMountRaw s.worker.backend attempt).mutationHappened = false)) ∧
    (s.worker.backend = .legacyString ∨ (∃ applied ∈ s.worker.journal.entries, applied.backend = .legacyString) →
      allowLegacy = true ∧ (∀ mount ∈ plan.mounts, mount.action = .redirect) ∧
        ∃ u l u', Run.ReachesBy (step (transactionPlan plan workspace allowLegacy)) Answers .initial u ∧
          step (transactionPlan plan workspace allowLegacy) u l = some u' ∧
          u.worker.backend ≠ .legacyString ∧ u'.worker.backend = .legacyString ∧ l.foundDisposable = true ∧
          Run.ReachesBy (step (transactionPlan plan workspace allowLegacy)) Answers u' s) := by
  have hlocked := locked_of_reachesBy hs
  refine ⟨fun t hst applied happlied later hlater => ?_, fun l s' hok hstep hswitch => ?_, fun hused => ?_⟩
  · obtain ⟨hbackend, hattach⟩ := hlocked.journal applied happlied
    have hattached : attachedOps s.namespaceLog ≠ [] := List.ne_nil_of_mem (mem_attachedOps hattach)
    have hlater' := ((locked_of_reachesBy (hs.trans hst)).journal later hlater).1
    rw [hbackend, hlater', Reachable.backend_of_attached hs.reaches hst.reaches hattached]
  · obtain ⟨hjournal, hpropagation, hlog, hattempt, -⟩ :=
      step_switch (reachable_inv hs.reaches) hlocked hok hstep hswitch
    exact ⟨hjournal, hpropagation, hlog, hattempt⟩
  · have hlegacy : s.worker.backend = .legacyString := by
      obtain hlegacy | ⟨applied, happlied, hlegacy⟩ := hused
      · exact hlegacy
      · exact (hlocked.journal applied happlied).1.symm.trans hlegacy
    obtain ⟨u, l, u', hu, hok, hstep, hbefore, hafter, hrest⟩ :=
      hs.exists_enter (P := fun v => v.worker.backend = .legacyString) nofun hlegacy
    have hswitch : u'.worker.backend ≠ u.worker.backend := fun heq => hbefore (heq ▸ hafter)
    have hfound := (step_switch (reachable_inv hu.reaches) (locked_of_reachesBy hu) hok hstep hswitch).2.2.2.2 hafter
    exact ⟨(hlocked.legacy hlegacy).1, redirects_of_requiredMountActions (hlocked.legacy hlegacy).2, u, l, u', hu,
      hstep, hbefore, hafter, hfound, hrest⟩

/-- One redirect, and its two directories pinned. -/
def albumPlan : ProcessPlan := { mounts := [⟨.redirect, ascii "Pictures", ascii "Album"⟩] }

def albumWorkspace : Workspace where
  sources := [(.source (ascii "Album"), ⟨1, .storage, [ascii "Album"]⟩)]
  sourceIndexes := [0]
  targets := [(.visible (ascii "Pictures"), ⟨1, .storage, [ascii "Pictures"]⟩)]

/-- Neither strict backend can mount it, and the namespace is the app's own. -/
def strictFailures : List Label :=
  [.companion .ok, .worker .tick, .worker (.preflight (.passed false { error := EIO } false)), .worker .tick,
    .worker .tick, .worker (.call .ok), .worker .tick, .worker (.notMounted ⟨ENOTSUP, by decide⟩ .apply false),
    .worker (.notMounted ⟨ENOTSUP, by decide⟩ .apply true)]

theorem strictFailures_answers : ∀ l ∈ strictFailures, ∀ u, Answers u l := by
  have hfailed : ∀ (disposable : Bool) (u : Transaction),
      Answers u (.worker (.notMounted ⟨ENOTSUP, by decide⟩ .apply disposable)) := by
    intro disposable u
    refine ⟨⟨true, 0, 0, ENOTSUP⟩, ?_⟩
    cases u.worker.backend <;> rfl
  intro l hmem u
  simp only [strictFailures, List.mem_cons, List.not_mem_nil, or_false] at hmem
  obtain rfl | rfl | rfl | rfl | rfl | rfl | rfl | rfl | rfl := hmem
  · trivial
  · trivial
  · exact ⟨ EIO, 0, false, false, false, rfl⟩
  · trivial
  · trivial
  · trivial
  · trivial
  · exact hfailed false u
  · exact hfailed true u

theorem mountBackend_locked_stringBind :
    ∃ s, Run.ReachesBy (step (transactionPlan albumPlan albumWorkspace true)) Answers .initial s ∧
      s.worker.journal.entries.map AppliedMount.backend = [.legacyString] ∧
      ∃ u l u', step (transactionPlan albumPlan albumWorkspace true) u l = some u' ∧
        u.worker.backend ≠ .legacyString ∧ u'.worker.backend = .legacyString ∧ l.foundDisposable = true := by
  obtain ⟨v, s, hv, hbackend, hstep, hjournal⟩ : ∃ v s,
      Run.runLabels (step (transactionPlan albumPlan albumWorkspace true)) .initial strictFailures = some v ∧
      v.worker.backend = .legacyString ∧
      step (transactionPlan albumPlan albumWorkspace true) v (.worker .mounted) = some s ∧
      s.worker.journal.entries.map AppliedMount.backend = [.legacyString] := ⟨_, _, rfl, rfl, rfl, rfl⟩
  have hanswers : Answers v (.worker .mounted) := by
    refine ⟨⟨true, 0, 0, 0⟩, ?_⟩
    rw [hbackend]
    rfl
  have hs : Run.ReachesBy (step (transactionPlan albumPlan albumWorkspace true)) Answers .initial s :=
    .tail (Run.reachesBy_of_labels strictFailures hv strictFailures_answers) hanswers hstep
  have hused : ∃ applied ∈ s.worker.journal.entries, applied.backend = .legacyString :=
    List.mem_map.mp (hjournal ▸ List.mem_singleton_self _)
  obtain ⟨-, -, u, l, u', -, hswitch, hbefore, hafter, hfound, -⟩ :=
    (mountBackend_locked albumPlan albumWorkspace true hs).2.2 (Or.inr hused)
  exact ⟨s, hs, hjournal, u, l, u', hswitch, hbefore, hafter, hfound⟩

end PathGuard.Zygisk

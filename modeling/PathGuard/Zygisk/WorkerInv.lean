import Mathlib.Data.List.Basic
import PathGuard.Zygisk.Transaction

/-!
# What the worker knows at each place of `ApplyProcessPlan`

`Local plan w log` ties the worker's local variables to the history `log` of the target namespace: before
the lease nothing has happened; in the mutation loop the journal lists exactly what was attached; in the
rollback loops the entries already passed are detached, and then found gone; and at the end either the flags
say that something could not be undone or everything is. It never mentions the status word, so the steps of
the app and of the companion keep it for free (`workerStep_local` is the one case with content).

* `Mutating`, `Holding`, `Finished` : the mutation loop, the rollback loops and the end;
* `workerStep_local` : every step keeps what is known.
-/

namespace PathGuard.Zygisk

open MountTransactionState

/-! ## The history of the namespace -/

/-- The rules whose mounts were attached, in order. -/
def attachedOps (log : List NamespaceEvent) : List Nat :=
  log.filterMap fun
    | .attach operationId => some operationId
    | _ => none

/-- No mount was detached. -/
def NoDetach (log : List NamespaceEvent) : Prop := ∀ operationId, .detach operationId ∉ log

/-- Nothing was done that is not undone: `/storage` kept its propagation, and every mount that was attached
was then detached and then found gone. -/
def RolledBack (log : List NamespaceEvent) : Prop :=
  .makePrivate ∉ log ∧
    ∀ operationId, .attach operationId ∈ log →
      [.attach operationId, .detach operationId, .verifiedGone operationId].Sublist log

@[simp] theorem attachedOps_nil : attachedOps [] = [] := rfl

@[simp] theorem attachedOps_append (log log' : List NamespaceEvent) :
    attachedOps (log ++ log') = attachedOps log ++ attachedOps log' := by
  simp [attachedOps, List.filterMap_append]

@[simp] theorem attachedOps_attach (operationId : Nat) :
    attachedOps [.attach operationId] = [operationId] := rfl

@[simp] theorem attachedOps_makePrivate : attachedOps [.makePrivate] = [] := rfl

theorem noDetach_nil : NoDetach [] := by
  intro _ h
  cases h

theorem NoDetach.append_of {log : List NamespaceEvent} (h : NoDetach log) {e : NamespaceEvent}
    (he : ∀ operationId, e ≠ .detach operationId) : NoDetach (log ++ [e]) := by
  intro operationId hmem
  rcases List.mem_append.mp hmem with hmem | hmem
  · exact h operationId hmem
  · exact he operationId (List.mem_singleton.mp hmem).symm

theorem rolledBack_nil : RolledBack [] := by
  constructor
  · intro h
    cases h
  · intro _ h
    cases h

theorem sublist_append_singleton {log : List NamespaceEvent} {es : List NamespaceEvent} (e : NamespaceEvent)
    (h : es.Sublist log) : (es ++ [e]).Sublist (log ++ [e]) :=
  List.Sublist.append h (List.Sublist.refl _)

/-! ## The local invariant -/

/-- Something was done that cannot be undone, or could not be. -/
def Worker.flagged (w : Worker) : Bool := w.propagationChanged || w.rollbackFailed || w.untrackedMutation

/-- The worker holds the lease, has not published, and its variables account for the history. -/
structure Holding (w : Worker) (log : List NamespaceEvent) : Prop where
  leased : w.leased = true
  unpublished : w.published = false
  privateKnown : .makePrivate ∈ log → w.propagationChanged = true
  tracked : w.untrackedMutation = false → ∀ operationId, .attach operationId ∈ log →
    ∃ applied ∈ w.journal.entries, applied.operationId = operationId
  journaled : ∀ applied ∈ w.journal.entries, .attach applied.operationId ∈ log

/-- The worker is mutating: `n` rules are attached unless an error is already known. -/
structure Mutating (w : Worker) (log : List NamespaceEvent) (n : Nat) : Prop extends Holding w log where
  noDetach : NoDetach log
  attached : w.error = 0 → attachedOps log = List.range n
  notFailed : w.rollbackFailed = false
  notPublished : w.resultPublished = false

/-- The journal entries from `index` on are detached. -/
def DetachedFrom (w : Worker) (log : List NamespaceEvent) (index : Nat) : Prop :=
  ∀ k, index ≤ k → ∀ applied, w.journal.entries[k]? = some applied →
    [.attach applied.operationId, .detach applied.operationId].Sublist log

/-- The journal entries from `index` on are detached and found gone. -/
def GoneFrom (w : Worker) (log : List NamespaceEvent) (index : Nat) : Prop :=
  ∀ k, index ≤ k → ∀ applied, w.journal.entries[k]? = some applied →
    [.attach applied.operationId, .detach applied.operationId,
      .verifiedGone applied.operationId].Sublist log

/-- The worker has not taken the lease. -/
structure Untouched (w : Worker) (log : List NamespaceEvent) : Prop where
  leased : w.leased = false
  unpublished : w.published = false
  logEmpty : log = []

/-- The variables of `ApplyProcessPlan` before the lease. -/
structure Fresh (w : Worker) : Prop where
  error : w.error = 0
  journal : w.journal = .empty
  notChanged : w.propagationChanged = false
  notUntracked : w.untrackedMutation = false
  notFailed : w.rollbackFailed = false
  notPublished : w.resultPublished = false

/-- The rollback is over and the result is an error. -/
structure Ending (w : Worker) (log : List NamespaceEvent) : Prop where
  leased : w.leased = true
  failed : w.perf.result ≠ 0
  undone : w.flagged = false → RolledBack log

/-- The result is known: nothing was begun, or everything was mounted and published, or the end of a
rollback. -/
def Finished (plan : TransactionPlan) (w : Worker) (log : List NamespaceEvent) : Prop :=
  (Untouched w log ∧ w.perf.result ≠ 0 ∧ w.flagged = false) ∨
    (w.leased = true ∧ w.published = true ∧ w.perf.result = 0 ∧ NoDetach log ∧
      attachedOps log = List.range plan.count) ∨
    Ending w log

/-- What holds where the worker stands. -/
def Local (plan : TransactionPlan) (w : Worker) (log : List NamespaceEvent) : Prop :=
  match w.pc with
  | .notStarted | .checkStart | .preflight | .checkLease | .lease | .leaseLoad | .leaseMark =>
      Untouched w log ∧ Fresh w
  | .propagation => Mutating w log 0 ∧ w.error = 0
  | .loop ruleIndex => Mutating w log ruleIndex ∧ (w.error = 0 → ruleIndex ≤ plan.count)
  | .apply ruleIndex => Mutating w log ruleIndex ∧ w.error = 0 ∧ ruleIndex < plan.count
  | .checkCommit | .snapshot | .verify _ => Mutating w log plan.count
  | .commitStore | .commitCas =>
      Mutating w log plan.count ∧ w.error = 0 ∧
        needsPostMountSnapshot w.backend (!w.journal.isEmpty) true = false
  | .publishStore | .publishCas => Mutating w log plan.count ∧ w.error = 0
  | .rollbackSnapshot | .rollbackValidate _ => Holding w log ∧ w.error ≠ 0
  | .rollbackUnmount index => Holding w log ∧ w.error ≠ 0 ∧ DetachedFrom w log index
  | .rollbackAfter => Holding w log ∧ w.error ≠ 0 ∧ DetachedFrom w log 0
  | .rollbackVerify index => Holding w log ∧ w.error ≠ 0 ∧ DetachedFrom w log 0 ∧ GoneFrom w log index
  | .finalLoad => Ending w log ∧ w.published = false
  | .finalStore terminal | .finalCas terminal =>
      Ending w log ∧ w.published = false ∧
        terminal = if w.flagged then namespaceTainted else rollbackComplete
  | .send | .sent | .exited => Finished plan w log

theorem Holding.setPc {w : Worker} {log : List NamespaceEvent} (h : Holding w log) (pc : WorkerPc) :
    Holding { w with pc := pc } log :=
  ⟨h.leased, h.unpublished, h.privateKnown, h.tracked, h.journaled⟩

theorem Mutating.setPc {w : Worker} {log : List NamespaceEvent} {n : Nat} (h : Mutating w log n)
    (pc : WorkerPc) : Mutating { w with pc := pc } log n :=
  ⟨h.toHolding.setPc pc, h.noDetach, h.attached, h.notFailed, h.notPublished⟩

/-! ## The local code between two steps -/

theorem toFinal_local {plan : TransactionPlan} {w : Worker} {log : List NamespaceEvent} (h : Holding w log)
    (he : w.error ≠ 0) (hgone : w.rollbackFailed = false → GoneFrom w log 0) : Local plan w.toFinal log := by
  refine ⟨⟨h.leased, he, fun hflag => ?_⟩, h.unpublished⟩
  simp only [Worker.flagged, Worker.toFinal, Bool.or_eq_false_iff] at hflag
  obtain ⟨⟨hprivate, hfailed⟩, huntracked⟩ := hflag
  refine ⟨fun hmem => ?_, fun operationId hmem => ?_⟩
  · rw [h.privateKnown hmem] at hprivate
    cases hprivate
  · obtain ⟨applied, happlied, rfl⟩ := h.tracked huntracked operationId hmem
    obtain ⟨k, hk⟩ := List.getElem?_of_mem happlied
    exact hgone hfailed k (Nat.zero_le k) applied hk

theorem toRollbackVerify_local {plan : TransactionPlan} {w : Worker} {log : List NamespaceEvent} (index : Nat)
    (h : Holding w log) (he : w.error ≠ 0)
    (hdet : w.rollbackFailed = false → DetachedFrom w log 0 ∧ GoneFrom w log index) :
    Local plan (w.toRollbackVerify index) log := by
  unfold Worker.toRollbackVerify
  split
  · next hc =>
    rw [Bool.and_eq_true, Bool.not_eq_true'] at hc
    exact ⟨h.setPc _, he, hdet hc.1⟩
  · next hc =>
    refine toFinal_local h he fun hfailed => ?_
    have hindex : index = 0 := by
      rw [hfailed] at hc
      simpa using hc
    rw [← hindex]
    exact (hdet hfailed).2

theorem goneFrom_size (w : Worker) (log : List NamespaceEvent) : GoneFrom w log w.journal.size := by
  intro k hk applied happlied
  rw [List.getElem?_eq_none hk] at happlied
  cases happlied

theorem detachedFrom_size (w : Worker) (log : List NamespaceEvent) : DetachedFrom w log w.journal.size := by
  intro k hk applied happlied
  rw [List.getElem?_eq_none hk] at happlied
  cases happlied

theorem toRollbackAfter_local {plan : TransactionPlan} {w : Worker} {log : List NamespaceEvent}
    (h : Holding w log) (he : w.error ≠ 0) (hdet : w.rollbackFailed = false → DetachedFrom w log 0) :
    Local plan w.toRollbackAfter log := by
  unfold Worker.toRollbackAfter
  split
  · next hc =>
    rw [Bool.and_eq_true, Bool.not_eq_true'] at hc
    exact ⟨h.setPc _, he, hdet hc.1⟩
  · exact toRollbackVerify_local _ h he fun hfailed => ⟨hdet hfailed, goneFrom_size w log⟩

theorem toRollbackUnmount_local {plan : TransactionPlan} {w : Worker} {log : List NamespaceEvent} (index : Nat)
    (h : Holding w log) (he : w.error ≠ 0) (hdet : w.rollbackFailed = false → DetachedFrom w log index) :
    Local plan (w.toRollbackUnmount index) log := by
  unfold Worker.toRollbackUnmount
  split
  · next hc =>
    rw [Bool.and_eq_true, Bool.not_eq_true'] at hc
    exact ⟨h.setPc _, he, hdet hc.1⟩
  · next hc =>
    refine toRollbackAfter_local h he fun hfailed => ?_
    have hindex : index = 0 := by
      rw [hfailed] at hc
      simpa using hc
    rw [← hindex]
    exact hdet hfailed

theorem toRollbackValidate_local {plan : TransactionPlan} {w : Worker} {log : List NamespaceEvent} (index : Nat)
    (h : Holding w log) (he : w.error ≠ 0) : Local plan (w.toRollbackValidate index) log := by
  unfold Worker.toRollbackValidate
  split
  · exact ⟨h.setPc _, he⟩
  · exact toRollbackUnmount_local _ h he fun _ => detachedFrom_size w log

theorem toRollback_local {plan : TransactionPlan} {w : Worker} {log : List NamespaceEvent}
    (h : Holding w log) (he : w.error ≠ 0) : Local plan w.toRollback log := by
  unfold Worker.toRollback
  rw [if_pos he]
  split
  · exact toRollbackValidate_local _ h he
  · exact ⟨h.setPc _, he⟩

theorem toPublish_local {plan : TransactionPlan} {w : Worker} {log : List NamespaceEvent}
    (h : Mutating w log plan.count) : Local plan w.toPublish log := by
  unfold Worker.toPublish
  split
  · next hc =>
    rw [Bool.and_eq_true, decide_eq_true_eq] at hc
    exact ⟨h.setPc _, hc.1⟩
  · next hc =>
    refine toRollback_local h.toHolding fun he => hc ?_
    rw [he, h.notPublished]
    rfl

theorem toVerify_local {plan : TransactionPlan} {w : Worker} {log : List NamespaceEvent} {journalIndex : Nat}
    (h : Mutating w log plan.count) : Local plan (w.toVerify journalIndex) log := by
  unfold Worker.toVerify
  split
  · exact h.setPc _
  · exact toPublish_local h

theorem toSnapshot_local {plan : TransactionPlan} {w : Worker} {log : List NamespaceEvent}
    (h : Mutating w log plan.count) : Local plan w.toSnapshot log := by
  unfold Worker.toSnapshot
  split
  · exact h.setPc _
  · exact toPublish_local h

theorem toCommit_local {plan : TransactionPlan} {w : Worker} {log : List NamespaceEvent}
    (h : Mutating w log plan.count) : Local plan w.toCommit log := by
  unfold Worker.toCommit
  split
  · next hc =>
    rw [Bool.and_eq_true, decide_eq_true_eq, Bool.not_eq_true'] at hc
    exact ⟨h.setPc _, hc⟩
  · exact toSnapshot_local h

/-! ## The steps of the worker -/

theorem Mutating.setError {w : Worker} {log : List NamespaceEvent} {n m : Nat} (h : Mutating w log n)
    (error : Nat) (he : error ≠ 0) : Mutating { w with error := error } log m :=
  ⟨⟨h.leased, h.unpublished, h.privateKnown, h.tracked, h.journaled⟩, h.noDetach,
    fun hz => absurd hz he, h.notFailed, h.notPublished⟩

theorem Mutating.keepError {w : Worker} {log : List NamespaceEvent} {n : Nat} (h : Mutating w log n)
    (error : Nat) (he : error ≠ 0) :
    Mutating { w with error := if w.error = 0 then error else w.error } log n := by
  by_cases hz : w.error = 0
  · simp only [if_pos hz]
    exact h.setError error he
  · simp only [if_neg hz]
    exact h

theorem Mutating.setPerf {w : Worker} {log : List NamespaceEvent} {n : Nat} (h : Mutating w log n)
    (perf : MountPerfResult) : Mutating { w with perf := perf } log n :=
  ⟨⟨h.leased, h.unpublished, h.privateKnown, h.tracked, h.journaled⟩, h.noDetach, h.attached, h.notFailed,
    h.notPublished⟩

theorem Holding.setPerf {w : Worker} {log : List NamespaceEvent} (h : Holding w log)
    (perf : MountPerfResult) : Holding { w with perf := perf } log :=
  ⟨h.leased, h.unpublished, h.privateKnown, h.tracked, h.journaled⟩

theorem Holding.recordRollbackFailure {w : Worker} {log : List NamespaceEvent} (h : Holding w log)
    (error : Nat) : Holding (w.recordRollbackFailure error) log :=
  ⟨h.leased, h.unpublished, h.privateKnown, h.tracked, h.journaled⟩

theorem Untouched.setPc {w : Worker} {log : List NamespaceEvent} (h : Untouched w log) (pc : WorkerPc) :
    Untouched { w with pc := pc } log := ⟨h.leased, h.unpublished, h.logEmpty⟩

theorem Fresh.setPc {w : Worker} (h : Fresh w) (pc : WorkerPc) : Fresh { w with pc := pc } :=
  ⟨h.error, h.journal, h.notChanged, h.notUntracked, h.notFailed, h.notPublished⟩

theorem Untouched.setPerf {w : Worker} {log : List NamespaceEvent} (h : Untouched w log)
    (perf : MountPerfResult) : Untouched { w with perf := perf } log :=
  ⟨h.leased, h.unpublished, h.logEmpty⟩

theorem Fresh.setPerf {w : Worker} (h : Fresh w) (perf : MountPerfResult) : Fresh { w with perf := perf } :=
  ⟨h.error, h.journal, h.notChanged, h.notUntracked, h.notFailed, h.notPublished⟩

theorem Fresh.not_flagged {w : Worker} (h : Fresh w) : w.flagged = false := by
  simp [Worker.flagged, h.notChanged, h.notFailed, h.notUntracked]

theorem finishPreflight_local {plan : TransactionPlan} {w : Worker} {log : List NamespaceEvent}
    (h : Untouched w log) (hf : Fresh w) {error : Nat} (he : error ≠ 0) (reason : RuntimeReason) :
    Local plan (w.finishPreflight error reason) log :=
  Or.inl ⟨(h.setPc _).setPerf _, he, hf.not_flagged⟩

theorem afterPreflight_local {plan : TransactionPlan} {w : Worker} {log : List NamespaceEvent}
    (h : Untouched w log) (hf : Fresh w) (outcome : PreflightOutcome) :
    Local plan (w.afterPreflight plan outcome) log := by
  cases outcome with
  | failed perf => exact Or.inl ⟨(h.setPc _).setPerf _, perf.2, hf.not_flagged⟩
  | passed requiresPrivate probe disposable =>
      simp only [Worker.afterPreflight]
      split_ifs with h0 h1 h2 h3 h4
      · exact finishPreflight_local (h.setPerf _) (hf.setPerf _) (by decide) _
      · exact finishPreflight_local (h.setPerf _) (hf.setPerf _) h3 _
      · exact finishPreflight_local (h.setPerf _) (hf.setPerf _) (by decide) _
      · exact finishPreflight_local (h.setPerf _) (hf.setPerf _) (by decide) _
      · exact ⟨⟨h.leased, h.unpublished, h.logEmpty⟩, hf.error, hf.journal, hf.notChanged, hf.notUntracked,
          hf.notFailed, hf.notPublished⟩
      · exact ⟨⟨h.leased, h.unpublished, h.logEmpty⟩, hf.error, hf.journal, hf.notChanged, hf.notUntracked,
          hf.notFailed, hf.notPublished⟩

theorem lease_local {plan : TransactionPlan} {w : Worker} {log : List NamespaceEvent} (h : Untouched w log)
    (hf : Fresh w) : Local plan { w with pc := .propagation, leased := true } log := by
  obtain ⟨-, hp, rfl⟩ := h
  refine ⟨⟨⟨rfl, hp, fun hmem => (nomatch hmem), fun _ _ hmem => (nomatch hmem), ?_⟩, noDetach_nil,
    fun _ => rfl, hf.notFailed, hf.notPublished⟩, hf.error⟩
  intro applied happlied
  rw [hf.journal] at happlied
  cases happlied

theorem recordMount_local {plan : TransactionPlan} {w : Worker} {log : List NamespaceEvent} {ruleIndex : Nat}
    (h : Mutating w log ruleIndex) (he : w.error = 0) (hlt : ruleIndex < plan.count) :
    Local plan (w.recordMount ruleIndex) (log ++ [.attach ruleIndex]) := by
  have hnd : NoDetach (log ++ [.attach ruleIndex]) := h.noDetach.append_of (by simp)
  have hpriv : .makePrivate ∈ log ++ [.attach ruleIndex] → w.propagationChanged = true := by
    intro hmem
    exact h.privateKnown (by simpa using hmem)
  have hatt : attachedOps (log ++ [.attach ruleIndex]) = List.range (ruleIndex + 1) := by
    rw [attachedOps_append, h.attached he, attachedOps_attach, List.range_succ]
  simp only [Worker.recordMount]
  split
  · next journal hpush =>
    have hentries := MutationJournal.push_entries hpush
    refine ⟨⟨⟨h.leased, h.unpublished, hpriv, fun hu operationId hmem => ?_, fun applied happlied => ?_⟩, hnd,
      fun _ => hatt, h.notFailed, h.notPublished⟩, fun _ => hlt⟩
    · rw [hentries]
      rcases List.mem_append.mp hmem with hmem | hmem
      · obtain ⟨applied, happlied, hop⟩ := h.tracked hu operationId hmem
        exact ⟨applied, List.mem_append_left _ happlied, hop⟩
      · rw [List.mem_singleton, NamespaceEvent.attach.injEq] at hmem
        exact ⟨_, List.mem_append_right _ (List.mem_singleton_self _), hmem.symm⟩
    · rw [hentries] at happlied
      rcases List.mem_append.mp happlied with happlied | happlied
      · exact List.mem_append_left _ (h.journaled applied happlied)
      · rw [List.mem_singleton.mp happlied]
        exact List.mem_append_right _ (List.mem_singleton_self _)
  · exact ⟨⟨⟨h.leased, h.unpublished, hpriv, fun hu => (nomatch hu), fun applied happlied =>
      List.mem_append_left _ (h.journaled applied happlied)⟩, hnd, fun hz => (nomatch hz), h.notFailed,
      h.notPublished⟩, fun _ => hlt⟩

theorem propagation_mutating {w : Worker} {log : List NamespaceEvent} (h : Mutating w log 0) (he : w.error = 0) :
    Mutating { w with pc := .loop 0, propagationChanged := true } (log ++ [.makePrivate]) 0 := by
  refine ⟨⟨h.leased, h.unpublished, fun _ => rfl, fun hu operationId hmem => ?_, fun applied happlied =>
    List.mem_append_left _ (h.journaled applied happlied)⟩, h.noDetach.append_of (by simp), fun _ => ?_,
    h.notFailed, h.notPublished⟩
  · exact h.tracked hu operationId (by simpa using hmem)
  · rw [attachedOps_append, h.attached he, attachedOps_makePrivate, List.append_nil]

/-- Leaving the mutation loop: all rules are attached unless an error is known. -/
theorem loopEnd_mutating {plan : TransactionPlan} {w : Worker} {log : List NamespaceEvent} {ruleIndex : Nat}
    (h : Mutating w log ruleIndex) (hle : w.error = 0 → ruleIndex ≤ plan.count)
    (hc : ¬ (decide (ruleIndex < plan.count) && decide (w.error = 0)) = true) :
    Mutating { w with pc := .checkCommit } log plan.count := by
  refine ⟨h.toHolding.setPc _, h.noDetach, fun he => ?_, h.notFailed, h.notPublished⟩
  have heq : ruleIndex = plan.count := by
    rw [Bool.and_eq_true, decide_eq_true_eq, decide_eq_true_eq] at hc
    exact Nat.le_antisymm (hle he) (Nat.le_of_not_lt fun hlt => hc ⟨hlt, he⟩)
  rw [← heq]
  exact h.attached he

/-- The publish of `kComplete` before the verification: nothing is left to do. -/
theorem committed_local {plan : TransactionPlan} {w : Worker} {log : List NamespaceEvent}
    (h : Mutating w log plan.count) (he : w.error = 0)
    (hn : needsPostMountSnapshot w.backend (!w.journal.isEmpty) true = false) :
    Local plan { w with resultPublished := true, published := true }.toSnapshot log := by
  have hsend : { w with resultPublished := true, published := true }.toSnapshot =
      { w with
        resultPublished := true, published := true, pc := .send
        perf := { w.perf with result := w.error } } := by
    simp [Worker.toSnapshot, Worker.toPublish, Worker.toRollback, he, hn]
  rw [hsend]
  exact Or.inr (Or.inl ⟨h.leased, rfl, he, h.noDetach, h.attached he⟩)

theorem published_local {plan : TransactionPlan} {w : Worker} {log : List NamespaceEvent}
    (h : Mutating w log plan.count) (he : w.error = 0) :
    Local plan { w with published := true }.toRollback log := by
  unfold Worker.toRollback
  rw [if_neg (not_not_intro he)]
  exact Or.inr (Or.inl ⟨h.leased, rfl, he, h.noDetach, h.attached he⟩)

theorem failMount_local {plan : TransactionPlan} {w : Worker} {log : List NamespaceEvent} {ruleIndex : Nat}
    (hpc : w.pc = .apply ruleIndex) (h : Mutating w log ruleIndex) (he : w.error = 0)
    (hlt : ruleIndex < plan.count) {error : Nat} (herr : error ≠ 0) (stage : MountOperationStage)
    (disposable : Bool) : Local plan (w.failMount plan ruleIndex error stage disposable) log := by
  have hfailed : ∀ perf, Local plan { w with error := error, pc := .loop (ruleIndex + 1), perf := perf } log :=
    fun perf => ⟨((h.setError _ herr).setPc _).setPerf perf, fun hz => absurd hz herr⟩
  simp only [Worker.failMount]
  split_ifs with h1 h2
  · exact hfailed _
  · exact hfailed _
  · exact hfailed _
  · unfold Local
    rw [hpc]
    exact ⟨⟨⟨h.leased, h.unpublished, h.privateKnown, h.tracked, h.journaled⟩, h.noDetach, h.attached,
      h.notFailed, h.notPublished⟩, he, hlt⟩

theorem Mutating.markUntracked {w : Worker} {log : List NamespaceEvent} {n : Nat} (h : Mutating w log n) :
    Mutating w.markUntracked log n :=
  have h' := h.keepError EOVERFLOW (by decide)
  ⟨⟨h.leased, h.unpublished, h.privateKnown, fun hu => (nomatch hu), h.journaled⟩, h.noDetach,
    h'.attached, h.notFailed, h.notPublished⟩

theorem Mutating.updateJournal {w : Worker} {log : List NamespaceEvent} {n journalIndex mountId : Nat}
    (h : Mutating w log n) {recorded : AppliedMount} (hrec : w.journal.at? journalIndex = some recorded)
    {journal : MountMutationJournal}
    (hupd : w.journal.updateAt journalIndex { recorded with mountId := mountId } = some journal) :
    Mutating { w with journal := journal } log n := by
  have hentries := MutationJournal.updateAt_entries hupd
  have hmem : recorded ∈ w.journal.entries := List.mem_of_getElem? hrec
  refine ⟨⟨h.leased, h.unpublished, h.privateKnown, fun hu operationId hop => ?_, fun applied happlied => ?_⟩,
    h.noDetach, h.attached, h.notFailed, h.notPublished⟩
  · obtain ⟨applied, happlied, rfl⟩ := h.tracked hu operationId hop
    obtain ⟨k, hk⟩ := List.getElem?_of_mem happlied
    rw [hentries]
    by_cases hki : journalIndex = k
    · subst hki
      have hlt : journalIndex < w.journal.entries.length := (List.getElem?_eq_some_iff.mp hk).1
      refine ⟨{ recorded with mountId := mountId }, List.mem_of_getElem? (i := journalIndex) ?_, ?_⟩
      · rw [List.getElem?_set_self hlt]
      · rw [show recorded = applied from Option.some.inj (hrec.symm.trans hk)]
    · refine ⟨applied, List.mem_of_getElem? (i := k) ?_, rfl⟩
      rw [List.getElem?_set_ne hki, hk]
  · rw [hentries] at happlied
    rcases List.mem_or_eq_of_mem_set happlied with happlied | rfl
    · exact h.journaled applied happlied
    · exact h.journaled recorded hmem

theorem Mutating.verifyMount {plan : TransactionPlan} {w : Worker} {log : List NamespaceEvent} {n : Nat}
    (h : Mutating w log n) (journalIndex : Nat) (verified : Except Errno Nat) :
    Mutating (w.verifyMount plan journalIndex verified) log n := by
  unfold Worker.verifyMount
  split
  · exact h.markUntracked
  · next recorded hrec =>
    split
    · exact h.markUntracked
    · cases verified with
      | ok mountId =>
          dsimp only
          split
          · next journal hupd => exact h.updateJournal hrec hupd
          · exact h.markUntracked.setPerf _
      | error error =>
          exact (h.keepError _ error.2).setPerf _

theorem chooseFinal_local {plan : TransactionPlan} {w : Worker} {log : List NamespaceEvent} (h : Ending w log)
    (hp : w.published = false) (current : MountTransactionState) :
    Local plan (w.chooseFinal current) log := by
  unfold Worker.chooseFinal
  split_ifs with hflag hcur
  · exact ⟨⟨h.leased, h.failed, h.undone⟩, hp, (if_pos hflag).symm⟩
  · exact ⟨⟨h.leased, h.failed, h.undone⟩, hp, (if_neg hflag).symm⟩
  · exact Or.inr (Or.inr ⟨h.leased, h.failed, h.undone⟩)

/-- The first sentence of a rollback loop: the entry at `index - 1` joins those from `index` on. -/
theorem DetachedFrom.step {w : Worker} {log : List NamespaceEvent} {index : Nat} (h : DetachedFrom w log index)
    {applied : AppliedMount} (hget : w.journal.at? (index - 1) = some applied)
    (hatt : .attach applied.operationId ∈ log) :
    DetachedFrom w (log ++ [.detach applied.operationId]) (index - 1) := by
  intro k hk other hother
  by_cases hki : k = index - 1
  · subst hki
    rw [show other = applied from Option.some.inj (hother.symm.trans hget)]
    exact sublist_append_singleton _ (List.singleton_sublist.mpr hatt)
  · exact (h k (by omega) other hother).trans (List.sublist_append_left _ _)

theorem GoneFrom.step {w : Worker} {log : List NamespaceEvent} {index : Nat} (hdet : DetachedFrom w log 0)
    (h : GoneFrom w log index) {applied : AppliedMount} (hget : w.journal.at? (index - 1) = some applied) :
    GoneFrom w (log ++ [.verifiedGone applied.operationId]) (index - 1) := by
  intro k hk other hother
  by_cases hki : k = index - 1
  · subst hki
    rw [show other = applied from Option.some.inj (hother.symm.trans hget)]
    exact sublist_append_singleton _ (hdet _ (Nat.zero_le _) applied hget)
  · exact (h k (by omega) other hother).trans (List.sublist_append_left _ _)

/-- A step that neither attaches nor changes the propagation keeps what the variables account for. -/
theorem Holding.append {w : Worker} {log : List NamespaceEvent} (h : Holding w log) {e : NamespaceEvent}
    (hp : e ≠ .makePrivate) (ha : ∀ operationId, e ≠ .attach operationId) : Holding w (log ++ [e]) := by
  refine ⟨h.leased, h.unpublished, fun hmem => h.privateKnown ?_, fun hu operationId hmem =>
    h.tracked hu operationId ?_, fun applied happlied => List.mem_append_left _ (h.journaled applied happlied)⟩
  · exact (List.mem_append.mp hmem).resolve_right fun hm => hp (List.mem_singleton.mp hm).symm
  · exact (List.mem_append.mp hmem).resolve_right fun hm => ha operationId (List.mem_singleton.mp hm).symm

theorem Finished.setPc {plan : TransactionPlan} {w : Worker} {log : List NamespaceEvent}
    (h : Finished plan w log) (pc : WorkerPc) : Finished plan { w with pc := pc } log := by
  rcases h with ⟨hu, hr⟩ | h | h
  · exact Or.inl ⟨⟨hu.leased, hu.unpublished, hu.logEmpty⟩, hr⟩
  · exact Or.inr (Or.inl h)
  · exact Or.inr (Or.inr ⟨h.leased, h.failed, h.undone⟩)

/-- **Every step of the worker keeps the local invariant.** -/
theorem workerStep_local {plan : TransactionPlan} {s s' : Transaction} {input : WorkerInput}
    (hstep : workerStep plan s input = some s') (h : Local plan s.worker s.namespaceLog) :
    Local plan s'.worker s'.namespaceLog := by
  unfold workerStep at hstep
  simp only at hstep
  split at hstep
  · cases hstep
  split at hstep
  · next hpc =>
    simp only [Local, hpc] at h
    split at hstep <;> rw [← Option.some.inj hstep]
    · exact finishPreflight_local h.1 h.2 (by decide) _
    · exact ⟨h.1.setPc _, h.2.setPc _⟩
  · next hpc =>
    simp only [Local, hpc] at h
    rw [← Option.some.inj hstep]
    exact afterPreflight_local h.1 h.2 _
  · next hpc =>
    simp only [Local, hpc] at h
    split at hstep <;> rw [← Option.some.inj hstep]
    · exact finishPreflight_local h.1 h.2 (by decide) _
    · exact ⟨h.1.setPc _, h.2.setPc _⟩
  · next hpc =>
    simp only [Local, hpc] at h
    split at hstep <;> rw [← Option.some.inj hstep]
    · exact lease_local h.1 h.2
    · exact ⟨h.1.setPc _, h.2.setPc _⟩
  · next hpc =>
    simp only [Local, hpc] at h
    split at hstep <;> rw [← Option.some.inj hstep]
    · exact ⟨h.1.setPc _, h.2.setPc _⟩
    · exact finishPreflight_local h.1 h.2 (by decide) _
  · next hpc =>
    simp only [Local, hpc] at h
    rw [← Option.some.inj hstep]
    exact finishPreflight_local h.1 h.2 (by decide) _
  · next hpc =>
    simp only [Local, hpc] at h
    split at hstep
    · rw [← Option.some.inj hstep]
      exact ⟨h.1.setPc _, fun _ => Nat.zero_le _⟩
    · split at hstep <;> rw [← Option.some.inj hstep]
      · exact ⟨propagation_mutating h.1 h.2, fun _ => Nat.zero_le _⟩
      · next error => exact ⟨(h.1.setError _ error.2).setPc _, fun hz => absurd hz error.2⟩
  · next ruleIndex hpc =>
    simp only [Local, hpc] at h
    split at hstep
    · next hc =>
      rw [Bool.and_eq_true, decide_eq_true_eq, decide_eq_true_eq] at hc
      split at hstep
      · rw [← Option.some.inj hstep]
        exact (h.1.setError ECANCELED (by decide)).setPc _
      · split at hstep <;> rw [← Option.some.inj hstep]
        · exact (h.1.setError EINVAL (by decide)).setPc _
        · exact ⟨h.1.setPc _, hc.2, hc.1⟩
    · next hc =>
      rw [← Option.some.inj hstep]
      exact loopEnd_mutating h.1 h.2 hc
  · next ruleIndex hpc =>
    simp only [Local, hpc] at h
    rw [← Option.some.inj hstep]
    exact recordMount_local h.1 h.2.1 h.2.2
  · next ruleIndex error stage disposable hpc =>
    simp only [Local, hpc] at h
    rw [← Option.some.inj hstep]
    exact failMount_local hpc h.1 h.2.1 h.2.2 error.2 stage disposable
  · next hpc =>
    simp only [Local, hpc] at h
    split at hstep <;> rw [← Option.some.inj hstep]
    · exact toCommit_local (h.setError ECANCELED (by decide))
    · exact toCommit_local h
  · next hpc =>
    simp only [Local, hpc] at h
    rw [← Option.some.inj hstep]
    exact ⟨(h.1.setPc _).setPerf _, h.2⟩
  · next hpc =>
    simp only [Local, hpc] at h
    split at hstep <;> rw [← Option.some.inj hstep]
    · exact committed_local h.1 h.2.1 h.2.2
    · exact toSnapshot_local (h.1.setError ECANCELED (by decide))
  · next hpc =>
    simp only [Local, hpc] at h
    rw [← Option.some.inj hstep]
    exact toVerify_local ⟨⟨h.leased, h.unpublished, h.privateKnown, h.tracked, h.journaled⟩, h.noDetach,
      h.attached, h.notFailed, h.notPublished⟩
  · next error hpc =>
    simp only [Local, hpc] at h
    rw [← Option.some.inj hstep]
    exact toPublish_local ((h.keepError _ error.2).setPerf _)
  · next hpc =>
    simp only [Local, hpc] at h
    rw [← Option.some.inj hstep]
    exact toVerify_local (h.verifyMount _ _)
  · next hpc =>
    simp only [Local, hpc] at h
    rw [← Option.some.inj hstep]
    exact toVerify_local (h.verifyMount _ _)
  · next hpc =>
    simp only [Local, hpc] at h
    rw [← Option.some.inj hstep]
    exact ⟨(h.1.setPc _).setPerf _, h.2⟩
  · next hpc =>
    simp only [Local, hpc] at h
    split at hstep <;> rw [← Option.some.inj hstep]
    · exact published_local h.1 h.2
    · exact toRollback_local (h.1.setError (m := plan.count) ECANCELED (by decide)).toHolding
        (show ECANCELED ≠ 0 by decide)
  · next hpc =>
    simp only [Local, hpc] at h
    rw [← Option.some.inj hstep]
    apply toRollbackValidate_local _ (h.1.setPerf _)
    exact h.2
  · next error hpc =>
    simp only [Local, hpc] at h
    rw [← Option.some.inj hstep]
    exact toRollbackValidate_local s.worker.journal.size (h.1.recordRollbackFailure _) error.2
  · next index outcome hpc =>
    simp only [Local, hpc] at h
    split at hstep
    · rw [← Option.some.inj hstep]
      exact toRollbackUnmount_local s.worker.journal.size (h.1.recordRollbackFailure _)
        (show EOVERFLOW ≠ 0 by decide) (fun hf => (nomatch hf))
    · split at hstep
      · rw [← Option.some.inj hstep]
        exact toRollbackValidate_local (index - 1) (h.1.recordRollbackFailure _) (show ESTALE ≠ 0 by decide)
      · split at hstep <;> rw [← Option.some.inj hstep]
        · exact toRollbackValidate_local _ h.1 h.2
        · next error => exact toRollbackValidate_local (index - 1) (h.1.recordRollbackFailure _) error.2
  · next index outcome hpc =>
    simp only [Local, hpc] at h
    split at hstep
    · next applied hget =>
      rw [← Option.some.inj hstep]
      exact toRollbackUnmount_local _ (h.1.append (by simp) (by simp)) h.2.1 fun _ =>
        h.2.2.step hget (h.1.journaled applied (List.mem_of_getElem? hget))
    · next error _ =>
      rw [← Option.some.inj hstep]
      exact toRollbackUnmount_local (index - 1) (h.1.recordRollbackFailure _) error.2 (fun hf => (nomatch hf))
    · cases hstep
  · next hpc =>
    simp only [Local, hpc] at h
    rw [← Option.some.inj hstep]
    apply toRollbackVerify_local _ (h.1.setPerf _)
    · exact h.2.1
    · exact fun _ => ⟨h.2.2, goneFrom_size s.worker _⟩
  · next error hpc =>
    simp only [Local, hpc] at h
    rw [← Option.some.inj hstep]
    exact toRollbackVerify_local s.worker.journal.size (h.1.recordRollbackFailure _) error.2
      (fun hf => (nomatch hf))
  · next index outcome hpc =>
    simp only [Local, hpc] at h
    split at hstep
    · next applied hget =>
      rw [← Option.some.inj hstep]
      exact toRollbackVerify_local _ (h.1.append (by simp) (by simp)) h.2.1 fun _ =>
        ⟨fun k hk other hother => (h.2.2.1 k hk other hother).trans (List.sublist_append_left _ _),
          h.2.2.2.step h.2.2.1 hget⟩
    · next error _ =>
      rw [← Option.some.inj hstep]
      exact toRollbackVerify_local (index - 1) (h.1.recordRollbackFailure _) error.2 (fun hf => (nomatch hf))
    · cases hstep
  · next hpc =>
    simp only [Local, hpc] at h
    rw [← Option.some.inj hstep]
    exact chooseFinal_local h.1 h.2 _
  · next terminal hpc =>
    simp only [Local, hpc] at h
    rw [← Option.some.inj hstep]
    exact ⟨⟨h.1.leased, h.1.failed, h.1.undone⟩, h.2⟩
  · next terminal hpc =>
    simp only [Local, hpc] at h
    split at hstep <;> rw [← Option.some.inj hstep]
    · exact Or.inr (Or.inr ⟨h.1.leased, h.1.failed, h.1.undone⟩)
    · exact Or.inr (Or.inr ⟨h.1.leased, h.1.failed, h.1.undone⟩)
  · next hpc =>
    simp only [Local, hpc] at h
    rw [← Option.some.inj hstep]
    exact Finished.setPc h _
  · next hpc =>
    simp only [Local, hpc] at h
    rw [← Option.some.inj hstep]
    exact Finished.setPc h _
  · next hpc =>
    simp only [Local, hpc] at h
    rw [← Option.some.inj hstep]
    exact Finished.setPc h _
  · cases hstep

end PathGuard.Zygisk

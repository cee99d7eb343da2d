import PathGuard.Core.MountBackend
import PathGuard.Lib.Unmount
import PathGuard.Native.MountVerify

/-!
# Rolling a mount transaction back

The end of `ApplyProcessPlan` of `module_entry.cpp` on the mount table of the kernel: the journal gets the ids of its
mounts from one snapshot, the result is published, and after an error the mounts of the journal are taken off by their
paths in reverse order. Every mount is validated before the first one is taken off, but against the table alone: that a
path leads into a mount that covers it shows only when the unmount fails, and then the namespace is tainted.

* `MountSystem`, `umount2` : the kernel as the module sees it;
* `rollbackMounts`, `checkMounts`, `finishTransaction` : the end of `ApplyProcessPlan`;
* `BindTransaction.MadeIn` : the mounts are made through descriptors, in a table that can be read before and after them;
* `aborted_restores_iff` : when an aborted transaction leaves the table as it was.
-/

namespace PathGuard.Native

open Zygisk (MountOperationStage)

/-- The values of `error`: an `errno` that a lookup returns, or one of the others. -/
inductive ErrnoValue
  | lookup (error : Errno)
  | EBUSY
  | ECANCELED
  | other (value : Nat)
  deriving DecidableEq

/-- `MountRollbackResult`, and its `failure`. -/
structure MountRollbackResult where
  stage : MountOperationStage := .none
  backend : MountBackendKind := .unsupported
  operationId : Nat := 0
  error : Option ErrnoValue := none
  expectedMountId : Nat := 0
  actualMountId : Nat := 0
  mutationHappened : Bool := false
  identityConfirmed : Bool := false
  deriving DecidableEq

/-- `ValidateRollbackDirectoryMount` fills the failure that it returns. -/
def MountRollbackResult.ofError (failure : MountError) : MountRollbackResult where
  stage := failure.stage
  backend := failure.backend
  operationId := failure.operationId
  error := failure.error.map ErrnoValue.lookup
  expectedMountId := failure.expectedMountId
  actualMountId := failure.actualMountId
  mutationHappened := failure.mutationHappened
  identityConfirmed := failure.identityConfirmed

/-! ## The kernel -/

def isName (bytes : Bytes) : Bool :=
  !bytes.isEmpty && !bytes.contains slash && !bytes.contains 0 && bytes != ascii "." && bytes != ascii ".."

theorem isName_iff {bytes : Bytes} : isName bytes = true ↔
    bytes ≠ [] ∧ slash ∉ bytes ∧ 0 ∉ bytes ∧ bytes ≠ ascii "." ∧ bytes ≠ ascii ".." := by
  simp [isName, and_assoc]

def Name.ofBytes? (bytes : Bytes) : Option Name :=
  if h : isName bytes = true then
    some ⟨bytes, (isName_iff.mp h).1, (isName_iff.mp h).2.1, (isName_iff.mp h).2.2.1, (isName_iff.mp h).2.2.2⟩
  else none

/-- The components of the path of a locator, in which there is no `.` and no `..`. -/
def pathNames (path : Bytes) : List Name := (path.splitOn slash).filterMap Name.ofBytes?

/-- The namespace of the app: its directories, where its root is, and what is read from it. -/
structure MountSystem (F : Type*) where
  trees : DirTrees F Name
  base : Place F Name
  current : NamespaceIdentity
  capture : List (Mount F Name) → Except Errno CapturedSnapshot
  stat : List (Mount F Name) → Bytes → Except Errno StatResult

section System
variable {F : Type*} [DecidableEq F]

/-- `umount2` with `MNT_DETACH`. -/
def umount2 (system : MountSystem F) (mounts : List (Mount F Name)) (path : Bytes) : Except Errno (List (Mount F Name)) :=
  match lookup system.trees mounts system.base (pathNames path) with
  | none => .error .ENOENT
  | some _ =>
      match unmount system.trees system.base mounts (pathNames path) with
      | none => .error .EINVAL
      | some mounts => .ok mounts

/-! ## The steps of a rollback -/

/-- `UnmountValidatedDirectoryMount`. -/
def unmountValidatedDirectoryMount (system : MountSystem F) (mounts : List (Mount F Name)) (applied : AppliedMount) :
    List (Mount F Name) × MountRollbackResult :=
  let result : MountRollbackResult :=
    { backend := applied.backend, operationId := applied.operationId, expectedMountId := applied.mountId,
      actualMountId := applied.mountId, mutationHappened := true, identityConfirmed := true }
  match umount2 system mounts applied.target with
  | .error error => (mounts, { result with stage := .rollbackUnmount, error := some (.lookup error) })
  | .ok mounts => (mounts, result)

/-- `VerifyRollbackDirectoryMount`. -/
def verifyRollbackDirectoryMount (current : NamespaceIdentity) (applied : AppliedMount) (snapshot : CapturedSnapshot) :
    MountRollbackResult :=
  let result : MountRollbackResult :=
    { backend := applied.backend, operationId := applied.operationId, expectedMountId := applied.mountId,
      mutationHappened := true, identityConfirmed := true }
  let found := if current = snapshot.space then findMountInfoPath snapshot.snapshot applied.target true else .error .ESTALE
  match found with
  | .error error =>
      if error ≠ .ENOENT then { result with stage := .rollbackVerify, error := some (.lookup error) } else result
  | .ok remaining =>
      if remaining.mountId = applied.mountId then
        { result with stage := .rollbackVerify, error := some .EBUSY, actualMountId := remaining.mountId }
      else result

/-- The result that `record_rollback_failure` records: the first that is not ok. -/
def firstFailure (results : List MountRollbackResult) : Option MountRollbackResult :=
  results.find? fun result => result.error.isSome

/-- The loop of the unmounts, which a failure ends. -/
def unmountJournal (system : MountSystem F) :
    List AppliedMount → List (Mount F Name) → List (Mount F Name) × Option MountRollbackResult
  | [], mounts => (mounts, none)
  | applied :: rest, mounts =>
      let (mounts, result) := unmountValidatedDirectoryMount system mounts applied
      if result.error.isSome then (mounts, some result) else unmountJournal system rest mounts

structure RolledBack (F : Type*) where
  mounts : List (Mount F Name)
  journal : List AppliedMount
  failure : Option MountRollbackResult

/-- A snapshot that could not be read. -/
def snapshotFailure (stage : MountOperationStage) (identityConfirmed : Bool) (error : Errno) : MountRollbackResult :=
  { stage := stage, error := some (.lookup error), mutationHappened := true, identityConfirmed := identityConfirmed }

/-- The rollback: all are validated, then all taken off, and then none may be there any more. -/
def rollbackMounts (system : MountSystem F) (mutationSnapshot : Option CapturedSnapshot) (journal : List AppliedMount)
    (mounts : List (Mount F Name)) : RolledBack F :=
  if journal.isEmpty then ⟨mounts, [], none⟩
  else
    let identitySnapshot :=
      match mutationSnapshot with
      | some snapshot => Except.ok snapshot
      | none => system.capture mounts
    match identitySnapshot with
    | .error error => ⟨mounts, journal, some (snapshotFailure .rollbackIdentity false error)⟩
    | .ok snapshot =>
        let validate := fun applied => MountRollbackResult.ofError <|
          validateRollbackDirectoryMount system.current applied snapshot
        match firstFailure (journal.reverse.map validate) with
        | some failure => ⟨mounts, journal, some failure⟩
        | none =>
            match unmountJournal system journal.reverse mounts with
            | (mounts, some failure) => ⟨mounts, journal, some failure⟩
            | (mounts, none) =>
                match system.capture mounts with
                | .error error => ⟨mounts, journal, some (snapshotFailure .rollbackVerify true error)⟩
                | .ok after =>
                    let verify := fun applied => verifyRollbackDirectoryMount system.current applied after
                    match firstFailure (journal.reverse.map verify) with
                    | some failure => ⟨mounts, journal, some failure⟩
                    | none => ⟨mounts, [], none⟩

/-! ## The end of the transaction -/

/-- What was pinned for the rules of the plan. -/
structure MountWorkspace where
  sources : List PinnedIdentity
  sourceIndexes : List Nat
  targets : List PinnedIdentity
  targetLocators : List Bytes

/-- The source, the target and the target path of a rule. -/
def MountWorkspace.rule? (workspace : MountWorkspace) (ruleIndex : Nat) :
    Option (PinnedIdentity × PinnedIdentity × Bytes) := do
  let sourceIndex ← workspace.sourceIndexes[ruleIndex]?
  let source ← workspace.sources[sourceIndex]?
  let target ← workspace.targets[ruleIndex]?
  let locator ← workspace.targetLocators[ruleIndex]?
  return (source, target, locator)

/-- A mount of the journal is verified, and recorded with its id when it is confirmed. -/
def hydrate (system : MountSystem F) (workspace : MountWorkspace) (before after : CapturedSnapshot)
    (mounts : List (Mount F Name)) (expectedMountCount : Nat) (recorded : AppliedMount) :
    AppliedMount × Option ErrnoValue × Bool :=
  match workspace.rule? recorded.operationId with
  | none => (recorded, some (.lookup .EOVERFLOW), true)
  | some (source, target, locator) =>
      let (verify, verified) := verifyDirectoryMount system.current (system.stat mounts locator) before after source target
        locator recorded expectedMountCount
      (if verify.identityConfirmed then verified else recorded, verify.error.map ErrnoValue.lookup, false)

structure Checked where
  journal : List AppliedMount
  error : Option ErrnoValue
  snapshot : Option CapturedSnapshot
  untracked : Bool

/-- The snapshot after the mounts, where one is needed. The first error stays. -/
def checkMounts (system : MountSystem F) (workspace : MountWorkspace) (backend : MountBackendKind)
    (before : CapturedSnapshot) (journal : List AppliedMount) (error : Option ErrnoValue) (mounts : List (Mount F Name)) :
    Checked :=
  if needsPostMountSnapshot backend (!journal.isEmpty) error.isNone then
    match system.capture mounts with
    | .error captureError => ⟨journal, error.or (some (.lookup captureError)), none, false⟩
    | .ok after =>
        let entries := journal.map (hydrate system workspace before after mounts journal.length)
        { journal := entries.map fun entry => entry.1
          error := error.or (entries.findSome? fun entry => entry.2.1)
          snapshot := some after
          untracked := entries.any fun entry => entry.2.2 }
  else ⟨journal, error, none, false⟩

structure Finished (F : Type*) where
  mounts : List (Mount F Name)
  journal : List AppliedMount
  error : Option ErrnoValue
  published : Bool
  rollbackFailed : Bool
  tainted : Bool

/-- What is done after the mounts: `error` is that of the first mount that failed, or of a cancellation, and `publish`
whether the result is still awaited. -/
def finishTransaction (system : MountSystem F) (workspace : MountWorkspace) (backend : MountBackendKind)
    (before : CapturedSnapshot) (propagationChanged publish : Bool) (journal : List AppliedMount)
    (error : Option ErrnoValue) (mounts : List (Mount F Name)) : Finished F :=
  let early := error.isNone && !needsPostMountSnapshot backend (!journal.isEmpty) true
  let error := if early && !publish then some .ECANCELED else error
  let checked := checkMounts system workspace backend before journal error mounts
  let late := checked.error.isNone && !(early && publish)
  let error := if late && !publish then some .ECANCELED else checked.error
  if error.isNone then
    { mounts := mounts
      journal := checked.journal
      error := none
      published := true
      rollbackFailed := false
      tainted := false }
  else
    let rolledBack := rollbackMounts system checked.snapshot checked.journal mounts
    { mounts := rolledBack.mounts
      journal := rolledBack.journal
      error := (rolledBack.failure.bind fun failure => failure.error).or error
      published := false
      rollbackFailed := rolledBack.failure.isSome
      tainted := propagationChanged || rolledBack.failure.isSome || checked.untracked }

/-! ## Unmounting by the path of a locator -/

theorem ofBytes?_bytes (name : Name) : Name.ofBytes? name.bytes = some name :=
  dif_pos (isName_iff.mpr ⟨name.ne, name.noSlash, name.noNul, name.plain⟩)

theorem pathNames_absolutePath (names : List Name) : pathNames (absolutePath names) = names := by
  by_cases hne : names = []
  · subst hne
    rfl
  · rw [pathNames, absolutePath_of_ne hne, splitOn_flatMap, List.filterMap_cons_none rfl, List.filterMap_map,
      show Name.ofBytes? ∘ Name.bytes = some from funext ofBytes?_bytes, List.filterMap_some]

section Unmount
variable {system : MountSystem F} {mounts mounts' : List (Mount F Name)}

theorem umount2_ok_iff {names : List Name} :
    umount2 system mounts (absolutePath names) = .ok mounts' ↔
      unmount system.trees system.base mounts names = some mounts' := by
  rw [umount2, pathNames_absolutePath]
  cases hlookup : lookup system.trees mounts system.base names with
  | none => simp [unmount, hlookup]
  | some place =>
      cases unmount system.trees system.base mounts names with
      | none => simp
      | some mounts => simp

theorem unmountJournal_eq_iff {journal : List AppliedMount} {names : List (List Name)}
    (htarget : journal.map AppliedMount.target = names.map absolutePath) :
    unmountJournal system journal mounts = (mounts', none) ↔
      unmountAll system.trees system.base mounts names = some mounts' := by
  induction journal generalizing mounts names with
  | nil =>
      obtain rfl : names = [] := List.map_eq_nil_iff.mp htarget.symm
      simp [unmountJournal, unmountAll]
  | cons applied journal ih =>
      obtain ⟨front, rest, rfl, hfront, hrest⟩ := List.map_eq_cons_iff.mp htarget.symm
      rw [unmountJournal, unmountValidatedDirectoryMount, ← hfront, unmountAll, Option.bind_eq_some_iff]
      cases hunmount : umount2 system mounts (absolutePath front) with
      | error error =>
          simp only [Option.isSome_some, if_true, Prod.mk.injEq, reduceCtorEq, and_false, false_iff, not_exists, not_and]
          intro between hbetween
          rw [← umount2_ok_iff, hunmount] at hbetween
          cases hbetween
      | ok between =>
          simp only [Option.isSome_none, Bool.false_eq_true, if_false, ih hrest.symm]
          rw [umount2_ok_iff] at hunmount
          simp [hunmount]

end Unmount

/-! ## What the journal gets -/

theorem selectRow_mem {path : Bytes} {exactMountpoint : Bool} {rows : List MountRow} {row : MountRow}
    (h : selectRow path exactMountpoint rows = some row) : row ∈ rows := by
  induction rows using List.reverseRecOn with
  | nil => cases h
  | append_singleton rows last ih =>
      rw [selectRow, List.foldl_append, ← selectRow, List.foldl_cons, List.foldl_nil] at h
      have hkeep : keepRow path exactMountpoint (selectRow path exactMountpoint rows) last =
          selectRow path exactMountpoint rows ∨
          keepRow path exactMountpoint (selectRow path exactMountpoint rows) last = some last := ite_eq_or_eq _ _ _
      rcases hkeep with hkeep | hkeep
      · exact List.mem_append_left _ (ih (hkeep.symm.trans h))
      · rw [← Option.some.inj (hkeep.symm.trans h)]
        simp

instance : DecidablePred MountOperation.Verifiable := fun operation =>
  inferInstanceAs (Decidable ((absolutePath operation.targetPath = operation.target.mount.mountpoint → _) ∧ (_ → _)))

section Journal
variable {transaction : BindTransaction} {operation : MountOperation} {row : MountRow}

theorem BindTransaction.Genuine.verify (h : transaction.Genuine) (hitem : (operation, row) ∈ transaction.operations) :
    ((transaction.verify operation).1.identityConfirmed = true ↔ operation.Verifiable) ∧
      (transaction.verify operation).2 = { operation.applied with mountId := row.mountId } := by
  have hpath : (absolutePath operation.targetPath).isEmpty = false := isEmpty_of_head? (absolutePath_head _)
  have hspace : ¬ ((absolutePath operation.targetPath).isEmpty ||
      decide (transaction.before.space ≠ transaction.after.space) ||
      decide (transaction.current ≠ transaction.after.space)) = true := by
    simp [hpath, h.space.1, h.space.2]
  have hverifiable := h.checkMounted_iff hitem
  rw [parent_iff (h.bound _ hitem), root_iff (h.bound _ hitem) (h.source _ hitem), and_comm,
    ← MountOperation.Verifiable] at hverifiable
  rw [← hverifiable, BindTransaction.verify, verifyDirectoryMount, if_neg hspace, h.find hitem]
  simp only [MountOperation.applied]
  cases hchecked : checkMounted (.ok ⟨true, operation.source.device, operation.source.inode⟩) transaction.before
      transaction.after operation.source operation.target (absolutePath operation.targetPath) operation.backend
      transaction.operations.length row.identity with
  | error error => simp [MountRow.identity]
  | ok _ => simp [MountRow.identity]

/-- A confirmed mount is found again, and one without an id is not. -/
theorem BindTransaction.Genuine.validate (h : transaction.Genuine) (hitem : (operation, row) ∈ transaction.operations)
    {mountId : Nat} (hid : mountId = row.mountId ∨ mountId = 0) :
    (validateRollbackDirectoryMount transaction.current { operation.applied with mountId := mountId }
      transaction.after).error = none ↔ mountId = row.mountId := by
  have hrow : row ∈ transaction.rowsAfter :=
    List.mem_append_right _ (List.mem_map.mpr ⟨(operation, row), hitem, rfl⟩)
  have hne : row.mountId ≠ 0 := Nat.ne_of_gt (h.wellFormed row hrow).mountId.1
  rcases hid with rfl | rfl
  · simp [validateRollbackDirectoryMount, MountOperation.applied, hne, h.space.2, h.find hitem, MountRow.identity]
  · simp [validateRollbackDirectoryMount, MountOperation.applied, hne.symm]

end Journal

/-! ## Which transactions are rolled back -/

def BindTransaction.journal (transaction : BindTransaction) : List AppliedMount :=
  transaction.operations.map fun item => item.1.applied

/-- The mounts of a transaction are made through descriptors in a namespace whose table can be read: `mounts` are those
before, and `pins` the new ones. -/
structure BindTransaction.MadeIn (transaction : BindTransaction) (system : MountSystem F) (workspace : MountWorkspace)
    (mounts : List (Mount F Name)) (pins : List (Pin F Name)) : Prop where
  genuine : transaction.Genuine
  current : system.current = transaction.current
  sound : Sound system.base mounts
  shows : ShowsTable system.base mounts transaction.rows
  before : system.capture mounts = .ok transaction.before
  after : system.capture (attachAll mounts pins) = .ok transaction.after
  made : List.Forall₂ (fun (pin : Pin F Name) item => pin.id = item.2.mountId ∧ pin.names = item.1.targetPath) pins
    transaction.operations
  fresh : ∀ pin ∈ pins, pin.id ≠ system.base.mount ∧ ∀ mount ∈ mounts, mount.id ≠ pin.id
  descriptors : ∀ item ∈ transaction.operations, item.1.backend ≠ .legacyString
  rule : ∀ item ∈ transaction.operations,
    workspace.rule? item.1.operationId = some (item.1.source, item.1.target, absolutePath item.1.targetPath)

section MadeIn
variable {transaction : BindTransaction} {system : MountSystem F} {workspace : MountWorkspace}
  {mounts : List (Mount F Name)} {pins : List (Pin F Name)}

theorem BindTransaction.MadeIn.names (h : transaction.MadeIn system workspace mounts pins) :
    pins.map Pin.names = transaction.operations.map fun item => item.1.targetPath := by
  have hmade := h.made
  clear h
  generalize transaction.operations = operations at hmade ⊢
  induction hmade with
  | nil => rfl
  | cons hpin _ ih => rw [List.map_cons, List.map_cons, ih, hpin.2]

theorem BindTransaction.MadeIn.exists_pin (h : transaction.MadeIn system workspace mounts pins)
    {item : MountOperation × MountRow} (hitem : item ∈ transaction.operations) : ∃ pin ∈ pins, pin.id = item.2.mountId := by
  have hmade := h.made
  clear h
  generalize transaction.operations = operations at hmade hitem
  induction hmade with
  | nil => cases hitem
  | @cons pin item' pins _ hpin _ ih =>
      rcases List.mem_cons.mp hitem with rfl | hitem
      · exact ⟨pin, List.mem_cons_self, hpin.1⟩
      · obtain ⟨other, hother, hid⟩ := ih hitem
        exact ⟨other, List.mem_cons_of_mem _ hother, hid⟩

theorem BindTransaction.MadeIn.mountId_ne (h : transaction.MadeIn system workspace mounts pins)
    {item : MountOperation × MountRow} (hitem : item ∈ transaction.operations) :
    ∀ shown ∈ transaction.rows, shown.mountId ≠ item.2.mountId := by
  intro shown hshown
  obtain ⟨pin, hpin, hid⟩ := h.exists_pin hitem
  obtain ⟨root, others, hrows, hroot, -, hothers⟩ := h.shows
  rw [← hid]
  rw [hrows] at hshown
  rcases List.mem_cons.mp hshown with rfl | hshown
  · rw [hroot]
    exact Ne.symm (h.fresh pin hpin).1
  · have hmem := List.mem_map_of_mem (f := MountRow.mountId) hshown
    rw [map_mountId hothers] at hmem
    obtain ⟨mount, hmount, hsame⟩ := List.mem_map.mp hmem
    rw [← hsame]
    exact (h.fresh pin hpin).2 mount hmount

theorem verifyDirectoryMount_of_descriptors {current : NamespaceIdentity} {targetStat targetStat' : Except Errno StatResult}
    {before after : CapturedSnapshot} {source target : PinnedIdentity} {targetPath : Bytes} {applied : AppliedMount}
    {expectedMountCount : Nat} (h : applied.backend ≠ .legacyString) :
    verifyDirectoryMount current targetStat before after source target targetPath applied expectedMountCount =
      verifyDirectoryMount current targetStat' before after source target targetPath applied expectedMountCount := by
  simp only [verifyDirectoryMount, checkMounted, checkLegacy, if_pos h]

theorem BindTransaction.MadeIn.hydrate_eq (h : transaction.MadeIn system workspace mounts pins)
    {item : MountOperation × MountRow} (hitem : item ∈ transaction.operations) :
    hydrate system workspace transaction.before transaction.after (attachAll mounts pins) transaction.journal.length
        item.1.applied =
      ({ item.1.applied with mountId := if item.1.Verifiable then item.2.mountId else 0 },
        (transaction.verify item.1).1.error.map ErrnoValue.lookup, false) := by
  obtain ⟨hconfirmed, hverified⟩ := h.genuine.verify hitem
  have hrule : workspace.rule? item.1.applied.operationId = _ := h.rule item hitem
  rw [hydrate, hrule]
  dsimp only
  rw [verifyDirectoryMount_of_descriptors (h.descriptors item hitem), h.current, BindTransaction.journal,
    List.length_map, ← BindTransaction.verify]
  by_cases hverifiable : item.1.Verifiable
  · rw [if_pos hverifiable, if_pos (hconfirmed.mpr hverifiable), hverified]
  · rw [if_neg hverifiable, if_neg fun hyes => hverifiable (hconfirmed.mp hyes)]
    rfl

/-- The journal after the snapshot. -/
def BindTransaction.hydrated (transaction : BindTransaction) : List AppliedMount :=
  transaction.operations.map fun item =>
    { item.1.applied with mountId := if item.1.Verifiable then item.2.mountId else 0 }

theorem firstFailure_eq_none {journal : List AppliedMount} {check : AppliedMount → MountRollbackResult} :
    firstFailure (journal.reverse.map check) = none ↔ ∀ applied ∈ journal, (check applied).error = none := by
  simp [firstFailure]

theorem BindTransaction.MadeIn.validate_iff (h : transaction.MadeIn system workspace mounts pins) :
    firstFailure (transaction.hydrated.reverse.map fun applied => MountRollbackResult.ofError <|
        validateRollbackDirectoryMount system.current applied transaction.after) = none ↔
      ∀ item ∈ transaction.operations, item.1.Verifiable := by
  rw [firstFailure_eq_none, hydrated, List.forall_mem_map]
  refine forall₂_congr fun item hitem => ?_
  have hrow : item.2 ∈ transaction.rowsAfter := List.mem_append_right _ (List.mem_map_of_mem hitem)
  have hne : item.2.mountId ≠ 0 := Nat.ne_of_gt (h.genuine.wellFormed _ hrow).mountId.1
  rw [MountRollbackResult.ofError, Option.map_eq_none_iff, h.current, h.genuine.validate hitem (ite_eq_or_eq _ _ _)]
  split
  · next hverifiable => exact iff_of_true rfl hverifiable
  · next hverifiable => exact iff_of_false hne.symm hverifiable

theorem BindTransaction.MadeIn.gone (h : transaction.MadeIn system workspace mounts pins)
    (hverifiable : ∀ item ∈ transaction.operations, item.1.Verifiable) :
    firstFailure (transaction.hydrated.reverse.map fun applied =>
      verifyRollbackDirectoryMount system.current applied transaction.before) = none := by
  rw [firstFailure_eq_none, hydrated, List.forall_mem_map]
  intro item hitem
  have hspace : system.current = transaction.before.space :=
    h.current.trans (h.genuine.space.2.trans h.genuine.space.1.symm)
  rw [if_pos (hverifiable item hitem), verifyRollbackDirectoryMount]
  simp only [if_pos hspace, MountOperation.applied]
  rw [findMountInfoPath_eq (fun row hrow => h.genuine.wellFormed row (List.mem_append_left _ hrow)) h.genuine.before
    (absolutePath_head item.1.targetPath)]
  cases hselect : selectRow (absolutePath item.1.targetPath) true transaction.rows with
  | none => rfl
  | some shown =>
      have hne : shown.identity.mountId ≠ item.2.mountId := h.mountId_ne hitem shown (selectRow_mem hselect)
      simp only [if_neg hne]

/-- **When a rollback succeeds.** -/
theorem BindTransaction.MadeIn.rollback_iff (h : transaction.MadeIn system workspace mounts pins)
    (hback : ∀ left, unmountAll system.trees system.base (attachAll mounts pins) (pins.map Pin.names).reverse = some left →
      left = mounts) {rolledBack : RolledBack F}
    (hrollback : rollbackMounts system (some transaction.after) transaction.hydrated (attachAll mounts pins) = rolledBack) :
    (rolledBack.failure = none ↔ (∀ item ∈ transaction.operations, item.1.Verifiable) ∧
      unmountAll system.trees system.base (attachAll mounts pins) (pins.map Pin.names).reverse = some mounts) ∧
    (rolledBack.failure = none → rolledBack.mounts = mounts ∧ rolledBack.journal = []) := by
  rw [rollbackMounts] at hrollback
  split at hrollback
  · next hempty =>
    have hoperations : transaction.operations = [] := by simpa [hydrated] using hempty
    have hmade := h.made
    rw [hoperations, List.forall₂_nil_right_iff] at hmade
    rw [← hrollback, hoperations, hmade]
    simp [attachAll, unmountAll]
  · dsimp only at hrollback
    split at hrollback
    · next failure hfailure =>
      rw [← hrollback]
      refine ⟨iff_of_false (fun hnone => by cases hnone) fun hall => ?_, fun hnone => by cases hnone⟩
      rw [h.validate_iff.mpr hall.1] at hfailure
      cases hfailure
    · next hvalid =>
      have hverifiable := h.validate_iff.mp hvalid
      have htarget : transaction.hydrated.reverse.map AppliedMount.target =
          (pins.map Pin.names).reverse.map absolutePath := by
        rw [h.names, List.map_reverse, List.map_reverse, hydrated, List.map_map, List.map_map]
        rfl
      have hunmount := fun left => @unmountJournal_eq_iff _ _ system (attachAll mounts pins) left _ _ htarget
      split at hrollback
      · next left failure heq =>
        rw [← hrollback]
        refine ⟨iff_of_false (fun hnone => by cases hnone) fun hall => ?_, fun hnone => by cases hnone⟩
        rw [(hunmount mounts).mpr hall.2] at heq
        cases heq
      · next left heq =>
        have hall := (hunmount left).mp heq
        obtain rfl : left = mounts := hback left hall
        rw [h.before] at hrollback
        dsimp only at hrollback
        rw [h.gone hverifiable] at hrollback
        rw [← hrollback]
        exact ⟨iff_of_true rfl ⟨hverifiable, hall⟩, fun _ => ⟨rfl, rfl⟩⟩

/-- What the journal becomes where a snapshot of its mounts is taken. -/
theorem BindTransaction.MadeIn.checkMounts_eq (h : transaction.MadeIn system workspace mounts pins)
    {backend : MountBackendKind} {error : Option ErrnoValue}
    (hneeds : transaction.journal.isEmpty = false →
      needsPostMountSnapshot backend (!transaction.journal.isEmpty) error.isNone = true) :
    ∃ later snapshot, checkMounts system workspace backend transaction.before transaction.journal error
        (attachAll mounts pins) = ⟨transaction.hydrated, error.or later, snapshot, false⟩ ∧
      rollbackMounts system snapshot transaction.hydrated (attachAll mounts pins) =
        rollbackMounts system (some transaction.after) transaction.hydrated (attachAll mounts pins) := by
  cases hempty : transaction.journal.isEmpty with
  | true =>
      have hoperations : transaction.operations = [] := by simpa [BindTransaction.journal] using hempty
      have hnot : ¬ needsPostMountSnapshot backend (!transaction.journal.isEmpty) error.isNone = true := by
        rw [hempty]
        exact Bool.false_ne_true
      refine ⟨none, none, ?_, ?_⟩
      · rw [checkMounts, if_neg hnot, Option.or_none, BindTransaction.journal, BindTransaction.hydrated, hoperations]
        rfl
      · rw [BindTransaction.hydrated, hoperations]
        rfl
  | false =>
      have hentries : transaction.journal.map (hydrate system workspace transaction.before transaction.after
          (attachAll mounts pins) transaction.journal.length) = transaction.operations.map fun item =>
          ({ item.1.applied with mountId := if item.1.Verifiable then item.2.mountId else 0 },
            (transaction.verify item.1).1.error.map ErrnoValue.lookup, false) := by
        rw [BindTransaction.journal, List.map_map]
        exact List.map_congr_left fun item hitem => h.hydrate_eq hitem
      refine ⟨transaction.operations.findSome? fun item => (transaction.verify item.1).1.error.map ErrnoValue.lookup,
        some transaction.after, ?_, rfl⟩
      rw [checkMounts, if_pos (hneeds hempty), h.after]
      simp only [hentries, List.map_map, List.any_map, List.findSome?_map, Checked.mk.injEq, true_and]
      exact ⟨rfl, rfl, by simp [Function.comp_def]⟩

theorem BindTransaction.MadeIn.finish_aborted (h : transaction.MadeIn system workspace mounts pins)
    {backend : MountBackendKind} {propagationChanged publish : Bool} {error : Option ErrnoValue}
    (hfail : error ≠ none ∨ publish = false) {finished : Finished F}
    (hfinish : finishTransaction system workspace backend transaction.before propagationChanged publish
      transaction.journal error (attachAll mounts pins) = finished) :
    ∃ rolledBack, rollbackMounts system (some transaction.after) transaction.hydrated (attachAll mounts pins) = rolledBack ∧
      finished.mounts = rolledBack.mounts ∧ finished.journal = rolledBack.journal ∧ finished.published = false ∧
      finished.rollbackFailed = rolledBack.failure.isSome ∧
      finished.tainted = (propagationChanged || rolledBack.failure.isSome) := by
  have hfailed : ∀ {backend : MountBackendKind}, transaction.journal.isEmpty = false →
      needsPostMountSnapshot backend (!transaction.journal.isEmpty) false = true := by
    intro backend hne
    rw [hne]
    rfl
  simp only [finishTransaction] at hfinish
  generalize hearly : (error.isNone && !needsPostMountSnapshot backend (!transaction.journal.isEmpty) true) = early
    at hfinish
  generalize hfirst : (if (early && !publish) = true then some ErrnoValue.ECANCELED else error) = first at hfinish
  have hnotEarly : early = true → publish = false := fun htrue => hfail.resolve_left fun hne => by
    rw [← hearly, Bool.and_eq_true, Option.isNone_iff_eq_none] at htrue
    exact hne htrue.1
  have hneeds : transaction.journal.isEmpty = false →
      needsPostMountSnapshot backend (!transaction.journal.isEmpty) first.isNone = true := by
    intro hne
    cases hfirstNone : first.isNone with
    | false => exact hfailed hne
    | true =>
        rw [← hfirst] at hfirstNone
        split at hfirstNone
        · cases hfirstNone
        · next hkept =>
          have hnone : error = none := Option.isNone_iff_eq_none.mp hfirstNone
          have hlost : publish = false := hfail.resolve_left fun hne => hne hnone
          rw [hlost, Bool.not_false, Bool.and_true, ← hearly, hnone] at hkept
          simpa using hkept
  have hsome : ∀ later : Option ErrnoValue,
      ¬ (if ((first.or later).isNone && !(early && publish) && !publish) = true then some ErrnoValue.ECANCELED
        else first.or later).isNone = true := by
    intro later
    split
    · exact Bool.false_ne_true
    · next hkept =>
      cases hpublish : publish with
      | false => simpa [hpublish] using hkept
      | true =>
          have hne : error ≠ none := hfail.resolve_right fun hfalse => by
            rw [hpublish] at hfalse
            cases hfalse
          rw [hpublish, Bool.not_true, Bool.and_false, if_neg Bool.false_ne_true] at hfirst
          rw [← hfirst]
          simp [hne]
  obtain ⟨later, snapshot, hchecked, hsame⟩ := h.checkMounts_eq hneeds
  rw [hchecked] at hfinish
  simp only [if_neg (hsome later), hsame, Bool.or_false] at hfinish
  exact ⟨_, rfl, by rw [← hfinish], by rw [← hfinish], by rw [← hfinish], by rw [← hfinish], by rw [← hfinish]⟩

theorem BindTransaction.MadeIn.finish_iff (h : transaction.MadeIn system workspace mounts pins)
    (hback : ∀ left, unmountAll system.trees system.base (attachAll mounts pins) (pins.map Pin.names).reverse = some left →
      left = mounts) {backend : MountBackendKind} {propagationChanged publish : Bool} {error : Option ErrnoValue}
    (hfail : error ≠ none ∨ publish = false) {finished : Finished F}
    (hfinish : finishTransaction system workspace backend transaction.before propagationChanged publish
      transaction.journal error (attachAll mounts pins) = finished) :
    (finished.rollbackFailed = false ↔ (∀ item ∈ transaction.operations, item.1.Verifiable) ∧
      unmountAll system.trees system.base (attachAll mounts pins) (pins.map Pin.names).reverse = some mounts) ∧
    (finished.rollbackFailed = false → finished.mounts = mounts ∧ finished.journal = []) ∧
    finished.published = false ∧ finished.tainted = (propagationChanged || finished.rollbackFailed) := by
  obtain ⟨rolledBack, hrollback, hmounts, hjournal, hpublished, hfailed, htainted⟩ := h.finish_aborted hfail hfinish
  obtain ⟨hiff, hrestored⟩ := h.rollback_iff hback hrollback
  have hnone : finished.rollbackFailed = false ↔ rolledBack.failure = none := by
    rw [hfailed, Option.isSome_eq_false_iff, Option.isNone_iff_eq_none]
  rw [hnone, hmounts, hjournal, htainted, hfailed]
  exact ⟨hiff, hrestored, hpublished, rfl⟩

/-- **When an aborted transaction leaves the namespace as it was.** Mounts that were made through descriptors, at the
places pinned before the first one, are all taken off if and only if every one is verifiable and none is above a later
one; otherwise the namespace is tainted. -/
theorem aborted_restores_iff (h : transaction.MadeIn system workspace mounts pins)
    (hpinned : Pinned system.trees system.base mounts pins) {backend : MountBackendKind}
    {propagationChanged publish : Bool} {error : Option ErrnoValue} (hfail : error ≠ none ∨ publish = false)
    {finished : Finished F}
    (hfinish : finishTransaction system workspace backend transaction.before propagationChanged publish
      transaction.journal error (attachAll mounts pins) = finished) :
    (finished.rollbackFailed = false ↔ (∀ item ∈ transaction.operations, item.1.Verifiable) ∧ Uncovered pins) ∧
    (finished.rollbackFailed = false → finished.mounts = mounts ∧ finished.journal = []) ∧
    finished.published = false ∧ finished.tainted = (propagationChanged || finished.rollbackFailed) := by
  have hunmount := hpinned.unmountAll h.sound
  have hcovered : unmountAll system.trees system.base (attachAll mounts pins) (pins.map Pin.names).reverse = some mounts ↔
      Uncovered pins := by
    rw [hunmount, Option.ite_none_right_eq_some, and_iff_left rfl]
  rw [← hcovered]
  refine h.finish_iff (fun left hleft => ?_) hfail hfinish
  rw [hunmount, Option.ite_none_right_eq_some] at hleft
  exact (Option.some.inj hleft.2).symm

end MadeIn

end System

/-! ## Two mounts, one below the other -/

/-- A namespace whose table is read as `before` without mounts, and as `after` with some. -/
def plainSystem (before after : MountInfoSnapshot) : MountSystem Nat where
  trees := everyDir
  base := rootPlace
  current := ⟨4, 1⟩
  capture := fun mounts => .ok ⟨if mounts.isEmpty then before else after, ⟨4, 1⟩⟩
  stat := fun _ _ => .error .ENOENT

def nestedWorkspace : MountWorkspace where
  sources := [plainOperation.source]
  sourceIndexes := [0, 0]
  targets := [belowOperation.target, plainOperation.target]
  targetLocators := [ascii "/b/a", ascii "/b"]

/-- `/a` at `/b/a`, and at `/b`. -/
def nestedPins : List (Pin Nat Name) :=
  [⟨2, [nameB, nameA], ⟨1, ⟨0, [nameB, nameA]⟩⟩, ⟨0, [nameA]⟩⟩, ⟨3, [nameB], ⟨1, ⟨0, [nameB]⟩⟩, ⟨0, [nameA]⟩⟩]

theorem pinned_nested {pins : List (Pin Nat Name)} (horder : pins = nestedPins ∨ pins = nestedPins.reverse) :
    Pinned everyDir rootPlace [] pins := by
  have hmem : ∀ pin ∈ pins, pin ∈ nestedPins := by
    rcases horder with rfl | rfl
    · exact fun pin hpin => hpin
    · exact fun pin hpin => List.mem_reverse.mp hpin
  have hlookup : ∀ pin ∈ nestedPins, lookup everyDir [] rootPlace pin.names = some pin.place :=
    List.forall_mem_cons.mpr ⟨rfl, List.forall_mem_singleton.mpr rfl⟩
  have hnames : ∀ pin ∈ nestedPins, pin.names ≠ [] := by decide
  have hbase : ∀ pin ∈ nestedPins, pin.id ≠ rootPlace.mount := by decide
  refine ⟨fun pin hpin => hlookup pin (hmem pin hpin), fun pin hpin => hnames pin (hmem pin hpin),
    fun pin hpin => hbase pin (hmem pin hpin), fun _ _ => List.forall_mem_nil _, ?_, ?_⟩
  all_goals rcases horder with rfl | rfl <;> decide

theorem exists_madeIn {operations : List (MountOperation × MountRow)} {pins : List (Pin Nat Name)}
    (horder : operations = nestedOperations ∧ pins = nestedPins ∨
      operations = nestedOperations.reverse ∧ pins = nestedPins.reverse) :
    ∃ before after, (bindTransaction plainRows operations before after).MadeIn (plainSystem before after) nestedWorkspace
      [] pins := by
  obtain ⟨before, after, hgenuine⟩ := genuine_nested (horder.imp And.left And.left)
  have hpins := pinned_nested (horder.imp And.right And.right)
  have hmem : ∀ item ∈ operations, item ∈ nestedOperations := by
    rcases horder with ⟨rfl, -⟩ | ⟨rfl, -⟩
    · exact fun item hitem => hitem
    · exact fun item hitem => List.mem_reverse.mp hitem
  have hdescriptors : ∀ item ∈ nestedOperations, item.1.backend ≠ .legacyString := by decide
  have hrule : ∀ item ∈ nestedOperations, nestedWorkspace.rule? item.1.operationId =
      some (item.1.source, item.1.target, absolutePath item.1.targetPath) :=
    List.forall_mem_cons.mpr ⟨rfl, List.forall_mem_singleton.mpr rfl⟩
  have hsome : attachAll [] pins ≠ [] := by rcases horder with ⟨-, rfl⟩ | ⟨-, rfl⟩ <;> decide
  refine ⟨before, after, hgenuine, rfl, sound_nil _, ⟨_, _, rfl, rfl, rfl, .nil⟩, rfl, ?_, ?_,
    fun pin hpin => ⟨hpins.base_ne pin hpin, List.forall_mem_nil _⟩,
    fun item hitem => hdescriptors item (hmem item hitem), fun item hitem => hrule item (hmem item hitem)⟩
  · simp [plainSystem, bindTransaction, hsome]
  · rcases horder with ⟨rfl, rfl⟩ | ⟨rfl, rfl⟩
    · exact .cons ⟨rfl, rfl⟩ (.cons ⟨rfl, rfl⟩ .nil)
    · exact .cons ⟨rfl, rfl⟩ (.cons ⟨rfl, rfl⟩ .nil)

/-- First `/b/a` and then `/b` comes off again; first `/b` and then `/b/a` does not. -/
theorem aborted_restores_iff_plain :
    (∃ before after finished, finishTransaction (plainSystem before after) nestedWorkspace .strictOpenTree
      ⟨before, ⟨4, 1⟩⟩ false true [belowOperation.applied, plainOperation.applied] (some .ECANCELED)
      (attachAll [] nestedPins) = finished ∧
      finished.rollbackFailed = false ∧ finished.mounts = [] ∧ finished.journal = [] ∧ finished.tainted = false) ∧
    ∃ before after finished, finishTransaction (plainSystem before after) nestedWorkspace .strictOpenTree
      ⟨before, ⟨4, 1⟩⟩ false true [plainOperation.applied, belowOperation.applied] (some .ECANCELED)
      (attachAll [] nestedPins.reverse) = finished ∧ finished.rollbackFailed = true ∧ finished.tainted = true := by
  have hfail : some ErrnoValue.ECANCELED ≠ none ∨ true = false := .inl (Option.some_ne_none _)
  constructor
  · obtain ⟨before, after, hmade⟩ := exists_madeIn (.inl ⟨rfl, rfl⟩)
    have hiff := @aborted_restores_iff _ _ _ _ _ _ _ hmade (pinned_nested (.inl rfl)) .strictOpenTree false true _ hfail _ rfl
    have hverifiable : ∀ item ∈ nestedOperations, item.1.Verifiable := by decide
    have huncovered : Uncovered nestedPins := by decide
    have hrestored := hiff.1.mpr ⟨hverifiable, huncovered⟩
    exact ⟨before, after, _, rfl, hrestored, (hiff.2.1 hrestored).1, (hiff.2.1 hrestored).2, hiff.2.2.2.trans hrestored⟩
  · obtain ⟨before, after, hmade⟩ := exists_madeIn (.inr ⟨rfl, rfl⟩)
    have hiff := @aborted_restores_iff _ _ _ _ _ _ _ hmade (pinned_nested (.inr rfl)) .strictOpenTree false true _ hfail _ rfl
    have hcovered : ¬ Uncovered nestedPins.reverse := by decide
    have hfailed := Bool.eq_true_of_not_eq_false fun hfalse => hcovered (hiff.1.mp hfalse).2
    exact ⟨before, after, _, rfl, hfailed, hiff.2.2.2.trans hfailed⟩

end PathGuard.Native

import PathGuard.Core.ValidationSpec
import PathGuard.Native.MountLookup

/-!
# Whether a genuine mount is confirmed

After a transaction the table has one more row for every bind mount that was made. `VerifyDirectoryMount` compares that
row with what was pinned before. It is right about the root, the device and the file system, but it expects a wrong
parent when the target was the root of a mount: the kernel hangs the new mount below that mount, not next to it.

* `BindTransaction`, `BindTransaction.Genuine` : the tables before and after, and what was pinned in the first;
* `bindRootText_eq` : the root that is expected of a bind mount;
* `confirms_iff` : which mounts are confirmed;
* `not_confirms_mounted` : a mount on a mount is not.
-/

namespace PathGuard.Native

/-! ## What is expected of a row -/

section Root
variable {names above below root : List Name} {output : Bytes}

theorem absolutePath_append (h : above ≠ []) (below : List Name) :
    absolutePath (above ++ below) = absolutePath above ++ below.flatMap fun name => slash :: name.bytes := by
  rw [absolutePath_of_ne (List.append_ne_nil_of_left_ne_nil h below), absolutePath_of_ne h, List.flatMap_append]

theorem head?_flatMap (h : below ≠ []) : (below.flatMap fun name => slash :: name.bytes).head? = some slash := by
  rw [← absolutePath_of_ne h]
  exact absolutePath_head below

theorem isEmpty_of_head? {text : Bytes} {byte : UInt8} (h : text.head? = some byte) : text.isEmpty = false := by
  cases text with
  | nil => cases h
  | cons _ _ => rfl

/-- The root that is expected of a bind mount is where its source is in the file system, except for the source `/` of a
mount that does not show the root of its file system. -/
theorem bindRootText_eq (hnames : names = above ++ below) :
    bindRootText (absolutePath names) (absolutePath above) (absolutePath root) =
      if names = [] ∧ root ≠ [] then absolutePath root ++ [slash] else absolutePath (root ++ below) := by
  subst hnames
  simp only [bindRootText, absolutePath_eq_slash]
  by_cases habove : above = []
  · subst habove
    have hne : (absolutePath below).isEmpty = false := isEmpty_of_head? (absolutePath_head below)
    rw [List.nil_append, if_pos rfl, hne, absolutePath_head]
    simp only [Bool.false_eq_true, if_false, if_true, List.append_nil]
    by_cases hroot : root = []
    · simp [hroot]
    · rw [if_neg hroot]
      by_cases hbelow : below = []
      · rw [if_pos ⟨hbelow, hroot⟩, hbelow]
        rfl
      · rw [if_neg fun hboth => hbelow hboth.1, absolutePath_append hroot, absolutePath_of_ne hbelow]
  · have hnames : ¬ (above ++ below = [] ∧ root ≠ []) := fun hboth => habove (List.append_eq_nil_iff.mp hboth.1).1
    rw [if_neg habove, if_neg hnames, absolutePath_append habove, List.drop_left]
    by_cases hbelow : below = []
    · simp [hbelow]
    · have hhead := head?_flatMap hbelow
      rw [isEmpty_of_head? hhead, hhead]
      simp only [Bool.false_eq_true, if_false, if_true, List.append_nil]
      by_cases hroot : root = []
      · rw [if_pos hroot, hroot, List.nil_append, absolutePath_of_ne hbelow]
      · rw [if_neg hroot, absolutePath_append hroot]

theorem buildExpectedBindRoot_ok {path mountpoint rootText : Bytes} {capacity : Nat}
    (h : buildExpectedBindRoot path mountpoint rootText capacity = .ok output) :
    output = bindRootText path mountpoint rootText := by
  rw [buildExpectedBindRoot] at h
  split at h
  · cases h
  · dsimp only at h
    split at h
    · cases h
    · exact (Except.ok.inj h).symm

end Root

/-! ## A transaction -/

/-- A bind mount that the journal has, with the paths that were pinned for it. `sourceRoot` is the path of the source
directory inside its file system. -/
structure MountOperation where
  source : PinnedIdentity
  target : PinnedIdentity
  sourcePath : List Name
  targetPath : List Name
  sourceRoot : List Name
  backend : MountBackendKind
  operationId : Nat

def MountOperation.applied (operation : MountOperation) : AppliedMount where
  backend := operation.backend
  target := absolutePath operation.targetPath
  operationId := operation.operationId

/-- `identity` is pinned for a directory, and names the mount that the directory is on: `inside` is the path of the
directory in the file system of that mount. -/
structure PinnedOn (rows : List MountRow) (snapshot : MountInfoSnapshot) (names inside : List Name)
    (identity : PinnedIdentity) : Prop where
  pinned : pinDirectory snapshot (absolutePath names) identity.device identity.inode = .ok identity
  mount : ∃ row ∈ rows, identity.mount = row.identity ∧ ∃ above below root, names = above ++ below ∧
    row.mountpoint = absolutePath above ∧ row.root = absolutePath root ∧ inside = root ++ below

theorem pinDirectory_expectedBindRoot {snapshot : MountInfoSnapshot} {path : Bytes} {device : Device} {inode : Nat}
    {identity : PinnedIdentity} (h : pinDirectory snapshot path device inode = .ok identity) :
    identity.expectedBindRoot = bindRootText path identity.mount.mountpoint identity.mount.root := by
  rw [pinDirectory] at h
  split at h
  · cases h
  · split at h
    · cases h
    · split at h
      · cases h
      · split at h
        · cases h
        · next hroot =>
          rw [← Except.ok.inj h]
          exact buildExpectedBindRoot_ok hroot

/-- The root that is expected of a bind of a pinned directory is its path in the file system of its mount, except for `/`
on a mount that does not show the root of its file system. -/
theorem PinnedOn.expectedBindRoot {rows : List MountRow} {snapshot : MountInfoSnapshot} {names inside : List Name}
    {identity : PinnedIdentity} (h : PinnedOn rows snapshot names inside identity) :
    identity.expectedBindRoot =
      if names = [] ∧ inside ≠ [] then absolutePath inside ++ [slash] else absolutePath inside := by
  obtain ⟨row, -, hmount, above, below, root, hnames, hmountpoint, hroot, rfl⟩ := h.mount
  have htext : identity.expectedBindRoot = bindRootText (absolutePath names) (absolutePath above) (absolutePath root) := by
    rw [pinDirectory_expectedBindRoot h.pinned, hmount, ← hmountpoint, ← hroot]
    rfl
  rw [htext, bindRootText_eq hnames]
  by_cases hnil : names = []
  · have hbelow : below = [] := (List.append_eq_nil_iff.mp (hnames.symm.trans hnil)).2
    rw [hbelow, List.append_nil]
  · rw [if_neg fun hboth => hnil hboth.1, if_neg fun hboth => hnil hboth.1]

theorem PinnedOn.mount_root {rows : List MountRow} {snapshot : MountInfoSnapshot} {inside : List Name}
    {identity : PinnedIdentity} (h : PinnedOn rows snapshot [] inside identity) :
    identity.mount.root = absolutePath inside := by
  obtain ⟨row, -, hmount, above, below, root, hnames, -, hroot, rfl⟩ := h.mount
  rw [(List.append_eq_nil_iff.mp hnames.symm).2, List.append_nil, hmount, ← hroot]
  rfl

/-- The row that the kernel adds for a bind of the source on the target. -/
structure IsBindRow (operation : MountOperation) (row : MountRow) : Prop where
  parentMountId : row.parentMountId = operation.target.mount.mountId
  device : row.device = operation.source.device
  root : row.root = absolutePath operation.sourceRoot
  mountpoint : row.mountpoint = absolutePath operation.targetPath
  filesystem : row.filesystem = operation.source.mount.filesystem

/-- The table before, each operation with its row, and the two snapshots. -/
structure BindTransaction where
  current : NamespaceIdentity
  rows : List MountRow
  operations : List (MountOperation × MountRow)
  before : CapturedSnapshot
  after : CapturedSnapshot

def BindTransaction.rowsAfter (transaction : BindTransaction) : List MountRow :=
  transaction.rows ++ transaction.operations.map Prod.snd

/-- The snapshots are those of the table before and after, in the same namespace. -/
structure BindTransaction.Genuine (transaction : BindTransaction) : Prop where
  wellFormed : ∀ row ∈ transaction.rowsAfter, row.WellFormed
  before : parseSnapshot (mountInfoText transaction.rows) = .ok transaction.before.snapshot
  after : parseSnapshot (mountInfoText transaction.rowsAfter) = .ok transaction.after.snapshot
  space : transaction.before.space = transaction.after.space ∧ transaction.current = transaction.after.space
  bound : ∀ item ∈ transaction.operations, IsBindRow item.1 item.2
  source : ∀ item ∈ transaction.operations,
    PinnedOn transaction.rows transaction.before.snapshot item.1.sourcePath item.1.sourceRoot item.1.source
  target : ∀ item ∈ transaction.operations, ∃ inside,
    PinnedOn transaction.rows transaction.before.snapshot item.1.targetPath inside item.1.target
  distinct : (transaction.operations.map fun item => item.1.targetPath).Nodup

/-- `VerifyDirectoryMount` of one operation. On the target, `stat` sees the source directory. -/
def BindTransaction.verify (transaction : BindTransaction) (operation : MountOperation) : MountError × AppliedMount :=
  verifyDirectoryMount transaction.current (.ok ⟨true, operation.source.device, operation.source.inode⟩)
    transaction.before transaction.after operation.source operation.target (absolutePath operation.targetPath)
    operation.applied transaction.operations.length

/-- The operation is confirmed, with the id of the row, so that it can be rolled back. -/
def BindTransaction.Confirms (transaction : BindTransaction) (operation : MountOperation) (row : MountRow) : Prop :=
  (transaction.verify operation).1.error = none ∧ (transaction.verify operation).1.identityConfirmed = true ∧
    (transaction.verify operation).2.mountId = row.mountId ∧
    (validateRollbackDirectoryMount transaction.current (transaction.verify operation).2 transaction.after).error = none

/-- The target is not the root of the mount it is on, unless that mount is its own parent; and the source is not `/`,
unless the mount there shows the root of its file system. -/
def MountOperation.Verifiable (operation : MountOperation) : Prop :=
  (absolutePath operation.targetPath = operation.target.mount.mountpoint →
    operation.target.mount.parentMountId = operation.target.mount.mountId) ∧
  (operation.sourcePath = [] → operation.source.mount.root = [slash])

/-! ## The row that is looked up -/

theorem absolutePath_injective {names names' : List Name} (h : absolutePath names = absolutePath names') :
    names = names' := by
  have hprefix : names <+: names' := by
    rw [← isPathOnMount_absolutePath, ← h, isPathOnMount_absolutePath]
  exact eq_of_length_absolutePath hprefix (List.prefix_refl _) (congrArg List.length h)

theorem selectRow_true {path : Bytes} {row : MountRow} {front back : List MountRow} (hrow : row.mountpoint = path)
    (hback : ∀ other ∈ back, other.mountpoint ≠ path) : selectRow path true (front ++ row :: back) = some row := by
  have hkeep : ∀ best, keepRow path true best row = some row := by
    intro best
    simp [keepRow, hrow]
  rw [selectRow, List.foldl_append, List.foldl_cons, hkeep]
  clear hrow hkeep
  induction back with
  | nil => rfl
  | cons other back ih =>
      rw [List.forall_mem_cons] at hback
      have hskip : keepRow path true (some row) other = some row := by simp [keepRow, hback.1]
      rw [List.foldl_cons, hskip]
      exact ih hback.2

section Transaction
variable {transaction : BindTransaction} {operation : MountOperation} {row : MountRow}

theorem BindTransaction.Genuine.find (h : transaction.Genuine) (hitem : (operation, row) ∈ transaction.operations) :
    findMountInfoPath transaction.after.snapshot (absolutePath operation.targetPath) true = .ok row.identity := by
  have hmountpoint := (h.bound _ hitem).mountpoint
  obtain ⟨front, back, hsplit⟩ := List.append_of_mem hitem
  have hback : ∀ other ∈ back.map Prod.snd, other.mountpoint ≠ absolutePath operation.targetPath := by
    intro other hother heq
    obtain ⟨item, hmem, rfl⟩ := List.mem_map.mp hother
    have hbound := h.bound item (by rw [hsplit]; simp [hmem])
    have htarget : item.1.targetPath = operation.targetPath := absolutePath_injective (hbound.mountpoint.symm.trans heq)
    have hdistinct := h.distinct
    rw [hsplit, List.map_append, List.map_cons, List.nodup_append] at hdistinct
    exact (List.nodup_cons.mp hdistinct.2.1).1 (htarget ▸ List.mem_map_of_mem hmem)
  have hrows : transaction.rowsAfter = (transaction.rows ++ front.map Prod.snd) ++ row :: back.map Prod.snd := by
    rw [BindTransaction.rowsAfter, hsplit, List.map_append, List.map_cons, List.append_assoc]
  rw [findMountInfoPath_eq h.wellFormed h.after (absolutePath_head _), hrows, selectRow_true hmountpoint hback]

theorem length_entries {rows : List MountRow} (hwell : ∀ row ∈ rows, row.WellFormed) {snapshot : MountInfoSnapshot}
    (hparse : parseSnapshot (mountInfoText rows) = .ok snapshot) : snapshot.entries.length = rows.length :=
  (forall₂_shows_of_parse hwell hparse).length_eq

/-- Everything but the root and the parent of a genuine row is what is expected. -/
theorem BindTransaction.Genuine.checkMounted_iff (h : transaction.Genuine)
    (hitem : (operation, row) ∈ transaction.operations) :
    checkMounted (.ok ⟨true, operation.source.device, operation.source.inode⟩) transaction.before transaction.after
        operation.source operation.target (absolutePath operation.targetPath) operation.backend
        transaction.operations.length row.identity = .ok () ↔
      row.root = operation.source.expectedBindRoot ∧
        row.parentMountId = expectedParent operation.target (absolutePath operation.targetPath) := by
  have hbound := h.bound _ hitem
  have hrow : row ∈ transaction.rowsAfter :=
    List.mem_append_right _ (List.mem_map.mpr ⟨(operation, row), hitem, rfl⟩)
  have hwell := h.wellFormed row hrow
  have hsame : sameObject ⟨true, operation.source.device, operation.source.inode⟩ operation.source = true := by
    simp [sameObject]
  have hcount : transaction.operations.length ≠ 0 ∧
      transaction.after.snapshot.entries.length =
        transaction.before.snapshot.entries.length + transaction.operations.length := by
    refine ⟨Nat.ne_of_gt (List.length_pos_of_mem hitem), ?_⟩
    rw [length_entries h.wellFormed h.after,
      length_entries (fun row hrow => h.wellFormed row (List.mem_append_left _ hrow)) h.before,
      BindTransaction.rowsAfter, List.length_append, List.length_map]
  have hidentity : row.identity.mountId ≠ 0 ∧ row.identity.root.isEmpty = false ∧
      row.identity.device = operation.source.device ∧ row.identity.filesystem = operation.source.mount.filesystem :=
    ⟨Nat.ne_of_gt hwell.mountId.1, List.isEmpty_eq_false_iff.mpr hwell.root.ne, hbound.device, hbound.filesystem⟩
  have hlegacy : checkLegacy (.ok ⟨true, operation.source.device, operation.source.inode⟩) transaction.before
      transaction.after operation.source operation.backend transaction.operations.length = .ok () := by
    rw [checkLegacy]
    split
    · rfl
    · simp [hsame, hcount.1, hcount.2]
  have hroot : checkIdentity operation.source row.identity = .ok () ↔ row.root = operation.source.expectedBindRoot := by
    rw [checkIdentity]
    simp only [hidentity.1, hidentity.2.1, hidentity.2.2.1, hidentity.2.2.2, decide_false, ne_eq, not_true_eq_false,
      Bool.false_or, Bool.or_false, decide_eq_true_eq, ite_eq_right_iff, reduceCtorEq, imp_false, not_not]
    rfl
  have hparent : checkParent operation.target (absolutePath operation.targetPath) row.identity = .ok () ↔
      row.parentMountId = expectedParent operation.target (absolutePath operation.targetPath) := by
    have hne : row.parentMountId ≠ 0 := Nat.ne_of_gt hwell.parentMountId.1
    rw [checkParent]
    simp only [ne_eq, Bool.or_eq_true, decide_eq_true_eq, ite_eq_right_iff, reduceCtorEq, imp_false, not_or, not_not]
    exact ⟨fun hboth => hboth.2, fun heq => ⟨heq ▸ hne, heq⟩⟩
  rw [checkMounted, hlegacy, ← hroot, ← hparent]
  have hbind : (checkIdentity operation.source row.identity >>= fun _ =>
      checkParent operation.target (absolutePath operation.targetPath) row.identity) = .ok () ↔
      ∃ _ : Unit, checkIdentity operation.source row.identity = .ok () ∧
        checkParent operation.target (absolutePath operation.targetPath) row.identity = .ok () := bind_ok_iff
  rw [exists_const] at hbind
  exact hbind

/-- The parent of the row is the mount of the target, and the expected one is not when the target is its root. -/
theorem parent_iff (hbound : IsBindRow operation row) :
    row.parentMountId = expectedParent operation.target (absolutePath operation.targetPath) ↔
      (absolutePath operation.targetPath = operation.target.mount.mountpoint →
        operation.target.mount.parentMountId = operation.target.mount.mountId) := by
  rw [hbound.parentMountId, expectedParent]
  split
  · next heq => exact ⟨fun h _ => h.symm, fun h => (h heq).symm⟩
  · next hne => exact ⟨fun _ heq => absurd heq hne, fun _ => rfl⟩

theorem root_iff {rows : List MountRow} {snapshot : MountInfoSnapshot} (hbound : IsBindRow operation row)
    (hpinned : PinnedOn rows snapshot operation.sourcePath operation.sourceRoot operation.source) :
    row.root = operation.source.expectedBindRoot ↔
      (operation.sourcePath = [] → operation.source.mount.root = [slash]) := by
  have hroot : operation.sourcePath = [] →
      (operation.source.mount.root = [slash] ↔ operation.sourceRoot = []) := fun hnil => by
    rw [PinnedOn.mount_root (hnil ▸ hpinned), absolutePath_eq_slash]
  rw [hpinned.expectedBindRoot, hbound.root]
  split
  · next hboth =>
    refine iff_of_false (fun heq => ?_) fun h => hboth.2 ((hroot hboth.1).mp (h hboth.1))
    have hlength := congrArg List.length heq
    rw [List.length_append, List.length_singleton] at hlength
    omega
  · next hnot =>
    refine iff_of_true rfl fun hnil => (hroot hnil).mpr ?_
    by_contra hne
    exact hnot ⟨hnil, hne⟩

theorem BindTransaction.Genuine.confirms_iff_checked (h : transaction.Genuine)
    (hitem : (operation, row) ∈ transaction.operations) :
    transaction.Confirms operation row ↔
      checkMounted (.ok ⟨true, operation.source.device, operation.source.inode⟩) transaction.before transaction.after
        operation.source operation.target (absolutePath operation.targetPath) operation.backend
        transaction.operations.length row.identity = .ok () := by
  have hfind := h.find hitem
  have hpath : (absolutePath operation.targetPath).isEmpty = false := isEmpty_of_head? (absolutePath_head _)
  have hspace : ¬ ((absolutePath operation.targetPath).isEmpty ||
      decide (transaction.before.space ≠ transaction.after.space) ||
      decide (transaction.current ≠ transaction.after.space)) = true := by
    simp [hpath, h.space.1, h.space.2]
  have hrow : row ∈ transaction.rowsAfter :=
    List.mem_append_right _ (List.mem_map.mpr ⟨(operation, row), hitem, rfl⟩)
  have hid : row.mountId ≠ 0 := Nat.ne_of_gt (h.wellFormed row hrow).mountId.1
  cases hchecked : checkMounted (.ok ⟨true, operation.source.device, operation.source.inode⟩) transaction.before
      transaction.after operation.source operation.target (absolutePath operation.targetPath) operation.backend
      transaction.operations.length row.identity with
  | error error =>
      refine iff_of_false (fun hconfirms => ?_) (nomatch ·)
      have herror := hconfirms.1
      rw [BindTransaction.verify, verifyDirectoryMount, if_neg hspace, hfind] at herror
      simp only [MountOperation.applied, hchecked, reduceCtorEq] at herror
  | ok _ =>
      refine iff_of_true ?_ rfl
      have hverify : transaction.verify operation =
          ({ stage := .none, backend := operation.backend, operationId := operation.operationId, error := none,
             actualMountId := row.mountId, mutationHappened := true, identityConfirmed := true },
            { operation.applied with mountId := row.mountId }) := by
        rw [BindTransaction.verify, verifyDirectoryMount, if_neg hspace, hfind]
        simp only [MountOperation.applied, hchecked]
        rfl
      rw [BindTransaction.Confirms, hverify]
      refine ⟨rfl, rfl, rfl, ?_⟩
      have hsame : ¬ (decide (row.identity.mountId = 0) || decide (row.identity.mountId ≠ row.mountId)) = true := by
        simp [MountRow.identity, hid]
      simp only [validateRollbackDirectoryMount, MountOperation.applied, if_neg hid, h.space.2, if_true, hfind]
      rw [if_neg hsame]

/-- **Which genuine mounts are confirmed.** In every transaction whose snapshots are genuine, an operation is confirmed
with the id of its row, and can be rolled back, if and only if it is verifiable. -/
theorem confirms_iff (h : transaction.Genuine) (hitem : (operation, row) ∈ transaction.operations) :
    transaction.Confirms operation row ↔ operation.Verifiable := by
  rw [h.confirms_iff_checked hitem, h.checkMounted_iff hitem, parent_iff (h.bound _ hitem),
    root_iff (h.bound _ hitem) (h.source _ hitem), MountOperation.Verifiable, and_comm]

end Transaction

/-! ## A target that is a mount already -/

/-- The directory `/a` is bound on the target, which is pinned on the mount of `targetRow`. -/
def bindOperation (operationId : Nat) (targetPath : List Name) (targetRow : MountRow) (targetRoot : Bytes) :
    MountOperation where
  source := { device := ⟨8, 1⟩, inode := 5, mount := (plainRow 1 (ascii "/")).identity, expectedBindRoot := ascii "/a" }
  target := { device := ⟨8, 1⟩, inode := 6 + operationId, mount := targetRow.identity, expectedBindRoot := targetRoot }
  sourcePath := [nameA]
  targetPath := targetPath
  sourceRoot := [nameA]
  backend := .strictOpenTree
  operationId := operationId

def bindRow (mountId parentMountId : Nat) (mountpoint : Bytes) : MountRow :=
  { plainRow mountId mountpoint with parentMountId := parentMountId, root := ascii "/a" }

def bindTransaction (rows : List MountRow) (operations : List (MountOperation × MountRow))
    (before after : MountInfoSnapshot) : BindTransaction where
  current := ⟨4, 1⟩
  rows := rows
  operations := operations
  before := ⟨before, ⟨4, 1⟩⟩
  after := ⟨after, ⟨4, 1⟩⟩

def plainRows : List MountRow := [plainRow 1 (ascii "/")]
def mountedRows : List MountRow := [plainRow 1 (ascii "/"), plainRow 2 (ascii "/b")]

/-- `/a` on `/b/a` and on `/b`, of which neither is a mount. -/
def belowOperation : MountOperation := bindOperation 0 [nameB, nameA] (plainRow 1 (ascii "/")) (ascii "/b/a")
def plainOperation : MountOperation := bindOperation 1 [nameB] (plainRow 1 (ascii "/")) (ascii "/b")

/-- `/a` on `/b`, which is a mount. -/
def mountedOperation : MountOperation := bindOperation 0 [nameB] (plainRow 2 (ascii "/b")) (ascii "/")

/-- First the mount on `/b/a` and then, over it, the one on `/b`. -/
def nestedOperations : List (MountOperation × MountRow) :=
  [(belowOperation, bindRow 2 1 (ascii "/b/a")), (plainOperation, bindRow 3 1 (ascii "/b"))]

/-- The snapshots of a table and of the table with the new rows, and what is pinned in the first. -/
theorem exists_genuine {rows : List MountRow} {operations : List (MountOperation × MountRow)}
    (hwell : ∀ shown ∈ rows ++ operations.map Prod.snd, shown.WellFormed)
    (hbefore : (parseSnapshot (mountInfoText rows)).toOption.isSome = true)
    (hafter : (parseSnapshot (mountInfoText (rows ++ operations.map Prod.snd))).toOption.isSome = true)
    (hsource : ∀ item ∈ operations, (parseSnapshot (mountInfoText rows)).bind (fun snapshot => pinDirectory snapshot
      (absolutePath item.1.sourcePath) item.1.source.device item.1.source.inode) = .ok item.1.source)
    (htarget : ∀ item ∈ operations, (parseSnapshot (mountInfoText rows)).bind (fun snapshot => pinDirectory snapshot
      (absolutePath item.1.targetPath) item.1.target.device item.1.target.inode) = .ok item.1.target)
    (hbound : ∀ item ∈ operations, IsBindRow item.1 item.2)
    (hsourceMount : ∀ item ∈ operations, ∃ shown ∈ rows, item.1.source.mount = shown.identity ∧ ∃ above below root,
      item.1.sourcePath = above ++ below ∧ shown.mountpoint = absolutePath above ∧ shown.root = absolutePath root ∧
      item.1.sourceRoot = root ++ below)
    (htargetMount : ∀ item ∈ operations, ∃ shown ∈ rows, item.1.target.mount = shown.identity ∧ ∃ above below root,
      item.1.targetPath = above ++ below ∧ shown.mountpoint = absolutePath above ∧ shown.root = absolutePath root)
    (hdistinct : (operations.map fun item => item.1.targetPath).Nodup) :
    ∃ before after, (bindTransaction rows operations before after).Genuine := by
  cases hparse : parseSnapshot (mountInfoText rows) with
  | error error =>
      rw [hparse] at hbefore
      cases hbefore
  | ok before =>
      cases hparse' : parseSnapshot (mountInfoText (rows ++ operations.map Prod.snd)) with
      | error error =>
          rw [hparse'] at hafter
          cases hafter
      | ok after =>
          rw [hparse] at hsource htarget
          refine ⟨before, after, hwell, hparse, hparse', ⟨rfl, rfl⟩, hbound, fun item hitem => ?_, fun item hitem => ?_,
            hdistinct⟩
          · exact ⟨hsource item hitem, hsourceMount item hitem⟩
          · obtain ⟨shown, hshown, hmount, above, below, root, hnames, hmountpoint, hroot⟩ := htargetMount item hitem
            exact ⟨root ++ below, htarget item hitem, shown, hshown, hmount, above, below, root, hnames, hmountpoint, hroot,
              rfl⟩

/-- The two mounts can be made in both orders. -/
theorem genuine_nested {operations : List (MountOperation × MountRow)}
    (horder : operations = nestedOperations ∨ operations = nestedOperations.reverse) :
    ∃ before after, (bindTransaction plainRows operations before after).Genuine := by
  have hroot : plainRow 1 (ascii "/") ∈ plainRows := List.mem_singleton_self _
  have hmem : ∀ item ∈ operations, item ∈ nestedOperations := by
    rcases horder with rfl | rfl
    · exact fun item hitem => hitem
    · exact fun item hitem => List.mem_reverse.mp hitem
  have hbound : ∀ item ∈ nestedOperations, IsBindRow item.1 item.2 :=
    List.forall_mem_cons.mpr ⟨⟨rfl, rfl, rfl, rfl, rfl⟩, List.forall_mem_singleton.mpr ⟨rfl, rfl, rfl, rfl, rfl⟩⟩
  have hsource : ∀ item ∈ nestedOperations, ∃ shown ∈ plainRows, item.1.source.mount = shown.identity ∧
      ∃ above below root, item.1.sourcePath = above ++ below ∧ shown.mountpoint = absolutePath above ∧
        shown.root = absolutePath root ∧ item.1.sourceRoot = root ++ below :=
    List.forall_mem_cons.mpr ⟨⟨_, hroot, rfl, [], [nameA], [], rfl, rfl, rfl, rfl⟩,
      List.forall_mem_singleton.mpr ⟨_, hroot, rfl, [], [nameA], [], rfl, rfl, rfl, rfl⟩⟩
  have htarget : ∀ item ∈ nestedOperations, ∃ shown ∈ plainRows, item.1.target.mount = shown.identity ∧
      ∃ above below root, item.1.targetPath = above ++ below ∧ shown.mountpoint = absolutePath above ∧
        shown.root = absolutePath root :=
    List.forall_mem_cons.mpr ⟨⟨_, hroot, rfl, [], [nameB, nameA], [], rfl, rfl, rfl⟩,
      List.forall_mem_singleton.mpr ⟨_, hroot, rfl, [], [nameB], [], rfl, rfl, rfl⟩⟩
  refine exists_genuine ?_ (by decide +kernel) ?_ ?_ ?_ (fun item hitem => hbound item (hmem item hitem))
    (fun item hitem => hsource item (hmem item hitem)) (fun item hitem => htarget item (hmem item hitem)) ?_
  all_goals rcases horder with rfl | rfl <;> decide +kernel

theorem confirms_iff_plain : ∃ before after, (bindTransaction plainRows nestedOperations before after).Genuine ∧
    (bindTransaction plainRows nestedOperations before after).Confirms belowOperation (bindRow 2 1 (ascii "/b/a")) ∧
    (bindTransaction plainRows nestedOperations before after).Confirms plainOperation (bindRow 3 1 (ascii "/b")) := by
  obtain ⟨before, after, hgenuine⟩ := genuine_nested (.inl rfl)
  refine ⟨before, after, hgenuine, ?_, ?_⟩
  · exact (confirms_iff hgenuine List.mem_cons_self).mpr
      ⟨fun heq => absurd heq (by decide), fun hnil => absurd hnil (by decide)⟩
  · exact (confirms_iff hgenuine (List.mem_cons_of_mem _ List.mem_cons_self)).mpr
      ⟨fun heq => absurd heq (by decide), fun hnil => absurd hnil (by decide)⟩

/-- A bind on a directory that is a mount point already is not confirmed. -/
theorem not_confirms_mounted : ∃ before after,
    (bindTransaction mountedRows [(mountedOperation, bindRow 3 2 (ascii "/b"))] before after).Genuine ∧
    ¬ (bindTransaction mountedRows [(mountedOperation, bindRow 3 2 (ascii "/b"))] before after).Confirms
      mountedOperation (bindRow 3 2 (ascii "/b")) := by
  obtain ⟨before, after, hgenuine⟩ :=
    @exists_genuine mountedRows [(mountedOperation, bindRow 3 2 (ascii "/b"))] (by decide +kernel) (by decide +kernel)
      (by decide +kernel) (by decide +kernel) (by decide +kernel)
      (List.forall_mem_singleton.mpr ⟨rfl, rfl, rfl, rfl, rfl⟩)
      (List.forall_mem_singleton.mpr
        ⟨plainRow 1 (ascii "/"), List.mem_cons_self, rfl, [], [nameA], [], rfl, rfl, rfl, rfl⟩)
      (List.forall_mem_singleton.mpr
        ⟨plainRow 2 (ascii "/b"), List.mem_cons_of_mem _ List.mem_cons_self, rfl, [nameB], [], [], rfl, rfl, rfl⟩)
      (by decide)
  refine ⟨before, after, hgenuine, fun hconfirms => ?_⟩
  rw [hgenuine.confirms_iff_checked (List.mem_singleton_self _), hgenuine.checkMounted_iff (List.mem_singleton_self _)]
    at hconfirms
  exact absurd hconfirms.2 (by decide +kernel)

end PathGuard.Native

import PathGuard.Core.RoundTrip
import PathGuard.Rules.CompiledPolicy
import PathGuard.Zygisk.PackageSearch
import PathGuard.Zygisk.RuntimePath

/-!
# The reader agrees with the writer

Every check of `LoadProcessPlan` passes on the file of a canonical document, and the plan of a process is that of the
app whose package it belongs to.

* `readPolicy_policyFile`, `findPackageEntry_eq` : the checks pass, and the package is found;
* `InScope`, `FitsPlan`, `planOf` : the processes of an app, the room there is, and their plan;
* `loadProcessPlan_ok_iff`, `loadProcessPlan_encodePolicy` : the reader agrees with the writer.
-/

namespace PathGuard.Zygisk

/-! ## The rows of the file -/

/-- What the reader finds in the row of `app`, at `index` of the package table. -/
structure EntryOf (document : PolicyDocument) (index firstMount : Nat) (app : AppPolicy)
    (nameOffset usersOffset processesOffset : UInt32) : Prop where
  hash : read32 (policyFile document) (packageEntry (decodedHeader document) index + kPackageHashOffset) =
    .ok (packageNameHash app.package)
  name : read32 (policyFile document) (packageEntry (decodedHeader document) index + kPackageNameOffset) =
    .ok nameOffset
  users : read32 (policyFile document) (packageEntry (decodedHeader document) index + kPackageUsersOffset) =
    .ok usersOffset
  processes : read32 (policyFile document) (packageEntry (decodedHeader document) index + kPackageProcessesOffset) =
    .ok processesOffset
  firstMount : read32 (policyFile document) (packageEntry (decodedHeader document) index + kPackageFirstMountOffset) =
    .ok (UInt32.ofNat firstMount)
  mountCount : read32 (policyFile document) (packageEntry (decodedHeader document) index + kPackageMountCountOffset) =
    .ok (size32 app.mounts)
  firstEvent : read32 (policyFile document) (packageEntry (decodedHeader document) index + kPackageFirstEventOffset) =
    .ok 0
  eventCount : read32 (policyFile document) (packageEntry (decodedHeader document) index + kPackageEventCountOffset) =
    .ok 0
  planGeneration :
    read64 (policyFile document) (packageEntry (decodedHeader document) index + kPackagePlanGenerationOffset) =
      .ok (planGeneration app document.failureMode document.allowLegacyStringBind)
  failureMode : read8 (policyFile document) (packageEntry (decodedHeader document) index + kPackageFailureModeOffset) =
    .ok 0
  mediaCompat : read8 (policyFile document) (packageEntry (decodedHeader document) index + kPackageMediaCompatOffset) =
    .ok 0
  providerCompat :
    read8 (policyFile document) (packageEntry (decodedHeader document) index + kPackageProviderCompatOffset) =
      .ok app.providerCompat.code
  reserved : read8 (policyFile document) (packageEntry (decodedHeader document) index + 43) = .ok 0
  reserved32 : read32 (policyFile document) (packageEntry (decodedHeader document) index + 44) = .ok 0
  nameAt : HoldsAt (policyFile document) ((decodedHeader document).stringOffset.toNat + nameOffset.toNat)
    (app.package ++ [0])
  readName : readString (policyFile document) (decodedHeader document).stringOffset nameOffset = some app.package
  readUsers : readString (policyFile document) (decodedHeader document).stringOffset usersOffset =
    some (joinList app.users)
  readProcesses : readString (policyFile document) (decodedHeader document).stringOffset processesOffset =
    some (joinList app.processes)

/-- What the reader finds in a row of the mount table. -/
structure MountRowOf (document : PolicyDocument) (row : Nat) (rule : LogicalMountRule)
    (visibleOffset backingOffset : UInt32) : Prop where
  action : read8 (policyFile document) (row + kMountActionOffset) = .ok rule.action.code
  reserved : read8 (policyFile document) (row + 1) = .ok 0
  reserved16 : read16 (policyFile document) (row + 6) = .ok 0
  visible : read32 (policyFile document) (row + kMountVisiblePathOffset) = .ok visibleOffset
  backing : read32 (policyFile document) (row + kMountBackingPathOffset) = .ok backingOffset
  readVisible : readString (policyFile document) (decodedHeader document).stringOffset visibleOffset =
    some rule.visiblePath
  readBacking : readString (policyFile document) (decodedHeader document).stringOffset backingOffset =
    some rule.backingPath

section Reader
variable {document : PolicyDocument} (hdoc : Canonical document)
include hdoc

theorem exists_entryOf {done todo : List AppPolicy} {app : AppPolicy}
    (happs : sortedApps document = done ++ app :: todo) :
    ∃ name users processes, EntryOf document done.length (mountCount done) app name users processes := by
  have hmem := mem_apps_of_sortedApps happs
  have hstrings := hdoc.strings app hmem
  have hexec := hdoc.executable app hmem
  obtain ⟨name, users, processes, hname, husers, hprocesses, hrow⟩ := hdoc.exists_packageRow happs
  rw [packageFields, hdoc.failureMode, hexec.mediaCompat, hexec.events] at hrow
  have hlt := hdoc.length_lt
  have hnameAt := hdoc.holdsAt_strings.trans (hdoc.placed.placed.strings _ name hname (by omega))
  rw [← hdoc.stringOffset_toNat] at hnameAt
  refine ⟨name, users, processes, ?_⟩
  exact {
    hash := read32_of_holdsAt (hrow.field 0 rfl rfl)
    name := read32_of_holdsAt (hrow.field 1 rfl rfl)
    users := read32_of_holdsAt (hrow.field 2 rfl rfl)
    processes := read32_of_holdsAt (hrow.field 3 rfl rfl)
    firstMount := read32_of_holdsAt (hrow.field 4 rfl rfl)
    mountCount := read32_of_holdsAt (hrow.field 5 rfl rfl)
    firstEvent := read32_of_holdsAt (hrow.field 6 rfl rfl)
    eventCount := read32_of_holdsAt (hrow.field 7 rfl rfl)
    planGeneration := by
      rw [hdoc.failureMode]
      exact read64_of_holdsAt (hrow.field 8 rfl rfl)
    failureMode := read8_of_holdsAt (hrow.field 9 rfl rfl)
    mediaCompat := read8_of_holdsAt (hrow.field 10 rfl rfl)
    providerCompat := read8_of_holdsAt (hrow.field 11 rfl rfl)
    reserved := read8_of_holdsAt (hrow.field 12 rfl rfl)
    reserved32 := read32_of_holdsAt (hrow.field 13 rfl rfl)
    nameAt := hnameAt
    readName := hdoc.readString_of_has hname hstrings.package.nul_free
    readUsers := hdoc.readString_of_has husers (nul_notMem_joinList hstrings.users)
    readProcesses := hdoc.readString_of_has hprocesses (nul_notMem_joinList hstrings.processes) }

theorem exists_mountRowOf {index : Nat} {rule : LogicalMountRule}
    (hrule : ((sortedApps document).flatMap AppPolicy.mounts)[index]? = some rule) :
    ∃ visible backing,
      MountRowOf document ((decodedHeader document).mountOffset.toNat + index * kMountRuleSize) rule visible backing := by
  obtain ⟨part, ⟨visible, backing, hvisible, hbacking, rfl⟩, hholds⟩ := hdoc.placed.placed.mounts.row _ rule hrule
  obtain ⟨app, happ, hmem⟩ := List.mem_flatMap.mp (List.mem_of_getElem? hrule)
  obtain ⟨-, -, -, -, hpaths⟩ := validatePolicy_strings (hdoc.valid app (mem_sortOn.mp happ))
  obtain ⟨hvisible0, hbacking0⟩ := hpaths rule hmem
  have hrow := hdoc.holdsAt_mounts.trans hholds
  rw [← hdoc.mountOffset_toNat] at hrow
  refine ⟨visible, backing, ?_⟩
  exact {
    action := read8_of_holdsAt (hrow.field 0 rfl rfl)
    reserved := read8_of_holdsAt (hrow.field 1 rfl rfl)
    reserved16 := read16_of_holdsAt (hrow.field 4 rfl rfl)
    visible := read32_of_holdsAt (hrow.field 5 rfl rfl)
    backing := read32_of_holdsAt (hrow.field 6 rfl rfl)
    readVisible := hdoc.readString_of_has hvisible hvisible0
    readBacking := hdoc.readString_of_has hbacking hbacking0 }

/-! ## The checks of the tables -/

theorem validPackageIndex_ok {done todo : List AppPolicy} (happs : sortedApps document = done ++ todo) :
    validPackageIndex (policyFile document) (decodedHeader document) todo.length done.length
      (stateAfter done).previousHash (stateAfter done).previousPackage = .ok () := by
  induction todo generalizing done with
  | nil => rfl
  | cons app todo ih =>
      obtain ⟨name, users, processes, hentry⟩ := exists_entryOf hdoc happs
      have hordered := packageIndex_ordered (happs ▸ pairwise_sortedApps document) (happs ▸ hdoc.nodup_sortedApps)
      have hrest := @ih (done ++ [app]) (by rw [happs, List.append_assoc, List.singleton_append])
      have hhash : (stateAfter (done ++ [app])).previousHash = packageNameHash app.package := by simp [stateAfter]
      have hpackage : (stateAfter (done ++ [app])).previousPackage = app.package := by simp [stateAfter]
      rw [hhash, hpackage, List.length_append, List.length_singleton] at hrest
      simp only [List.length_cons, validPackageIndex, hentry.hash, hentry.name, ok_bind, hentry.readName, hordered,
        ne_eq, not_true_eq_false, decide_false, Bool.or_false, Bool.false_eq_true, if_false]
      exact hrest

theorem validPackageRanges_ok {done todo : List AppPolicy} (happs : sortedApps document = done ++ todo) :
    validPackageRanges (policyFile document) (decodedHeader document) todo.length done.length
      (UInt32.ofNat (mountCount done)) 0 = .ok () := by
  have hevents : (decodedHeader document).eventCount = 0 := rfl
  induction todo generalizing done with
  | nil =>
      have hall : UInt32.ofNat (mountCount done) = (decodedHeader document).mountCount := by
        rw [List.append_nil] at happs
        rw [← happs, mountCount_sortedApps]
        rfl
      simp [validPackageRanges, hall, hevents]
  | cons app todo ih =>
      obtain ⟨name, users, processes, hentry⟩ := exists_entryOf hdoc happs
      obtain ⟨-, hrange, -⟩ := hdoc.mountRange happs
      have hrest := @ih (done ++ [app]) (by rw [happs, List.append_assoc, List.singleton_append])
      have hnext : UInt32.ofNat (mountCount (done ++ [app])) = UInt32.ofNat (mountCount done) + size32 app.mounts := by
        simp [UInt32.ofNat_add, size32, mountCount]
      rw [hnext, List.length_append, List.length_singleton] at hrest
      have hprovider : ¬ 1 < app.providerCompat.code := by
        cases app.providerCompat <;> decide
      simp only [List.length_cons, validPackageRanges, hentry.firstMount, hentry.mountCount, hentry.firstEvent,
        hentry.eventCount, hentry.failureMode, hentry.mediaCompat, hentry.providerCompat, hentry.reserved,
        hentry.reserved32, ok_bind, hrange, hprovider, hevents, ne_eq, not_true_eq_false, decide_false, Bool.or_false,
        UInt32.add_zero]
      exact hrest

omit hdoc in
theorem validRows_ok {valid : Nat → Read Unit} {tableOffset size count index : Nat}
    (h : ∀ i, index ≤ i → i < index + count → valid (tableOffset + i * size) = .ok ()) :
    validRows valid tableOffset size count index = .ok () := by
  induction count generalizing index with
  | zero => rfl
  | succ count ih =>
      rw [validRows, h index (le_refl _) (by omega), ok_bind]
      exact ih fun i hi hlt => h i (by omega) (by omega)

theorem validMountRow_ok {index : Nat} (hindex : index < mountCount document.apps) :
    validMountRow (policyFile document) (decodedHeader document).stringOffset
      ((decodedHeader document).mountOffset.toNat + index * kMountRuleSize) = .ok () := by
  rw [← mountCount_sortedApps, ← length_flatMap_mounts] at hindex
  obtain ⟨visible, backing, hrow⟩ := exists_mountRowOf hdoc (List.getElem?_eq_getElem hindex)
  have haction : ∀ action : MountAction, ¬ 3 < action.code := by
    intro action
    cases action <;> decide
  simp [validMountRow, hrow.action, hrow.reserved, hrow.reserved16, hrow.visible, hrow.backing, ok_bind,
    hrow.readVisible, hrow.readBacking, haction]

theorem readPolicy_policyFile : readPolicy (policyFile document) = .ok (decodedHeader document) := by
  have hlarge : ¬ (policyFile document).length < kHeaderSize := by
    rw [hdoc.length_policyFile, stringStart, mountStart]
    omega
  have hcount : (decodedHeader document).packageCount.toNat = (sortedApps document).length := by
    rw [hdoc.packageCount_toNat, (sortedApps_perm document).length_eq]
  have hindex : validPackageIndex (policyFile document) (decodedHeader document) (sortedApps document).length 0 0 [] =
      .ok () := @validPackageIndex_ok _ hdoc [] (sortedApps document) rfl
  have hranges : validPackageRanges (policyFile document) (decodedHeader document) (sortedApps document).length 0 0 0 =
      .ok () := @validPackageRanges_ok _ hdoc [] (sortedApps document) rfl
  have hmounts := validRows_ok fun i _ hi => validMountRow_ok hdoc (by rwa [Nat.zero_add] at hi)
  simp only [readPolicy, hlarge, if_false, hdoc.readHeader_policyFile, ok_bind, hcount, hindex, validPolicyTables,
    hranges, hdoc.mountCount_toNat, hmounts]
  rfl

/-! ## Finding the package -/

theorem namesFrom_sortedApps :
    NamesFrom (policyFile document) (decodedHeader document) 0 ((sortedApps document).map AppPolicy.package) := by
  intro i name hname
  obtain ⟨app, happ, rfl⟩ := List.mem_map.mp (List.mem_of_getElem? hname)
  obtain ⟨hi, hget⟩ := List.getElem?_eq_some_iff.mp hname
  rw [List.length_map] at hi
  rw [List.getElem_map] at hget
  have happs : sortedApps document =
      (sortedApps document).take i ++ (sortedApps document)[i] :: (sortedApps document).drop (i + 1) := by
    rw [List.getElem_cons_drop, List.take_append_drop]
  obtain ⟨name, users, processes, hentry⟩ := exists_entryOf hdoc happs
  rw [List.length_take, Nat.min_eq_left (Nat.le_of_lt hi)] at hentry
  rw [Nat.zero_add, ← hget]
  exact ⟨hentry.hash, name, hentry.name, hentry.readName⟩

omit hdoc in
theorem sorted_hashes (document : PolicyDocument) : ((sortedApps document).map AppPolicy.package).Pairwise
    fun a b => packageNameHash a ≤ packageNameHash b := by
  rw [List.pairwise_map]
  refine (pairwise_sortedApps document).imp fun hle => ?_
  rw [UInt32.le_iff_toNat_le]
  rcases Prod.Lex.toLex_le_toLex.mp hle with hlt | ⟨heq, -⟩
  · exact Nat.le_of_lt hlt
  · exact Nat.le_of_eq heq

/-- **The binary search finds the package** of a canonical document, and nothing else. -/
theorem findPackageEntry_eq {package : Bytes} (hpackage : 0 ∉ package) (hne : package ≠ []) :
    ∃ found, findPackageEntry (policyFile document) (decodedHeader document) package = .ok found ∧
      ((∃ front app rest, sortedApps document = front ++ app :: rest ∧ app.package = package ∧
          found = some (packageEntry (decodedHeader document) front.length)) ∨
        found = none ∧ ∀ app ∈ document.apps, app.package ≠ package) := by
  have hcount : (decodedHeader document).packageCount.toNat =
      ((sortedApps document).map AppPolicy.package).length := by
    rw [hdoc.packageCount_toNat, List.length_map, (sortedApps_perm document).length_eq]
  have hindex := validPolicyIndex_of_accepted (headerAccepted_of_ok hdoc.readHeader_policyFile)
    (stringOffset_lt_of_ok hdoc.readHeader_policyFile).le
  refine ⟨_, findPackageEntry_of_names hindex hcount (namesFrom_sortedApps hdoc) (sorted_hashes document) hpackage hne, ?_⟩
  cases hfound : ((sortedApps document).map AppPolicy.package).idxOf? package with
  | none =>
      refine Or.inr ⟨rfl, fun app happ heq => ?_⟩
      refine List.idxOf?_eq_none_iff.mp hfound (List.mem_map.mpr ⟨app, ?_, heq⟩)
      exact mem_sortOn.mpr happ
  | some i =>
      obtain ⟨hi, hname, -⟩ := List.idxOf?_eq_some_iff.mp hfound
      rw [List.length_map] at hi
      rw [List.getElem_map] at hname
      refine Or.inl ⟨(sortedApps document).take i, (sortedApps document)[i], (sortedApps document).drop (i + 1), ?_, hname,
        ?_⟩
      · rw [List.getElem_cons_drop, List.take_append_drop]
      · rw [List.length_take, Nat.min_eq_left (Nat.le_of_lt hi)]
        rfl

end Reader

/-! ## The scope -/

theorem joinList_eq_star_iff {items : List Bytes} (hne : items ≠ []) (h : ∀ item ∈ items, ListItem item) :
    joinList items = ascii "*" ↔ items = [ascii "*"] := by
  constructor
  · intro hstar
    have hsplit := List.splitOn_intercalate comma (fun item hitem => (h item hitem).comma_free) hne
    rw [← hsplit, show [comma].intercalate items = ascii "*" from hstar]
    decide
  · rintro rfl
    rfl

theorem listItems_joinList {items : List Bytes} (hne : items ≠ []) (h : ∀ item ∈ items, ListItem item) :
    listItems (joinList items) = items := by
  have hsplit : (joinList items).splitOn comma = items :=
    List.splitOn_intercalate comma (fun item hitem => (h item hitem).comma_free) hne
  have hlast : items.getLast? ≠ some [] := fun hlast => (h [] (List.mem_of_getLast? hlast)).nonempty rfl
  rw [listItems, hsplit]
  exact if_neg hlast

theorem listContains_joinList {items : List Bytes} (hne : items ≠ []) (h : ∀ item ∈ items, ListItem item)
    (expected : Bytes) :
    listContains (joinList items) expected = true ↔ items = [ascii "*"] ∨ expected ∈ items := by
  rw [listContains, listItems_joinList hne h, Bool.or_eq_true, beq_iff_eq, joinList_eq_star_iff hne h, List.contains_iff_mem]

theorem belongs_to_package (process : Bytes) :
    (process.takeWhile (· ≠ colon) == process || (process.takeWhile (· ≠ colon)).isPrefixOf process &&
      process[(process.takeWhile (· ≠ colon)).length]? == some colon) = true := by
  have hsplit : process.takeWhile (· ≠ colon) ++ process.dropWhile (· ≠ colon) = process :=
    List.takeWhile_append_dropWhile
  rw [Bool.or_eq_true]
  cases hrest : process.dropWhile (· ≠ colon) with
  | nil =>
      rw [hrest, List.append_nil] at hsplit
      exact Or.inl (beq_iff_eq.mpr hsplit)
  | cons byte rest =>
      have hbyte : byte = colon := by
        have hhead := List.head?_dropWhile_not (· ≠ colon) process
        rw [hrest] at hhead
        simpa using hhead
      right
      rw [Bool.and_eq_true, List.isPrefixOf_iff_prefix, beq_iff_eq]
      refine ⟨List.takeWhile_prefix _, ?_⟩
      have hat : (process.takeWhile (· ≠ colon) ++ process.dropWhile (· ≠ colon))[(process.takeWhile (· ≠ colon)).length]? =
          some colon := by
        rw [List.getElem?_append_right (le_refl _), Nat.sub_self, hrest, hbyte]
        rfl
      rwa [hsplit] at hat

/-- The processes and users of an app that a list names, or all. -/
structure InScope (app : AppPolicy) (process : Bytes) (uid : Uid) : Prop where
  process : app.processes = [ascii "*"] ∨ process ∈ app.processes
  user : app.users = [ascii "*"] ∨ decimalBytes uid.user ∈ app.users

theorem processMatches_iff {app : AppPolicy} (h : EncodableStrings app) {process : Bytes}
    (hpackage : app.package = process.takeWhile (· ≠ colon)) :
    processMatches app.package (joinList app.processes) process = true ↔
      app.processes = [ascii "*"] ∨ process ∈ app.processes := by
  unfold processMatches
  split
  · exact listContains_joinList h.processes_ne h.processes process
  · next hstar =>
    rw [not_not, joinList_eq_star_iff h.processes_ne h.processes] at hstar
    rw [hpackage]
    exact iff_of_true (belongs_to_package process) (Or.inl hstar)

/-! ## The plan -/

theorem Uid.user_lt (uid : Uid) : uid.user < 10 ^ 6 := by
  have hlt := uid.isLt
  unfold Uid.user
  omega

/-- The limits of a plan: the number of its rules, and the arena with the paths and their terminators. -/
structure FitsPlan (userId : Nat) (app : AppPolicy) : Prop where
  mounts_ne : 1 ≤ app.mounts.length
  mounts_le : app.mounts.length ≤ kMaxMountRules
  arena : 1 + ((app.mounts.map (plannedRule userId)).map arenaBytes).sum ≤ kMaxPlanPathBytes

/-- The plan of a process of `app`. -/
def planOf (document : PolicyDocument) (app : AppPolicy) (process : Bytes) (uid : Uid) : LoadedPlan where
  mounts := app.mounts.map (plannedRule uid.user)
  pathBytes := 1 + ((app.mounts.map (plannedRule uid.user)).map arenaBytes).sum
  snapshotGeneration := contentGeneration document
  planGeneration := planGeneration app document.failureMode document.allowLegacyStringBind
  policyFlags := if document.allowLegacyStringBind then kPolicyFlagAllowLegacyStringBind else 0
  mediaCompat := false
  providerCompat := app.providerCompat == .virtualize
  processName := process

section Reader
variable {document : PolicyDocument} (hdoc : Canonical document)
include hdoc

theorem canonicalRule_of_mem {app : AppPolicy} (happ : app ∈ document.apps) {rule : LogicalMountRule}
    (hrule : rule ∈ app.mounts) : CanonicalRule app.package rule := by
  obtain ⟨original, -, hnormal⟩ := (mem_mounts_of_validatePolicy (hdoc.valid app happ)).mp hrule
  exact ⟨(normalRule_some hnormal).1, (hdoc.executable app happ).mounts rule hrule⟩

omit hdoc in
theorem mount_at {done todo : List AppPolicy} {app : AppPolicy} (happs : sortedApps document = done ++ app :: todo)
    {before after : List LogicalMountRule} {rule : LogicalMountRule} (hrules : app.mounts = before ++ rule :: after) :
    ((sortedApps document).flatMap AppPolicy.mounts)[mountCount done + before.length]? = some rule := by
  rw [happs, List.flatMap_append, List.flatMap_cons, ← length_flatMap_mounts,
    List.getElem?_append_right (Nat.le_add_right _ _), Nat.add_sub_cancel_left, hrules, List.append_assoc,
    List.getElem?_append_right (le_refl _), Nat.sub_self]
  rfl

theorem mountIndex_toNat {done todo : List AppPolicy} {app : AppPolicy}
    (happs : sortedApps document = done ++ app :: todo) {before after : List LogicalMountRule} {rule : LogicalMountRule}
    (hrules : app.mounts = before ++ rule :: after) :
    (UInt32.ofNat (mountCount done) + UInt32.ofNat before.length).toNat = mountCount done + before.length := by
  have hcount := mountCount_le happs
  have hfits := hdoc.fits.mounts
  have hlength : app.mounts.length = before.length + (after.length + 1) := by simp [hrules]
  rw [← UInt32.ofNat_add]
  exact UInt32.toNat_ofNat_of_lt' (show mountCount done + before.length < 2 ^ 32 by omega)

theorem loadPlannedRules_eq {done todo : List AppPolicy} {app : AppPolicy}
    (happs : sortedApps document = done ++ app :: todo) (userId : Nat) {before after : List LogicalMountRule}
    (hrules : app.mounts = before ++ after) (plan : ProcessPlan) :
    loadPlannedRules (policyFile document) (decodedHeader document) userId (UInt32.ofNat (mountCount done)) after.length
      before.length plan =
        match loadRules userId after plan with
        | some plan => .ok plan
        | none => rejected := by
  induction after generalizing before plan with
  | nil => rfl
  | cons rule after ih =>
      obtain ⟨visible, backing, hrow⟩ := exists_mountRowOf hdoc (mount_at happs hrules)
      have hread : readPlannedRule (policyFile document) (decodedHeader document)
          ((decodedHeader document).mountOffset.toNat + (mountCount done + before.length) * kMountRuleSize) =
            .ok { action := rule.action, visiblePath := rule.visiblePath, backingPath := rule.backingPath } := by
        simp only [readPlannedRule, hrow.action, hrow.reserved, hrow.reserved16, hrow.visible, hrow.backing, ok_bind,
          hrow.readVisible, hrow.readBacking, MountAction.ofCode?_code]
        rfl
      have hstep : loadRules userId
          [{ action := rule.action, visiblePath := rule.visiblePath, backingPath := rule.backingPath }] plan =
            loadRules userId [rule] plan := rfl
      have hsplit :
          loadRules userId (rule :: after) plan = (loadRules userId [rule] plan).bind (loadRules userId after) := by
        simp only [loadRules]
        cases plannedMount userId rule with
        | none => rfl
        | some mount =>
            simp only [Option.bind_eq_bind, Option.bind_some]
            cases storePlanPath plan.pathBytes mount.visiblePath with
            | none => rfl
            | some pathBytes => simp [Option.bind_assoc]
      rw [List.length_cons, loadPlannedRules, mountIndex_toNat hdoc happs hrules, hread, ok_bind, hstep, hsplit]
      cases loadRules userId [rule] plan with
      | none => rfl
      | some plan =>
          have hrest := @ih (before ++ [rule]) (by rw [hrules, List.append_assoc, List.singleton_append]) plan
          rw [List.length_append, List.length_singleton] at hrest
          exact hrest

/-- The row of a package gives a plan exactly when the process is in its scope and the plan has room. -/
theorem loadPackageEntry_ok_iff {done todo : List AppPolicy} {app : AppPolicy}
    (happs : sortedApps document = done ++ app :: todo) {process : Bytes}
    (hpackage : app.package = process.takeWhile (· ≠ colon)) (uid : Uid) {plan : LoadedPlan} :
    loadPackageEntry (policyFile document) (decodedHeader document) process uid
        (packageEntry (decodedHeader document) done.length) = .ok plan ↔
      InScope app process uid ∧ FitsPlan uid.user app ∧ plan = planOf document app process uid := by
  have hmem := mem_apps_of_sortedApps happs
  have hstrings := hdoc.strings app hmem
  obtain ⟨name, users, processes, hentry⟩ := exists_entryOf hdoc happs
  obtain ⟨hfirst, hrange, hsize⟩ := hdoc.mountRange happs
  have hread16 : read64 (policyFile document) kContentGenerationOffset = .ok (contentGeneration document) := by
    have hrow := hdoc.holdsAt_header
    rw [hdoc.headerFields_eq] at hrow
    exact read64_of_holdsAt (hrow.field 5 rfl rfl)
  have hloop : loadPlannedRules (policyFile document) (decodedHeader document) uid.user (UInt32.ofNat (mountCount done))
      app.mounts.length 0 {} = _ := loadPlannedRules_eq hdoc happs uid.user (List.nil_append app.mounts).symm {}
  rw [loadRules_eq uid.user_lt (fun rule hrule => canonicalRule_of_mem hdoc hmem hrule) (by decide)] at hloop
  have hprocess := processMatches_iff hstrings hpackage
  have huser := listContains_joinList hstrings.users_ne hstrings.users (decimalBytes uid.user)
  have hevents : (decodedHeader document).eventCount = 0 := rfl
  have hprovider : ¬ 1 < app.providerCompat.code := by
    cases app.providerCompat <;> decide
  have hmode : (app.providerCompat.code == 1) = (app.providerCompat == .virtualize) := by
    cases app.providerCompat <;> decide
  have hnotFirst : ¬ (decodedHeader document).mountCount < UInt32.ofNat (mountCount done) := by
    rw [UInt32.not_lt]
    exact hfirst
  simp only [loadPackageEntry, hentry.name, hentry.users, hentry.processes, hentry.firstMount, hentry.mountCount,
    hentry.firstEvent, hentry.eventCount, hentry.failureMode, hentry.mediaCompat, hentry.providerCompat,
    hentry.reserved, hentry.reserved32, hentry.planGeneration, hread16, hentry.readName, hentry.readUsers,
    hentry.readProcesses, hsize, hloop, hrange, hnotFirst, hprovider, hevents, ok_bind]
  rw [if_neg (by decide)]
  constructor
  · intro hload
    split at hload
    · cases hload
    · next hscope =>
      rw [Bool.or_eq_true, Bool.not_eq_true', Bool.not_eq_true', not_or, Bool.not_eq_false, Bool.not_eq_false] at hscope
      split at hload
      · cases hload
      · next hcount =>
        split at hload
        · next loaded hloaded =>
          split at hloaded
          · next harena =>
            obtain rfl := Option.some.inj hloaded
            rw [ok_bind] at hload
            split at hload
            · cases hload
            · next hne =>
              have hlength : 1 ≤ app.mounts.length := by
                rw [List.nil_append, List.isEmpty_iff, List.map_eq_nil_iff] at hne
                exact List.length_pos_iff.mpr hne
              simp only [decide_false, Bool.false_or, decide_eq_true_eq, Nat.not_lt] at hcount
              refine ⟨⟨hprocess.mp hscope.1, huser.mp hscope.2⟩, ⟨hlength, hcount, harena⟩, ?_⟩
              rw [← Except.ok.inj hload, hmode]
              rfl
          · cases hloaded
        · cases hload
  · rintro ⟨hscope, hfits, rfl⟩
    have hne : app.mounts ≠ [] := List.length_pos_iff.mp hfits.mounts_ne
    rw [hprocess.mpr hscope.process, huser.mpr hscope.user, if_neg (by decide), if_neg (by simpa using hfits.mounts_le),
      if_pos hfits.arena]
    simp only [ok_bind, List.nil_append, List.isEmpty_iff, List.map_eq_nil_iff, hne, if_false, hmode]
    rfl

/-- **The reader agrees with the writer**, for the file of a canonical document. -/
theorem loadProcessPlan_ok_iff {process : CString} (hlength : process.bytes.length < kMaxProcessNameBytes) (uid : Uid)
    {plan : LoadedPlan} :
    loadProcessPlan (policyFile document) process uid = .ok plan ↔
      ∃ app ∈ document.apps, app.package = process.bytes.takeWhile (· ≠ colon) ∧ InScope app process.bytes uid ∧
        FitsPlan uid.user app ∧ plan = planOf document app process.bytes uid := by
  have hnul : 0 ∉ process.bytes.takeWhile (· ≠ colon) := fun hmem =>
    process.nul_free ((List.takeWhile_prefix _).subset hmem)
  rw [loadProcessPlan, if_neg (by omega), readPolicy_policyFile hdoc, ok_bind]
  by_cases hempty : process.bytes.takeWhile (· ≠ colon) = []
  · simp only [hempty, List.isEmpty_nil, if_true]
    refine iff_of_false (fun h => by cases h) ?_
    rintro ⟨app, happ, hpackage, -⟩
    exact (hdoc.strings app happ).package.nonempty hpackage
  · simp only [List.isEmpty_iff, hempty, if_false]
    obtain ⟨found, hfind, ⟨front, app, rest, happs, hpackage, rfl⟩ | ⟨rfl, hnone⟩⟩ := findPackageEntry_eq hdoc hnul hempty
    · rw [hfind, ok_bind]
      refine (loadPackageEntry_ok_iff hdoc happs hpackage uid).trans ⟨fun h => ?_, ?_⟩
      · exact ⟨app, mem_apps_of_sortedApps happs, hpackage, h⟩
      · rintro ⟨other, hother, hsame, h⟩
        obtain rfl : other = app := List.inj_on_of_nodup_map hdoc.nodup hother (mem_apps_of_sortedApps happs)
          (hsame.trans hpackage.symm)
        exact h
    · rw [hfind, ok_bind]
      refine iff_of_false (fun h => by cases h) ?_
      rintro ⟨app, happ, hpackage, -⟩
      exact hnone app happ hpackage

end Reader

/-! ## Compiled documents -/

section Compiled
open Rules

variable {toml : TomlParser} {source : SourceBuffer} {limits : RulesLimits} {document : RulesDocument} {bytes : Bytes}

/-- **The reader agrees with the writer.** On what `EncodePolicy` makes of a parsed document, `LoadProcessPlan` returns
a plan exactly when the canonical document has the app of the process, with the process and the user in its scope and
with room for its rules, and the plan is the plan of that app. -/
theorem loadProcessPlan_encodePolicy (hdocument : (parseRulesDocument toml source limits).document = some document)
    (hencode : encodePolicy (toPolicyDocument (canonicalPolicy
      (resolvedPolicy limits (parseRulesDocument toml source limits).origins document))) = .ok bytes)
    {process : CString} (hlength : process.bytes.length < kMaxProcessNameBytes) (uid : Uid) :
    ∃ canonical, canonicalizeDocument (toPolicyDocument (canonicalPolicy
        (resolvedPolicy limits (parseRulesDocument toml source limits).origins document))) = .ok canonical ∧
      ∀ plan, loadProcessPlan bytes process uid = .ok plan ↔
        ∃ app ∈ canonical.apps, app.package = process.bytes.takeWhile (· ≠ colon) ∧ InScope app process.bytes uid ∧
          FitsPlan uid.user app ∧ plan = planOf canonical app process.bytes uid := by
  obtain ⟨canonical, hcompiled, rfl⟩ := compiledFrom_of_encodePolicy (parseRulesDocument_some hdocument).2 hencode
  exact ⟨canonical, hcompiled.canonicalized, fun plan => loadProcessPlan_ok_iff hcompiled.isCanonical hlength uid⟩

def mainProcess : CString := ⟨ascii "a.b", by decide⟩

theorem loadProcessPlan_encodePolicy_siblings :
    ∃ document bytes,
      (parseRulesDocument siblingSources.toml siblingSources.source {}).document = some document ∧
      encodePolicy (toPolicyDocument (canonicalPolicy (resolvedPolicy {}
        (parseRulesDocument siblingSources.toml siblingSources.source {}).origins document))) = .ok bytes ∧
      ∃ canonical, canonicalizeDocument (toPolicyDocument (canonicalPolicy (resolvedPolicy {}
          (parseRulesDocument siblingSources.toml siblingSources.source {}).origins document))) = .ok canonical ∧
        ∀ plan, loadProcessPlan bytes mainProcess 10123 = .ok plan ↔
          ∃ app ∈ canonical.apps, app.package = mainProcess.bytes.takeWhile (· ≠ colon) ∧
            InScope app mainProcess.bytes 10123 ∧ FitsPlan (10123 : Uid).user app ∧
            plan = planOf canonical app mainProcess.bytes 10123 := by
  have hok := ok_siblingSources
  obtain ⟨document, haccepted⟩ := accepted_of_ok hok
  obtain ⟨blob, -, hblob⟩ := haccepted.blob
  have hencode := encodePolicy_of_encodeAndVerify hblob
  exact ⟨document, blob.bytes, haccepted.parsed_document, hencode,
    loadProcessPlan_encodePolicy haccepted.parsed_document hencode (by decide) 10123⟩

end Compiled

end PathGuard.Zygisk

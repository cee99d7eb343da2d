import PathGuard.Core.Topology
import PathGuard.Core.ValidationSpec
import PathGuard.Lib.OrderedMap

/-!
# One mount for each user

What `ParseMountInfo` leaves behind, whatever the rows are and in whatever order the hash map is gone through: one mount
for each user, in the order of the users, backed by that user's own directory.

* `UserMounts` : one mount for each user, backed by the user's own directory;
* `foldlM_invariant` : what the loops over the rows keep;
* `parseMountInfo_isolated` : users apart, in order, each under its own path.
-/

namespace PathGuard.Topology

theorem foldlM_invariant {ε α β : Type} {step : β → α → Except ε β} (P : β → Prop) {l : List α} {first last : β}
    (hstep : ∀ state, ∀ a ∈ l, ∀ next, P state → step state a = .ok next → P next) (hfirst : P first)
    (h : l.foldlM step first = .ok last) : P last := by
  induction l generalizing first with
  | nil =>
      obtain rfl : first = last := Except.ok.inj h
      exact hfirst
  | cons a l ih =>
      rw [List.foldlM_cons, bind_ok_iff] at h
      obtain ⟨next, hnext, h⟩ := h
      exact ih (fun state b hb => hstep state b (List.mem_cons_of_mem a hb))
        (hstep first a List.mem_cons_self next hfirst hnext) h

theorem bind_error {ε α β : Type} {step : Except ε α} {next : α → Except ε β} {error : ε}
    (h : step >>= next = .error error) : step = .error error ∨ ∃ value, next value = .error error := by
  cases step with
  | ok value => exact Or.inr ⟨value, h⟩
  | error failure => exact Or.inl (congrArg Except.error (Except.error.inj h))

theorem foldlM_error {ε α β : Type} {step : β → α → Except ε β} {l : List α} {first : β} {error : ε}
    (h : l.foldlM step first = .error error) : ∃ state a, step state a = .error error := by
  induction l generalizing first with
  | nil => cases h
  | cons a l ih =>
      rw [List.foldlM_cons] at h
      rcases bind_error h with h | ⟨next, h⟩
      · exact ⟨first, a, h⟩
      · exact ih h

/-! ## The mounts that are collected -/

def identities (mounts : List StorageTopologyMount) : List (UInt32 × Bytes) :=
  mounts.map fun mount => (mount.userId, mount.backendRoot)

/-- One mount for each user, backed by the user's own directory. -/
structure UserMounts (mounts : List StorageTopologyMount) : Prop where
  nodup : ((identities mounts).map Prod.fst).Nodup
  backendRoot : ∀ identity ∈ identities mounts, identity.2 = expectedRoot identity.1

section Mounts
variable {mounts mounts' : List StorageTopologyMount} {mount : StorageTopologyMount} {user : UInt32}

theorem userMounts_nil : UserMounts [] := ⟨List.nodup_nil, List.forall_mem_nil _⟩

theorem UserMounts.congr (h : UserMounts mounts) (heq : identities mounts' = identities mounts) : UserMounts mounts' := by
  constructor
  · rw [heq]
    exact h.nodup
  · rw [heq]
    exact h.backendRoot

theorem UserMounts.perm (h : UserMounts mounts) (hperm : mounts'.Perm mounts) : UserMounts mounts' := by
  have hidentities : (identities mounts').Perm (identities mounts) := hperm.map _
  exact ⟨(hidentities.map Prod.fst).nodup_iff.mpr h.nodup, fun identity hidentity =>
    h.backendRoot identity (hidentities.mem_iff.mp hidentity)⟩

theorem findUserMount_eq_none : findUserMount mounts user = none ↔ user ∉ (identities mounts).map Prod.fst := by
  simp [findUserMount, identities]

theorem findUserMount_eq_some (h : findUserMount mounts user = some mount) : mount ∈ mounts ∧ mount.userId = user :=
  ⟨List.mem_of_find?_eq_some h, by simpa using List.find?_some h⟩

theorem UserMounts.append (h : UserMounts mounts) (hfresh : findUserMount mounts mount.userId = none)
    (hroot : mount.backendRoot = expectedRoot mount.userId) : UserMounts (mounts ++ [mount]) := by
  have hidentities : identities (mounts ++ [mount]) = identities mounts ++ [(mount.userId, mount.backendRoot)] :=
    List.map_append
  constructor
  · rw [hidentities, List.map_append, List.nodup_append]
    refine ⟨h.nodup, List.nodup_singleton _, fun user huser other hother => ?_⟩
    rintro rfl
    obtain rfl : user = mount.userId := by simpa using hother
    exact findUserMount_eq_none.mp hfresh huser
  · rw [hidentities, List.forall_mem_append, List.forall_mem_singleton]
    exact ⟨h.backendRoot, hroot⟩

theorem addAlias_identity (mountId : Nat) (path : Bytes) :
    ((addAlias mount mountId path).userId, (addAlias mount mountId path).backendRoot) =
      (mount.userId, mount.backendRoot) := by
  rw [addAlias]
  split <;> rfl

theorem identities_addUserAlias (mountId : Nat) (path : Bytes) :
    identities (addUserAlias user mountId path mounts) = identities mounts := by
  induction mounts with
  | nil => rfl
  | cons first mounts ih =>
      rw [addUserAlias]
      split
      · rw [identities, List.map_cons, addAlias_identity]
        rfl
      · rw [identities, List.map_cons, ← identities, ih]
        rfl

theorem identities_addPrimaryAlias (record : MountRecord) :
    identities (addPrimaryAlias mounts record) = identities mounts := by
  rw [addPrimaryAlias]
  split
  · rw [identities, List.map_map]
    refine List.map_congr_left fun mount _ => ?_
    rw [Function.comp_apply]
    split
    · exact addAlias_identity _ _
    · rfl
  · rfl

end Mounts

/-! ## The passes -/

section Passes
variable {source backendRoot : Bytes} {record : MountRecord} {records : List MountRecord} {user : UInt32}

theorem deriveBackendRoot_eq (h : deriveBackendRoot source user = some backendRoot) :
    backendRoot = expectedRoot user := by
  rw [deriveBackendRoot] at h
  split at h
  · exact (Option.some.inj h).symm
  · split at h
    · exact (Option.some.inj h).symm
    · cases h

theorem derivePassThroughBackendRoot_eq (h : derivePassThroughBackendRoot record records user = some backendRoot) :
    backendRoot = expectedRoot user := by
  rw [derivePassThroughBackendRoot] at h
  split at h
  · next hderive =>
    rw [← Option.some.inj h]
    exact deriveBackendRoot_eq hderive
  · split at h
    · exact (Option.some.inj h).symm
    · cases h

theorem addPrimary_userMounts {topology topology' : StorageTopology} (h : UserMounts topology.mounts)
    (hadd : addPrimary topology record = .ok topology') : UserMounts topology'.mounts := by
  rw [addPrimary] at hadd
  split at hadd
  · rw [← Except.ok.inj hadd]
    exact h
  · next user _ =>
    split at hadd
    · rw [← Except.ok.inj hadd]
      exact h
    · next backendRoot hroot =>
      split at hadd
      · split at hadd
        · cases hadd
        · rw [← Except.ok.inj hadd]
          exact h
      · next hfresh =>
        rw [← Except.ok.inj hadd]
        exact h.append hfresh (deriveBackendRoot_eq hroot)

theorem mem_emplace {α : Type} {entries : List (UInt32 × α)} {key : UInt32} {value : α} {entry : UInt32 × α}
    (h : entry ∈ emplace entries key value) : entry ∈ entries ∨ entry = (key, value) := by
  rw [emplace] at h
  split at h
  · exact Or.inl h
  · rwa [List.mem_append, List.mem_singleton] at h

/-- All evidence is of the user's own directory. -/
def OwnEvidence (evidence : UserEvidence) : Prop := ∀ entry ∈ evidence.backendEvidence, entry.2 = expectedRoot entry.1

theorem OwnEvidence.backend {evidence : UserEvidence} (h : OwnEvidence evidence) {user : UInt32} {backendRoot : Bytes}
    (hroot : derivePassThroughBackendRoot record records user = some backendRoot) :
    OwnEvidence { evidence with backendEvidence := emplace evidence.backendEvidence user backendRoot } := by
  intro entry hentry
  rcases mem_emplace hentry with hentry | rfl
  · exact h entry hentry
  · exact derivePassThroughBackendRoot_eq hroot

theorem addEvidence_own {evidence : UserEvidence} (h : OwnEvidence evidence) :
    OwnEvidence (addEvidence records evidence record) := by
  cases hvisible : parseUserMountpoint record.mountpoint (ascii "/mnt/user/") (ascii "/emulated") with
  | none =>
      simp only [addEvidence, hvisible]
      split
      · exact h
      · split
        · exact h
        · next hroot => exact h.backend hroot
  | some visibleUser =>
      have hseen : OwnEvidence { evidence with
        visibleAliases := emplace evidence.visibleAliases visibleUser record } := h
      simp only [addEvidence, hvisible]
      split
      · exact hseen
      · split
        · exact hseen
        · next hroot => exact hseen.backend hroot

theorem addUser_userMounts {aggregate : Option MountRecord} {evidence : UserEvidence} (hevidence : OwnEvidence evidence)
    {item : UInt32 × MountRecord} {topology topology' : StorageTopology} (h : UserMounts topology.mounts)
    (hadd : addUser aggregate evidence.backendEvidence topology item = .ok topology') : UserMounts topology'.mounts := by
  unfold addUser at hadd
  split at hadd
  · rw [← Except.ok.inj hadd]
    exact h.congr (identities_addUserAlias _ _)
  · next hfresh =>
    split at hadd
    · cases hadd
    · split at hadd
      · cases hadd
      · next backendRoot hlookup =>
        rw [← Except.ok.inj hadd]
        refine UserMounts.congr (h.append ?_ ?_) (identities_addUserAlias _ _)
        · exact hfresh
        · exact hevidence _ (mem_of_lookup hlookup)

theorem addPrimaryAlias_userMounts {mounts : List StorageTopologyMount} (h : UserMounts mounts) :
    UserMounts (records.foldl addPrimaryAlias mounts) := by
  induction records generalizing mounts with
  | nil => exact h
  | cons record records ih => exact ih (h.congr (identities_addPrimaryAlias record))

end Passes

/-! ## ParseMountInfo -/

/-- What a supported topology is. -/
structure StorageTopology.Sound (topology : StorageTopology) : Prop where
  ne : topology.mounts ≠ []
  sorted : topology.mounts.Pairwise fun mount mount' => mount.userId < mount'.userId
  backendRoot : ∀ mount ∈ topology.mounts, mount.backendRoot = ascii "/data/media/" ++ decimalBytes mount.userId.toNat

theorem UserMounts.pairwise_sortOn {mounts : List StorageTopologyMount} (h : UserMounts mounts) :
    (sortOn (fun mount => mount.userId.toNat) mounts).Pairwise fun mount mount' => mount.userId < mount'.userId := by
  have hnodup := (h.perm (sortOn_perm (fun mount => mount.userId.toNat) mounts)).nodup
  rw [identities, List.map_map, List.Nodup, List.pairwise_map] at hnodup
  refine (PathGuard.pairwise_sortOn (fun mount : StorageTopologyMount => mount.userId.toNat) mounts).imp₂ ?_ hnodup
  intro mount mount' hle hne
  exact UInt32.lt_iff_toNat_lt.mpr (lt_of_le_of_ne hle fun heq => hne (UInt32.toNat_inj.mp heq))

theorem parseMountInfo_sound {order : HashOrder} {mountinfo : Bytes} {topology : StorageTopology}
    (h : parseMountInfo order mountinfo = .ok topology) : topology.Sound ∧ topology.supported = true := by
  rw [parseMountInfo, bind_ok_iff] at h
  obtain ⟨records, -, h⟩ := h
  rw [bind_ok_iff] at h
  obtain ⟨primary, hprimary, h⟩ := h
  rw [bind_ok_iff] at h
  obtain ⟨aggregate, -, h⟩ := h
  rw [bind_ok_iff] at h
  obtain ⟨collected, hcollected, h⟩ := h
  have hmounts : UserMounts primary.mounts :=
    foldlM_invariant (fun topology => UserMounts topology.mounts) (fun _ _ _ _ => addPrimary_userMounts) userMounts_nil
      hprimary
  have hevidence : OwnEvidence (records.foldl (addEvidence records) {}) :=
    List.foldlRecOn records _ (List.forall_mem_nil _) fun _ h _ _ => addEvidence_own h
  have hcollected' : UserMounts collected.mounts :=
    foldlM_invariant (fun topology => UserMounts topology.mounts) (fun _ _ _ _ => addUser_userMounts hevidence) hmounts
      hcollected
  have hfinal : UserMounts (records.foldl addPrimaryAlias collected.mounts) := addPrimaryAlias_userMounts hcollected'
  dsimp only at h
  split at h
  · cases h
  · next hne =>
    rw [← Except.ok.inj h]
    refine ⟨⟨by simpa using hne, hfinal.pairwise_sortOn, fun mount hmount => ?_⟩, rfl⟩
    have hmem : (mount.userId, mount.backendRoot) ∈ identities (records.foldl addPrimaryAlias collected.mounts) :=
      List.mem_map_of_mem (mem_sortOn.mp hmount)
    exact hfinal.backendRoot _ hmem

/-! ## Failure -/

section Failure
variable {topology : StorageTopology} {record : MountRecord}

theorem unsupported_supported {α : Type} {start : StorageTopology} {message : Bytes}
    (h : (unsupported start message : Except StorageTopology α) = .error topology) : topology.supported = false := by
  rw [← Except.error.inj h]

theorem readRecords_error {lineNumber : Nat} {lines : List Bytes} {records : List MountRecord}
    (h : readRecords lineNumber lines records = .error topology) : topology.supported = false := by
  induction lines generalizing lineNumber records with
  | nil => cases h
  | cons line lines ih =>
      rw [readRecords] at h
      split at h
      · exact ih h
      · dsimp only at h
        split at h
        · exact unsupported_supported h
        · split at h
          · exact unsupported_supported h
          · exact ih h

theorem addPrimary_error {start : StorageTopology} (h : addPrimary start record = .error topology) :
    topology.supported = false := by
  rw [addPrimary] at h
  split at h
  · cases h
  · split at h
    · cases h
    · split at h
      · split at h
        · exact unsupported_supported h
        · cases h
      · cases h

theorem addAggregate_error {start : StorageTopology} {aggregate : Option MountRecord}
    (h : addAggregate start aggregate record = .error topology) : topology.supported = false := by
  rw [addAggregate] at h
  split at h
  · cases h
  · split at h
    · exact unsupported_supported h
    · cases h

theorem addUser_error {aggregate : Option MountRecord} {evidence : List (UInt32 × Bytes)} {start : StorageTopology}
    {item : UInt32 × MountRecord} (h : addUser aggregate evidence start item = .error topology) :
    topology.supported = false := by
  unfold addUser at h
  split at h
  · cases h
  · split at h
    · exact unsupported_supported h
    · split at h
      · exact unsupported_supported h
      · cases h

theorem parseMountInfo_error {order : HashOrder} {mountinfo : Bytes}
    (h : parseMountInfo order mountinfo = .error topology) : topology.supported = false := by
  rw [parseMountInfo] at h
  rcases bind_error h with h | ⟨records, h⟩
  · exact readRecords_error h
  · rcases bind_error h with h | ⟨primary, h⟩
    · obtain ⟨_, _, hstep⟩ := foldlM_error h
      exact addPrimary_error hstep
    · rcases bind_error h with h | ⟨aggregate, h⟩
      · obtain ⟨_, _, hstep⟩ := foldlM_error h
        exact addAggregate_error hstep
      · rcases bind_error h with h | ⟨collected, h⟩
        · obtain ⟨_, _, hstep⟩ := foldlM_error h
          exact addUser_error hstep
        · dsimp only at h
          split at h
          · exact unsupported_supported h
          · cases h

end Failure

/-! ## Resolving -/

section Resolve
variable {topology : StorageTopology} {user : UInt32} {logicalPath path : Bytes} {backend : Bool}

/-- No component of the path is empty or one of the two that stand for other directories. -/
def IsPlain (path : Bytes) : Prop :=
  ∀ component ∈ path.splitOn slash, component ≠ [] ∧ component ≠ ascii "." ∧ component ≠ ascii ".."

theorem isPlain_of_isSafeLogicalPath (h : isSafeLogicalPath path = true) (hne : path ≠ []) : IsPlain path := by
  rw [isSafeLogicalPath, if_neg (by simpa using hne)] at h
  split at h
  · cases h
  · intro component hcomponent
    have hsafe := List.all_eq_true.mp h component hcomponent
    simp only [isSafeComponent, Bool.and_eq_true, decide_eq_true_eq, and_assoc] at hsafe
    obtain ⟨hfilled, hdot, hdots, -⟩ := hsafe
    exact ⟨by simpa using hfilled, hdot, hdots⟩

def rootOf (backend : Bool) (mount : StorageTopologyMount) : Bytes :=
  if backend then mount.backendRoot else mount.visibleRoot

/-- A path of the user: the root of the user's storage, or something plain below it. -/
def IsUserPath (topology : StorageTopology) (backend : Bool) (user : UInt32) (path : Bytes) : Prop :=
  ∃ mount ∈ topology.mounts, mount.userId = user ∧
    (path = rootOf backend mount ∨ ∃ rest, path = rootOf backend mount ++ slash :: rest ∧ IsPlain rest)

theorem resolvePath_ok (h : resolvePath topology user logicalPath backend = .ok path) :
    IsUserPath topology backend user path := by
  rw [resolvePath] at h
  split at h
  · cases h
  · split at h
    · cases h
    · next hsafe =>
      split at h
      · cases h
      · next mount hfind =>
        obtain ⟨hmem, huser⟩ := findUserMount_eq_some hfind
        refine ⟨mount, hmem, huser, ?_⟩
        rw [← Except.ok.inj h]
        by_cases hnil : logicalPath = []
        · rw [hnil]
          exact Or.inl rfl
        · refine Or.inr ⟨logicalPath, ?_, isPlain_of_isSafeLogicalPath (by simpa using hsafe) hnil⟩
          rw [if_neg (by simpa using hnil)]
          rfl

theorem resolvePath_of_not_supported (h : topology.supported = false) :
    ∃ error, resolvePath topology user logicalPath backend = .error error := by
  rw [resolvePath, h]
  exact ⟨_, rfl⟩

theorem takeWhile_decimalBytes (value : Nat) {rest : Bytes} (hrest : rest = [] ∨ rest.head? = some slash) :
    (decimalBytes value ++ rest).takeWhile (· ≠ slash) = decimalBytes value := by
  have hdigits : ∀ byte ∈ decimalBytes value, decide (byte ≠ slash) = true := fun byte hbyte =>
    decide_eq_true (ne_of_mem_of_not_mem hbyte (not_mem_decimalBytes (by decide) value))
  rw [List.takeWhile_append_of_pos hdigits]
  rcases hrest with rfl | hrest
  · simp
  · cases rest with
    | nil => cases hrest
    | cons byte rest =>
        obtain rfl : byte = slash := Option.some.inj hrest
        simp

theorem IsUserPath.exists_rest (h : IsUserPath topology true user path) (hsound : topology.Sound) :
    ∃ rest : Bytes, path = ascii "/data/media/" ++ (decimalBytes user.toNat ++ rest) ∧
      (rest = [] ∨ rest.head? = some slash) := by
  obtain ⟨mount, hmem, rfl, hpath⟩ := h
  have hroot : rootOf true mount = ascii "/data/media/" ++ decimalBytes mount.userId.toNat := hsound.backendRoot mount hmem
  rw [hroot] at hpath
  rcases hpath with rfl | ⟨rest, rfl, -⟩
  · exact ⟨[], by rw [List.append_nil], Or.inl rfl⟩
  · exact ⟨slash :: rest, by rw [List.append_assoc], Or.inr rfl⟩

theorem IsUserPath.user_eq {user' : UInt32} (hsound : topology.Sound) (h : IsUserPath topology true user path)
    (h' : IsUserPath topology true user' path) : user = user' := by
  obtain ⟨rest, hpath, hrest⟩ := h.exists_rest hsound
  obtain ⟨rest', hpath', hrest'⟩ := h'.exists_rest hsound
  rw [hpath] at hpath'
  have hdigits := congrArg (List.takeWhile (· ≠ slash)) (List.append_cancel_left hpath')
  rw [takeWhile_decimalBytes _ hrest, takeWhile_decimalBytes _ hrest'] at hdigits
  exact UInt32.toNat_inj.mp (decimalBytes_injective hdigits)

end Resolve

/-- **Every user has storage of their own.** A topology that was read has one mount for each user, resolves a path to
the user's root or to something plain below it, and never resolves paths of two users to the same backend path; one
that was not read resolves nothing. -/
theorem parseMountInfo_isolated (order : HashOrder) (mountinfo : Bytes) :
    (∀ topology, parseMountInfo order mountinfo = .ok topology →
      topology.Sound ∧
      (∀ user logicalPath path, resolveBackendStoragePath topology user logicalPath = .ok path →
        IsUserPath topology true user path) ∧
      (∀ user logicalPath path, resolveVisibleStoragePath topology user logicalPath = .ok path →
        IsUserPath topology false user path) ∧
      ∀ user user' logicalPath logicalPath' path, resolveBackendStoragePath topology user logicalPath = .ok path →
        resolveBackendStoragePath topology user' logicalPath' = .ok path → user = user') ∧
    ∀ topology, parseMountInfo order mountinfo = .error topology →
      ∀ user logicalPath, (∃ error, resolveBackendStoragePath topology user logicalPath = .error error) ∧
        ∃ error, resolveVisibleStoragePath topology user logicalPath = .error error := by
  constructor
  · intro topology hparse
    obtain ⟨hsound, -⟩ := parseMountInfo_sound hparse
    refine ⟨hsound, fun _ _ _ => resolvePath_ok, fun _ _ _ => resolvePath_ok, ?_⟩
    intro user user' logicalPath logicalPath' path hpath hpath'
    exact (resolvePath_ok hpath).user_eq hsound (resolvePath_ok hpath')
  · intro topology hparse user logicalPath
    have hsupported := parseMountInfo_error hparse
    exact ⟨resolvePath_of_not_supported hsupported, resolvePath_of_not_supported hsupported⟩

/-- A user with a row of their own, and one that is seen through the aggregate mount. -/
def twoUsers : Bytes :=
  ascii "100 1 0:117 /0 /storage/emulated/0 rw,nosuid,nodev - sdcardfs /data/media rw\n" ++
    ascii "74570 47 0:119 / /mnt/user/10/emulated rw shared:47 - fuse /dev/fuse rw\n" ++
    ascii "74569 117 0:119 / /storage/emulated rw shared:47 - fuse /dev/fuse rw\n" ++
    ascii "74694 47 0:118 / /mnt/pass_through/10/emulated rw shared:46 - sdcardfs /data/media rw\n"

def reversed : HashOrder := ⟨List.reverse, List.reverse_perm⟩

theorem parseMountInfo_isolated_twoUsers :
    ∃ topology, parseMountInfo reversed twoUsers = .ok topology ∧ topology.mounts.map (·.userId) = [0, 10] ∧
      ∀ path, resolveBackendStoragePath topology 0 (ascii "DCIM") = .ok path →
        resolveBackendStoragePath topology 10 (ascii "DCIM") ≠ .ok path := by
  have hread : (parseMountInfo reversed twoUsers).toOption.map (·.mounts.map (·.userId)) = some [0, 10] := by
    decide +kernel
  have hisolated := (parseMountInfo_isolated reversed twoUsers).1
  generalize parseMountInfo reversed twoUsers = result at hread hisolated ⊢
  cases result with
  | error topology => cases hread
  | ok topology =>
      refine ⟨topology, rfl, Option.some.inj hread, fun path hpath hpath' => ?_⟩
      exact absurd ((hisolated topology rfl).2.2.2 0 10 _ _ path hpath hpath') (by decide)

end PathGuard.Topology

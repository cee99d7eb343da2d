import PathGuard.Core.Corruption
import PathGuard.Zygisk.PolicyReaderSpec

/-!
# The path arena of a plan

`ProcessPlan` of `zygisk/src/module_entry.cpp` as it lies in memory: the paths of all mounts in one array, each ended by
a zero byte, and the mounts with offsets into it. `StorePlanPath` and `PlanPath` write and read the array,
`SameProcessPlan` compares two plans through it. `loadPackedPlan` is `LoadProcessPlan` with its calls of `StorePlanPath`;
`loadPackedPlan_of_loaded` connects it to the plan with the paths in place of their offsets.

* `storePlanPath`, `planPath` : writing and reading the array; `Stored`, `Holds` : what it has of a plan;
* `Holds.sameProcessPlan` : a plan whose paths are stored is the same as itself;
* `loadPackedPlan_of_loaded`, `loadPackedPlan_ok_iff` : loading with the arena and without.
-/

namespace PathGuard.Zygisk

/-- What `strlen` and `strcmp` see of a buffer. -/
def cString (buffer : Bytes) : Bytes := buffer.takeWhile (· ≠ 0)

/-! ## PlanPath, StorePlanPath -/

/-- The first `path_bytes` bytes of `paths`: never more than fit, and ended by a zero. -/
structure PathArena where
  bytes : Bytes
  size_le : bytes.length ≤ kMaxPlanPathBytes
  terminated : bytes.getLast? = some 0

namespace PathArena

def empty : PathArena := ⟨[0], by decide, rfl⟩

def planPath (arena : PathArena) (offset : Nat) : Option Bytes :=
  if offset < arena.bytes.length then some (cString (arena.bytes.drop offset)) else none

/-- `StorePlanPath`: the arena with the C string `path` in it, and the offset it got. -/
def storePlanPath (arena : PathArena) (path : Bytes) : Option (PathArena × Nat) :=
  if h : kMaxPlanPathBytes - arena.bytes.length < path.length + 1 then none
  else
    some (⟨arena.bytes ++ (path ++ [0]),
      by
        have hsize := arena.size_le
        simp only [List.length_append, List.length_singleton]
        omega,
      by rw [← List.append_assoc, List.getLast?_concat]⟩, arena.bytes.length)

end PathArena

/-- `PlannedMount`, with offsets. -/
structure PackedMount where
  action : MountAction
  visiblePath : Nat
  backingPath : Nat

/-- `ProcessPlan` without the topology, which is captured later. -/
structure PackedPlan where
  snapshotGeneration : UInt64
  planGeneration : UInt64
  policyFlags : UInt32
  mediaCompat : Bool
  providerCompat : Bool
  processName : Bytes
  mounts : List PackedMount := []
  arena : PathArena := .empty

/-! ## SameProcessPlan -/

/-- One round of the loop of `SameProcessPlan`. -/
def samePlannedMount (expected actual : PathArena) (lhs rhs : PackedMount) : Bool :=
  match expected.planPath lhs.visiblePath, expected.planPath lhs.backingPath, actual.planPath rhs.visiblePath,
      actual.planPath rhs.backingPath with
  | some lhsVisible, some lhsBacking, some rhsVisible, some rhsBacking =>
      lhs.action == rhs.action && lhsVisible == rhsVisible && lhsBacking == rhsBacking
  | _, _, _, _ => false

def sameProcessPlan (expected actual : PackedPlan) : Bool :=
  expected.snapshotGeneration == actual.snapshotGeneration && expected.planGeneration == actual.planGeneration &&
    expected.policyFlags == actual.policyFlags && expected.mounts.length == actual.mounts.length &&
    expected.mediaCompat == actual.mediaCompat && expected.providerCompat == actual.providerCompat &&
    expected.processName == actual.processName &&
    (expected.mounts.zip actual.mounts).all fun (lhs, rhs) => samePlannedMount expected.arena actual.arena lhs rhs

/-! ## LoadProcessPlan, with the arena -/

/-- The end of a round of the loop over the rules: the two paths are stored. -/
def PackedPlan.addMount (plan : PackedPlan) (action : MountAction) (visible backing : Bytes) : Option PackedPlan := do
  let (arena, visiblePath) ← plan.arena.storePlanPath visible
  let (arena, backingPath) ← arena.storePlanPath backing
  return { plan with mounts := plan.mounts ++ [{ action, visiblePath, backingPath }], arena }

/-- The stores of the whole loop. -/
def PackedPlan.addMounts : List PlannedMount → PackedPlan → Option PackedPlan
  | [], plan => some plan
  | mount :: mounts, plan => do
      let plan ← plan.addMount mount.action mount.visiblePath mount.backingPath
      addMounts mounts plan

/-- The fields of a plan that is still without mounts. -/
def LoadedPlan.header (plan : LoadedPlan) : PackedPlan where
  snapshotGeneration := plan.snapshotGeneration
  planGeneration := plan.planGeneration
  policyFlags := plan.policyFlags
  mediaCompat := plan.mediaCompat
  providerCompat := plan.providerCompat
  processName := plan.processName

/-- `LoadProcessPlan`: what it returns, as it lies in memory. -/
def loadPackedPlan (data : Bytes) (process : CString) (uid : Uid) : Read PackedPlan := do
  let plan ← loadProcessPlan data process uid
  match PackedPlan.addMounts plan.mounts plan.header with
  | none => rejected
  | some plan => return plan

/-! ## The arena keeps what is stored -/

theorem cString_append_zero {path : Bytes} (h : 0 ∉ path) (rest : Bytes) : cString (path ++ 0 :: rest) = path := by
  have hkept : ∀ byte ∈ path, decide (byte ≠ 0) = true := by
    intro byte hmem
    rw [decide_eq_true_eq]
    rintro rfl
    exact h hmem
  rw [cString, List.takeWhile_append_of_pos hkept, List.takeWhile_cons_of_neg (by simp), List.append_nil]

theorem cString_append_of_mem {buffer : Bytes} (h : 0 ∈ buffer) (rest : Bytes) :
    cString (buffer ++ rest) = cString buffer := by
  obtain ⟨front, back, rfl, hfront⟩ := List.eq_append_cons_of_mem h
  rw [List.append_assoc, List.cons_append, cString_append_zero hfront, cString_append_zero hfront]

theorem cString_of_nulFree {path : Bytes} (h : 0 ∉ path) : cString path = path := by
  apply List.takeWhile_eq_self_iff.mpr
  intro byte hmem
  rw [decide_eq_true_eq]
  rintro rfl
  exact h hmem

namespace PathArena

theorem zero_mem_drop (arena : PathArena) {offset : Nat} (h : offset < arena.bytes.length) :
    0 ∈ arena.bytes.drop offset := by
  apply List.mem_of_getLast?
  rw [List.getLast?_drop, if_neg (by omega)]
  exact arena.terminated

section Store
variable {arena arena' : PathArena} {path : Bytes} {offset : Nat}

theorem storePlanPath_bytes (h : arena.storePlanPath path = some (arena', offset)) :
    arena'.bytes = arena.bytes ++ (path ++ [0]) ∧ offset = arena.bytes.length := by
  unfold storePlanPath at h
  split at h
  · cases h
  · obtain ⟨rfl, rfl⟩ := Prod.mk.inj (Option.some.inj h)
    exact ⟨rfl, rfl⟩

theorem planPath_stored (h : arena.storePlanPath path = some (arena', offset)) (hpath : 0 ∉ path) :
    arena'.planPath offset = some path := by
  obtain ⟨hbytes, rfl⟩ := storePlanPath_bytes h
  rw [planPath, hbytes, if_pos (by simp), List.drop_left, cString_append_zero hpath]

theorem planPath_kept (h : arena.storePlanPath path = some (arena', offset)) {other : Nat} {stored : Bytes}
    (hother : arena.planPath other = some stored) : arena'.planPath other = some stored := by
  obtain ⟨hbytes, -⟩ := storePlanPath_bytes h
  unfold planPath at hother ⊢
  split at hother
  · next hlt =>
    rw [hbytes, if_pos (by rw [List.length_append]; omega), List.drop_append_of_le_length hlt.le,
      cString_append_of_mem (arena.zero_mem_drop hlt)]
    exact hother
  · cases hother

theorem exists_storePlanPath (h : arena.bytes.length + (path.length + 1) ≤ kMaxPlanPathBytes) :
    ∃ arena' offset, arena.storePlanPath path = some (arena', offset) ∧
      arena'.bytes.length = arena.bytes.length + (path.length + 1) := by
  unfold storePlanPath
  rw [dif_neg (by omega)]
  refine ⟨_, _, rfl, ?_⟩
  simp only [List.length_append, List.length_singleton]

end Store

end PathArena

/-! ## The plan keeps its mounts -/

/-- The arena holds the paths of `mount` where `packed` says. -/
structure Stored (arena : PathArena) (packed : PackedMount) (mount : PlannedMount) : Prop where
  action : packed.action = mount.action
  visiblePath : arena.planPath packed.visiblePath = some mount.visiblePath
  backingPath : arena.planPath packed.backingPath = some mount.backingPath

structure PlannedMount.NulFree (mount : PlannedMount) : Prop where
  visiblePath : 0 ∉ mount.visiblePath
  backingPath : 0 ∉ mount.backingPath

namespace PackedPlan

/-- The plan holds the mounts `mounts`. -/
def Holds (plan : PackedPlan) (mounts : List PlannedMount) : Prop :=
  List.Forall₂ (Stored plan.arena) plan.mounts mounts

variable {plan plan' : PackedPlan} {mount : PlannedMount} {mounts done : List PlannedMount}

theorem addMount_eq_some (h : plan.addMount mount.action mount.visiblePath mount.backingPath = some plan') :
    ∃ arena visiblePath backingPath, plan.arena.storePlanPath mount.visiblePath = some (arena, visiblePath) ∧
      arena.storePlanPath mount.backingPath = some (plan'.arena, backingPath) ∧
      plan' = { plan with
        mounts := plan.mounts ++ [{ action := mount.action, visiblePath, backingPath }], arena := plan'.arena } := by
  unfold addMount at h
  simp only [Option.bind_eq_bind, Option.bind_eq_some_iff, Option.pure_def, Option.some.injEq] at h
  obtain ⟨⟨arena, visiblePath⟩, hvisible, ⟨final, backingPath⟩, hbacking, rfl⟩ := h
  exact ⟨arena, visiblePath, backingPath, hvisible, hbacking, rfl⟩

theorem addMount_holds (hmount : mount.NulFree) (hplan : plan.Holds done)
    (h : plan.addMount mount.action mount.visiblePath mount.backingPath = some plan') :
    plan'.Holds (done ++ [mount]) := by
  obtain ⟨arena, visiblePath, backingPath, hvisible, hbacking, hplan'⟩ := addMount_eq_some h
  have hmounts : plan'.mounts = plan.mounts ++ [{ action := mount.action, visiblePath, backingPath }] :=
    congrArg PackedPlan.mounts hplan'
  have hkept : ∀ packed old, Stored plan.arena packed old → Stored plan'.arena packed old := by
    intro packed old hold
    exact ⟨hold.action, PathArena.planPath_kept hbacking (PathArena.planPath_kept hvisible hold.visiblePath),
      PathArena.planPath_kept hbacking (PathArena.planPath_kept hvisible hold.backingPath)⟩
  have hnew : Stored plan'.arena { action := mount.action, visiblePath, backingPath } mount :=
    ⟨rfl, PathArena.planPath_kept hbacking (PathArena.planPath_stored hvisible hmount.visiblePath),
      PathArena.planPath_stored hbacking hmount.backingPath⟩
  rw [Holds, hmounts]
  exact List.rel_append (hplan.imp hkept) (.cons hnew .nil)

theorem addMounts_holds (hmounts : ∀ mount ∈ mounts, mount.NulFree) (hplan : plan.Holds done)
    (h : addMounts mounts plan = some plan') : plan'.Holds (done ++ mounts) := by
  induction mounts generalizing plan done with
  | nil =>
      rw [addMounts, Option.some.injEq] at h
      rw [← h, List.append_nil]
      exact hplan
  | cons mount mounts ih =>
      rw [List.forall_mem_cons] at hmounts
      rw [addMounts, Option.bind_eq_bind, Option.bind_eq_some_iff] at h
      obtain ⟨next, hnext, h⟩ := h
      rw [List.append_cons]
      exact ih hmounts.2 (addMount_holds hmounts.1 hplan hnext) h

theorem addMounts_fields (h : addMounts mounts plan = some plan') :
    plan' = { plan with mounts := plan'.mounts, arena := plan'.arena } := by
  induction mounts generalizing plan with
  | nil =>
      rw [addMounts, Option.some.injEq] at h
      rw [← h]
  | cons mount mounts ih =>
      rw [addMounts, Option.bind_eq_bind, Option.bind_eq_some_iff] at h
      obtain ⟨next, hnext, h⟩ := h
      obtain ⟨_, _, _, -, -, hfields⟩ := addMount_eq_some hnext
      rw [ih h, hfields]

theorem exists_addMounts (h : plan.arena.bytes.length + (mounts.map arenaBytes).sum ≤ kMaxPlanPathBytes) :
    ∃ plan', addMounts mounts plan = some plan' ∧
      plan'.arena.bytes.length = plan.arena.bytes.length + (mounts.map arenaBytes).sum := by
  induction mounts generalizing plan with
  | nil => exact ⟨plan, rfl, rfl⟩
  | cons mount mounts ih =>
      rw [List.map_cons, List.sum_cons, arenaBytes] at h
      obtain ⟨arena, visiblePath, hvisible, hlength⟩ :=
        @PathArena.exists_storePlanPath plan.arena mount.visiblePath (by omega)
      obtain ⟨arena', backingPath, hbacking, hlength'⟩ :=
        @PathArena.exists_storePlanPath arena mount.backingPath (by omega)
      have hadd : plan.addMount mount.action mount.visiblePath mount.backingPath = some { plan with
          mounts := plan.mounts ++ [{ action := mount.action, visiblePath, backingPath }], arena := arena' } := by
        simp [addMount, hvisible, hbacking]
      obtain ⟨plan', hplan', hfinal⟩ := @ih { plan with
        mounts := plan.mounts ++ [{ action := mount.action, visiblePath, backingPath }], arena := arena' } (by
          dsimp only
          omega)
      refine ⟨plan', ?_, ?_⟩
      · rw [addMounts, hadd, Option.bind_eq_bind, Option.bind_some, hplan']
      · rw [hfinal, List.map_cons, List.sum_cons, arenaBytes]
        dsimp only
        omega

theorem samePlannedMount_self {arena : PathArena} {packed : List PackedMount} {mounts : List PlannedMount}
    (h : List.Forall₂ (Stored arena) packed mounts) :
    ((packed.zip packed).all fun (lhs, rhs) => samePlannedMount arena arena lhs rhs) = true := by
  induction h with
  | nil => rfl
  | cons hmount _ ih =>
      rw [List.zip_cons_cons, List.all_cons, ih, Bool.and_true]
      simp [samePlannedMount, hmount.visiblePath, hmount.backingPath]

theorem Holds.sameProcessPlan (h : plan.Holds mounts) : sameProcessPlan plan plan = true := by
  simp [Zygisk.sameProcessPlan, samePlannedMount_self h]

end PackedPlan

/-! ## What LoadProcessPlan puts into a plan -/

section Expand
variable {user : Bytes} {capacity skip : Nat} {input output expanded : Bytes}

theorem expandUser_length (h : expandUser user capacity skip input output = some expanded)
    (houtput : output.length < capacity) : expanded.length < capacity := by
  fun_induction expandUser user capacity skip input output with
  | case1 => exact Option.some.inj h ▸ houtput
  | case2 skip byte rest output ih => exact ih h houtput
  | case3 => cases h
  | case4 byte rest output hplaceholder hroom ih =>
      apply ih h
      rw [List.length_append]
      omega
  | case5 => cases h
  | case6 byte rest output hplain hroom ih =>
      simp only [Bool.or_eq_true, decide_eq_true_eq, not_or] at hroom
      apply ih h
      rw [List.length_append, List.length_singleton]
      omega

theorem expandUser_nulFree (h : expandUser user capacity skip input output = some expanded) (huser : 0 ∉ user)
    (hinput : 0 ∉ input) (houtput : 0 ∉ output) : 0 ∉ expanded := by
  fun_induction expandUser user capacity skip input output with
  | case1 => exact Option.some.inj h ▸ houtput
  | case2 skip byte rest output ih => exact ih h (List.not_mem_of_not_mem_cons hinput) houtput
  | case3 => cases h
  | case4 byte rest output hplaceholder hroom ih =>
      exact ih h (List.not_mem_of_not_mem_cons hinput) (List.not_mem_append houtput huser)
  | case5 => cases h
  | case6 byte rest output hplain hroom ih =>
      refine ih h (List.not_mem_of_not_mem_cons hinput) (List.not_mem_append houtput ?_)
      rw [List.mem_singleton]
      exact List.ne_of_not_mem_cons hinput

end Expand

/-- What a rule of a plan is: executable, with paths that are C strings, allowed and shorter than `PATH_MAX`; a deny
rule has no backing path. -/
structure PlannedMount.Sendable (mount : PlannedMount) : Prop extends mount.NulFree where
  executable : isExecutableMountAction mount.action = true
  visible_allowed : isAllowedTarget mount.visiblePath = true
  visible_lt : mount.visiblePath.length < PATH_MAX
  backing_lt : mount.backingPath.length < PATH_MAX
  deny_backing : mount.action = .deny → mount.backingPath = []
  redirect_backing : mount.action ≠ .deny → isAllowedTarget mount.backingPath = true

theorem isAllowedTarget_ne {path : Bytes} (h : isAllowedTarget path = true) : path ≠ [] := by
  rintro rfl
  cases h

theorem sendable_of_plannedMount {userId : Nat} {rule : LogicalMountRule} {mount : PlannedMount}
    (h : plannedMount userId rule = some mount) (hvisible : 0 ∉ rule.visiblePath) (hbacking : 0 ∉ rule.backingPath) :
    mount.Sendable := by
  unfold plannedMount at h
  split at h
  · cases h
  · next hrule =>
    simp only [Bool.or_eq_true, Bool.not_eq_true', not_or, Bool.not_eq_false] at hrule
    split at h
    · next hdeny =>
      split at h
      · cases h
      · next hlength =>
        simp only [Bool.or_eq_true, decide_eq_true_eq, not_or, Nat.not_le] at hlength
        obtain rfl := Option.some.inj h
        exact ⟨⟨hvisible, List.not_mem_nil⟩, hrule.1, hrule.2, hlength.2, Nat.succ_pos _, fun _ => rfl,
          fun hne => absurd hdeny hne⟩
    · next hdeny =>
      split at h
      · cases h
      · next backing hexpanded =>
        split at h
        · cases h
        · next hlength =>
          obtain rfl := Option.some.inj h
          obtain ⟨hexpanded, hallowed⟩ := Option.filter_eq_some_iff.mp hexpanded
          have huser : (0 : UInt8) ∉ decimalBytes userId := not_mem_decimalBytes rfl userId
          exact ⟨⟨hvisible, expandUser_nulFree hexpanded huser hbacking List.not_mem_nil⟩, hrule.1, hrule.2,
            Nat.lt_of_not_le hlength, expandUser_length hexpanded (by decide), fun h => absurd h hdeny,
            fun _ => hallowed⟩

/-- The mounts of a plan, and the bytes of the arena they take. -/
structure ProcessPlan.WellStored (plan : ProcessPlan) : Prop where
  sendable : ∀ mount ∈ plan.mounts, mount.Sendable
  pathBytes : plan.pathBytes = 1 + (plan.mounts.map arenaBytes).sum
  pathBytes_le : plan.pathBytes ≤ kMaxPlanPathBytes

theorem loadRules_wellStored {userId : Nat} {rule : LogicalMountRule} {plan plan' : ProcessPlan}
    (h : loadRules userId [rule] plan = some plan') (hplan : plan.WellStored) (hvisible : 0 ∉ rule.visiblePath)
    (hbacking : 0 ∉ rule.backingPath) : plan'.WellStored ∧ plan'.mounts.length = plan.mounts.length + 1 := by
  simp only [loadRules, Option.bind_eq_bind, Option.bind_eq_some_iff] at h
  obtain ⟨mount, hmount, bytes, hbytes, bytes', hbytes', h⟩ := h
  obtain rfl := Option.some.inj h
  rw [storePlanPath_eq hplan.pathBytes_le] at hbytes
  split at hbytes
  · next hroom =>
    obtain rfl := Option.some.inj hbytes
    rw [storePlanPath_eq hroom] at hbytes'
    split at hbytes'
    · next hroom' =>
      obtain rfl := Option.some.inj hbytes'
      refine ⟨⟨fun other hmem => ?_, ?_, hroom'⟩, by rw [List.length_append, List.length_singleton]⟩
      · obtain hmem | hmem := List.mem_append.mp hmem
        · exact hplan.sendable other hmem
        · rw [List.mem_singleton.mp hmem]
          exact sendable_of_plannedMount hmount hvisible hbacking
      · rw [hplan.pathBytes, List.map_append, List.sum_append, List.map_singleton, List.sum_singleton, arenaBytes,
          Nat.add_assoc, Nat.add_assoc]
    · cases hbytes'
  · cases hbytes

section Reads
variable {data : Bytes} {header : PolicyHeader}

theorem readString_nulFree {stringOffset relativeOffset : UInt32} {text : Bytes}
    (h : readString data stringOffset relativeOffset = some text) : 0 ∉ text := by
  unfold readString at h
  split at h
  · cases h
  · dsimp only at h
    split at h
    · obtain rfl := Option.some.inj h
      intro hmem
      have hne := List.mem_takeWhile_imp hmem
      simp at hne
    · cases h

theorem readPlannedRule_nulFree {rule : Nat} {out : LogicalMountRule} (h : readPlannedRule data header rule = .ok out) :
    0 ∉ out.visiblePath ∧ 0 ∉ out.backingPath := by
  simp only [readPlannedRule, bind_ok_iff] at h
  obtain ⟨code, -, reserved, -, reserved16, -, visible, -, backing, -, h⟩ := h
  split at h
  · next action visiblePath backingPath haction hvisible hbacking =>
    split at h
    · cases h
    · obtain rfl := Except.ok.inj h
      exact ⟨readString_nulFree hvisible, readString_nulFree hbacking⟩
  · cases h

theorem loadPlannedRules_wellStored {userId : Nat} {first : UInt32} {count index : Nat} {plan plan' : ProcessPlan}
    (h : loadPlannedRules data header userId first count index plan = .ok plan') (hplan : plan.WellStored) :
    plan'.WellStored ∧ plan'.mounts.length = plan.mounts.length + count := by
  induction count generalizing index plan with
  | zero =>
      obtain rfl := Except.ok.inj h
      exact ⟨hplan, rfl⟩
  | succ count ih =>
      rw [loadPlannedRules, bind_ok_iff] at h
      obtain ⟨rule, hrule, h⟩ := h
      split at h
      · cases h
      · next next hnext =>
        obtain ⟨hstored, hlength⟩ := loadRules_wellStored hnext hplan (readPlannedRule_nulFree hrule).1
          (readPlannedRule_nulFree hrule).2
        obtain ⟨hstored', hlength'⟩ := ih h hstored
        refine ⟨hstored', ?_⟩
        omega

/-- The plan of a package entry: its fields, and the mounts of at most `kMaxMountRules` rules. -/
theorem loadPackageEntry_fields {process : Bytes} {uid : Uid} {entry : Nat} {plan : LoadedPlan}
    (h : loadPackageEntry data header process uid entry = .ok plan) :
    plan.toProcessPlan.WellStored ∧ plan.mounts ≠ [] ∧ plan.mounts.length ≤ kMaxMountRules ∧
      plan.policyFlags = header.headerFlags ∧ plan.processName = process := by
  simp only [loadPackageEntry, bind_ok_iff] at h
  obtain ⟨name, -, users, -, processes, -, firstRule, -, ruleCount, -, firstEvent, -, appEventCount, -, failureMode, -,
    mediaCompat, -, providerCompat, -, reserved, -, reserved32, -, h⟩ := h
  split at h
  · cases h
  · simp only [bind_ok_iff] at h
    obtain ⟨snapshotGeneration, -, planGeneration, -, h⟩ := h
    split at h
    · split at h
      · cases h
      · split at h
        · cases h
        · next hranges =>
          simp only [bind_ok_iff] at h
          obtain ⟨loaded, hloaded, h⟩ := h
          split at h
          · cases h
          · next hempty =>
            obtain rfl := Except.ok.inj h
            simp only [Bool.or_eq_true, decide_eq_true_eq, not_or, Nat.not_lt] at hranges
            obtain ⟨hstored, hlength⟩ := loadPlannedRules_wellStored hloaded
              ⟨fun _ hmem => absurd hmem List.not_mem_nil, rfl, by decide⟩
            refine ⟨hstored, fun hnil => hempty (List.isEmpty_iff.mpr hnil), ?_, rfl, rfl⟩
            rw [hlength, List.length_nil, Nat.zero_add]
            exact hranges.2
    · cases h

end Reads

/-- What is known of every plan `LoadProcessPlan` returns. -/
structure LoadedPlan.WellLoaded (plan : LoadedPlan) : Prop where
  stored : plan.toProcessPlan.WellStored
  mounts_ne : plan.mounts ≠ []
  mounts_le : plan.mounts.length ≤ kMaxMountRules
  policyFlags : plan.policyFlags &&& ~~~kPolicyFlagAllowLegacyStringBind = 0
  processName_ne : plan.processName ≠ []
  processName_lt : plan.processName.length < kMaxProcessNameBytes
  processName_nulFree : 0 ∉ plan.processName

theorem wellLoaded_of_loadProcessPlan {data : Bytes} {process : CString} {uid : Uid} {plan : LoadedPlan}
    (h : loadProcessPlan data process uid = .ok plan) : plan.WellLoaded := by
  unfold loadProcessPlan at h
  split at h
  · cases h
  · next hlength =>
    rw [bind_ok_iff] at h
    obtain ⟨header, hheader, h⟩ := h
    have hflags : header.headerFlags &&& ~~~kPolicyFlagAllowLegacyStringBind = 0 := by
      unfold readPolicy at hheader
      split at hheader
      · cases hheader
      · simp only [bind_ok_iff] at hheader
        obtain ⟨read, hread, -, -, -, -, heq⟩ := hheader
        obtain rfl := Except.ok.inj heq
        exact (headerAccepted_of_ok hread).flags
    dsimp only at h
    split at h
    · cases h
    · next hpackage =>
      rw [bind_ok_iff] at h
      obtain ⟨entry, -, h⟩ := h
      split at h
      · cases h
      · obtain ⟨hstored, hne, hle, hpolicy, hname⟩ := loadPackageEntry_fields h
        refine ⟨hstored, hne, hle, ?_, ?_, ?_, ?_⟩
        · rw [hpolicy]
          exact hflags
        · rw [hname]
          intro hnil
          rw [hnil] at hpackage
          exact hpackage rfl
        · rw [hname]
          exact Nat.lt_of_not_le hlength
        · rw [hname]
          exact process.nul_free

/-- **The arena changes nothing.** A plan is loaded with its paths in the arena exactly when it is loaded with its paths
in place, and holds its mounts. -/
theorem loadPackedPlan_of_loaded {data : Bytes} {process : CString} {uid : Uid} {plan : LoadedPlan}
    (h : loadProcessPlan data process uid = .ok plan) :
    ∃ packed, loadPackedPlan data process uid = .ok packed ∧ PackedPlan.addMounts plan.mounts plan.header = some packed ∧
      packed.Holds plan.mounts ∧ packed.arena.bytes.length = plan.pathBytes := by
  have hloaded := wellLoaded_of_loadProcessPlan h
  have hfits : plan.header.arena.bytes.length + (plan.mounts.map arenaBytes).sum ≤ kMaxPlanPathBytes := by
    have hle := hloaded.stored.pathBytes_le
    rw [hloaded.stored.pathBytes] at hle
    exact hle
  obtain ⟨packed, hpacked, hlength⟩ := PackedPlan.exists_addMounts hfits
  have hempty : plan.header.Holds [] := List.Forall₂.nil
  have hholds : packed.Holds ([] ++ plan.mounts) :=
    PackedPlan.addMounts_holds (fun mount hmem => (hloaded.stored.sendable mount hmem).toNulFree) hempty hpacked
  refine ⟨packed, ?_, hpacked, hholds, ?_⟩
  · rw [loadPackedPlan, bind_ok_iff]
    refine ⟨plan, h, ?_⟩
    rw [hpacked]
    rfl
  · rw [hlength, hloaded.stored.pathBytes]
    rfl

theorem loadPackedPlan_ok_iff {data : Bytes} {process : CString} {uid : Uid} {packed : PackedPlan} :
    loadPackedPlan data process uid = .ok packed ↔
      ∃ plan, loadProcessPlan data process uid = .ok plan ∧ PackedPlan.addMounts plan.mounts plan.header = some packed := by
  rw [loadPackedPlan, bind_ok_iff]
  constructor
  · rintro ⟨plan, hplan, h⟩
    split at h
    · cases h
    · next packed' hpacked => exact ⟨plan, hplan, Except.ok.inj h ▸ hpacked⟩
  · rintro ⟨plan, hplan, hpacked⟩
    refine ⟨plan, hplan, ?_⟩
    rw [hpacked]
    rfl

end PathGuard.Zygisk

import PathGuard.Lib.Stream
import PathGuard.Zygisk.PlanArena

/-!
# The plan on its way to the companion

`zygisk/src/module_entry.cpp`: the bytes `SendPlanWithSharedFd` writes, and how `CompanionHandler` reads them back and
stores the paths in an arena of its own. A plan that `LoadProcessPlan` made arrives as it was, and a stream that ends
early never makes a plan.

* `sendPlanWithSharedFd`, `receivePlan` : the two ends;
* `consumes_receiveMount`, `consumes_receiveMounts` : a mount, and all of them;
* `consumes_receivePlan` : the plan arrives, and no truncation is taken for one.
-/

namespace PathGuard.Zygisk

/-! ## BootstrapHeader -/

def kBootstrapMagic : UInt32 := 0x50474250
def kBootstrapVersion : UInt32 := 5

structure BootstrapHeader where
  magic : UInt32
  version : UInt32
  pid : Int32
  uid : Int32
  ruleCount : UInt32
  policyFlags : UInt32
  snapshotGeneration : UInt64
  planGeneration : UInt64
  processNameLength : UInt32
  compatFlags : UInt32

/-- The header in memory: its fields in order, without padding. -/
def BootstrapHeader.bytes (header : BootstrapHeader) : Bytes :=
  leBytes 4 header.magic.toNat ++ (leBytes 4 header.version.toNat ++ (leBytes 4 header.pid.toUInt32.toNat ++
    (leBytes 4 header.uid.toUInt32.toNat ++ (leBytes 4 header.ruleCount.toNat ++ (leBytes 4 header.policyFlags.toNat ++
      (leBytes 8 header.snapshotGeneration.toNat ++ (leBytes 8 header.planGeneration.toNat ++
        (leBytes 4 header.processNameLength.toNat ++ leBytes 4 header.compatFlags.toNat))))))))

/-! ## SendPlanWithSharedFd -/

/-- The header of a plan. -/
def bootstrapHeader (pid : Int32) (uid : Uid) (plan : PackedPlan) : BootstrapHeader where
  magic := kBootstrapMagic
  version := kBootstrapVersion
  pid := pid
  uid := Int32.ofNat uid.val
  ruleCount := UInt32.ofNat plan.mounts.length
  policyFlags := plan.policyFlags
  snapshotGeneration := plan.snapshotGeneration
  planGeneration := plan.planGeneration
  processNameLength := UInt32.ofNat plan.processName.length
  compatFlags := (if plan.mediaCompat then 1 else 0) ||| (if plan.providerCompat then 2 else 0)

/-- The five writes for a mount. -/
def mountBytes (action : MountAction) (visible backing : Bytes) : Bytes :=
  [action.code] ++ (leBytes 4 visible.length ++ (visible ++ (leBytes 4 backing.length ++ backing)))

/-- The loop over the mounts. -/
def sendMounts (arena : PathArena) : List PackedMount → Option Bytes
  | [] => some []
  | mount :: mounts =>
      match arena.planPath mount.visiblePath, arena.planPath mount.backingPath with
      | some visible, some backing => (sendMounts arena mounts).map (mountBytes mount.action visible backing ++ ·)
      | _, _ => none

/-- `SendPlanWithSharedFd`, from an app that has its module directory: everything it writes when no write fails. -/
def sendPlanWithSharedFd (pid : Int32) (uid : Uid) (plan : PackedPlan) : Option Bytes :=
  if plan.processName.isEmpty then none
  else (sendMounts plan.arena plan.mounts).map fun mounts =>
    (bootstrapHeader pid uid plan).bytes ++ (plan.processName ++ mounts)

/-! ## CompanionHandler, up to the rebuilt plan -/

abbrev Wire (α : Type) := StreamReader UInt8 α

/-- `ReadFully`, of a socket whose peer has closed: what was sent, then the end. -/
def readFully (size : Nat) : Wire Bytes := readExactly size

def readByte : Wire UInt8 := do return UInt8.ofNat (leValue (← readFully 1))
def readUInt32 : Wire UInt32 := do return UInt32.ofNat (leValue (← readFully 4))
def readUInt64 : Wire UInt64 := do return UInt64.ofNat (leValue (← readFully 8))
def readInt32 : Wire Int32 := do return (← readUInt32).toInt32

/-- `ReceiveBootstrap`: the header, with the two descriptors or without. -/
def receiveBootstrap (descriptors : Bool) : Wire BootstrapHeader := do
  let magic ← readUInt32
  let version ← readUInt32
  let pid ← readInt32
  let uid ← readInt32
  let ruleCount ← readUInt32
  let policyFlags ← readUInt32
  let snapshotGeneration ← readUInt64
  let planGeneration ← readUInt64
  let processNameLength ← readUInt32
  let compatFlags ← readUInt32
  if !descriptors then failure
  else return { magic, version, pid, uid, ruleCount, policyFlags, snapshotGeneration, planGeneration,
                processNameLength, compatFlags }

/-- The checks of the header. -/
def acceptsHeader (header : BootstrapHeader) : Bool :=
  header.magic == kBootstrapMagic && header.version == kBootstrapVersion && 0 < header.pid && 10000 ≤ header.uid &&
    header.ruleCount != 0 && header.ruleCount.toNat ≤ kMaxMountRules && header.processNameLength != 0 &&
    header.processNameLength.toNat < kMaxProcessNameBytes && header.compatFlags &&& ~~~3 == 0 &&
    header.policyFlags &&& ~~~kPolicyFlagAllowLegacyStringBind == 0

/-- The plan before its mounts. -/
def planOfHeader (header : BootstrapHeader) (processName : Bytes) : PackedPlan where
  snapshotGeneration := header.snapshotGeneration
  planGeneration := header.planGeneration
  policyFlags := header.policyFlags
  mediaCompat := header.compatFlags &&& 1 != 0
  providerCompat := header.compatFlags &&& 2 != 0
  processName := processName

/-- One round of the loop over the mounts. -/
def receiveMount (plan : PackedPlan) : Wire PackedPlan := do
  let code ← readByte
  let visibleLength ← readUInt32
  if visibleLength = 0 || PATH_MAX ≤ visibleLength.toNat then failure
  else
    let visible ← readFully visibleLength.toNat
    let backingLength ← readUInt32
    if PATH_MAX ≤ backingLength.toNat then failure
    else
      let backing ← readFully backingLength.toNat
      match MountAction.ofCode? code with
      | none => failure
      | some action =>
          if !isExecutableMountAction action || (if action = .deny then backingLength != 0 else backingLength == 0) ||
              !isAllowedTarget (cString visible) || action = .redirect && !isAllowedTarget (cString backing) then failure
          else
            match plan.addMount action (cString visible) (cString backing) with
            | none => failure
            | some plan => return plan

def receiveMounts : Nat → PackedPlan → Wire PackedPlan
  | 0, plan => return plan
  | count + 1, plan => do
      let plan ← receiveMount plan
      receiveMounts count plan

/-- Everything `CompanionHandler` reads from the client. `mapped`: `MapSharedState` found the shared page. -/
def receivePlan (descriptors mapped : Bool) : Wire (BootstrapHeader × PackedPlan) := do
  let header ← receiveBootstrap descriptors
  if !acceptsHeader header || !mapped then failure
  else
    let processName ← readFully header.processNameLength.toNat
    let plan ← receiveMounts header.ruleCount.toNat (planOfHeader header (cString processName))
    return (header, plan)

/-! ## The header -/

theorem consumes_readByte (byte : UInt8) : Consumes readByte [byte] byte := by
  refine (consumes_readExactly (List.length_singleton (a := byte))).bind_nil ?_
  rw [leValue, leValue, Nat.mul_zero, Nat.add_zero, UInt8.ofNat_toNat]
  exact consumes_pure _

theorem consumes_readUInt32 (value : UInt32) : Consumes readUInt32 (leBytes 4 value.toNat) value := by
  refine (consumes_readExactly (length_leBytes 4 _)).bind_nil ?_
  rw [leValue_leBytes_of_lt value.toNat_lt, UInt32.ofNat_toNat]
  exact consumes_pure _

theorem consumes_readUInt64 (value : UInt64) : Consumes readUInt64 (leBytes 8 value.toNat) value := by
  refine (consumes_readExactly (length_leBytes 8 _)).bind_nil ?_
  rw [leValue_leBytes_of_lt value.toNat_lt, UInt64.ofNat_toNat]
  exact consumes_pure _

theorem consumes_readInt32 (value : Int32) : Consumes readInt32 (leBytes 4 value.toUInt32.toNat) value :=
  (consumes_readUInt32 value.toUInt32).bind_nil (consumes_pure _)

theorem consumes_receiveBootstrap (header : BootstrapHeader) :
    Consumes (receiveBootstrap true) header.bytes header :=
  (consumes_readUInt32 header.magic).bind <| (consumes_readUInt32 header.version).bind <|
    (consumes_readInt32 header.pid).bind <| (consumes_readInt32 header.uid).bind <|
    (consumes_readUInt32 header.ruleCount).bind <| (consumes_readUInt32 header.policyFlags).bind <|
    (consumes_readUInt64 header.snapshotGeneration).bind <| (consumes_readUInt64 header.planGeneration).bind <|
    (consumes_readUInt32 header.processNameLength).bind <| (consumes_readUInt32 header.compatFlags).bind_nil <|
    consumes_pure header

/-! ## The mounts -/

theorem toNat_ofNat_of_le {count limit : Nat} (h : count ≤ limit) (hlimit : limit < 2 ^ 32) :
    (UInt32.ofNat count).toNat = count := by
  rw [UInt32.toNat_ofNat']
  exact Nat.mod_eq_of_lt (by omega)

theorem toNat_ofNat_length {path : Bytes} (h : path.length < PATH_MAX) :
    (UInt32.ofNat path.length).toNat = path.length := toNat_ofNat_of_le h.le (by decide)

theorem consumes_pathLength {path : Bytes} (h : path.length < PATH_MAX) :
    Consumes readUInt32 (leBytes 4 path.length) (UInt32.ofNat path.length) := by
  have hread := consumes_readUInt32 (UInt32.ofNat path.length)
  rwa [toNat_ofNat_length h] at hread

theorem consumes_path {path : Bytes} (h : path.length < PATH_MAX) :
    Consumes (readFully (UInt32.ofNat path.length).toNat) path path :=
  consumes_readExactly (toNat_ofNat_length h).symm

theorem ofNat_length_ne_zero {path : Bytes} (hallowed : isAllowedTarget path = true) (h : path.length < PATH_MAX) :
    UInt32.ofNat path.length ≠ 0 := by
  intro hzero
  have hlength := toNat_ofNat_length h
  rw [hzero] at hlength
  exact isAllowedTarget_ne hallowed (List.length_eq_zero_iff.mp hlength.symm)

theorem backingLength_accepted {mount : PlannedMount} (h : mount.Sendable) :
    (if mount.action = .deny then UInt32.ofNat mount.backingPath.length != 0
      else UInt32.ofNat mount.backingPath.length == 0) = false := by
  split
  · next hdeny =>
    rw [h.deny_backing hdeny]
    rfl
  · next hdeny => exact beq_eq_false_iff_ne.mpr (ofNat_length_ne_zero (h.redirect_backing hdeny) h.backing_lt)

theorem redirect_accepted {mount : PlannedMount} (h : mount.Sendable) :
    (decide (mount.action = .redirect) && !isAllowedTarget mount.backingPath) = false := by
  by_cases hredirect : mount.action = .redirect
  · have hdeny : mount.action ≠ .deny := by
      rw [hredirect]
      decide
    rw [h.redirect_backing hdeny, Bool.not_true, Bool.and_false]
  · rw [decide_eq_false hredirect, Bool.false_and]

/-- **A mount arrives.** No check of the companion excludes a mount `LoadProcessPlan` planned. -/
theorem consumes_receiveMount {mount : PlannedMount} (h : mount.Sendable) {plan plan' : PackedPlan}
    (hadd : plan.addMount mount.action mount.visiblePath mount.backingPath = some plan') :
    Consumes (receiveMount plan) (mountBytes mount.action mount.visiblePath mount.backingPath) plan' := by
  unfold receiveMount
  refine (consumes_readByte _).bind ((consumes_pathLength h.visible_lt).bind ?_)
  rw [if_neg (by
    rw [Bool.or_eq_true, decide_eq_true_eq, decide_eq_true_eq, toNat_ofNat_length h.visible_lt, not_or, Nat.not_le]
    exact ⟨ofNat_length_ne_zero h.visible_allowed h.visible_lt, h.visible_lt⟩)]
  refine (consumes_path h.visible_lt).bind ((consumes_pathLength h.backing_lt).bind ?_)
  rw [if_neg (by rw [toNat_ofNat_length h.backing_lt]; exact Nat.not_le.mpr h.backing_lt)]
  refine (consumes_path h.backing_lt).bind_nil ?_
  rw [MountAction.ofCode?_code, cString_of_nulFree h.visiblePath, cString_of_nulFree h.backingPath]
  dsimp only
  rw [if_neg (by
    rw [h.executable, h.visible_allowed, backingLength_accepted h, redirect_accepted h]
    decide), hadd]
  exact consumes_pure _

theorem consumes_receiveMounts {mounts : List PlannedMount} (hmounts : ∀ mount ∈ mounts, mount.Sendable)
    {plan plan' : PackedPlan} (hadd : PackedPlan.addMounts mounts plan = some plan') :
    Consumes (receiveMounts mounts.length plan)
      (mounts.flatMap fun mount => mountBytes mount.action mount.visiblePath mount.backingPath) plan' := by
  induction mounts generalizing plan with
  | nil =>
      obtain rfl := Option.some.inj hadd
      exact consumes_pure _
  | cons mount mounts ih =>
      rw [List.forall_mem_cons] at hmounts
      rw [PackedPlan.addMounts, Option.bind_eq_bind, Option.bind_eq_some_iff] at hadd
      obtain ⟨next, hnext, hadd⟩ := hadd
      rw [List.flatMap_cons]
      exact (consumes_receiveMount hmounts.1 hnext).bind (ih hmounts.2 hadd)

theorem sendMounts_eq {arena : PathArena} {packed : List PackedMount} {mounts : List PlannedMount}
    (h : List.Forall₂ (Stored arena) packed mounts) :
    sendMounts arena packed =
      some (mounts.flatMap fun mount => mountBytes mount.action mount.visiblePath mount.backingPath) := by
  induction h with
  | nil => rfl
  | cons hmount _ ih =>
      rw [sendMounts, hmount.visiblePath, hmount.backingPath, ih, hmount.action]
      rfl

/-! ## The whole plan -/

theorem packed_fields {plan : LoadedPlan} (hplan : plan.WellLoaded) {packed : PackedPlan}
    (hpacked : PackedPlan.addMounts plan.mounts plan.header = some packed) :
    packed.Holds plan.mounts ∧ packed.mounts.length = plan.mounts.length ∧ packed.policyFlags = plan.policyFlags ∧
      packed.processName = plan.processName := by
  have hempty : plan.header.Holds [] := List.Forall₂.nil
  have hholds : packed.Holds ([] ++ plan.mounts) :=
    PackedPlan.addMounts_holds (fun mount hmem => (hplan.stored.sendable mount hmem).toNulFree) hempty hpacked
  have hfields := PackedPlan.addMounts_fields hpacked
  exact ⟨hholds, hholds.length_eq, congrArg PackedPlan.policyFlags hfields, congrArg PackedPlan.processName hfields⟩

theorem ofNat_ne_zero_of_le {count limit : Nat} (h : count ≤ limit) (hlimit : limit < 2 ^ 32) (hne : count ≠ 0) :
    UInt32.ofNat count ≠ 0 := by
  intro hzero
  have hcount := toNat_ofNat_of_le h hlimit
  rw [hzero] at hcount
  exact hne hcount.symm

theorem acceptsHeader_bootstrapHeader {plan : LoadedPlan} (hplan : plan.WellLoaded) {packed : PackedPlan}
    (hpacked : PackedPlan.addMounts plan.mounts plan.header = some packed) {pid : Int32} (hpid : 0 < pid) {uid : Uid}
    (huid : 10000 ≤ uid.val) : acceptsHeader (bootstrapHeader pid uid packed) = true := by
  obtain ⟨-, hcount, hflags, hname⟩ := packed_fields hplan hpacked
  have huid' : (10000 : Int32) ≤ Int32.ofNat uid.val := by
    rw [Int32.le_iff_toInt_le, Int32.toInt_ofNat_of_lt uid.isLt]
    exact Int.ofNat_le.mpr huid
  have hcount_ne : plan.mounts.length ≠ 0 := fun h => hplan.mounts_ne (List.length_eq_zero_iff.mp h)
  have hname_ne : plan.processName.length ≠ 0 := fun h => hplan.processName_ne (List.length_eq_zero_iff.mp h)
  have hcompat :
      ((if packed.mediaCompat then 1 else 0) ||| (if packed.providerCompat then 2 else 0) : UInt32) &&& ~~~3 = 0 := by
    cases packed.mediaCompat <;> cases packed.providerCompat <;> decide
  simp only [acceptsHeader, bootstrapHeader, hcount, hflags, hname, hcompat, hplan.policyFlags,
    toNat_ofNat_of_le hplan.mounts_le (by decide), toNat_ofNat_of_le hplan.processName_lt.le (by decide), hpid, huid',
    hplan.mounts_le, hplan.processName_lt, bne_iff_ne.mpr (ofNat_ne_zero_of_le hplan.mounts_le (by decide) hcount_ne),
    bne_iff_ne.mpr (ofNat_ne_zero_of_le hplan.processName_lt.le (by decide) hname_ne), beq_self_eq_true, decide_true,
    Bool.and_self]

theorem planOfHeader_bootstrapHeader {plan : LoadedPlan} {packed : PackedPlan}
    (hpacked : PackedPlan.addMounts plan.mounts plan.header = some packed) (pid : Int32) (uid : Uid) :
    planOfHeader (bootstrapHeader pid uid packed) plan.processName = plan.header := by
  have hfields := PackedPlan.addMounts_fields hpacked
  have hcompat : ∀ media provider : Bool,
      (((if media then 1 else 0) ||| (if provider then 2 else 0) : UInt32) &&& 1 != 0) = media ∧
        (((if media then 1 else 0) ||| (if provider then 2 else 0) : UInt32) &&& 2 != 0) = provider := by
    decide
  rw [hfields]
  simp only [planOfHeader, bootstrapHeader, (hcompat _ _).1, (hcompat _ _).2]
  rfl

/-- **The round trip.** The companion rebuilds the plan, offsets and all, from exactly the bytes the app wrote. -/
theorem consumes_receivePlan {plan : LoadedPlan} (hplan : plan.WellLoaded) {packed : PackedPlan}
    (hpacked : PackedPlan.addMounts plan.mounts plan.header = some packed) {pid : Int32} (hpid : 0 < pid) {uid : Uid}
    (huid : 10000 ≤ uid.val) :
    ∃ bytes, sendPlanWithSharedFd pid uid packed = some bytes ∧
      Consumes (receivePlan true true) bytes (bootstrapHeader pid uid packed, packed) := by
  obtain ⟨hholds, hcount, -, hname⟩ := packed_fields hplan hpacked
  have haccepted := acceptsHeader_bootstrapHeader hplan hpacked hpid huid
  refine ⟨(bootstrapHeader pid uid packed).bytes ++ (plan.processName ++
    plan.mounts.flatMap fun mount => mountBytes mount.action mount.visiblePath mount.backingPath), ?_, ?_⟩
  · have hempty : packed.processName.isEmpty = false := by
      rw [hname]
      exact Bool.eq_false_iff.mpr fun h => hplan.processName_ne (List.isEmpty_iff.mp h)
    rw [sendPlanWithSharedFd, if_neg (by rw [hempty]; decide), sendMounts_eq hholds, hname]
    rfl
  · refine (consumes_receiveBootstrap _).bind ?_
    rw [if_neg (by rw [haccepted]; decide)]
    have hnameLength : (bootstrapHeader pid uid packed).processNameLength.toNat = plan.processName.length := by
      rw [bootstrapHeader, hname]
      exact toNat_ofNat_of_le hplan.processName_lt.le (by decide)
    have hruleCount : (bootstrapHeader pid uid packed).ruleCount.toNat = plan.mounts.length := by
      rw [bootstrapHeader, hcount]
      exact toNat_ofNat_of_le hplan.mounts_le (by decide)
    refine (consumes_readExactly hnameLength.symm).bind ?_
    rw [hruleCount, cString_of_nulFree hplan.processName_nulFree, planOfHeader_bootstrapHeader hpacked]
    exact (consumes_receiveMounts hplan.stored.sendable hpacked).bind_nil (consumes_pure _)

theorem receivePlan_eq_none {descriptors mapped : Bool} (h : (descriptors && mapped) = false) (stream : Bytes) :
    receivePlan descriptors mapped stream = none := by
  cases descriptors with
  | true =>
      obtain rfl : mapped = false := h
      refine bind_eq_none (fun header rest => ?_) stream
      rw [Bool.not_false, Bool.or_true, if_pos rfl]
      rfl
  | false =>
      have hfields : ∀ stream, receiveBootstrap false stream = none := by
        unfold receiveBootstrap
        iterate 10 refine bind_eq_none fun _ => ?_
        intro stream
        rfl
      have hbind : receivePlan false mapped stream = (receiveBootstrap false stream).bind _ := rfl
      rw [hbind, hfields, Option.bind_none]

end PathGuard.Zygisk

import PathGuard.Core.Binary
import PathGuard.Lib.Search
import PathGuard.Zygisk.ProcessPlan

/-!
# Reading the policy in an app process

The second reader of the binary policy: `LoadProcessPlan` of `zygisk/src/module_entry.cpp`, with `FindPackageEntry` of
`core/include/pathguard/policy_index.h`, over the mapped bytes of `policy.bin`. It checks the header as `DecodePolicy`
does and the tables with its own loops, finds the package of the process by its hash and builds the plan of the process.

Every `return false` is `rejected`. A read that leaves the mapping is `outOfBounds`: the code has no branch for it.

* `readPolicy` : all checks of the mapping; `findPackageEntry` : the search by hash;
* `loadProcessPlan` : the plan of a process, or none.
-/

namespace PathGuard.Zygisk

/-- `return false`. -/
def rejected {α : Type} : Read α := .error (.rejected {})

/-! ## ValidPackageIndex -/

def packageEntry (header : PolicyHeader) (index : Nat) : Nat := header.packageOffset.toNat + index * kPackageSize

/-- The loop from `index` on. -/
def validPackageIndex (data : Bytes) (header : PolicyHeader) : Nat → Nat → UInt32 → Bytes → Read Unit
  | 0, _, _, _ => .ok ()
  | count + 1, index, previousHash, previousName => do
      let hash ← read32 data (packageEntry header index + kPackageHashOffset)
      let name ← read32 data (packageEntry header index + kPackageNameOffset)
      match readString data header.stringOffset name with
      | none => rejected
      | some name =>
          if packageNameHash name ≠ hash ||
              0 < index && (hash < previousHash || hash = previousHash && name ≤ previousName) then rejected
          else validPackageIndex data header count (index + 1) hash name

/-! ## ValidPolicyTables -/

/-- The loop over the packages. -/
def validPackageRanges (data : Bytes) (header : PolicyHeader) : Nat → Nat → UInt32 → UInt32 → Read Unit
  | 0, _, expectedFirstMount, expectedFirstEvent =>
      if expectedFirstMount ≠ header.mountCount || expectedFirstEvent ≠ header.eventCount then rejected else .ok ()
  | count + 1, index, expectedFirstMount, expectedFirstEvent => do
      let entry := packageEntry header index
      let firstMount ← read32 data (entry + kPackageFirstMountOffset)
      let packageMountCount ← read32 data (entry + kPackageMountCountOffset)
      let firstEvent ← read32 data (entry + kPackageFirstEventOffset)
      let packageEventCount ← read32 data (entry + kPackageEventCountOffset)
      let failureMode ← read8 data (entry + kPackageFailureModeOffset)
      let mediaCompat ← read8 data (entry + kPackageMediaCompatOffset)
      let providerCompat ← read8 data (entry + kPackageProviderCompatOffset)
      let reserved ← read8 data (entry + 43)
      let reserved32 ← read32 data (entry + 44)
      if firstMount ≠ expectedFirstMount || header.mountCount - firstMount < packageMountCount ||
          firstEvent ≠ expectedFirstEvent || header.eventCount - firstEvent < packageEventCount ||
          1 < failureMode || 1 < mediaCompat || 1 < providerCompat || reserved ≠ 0 || reserved32 ≠ 0 then rejected
      else
        validPackageRanges data header count (index + 1) (expectedFirstMount + packageMountCount)
          (expectedFirstEvent + packageEventCount)

def validMountRow (data : Bytes) (stringOffset : UInt32) (rule : Nat) : Read Unit := do
  let action ← read8 data (rule + kMountActionOffset)
  let reserved ← read8 data (rule + 1)
  let reserved16 ← read16 data (rule + 6)
  let visible ← read32 data (rule + kMountVisiblePathOffset)
  let backing ← read32 data (rule + kMountBackingPathOffset)
  if 3 < action || reserved ≠ 0 || reserved16 ≠ 0 || (readString data stringOffset visible).isNone ||
      (readString data stringOffset backing).isNone then rejected
  else .ok ()

def validEventRow (data : Bytes) (stringOffset : UInt32) (rule : Nat) : Read Unit := do
  let action ← read8 data (rule + kEventActionOffset)
  let reserved ← read8 data (rule + 1)
  let reserved16 ← read16 data (rule + 2)
  let source ← read32 data (rule + kEventSourcePathOffset)
  let target ← read32 data (rule + kEventTargetPathOffset)
  if 1 < action || reserved ≠ 0 || reserved16 ≠ 0 || (readString data stringOffset source).isNone ||
      (readString data stringOffset target).isNone then rejected
  else .ok ()

/-- A loop over the rows of a table, from `index` on. -/
def validRows (valid : Nat → Read Unit) (tableOffset size : Nat) : Nat → Nat → Read Unit
  | 0, _ => .ok ()
  | count + 1, index => do
      valid (tableOffset + index * size)
      validRows valid tableOffset size count (index + 1)

def validPolicyTables (data : Bytes) (header : PolicyHeader) : Read Unit := do
  validPackageRanges data header header.packageCount.toNat 0 0 0
  validRows (validMountRow data header.stringOffset) header.mountOffset.toNat kMountRuleSize header.mountCount.toNat 0
  validRows (validEventRow data header.stringOffset) header.eventOffset.toNat kEventRuleSize header.eventCount.toNat 0

/-- The checks of the mapping: the size, the header, whose fields and conditions are those of `DecodePolicy`, and the
tables. -/
def readPolicy (data : Bytes) : Read PolicyHeader :=
  if data.length < kHeaderSize then rejected
  else do
    let header ← readHeader data
    validPackageIndex data header header.packageCount.toNat 0 0 []
    validPolicyTables data header
    return header

/-! ## FindPackageEntry -/

/-- The entries of one hash, from `index` on. -/
def scanPackages (data : Bytes) (header : PolicyHeader) (package : Bytes) : Nat → Nat → Read (Option Nat)
  | 0, _ => .ok none
  | count + 1, index => do
      let entry := packageEntry header index
      let hash ← read32 data (entry + kPackageHashOffset)
      if hash ≠ packageNameHash package then .ok none
      else
        let relativeOffset ← read32 data (entry + kPackageNameOffset)
        let candidate := data.drop (header.stringOffset.toNat + relativeOffset.toNat)
        if package.length < candidate.length && candidate[package.length]? = some 0 &&
            candidate.take package.length = package then .ok (some entry)
        else scanPackages data header package count (index + 1)

def validPolicyIndex (data : Bytes) (header : PolicyHeader) : Bool :=
  header.packageOffset ≤ header.mountOffset && header.mountOffset ≤ header.stringOffset &&
    header.stringOffset.toNat ≤ data.length &&
    header.packageCount.toNat ≤ (header.mountOffset - header.packageOffset).toNat / kPackageSize

def findPackageEntry (data : Bytes) (header : PolicyHeader) (package : Bytes) : Read (Option Nat) :=
  if !validPolicyIndex data header || package.isEmpty then .ok none
  else do
    let count := header.packageCount.toNat
    let below (middle : Nat) : Read Bool := do
      let hash ← read32 data (packageEntry header middle + kPackageHashOffset)
      return hash < packageNameHash package
    let lower ← searchLower below count 0 count
    scanPackages data header package (count - lower) lower

/-! ## The scope of a package -/

/-- The items the loop of `ListContains` visits: it ends at the end of the list, so it does not look at an empty one
that comes last. -/
def listItems (list : Bytes) : List Bytes :=
  let items := list.splitOn comma
  if items.getLast? = some [] then items.dropLast else items

def listContains (list expected : Bytes) : Bool := list == ascii "*" || (listItems list).contains expected

def colon : UInt8 := 0x3a

def processMatches (package processes process : Bytes) : Bool :=
  if processes ≠ ascii "*" then listContains processes process
  else package == process || package.isPrefixOf process && process[package.length]? == some colon

/-! ## LoadProcessPlan -/

def kMaxProcessNameBytes : Nat := 256

/-- A C string. -/
structure CString where
  bytes : Bytes
  nul_free : 0 ∉ bytes

/-- A `jint` that is not negative. -/
abbrev Uid := Fin (2 ^ 31)

def Uid.user (uid : Uid) : Nat := uid.val / 100000

/-- `ProcessPlan` without the topology, which is captured later. -/
structure LoadedPlan extends ProcessPlan where
  snapshotGeneration : UInt64
  planGeneration : UInt64
  policyFlags : UInt32
  mediaCompat : Bool
  providerCompat : Bool
  processName : Bytes

/-- A rule of the mount table as the loop of `LoadProcessPlan` reads it. -/
def readPlannedRule (data : Bytes) (header : PolicyHeader) (rule : Nat) : Read LogicalMountRule := do
  let code ← read8 data (rule + kMountActionOffset)
  let reserved ← read8 data (rule + 1)
  let reserved16 ← read16 data (rule + 6)
  let visible ← read32 data (rule + kMountVisiblePathOffset)
  let backing ← read32 data (rule + kMountBackingPathOffset)
  match MountAction.ofCode? code, readString data header.stringOffset visible,
      readString data header.stringOffset backing with
  | some action, some visiblePath, some backingPath =>
      if reserved ≠ 0 || reserved16 ≠ 0 then rejected else return { action, visiblePath, backingPath }
  | _, _, _ => rejected

/-- The loop over the rules of the package, from `index` on. -/
def loadPlannedRules (data : Bytes) (header : PolicyHeader) (userId : Nat) (first : UInt32) :
    Nat → Nat → ProcessPlan → Read ProcessPlan
  | 0, _, plan => .ok plan
  | count + 1, index, plan => do
      let rule ← readPlannedRule data header
        (header.mountOffset.toNat + (first + UInt32.ofNat index).toNat * kMountRuleSize)
      match loadRules userId [rule] plan with
      | none => rejected
      | some plan => loadPlannedRules data header userId first count (index + 1) plan

/-- The entry of the package at `entry`, and the plan it gives the process. -/
def loadPackageEntry (data : Bytes) (header : PolicyHeader) (process : Bytes) (uid : Uid) (entry : Nat) :
    Read LoadedPlan := do
  let name ← read32 data (entry + kPackageNameOffset)
  let users ← read32 data (entry + kPackageUsersOffset)
  let processes ← read32 data (entry + kPackageProcessesOffset)
  let firstRule ← read32 data (entry + kPackageFirstMountOffset)
  let ruleCount ← read32 data (entry + kPackageMountCountOffset)
  let firstEvent ← read32 data (entry + kPackageFirstEventOffset)
  let appEventCount ← read32 data (entry + kPackageEventCountOffset)
  let failureMode ← read8 data (entry + kPackageFailureModeOffset)
  let mediaCompat ← read8 data (entry + kPackageMediaCompatOffset)
  let providerCompat ← read8 data (entry + kPackageProviderCompatOffset)
  let reserved ← read8 data (entry + 43)
  let reserved32 ← read32 data (entry + 44)
  if failureMode ≠ 0 || 1 < mediaCompat || 1 < providerCompat || header.eventCount < firstEvent ||
      header.eventCount - firstEvent < appEventCount || appEventCount ≠ 0 || reserved ≠ 0 || reserved32 ≠ 0 then
    rejected
  else
    let snapshotGeneration ← read64 data kContentGenerationOffset
    let planGeneration ← read64 data (entry + kPackagePlanGenerationOffset)
    match readString data header.stringOffset name, readString data header.stringOffset users,
        readString data header.stringOffset processes with
    | some package, some users, some processes =>
        if !processMatches package processes process || !listContains users (decimalBytes uid.user) then rejected
        else if header.mountCount < firstRule || header.mountCount - firstRule < ruleCount ||
            kMaxMountRules < ruleCount.toNat then rejected
        else
          let plan ← loadPlannedRules data header uid.user firstRule ruleCount.toNat 0 {}
          if plan.mounts.isEmpty then rejected
          else
            return { plan with
              snapshotGeneration, planGeneration
              policyFlags := header.headerFlags
              mediaCompat := mediaCompat == 1
              providerCompat := providerCompat == 1
              processName := process }
    | _, _, _ => rejected

/-- `LoadProcessPlan` of a policy that could be opened and mapped. -/
def loadProcessPlan (data : Bytes) (process : CString) (uid : Uid) : Read LoadedPlan :=
  if kMaxProcessNameBytes ≤ process.bytes.length then rejected
  else do
    let header ← readPolicy data
    let package := process.bytes.takeWhile (· ≠ colon)
    if package.isEmpty then rejected
    else
      match ← findPackageEntry data header package with
      | none => rejected
      | some entry => loadPackageEntry data header process.bytes uid entry

end PathGuard.Zygisk

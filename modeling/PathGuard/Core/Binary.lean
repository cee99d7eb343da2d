import PathGuard.Core.PolicyFormat
import PathGuard.Core.Validation

/-!
# The binary policy format

`core/src/binary.cpp`: `EncodePolicy` writes the canonical form of a document as a header, three tables and a
table of strings; `DecodePolicy` reads it back and checks everything again, down to the order of the rules and
the two generations.

A read of the decoder that leaves the input is `outOfBounds`: the code has no branch for it.
-/

namespace PathGuard

/-! ## Writing -/

def put8 (value : UInt8) : Bytes := [value]
def put16 (value : UInt16) : Bytes := leBytes 2 value.toNat
def put32 (value : UInt32) : Bytes := leBytes 4 value.toNat
def put64 (value : UInt64) : Bytes := leBytes 8 value.toNat

/-- `static_cast<std::uint32_t>` of a size. -/
def size32 {α : Type} (l : List α) : UInt32 := UInt32.ofNat l.length

def putCanonicalString (value : Bytes) : Bytes := put32 (size32 value) ++ value

def flag8 (flag : Bool) : UInt8 := if flag then 1 else 0

def canonicalPlan (policy : AppPolicy) (failureMode : FailureMode) (allowLegacyStringBind : Bool) : Bytes :=
  ascii "PGPL5" ++ [0] ++ put8 failureMode.code ++ put8 policy.mediaCompat.code ++
    put8 policy.providerCompat.code ++ put8 (flag8 allowLegacyStringBind) ++
    putCanonicalString policy.package ++
    put32 (size32 policy.users) ++ policy.users.flatMap putCanonicalString ++
    put32 (size32 policy.processes) ++ policy.processes.flatMap putCanonicalString ++
    put32 (size32 policy.mounts) ++ (policy.mounts.flatMap fun rule =>
      put8 rule.action.code ++ put16 rule.depth ++ put16 rule.flags ++
        putCanonicalString rule.visiblePath ++ putCanonicalString rule.backingPath) ++
    put32 (size32 policy.events) ++ (policy.events.flatMap fun rule =>
      put8 rule.action.code ++ put32 rule.options ++
        putCanonicalString rule.sourcePath ++ putCanonicalString rule.targetPath)

def planGeneration (policy : AppPolicy) (failureMode : FailureMode) (allowLegacyStringBind : Bool) : UInt64 :=
  fnv1a64 (canonicalPlan policy failureMode allowLegacyStringBind)

def contentGeneration (document : PolicyDocument) : UInt64 :=
  let apps := sortOn AppPolicy.package document.apps
  fnv1a64 (ascii "PGIR5" ++ [0] ++ put16 (UInt16.ofInt document.schema) ++
    put8 document.failureMode.code ++ put8 (flag8 document.allowLegacyStringBind) ++
    put32 (size32 apps) ++ apps.flatMap fun app =>
      let plan := canonicalPlan app document.failureMode document.allowLegacyStringBind
      put32 (size32 plan) ++ plan)

def comma : UInt8 := 0x2c

/-- `Join`. -/
def joinList (values : List Bytes) : Bytes := [comma].intercalate values

/-- `Split`. -/
def splitList (value : Bytes) : Option (List Bytes) :=
  let items := value.splitOn comma
  if items.any List.isEmpty then none else some items

structure StringTable where
  offsets : List (Bytes × UInt32)
  bytes : Bytes

def StringTable.add (table : StringTable) (value : Bytes) : UInt32 × StringTable :=
  match table.offsets.lookup value with
  | some offset => (offset, table)
  | none =>
      let offset := size32 table.bytes
      (offset, { offsets := table.offsets ++ [(value, offset)], bytes := table.bytes ++ value ++ [0] })

/-- `StringTable()`: the empty string is always there. -/
def StringTable.initial : StringTable := (StringTable.add ⟨[], []⟩ []).2

/-- `CanonicalizeDocument`: the loop over the apps, with the packages seen so far. -/
def canonicalizeApps : List AppPolicy → List Bytes → Except ParseError (List AppPolicy)
  | [], _ => .ok []
  | app :: apps, packages =>
      if packages.contains app.package then .error ⟨0, "duplicate package"⟩
      else do
        let app ← validatePolicy app
        if app.mediaCompat ≠ .off then
          .error ⟨0, "media compatibility is not executable in redirect-only R1"⟩
        else if app.mounts.any fun rule => rule.action ≠ .redirect && rule.action ≠ .deny then
          .error ⟨0, "mount action is not executable in Phase R1"⟩
        else if !app.events.isEmpty then .error ⟨0, "event action is not executable before Phase R4"⟩
        else
          let apps ← canonicalizeApps apps (packages ++ [app.package])
          return app :: apps

def canonicalizeDocument (input : PolicyDocument) : Except ParseError PolicyDocument :=
  if input.schema ≠ kSchemaVersion.toNat || input.failureMode ≠ .kOpen || input.apps.isEmpty then
    .error ⟨0, "policy document is not executable schema 2"⟩
  else do
    let apps ← canonicalizeApps input.apps []
    return { input with apps := apps }

def computeContentGeneration (document : PolicyDocument) : UInt64 :=
  match canonicalizeDocument document with
  | .error _ => 0
  | .ok canonical => contentGeneration canonical

/-- The tables `EncodePolicy` fills. -/
structure PolicyTables where
  packages : Bytes := []
  mounts : Bytes := []
  events : Bytes := []
  strings : StringTable := .initial
  firstMount : UInt32 := 0
  firstEvent : UInt32 := 0

def PolicyTables.addMount (tables : PolicyTables) (rule : LogicalMountRule) : PolicyTables :=
  let (visible, strings) := tables.strings.add rule.visiblePath
  let (backing, strings) := strings.add rule.backingPath
  { tables with
    strings := strings
    mounts := tables.mounts ++ put8 rule.action.code ++ put8 0 ++ put16 rule.depth ++ put16 rule.flags ++
      put16 0 ++ put32 visible ++ put32 backing }

def PolicyTables.addEvent (tables : PolicyTables) (rule : EventRule) : PolicyTables :=
  let (source, strings) := tables.strings.add rule.sourcePath
  let (target, strings) := strings.add rule.targetPath
  { tables with
    strings := strings
    events := tables.events ++ put8 rule.action.code ++ put8 0 ++ put16 0 ++ put32 source ++ put32 target ++
      put32 rule.options }

def PolicyTables.addPackage (failureMode : FailureMode) (allowLegacyStringBind : Bool) (tables : PolicyTables)
    (app : AppPolicy) : PolicyTables :=
  let (name, strings) := tables.strings.add app.package
  let (users, strings) := strings.add (joinList app.users)
  let (processes, strings) := strings.add (joinList app.processes)
  { tables with
    strings := strings
    packages := tables.packages ++ put32 (packageNameHash app.package) ++ put32 name ++ put32 users ++
      put32 processes ++ put32 tables.firstMount ++ put32 (size32 app.mounts) ++ put32 tables.firstEvent ++
      put32 (size32 app.events) ++ put64 (planGeneration app failureMode allowLegacyStringBind) ++
      put8 failureMode.code ++ put8 app.mediaCompat.code ++ put8 app.providerCompat.code ++ put8 0 ++ put32 0 }

/-- One round of the loop over the sorted apps. -/
def PolicyTables.addApp (failureMode : FailureMode) (allowLegacyStringBind : Bool) (tables : PolicyTables)
    (app : AppPolicy) : PolicyTables :=
  let tables := tables.addPackage failureMode allowLegacyStringBind app
  let tables := app.mounts.foldl PolicyTables.addMount tables
  let tables := app.events.foldl PolicyTables.addEvent tables
  { tables with
    firstMount := tables.firstMount + size32 app.mounts
    firstEvent := tables.firstEvent + size32 app.events }

/-- The order of the package table. -/
def packageSortKey (app : AppPolicy) : Nat ×ₗ Bytes := toLex ((packageNameHash app.package).toNat, app.package)

def mountCount (apps : List AppPolicy) : Nat := (apps.map fun app => app.mounts.length).sum
def eventCount (apps : List AppPolicy) : Nat := (apps.map fun app => app.events.length).sum

/-- `Store32`. -/
def store32 (output : Bytes) (offset : Nat) (value : UInt32) : Bytes :=
  output.take offset ++ put32 value ++ output.drop (offset + 4)

def policyHeader (canonical : PolicyDocument) (tables : PolicyTables) (fileSize : Nat) : Bytes :=
  let packageOffset := UInt32.ofNat kHeaderSize
  let mountOffset := packageOffset + size32 tables.packages
  let eventOffset := mountOffset + size32 tables.mounts
  let stringOffset := eventOffset + size32 tables.events
  put32 kMagic ++ put16 kFormatVersion ++ put16 kSchemaVersion ++ put32 (UInt32.ofNat fileSize) ++ put32 0 ++
    put64 (contentGeneration canonical) ++ put32 (size32 canonical.apps) ++
    put32 (UInt32.ofNat (mountCount canonical.apps)) ++ put32 (UInt32.ofNat (eventCount canonical.apps)) ++
    put32 packageOffset ++ put32 mountOffset ++ put32 eventOffset ++ put32 stringOffset ++
    put32 (if canonical.allowLegacyStringBind then kPolicyFlagAllowLegacyStringBind else 0)

def encodePolicy (document : PolicyDocument) : Except ParseError Bytes := do
  let canonical ← canonicalizeDocument document
  if 2 ^ 32 ≤ canonical.apps.length || 2 ^ 32 ≤ mountCount canonical.apps || 2 ^ 32 ≤ eventCount canonical.apps then
    .error ⟨0, "policy table count overflow"⟩
  else
    let apps := sortOn packageSortKey canonical.apps
    let tables := apps.foldl (PolicyTables.addApp canonical.failureMode canonical.allowLegacyStringBind) {}
    let payload := tables.packages ++ tables.mounts ++ tables.events ++ tables.strings.bytes
    let fileSize := kHeaderSize + payload.length
    if 2 ^ 32 ≤ fileSize then .error ⟨0, "policy file too large"⟩
    else
      let output := policyHeader canonical tables fileSize ++ payload
      let checksum := crc32 (output.drop kHeaderSize)
      return store32 output kPayloadChecksumOffset checksum

/-! ## Reading -/

inductive PolicyFailure
  | rejected (error : ParseError)
  | outOfBounds
  deriving DecidableEq, Repr

abbrev Read := Except PolicyFailure

def fail {α : Type} (message : String) : Read α := .error (.rejected ⟨0, message⟩)

def read8 (input : Bytes) (offset : Nat) : Read UInt8 :=
  match input[offset]? with
  | some byte => .ok byte
  | none => .error .outOfBounds

def readLE (input : Bytes) (offset width : Nat) : Read Nat :=
  if offset + width ≤ input.length then .ok (leValue ((input.drop offset).take width)) else .error .outOfBounds

def read16 (input : Bytes) (offset : Nat) : Read UInt16 := UInt16.ofNat <$> readLE input offset 2
def read32 (input : Bytes) (offset : Nat) : Read UInt32 := UInt32.ofNat <$> readLE input offset 4
def read64 (input : Bytes) (offset : Nat) : Read UInt64 := UInt64.ofNat <$> readLE input offset 8

/-- `ReadString`: the bytes up to the next NUL. -/
def readString (input : Bytes) (stringOffset relativeOffset : UInt32) : Option Bytes :=
  if input.length < stringOffset.toNat || input.length - stringOffset.toNat ≤ relativeOffset.toNat then none
  else
    let tail := input.drop (stringOffset.toNat + relativeOffset.toNat)
    if tail.contains 0 then some (tail.takeWhile (· != 0)) else none

def sameMount (lhs rhs : LogicalMountRule) : Bool :=
  lhs.action == rhs.action && lhs.visiblePath == rhs.visiblePath && lhs.backingPath == rhs.backingPath &&
    lhs.depth == rhs.depth && lhs.flags == rhs.flags

def sameEvent (lhs rhs : EventRule) : Bool :=
  lhs.action == rhs.action && lhs.sourcePath == rhs.sourcePath && lhs.targetPath == rhs.targetPath &&
    lhs.options == rhs.options

/-- The header fields the loops use. -/
structure PolicyHeader where
  packageCount : UInt32
  mountCount : UInt32
  eventCount : UInt32
  packageOffset : UInt32
  mountOffset : UInt32
  eventOffset : UInt32
  stringOffset : UInt32
  headerFlags : UInt32

def readHeader (input : Bytes) : Read PolicyHeader := do
  let fileSize ← read32 input kFileSizeOffset
  let checksum ← read32 input kPayloadChecksumOffset
  let packageCount ← read32 input kPackageCountOffset
  let mountCount ← read32 input kMountRuleCountOffset
  let eventCount ← read32 input kEventRuleCountOffset
  let packageOffset ← read32 input kPackageTableOffset
  let mountOffset ← read32 input kMountRuleTableOffset
  let eventOffset ← read32 input kEventRuleTableOffset
  let stringOffset ← read32 input kStringTableOffset
  let headerFlags ← read32 input kHeaderFlagsOffset
  let magic ← read32 input 0
  let formatVersion ← read16 input 4
  let schemaVersion ← read16 input 6
  let expectedMountOffset := kHeaderSize + packageCount.toNat * kPackageSize
  let expectedEventOffset := expectedMountOffset + mountCount.toNat * kMountRuleSize
  let expectedStringOffset := expectedEventOffset + eventCount.toNat * kEventRuleSize
  if magic ≠ kMagic || formatVersion ≠ kFormatVersion || schemaVersion ≠ kSchemaVersion ||
      fileSize.toNat ≠ input.length || packageCount = 0 || packageOffset.toNat ≠ kHeaderSize ||
      mountOffset.toNat ≠ expectedMountOffset || eventOffset.toNat ≠ expectedEventOffset ||
      stringOffset.toNat ≠ expectedStringOffset || input.length ≤ stringOffset.toNat ||
      headerFlags &&& ~~~kPolicyFlagAllowLegacyStringBind ≠ 0 ||
      crc32 (input.drop kHeaderSize) ≠ checksum then
    fail "invalid policy header or checksum"
  else
    return { packageCount, mountCount, eventCount, packageOffset, mountOffset, eventOffset, stringOffset,
             headerFlags }

/-- One rule of the mount table, at `rule`. -/
def readMount (input : Bytes) (stringOffset : UInt32) (rule : Nat) : Read LogicalMountRule := do
  let reserved ← read8 input (rule + 1)
  let reserved16 ← read16 input (rule + 6)
  let code ← read8 input (rule + kMountActionOffset)
  match MountAction.ofCode? code with
  | none => fail "invalid mount action"
  | some action =>
      if reserved ≠ 0 || reserved16 ≠ 0 then fail "invalid mount action"
      else
        let depth ← read16 input (rule + kMountDepthOffset)
        let flags ← read16 input (rule + kMountFlagsOffset)
        let visible ← read32 input (rule + kMountVisiblePathOffset)
        let backing ← read32 input (rule + kMountBackingPathOffset)
        match readString input stringOffset visible, readString input stringOffset backing with
        | some visiblePath, some backingPath => return { action, visiblePath, backingPath, depth, flags }
        | _, _ => fail "invalid mount strings"

def readEvent (input : Bytes) (stringOffset : UInt32) (rule : Nat) : Read EventRule := do
  let reserved ← read8 input (rule + 1)
  let reserved16 ← read16 input (rule + 2)
  let code ← read8 input (rule + kEventActionOffset)
  match EventAction.ofCode? code with
  | none => fail "invalid event action"
  | some action =>
      if reserved ≠ 0 || reserved16 ≠ 0 then fail "invalid event action"
      else
        let options ← read32 input (rule + kEventOptionsOffset)
        let source ← read32 input (rule + kEventSourcePathOffset)
        let target ← read32 input (rule + kEventTargetPathOffset)
        match readString input stringOffset source, readString input stringOffset target with
        | some sourcePath, some targetPath => return { action, sourcePath, targetPath, options }
        | _, _ => fail "invalid event strings"

/-- A table of `count` rules of `size` bytes each: rule `first + index` for every index from `index` on. -/
def readRules {α : Type} (read : Nat → Read α) (tableOffset size : Nat) (first : UInt32) :
    Nat → Nat → Read (List α)
  | 0, _ => .ok []
  | count + 1, index => do
      let rule ← read (tableOffset + (first + UInt32.ofNat index).toNat * size)
      let rules ← readRules read tableOffset size first count (index + 1)
      return rule :: rules

/-- What `DecodePolicy` carries from package to package. -/
structure DecodeState where
  apps : List AppPolicy := []
  previousHash : UInt32 := 0
  previousPackage : Bytes := []
  expectedFirstMount : UInt32 := 0
  expectedFirstEvent : UInt32 := 0
  failureMode : FailureMode := .kOpen

/-- The strings of the package entry at `entry`. -/
def readPackageStrings (input : Bytes) (stringOffset : UInt32) (entry : Nat) :
    Read (Bytes × List Bytes × List Bytes) := do
  let name ← read32 input (entry + kPackageNameOffset)
  let users ← read32 input (entry + kPackageUsersOffset)
  let processes ← read32 input (entry + kPackageProcessesOffset)
  match readString input stringOffset name, readString input stringOffset users,
      readString input stringOffset processes with
  | some package, some users, some processes =>
      match splitList users, splitList processes with
      | some users, some processes => return (package, users, processes)
      | _, _ => fail "invalid package strings"
  | _, _, _ => fail "invalid package strings"

/-- The flags of the package entry at `entry`. -/
def readPackageFlags (input : Bytes) (entry : Nat) : Read (FailureMode × MediaCompat × ProviderCompat) := do
  let failure ← read8 input (entry + kPackageFailureModeOffset)
  let media ← read8 input (entry + kPackageMediaCompatOffset)
  let provider ← read8 input (entry + kPackageProviderCompatOffset)
  let reserved ← read8 input (entry + 43)
  let reserved32 ← read32 input (entry + 44)
  match FailureMode.ofCode? failure, MediaCompat.ofCode? media, ProviderCompat.ofCode? provider with
  | some failure, some media, some provider =>
      if reserved ≠ 0 || reserved32 ≠ 0 then fail "invalid package flags"
      else return (failure, media, provider)
  | _, _, _ => fail "invalid package flags"

/-- The last checks of a package: its rules are canonical, in order, and hash to the stored generation. -/
def checkPackagePlan (encodedOrder : AppPolicy) (failureMode : FailureMode) (allowLegacyStringBind : Bool)
    (generation : UInt64) : Read AppPolicy :=
  match validatePolicy encodedOrder with
  | .error _ => fail "invalid canonical package plan"
  | .ok app =>
      if app.mounts.length ≠ encodedOrder.mounts.length || app.events.length ≠ encodedOrder.events.length then
        fail "invalid canonical package plan"
      else if !(app.mounts.zipWith sameMount encodedOrder.mounts).all id then fail "unordered mount table"
      else if !(app.events.zipWith sameEvent encodedOrder.events).all id then fail "unordered event table"
      else if planGeneration app failureMode allowLegacyStringBind ≠ generation then
        fail "invalid plan generation"
      else .ok app

/-- One round of the loop over the packages. -/
def decodePackage (input : Bytes) (header : PolicyHeader) (allowLegacyStringBind : Bool) (index : Nat)
    (state : DecodeState) : Read DecodeState := do
  let entry := header.packageOffset.toNat + index * kPackageSize
  let packageHash ← read32 input (entry + kPackageHashOffset)
  let (package, users, processes) ← readPackageStrings input header.stringOffset entry
  if packageNameHash package ≠ packageHash ||
      0 < index && (packageHash < state.previousHash ||
        packageHash = state.previousHash && package ≤ state.previousPackage) then
    fail "invalid package index"
  else
    let (failure, media, provider) ← readPackageFlags input entry
    if failure ≠ .kOpen || 0 < index && failure ≠ state.failureMode then fail "unsupported failure mode"
    else
      let firstMount ← read32 input (entry + kPackageFirstMountOffset)
      let appMountCount ← read32 input (entry + kPackageMountCountOffset)
      let firstEvent ← read32 input (entry + kPackageFirstEventOffset)
      let appEventCount ← read32 input (entry + kPackageEventCountOffset)
      if firstMount ≠ state.expectedFirstMount || header.mountCount - firstMount < appMountCount ||
          firstEvent ≠ state.expectedFirstEvent || header.eventCount - firstEvent < appEventCount then
        fail "invalid package rule range"
      else
        let mounts ← readRules (readMount input header.stringOffset) header.mountOffset.toNat kMountRuleSize
          firstMount appMountCount.toNat 0
        let events ← readRules (readEvent input header.stringOffset) header.eventOffset.toNat kEventRuleSize
          firstEvent appEventCount.toNat 0
        let generation ← read64 input (entry + kPackagePlanGenerationOffset)
        let app ← checkPackagePlan
          { package, users, processes, mounts, events, mediaCompat := media, providerCompat := provider }
          failure allowLegacyStringBind generation
        return {
          apps := state.apps ++ [app]
          previousHash := packageHash
          previousPackage := package
          expectedFirstMount := state.expectedFirstMount + appMountCount
          expectedFirstEvent := state.expectedFirstEvent + appEventCount
          failureMode := failure }

/-- The loop over the packages from `index` on. -/
def decodePackages (input : Bytes) (header : PolicyHeader) (allowLegacyStringBind : Bool) :
    Nat → Nat → DecodeState → Read DecodeState
  | 0, _, state => .ok state
  | count + 1, index, state => do
      let state ← decodePackage input header allowLegacyStringBind index state
      decodePackages input header allowLegacyStringBind count (index + 1) state

/-- `DecodePolicy`: the document and its content generation. -/
def decodePolicy (input : Bytes) : Read (PolicyDocument × UInt64) :=
  if input.length < kHeaderSize then .error (.rejected {})
  else do
    let header ← readHeader input
    let allowLegacyStringBind := header.headerFlags &&& kPolicyFlagAllowLegacyStringBind != 0
    let state ← decodePackages input header allowLegacyStringBind header.packageCount.toNat 0 {}
    if state.expectedFirstMount ≠ header.mountCount || state.expectedFirstEvent ≠ header.eventCount then
      fail "unreferenced policy rule"
    else
      let decoded : PolicyDocument :=
        { schema := kSchemaVersion.toNat, failureMode := state.failureMode, allowLegacyStringBind,
          apps := state.apps }
      let encodedGeneration ← read64 input kContentGenerationOffset
      if contentGeneration decoded ≠ encodedGeneration then fail "invalid content generation"
      else return (decoded, encodedGeneration)

end PathGuard

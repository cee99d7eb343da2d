import PathGuard.Lib.Checked
import PathGuard.Core.Corruption

/-!
# `DecodePolicy` stays inside its input

`DecodePolicy` once more, with every index and offset computed by arithmetic that stops where the machine's would wrap:
64 bits for the expected offsets, `std::uint32_t` for the counts and the places in the tables and in the string table,
`std::size_t`, of any width that is enough for the input, for the offsets of the rows. It never stops: on every input it
is the decoder that does not look, and no read leaves the input.

* `Safe` : a checked computation that never stops and is the plain one;
* `decodePolicyExact` : the decoder with checked arithmetic;
* `safe_readRules`, `safe_ruleRange`, `safe_decodePackage` : one lemma for each of its functions.
-/

namespace PathGuard

/-- A computation of the decoder that stops where an operation would wrap. -/
abbrev Exact := Except (Stop PolicyFailure)

def failExact {α : Type} (message : String) : Exact α := .error (.failed (.rejected ⟨0, message⟩))

/-! ## The decoder with checked arithmetic -/

/-- `ReadString`: the sum of the two offsets is one of `std::uint32_t`. -/
def readStringExact (input : Bytes) (stringOffset relativeOffset : UInt32) : Exact (Option Bytes) :=
  if input.length < stringOffset.toNat then return none
  else do
    let room ← exactly (checkedSub input.length stringOffset.toNat)
    if room ≤ relativeOffset.toNat then return none
    else
      let start ← exactly (checkedAdd 32 stringOffset.toNat relativeOffset.toNat)
      let tail := input.drop start
      return if tail.contains 0 then some (tail.takeWhile (· != 0)) else none

def readHeaderExact (input : Bytes) : Exact PolicyHeader := do
  let fileSize ← lifted (read32 input kFileSizeOffset)
  let checksum ← lifted (read32 input kPayloadChecksumOffset)
  let packageCount ← lifted (read32 input kPackageCountOffset)
  let mountCount ← lifted (read32 input kMountRuleCountOffset)
  let eventCount ← lifted (read32 input kEventRuleCountOffset)
  let packageOffset ← lifted (read32 input kPackageTableOffset)
  let mountOffset ← lifted (read32 input kMountRuleTableOffset)
  let eventOffset ← lifted (read32 input kEventRuleTableOffset)
  let stringOffset ← lifted (read32 input kStringTableOffset)
  let headerFlags ← lifted (read32 input kHeaderFlagsOffset)
  let magic ← lifted (read32 input 0)
  let formatVersion ← lifted (read16 input 4)
  let schemaVersion ← lifted (read16 input 6)
  let packageBytes ← exactly (checkedMul 64 packageCount.toNat kPackageSize)
  let expectedMountOffset ← exactly (checkedAdd 64 kHeaderSize packageBytes)
  let mountBytes ← exactly (checkedMul 64 mountCount.toNat kMountRuleSize)
  let expectedEventOffset ← exactly (checkedAdd 64 expectedMountOffset mountBytes)
  let eventBytes ← exactly (checkedMul 64 eventCount.toNat kEventRuleSize)
  let expectedStringOffset ← exactly (checkedAdd 64 expectedEventOffset eventBytes)
  if magic ≠ kMagic || formatVersion ≠ kFormatVersion || schemaVersion ≠ kSchemaVersion ||
      fileSize.toNat ≠ input.length || packageCount = 0 || packageOffset.toNat ≠ kHeaderSize ||
      mountOffset.toNat ≠ expectedMountOffset || eventOffset.toNat ≠ expectedEventOffset ||
      stringOffset.toNat ≠ expectedStringOffset || input.length ≤ stringOffset.toNat ||
      headerFlags &&& ~~~kPolicyFlagAllowLegacyStringBind ≠ 0 ||
      crc32 (input.drop kHeaderSize) ≠ checksum then
    failExact "invalid policy header or checksum"
  else
    return { packageCount, mountCount, eventCount, packageOffset, mountOffset, eventOffset, stringOffset,
             headerFlags }

def readMountExact (input : Bytes) (stringOffset : UInt32) (rule : Nat) : Exact LogicalMountRule := do
  let reserved ← lifted (read8 input (rule + 1))
  let reserved16 ← lifted (read16 input (rule + 6))
  let code ← lifted (read8 input (rule + kMountActionOffset))
  match MountAction.ofCode? code with
  | none => failExact "invalid mount action"
  | some action =>
      if reserved ≠ 0 || reserved16 ≠ 0 then failExact "invalid mount action"
      else
        let depth ← lifted (read16 input (rule + kMountDepthOffset))
        let flags ← lifted (read16 input (rule + kMountFlagsOffset))
        let visible ← lifted (read32 input (rule + kMountVisiblePathOffset))
        let backing ← lifted (read32 input (rule + kMountBackingPathOffset))
        let visiblePath ← readStringExact input stringOffset visible
        let backingPath ← readStringExact input stringOffset backing
        match visiblePath, backingPath with
        | some visiblePath, some backingPath => return { action, visiblePath, backingPath, depth, flags }
        | _, _ => failExact "invalid mount strings"

def readEventExact (input : Bytes) (stringOffset : UInt32) (rule : Nat) : Exact EventRule := do
  let reserved ← lifted (read8 input (rule + 1))
  let reserved16 ← lifted (read16 input (rule + 2))
  let code ← lifted (read8 input (rule + kEventActionOffset))
  match EventAction.ofCode? code with
  | none => failExact "invalid event action"
  | some action =>
      if reserved ≠ 0 || reserved16 ≠ 0 then failExact "invalid event action"
      else
        let options ← lifted (read32 input (rule + kEventOptionsOffset))
        let source ← lifted (read32 input (rule + kEventSourcePathOffset))
        let target ← lifted (read32 input (rule + kEventTargetPathOffset))
        let sourcePath ← readStringExact input stringOffset source
        let targetPath ← readStringExact input stringOffset target
        match sourcePath, targetPath with
        | some sourcePath, some targetPath => return { action, sourcePath, targetPath, options }
        | _, _ => failExact "invalid event strings"

/-- The loop over the rules of a package: `first + index` is a sum of `std::uint32_t`, the rest is `std::size_t`. -/
def readRulesExact {α : Type} (width : Nat) (read : Nat → Exact α) (tableOffset size : Nat) (first : UInt32) :
    Nat → Nat → Exact (List α)
  | 0, _ => return []
  | count + 1, index => do
      let row ← exactly (checkedAdd 32 first.toNat index)
      let rowBytes ← exactly (checkedMul width row size)
      let start ← exactly (checkedAdd width tableOffset rowBytes)
      let rule ← read start
      let next ← exactly (checkedAdd 32 index 1)
      let rules ← readRulesExact width read tableOffset size first count next
      return rule :: rules

def readPackageStringsExact (input : Bytes) (stringOffset : UInt32) (entry : Nat) :
    Exact (Bytes × List Bytes × List Bytes) := do
  let name ← lifted (read32 input (entry + kPackageNameOffset))
  let users ← lifted (read32 input (entry + kPackageUsersOffset))
  let processes ← lifted (read32 input (entry + kPackageProcessesOffset))
  let package ← readStringExact input stringOffset name
  let users ← readStringExact input stringOffset users
  let processes ← readStringExact input stringOffset processes
  match package, users, processes with
  | some package, some users, some processes =>
      match splitList users, splitList processes with
      | some users, some processes => return (package, users, processes)
      | _, _ => failExact "invalid package strings"
  | _, _, _ => failExact "invalid package strings"

def readPackageFlagsExact (input : Bytes) (entry : Nat) : Exact (FailureMode × MediaCompat × ProviderCompat) := do
  let failure ← lifted (read8 input (entry + kPackageFailureModeOffset))
  let media ← lifted (read8 input (entry + kPackageMediaCompatOffset))
  let provider ← lifted (read8 input (entry + kPackageProviderCompatOffset))
  let reserved ← lifted (read8 input (entry + 43))
  let reserved32 ← lifted (read32 input (entry + 44))
  match FailureMode.ofCode? failure, MediaCompat.ofCode? media, ProviderCompat.ofCode? provider with
  | some failure, some media, some provider =>
      if reserved ≠ 0 || reserved32 ≠ 0 then failExact "invalid package flags"
      else return (failure, media, provider)
  | _, _, _ => failExact "invalid package flags"

def decodePackageExact (width : Nat) (input : Bytes) (header : PolicyHeader) (allowLegacyStringBind : Bool)
    (index : Nat) (state : DecodeState) : Exact DecodeState := do
  let rowBytes ← exactly (checkedMul width index kPackageSize)
  let entry ← exactly (checkedAdd width header.packageOffset.toNat rowBytes)
  let packageHash ← lifted (read32 input (entry + kPackageHashOffset))
  let (package, users, processes) ← readPackageStringsExact input header.stringOffset entry
  if packageNameHash package ≠ packageHash ||
      0 < index && (packageHash < state.previousHash ||
        packageHash = state.previousHash && package ≤ state.previousPackage) then
    failExact "invalid package index"
  else
    let (failure, media, provider) ← readPackageFlagsExact input entry
    if failure ≠ .kOpen || 0 < index && failure ≠ state.failureMode then failExact "unsupported failure mode"
    else
      let firstMount ← lifted (read32 input (entry + kPackageFirstMountOffset))
      let appMountCount ← lifted (read32 input (entry + kPackageMountCountOffset))
      let firstEvent ← lifted (read32 input (entry + kPackageFirstEventOffset))
      let appEventCount ← lifted (read32 input (entry + kPackageEventCountOffset))
      if firstMount ≠ state.expectedFirstMount then failExact "invalid package rule range"
      else
        let mountRoom ← exactly (checkedSub header.mountCount.toNat firstMount.toNat)
        if mountRoom < appMountCount.toNat || firstEvent ≠ state.expectedFirstEvent then
          failExact "invalid package rule range"
        else
          let eventRoom ← exactly (checkedSub header.eventCount.toNat firstEvent.toNat)
          if eventRoom < appEventCount.toNat then failExact "invalid package rule range"
          else
            let expectedFirstMount ← exactly (checkedAdd 32 state.expectedFirstMount.toNat appMountCount.toNat)
            let expectedFirstEvent ← exactly (checkedAdd 32 state.expectedFirstEvent.toNat appEventCount.toNat)
            let mounts ← readRulesExact width (readMountExact input header.stringOffset) header.mountOffset.toNat
              kMountRuleSize firstMount appMountCount.toNat 0
            let events ← readRulesExact width (readEventExact input header.stringOffset) header.eventOffset.toNat
              kEventRuleSize firstEvent appEventCount.toNat 0
            let generation ← lifted (read64 input (entry + kPackagePlanGenerationOffset))
            let app ← lifted (checkPackagePlan
              { package, users, processes, mounts, events, mediaCompat := media, providerCompat := provider }
              failure allowLegacyStringBind generation)
            return {
              apps := state.apps ++ [app]
              previousHash := packageHash
              previousPackage := package
              expectedFirstMount := UInt32.ofNat expectedFirstMount
              expectedFirstEvent := UInt32.ofNat expectedFirstEvent
              failureMode := failure }

def decodePackagesExact (width : Nat) (input : Bytes) (header : PolicyHeader) (allowLegacyStringBind : Bool) :
    Nat → Nat → DecodeState → Exact DecodeState
  | 0, _, state => return state
  | count + 1, index, state => do
      let state ← decodePackageExact width input header allowLegacyStringBind index state
      let next ← exactly (checkedAdd 32 index 1)
      decodePackagesExact width input header allowLegacyStringBind count next state

def decodePolicyExact (width : Nat) (input : Bytes) : Exact (PolicyDocument × UInt64) :=
  if input.length < kHeaderSize then .error (.failed (.rejected {}))
  else do
    let header ← readHeaderExact input
    let allowLegacyStringBind := header.headerFlags &&& kPolicyFlagAllowLegacyStringBind != 0
    let state ← decodePackagesExact width input header allowLegacyStringBind header.packageCount.toNat 0 {}
    if state.expectedFirstMount ≠ header.mountCount || state.expectedFirstEvent ≠ header.eventCount then
      failExact "unreferenced policy rule"
    else
      let decoded : PolicyDocument :=
        { schema := kSchemaVersion.toNat, failureMode := state.failureMode, allowLegacyStringBind,
          apps := state.apps }
      let encodedGeneration ← lifted (read64 input kContentGenerationOffset)
      if contentGeneration decoded ≠ encodedGeneration then failExact "invalid content generation"
      else return (decoded, encodedGeneration)

/-! ## Reads inside the input -/

/-- Nothing wraps, and no read leaves the input. -/
abbrev Safe {α : Type} (checked : Exact α) (plain : Read α) : Prop := Agrees .outOfBounds checked plain

variable {input : Bytes} {offset : Nat}

theorem safe_fail {α : Type} (message : String) : Safe (failExact message : Exact α) (fail message) :=
  Agrees.error PolicyFailure.noConfusion

theorem safe_readLE {α : Type} {width : Nat} (f : Nat → α) (h : offset + width ≤ input.length) :
    Safe (lifted (f <$> readLE input offset width)) (f <$> readLE input offset width) := by
  refine Agrees.lift ?_
  rw [readLE, if_pos h]
  exact fun hfail => by cases hfail

theorem safe_read16 (h : offset + 2 ≤ input.length) : Safe (lifted (read16 input offset)) (read16 input offset) :=
  safe_readLE _ h

theorem safe_read32 (h : offset + 4 ≤ input.length) : Safe (lifted (read32 input offset)) (read32 input offset) :=
  safe_readLE _ h

theorem safe_read64 (h : offset + 8 ≤ input.length) : Safe (lifted (read64 input offset)) (read64 input offset) :=
  safe_readLE _ h

theorem safe_read8 (h : offset < input.length) : Safe (lifted (read8 input offset)) (read8 input offset) := by
  refine Agrees.lift ?_
  rw [read8, List.getElem?_eq_getElem h]
  exact fun hfail => by cases hfail

theorem readStringExact_eq (hsize : input.length < 2 ^ 32) (stringOffset relativeOffset : UInt32) :
    readStringExact input stringOffset relativeOffset = .ok (readString input stringOffset relativeOffset) := by
  unfold readStringExact readString
  by_cases hstring : input.length < stringOffset.toNat
  · rw [if_pos hstring, if_pos (by simp [hstring])]
    rfl
  · rw [if_neg hstring, checkedSub_of_le (not_lt.mp hstring)]
    show (if input.length - stringOffset.toNat ≤ relativeOffset.toNat then _ else _) = _
    by_cases hrelative : input.length - stringOffset.toNat ≤ relativeOffset.toNat
    · rw [if_pos hrelative, if_pos (by simp [hrelative])]
      rfl
    · rw [if_neg hrelative, if_neg (by simp [hstring, hrelative]), checkedAdd_of_lt (by omega)]
      rfl

/-! ## The header -/

theorem safe_readHeader (h : kHeaderSize ≤ input.length) : Safe (readHeaderExact input) (readHeader input) := by
  have hheader : kHeaderSize = 56 := rfl
  have hread : ∀ offset, offset + 4 ≤ kHeaderSize → Safe (lifted (read32 input offset)) (read32 input offset) :=
    fun offset hoffset => safe_read32 (by omega)
  have hread16 : ∀ offset, offset + 2 ≤ kHeaderSize → Safe (lifted (read16 input offset)) (read16 input offset) :=
    fun offset hoffset => safe_read16 (by omega)
  refine (hread _ (by decide)).bind fun fileSize _ => (hread _ (by decide)).bind fun checksum _ => ?_
  refine (hread _ (by decide)).bind fun packageCount _ => (hread _ (by decide)).bind fun mountCount _ => ?_
  refine (hread _ (by decide)).bind fun eventCount _ => (hread _ (by decide)).bind fun packageOffset _ => ?_
  refine (hread _ (by decide)).bind fun mountOffset _ => (hread _ (by decide)).bind fun eventOffset _ => ?_
  refine (hread _ (by decide)).bind fun stringOffset _ => (hread _ (by decide)).bind fun headerFlags _ => ?_
  refine (hread _ (by decide)).bind fun magic _ => (hread16 _ (by decide)).bind fun formatVersion _ => ?_
  refine (hread16 _ (by decide)).bind fun schemaVersion _ => ?_
  -- three products of 32 bits with the sizes of the rows
  have hpackages := Nat.mul_le_mul_right kPackageSize (Nat.le_of_lt packageCount.toNat_lt)
  have hmounts := Nat.mul_le_mul_right kMountRuleSize (Nat.le_of_lt mountCount.toNat_lt)
  have hevents := Nat.mul_le_mul_right kEventRuleSize (Nat.le_of_lt eventCount.toNat_lt)
  have hpackageSize : kPackageSize = 48 := rfl
  have hmountSize : kMountRuleSize = 16 := rfl
  have heventSize : kEventRuleSize = 16 := rfl
  refine Agrees.step (checkedMul_of_lt (by omega)) (Agrees.step (checkedAdd_of_lt (by omega)) ?_)
  refine Agrees.step (checkedMul_of_lt (by omega)) (Agrees.step (checkedAdd_of_lt (by omega)) ?_)
  refine Agrees.step (checkedMul_of_lt (by omega)) (Agrees.step (checkedAdd_of_lt (by omega)) ?_)
  exact Agrees.ite (fun _ => safe_fail _) fun _ => Agrees.pure _

/-! ## Rows -/

theorem safe_readMount (hsize : input.length < 2 ^ 32) (stringOffset : UInt32) {rule : Nat}
    (h : rule + kMountRuleSize ≤ input.length) :
    Safe (readMountExact input stringOffset rule) (readMount input stringOffset rule) := by
  have hmountSize : kMountRuleSize = 16 := rfl
  rw [hmountSize] at h
  have hread : ∀ offset, offset + 4 ≤ 16 → Safe (lifted (read32 input (rule + offset))) (read32 input (rule + offset)) :=
    fun offset hoffset => safe_read32 (by omega)
  have hread16 : ∀ offset, offset + 2 ≤ 16 →
      Safe (lifted (read16 input (rule + offset))) (read16 input (rule + offset)) :=
    fun offset hoffset => safe_read16 (by omega)
  have hread8 : ∀ offset, offset < 16 → Safe (lifted (read8 input (rule + offset))) (read8 input (rule + offset)) :=
    fun offset hoffset => safe_read8 (by omega)
  unfold readMountExact readMount
  refine (hread8 _ (by decide)).bind fun reserved _ => (hread16 _ (by decide)).bind fun reserved16 _ => ?_
  refine (hread8 _ (by decide)).bind fun code _ => ?_
  cases MountAction.ofCode? code with
  | none => exact safe_fail _
  | some action =>
      refine Agrees.ite (fun _ => safe_fail _) fun _ => ?_
      refine (hread16 _ (by decide)).bind fun depth _ => (hread16 _ (by decide)).bind fun flags _ => ?_
      refine (hread _ (by decide)).bind fun visible _ => (hread _ (by decide)).bind fun backing _ => ?_
      rw [readStringExact_eq hsize, readStringExact_eq hsize, ok_bind, ok_bind]
      cases readString input stringOffset visible with
      | none => exact safe_fail _
      | some visiblePath =>
          cases readString input stringOffset backing with
          | none => exact safe_fail _
          | some backingPath => exact Agrees.pure _

theorem safe_readEvent (hsize : input.length < 2 ^ 32) (stringOffset : UInt32) {rule : Nat}
    (h : rule + kEventRuleSize ≤ input.length) :
    Safe (readEventExact input stringOffset rule) (readEvent input stringOffset rule) := by
  have heventSize : kEventRuleSize = 16 := rfl
  rw [heventSize] at h
  have hread : ∀ offset, offset + 4 ≤ 16 → Safe (lifted (read32 input (rule + offset))) (read32 input (rule + offset)) :=
    fun offset hoffset => safe_read32 (by omega)
  unfold readEventExact readEvent
  refine (safe_read8 (by omega)).bind fun reserved _ => (safe_read16 (by omega)).bind fun reserved16 _ => ?_
  refine (safe_read8 (show rule + 0 < input.length by omega)).bind fun code _ => ?_
  cases EventAction.ofCode? code with
  | none => exact safe_fail _
  | some action =>
      refine Agrees.ite (fun _ => safe_fail _) fun _ => ?_
      refine (hread _ (by decide)).bind fun options _ => (hread _ (by decide)).bind fun source _ => ?_
      refine (hread _ (by decide)).bind fun target _ => ?_
      rw [readStringExact_eq hsize, readStringExact_eq hsize, ok_bind, ok_bind]
      cases readString input stringOffset source with
      | none => exact safe_fail _
      | some sourcePath =>
          cases readString input stringOffset target with
          | none => exact safe_fail _
          | some targetPath => exact Agrees.pure _

theorem safe_readRules {α : Type} {width tableOffset size rows : Nat} {first : UInt32} {read : Nat → Exact α}
    {read' : Nat → Read α} (hread : ∀ row < rows, Safe (read (tableOffset + row * size)) (read' (tableOffset + row * size)))
    (hrows : rows < 2 ^ 32) (hbytes : tableOffset + rows * size < 2 ^ width) {count index : Nat}
    (hindex : first.toNat + index + count ≤ rows) :
    Safe (readRulesExact width read tableOffset size first count index)
      (readRules read' tableOffset size first count index) := by
  induction count generalizing index with
  | zero => exact Agrees.pure _
  | succ count ih =>
      have hrow : (first + UInt32.ofNat index).toNat = first.toNat + index := by
        rw [UInt32.toNat_add, UInt32.toNat_ofNat_of_lt' (show index < 2 ^ 32 by omega), Nat.mod_eq_of_lt (by omega)]
      have hinside : (first.toNat + index) * size ≤ rows * size := Nat.mul_le_mul_right size (by omega)
      rw [readRulesExact, readRules, hrow]
      refine Agrees.step (checkedAdd_of_lt (by omega)) (Agrees.step (checkedMul_of_lt (by omega)) ?_)
      refine Agrees.step (checkedAdd_of_lt (by omega)) ?_
      refine (hread _ (by omega)).bind fun rule _ => ?_
      refine Agrees.step (checkedAdd_of_lt (by omega)) ?_
      exact (ih (by omega)).bind fun rules _ => Agrees.pure _

theorem safe_readPackageStrings (hsize : input.length < 2 ^ 32) (stringOffset : UInt32) {entry : Nat}
    (h : entry + kPackageSize ≤ input.length) :
    Safe (readPackageStringsExact input stringOffset entry) (readPackageStrings input stringOffset entry) := by
  have hpackageSize : kPackageSize = 48 := rfl
  rw [hpackageSize] at h
  have hread : ∀ offset, offset + 4 ≤ 48 → Safe (lifted (read32 input (entry + offset))) (read32 input (entry + offset)) :=
    fun offset hoffset => safe_read32 (by omega)
  unfold readPackageStringsExact readPackageStrings
  refine (hread _ (by decide)).bind fun name _ => (hread _ (by decide)).bind fun users _ => ?_
  refine (hread _ (by decide)).bind fun processes _ => ?_
  rw [readStringExact_eq hsize, readStringExact_eq hsize, readStringExact_eq hsize, ok_bind, ok_bind, ok_bind]
  cases readString input stringOffset name with
  | none => exact safe_fail _
  | some package =>
      cases readString input stringOffset users with
      | none => exact safe_fail _
      | some users =>
          cases readString input stringOffset processes with
          | none => exact safe_fail _
          | some processes =>
              dsimp only
              cases splitList users with
              | none => exact safe_fail _
              | some users =>
                  cases splitList processes with
                  | none => exact safe_fail _
                  | some processes => exact Agrees.pure _

theorem safe_readPackageFlags {entry : Nat} (h : entry + kPackageSize ≤ input.length) :
    Safe (readPackageFlagsExact input entry) (readPackageFlags input entry) := by
  have hpackageSize : kPackageSize = 48 := rfl
  rw [hpackageSize] at h
  have hread8 : ∀ offset, offset < 48 → Safe (lifted (read8 input (entry + offset))) (read8 input (entry + offset)) :=
    fun offset hoffset => safe_read8 (by omega)
  unfold readPackageFlagsExact readPackageFlags
  refine (hread8 _ (by decide)).bind fun failure _ => (hread8 _ (by decide)).bind fun media _ => ?_
  refine (hread8 _ (by decide)).bind fun provider _ => (hread8 _ (by decide)).bind fun reserved _ => ?_
  refine (safe_read32 (by omega)).bind fun reserved32 _ => ?_
  cases FailureMode.ofCode? failure with
  | none => exact safe_fail _
  | some failure =>
      cases MediaCompat.ofCode? media with
      | none => exact safe_fail _
      | some media =>
          cases ProviderCompat.ofCode? provider with
          | none => exact safe_fail _
          | some provider => exact Agrees.ite (fun _ => safe_fail _) fun _ => Agrees.pure _

/-! ## Packages -/

theorem sub_lt_iff {a b c : UInt32} (h : b ≤ a) : a - b < c ↔ a.toNat - b.toNat < c.toNat := by
  rw [UInt32.lt_iff_toNat_lt, UInt32.toNat_sub_of_le _ _ h]

/-- Where the tables of an accepted header lie. -/
structure TablesInside (input : Bytes) (header : PolicyHeader) : Prop where
  accepted : HeaderAccepted input header
  strings : header.stringOffset.toNat < input.length

namespace TablesInside
variable {header : PolicyHeader}

theorem length_lt (h : TablesInside input header) : input.length < 2 ^ 32 := by
  obtain ⟨fileSize, -, hsize⟩ := h.accepted.fileSize
  rw [← hsize]
  exact fileSize.toNat_lt

theorem package (h : TablesInside input header) {index : Nat} (hindex : index < header.packageCount.toNat) :
    header.packageOffset.toNat + index * kPackageSize + kPackageSize ≤ input.length := by
  have hpackage := h.accepted.packageOffset
  have hmount := h.accepted.mountOffset
  have hevent := h.accepted.eventOffset
  have hstring := h.accepted.stringOffset
  have hinside := h.strings
  have hle : (index + 1) * kPackageSize ≤ header.packageCount.toNat * kPackageSize := Nat.mul_le_mul_right _ hindex
  rw [Nat.add_mul, Nat.one_mul] at hle
  omega

theorem mount (h : TablesInside input header) {row : Nat} (hrow : row < header.mountCount.toNat) :
    header.mountOffset.toNat + row * kMountRuleSize + kMountRuleSize ≤ input.length := by
  have hevent := h.accepted.eventOffset
  have hstring := h.accepted.stringOffset
  have hinside := h.strings
  have hle : (row + 1) * kMountRuleSize ≤ header.mountCount.toNat * kMountRuleSize := Nat.mul_le_mul_right _ hrow
  rw [Nat.add_mul, Nat.one_mul] at hle
  omega

theorem event (h : TablesInside input header) {row : Nat} (hrow : row < header.eventCount.toNat) :
    header.eventOffset.toNat + row * kEventRuleSize + kEventRuleSize ≤ input.length := by
  have hstring := h.accepted.stringOffset
  have hinside := h.strings
  have hle : (row + 1) * kEventRuleSize ≤ header.eventCount.toNat * kEventRuleSize := Nat.mul_le_mul_right _ hrow
  rw [Nat.add_mul, Nat.one_mul] at hle
  omega

end TablesInside

/-- The rows that the packages before have taken. -/
structure RowsLeft (header : PolicyHeader) (state : DecodeState) : Prop where
  mounts : state.expectedFirstMount ≤ header.mountCount
  events : state.expectedFirstEvent ≤ header.eventCount

section Packages
variable {header : PolicyHeader} {state : DecodeState} {width index : Nat} {legacy : Bool}

/-- The check of the rule ranges: what is left of a table is computed once the range is known to start inside it. -/
theorem safe_ruleRange {α : Type} {firstMount appMountCount firstEvent appEventCount : UInt32}
    (hleft : RowsLeft header state) {next : Exact α} {next' : Read α}
    (h : firstMount = state.expectedFirstMount → firstEvent = state.expectedFirstEvent →
      firstMount.toNat + appMountCount.toNat ≤ header.mountCount.toNat →
      firstEvent.toNat + appEventCount.toNat ≤ header.eventCount.toNat → Safe next next') :
    Safe (if firstMount ≠ state.expectedFirstMount then failExact "invalid package rule range"
      else do
        let mountRoom ← exactly (checkedSub header.mountCount.toNat firstMount.toNat)
        if mountRoom < appMountCount.toNat || firstEvent ≠ state.expectedFirstEvent then
          failExact "invalid package rule range"
        else
          let eventRoom ← exactly (checkedSub header.eventCount.toNat firstEvent.toNat)
          if eventRoom < appEventCount.toNat then failExact "invalid package rule range" else next)
      (if firstMount ≠ state.expectedFirstMount || header.mountCount - firstMount < appMountCount ||
          firstEvent ≠ state.expectedFirstEvent || header.eventCount - firstEvent < appEventCount then
        fail "invalid package rule range"
      else next') := by
  by_cases hfirstMount : firstMount = state.expectedFirstMount
  swap
  · rw [if_pos hfirstMount, if_pos (by simp [hfirstMount])]
    exact safe_fail _
  have hmounts : firstMount ≤ header.mountCount := hfirstMount ▸ hleft.mounts
  rw [if_neg (not_not.mpr hfirstMount)]
  refine Agrees.step (checkedSub_of_le (UInt32.le_iff_toNat_le.mp hmounts)) ?_
  by_cases hmountRoom : header.mountCount.toNat - firstMount.toNat < appMountCount.toNat
  · rw [if_pos (by simp [hmountRoom]), if_pos (by simp [sub_lt_iff hmounts, hmountRoom])]
    exact safe_fail _
  by_cases hfirstEvent : firstEvent = state.expectedFirstEvent
  swap
  · rw [if_pos (by simp [hfirstEvent]), if_pos (by simp [hfirstEvent])]
    exact safe_fail _
  have hevents : firstEvent ≤ header.eventCount := hfirstEvent ▸ hleft.events
  rw [if_neg (by simp [hmountRoom, hfirstEvent])]
  refine Agrees.step (checkedSub_of_le (UInt32.le_iff_toNat_le.mp hevents)) ?_
  by_cases heventRoom : header.eventCount.toNat - firstEvent.toNat < appEventCount.toNat
  · rw [if_pos heventRoom, if_pos (by simp [sub_lt_iff hevents, heventRoom])]
    exact safe_fail _
  have hrange : ¬ (firstMount ≠ state.expectedFirstMount || header.mountCount - firstMount < appMountCount ||
      firstEvent ≠ state.expectedFirstEvent || header.eventCount - firstEvent < appEventCount) = true := by
    simp only [Bool.or_eq_true, decide_eq_true_eq, not_or, sub_lt_iff hmounts, sub_lt_iff hevents]
    exact ⟨⟨⟨not_not.mpr hfirstMount, hmountRoom⟩, not_not.mpr hfirstEvent⟩, heventRoom⟩
  have hmounts' := UInt32.le_iff_toNat_le.mp hmounts
  have hevents' := UInt32.le_iff_toNat_le.mp hevents
  rw [if_neg heventRoom, if_neg hrange]
  exact h hfirstMount hfirstEvent (by omega) (by omega)

theorem safe_decodePackage (h : TablesInside input header) (hwidth : input.length < 2 ^ width)
    (hindex : index < header.packageCount.toNat) (hleft : RowsLeft header state) :
    Safe (decodePackageExact width input header legacy index state)
      (decodePackage input header legacy index state) := by
  have hpackageSize : kPackageSize = 48 := rfl
  have hsize := h.length_lt
  have hentry := h.package hindex
  set entry := header.packageOffset.toNat + index * kPackageSize with hentryDef
  have hread : ∀ offset, offset + 4 ≤ 48 → Safe (lifted (read32 input (entry + offset))) (read32 input (entry + offset)) :=
    fun offset hoffset => safe_read32 (by omega)
  unfold decodePackageExact decodePackage
  refine Agrees.step (checkedMul_of_lt (by omega)) (Agrees.step (checkedAdd_of_lt (by omega)) ?_)
  rw [← hentryDef]
  refine (hread _ (by decide)).bind fun packageHash _ => ?_
  refine (safe_readPackageStrings hsize _ hentry).bind fun strings _ => ?_
  obtain ⟨package, users, processes⟩ := strings
  refine Agrees.ite (fun _ => safe_fail _) fun _ => ?_
  refine (safe_readPackageFlags hentry).bind fun flags _ => ?_
  obtain ⟨failure, media, provider⟩ := flags
  refine Agrees.ite (fun _ => safe_fail _) fun _ => ?_
  refine (hread _ (by decide)).bind fun firstMount _ => (hread _ (by decide)).bind fun appMountCount _ => ?_
  refine (hread _ (by decide)).bind fun firstEvent _ => (hread _ (by decide)).bind fun appEventCount _ => ?_
  refine safe_ruleRange hleft fun hfirstMount hfirstEvent hmountRoom heventRoom => ?_
  -- the counts of the package are within what is left of the tables
  have hmountCount := header.mountCount.toNat_lt
  have heventCount := header.eventCount.toNat_lt
  rw [← hfirstMount, ← hfirstEvent]
  refine Agrees.step (checkedAdd_of_lt (by omega)) (Agrees.step (checkedAdd_of_lt (by omega)) ?_)
  have heventOffset := h.accepted.eventOffset
  have hstringOffset := h.accepted.stringOffset
  have hstrings := h.strings
  refine (safe_readRules (fun row hrow => safe_readMount hsize _ (h.mount hrow)) hmountCount (by omega)
    hmountRoom).bind fun mounts _ => ?_
  refine (safe_readRules (fun row hrow => safe_readEvent hsize _ (h.event hrow)) heventCount (by omega)
    heventRoom).bind fun events _ => ?_
  refine (safe_read64 (show entry + 32 + 8 ≤ input.length by omega)).bind fun generation _ => ?_
  refine (Agrees.lift (checkPackagePlan_ne_outOfBounds _ _ _ _)).bind fun app _ => ?_
  rw [UInt32.ofNat_add, UInt32.ofNat_add, UInt32.ofNat_toNat, UInt32.ofNat_toNat, UInt32.ofNat_toNat, UInt32.ofNat_toNat]
  exact Agrees.pure _

end Packages

end PathGuard

import PathGuard.Lib.Checksum
import PathGuard.Core.RoundTrip

/-!
# Corrupted policy files

`DecodePolicy` rejects every file that differs from an accepted one in one byte of the header, or in some of four
consecutive bytes of the payload. The payload is under a CRC-32, which tells any two inputs apart that differ within
one register's width. Each field of the header is fixed by the rest of the file: by a constant, by the length, by the
payload, by another field, or by a generation the decoder computes again.

* `eq_of_crc32_eq` : a CRC-32 detects a burst;
* `HeaderAccepted` : what the header of an accepted file is;
* `decodePolicy_headerByteChanged`, `decodePolicy_payloadBurst` : no byte of the header, and no burst of the payload;
* `decodePolicy_corrupted` : the same of every file that was encoded.
-/

namespace PathGuard

/-! ## CRC-32 -/

theorem crc32Bit_toBitVec (crc : UInt32) : (crc32Bit crc).toBitVec = feedback 0xedb88320#32 crc.toBitVec := by
  have hlow : (crc &&& 1).toBitVec = BitVec.setWidth 32 (BitVec.ofBool (crc.toBitVec.getLsbD 0)) := by
    rw [UInt32.toBitVec_and]
    exact BitVec.and_one_eq_setWidth_ofBool_getLsbD
  unfold crc32Bit feedback
  cases hbit : crc.toBitVec.getLsbD 0
  · have hzero : crc &&& 1 = 0 := UInt32.toBitVec_inj.mp (by rw [hlow, hbit]; rfl)
    simp [hzero]
  · have hone : crc &&& 1 = 1 := UInt32.toBitVec_inj.mp (by rw [hlow, hbit]; rfl)
    simp [hone]

def crc32Step (crc : UInt32) (byte : UInt8) : UInt32 := crc32Bit^[8] (crc ^^^ byte.toUInt32)

theorem crc32Step_toBitVec (crc : UInt32) (byte : UInt8) :
    (crc32Step crc byte).toBitVec = shiftIn 0xedb88320#32 crc.toBitVec byte.toBitVec := by
  have hiterate : ∀ k crc, (crc32Bit^[k] crc).toBitVec = (feedback 0xedb88320#32)^[k] crc.toBitVec := by
    intro k
    induction k with
    | zero => exact fun _ => rfl
    | succ k ih =>
        intro crc
        rw [Function.iterate_succ_apply, ih, crc32Bit_toBitVec]
        rfl
  rw [crc32Step, hiterate, shiftIn]
  rfl

theorem foldl_crc32Step_toBitVec (data : Bytes) (crc : UInt32) :
    (data.foldl crc32Step crc).toBitVec =
      (data.map UInt8.toBitVec).foldl (shiftIn 0xedb88320#32) crc.toBitVec := by
  induction data generalizing crc with
  | nil => rfl
  | cons byte data ih => rw [List.foldl_cons, ih, crc32Step_toBitVec]; rfl

theorem crc32_eq (data : Bytes) : crc32 data = data.foldl crc32Step kCrc32Initial ^^^ kCrc32XorOut := rfl

/-- **CRC-32 detects a burst.** Two inputs that differ in at most four consecutive bytes have different checksums. -/
theorem eq_of_crc32_eq {before burst burst' after : Bytes} (hlength : burst.length = burst'.length)
    (hshort : burst.length ≤ 4) (h : crc32 (before ++ burst ++ after) = crc32 (before ++ burst' ++ after)) :
    burst = burst' := by
  have hpoly : (0xedb88320#32).msb = true := rfl
  rw [crc32_eq, crc32_eq, UInt32.xor_left_inj] at h
  have hfold := congrArg UInt32.toBitVec h
  simp only [foldl_crc32Step_toBitVec, List.foldl_append] at hfold
  have hmiddle := foldl_injective (shiftIn_injective hpoly) _ hfold
  have heq := (eq_of_foldl_shiftIn hpoly (by simpa using hlength) (by rw [List.length_map]; omega) hmiddle).2 rfl
  exact List.map_injective_iff.mpr (fun a b hab => UInt8.toBitVec_inj.mp hab) heq

/-! ## FNV-1a -/

theorem fnv1a64_injective_set {before after : Bytes} {b c : UInt8}
    (h : fnv1a64 (before ++ b :: after) = fnv1a64 (before ++ c :: after)) : b = c := by
  have hodd : ∀ x y : UInt64, x * 1099511628211 = y * 1099511628211 → x = y := by
    intro x y hxy
    have hinv : (1099511628211 : UInt64) * 14886173955864302971 = 1 := by decide
    rw [← UInt64.mul_one x, ← UInt64.mul_one y, ← hinv, ← UInt64.mul_assoc, ← UInt64.mul_assoc, hxy]
  refine eq_of_foldl_set (fun byte s t hst => ?_) (fun s byte byte' hbyte => ?_) h
  · exact UInt64.xor_left_inj _ |>.mp (hodd _ _ hst)
  · exact UInt8.toUInt64_inj.mp (UInt64.xor_right_inj _ |>.mp (hodd _ _ hbyte))

/-- The plan generation tells the two values of the legacy flag apart. -/
theorem planGeneration_legacy_inj {policy : AppPolicy} {failureMode : FailureMode} {legacy legacy' : Bool}
    (h : planGeneration policy failureMode legacy = planGeneration policy failureMode legacy') : legacy = legacy' := by
  have hsplit : ∃ before after, ∀ flag, canonicalPlan policy failureMode flag = before ++ flag8 flag :: after := by
    refine ⟨ascii "PGPL5" ++ [0, failureMode.code, policy.mediaCompat.code, policy.providerCompat.code], ?_,
      fun flag => ?_⟩
    swap
    simp only [canonicalPlan, put8, List.append_assoc, List.cons_append, List.nil_append]
    rfl
  obtain ⟨before, after, hsplit⟩ := hsplit
  rw [planGeneration, planGeneration, hsplit, hsplit] at h
  have hflag := fnv1a64_injective_set h
  revert hflag
  cases legacy <;> cases legacy' <;> decide

/-! ## Bytes of the header -/

section Header
variable {input : Bytes} {i offset width : Nat} {value : UInt8}

theorem readLE_set_of_outside (h : i < offset ∨ offset + width ≤ i) :
    readLE (input.set i value) offset width = readLE input offset width := by
  have hslice : ((input.set i value).drop offset).take width = (input.drop offset).take width := by
    rcases h with h | h
    · rw [List.drop_set_of_lt h]
    · rw [List.drop_set, if_neg (by omega), List.take_set_of_le (by omega)]
  rw [readLE, readLE, List.length_set, hslice]

theorem eq_of_readLE_set {α : Type} {f : Nat → α} (hf : ∀ x y, x < 256 ^ width → y < 256 ^ width → f x = f y → x = y)
    (hlow : offset ≤ i) (hhigh : i < offset + width) {x : α} (h : f <$> readLE input offset width = .ok x)
    (h' : f <$> readLE (input.set i value) offset width = .ok x) : input[i]? = some value := by
  unfold readLE at h h'
  rw [List.length_set] at h'
  split at h
  · next hlength =>
    rw [if_pos hlength] at h'
    have hsize : ((input.drop offset).take width).length = width := by
      rw [List.length_take, List.length_drop]
      omega
    have hsize' : (((input.set i value).drop offset).take width).length = width := by
      rw [List.length_take, List.length_drop, List.length_set]
      omega
    have hlt := leValue_lt ((input.drop offset).take width)
    have hlt' := leValue_lt (((input.set i value).drop offset).take width)
    rw [hsize] at hlt
    rw [hsize'] at hlt'
    have hvalues := hf _ _ hlt hlt' (Except.ok.inj (h.trans h'.symm))
    have hslices := leValue_injOn (hsize.trans hsize'.symm) hvalues
    have hat := congrArg (fun l => l[i - offset]?) hslices
    simp only [List.getElem?_take, List.getElem?_drop] at hat
    rw [if_pos (by omega), if_pos (by omega), Nat.add_sub_cancel' hlow, List.getElem?_set_self (by omega)] at hat
    exact hat
  · cases h

theorem eq_of_read16_set (hlow : offset ≤ i) (hhigh : i < offset + 2) {x : UInt16} (h : read16 input offset = .ok x)
    (h' : read16 (input.set i value) offset = .ok x) : input[i]? = some value := by
  refine eq_of_readLE_set (fun a b ha hb hab => ?_) hlow hhigh h h'
  rw [← UInt16.toNat_inj, UInt16.toNat_ofNat_of_lt' ha, UInt16.toNat_ofNat_of_lt' hb] at hab
  exact hab

theorem eq_of_read32_set (hlow : offset ≤ i) (hhigh : i < offset + 4) {x : UInt32} (h : read32 input offset = .ok x)
    (h' : read32 (input.set i value) offset = .ok x) : input[i]? = some value := by
  refine eq_of_readLE_set (fun a b ha hb hab => ?_) hlow hhigh h h'
  rw [← UInt32.toNat_inj, UInt32.toNat_ofNat_of_lt' ha, UInt32.toNat_ofNat_of_lt' hb] at hab
  exact hab

theorem eq_of_read64_set (hlow : offset ≤ i) (hhigh : i < offset + 8) {x : UInt64} (h : read64 input offset = .ok x)
    (h' : read64 (input.set i value) offset = .ok x) : input[i]? = some value := by
  refine eq_of_readLE_set (fun a b ha hb hab => ?_) hlow hhigh h h'
  rw [← UInt64.toNat_inj, UInt64.toNat_ofNat_of_lt' ha, UInt64.toNat_ofNat_of_lt' hb] at hab
  exact hab

theorem read32_set_of_outside (h : i < offset ∨ offset + 4 ≤ i) :
    read32 (input.set i value) offset = read32 input offset := by
  rw [read32, read32, readLE_set_of_outside h]

end Header

/-! ## Reads of the payload -/

/-- The same bytes after the header. -/
structure SamePayload (a b : Bytes) : Prop where
  length : a.length = b.length
  drop : a.drop kHeaderSize = b.drop kHeaderSize

namespace SamePayload
variable {a b : Bytes} (h : SamePayload a b)
include h

theorem drop_eq {offset : Nat} (hoffset : kHeaderSize ≤ offset) : a.drop offset = b.drop offset := by
  rw [← Nat.add_sub_cancel' hoffset, ← List.drop_drop, ← List.drop_drop, h.drop]

theorem read8_eq {offset : Nat} (hoffset : kHeaderSize ≤ offset) : read8 a offset = read8 b offset := by
  have hat : a[offset]? = b[offset]? := by
    rw [← Nat.add_zero offset, ← List.getElem?_drop, ← List.getElem?_drop, h.drop_eq hoffset]
  rw [read8, read8, hat]

theorem readLE_eq {offset : Nat} (hoffset : kHeaderSize ≤ offset) (width : Nat) :
    readLE a offset width = readLE b offset width := by
  rw [readLE, readLE, h.length, h.drop_eq hoffset]

theorem read16_eq {offset : Nat} (hoffset : kHeaderSize ≤ offset) : read16 a offset = read16 b offset := by
  rw [read16, read16, h.readLE_eq hoffset]

theorem read32_eq {offset : Nat} (hoffset : kHeaderSize ≤ offset) : read32 a offset = read32 b offset := by
  rw [read32, read32, h.readLE_eq hoffset]

theorem read64_eq {offset : Nat} (hoffset : kHeaderSize ≤ offset) : read64 a offset = read64 b offset := by
  rw [read64, read64, h.readLE_eq hoffset]

theorem readString_eq {stringOffset : UInt32} (hoffset : kHeaderSize ≤ stringOffset.toNat) (relativeOffset : UInt32) :
    readString a stringOffset relativeOffset = readString b stringOffset relativeOffset := by
  rw [readString, readString, h.length, h.drop_eq (by omega)]

theorem readMount_eq {stringOffset : UInt32} (hstrings : kHeaderSize ≤ stringOffset.toNat) {rule : Nat}
    (hrule : kHeaderSize ≤ rule) : readMount a stringOffset rule = readMount b stringOffset rule := by
  simp only [readMount, h.readString_eq hstrings]
  rw [h.read8_eq (by omega), h.read16_eq (by omega), h.read8_eq (by omega), h.read16_eq (by omega),
    h.read16_eq (by omega), h.read32_eq (by omega), h.read32_eq (by omega)]

theorem readEvent_eq {stringOffset : UInt32} (hstrings : kHeaderSize ≤ stringOffset.toNat) {rule : Nat}
    (hrule : kHeaderSize ≤ rule) : readEvent a stringOffset rule = readEvent b stringOffset rule := by
  simp only [readEvent, h.readString_eq hstrings]
  rw [h.read8_eq (by omega), h.read16_eq (by omega), h.read8_eq (by omega), h.read32_eq (by omega),
    h.read32_eq (by omega), h.read32_eq (by omega)]

theorem readPackageStrings_eq {stringOffset : UInt32} (hstrings : kHeaderSize ≤ stringOffset.toNat) {entry : Nat}
    (hentry : kHeaderSize ≤ entry) :
    readPackageStrings a stringOffset entry = readPackageStrings b stringOffset entry := by
  simp only [readPackageStrings, h.readString_eq hstrings]
  rw [h.read32_eq (by omega), h.read32_eq (by omega), h.read32_eq (by omega)]

theorem readPackageFlags_eq {entry : Nat} (hentry : kHeaderSize ≤ entry) :
    readPackageFlags a entry = readPackageFlags b entry := by
  simp only [readPackageFlags]
  rw [h.read8_eq (by omega), h.read8_eq (by omega), h.read8_eq (by omega), h.read8_eq (by omega),
    h.read32_eq (by omega)]

end SamePayload

theorem readRules_congr {α : Type} {read read' : Nat → Read α} {tableOffset size : Nat}
    (h : ∀ rule, tableOffset ≤ rule → read rule = read' rule) (first : UInt32) (count index : Nat) :
    readRules read tableOffset size first count index = readRules read' tableOffset size first count index := by
  induction count generalizing index with
  | zero => rfl
  | succ count ih => rw [readRules, readRules, h _ (by omega), ih]

/-! ## One package -/

/-- What `DecodePolicy` has read of a package before it checks the plan. -/
structure PackageEntry where
  app : AppPolicy
  packageHash : UInt32
  failureMode : FailureMode
  mountCount : UInt32
  eventCount : UInt32
  generation : UInt64

/-- The reads of `decodePackage`. They do not look at the flags of the header. -/
def readPackage (input : Bytes) (header : PolicyHeader) (index : Nat) (state : DecodeState) : Read PackageEntry := do
  let entry := header.packageOffset.toNat + index * kPackageSize
  let packageHash ← read32 input (entry + kPackageHashOffset)
  let (package, users, processes) ← readPackageStrings input header.stringOffset entry
  if packageNameHash package ≠ packageHash ||
      0 < index && (packageHash < state.previousHash ||
        packageHash = state.previousHash && package ≤ state.previousPackage) then
    fail "invalid package index"
  else
    let (failure, media, provider) ← readPackageFlags input entry
    if failure ≠ .kOpen || 0 < index && failure ≠ state.failureMode then fail "unsupported failure mode"
    else
      let firstMount ← read32 input (entry + kPackageFirstMountOffset)
      let appMountCount ← read32 input (entry + kPackageMountCountOffset)
      let firstEvent ← read32 input (entry + kPackageFirstEventOffset)
      let appEventCount ← read32 input (entry + kPackageEventCountOffset)
      if firstMount ≠ state.expectedFirstMount || header.mountCount - firstMount < appMountCount ||
          firstEvent ≠ state.expectedFirstEvent || header.eventCount - firstEvent < appEventCount then
        fail "invalid package rule range"
      else
        let mounts ← readRules (readMount input header.stringOffset) header.mountOffset.toNat kMountRuleSize
          firstMount appMountCount.toNat 0
        let events ← readRules (readEvent input header.stringOffset) header.eventOffset.toNat kEventRuleSize
          firstEvent appEventCount.toNat 0
        let generation ← read64 input (entry + kPackagePlanGenerationOffset)
        return {
          app := { package, users, processes, mounts, events, mediaCompat := media, providerCompat := provider }
          packageHash := packageHash
          failureMode := failure
          mountCount := appMountCount
          eventCount := appEventCount
          generation := generation }

/-- The state after a package. -/
def DecodeState.next (state : DecodeState) (entry : PackageEntry) (app : AppPolicy) : DecodeState where
  apps := state.apps ++ [app]
  previousHash := entry.packageHash
  previousPackage := entry.app.package
  expectedFirstMount := state.expectedFirstMount + entry.mountCount
  expectedFirstEvent := state.expectedFirstEvent + entry.eventCount
  failureMode := entry.failureMode

theorem decodePackage_eq (input : Bytes) (header : PolicyHeader) (legacy : Bool) (index : Nat) (state : DecodeState) :
    decodePackage input header legacy index state = do
      let entry ← readPackage input header index state
      let app ← checkPackagePlan entry.app entry.failureMode legacy entry.generation
      return state.next entry app := by
  simp only [decodePackage, readPackage, bind_assoc]
  refine bind_congr fun packageHash => bind_congr fun strings => ?_
  obtain ⟨package, users, processes⟩ := strings
  split
  · rfl
  · simp only [bind_assoc]
    refine bind_congr fun flags => ?_
    obtain ⟨failure, media, provider⟩ := flags
    split
    · rfl
    · simp only [bind_assoc]
      refine bind_congr fun firstMount => bind_congr fun appMountCount => bind_congr fun firstEvent =>
        bind_congr fun appEventCount => ?_
      split
      · rfl
      · simp only [bind_assoc, pure_bind]
        rfl

theorem SamePayload.readPackage_eq {a b : Bytes} (h : SamePayload a b) {header : PolicyHeader}
    (hpackages : kHeaderSize ≤ header.packageOffset.toNat) (hmounts : kHeaderSize ≤ header.mountOffset.toNat)
    (hevents : kHeaderSize ≤ header.eventOffset.toNat) (hstrings : kHeaderSize ≤ header.stringOffset.toNat)
    (index : Nat) (state : DecodeState) : readPackage a header index state = readPackage b header index state := by
  simp only [readPackage]
  rw [h.read32_eq (by omega), h.readPackageStrings_eq hstrings (by omega), h.readPackageFlags_eq (by omega),
    h.read32_eq (by omega), h.read32_eq (by omega), h.read32_eq (by omega), h.read32_eq (by omega),
    h.read64_eq (by omega)]
  simp only [readRules_congr fun rule hrule => h.readMount_eq hstrings (hmounts.trans hrule),
    readRules_congr fun rule hrule => h.readEvent_eq hstrings (hevents.trans hrule)]

/-! ## Accepted files -/

/-- A header that `DecodePolicy` accepts. -/
structure HeaderAccepted (input : Bytes) (header : PolicyHeader) : Prop where
  magic : read32 input 0 = .ok kMagic
  formatVersion : read16 input 4 = .ok kFormatVersion
  schemaVersion : read16 input 6 = .ok kSchemaVersion
  fileSize : ∃ fileSize, read32 input kFileSizeOffset = .ok fileSize ∧ fileSize.toNat = input.length
  checksum : read32 input kPayloadChecksumOffset = .ok (crc32 (input.drop kHeaderSize))
  readPackageCount : read32 input kPackageCountOffset = .ok header.packageCount
  readMountCount : read32 input kMountRuleCountOffset = .ok header.mountCount
  readEventCount : read32 input kEventRuleCountOffset = .ok header.eventCount
  readPackageOffset : read32 input kPackageTableOffset = .ok header.packageOffset
  readMountOffset : read32 input kMountRuleTableOffset = .ok header.mountOffset
  readEventOffset : read32 input kEventRuleTableOffset = .ok header.eventOffset
  readStringOffset : read32 input kStringTableOffset = .ok header.stringOffset
  readFlags : read32 input kHeaderFlagsOffset = .ok header.headerFlags
  packageCount : header.packageCount ≠ 0
  packageOffset : header.packageOffset.toNat = kHeaderSize
  mountOffset : header.mountOffset.toNat = kHeaderSize + header.packageCount.toNat * kPackageSize
  eventOffset : header.eventOffset.toNat = header.mountOffset.toNat + header.mountCount.toNat * kMountRuleSize
  stringOffset : header.stringOffset.toNat = header.eventOffset.toNat + header.eventCount.toNat * kEventRuleSize
  flags : header.headerFlags &&& ~~~kPolicyFlagAllowLegacyStringBind = 0

theorem headerAccepted_of_ok {input : Bytes} {header : PolicyHeader} (h : readHeader input = .ok header) :
    HeaderAccepted input header := by
  simp only [readHeader, bind_ok_iff] at h
  obtain ⟨fileSize, hfileSize, checksum, hchecksum, packageCount, hpackageCount, mountCount, hmountCount,
    eventCount, heventCount, packageOffset, hpackageOffset, mountOffset, hmountOffset, eventOffset, heventOffset,
    stringOffset, hstringOffset, flags, hflags, magic, hmagic, formatVersion, hformatVersion, schemaVersion,
    hschemaVersion, h⟩ := h
  split at h
  · cases h
  · next hchecks =>
    simp only [Bool.or_eq_true, decide_eq_true_eq, not_or, ne_eq, not_not, and_assoc] at hchecks
    obtain ⟨rfl, rfl, rfl, hsize, hcount, hpackage, hmount, hevent, hstring, -, hflag, rfl⟩ := hchecks
    obtain rfl := Except.ok.inj h
    exact ⟨hmagic, hformatVersion, hschemaVersion, ⟨fileSize, hfileSize, hsize⟩, hchecksum, hpackageCount, hmountCount,
      heventCount, hpackageOffset, hmountOffset, heventOffset, hstringOffset, hflags, hcount, hpackage, hmount,
      by rw [hevent, hmount], by rw [hstring, hevent], hflag⟩

theorem stringOffset_lt_of_ok {input : Bytes} {header : PolicyHeader} (h : readHeader input = .ok header) :
    header.stringOffset.toNat < input.length := by
  simp only [readHeader, bind_ok_iff] at h
  obtain ⟨_, -, _, -, _, -, _, -, _, -, _, -, _, -, _, -, _, -, _, -, _, -, _, -, _, -, h⟩ := h
  split at h
  · cases h
  · next hchecks =>
    obtain rfl := Except.ok.inj h
    simp only [Bool.or_eq_true, decide_eq_true_eq, not_or, not_le] at hchecks
    exact hchecks.1.1.2

def PolicyHeader.legacy (header : PolicyHeader) : Bool := header.headerFlags &&& kPolicyFlagAllowLegacyStringBind != 0

/-- A file that `DecodePolicy` accepts. -/
structure PolicyAccepted (input : Bytes) (header : PolicyHeader) (state : DecodeState) (generation : UInt64) : Prop where
  accepted : HeaderAccepted input header
  packages : decodePackages input header header.legacy header.packageCount.toNat 0 {} = .ok state
  readGeneration : read64 input kContentGenerationOffset = .ok generation
  contents : contentGeneration
    { schema := kSchemaVersion.toNat, failureMode := state.failureMode, allowLegacyStringBind := header.legacy,
      apps := state.apps } = generation

theorem policyAccepted_of_ok {input : Bytes} {result : PolicyDocument × UInt64} (h : decodePolicy input = .ok result) :
    ∃ header state generation, PolicyAccepted input header state generation := by
  unfold decodePolicy at h
  split at h
  · cases h
  · simp only [bind_ok_iff] at h
    obtain ⟨header, hheader, state, hpackages, h⟩ := h
    split at h
    · cases h
    · obtain ⟨generation, hgeneration, h⟩ := bind_ok_iff.mp h
      split at h
      · cases h
      · next hcontent =>
        rw [ne_eq, not_not] at hcontent
        exact ⟨header, state, generation, headerAccepted_of_ok hheader, hpackages, hgeneration, hcontent⟩

/-! ## One byte of the header changed -/

theorem HeaderAccepted.ext_of_offsets {input input' : Bytes} {header header' : PolicyHeader}
    (h : HeaderAccepted input header) (h' : HeaderAccepted input' header')
    (hpackages : header'.packageCount = header.packageCount) (hmounts : header'.mountCount = header.mountCount)
    (hevents : header'.eventCount = header.eventCount) :
    header' = { header with headerFlags := header'.headerFlags } := by
  have hpackageOffset : header'.packageOffset = header.packageOffset :=
    UInt32.toNat_inj.mp (by rw [h'.packageOffset, h.packageOffset])
  have hmountOffset : header'.mountOffset = header.mountOffset :=
    UInt32.toNat_inj.mp (by rw [h'.mountOffset, h.mountOffset, hpackages])
  have heventOffset : header'.eventOffset = header.eventOffset :=
    UInt32.toNat_inj.mp (by rw [h'.eventOffset, h.eventOffset, hmountOffset, hmounts])
  have hstringOffset : header'.stringOffset = header.stringOffset :=
    UInt32.toNat_inj.mp (by rw [h'.stringOffset, h.stringOffset, heventOffset, hevents])
  cases header
  cases header'
  simp_all

theorem HeaderAccepted.kHeaderSize_le {input : Bytes} {header : PolicyHeader} (h : HeaderAccepted input header) :
    kHeaderSize ≤ header.packageOffset.toNat ∧ kHeaderSize ≤ header.mountOffset.toNat ∧
      kHeaderSize ≤ header.eventOffset.toNat ∧ kHeaderSize ≤ header.stringOffset.toNat := by
  have hpackage := h.packageOffset
  have hmount := h.mountOffset
  have hevent := h.eventOffset
  have hstring := h.stringOffset
  omega

theorem HeaderAccepted.headerFlags_eq {input : Bytes} {header : PolicyHeader} (h : HeaderAccepted input header) :
    header.headerFlags = if header.legacy then 1 else 0 := by
  have hsplit : header.headerFlags =
      (header.headerFlags &&& 1) ||| (header.headerFlags &&& ~~~1) := by
    apply UInt32.toBitVec_inj.mp
    ext bit hbit
    simp only [UInt32.toBitVec_or, UInt32.toBitVec_and, UInt32.toBitVec_not, BitVec.getElem_or, BitVec.getElem_and,
      BitVec.getElem_not]
    cases header.headerFlags.toBitVec[bit] <;> cases (1 : UInt32).toBitVec[bit] <;> rfl
  have hhigh : header.headerFlags &&& ~~~1 = 0 := h.flags
  have hlow : (header.headerFlags &&& 1).toBitVec =
      BitVec.setWidth 32 (BitVec.ofBool (header.headerFlags.toBitVec.getLsbD 0)) := by
    rw [UInt32.toBitVec_and]
    exact BitVec.and_one_eq_setWidth_ofBool_getLsbD
  have hlegacy : header.legacy = (header.headerFlags &&& 1 != 0) := rfl
  rw [hhigh, UInt32.or_zero] at hsplit
  cases hbit : header.headerFlags.toBitVec.getLsbD 0
  · have hzero : header.headerFlags &&& 1 = 0 := UInt32.toBitVec_inj.mp (by rw [hlow, hbit]; rfl)
    rw [hlegacy, hsplit, hzero]
    rfl
  · have hone : header.headerFlags &&& 1 = 1 := UInt32.toBitVec_inj.mp (by rw [hlow, hbit]; rfl)
    rw [hlegacy, hsplit, hone]
    rfl

theorem checkPackagePlan_generation {encodedOrder app : AppPolicy} {failureMode : FailureMode} {legacy : Bool}
    {generation : UInt64} (h : checkPackagePlan encodedOrder failureMode legacy generation = .ok app) :
    validatePolicy encodedOrder = .ok app ∧ planGeneration app failureMode legacy = generation := by
  unfold checkPackagePlan at h
  split at h
  · cases h
  · next out hvalid =>
    repeat' split at h
    all_goals first | cases h; done | skip
    next hgeneration =>
    obtain rfl := Except.ok.inj h
    rw [ne_eq, not_not] at hgeneration
    exact ⟨hvalid, hgeneration⟩

theorem checkPackagePlan_ne_outOfBounds (encodedOrder : AppPolicy) (failureMode : FailureMode) (legacy : Bool)
    (generation : UInt64) : checkPackagePlan encodedOrder failureMode legacy generation ≠ .error .outOfBounds := by
  unfold checkPackagePlan
  repeat' split
  all_goals exact fun hfail => by cases hfail

theorem SamePayload.decodePackages_eq {a b : Bytes} (h : SamePayload a b) {header : PolicyHeader}
    (haccepted : HeaderAccepted b header) (legacy : Bool) (count index : Nat) (state : DecodeState) :
    decodePackages a header legacy count index state = decodePackages b header legacy count index state := by
  obtain ⟨hpackages, hmounts, hevents, hstrings⟩ := haccepted.kHeaderSize_le
  induction count generalizing index state with
  | zero => rfl
  | succ count ih =>
      rw [decodePackages, decodePackages, decodePackage_eq, decodePackage_eq,
        h.readPackage_eq hpackages hmounts hevents hstrings]
      simp only [ih]

theorem samePayload_set {input : Bytes} {i : Nat} {value : UInt8} (hi : i < kHeaderSize) :
    SamePayload (input.set i value) input := ⟨List.length_set, List.drop_set_of_lt hi⟩

section Changed
variable {input input' : Bytes} {header header' : PolicyHeader} {state state' : DecodeState}
  {generation generation' : UInt64}

theorem PolicyAccepted.first_package (h : PolicyAccepted input header state generation) :
    ∃ count entry app, header.packageCount.toNat = count + 1 ∧ readPackage input header 0 {} = .ok entry ∧
      checkPackagePlan entry.app entry.failureMode header.legacy entry.generation = .ok app := by
  obtain ⟨count, hcount⟩ : ∃ count, header.packageCount.toNat = count + 1 :=
    Nat.exists_eq_succ_of_ne_zero fun hzero => h.accepted.packageCount (UInt32.toNat_inj.mp hzero)
  have hpackages := h.packages
  rw [hcount, decodePackages, decodePackage_eq] at hpackages
  simp only [bind_ok_iff] at hpackages
  obtain ⟨_, ⟨entry, hentry, app, happ, -⟩, -⟩ := hpackages
  exact ⟨count, entry, app, hcount, hentry, happ⟩

/-- With the legacy flag the other way, the plan generation of the first package is not the stored one. -/
theorem PolicyAccepted.rejected_of_legacy_ne (h : PolicyAccepted input header state generation)
    (hsame : SamePayload input' input) (hheader : header' = { header with headerFlags := header'.headerFlags })
    (hlegacy : header'.legacy ≠ header.legacy) :
    ∃ error, decodePackages input' header' header'.legacy header'.packageCount.toNat 0 {} = .error (.rejected error) := by
  obtain ⟨hpackages, hmounts, hevents, hstrings⟩ := h.accepted.kHeaderSize_le
  obtain ⟨count, entry, app, hcount, hentry, happ⟩ := h.first_package
  have hread : readPackage input' header' 0 {} = .ok entry := by
    rw [hheader, ← hentry]
    exact hsame.readPackage_eq hpackages hmounts hevents hstrings 0 {}
  have hcount' : header'.packageCount.toNat = count + 1 := by
    rw [hheader]
    exact hcount
  rw [hcount', decodePackages, decodePackage_eq, hread, ok_bind]
  cases hplan : checkPackagePlan entry.app entry.failureMode header'.legacy entry.generation with
  | ok app' =>
      obtain ⟨hvalid, hgeneration⟩ := checkPackagePlan_generation happ
      obtain ⟨hvalid', hgeneration'⟩ := checkPackagePlan_generation hplan
      obtain rfl := Except.ok.inj (hvalid.symm.trans hvalid')
      exact absurd (planGeneration_legacy_inj (hgeneration'.trans hgeneration.symm)) hlegacy
  | error failure =>
      cases failure with
      | rejected error => exact ⟨error, rfl⟩
      | outOfBounds => exact absurd hplan (checkPackagePlan_ne_outOfBounds _ _ _ _)

/-- One payload is accepted under one value of the legacy flag only. -/
theorem PolicyAccepted.legacy_eq (h : PolicyAccepted input header state generation)
    (h' : PolicyAccepted input' header' state' generation') (hsame : SamePayload input' input)
    (hheader : header' = { header with headerFlags := header'.headerFlags }) : header'.legacy = header.legacy := by
  by_contra hlegacy
  obtain ⟨error, herror⟩ := h.rejected_of_legacy_ne hsame hheader hlegacy
  rw [h'.packages] at herror
  cases herror

/-- One payload is accepted under one content generation only. -/
theorem PolicyAccepted.generation_eq (h : PolicyAccepted input header state generation)
    (h' : PolicyAccepted input' header' state' generation') (hsame : SamePayload input' input)
    (hheader : header' = { header with headerFlags := header'.headerFlags }) : generation' = generation := by
  have hlegacy := h.legacy_eq h' hsame hheader
  have hflags : header'.headerFlags = header.headerFlags := by
    rw [h'.accepted.headerFlags_eq, h.accepted.headerFlags_eq, hlegacy]
  rw [hflags] at hheader
  obtain rfl : header' = header := hheader
  have hpack' := h'.packages
  rw [hsame.decodePackages_eq h.accepted, h.packages] at hpack'
  obtain rfl := Except.ok.inj hpack'
  rw [← h.contents, ← h'.contents]

end Changed

theorem HeaderAccepted.set_cases {input : Bytes} {i : Nat} {value : UInt8} {header header' : PolicyHeader}
    (h : HeaderAccepted input header) (h' : HeaderAccepted (input.set i value) header') (hi : i < kHeaderSize) :
    input[i]? = some value ∨
      header' = { header with headerFlags := header'.headerFlags } ∧
        (kContentGenerationOffset ≤ i ∧ i < kContentGenerationOffset + 8 ∨
          kHeaderFlagsOffset ≤ i ∧ i < kHeaderFlagsOffset + 4) := by
  have hi : i < 56 := hi
  have hout : ∀ {offset} {x y : UInt32}, i < offset ∨ offset + 4 ≤ i → read32 input offset = .ok x →
      read32 (input.set i value) offset = .ok y → y = x := fun hoffset hx hy =>
    Except.ok.inj ((hy.symm.trans (read32_set_of_outside hoffset)).trans hx)
  have hpackages : i < 24 ∨ 28 ≤ i → header'.packageCount = header.packageCount := fun hi =>
    hout hi h.readPackageCount h'.readPackageCount
  have hmounts : i < 28 ∨ 32 ≤ i → header'.mountCount = header.mountCount := fun hi =>
    hout hi h.readMountCount h'.readMountCount
  have hevents : i < 32 ∨ 36 ≤ i → header'.eventCount = header.eventCount := fun hi =>
    hout hi h.readEventCount h'.readEventCount
  have hmountTable : i < 40 ∨ 44 ≤ i → header'.mountOffset = header.mountOffset := fun hi =>
    hout hi h.readMountOffset h'.readMountOffset
  have heventTable : i < 44 ∨ 48 ≤ i → header'.eventOffset = header.eventOffset := fun hi =>
    hout hi h.readEventOffset h'.readEventOffset
  have hstrings : i < 48 ∨ 52 ≤ i → header'.stringOffset = header.stringOffset := fun hi =>
    hout hi h.readStringOffset h'.readStringOffset
  have hmountOffset := h.mountOffset
  have hmountOffset' := h'.mountOffset
  have heventOffset := h.eventOffset
  have heventOffset' := h'.eventOffset
  have hstringOffset := h.stringOffset
  have hstringOffset' := h'.stringOffset
  have hfields : i < 4 ∨ (4 ≤ i ∧ i < 6) ∨ (6 ≤ i ∧ i < 8) ∨ (8 ≤ i ∧ i < 12) ∨ (12 ≤ i ∧ i < 16) ∨
      (24 ≤ i ∧ i < 28) ∨ (28 ≤ i ∧ i < 32) ∨ (32 ≤ i ∧ i < 36) ∨ (36 ≤ i ∧ i < 40) ∨ (40 ≤ i ∧ i < 44) ∨
      (44 ≤ i ∧ i < 48) ∨ (48 ≤ i ∧ i < 52) ∨ (16 ≤ i ∧ i < 24 ∨ 52 ≤ i ∧ i < 56) := by omega
  rcases hfields with hi | hi | hi | hi | hi | hi | hi | hi | hi | hi | hi | hi | hi
  · exact Or.inl (eq_of_read32_set (Nat.zero_le i) (by omega) h.magic h'.magic)
  · exact Or.inl (eq_of_read16_set hi.1 hi.2 h.formatVersion h'.formatVersion)
  · exact Or.inl (eq_of_read16_set hi.1 hi.2 h.schemaVersion h'.schemaVersion)
  · obtain ⟨size, hread, hsize⟩ := h.fileSize
    obtain ⟨size', hread', hsize'⟩ := h'.fileSize
    rw [List.length_set] at hsize'
    obtain rfl : size' = size := UInt32.toNat_inj.mp (hsize'.trans hsize.symm)
    exact Or.inl (eq_of_read32_set hi.1 hi.2 hread hread')
  · have hread' := h'.checksum
    rw [(samePayload_set (show i < kHeaderSize by rw [kHeaderSize]; omega)).drop] at hread'
    exact Or.inl (eq_of_read32_set hi.1 hi.2 h.checksum hread')
  · rw [hmountTable (by omega), hmountOffset, kPackageSize] at hmountOffset'
    have hcount : header'.packageCount = header.packageCount := UInt32.toNat_inj.mp (by omega)
    exact Or.inl (eq_of_read32_set hi.1 hi.2 h.readPackageCount (hcount ▸ h'.readPackageCount))
  · rw [heventTable (by omega), hmountTable (by omega), heventOffset, kMountRuleSize] at heventOffset'
    have hcount : header'.mountCount = header.mountCount := UInt32.toNat_inj.mp (by omega)
    exact Or.inl (eq_of_read32_set hi.1 hi.2 h.readMountCount (hcount ▸ h'.readMountCount))
  · rw [hstrings (by omega), heventTable (by omega), hstringOffset, kEventRuleSize] at hstringOffset'
    have hcount : header'.eventCount = header.eventCount := UInt32.toNat_inj.mp (by omega)
    exact Or.inl (eq_of_read32_set hi.1 hi.2 h.readEventCount (hcount ▸ h'.readEventCount))
  · have hoffset : header'.packageOffset = header.packageOffset :=
      UInt32.toNat_inj.mp (h'.packageOffset.trans h.packageOffset.symm)
    exact Or.inl (eq_of_read32_set hi.1 hi.2 h.readPackageOffset (hoffset ▸ h'.readPackageOffset))
  · rw [hpackages (by omega), ← hmountOffset] at hmountOffset'
    exact Or.inl (eq_of_read32_set hi.1 hi.2 h.readMountOffset (UInt32.toNat_inj.mp hmountOffset' ▸ h'.readMountOffset))
  · rw [hmountTable (by omega), hmounts (by omega), ← heventOffset] at heventOffset'
    exact Or.inl (eq_of_read32_set hi.1 hi.2 h.readEventOffset (UInt32.toNat_inj.mp heventOffset' ▸ h'.readEventOffset))
  · rw [heventTable (by omega), hevents (by omega), ← hstringOffset] at hstringOffset'
    exact Or.inl
      (eq_of_read32_set hi.1 hi.2 h.readStringOffset (UInt32.toNat_inj.mp hstringOffset' ▸ h'.readStringOffset))
  · exact Or.inr ⟨h.ext_of_offsets h' (hpackages (by omega)) (hmounts (by omega)) (hevents (by omega)), hi⟩

/-! ## Rejection -/

theorem bind_error_iff {ε α β : Type} {step : Except ε α} {next : α → Except ε β} {failure : ε} :
    step >>= next = .error failure ↔ step = .error failure ∨ ∃ value, step = .ok value ∧ next value = .error failure := by
  cases step with
  | error e => simp [bind, Except.bind]
  | ok value => simp [bind, Except.bind]

theorem readHeader_ne_outOfBounds {input : Bytes} (h : kHeaderSize ≤ input.length) :
    readHeader input ≠ .error .outOfBounds := by
  have hread : ∀ offset width, offset + width ≤ kHeaderSize → ∃ value, readLE input offset width = .ok value :=
    fun offset width hfits => ⟨_, by rw [readLE, if_pos (by omega)]⟩
  have hread16 : ∀ offset, offset + 2 ≤ kHeaderSize → ∃ value, read16 input offset = .ok value := by
    intro offset hfits
    obtain ⟨value, hvalue⟩ := hread offset 2 hfits
    exact ⟨_, by rw [read16, hvalue]; rfl⟩
  have hread32 : ∀ offset, offset + 4 ≤ kHeaderSize → ∃ value, read32 input offset = .ok value := by
    intro offset hfits
    obtain ⟨value, hvalue⟩ := hread offset 4 hfits
    exact ⟨_, by rw [read32, hvalue]; rfl⟩
  obtain ⟨_, hfileSize⟩ := hread32 kFileSizeOffset (by decide)
  obtain ⟨_, hchecksum⟩ := hread32 kPayloadChecksumOffset (by decide)
  obtain ⟨_, hpackageCount⟩ := hread32 kPackageCountOffset (by decide)
  obtain ⟨_, hmountCount⟩ := hread32 kMountRuleCountOffset (by decide)
  obtain ⟨_, heventCount⟩ := hread32 kEventRuleCountOffset (by decide)
  obtain ⟨_, hpackageOffset⟩ := hread32 kPackageTableOffset (by decide)
  obtain ⟨_, hmountOffset⟩ := hread32 kMountRuleTableOffset (by decide)
  obtain ⟨_, heventOffset⟩ := hread32 kEventRuleTableOffset (by decide)
  obtain ⟨_, hstringOffset⟩ := hread32 kStringTableOffset (by decide)
  obtain ⟨_, hflags⟩ := hread32 kHeaderFlagsOffset (by decide)
  obtain ⟨_, hmagic⟩ := hread32 0 (by decide)
  obtain ⟨_, hformat⟩ := hread16 4 (by decide)
  obtain ⟨_, hschema⟩ := hread16 6 (by decide)
  simp only [readHeader, hfileSize, hchecksum, hpackageCount, hmountCount, heventCount, hpackageOffset, hmountOffset,
    heventOffset, hstringOffset, hflags, hmagic, hformat, hschema, ok_bind]
  split
  · exact fun hfail => by cases hfail
  · exact fun hok => by cases hok

/-- **One payload, one header.** Under the header of an accepted file with other flags, the packages of its payload are
read inside the file. -/
theorem PolicyAccepted.decodePackages_ne_outOfBounds {input input' : Bytes} {header header' : PolicyHeader}
    {state : DecodeState} {generation : UInt64} (h : PolicyAccepted input header state generation)
    (hsame : SamePayload input' input) (hheader : header' = { header with headerFlags := header'.headerFlags })
    (haccepted : HeaderAccepted input' header') :
    decodePackages input' header' header'.legacy header'.packageCount.toNat 0 {} ≠ .error .outOfBounds := by
  have hcount : header'.packageCount = header.packageCount := by rw [hheader]
  by_cases hlegacy : header'.legacy = header.legacy
  · have hflags : header'.headerFlags = header.headerFlags := by
      rw [haccepted.headerFlags_eq, h.accepted.headerFlags_eq, hlegacy]
    rw [hflags] at hheader
    obtain rfl : header' = header := hheader
    rw [hsame.decodePackages_eq h.accepted, h.packages]
    exact fun hok => by cases hok
  · obtain ⟨error, herror⟩ := h.rejected_of_legacy_ne hsame hheader hlegacy
    rw [herror]
    exact fun hfail => by cases hfail

/-- One byte of the header has another value. -/
def HeaderByteChanged (bytes modified : Bytes) : Prop :=
  ∃ i value, i < kHeaderSize ∧ bytes[i]? ≠ some value ∧ modified = bytes.set i value

/-- Some bytes of four consecutive ones of the payload have other values. -/
structure PayloadBurst (bytes modified : Bytes) : Prop where
  length : modified.length = bytes.length
  changed : modified ≠ bytes
  window : ∃ start, kHeaderSize ≤ start ∧ ∀ i, i < start ∨ start + 4 ≤ i → modified[i]? = bytes[i]?

theorem decodePolicy_rejected {input : Bytes} (hlength : kHeaderSize ≤ input.length)
    (hok : ∀ result, decodePolicy input ≠ .ok result)
    (hpackages : ∀ header, HeaderAccepted input header →
      decodePackages input header header.legacy header.packageCount.toNat 0 {} ≠ .error .outOfBounds) :
    ∃ error, decodePolicy input = .error (.rejected error) := by
  cases hdecode : decodePolicy input with
  | ok result => exact absurd hdecode (hok result)
  | error failure =>
      cases failure with
      | rejected error => exact ⟨error, rfl⟩
      | outOfBounds =>
          unfold decodePolicy at hdecode
          rw [if_neg (by omega)] at hdecode
          rcases bind_error_iff.mp hdecode with hheader | ⟨header, hheader, hdecode⟩
          · exact absurd hheader (readHeader_ne_outOfBounds hlength)
          · rcases bind_error_iff.mp hdecode with hdecode | ⟨state, -, hdecode⟩
            · exact absurd hdecode (hpackages header (headerAccepted_of_ok hheader))
            · split at hdecode
              · cases hdecode
              · rcases bind_error_iff.mp hdecode with hread | ⟨generation, -, hdecode⟩
                · rw [read64, readLE, if_pos (by rw [kContentGenerationOffset]; rw [kHeaderSize] at hlength; omega)] at hread
                  cases hread
                · split at hdecode <;> cases hdecode

theorem kHeaderSize_le_of_ok {input : Bytes} {result : PolicyDocument × UInt64} (h : decodePolicy input = .ok result) :
    kHeaderSize ≤ input.length := by
  unfold decodePolicy at h
  split at h
  · cases h
  · omega

theorem decodePolicy_headerByteChanged {bytes modified : Bytes} {result : PolicyDocument × UInt64}
    (haccepted : decodePolicy bytes = .ok result) (h : HeaderByteChanged bytes modified) :
    ∃ error, decodePolicy modified = .error (.rejected error) := by
  obtain ⟨i, value, hi, hvalue, rfl⟩ := h
  obtain ⟨header, state, generation, hbytes⟩ := policyAccepted_of_ok haccepted
  have hsame : SamePayload (bytes.set i value) bytes := samePayload_set hi
  refine decodePolicy_rejected (by rw [hsame.length]; exact kHeaderSize_le_of_ok haccepted) (fun result' hresult => ?_)
    fun header' hheader' => ?_
  · obtain ⟨header', state', generation', hmodified⟩ := policyAccepted_of_ok hresult
    rcases hbytes.accepted.set_cases hmodified.accepted hi with heq | ⟨hheader, ⟨hlow, hhigh⟩ | ⟨hlow, hhigh⟩⟩
    · exact hvalue heq
    · have hgeneration := hbytes.generation_eq hmodified hsame hheader
      exact hvalue (eq_of_read64_set hlow hhigh hbytes.readGeneration (hgeneration ▸ hmodified.readGeneration))
    · have hlegacy := hbytes.legacy_eq hmodified hsame hheader
      have hflags : header'.headerFlags = header.headerFlags := by
        rw [hmodified.accepted.headerFlags_eq, hbytes.accepted.headerFlags_eq, hlegacy]
      exact hvalue (eq_of_read32_set hlow hhigh hbytes.accepted.readFlags (hflags ▸ hmodified.accepted.readFlags))
  · rcases hbytes.accepted.set_cases hheader' hi with heq | ⟨hheader, -⟩
    · exact absurd heq hvalue
    · exact hbytes.decodePackages_ne_outOfBounds hsame hheader hheader'

theorem read32_congr_of_lt {a b : Bytes} {size offset : Nat} (hlength : a.length = b.length)
    (hsame : ∀ i, i < size → a[i]? = b[i]?) (hoffset : offset + 4 ≤ size) : read32 a offset = read32 b offset := by
  have hslice : (a.drop offset).take 4 = (b.drop offset).take 4 := by
    apply List.ext_getElem?
    intro i
    rw [List.getElem?_take, List.getElem?_take, List.getElem?_drop, List.getElem?_drop]
    split
    · exact hsame _ (by omega)
    · rfl
  rw [read32, read32, readLE, readLE, hlength, hslice]

theorem PayloadBurst.exists_split {bytes modified : Bytes} (h : PayloadBurst bytes modified) :
    ∃ before burst burst' after, burst.length = burst'.length ∧ burst.length ≤ 4 ∧
      bytes.drop kHeaderSize = before ++ burst ++ after ∧ modified.drop kHeaderSize = before ++ burst' ++ after := by
  obtain ⟨start, hstart, hsame⟩ := h.window
  have hcut : ∀ l : Bytes, l.drop kHeaderSize = (l.drop kHeaderSize).take (start - kHeaderSize) ++
      (l.drop start).take 4 ++ l.drop (start + 4) := by
    intro l
    have hdrop : (l.drop kHeaderSize).drop (start - kHeaderSize) = l.drop start := by
      rw [List.drop_drop, Nat.add_sub_cancel' hstart]
    rw [← List.drop_drop, List.append_assoc, List.take_append_drop, ← hdrop, List.take_append_drop]
  have hbefore : (modified.drop kHeaderSize).take (start - kHeaderSize) =
      (bytes.drop kHeaderSize).take (start - kHeaderSize) := by
    apply List.ext_getElem?
    intro i
    rw [List.getElem?_take, List.getElem?_take, List.getElem?_drop, List.getElem?_drop]
    split
    · exact hsame _ (by omega)
    · rfl
  have hafter : modified.drop (start + 4) = bytes.drop (start + 4) := by
    apply List.ext_getElem?
    intro i
    rw [List.getElem?_drop, List.getElem?_drop]
    exact hsame _ (by omega)
  refine ⟨(bytes.drop kHeaderSize).take (start - kHeaderSize), (bytes.drop start).take 4, (modified.drop start).take 4,
    bytes.drop (start + 4), ?_, ?_, hcut bytes, ?_⟩
  · simp only [List.length_take, List.length_drop, h.length]
  · rw [List.length_take]
    omega
  · rw [← hbefore, ← hafter]
    exact hcut modified

/-- Under a checksum, four consecutive bytes of the payload cannot be changed alone. -/
theorem decodePolicy_payloadBurst {bytes modified : Bytes} (hlength : kHeaderSize ≤ bytes.length)
    (hchecksum : read32 bytes kPayloadChecksumOffset = .ok (crc32 (bytes.drop kHeaderSize)))
    (h : PayloadBurst bytes modified) : ∃ error, decodePolicy modified = .error (.rejected error) := by
  obtain ⟨start, hstart, hsame⟩ := h.window
  have hrejected : ∀ header', ¬ HeaderAccepted modified header' := by
    intro header' hheader'
    obtain ⟨before, burst, burst', after, hlength, hshort, hsplit, hsplit'⟩ := h.exists_split
    have hchecksum' := hheader'.checksum
    have hread : read32 modified kPayloadChecksumOffset = read32 bytes kPayloadChecksumOffset :=
      read32_congr_of_lt h.length (fun i hi => hsame i (Or.inl (lt_of_lt_of_le hi hstart))) (by decide)
    rw [hread, hchecksum, hsplit, hsplit'] at hchecksum'
    have heq := eq_of_crc32_eq hlength hshort (Except.ok.inj hchecksum')
    apply h.changed
    apply List.ext_getElem?
    intro i
    by_cases hi : i < kHeaderSize
    · exact hsame i (Or.inl (by omega))
    · rw [← Nat.add_sub_cancel' (Nat.not_lt.mp hi), ← List.getElem?_drop, ← List.getElem?_drop, hsplit, hsplit', heq]
  refine decodePolicy_rejected (by rw [h.length]; exact hlength) (fun result' hresult => ?_)
    fun header' hheader' => absurd hheader' (hrejected header')
  obtain ⟨header', state', generation', hmodified⟩ := policyAccepted_of_ok hresult
  exact hrejected header' hmodified.accepted

/-- Whatever the strings are, the file of a document is under its checksum. -/
theorem checksum_policyFile (canonical : PolicyDocument) : kHeaderSize ≤ (policyFile canonical).length ∧
    read32 (policyFile canonical) kPayloadChecksumOffset = .ok (crc32 ((policyFile canonical).drop kHeaderSize)) := by
  have hdrop : (policyFile canonical).drop kHeaderSize = (policyTables canonical).payload := List.drop_left' rfl
  have hrow : HoldsAt (policyFile canonical) 0 (headerFields canonical (policyTables canonical)).flatten :=
    (holdsAt_self _).append _
  rw [hdrop]
  refine ⟨hrow.length_le, read32_of_holdsAt (hrow.field 4 rfl rfl)⟩

end PathGuard

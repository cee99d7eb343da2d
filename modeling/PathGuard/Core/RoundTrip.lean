import PathGuard.Core.EncoderSpec

/-!
# Reading back what was written

`DecodePolicy` of the file of a canonical document is that document, with its apps in the order of the package table
and without source lines; and the file of the result is the same file.

* `Canonical`, `EncodableStrings` : canonical documents whose strings the format can hold;
* `decodedDocument` : what comes back; `decodePolicy_policyFile` : it does;
* `decodePolicy_encodePolicy` : the round trip, and the file of the result.
-/

namespace PathGuard

/-! ## Numbers and strings -/

theorem ok_bind {ε α β : Type} (a : α) (next : α → Except ε β) : (Except.ok a >>= next) = next a := rfl

theorem readLE_of_holdsAt {input : Bytes} {offset width n : Nat} (h : HoldsAt input offset (leBytes width n))
    (hn : n < 256 ^ width) : readLE input offset width = .ok n := by
  have hlength := h.length_le
  have hread := h.take_drop
  rw [length_leBytes] at hlength hread
  rw [readLE, if_pos hlength, hread, leValue_leBytes_of_lt hn]

theorem read8_of_holdsAt {input : Bytes} {offset : Nat} {value : UInt8} (h : HoldsAt input offset (put8 value)) :
    read8 input offset = .ok value := by
  obtain ⟨before, after, rfl, rfl⟩ := h
  rw [read8, List.append_assoc, List.getElem?_append_right (le_refl _), Nat.sub_self]
  rfl

theorem read16_of_holdsAt {input : Bytes} {offset : Nat} {value : UInt16} (h : HoldsAt input offset (put16 value)) :
    read16 input offset = .ok value := by
  rw [read16, readLE_of_holdsAt h value.toNat_lt]
  exact congrArg Except.ok UInt16.ofNat_toNat

theorem read32_of_holdsAt {input : Bytes} {offset : Nat} {value : UInt32} (h : HoldsAt input offset (put32 value)) :
    read32 input offset = .ok value := by
  rw [read32, readLE_of_holdsAt h value.toNat_lt]
  exact congrArg Except.ok UInt32.ofNat_toNat

theorem read64_of_holdsAt {input : Bytes} {offset : Nat} {value : UInt64} (h : HoldsAt input offset (put64 value)) :
    read64 input offset = .ok value := by
  rw [read64, readLE_of_holdsAt h value.toNat_lt]
  exact congrArg Except.ok UInt64.ofNat_toNat

theorem readString_of_holdsAt {input value : Bytes} {stringOffset relativeOffset : UInt32}
    (h : HoldsAt input (stringOffset.toNat + relativeOffset.toNat) (value ++ [0])) (hvalue : 0 ∉ value) :
    readString input stringOffset relativeOffset = some value := by
  have hlength := h.length_le
  obtain ⟨after, hafter⟩ := h.drop_eq
  rw [List.length_append, List.length_singleton] at hlength
  have hbytes : ∀ byte ∈ value, (byte != 0) = true := fun byte hbyte => by
    rw [bne_iff_ne]
    exact fun hzero => hvalue (hzero ▸ hbyte)
  rw [readString, if_neg (by simp only [Bool.or_eq_true, decide_eq_true_eq]; omega)]
  simp only [hafter, List.append_assoc, List.takeWhile_append_of_pos hbytes]
  simp

/-- The strings a list is joined from. -/
structure ListItem (item : Bytes) : Prop where
  nonempty : item ≠ []
  nul_free : 0 ∉ item
  comma_free : comma ∉ item

theorem splitList_joinList {items : List Bytes} (hne : items ≠ []) (h : ∀ item ∈ items, ListItem item) :
    splitList (joinList items) = some items := by
  unfold splitList joinList
  rw [List.splitOn_intercalate comma (fun item hitem => (h item hitem).comma_free) hne]
  have hany : items.any List.isEmpty = false := by
    rw [List.any_eq_false]
    intro item hitem
    simpa using (h item hitem).nonempty
  simp only [hany, Bool.false_eq_true, if_false]

theorem nul_notMem_joinList {items : List Bytes} (h : ∀ item ∈ items, ListItem item) : 0 ∉ joinList items := by
  induction items with
  | nil => simp [joinList]
  | cons item items ih =>
      rw [List.forall_mem_cons] at h
      unfold joinList at ih ⊢
      cases items with
      | nil => simpa using h.1.nul_free
      | cons next items =>
          rw [List.intercalate_cons_of_ne_nil (List.cons_ne_nil _ _)]
          simp only [List.mem_append, List.mem_singleton, not_or]
          exact ⟨⟨h.1.nul_free, by decide⟩, ih h.2⟩

/-! ## Canonical documents -/

/-- What the strings of an app must be like to stand in the format. -/
structure EncodableStrings (app : AppPolicy) : Prop where
  package : ListItem app.package
  users_ne : app.users ≠ []
  users : ∀ user ∈ app.users, ListItem user
  processes_ne : app.processes ≠ []
  processes : ∀ process ∈ app.processes, ListItem process

/-- A document that is its own canonical form and has a file. -/
structure Canonical (document : PolicyDocument) : Prop where
  schema : document.schema = kSchemaVersion.toNat
  failureMode : document.failureMode = .kOpen
  apps_ne : document.apps ≠ []
  valid : ∀ app ∈ document.apps, validatePolicy app = .ok app
  executable : ∀ app ∈ document.apps, Executable app
  nodup : (document.apps.map AppPolicy.package).Nodup
  strings : ∀ app ∈ document.apps, EncodableStrings app
  fits : Fits document

/-- What `CanonicalizeDocument` returns is canonical, when the strings are fit for it. -/
theorem canonical_of_ok {document canonical : PolicyDocument} (h : canonicalizeDocument document = .ok canonical)
    (hstrings : ∀ app ∈ document.apps, EncodableStrings app) (hfits : Fits canonical) : Canonical canonical := by
  obtain ⟨hschema, hmode, hne, happs, hcanonical⟩ := canonicalizeDocument_ok_iff.mp h
  obtain ⟨hforall, hnodup, -⟩ := canonicalizeApps_ok_iff.mp happs
  have hlength := hforall.length_eq
  have hfrom : ∀ out ∈ canonical.apps, ∃ app ∈ document.apps, validatePolicy app = .ok out ∧ Executable out := by
    intro out hout
    obtain ⟨i, hi, rfl⟩ := List.getElem_of_mem hout
    exact ⟨document.apps[i], List.getElem_mem _, List.forall₂_iff_get.mp hforall |>.2 i (by omega) hi⟩
  refine ⟨by rw [hcanonical]; exact hschema, by rw [hcanonical]; exact hmode, ?_, fun out hout => ?_, fun out hout => ?_,
    hnodup, fun out hout => ?_, hfits⟩
  · intro hnil
    rw [hnil, List.length_nil, List.length_eq_zero_iff] at hlength
    exact hne hlength
  · obtain ⟨app, -, hok, -⟩ := hfrom out hout
    exact validatePolicy_idempotent hok
  · obtain ⟨app, -, -, hexec⟩ := hfrom out hout
    exact hexec
  · obtain ⟨app, happ, hok, -⟩ := hfrom out hout
    obtain ⟨hpackage, -, husers, hprocesses, -⟩ := validatePolicy_strings hok
    have hgood := hstrings app happ
    refine ⟨hpackage ▸ hgood.package, fun hnil => hgood.users_ne ?_, fun user huser => ?_,
      fun hnil => hgood.processes_ne ?_, fun process hprocess => ?_⟩
    · exact (hnil ▸ husers).nil_eq.symm
    · exact hgood.users user (husers.mem_iff.mp huser)
    · exact (hnil ▸ hprocesses).nil_eq.symm
    · exact hgood.processes process (hprocesses.mem_iff.mp hprocess)

/-! ## Where things stand in the file -/

/-- The apps in the order of the package table. -/
def sortedApps (document : PolicyDocument) : List AppPolicy := sortOn packageSortKey document.apps

theorem pairwise_sortedApps (document : PolicyDocument) :
    (sortedApps document).Pairwise fun a b => packageSortKey a ≤ packageSortKey b :=
  pairwise_sortOn _ _

theorem sortedApps_perm (document : PolicyDocument) : (sortedApps document).Perm document.apps := sortOn_perm _ _

theorem mountCount_sortedApps (document : PolicyDocument) : mountCount (sortedApps document) = mountCount document.apps :=
  ((sortedApps_perm document).map _).sum_nat

theorem eventCount_sortedApps (document : PolicyDocument) : eventCount (sortedApps document) = eventCount document.apps :=
  ((sortedApps_perm document).map _).sum_nat

def mountStart (document : PolicyDocument) : Nat := kHeaderSize + document.apps.length * kPackageSize

def stringStart (document : PolicyDocument) : Nat := mountStart document + mountCount document.apps * kMountRuleSize

/-- The header as the decoder sees it. -/
def decodedHeader (document : PolicyDocument) : PolicyHeader where
  packageCount := size32 document.apps
  mountCount := UInt32.ofNat (mountCount document.apps)
  eventCount := 0
  packageOffset := UInt32.ofNat kHeaderSize
  mountOffset := UInt32.ofNat (mountStart document)
  eventOffset := UInt32.ofNat (stringStart document)
  stringOffset := UInt32.ofNat (stringStart document)
  headerFlags := if document.allowLegacyStringBind then kPolicyFlagAllowLegacyStringBind else 0

theorem legacyFlag_and_not (flag : Bool) :
    (if flag then kPolicyFlagAllowLegacyStringBind else 0) &&& ~~~kPolicyFlagAllowLegacyStringBind = 0 := by
  cases flag <;> decide

theorem legacyFlag_and (flag : Bool) :
    (((if flag then kPolicyFlagAllowLegacyStringBind else 0) &&& kPolicyFlagAllowLegacyStringBind) != 0) = flag := by
  cases flag <;> decide

namespace Canonical
variable {document : PolicyDocument} (hdoc : Canonical document)
include hdoc

theorem eventCount_eq : eventCount document.apps = 0 := by
  rw [eventCount, List.sum_eq_zero_iff_forall_eq_nat]
  intro n hn
  obtain ⟨app, happ, rfl⟩ := List.mem_map.mp hn
  rw [(hdoc.executable app happ).events, List.length_nil]

theorem nodup_sortedApps : ((sortedApps document).map AppPolicy.package).Nodup :=
  ((sortedApps_perm document).map _).nodup_iff.mpr hdoc.nodup

theorem placed : PlacedApps document.failureMode document.allowLegacyStringBind (sortedApps document)
    (sortedApps document) (policyTables document) :=
  placedApps_initial.addApps rfl fun app happ => (hdoc.executable app (mem_sortOn.mp happ)).events

theorem length_packages : (policyTables document).packages.length = document.apps.length * kPackageSize := by
  rw [hdoc.placed.placed.packages.length_eq, sortedApps, length_sortOn]

theorem length_mounts : (policyTables document).mounts.length = mountCount document.apps * kMountRuleSize := by
  rw [hdoc.placed.placed.mounts.length_eq, length_flatMap_mounts, mountCount_sortedApps]

theorem policyFile_eq : policyFile document = (headerFields document (policyTables document)).flatten ++
    ((policyTables document).packages ++ (policyTables document).mounts ++ (policyTables document).strings.bytes) := by
  rw [policyFile, PolicyTables.payload, hdoc.placed.placed.events, List.append_nil]

theorem holdsAt_header : HoldsAt (policyFile document) 0 (headerFields document (policyTables document)).flatten := by
  rw [hdoc.policyFile_eq]
  exact (holdsAt_self _).append _

theorem holdsAt_packages : HoldsAt (policyFile document) kHeaderSize (policyTables document).packages := by
  rw [hdoc.policyFile_eq, ← List.append_assoc, ← List.append_assoc]
  exact ((holdsAt_append_right rfl _).append _).append _

theorem holdsAt_mounts : HoldsAt (policyFile document) (mountStart document) (policyTables document).mounts := by
  rw [hdoc.policyFile_eq, ← List.append_assoc, ← List.append_assoc]
  refine (holdsAt_append_right ?_ _).append _
  rw [List.length_append, hdoc.length_packages]
  rfl

theorem holdsAt_strings :
    HoldsAt (policyFile document) (stringStart document) (policyTables document).strings.bytes := by
  rw [hdoc.policyFile_eq, ← List.append_assoc, ← List.append_assoc]
  refine holdsAt_append_right ?_ _
  rw [List.length_append, List.length_append, hdoc.length_packages, hdoc.length_mounts]
  rfl

theorem length_policyFile :
    (policyFile document).length = stringStart document + (policyTables document).strings.bytes.length := by
  rw [hdoc.policyFile_eq, List.length_append, List.length_append, List.length_append, hdoc.length_packages,
    hdoc.length_mounts]
  show 56 + _ = _
  rw [stringStart, mountStart, kHeaderSize]
  omega

theorem length_lt : stringStart document + (policyTables document).strings.bytes.length < 2 ^ 32 := by
  rw [← hdoc.length_policyFile, policyFile, List.length_append]
  exact hdoc.fits.file

theorem headerFields_eq : headerFields document (policyTables document) =
    [put32 kMagic, put16 kFormatVersion, put16 kSchemaVersion, put32 (UInt32.ofNat (policyFile document).length),
      put32 (crc32 ((policyFile document).drop kHeaderSize)), put64 (contentGeneration document),
      put32 (decodedHeader document).packageCount, put32 (decodedHeader document).mountCount,
      put32 (decodedHeader document).eventCount, put32 (decodedHeader document).packageOffset,
      put32 (decodedHeader document).mountOffset, put32 (decodedHeader document).eventOffset,
      put32 (decodedHeader document).stringOffset, put32 (decodedHeader document).headerFlags] := by
  have hdrop : (policyFile document).drop kHeaderSize = (policyTables document).payload := List.drop_left' rfl
  have hlength : (policyFile document).length = kHeaderSize + (policyTables document).payload.length :=
    List.length_append
  have hmount : UInt32.ofNat kHeaderSize + size32 (policyTables document).packages =
      (decodedHeader document).mountOffset := by
    rw [size32, hdoc.length_packages, ← UInt32.ofNat_add]
    rfl
  have hevent : (decodedHeader document).mountOffset + size32 (policyTables document).mounts =
      (decodedHeader document).eventOffset := by
    rw [size32, hdoc.length_mounts, decodedHeader, ← UInt32.ofNat_add]
    rfl
  have hstring : (decodedHeader document).eventOffset + size32 (policyTables document).events =
      (decodedHeader document).stringOffset := by
    rw [hdoc.placed.placed.events]
    exact UInt32.add_zero _
  rw [headerFields, hdrop, hlength]
  simp only [hmount, hevent, hstring, hdoc.eventCount_eq]
  rfl

/-! ## Reading the header -/

theorem strings_ne_nil : (policyTables document).strings.bytes ≠ [] := by
  obtain ⟨app, happ⟩ := List.exists_mem_of_ne_nil _ hdoc.apps_ne
  have hsorted : app ∈ sortedApps document := mem_sortOn.mpr happ
  obtain ⟨i, hi⟩ := List.getElem?_of_mem hsorted
  obtain ⟨part, ⟨name, users, processes, hname, -⟩, -⟩ := hdoc.placed.placed.packages.row i app hi
  have hlt := hdoc.length_lt
  have hlength := (hdoc.placed.placed.strings _ _ hname (by omega)).length_le
  intro hnil
  rw [hnil, List.length_append, List.length_singleton, List.length_nil] at hlength
  omega

theorem packageCount_toNat : (decodedHeader document).packageCount.toNat = document.apps.length :=
  UInt32.toNat_ofNat_of_lt' hdoc.fits.apps

theorem mountCount_toNat : (decodedHeader document).mountCount.toNat = mountCount document.apps :=
  UInt32.toNat_ofNat_of_lt' hdoc.fits.mounts

theorem mountOffset_toNat : (decodedHeader document).mountOffset.toNat = mountStart document := by
  have hlt := hdoc.length_lt
  have hstart : mountStart document ≤ stringStart document := Nat.le_add_right _ _
  exact UInt32.toNat_ofNat_of_lt' (show mountStart document < 2 ^ 32 by omega)

theorem eventOffset_toNat : (decodedHeader document).eventOffset.toNat = stringStart document := by
  have hlt := hdoc.length_lt
  exact UInt32.toNat_ofNat_of_lt' (show stringStart document < 2 ^ 32 by omega)

theorem stringOffset_toNat : (decodedHeader document).stringOffset.toNat = stringStart document :=
  hdoc.eventOffset_toNat

theorem readString_of_has {value : Bytes} {offset : UInt32} (h : (policyTables document).strings.Has value offset)
    (hvalue : 0 ∉ value) :
    readString (policyFile document) (decodedHeader document).stringOffset offset = some value := by
  have hlt := hdoc.length_lt
  refine readString_of_holdsAt ?_ hvalue
  rw [hdoc.stringOffset_toNat]
  exact hdoc.holdsAt_strings.trans (hdoc.placed.placed.strings value offset h (by omega))

theorem readHeader_policyFile : readHeader (policyFile document) = .ok (decodedHeader document) := by
  have hrow := hdoc.holdsAt_header
  rw [hdoc.headerFields_eq] at hrow
  have hlt := hdoc.length_lt
  have hlength := hdoc.length_policyFile
  have hsize : (UInt32.ofNat (policyFile document).length).toNat = (policyFile document).length :=
    UInt32.toNat_ofNat_of_lt' (show (policyFile document).length < 2 ^ 32 by omega)
  have hzero : (decodedHeader document).packageCount ≠ 0 := by
    intro hzero
    have happs := hdoc.packageCount_toNat
    rw [hzero] at happs
    exact hdoc.apps_ne (List.length_eq_zero_iff.mp happs.symm)
  have hflags : (decodedHeader document).headerFlags &&& ~~~kPolicyFlagAllowLegacyStringBind = 0 :=
    legacyFlag_and_not document.allowLegacyStringBind
  have hstrings := List.length_pos_iff.mpr hdoc.strings_ne_nil
  have hread0 : read32 (policyFile document) 0 = .ok kMagic := read32_of_holdsAt (hrow.field 0 rfl rfl)
  have hread4 : read16 (policyFile document) 4 = .ok kFormatVersion := read16_of_holdsAt (hrow.field 1 rfl rfl)
  have hread6 : read16 (policyFile document) 6 = .ok kSchemaVersion := read16_of_holdsAt (hrow.field 2 rfl rfl)
  have hread8 : read32 (policyFile document) kFileSizeOffset = .ok (UInt32.ofNat (policyFile document).length) :=
    read32_of_holdsAt (hrow.field 3 rfl rfl)
  have hread12 : read32 (policyFile document) kPayloadChecksumOffset =
      .ok (crc32 ((policyFile document).drop kHeaderSize)) := read32_of_holdsAt (hrow.field 4 rfl rfl)
  have hread24 : read32 (policyFile document) kPackageCountOffset = .ok (decodedHeader document).packageCount :=
    read32_of_holdsAt (hrow.field 6 rfl rfl)
  have hread28 : read32 (policyFile document) kMountRuleCountOffset = .ok (decodedHeader document).mountCount :=
    read32_of_holdsAt (hrow.field 7 rfl rfl)
  have hread32 : read32 (policyFile document) kEventRuleCountOffset = .ok (decodedHeader document).eventCount :=
    read32_of_holdsAt (hrow.field 8 rfl rfl)
  have hread36 : read32 (policyFile document) kPackageTableOffset = .ok (decodedHeader document).packageOffset :=
    read32_of_holdsAt (hrow.field 9 rfl rfl)
  have hread40 : read32 (policyFile document) kMountRuleTableOffset = .ok (decodedHeader document).mountOffset :=
    read32_of_holdsAt (hrow.field 10 rfl rfl)
  have hread44 : read32 (policyFile document) kEventRuleTableOffset = .ok (decodedHeader document).eventOffset :=
    read32_of_holdsAt (hrow.field 11 rfl rfl)
  have hread48 : read32 (policyFile document) kStringTableOffset = .ok (decodedHeader document).stringOffset :=
    read32_of_holdsAt (hrow.field 12 rfl rfl)
  have hread52 : read32 (policyFile document) kHeaderFlagsOffset = .ok (decodedHeader document).headerFlags :=
    read32_of_holdsAt (hrow.field 13 rfl rfl)
  simp only [readHeader, hread0, hread4, hread6, hread8, hread12, hread24, hread28, hread32, hread36, hread40, hread44,
    hread48, hread52, ok_bind]
  rw [if_neg]
  · rfl
  · have hevents : (decodedHeader document).eventCount.toNat = 0 := rfl
    have hpackage : (decodedHeader document).packageOffset.toNat = kHeaderSize := rfl
    have hmounts : kHeaderSize + document.apps.length * kPackageSize = mountStart document := rfl
    have hstart : mountStart document + mountCount document.apps * kMountRuleSize = stringStart document := rfl
    have hinside : ¬ (policyFile document).length ≤ stringStart document := by omega
    simp only [hdoc.packageCount_toNat, hdoc.mountCount_toNat, hdoc.mountOffset_toNat, hdoc.eventOffset_toNat,
      hdoc.stringOffset_toNat, hsize, hflags, hzero, hevents, hpackage, hmounts, hstart, hinside, Nat.zero_mul,
      Nat.add_zero, ne_eq, not_true_eq_false, decide_false, Bool.or_false, Bool.false_eq_true, not_false_eq_true]

end Canonical

/-! ## Reading the rows -/

theorem readMount_of_holdsAt {input : Bytes} {stringOffset visible backing : UInt32} {start : Nat}
    {rule : LogicalMountRule} (hrow : HoldsAt input start (mountFields rule visible backing).flatten)
    (hvisible : readString input stringOffset visible = some rule.visiblePath)
    (hbacking : readString input stringOffset backing = some rule.backingPath) :
    readMount input stringOffset start = .ok rule.clearLine := by
  have hread0 : read8 input (start + kMountActionOffset) = .ok rule.action.code :=
    read8_of_holdsAt (hrow.field 0 rfl rfl)
  have hread1 : read8 input (start + 1) = .ok 0 := read8_of_holdsAt (hrow.field 1 rfl rfl)
  have hread2 : read16 input (start + kMountDepthOffset) = .ok rule.depth := read16_of_holdsAt (hrow.field 2 rfl rfl)
  have hread4 : read16 input (start + kMountFlagsOffset) = .ok rule.flags := read16_of_holdsAt (hrow.field 3 rfl rfl)
  have hread6 : read16 input (start + 6) = .ok 0 := read16_of_holdsAt (hrow.field 4 rfl rfl)
  have hread8 : read32 input (start + kMountVisiblePathOffset) = .ok visible :=
    read32_of_holdsAt (hrow.field 5 rfl rfl)
  have hread12 : read32 input (start + kMountBackingPathOffset) = .ok backing :=
    read32_of_holdsAt (hrow.field 6 rfl rfl)
  simp only [readMount, hread0, hread1, hread2, hread4, hread6, hread8, hread12, ok_bind, MountAction.ofCode?_code,
    hvisible, hbacking]
  rfl

theorem readRules_ok {α : Type} {read : Nat → Read α} {tableOffset size : Nat} {first : UInt32} {rules : List α}
    {index : Nat}
    (h : ∀ i rule, rules[i]? = some rule →
      read (tableOffset + (first + UInt32.ofNat (index + i)).toNat * size) = .ok rule) :
    readRules read tableOffset size first rules.length index = .ok rules := by
  induction rules generalizing index with
  | nil => rfl
  | cons rule rules ih =>
      have hfirst := h 0 rule rfl
      have hrest : readRules read tableOffset size first rules.length (index + 1) = .ok rules := by
        refine ih fun i other hi => ?_
        have hnext := h (i + 1) other hi
        rwa [Nat.add_comm i 1, ← Nat.add_assoc] at hnext
      rw [Nat.add_zero] at hfirst
      rw [List.length_cons, readRules, hfirst, ok_bind, hrest]
      rfl

section PackageRow
variable {failureMode : FailureMode} {allowLegacyStringBind : Bool} {firstMount : Nat} {app : AppPolicy}
  {name users processes : UInt32} {input : Bytes} {start : Nat}

theorem readPackageStrings_of_holdsAt {stringOffset : UInt32}
    (hrow : HoldsAt input start
      (packageFields failureMode allowLegacyStringBind firstMount app name users processes).flatten)
    (hstrings : EncodableStrings app)
    (hname : readString input stringOffset name = some app.package)
    (husers : readString input stringOffset users = some (joinList app.users))
    (hprocesses : readString input stringOffset processes = some (joinList app.processes)) :
    readPackageStrings input stringOffset start = .ok (app.package, app.users, app.processes) := by
  have hread4 : read32 input (start + kPackageNameOffset) = .ok name := read32_of_holdsAt (hrow.field 1 rfl rfl)
  have hread8 : read32 input (start + kPackageUsersOffset) = .ok users := read32_of_holdsAt (hrow.field 2 rfl rfl)
  have hread12 : read32 input (start + kPackageProcessesOffset) = .ok processes :=
    read32_of_holdsAt (hrow.field 3 rfl rfl)
  simp only [readPackageStrings, hread4, hread8, hread12, ok_bind, hname, husers, hprocesses,
    splitList_joinList hstrings.users_ne hstrings.users, splitList_joinList hstrings.processes_ne hstrings.processes]
  rfl

theorem readPackageFlags_of_holdsAt
    (hrow : HoldsAt input start
      (packageFields failureMode allowLegacyStringBind firstMount app name users processes).flatten) :
    readPackageFlags input start = .ok (failureMode, app.mediaCompat, app.providerCompat) := by
  have hread40 : read8 input (start + kPackageFailureModeOffset) = .ok failureMode.code :=
    read8_of_holdsAt (hrow.field 9 rfl rfl)
  have hread41 : read8 input (start + kPackageMediaCompatOffset) = .ok app.mediaCompat.code :=
    read8_of_holdsAt (hrow.field 10 rfl rfl)
  have hread42 : read8 input (start + kPackageProviderCompatOffset) = .ok app.providerCompat.code :=
    read8_of_holdsAt (hrow.field 11 rfl rfl)
  have hread43 : read8 input (start + 43) = .ok 0 := read8_of_holdsAt (hrow.field 12 rfl rfl)
  have hread44 : read32 input (start + 44) = .ok 0 := read32_of_holdsAt (hrow.field 13 rfl rfl)
  simp only [readPackageFlags, hread40, hread41, hread42, hread43, hread44, ok_bind, FailureMode.ofCode?_code,
    MediaCompat.ofCode?_code, ProviderCompat.ofCode?_code]
  rfl

end PackageRow

/-! ## Source lines do not count -/

theorem canonicalPlan_clearLines (app : AppPolicy) (failureMode : FailureMode) (allowLegacyStringBind : Bool) :
    canonicalPlan app.clearLines failureMode allowLegacyStringBind =
      canonicalPlan app failureMode allowLegacyStringBind := by
  simp only [canonicalPlan, AppPolicy.clearLines, size32, List.length_map, List.flatMap_map]
  rfl

theorem planGeneration_clearLines (app : AppPolicy) (failureMode : FailureMode) (allowLegacyStringBind : Bool) :
    planGeneration app.clearLines failureMode allowLegacyStringBind =
      planGeneration app failureMode allowLegacyStringBind := by
  rw [planGeneration, planGeneration, canonicalPlan_clearLines]

theorem zipWith_sameMount_self (rules : List LogicalMountRule) : (rules.zipWith sameMount rules).all id = true := by
  simp [List.zipWith_self, sameMount]

theorem checkPackagePlan_clearLines {app : AppPolicy} (hvalid : validatePolicy app = .ok app)
    (hevents : app.events = []) (failureMode : FailureMode) (allowLegacyStringBind : Bool) :
    checkPackagePlan app.clearLines failureMode allowLegacyStringBind
      (planGeneration app failureMode allowLegacyStringBind) = .ok app.clearLines := by
  have hevents' : app.clearLines.events = [] := by rw [AppPolicy.clearLines, hevents]; rfl
  rw [checkPackagePlan, validatePolicy_clearLines hvalid]
  simp only [hevents', zipWith_sameMount_self, planGeneration_clearLines]
  simp

/-! ## The loop over the packages -/

/-- What the decoder carries after the packages of `done`. -/
def stateAfter (done : List AppPolicy) : DecodeState where
  apps := done.map AppPolicy.clearLines
  previousHash := (done.getLast?.map fun app => packageNameHash app.package).getD 0
  previousPackage := (done.getLast?.map AppPolicy.package).getD []
  expectedFirstMount := UInt32.ofNat (mountCount done)
  expectedFirstEvent := 0
  failureMode := .kOpen

theorem packageIndex_ordered {done todo : List AppPolicy} {app : AppPolicy}
    (hsorted : (done ++ app :: todo).Pairwise fun a b => packageSortKey a ≤ packageSortKey b)
    (hnodup : ((done ++ app :: todo).map AppPolicy.package).Nodup) :
    (0 < done.length && (packageNameHash app.package < (stateAfter done).previousHash ||
      packageNameHash app.package = (stateAfter done).previousHash &&
        app.package ≤ (stateAfter done).previousPackage)) = false := by
  cases hlast : done.getLast? with
  | none =>
      rw [List.getLast?_eq_none_iff] at hlast
      simp [hlast]
  | some last =>
      have hmem : last ∈ done := List.mem_of_getLast? hlast
      have hle : packageSortKey last ≤ packageSortKey app :=
        (List.pairwise_append.mp hsorted).2.2 last hmem app List.mem_cons_self
      have hne : last.package ≠ app.package := by
        rw [List.map_append, List.nodup_append] at hnodup
        exact hnodup.2.2 _ (List.mem_map_of_mem hmem) _ (List.mem_map_of_mem List.mem_cons_self)
      have hkeys : (packageNameHash last.package).toNat < (packageNameHash app.package).toNat ∨
          (packageNameHash last.package).toNat = (packageNameHash app.package).toNat ∧ last.package ≤ app.package :=
        Prod.Lex.toLex_le_toLex.mp hle
      have hhash : (stateAfter done).previousHash = packageNameHash last.package := by rw [stateAfter, hlast]; rfl
      have hpackage : (stateAfter done).previousPackage = last.package := by rw [stateAfter, hlast]; rfl
      rw [hhash, hpackage, Bool.and_eq_false_imp]
      intro _
      rw [Bool.or_eq_false_iff, Bool.and_eq_false_imp, decide_eq_false_iff_not, decide_eq_true_eq,
        decide_eq_false_iff_not, UInt32.lt_iff_toNat_lt, ← UInt32.toNat_inj]
      rcases hkeys with hlt | ⟨heq, hbelow⟩
      · exact ⟨by omega, fun h => absurd h (by omega)⟩
      · exact ⟨by omega, fun _ habove => hne (le_antisymm hbelow habove)⟩

theorem mem_apps_of_sortedApps {document : PolicyDocument} {done todo : List AppPolicy} {app : AppPolicy}
    (happs : sortedApps document = done ++ app :: todo) : app ∈ document.apps := by
  have hmem : app ∈ sortedApps document := by
    rw [happs]
    simp
  exact mem_sortOn.mp hmem

theorem mountCount_le {document : PolicyDocument} {done todo : List AppPolicy} {app : AppPolicy}
    (happs : sortedApps document = done ++ app :: todo) :
    mountCount done + app.mounts.length ≤ mountCount document.apps := by
  rw [← mountCount_sortedApps, happs, mountCount_append]
  simp [mountCount]

namespace Canonical
variable {document : PolicyDocument} (hdoc : Canonical document)
include hdoc

theorem readRules_mounts {done todo : List AppPolicy} {app : AppPolicy}
    (happs : sortedApps document = done ++ app :: todo) :
    readRules (readMount (policyFile document) (decodedHeader document).stringOffset)
      (decodedHeader document).mountOffset.toNat kMountRuleSize (UInt32.ofNat (mountCount done)) app.mounts.length 0 =
        .ok app.clearLines.mounts := by
  have hcount := mountCount_le happs
  have hfits := hdoc.fits.mounts
  have hlength : app.clearLines.mounts.length = app.mounts.length := List.length_map _
  rw [← hlength]
  refine readRules_ok fun i cleared hi => ?_
  rw [AppPolicy.clearLines, List.getElem?_map, Option.map_eq_some_iff] at hi
  obtain ⟨rule, hi, rfl⟩ := hi
  have hlt : i < app.mounts.length := (List.getElem?_eq_some_iff.mp hi).1
  have hindex : (UInt32.ofNat (mountCount done) + UInt32.ofNat (0 + i)).toNat = mountCount done + i := by
    rw [← UInt32.ofNat_add, Nat.zero_add]
    exact UInt32.toNat_ofNat_of_lt' (show mountCount done + i < 2 ^ 32 by omega)
  have hrule : ((sortedApps document).flatMap AppPolicy.mounts)[mountCount done + i]? = some rule := by
    rw [happs, List.flatMap_append, List.flatMap_cons, ← length_flatMap_mounts,
      List.getElem?_append_right (Nat.le_add_right _ _), Nat.add_sub_cancel_left, List.getElem?_append_left hlt, hi]
  obtain ⟨part, ⟨visible, backing, hvisible, hbacking, rfl⟩, hholds⟩ := hdoc.placed.placed.mounts.row _ rule hrule
  obtain ⟨-, -, -, -, hpaths⟩ := validatePolicy_strings (hdoc.valid app (mem_apps_of_sortedApps happs))
  obtain ⟨hvisible0, hbacking0⟩ := hpaths rule (List.mem_of_getElem? hi)
  rw [hindex, hdoc.mountOffset_toNat]
  exact readMount_of_holdsAt (hdoc.holdsAt_mounts.trans hholds) (hdoc.readString_of_has hvisible hvisible0)
    (hdoc.readString_of_has hbacking hbacking0)

theorem mountRange {done todo : List AppPolicy} {app : AppPolicy} (happs : sortedApps document = done ++ app :: todo) :
    UInt32.ofNat (mountCount done) ≤ (decodedHeader document).mountCount ∧
      ¬ (decodedHeader document).mountCount - UInt32.ofNat (mountCount done) < size32 app.mounts ∧
      (size32 app.mounts).toNat = app.mounts.length := by
  have hcount := mountCount_le happs
  have hfits := hdoc.fits.mounts
  have hsize : (size32 app.mounts).toNat = app.mounts.length :=
    UInt32.toNat_ofNat_of_lt' (show app.mounts.length < 2 ^ 32 by omega)
  have hfirst : (UInt32.ofNat (mountCount done)).toNat = mountCount done :=
    UInt32.toNat_ofNat_of_lt' (show mountCount done < 2 ^ 32 by omega)
  have hle : UInt32.ofNat (mountCount done) ≤ (decodedHeader document).mountCount := by
    rw [UInt32.le_iff_toNat_le, hfirst, hdoc.mountCount_toNat]
    omega
  refine ⟨hle, ?_, hsize⟩
  rw [UInt32.lt_iff_toNat_lt, UInt32.toNat_sub_of_le _ _ hle, hfirst, hdoc.mountCount_toNat, hsize]
  omega

theorem exists_packageRow {done todo : List AppPolicy} {app : AppPolicy}
    (happs : sortedApps document = done ++ app :: todo) :
    ∃ name users processes, (policyTables document).strings.Has app.package name ∧
      (policyTables document).strings.Has (joinList app.users) users ∧
      (policyTables document).strings.Has (joinList app.processes) processes ∧
      HoldsAt (policyFile document) (kHeaderSize + done.length * kPackageSize)
        (packageFields document.failureMode document.allowLegacyStringBind (mountCount done) app name users
          processes).flatten := by
  have hindex : (sortedApps document)[done.length]? = some app := by
    rw [happs, List.getElem?_append_right (le_refl _), Nat.sub_self]
    rfl
  obtain ⟨part, ⟨name, users, processes, hname, husers, hprocesses, rfl⟩, hholds⟩ :=
    hdoc.placed.placed.packages.row _ app hindex
  have htake : (sortedApps document).take done.length = done := by rw [happs, List.take_left]
  have hrow := hdoc.holdsAt_packages.trans hholds
  rw [htake] at hrow
  exact ⟨name, users, processes, hname, husers, hprocesses, hrow⟩

theorem decodePackage_ok {done todo : List AppPolicy} {app : AppPolicy}
    (happs : sortedApps document = done ++ app :: todo) :
    decodePackage (policyFile document) (decodedHeader document) document.allowLegacyStringBind done.length
      (stateAfter done) = .ok (stateAfter (done ++ [app])) := by
  have hmem := mem_apps_of_sortedApps happs
  have hstrings := hdoc.strings app hmem
  have hevents := (hdoc.executable app hmem).events
  obtain ⟨-, hrange, hsize⟩ := hdoc.mountRange happs
  obtain ⟨name, users, processes, hname, husers, hprocesses, hrow⟩ := hdoc.exists_packageRow happs
  have hpackageStrings := readPackageStrings_of_holdsAt hrow hstrings
    (hdoc.readString_of_has hname hstrings.package.nul_free)
    (hdoc.readString_of_has husers (nul_notMem_joinList hstrings.users))
    (hdoc.readString_of_has hprocesses (nul_notMem_joinList hstrings.processes))
  have hflags := readPackageFlags_of_holdsAt hrow
  have hordered := packageIndex_ordered (happs ▸ pairwise_sortedApps document) (happs ▸ hdoc.nodup_sortedApps)
  have hplan := checkPackagePlan_clearLines (hdoc.valid app hmem) hevents document.failureMode
    document.allowLegacyStringBind
  have hmounts := hdoc.readRules_mounts happs
  set entry := kHeaderSize + done.length * kPackageSize with hentry
  have hread0 : read32 (policyFile document) (entry + kPackageHashOffset) = .ok (packageNameHash app.package) :=
    read32_of_holdsAt (hrow.field 0 rfl rfl)
  have hread16 : read32 (policyFile document) (entry + kPackageFirstMountOffset) =
      .ok (UInt32.ofNat (mountCount done)) := read32_of_holdsAt (hrow.field 4 rfl rfl)
  have hread20 : read32 (policyFile document) (entry + kPackageMountCountOffset) = .ok (size32 app.mounts) :=
    read32_of_holdsAt (hrow.field 5 rfl rfl)
  have hread24 : read32 (policyFile document) (entry + kPackageFirstEventOffset) = .ok 0 :=
    read32_of_holdsAt (hrow.field 6 rfl rfl)
  have hread28 : read32 (policyFile document) (entry + kPackageEventCountOffset) = .ok (size32 app.events) :=
    read32_of_holdsAt (hrow.field 7 rfl rfl)
  have hread32 : read64 (policyFile document) (entry + kPackagePlanGenerationOffset) =
      .ok (planGeneration app document.failureMode document.allowLegacyStringBind) :=
    read64_of_holdsAt (hrow.field 8 rfl rfl)
  have hoffset : (decodedHeader document).packageOffset.toNat + done.length * kPackageSize = entry := rfl
  have hnoEvents : size32 app.events = 0 := by rw [hevents]; rfl
  have hself :
      ({ package := app.package, mediaCompat := app.mediaCompat, providerCompat := app.providerCompat,
         users := app.users, processes := app.processes, mounts := app.clearLines.mounts, events := [] } : AppPolicy) =
        app.clearLines := by
    rw [AppPolicy.clearLines, hevents]
    rfl
  have hstate : stateAfter (done ++ [app]) =
      { apps := (stateAfter done).apps ++ [app.clearLines], previousHash := packageNameHash app.package,
        previousPackage := app.package, expectedFirstMount := UInt32.ofNat (mountCount done) + size32 app.mounts,
        expectedFirstEvent := 0 } := by
    simp [stateAfter, UInt32.ofNat_add, size32, mountCount]
  rw [hdoc.failureMode] at hplan hread32 hflags
  have hfirstMount : (stateAfter done).expectedFirstMount = UInt32.ofNat (mountCount done) := rfl
  have hfirstEvent : (stateAfter done).expectedFirstEvent = 0 := rfl
  have hmode : (stateAfter done).failureMode = .kOpen := rfl
  have heventCount : (decodedHeader document).eventCount = 0 := rfl
  have hnoRules : ∀ read tableOffset, readRules (α := EventRule) read tableOffset kEventRuleSize 0
      (0 : UInt32).toNat 0 = .ok [] := fun _ _ => rfl
  simp only [decodePackage, hoffset, hread0, hpackageStrings, ok_bind, hordered, hflags, hread16, hread20, hread24,
    hread28, hread32, hsize, hmounts, hfirstMount, hfirstEvent, hmode, hrange, hnoEvents, hnoRules, hself, hplan,
    hstate, heventCount, ne_eq, not_true_eq_false, decide_false, Bool.or_false, Bool.and_false, Bool.false_eq_true,
    if_false, UInt32.sub_self, UInt32.lt_irrefl, UInt32.add_zero]
  rfl

theorem decodePackages_ok {done todo : List AppPolicy} (happs : sortedApps document = done ++ todo) :
    decodePackages (policyFile document) (decodedHeader document) document.allowLegacyStringBind todo.length
      done.length (stateAfter done) = .ok (stateAfter (sortedApps document)) := by
  induction todo generalizing done with
  | nil =>
      rw [happs, List.append_nil]
      rfl
  | cons app todo ih =>
      have hrest := @ih (done ++ [app]) (by rw [happs, List.append_assoc, List.singleton_append])
      rw [List.length_append, List.length_singleton] at hrest
      rw [List.length_cons, decodePackages, hdoc.decodePackage_ok happs, ok_bind, hrest]

end Canonical

/-! ## The two generations -/

/-- The document that comes back. -/
def decodedDocument (document : PolicyDocument) : PolicyDocument :=
  { document with apps := (sortedApps document).map AppPolicy.clearLines }

theorem map_package_clearLines (apps : List AppPolicy) :
    (apps.map AppPolicy.clearLines).map AppPolicy.package = apps.map AppPolicy.package := by
  rw [List.map_map]
  rfl

theorem eventCount_clearLines (apps : List AppPolicy) : eventCount (apps.map AppPolicy.clearLines) = eventCount apps := by
  simp only [eventCount, List.map_map]
  congr 1
  exact List.map_congr_left fun app _ => List.length_map _

theorem mountCount_clearLines (apps : List AppPolicy) : mountCount (apps.map AppPolicy.clearLines) = mountCount apps := by
  simp only [mountCount, List.map_map]
  congr 1
  exact List.map_congr_left fun app _ => List.length_map _

theorem addApp_clearLines (failureMode : FailureMode) (allowLegacyStringBind : Bool) (tables : PolicyTables)
    (app : AppPolicy) :
    tables.addApp failureMode allowLegacyStringBind app.clearLines =
      tables.addApp failureMode allowLegacyStringBind app := by
  simp only [PolicyTables.addApp, PolicyTables.addPackage, planGeneration_clearLines]
  simp only [AppPolicy.clearLines, List.foldl_map, size32, List.length_map]
  rfl

namespace Canonical
variable {document : PolicyDocument} (hdoc : Canonical document)
include hdoc

/-- The content generation depends on the apps, not on their order or their lines. -/
theorem contentGeneration_decodedDocument : contentGeneration (decodedDocument document) = contentGeneration document := by
  have hinj : ∀ a ∈ sortedApps document, ∀ b ∈ sortedApps document, a.package = b.package → a = b :=
    fun a ha b hb => List.inj_on_of_nodup_map hdoc.nodup_sortedApps ha hb
  have hsort : sortOn AppPolicy.package (decodedDocument document).apps =
      (sortOn AppPolicy.package document.apps).map AppPolicy.clearLines := by
    rw [← sortOn_eq_of_perm (sortedApps_perm document) hinj]
    exact sortOn_map AppPolicy.clearLines (sortedApps document) fun app _ => rfl
  simp only [contentGeneration, hsort, List.flatMap_map, canonicalPlan_clearLines, size32, List.length_map]
  rfl

theorem decodePolicy_policyFile :
    decodePolicy (policyFile document) = .ok (decodedDocument document, contentGeneration document) := by
  have hlength := hdoc.length_policyFile
  have hlarge : ¬ (policyFile document).length < kHeaderSize := by
    rw [hlength, stringStart, mountStart]
    omega
  have hflag : (((decodedHeader document).headerFlags &&& kPolicyFlagAllowLegacyStringBind) != 0) =
      document.allowLegacyStringBind := legacyFlag_and document.allowLegacyStringBind
  have hloop : decodePackages (policyFile document) (decodedHeader document) document.allowLegacyStringBind
      (sortedApps document).length 0 {} = .ok (stateAfter (sortedApps document)) :=
    @decodePackages_ok document hdoc [] (sortedApps document) rfl
  have hread16 : read64 (policyFile document) kContentGenerationOffset = .ok (contentGeneration document) := by
    have hrow := hdoc.holdsAt_header
    rw [hdoc.headerFields_eq] at hrow
    exact read64_of_holdsAt (hrow.field 5 rfl rfl)
  have hcount : (decodedHeader document).packageCount.toNat = (sortedApps document).length := by
    rw [hdoc.packageCount_toNat, (sortedApps_perm document).length_eq]
  have hfirstMount : (stateAfter (sortedApps document)).expectedFirstMount = (decodedHeader document).mountCount := by
    rw [stateAfter, mountCount_sortedApps]
    rfl
  have hfirstEvent : (stateAfter (sortedApps document)).expectedFirstEvent = (decodedHeader document).eventCount := rfl
  have hdecoded : ({ schema := kSchemaVersion.toNat, failureMode := (stateAfter (sortedApps document)).failureMode,
                     allowLegacyStringBind := document.allowLegacyStringBind,
                     apps := (stateAfter (sortedApps document)).apps } : PolicyDocument) = decodedDocument document := by
    rw [decodedDocument, hdoc.schema, hdoc.failureMode]
    rfl
  simp only [decodePolicy, hlarge, if_false, hdoc.readHeader_policyFile, ok_bind, hflag, hcount, hloop, hfirstMount,
    hfirstEvent, hread16, hdecoded, hdoc.contentGeneration_decodedDocument, ne_eq, not_true_eq_false, decide_false,
    Bool.or_false, Bool.false_eq_true]
  rfl

end Canonical

/-! ## Writing it again -/

theorem sortedApps_decodedDocument (document : PolicyDocument) :
    sortedApps (decodedDocument document) = (sortedApps document).map AppPolicy.clearLines := by
  refine sortOn_of_pairwise ?_
  rw [decodedDocument, List.pairwise_map]
  exact pairwise_sortedApps document

theorem policyTables_decodedDocument (document : PolicyDocument) :
    policyTables (decodedDocument document) = policyTables document := by
  have happs : sortOn packageSortKey (decodedDocument document).apps =
      (sortedApps document).map AppPolicy.clearLines := sortedApps_decodedDocument document
  rw [policyTables, happs, List.foldl_map]
  simp only [addApp_clearLines]
  rfl

theorem length_apps_decodedDocument (document : PolicyDocument) :
    (decodedDocument document).apps.length = document.apps.length := by
  rw [decodedDocument, List.length_map, (sortedApps_perm document).length_eq]

theorem mountCount_decodedDocument (document : PolicyDocument) :
    mountCount (decodedDocument document).apps = mountCount document.apps := by
  rw [decodedDocument, mountCount_clearLines, mountCount_sortedApps]

theorem eventCount_decodedDocument (document : PolicyDocument) :
    eventCount (decodedDocument document).apps = eventCount document.apps := by
  rw [decodedDocument, eventCount_clearLines, eventCount_sortedApps]

theorem Fits.decodedDocument {document : PolicyDocument} (h : Fits document) : Fits (decodedDocument document) where
  apps := by
    rw [length_apps_decodedDocument]
    exact h.apps
  mounts := by
    rw [mountCount_decodedDocument]
    exact h.mounts
  events := by
    rw [eventCount_decodedDocument]
    exact h.events
  file := by
    rw [policyTables_decodedDocument]
    exact h.file

namespace Canonical
variable {document : PolicyDocument} (hdoc : Canonical document)
include hdoc

theorem policyFile_decodedDocument : policyFile (decodedDocument document) = policyFile document := by
  have hlegacy : (decodedDocument document).allowLegacyStringBind = document.allowLegacyStringBind := rfl
  simp only [policyFile, policyTables_decodedDocument, headerFields, hdoc.contentGeneration_decodedDocument, size32,
    length_apps_decodedDocument, mountCount_decodedDocument, eventCount_decodedDocument, hlegacy]

theorem canonicalizeDocument_decodedDocument :
    canonicalizeDocument (decodedDocument document) = .ok (decodedDocument document) := by
  have hvalid : ∀ app ∈ (decodedDocument document).apps, validatePolicy app = .ok app ∧ Executable app := by
    intro cleared hcleared
    obtain ⟨app, happ, rfl⟩ := List.mem_map.mp hcleared
    have hmem := (sortedApps_perm document).mem_iff.mp happ
    have hexec := hdoc.executable app hmem
    refine ⟨validatePolicy_clearLines (hdoc.valid app hmem), hexec.mediaCompat, ?_, ?_⟩
    · exact List.forall_mem_map.mpr hexec.mounts
    · rw [AppPolicy.clearLines, hexec.events]
      rfl
  have hnodup : ((decodedDocument document).apps.map AppPolicy.package).Nodup := by
    rw [decodedDocument, map_package_clearLines]
    exact hdoc.nodup_sortedApps
  have hne : (decodedDocument document).apps ≠ [] := by
    rw [← List.length_pos_iff, length_apps_decodedDocument, List.length_pos_iff]
    exact hdoc.apps_ne
  have happs : canonicalizeApps (decodedDocument document).apps [] = .ok (decodedDocument document).apps :=
    canonicalizeApps_ok_iff.mpr ⟨List.forall₂_same.mpr hvalid, hnodup, by simp⟩
  exact canonicalizeDocument_ok_iff.mpr ⟨hdoc.schema, hdoc.failureMode, hne, happs, rfl⟩

theorem encodePolicy_decodedDocument : encodePolicy (decodedDocument document) = .ok (policyFile document) :=
  encodePolicy_ok_iff.mpr ⟨decodedDocument document, hdoc.canonicalizeDocument_decodedDocument,
    hdoc.fits.decodedDocument, hdoc.policyFile_decodedDocument.symm⟩

theorem computeContentGeneration_decodedDocument :
    computeContentGeneration (decodedDocument document) = contentGeneration document := by
  rw [computeContentGeneration, hdoc.canonicalizeDocument_decodedDocument]
  exact hdoc.contentGeneration_decodedDocument

end Canonical

/-! ## The round trip -/

/-- The kind of strings the rules compiler produces. -/
structure CompilerStrings (app : AppPolicy) : Prop extends EncodableStrings app where
  userNumbers : (app.users.map fromCharsUnsigned).Nodup

/-- **Round trip.** What `EncodePolicy` wrote, `DecodePolicy` reads: the apps of the canonical document in the order
of the package table, with nothing lost but the source lines. The document that comes back is encoded to the same
bytes. -/
theorem decodePolicy_encodePolicy {document : PolicyDocument} {bytes : Bytes}
    (hencode : encodePolicy document = .ok bytes) (hstrings : ∀ app ∈ document.apps, CompilerStrings app) :
    ∃ canonical decoded, canonicalizeDocument document = .ok canonical ∧
      decodePolicy bytes = .ok (decoded, computeContentGeneration document) ∧
      decoded.apps = (sortOn packageSortKey canonical.apps).map AppPolicy.clearLines ∧
      decoded.allowLegacyStringBind = document.allowLegacyStringBind ∧
      encodePolicy decoded = .ok bytes := by
  obtain ⟨canonical, hcanonical, hfits, rfl⟩ := encodePolicy_ok_iff.mp hencode
  have hdoc := canonical_of_ok hcanonical (fun app happ => (hstrings app happ).toEncodableStrings) hfits
  have hgeneration : computeContentGeneration document = contentGeneration canonical := by
    rw [computeContentGeneration, hcanonical]
  have hlegacy : canonical.allowLegacyStringBind = document.allowLegacyStringBind := by
    obtain ⟨-, -, -, -, heq⟩ := canonicalizeDocument_ok_iff.mp hcanonical
    rw [heq]
  refine ⟨canonical, decodedDocument canonical, hcanonical, ?_, rfl, hlegacy, hdoc.encodePolicy_decodedDocument⟩
  rw [hgeneration]
  exact hdoc.decodePolicy_policyFile

/-- An app with a redirect and a deny rule, and one for two users, with source lines. -/
def sampleDocument : PolicyDocument where
  schema := 2
  apps := [
    { package := ascii "b.app"
      mounts := [{ action := .redirect, visiblePath := ascii "Music", backingPath := ascii "Data", line := 4 },
        { action := .deny, visiblePath := ascii "DCIM", line := 5 }] },
    { package := ascii "a.app", users := [ascii "10", ascii "0"] }]

theorem compilerStrings_sampleDocument : ∀ app ∈ sampleDocument.apps, CompilerStrings app := by
  have hitem : ∀ item : Bytes, item ≠ [] ∧ 0 ∉ item ∧ comma ∉ item → ListItem item :=
    fun _ h => ⟨h.1, h.2.1, h.2.2⟩
  intro app happ
  rcases List.mem_pair.mp happ with rfl | rfl
  · exact ⟨⟨hitem _ (by decide), by decide, fun user huser => hitem user (by revert user; decide), by decide,
      fun process hprocess => hitem process (by revert process; decide)⟩, by decide⟩
  · exact ⟨⟨hitem _ (by decide), by decide, fun user huser => hitem user (by revert user; decide), by decide,
      fun process hprocess => hitem process (by revert process; decide)⟩, by decide⟩

theorem decodePolicy_encodePolicy_sample :
    ∃ bytes, encodePolicy sampleDocument = .ok bytes ∧
      ∃ canonical decoded, canonicalizeDocument sampleDocument = .ok canonical ∧
        decodePolicy bytes = .ok (decoded, computeContentGeneration sampleDocument) ∧
        decoded.apps = (sortOn packageSortKey canonical.apps).map AppPolicy.clearLines ∧
        decoded.allowLegacyStringBind = sampleDocument.allowLegacyStringBind ∧
        encodePolicy decoded = .ok bytes := by
  have hok : (encodePolicy sampleDocument).isOk = true := by decide +kernel
  cases hencode : encodePolicy sampleDocument with
  | error failure => simp [hencode, Except.isOk, Except.toBool] at hok
  | ok bytes =>
      exact ⟨bytes, rfl, decodePolicy_encodePolicy hencode compilerStrings_sampleDocument⟩

end PathGuard

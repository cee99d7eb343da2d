import PathGuard.Lib.Layout
import PathGuard.Core.Binary
import PathGuard.Core.ValidationSpec

/-!
# What `EncodePolicy` writes

Which documents have a canonical form, and the layout of the file: a header, a row for every package and for every
mount rule, each at its index, and a string table that holds every string a row points to.

* `canonicalizeDocument_ok_iff` : the documents that have a canonical form;
* `Placed`, `PlacedApps` : what the tables hold of the rules, and of the apps, that were added;
* `policyFile` : the file as its layout; `encodePolicy_ok_iff` : the encoder writes it.
-/

namespace PathGuard

/-! ## Canonical documents -/

/-- The last checks of `CanonicalizeDocument`: what the executor can carry out. -/
structure Executable (app : AppPolicy) : Prop where
  mediaCompat : app.mediaCompat = .off
  mounts : ∀ rule ∈ app.mounts, rule.action = .redirect ∨ rule.action = .deny
  events : app.events = []

theorem canonicalizeApps_ok_iff {apps out : List AppPolicy} {packages : List Bytes} :
    canonicalizeApps apps packages = .ok out ↔
      List.Forall₂ (fun app out => validatePolicy app = .ok out ∧ Executable out) apps out ∧
        (out.map AppPolicy.package).Nodup ∧ ∀ package ∈ out.map AppPolicy.package, package ∉ packages := by
  induction apps generalizing out packages with
  | nil =>
      rw [canonicalizeApps, List.forall₂_nil_left_iff]
      constructor
      · intro h
        obtain rfl := Except.ok.inj h
        simp
      · rintro ⟨rfl, -⟩
        rfl
  | cons app apps ih =>
      rw [canonicalizeApps, List.forall₂_cons_left_iff]
      constructor
      · intro h
        split at h
        · cases h
        · next hseen =>
          obtain ⟨o, ho, h⟩ := bind_ok_iff.mp h
          have hpackage := (validatePolicy_strings ho).1
          split at h
          · cases h
          · next hmedia =>
            split at h
            · cases h
            · next hmounts =>
              split at h
              · cases h
              · next hevents =>
                obtain ⟨out', hrest, hout⟩ := bind_ok_iff.mp h
                obtain rfl := Except.ok.inj hout
                obtain ⟨hforall, hnodup, hfresh⟩ := ih.mp hrest
                have hexec : Executable o := by
                  refine ⟨not_not.mp hmedia, fun rule hrule => ?_, by simpa using hevents⟩
                  simp only [List.any_eq_true, not_exists, not_and] at hmounts
                  simpa [or_iff_not_imp_left] using hmounts rule hrule
                rw [List.map_cons, List.nodup_cons, List.forall_mem_cons]
                refine ⟨⟨o, out', ⟨ho, hexec⟩, hforall, rfl⟩, ⟨fun hmem => hfresh _ hmem (by simp), hnodup⟩, ?_,
                  fun package hmem hin => hfresh package hmem (List.mem_append_left _ hin)⟩
                rw [hpackage]
                simpa using hseen
      · rintro ⟨⟨o, out', ⟨ho, hexec⟩, hforall, rfl⟩, hnodup, hfresh⟩
        rw [List.map_cons, List.nodup_cons] at hnodup
        rw [List.map_cons, List.forall_mem_cons] at hfresh
        have hpackage := (validatePolicy_strings ho).1
        rw [if_neg (by simpa [← hpackage] using hfresh.1), bind_ok_iff]
        refine ⟨o, ho, ?_⟩
        have hkinds : (o.mounts.any fun rule => rule.action ≠ .redirect && rule.action ≠ .deny) = false := by
          simpa [List.any_eq_false, or_iff_not_imp_left] using hexec.mounts
        rw [if_neg (by simpa using hexec.mediaCompat), hkinds, if_neg (by decide), if_neg (by simp [hexec.events]),
          bind_ok_iff]
        refine ⟨out', ih.mpr ⟨hforall, hnodup.2, fun package hmem hin => ?_⟩, rfl⟩
        rcases List.mem_append.mp hin with hin | hin
        · exact hfresh.2 package hmem hin
        · exact hnodup.1 (List.mem_singleton.mp hin ▸ hmem)

theorem canonicalizeDocument_ok_iff {document canonical : PolicyDocument} :
    canonicalizeDocument document = .ok canonical ↔
      document.schema = kSchemaVersion.toNat ∧ document.failureMode = .kOpen ∧ document.apps ≠ [] ∧
        canonicalizeApps document.apps [] = .ok canonical.apps ∧
        canonical = { document with apps := canonical.apps } := by
  unfold canonicalizeDocument
  split
  · next h =>
    simp only [reduceCtorEq, false_iff]
    rintro ⟨hschema, hmode, happs, -⟩
    simp [hschema, hmode, happs] at h
  · next h =>
    simp only [Bool.or_eq_true, decide_eq_true_eq, List.isEmpty_iff, not_or, not_not] at h
    rw [bind_ok_iff]
    constructor
    · rintro ⟨apps, happs, hout⟩
      obtain rfl := Except.ok.inj hout
      exact ⟨h.1.1, h.1.2, h.2, happs, rfl⟩
    · rintro ⟨-, -, -, happs, hcanonical⟩
      exact ⟨canonical.apps, happs, by rw [← hcanonical]; rfl⟩

/-! ## The string table -/

def StringTable.Has (table : StringTable) (value : Bytes) (offset : UInt32) : Prop :=
  table.offsets.lookup value = some offset

/-- Every string stands at its offset, with its NUL, as long as the offsets have not wrapped. -/
def StringTable.Sound (table : StringTable) : Prop :=
  ∀ value offset, table.Has value offset → table.bytes.length < 2 ^ 32 →
    HoldsAt table.bytes offset.toNat (value ++ [0])

/-- A string that is in the table stays where it is. -/
def StringTable.Grows (table table' : StringTable) : Prop :=
  ∀ value offset, table.Has value offset → table'.Has value offset

theorem StringTable.Grows.trans {t t' t'' : StringTable} (h : t.Grows t') (h' : t'.Grows t'') : t.Grows t'' :=
  fun value offset hvalue => h' value offset (h value offset hvalue)

theorem StringTable.has_add (table : StringTable) (value : Bytes) : (table.add value).2.Has value (table.add value).1 := by
  unfold StringTable.add StringTable.Has
  split
  · next h => exact h
  · next h => rw [List.lookup_append, h, List.lookup_cons_self, Option.none_or]

theorem StringTable.grows_add (table : StringTable) (value : Bytes) : table.Grows (table.add value).2 := by
  intro other offset hother
  unfold StringTable.add StringTable.Has at *
  split
  · exact hother
  · rw [List.lookup_append, hother, Option.some_or]

theorem StringTable.Sound.add {table : StringTable} (h : table.Sound) (value : Bytes) : (table.add value).2.Sound := by
  intro other offset hother
  unfold StringTable.add StringTable.Has at *
  split at hother
  · exact h other offset hother
  · next hnone =>
    intro hlength
    simp only [List.length_append, List.length_singleton] at hlength
    rw [List.lookup_append] at hother
    cases hold : table.offsets.lookup other with
    | some first =>
        rw [hold, Option.some_or, Option.some.injEq] at hother
        subst hother
        rw [List.append_assoc]
        exact (h other first hold (by omega)).append _
    | none =>
        rw [hold, Option.none_or, List.lookup_cons, List.lookup_nil] at hother
        split at hother
        · next heq =>
          rw [eq_of_beq heq, ← Option.some.inj hother, List.append_assoc]
          refine holdsAt_append_right ?_ _
          rw [size32, UInt32.toNat_ofNat_of_lt' (show table.bytes.length < 2 ^ 32 by omega)]
        · cases hother

theorem StringTable.sound_initial : StringTable.initial.Sound :=
  StringTable.Sound.add (fun _ _ h => absurd h (by simp [StringTable.Has])) []

/-! ## The rows -/

def mountFields (rule : LogicalMountRule) (visible backing : UInt32) : List Bytes :=
  [put8 rule.action.code, put8 0, put16 rule.depth, put16 rule.flags, put16 0, put32 visible, put32 backing]

/-- `part` is the row of `rule`. -/
def IsMountRow (strings : StringTable) (_ : Nat) (rule : LogicalMountRule) (part : Bytes) : Prop :=
  ∃ visible backing, strings.Has rule.visiblePath visible ∧ strings.Has rule.backingPath backing ∧
    part = (mountFields rule visible backing).flatten

section Layout
variable (failureMode : FailureMode) (allowLegacyStringBind : Bool)

def packageFields (firstMount : Nat) (app : AppPolicy) (name users processes : UInt32) : List Bytes :=
  [put32 (packageNameHash app.package), put32 name, put32 users, put32 processes, put32 (UInt32.ofNat firstMount),
    put32 (size32 app.mounts), put32 0, put32 (size32 app.events),
    put64 (planGeneration app failureMode allowLegacyStringBind), put8 failureMode.code, put8 app.mediaCompat.code,
    put8 app.providerCompat.code, put8 0, put32 0]

/-- `part` is the row of `app`, the app at `index` of `apps`. -/
def IsPackageRow (apps : List AppPolicy) (strings : StringTable) (index : Nat) (app : AppPolicy) (part : Bytes) :
    Prop :=
  ∃ name users processes, strings.Has app.package name ∧ strings.Has (joinList app.users) users ∧
    strings.Has (joinList app.processes) processes ∧
    part = (packageFields failureMode allowLegacyStringBind (mountCount (apps.take index)) app name users
      processes).flatten

/-- The tables after the packages of `done`, the first of `apps`, and after `rules`. -/
structure Placed (apps done : List AppPolicy) (rules : List LogicalMountRule) (tables : PolicyTables) : Prop where
  strings : tables.strings.Sound
  packages : Rows kPackageSize (IsPackageRow failureMode allowLegacyStringBind apps tables.strings) done tables.packages
  mounts : Rows kMountRuleSize (IsMountRow tables.strings) rules tables.mounts
  events : tables.events = []

variable {failureMode allowLegacyStringBind} {apps done : List AppPolicy} {rules : List LogicalMountRule}
  {tables : PolicyTables}

theorem IsMountRow.grows {strings strings' : StringTable} (h : strings.Grows strings') {index : Nat}
    {rule : LogicalMountRule} {part : Bytes} (hrow : IsMountRow strings index rule part) :
    IsMountRow strings' index rule part := by
  obtain ⟨visible, backing, hvisible, hbacking, hpart⟩ := hrow
  exact ⟨visible, backing, h _ _ hvisible, h _ _ hbacking, hpart⟩

theorem IsPackageRow.grows {strings strings' : StringTable} (h : strings.Grows strings') {index : Nat}
    {app : AppPolicy} {part : Bytes} (hrow : IsPackageRow failureMode allowLegacyStringBind apps strings index app part) :
    IsPackageRow failureMode allowLegacyStringBind apps strings' index app part := by
  obtain ⟨name, users, processes, hname, husers, hprocesses, hpart⟩ := hrow
  exact ⟨name, users, processes, h _ _ hname, h _ _ husers, h _ _ hprocesses, hpart⟩

theorem Placed.addMount (h : Placed failureMode allowLegacyStringBind apps done rules tables)
    (rule : LogicalMountRule) :
    Placed failureMode allowLegacyStringBind apps done (rules ++ [rule]) (tables.addMount rule) := by
  have hfirst := tables.strings.grows_add rule.visiblePath
  have hsecond := (tables.strings.add rule.visiblePath).2.grows_add rule.backingPath
  have hgrows := hfirst.trans hsecond
  refine ⟨(h.strings.add _).add _, h.packages.imp fun _ _ _ => IsPackageRow.grows hgrows, ?_, h.events⟩
  have hrows := (h.mounts.imp fun _ _ _ => IsMountRow.grows hgrows).append rule
    ⟨_, _, hsecond _ _ (StringTable.has_add _ _), StringTable.has_add _ _, rfl⟩ rfl
  simpa [PolicyTables.addMount, mountFields, List.append_assoc] using hrows

theorem Placed.addPackage (h : Placed failureMode allowLegacyStringBind apps done rules tables) (app : AppPolicy)
    (hmount : tables.firstMount = UInt32.ofNat (mountCount (apps.take done.length))) (hevent : tables.firstEvent = 0) :
    Placed failureMode allowLegacyStringBind apps (done ++ [app]) rules
      (tables.addPackage failureMode allowLegacyStringBind app) := by
  have hfirst := tables.strings.grows_add app.package
  have hsecond := (tables.strings.add app.package).2.grows_add (joinList app.users)
  have hthird := ((tables.strings.add app.package).2.add (joinList app.users)).2.grows_add (joinList app.processes)
  have hgrows := (hfirst.trans hsecond).trans hthird
  refine ⟨((h.strings.add _).add _).add _, ?_, h.mounts.imp fun _ _ _ => IsMountRow.grows hgrows, h.events⟩
  have hrows := (h.packages.imp fun _ _ _ => IsPackageRow.grows hgrows).append app
    ⟨_, _, _, (hsecond.trans hthird) _ _ (StringTable.has_add _ _), hthird _ _ (StringTable.has_add _ _),
      StringTable.has_add _ _, rfl⟩ rfl
  simpa [PolicyTables.addPackage, packageFields, List.append_assoc, hmount, hevent] using hrows

theorem Placed.addMounts (h : Placed failureMode allowLegacyStringBind apps done rules tables)
    (more : List LogicalMountRule) :
    Placed failureMode allowLegacyStringBind apps done (rules ++ more) (more.foldl PolicyTables.addMount tables) := by
  induction more generalizing rules tables with
  | nil => simpa using h
  | cons rule more ih => simpa using ih (h.addMount rule)

theorem foldl_addMount_firsts (rules : List LogicalMountRule) (tables : PolicyTables) :
    (rules.foldl PolicyTables.addMount tables).firstMount = tables.firstMount ∧
      (rules.foldl PolicyTables.addMount tables).firstEvent = tables.firstEvent := by
  induction rules generalizing tables with
  | nil => exact ⟨rfl, rfl⟩
  | cons rule rules ih => exact ih (tables.addMount rule)

theorem mountCount_append (apps apps' : List AppPolicy) :
    mountCount (apps ++ apps') = mountCount apps + mountCount apps' := by
  simp [mountCount]

theorem length_flatMap_mounts (apps : List AppPolicy) : (apps.flatMap AppPolicy.mounts).length = mountCount apps :=
  List.length_flatMap

variable (failureMode allowLegacyStringBind) in
/-- Between two rounds of the loop: the tables, and the two running counts. -/
structure PlacedApps (apps done : List AppPolicy) (tables : PolicyTables) : Prop where
  placed : Placed failureMode allowLegacyStringBind apps done (done.flatMap AppPolicy.mounts) tables
  firstMount : tables.firstMount = UInt32.ofNat (mountCount done)
  firstEvent : tables.firstEvent = 0

theorem PlacedApps.addApp (h : PlacedApps failureMode allowLegacyStringBind apps done tables) {app : AppPolicy}
    (htake : apps.take done.length = done) (hevents : app.events = []) :
    PlacedApps failureMode allowLegacyStringBind apps (done ++ [app])
      (tables.addApp failureMode allowLegacyStringBind app) := by
  have hpackage := h.placed.addPackage app (by rw [htake, h.firstMount]) h.firstEvent
  have hmounts := hpackage.addMounts app.mounts
  obtain ⟨hfirst, hevent⟩ := foldl_addMount_firsts app.mounts
    (tables.addPackage failureMode allowLegacyStringBind app)
  refine ⟨?_, ?_, ?_⟩
  · rw [List.flatMap_append, List.flatMap_singleton]
    rw [PolicyTables.addApp, hevents]
    exact ⟨hmounts.strings, hmounts.packages, hmounts.mounts, hmounts.events⟩
  · rw [PolicyTables.addApp, hevents]
    show (app.mounts.foldl PolicyTables.addMount _).firstMount + size32 app.mounts = _
    rw [hfirst, mountCount_append, UInt32.ofNat_add, ← h.firstMount]
    simp [size32, mountCount, PolicyTables.addPackage]
  · rw [PolicyTables.addApp, hevents]
    show (app.mounts.foldl PolicyTables.addMount _).firstEvent + size32 [] = _
    rw [hevent]
    simp [PolicyTables.addPackage, size32, h.firstEvent]

theorem PlacedApps.addApps {todo : List AppPolicy} (h : PlacedApps failureMode allowLegacyStringBind apps done tables)
    (happs : apps = done ++ todo) (hevents : ∀ app ∈ todo, app.events = []) :
    PlacedApps failureMode allowLegacyStringBind apps apps
      (todo.foldl (PolicyTables.addApp failureMode allowLegacyStringBind) tables) := by
  induction todo generalizing done tables with
  | nil => simpa [happs] using h
  | cons app todo ih =>
      rw [List.forall_mem_cons] at hevents
      refine ih (h.addApp ?_ hevents.1) (by simp [happs]) hevents.2
      rw [happs, List.take_left]

theorem placedApps_initial : PlacedApps failureMode allowLegacyStringBind apps [] {} :=
  ⟨⟨StringTable.sound_initial, rows_nil _ _, rows_nil _ _, rfl⟩, rfl, rfl⟩

end Layout

/-! ## The file -/

/-- The tables of a canonical document. -/
def policyTables (canonical : PolicyDocument) : PolicyTables :=
  (sortOn packageSortKey canonical.apps).foldl
    (PolicyTables.addApp canonical.failureMode canonical.allowLegacyStringBind) {}

/-- All that follows the header. -/
def PolicyTables.payload (tables : PolicyTables) : Bytes :=
  tables.packages ++ tables.mounts ++ tables.events ++ tables.strings.bytes

def headerFields (canonical : PolicyDocument) (tables : PolicyTables) : List Bytes :=
  let packageOffset := UInt32.ofNat kHeaderSize
  let mountOffset := packageOffset + size32 tables.packages
  let eventOffset := mountOffset + size32 tables.mounts
  let stringOffset := eventOffset + size32 tables.events
  [put32 kMagic, put16 kFormatVersion, put16 kSchemaVersion,
    put32 (UInt32.ofNat (kHeaderSize + tables.payload.length)), put32 (crc32 tables.payload),
    put64 (contentGeneration canonical), put32 (size32 canonical.apps),
    put32 (UInt32.ofNat (mountCount canonical.apps)), put32 (UInt32.ofNat (eventCount canonical.apps)),
    put32 packageOffset, put32 mountOffset, put32 eventOffset, put32 stringOffset,
    put32 (if canonical.allowLegacyStringBind then kPolicyFlagAllowLegacyStringBind else 0)]

/-- The file of a canonical document. -/
def policyFile (canonical : PolicyDocument) : Bytes :=
  (headerFields canonical (policyTables canonical)).flatten ++ (policyTables canonical).payload

/-- Everything `EncodePolicy` counts can be counted in 32 bits. -/
structure Fits (canonical : PolicyDocument) : Prop where
  apps : canonical.apps.length < 2 ^ 32
  mounts : mountCount canonical.apps < 2 ^ 32
  events : eventCount canonical.apps < 2 ^ 32
  file : kHeaderSize + (policyTables canonical).payload.length < 2 ^ 32

theorem store32_policyHeader (canonical : PolicyDocument) (tables : PolicyTables) :
    store32 (policyHeader canonical tables (kHeaderSize + tables.payload.length) ++ tables.payload)
      kPayloadChecksumOffset (crc32 tables.payload) = (headerFields canonical tables).flatten ++ tables.payload := by
  simp only [policyHeader, List.append_assoc]
  rfl

theorem drop_policyHeader (canonical : PolicyDocument) (tables : PolicyTables) (fileSize : Nat) (payload : Bytes) :
    (policyHeader canonical tables fileSize ++ payload).drop kHeaderSize = payload :=
  List.drop_left' rfl

theorem encodePolicy_eq (document : PolicyDocument) : encodePolicy document = (do
    let canonical ← canonicalizeDocument document
    if 2 ^ 32 ≤ canonical.apps.length || 2 ^ 32 ≤ mountCount canonical.apps || 2 ^ 32 ≤ eventCount canonical.apps then
      .error ⟨0, "policy table count overflow"⟩
    else if 2 ^ 32 ≤ kHeaderSize + (policyTables canonical).payload.length then .error ⟨0, "policy file too large"⟩
    else .ok (policyFile canonical)) := by
  have htables : ∀ canonical : PolicyDocument, (sortOn packageSortKey canonical.apps).foldl
      (PolicyTables.addApp canonical.failureMode canonical.allowLegacyStringBind) {} = policyTables canonical :=
    fun _ => rfl
  have hpayload : ∀ tables : PolicyTables,
      tables.packages ++ tables.mounts ++ tables.events ++ tables.strings.bytes = tables.payload := fun _ => rfl
  simp only [encodePolicy, htables, hpayload, drop_policyHeader, store32_policyHeader, policyFile]
  rfl

theorem encodePolicy_ok_iff {document : PolicyDocument} {bytes : Bytes} :
    encodePolicy document = .ok bytes ↔
      ∃ canonical, canonicalizeDocument document = .ok canonical ∧ Fits canonical ∧ bytes = policyFile canonical := by
  rw [encodePolicy_eq, bind_ok_iff]
  refine exists_congr fun canonical => and_congr_right fun _ => ?_
  split
  · next h =>
    simp only [reduceCtorEq, false_iff]
    rintro ⟨⟨happs, hmounts, hevents, -⟩, -⟩
    simp only [Bool.or_eq_true, decide_eq_true_eq] at h
    omega
  · next h =>
    simp only [Bool.or_eq_true, decide_eq_true_eq, not_or, Nat.not_le] at h
    split
    · next hfile =>
      simp only [reduceCtorEq, false_iff]
      rintro ⟨hfits, -⟩
      exact absurd hfits.file (Nat.not_lt_of_le hfile)
    · next hfile =>
      rw [Except.ok.injEq, eq_comm, iff_and_self]
      exact fun _ => ⟨h.1.1, h.1.2, h.2, Nat.lt_of_not_le hfile⟩

end PathGuard

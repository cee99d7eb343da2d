import PathGuard.Lib.Delimited
import PathGuard.Core.RoundTrip

/-!
# What the content generation is a hash of

`CanonicalPlan` and `ContentGeneration` of `core/src/binary.cpp` hash a run of bytes. Every string and every list in it
stands behind its length, so the bytes of a canonical document show all of it but the source lines: two documents with
one content are one document, and two with one generation are, unless FNV-1a collides on them.

* `delimited_canonicalPlan`, `delimited_appContent` : the plan of an app shows the app;
* `Canonical.contentBytes_eq_iff` : documents with one content are one document.
-/

namespace PathGuard

/-- The bytes `ContentGeneration` hashes. -/
def contentBytes (document : PolicyDocument) : Bytes :=
  let apps := sortOn AppPolicy.package document.apps
  ascii "PGIR5" ++ [0] ++ put16 (UInt16.ofInt document.schema) ++
    put8 document.failureMode.code ++ put8 (flag8 document.allowLegacyStringBind) ++
    put32 (size32 apps) ++ apps.flatMap fun app =>
      let plan := canonicalPlan app document.failureMode document.allowLegacyStringBind
      put32 (size32 plan) ++ plan

theorem contentGeneration_eq (document : PolicyDocument) :
    contentGeneration document = fnv1a64 (contentBytes document) :=
  rfl

/-! ## Delimited parts -/

theorem delimited_put8 : Delimited (fun _ => True) put8 := delimited_singleton

theorem delimited_put16 : Delimited (fun _ => True) put16 := by
  intro a b x y _ _ h
  obtain ⟨hvalue, hrest⟩ := delimited_leBytes 2 _ _ x y a.toNat_lt b.toNat_lt h
  exact ⟨UInt16.toNat_inj.mp hvalue, hrest⟩

theorem delimited_count : Delimited (· < 2 ^ 32) fun n => put32 (UInt32.ofNat n) := by
  intro m n x y hm hn h
  obtain ⟨hvalue, hrest⟩ := delimited_leBytes 4 _ _ x y (UInt32.toNat_lt _) (UInt32.toNat_lt _) h
  rw [UInt32.toNat_ofNat_of_lt' hm, UInt32.toNat_ofNat_of_lt' hn] at hvalue
  exact ⟨hvalue, hrest⟩

theorem delimited_putCanonicalString : Delimited (fun value : Bytes => value.length < 2 ^ 32) putCanonicalString := by
  intro a b x y ha hb h
  rw [putCanonicalString, putCanonicalString, List.append_assoc, List.append_assoc] at h
  obtain ⟨hlength, hrest⟩ := delimited_count _ _ _ _ ha hb h
  exact List.append_inj hrest hlength

/-- A list behind its length. -/
def putList {α : Type} (code : α → Bytes) (items : List α) : Bytes := put32 (size32 items) ++ items.flatMap code

theorem delimited_putList {α : Type} {domain : α → Prop} {code : α → Bytes} (h : Delimited domain code) :
    Delimited (fun items : List α => items.length < 2 ^ 32 ∧ ∀ item ∈ items, domain item) (putList code) :=
  h.counted delimited_count

def putMount (rule : LogicalMountRule) : Bytes :=
  put8 rule.action.code ++ (put16 rule.depth ++ (put16 rule.flags ++
    (putCanonicalString rule.visiblePath ++ putCanonicalString rule.backingPath)))

def putEvent (rule : EventRule) : Bytes :=
  put8 rule.action.code ++ (put32 rule.options ++
    (putCanonicalString rule.sourcePath ++ putCanonicalString rule.targetPath))

/-- A rule without its line, whose strings can be counted. -/
structure CountedMount (rule : LogicalMountRule) : Prop where
  line : rule.line = 0
  visiblePath : rule.visiblePath.length < 2 ^ 32
  backingPath : rule.backingPath.length < 2 ^ 32

theorem delimited_putMount : Delimited CountedMount putMount := by
  intro a b x y ha hb h
  simp only [putMount, List.append_assoc] at h
  obtain ⟨haction, h⟩ := delimited_put8 _ _ _ _ trivial trivial h
  obtain ⟨hdepth, h⟩ := delimited_put16 _ _ _ _ trivial trivial h
  obtain ⟨hflags, h⟩ := delimited_put16 _ _ _ _ trivial trivial h
  obtain ⟨hvisible, h⟩ := delimited_putCanonicalString _ _ _ _ ha.visiblePath hb.visiblePath h
  obtain ⟨hbacking, hrest⟩ := delimited_putCanonicalString _ _ _ _ ha.backingPath hb.backingPath h
  have hline : a.line = b.line := ha.line.trans hb.line.symm
  obtain ⟨action, visiblePath, backingPath, depth, flags, line⟩ := a
  obtain ⟨action', visiblePath', backingPath', depth', flags', line'⟩ := b
  rw [LogicalMountRule.mk.injEq]
  exact ⟨⟨MountAction.code_inj haction, hvisible, hbacking, hdepth, hflags, hline⟩, hrest⟩

/-! ## The plan of an app -/

/-- An app without events and lines, all of which can be counted. -/
structure CountedApp (app : AppPolicy) : Prop where
  package : app.package.length < 2 ^ 32
  users : app.users.length < 2 ^ 32 ∧ ∀ user ∈ app.users, user.length < 2 ^ 32
  processes : app.processes.length < 2 ^ 32 ∧ ∀ process ∈ app.processes, process.length < 2 ^ 32
  mounts : app.mounts.length < 2 ^ 32 ∧ ∀ rule ∈ app.mounts, CountedMount rule
  events : app.events = []

theorem canonicalPlan_eq (app : AppPolicy) (failureMode : FailureMode) (allowLegacyStringBind : Bool) :
    canonicalPlan app failureMode allowLegacyStringBind =
      ascii "PGPL5" ++ ([0] ++ (put8 failureMode.code ++ (put8 app.mediaCompat.code ++ (put8 app.providerCompat.code ++
        (put8 (flag8 allowLegacyStringBind) ++ (putCanonicalString app.package ++
          (putList putCanonicalString app.users ++ (putList putCanonicalString app.processes ++
            (putList putMount app.mounts ++ putList putEvent app.events))))))))) := by
  have hmounts : (app.mounts.flatMap fun rule => put8 rule.action.code ++ put16 rule.depth ++ put16 rule.flags ++
      putCanonicalString rule.visiblePath ++ putCanonicalString rule.backingPath) = app.mounts.flatMap putMount := by
    simp only [List.append_assoc]
    rfl
  have hevents : (app.events.flatMap fun rule => put8 rule.action.code ++ put32 rule.options ++
      putCanonicalString rule.sourcePath ++ putCanonicalString rule.targetPath) = app.events.flatMap putEvent := by
    simp only [List.append_assoc]
    rfl
  rw [canonicalPlan, hmounts, hevents]
  simp only [putList, List.append_assoc]

/-- The plan of an app shows the app, whatever comes after it. -/
theorem delimited_canonicalPlan (failureMode : FailureMode) (allowLegacyStringBind : Bool) :
    Delimited CountedApp fun app => canonicalPlan app failureMode allowLegacyStringBind := by
  intro a b x y ha hb h
  simp only [canonicalPlan_eq, List.append_assoc] at h
  obtain ⟨-, h⟩ := List.append_inj h rfl
  obtain ⟨-, h⟩ := List.append_inj h rfl
  obtain ⟨-, h⟩ := delimited_put8 _ _ _ _ trivial trivial h
  obtain ⟨hmedia, h⟩ := delimited_put8 _ _ _ _ trivial trivial h
  obtain ⟨hprovider, h⟩ := delimited_put8 _ _ _ _ trivial trivial h
  obtain ⟨-, h⟩ := delimited_put8 _ _ _ _ trivial trivial h
  obtain ⟨hpackage, h⟩ := delimited_putCanonicalString _ _ _ _ ha.package hb.package h
  obtain ⟨husers, h⟩ := delimited_putList delimited_putCanonicalString _ _ _ _ ha.users hb.users h
  obtain ⟨hprocesses, h⟩ := delimited_putList delimited_putCanonicalString _ _ _ _ ha.processes hb.processes h
  obtain ⟨hmounts, h⟩ := delimited_putList delimited_putMount _ _ _ _ ha.mounts hb.mounts h
  rw [ha.events, hb.events] at h
  have hrest := List.append_cancel_left h
  have hevents : a.events = b.events := ha.events.trans hb.events.symm
  obtain ⟨package, media, provider, users, processes, mounts, events⟩ := a
  obtain ⟨package', media', provider', users', processes', mounts', events'⟩ := b
  rw [AppPolicy.mk.injEq]
  exact ⟨⟨hpackage, MediaCompat.code_inj hmedia, ProviderCompat.code_inj hprovider, husers, hprocesses, hmounts,
    hevents⟩, hrest⟩

/-! ## What fits in a file can be counted -/

theorem length_le_joinList {items : List Bytes} (hne : ∀ item ∈ items, item ≠ []) :
    items.length ≤ (joinList items).length ∧ ∀ item ∈ items, item.length ≤ (joinList items).length := by
  induction items with
  | nil => exact ⟨Nat.zero_le _, fun item hitem => absurd hitem List.not_mem_nil⟩
  | cons first items ih =>
      rw [List.forall_mem_cons] at hne
      have hfirst := List.length_pos_iff.mpr hne.1
      obtain ⟨hcount, hitems⟩ := ih hne.2
      unfold joinList at hcount hitems ⊢
      cases items with
      | nil =>
          have hjoin : [comma].intercalate [first] = first := by simp
          rw [hjoin, List.forall_mem_singleton]
          exact ⟨hfirst, le_refl _⟩
      | cons next items =>
          rw [List.intercalate_cons_of_ne_nil (List.cons_ne_nil _ _), List.forall_mem_cons]
          simp only [List.length_append, List.length_cons, List.length_nil] at hcount ⊢
          refine ⟨by omega, by omega, fun item hitem => ?_⟩
          have hle := hitems item hitem
          omega

namespace Canonical
variable {document : PolicyDocument} (hdoc : Canonical document)
include hdoc

theorem length_lt_of_has {value : Bytes} {offset : UInt32} (h : (policyTables document).strings.Has value offset) :
    value.length < 2 ^ 32 := by
  have hlt := hdoc.length_lt
  have hlength := (hdoc.placed.placed.strings value offset h (by omega)).length_le
  rw [List.length_append] at hlength
  omega

theorem countedMount_clearLine {app : AppPolicy} (happ : app ∈ document.apps) {rule : LogicalMountRule}
    (hrule : rule ∈ app.mounts) : CountedMount rule.clearLine := by
  have hmem : rule ∈ (sortedApps document).flatMap AppPolicy.mounts :=
    List.mem_flatMap.mpr ⟨app, mem_sortOn.mpr happ, hrule⟩
  obtain ⟨i, hi⟩ := List.getElem?_of_mem hmem
  obtain ⟨part, ⟨visible, backing, hvisible, hbacking, -⟩, -⟩ := hdoc.placed.placed.mounts.row i rule hi
  exact ⟨rfl, hdoc.length_lt_of_has hvisible, hdoc.length_lt_of_has hbacking⟩

theorem countedApp_clearLines {app : AppPolicy} (happ : app ∈ document.apps) : CountedApp app.clearLines := by
  obtain ⟨i, hi⟩ := List.getElem?_of_mem (mem_sortOn.mpr happ : app ∈ sortedApps document)
  obtain ⟨part, ⟨name, users, processes, hname, husers, hprocesses, -⟩, -⟩ := hdoc.placed.placed.packages.row i app hi
  have hstrings := hdoc.strings app happ
  have hjoined : ∀ {items : List Bytes} {offset : UInt32}, (∀ item ∈ items, ListItem item) →
      (policyTables document).strings.Has (joinList items) offset →
      items.length < 2 ^ 32 ∧ ∀ item ∈ items, item.length < 2 ^ 32 := by
    intro items offset hitems hhas
    have hlt := hdoc.length_lt_of_has hhas
    obtain ⟨hcount, hlength⟩ := length_le_joinList fun item hitem => (hitems item hitem).nonempty
    exact ⟨by omega, fun item hitem => (hlength item hitem).trans_lt hlt⟩
  refine ⟨hdoc.length_lt_of_has hname, hjoined hstrings.users husers, hjoined hstrings.processes hprocesses, ⟨?_, ?_⟩,
    by rw [AppPolicy.clearLines, (hdoc.executable app happ).events]; rfl⟩
  · obtain ⟨done, todo, happs⟩ := List.append_of_mem (mem_sortOn.mpr happ : app ∈ sortedApps document)
    rw [AppPolicy.clearLines, List.length_map]
    exact (Nat.le_of_add_left_le (mountCount_le happs)).trans_lt hdoc.fits.mounts
  · exact List.forall_mem_map.mpr fun rule hrule => hdoc.countedMount_clearLine happ hrule

end Canonical

/-! ## The content of a document -/

/-- The apps of a document, by package and without source lines. -/
def contentApps (document : PolicyDocument) : List AppPolicy :=
  (sortOn AppPolicy.package document.apps).map AppPolicy.clearLines

theorem contentBytes_apps (document : PolicyDocument) : contentBytes document =
    ascii "PGIR5" ++ ([0] ++ (put16 (UInt16.ofInt document.schema) ++ (put8 document.failureMode.code ++
      (put8 (flag8 document.allowLegacyStringBind) ++ putList (fun app =>
        put32 (size32 (canonicalPlan app document.failureMode document.allowLegacyStringBind)) ++
          canonicalPlan app document.failureMode document.allowLegacyStringBind) (contentApps document))))) := by
  simp only [contentBytes, putList, contentApps, size32, List.length_map, List.flatMap_map, canonicalPlan_clearLines,
    List.append_assoc]

theorem delimited_appContent (failureMode : FailureMode) (allowLegacyStringBind : Bool) :
    Delimited CountedApp fun app => put32 (size32 (canonicalPlan app failureMode allowLegacyStringBind)) ++
      canonicalPlan app failureMode allowLegacyStringBind := by
  intro a b x y ha hb h
  simp only [List.append_assoc] at h
  obtain ⟨-, h⟩ := List.append_inj h ((length_leBytes 4 _).trans (length_leBytes 4 _).symm)
  exact delimited_canonicalPlan failureMode allowLegacyStringBind a b x y ha hb h

/-- **The content is the document.** Canonical documents have one content when they have the same apps and the same
legacy permission, and only then. -/
theorem Canonical.contentBytes_eq_iff {document document' : PolicyDocument} (hdoc : Canonical document)
    (hdoc' : Canonical document') : contentBytes document = contentBytes document' ↔
      document.allowLegacyStringBind = document'.allowLegacyStringBind ∧
        contentApps document = contentApps document' := by
  have hcounted : ∀ {d : PolicyDocument}, Canonical d →
      (contentApps d).length < 2 ^ 32 ∧ ∀ app ∈ contentApps d, CountedApp app := by
    intro d hd
    refine ⟨?_, List.forall_mem_map.mpr fun app happ => hd.countedApp_clearLines (mem_sortOn.mp happ)⟩
    rw [contentApps, List.length_map, length_sortOn]
    exact hd.fits.apps
  simp only [contentBytes_apps, hdoc.schema, hdoc'.schema, hdoc.failureMode, hdoc'.failureMode,
    List.append_cancel_left_eq]
  constructor
  · intro h
    obtain ⟨hflag, h⟩ := delimited_put8 _ _ _ _ trivial trivial h
    have hlegacy : document.allowLegacyStringBind = document'.allowLegacyStringBind := by
      revert hflag
      cases document.allowLegacyStringBind <;> cases document'.allowLegacyStringBind <;> decide
    rw [hlegacy] at h
    exact ⟨hlegacy, (delimited_putList (delimited_appContent _ _)).injective (hcounted hdoc) (hcounted hdoc') h⟩
  · rintro ⟨hlegacy, happs⟩
    rw [hlegacy, happs]

end PathGuard

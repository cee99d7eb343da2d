import PathGuard.Rules.PathForm

/-!
# Folding deny rules

`ValidateDeny` drops a deny path when the last one it kept encloses it. Sorted by their bytes the paths inside `A` do
not all follow `A` at once, and a path that ends in a separator encloses nothing in their comparison, so the paths left
are the outermost ones only when neither happens.

* `Outermost`, `FoldsTo` : what the paths left should be;
* `FoldsInOrder` : the lists on which the loop is right (`foldsTo_keptPaths_iff`);
* `validateDeny_folds_iff` : the deny rules of an app.
-/

namespace PathGuard.Rules

variable {limits : RulesLimits} {origins : OriginMap}

/-! ## What the folding should leave -/

/-- The components of a path of the list, in which no other path of the list is above it. -/
def MinimalComponents (paths : List (List Bytes)) (components : List Bytes) : Prop :=
  components ∈ paths ∧ ∀ other ∈ paths, other <+: components → other = components

/-- `kept` is what is minimal in `original`, once each and in the order of the bytes. -/
structure FoldsTo (original kept : List Bytes) : Prop where
  increasing : kept.Pairwise (· < ·)
  listed : ∀ path ∈ kept, path ∈ original
  once : (kept.map visitedComponents).Nodup
  minimal : ∀ components, components ∈ kept.map visitedComponents ↔
    MinimalComponents (original.map visitedComponents) components
  apart : kept.Pairwise fun a b => ¬ Encloses a b ∧ ¬ Encloses b a
  covered : ∀ path ∈ original, ∃ a ∈ kept, Encloses a path

/-- No path of the list is above it, byte by byte. -/
def Outermost (deny : List Bytes) (a : Bytes) : Prop := ∀ p ∈ deny, IsWithin slash p a → p = a

/-- Where a deny path is inside an outermost one, that one does not end in a separator and nothing is interposed
between the two. -/
def FoldsInOrder (deny : List Bytes) : Prop :=
  ∀ a ∈ deny, Outermost deny a → ∀ c ∈ deny, c ≠ a → Encloses a c →
    a.getLast? ≠ some slash ∧ ∀ b ∈ deny, ¬ Interposed slash a b c

instance (deny : List Bytes) (a : Bytes) : Decidable (Outermost deny a) :=
  inferInstanceAs (Decidable (∀ p ∈ deny, IsWithin slash p a → p = a))

instance (deny : List Bytes) : Decidable (FoldsInOrder deny) :=
  inferInstanceAs (Decidable (∀ a ∈ deny, Outermost deny a → ∀ c ∈ deny, c ≠ a → Encloses a c →
    a.getLast? ≠ some slash ∧ ∀ b ∈ deny, ¬ Interposed slash a b c))

/-! ## Bytes and components -/

theorem visitedComponents_prefix_splitOn (path : Bytes) : visitedComponents path <+: path.splitOn slash := by
  simp only [visitedComponents]
  split
  · exact List.dropLast_prefix _
  · exact List.prefix_refl _

theorem splitOn_prefix_visited {a p : Bytes} (h : IsWithin slash a p) (hne : p ≠ a) :
    a.splitOn slash <+: visitedComponents p := by
  obtain ⟨u, rfl⟩ := (isWithin_iff.mp h).resolve_left hne
  simp only [visitedComponents, List.splitOn_append_cons_self]
  split
  · rw [List.dropLast_append_of_ne_nil (List.splitOn_ne_nil slash u)]
    exact List.prefix_append _ _
  · exact List.prefix_append _ _

theorem encloses_of_isWithin {a p : Bytes} (h : IsWithin slash a p) : Encloses a p := by
  by_cases hne : p = a
  · rw [hne]
    exact Encloses.refl a
  · exact (visitedComponents_prefix_splitOn a).trans (splitOn_prefix_visited h hne)

/-- An accepted path is inside no other one that ends in a separator, byte by byte. -/
theorem not_isWithin_of_slash {a p : Bytes} {path : NormalizedPath} (hp : normalizeRulePath limits p = some path)
    (hslash : a.getLast? = some slash) (hne : p ≠ a) : ¬ IsWithin slash a p := by
  intro hwithin
  obtain ⟨-, -, -, hall, -⟩ := normalizeRulePath_some hp
  obtain ⟨front, rfl⟩ := List.getLast?_eq_some_iff.mp hslash
  have hvisited := splitOn_prefix_visited hwithin hne
  rw [List.splitOn_append_cons_self, List.splitOn_nil] at hvisited
  exact (hall [] (hvisited.subset (List.mem_append_right _ (List.mem_singleton_self [])))).1 rfl

theorem Encloses.comparable {a b c : Bytes} (ha : Encloses a c) (hb : Encloses b c) :
    Encloses a b ∨ Encloses b a :=
  List.prefix_or_prefix_of_prefix ha hb

theorem interposed_between {a b c : Bytes} (h : Interposed slash a b c) :
    a ≤ b ∧ b ≤ c ∧ ¬ IsWithin slash a b := by
  obtain ⟨⟨y, u, hy, rfl⟩, v, rfl⟩ := h
  refine ⟨le_append a _, ?_, ?_⟩
  · exact le_of_lt (List.append_left_lt (List.Lex.rel hy))
  · rw [isWithin_iff]
    rintro (heq | ⟨w, heq⟩)
    · simp at heq
    · rw [List.append_cancel_left_eq, List.cons.injEq] at heq
      exact absurd heq.1 (ne_of_lt hy)

/-! ## The loop over the sorted paths -/

/-- What the loop compares a path with the last kept one by. -/
def isWithinBool (a p : Bytes) : Bool := decide (IsWithin slash a p)

section Loop
variable {paths : List Bytes}

/-- The paths the loop keeps. -/
abbrev keptPaths (paths : List Bytes) : List Bytes := keepUncovered isWithinBool none paths

theorem isWithinBool_refl (a : Bytes) : isWithinBool a a = true := decide_eq_true (IsWithin.refl slash a)

theorem isWithinBool_trans (a b c : Bytes) (hab : isWithinBool a b = true) (hbc : isWithinBool b c = true) :
    isWithinBool a c = true :=
  decide_eq_true ((of_decide_eq_true hab).trans (of_decide_eq_true hbc))

theorem keptPaths_covers {path : Bytes} (h : path ∈ paths) : ∃ a ∈ keptPaths paths, IsWithin slash a path := by
  obtain ⟨a, ha, hcovers⟩ := exists_mem_covers isWithinBool isWithinBool_refl h
  exact ⟨a, ha, of_decide_eq_true hcovers⟩

theorem mem_of_keptPaths {path : Bytes} (h : path ∈ keptPaths paths) : path ∈ paths :=
  (keepUncovered_sublist none paths).subset h

theorem outermost_mem_keptPaths {a : Bytes} (ha : a ∈ paths) (houter : Outermost paths a) : a ∈ keptPaths paths := by
  obtain ⟨kept, hkept, hwithin⟩ := keptPaths_covers ha
  rwa [houter kept (mem_of_keptPaths hkept) hwithin] at hkept

/-- The result is right as soon as no kept path encloses another. -/
theorem foldsTo_iff (hsorted : paths.Pairwise (· ≤ ·)) :
    FoldsTo paths (keptPaths paths) ↔ ∀ a ∈ keptPaths paths, ∀ c ∈ keptPaths paths, Encloses a c → a = c := by
  have hincreasing : (keptPaths paths).Pairwise (· < ·) :=
    @pairwise_lt_keepUncovered _ _ _ isWithinBool_refl none paths hsorted
  constructor
  · intro h a ha c hc henclose
    by_contra hne
    have hsymm : Std.Symm fun a b => ¬ Encloses a b ∧ ¬ Encloses b a := ⟨fun _ _ h => ⟨h.2, h.1⟩⟩
    exact (h.apart.forall ha hc hne).1 henclose
  · intro h
    have hcovered : ∀ path ∈ paths, ∃ a ∈ keptPaths paths, Encloses a path := by
      intro path hpath
      obtain ⟨a, ha, hwithin⟩ := keptPaths_covers hpath
      exact ⟨a, ha, encloses_of_isWithin hwithin⟩
    have hapart : (keptPaths paths).Pairwise fun a b => ¬ Encloses a b ∧ ¬ Encloses b a := by
      refine hincreasing.imp_of_mem fun {a b} ha hb hlt => ⟨fun hab => ?_, fun hba => ?_⟩
      · exact absurd (h a ha b hb hab) (ne_of_lt hlt)
      · exact absurd (h b hb a ha hba) (ne_of_gt hlt)
    refine ⟨hincreasing, fun path => mem_of_keptPaths, ?_, fun components => ?_, hapart, hcovered⟩
    · refine List.pairwise_map.mpr (hapart.imp fun {a b} hab heq => hab.1 ?_)
      rw [Encloses, heq]
    · constructor
      · intro hmem
        obtain ⟨kept, hkept, rfl⟩ := List.mem_map.mp hmem
        refine ⟨List.mem_map_of_mem (mem_of_keptPaths hkept), fun other hother hprefix => ?_⟩
        obtain ⟨path, hpath, rfl⟩ := List.mem_map.mp hother
        obtain ⟨above, habove, hencloses⟩ := hcovered path hpath
        obtain rfl := h above habove kept hkept (hencloses.trans hprefix)
        exact hprefix.eq_of_length_le hencloses.length_le
      · rintro ⟨hmem, hminimal⟩
        obtain ⟨path, hpath, rfl⟩ := List.mem_map.mp hmem
        obtain ⟨kept, hkept, hencloses⟩ := hcovered path hpath
        rw [← hminimal _ (List.mem_map_of_mem (mem_of_keptPaths hkept)) hencloses]
        exact List.mem_map_of_mem hkept

/-- An accepted path inside a kept one that does not cover it byte by byte is inside another kept one. -/
theorem exists_other_kept {a c : Bytes} (ha : a ∈ keptPaths paths) (hac : Encloses a c)
    (h : ∃ kept ∈ keptPaths paths, kept ≠ a ∧ isWithinBool kept c = true) :
    ∃ b ∈ keptPaths paths, ∃ d ∈ keptPaths paths, b ≠ d ∧ Encloses b d := by
  obtain ⟨kept, hkept, hne, hcovers⟩ := h
  have hinside := encloses_of_isWithin (of_decide_eq_true hcovers)
  rcases hac.comparable hinside with hbelow | habove
  · exact ⟨a, ha, kept, hkept, hne.symm, hbelow⟩
  · exact ⟨kept, hkept, a, ha, hne, habove⟩

/-- **The loop is right exactly on lists that fold in order.** -/
theorem foldsTo_keptPaths_iff (hsorted : paths.Pairwise (· ≤ ·))
    (hvalid : ∀ path ∈ paths, ∃ normalized, normalizeRulePath limits path = some normalized) :
    FoldsTo paths (keptPaths paths) ↔ FoldsInOrder paths := by
  have hne : ∀ path ∈ paths, path ≠ [] := by
    intro path hpath
    obtain ⟨normalized, hnormalized⟩ := hvalid path hpath
    exact (normalizeRulePath_some hnormalized).1
  rw [foldsTo_iff hsorted]
  constructor
  · intro hapart a ha houter c hc hca hac
    have hkept := outermost_mem_keptPaths ha houter
    have hnone : ¬ ∃ kept ∈ keptPaths paths, kept ≠ a ∧ isWithinBool kept c = true := by
      intro hother
      obtain ⟨b, hb, d, hd, hbd, hencloses⟩ := exists_other_kept hkept hac hother
      exact hbd (hapart b hb d hd hencloses)
    refine ⟨fun hslash => hnone ?_, fun b hb hinterposed => hnone ?_⟩
    · obtain ⟨normalized, hnormalized⟩ := hvalid c hc
      obtain ⟨kept, hkept', hwithin⟩ := keptPaths_covers hc
      refine ⟨kept, hkept', ?_, decide_eq_true hwithin⟩
      rintro rfl
      exact not_isWithin_of_slash hnormalized hslash hca hwithin
    · obtain ⟨hab, hbc, hnot⟩ := interposed_between hinterposed
      exact exists_covers_beyond isWithinBool_refl hsorted hkept hb hc hab hbc (decide_eq_false hnot)
  · intro hfolds
    -- a kept path inside an outermost one is that one
    have houtermost : ∀ a ∈ paths, Outermost paths a → ∀ c ∈ keptPaths paths, Encloses a c → c = a := by
      intro a ha houter c hc hac
      by_contra hca
      obtain ⟨hslash, hnone⟩ := hfolds a ha houter c (mem_of_keptPaths hc) hca hac
      have hwithin := (encloses_iff (hne a ha) hslash (hne c (mem_of_keptPaths hc))).mp hac
      refine notMem_keepUncovered isWithinBool_refl isWithinBool_trans hsorted ha
        (lt_of_le_of_ne hwithin.le (Ne.symm hca)) (fun b hb hab hbc => ?_) hc
      exact decide_eq_true ((within_or_interposed hwithin hab hbc).resolve_right (hnone b hb))
    intro a ha c hc hac
    obtain ⟨top, htop, habove, hmin⟩ := exists_outermost slash (fun path : Bytes => path) (mem_of_keptPaths ha)
    have hencloses := encloses_of_isWithin habove
    rw [houtermost top htop hmin a ha hencloses, houtermost top htop hmin c hc (hencloses.trans hac)]

end Loop

/-! ## ValidateDeny -/

theorem sorted_bytes (deny : List ResolvedDenyRule) :
    ((sortOn denySortKey deny).map fun rule => rule.path.bytes).Pairwise (· ≤ ·) :=
  List.pairwise_map.mpr ((pairwise_sortOn denySortKey deny).imp fun h => Prod.Lex.monotone_fst _ _ h)

theorem map_keepUncovered_coversRule (deny : List ResolvedDenyRule) :
    (keepUncovered coversRule none deny).map (fun rule => rule.path.bytes) =
      keptPaths (deny.map fun rule => rule.path.bytes) := by
  have hcovers : ∀ a b : ResolvedDenyRule, isWithinBool a.path.bytes b.path.bytes = coversRule a b := by
    intro a b
    rw [coversRule, Bool.eq_iff_iff, isSameOrAncestor_iff, isWithinBool, decide_eq_true_iff]
  exact (keepUncovered_map (fun rule : ResolvedDenyRule => rule.path.bytes) hcovers none _).symm

theorem validateDeny_deny (app : ResolvedAppPolicy) :
    (validateDeny limits origins app).1.deny.map (fun rule => rule.path.bytes) =
      keptPaths ((sortOn denySortKey app.deny).map fun rule => rule.path.bytes) := by
  have hfold : (validateDeny limits origins app).1.deny = keepUncovered coversRule none (sortOn denySortKey app.deny) :=
    congrArg Prod.fst (foldDeny_eq none _)
  rw [hfold, map_keepUncovered_coversRule]

theorem FoldsTo.congr {original original' kept : List Bytes} (hmem : ∀ path, path ∈ original ↔ path ∈ original')
    (h : FoldsTo original kept) : FoldsTo original' kept where
  increasing := h.increasing
  listed path hpath := (hmem path).mp (h.listed path hpath)
  once := h.once
  minimal components := by
    have hmap : ∀ c, c ∈ original.map visitedComponents ↔ c ∈ original'.map visitedComponents := by
      intro c
      simp only [List.mem_map, hmem]
    rw [h.minimal components, MinimalComponents, MinimalComponents, hmap]
    simp only [hmap]
  apart := h.apart
  covered path hpath := h.covered path ((hmem path).mpr hpath)

theorem FoldsInOrder.congr {deny deny' : List Bytes} (hmem : ∀ path, path ∈ deny ↔ path ∈ deny')
    (h : FoldsInOrder deny) : FoldsInOrder deny' := by
  intro a ha houter c hc hca hac
  have houter' : Outermost deny a := fun p hp => houter p ((hmem p).mp hp)
  obtain ⟨hslash, hnone⟩ := h a ((hmem a).mpr ha) houter' c ((hmem c).mpr hc) hca hac
  exact ⟨hslash, fun b hb => hnone b ((hmem b).mpr hb)⟩

def denyBytes (app : ResolvedAppPolicy) : List Bytes := app.deny.map fun rule => rule.path.bytes

/-- **Folding.** `ValidateDeny` leaves the minimal paths of an app exactly when its deny paths fold in order. -/
theorem validateDeny_folds_iff (app : ResolvedAppPolicy)
    (hvalid : ∀ rule ∈ app.deny, normalizeRulePath limits rule.path.bytes = some rule.path) :
    FoldsTo (denyBytes app) (denyBytes (validateDeny limits origins app).1) ↔ FoldsInOrder (denyBytes app) := by
  have hmem : ∀ path, path ∈ (sortOn denySortKey app.deny).map (fun rule => rule.path.bytes) ↔ path ∈ denyBytes app := by
    intro path
    simp only [denyBytes, List.mem_map, mem_sortOn]
  have hnormal : ∀ path ∈ (sortOn denySortKey app.deny).map (fun rule => rule.path.bytes),
      ∃ normalized, normalizeRulePath limits path = some normalized := by
    intro path hpath
    obtain ⟨rule, hrule, rfl⟩ := List.mem_map.mp hpath
    exact ⟨rule.path, hvalid rule (mem_sortOn.mp hrule)⟩
  have hiff := foldsTo_keptPaths_iff (sorted_bytes app.deny) hnormal
  rw [← @validateDeny_deny limits origins] at hiff
  constructor
  · intro h
    exact (hiff.mp (h.congr fun path => (hmem path).symm)).congr hmem
  · intro h
    exact (hiff.mpr (h.congr fun path => (hmem path).symm)).congr hmem

def denyApp (deny : List ResolvedDenyRule) : ResolvedAppPolicy where
  package := ascii "a.b"
  enabled := true
  users := []
  processes := []
  filePicker := false
  deny := deny
  redirects := []

/-- `"Pictures/Private"` is inside `"Pictures"` and is dropped. -/
theorem validateDeny_folds_pictures :
    FoldsTo [ascii "Pictures/Private", ascii "Pictures"] [ascii "Pictures"] :=
  (@validateDeny_folds_iff {} []
    (denyApp [⟨0, ascii "Pictures/Private", [0, 9]⟩, ⟨1, ascii "Pictures", [0]⟩]) (by decide)).mpr (by decide)

/-- `"A-x"` comes between `"A"` and `"A/B"`, and both of them are left. -/
theorem validateDeny_not_folds :
    ¬ ∀ (limits : RulesLimits) (origins : OriginMap) (app : ResolvedAppPolicy),
      (∀ rule ∈ app.deny, normalizeRulePath limits rule.path.bytes = some rule.path) →
        FoldsTo (denyBytes app) (denyBytes (validateDeny limits origins app).1) := by
  intro h
  have hfolds := h {} [] (denyApp [⟨0, ascii "A", [0]⟩, ⟨1, ascii "A-x", [0]⟩, ⟨2, ascii "A/B", [0, 2]⟩]) (by decide)
  exact absurd hfolds.apart (by decide)

end PathGuard.Rules

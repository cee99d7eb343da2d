import Mathlib.Data.List.Infix
import PathGuard.Rules.SemanticSpec

/-!
# The form of an accepted rule path

`NormalizeRulePath` does not rewrite a path, it looks at the components and records where they start. Its loop ends at
the end of the input, so the empty component after a separator in the last place goes unseen: such a path is accepted
although it is not its components joined, and `IsSameOrAncestor`, which compares bytes, does not see what is inside it.

* `NormalForm` : a path is its components joined; `ComparesByComponents` : bytes and components agree on it;
* `componentOffsets_some` : what the loop has checked;
* `normalForm_iff` : the accepted paths that have the form.
-/

namespace PathGuard.Rules

variable {limits : RulesLimits}

/-! ## The components -/

theorem getLast?_splitOn_ne_nil {path : Bytes} (hne : path ≠ []) (hlast : path.getLast? ≠ some slash) :
    (path.splitOn slash).getLast? ≠ some [] := by
  intro hnil
  obtain ⟨front, hfront⟩ := List.getLast?_eq_some_iff.mp hnil
  have hjoined : [slash].intercalate (front ++ [[]]) = path := by
    rw [← hfront, List.intercalate_splitOn]
  cases front with
  | nil => exact hne hjoined.symm
  | cons first rest =>
      rw [intercalate_append (List.cons_ne_nil first rest) (List.cons_ne_nil [] [])] at hjoined
      rw [← hjoined] at hlast
      simp at hlast

theorem visitedComponents_of_not_slash {path : Bytes} (hne : path ≠ []) (hlast : path.getLast? ≠ some slash) :
    visitedComponents path = path.splitOn slash := by
  rw [visitedComponents, if_neg (getLast?_splitOn_ne_nil hne hlast)]

theorem visitedComponents_append_slash (path : Bytes) :
    visitedComponents (path ++ [slash]) = path.splitOn slash := by
  have hsplit : (path ++ [slash]).splitOn slash = path.splitOn slash ++ [[]] := by
    rw [List.splitOn_append_cons_self, List.splitOn_nil]
  rw [visitedComponents, hsplit, if_pos (List.getLast?_concat ..), List.dropLast_concat]

/-- A path with a separator in the last place has the components of the path without it. -/
theorem exists_visited (path : Bytes) (hne : path ≠ []) :
    (path.getLast? ≠ some slash ∧ visitedComponents path = path.splitOn slash) ∨
      ∃ front, path = front ++ [slash] ∧ visitedComponents path = front.splitOn slash := by
  by_cases hlast : path.getLast? = some slash
  · obtain ⟨front, rfl⟩ := List.getLast?_eq_some_iff.mp hlast
    exact Or.inr ⟨front, rfl, visitedComponents_append_slash front⟩
  · exact Or.inl ⟨hlast, visitedComponents_of_not_slash hne hlast⟩

/-- `a` is `p` or one of the directories above it, by their components. -/
def Encloses (a p : Bytes) : Prop := visitedComponents a <+: visitedComponents p

instance (a p : Bytes) : Decidable (Encloses a p) := inferInstanceAs (Decidable (_ <+: _))

theorem Encloses.refl (a : Bytes) : Encloses a a := List.prefix_refl _

theorem Encloses.trans {a b c : Bytes} (hab : Encloses a b) (hbc : Encloses b c) : Encloses a c :=
  List.IsPrefix.trans hab hbc

/-- Below a path that does not end in a separator, bytes and components agree. -/
theorem encloses_iff {a p : Bytes} (ha : a ≠ []) (hlast : a.getLast? ≠ some slash) (hp : p ≠ []) :
    Encloses a p ↔ IsWithin slash a p := by
  rw [Encloses, IsWithin, visitedComponents_of_not_slash ha hlast]
  rcases exists_visited p hp with ⟨-, h⟩ | ⟨front, rfl, h⟩
  · rw [h]
  · have hnil : a.splitOn slash ≠ front.splitOn slash ++ [[]] := by
      intro heq
      refine getLast?_splitOn_ne_nil ha hlast ?_
      rw [heq, List.getLast?_concat]
    rw [h, List.splitOn_append_cons_self, List.splitOn_nil, List.prefix_concat_iff]
    exact (or_iff_right hnil).symm

/-! ## What the loop accepts -/

/-- A component that is no directory reference and has no control byte. -/
def IsPathComponent (component : Bytes) : Prop :=
  component ≠ [] ∧ component ≠ ascii "." ∧ component ≠ ascii ".." ∧ ∀ byte ∈ component, isControlByte byte = false

/-- Where the components start when the first one starts at `start` and single separators stand between them. -/
def componentStarts : List Bytes → Nat → List Nat
  | [], _ => []
  | component :: rest, start => start :: componentStarts rest (start + component.length + 1)

theorem componentOffsets_cons {component : Bytes} {rest : List Bytes} {start : Nat} {offsets output : List UInt16}
    (h : componentOffsets limits (component :: rest) start offsets = some output) :
    IsPathComponent component ∧ start ≤ 0xffff ∧
      componentOffsets limits rest (start + component.length + 1) (offsets ++ [UInt16.ofNat start]) = some output := by
  rw [componentOffsets] at h
  split at h
  · cases h
  · next hreject =>
    split at h
    · cases h
    · next hcontrol =>
      simp only [Bool.or_eq_true, not_or, List.isEmpty_iff, beq_iff_eq, decide_eq_true_eq] at hreject
      obtain ⟨⟨⟨⟨hempty, hdot⟩, hdots⟩, -⟩, hstart⟩ := hreject
      rw [List.any_eq_true] at hcontrol
      push Not at hcontrol
      exact ⟨⟨hempty, hdot, hdots, fun byte hbyte => Bool.eq_false_iff.mpr (hcontrol byte hbyte)⟩, by omega, h⟩

/-- Every component passes, and the offsets are their starts, none of which is cut off at 16 bits. -/
theorem componentOffsets_some {components : List Bytes} {start : Nat} {offsets output : List UInt16}
    (h : componentOffsets limits components start offsets = some output) :
    (∀ component ∈ components, IsPathComponent component) ∧
      output.map UInt16.toNat = offsets.map UInt16.toNat ++ componentStarts components start := by
  induction components generalizing start offsets with
  | nil =>
      obtain rfl := Option.some.inj h
      exact ⟨by simp, by rw [componentStarts, List.append_nil]⟩
  | cons component rest ih =>
      obtain ⟨hcomponent, hstart, hrest⟩ := componentOffsets_cons h
      obtain ⟨hall, hoffsets⟩ := ih hrest
      refine ⟨List.forall_mem_cons.mpr ⟨hcomponent, hall⟩, ?_⟩
      have hexact : (UInt16.ofNat start).toNat = start := by
        rw [UInt16.toNat_ofNat', Nat.mod_eq_of_lt (by omega)]
      rw [hoffsets, List.map_append, List.map_singleton, hexact, List.append_assoc, componentStarts,
        List.singleton_append]

theorem normalizeRulePath_some {input : Bytes} {path : NormalizedPath}
    (h : normalizeRulePath limits input = some path) :
    input ≠ [] ∧ input.head? ≠ some slash ∧ path.bytes = input ∧
      (∀ component ∈ visitedComponents input, IsPathComponent component) ∧
      path.componentOffsets.map UInt16.toNat = componentStarts (visitedComponents input) 0 := by
  unfold normalizeRulePath at h
  split at h
  · cases h
  · next hreject =>
    simp only [Bool.or_eq_true, not_or, List.isEmpty_iff, decide_eq_true_eq] at hreject
    obtain ⟨offsets, hoffsets, rfl⟩ := Option.map_eq_some_iff.mp h
    obtain ⟨hall, hstarts⟩ := componentOffsets_some hoffsets
    exact ⟨hreject.1.1, hreject.2, rfl, hall, by simpa using hstarts⟩

theorem normalizeRulePath_of_append_slash {front : Bytes} {path : NormalizedPath}
    (h : normalizeRulePath limits (front ++ [slash]) = some path) :
    front ≠ [] ∧ front.getLast? ≠ some slash ∧
      normalizeRulePath limits front = some ⟨front, path.componentOffsets⟩ := by
  obtain ⟨-, hhead, -, hall, -⟩ := normalizeRulePath_some h
  rw [visitedComponents_append_slash] at hall
  have hne : front ≠ [] := by
    rintro rfl
    exact hhead rfl
  have hlast : front.getLast? ≠ some slash := by
    intro hlast
    obtain ⟨rest, rfl⟩ := List.getLast?_eq_some_iff.mp hlast
    refine (hall [] ?_).1 rfl
    rw [List.splitOn_append_cons_self, List.splitOn_nil]
    exact List.mem_append_right _ (List.mem_singleton_self [])
  refine ⟨hne, hlast, ?_⟩
  unfold normalizeRulePath at h ⊢
  rw [visitedComponents_append_slash] at h
  rw [visitedComponents_of_not_slash hne hlast]
  split at h
  · cases h
  · next hreject =>
    have haccept : ¬ (front.isEmpty || decide (limits.maxPathBytes < front.length) ||
        decide (front.head? = some slash)) = true := by
      simp only [Bool.or_eq_true, not_or, List.isEmpty_iff, decide_eq_true_eq, List.length_append,
        List.length_singleton] at hreject ⊢
      refine ⟨⟨hne, by omega⟩, fun hhead' => hhead ?_⟩
      rw [List.head?_append, hhead', Option.some_or]
    rw [if_neg haccept]
    obtain ⟨offsets, hoffsets, rfl⟩ := Option.map_eq_some_iff.mp h
    rw [hoffsets, Option.map_some]

/-! ## The normal form -/

/-- The string is its components joined by single separators, and the offsets are their starts. -/
structure NormalForm (path : NormalizedPath) : Prop where
  joined : [slash].intercalate (visitedComponents path.bytes) = path.bytes
  components : ∀ component ∈ visitedComponents path.bytes, IsPathComponent component ∧ slash ∉ component
  offsets : path.componentOffsets.map UInt16.toNat = componentStarts (visitedComponents path.bytes) 0

/-- Among the accepted paths, the path is an ancestor of those that begin with its components and of no others. -/
def ComparesByComponents (limits : RulesLimits) (path : NormalizedPath) : Prop :=
  ∀ input other, normalizeRulePath limits input = some other →
    (isSameOrAncestor path other = true ↔ visitedComponents path.bytes <+: visitedComponents other.bytes)

/-- **The normal form of accepted paths**, and the comparison that rests on it: an accepted path has either exactly
when it does not end in a separator. -/
theorem normalForm_iff {input : Bytes} {path : NormalizedPath} (h : normalizeRulePath limits input = some path) :
    (NormalForm path ↔ input.getLast? ≠ some slash) ∧
      (ComparesByComponents limits path ↔ input.getLast? ≠ some slash) := by
  obtain ⟨hne, -, rfl, hall, hoffsets⟩ := normalizeRulePath_some h
  rcases exists_visited path.bytes hne with ⟨hlast, hvisited⟩ | ⟨front, hfront, hvisited⟩
  · refine ⟨iff_of_true ⟨?_, ?_, hoffsets⟩ hlast, iff_of_true (fun input other hother => ?_) hlast⟩
    · rw [hvisited, List.intercalate_splitOn]
    · intro component hcomponent
      rw [hvisited] at hcomponent
      exact ⟨hall component (hvisited ▸ hcomponent), notMem_of_mem_splitOn hcomponent⟩
    · obtain ⟨hne', -, rfl, -⟩ := normalizeRulePath_some hother
      rw [isSameOrAncestor_iff]
      exact (encloses_iff hne hlast hne').symm
  · have hlast : ¬ path.bytes.getLast? ≠ some slash := by
      rw [hfront, not_not, List.getLast?_concat]
    rw [hfront] at h
    obtain ⟨hshortNe, hshortLast, hshort⟩ := normalizeRulePath_of_append_slash h
    refine ⟨iff_of_false (fun hform => ?_) hlast, iff_of_false (fun hcompares => ?_) hlast⟩
    · have hjoined := hform.joined
      rw [hvisited, List.intercalate_splitOn, hfront] at hjoined
      simp at hjoined
    · -- the path without the separator has the same components and is no extension
      have hsame : visitedComponents path.bytes <+: visitedComponents front := by
        rw [hvisited, visitedComponents_of_not_slash hshortNe hshortLast]
      have hwithin := isSameOrAncestor_iff.mp ((hcompares front _ hshort).mpr hsame)
      rcases isWithin_iff.mp hwithin with heq | ⟨rest, heq⟩
      · have := congrArg List.length (heq.trans hfront)
        simp at this
      · rw [hfront] at heq
        have := congrArg List.length heq
        simp at this

theorem normalForm_folder :
    NormalForm ⟨ascii "Download/Folder", [0, 9]⟩ ∧ ComparesByComponents {} ⟨ascii "Download/Folder", [0, 9]⟩ ∧
      ¬ NormalForm ⟨ascii "Download/", [0]⟩ := by
  have hfolder := @normalForm_iff {} (ascii "Download/Folder") ⟨ascii "Download/Folder", [0, 9]⟩ (by decide)
  have hslash := @normalForm_iff {} (ascii "Download/") ⟨ascii "Download/", [0]⟩ (by decide)
  exact ⟨hfolder.1.mpr (by decide), hfolder.2.mpr (by decide), mt hslash.1.mp (by decide)⟩

/-- `"A/"`: its only component is `A`, and `"A"` has that component too. -/
theorem not_normalForm_slash :
    ¬ ∀ (limits : RulesLimits) (input : Bytes) (path : NormalizedPath), normalizeRulePath limits input = some path →
      NormalForm path ∧ ComparesByComponents limits path := by
  intro h
  have haccepted : normalizeRulePath {} (ascii "A/") = some ⟨ascii "A/", [0]⟩ := by decide
  exact absurd (h {} (ascii "A/") _ haccepted).1.joined (by decide)

end PathGuard.Rules

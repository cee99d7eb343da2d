import Mathlib.Data.List.Infix

/-!
# Finding a pattern in a text of lines

`std::string::find`: where the first occurrence of a pattern starts. A pattern without a line separator lies inside one
line, so a line that lacks one of its characters can be skipped. `findFrom` looks for one character from an offset on.

* `findFirst_eq_some`, `findFirst_eq_none` : where a pattern is found, and when it is not;
* `findFirst_line` : a line that lacks a character of the pattern is skipped;
* `splitOn_of_idxOf?`, `visitedParts` : the loops that take a text apart at a character.
-/

namespace PathGuard

variable {α : Type*} [DecidableEq α]

/-- The position of the first `a` from `start` on. -/
def findFrom (text : List α) (a : α) (start : Nat) : Option Nat := ((text.drop start).idxOf? a).map (start + ·)

theorem findFrom_bounds {text : List α} {a : α} {start found : Nat} (h : findFrom text a start = some found) :
    start ≤ found ∧ found < text.length := by
  unfold findFrom at h
  obtain ⟨index, hindex, rfl⟩ := Option.map_eq_some_iff.mp h
  obtain ⟨hlt, -⟩ := List.idxOf?_eq_some_iff.mp hindex
  rw [List.length_drop] at hlt
  omega

theorem findFrom_eq_none_iff {text : List α} {a : α} {start : Nat} :
    findFrom text a start = none ↔ a ∉ text.drop start := by
  unfold findFrom
  rw [Option.map_eq_none_iff, List.idxOf?_eq_none_iff]

theorem drop_of_idxOf? {a : α} {text : List α} {index : Nat} (h : text.idxOf? a = some index) :
    text.drop index = a :: text.drop (index + 1) := by
  obtain ⟨hlt, hat, -⟩ := List.idxOf?_eq_some_iff.mp h
  rw [List.drop_eq_getElem_cons hlt, hat]

theorem eq_of_idxOf? {a : α} {text : List α} {index : Nat} (h : text.idxOf? a = some index) :
    text = text.take index ++ a :: text.drop (index + 1) ∧ a ∉ text.take index := by
  obtain ⟨hlt, -, hbefore⟩ := List.idxOf?_eq_some_iff.mp h
  constructor
  · conv_lhs => rw [← List.take_append_drop index text, drop_of_idxOf? h]
  · intro hmem
    obtain ⟨position, hposition, heq⟩ := List.getElem_of_mem hmem
    rw [List.length_take] at hposition
    rw [List.getElem_take] at heq
    exact hbefore position (by omega) heq

theorem notMem_take {a : α} {text : List α} {index : Nat}
    (h : ∀ first, text.idxOf? a = some first → index ≤ first) : a ∉ text.take index := by
  intro hmem
  obtain ⟨first, hfirst⟩ := Option.isSome_iff_exists.mp (List.isSome_idxOf?.mpr (List.mem_of_mem_take hmem))
  have hle := h first hfirst
  obtain ⟨-, hfree⟩ := eq_of_idxOf? hfirst
  apply hfree
  rw [← Nat.min_eq_left hle, ← List.take_take] at hmem
  exact List.mem_of_mem_take hmem

theorem splitOn_of_idxOf? {separator : α} {text : List α} {index : Nat} (h : text.idxOf? separator = some index) :
    text.splitOn separator = text.take index :: (text.drop (index + 1)).splitOn separator := by
  obtain ⟨htext, hfree⟩ := eq_of_idxOf? h
  conv_lhs => rw [htext]
  exact List.splitOn_append_cons_self_of_not_mem hfree _

/-- The parts a loop visits that ends at the end of the text: it does not look at an empty part that comes last. -/
def visitedParts (separator : α) (text : List α) : List (List α) :=
  let parts := text.splitOn separator
  if parts.getLast? = some [] then parts.dropLast else parts

theorem visitedParts_of_notMem {separator : α} {text : List α} (hne : text ≠ []) (h : separator ∉ text) :
    visitedParts separator text = [text] := by
  simp only [visitedParts, List.splitOn_eq_singleton h, List.getLast?_singleton, Option.some.injEq]
  rw [if_neg hne]

theorem visitedParts_of_idxOf? {separator : α} {text : List α} {index : Nat}
    (h : text.idxOf? separator = some index) :
    visitedParts separator text = text.take index :: visitedParts separator (text.drop (index + 1)) := by
  have hne := List.splitOn_ne_nil separator (text.drop (index + 1))
  simp only [visitedParts, splitOn_of_idxOf? h, List.getLast?_cons_of_ne_nil hne, List.dropLast_cons_of_ne_nil hne]
  split <;> rfl

omit [DecidableEq α] in
theorem intercalate_cons (separator : α) (part : List α) (parts : List (List α)) :
    [separator].intercalate (part :: parts) = part ++ parts.flatMap fun part => separator :: part := by
  induction parts generalizing part with
  | nil => simp
  | cons next parts ih =>
      rw [List.intercalate_cons_of_ne_nil (List.cons_ne_nil _ _), ih, List.flatMap_cons]
      simp

/-- The start of the first occurrence. -/
def findFirst (pattern : List α) : List α → Option Nat
  | [] => if pattern.isEmpty then some 0 else none
  | a :: text => if pattern.isPrefixOf (a :: text) then some 0 else (findFirst pattern text).map (· + 1)

variable {pattern line text : List α} {separator c : α}

theorem findFirst_append_self (pattern text : List α) : findFirst pattern (pattern ++ text) = some 0 := by
  cases htext : pattern ++ text with
  | nil =>
      have hnil : pattern = [] := (List.append_eq_nil_iff.mp htext).1
      simp [findFirst, hnil]
  | cons a rest =>
      have hprefix : pattern <+: a :: rest := htext ▸ List.prefix_append pattern text
      rw [findFirst, if_pos (List.isPrefixOf_iff_prefix.mpr hprefix)]

theorem findFirst_eq_some {index : Nat} (h : findFirst pattern text = some index) :
    pattern <+: text.drop index ∧ ∀ earlier < index, ¬ pattern <+: text.drop earlier := by
  induction text generalizing index with
  | nil =>
      rw [findFirst] at h
      split at h
      · next hempty =>
        obtain rfl := Option.some.inj h
        rw [List.isEmpty_iff.mp hempty]
        exact ⟨List.nil_prefix, nofun⟩
      · cases h
  | cons a text ih =>
      rw [findFirst] at h
      split at h
      · next hprefix =>
        obtain rfl := Option.some.inj h
        exact ⟨List.isPrefixOf_iff_prefix.mp hprefix, nofun⟩
      · next hprefix =>
        obtain ⟨found, hfound, rfl⟩ := Option.map_eq_some_iff.mp h
        obtain ⟨hat, hbefore⟩ := ih hfound
        refine ⟨hat, fun earlier hlt => ?_⟩
        cases earlier with
        | zero => rwa [List.isPrefixOf_iff_prefix] at hprefix
        | succ earlier => exact hbefore earlier (Nat.lt_of_succ_lt_succ hlt)

theorem findFirst_eq_none (h : findFirst pattern text = none) (start : Nat) : ¬ pattern <+: text.drop start := by
  induction text generalizing start with
  | nil =>
      rw [findFirst] at h
      split at h
      · cases h
      · next hempty =>
        rw [List.drop_nil, List.prefix_nil]
        simpa using hempty
  | cons a text ih =>
      rw [findFirst] at h
      split at h
      · cases h
      · next hprefix =>
        cases start with
        | zero => rwa [List.isPrefixOf_iff_prefix] at hprefix
        | succ start => exact ih (Option.map_eq_none_iff.mp h) start

omit [DecidableEq α] in
/-- A pattern that starts in a line and has no separator ends in it. -/
theorem isPrefix_of_isPrefix_line (line : List α) (hseparator : separator ∉ pattern)
    (h : pattern <+: line ++ separator :: text) : pattern <+: line := by
  by_cases hlength : pattern.length ≤ line.length
  · exact List.prefix_of_prefix_length_le h (List.prefix_append line _) hlength
  · have hline : line ++ [separator] <+: pattern := by
      refine List.prefix_of_prefix_length_le ?_ h (by simp; omega)
      exact ⟨text, by simp⟩
    exact absurd (hline.subset (by simp)) hseparator

theorem findFirst_line (hseparator : separator ∉ pattern) (hmem : c ∈ pattern) (hline : c ∉ line) :
    findFirst pattern (line ++ separator :: text) = (findFirst pattern text).map (· + (line.length + 1)) := by
  induction line with
  | nil =>
      have hnot : ¬ pattern <+: separator :: text := by
        intro h
        have hnil := isPrefix_of_isPrefix_line [] hseparator h
        exact hline (hnil.subset hmem)
      rw [List.nil_append, findFirst, if_neg (by rwa [List.isPrefixOf_iff_prefix])]
      rfl
  | cons a line ih =>
      have hnot : ¬ pattern <+: a :: (line ++ separator :: text) := by
        intro h
        exact hline ((isPrefix_of_isPrefix_line (a :: line) hseparator h).subset hmem)
      rw [List.cons_append, findFirst, if_neg (by rwa [List.isPrefixOf_iff_prefix]),
        ih (fun h => hline (List.mem_cons_of_mem a h)), Option.map_map]
      congr 1

end PathGuard

import Mathlib.Data.List.Basic
import Mathlib.Tactic.Ring

/-!
# What a byte string holds, and where

`HoldsAt l offset part` says that `part` stands in `l` at `offset`. It survives everything that is appended, and it
composes: a field of a row of a table of a file stands where the three offsets add up to.

* `HoldsAt.append`, `HoldsAt.trans`, `holdsAt_flatten` : how places compose;
* `Rows` : a table of rows of one width; `existsUnique_run` : every row is in the run of one owner.
-/

namespace PathGuard

variable {α : Type*}

def HoldsAt (l : List α) (offset : Nat) (part : List α) : Prop :=
  ∃ before after, l = before ++ part ++ after ∧ before.length = offset

theorem HoldsAt.length_le {l part : List α} {offset : Nat} (h : HoldsAt l offset part) :
    offset + part.length ≤ l.length := by
  obtain ⟨before, after, rfl, rfl⟩ := h
  simp only [List.length_append]
  omega

theorem HoldsAt.drop_eq {l part : List α} {offset : Nat} (h : HoldsAt l offset part) :
    ∃ after, l.drop offset = part ++ after := by
  obtain ⟨before, after, rfl, rfl⟩ := h
  exact ⟨after, by rw [List.append_assoc, List.drop_left]⟩

theorem HoldsAt.take_drop {l part : List α} {offset : Nat} (h : HoldsAt l offset part) :
    (l.drop offset).take part.length = part := by
  obtain ⟨after, hafter⟩ := h.drop_eq
  rw [hafter, List.take_left]

theorem holdsAt_self (l : List α) : HoldsAt l 0 l := ⟨[], [], by simp, rfl⟩

theorem HoldsAt.append {l part : List α} {offset : Nat} (h : HoldsAt l offset part) (rest : List α) :
    HoldsAt (l ++ rest) offset part := by
  obtain ⟨before, after, rfl, rfl⟩ := h
  exact ⟨before, after ++ rest, by simp only [List.append_assoc], rfl⟩

theorem holdsAt_append_right {l : List α} {offset : Nat} (h : l.length = offset) (part : List α) :
    HoldsAt (l ++ part) offset part :=
  ⟨l, [], by simp, h⟩

theorem HoldsAt.trans {l m part : List α} {i j : Nat} (h : HoldsAt l i m) (hpart : HoldsAt m j part) :
    HoldsAt l (i + j) part := by
  obtain ⟨before, after, rfl, rfl⟩ := h
  obtain ⟨before', after', rfl, rfl⟩ := hpart
  exact ⟨before ++ before', after' ++ after, by simp only [List.append_assoc], by simp⟩

/-- A field of a row: the offset is the length of the fields before it. -/
theorem holdsAt_flatten {fields : List (List α)} {i : Nat} {field : List α} (h : fields[i]? = some field) :
    HoldsAt fields.flatten (fields.take i).flatten.length field := by
  obtain ⟨hi, rfl⟩ := List.getElem?_eq_some_iff.mp h
  have hsplit : fields = fields.take i ++ fields[i] :: fields.drop (i + 1) := by
    rw [List.getElem_cons_drop, List.take_append_drop]
  refine ⟨(fields.take i).flatten, (fields.drop (i + 1)).flatten, ?_, rfl⟩
  conv_lhs => rw [hsplit, List.flatten_append, List.flatten_cons, ← List.append_assoc]

theorem HoldsAt.field {l : List α} {fields : List (List α)} {start offset : Nat} {field : List α}
    (h : HoldsAt l start fields.flatten) (i : Nat) (hi : fields[i]? = some field)
    (hoffset : start + (fields.take i).flatten.length = offset) : HoldsAt l offset field := by
  rw [← hoffset]
  exact h.trans (holdsAt_flatten hi)

/-! ## Tables of rows of one size -/

/-- Every element of `items` has its row in `table`, at its index times `size`; what a row may look like is up to
`IsRow`. -/
structure Rows {β : Type*} (size : Nat) (IsRow : Nat → β → List α → Prop) (items : List β) (table : List α) : Prop where
  length_eq : table.length = items.length * size
  row : ∀ i item, items[i]? = some item → ∃ part, IsRow i item part ∧ HoldsAt table (i * size) part

theorem rows_nil {β : Type*} (size : Nat) (IsRow : Nat → β → List α → Prop) : Rows size IsRow [] [] :=
  ⟨by simp, by simp⟩

theorem Rows.append {β : Type*} {size : Nat} {IsRow : Nat → β → List α → Prop} {items : List β} {table : List α}
    (h : Rows size IsRow items table) (item : β) {part : List α} (hpart : IsRow items.length item part)
    (hsize : part.length = size) : Rows size IsRow (items ++ [item]) (table ++ part) := by
  refine ⟨?_, fun i other hi => ?_⟩
  · rw [List.length_append, List.length_append, h.length_eq, hsize, List.length_singleton]
    ring
  · rcases Nat.lt_or_ge i items.length with hlt | hge
    · rw [List.getElem?_append_left hlt] at hi
      obtain ⟨part', hrow, hholds⟩ := h.row i other hi
      exact ⟨part', hrow, hholds.append part⟩
    · rw [List.getElem?_append_right hge, List.getElem?_singleton] at hi
      split at hi
      · next hzero =>
        obtain rfl : i = items.length := by omega
        obtain rfl := Option.some.inj hi
        exact ⟨part, hpart, holdsAt_append_right h.length_eq part⟩
      · cases hi

theorem Rows.imp {β : Type*} {size : Nat} {IsRow IsRow' : Nat → β → List α → Prop} {items : List β} {table : List α}
    (h : Rows size IsRow items table) (himp : ∀ i item part, IsRow i item part → IsRow' i item part) :
    Rows size IsRow' items table := by
  refine ⟨h.length_eq, fun i item hi => ?_⟩
  obtain ⟨part, hrow, hholds⟩ := h.row i item hi
  exact ⟨part, himp i item part hrow, hholds⟩

/-! ## Runs of rows -/

/-- Where the run at `index` starts when runs of the given lengths follow each other. -/
def runStart (lengths : List Nat) (index : Nat) : Nat := (lengths.take index).sum

theorem runStart_succ {lengths : List Nat} {index length : Nat} (h : lengths[index]? = some length) :
    runStart lengths (index + 1) = runStart lengths index + length := by
  obtain ⟨hindex, rfl⟩ := List.getElem?_eq_some_iff.mp h
  rw [runStart, runStart, List.take_succ_eq_append_getElem hindex, List.sum_append, List.sum_singleton]

theorem runStart_mono {lengths : List Nat} {i j : Nat} (h : i ≤ j) : runStart lengths i ≤ runStart lengths j := by
  rw [runStart, runStart]
  conv_rhs => rw [← Nat.add_sub_cancel' h, List.take_add, List.sum_append]
  exact Nat.le_add_right _ _

/-- **Every row is in one run.** -/
theorem existsUnique_run {lengths : List Nat} {row : Nat} (hrow : row < lengths.sum) :
    ∃! index, ∃ length, lengths[index]? = some length ∧ runStart lengths index ≤ row ∧
      row < runStart lengths index + length := by
  have hunique : ∀ i j, (∃ length, lengths[i]? = some length ∧ runStart lengths i ≤ row ∧
      row < runStart lengths i + length) → (∃ length, lengths[j]? = some length ∧ runStart lengths j ≤ row ∧
      row < runStart lengths j + length) → ¬ i < j := by
    rintro i j ⟨length, hi, -, hlt⟩ ⟨-, -, hle, -⟩ hij
    have hmono := @runStart_mono lengths _ _ (Nat.succ_le_of_lt hij)
    rw [Nat.succ_eq_add_one, runStart_succ hi] at hmono
    omega
  have hexists : ∃ index, ∃ length, lengths[index]? = some length ∧ runStart lengths index ≤ row ∧
      row < runStart lengths index + length := by
    -- the last run that starts at the row or before it
    have hbound : ∃ n, row < runStart lengths n := ⟨lengths.length, by rwa [runStart, List.take_length]⟩
    have hfind := Nat.find_spec hbound
    cases hn : Nat.find hbound with
    | zero =>
        rw [hn] at hfind
        simp [runStart] at hfind
    | succ n =>
        rw [hn] at hfind
        have hnot : ¬ row < runStart lengths n := Nat.find_min hbound (by omega)
        cases hlength : lengths[n]? with
        | none =>
            have hlen := List.getElem?_eq_none_iff.mp hlength
            rw [runStart, List.take_of_length_le (by omega)] at hfind
            rw [runStart, List.take_of_length_le hlen] at hnot
            exact absurd hfind hnot
        | some length => exact ⟨n, length, hlength, not_lt.mp hnot, by rwa [← runStart_succ hlength]⟩
  obtain ⟨index, hindex⟩ := hexists
  refine ⟨index, hindex, fun other hother => ?_⟩
  exact Nat.le_antisymm (not_lt.mp (hunique _ _ hindex hother)) (not_lt.mp (hunique _ _ hother hindex))

end PathGuard

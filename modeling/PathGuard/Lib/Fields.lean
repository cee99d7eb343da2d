import Mathlib.Data.List.TakeWhile
import PathGuard.Lib.Bytes

/-!
# Fields of a text

The fields of a text are its maximal parts without a separator. `nextField` takes the first one, as a scanner does
that passes over separators, then over the field, and then over the one separator that ends it.

* `fields_eq` : the fields are what `nextField` takes one after the other;
* `fields_append_cons`, `fields_append_separator` : the fields of a text that is put together;
* `fields_intercalate` : fields written with separators are read again.
-/

namespace PathGuard

/-- `isspace` in the C locale. -/
def isWhitespace (byte : UInt8) : Bool := byte == 0x20 || 0x09 ≤ byte && byte ≤ 0x0d

section Fields
variable {α : Type*} {separator : α → Bool}

def fields (separator : α → Bool) (text : List α) : List (List α) :=
  (text.splitOnP separator).filter fun field => !field.isEmpty

/-- The first field and what comes after the separator that ends it. -/
def nextField (separator : α → Bool) (text : List α) : Option (List α × List α) :=
  let text := text.dropWhile separator
  if text.isEmpty then none
  else some (text.takeWhile fun a => !separator a, (text.dropWhile fun a => !separator a).tail)

@[simp] theorem fields_nil : fields separator [] = [] := rfl

theorem fields_cons_separator {a : α} (h : separator a = true) (text : List α) :
    fields separator (a :: text) = fields separator text := by
  rw [fields, List.splitOnP_cons_eq_if_modifyHead, if_pos h]
  rfl

theorem fields_append_cons {field : List α} (hne : field ≠ []) (hfield : ∀ a ∈ field, separator a = false) {a : α}
    (ha : separator a = true) (text : List α) :
    fields separator (field ++ a :: text) = field :: fields separator text := by
  rw [fields, List.splitOnP_append_cons_of_forall_mem hfield a ha]
  simp [fields, hne]

theorem fields_of_forall {field : List α} (hne : field ≠ []) (hfield : ∀ a ∈ field, separator a = false) :
    fields separator field = [field] := by
  rw [fields, List.splitOnP_eq_singleton hfield]
  simp [hne]

theorem fields_append_separator {a : α} (ha : separator a = true) (text rest : List α) :
    fields separator (text ++ a :: rest) = fields separator text ++ fields separator rest := by
  rw [fields, fields, fields, List.splitOnP_append_cons _ _ ha, List.filter_append]

theorem fields_dropWhile (text : List α) : fields separator (text.dropWhile separator) = fields separator text := by
  induction text with
  | nil => rfl
  | cons a text ih =>
      by_cases ha : separator a = true
      · rw [List.dropWhile_cons_of_pos ha, ih, fields_cons_separator ha]
      · rw [List.dropWhile_cons_of_neg ha]

/-- More separators split every field again. -/
theorem fields_flatMap {finer : α → Bool} (h : ∀ a, separator a = true → finer a = true) (text : List α) :
    fields finer text = (fields separator text).flatMap (fields finer) := by
  induction hlength : text.length using Nat.strong_induction_on generalizing text with
  | _ length ih =>
      by_cases hnone : ∀ a ∈ text, separator a = false
      · by_cases hnil : text = []
        · subst hnil
          rfl
        · rw [fields_of_forall hnil hnone, List.flatMap_singleton]
      · push Not at hnone
        obtain ⟨a, hmem, ha⟩ := hnone
        rw [Bool.ne_false_iff] at ha
        obtain ⟨front, rest, rfl⟩ := List.append_of_mem hmem
        rw [List.length_append, List.length_cons] at hlength
        rw [fields_append_separator (h a ha), fields_append_separator ha, List.flatMap_append,
          ih front.length (by omega) front rfl, ih rest.length (by omega) rest rfl]

theorem fields_eq (text : List α) :
    fields separator text =
      match nextField separator text with
      | none => []
      | some (field, rest) => field :: fields separator rest := by
  induction text with
  | nil => rfl
  | cons a text ih =>
      by_cases ha : separator a = true
      · have hnext : nextField separator (a :: text) = nextField separator text := by
          rw [nextField, nextField, List.dropWhile_cons_of_pos ha]
        rw [fields_cons_separator ha, hnext, ih]
      · have hnext : nextField separator (a :: text) = some (a :: text.takeWhile (fun a => !separator a),
            (text.dropWhile fun a => !separator a).tail) := by
          simp [nextField, ha]
        rw [hnext]
        have hfield : ∀ b ∈ a :: text.takeWhile (fun a => !separator a), separator b = false := by
          intro b hb
          rcases List.mem_cons.mp hb with rfl | hb
          · simpa using ha
          · simpa using List.mem_takeWhile_imp hb
        have htext : a :: text =
            (a :: text.takeWhile fun a => !separator a) ++ text.dropWhile fun a => !separator a := by
          rw [List.cons_append, List.takeWhile_append_dropWhile]
        cases hrest : text.dropWhile fun a => !separator a with
        | nil =>
            rw [hrest, List.append_nil] at htext
            rw [htext, fields_of_forall (List.cons_ne_nil _ _) hfield]
            rfl
        | cons b rest =>
            have hb : separator b = true := by
              have hnot := List.head_dropWhile_not (fun a => !separator a) (l := text)
                (by rw [hrest]; exact List.cons_ne_nil _ _)
              simpa [hrest] using hnot
            rw [hrest] at htext
            rw [htext, fields_append_cons (List.cons_ne_nil _ _) hfield hb]
            rfl

theorem length_nextField {text field rest : List α} (h : nextField separator text = some (field, rest)) :
    rest.length < text.length := by
  simp only [nextField, Option.ite_none_left_eq_some, List.isEmpty_iff, Option.some.injEq, Prod.mk.injEq] at h
  obtain ⟨hne, -, rfl⟩ := h
  have hbody := (List.dropWhile_suffix separator (l := text)).length_le
  have hafter := (List.dropWhile_suffix (fun a => !separator a) (l := text.dropWhile separator)).length_le
  have hpositive := List.length_pos_of_ne_nil hne
  rw [List.length_tail]
  omega

/-- A text in which there is a field: separators, the field, and nothing or a separator behind it. -/
theorem exists_of_fields_eq_cons {text field : List α} {others : List (List α)}
    (h : fields separator text = field :: others) :
    ∃ space rest, text = space ++ (field ++ rest) ∧ (∀ a ∈ space, separator a = true) ∧
      (∀ a ∈ rest.head?, separator a = true) ∧ others = fields separator rest := by
  refine ⟨text.takeWhile separator, (text.dropWhile separator).dropWhile fun a => !separator a, ?_, fun a ha =>
    List.mem_takeWhile_imp ha, fun a ha => ?_, ?_⟩
  · rw [fields_eq, nextField] at h
    split at h
    · cases h
    · next heq =>
      simp only [Option.ite_none_left_eq_some, Option.some.injEq, Prod.mk.injEq] at heq
      obtain ⟨-, hfield, -⟩ := heq
      rw [← (List.cons.inj h).1, ← hfield, List.takeWhile_append_dropWhile, List.takeWhile_append_dropWhile]
  · cases hrest : (text.dropWhile separator).dropWhile fun a => !separator a with
    | nil =>
        rw [hrest] at ha
        cases ha
    | cons b rest =>
        have hnot := List.head_dropWhile_not (fun a => !separator a) (l := text.dropWhile separator)
          (by rw [hrest]; exact List.cons_ne_nil _ _)
        rw [hrest] at ha
        obtain rfl : b = a := Option.some.inj ha
        simpa [hrest] using hnot
  · rw [fields_eq, nextField] at h
    split at h
    · cases h
    · next heq =>
      simp only [Option.ite_none_left_eq_some, Option.some.injEq, Prod.mk.injEq] at heq
      obtain ⟨-, -, hrest⟩ := heq
      rw [← (List.cons.inj h).2, ← hrest]
      cases hdrop : (text.dropWhile separator).dropWhile fun a => !separator a with
      | nil => rfl
      | cons b rest =>
          have hnot := List.head_dropWhile_not (fun a => !separator a) (l := text.dropWhile separator)
            (by rw [hdrop]; exact List.cons_ne_nil _ _)
          rw [List.tail_cons, fields_cons_separator (by simpa [hdrop] using hnot)]

theorem forall_of_fields_eq_nil {text : List α} (h : fields separator text = []) : ∀ a ∈ text, separator a = true := by
  rw [fields_eq, nextField] at h
  split at h
  · next heq =>
    simp only [ite_eq_left_iff, reduceCtorEq, imp_false, not_not, List.isEmpty_iff, List.dropWhile_eq_nil_iff] at heq
    exact heq
  · cases h

theorem of_mem_splitOnP {text part : List α} (h : part ∈ text.splitOnP separator) :
    ∀ a ∈ part, separator a = false ∧ a ∈ text := by
  induction text generalizing part with
  | nil =>
      rw [List.splitOnP_nil, List.mem_singleton] at h
      rw [h]
      exact List.forall_mem_nil _
  | cons b text ih =>
      have hlater : ∀ part ∈ text.splitOnP separator, ∀ a ∈ part, separator a = false ∧ a ∈ b :: text :=
        fun part hpart a ha => ⟨(ih hpart a ha).1, List.mem_cons_of_mem b (ih hpart a ha).2⟩
      rw [List.splitOnP_cons_eq_if_modifyHead] at h
      split at h
      · rcases List.mem_cons.mp h with rfl | h
        · exact List.forall_mem_nil _
        · exact hlater part h
      · next hb =>
        obtain ⟨first, rest, hsplit⟩ := List.exists_cons_of_ne_nil (List.splitOnP_ne_nil separator text)
        rw [hsplit, List.modifyHead_cons] at h
        rw [hsplit] at hlater
        rcases List.mem_cons.mp h with rfl | h
        · rw [List.forall_mem_cons]
          exact ⟨⟨by simpa using hb, List.mem_cons_self⟩, hlater first List.mem_cons_self⟩
        · exact hlater part (List.mem_cons_of_mem first h)

theorem of_mem_fields {text field : List α} (h : field ∈ fields separator text) :
    field ≠ [] ∧ ∀ a ∈ field, separator a = false ∧ a ∈ text := by
  rw [fields, List.mem_filter] at h
  exact ⟨by simpa using h.2, of_mem_splitOnP h.1⟩

theorem fields_intercalate {a : α} (ha : separator a = true) {parts : List (List α)}
    (hparts : ∀ part ∈ parts, part ≠ [] ∧ ∀ b ∈ part, separator b = false) :
    fields separator ([a].intercalate parts) = parts := by
  induction parts with
  | nil => rfl
  | cons part parts ih =>
      rw [List.forall_mem_cons] at hparts
      cases parts with
      | nil => rw [List.intercalate_singleton, fields_of_forall hparts.1.1 hparts.1.2]
      | cons next parts =>
          rw [List.intercalate_cons_of_ne_nil (List.cons_ne_nil _ _), List.append_assoc, List.singleton_append,
            fields_append_cons hparts.1.1 hparts.1.2 ha, ih hparts.2]

end Fields

end PathGuard

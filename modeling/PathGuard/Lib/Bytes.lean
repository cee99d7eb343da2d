import Mathlib.Algebra.Group.Nat.Defs
import Mathlib.Data.List.Lex
import Mathlib.Order.Lattice

/-!
# Byte strings

A `std::string` is a list of bytes, compared as `std::string::compare` does: lexicographically, byte by byte,
as unsigned numbers. The lemmas on prefixes hold over every linear order: what lies between a string and an
extension of it extends it too.
-/

namespace PathGuard

instance instLinearOrderUInt8 : LinearOrder UInt8 where
  le_refl := UInt8.le_refl
  le_trans _ _ _ := UInt8.le_trans
  le_antisymm _ _ := UInt8.le_antisymm
  le_total := UInt8.le_total
  lt_iff_le_not_ge a b := by
    rw [← UInt8.not_le, iff_and_self]
    exact fun h => (UInt8.le_total a b).resolve_right h
  toDecidableLE := inferInstance
  toDecidableLT := inferInstance
  toDecidableEq := inferInstance

abbrev Bytes := List UInt8

/-- The bytes of an ASCII literal. -/
def ascii (text : String) : Bytes := text.toList.map fun c => c.toNat.toUInt8

section Prefix
variable {α : Type*} [LinearOrder α]

theorem cons_le_cons_iff {a b : α} {s t : List α} : a :: s ≤ b :: t ↔ a < b ∨ a = b ∧ s ≤ t := by
  rw [le_iff_lt_or_eq, le_iff_lt_or_eq, List.cons_lt_cons_iff, List.cons_eq_cons]
  tauto

theorem le_append (s t : List α) : s ≤ s ++ t := by
  induction s with
  | nil =>
      cases t with
      | nil => exact le_refl _
      | cons a t => exact le_of_lt List.Lex.nil
  | cons a s ih => exact cons_le_cons_iff.mpr (Or.inr ⟨rfl, ih⟩)

theorem isPrefix_of_between {s m t : List α} (hst : s <+: t) (hsm : s ≤ m) (hmt : m ≤ t) : s <+: m := by
  induction s generalizing m t with
  | nil => exact List.nil_prefix
  | cons a s ih =>
      obtain ⟨u, rfl⟩ := hst
      cases m with
      | nil => exact absurd (lt_of_lt_of_le List.Lex.nil hsm) (lt_irrefl _)
      | cons b m =>
          rw [List.cons_append, cons_le_cons_iff] at hmt
          rw [cons_le_cons_iff] at hsm
          have hab : a = b := by
            rcases hsm with hab | ⟨hab, -⟩
            · rcases hmt with hba | ⟨hba, -⟩
              · exact absurd (lt_trans hab hba) (lt_irrefl _)
              · exact hba.symm
            · exact hab
          subst hab
          simp only [lt_self_iff_false, true_and, false_or] at hsm hmt
          exact List.cons_prefix_cons.mpr ⟨rfl, ih (List.prefix_append s u) hsm hmt⟩

/-- A proper extension that stays below another goes on with a smaller element, or with the same one. -/
theorem cons_le_of_append_le {s u v : List α} {a b : α} (h : s ++ a :: u ≤ s ++ b :: v) : a ≤ b := by
  induction s with
  | nil =>
      rcases cons_le_cons_iff.mp h with h | ⟨h, -⟩
      · exact le_of_lt h
      · exact le_of_eq h
  | cons c s ih =>
      rcases cons_le_cons_iff.mp h with h | ⟨-, h⟩
      · exact absurd h (lt_irrefl _)
      · exact ih h

end Prefix

end PathGuard

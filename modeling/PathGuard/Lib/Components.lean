import PathGuard.Lib.Bytes

/-!
# Paths as separated components

A path is a list with a separator in it; one path is within another when its components begin with all of the
other's. In the lexicographic order the paths within `a` do not follow `a` at once: an extension of `a` that goes on
with an element below the separator comes between. `Interposed` names that pattern, and in a sorted list it is the
only way in which two nested paths are not neighbours.

* `isWithin_iff` : being within, byte by byte;
* `within_or_interposed`, `pairwise_not_isWithin` : what stands between nested paths in a sorted list;
* `exists_outermost` : above every path of a list there is an outermost one.
-/

namespace PathGuard

section Within
variable {α : Type*} [DecidableEq α]

/-- The components of `a` are the first components of `p`: `a` is `p` or a component-wise ancestor of it. -/
def IsWithin (sep : α) (a p : List α) : Prop := a.splitOn sep <+: p.splitOn sep

instance (sep : α) (a p : List α) : Decidable (IsWithin sep a p) := inferInstanceAs (Decidable (_ <+: _))

omit [DecidableEq α] in
theorem intercalate_append {sep : α} {l l' : List (List α)} (hl : l ≠ []) (hl' : l' ≠ []) :
    [sep].intercalate (l ++ l') = [sep].intercalate l ++ sep :: [sep].intercalate l' := by
  induction l with
  | nil => exact absurd rfl hl
  | cons x l ih =>
      cases l with
      | nil =>
          rw [List.singleton_append, List.intercalate_cons_of_ne_nil hl', List.intercalate_singleton,
            List.append_assoc, List.singleton_append]
      | cons y l =>
          rw [List.cons_append, List.intercalate_cons_of_ne_nil (by simp), ih (by simp),
            List.intercalate_cons_of_ne_nil (List.cons_ne_nil y l)]
          simp only [List.append_assoc]

omit [DecidableEq α] in
theorem mem_intercalate {sep b : α} {parts : List (List α)} (h : b ∈ [sep].intercalate parts) :
    b = sep ∨ ∃ part ∈ parts, b ∈ part := by
  induction parts with
  | nil => simp at h
  | cons part parts ih =>
      cases parts with
      | nil => exact Or.inr ⟨part, by simp, by simpa using h⟩
      | cons next parts =>
          rw [List.intercalate_cons_of_ne_nil (List.cons_ne_nil _ _), List.mem_append, List.mem_append,
            List.mem_singleton] at h
          rcases h with (h | h) | h
          · exact Or.inr ⟨part, by simp, h⟩
          · exact Or.inl h
          · rcases ih h with h | ⟨part', hpart', hb⟩
            · exact Or.inl h
            · exact Or.inr ⟨part', List.mem_cons_of_mem _ hpart', hb⟩

theorem notMem_of_mem_splitOn {sep : α} {p component : List α} (h : component ∈ p.splitOn sep) : sep ∉ component := by
  induction p generalizing component with
  | nil =>
      rw [List.splitOn_nil, List.mem_singleton] at h
      exact h ▸ List.not_mem_nil
  | cons x p ih =>
      rw [List.splitOn_cons_eq_if_modifyHead] at h
      split at h
      · rcases List.mem_cons.mp h with rfl | h
        · exact List.not_mem_nil
        · exact ih h
      · next hx =>
        rw [beq_iff_eq] at hx
        obtain ⟨first, rest, hsplit⟩ := List.exists_cons_of_ne_nil (List.splitOn_ne_nil sep p)
        rw [hsplit, List.modifyHead_cons] at h
        rw [hsplit] at ih
        rcases List.mem_cons.mp h with rfl | h
        · exact fun hmem => ih List.mem_cons_self ((List.mem_cons.mp hmem).resolve_left (Ne.symm hx))
        · exact ih (List.mem_cons_of_mem first h)

theorem splitOn_inj {sep : α} {a p : List α} (h : a.splitOn sep = p.splitOn sep) : a = p := by
  have hjoined := congrArg [sep].intercalate h
  rwa [List.intercalate_splitOn, List.intercalate_splitOn] at hjoined

/-- Being within, byte by byte: the same path, or one that goes on with the separator. -/
theorem isWithin_iff {sep : α} {a p : List α} : IsWithin sep a p ↔ p = a ∨ ∃ u, p = a ++ sep :: u := by
  constructor
  · rintro ⟨rest, hrest⟩
    by_cases hnil : rest = []
    · left
      rw [hnil, List.append_nil] at hrest
      exact (splitOn_inj hrest).symm
    · right
      refine ⟨[sep].intercalate rest, ?_⟩
      have hp : [sep].intercalate (p.splitOn sep) = p := List.intercalate_splitOn sep
      rw [← hp, ← hrest, intercalate_append (List.splitOn_ne_nil sep a) hnil, List.intercalate_splitOn]
  · rintro (rfl | ⟨u, rfl⟩)
    · exact List.prefix_refl _
    · rw [IsWithin, List.splitOn_append_cons_self]
      exact List.prefix_append _ _

theorem IsWithin.refl (sep : α) (a : List α) : IsWithin sep a a := List.prefix_refl _

theorem IsWithin.trans {sep : α} {a b c : List α} (hab : IsWithin sep a b) (hbc : IsWithin sep b c) :
    IsWithin sep a c :=
  List.IsPrefix.trans hab hbc

/-- Above everything in a list there is something that nothing in the list is above. -/
theorem exists_outermost {β : Type*} (sep : α) (key : β → List α) {l : List β} {b : β} (hb : b ∈ l) :
    ∃ a ∈ l, IsWithin sep (key a) (key b) ∧ ∀ c ∈ l, IsWithin sep (key c) (key a) → key c = key a := by
  induction hlength : (key b).length using Nat.strong_induction_on generalizing b with
  | _ length ih =>
      by_cases hmin : ∀ c ∈ l, IsWithin sep (key c) (key b) → key c = key b
      · exact ⟨b, hb, IsWithin.refl sep _, hmin⟩
      · push Not at hmin
        obtain ⟨c, hc, hwithin, hne⟩ := hmin
        obtain ⟨u, hu⟩ := (isWithin_iff.mp hwithin).resolve_left (Ne.symm hne)
        have hlt : (key c).length < length := by
          rw [← hlength, hu, List.length_append, List.length_cons]
          omega
        obtain ⟨a, ha, hac, hmin⟩ := ih _ hlt hc rfl
        exact ⟨a, ha, hac.trans hwithin, hmin⟩

end Within

section Order
variable {α : Type*} [LinearOrder α]

/-- An extension that goes on with an element below the separator, and a path within. -/
def Interposed (sep : α) (a b c : List α) : Prop :=
  (∃ y u, y < sep ∧ b = a ++ y :: u) ∧ ∃ v, c = a ++ sep :: v

omit [LinearOrder α] in
theorem exists_append_cons_iff {P : α → Prop} {a b : List α} :
    (∃ y u, P y ∧ b = a ++ y :: u) ↔ a <+: b ∧ ∃ y ∈ b[a.length]?, P y := by
  constructor
  · rintro ⟨y, u, hy, rfl⟩
    exact ⟨List.prefix_append a _, y, by simp, hy⟩
  · rintro ⟨⟨rest, rfl⟩, y, hget, hy⟩
    rw [List.getElem?_append_right (Nat.le_refl _), Nat.sub_self] at hget
    cases rest with
    | nil => cases hget
    | cons x u =>
        obtain rfl : x = y := by simpa using hget
        exact ⟨x, u, hy, rfl⟩

instance (sep : α) (a b p : List α) : Decidable (Interposed sep a b p) :=
  decidable_of_iff ((a <+: b ∧ ∃ y ∈ b[a.length]?, y < sep) ∧ a <+: p ∧ ∃ y ∈ p[a.length]?, y = sep) <| by
    rw [← exists_append_cons_iff, ← exists_append_cons_iff, Interposed]
    simp

theorem IsWithin.le {sep : α} {a p : List α} (h : IsWithin sep a p) : a ≤ p := by
  rcases isWithin_iff.mp h with rfl | ⟨u, rfl⟩
  · exact le_refl _
  · exact le_append a _

/-- What lies between a path and one within it is within it too, or is interposed. -/
theorem within_or_interposed {sep : α} {a m p : List α} (hap : IsWithin sep a p) (ham : a ≤ m) (hmp : m ≤ p) :
    IsWithin sep a m ∨ Interposed sep a m p := by
  rcases isWithin_iff.mp hap with rfl | ⟨v, hp⟩
  · left
    rw [le_antisymm hmp ham]
    exact IsWithin.refl sep p
  · obtain ⟨w, hw⟩ := isPrefix_of_between ⟨sep :: v, hp.symm⟩ ham hmp
    cases w with
    | nil =>
        left
        rw [← hw, List.append_nil]
        exact IsWithin.refl sep a
    | cons y u =>
        rw [← hw, hp] at hmp
        rcases lt_or_eq_of_le (cons_le_of_append_le hmp) with hlt | heq
        · exact Or.inr ⟨⟨y, u, hlt, hw.symm⟩, v, hp⟩
        · exact Or.inl (isWithin_iff.mpr (Or.inr ⟨u, by rw [← hw, heq]⟩))

/-- A sorted list whose neighbours are not nested, and in which nothing is interposed, has no nested members. -/
theorem pairwise_not_isWithin {β : Type*} {sep : α} (key : β → List α) {l : List β}
    (hsorted : l.Pairwise fun a b => key a ≤ key b)
    (hchain : l.IsChain fun a b => ¬ IsWithin sep (key a) (key b))
    (hnone : ∀ a ∈ l, ∀ b ∈ l, ∀ c ∈ l, ¬ Interposed sep (key a) (key b) (key c)) :
    l.Pairwise fun a b => ¬ IsWithin sep (key a) (key b) := by
  induction l with
  | nil => exact List.Pairwise.nil
  | cons a l ih =>
      rw [List.pairwise_cons] at hsorted ⊢
      refine ⟨fun c hc hwithin => ?_, ?_⟩
      · cases l with
        | nil => exact List.not_mem_nil hc
        | cons b l =>
            have hbc : key b ≤ key c := by
              rcases List.mem_cons.mp hc with rfl | hc
              · exact le_refl _
              · exact (List.pairwise_cons.mp hsorted.2).1 c hc
            rcases within_or_interposed hwithin (hsorted.1 b List.mem_cons_self) hbc with h | h
            · exact (List.isChain_cons_cons.mp hchain).1 h
            · exact hnone a List.mem_cons_self b (by simp) c (List.mem_cons_of_mem a hc) h
      · refine ih hsorted.2 hchain.of_cons fun x hx y hy z hz => ?_
        exact hnone x (List.mem_cons_of_mem a hx) y (List.mem_cons_of_mem a hy) z (List.mem_cons_of_mem a hz)

end Order

end PathGuard

import Mathlib.Data.List.Sort
import Mathlib.Data.Prod.Lex

/-!
# Sorting by a key

`sortOn key` is `std::sort` with the comparison `key a < key b`. The order of elements with equal keys is not
fixed by the standard; here they keep their places, and the lemmas that identify the result ask that equal keys
mean equal elements.

* `sortOn_eq_of_perm`, `eq_of_subset_of_pairwise` : when the result depends only on which elements there are;
* `sortOn_map`, `sortOn_map_of_le` : sorting before and after a map;
* `exists_neighbours`, `not_between_neighbours` : neighbours are what has nothing between.
-/

namespace PathGuard

variable {α β : Type*} [LinearOrder β]

def sortOn (key : α → β) (l : List α) : List α := l.insertionSort fun a b => key a ≤ key b

theorem sortOn_perm (key : α → β) (l : List α) : (sortOn key l).Perm l := List.perm_insertionSort _ l

@[simp] theorem mem_sortOn {key : α → β} {l : List α} {a : α} : a ∈ sortOn key l ↔ a ∈ l :=
  (sortOn_perm key l).mem_iff

@[simp] theorem length_sortOn (key : α → β) (l : List α) : (sortOn key l).length = l.length :=
  (sortOn_perm key l).length_eq

theorem pairwise_sortOn (key : α → β) (l : List α) : (sortOn key l).Pairwise fun a b => key a ≤ key b := by
  have htotal : Std.Total fun a b => key a ≤ key b := ⟨fun a b => le_total (key a) (key b)⟩
  have htrans : IsTrans α fun a b => key a ≤ key b := ⟨fun _ _ _ => le_trans⟩
  exact List.pairwise_insertionSort _ l

theorem sortOn_of_pairwise {key : α → β} {l : List α} (h : l.Pairwise fun a b => key a ≤ key b) :
    sortOn key l = l :=
  h.insertionSort_eq

theorem sortOn_eq_of_perm {key : α → β} {l l' : List α} (h : l.Perm l')
    (hinj : ∀ a ∈ l, ∀ b ∈ l, key a = key b → a = b) : sortOn key l = sortOn key l' := by
  refine List.Perm.eq_of_pairwise (fun a b ha hb hab hba => ?_) (pairwise_sortOn key l) (pairwise_sortOn key l')
    ((sortOn_perm key l).trans (h.trans (sortOn_perm key l').symm))
  rw [mem_sortOn] at ha hb
  exact hinj a ha b (h.mem_iff.mpr hb) (le_antisymm hab hba)

/-- Sorted lists of the same elements, with a key for each, are the same. -/
theorem eq_of_subset_of_pairwise {key : α → β} {l l' : List α} (hl : l.Pairwise fun a b => key a ≤ key b)
    (hl' : l'.Pairwise fun a b => key a ≤ key b) (hnodup : (l.map key).Nodup) (hnodup' : (l'.map key).Nodup)
    (hsub : l ⊆ l') (hsub' : l' ⊆ l) : l = l' := by
  have hperm : l.Perm l' := (List.subperm_of_subset hnodup.of_map hsub).antisymm
    (List.subperm_of_subset hnodup'.of_map hsub')
  rw [← sortOn_of_pairwise hl, ← sortOn_of_pairwise hl']
  exact sortOn_eq_of_perm hperm fun _ ha _ hb => List.inj_on_of_nodup_map hnodup ha hb

theorem sortOn_map {γ : Type*} {key : α → β} {key' : γ → β} (f : α → γ) (l : List α)
    (hkey : ∀ a ∈ l, key' (f a) = key a) : sortOn key' (l.map f) = (sortOn key l).map f := by
  refine (List.map_insertionSort _ (fun a b => key' a ≤ key' b) f l fun a ha b hb => ?_).symm
  rw [hkey a ha, hkey b hb]

/-- Sorting by a finer key first does not show after the map. -/
theorem sortOn_map_of_le {γ δ : Type*} [LinearOrder δ] {key : α → β} {key' : γ → δ} (f : α → γ) (l : List α)
    (hmono : ∀ a b, key a ≤ key b → key' (f a) ≤ key' (f b))
    (hinj : ∀ c ∈ l.map f, ∀ d ∈ l.map f, key' c = key' d → c = d) :
    sortOn key' (l.map f) = (sortOn key l).map f := by
  have hsorted : ((sortOn key l).map f).Pairwise fun c d => key' c ≤ key' d :=
    List.pairwise_map.mpr ((pairwise_sortOn key l).imp fun {a b} h => hmono a b h)
  rw [sortOn_eq_of_perm ((sortOn_perm key l).symm.map f) hinj, sortOn_of_pairwise hsorted]

/-- The list is the only order of its elements that `std::sort` may leave. -/
def SortedOneWay (key : α → β) (l : List α) : Prop :=
  ∀ l', l'.Perm l → l'.Pairwise (fun a b => key a ≤ key b) → l' = l

theorem sortedOneWay_sortOn {key : α → β} {l : List α} (hinj : ∀ a ∈ l, ∀ b ∈ l, key a = key b → a = b) :
    SortedOneWay key (sortOn key l) := by
  intro l' hperm hsorted
  have hperm' := hperm.trans (sortOn_perm key l)
  rw [← sortOn_of_pairwise hsorted]
  refine sortOn_eq_of_perm hperm' fun a ha b hb => ?_
  exact hinj a (hperm'.mem_iff.mp ha) b (hperm'.mem_iff.mp hb)

/-! ## Neighbours -/

/-- Two members of an increasing list with none between them are neighbours. -/
theorem exists_neighbours {key : α → β} {l : List α} (hsorted : l.Pairwise fun a b => key a < key b) {a b : α}
    (ha : a ∈ l) (hb : b ∈ l) (hlt : key a < key b) (hnone : ∀ c ∈ l, ¬ (key a < key c ∧ key c < key b)) :
    ∃ front back, l = front ++ a :: b :: back := by
  obtain ⟨front, back, rfl⟩ := List.append_of_mem ha
  obtain ⟨-, hlast, hfront⟩ := List.pairwise_append.mp hsorted
  obtain ⟨hback, hrest⟩ := List.pairwise_cons.mp hlast
  have hlater : b ∈ back := by
    rcases List.mem_append.mp hb with hearlier | hlater
    · exact absurd hlt (hfront b hearlier a List.mem_cons_self).asymm
    · exact (List.mem_cons.mp hlater).resolve_left fun heq => hlt.ne (congrArg key heq.symm)
  cases back with
  | nil => cases hlater
  | cons next back =>
      have hnext : ¬ key next < key b := fun hbelow =>
        hnone next (by simp) ⟨hback next List.mem_cons_self, hbelow⟩
      have hsame : b = next := (List.mem_cons.mp hlater).resolve_right fun hlater =>
        hnext ((List.pairwise_cons.mp hrest).1 b hlater)
      exact ⟨front, back, by rw [hsame]⟩

theorem not_between_neighbours {key : α → β} {front back : List α} {a b c : α}
    (hsorted : (front ++ a :: b :: back).Pairwise fun a b => key a ≤ key b) (hc : c ∈ front ++ a :: b :: back) :
    ¬ (key a < key c ∧ key c < key b) := by
  obtain ⟨-, hlast, hfront⟩ := List.pairwise_append.mp hsorted
  obtain ⟨-, hrest⟩ := List.pairwise_cons.mp hlast
  rintro ⟨hlow, hhigh⟩
  simp only [List.mem_append, List.mem_cons] at hc
  rcases hc with hc | rfl | rfl | hc
  · exact absurd hlow (not_lt.mpr (hfront c hc a List.mem_cons_self))
  · exact lt_irrefl _ hlow
  · exact lt_irrefl _ hhigh
  · exact absurd hhigh (not_lt.mpr ((List.pairwise_cons.mp hrest).1 c hc))

end PathGuard

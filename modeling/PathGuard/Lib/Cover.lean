import Mathlib.Data.List.Chain
import PathGuard.Lib.Sort

/-!
# Dropping what the last kept element covers

The loop that pushes an element unless the back of the output already covers it. It is `std::unique` when covering
is equality.

* `eq_keepUncovered` : the loops of this shape are `keepUncovered`, with a note on what they drop;
* `exists_covers`, `exists_covers_through` : everything dropped is covered by something kept before it;
* `mem_keepUncovered_iff` : what is kept of a sorted list.
-/

namespace PathGuard

variable {α : Type*}

/-- `back` is the last element kept so far. -/
def keepUncovered (covers : α → α → Bool) : Option α → List α → List α
  | _, [] => []
  | some kept, a :: l =>
      if covers kept a then keepUncovered covers (some kept) l else a :: keepUncovered covers (some a) l
  | none, a :: l => a :: keepUncovered covers (some a) l

/-- What is not kept, each element with the one that covers it. -/
def coveredPairs (covers : α → α → Bool) : Option α → List α → List (α × α)
  | _, [] => []
  | some kept, a :: l =>
      if covers kept a then (kept, a) :: coveredPairs covers (some kept) l else coveredPairs covers (some a) l
  | none, a :: l => coveredPairs covers (some a) l

variable {covers : α → α → Bool}

theorem length_keepUncovered_add (back : Option α) (l : List α) :
    (keepUncovered covers back l).length + (coveredPairs covers back l).length = l.length := by
  induction l generalizing back with
  | nil => cases back <;> rfl
  | cons a l ih =>
      cases back with
      | none =>
          have hrest := ih (some a)
          simp only [keepUncovered, coveredPairs, List.length_cons]
          omega
      | some kept =>
          rw [keepUncovered, coveredPairs]
          split
          · have hrest := ih (some kept)
            simp only [List.length_cons]
            omega
          · have hrest := ih (some a)
            simp only [List.length_cons]
            omega

/-- A loop that keeps what is uncovered, and notes something of the rest. -/
theorem eq_keepUncovered {γ : Type*} {note : α → α → γ} {loop : Option α → List α → List α × List γ}
    (hnil : ∀ back, loop back [] = ([], []))
    (hnone : ∀ a l, loop none (a :: l) = (a :: (loop (some a) l).1, (loop (some a) l).2))
    (hsome : ∀ kept a l, loop (some kept) (a :: l) =
      if covers kept a then ((loop (some kept) l).1, note kept a :: (loop (some kept) l).2)
      else (a :: (loop (some a) l).1, (loop (some a) l).2))
    (back : Option α) (l : List α) :
    loop back l = (keepUncovered covers back l, (coveredPairs covers back l).map fun pair => note pair.1 pair.2) := by
  induction l generalizing back with
  | nil =>
      rw [hnil]
      cases back <;> rfl
  | cons a l ih =>
      cases back with
      | none => rw [hnone, ih (some a), keepUncovered, coveredPairs]
      | some kept =>
          rw [hsome, keepUncovered, coveredPairs, ih (some kept), ih (some a)]
          split
          · rfl
          · rfl

theorem keepUncovered_sublist (back : Option α) (l : List α) : (keepUncovered covers back l).Sublist l := by
  induction l generalizing back with
  | nil => cases back <;> exact List.Sublist.refl _
  | cons a l ih =>
      cases back with
      | none => exact (ih (some a)).cons_cons a
      | some kept =>
          rw [keepUncovered]
          split
          · exact (ih (some kept)).cons a
          · exact (ih (some a)).cons_cons a

theorem keepUncovered_map {γ : Type*} {covers' : γ → γ → Bool} (f : α → γ)
    (h : ∀ a b, covers' (f a) (f b) = covers a b) (back : Option α) (l : List α) :
    keepUncovered covers' (back.map f) (l.map f) = (keepUncovered covers back l).map f := by
  induction l generalizing back with
  | nil => cases back <;> rfl
  | cons a l ih =>
      cases back with
      | none => exact congrArg (f a :: ·) (ih (some a))
      | some kept =>
          rw [List.map_cons, Option.map_some, keepUncovered, keepUncovered, h]
          by_cases hcovers : covers kept a = true
          · rw [if_pos hcovers, if_pos hcovers]
            exact ih (some kept)
          · rw [if_neg hcovers, if_neg hcovers]
            exact congrArg (f a :: ·) (ih (some a))

theorem exists_covers (hrefl : ∀ a, covers a a = true) (back : Option α) {l : List α} {a : α} (ha : a ∈ l) :
    ∃ kept ∈ back.toList ++ keepUncovered covers back l, covers kept a = true := by
  induction l generalizing back with
  | nil => exact absurd ha List.not_mem_nil
  | cons b l ih =>
      cases back with
      | none =>
          rcases List.mem_cons.mp ha with rfl | ha
          · exact ⟨a, by simp [keepUncovered], hrefl a⟩
          · obtain ⟨kept, hkept, hcovers⟩ := ih (some b) ha
            exact ⟨kept, by simpa [keepUncovered] using hkept, hcovers⟩
      | some back =>
          rw [keepUncovered]
          split
          · next hback =>
            rcases List.mem_cons.mp ha with rfl | ha
            · exact ⟨back, by simp, hback⟩
            · exact ih (some back) ha
          · rcases List.mem_cons.mp ha with rfl | ha
            · exact ⟨a, by simp, hrefl a⟩
            · obtain ⟨kept, hkept, hcovers⟩ := ih (some b) ha
              exact ⟨kept, List.mem_append_right _ (by simpa using hkept), hcovers⟩

theorem exists_mem_covers (covers : α → α → Bool) (hrefl : ∀ a, covers a a = true) {l : List α} {a : α}
    (ha : a ∈ l) :
    ∃ kept ∈ keepUncovered covers none l, covers kept a = true := by
  simpa using exists_covers hrefl none ha

theorem isChain_keepUncovered (back : Option α) (l : List α) :
    (back.toList ++ keepUncovered covers back l).IsChain fun a b => covers a b = false := by
  induction l generalizing back with
  | nil => cases back <;> simp [keepUncovered]
  | cons a l ih =>
      cases back with
      | none => exact ih (some a)
      | some kept =>
          rw [keepUncovered]
          split
          · exact ih (some kept)
          · next hkept =>
            exact List.isChain_cons_cons.mpr ⟨Bool.eq_false_iff.mpr hkept, ih (some a)⟩

theorem isChain_keepUncovered_none (l : List α) :
    (keepUncovered covers none l).IsChain fun a b => covers a b = false :=
  isChain_keepUncovered none l

/-! ## Sorted lists

In a sorted list the element that decides whether `c` is kept is the last one kept before it. It covers `c` unless
something between them had to be kept in between. -/

section Sorted
variable {β : Type*} [LinearOrder β] {covers : β → β → Bool}

/-- A sorted list without neighbours that cover one another has no two equal members. -/
theorem pairwise_lt_keepUncovered (hrefl : ∀ a, covers a a = true) {back : Option β} {l : List β}
    (hsorted : (back.toList ++ l).Pairwise (· ≤ ·)) :
    (back.toList ++ keepUncovered covers back l).Pairwise (· < ·) := by
  have hle := hsorted.sublist (List.Sublist.append_left (@keepUncovered_sublist _ covers back l) back.toList)
  have hchain := @isChain_keepUncovered _ covers back l
  rw [List.isChain_iff_forall_rel_of_append_cons_cons] at hchain
  rw [← List.isChain_iff_pairwise, List.isChain_iff_forall_rel_of_append_cons_cons]
  intro a b front rest heq
  have hab := List.isChain_iff_forall_rel_of_append_cons_cons.mp hle.isChain heq
  refine lt_of_le_of_ne hab ?_
  rintro rfl
  have hcovers := hchain heq
  rw [hrefl a] at hcovers
  cases hcovers

/-- Past something the last kept element does not cover, everything is covered by a later one. -/
theorem exists_covers_after {a b c : β} (hrefl : ∀ a, covers a a = true) {l : List β}
    (hsorted : l.Pairwise (· ≤ ·)) (hb : b ∈ l) (hc : c ∈ l) (hbc : b ≤ c) (hnot : covers a b = false) :
    ∃ kept ∈ keepUncovered covers (some a) l, covers kept c = true := by
  induction l with
  | nil => exact absurd hb List.not_mem_nil
  | cons x l ih =>
      rw [List.pairwise_cons] at hsorted
      rw [keepUncovered]
      split
      · next hcovers =>
        have hbx : b ≠ x := by
          rintro rfl
          rw [hcovers] at hnot
          cases hnot
        have hb : b ∈ l := (List.mem_cons.mp hb).resolve_left hbx
        have hc : c ∈ l := by
          refine (List.mem_cons.mp hc).resolve_left fun hcx => hbx ?_
          exact le_antisymm (hcx ▸ hbc) (hsorted.1 b hb)
        exact ih hsorted.2 hb hc
      · rcases List.mem_cons.mp hc with rfl | hc
        · exact ⟨c, List.mem_cons_self, hrefl c⟩
        · exact exists_covers hrefl (some x) hc

theorem exists_covers_beyond {a b c : β} (hrefl : ∀ a, covers a a = true) {back : Option β} {l : List β}
    (hsorted : l.Pairwise (· ≤ ·)) (ha : a ∈ keepUncovered covers back l) (hb : b ∈ l) (hc : c ∈ l) (hab : a ≤ b)
    (hbc : b ≤ c) (hnot : covers a b = false) :
    ∃ kept ∈ keepUncovered covers back l, kept ≠ a ∧ covers kept c = true := by
  induction l generalizing back with
  | nil => exact absurd hb List.not_mem_nil
  | cons x l ih =>
      have hx := List.pairwise_cons.mp hsorted
      have hba : b ≠ a := by
        rintro rfl
        rw [hrefl b] at hnot
        cases hnot
      -- past `a` the back is `a`; before it the induction goes on
      have hpast : a = x → ∃ kept ∈ keepUncovered covers (some x) l, kept ≠ a ∧ covers kept c = true := by
        rintro rfl
        have hb : b ∈ l := (List.mem_cons.mp hb).resolve_left hba
        have hc : c ∈ l := (List.mem_cons.mp hc).resolve_left fun hca => hba (le_antisymm (hca ▸ hbc) hab)
        obtain ⟨kept, hkept, hcovers⟩ := exists_covers_after hrefl hx.2 hb hc hbc hnot
        have hlt := List.pairwise_cons.mp (@pairwise_lt_keepUncovered _ _ covers hrefl (some a) l hsorted)
        exact ⟨kept, hkept, (hlt.1 kept hkept).ne', hcovers⟩
      have hlater : ∀ back, a ∈ keepUncovered covers back l →
          ∃ kept ∈ keepUncovered covers back l, kept ≠ a ∧ covers kept c = true := by
        intro back ha
        have hxa := hx.1 a ((keepUncovered_sublist back l).subset ha)
        have hb : b ∈ l := (List.mem_cons.mp hb).resolve_left fun hbx => hba (le_antisymm (hbx ▸ hxa) hab)
        have hc : c ∈ l := (List.mem_cons.mp hc).resolve_left fun hcx =>
          hba (le_antisymm (hbc.trans (hcx ▸ hxa)) hab)
        exact ih hx.2 ha hb hc
      have hkeep : a ∈ x :: keepUncovered covers (some x) l →
          ∃ kept ∈ x :: keepUncovered covers (some x) l, kept ≠ a ∧ covers kept c = true := by
        intro ha
        have hrest : ∃ kept ∈ keepUncovered covers (some x) l, kept ≠ a ∧ covers kept c = true := by
          rcases List.mem_cons.mp ha with hax | ha
          · exact hpast hax
          · exact hlater (some x) ha
        obtain ⟨kept, hkept, h⟩ := hrest
        exact ⟨kept, List.mem_cons_of_mem x hkept, h⟩
      cases back with
      | none => exact hkeep ha
      | some back =>
          rw [keepUncovered] at ha ⊢
          split at ha
          · next hback =>
            rw [if_pos hback]
            exact hlater (some back) ha
          · next hback =>
            rw [if_neg hback]
            exact hkeep ha

/-- What is dropped is covered, with everything between, by one before it. -/
theorem exists_covers_through (hrefl : ∀ a, covers a a = true) {back : Option β} {l : List β} {c : β}
    (hsorted : (back.toList ++ l).Pairwise (· ≤ ·)) (hc : c ∈ l) (hback : c ∉ back.toList)
    (hdropped : c ∉ keepUncovered covers back l) :
    ∃ a ∈ back.toList ++ l, a < c ∧ ∀ b ∈ back.toList ++ l, a ≤ b → b ≤ c → covers a b = true := by
  induction l generalizing back with
  | nil => exact absurd hc List.not_mem_nil
  | cons x l ih =>
      -- past `x` the back is `x`
      have hpast : c ∉ x :: keepUncovered covers (some x) l → (x :: l).Pairwise (· ≤ ·) →
          ∃ a ∈ x :: l, a < c ∧ ∀ b ∈ x :: l, a ≤ b → b ≤ c → covers a b = true := by
        intro hnot hsorted
        have hne : c ≠ x := fun heq => hnot (heq ▸ List.mem_cons_self)
        exact @ih (some x) hsorted ((List.mem_cons.mp hc).resolve_left hne) (by simpa using hne) fun hmem =>
          hnot (List.mem_cons_of_mem x hmem)
      cases back with
      | none => exact hpast hdropped hsorted
      | some kept =>
          have hkept : ∀ b ∈ x :: l, kept ≤ b := (List.pairwise_cons.mp hsorted).1
          have hrest : (x :: l).Pairwise (· ≤ ·) := (List.pairwise_cons.mp hsorted).2
          have hbelow : kept < c := lt_of_le_of_ne (hkept c hc) fun heq => hback (by simp [heq])
          rw [keepUncovered] at hdropped
          split at hdropped
          · next hcovers =>
            by_cases hcx : c = x
            · refine ⟨kept, List.mem_cons_self, hbelow, fun b hb _ hbc => ?_⟩
              rcases List.mem_cons.mp hb with rfl | hb
              · exact hrefl b
              · have hxb : x ≤ b := by
                  rcases List.mem_cons.mp hb with rfl | hb
                  · exact le_refl _
                  · exact (List.pairwise_cons.mp hrest).1 b hb
                rwa [le_antisymm (hcx ▸ hbc) hxb]
            · have hsorted' : ((some kept).toList ++ l).Pairwise (· ≤ ·) :=
                List.pairwise_cons.mpr ⟨fun b hb => hkept b (List.mem_cons_of_mem x hb), (List.pairwise_cons.mp hrest).2⟩
              obtain ⟨a, ha, hac, hthrough⟩ := ih hsorted' ((List.mem_cons.mp hc).resolve_left hcx) hback hdropped
              refine ⟨a, ?_, hac, fun b hb hab hbc => ?_⟩
              · rcases List.mem_cons.mp ha with rfl | ha
                · exact List.mem_cons_self
                · exact List.mem_cons_of_mem _ (List.mem_cons_of_mem _ ha)
              · rcases List.mem_cons.mp hb with rfl | hb
                · exact hthrough b List.mem_cons_self hab hbc
                · rcases List.mem_cons.mp hb with rfl | hb
                  · rcases List.mem_cons.mp ha with rfl | ha
                    · exact hcovers
                    · rw [le_antisymm hab ((List.pairwise_cons.mp hrest).1 a ha)]
                      exact hrefl b
                  · exact hthrough b (List.mem_cons_of_mem _ hb) hab hbc
          · obtain ⟨a, ha, hac, hthrough⟩ := hpast hdropped hrest
            refine ⟨a, List.mem_cons_of_mem _ ha, hac, fun b hb hab hbc => ?_⟩
            rcases List.mem_cons.mp hb with rfl | hb
            · rw [le_antisymm hab (hkept a ha)]
              exact hrefl b
            · exact hthrough b hb hab hbc

theorem notMem_of_covers {kept : β} {l : List β} {c : β} (hsorted : l.Pairwise (· ≤ ·))
    (h : ∀ b ∈ l, b ≤ c → covers kept b = true) : c ∉ keepUncovered covers (some kept) l := by
  induction l with
  | nil => exact List.not_mem_nil
  | cons x l ih =>
      rw [List.pairwise_cons] at hsorted
      by_cases hxc : x ≤ c
      · rw [keepUncovered, if_pos (h x List.mem_cons_self hxc)]
        exact ih hsorted.2 fun b hb => h b (List.mem_cons_of_mem x hb)
      · intro hc
        rcases List.mem_cons.mp ((keepUncovered_sublist _ _).subset hc) with rfl | hc
        · exact hxc (le_refl _)
        · exact hxc (hsorted.1 c hc)

theorem notMem_keepUncovered (hrefl : ∀ a, covers a a = true)
    (htrans : ∀ a b c, covers a b = true → covers b c = true → covers a c = true) {back : Option β} {l : List β}
    {a c : β} (hsorted : l.Pairwise (· ≤ ·)) (ha : a ∈ l) (hac : a < c)
    (h : ∀ b ∈ l, a ≤ b → b ≤ c → covers a b = true) : c ∉ keepUncovered covers back l := by
  induction l generalizing back with
  | nil => exact absurd ha List.not_mem_nil
  | cons x l ih =>
      have hx := List.pairwise_cons.mp hsorted
      -- whatever is the back after `a` covers all that `a` covers
      have hpast : a = x → ∀ kept, covers kept x = true → c ∉ keepUncovered covers (some kept) l := by
        rintro rfl kept hkept
        refine notMem_of_covers hx.2 fun b hb hbc => ?_
        exact htrans kept a b hkept (h b (List.mem_cons_of_mem a hb) (hx.1 b hb) hbc)
      have hlater : ∀ kept, covers kept x = true → c ∉ keepUncovered covers (some kept) l := by
        intro kept hkept
        rcases List.mem_cons.mp ha with hax | ha
        · exact hpast hax kept hkept
        · exact ih hx.2 ha fun b hb => h b (List.mem_cons_of_mem x hb)
      have hcx : c ≠ x := by
        rintro rfl
        rcases List.mem_cons.mp ha with rfl | ha
        · exact lt_irrefl a hac
        · exact absurd (hx.1 a ha) (not_le.mpr hac)
      have hkeep : c ∉ x :: keepUncovered covers (some x) l := by
        rw [List.mem_cons, not_or]
        exact ⟨hcx, hlater x (hrefl x)⟩
      cases back with
      | none => exact hkeep
      | some back =>
          rw [keepUncovered]
          split
          · next hback => exact hlater back hback
          · exact hkeep

/-- **What is kept of a sorted list.** -/
theorem mem_keepUncovered_iff (hrefl : ∀ a, covers a a = true)
    (htrans : ∀ a b c, covers a b = true → covers b c = true → covers a c = true) {l : List β} {c : β}
    (hsorted : l.Pairwise (· ≤ ·)) :
    c ∈ keepUncovered covers none l ↔
      c ∈ l ∧ ¬ ∃ a ∈ l, a < c ∧ ∀ b ∈ l, a ≤ b → b ≤ c → covers a b = true := by
  constructor
  · intro hkept
    refine ⟨(keepUncovered_sublist none l).subset hkept, ?_⟩
    rintro ⟨a, ha, hac, hthrough⟩
    exact notMem_keepUncovered hrefl htrans hsorted ha hac hthrough hkept
  · rintro ⟨hc, hnone⟩
    by_contra hdropped
    exact hnone (@exists_covers_through _ _ _ hrefl none _ _ hsorted hc List.not_mem_nil hdropped)

end Sorted

end PathGuard

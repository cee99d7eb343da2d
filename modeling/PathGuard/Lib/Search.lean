import Mathlib.Data.List.Basic
import Mathlib.Order.Basic

/-!
# Binary search

The search for the first index at which a test fails, where testing an index can fail by itself. A fuel of the size of
the range is enough.
-/

namespace PathGuard

variable {ε : Type*}

/-- Halves `[lower, upper)` until it is empty; `below` tells whether the wanted index lies after the middle. -/
def searchLower (below : Nat → Except ε Bool) : Nat → Nat → Nat → Except ε Nat
  | 0, lower, _ => .ok lower
  | fuel + 1, lower, upper =>
      if lower < upper then
        let middle := lower + (upper - lower) / 2
        match below middle with
        | .error failure => .error failure
        | .ok true => searchLower below fuel (middle + 1) upper
        | .ok false => searchLower below fuel lower middle
      else .ok lower

/-- **The search ends at the first index at which the test fails**, if it holds exactly before some index. -/
theorem searchLower_eq {below : Nat → Except ε Bool} {count first fuel lower upper : Nat}
    (hbelow : ∀ i, i < count → below i = .ok (decide (i < first))) (hlower : lower ≤ first) (hfirst : first ≤ upper)
    (hupper : upper ≤ count) (hfuel : upper - lower ≤ fuel) : searchLower below fuel lower upper = .ok first := by
  induction fuel generalizing lower upper with
  | zero =>
      obtain rfl : lower = first := by omega
      rfl
  | succ fuel ih =>
      rw [searchLower]
      split
      · next hlt =>
        simp only [hbelow (lower + (upper - lower) / 2) (by omega)]
        by_cases hmiddle : lower + (upper - lower) / 2 < first
        · simp only [hmiddle, decide_true]
          exact ih (by omega) hfirst hupper (by omega)
        · simp only [hmiddle, decide_false]
          exact ih hlower (by omega) (by omega) (by omega)
      · next hlt =>
        obtain rfl : lower = first := by omega
        rfl

/-- Where a test holds for everything before an element it holds for, it holds exactly before the end of its first
run. -/
theorem lt_length_takeWhile_iff {α : Type*} {test : α → Bool} {l : List α} (hl : l.Pairwise fun a b => test b → test a)
    {i : Nat} {a : α} (hi : l[i]? = some a) : i < (l.takeWhile test).length ↔ test a = true := by
  induction l generalizing i with
  | nil => cases hi
  | cons first rest ih =>
      rw [List.pairwise_cons] at hl
      by_cases hfirst : test first = true
      · rw [List.takeWhile_cons_of_pos hfirst, List.length_cons]
        cases i with
        | zero =>
            obtain rfl := Option.some.inj hi
            simp [hfirst]
        | succ i =>
            rw [Nat.add_lt_add_iff_right]
            exact ih hl.2 hi
      · rw [List.takeWhile_cons_of_neg hfirst]
        cases i with
        | zero =>
            obtain rfl := Option.some.inj hi
            simp [hfirst]
        | succ i =>
            have hnot : ¬ test a = true := fun ha => hfirst (hl.1 a (List.mem_of_getElem? hi) ha)
            simp [hnot]

theorem not_of_mem_dropWhile {α : Type*} {test : α → Bool} {l : List α}
    (hl : l.Pairwise fun a b => test b → test a) {a : α}
    (h : a ∈ l.dropWhile test) : ¬ test a = true := by
  induction l with
  | nil => exact absurd h List.not_mem_nil
  | cons b l ih =>
      rw [List.pairwise_cons] at hl
      by_cases hb : test b = true
      · rw [List.dropWhile_cons_of_pos hb] at h
        exact ih hl.2 h
      · rw [List.dropWhile_cons_of_neg hb] at h
        rcases List.mem_cons.mp h with rfl | h
        · exact hb
        · exact fun ha => hb (hl.1 a h ha)

end PathGuard

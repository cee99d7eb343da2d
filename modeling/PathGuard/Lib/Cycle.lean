import Mathlib.Data.List.Basic
import Mathlib.Logic.Relation

/-!
# Looking for a cycle with colours

A graph in which every node has at most one successor, searched depth first with three colours. When the search
finds nothing, every node it started from comes to an end; when it reports a node, there is a cycle.

* `visit`, `findCycle` : the search, with fuel for the depth;
* `findCycle_eq_none_iff` : it finds nothing exactly when there is no cycle;
* `visits_visit`, `Visits.unique` : the fuel is enough, and does not show.
-/

namespace PathGuard

inductive Color
  | white
  | gray
  | black
  deriving DecidableEq, Repr

/-- One visit. The calls below the first are on a gray path, so a fuel of one more than the number of nodes is never
used up. -/
def visit (next : Nat → Option Nat) : Nat → List Color → Nat → Bool × List Color
  | 0, colors, _ => (true, colors)
  | fuel + 1, colors, index =>
      match colors[index]? with
      | some .gray => (true, colors)
      | some .black => (false, colors)
      | _ =>
          let colors := colors.set index .gray
          match next index with
          | none => (false, colors.set index .black)
          | some succ =>
              let (found, colors) := visit next fuel colors succ
              if found then (true, colors) else (false, colors.set index .black)

/-- The loop over the nodes from `index` on, up to the first whose visit finds a cycle. -/
def findCycle (next : Nat → Option Nat) (size : Nat) : Nat → List Color → Nat → Option Nat
  | 0, _, _ => none
  | count + 1, colors, index =>
      let (found, colors) := visit next (size + 1) colors index
      if found then some index else findCycle next size count colors (index + 1)

variable {next : Nat → Option Nat}

/-- The successors of the node run out. -/
inductive Ends (next : Nat → Option Nat) : Nat → Prop
  | last {i : Nat} : next i = none → Ends next i
  | step {i j : Nat} : next i = some j → Ends next j → Ends next i

/-- `j` comes right after `i`. -/
def Follows (next : Nat → Option Nat) (i j : Nat) : Prop := next i = some j

theorem Ends.not_cycle {i : Nat} (h : Ends next i) : ¬ Relation.TransGen (Follows next) i i := by
  induction h with
  | last hnone =>
      intro hcycle
      obtain ⟨j, hj, -⟩ := Relation.TransGen.head'_iff.mp hcycle
      rw [Follows, hnone] at hj
      cases hj
  | step hnext _ ih =>
      intro hcycle
      obtain ⟨k, hk, hback⟩ := Relation.TransGen.head'_iff.mp hcycle
      rw [Follows, hnext, Option.some.injEq] at hk
      subst hk
      exact ih (Relation.TransGen.tail'_iff.mpr ⟨_, hback, hnext⟩)

theorem visit_cases (fuel : Nat) (colors : List Color) (index : Nat) :
    (colors[index]? = some .gray ∧ visit next (fuel + 1) colors index = (true, colors)) ∨
    (colors[index]? = some .black ∧ visit next (fuel + 1) colors index = (false, colors)) ∨
    (colors[index]? ≠ some .gray ∧ next index = none ∧
      visit next (fuel + 1) colors index = (false, (colors.set index .gray).set index .black)) ∨
    (colors[index]? ≠ some .gray ∧ ∃ succ below, next index = some succ ∧
      visit next fuel (colors.set index .gray) succ = below ∧
      visit next (fuel + 1) colors index =
        if below.1 then (true, below.2) else (false, below.2.set index .black)) := by
  cases hcolor : colors[index]? with
  | none =>
      cases hnext : next index with
      | none => simp [visit, hcolor, hnext]
      | some succ => simp [visit, hcolor, hnext]
  | some color =>
      cases color with
      | gray => simp [visit, hcolor]
      | black => simp [visit, hcolor]
      | white =>
          cases hnext : next index with
          | none => simp [visit, hcolor, hnext]
          | some succ => simp [visit, hcolor, hnext]

/-! ## A visit that finds nothing -/

def BlackEnds (next : Nat → Option Nat) (colors : List Color) : Prop :=
  ∀ i : Nat, colors[i]? = some .black → Ends next i

theorem BlackEnds.set_gray {colors : List Color} (h : BlackEnds next colors) (index : Nat) :
    BlackEnds next (colors.set index .gray) := by
  intro i hi
  rw [List.getElem?_set] at hi
  split at hi
  · split at hi <;> cases hi
  · exact h i hi

theorem BlackEnds.set_black {colors : List Color} (h : BlackEnds next colors) {index : Nat}
    (hends : Ends next index) : BlackEnds next (colors.set index .black) := by
  intro i hi
  rw [List.getElem?_set] at hi
  split at hi
  · next heq => exact heq ▸ hends
  · exact h i hi

theorem length_visit (fuel : Nat) (colors : List Color) (index : Nat) :
    (visit next fuel colors index).2.length = colors.length := by
  induction fuel generalizing colors index with
  | zero => rfl
  | succ fuel ih =>
      obtain ⟨-, h⟩ | ⟨-, h⟩ | ⟨-, -, h⟩ | ⟨-, succ, below, -, hbelow, h⟩ := visit_cases fuel colors index
      · rw [h]
      · rw [h]
      · rw [h, List.length_set, List.length_set]
      · have hlen := ih (colors.set index .gray) succ
        rw [hbelow, List.length_set] at hlen
        rw [h]
        split
        · exact hlen
        · rw [List.length_set]
          exact hlen

theorem gray_of_set_black {colors : List Color} {index i : Nat}
    (h : (colors.set index .black)[i]? = some .gray) : colors[i]? = some .gray ∧ index ≠ i := by
  rw [List.getElem?_set] at h
  split at h
  · split at h <;> cases h
  · next hne => exact ⟨h, hne⟩

/-- Black nodes still end, the node itself ends, and no node has become gray. -/
theorem visit_false {fuel : Nat} {colors : List Color} {index : Nat} (hblack : BlackEnds next colors)
    (h : (visit next fuel colors index).1 = false) :
    BlackEnds next (visit next fuel colors index).2 ∧ Ends next index ∧
      ∀ i : Nat, (visit next fuel colors index).2[i]? = some .gray → colors[i]? = some .gray := by
  induction fuel generalizing colors index with
  | zero => cases h
  | succ fuel ih =>
      obtain ⟨-, hvisit⟩ | ⟨hcolor, hvisit⟩ | ⟨-, hnone, hvisit⟩ | ⟨-, succ, below, hsucc, hbelow, hvisit⟩ :=
        visit_cases fuel colors index
      · rw [hvisit] at h
        cases h
      · rw [hvisit]
        exact ⟨hblack, hblack index hcolor, fun _ hi => hi⟩
      · rw [hvisit]
        have hends : Ends next index := Ends.last hnone
        refine ⟨(hblack.set_gray index).set_black hends, hends, fun i hi => ?_⟩
        obtain ⟨hi, hne⟩ := gray_of_set_black hi
        rwa [List.getElem?_set_ne hne] at hi
      · cases hfound : below.1 with
        | true =>
            rw [hvisit, if_pos hfound] at h
            cases h
        | false =>
            rw [hvisit, if_neg (by rw [hfound]; decide)]
            obtain ⟨hblack', hends', hgray'⟩ := ih (hblack.set_gray index) (by rw [hbelow, hfound])
            rw [hbelow] at hblack' hgray'
            have hends : Ends next index := Ends.step hsucc hends'
            -- the node is gray below the call only
            refine ⟨hblack'.set_black hends, hends, fun i hi => ?_⟩
            obtain ⟨hi, hne⟩ := gray_of_set_black hi
            have hi := hgray' i hi
            rwa [List.getElem?_set_ne hne] at hi

/-! ## A visit that finds something -/

/-- The nodes that are not gray; every call below a visit has one less. -/
def unvisited (colors : List Color) : Nat := colors.countP (· ≠ .gray)

theorem unvisited_set_gray {colors : List Color} {index : Nat} (hindex : index < colors.length)
    (hcolor : colors[index]? ≠ some .gray) : unvisited (colors.set index .gray) + 1 = unvisited colors := by
  rw [List.getElem?_eq_getElem hindex, Ne, Option.some.injEq] at hcolor
  have hpos : 0 < unvisited colors :=
    List.countP_pos_iff.mpr ⟨colors[index], List.getElem_mem hindex, by simpa using hcolor⟩
  unfold unvisited at *
  rw [List.countP_set hindex, if_pos (by simpa using hcolor), if_neg (by simp)]
  omega

/-- Gray nodes lead to the node of the call, so meeting one again closes a cycle. -/
theorem visit_true {fuel : Nat} {colors : List Color} {index : Nat}
    (hrange : ∀ i j, next i = some j → j < colors.length) (hindex : index < colors.length)
    (hfuel : unvisited colors < fuel)
    (hgray : ∀ i : Nat, colors[i]? = some .gray → Relation.TransGen (Follows next) i index)
    (h : (visit next fuel colors index).1 = true) : ∃ i, Relation.TransGen (Follows next) i i := by
  induction fuel generalizing colors index with
  | zero => omega
  | succ fuel ih =>
      obtain ⟨hcolor, -⟩ | ⟨-, hvisit⟩ | ⟨-, -, hvisit⟩ | ⟨hcolor, succ, below, hsucc, hbelow, hvisit⟩ :=
        visit_cases fuel colors index
      · exact ⟨index, hgray index hcolor⟩
      · rw [hvisit] at h
        cases h
      · rw [hvisit] at h
        cases h
      · cases hfound : below.1 with
        | false =>
            rw [hvisit, if_neg (by rw [hfound]; decide)] at h
            cases h
        | true =>
            have hlen : (colors.set index Color.gray).length = colors.length := List.length_set
            have hcount := unvisited_set_gray hindex hcolor
            refine ih ?_ ?_ ?_ ?_ ((congrArg Prod.fst hbelow).trans hfound)
            · rw [hlen]
              exact hrange
            · rw [hlen]
              exact hrange index succ hsucc
            · omega
            · intro i hi
              rw [List.getElem?_set] at hi
              split at hi
              · next heq => exact heq ▸ Relation.TransGen.single hsucc
              · exact Relation.TransGen.tail (hgray i hi) hsucc

/-! ## The loop -/

theorem findCycle_succ (size count : Nat) (colors : List Color) (index : Nat) :
    findCycle next size (count + 1) colors index =
      if (visit next (size + 1) colors index).1 then some index
      else findCycle next size count (visit next (size + 1) colors index).2 (index + 1) :=
  rfl

theorem ends_of_findCycle {size count index : Nat} {colors : List Color} (hblack : BlackEnds next colors)
    (h : findCycle next size count colors index = none) {i : Nat} (hi : index ≤ i) (hi' : i < index + count) :
    Ends next i := by
  induction count generalizing colors index with
  | zero => omega
  | succ count ih =>
      rw [findCycle_succ] at h
      split at h
      · cases h
      · next hfound =>
        obtain ⟨hblack', hends, -⟩ := visit_false hblack (Bool.eq_false_iff.mpr hfound)
        rcases Nat.eq_or_lt_of_le hi with rfl | hlt
        · exact hends
        · exact ih hblack' h hlt (by omega)

theorem cycle_of_findCycle {size count index found : Nat} {colors : List Color}
    (hrange : ∀ i j, next i = some j → j < size) (hlen : colors.length = size) (hcount : index + count ≤ size)
    (hblack : BlackEnds next colors) (hgray : ∀ i : Nat, colors[i]? ≠ some .gray)
    (h : findCycle next size count colors index = some found) : ∃ i, Relation.TransGen (Follows next) i i := by
  induction count generalizing colors index with
  | zero => cases h
  | succ count ih =>
      rw [findCycle_succ] at h
      split at h
      · next hfound =>
        refine visit_true ?_ ?_ ?_ (fun i hi => absurd hi (hgray i)) hfound
        · rw [hlen]
          exact hrange
        · omega
        · have : unvisited colors ≤ colors.length := List.countP_le_length
          omega
      · next hfound =>
        obtain ⟨hblack', -, hgray'⟩ := visit_false hblack (Bool.eq_false_iff.mpr hfound)
        refine ih ?_ (by omega) hblack' (fun i hi => hgray i (hgray' i hi)) h
        rw [length_visit]
        exact hlen

/-- **The search.** With every node white at the start, it finds nothing exactly when there is no cycle. -/
theorem findCycle_eq_none_iff {size : Nat} {colors : List Color} (hrange : ∀ i j, next i = some j → i < size ∧ j < size)
    (hlen : colors.length = size) (hwhite : ∀ i : Nat, ∀ color, colors[i]? = some color → color = .white) :
    findCycle next size size colors 0 = none ↔ ¬ ∃ i, Relation.TransGen (Follows next) i i := by
  have hblack : BlackEnds next colors := by
    intro i hi
    cases hwhite i _ hi
  constructor
  · rintro h ⟨i, hcycle⟩
    obtain ⟨j, hj, -⟩ := Relation.TransGen.head'_iff.mp hcycle
    exact (ends_of_findCycle hblack h (Nat.zero_le i) (by have := (hrange i j hj).1; omega)).not_cycle hcycle
  · intro hnone
    cases hfind : findCycle next size size colors 0 with
    | none => rfl
    | some found =>
        refine absurd (cycle_of_findCycle (fun i j hij => (hrange i j hij).2) hlen (by omega) hblack ?_ hfind) hnone
        intro i hi
        cases hwhite i _ hi

/-! ## Termination

The visit as the recursion without a bound on its depth: a derivation is a finite tree of calls. -/

/-- A visit of `index` ends, with this answer and these colours. -/
inductive Visits (next : Nat → Option Nat) : List Color → Nat → Bool → List Color → Prop
  | gray {colors : List Color} {index : Nat} : colors[index]? = some .gray → Visits next colors index true colors
  | black {colors : List Color} {index : Nat} : colors[index]? = some .black → Visits next colors index false colors
  | last {colors : List Color} {index : Nat} : colors[index]? = some .white → next index = none →
      Visits next colors index false ((colors.set index .gray).set index .black)
  | found {colors below : List Color} {index succ : Nat} : colors[index]? = some .white → next index = some succ →
      Visits next (colors.set index .gray) succ true below → Visits next colors index true below
  | passed {colors below : List Color} {index succ : Nat} : colors[index]? = some .white → next index = some succ →
      Visits next (colors.set index .gray) succ false below →
      Visits next colors index false (below.set index .black)

/-- **Every visit ends**, whatever the colours: each call below it makes one more node gray. -/
theorem visits_visit {fuel : Nat} {colors : List Color} {index : Nat}
    (hrange : ∀ i j, next i = some j → j < colors.length) (hindex : index < colors.length)
    (hfuel : unvisited colors < fuel) :
    Visits next colors index (visit next fuel colors index).1 (visit next fuel colors index).2 := by
  induction fuel generalizing colors index with
  | zero => omega
  | succ fuel ih =>
      cases hcolor : colors[index] with
      | gray =>
          have hget : colors[index]? = some .gray := by rw [List.getElem?_eq_getElem hindex, hcolor]
          simpa [visit, hget] using @Visits.gray next _ _ hget
      | black =>
          have hget : colors[index]? = some .black := by rw [List.getElem?_eq_getElem hindex, hcolor]
          simpa [visit, hget] using @Visits.black next _ _ hget
      | white =>
          have hget : colors[index]? = some .white := by rw [List.getElem?_eq_getElem hindex, hcolor]
          cases hnext : next index with
          | none => simpa [visit, hget, hnext] using Visits.last hget hnext
          | some succ =>
              have hlen : (colors.set index Color.gray).length = colors.length := List.length_set
              have hcount := unvisited_set_gray hindex (by rw [hget]; nofun)
              have hbelow := @ih (colors.set index .gray) succ (by rwa [hlen]) (by rw [hlen]; exact hrange index succ hnext)
                (by omega)
              cases hfound : (visit next fuel (colors.set index .gray) succ).1 with
              | true =>
                  rw [hfound] at hbelow
                  simpa [visit, hget, hnext, hfound] using Visits.found hget hnext hbelow
              | false =>
                  rw [hfound] at hbelow
                  simpa [visit, hget, hnext, hfound] using Visits.passed hget hnext hbelow

theorem Visits.unique {colors out out' : List Color} {index : Nat} {answer answer' : Bool}
    (h : Visits next colors index answer out) (h' : Visits next colors index answer' out') :
    answer = answer' ∧ out = out' := by
  induction h generalizing answer' out' with
  | gray hcolor => cases h' <;> simp_all
  | black hcolor => cases h' <;> simp_all
  | last hcolor hnext => cases h' <;> simp_all
  | found hcolor hnext _ ih =>
      cases h' with
      | found hcolor' hnext' hbelow =>
          obtain rfl := Option.some.inj (hnext.symm.trans hnext')
          exact ⟨rfl, (ih hbelow).2⟩
      | passed hcolor' hnext' hbelow =>
          obtain rfl := Option.some.inj (hnext.symm.trans hnext')
          cases (ih hbelow).1
      | _ => simp_all
  | passed hcolor hnext _ ih =>
      cases h' with
      | found hcolor' hnext' hbelow =>
          obtain rfl := Option.some.inj (hnext.symm.trans hnext')
          cases (ih hbelow).1
      | passed hcolor' hnext' hbelow =>
          obtain rfl := Option.some.inj (hnext.symm.trans hnext')
          exact ⟨rfl, congrArg (List.set · _ _) (ih hbelow).2⟩
      | _ => simp_all

end PathGuard

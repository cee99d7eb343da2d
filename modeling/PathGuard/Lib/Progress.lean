import PathGuard.Lib.Run

/-!
# Runs that come to rest

Runs with the number of their steps. A measure that every step makes smaller bounds that number, so that a system that
is left alone comes to rest; what is known of the states at rest then says where it ends.

* `RunsFor` : runs of a given number of steps; `AtRest` : no step is left;
* `RunsFor.count_le`, `exists_atRest` : a measure that falls bounds the steps, and a state at rest is reached.
-/

namespace PathGuard.Run

variable {State Label : Type*}

/-- A run of so many steps that all meet `ok`. -/
inductive RunsFor (next : State → Label → Option State) (ok : State → Label → Prop) : Nat → State → State → Prop
  | refl (s : State) : RunsFor next ok 0 s s
  | tail {count : Nat} {s t u : State} {l : Label} :
      RunsFor next ok count s t → ok t l → next t l = some u → RunsFor next ok (count + 1) s u

/-- No step that meets `ok` is left. -/
def AtRest (next : State → Label → Option State) (ok : State → Label → Prop) (s : State) : Prop :=
  ∀ l, ok s l → next s l = none

variable {next : State → Label → Option State} {ok : State → Label → Prop} {count : Nat} {s t : State}

/-- The measure pays for every step. -/
theorem RunsFor.count_le {measure : State → Nat} (h : RunsFor next ok count s t)
    (hstep : ∀ u l u', ok u l → next u l = some u' → measure u' < measure u) : count + measure t ≤ measure s := by
  induction h with
  | refl => exact Nat.le_of_eq (Nat.zero_add _)
  | tail _ hok hnext ih =>
      have hless := hstep _ _ _ hok hnext
      omega

/-- A system whose steps make a measure smaller comes to rest. -/
theorem exists_atRest {measure : State → Nat}
    (hstep : ∀ u l u', ok u l → next u l = some u' → measure u' < measure u) (s : State) :
    ∃ t, ReachesBy next ok s t ∧ AtRest next ok t := by
  induction hsize : measure s using Nat.strongRecOn generalizing s with
  | ind size ih =>
      by_cases hrest : AtRest next ok s
      · exact ⟨s, .refl s, hrest⟩
      · simp only [AtRest, Classical.not_forall] at hrest
        obtain ⟨l, hok, hne⟩ := hrest
        obtain ⟨u, hu⟩ := Option.ne_none_iff_exists'.mp hne
        obtain ⟨t, hreaches, ht⟩ := ih (measure u) (hsize ▸ hstep s l u hok hu) u rfl
        exact ⟨t, .head hok hu hreaches, ht⟩

end PathGuard.Run

import Mathlib.Logic.Relation

/-!
# Runs of a system that steps by labels

A system is a function `next` that says which state a label leads to, and `none` where the label is
not enabled. `runLabels` replays a list of labels; `ReachesBy ok` relates the two ends of a run whose
steps all meet `ok`, a condition on the state before the step and on its label; `Reaches` is the same
for every run. The rule everything is proved with is `ReachesBy.invariant`.

* `ReachesBy.invariant`, `ReachesBy.invariant_under` : the invariant rule, alone and beside an invariant already known;
* `ReachesBy.exists_enter` : a run that ends in `P` and starts outside has a step that enters it;
* `reachesBy_of_runLabels`, `runLabels_cons` : replayed lists are runs, for the runs on fixed labels.
-/

namespace PathGuard.Run

variable {State Label : Type*}

/-- Replays the labels in order. -/
def runLabels (next : State → Label → Option State) : State → List Label → Option State
  | s, [] => some s
  | s, l :: ls => (next s l).bind fun s' => runLabels next s' ls

theorem runLabels_cons {next : State → Label → Option State} {s t : State} {l : Label} (h : next s l = some t)
    (ls : List Label) : runLabels next s (l :: ls) = runLabels next t ls := by
  rw [runLabels, h, Option.bind_some]

/-- A run from the first state to the second whose steps all meet `ok`. -/
inductive ReachesBy (next : State → Label → Option State) (ok : State → Label → Prop) : State → State → Prop
  | refl (s : State) : ReachesBy next ok s s
  | tail {s t u : State} {l : Label} :
      ReachesBy next ok s t → ok t l → next t l = some u → ReachesBy next ok s u

/-- A run from the first state to the second. -/
abbrev Reaches (next : State → Label → Option State) : State → State → Prop :=
  ReachesBy next fun _ _ => True

variable {next : State → Label → Option State} {ok : State → Label → Prop}

theorem ReachesBy.trans {s t u : State} (h₁ : ReachesBy next ok s t) (h₂ : ReachesBy next ok t u) :
    ReachesBy next ok s u := by
  induction h₂ with
  | refl => exact h₁
  | tail _ hok hstep ih => exact .tail ih hok hstep

theorem ReachesBy.reaches {s t : State} (h : ReachesBy next ok s t) : Reaches next s t := by
  induction h with
  | refl => exact .refl _
  | tail _ _ hstep ih => exact .tail ih trivial hstep

/-- What holds at the start of a run and is kept by every step that meets `ok` holds at its end. -/
theorem ReachesBy.invariant {I : State → Prop} {s t : State} (h : ReachesBy next ok s t) (hs : I s)
    (hstep : ∀ s l s', I s → ok s l → next s l = some s' → I s') : I t := by
  induction h with
  | refl => exact hs
  | tail _ hok hnext ih => exact hstep _ _ _ ih hok hnext

/-- The invariant rule with the help of a second invariant that is already known of every run. -/
theorem ReachesBy.invariant_under {I K : State → Prop} {s t : State} (h : ReachesBy next ok s t)
    (hknown : ∀ u, Reaches next s u → K u) (hs : I s)
    (hstep : ∀ s l s', K s → I s → ok s l → next s l = some s' → I s') : I t := by
  induction h with
  | refl => exact hs
  | tail hrun hok hnext ih => exact hstep _ _ _ (hknown _ hrun.reaches) ih hok hnext

/-- A run into `P` from outside of it has a step that enters `P`. -/
theorem ReachesBy.exists_enter {P : State → Prop} {s t : State} (h : ReachesBy next ok s t) (hs : ¬ P s) (ht : P t) :
    ∃ u l u', ReachesBy next ok s u ∧ ok u l ∧ next u l = some u' ∧ ¬ P u ∧ P u' ∧ ReachesBy next ok u' t := by
  induction h with
  | refl => exact absurd ht hs
  | @tail u v l hrun hok hnext ih =>
      by_cases hu : P u
      · obtain ⟨a, k, b, ha, hk, hab, hna, hb, hbu⟩ := ih hu
        exact ⟨a, k, b, ha, hk, hab, hna, hb, .tail hbu hok hnext⟩
      · exact ⟨u, l, v, hrun, hok, hnext, hu, ht, .refl v⟩

/-- The same system with the steps that do not meet `ok` taken out. -/
def guarded (next : State → Label → Option State) (ok : State → Label → Prop) [∀ s l, Decidable (ok s l)]
    (s : State) (l : Label) : Option State :=
  if ok s l then next s l else none

theorem guarded_eq_some [∀ s l, Decidable (ok s l)] {s t : State} {l : Label} (hok : ok s l) (h : next s l = some t) :
    guarded next ok s l = some t := by
  rw [guarded, if_pos hok, h]

theorem ReachesBy.head {s t u : State} {l : Label} (hok : ok s l) (hstep : next s l = some t)
    (h : ReachesBy next ok t u) : ReachesBy next ok s u :=
  (ReachesBy.tail (.refl s) hok hstep).trans h

/-- A list of labels that can be replayed, all meeting `ok`, is a run. -/
theorem reachesBy_of_runLabels [∀ s l, Decidable (ok s l)] {s t : State} (ls : List Label)
    (h : runLabels (guarded next ok) s ls = some t) : ReachesBy next ok s t := by
  induction ls generalizing s with
  | nil =>
      rw [runLabels, Option.some.injEq] at h
      exact h ▸ .refl s
  | cons l ls ih =>
      rw [runLabels, Option.bind_eq_some_iff] at h
      obtain ⟨u, hu, hrun⟩ := h
      unfold guarded at hu
      split at hu
      · next hok => exact .head hok hu (ih hrun)
      · cases hu

/-- A list of labels that meet `ok` in any state is a run that meets it. -/
theorem reachesBy_of_labels {s t : State} (ls : List Label) (h : runLabels next s ls = some t)
    (hok : ∀ l ∈ ls, ∀ u, ok u l) : ReachesBy next ok s t := by
  induction ls generalizing s with
  | nil =>
      rw [runLabels, Option.some.injEq] at h
      exact h ▸ .refl s
  | cons l ls ih =>
      rw [runLabels, Option.bind_eq_some_iff] at h
      obtain ⟨u, hu, hrun⟩ := h
      exact .head (hok l List.mem_cons_self s) hu (ih hrun fun k hk => hok k (List.mem_cons_of_mem _ hk))

theorem guarded_true : guarded next (fun _ _ => True) = next := by
  funext s l
  exact if_pos trivial

theorem reaches_of_runLabels {s t : State} (ls : List Label) (h : runLabels next s ls = some t) :
    Reaches next s t := by
  refine reachesBy_of_runLabels ls ?_
  rw [guarded_true]
  exact h

end PathGuard.Run

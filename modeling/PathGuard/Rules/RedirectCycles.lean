import PathGuard.Rules.Acceptance

/-!
# Cycles of redirects

What `ValidateRedirects` reports about the graph of the rules, in which an arrow goes from a rule to each rule that
starts where it ends. With one rule per source the search over the sorted rules finds a cycle exactly when there is one
among the rules as they were given.

* `RedirectArrow`, `HasRedirectCycle` : the graph of the rules as they were given;
* `redirectCycle_reported_iff` : a cycle is reported exactly when there is one, and every visit ends.
-/

namespace PathGuard.Rules

variable {limits : RulesLimits} {origins : OriginMap}

/-- The target of rule `i` is the source of rule `j`. -/
def RedirectArrow (redirects : List ResolvedRedirectRule) (i j : Nat) : Prop :=
  ∃ a b, redirects[i]? = some a ∧ redirects[j]? = some b ∧ a.target.bytes = b.source.bytes

/-- Following arrows leads from some rule back to it. -/
def HasRedirectCycle (redirects : List ResolvedRedirectRule) : Prop :=
  ∃ i, Relation.TransGen (RedirectArrow redirects) i i

section Graph
variable {redirects : List ResolvedRedirectRule}

theorem redirectArrow_iff (hdistinct : DistinctSources redirects) {i j : Nat} :
    RedirectArrow redirects i j ↔ Follows (nextRedirect redirects) i j := by
  constructor
  · rintro ⟨a, b, ha, hb, hab⟩
    obtain ⟨k, hnext, hk⟩ := nextRedirect_of_leads hdistinct ha (List.mem_of_getElem? hb) hab.symm
    obtain rfl := hdistinct.index_eq hb hk rfl
    exact hnext
  · intro hnext
    obtain ⟨a, b, ha, hb, hab⟩ := nextRedirect_some hnext
    exact ⟨a, b, ha, hb, hab.symm⟩

theorem hasRedirectCycle_iff (hdistinct : DistinctSources redirects) :
    HasRedirectCycle redirects ↔ HasCycle (redirects.map link) := by
  rw [← follows_cycle_iff hdistinct, HasRedirectCycle]
  have harrow : RedirectArrow redirects = Follows (nextRedirect redirects) := by
    funext i j
    exact propext (redirectArrow_iff hdistinct)
  rw [harrow]

theorem validateRedirects_redirects (app : ResolvedAppPolicy) :
    (validateRedirects limits origins app).1.redirects =
      keepUncovered sameRule none (sortOn redirectSortKey app.redirects) :=
  congrArg Prod.fst (uniqueRedirects_eq none _)

theorem mem_links_iff (app : ResolvedAppPolicy) (p : Bytes × Bytes) :
    p ∈ (validateRedirects limits origins app).1.redirects.map link ↔ p ∈ app.redirects.map link := by
  rw [validateRedirects_redirects]
  constructor
  · intro hp
    obtain ⟨rule, hrule, rfl⟩ := List.mem_map.mp hp
    exact List.mem_map_of_mem (mem_sortOn.mp ((keepUncovered_sublist _ _).subset hrule))
  · intro hp
    obtain ⟨rule, hrule, rfl⟩ := List.mem_map.mp hp
    obtain ⟨kept, hkept, hsame⟩ := exists_mem_covers sameRule (by simp [sameRule, samePath])
      (mem_sortOn.mpr hrule : rule ∈ sortOn redirectSortKey app.redirects)
    rw [sameRule, Bool.and_eq_true, samePath, samePath, beq_iff_eq, beq_iff_eq] at hsame
    exact List.mem_map.mpr ⟨kept, hkept, Prod.ext hsame.1 hsame.2⟩

theorem distinctSources_validateRedirects {app : ResolvedAppPolicy} (hdistinct : DistinctSources app.redirects) :
    DistinctSources (validateRedirects limits origins app).1.redirects := by
  rw [validateRedirects_redirects]
  refine List.Pairwise.sublist (keepUncovered_sublist _ _) ?_
  exact hdistinct.perm (sortOn_perm _ _).symm fun h => h.symm

end Graph

/-! ## The report -/

/-- The diagnostics one call adds to the list. -/
def addedDiagnostics (limits : RulesLimits) (diagnostics emitted : List Diagnostic) : List Diagnostic :=
  (addDiagnostics limits diagnostics emitted).drop diagnostics.length

theorem addedDiagnostics_of_room {diagnostics emitted : List Diagnostic}
    (hroom : diagnostics.length + emitted.length ≤ limits.maxDiagnostics) :
    addedDiagnostics limits diagnostics emitted = emitted := by
  rw [addedDiagnostics, addDiagnostics_eq, List.drop_left, List.take_of_length_le (by omega)]

/-- Of the diagnostics of `ValidateRedirects` only the search gives a cycle. -/
theorem exists_cycle_iff (app : ResolvedAppPolicy) :
    (∃ d ∈ (validateRedirects limits origins app).2, d.messageKey = "redirect_cycle") ↔
      redirectCycle (validateRedirects limits origins app).1.redirects ≠ none := by
  have hemitted : (validateRedirects limits origins app).2 =
      (uniqueRedirects limits origins none (sortOn redirectSortKey app.redirects)).2 ++
        redirectConflicts limits origins none (validateRedirects limits origins app).1.redirects ++
        cycleDiagnostics limits origins (validateRedirects limits origins app).1.redirects ++
        pickerDiagnostics limits app.filePicker (validateRedirects limits origins app).1.redirects := rfl
  rw [hemitted, ← not_iff_not, not_not, ← @cycleDiagnostics_eq_nil limits origins]
  push Not
  simp only [List.forall_mem_append]
  constructor
  · intro h
    exact (cycleDiagnostics_allOf limits origins _).eq_nil h.1.2
  · intro hnil
    refine ⟨⟨⟨(uniqueRedirects_allOf none _).ne (by decide), fun d hd => ?_⟩, ?_⟩,
      (pickerDiagnostics_allOf limits _ _).ne (by decide)⟩
    · obtain ⟨-, hd | hd⟩ := redirectConflicts_kind hd <;> rw [hd] <;> decide
    · rw [hnil]
      exact fun d hd => absurd hd List.not_mem_nil

/-- The visit of every redirect ends with one outcome, whatever the colours. -/
def VisitsEnd (redirects : List ResolvedRedirectRule) : Prop :=
  ∀ (colors : List Color) (index : Nat), colors.length = redirects.length → index < redirects.length →
    ∃! outcome : Bool × List Color, Visits (nextRedirect redirects) colors index outcome.1 outcome.2

theorem visitsEnd (redirects : List ResolvedRedirectRule) : VisitsEnd redirects := by
  intro colors index hlen hindex
  have hcount : unvisited colors ≤ colors.length := List.countP_le_length
  have hends := @visits_visit (nextRedirect redirects) (colors.length + 1) colors index
    (fun i j hnext => hlen ▸ (nextRedirect_lt hnext).2) (hlen ▸ hindex) (by omega)
  refine ⟨visit (nextRedirect redirects) (colors.length + 1) colors index, hends, fun outcome houtcome => ?_⟩
  obtain ⟨hanswer, hcolors⟩ := houtcome.unique hends
  exact Prod.ext hanswer hcolors

/-- **The cycle check**: reported exactly when the rules of the app have a cycle, by a visit that always ends. -/
theorem redirectCycle_reported_iff {app : ResolvedAppPolicy} {diagnostics : List Diagnostic}
    (hdistinct : DistinctSources app.redirects)
    (hroom : diagnostics.length + (validateRedirects limits origins app).2.length ≤ limits.maxDiagnostics) :
    ((∃ d ∈ addedDiagnostics limits diagnostics (validateRedirects limits origins app).2,
        d.messageKey = "redirect_cycle") ↔ HasRedirectCycle app.redirects) ∧
      VisitsEnd (validateRedirects limits origins app).1.redirects := by
  refine ⟨?_, visitsEnd _⟩
  rw [addedDiagnostics_of_room hroom, exists_cycle_iff, ne_eq,
    redirectCycle_eq_none_iff (distinctSources_validateRedirects hdistinct), not_not, hasRedirectCycle_iff hdistinct]
  exact ⟨HasCycle.congr (mem_links_iff app), HasCycle.congr fun p => (mem_links_iff app p).symm⟩

def redirectApp (redirects : List ResolvedRedirectRule) : ResolvedAppPolicy where
  package := ascii "a.b"
  enabled := true
  users := []
  processes := []
  filePicker := false
  deny := []
  redirects := redirects

/-- A tail that leads into a cycle of two. -/
theorem redirectCycle_reported_tail :
    ∃ d ∈ addedDiagnostics {} [] (validateRedirects {} [] (redirectApp
        [⟨0, ⟨ascii "C", [0]⟩, ⟨ascii "A", [0]⟩⟩, ⟨1, ⟨ascii "A", [0]⟩, ⟨ascii "B", [0]⟩⟩,
          ⟨2, ⟨ascii "B", [0]⟩, ⟨ascii "A", [0]⟩⟩])).2,
      d.messageKey = "redirect_cycle" := by
  have hcycle : HasRedirectCycle [⟨0, ⟨ascii "C", [0]⟩, ⟨ascii "A", [0]⟩⟩, ⟨1, ⟨ascii "A", [0]⟩, ⟨ascii "B", [0]⟩⟩,
      ⟨2, ⟨ascii "B", [0]⟩, ⟨ascii "A", [0]⟩⟩] :=
    ⟨1, .tail (.single ⟨_, _, rfl, rfl, rfl⟩ : Relation.TransGen _ 1 2) ⟨_, _, rfl, rfl, rfl⟩⟩
  exact (redirectCycle_reported_iff (by decide) (by decide)).1.mpr hcycle

end PathGuard.Rules

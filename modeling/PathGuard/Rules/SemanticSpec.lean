import PathGuard.Lib.Components
import PathGuard.Lib.Cover
import PathGuard.Rules.Semantic

/-!
# What the semantic phase keeps and emits

One lemma for each function of the phase: which rules go on, in which order, and which diagnostics are handed to
`AddDiagnostic`. What happens to a diagnostic at the cap is left to `Rules.Acceptance`.

* `passesDeny`, `passesRedirect` : the rules that go on;
* `pathErrors`, `redirectErrors`, `denyErrors`, `repeatedWarnings`, `foldedWarnings` : what each function hands over;
* `redirectCycle_eq_none_iff`, `denyConflict_ne_none` : the two searches;
* `mem_of_redirect`, `covered_of_deny` : every rule that passes is kept or covered.
-/

namespace PathGuard.Rules

variable {limits : RulesLimits} {origins : OriginMap}

/-! ## Paths -/

theorem isSameOrAncestor_iff {a p : NormalizedPath} :
    isSameOrAncestor a p = true ↔ IsWithin slash a.bytes p.bytes := by
  rw [isWithin_iff, isSameOrAncestor, Bool.or_eq_true, beq_iff_eq]
  refine or_congr_right ⟨fun h => ?_, ?_⟩
  · rw [Bool.and_eq_true, Bool.and_eq_true, decide_eq_true_eq, List.isPrefixOf_iff_prefix, beq_iff_eq] at h
    obtain ⟨⟨-, u, hu⟩, hslash⟩ := h
    rw [← hu, List.getElem?_append_right (Nat.le_refl _), Nat.sub_self] at hslash
    cases u with
    | nil => cases hslash
    | cons y u =>
        rw [List.getElem?_cons_zero, Option.some.injEq] at hslash
        exact ⟨u, by rw [← hu, hslash]⟩
  · rintro ⟨u, hu⟩
    simp [hu]

theorem isSameOrAncestor_eq_false_iff {a p : NormalizedPath} :
    isSameOrAncestor a p = false ↔ ¬ IsWithin slash a.bytes p.bytes := by
  rw [← isSameOrAncestor_iff, Bool.not_eq_true]

theorem isSameOrAncestor_self (a : NormalizedPath) : isSameOrAncestor a a = true :=
  isSameOrAncestor_iff.mpr (IsWithin.refl slash a.bytes)

theorem pathsOverlap_iff {a b : NormalizedPath} :
    pathsOverlap a b = true ↔ IsWithin slash a.bytes b.bytes ∨ IsWithin slash b.bytes a.bytes := by
  rw [pathsOverlap, Bool.or_eq_true, isSameOrAncestor_iff, isSameOrAncestor_iff]

theorem normalizeRulePath_bytes {input : Bytes} {path : NormalizedPath}
    (h : normalizeRulePath limits input = some path) : path.bytes = input := by
  unfold normalizeRulePath at h
  split at h
  · cases h
  · obtain ⟨offsets, -, rfl⟩ := Option.map_eq_some_iff.mp h
    rfl

/-! ## Rules that resolve -/

/-- The two checks of a path. -/
def passesPath (limits : RulesLimits) (path : Bytes) : Bool :=
  !exceedsPathLimits limits path && (normalizeRulePath limits path).isSome

def passesDeny (limits : RulesLimits) (rule : DenyRule) : Bool := passesPath limits rule.path

def passesRedirect (limits : RulesLimits) (rule : RedirectRule) : Bool :=
  passesPath limits rule.source && passesPath limits rule.target

theorem mem_resolveRules {α β : Type} {resolve : α → Except Diagnostic β} {l : List α} {b : β} :
    b ∈ (resolveRules resolve l).1 ↔ ∃ a ∈ l, resolve a = .ok b := by
  induction l with
  | nil => simp [resolveRules]
  | cons a l ih =>
      rw [resolveRules]
      cases h : resolve a with
      | ok value => simp [ih, h, eq_comm]
      | error diagnostic => simp [ih, h]

theorem mem_resolveRules_emitted {α β : Type} {resolve : α → Except Diagnostic β} {l : List α} {d : Diagnostic} :
    d ∈ (resolveRules resolve l).2 ↔ ∃ a ∈ l, resolve a = .error d := by
  induction l with
  | nil => simp [resolveRules]
  | cons a l ih =>
      rw [resolveRules]
      cases h : resolve a with
      | ok value => simp [ih, h]
      | error diagnostic => simp [ih, h, eq_comm]

theorem resolveDeny_cases (limits : RulesLimits) (origins : OriginMap) (rule : DenyRule) :
    (passesDeny limits rule = true ∧ ∃ path, normalizeRulePath limits rule.path = some path ∧
      resolveDeny limits origins rule = .ok ⟨rule.id, path⟩) ∨
    (passesDeny limits rule = false ∧ ∃ d, resolveDeny limits origins rule = .error d ∧ d.severity = .error) := by
  unfold passesDeny passesPath resolveDeny
  cases hlimit : exceedsPathLimits limits rule.path with
  | true => exact Or.inr ⟨rfl, _, rfl, rfl⟩
  | false =>
      cases hpath : normalizeRulePath limits rule.path with
      | none => exact Or.inr ⟨rfl, _, rfl, rfl⟩
      | some path => exact Or.inl ⟨rfl, path, rfl, rfl⟩

theorem resolveRedirect_cases (limits : RulesLimits) (origins : OriginMap) (rule : RedirectRule) :
    (passesRedirect limits rule = true ∧ ∃ source target, normalizeRulePath limits rule.source = some source ∧
      normalizeRulePath limits rule.target = some target ∧
      resolveRedirect limits origins rule = .ok ⟨rule.id, source, target⟩) ∨
    (passesRedirect limits rule = false ∧ ∃ d, resolveRedirect limits origins rule = .error d ∧ d.severity = .error) := by
  unfold passesRedirect passesPath resolveRedirect
  cases hsource : exceedsPathLimits limits rule.source with
  | true => exact Or.inr ⟨rfl, _, rfl, rfl⟩
  | false =>
      cases htarget : exceedsPathLimits limits rule.target with
      | true => exact Or.inr ⟨by simp, _, rfl, rfl⟩
      | false =>
          cases hsource' : normalizeRulePath limits rule.source with
          | none => exact Or.inr ⟨rfl, _, rfl, rfl⟩
          | some source =>
              cases htarget' : normalizeRulePath limits rule.target with
              | none => exact Or.inr ⟨rfl, _, rfl, rfl⟩
              | some target => exact Or.inl ⟨rfl, source, target, rfl, rfl, rfl⟩

theorem resolveDeny_ok {rule : DenyRule} {resolved : ResolvedDenyRule}
    (h : resolveDeny limits origins rule = .ok resolved) :
    passesDeny limits rule = true ∧ normalizeRulePath limits rule.path = some resolved.path := by
  obtain ⟨hpass, path, hpath, hok⟩ | ⟨-, d, herror, -⟩ := resolveDeny_cases limits origins rule
  · rw [h, Except.ok.injEq] at hok
    exact ⟨hpass, by rw [hok, hpath]⟩
  · rw [h] at herror
    cases herror

theorem resolveRedirect_ok {rule : RedirectRule} {resolved : ResolvedRedirectRule}
    (h : resolveRedirect limits origins rule = .ok resolved) :
    passesRedirect limits rule = true ∧ normalizeRulePath limits rule.source = some resolved.source ∧
      normalizeRulePath limits rule.target = some resolved.target := by
  obtain ⟨hpass, source, target, hsource, htarget, hok⟩ | ⟨-, d, herror, -⟩ :=
    resolveRedirect_cases limits origins rule
  · rw [h, Except.ok.injEq] at hok
    exact ⟨hpass, by rw [hok, hsource], by rw [hok, htarget]⟩
  · rw [h] at herror
    cases herror

/-! ## Diagnostics by kind -/

/-- Every diagnostic of the list has this severity and this message. -/
def AllOf (severity : DiagnosticSeverity) (messageKey : String) (l : List Diagnostic) : Prop :=
  ∀ d ∈ l, d.severity = severity ∧ d.messageKey = messageKey

/-- Two redirects with the same source and the same target. -/
def sameRule (kept rule : ResolvedRedirectRule) : Bool :=
  samePath kept.source rule.source && samePath kept.target rule.target

def coversRule (kept rule : ResolvedDenyRule) : Bool := isSameOrAncestor kept.path rule.path

/-- The warning of a rule that another one makes redundant. -/
def redundancy (limits : RulesLimits) (origins : OriginMap) (key : String) (kept rule : RuleId) : Diagnostic :=
  semanticDiagnostic limits kRuleRedundant key (originSpan origins rule) .warning (some (originSpan origins kept))

theorem allOf_redundancy {α : Type} {key : String} {l : List α} {kept rule : α → RuleId} :
    AllOf .warning key (l.map fun a => redundancy limits origins key (kept a) (rule a)) := by
  intro d hd
  obtain ⟨a, -, rfl⟩ := List.mem_map.mp hd
  exact ⟨rfl, rfl⟩

theorem uniqueRedirects_eq (back : Option ResolvedRedirectRule) (l : List ResolvedRedirectRule) :
    uniqueRedirects limits origins back l = (keepUncovered sameRule back l, (coveredPairs sameRule back l).map
      fun pair => redundancy limits origins "duplicate_redirect" pair.1.id pair.2.id) := by
  let note := fun kept rule : ResolvedRedirectRule => redundancy limits origins "duplicate_redirect" kept.id rule.id
  refine @eq_keepUncovered _ sameRule _ note (uniqueRedirects limits origins) ?_ (fun _ _ => rfl) (fun _ _ _ => rfl) back l
  intro back
  cases back <;> rfl

theorem foldDeny_eq (back : Option ResolvedDenyRule) (l : List ResolvedDenyRule) :
    foldDeny limits origins back l = (keepUncovered coversRule back l, (coveredPairs coversRule back l).map
      fun pair => redundancy limits origins "deny_redundant" pair.1.id pair.2.id) := by
  let note := fun kept rule : ResolvedDenyRule => redundancy limits origins "deny_redundant" kept.id rule.id
  refine @eq_keepUncovered _ coversRule _ note (foldDeny limits origins) ?_ (fun _ _ => rfl) (fun _ _ _ => rfl) back l
  intro back
  cases back <;> rfl

theorem uniqueRedirects_allOf (back : Option ResolvedRedirectRule) (l : List ResolvedRedirectRule) :
    AllOf .warning "duplicate_redirect" (uniqueRedirects limits origins back l).2 := by
  rw [uniqueRedirects_eq]
  exact allOf_redundancy

theorem foldDeny_allOf (back : Option ResolvedDenyRule) (l : List ResolvedDenyRule) :
    AllOf .warning "deny_redundant" (foldDeny limits origins back l).2 := by
  rw [foldDeny_eq]
  exact allOf_redundancy

theorem overlapDiagnostics_allOf (limits : RulesLimits) (origins : OriginMap) (rule : ResolvedRedirectRule) :
    AllOf .error "redirect_source_target_overlap" (overlapDiagnostics limits origins rule) := by
  intro d hd
  unfold overlapDiagnostics at hd
  split at hd
  · rw [List.mem_singleton.mp hd]
    exact ⟨rfl, rfl⟩
  · exact absurd hd List.not_mem_nil

theorem overlapDiagnostics_eq_nil (limits : RulesLimits) (origins : OriginMap) {rule : ResolvedRedirectRule} :
    overlapDiagnostics limits origins rule = [] ↔ pathsOverlap rule.source rule.target = false := by
  unfold overlapDiagnostics
  cases pathsOverlap rule.source rule.target <;> simp

theorem neighbourDiagnostics_allOf (limits : RulesLimits) (origins : OriginMap)
    (previous : Option ResolvedRedirectRule) (rule : ResolvedRedirectRule) :
    AllOf .error "redirect_source_conflict" (neighbourDiagnostics limits origins rule previous) := by
  intro d hd
  cases previous with
  | none => exact absurd hd List.not_mem_nil
  | some previous =>
      rw [neighbourDiagnostics] at hd
      split at hd
      · rw [List.mem_singleton.mp hd]
        exact ⟨rfl, rfl⟩
      · exact absurd hd List.not_mem_nil

theorem neighbourDiagnostics_eq_nil (limits : RulesLimits) (origins : OriginMap)
    {previous rule : ResolvedRedirectRule} :
    neighbourDiagnostics limits origins rule (some previous) = [] ↔
      pathsOverlap previous.source rule.source = false := by
  rw [neighbourDiagnostics]
  cases pathsOverlap previous.source rule.source <;> simp

theorem AllOf.eq_nil {severity : DiagnosticSeverity} {key : String} {l : List Diagnostic}
    (hall : AllOf severity key l) (h : ∀ d ∈ l, d.messageKey ≠ key) : l = [] :=
  List.eq_nil_iff_forall_not_mem.mpr fun d hd => h d hd (hall d hd).2

theorem AllOf.ne {severity : DiagnosticSeverity} {key key' : String} {l : List Diagnostic}
    (hall : AllOf severity key l) (hne : key ≠ key') : ∀ d ∈ l, d.messageKey ≠ key' :=
  fun d hd heq => hne ((hall d hd).2.symm.trans heq)

theorem redirectConflicts_kind {previous : Option ResolvedRedirectRule} {l : List ResolvedRedirectRule} {d : Diagnostic}
    (h : d ∈ redirectConflicts limits origins previous l) :
    d.severity = .error ∧
      (d.messageKey = "redirect_source_target_overlap" ∨ d.messageKey = "redirect_source_conflict") := by
  induction l generalizing previous with
  | nil => exact absurd h List.not_mem_nil
  | cons current l ih =>
      rw [redirectConflicts, List.mem_append, List.mem_append] at h
      rcases h with (h | h) | h
      · have := overlapDiagnostics_allOf limits origins current d h
        exact ⟨this.1, Or.inl this.2⟩
      · have := neighbourDiagnostics_allOf limits origins previous current d h
        exact ⟨this.1, Or.inr this.2⟩
      · exact ih h

theorem redirectConflicts_eq_nil (limits : RulesLimits) (origins : OriginMap) (previous : Option ResolvedRedirectRule)
    (l : List ResolvedRedirectRule) :
    redirectConflicts limits origins previous l = [] ↔
      (∀ rule ∈ l, pathsOverlap rule.source rule.target = false) ∧
        (previous.toList ++ l).IsChain fun a b => pathsOverlap a.source b.source = false := by
  induction l generalizing previous with
  | nil => cases previous <;> simp [redirectConflicts]
  | cons current l ih =>
      rw [redirectConflicts, List.append_eq_nil_iff, List.append_eq_nil_iff, ih (some current),
        overlapDiagnostics_eq_nil, List.forall_mem_cons]
      cases previous with
      | none =>
          rw [neighbourDiagnostics, Option.toList_none, Option.toList_some, List.nil_append, List.singleton_append]
          tauto
      | some previous =>
          rw [neighbourDiagnostics_eq_nil, Option.toList_some, Option.toList_some, List.singleton_append,
            List.singleton_append, List.isChain_cons_cons]
          tauto

/-! ## Cycles -/

/-- The source and the target of a redirect. -/
def link (rule : ResolvedRedirectRule) : Bytes × Bytes := (rule.source.bytes, rule.target.bytes)

/-- The target of one redirect is the source of the other. -/
def LeadsTo (links : List (Bytes × Bytes)) (a b : Bytes × Bytes) : Prop := a ∈ links ∧ b ∈ links ∧ b.1 = a.2

/-- A redirect that leads back to itself. -/
def HasCycle (links : List (Bytes × Bytes)) : Prop := ∃ a, Relation.TransGen (LeadsTo links) a a

theorem HasCycle.congr {links links' : List (Bytes × Bytes)} (hmem : ∀ p, p ∈ links ↔ p ∈ links')
    (h : HasCycle links) : HasCycle links' := by
  obtain ⟨p, hcycle⟩ := h
  exact ⟨p, hcycle.lift id fun a b hab => ⟨(hmem a).mp hab.1, (hmem b).mp hab.2.1, hab.2.2⟩⟩

def DistinctSources (redirects : List ResolvedRedirectRule) : Prop :=
  redirects.Pairwise fun a b => a.source.bytes ≠ b.source.bytes

instance (redirects : List ResolvedRedirectRule) : Decidable (DistinctSources redirects) :=
  inferInstanceAs (Decidable (List.Pairwise _ _))

section Cycles
variable {redirects : List ResolvedRedirectRule}

theorem DistinctSources.index_eq (h : DistinctSources redirects) {i j : Nat} {a b : ResolvedRedirectRule}
    (hi : redirects[i]? = some a) (hj : redirects[j]? = some b) (hab : a.source.bytes = b.source.bytes) : i = j := by
  obtain ⟨hi', rfl⟩ := List.getElem?_eq_some_iff.mp hi
  obtain ⟨hj', rfl⟩ := List.getElem?_eq_some_iff.mp hj
  rcases Nat.lt_trichotomy i j with hlt | heq | hlt
  · exact absurd hab (List.pairwise_iff_getElem.mp h i j hi' hj' hlt)
  · exact heq
  · exact absurd hab.symm (List.pairwise_iff_getElem.mp h j i hj' hi' hlt)

theorem nextRedirect_some {i j : Nat} (h : nextRedirect redirects i = some j) :
    ∃ a b, redirects[i]? = some a ∧ redirects[j]? = some b ∧ b.source.bytes = a.target.bytes := by
  obtain ⟨a, ha, hfind⟩ := Option.bind_eq_some_iff.mp h
  obtain ⟨hj, hb, -⟩ := List.findIdx?_eq_some_iff_getElem.mp hfind
  exact ⟨a, redirects[j], ha, List.getElem?_eq_getElem hj, by simpa using hb⟩

theorem nextRedirect_of_leads (hdistinct : DistinctSources redirects) {i : Nat} {a b : ResolvedRedirectRule}
    (ha : redirects[i]? = some a) (hb : b ∈ redirects) (hab : b.source.bytes = a.target.bytes) :
    ∃ j, nextRedirect redirects i = some j ∧ redirects[j]? = some b := by
  obtain ⟨j, hj⟩ := List.mem_iff_getElem?.mp hb
  cases hnext : nextRedirect redirects i with
  | none =>
      rw [nextRedirect, ha, Option.bind_some, List.findIdx?_eq_none_iff] at hnext
      have := hnext b hb
      simp [hab] at this
  | some k =>
      obtain ⟨a', b', ha', hb', hab'⟩ := nextRedirect_some hnext
      rw [ha, Option.some.injEq] at ha'
      subst ha'
      have hjk : j = k := hdistinct.index_eq hj hb' (hab.trans hab'.symm)
      exact ⟨k, rfl, hjk ▸ hj⟩

theorem link_mem {i : Nat} {a : ResolvedRedirectRule} (h : redirects[i]? = some a) : link a ∈ redirects.map link :=
  List.mem_map_of_mem (List.mem_of_getElem? h)

theorem transGen_leadsTo {i j : Nat} (h : Relation.TransGen (Follows (nextRedirect redirects)) i j) :
    ∃ a b, redirects[i]? = some a ∧ redirects[j]? = some b ∧
      Relation.TransGen (LeadsTo (redirects.map link)) (link a) (link b) := by
  induction h with
  | single hnext =>
      obtain ⟨a, b, ha, hb, hab⟩ := nextRedirect_some hnext
      exact ⟨a, b, ha, hb, .single ⟨link_mem ha, link_mem hb, hab⟩⟩
  | tail _ hnext ih =>
      obtain ⟨a, b, ha, hb, hrun⟩ := ih
      obtain ⟨b', c, hb', hc, hbc⟩ := nextRedirect_some hnext
      rw [hb, Option.some.injEq] at hb'
      subst hb'
      exact ⟨a, c, ha, hc, hrun.tail ⟨link_mem hb, link_mem hc, hbc⟩⟩

theorem transGen_follows (hdistinct : DistinctSources redirects) {a : ResolvedRedirectRule} {q : Bytes × Bytes}
    {i : Nat} (ha : redirects[i]? = some a) (h : Relation.TransGen (LeadsTo (redirects.map link)) (link a) q) :
    ∃ j b, redirects[j]? = some b ∧ link b = q ∧ Relation.TransGen (Follows (nextRedirect redirects)) i j := by
  induction h with
  | single hab =>
      obtain ⟨b, hb, rfl⟩ := List.mem_map.mp hab.2.1
      obtain ⟨j, hnext, hj⟩ := nextRedirect_of_leads hdistinct ha hb hab.2.2
      exact ⟨j, b, hj, rfl, .single hnext⟩
  | tail _ hbc ih =>
      obtain ⟨j, b, hj, rfl, hrun⟩ := ih
      obtain ⟨c, hc, rfl⟩ := List.mem_map.mp hbc.2.1
      obtain ⟨k, hnext, hk⟩ := nextRedirect_of_leads hdistinct hj hc hbc.2.2
      exact ⟨k, c, hk, rfl, hrun.tail hnext⟩

theorem follows_cycle_iff (hdistinct : DistinctSources redirects) :
    (∃ i, Relation.TransGen (Follows (nextRedirect redirects)) i i) ↔ HasCycle (redirects.map link) := by
  constructor
  · rintro ⟨i, hcycle⟩
    obtain ⟨a, b, ha, hb, hrun⟩ := transGen_leadsTo hcycle
    rw [ha, Option.some.injEq] at hb
    exact ⟨link a, hb ▸ hrun⟩
  · rintro ⟨p, hcycle⟩
    obtain ⟨q, hpq, -⟩ := Relation.TransGen.head'_iff.mp hcycle
    obtain ⟨a, ha, rfl⟩ := List.mem_map.mp hpq.1
    obtain ⟨i, hi⟩ := List.mem_iff_getElem?.mp ha
    obtain ⟨j, b, hj, hb, hrun⟩ := transGen_follows hdistinct hi hcycle
    exact ⟨i, hdistinct.index_eq hi hj (congrArg Prod.fst hb).symm ▸ hrun⟩

theorem nextRedirect_lt {i j : Nat} (h : nextRedirect redirects i = some j) :
    i < redirects.length ∧ j < redirects.length := by
  obtain ⟨a, b, ha, hb, -⟩ := nextRedirect_some h
  exact ⟨(List.getElem?_eq_some_iff.mp ha).1, (List.getElem?_eq_some_iff.mp hb).1⟩

/-- The search of `ValidateRedirects` is exact when no two rules share a source. -/
theorem redirectCycle_eq_none_iff (hdistinct : DistinctSources redirects) :
    redirectCycle redirects = none ↔ ¬ HasCycle (redirects.map link) := by
  rw [redirectCycle, findCycle_eq_none_iff (fun i j => nextRedirect_lt) (List.length_map _) ?_,
    follows_cycle_iff hdistinct]
  intro i color hcolor
  rw [List.getElem?_map] at hcolor
  obtain ⟨_, -, hcolor⟩ := Option.map_eq_some_iff.mp hcolor
  exact hcolor.symm

end Cycles

/-! ## Deny rules against redirects -/

section Deny
variable {deny : List ResolvedDenyRule} {source : NormalizedPath}

theorem mem_of_getLast?_takeWhile {α : Type} {p : α → Bool} {l : List α} {a : α}
    (h : (l.takeWhile p).getLast? = some a) : a ∈ l :=
  (List.takeWhile_prefix p).subset (List.mem_of_getLast? h)

theorem notMem_dropWhile_of_lt {rule : ResolvedDenyRule}
    (hsorted : (deny.dropWhile fun rule => decide (rule.path.bytes < source.bytes)).Pairwise
      fun a b => a.path.bytes ≤ b.path.bytes)
    (hlt : rule.path.bytes < source.bytes) : rule ∉ deny.dropWhile fun rule => decide (rule.path.bytes < source.bytes) := by
  intro hrule
  have hfirst := List.head?_dropWhile_not (fun rule => decide (rule.path.bytes < source.bytes)) deny
  cases hdrop : deny.dropWhile fun rule => decide (rule.path.bytes < source.bytes) with
  | nil => simp [hdrop] at hrule
  | cons first rest =>
      rw [hdrop] at hsorted hrule hfirst
      simp only [List.head?_cons, decide_eq_false_iff_not, not_lt] at hfirst
      rcases List.mem_cons.mp hrule with rfl | hrule
      · exact absurd hlt (not_lt.mpr hfirst)
      · exact absurd hlt (not_lt.mpr (hfirst.trans ((List.pairwise_cons.mp hsorted).1 rule hrule)))

theorem denyConflict_mem {conflict : ResolvedDenyRule} (h : denyConflict deny source = some conflict) :
    conflict ∈ deny ∧ IsWithin slash conflict.path.bytes source.bytes := by
  have hnext : ∀ rule, (deny.dropWhile fun rule => rule.path.bytes < source.bytes).head?.filter
      (fun rule => samePath source rule.path) = some rule →
      rule ∈ deny ∧ IsWithin slash rule.path.bytes source.bytes := by
    intro rule hrule
    obtain ⟨hhead, hsame⟩ := Option.filter_eq_some_iff.mp hrule
    refine ⟨(List.dropWhile_suffix _).subset (List.mem_of_mem_head? hhead), ?_⟩
    rw [samePath, beq_iff_eq] at hsame
    rw [hsame]
    exact IsWithin.refl slash _
  unfold denyConflict at h
  cases hprevious : (deny.takeWhile fun rule => rule.path.bytes < source.bytes).getLast? with
  | none =>
      simp only [hprevious] at h
      exact hnext conflict h
  | some previous =>
      simp only [hprevious] at h
      split at h
      · next hancestor =>
        rw [Option.some.injEq] at h
        subst h
        exact ⟨mem_of_getLast?_takeWhile hprevious, isSameOrAncestor_iff.mp hancestor⟩
      · exact hnext conflict h

/-- Nothing stands between the conflict found and the source. -/
theorem denyConflict_last (hsorted : deny.Pairwise fun a b => a.path.bytes ≤ b.path.bytes)
    {conflict other : ResolvedDenyRule} (h : denyConflict deny source = some conflict) (hother : other ∈ deny)
    (hlow : conflict.path.bytes < other.path.bytes) (hhigh : other.path.bytes < source.bytes) : False := by
  have hnext : ∀ rule, (deny.dropWhile fun rule => rule.path.bytes < source.bytes).head?.filter
      (fun rule => samePath source rule.path) = some rule → ¬ rule.path.bytes < other.path.bytes := by
    intro rule hrule hbelow
    obtain ⟨-, hsame⟩ := Option.filter_eq_some_iff.mp hrule
    rw [samePath, beq_iff_eq] at hsame
    rw [← hsame] at hbelow
    exact lt_asymm hhigh hbelow
  unfold denyConflict at h
  cases hprevious : (deny.takeWhile fun rule => rule.path.bytes < source.bytes).getLast? with
  | none =>
      simp only [hprevious] at h
      exact hnext conflict h hlow
  | some previous =>
      simp only [hprevious] at h
      split at h
      · rw [Option.some.injEq] at h
        subst h
        -- the other one is below the source, so it is among those whose last one was taken
        obtain ⟨front, hfront⟩ := List.getLast?_eq_some_iff.mp hprevious
        rw [← List.takeWhile_append_dropWhile (p := fun rule => decide (rule.path.bytes < source.bytes)) (l := deny),
          hfront] at hsorted hother
        obtain ⟨hbelow, hrest, hcross⟩ := List.pairwise_append.mp hsorted
        rcases List.mem_append.mp hother with hother | hother
        · rcases List.mem_append.mp hother with hother | hother
          · exact absurd hlow (not_lt.mpr ((List.pairwise_append.mp hbelow).2.2 other hother previous (by simp)))
          · rw [List.mem_singleton.mp hother] at hlow
            exact lt_irrefl _ hlow
        · exact notMem_dropWhile_of_lt hrest hhigh hother
      · exact hnext conflict h hlow

/-- The two places looked at are enough for every deny rule above the source, as long as nothing is interposed. -/
theorem denyConflict_ne_none (hsorted : deny.Pairwise fun a b => a.path.bytes ≤ b.path.bytes)
    (hchain : deny.IsChain fun a b => ¬ IsWithin slash a.path.bytes b.path.bytes) {rule : ResolvedDenyRule}
    (hrule : rule ∈ deny) (hwithin : IsWithin slash rule.path.bytes source.bytes)
    (hnone : ∀ b ∈ deny, ¬ Interposed slash rule.path.bytes b.path.bytes source.bytes) :
    denyConflict deny source ≠ none := by
  obtain ⟨before, after, rfl⟩ := List.append_of_mem hrule
  have hle : ∀ a ∈ before, a.path.bytes ≤ rule.path.bytes := fun a ha =>
    (List.pairwise_append.mp hsorted).2.2 a ha rule List.mem_cons_self
  rcases lt_or_eq_of_le hwithin.le with hlt | heq
  · -- the rule is below the source, and so is what comes before it
    have hbelow : ((before ++ rule :: after).takeWhile fun r => decide (r.path.bytes < source.bytes)) =
        before ++ rule :: after.takeWhile fun r => decide (r.path.bytes < source.bytes) := by
      rw [List.takeWhile_append_of_pos fun a ha => decide_eq_true (lt_of_le_of_lt (hle a ha) hlt),
        List.takeWhile_cons_of_pos (by simpa using hlt)]
    cases after with
    | nil =>
        simp [denyConflict, hbelow, isSameOrAncestor_iff.mpr hwithin]
    | cons next after =>
        by_cases hnext : next.path.bytes < source.bytes
        · have hrn : rule.path.bytes ≤ next.path.bytes :=
            (List.pairwise_cons.mp (List.pairwise_append.mp hsorted).2.1).1 next List.mem_cons_self
          rcases within_or_interposed hwithin hrn (le_of_lt hnext) with h | h
          · exact absurd h (List.isChain_append_cons_cons.mp hchain).2.1
          · exact absurd h (hnone next (by simp))
        · rw [List.takeWhile_cons_of_neg (by simpa using hnext)] at hbelow
          simp [denyConflict, hbelow, isSameOrAncestor_iff.mpr hwithin]
  · -- the rule is the source: the lower bound is a rule with the same path
    have hhead : ∃ next, ((before ++ rule :: after).dropWhile fun r => decide (r.path.bytes < source.bytes)).head? =
        some next ∧ samePath source next.path = true := by
      rw [List.dropWhile_append]
      split
      · next hempty =>
        rw [List.dropWhile_cons_of_neg (by simp [heq])]
        exact ⟨rule, rfl, by simp [samePath, heq]⟩
      · next hnonempty =>
        cases hdrop : before.dropWhile fun r => decide (r.path.bytes < source.bytes) with
        | nil => simp [hdrop] at hnonempty
        | cons next rest =>
            have hmem : next ∈ before := (List.dropWhile_suffix _).subset (hdrop ▸ List.mem_cons_self)
            have hge : ¬ next.path.bytes < source.bytes := by
              have := List.head?_dropWhile_not (fun r => decide (r.path.bytes < source.bytes)) before
              simpa [hdrop] using this
            refine ⟨next, rfl, ?_⟩
            rw [samePath, beq_iff_eq]
            exact le_antisymm (not_lt.mp hge) (heq ▸ hle next hmem)
    obtain ⟨next, hhead, hsame⟩ := hhead
    unfold denyConflict
    simp only [hhead, Option.filter_some, hsame, if_true]
    split
    · split <;> exact Option.some_ne_none _
    · exact Option.some_ne_none _

end Deny

theorem denyConflicts_allOf (limits : RulesLimits) (origins : OriginMap) (deny : List ResolvedDenyRule)
    (redirects : List ResolvedRedirectRule) :
    AllOf .error "deny_redirect_conflict" (denyConflicts limits origins deny redirects) := by
  intro d hd
  obtain ⟨redirect, -, hd⟩ := List.mem_flatMap.mp hd
  split at hd
  · rw [List.mem_singleton.mp hd]
    exact ⟨rfl, rfl⟩
  · exact absurd hd List.not_mem_nil

theorem denyConflicts_eq_nil (limits : RulesLimits) (origins : OriginMap) {deny : List ResolvedDenyRule}
    {redirects : List ResolvedRedirectRule} :
    denyConflicts limits origins deny redirects = [] ↔
      ∀ redirect ∈ redirects, denyConflict deny redirect.source = none := by
  rw [denyConflicts, List.flatMap_eq_nil_iff]
  refine forall₂_congr fun redirect _ => ?_
  cases denyConflict deny redirect.source <;> simp

/-! ## One app -/

theorem cycleDiagnostics_allOf (limits : RulesLimits) (origins : OriginMap) (redirects : List ResolvedRedirectRule) :
    AllOf .error "redirect_cycle" (cycleDiagnostics limits origins redirects) := by
  intro d hd
  unfold cycleDiagnostics at hd
  split at hd
  · rw [List.mem_singleton.mp hd]
    exact ⟨rfl, rfl⟩
  · exact absurd hd List.not_mem_nil

theorem cycleDiagnostics_eq_nil {redirects : List ResolvedRedirectRule} :
    cycleDiagnostics limits origins redirects = [] ↔ redirectCycle redirects = none := by
  unfold cycleDiagnostics
  cases redirectCycle redirects <;> simp

theorem pickerDiagnostics_allOf (limits : RulesLimits) (filePicker : Bool) (redirects : List ResolvedRedirectRule) :
    AllOf .error "file_picker_requires_redirect" (pickerDiagnostics limits filePicker redirects) := by
  intro d hd
  unfold pickerDiagnostics at hd
  split at hd
  · rw [List.mem_singleton.mp hd]
    exact ⟨rfl, rfl⟩
  · exact absurd hd List.not_mem_nil

theorem pickerDiagnostics_eq_nil {filePicker : Bool} {redirects : List ResolvedRedirectRule} :
    pickerDiagnostics limits filePicker redirects = [] ↔ (filePicker = true → redirects ≠ []) := by
  unfold pickerDiagnostics
  cases filePicker <;> cases redirects <;> simp

theorem resolveApp_redirects (app : AppRules) :
    (resolveApp limits origins app).1.redirects = keepUncovered sameRule none
      (sortOn redirectSortKey (resolveRules (resolveRedirect limits origins) app.redirects).1) :=
  congrArg Prod.fst (uniqueRedirects_eq none _)

theorem resolveApp_deny (app : AppRules) :
    (resolveApp limits origins app).1.deny = keepUncovered coversRule none
      (sortOn denySortKey (resolveRules (resolveDeny limits origins) app.deny).1) :=
  congrArg Prod.fst (foldDeny_eq none _)

/-- The rules of an app that do not resolve. -/
def pathErrors (limits : RulesLimits) (origins : OriginMap) (app : AppRules) : List Diagnostic :=
  (resolveRules (resolveDeny limits origins) app.deny).2 ++
    (resolveRules (resolveRedirect limits origins) app.redirects).2

/-- The warnings of the redirects of an app. -/
def repeatedWarnings (limits : RulesLimits) (origins : OriginMap) (app : AppRules) : List Diagnostic :=
  (uniqueRedirects limits origins none
    (sortOn redirectSortKey (resolveRules (resolveRedirect limits origins) app.redirects).1)).2

/-- The warnings of its deny rules. -/
def foldedWarnings (limits : RulesLimits) (origins : OriginMap) (app : AppRules) : List Diagnostic :=
  (foldDeny limits origins none (sortOn denySortKey (resolveRules (resolveDeny limits origins) app.deny).1)).2

def redirectErrors (limits : RulesLimits) (origins : OriginMap) (app : AppRules) : List Diagnostic :=
  redirectConflicts limits origins none (resolveApp limits origins app).1.redirects ++
    cycleDiagnostics limits origins (resolveApp limits origins app).1.redirects ++
    pickerDiagnostics limits app.filePicker (resolveApp limits origins app).1.redirects

def denyErrors (limits : RulesLimits) (origins : OriginMap) (app : AppRules) : List Diagnostic :=
  denyConflicts limits origins (resolveApp limits origins app).1.deny (resolveApp limits origins app).1.redirects

theorem emitted_eq (limits : RulesLimits) (origins : OriginMap) (app : AppRules) : (resolveApp limits origins app).2 =
    pathErrors limits origins app ++ (repeatedWarnings limits origins app ++ (redirectErrors limits origins app ++
      (foldedWarnings limits origins app ++ denyErrors limits origins app))) := by
  have hemitted : (resolveApp limits origins app).2 =
      pathErrors limits origins app ++
        (repeatedWarnings limits origins app ++
          redirectConflicts limits origins none (resolveApp limits origins app).1.redirects ++
          cycleDiagnostics limits origins (resolveApp limits origins app).1.redirects ++
          pickerDiagnostics limits app.filePicker (resolveApp limits origins app).1.redirects) ++
        (foldedWarnings limits origins app ++ denyErrors limits origins app) := rfl
  simp only [hemitted, redirectErrors, List.append_assoc]

theorem pathErrors_severity {app : AppRules} {d : Diagnostic} (h : d ∈ pathErrors limits origins app) :
    d.severity = .error := by
  rcases List.mem_append.mp h with h | h
  · obtain ⟨rule, -, herror⟩ := mem_resolveRules_emitted.mp h
    obtain ⟨-, path, -, hok⟩ | ⟨-, d', herror', hseverity⟩ := resolveDeny_cases limits origins rule
    · rw [herror] at hok
      cases hok
    · rw [herror, Except.error.injEq] at herror'
      exact herror' ▸ hseverity
  · obtain ⟨rule, -, herror⟩ := mem_resolveRules_emitted.mp h
    obtain ⟨-, source, target, -, -, hok⟩ | ⟨-, d', herror', hseverity⟩ := resolveRedirect_cases limits origins rule
    · rw [herror] at hok
      cases hok
    · rw [herror, Except.error.injEq] at herror'
      exact herror' ▸ hseverity

theorem pathErrors_eq_nil {app : AppRules} :
    pathErrors limits origins app = [] ↔
      (∀ rule ∈ app.deny, passesDeny limits rule = true) ∧
        ∀ rule ∈ app.redirects, passesRedirect limits rule = true := by
  rw [pathErrors, List.append_eq_nil_iff, List.eq_nil_iff_forall_not_mem, List.eq_nil_iff_forall_not_mem]
  refine and_congr ⟨fun h rule hrule => ?_, fun h d hd => ?_⟩ ⟨fun h rule hrule => ?_, fun h d hd => ?_⟩
  · obtain ⟨hpass, -⟩ | ⟨-, d, herror, -⟩ := resolveDeny_cases limits origins rule
    · exact hpass
    · exact absurd (mem_resolveRules_emitted.mpr ⟨rule, hrule, herror⟩) (h d)
  · obtain ⟨rule, hrule, herror⟩ := mem_resolveRules_emitted.mp hd
    obtain ⟨-, path, -, hok⟩ | ⟨hfail, -⟩ := resolveDeny_cases limits origins rule
    · rw [herror] at hok
      cases hok
    · rw [h rule hrule] at hfail
      cases hfail
  · obtain ⟨hpass, -⟩ | ⟨-, d, herror, -⟩ := resolveRedirect_cases limits origins rule
    · exact hpass
    · exact absurd (mem_resolveRules_emitted.mpr ⟨rule, hrule, herror⟩) (h d)
  · obtain ⟨rule, hrule, herror⟩ := mem_resolveRules_emitted.mp hd
    obtain ⟨-, source, target, -, -, hok⟩ | ⟨hfail, -⟩ := resolveRedirect_cases limits origins rule
    · rw [herror] at hok
      cases hok
    · rw [h rule hrule] at hfail
      cases hfail

theorem redirectErrors_severity {app : AppRules} {d : Diagnostic} (h : d ∈ redirectErrors limits origins app) :
    d.severity = .error := by
  rw [redirectErrors, List.mem_append, List.mem_append] at h
  rcases h with (h | h) | h
  · exact (redirectConflicts_kind h).1
  · exact (cycleDiagnostics_allOf limits origins _ d h).1
  · exact (pickerDiagnostics_allOf limits app.filePicker _ d h).1

/-! ## The rules of a resolved app -/

section Resolved
variable (limits : RulesLimits) (origins : OriginMap) (app : AppRules)

theorem sorted_redirects : (resolveApp limits origins app).1.redirects.Pairwise
    fun a b => redirectSortKey a ≤ redirectSortKey b := by
  rw [resolveApp_redirects]
  exact (pairwise_sortOn _ _).sublist (keepUncovered_sublist _ _)

theorem sorted_sources : (resolveApp limits origins app).1.redirects.Pairwise
    fun a b => a.source.bytes ≤ b.source.bytes :=
  (sorted_redirects limits origins app).imp fun h => Prod.Lex.monotone_fst _ _ h

theorem sorted_denyKeys : (resolveApp limits origins app).1.deny.Pairwise
    fun a b => denySortKey a ≤ denySortKey b := by
  rw [resolveApp_deny]
  exact (pairwise_sortOn _ _).sublist (keepUncovered_sublist _ _)

theorem sorted_deny : (resolveApp limits origins app).1.deny.Pairwise
    fun a b => a.path.bytes ≤ b.path.bytes :=
  (sorted_denyKeys limits origins app).imp fun h => Prod.Lex.monotone_fst _ _ h

theorem isChain_deny : (resolveApp limits origins app).1.deny.IsChain
    fun a b => ¬ IsWithin slash a.path.bytes b.path.bytes := by
  rw [resolveApp_deny]
  exact (isChain_keepUncovered_none _).imp fun _ _ h => isSameOrAncestor_eq_false_iff.mp h

theorem redirect_of_mem {rule : ResolvedRedirectRule} (h : rule ∈ (resolveApp limits origins app).1.redirects) :
    ∃ original ∈ app.redirects, passesRedirect limits original = true ∧
      normalizeRulePath limits original.source = some rule.source ∧
      normalizeRulePath limits original.target = some rule.target := by
  rw [resolveApp_redirects] at h
  obtain ⟨original, horiginal, hresolve⟩ := mem_resolveRules.mp (mem_sortOn.mp ((keepUncovered_sublist _ _).subset h))
  exact ⟨original, horiginal, resolveRedirect_ok hresolve⟩

theorem mem_of_redirect {original : RedirectRule} (horiginal : original ∈ app.redirects)
    (hpass : passesRedirect limits original = true) :
    ∃ rule ∈ (resolveApp limits origins app).1.redirects,
      rule.source.bytes = original.source ∧ rule.target.bytes = original.target := by
  obtain ⟨-, source, target, hsource, htarget, hok⟩ | ⟨hfail, -⟩ := resolveRedirect_cases limits origins original
  · rw [resolveApp_redirects]
    obtain ⟨kept, hkept, hsame⟩ := exists_mem_covers sameRule (by simp [sameRule, samePath])
      (mem_sortOn.mpr (mem_resolveRules.mpr ⟨original, horiginal, hok⟩) :
        (⟨original.id, source, target⟩ : ResolvedRedirectRule) ∈ sortOn redirectSortKey _)
    rw [sameRule, Bool.and_eq_true, samePath, samePath, beq_iff_eq, beq_iff_eq] at hsame
    refine ⟨kept, hkept, ?_, ?_⟩
    · rw [hsame.1, normalizeRulePath_bytes hsource]
    · rw [hsame.2, normalizeRulePath_bytes htarget]
  · rw [hpass] at hfail
    cases hfail

theorem deny_of_mem {rule : ResolvedDenyRule} (h : rule ∈ (resolveApp limits origins app).1.deny) :
    ∃ original ∈ app.deny, passesDeny limits original = true ∧
      normalizeRulePath limits original.path = some rule.path := by
  rw [resolveApp_deny] at h
  obtain ⟨original, horiginal, hresolve⟩ := mem_resolveRules.mp (mem_sortOn.mp ((keepUncovered_sublist _ _).subset h))
  exact ⟨original, horiginal, resolveDeny_ok hresolve⟩

/-- Every deny rule that passes is covered by one that is kept. -/
theorem covered_of_deny {original : DenyRule} (horiginal : original ∈ app.deny)
    (hpass : passesDeny limits original = true) :
    ∃ rule ∈ (resolveApp limits origins app).1.deny, IsWithin slash rule.path.bytes original.path := by
  obtain ⟨-, path, hpath, hok⟩ | ⟨hfail, -⟩ := resolveDeny_cases limits origins original
  · rw [resolveApp_deny]
    obtain ⟨kept, hkept, hcovers⟩ := exists_mem_covers coversRule (fun a => isSameOrAncestor_self a.path)
      (mem_sortOn.mpr (mem_resolveRules.mpr ⟨original, horiginal, hok⟩) :
        (⟨original.id, path⟩ : ResolvedDenyRule) ∈ sortOn denySortKey _)
    refine ⟨kept, hkept, ?_⟩
    have := isSameOrAncestor_iff.mp hcovers
    rwa [normalizeRulePath_bytes hpath] at this
  · rw [hpass] at hfail
    cases hfail

/-! ## The canonical app -/

def canonicalRedirect (rule : ResolvedRedirectRule) : CanonicalRedirectRule := ⟨rule.source, rule.target⟩

theorem canonicalRedirectKey_le {a b : ResolvedRedirectRule} (h : redirectSortKey a ≤ redirectSortKey b) :
    canonicalRedirectKey (canonicalRedirect a) ≤ canonicalRedirectKey (canonicalRedirect b) := by
  rw [redirectSortKey, redirectSortKey, Prod.Lex.toLex_le_toLex] at h
  rw [canonicalRedirectKey, canonicalRedirectKey, Prod.Lex.toLex_le_toLex]
  exact h.imp_right fun h => ⟨h.1, Prod.Lex.monotone_fst _ _ h.2⟩

theorem canonicalApp_redirects : (canonicalApp (resolveApp limits origins app).1).redirects =
    (resolveApp limits origins app).1.redirects.map canonicalRedirect :=
  sortOn_of_pairwise (List.pairwise_map.mpr ((sorted_redirects limits origins app).imp canonicalRedirectKey_le))

theorem canonicalApp_deny : (canonicalApp (resolveApp limits origins app).1).deny =
    (resolveApp limits origins app).1.deny.map ResolvedDenyRule.path :=
  sortOn_of_pairwise (List.pairwise_map.mpr (sorted_deny limits origins app))

end Resolved

end PathGuard.Rules

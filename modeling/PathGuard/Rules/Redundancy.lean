import Mathlib.Data.List.Dedup
import PathGuard.Rules.Acceptance
import PathGuard.Rules.DenyFolding

/-!
# Redundant rules and refused ones

What the semantic phase warns of and what it refuses, said of the rules of an app as the source has them.

* `redundantRedirects`, `redundantDeny` : how many rules of an app another one makes redundant, each of them a warning;
* `HasInvalidPath`, `HasRedirectError`, `HasDenyConflict` : what `CompileRules`, `ValidateRedirects` and `ValidateDeny`
  refuse in an app, in the order in which they look;
* `RoomForErrors` : whatever is refused comes before the redundant rules fill the list of diagnostics;
* `ErrorBehind` : what is refused is an error behind as many warnings as there are redundant rules before it.
-/

namespace PathGuard.Rules

variable {limits : RulesLimits} {origins : OriginMap} {app : AppRules} {document : RulesDocument}

/-! ## Redundant rules -/

/-- The redirects whose paths pass, from source to target. -/
def passingRedirects (limits : RulesLimits) (app : AppRules) : List (Bytes × Bytes) :=
  (app.redirects.filter (passesRedirect limits)).map fun rule => (rule.source, rule.target)

def passingDeny (limits : RulesLimits) (app : AppRules) : List Bytes :=
  (app.deny.filter (passesDeny limits)).map DenyRule.path

/-- A path before it in byte order is above it, and above every path between the two. -/
def IsFolded (deny : List Bytes) (path : Bytes) : Prop :=
  ∃ a ∈ deny, a < path ∧ ∀ b ∈ deny, a ≤ b → b ≤ path → IsWithin slash a b

instance (deny : List Bytes) (path : Bytes) : Decidable (IsFolded deny path) :=
  inferInstanceAs (Decidable (∃ a ∈ deny, a < path ∧ ∀ b ∈ deny, a ≤ b → b ≤ path → IsWithin slash a b))

def unfoldedDeny (limits : RulesLimits) (app : AppRules) : List Bytes :=
  (passingDeny limits app).dedup.filter fun path => ¬ IsFolded (passingDeny limits app) path

/-- The redirects that say what another one says. -/
def redundantRedirects (limits : RulesLimits) (app : AppRules) : Nat :=
  (passingRedirects limits app).length - (passingRedirects limits app).dedup.length

/-- The deny rules that another one makes redundant. -/
def redundantDeny (limits : RulesLimits) (app : AppRules) : Nat :=
  (passingDeny limits app).length - (unfoldedDeny limits app).length

def redundantRules (limits : RulesLimits) (apps : List AppRules) : Nat :=
  (apps.map fun app => redundantRedirects limits app + redundantDeny limits app).sum

/-! ## Refused rules -/

def HasInvalidPath (limits : RulesLimits) (app : AppRules) : Prop :=
  (∃ rule ∈ app.deny, passesDeny limits rule = false) ∨ ∃ rule ∈ app.redirects, passesRedirect limits rule = false

/-- Two redirects, one of them from a path at or above that of the other, and none from between. -/
def HasNeighbourConflict (limits : RulesLimits) (app : AppRules) : Prop :=
  ∃ a ∈ passingRedirects limits app, ∃ b ∈ passingRedirects limits app, a ≠ b ∧ IsWithin slash a.1 b.1 ∧
    ∀ c ∈ passingRedirects limits app, ¬ (a.1 < c.1 ∧ c.1 < b.1)

/-- What `ValidateRedirects` refuses. -/
def HasRedirectError (limits : RulesLimits) (app : AppRules) : Prop :=
  (∃ rule ∈ passingRedirects limits app, IsWithin slash rule.1 rule.2 ∨ IsWithin slash rule.2 rule.1) ∨
    HasNeighbourConflict limits app ∨ HasCycle (passingRedirects limits app) ∨
      app.filePicker = true ∧ passingRedirects limits app = []

/-- A redirect from a path at or below an unfolded deny path, and no unfolded one between the two. -/
def HasDenyConflict (limits : RulesLimits) (app : AppRules) : Prop :=
  ∃ rule ∈ passingRedirects limits app, ∃ deny ∈ unfoldedDeny limits app, IsWithin slash deny rule.1 ∧
    ∀ other ∈ unfoldedDeny limits app, ¬ (deny < other ∧ other < rule.1)

/-- What is refused in an app stands behind fewer redundant rules than the list of diagnostics takes. -/
structure RoomForErrors (limits : RulesLimits) (before : List AppRules) (app : AppRules) : Prop where
  paths : HasInvalidPath limits app → redundantRules limits before < limits.maxDiagnostics
  redirects : HasRedirectError limits app →
    redundantRules limits before + redundantRedirects limits app < limits.maxDiagnostics
  deny : HasDenyConflict limits app →
    redundantRules limits before + (redundantRedirects limits app + redundantDeny limits app) < limits.maxDiagnostics

/-! ## The rules that go on -/

theorem links_resolveRules (rules : List RedirectRule) :
    (resolveRules (resolveRedirect limits origins) rules).1.map link =
      (rules.filter (passesRedirect limits)).map fun rule => (rule.source, rule.target) := by
  induction rules with
  | nil => rfl
  | cons rule rules ih =>
      rw [resolveRules]
      obtain ⟨hpass, source, target, hsource, htarget, hok⟩ | ⟨hfail, d, herror, -⟩ :=
        resolveRedirect_cases limits origins rule
      · simp only [hok, List.map_cons, List.filter_cons_of_pos hpass, ih, link, normalizeRulePath_bytes hsource,
          normalizeRulePath_bytes htarget]
      · have hnot : ¬ passesRedirect limits rule = true := by simp [hfail]
        simp only [herror, List.filter_cons_of_neg hnot, ih]

theorem paths_resolveRules (rules : List DenyRule) :
    (resolveRules (resolveDeny limits origins) rules).1.map (fun rule => rule.path.bytes) =
      (rules.filter (passesDeny limits)).map DenyRule.path := by
  induction rules with
  | nil => rfl
  | cons rule rules ih =>
      rw [resolveRules]
      obtain ⟨hpass, path, hpath, hok⟩ | ⟨hfail, d, herror, -⟩ := resolveDeny_cases limits origins rule
      · simp only [hok, List.map_cons, List.filter_cons_of_pos hpass, ih, normalizeRulePath_bytes hpath]
      · have hnot : ¬ passesDeny limits rule = true := by simp [hfail]
        simp only [herror, List.filter_cons_of_neg hnot, ih]

section Resolved
variable (limits : RulesLimits) (origins : OriginMap) (app : AppRules)

theorem lt_links : (resolveApp limits origins app).1.redirects.Pairwise fun a b => toLex (link a) < toLex (link b) := by
  have hsame : ∀ a b : ResolvedRedirectRule, decide (toLex (link a) = toLex (link b)) = sameRule a b := by
    intro a b
    rw [Bool.eq_iff_iff, decide_eq_true_iff, sameRule, Bool.and_eq_true, samePath, samePath, beq_iff_eq, beq_iff_eq]
    exact ⟨fun h => ⟨congrArg Prod.fst h, congrArg Prod.snd h⟩, fun h => Prod.ext h.1 h.2⟩
  let rules := sortOn redirectSortKey (resolveRules (resolveRedirect limits origins) app.redirects).1
  have hsorted : (rules.map fun rule => toLex (link rule)).Pairwise (· ≤ ·) :=
    List.pairwise_map.mpr ((pairwise_sortOn redirectSortKey _).imp fun {a b} h => canonicalRedirectKey_le h)
  have hkept := @keepUncovered_map _ sameRule _ (fun a b => decide (a = b)) (fun rule => toLex (link rule)) hsame none rules
  have hlt := @pairwise_lt_keepUncovered _ _ (fun a b => decide (a = b)) (fun a => decide_eq_true rfl) none _ hsorted
  rw [resolveApp_redirects]
  refine List.pairwise_map.mp ?_
  rw [← hkept]
  exact hlt

theorem mem_links {pair : Bytes × Bytes} :
    pair ∈ (resolveApp limits origins app).1.redirects.map link ↔ pair ∈ passingRedirects limits app := by
  simp only [passingRedirects, List.mem_map, List.mem_filter]
  constructor
  · rintro ⟨rule, hrule, rfl⟩
    obtain ⟨original, horiginal, hpass, hsource, htarget⟩ := redirect_of_mem limits origins app hrule
    exact ⟨original, ⟨horiginal, hpass⟩, Prod.ext (normalizeRulePath_bytes hsource).symm
      (normalizeRulePath_bytes htarget).symm⟩
  · rintro ⟨original, ⟨horiginal, hpass⟩, rfl⟩
    obtain ⟨rule, hrule, hsource, htarget⟩ := mem_of_redirect limits origins app horiginal hpass
    exact ⟨rule, hrule, Prod.ext hsource htarget⟩

theorem links_perm : ((resolveApp limits origins app).1.redirects.map link).Perm (passingRedirects limits app).dedup := by
  have hnodup : ((resolveApp limits origins app).1.redirects.map link).Nodup :=
    List.pairwise_map.mpr ((lt_links limits origins app).imp fun h heq => h.ne (congrArg toLex heq))
  refine (List.perm_ext_iff_of_nodup hnodup (List.nodup_dedup _)).mpr fun pair => ?_
  rw [mem_links, List.mem_dedup]

theorem denyPaths_eq : (resolveApp limits origins app).1.deny.map (fun rule => rule.path.bytes) =
    keptPaths ((sortOn denySortKey (resolveRules (resolveDeny limits origins) app.deny).1).map
      fun rule => rule.path.bytes) := by
  rw [resolveApp_deny, map_keepUncovered_coversRule]

theorem mem_denyPaths {path : Bytes} :
    path ∈ (resolveApp limits origins app).1.deny.map (fun rule => rule.path.bytes) ↔ path ∈ unfoldedDeny limits app := by
  have hmem : ∀ p, p ∈ (sortOn denySortKey (resolveRules (resolveDeny limits origins) app.deny).1).map
      (fun rule => rule.path.bytes) ↔ p ∈ passingDeny limits app := by
    intro p
    rw [passingDeny, ← @paths_resolveRules limits origins]
    simp only [List.mem_map, mem_sortOn]
  rw [denyPaths_eq, keptPaths, mem_keepUncovered_iff isWithinBool_refl isWithinBool_trans (sorted_bytes _)]
  rw [unfoldedDeny, List.mem_filter, List.mem_dedup, decide_eq_true_iff]
  simp only [IsFolded, isWithinBool, decide_eq_true_eq, hmem]

theorem denyPaths_perm :
    ((resolveApp limits origins app).1.deny.map fun rule => rule.path.bytes).Perm (unfoldedDeny limits app) := by
  have hlt : ((resolveApp limits origins app).1.deny.map fun rule => rule.path.bytes).Pairwise (· < ·) := by
    rw [denyPaths_eq]
    exact @pairwise_lt_keepUncovered _ _ _ isWithinBool_refl none _ (sorted_bytes _)
  refine (List.perm_ext_iff_of_nodup (hlt.imp ne_of_lt) ((List.nodup_dedup _).filter _)).mpr fun path => ?_
  exact mem_denyPaths limits origins app

/-! ## How many warnings there are -/

theorem length_repeatedWarnings : (repeatedWarnings limits origins app).length = redundantRedirects limits app := by
  have hlength := @length_keepUncovered_add _ sameRule none
    (sortOn redirectSortKey (resolveRules (resolveRedirect limits origins) app.redirects).1)
  have hkept := (links_perm limits origins app).length_eq
  have hpassing := congrArg List.length (@links_resolveRules limits origins app.redirects)
  rw [List.length_map, resolveApp_redirects] at hkept
  rw [List.length_map, ← passingRedirects] at hpassing
  rw [repeatedWarnings, uniqueRedirects_eq, List.length_map, redundantRedirects, ← hkept, ← hpassing,
    ← length_sortOn redirectSortKey (resolveRules (resolveRedirect limits origins) app.redirects).1, ← hlength,
    Nat.add_sub_cancel_left]

theorem length_foldedWarnings : (foldedWarnings limits origins app).length = redundantDeny limits app := by
  have hlength := @length_keepUncovered_add _ coversRule none
    (sortOn denySortKey (resolveRules (resolveDeny limits origins) app.deny).1)
  have hkept := (denyPaths_perm limits origins app).length_eq
  have hpassing := congrArg List.length (@paths_resolveRules limits origins app.deny)
  rw [List.length_map, resolveApp_deny] at hkept
  rw [List.length_map, ← passingDeny] at hpassing
  rw [foldedWarnings, foldDeny_eq, List.length_map, redundantDeny, ← hkept, ← hpassing,
    ← length_sortOn denySortKey (resolveRules (resolveDeny limits origins) app.deny).1, ← hlength,
    Nat.add_sub_cancel_left]

/-! ## What each check refuses -/

theorem pathsOverlap_of_le {a b : NormalizedPath} (h : a.bytes ≤ b.bytes) :
    pathsOverlap a b = true ↔ IsWithin slash a.bytes b.bytes := by
  rw [pathsOverlap_iff]
  refine ⟨fun hoverlap => hoverlap.elim id fun hba => ?_, Or.inl⟩
  rw [le_antisymm h hba.le]
  exact IsWithin.refl slash _

/-- Neighbours that do not overlap have sources in strictly increasing order. -/
theorem lt_sources_of_isChain
    (h : (resolveApp limits origins app).1.redirects.IsChain fun a b => pathsOverlap a.source b.source = false) :
    (resolveApp limits origins app).1.redirects.Pairwise fun a b => a.source.bytes < b.source.bytes := by
  have hsorted := sorted_sources limits origins app
  let below := fun a b : ResolvedRedirectRule => a.source.bytes < b.source.bytes
  have hlt : (resolveApp limits origins app).1.redirects.IsChain below := by
    rw [List.isChain_iff_getElem] at h ⊢
    intro i hi
    refine lt_of_le_of_ne (List.pairwise_iff_getElem.mp hsorted i (i + 1) (by omega) hi (by omega)) fun heq => ?_
    have hoverlap := (pathsOverlap_of_le heq.le).mpr (heq ▸ IsWithin.refl slash _)
    rw [h i hi] at hoverlap
    cases hoverlap
  have htrans : Trans below below below := ⟨lt_trans⟩
  exact List.IsChain.pairwise (R := below) hlt

/-- The neighbours overlap exactly when one redirect starts at or above another and none starts between. -/
theorem hasNeighbourConflict_iff : HasNeighbourConflict limits app ↔
    ¬ (resolveApp limits origins app).1.redirects.IsChain fun a b => pathsOverlap a.source b.source = false := by
  constructor
  · rintro ⟨a, ha, b, hb, hne, hwithin, hnone⟩ hchain
    have hlt := lt_sources_of_isChain limits origins app hchain
    rw [← mem_links limits origins app] at ha hb
    obtain ⟨a, hmem, rfl⟩ := List.mem_map.mp ha
    obtain ⟨b, hmem', rfl⟩ := List.mem_map.mp hb
    have hnodup : ((resolveApp limits origins app).1.redirects.map fun rule => rule.source.bytes).Nodup :=
      List.pairwise_map.mpr (hlt.imp ne_of_lt)
    have hstart : a.source.bytes < b.source.bytes := lt_of_le_of_ne hwithin.le fun heq =>
      hne (congrArg link (List.inj_on_of_nodup_map hnodup hmem hmem' heq))
    obtain ⟨front, back, heq⟩ := exists_neighbours hlt hmem hmem' hstart fun c hc =>
      hnone (link c) ((mem_links limits origins app).mp (List.mem_map_of_mem hc))
    rw [heq] at hchain
    have hapart := (List.isChain_append_cons_cons.mp hchain).2.1
    rw [Bool.eq_false_iff, ne_eq, pathsOverlap_of_le hwithin.le] at hapart
    exact hapart hwithin
  · intro hchain
    rw [List.isChain_iff_forall_rel_of_append_cons_cons] at hchain
    push Not at hchain
    obtain ⟨a, b, front, back, heq, hoverlap⟩ := hchain
    have hsorted := sorted_sources limits origins app
    have hlinks := lt_links limits origins app
    rw [heq] at hsorted hlinks
    have hmem : ∀ rule ∈ front ++ a :: b :: back, link rule ∈ passingRedirects limits app := by
      intro rule hrule
      rw [← mem_links limits origins app, heq]
      exact List.mem_map_of_mem hrule
    have hnext : ∀ {relation : ResolvedRedirectRule → ResolvedRedirectRule → Prop},
        (front ++ a :: b :: back).Pairwise relation → relation a b := fun h =>
      (List.pairwise_cons.mp (List.pairwise_append.mp h).2.1).1 b List.mem_cons_self
    refine ⟨link a, hmem a (by simp), link b, hmem b (by simp),
      fun hsame => (hnext hlinks).ne (congrArg toLex hsame),
      (pathsOverlap_of_le (hnext hsorted)).mp (Bool.eq_true_of_not_eq_false hoverlap), fun c hc => ?_⟩
    rw [← mem_links limits origins app] at hc
    obtain ⟨c, hkept, rfl⟩ := List.mem_map.mp hc
    rw [heq] at hkept
    exact @not_between_neighbours _ _ _ (fun rule => rule.source.bytes) _ _ _ _ _ hsorted hkept

theorem hasRedirectError_iff : HasRedirectError limits app ↔ redirectErrors limits origins app ≠ [] := by
  have hoverlap : (∃ rule ∈ passingRedirects limits app, IsWithin slash rule.1 rule.2 ∨ IsWithin slash rule.2 rule.1) ↔
      ¬ ∀ rule ∈ (resolveApp limits origins app).1.redirects, pathsOverlap rule.source rule.target = false := by
    simp only [← mem_links limits origins app, List.mem_map, link, exists_exists_and_eq_and]
    push Not
    simp only [ne_eq, Bool.not_eq_false, pathsOverlap_iff]
  have hcycle : HasCycle (passingRedirects limits app) ↔ HasCycle ((resolveApp limits origins app).1.redirects.map link) :=
    ⟨HasCycle.congr fun p => (mem_links limits origins app).symm, HasCycle.congr fun p => mem_links limits origins app⟩
  have hempty : passingRedirects limits app = [] ↔ (resolveApp limits origins app).1.redirects = [] := by
    rw [← List.map_eq_nil_iff (f := link), List.eq_nil_iff_forall_not_mem, List.eq_nil_iff_forall_not_mem]
    simp only [mem_links]
  rw [HasRedirectError, hoverlap, hasNeighbourConflict_iff limits origins, hcycle, hempty, redirectErrors, ne_eq,
    List.append_eq_nil_iff, List.append_eq_nil_iff, redirectConflicts_eq_nil, Option.toList_none, List.nil_append,
    cycleDiagnostics_eq_nil, pickerDiagnostics_eq_nil]
  by_cases hchain : (resolveApp limits origins app).1.redirects.IsChain fun a b => pathsOverlap a.source b.source = false
  · have hdistinct : DistinctSources (resolveApp limits origins app).1.redirects :=
      (lt_sources_of_isChain limits origins app hchain).imp fun h => ne_of_lt h
    rw [redirectCycle_eq_none_iff hdistinct]
    tauto
  · tauto

/-- The deny rule looked at is an ancestor that no unfolded one separates from the source. -/
theorem denyConflict_ne_none_iff {source : NormalizedPath} :
    denyConflict (resolveApp limits origins app).1.deny source ≠ none ↔
      ∃ deny ∈ unfoldedDeny limits app, IsWithin slash deny source.bytes ∧
        ∀ other ∈ unfoldedDeny limits app, ¬ (deny < other ∧ other < source.bytes) := by
  simp only [← mem_denyPaths limits origins app, List.mem_map]
  constructor
  · intro hsome
    obtain ⟨conflict, hconflict⟩ := Option.ne_none_iff_exists'.mp hsome
    obtain ⟨hmem, hwithin⟩ := denyConflict_mem hconflict
    refine ⟨_, ⟨conflict, hmem, rfl⟩, hwithin, ?_⟩
    rintro _ ⟨other, hother, rfl⟩ ⟨hlow, hhigh⟩
    exact denyConflict_last (sorted_deny limits origins app) hconflict hother hlow hhigh
  · rintro ⟨_, ⟨rule, hrule, rfl⟩, hwithin, hnone⟩
    refine denyConflict_ne_none (sorted_deny limits origins app) (isChain_deny limits origins app) hrule hwithin ?_
    intro b hb hinterposed
    obtain ⟨hab, hbc, hnot⟩ := interposed_between hinterposed
    refine hnone _ ⟨b, hb, rfl⟩ ⟨lt_of_le_of_ne hab fun heq => hnot ?_, lt_of_le_of_ne hbc fun heq => hnot ?_⟩
    · rw [← heq]
      exact IsWithin.refl slash _
    · rwa [heq]

theorem hasDenyConflict_iff : HasDenyConflict limits app ↔ denyErrors limits origins app ≠ [] := by
  rw [ne_eq, denyErrors, denyConflicts_eq_nil]
  push Not
  simp only [denyConflict_ne_none_iff, HasDenyConflict, ← mem_links limits origins app, List.mem_map, link,
    exists_exists_and_eq_and]

theorem hasInvalidPath_iff : HasInvalidPath limits app ↔ pathErrors limits origins app ≠ [] := by
  rw [ne_eq, pathErrors_eq_nil, not_and_or]
  push Not
  simp only [ne_eq, Bool.not_eq_true, HasInvalidPath]

end Resolved

/-! ## What comes before an error -/

@[simp] theorem warningCount_append (front back : List Diagnostic) :
    warningCount (front ++ back) = warningCount front + warningCount back :=
  List.countP_append

theorem warningCount_of_errors {l : List Diagnostic} (h : ∀ d ∈ l, d.severity = .error) : warningCount l = 0 := by
  refine List.countP_eq_zero.mpr fun d hd => ?_
  rw [decide_eq_true_iff, h d hd]
  decide

theorem warningCount_of_warnings {key : String} {l : List Diagnostic} (h : AllOf .warning key l) :
    warningCount l = l.length :=
  List.countP_eq_length.mpr fun d hd => decide_eq_true (h d hd).1

/-- An error of the list has this many warnings before it. -/
def ErrorBehind (emitted : List Diagnostic) (warnings : Nat) : Prop :=
  ∃ front d back, emitted = front ++ d :: back ∧ d.severity = .error ∧ warningCount front = warnings

theorem ErrorBehind.append {emitted : List Diagnostic} {warnings : Nat} (h : ErrorBehind emitted warnings)
    (front back : List Diagnostic) : ErrorBehind (front ++ (emitted ++ back)) (warningCount front + warnings) := by
  obtain ⟨ahead, d, rest, rfl, herror, rfl⟩ := h
  exact ⟨front ++ ahead, d, rest ++ back, by simp, herror, warningCount_append front ahead⟩

theorem errorBehind_of_ne_nil {errors : List Diagnostic} (hne : errors ≠ []) (h : ∀ d ∈ errors, d.severity = .error) :
    ErrorBehind errors 0 := by
  obtain ⟨d, rest, rfl⟩ := List.exists_cons_of_ne_nil hne
  exact ⟨[], d, rest, rfl, h d List.mem_cons_self, rfl⟩

section Stages
variable (limits : RulesLimits) (origins : OriginMap) (app : AppRules)

theorem warningCount_repeatedWarnings :
    warningCount (repeatedWarnings limits origins app) = redundantRedirects limits app :=
  (warningCount_of_warnings (uniqueRedirects_allOf none _)).trans (length_repeatedWarnings limits origins app)

theorem warningCount_foldedWarnings :
    warningCount (foldedWarnings limits origins app) = redundantDeny limits app :=
  (warningCount_of_warnings (foldDeny_allOf none _)).trans (length_foldedWarnings limits origins app)

theorem warningCount_pathErrors : warningCount (pathErrors limits origins app) = 0 :=
  warningCount_of_errors fun _ hd => pathErrors_severity hd

theorem warningCount_redirectErrors : warningCount (redirectErrors limits origins app) = 0 :=
  warningCount_of_errors fun _ hd => redirectErrors_severity hd

theorem warningCount_denyErrors : warningCount (denyErrors limits origins app) = 0 :=
  warningCount_of_errors fun d hd => (denyConflicts_allOf limits origins _ _ d hd).1

theorem warningCount_emitted :
    warningCount (resolveApp limits origins app).2 = redundantRedirects limits app + redundantDeny limits app := by
  simp only [emitted_eq, warningCount_append, warningCount_pathErrors, warningCount_repeatedWarnings,
    warningCount_redirectErrors, warningCount_foldedWarnings, warningCount_denyErrors]
  omega

end Stages

theorem HasInvalidPath.errorBehind (origins : OriginMap) (h : HasInvalidPath limits app) :
    ErrorBehind (resolveApp limits origins app).2 0 := by
  rw [emitted_eq]
  exact (errorBehind_of_ne_nil ((hasInvalidPath_iff limits origins app).mp h)
    fun _ hd => pathErrors_severity hd).append [] _

theorem HasRedirectError.errorBehind (origins : OriginMap) (h : HasRedirectError limits app) :
    ErrorBehind (resolveApp limits origins app).2 (redundantRedirects limits app) := by
  have hbehind := (errorBehind_of_ne_nil ((hasRedirectError_iff limits origins app).mp h) fun _ hd =>
    redirectErrors_severity hd).append (pathErrors limits origins app ++ repeatedWarnings limits origins app)
      (foldedWarnings limits origins app ++ denyErrors limits origins app)
  rw [warningCount_append, warningCount_pathErrors, warningCount_repeatedWarnings, Nat.zero_add, Nat.add_zero,
    List.append_assoc, ← emitted_eq] at hbehind
  exact hbehind

theorem HasDenyConflict.errorBehind (origins : OriginMap) (h : HasDenyConflict limits app) :
    ErrorBehind (resolveApp limits origins app).2 (redundantRedirects limits app + redundantDeny limits app) := by
  have hbehind := (errorBehind_of_ne_nil ((hasDenyConflict_iff limits origins app).mp h) fun d hd =>
    (denyConflicts_allOf limits origins _ _ d hd).1).append (pathErrors limits origins app ++
      (repeatedWarnings limits origins app ++ (redirectErrors limits origins app ++ foldedWarnings limits origins app))) []
  simp only [warningCount_append, warningCount_pathErrors, warningCount_repeatedWarnings, warningCount_redirectErrors,
    warningCount_foldedWarnings, Nat.zero_add, Nat.add_zero, List.append_assoc, List.append_nil, ← emitted_eq] at hbehind
  exact hbehind

/-! ## Accepted documents -/

theorem warningCount_emissions (origins : OriginMap) (apps : List AppRules) :
    warningCount (emissions limits origins apps) = redundantRules limits apps := by
  induction apps with
  | nil => rfl
  | cons app apps ih =>
      rw [emissions, List.flatMap_cons, warningCount_append, warningCount_emitted, ← emissions, ih, redundantRules,
        redundantRules, List.map_cons, List.sum_cons]

/-- In an accepted document an app that is refused has a full list of redundant rules before what is refused. -/
theorem Accepted.behind {parsed : RulesCompileResult} {result : RulesBuildResult}
    (h : Accepted limits parsed document result) {before after : List AppRules} {ahead : Nat}
    (happs : document.apps = before ++ app :: after)
    (hbehind : ErrorBehind (resolveApp limits parsed.origins app).2 ahead) :
    limits.maxDiagnostics ≤ redundantRules limits before + ahead := by
  obtain ⟨front, d, back, hemitted, herror, hahead⟩ :=
    hbehind.append (emissions limits parsed.origins before) (emissions limits parsed.origins after)
  rw [warningCount_emissions] at hahead
  have hsplit : emissions limits parsed.origins document.apps = front ++ d :: back := by
    rw [← hemitted, happs, emissions, List.flatMap_append, List.flatMap_cons]
    exact rfl
  exact hahead ▸ h.error_behind hsplit herror

/-- **The cap.** A check passes on the apps of an accepted document exactly when what it refuses in an app has fewer
redundant rules before it than the list of diagnostics takes. -/
theorem Accepted.none_iff {parsed : RulesCompileResult} {result : RulesBuildResult}
    (h : Accepted limits parsed document result) {P : AppRules → Prop} {ahead : AppRules → Nat}
    (hbehind : ∀ app, P app → ErrorBehind (resolveApp limits parsed.origins app).2 (ahead app)) :
    (∀ app ∈ document.apps, ¬ P app) ↔ ∀ before app after, document.apps = before ++ app :: after → P app →
      redundantRules limits before + ahead app < limits.maxDiagnostics := by
  constructor
  · intro hnone before app after happs hP
    exact absurd hP (hnone app (by simp [happs]))
  · intro hroom app happ hP
    obtain ⟨before, after, happs⟩ := List.append_of_mem happ
    exact absurd (h.behind happs (hbehind app hP)) (not_le.mpr (hroom before app after happs hP))

end PathGuard.Rules

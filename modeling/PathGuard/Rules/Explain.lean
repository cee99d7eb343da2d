import Mathlib.Data.List.MinMax
import PathGuard.Rules.DenyFolding
import PathGuard.Rules.OrderIndependence
import PathGuard.Rules.RuleIdentity
import PathGuard.Rules.Tools

/-!
# What a path is told

`rules/src/tools.cpp`, `ExplainPath`: the rule a path falls under, and the ones it hides. It looks at the resolved
policy, what is deployed is the canonical one, and the resolved one has the disabled apps too.

* `explainPath` : the rule and what it hides; `deployedMatches` : what is deployed for the path;
* `explainPath_resolvedPolicy` : what it says about the app it finds;
* `explainPath_agrees_iff` : when the two agree.
-/

namespace PathGuard.Rules

/-! ## ExplainPath -/

structure PathExplanation where
  package : Bytes := []
  query : Bytes := []
  action : Option PolicyRuleKind := none
  source : Option Bytes := none
  target : Option Bytes := none
  shadowedParents : List Bytes := []
  deriving DecidableEq, Repr

structure Match where
  action : PolicyRuleKind
  source : NormalizedPath
  target : Option NormalizedPath
  deriving DecidableEq, Repr

/-- What `std::tie` compares two matches by. -/
def Match.sortKey (rule : Match) : Bytes ×ₗ PolicyRuleKind := toLex (rule.source.bytes, rule.action)

/-- Both loops over the rules of the app. -/
def matchesOf (app : ResolvedAppPolicy) (query : NormalizedPath) : List Match :=
  ((app.deny.filter fun deny => isSameOrAncestor deny.path query).map fun deny => ⟨.deny, deny.path, none⟩) ++
    (app.redirects.filter fun redirect => isSameOrAncestor redirect.source query).map fun redirect =>
      ⟨.redirect, redirect.source, some redirect.target⟩

/-- `std::max_element` with the lengths: the first of the longest. -/
def longestMatch (rules : List Match) : Option Match := rules.argmax fun rule => rule.source.bytes.length

/-- The rest of the function, from the sorted matches on. The longest match is the first that equals it, so it is the
one that `erase` leaves out. -/
def describeMatches (output : PathExplanation) (rules : List Match) : PathExplanation :=
  match longestMatch rules with
  | none => output
  | some longest => { output with
      action := some longest.action
      source := some longest.source.bytes
      target := longest.target.map NormalizedPath.bytes
      shadowedParents := sortOn id ((rules.erase longest).map fun rule => rule.source.bytes) }

def explainPath (limits : RulesLimits) (policy : ResolvedPolicy) (package path : Bytes) : PathExplanation :=
  let output : PathExplanation := { package := package, query := path }
  match normalizeRulePath limits path with
  | none => output
  | some query =>
      match policy.apps.find? fun app => app.package == package with
      | none => output
      | some app => describeMatches output (sortOn Match.sortKey (matchesOf app query))

/-! ## What is deployed -/

/-- The rules of an app, each with its visible path. -/
def CanonicalAppPolicy.rules (app : CanonicalAppPolicy) : List Match :=
  app.deny.map (fun path => ⟨.deny, path, none⟩) ++
    app.redirects.map fun redirect => ⟨.redirect, redirect.source, some redirect.target⟩

/-- The rules of the package whose visible path is the query or one of the directories above it, by components. -/
def deployedMatches (policy : CanonicalPolicy) (package query : Bytes) : List Match :=
  ((policy.apps.filter fun app => app.package == package).flatMap CanonicalAppPolicy.rules).filter fun rule =>
    Encloses rule.source.bytes query

/-- The number of components of the visible path. -/
def Match.depth (rule : Match) : Nat := (visitedComponents rule.source.bytes).length

/-- The explanation is about the rules that are deployed. -/
structure AgreesWith (policy : CanonicalPolicy) (package query : Bytes) (explanation : PathExplanation) : Prop where
  reported : explanation.action.isSome = true ↔ deployedMatches policy package query ≠ []
  deepest : ∀ action ∈ explanation.action, ∃ rule ∈ deployedMatches policy package query, action = rule.action ∧
    explanation.source = some rule.source.bytes ∧ explanation.target = rule.target.map NormalizedPath.bytes ∧
    (∀ other ∈ deployedMatches policy package query, other ≠ rule → other.depth < rule.depth) ∧
    explanation.shadowedParents.Perm
      (((deployedMatches policy package query).erase rule).map fun other => other.source.bytes)
  silent : explanation.action = none → explanation = { package := package, query := query }

/-- A rule of the app, as it is written, passes the checks and has the query at or below its path. -/
def DeclaresMatch (limits : RulesLimits) (app : AppRules) (query : Bytes) : Prop :=
  (∃ rule ∈ app.deny, passesDeny limits rule = true ∧ IsWithin slash rule.path query) ∨
    ∃ rule ∈ app.redirects, passesRedirect limits rule = true ∧ IsWithin slash rule.source query

instance (limits : RulesLimits) (app : AppRules) (query : Bytes) : Decidable (DeclaresMatch limits app query) :=
  inferInstanceAs (Decidable (_ ∨ _))

/-- The longest match is described, and the others are what it hides. -/
theorem describeMatches_cases {rules : List Match} {output : PathExplanation} (hne : rules ≠ []) :
    ∃ longest ∈ rules, (∀ other ∈ rules, other.source.bytes.length ≤ longest.source.bytes.length) ∧
      describeMatches output rules = { output with
        action := some longest.action
        source := some longest.source.bytes
        target := longest.target.map NormalizedPath.bytes
        shadowedParents := sortOn id ((rules.erase longest).map fun rule => rule.source.bytes) } := by
  unfold describeMatches longestMatch
  cases hlongest : rules.argmax fun rule => rule.source.bytes.length with
  | none => exact absurd (List.argmax_eq_none.mp hlongest) hne
  | some longest =>
      refine ⟨longest, List.argmax_mem hlongest, fun other hother => ?_, rfl⟩
      exact @List.le_of_mem_argmax _ _ _ (fun rule : Match => rule.source.bytes.length) _ _ _ hother hlongest

/-! ## Bytes and components of a visible path -/

theorem not_slash_of_normalizeVisible {path : Bytes} (h : (normalizeVisible path).isSome = true) :
    path ≠ [] ∧ path.getLast? ≠ some slash := by
  obtain ⟨output, houtput⟩ := Option.isSome_iff_exists.mp h
  obtain ⟨rfl, -⟩ := normalizeVisible_some houtput
  unfold normalizeVisible at houtput
  split at houtput
  · cases houtput
  · have hparts := (normalizeLogicalPath_parts houtput).2
    have hempty : isPathPart [] ≠ true := by decide
    refine ⟨?_, fun hlast => ?_⟩
    · rintro rfl
      exact hempty (hparts [] (by rw [List.splitOn_nil]; exact List.mem_singleton_self _))
    · obtain ⟨front, rfl⟩ := List.getLast?_eq_some_iff.mp hlast
      refine hempty (hparts [] ?_)
      rw [List.splitOn_append_cons_self, List.splitOn_nil]
      exact List.mem_append_right _ (List.mem_singleton_self [])

theorem length_visitedComponents_lt {a b query : Bytes} (ha : a ≠ [] ∧ a.getLast? ≠ some slash)
    (hb : b ≠ [] ∧ b.getLast? ≠ some slash) (haq : Encloses a query) (hbq : Encloses b query) (hne : a ≠ b)
    (hle : a.length ≤ b.length) : (visitedComponents a).length < (visitedComponents b).length := by
  rcases haq.comparable hbq with hab | hba
  · refine lt_of_le_of_ne hab.length_le fun hlength => hne (@splitOn_inj _ _ slash _ _ ?_)
    rw [← visitedComponents_of_not_slash ha.1 ha.2, ← visitedComponents_of_not_slash hb.1 hb.2]
    exact hab.eq_of_length hlength
  · obtain heq | ⟨rest, rfl⟩ := isWithin_iff.mp ((encloses_iff hb.1 hb.2 ha.1).mp hba)
    · exact absurd heq hne
    · rw [List.length_append, List.length_cons] at hle
      omega

/-! ## The matches of an app -/

section App
variable {limits : RulesLimits} {origins : OriginMap} {app : AppRules} {query : NormalizedPath}

theorem rules_canonicalApp : (canonicalApp (resolveApp limits origins app).1).rules =
    (resolveApp limits origins app).1.deny.map (fun deny => ⟨.deny, deny.path, none⟩) ++
      (resolveApp limits origins app).1.redirects.map fun redirect =>
        ⟨.redirect, redirect.source, some redirect.target⟩ := by
  rw [CanonicalAppPolicy.rules, canonicalApp_deny, canonicalApp_redirects, List.map_map, List.map_map]
  rfl

theorem matchesOf_eq : matchesOf (resolveApp limits origins app).1 query =
    (canonicalApp (resolveApp limits origins app).1).rules.filter fun rule => isSameOrAncestor rule.source query := by
  rw [rules_canonicalApp, List.filter_append, List.filter_map, List.filter_map]
  rfl

/-- There is a match exactly when a declared rule is one: a rule that is dropped is covered by one that is kept. -/
theorem matchesOf_ne_nil_iff :
    matchesOf (resolveApp limits origins app).1 query ≠ [] ↔ DeclaresMatch limits app query.bytes := by
  constructor
  · intro hne
    obtain ⟨rule, hrule⟩ := List.exists_mem_of_ne_nil _ hne
    rcases List.mem_append.mp hrule with hdeny | hredirect
    · obtain ⟨deny, hmem, rfl⟩ := List.mem_map.mp hdeny
      obtain ⟨hkept, hcovers⟩ := List.mem_filter.mp hmem
      obtain ⟨original, horiginal, hpass, hnormal⟩ := deny_of_mem limits origins app hkept
      refine Or.inl ⟨original, horiginal, hpass, ?_⟩
      rw [← normalizeRulePath_bytes hnormal]
      exact isSameOrAncestor_iff.mp hcovers
    · obtain ⟨redirect, hmem, rfl⟩ := List.mem_map.mp hredirect
      obtain ⟨hkept, hcovers⟩ := List.mem_filter.mp hmem
      obtain ⟨original, horiginal, hpass, hnormal, -⟩ := redirect_of_mem limits origins app hkept
      refine Or.inr ⟨original, horiginal, hpass, ?_⟩
      rw [← normalizeRulePath_bytes hnormal]
      exact isSameOrAncestor_iff.mp hcovers
  · rintro (⟨original, horiginal, hpass, hwithin⟩ | ⟨original, horiginal, hpass, hwithin⟩)
    · obtain ⟨kept, hkept, habove⟩ := covered_of_deny limits origins app horiginal hpass
      refine List.ne_nil_of_mem (List.mem_append_left _ (List.mem_map_of_mem (List.mem_filter.mpr ⟨hkept, ?_⟩)))
      exact isSameOrAncestor_iff.mpr (habove.trans hwithin)
    · obtain ⟨kept, hkept, hsource, -⟩ := mem_of_redirect limits origins app horiginal hpass
      refine List.ne_nil_of_mem (List.mem_append_right _ (List.mem_map_of_mem (List.mem_filter.mpr ⟨hkept, ?_⟩)))
      exact isSameOrAncestor_iff.mpr (hsource ▸ hwithin)

theorem CoreAccepts.sources_nodup (h : CoreAccepts limits origins app) :
    ((canonicalApp (resolveApp limits origins app).1).rules.map fun rule => rule.source.bytes).Nodup := by
  rw [rules_canonicalApp, List.map_append, List.map_map, List.map_map]
  exact h.distinct

theorem CoreAccepts.not_slash (h : CoreAccepts limits origins app) :
    ∀ rule ∈ (canonicalApp (resolveApp limits origins app).1).rules,
      rule.source.bytes ≠ [] ∧ rule.source.bytes.getLast? ≠ some slash := by
  rw [rules_canonicalApp]
  intro rule hrule
  rcases List.mem_append.mp hrule with hdeny | hredirect
  · obtain ⟨deny, hkept, rfl⟩ := List.mem_map.mp hdeny
    exact not_slash_of_normalizeVisible (h.deny deny hkept)
  · obtain ⟨redirect, hkept, rfl⟩ := List.mem_map.mp hredirect
    exact not_slash_of_normalizeVisible (h.redirects redirect hkept).1

/-- What the core library has accepted is matched by components. -/
theorem CoreAccepts.matchesOf_eq (h : CoreAccepts limits origins app) (hquery : query.bytes ≠ []) :
    matchesOf (resolveApp limits origins app).1 query =
      (canonicalApp (resolveApp limits origins app).1).rules.filter fun rule =>
        Encloses rule.source.bytes query.bytes := by
  rw [Rules.matchesOf_eq]
  refine List.filter_congr fun rule hrule => ?_
  obtain ⟨hne, hlast⟩ := h.not_slash rule hrule
  rw [Bool.eq_iff_iff, isSameOrAncestor_iff, decide_eq_true_iff, encloses_iff hne hlast hquery]

end App

/-! ## Agreement -/

section Agreement
variable {policy : CanonicalPolicy} {package query : Bytes} {rules : List Match}

theorem agreesWith_iff_of_nil (h : deployedMatches policy package query = []) :
    AgreesWith policy package query (describeMatches { package := package, query := query } rules) ↔ rules = [] := by
  constructor
  · intro hagrees
    by_contra hne
    obtain ⟨longest, -, -, heq⟩ := @describeMatches_cases _ { package := package, query := query } hne
    have hreported := hagrees.reported
    rw [heq] at hreported
    exact hreported.mp rfl h
  · rintro rfl
    refine ⟨?_, fun action haction => ?_, fun _ => rfl⟩
    · rw [h]
      exact iff_of_false Bool.false_ne_true (not_not.mpr rfl)
    · cases haction

/-- A description of the deployed rules, in any order, agrees: the longest is the deepest. -/
theorem agreesWith_describeMatches (hperm : rules.Perm (deployedMatches policy package query))
    (hnodup : (rules.map fun rule => rule.source.bytes).Nodup)
    (hslash : ∀ rule ∈ rules, rule.source.bytes ≠ [] ∧ rule.source.bytes.getLast? ≠ some slash) :
    AgreesWith policy package query (describeMatches { package := package, query := query } rules) := by
  by_cases hnil : rules = []
  · rw [hnil] at hperm ⊢
    exact (agreesWith_iff_of_nil (List.nil_perm.mp hperm)).mpr rfl
  · obtain ⟨longest, hmem, hlongest, heq⟩ := @describeMatches_cases _ { package := package, query := query } hnil
    have hdeployed := hperm.mem_iff.mp hmem
    rw [heq]
    refine ⟨iff_of_true rfl (List.ne_nil_of_mem hdeployed), fun action haction => ?_, (nomatch ·)⟩
    obtain rfl : longest.action = action := Option.some.inj haction
    refine ⟨longest, hdeployed, rfl, rfl, rfl, fun other hother hne => ?_, ?_⟩
    · have hother' := hperm.mem_iff.mpr hother
      refine length_visitedComponents_lt (hslash other hother') (hslash longest hmem)
        (of_decide_eq_true (List.mem_filter.mp hother).2) (of_decide_eq_true (List.mem_filter.mp hdeployed).2)
        (fun hbytes => hne ?_) (hlongest other hother')
      exact List.inj_on_of_nodup_map hnodup hother' hmem hbytes
    · exact (sortOn_perm id _).trans ((hperm.erase longest).map _)

end Agreement

/-! ## The apps of a document -/

section Packages
variable {context : DecoderContext} {decoder : Decoder}

theorem decodeApp_package {package : Bytes} {region : SourceRegion} {entries : List (TomlKey × TomlNode)} :
    (decodeApp context package region entries decoder).2.1.package = package := by
  unfold decodeApp
  dsimp only
  split <;> rfl

theorem packages_decodeApps {entries : List (TomlKey × TomlNode)} {apps : List AppRules} :
    ((decodeApps context entries apps decoder).2.1.map AppRules.package).Sublist
      (apps.map AppRules.package ++ entries.map fun entry => entry.1.str) := by
  induction entries generalizing apps decoder with
  | nil =>
      rw [decodeApps, List.map_nil, List.append_nil]
  | cons entry entries ih =>
      have hskip : (apps.map AppRules.package ++ entries.map fun entry => entry.1.str).Sublist
          (apps.map AppRules.package ++ (entry :: entries).map fun entry => entry.1.str) := by
        rw [List.map_cons]
        exact (List.sublist_cons_self _ _).append_left _
      rw [decodeApps]
      split
      · exact ih.trans hskip
      · split
        · exact ih.trans hskip
        · next table _ =>
          dsimp only
          refine ih.trans ?_
          rw [List.map_append, List.map_singleton, decodeApp_package, List.append_assoc, List.singleton_append,
            List.map_cons]

theorem packages_decodeRoot {root : List (TomlKey × TomlNode)} (hroot : DistinctTree root) :
    ((decodeRoot context root decoder).2.1.apps.map AppRules.package).Nodup := by
  unfold decodeRoot
  dsimp only
  split
  · next first rest happs =>
    obtain ⟨apps, hget, htable⟩ := Option.bind_eq_some_iff.mp happs
    obtain ⟨key, -, hmem⟩ := mem_of_tomlGet hget
    unfold TomlNode.asTable at htable
    split at htable
    · obtain rfl := Option.some.inj htable
      have hkeys : DistinctKeys (first :: rest) := hroot.below key _ hmem [] _ _ _ (.here _)
      split
      · exact List.nodup_nil
      · exact hkeys.sublist packages_decodeApps
    · cases htable
  · exact List.nodup_nil

end Packages

section Source
variable {toml : TomlParser} {source : SourceBuffer} {limits : RulesLimits} {document : RulesDocument}

theorem packages_parseRulesDocument (htoml : ∀ {text file root}, toml text file = .ok root → DistinctTree root)
    (h : (parseRulesDocument toml source limits).document = some document) :
    (document.apps.map AppRules.package).Nodup := by
  obtain ⟨root, bound, context, decoder, hparsed⟩ := parsed_of_some h
  rw [hparsed.document]
  exact packages_decodeRoot (htoml hparsed.tree)

theorem compileParsed_resolved {parsed : RulesCompileResult} (hdocument : parsed.document = some document)
    (h : (compileParsed limits parsed).ok = true) :
    (compileParsed limits parsed).resolved = some (resolvedPolicy limits parsed.origins document) := by
  have hresolved : (⟨document.compatibility.allowLegacyMount,
      (document.apps.map (resolveApp limits parsed.origins)).map Prod.fst⟩ : ResolvedPolicy) =
      resolvedPolicy limits parsed.origins document := by
    rw [resolvedPolicy, List.map_map]
    rfl
  unfold compileParsed at h ⊢
  simp only [hdocument, hresolved] at h ⊢
  split at h
  · simp [RulesBuildResult.ok] at h
  · next herrors =>
    rw [if_neg herrors]
    split at h
    · simp [RulesBuildResult.ok] at h
    · split
      · rfl
      · unfold finishRules
        dsimp only
        split <;> rfl

/-! ## Explanations and the policy -/

section Deployed
variable {origins : OriginMap} {package query : Bytes}

theorem mem_filter_package {app : CanonicalAppPolicy} :
    app ∈ (canonicalPolicy (resolvedPolicy limits origins document)).apps.filter (fun app => app.package == package) ↔
      ∃ original ∈ document.apps, original.package = package ∧ original.enabled = true ∧
        app = canonicalApp (resolveApp limits origins original).1 := by
  rw [List.mem_filter, mem_canonicalPolicy, beq_iff_eq]
  constructor
  · rintro ⟨⟨original, horiginal, henabled, rfl⟩, hpackage⟩
    exact ⟨original, horiginal, hpackage, henabled, rfl⟩
  · rintro ⟨original, horiginal, hpackage, henabled, rfl⟩
    exact ⟨⟨original, horiginal, henabled, rfl⟩, hpackage⟩

theorem deployedMatches_eq_nil
    (h : ∀ app ∈ document.apps, app.package = package → app.enabled = false) :
    deployedMatches (canonicalPolicy (resolvedPolicy limits origins document)) package query = [] := by
  have hnone : (canonicalPolicy (resolvedPolicy limits origins document)).apps.filter
      (fun app => app.package == package) = [] := by
    refine List.eq_nil_iff_forall_not_mem.mpr fun app happ => ?_
    obtain ⟨original, horiginal, hpackage, henabled, -⟩ := mem_filter_package.mp happ
    rw [h original horiginal hpackage] at henabled
    cases henabled
  rw [deployedMatches, hnone, List.flatMap_nil, List.filter_nil]

/-- With different packages, the rules that are deployed for a package are those of its one app. -/
theorem deployedMatches_eq (hnodup : (document.apps.map AppRules.package).Nodup) {app : AppRules}
    (happ : app ∈ document.apps) (hpackage : app.package = package) (henabled : app.enabled = true) :
    deployedMatches (canonicalPolicy (resolvedPolicy limits origins document)) package query =
      (canonicalApp (resolveApp limits origins app).1).rules.filter fun rule =>
        Encloses rule.source.bytes query := by
  have hdistinct : (canonicalPolicy (resolvedPolicy limits origins document)).apps.Nodup := by
    refine ((sortOn_perm _ _).nodup_iff).mpr (List.Nodup.of_map CanonicalAppPolicy.package ?_)
    rw [List.map_map]
    refine hnodup.sublist ?_
    have hsame : document.apps.map AppRules.package =
        (resolvedPolicy limits origins document).apps.map ResolvedAppPolicy.package := by
      rw [resolvedPolicy, List.map_map]
      rfl
    rw [hsame]
    exact List.Sublist.map _ List.filter_sublist
  have hone : (canonicalPolicy (resolvedPolicy limits origins document)).apps.filter
      (fun app => app.package == package) = [canonicalApp (resolveApp limits origins app).1] := by
    refine List.perm_singleton.mp ((List.perm_ext_iff_of_nodup (hdistinct.filter _) (List.nodup_singleton _)).mpr ?_)
    intro other
    rw [mem_filter_package, List.mem_singleton]
    constructor
    · rintro ⟨original, horiginal, hother, -, rfl⟩
      rw [List.inj_on_of_nodup_map hnodup horiginal happ (hother.trans hpackage.symm)]
    · rintro rfl
      exact ⟨app, happ, hpackage, henabled, rfl⟩
  rw [deployedMatches, hone, List.flatMap_singleton]

theorem explainPath_resolvedPolicy {queryLimits : RulesLimits} {normalized : NormalizedPath}
    (hquery : normalizeRulePath queryLimits query = some normalized) :
    explainPath queryLimits (resolvedPolicy limits origins document) package query =
      match document.apps.find? fun app => app.package == package with
      | none => { package := package, query := query }
      | some app => describeMatches { package := package, query := query }
          (sortOn Match.sortKey (matchesOf (resolveApp limits origins app).1 normalized)) := by
  have hfind : (resolvedPolicy limits origins document).apps.find? (fun app => app.package == package) =
      (document.apps.find? fun app => app.package == package).map fun app => (resolveApp limits origins app).1 := by
    rw [resolvedPolicy, List.find?_map]
    rfl
  unfold explainPath
  dsimp only
  rw [hquery, hfind]
  cases document.apps.find? fun app => app.package == package <;> rfl

/-- The explanation of a path of an enabled app agrees. -/
theorem agreesWith_resolvedApp (hnodup : (document.apps.map AppRules.package).Nodup) {app : AppRules}
    (happ : app ∈ document.apps) (henabled : app.enabled = true) (hcore : CoreAccepts limits origins app)
    {queryLimits : RulesLimits} {normalized : NormalizedPath}
    (hquery : normalizeRulePath queryLimits query = some normalized) :
    AgreesWith (canonicalPolicy (resolvedPolicy limits origins document)) app.package query
      (describeMatches { package := app.package, query := query }
        (sortOn Match.sortKey (matchesOf (resolveApp limits origins app).1 normalized))) := by
  have hbytes := normalizeRulePath_bytes hquery
  have hne : normalized.bytes ≠ [] := hbytes ▸ (normalizeRulePath_some hquery).1
  have hperm := sortOn_perm Match.sortKey (matchesOf (resolveApp limits origins app).1 normalized)
  have hmatches := hcore.matchesOf_eq hne
  refine agreesWith_describeMatches ?_ ?_ fun rule hrule => ?_
  · rw [deployedMatches_eq hnodup happ rfl henabled, ← hbytes, ← hmatches]
    exact hperm
  · rw [(hperm.map _).nodup_iff, hmatches]
    exact hcore.sources_nodup.sublist (List.filter_sublist.map _)
  · rw [mem_sortOn, hmatches] at hrule
    exact hcore.not_slash rule (List.mem_filter.mp hrule).1

theorem agreesWith_disabledApp_iff (hnodup : (document.apps.map AppRules.package).Nodup) {app : AppRules}
    (happ : app ∈ document.apps) (hdisabled : app.enabled = false) {queryLimits : RulesLimits}
    {normalized : NormalizedPath} (hquery : normalizeRulePath queryLimits query = some normalized) :
    AgreesWith (canonicalPolicy (resolvedPolicy limits origins document)) app.package query
        (describeMatches { package := app.package, query := query }
          (sortOn Match.sortKey (matchesOf (resolveApp limits origins app).1 normalized))) ↔
      ¬ DeclaresMatch limits app query := by
  have hnil : deployedMatches (canonicalPolicy (resolvedPolicy limits origins document)) app.package query = [] := by
    refine deployedMatches_eq_nil fun other hother heq => ?_
    rw [List.inj_on_of_nodup_map hnodup hother happ heq]
    exact hdisabled
  have hsorted : ∀ rules : List Match, sortOn Match.sortKey rules = [] ↔ rules = [] := by
    intro rules
    rw [← List.length_eq_zero_iff, length_sortOn, List.length_eq_zero_iff]
  rw [agreesWith_iff_of_nil hnil, hsorted, ← normalizeRulePath_bytes hquery,
    ← @matchesOf_ne_nil_iff limits origins, not_not]

end Deployed

/-- **Explanations.** What `ExplainPath` says about a valid path agrees with the deployed policy exactly when no rule of
a disabled app of the package covers the path. -/
theorem explainPath_agrees_iff (htoml : ∀ {text file root}, toml text file = .ok root → DistinctTree root)
    (hok : (compileRules toml source limits).ok = true)
    (hdocument : (parseRulesDocument toml source limits).document = some document)
    {queryLimits : RulesLimits} {package query : Bytes}
    (hquery : (normalizeRulePath queryLimits query).isSome = true) :
    ∃ resolved policy, (compileRules toml source limits).resolved = some resolved ∧
      (compileRules toml source limits).canonical = some policy ∧
      (AgreesWith policy package query (explainPath queryLimits resolved package query) ↔
        ∀ app ∈ document.apps, app.package = package → app.enabled = false → ¬ DeclaresMatch limits app query) := by
  have haccepted := accepted_of_document hok hdocument
  have hwell := (parseRulesDocument_some hdocument).2
  have hnodup := packages_parseRulesDocument htoml hdocument
  obtain ⟨normalized, hnormal⟩ := Option.isSome_iff_exists.mp hquery
  refine ⟨_, _, compileParsed_resolved hdocument hok, haccepted.canonical, ?_⟩
  rw [explainPath_resolvedPolicy hnormal]
  cases hfind : document.apps.find? fun app => app.package == package with
  | none =>
      have hnone : ∀ app ∈ document.apps, app.package ≠ package := fun app happ heq =>
        List.find?_eq_none.mp hfind app happ (beq_iff_eq.mpr heq)
      have hnil := @deployedMatches_eq_nil limits document (parseRulesDocument toml source limits).origins package query
        fun app happ heq => absurd heq (hnone app happ)
      exact iff_of_true ((agreesWith_iff_of_nil hnil).mpr rfl) fun app happ heq => absurd heq (hnone app happ)
  | some app =>
      have happ := List.mem_of_find?_eq_some hfind
      have hpackage : (app.package == package) = true := by
        simpa using List.find?_some hfind
      obtain rfl := eq_of_beq hpackage
      have honly : ∀ other ∈ document.apps, other.package = app.package → other = app := fun other hother heq =>
        List.inj_on_of_nodup_map hnodup hother happ heq
      cases henabled : app.enabled with
      | false =>
          rw [agreesWith_disabledApp_iff hnodup happ henabled hnormal]
          constructor
          · intro hquiet other hother heq _
            rwa [honly other hother heq]
          · intro hquiet
            exact hquiet app happ rfl henabled
      | true =>
          have hcore := (haccepted.canonicalizes hwell).2.2 app (List.mem_filter.mpr ⟨happ, henabled⟩)
          refine iff_of_true ?_ fun other hother heq hdisabled => ?_
          · exact agreesWith_resolvedApp hnodup happ henabled hcore hnormal
          · rw [honly other hother heq, henabled] at hdisabled
            cases hdisabled

end Source

/-! ## A rule below another -/

namespace Sample
variable {P : SourceRegion → Bool → List (TomlKey × TomlNode) → Prop}

theorem tables_redirectNodes (htable : ∀ region first last from' to',
      P region true [(key "from" 4 first, from'), (key "to" 4 last, to')])
    {rules : List (String × String)} {column : Nat} : ∀ item ∈ redirectNodes rules column, item.Tables P := by
  induction rules generalizing column with
  | nil => exact nofun
  | cons rule rules ih =>
      refine List.forall_mem_cons.mpr ⟨TomlNode.tables_table (htable _ _ _ _ _) fun entry hentry => ?_, ih⟩
      simp only [List.mem_cons, List.not_mem_nil, or_false] at hentry
      obtain rfl | rfl := hentry <;> exact TomlNode.tables_string

theorem distinct_toml (sample : Sample) {text file : Bytes} {root : List (TomlKey × TomlNode)}
    (h : sample.toml text file = .ok root) : DistinctTree root := by
  unfold toml at h
  split at h
  · obtain rfl := Except.ok.inj h
    refine ⟨show [ascii "apps", ascii "format"].Nodup by decide, fun name child hmem => ?_⟩
    simp only [tree, List.mem_cons, List.not_mem_nil, or_false, Prod.mk.injEq] at hmem
    obtain ⟨rfl, rfl⟩ | ⟨rfl, rfl⟩ := hmem
    · refine TomlNode.tables_table (show [ascii "a.b"].Nodup by decide) fun entry hentry => ?_
      obtain rfl := List.mem_singleton.mp hentry
      refine TomlNode.tables_table (show [ascii "deny", ascii "redirect"].Nodup by decide) fun entry hentry => ?_
      simp only [List.mem_cons, List.not_mem_nil, or_false] at hentry
      obtain rfl | rfl := hentry
      · exact TomlNode.tables_array tables_denyNodes
      · refine TomlNode.tables_array (tables_redirectNodes fun region first last from' to' => ?_)
        exact show [ascii "from", ascii "to"].Nodup by decide
    · exact TomlNode.tables_integer
  · cases h

end Sample

def nestedRules : Sample := { deny := ["A/B"], redirects := [("A", "X")] }

/-- `"A/B/c"` is denied, and the redirect of `"A"` is hidden. -/
theorem explainPath_agrees_nested :
    ∃ resolved policy, (compileRules nestedRules.toml nestedRules.source {}).resolved = some resolved ∧
      (compileRules nestedRules.toml nestedRules.source {}).canonical = some policy ∧
      AgreesWith policy (ascii "a.b") (ascii "A/B/c")
        (explainPath {} resolved (ascii "a.b") (ascii "A/B/c")) := by
  have hdocument : (parseRulesDocument nestedRules.toml nestedRules.source {}).document = some
      { apps := [{ package := ascii "a.b", deny := [⟨2, ascii "A/B"⟩]
                   redirects := [⟨1, ascii "A", ascii "X"⟩] }] } := by decide +kernel
  have hquery : (normalizeRulePath {} (ascii "A/B/c")).isSome = true := by decide
  obtain ⟨resolved, policy, hresolved, hpolicy, hiff⟩ := @explainPath_agrees_iff _ _ _ _ nestedRules.distinct_toml
    (by decide +kernel) hdocument {} (ascii "a.b") _ hquery
  refine ⟨resolved, policy, hresolved, hpolicy, hiff.mpr fun app happ _ hdisabled => ?_⟩
  obtain rfl := List.mem_singleton.mp happ
  cases hdisabled

/-! ## A disabled app beside an enabled one -/

namespace DisabledSibling

def text : Bytes := ascii "format = 1\n[apps.\"a.b\"]\nenabled = false\ndeny = [\"A\"]\n[apps.\"c.d\"]\ndeny = [\"B\"]\n"

def denied (path : String) (line : Nat) : TomlKey × TomlNode :=
  (Sample.key "deny" line 1, .array (Sample.region line 8 13) [.string (Sample.region line 9 12) (ascii path)])

def tree : List (TomlKey × TomlNode) :=
  [(Sample.key "apps" 2 2, .table (Sample.region 2 1 13) false
      [(⟨ascii "a.b", Sample.region 2 7 12⟩, .table (Sample.region 2 1 13) false
        [denied "A" 4, (Sample.key "enabled" 3 1, .boolean (Sample.region 3 11 16) false)]),
        (⟨ascii "c.d", Sample.region 5 7 12⟩, .table (Sample.region 5 1 13) false [denied "B" 6])]),
    (Sample.key "format" 1 1, .integer (Sample.region 1 10 11) 1)]

def toml : TomlParser := fun input _ => if input = text then .ok tree else .error (Sample.region 1 1 1)

def source : SourceBuffer := ⟨ascii "rules.toml", text, by decide +kernel⟩

def document : RulesDocument :=
  { apps := [{ package := ascii "a.b", enabled := false, deny := [⟨1, ascii "A"⟩] },
      { package := ascii "c.d", deny := [⟨2, ascii "B"⟩] }] }

theorem distinct_toml {text file : Bytes} {root : List (TomlKey × TomlNode)} (h : toml text file = .ok root) :
    DistinctTree root := by
  have hdenied : ∀ {P : SourceRegion → Bool → List (TomlKey × TomlNode) → Prop} path line,
      (denied path line).2.Tables P := by
    intro P path line
    refine TomlNode.tables_array fun item hitem => ?_
    obtain rfl := List.mem_singleton.mp hitem
    exact TomlNode.tables_string
  unfold toml at h
  split at h
  · obtain rfl := Except.ok.inj h
    refine ⟨by decide, fun name child hmem => ?_⟩
    simp only [tree, List.mem_cons, List.not_mem_nil, or_false, Prod.mk.injEq] at hmem
    obtain ⟨rfl, rfl⟩ | ⟨rfl, rfl⟩ := hmem
    · refine TomlNode.tables_table (by decide) fun entry hentry => ?_
      simp only [List.mem_cons, List.not_mem_nil, or_false] at hentry
      obtain rfl | rfl := hentry
      · refine TomlNode.tables_table (by decide) fun entry hentry => ?_
        simp only [List.mem_cons, List.not_mem_nil, or_false] at hentry
        obtain rfl | rfl := hentry
        · exact hdenied _ _
        · exact TomlNode.tables_boolean
      · refine TomlNode.tables_table (by decide) fun entry hentry => ?_
        obtain rfl := List.mem_singleton.mp hentry
        exact hdenied _ _
    · exact TomlNode.tables_integer
  · cases h

end DisabledSibling

/-- `a.b` is disabled: nothing is deployed for it, and `"A/x"` is reported as denied. -/
theorem explainPath_not_agrees :
    ¬ ∀ (toml : TomlParser) (source : SourceBuffer) (limits queryLimits : RulesLimits) (package query : Bytes)
      (resolved : ResolvedPolicy) (policy : CanonicalPolicy),
      (∀ {text file root}, toml text file = .ok root → DistinctTree root) →
      (compileRules toml source limits).ok = true → (normalizeRulePath queryLimits query).isSome = true →
      (compileRules toml source limits).resolved = some resolved →
      (compileRules toml source limits).canonical = some policy →
        AgreesWith policy package query (explainPath queryLimits resolved package query) := by
  intro h
  have hok : (compileRules DisabledSibling.toml DisabledSibling.source {}).ok = true := by decide +kernel
  have hdocument : (parseRulesDocument DisabledSibling.toml DisabledSibling.source {}).document =
      some DisabledSibling.document := by decide +kernel
  have hquery : normalizeRulePath {} (ascii "A/x") = some ⟨ascii "A/x", [0, 2]⟩ := by decide
  have hagrees := h _ _ _ {} (ascii "a.b") (ascii "A/x") _ _ DisabledSibling.distinct_toml hok (by rw [hquery]; rfl)
    (compileParsed_resolved hdocument hok) (accepted_of_document hok hdocument).canonical
  rw [explainPath_resolvedPolicy hquery] at hagrees
  have hdeclared : DeclaresMatch {} { package := ascii "a.b", enabled := false, deny := [⟨1, ascii "A"⟩] }
    (ascii "A/x") := by decide
  exact (agreesWith_disabledApp_iff (by decide) List.mem_cons_self rfl hquery).mp hagrees hdeclared

end PathGuard.Rules

import PathGuard.Rules.Publication

/-!
# The order of declaration

The rules are sorted with their ids, folded and sorted again. What comes out is described here without ids, as a
function of the paths an app was written with: two documents with the same declarations in different orders end in the
same canonical policy, and so in the same blob and the same admission.

* `declaredApp` : the canonical app, as a function of what was written;
* `SameDeclarations`, `Rearranged` : documents that differ in order only;
* `compileRules_rearranged` : one blob, one admission.
-/

namespace PathGuard.Rules

open PathGuard

/-! ## Canonical rules without ids -/

/-- The path that goes on, when it passes both checks. -/
def checkedPath (limits : RulesLimits) (path : Bytes) : Option NormalizedPath :=
  if exceedsPathLimits limits path then none else normalizeRulePath limits path

def checkedRedirect (limits : RulesLimits) (rule : Bytes × Bytes) : Option CanonicalRedirectRule :=
  (checkedPath limits rule.1).bind fun source => (checkedPath limits rule.2).map fun target => ⟨source, target⟩

def sameCanonical (kept rule : CanonicalRedirectRule) : Bool :=
  samePath kept.source rule.source && samePath kept.target rule.target

/-- The canonical deny rules of an app that was written with these paths. -/
def canonicalDeny (limits : RulesLimits) (paths : List Bytes) : List NormalizedPath :=
  keepUncovered isSameOrAncestor none (sortOn NormalizedPath.bytes (paths.filterMap (checkedPath limits)))

def canonicalRedirects (limits : RulesLimits) (rules : List (Bytes × Bytes)) : List CanonicalRedirectRule :=
  keepUncovered sameCanonical none (sortOn canonicalRedirectKey (rules.filterMap (checkedRedirect limits)))

def operands (rule : RedirectRule) : Bytes × Bytes := (rule.source, rule.target)

/-- The canonical app, from the declarations alone. -/
def declaredApp (limits : RulesLimits) (app : AppRules) : CanonicalAppPolicy where
  package := app.package
  users := stdUnique (sortOn id app.users)
  processes := stdUnique (sortOn id app.processes)
  filePicker := app.filePicker
  deny := canonicalDeny limits (app.deny.map DenyRule.path)
  redirects := canonicalRedirects limits (app.redirects.map operands)

section Paths
variable {limits : RulesLimits} {origins : OriginMap}

theorem checkedPath_injective {path path' : Bytes} {checked checked' : NormalizedPath}
    (h : checkedPath limits path = some checked) (h' : checkedPath limits path' = some checked')
    (hbytes : checked.bytes = checked'.bytes) : checked = checked' := by
  unfold checkedPath at h h'
  split at h
  · cases h
  · split at h'
    · cases h'
    · have heq : path = path' := by rw [← normalizeRulePath_bytes h, ← normalizeRulePath_bytes h', hbytes]
      rw [heq, h'] at h
      exact (Option.some.inj h).symm

theorem checkedPaths_injective {paths : List Bytes} :
    ∀ a ∈ paths.filterMap (checkedPath limits), ∀ b ∈ paths.filterMap (checkedPath limits),
      a.bytes = b.bytes → a = b := by
  intro a ha b hb hbytes
  obtain ⟨path, -, hpath⟩ := List.mem_filterMap.mp ha
  obtain ⟨path', -, hpath'⟩ := List.mem_filterMap.mp hb
  exact checkedPath_injective hpath hpath' hbytes

theorem checkedRedirect_eq_some {rule : Bytes × Bytes} {checked : CanonicalRedirectRule} :
    checkedRedirect limits rule = some checked ↔
      checkedPath limits rule.1 = some checked.source ∧ checkedPath limits rule.2 = some checked.target := by
  unfold checkedRedirect
  cases hsource : checkedPath limits rule.1 with
  | none => simp
  | some source =>
      cases htarget : checkedPath limits rule.2 with
      | none => simp
      | some target =>
          obtain ⟨source', target'⟩ := checked
          simp

theorem checkedRedirects_injective {rules : List (Bytes × Bytes)} :
    ∀ a ∈ rules.filterMap (checkedRedirect limits), ∀ b ∈ rules.filterMap (checkedRedirect limits),
      canonicalRedirectKey a = canonicalRedirectKey b → a = b := by
  intro a ha b hb hkey
  obtain ⟨rule, -, hrule⟩ := List.mem_filterMap.mp ha
  obtain ⟨rule', -, hrule'⟩ := List.mem_filterMap.mp hb
  obtain ⟨hsource, htarget⟩ := checkedRedirect_eq_some.mp hrule
  obtain ⟨hsource', htarget'⟩ := checkedRedirect_eq_some.mp hrule'
  have hpair : (a.source.bytes, a.target.bytes) = (b.source.bytes, b.target.bytes) := toLex.injective hkey
  rw [Prod.mk.injEq] at hpair
  obtain ⟨asource, atarget⟩ := a
  obtain ⟨bsource, btarget⟩ := b
  rw [CanonicalRedirectRule.mk.injEq]
  exact ⟨checkedPath_injective hsource hsource' hpair.1, checkedPath_injective htarget htarget' hpair.2⟩

/-! ## The ids drop out -/

theorem map_resolveRules {α β γ : Type} {resolve : α → Except Diagnostic β} {f : β → γ} {check : α → Option γ}
    (h : ∀ a, (resolve a).toOption.map f = check a) (l : List α) :
    (resolveRules resolve l).1.map f = l.filterMap check := by
  induction l with
  | nil => rfl
  | cons a l ih =>
      rw [resolveRules]
      cases hresolve : resolve a with
      | ok value =>
          have hcheck : check a = some (f value) := by rw [← h, hresolve]; rfl
          rw [List.filterMap_cons_some hcheck, ← ih]
          rfl
      | error diagnostic =>
          have hcheck : check a = none := by rw [← h, hresolve]; rfl
          rw [List.filterMap_cons_none hcheck, ← ih]

theorem map_resolveDeny (limits : RulesLimits) (origins : OriginMap) (rules : List DenyRule) :
    (resolveRules (resolveDeny limits origins) rules).1.map ResolvedDenyRule.path =
      (rules.map DenyRule.path).filterMap (checkedPath limits) := by
  rw [List.filterMap_map]
  refine map_resolveRules (fun rule => ?_) rules
  show _ = checkedPath limits rule.path
  unfold resolveDeny checkedPath
  split
  · rfl
  · cases normalizeRulePath limits rule.path <;> rfl

theorem map_resolveRedirect (limits : RulesLimits) (origins : OriginMap) (rules : List RedirectRule) :
    (resolveRules (resolveRedirect limits origins) rules).1.map canonicalRedirect =
      (rules.map operands).filterMap (checkedRedirect limits) := by
  rw [List.filterMap_map]
  refine map_resolveRules (fun rule => ?_) rules
  show _ = checkedRedirect limits (rule.source, rule.target)
  unfold resolveRedirect checkedRedirect checkedPath
  cases exceedsPathLimits limits rule.source <;> cases exceedsPathLimits limits rule.target <;>
    cases normalizeRulePath limits rule.source <;> cases normalizeRulePath limits rule.target <;> rfl

variable (limits origins) (app : AppRules)

theorem canonicalApp_deny_eq : (canonicalApp (resolveApp limits origins app).1).deny =
    canonicalDeny limits (app.deny.map DenyRule.path) := by
  have hsort := sortOn_map_of_le ResolvedDenyRule.path (resolveRules (resolveDeny limits origins) app.deny).1
    (fun a b (h : denySortKey a ≤ denySortKey b) => (Prod.Lex.monotone_fst _ _ h : a.path.bytes ≤ b.path.bytes))
    (by rw [map_resolveDeny]; exact checkedPaths_injective)
  rw [canonicalApp_deny, resolveApp_deny, canonicalDeny, ← map_resolveDeny limits origins, hsort]
  exact (keepUncovered_map ResolvedDenyRule.path (fun _ _ => rfl) none _).symm

theorem canonicalApp_redirects_eq : (canonicalApp (resolveApp limits origins app).1).redirects =
    canonicalRedirects limits (app.redirects.map operands) := by
  have hsort := sortOn_map_of_le canonicalRedirect (resolveRules (resolveRedirect limits origins) app.redirects).1
    (fun _ _ => canonicalRedirectKey_le) (by rw [map_resolveRedirect]; exact checkedRedirects_injective)
  have hsame : ∀ a b, sameCanonical (canonicalRedirect a) (canonicalRedirect b) = sameRule a b := fun _ _ => rfl
  rw [canonicalApp_redirects, resolveApp_redirects, canonicalRedirects, ← map_resolveRedirect limits origins, hsort]
  exact (keepUncovered_map canonicalRedirect hsame none _).symm

theorem canonicalApp_resolveApp : canonicalApp (resolveApp limits origins app).1 = declaredApp limits app := by
  have hdeny := canonicalApp_deny_eq limits origins app
  have hredirects := canonicalApp_redirects_eq limits origins app
  rw [canonicalApp] at hdeny hredirects ⊢
  rw [declaredApp, CanonicalAppPolicy.mk.injEq]
  exact ⟨rfl, rfl, rfl, rfl, hdeny, hredirects⟩

end Paths

/-! ## Rearranged documents -/

/-- The same declarations in another order. The ids count the rules, so they are not compared. -/
structure SameDeclarations (app app' : AppRules) : Prop where
  package : app.package = app'.package
  enabled : app.enabled = app'.enabled
  filePicker : app.filePicker = app'.filePicker
  users : app.users.Perm app'.users
  processes : app.processes.Perm app'.processes
  deny : (app.deny.map DenyRule.path).Perm (app'.deny.map DenyRule.path)
  redirects : (app.redirects.map operands).Perm (app'.redirects.map operands)

structure Rearranged (document document' : RulesDocument) : Prop where
  compatibility : document.compatibility = document'.compatibility
  apps : ∃ apps, document.apps.Perm apps ∧ List.Forall₂ SameDeclarations apps document'.apps

section Rearranged
variable {limits : RulesLimits} {origins origins' : OriginMap} {app app' : AppRules}
  {document document' : RulesDocument}

theorem canonicalDeny_perm {paths paths' : List Bytes} (h : paths.Perm paths') :
    canonicalDeny limits paths = canonicalDeny limits paths' := by
  rw [canonicalDeny, canonicalDeny, sortOn_eq_of_perm (h.filterMap _) checkedPaths_injective]

theorem canonicalRedirects_perm {rules rules' : List (Bytes × Bytes)} (h : rules.Perm rules') :
    canonicalRedirects limits rules = canonicalRedirects limits rules' := by
  rw [canonicalRedirects, canonicalRedirects, sortOn_eq_of_perm (h.filterMap _) checkedRedirects_injective]

theorem SameDeclarations.declaredApp_eq (h : SameDeclarations app app') :
    declaredApp limits app = declaredApp limits app' := by
  have husers : sortOn id app.users = sortOn id app'.users := sortOn_eq_of_perm h.users fun _ _ _ _ heq => heq
  have hprocesses : sortOn id app.processes = sortOn id app'.processes :=
    sortOn_eq_of_perm h.processes fun _ _ _ _ heq => heq
  rw [declaredApp, declaredApp, h.package, husers, hprocesses, h.filePicker, canonicalDeny_perm h.deny,
    canonicalRedirects_perm h.redirects]

theorem canonicalPolicy_eq (limits : RulesLimits) (origins : OriginMap) (document : RulesDocument) :
    canonicalPolicy (resolvedPolicy limits origins document) =
      ⟨document.compatibility.allowLegacyMount,
        sortOn CanonicalAppPolicy.package ((enabledApps document).map (declaredApp limits))⟩ := by
  have hfilter : (resolvedPolicy limits origins document).apps.filter ResolvedAppPolicy.enabled =
      (enabledApps document).map fun app => (resolveApp limits origins app).1 := by
    rw [resolvedPolicy, List.filter_map]
    rfl
  rw [canonicalPolicy, hfilter, List.map_map]
  have happ : canonicalApp ∘ (fun app => (resolveApp limits origins app).1) = declaredApp limits := by
    funext app
    exact canonicalApp_resolveApp limits origins app
  rw [happ]
  rfl

theorem map_declaredApp {apps apps' : List AppRules} (h : List.Forall₂ SameDeclarations apps apps') :
    (apps.filter AppRules.enabled).map (declaredApp limits) =
      (apps'.filter AppRules.enabled).map (declaredApp limits) := by
  induction h with
  | nil => rfl
  | cons hfirst _ ih =>
      rw [List.filter_cons, List.filter_cons, hfirst.enabled]
      split
      · rw [List.map_cons, List.map_cons, hfirst.declaredApp_eq, ih]
      · exact ih

theorem Rearranged.declared_perm (h : Rearranged document document') :
    ((enabledApps document).map (declaredApp limits)).Perm ((enabledApps document').map (declaredApp limits)) := by
  obtain ⟨apps, hperm, hsame⟩ := h.apps
  rw [enabledApps, enabledApps, ← map_declaredApp hsame]
  exact (hperm.filter _).map _

/-- Different packages make the order of the apps immaterial. -/
theorem Rearranged.canonicalPolicy_eq (h : Rearranged document document')
    (hpackages : ((enabledApps document).map AppRules.package).Nodup) :
    canonicalPolicy (resolvedPolicy limits origins document) =
      canonicalPolicy (resolvedPolicy limits origins' document') := by
  have hinj : ∀ a ∈ (enabledApps document).map (declaredApp limits),
      ∀ b ∈ (enabledApps document).map (declaredApp limits), a.package = b.package → a = b := by
    intro a ha b hb hab
    obtain ⟨app, happ, rfl⟩ := List.mem_map.mp ha
    obtain ⟨app', happ', rfl⟩ := List.mem_map.mp hb
    rw [List.inj_on_of_nodup_map hpackages happ happ' hab]
  rw [Rules.canonicalPolicy_eq, Rules.canonicalPolicy_eq, h.compatibility, sortOn_eq_of_perm h.declared_perm hinj]

end Rearranged

/-! ## What is compiled and admitted -/

/-- Both have a blob, the bytes and the generations are the same, and every device admits them alike. -/
def SameOutcome (result result' : RulesBuildResult) : Prop :=
  ∃ blob blob' policy policy', result.blob = some blob ∧ result'.blob = some blob' ∧
    result.canonical = some policy ∧ result'.canonical = some policy' ∧
    blob.bytes = blob'.bytes ∧ blob.contentGeneration = blob'.contentGeneration ∧
    ∀ snapshot, admitPolicy policy result.requirements snapshot = admitPolicy policy' result'.requirements snapshot

section Source
variable {toml toml' : TomlParser} {source source' : SourceBuffer} {limits : RulesLimits}
  {document document' : RulesDocument}

theorem Accepted.canonicalizes {parsed : RulesCompileResult} {result : RulesBuildResult}
    (h : Accepted limits parsed document result) (hwell : ∀ app ∈ document.apps, WellFormedApp app) :
    enabledApps document ≠ [] ∧ ((enabledApps document).map AppRules.package).Nodup ∧
      ∀ app ∈ enabledApps document, CoreAccepts limits parsed.origins app := by
  obtain ⟨blob, -, hencode⟩ := h.blob
  obtain ⟨canonical, hcanonical, -⟩ := encodePolicy_ok_iff.mp (encodePolicy_of_encodeAndVerify hencode)
  exact (canonicalizes_iff hwell).mp ⟨canonical, hcanonical⟩

theorem Accepted.packages_nodup {parsed : RulesCompileResult} {result : RulesBuildResult}
    (h : Accepted limits parsed document result) (hwell : ∀ app ∈ document.apps, WellFormedApp app) :
    ((enabledApps document).map AppRules.package).Nodup :=
  (h.canonicalizes hwell).2.1

/-- **The order of declaration does not matter.** Two documents that are compiled, and that differ in the order of the
apps and of what each of them declares, get the same bytes and the same generation, and are admitted alike by every
device. -/
theorem compileRules_rearranged (hdocument : (parseRulesDocument toml source limits).document = some document)
    (hdocument' : (parseRulesDocument toml' source' limits).document = some document')
    (hsame : Rearranged document document') (hok : (compileRules toml source limits).ok = true)
    (hok' : (compileRules toml' source' limits).ok = true) :
    SameOutcome (compileRules toml source limits) (compileRules toml' source' limits) := by
  have haccepted := accepted_of_document hok hdocument
  have haccepted' := accepted_of_document hok' hdocument'
  have hpackages := haccepted.packages_nodup (parseRulesDocument_some hdocument).2
  obtain ⟨blob, hblob, hencode⟩ := haccepted.blob
  obtain ⟨blob', hblob', hencode'⟩ := haccepted'.blob
  have hrequirements := (compileParsed_of_canonical haccepted.canonical).2
  have hrequirements' := (compileParsed_of_canonical haccepted'.canonical).2
  have hpolicy := haccepted.canonical
  rw [hsame.canonicalPolicy_eq hpackages] at hencode hpolicy hrequirements
  obtain rfl := Option.some.inj (hencode.symm.trans hencode')
  refine ⟨blob, blob, _, _, hblob, hblob', hpolicy, haccepted'.canonical, rfl, rfl, fun snapshot => ?_⟩
  rw [compileRules, compileRules, hrequirements, hrequirements']

end Source

def forwards : Sample := { deny := ["D", "E"], redirects := [("A", "X"), ("A-x", "Y")] }

def backwards : Sample := { deny := ["E", "D"], redirects := [("A-x", "Y"), ("A", "X")] }

theorem compileRules_rearranged_backwards :
    SameOutcome (compileRules forwards.toml forwards.source {}) (compileRules backwards.toml backwards.source {}) := by
  have hdocument : (parseRulesDocument forwards.toml forwards.source {}).document = some
      { apps := [{ package := ascii "a.b", deny := [⟨3, ascii "D"⟩, ⟨4, ascii "E"⟩]
                   redirects := [⟨1, ascii "A", ascii "X"⟩, ⟨2, ascii "A-x", ascii "Y"⟩] }] } := by decide +kernel
  have hdocument' : (parseRulesDocument backwards.toml backwards.source {}).document = some
      { apps := [{ package := ascii "a.b", deny := [⟨3, ascii "E"⟩, ⟨4, ascii "D"⟩]
                   redirects := [⟨1, ascii "A-x", ascii "Y"⟩, ⟨2, ascii "A", ascii "X"⟩] }] } := by decide +kernel
  refine compileRules_rearranged hdocument hdocument' ⟨rfl, _, List.Perm.refl _, .cons ?_ .nil⟩ (by decide +kernel)
    (by decide +kernel)
  exact ⟨rfl, rfl, rfl, List.Perm.refl _, List.Perm.refl _, List.Perm.swap _ _ _, List.Perm.swap _ _ _⟩

end PathGuard.Rules

import PathGuard.Rules.Redundancy

/-!
# The conflicts an accepted document can hold

`ValidateRedirects` compares a redirect with its neighbour in byte order, `ValidateDeny` a redirect source with the
deny rule just below it, and both report into the capped list.

* `sourcesApart_iff`, `denyApart_iff` : paths of an accepted document are apart exactly when nothing is interposed between
  two that conflict, and what a check sees of them is not behind a list full of warnings;
* `appSound_iff_roomForErrors` : every check passes exactly when nothing refused is behind a full list;
* `targets_apart_acyclic` : what is left of the targets.
-/

namespace PathGuard.Rules

/-! ## Source texts for the witnesses

A text with one app and its two rule arrays, and the tree that TOML gives for its desugared form. -/

namespace Sample

def quoted (text : String) : Bytes := [doubleQuote] ++ ascii text ++ [doubleQuote]

def separated (items : List Bytes) : Bytes := (ascii ", ").intercalate items

def layout (deny redirects : Bytes) : Bytes :=
  ascii "format = 1\n[apps.\"a.b\"]\ndeny = [" ++ deny ++ ascii "]\nredirect = [" ++ redirects ++ ascii "]\n"

def textOf (deny : List String) (redirects : List (String × String)) : Bytes :=
  layout (separated (deny.map quoted)) (separated (redirects.map fun rule =>
    quoted rule.1 ++ ascii " -> " ++ quoted rule.2))

end Sample

structure Sample where
  deny : List String
  redirects : List (String × String)
  short : (Sample.textOf deny redirects).length < 2 ^ 32 := by decide +kernel

namespace Sample

def denyText (sample : Sample) : Bytes := separated (sample.deny.map quoted)

def text (sample : Sample) : Bytes := textOf sample.deny sample.redirects

def tableText (rule : String × String) : Bytes := kPrefix ++ quoted rule.1 ++ kMiddle ++ quoted rule.2 ++ kSuffix

def generatedText (sample : Sample) : Bytes :=
  layout sample.denyText (separated (sample.redirects.map tableText))

def region (line first last : Nat) : SourceRegion := ⟨⟨line, first⟩, ⟨line, last⟩⟩

def key (name : String) (line column : Nat) : TomlKey := ⟨ascii name, region line column (column + name.length)⟩

def denyNodes : List String → Nat → List TomlNode
  | [], _ => []
  | path :: paths, column =>
      .string (region 3 column (column + path.length + 2)) (ascii path) :: denyNodes paths (column + path.length + 4)

def redirectNodes : List (String × String) → Nat → List TomlNode
  | [], _ => []
  | rule :: rules, column =>
      let toColumn := column + rule.1.length + 13
      let last := column + (tableText rule).length
      .table (region 4 column last) true
        [(key "from" 4 (column + 2), .string (region 4 (column + 9) (toColumn - 2)) (ascii rule.1)),
          (key "to" 4 toColumn, .string (region 4 (toColumn + 5) (last - 2)) (ascii rule.2))] ::
        redirectNodes rules (last + 2)

def tree (sample : Sample) : List (TomlKey × TomlNode) :=
  let header := region 2 1 13
  let deny := .array (region 3 8 (10 + sample.denyText.length)) (denyNodes sample.deny 9)
  let redirects := .array (region 4 12 (14 + (separated (sample.redirects.map tableText)).length))
    (redirectNodes sample.redirects 13)
  [(key "apps" 2 2, .table header false
      [(⟨ascii "a.b", region 2 7 12⟩, .table header false
        [(key "deny" 3 1, deny), (key "redirect" 4 1, redirects)])]),
    (key "format" 1 1, .integer (region 1 10 11) 1)]

/-- A parser that knows this one text. -/
def toml (sample : Sample) : TomlParser := fun text _ =>
  if text = sample.generatedText then .ok sample.tree else .error (region 1 1 1)

def source (sample : Sample) : SourceBuffer := ⟨ascii "rules.toml", sample.text, sample.short⟩

end Sample

/-! ## The canonical apps -/

variable {toml : TomlParser} {source : SourceBuffer} {limits : RulesLimits} {origins : OriginMap}
  {document : RulesDocument} {policy : CanonicalPolicy}

theorem mem_canonicalPolicy {app : CanonicalAppPolicy} :
    app ∈ (canonicalPolicy (resolvedPolicy limits origins document)).apps ↔
      ∃ original ∈ document.apps, original.enabled = true ∧ app = canonicalApp (resolveApp limits origins original).1 := by
  simp only [canonicalPolicy, resolvedPolicy, mem_sortOn, List.mem_map, List.mem_filter]
  constructor
  · rintro ⟨_, ⟨⟨original, horiginal, rfl⟩, henabled⟩, rfl⟩
    exact ⟨original, horiginal, henabled, rfl⟩
  · rintro ⟨original, horiginal, henabled, rfl⟩
    exact ⟨_, ⟨⟨original, horiginal, rfl⟩, henabled⟩, rfl⟩

theorem forall_canonicalPolicy {P : CanonicalAppPolicy → Prop} :
    (∀ app ∈ (canonicalPolicy (resolvedPolicy limits origins document)).apps, P app) ↔
      ∀ original ∈ document.apps, original.enabled = true → P (canonicalApp (resolveApp limits origins original).1) := by
  constructor
  · intro h original horiginal henabled
    exact h _ (mem_canonicalPolicy.mpr ⟨original, horiginal, henabled, rfl⟩)
  · intro h app happ
    obtain ⟨original, horiginal, henabled, rfl⟩ := mem_canonicalPolicy.mp happ
    exact h original horiginal henabled

/-! ## Redirect sources -/

/-- Two paths that are not equal, neither being an ancestor of the other. -/
def Apart (a b : Bytes) : Prop := ¬ IsWithin slash a b ∧ ¬ IsWithin slash b a

instance (a b : Bytes) : Decidable (Apart a b) := inferInstanceAs (Decidable (_ ∧ _))

theorem Apart.symm {a b : Bytes} (h : Apart a b) : Apart b a := ⟨h.2, h.1⟩

theorem pathsOverlap_eq_false_iff {a b : NormalizedPath} : pathsOverlap a b = false ↔ Apart a.bytes b.bytes := by
  rw [← Bool.not_eq_true, pathsOverlap_iff, not_or, Apart]

/-- No two redirects of the app have the same source or one inside the other. -/
def SourcesApart (app : CanonicalAppPolicy) : Prop :=
  app.redirects.Pairwise fun a b => Apart a.source.bytes b.source.bytes

instance (app : CanonicalAppPolicy) : Decidable (SourcesApart app) := inferInstanceAs (Decidable (List.Pairwise _ _))

/-- Three redirect sources `S`, `S·y…` with `y` below the separator, and `S/…`. -/
def HasInterposedSource (limits : RulesLimits) (app : AppRules) : Prop :=
  ∃ a ∈ app.redirects, ∃ b ∈ app.redirects, ∃ c ∈ app.redirects,
    passesRedirect limits a = true ∧ passesRedirect limits b = true ∧ passesRedirect limits c = true ∧
      Interposed slash a.source b.source c.source

theorem hasInterposedSource_iff (limits : RulesLimits) (origins : OriginMap) (app : AppRules) :
    HasInterposedSource limits app ↔
      ∃ a ∈ (resolveApp limits origins app).1.redirects, ∃ b ∈ (resolveApp limits origins app).1.redirects,
        ∃ c ∈ (resolveApp limits origins app).1.redirects,
          Interposed slash a.source.bytes b.source.bytes c.source.bytes := by
  constructor
  · rintro ⟨a, ha, b, hb, c, hc, hpa, hpb, hpc, h⟩
    obtain ⟨a', ha', hsa, -⟩ := mem_of_redirect limits origins app ha hpa
    obtain ⟨b', hb', hsb, -⟩ := mem_of_redirect limits origins app hb hpb
    obtain ⟨c', hc', hsc, -⟩ := mem_of_redirect limits origins app hc hpc
    exact ⟨a', ha', b', hb', c', hc', by rwa [hsa, hsb, hsc]⟩
  · rintro ⟨a, ha, b, hb, c, hc, h⟩
    obtain ⟨a', ha', hpa, hsa, -⟩ := redirect_of_mem limits origins app ha
    obtain ⟨b', hb', hpb, hsb, -⟩ := redirect_of_mem limits origins app hb
    obtain ⟨c', hc', hpc, hsc, -⟩ := redirect_of_mem limits origins app hc
    refine ⟨a', ha', b', hb', c', hc', hpa, hpb, hpc, ?_⟩
    rwa [← normalizeRulePath_bytes hsa, ← normalizeRulePath_bytes hsb, ← normalizeRulePath_bytes hsc]

/-- One app: neighbours apart and nothing interposed is the same as all sources apart. -/
theorem sourcesApart_canonicalApp (limits : RulesLimits) (origins : OriginMap) (app : AppRules) :
    SourcesApart (canonicalApp (resolveApp limits origins app).1) ↔
      ¬ HasInterposedSource limits app ∧ (resolveApp limits origins app).1.redirects.IsChain
        fun a b => pathsOverlap a.source b.source = false := by
  rw [SourcesApart, canonicalApp_redirects, List.pairwise_map, hasInterposedSource_iff limits origins]
  have hsorted := sorted_sources limits origins app
  have hsymm : Std.Symm fun a b : ResolvedRedirectRule => Apart a.source.bytes b.source.bytes := ⟨fun _ _ h => h.symm⟩
  constructor
  · intro (hapart : List.Pairwise (fun a b : ResolvedRedirectRule => Apart a.source.bytes b.source.bytes) _)
    refine ⟨?_, hapart.isChain.imp fun _ _ h => pathsOverlap_eq_false_iff.mpr h⟩
    rintro ⟨a, ha, b, -, c, hc, -, v, hv⟩
    have hwithin : IsWithin slash a.source.bytes c.source.bytes := isWithin_iff.mpr (Or.inr ⟨v, hv⟩)
    have hne : a ≠ c := by
      rintro rfl
      exact absurd (congrArg List.length hv) (by simp)
    exact (hapart.forall ha hc hne).1 hwithin
  · rintro ⟨hnone, hchain⟩
    have hwithin := pairwise_not_isWithin (fun rule : ResolvedRedirectRule => rule.source.bytes) hsorted
      (hchain.imp fun _ _ h => (pathsOverlap_eq_false_iff.mp h).1)
      (fun a ha b hb c hc h => hnone ⟨a, ha, b, hb, c, hc, h⟩)
    -- the later source of two is not below the earlier one, so it contains it only when they are equal
    refine (hwithin.and hsorted).imp fun {a b} h => ⟨h.1, fun hba => h.1 ?_⟩
    rw [le_antisymm h.2 hba.le]
    exact IsWithin.refl slash _

/-- **Redirect sources.** In an accepted document the redirect sources of every app are apart exactly when no enabled
app has interposed sources, and an enabled app with sources in conflict that are neighbours has fewer redundant rules
before them than the list of diagnostics takes. -/
theorem sourcesApart_iff (hok : (compileRules toml source limits).ok = true)
    (hdocument : (parseRulesDocument toml source limits).document = some document)
    (hpolicy : (compileRules toml source limits).canonical = some policy) :
    (∀ app ∈ policy.apps, SourcesApart app) ↔
      (∀ app ∈ document.apps, app.enabled = true → ¬ HasInterposedSource limits app) ∧
        ∀ before app after, document.apps = before ++ app :: after →
          app.enabled = true ∧ HasNeighbourConflict limits app →
            redundantRules limits before + redundantRedirects limits app < limits.maxDiagnostics := by
  have haccepted := accepted_of_document hok hdocument
  obtain rfl : _ = policy := Option.some.inj (haccepted.canonical.symm.trans hpolicy)
  rw [← haccepted.none_iff fun app h => HasRedirectError.errorBehind _ (Or.inr (Or.inl h.2)), forall_canonicalPolicy]
  simp only [sourcesApart_canonicalApp, hasNeighbourConflict_iff _ (parseRulesDocument toml source limits).origins,
    not_and, not_not]
  exact ⟨fun h => ⟨fun app happ hon => (h app happ hon).1, fun app happ hon => (h app happ hon).2⟩,
    fun h app happ hon => ⟨h.1 app happ hon, h.2 app happ hon⟩⟩

def siblingSources : Sample := { deny := [], redirects := [("A", "X"), ("A-x", "Y")] }

theorem ok_siblingSources : (compileRules siblingSources.toml siblingSources.source {}).ok = true := by decide +kernel

theorem sourcesApart_iff_siblings :
    ∃ document policy,
      (parseRulesDocument siblingSources.toml siblingSources.source {}).document = some document ∧
      (compileRules siblingSources.toml siblingSources.source {}).canonical = some policy ∧
      ((∀ app ∈ policy.apps, SourcesApart app) ↔
        (∀ app ∈ document.apps, app.enabled = true → ¬ HasInterposedSource {} app) ∧
          ∀ before app after, document.apps = before ++ app :: after → app.enabled = true ∧ HasNeighbourConflict {} app →
            redundantRules {} before + redundantRedirects {} app < ({} : RulesLimits).maxDiagnostics) := by
  have hok := ok_siblingSources
  obtain ⟨document, haccepted⟩ := accepted_of_ok hok
  exact ⟨document, _, haccepted.parsed_document, haccepted.canonical,
    sourcesApart_iff hok haccepted.parsed_document haccepted.canonical⟩

def interposedSources : Sample := { deny := [], redirects := [("A", "X"), ("A-x", "Y"), ("A/B", "Z")] }

/-- `A-x` sorts between `A` and `A/B`, and the document is accepted. -/
theorem sourcesApart_interposed :
    (compileRules interposedSources.toml interposedSources.source {}).ok = true ∧
      ∃ policy ∈ (compileRules interposedSources.toml interposedSources.source {}).canonical,
        ∃ app ∈ policy.apps, ¬ SourcesApart app := by
  decide +kernel

/-! ## Deny rules and redirect sources -/

/-- No deny rule of the app is a redirect source or an ancestor of one. -/
def DenyApart (app : CanonicalAppPolicy) : Prop :=
  ∀ deny ∈ app.deny, ∀ redirect ∈ app.redirects, ¬ IsWithin slash deny.bytes redirect.source.bytes

instance (app : CanonicalAppPolicy) : Decidable (DenyApart app) :=
  inferInstanceAs (Decidable (∀ deny ∈ app.deny, ∀ redirect ∈ app.redirects, _))

/-- Two deny paths `D` and `D·y…` with `y` below the separator, and a redirect source `D/…`. -/
def HasInterposedDeny (limits : RulesLimits) (app : AppRules) : Prop :=
  ∃ a ∈ app.deny, ∃ b ∈ app.deny, ∃ c ∈ app.redirects,
    passesDeny limits a = true ∧ passesDeny limits b = true ∧ passesRedirect limits c = true ∧
      Interposed slash a.path b.path c.source

/-- One app: what the two places looked at do not show is interposed. -/
theorem denyApart_canonicalApp (limits : RulesLimits) (origins : OriginMap) (app : AppRules) :
    DenyApart (canonicalApp (resolveApp limits origins app).1) ↔
      ¬ HasInterposedDeny limits app ∧ ∀ redirect ∈ (resolveApp limits origins app).1.redirects,
        denyConflict (resolveApp limits origins app).1.deny redirect.source = none := by
  rw [DenyApart, canonicalApp_redirects, canonicalApp_deny]
  simp only [List.forall_mem_map]
  constructor
  · intro hapart
    refine ⟨?_, fun redirect hredirect => ?_⟩
    · rintro ⟨a, ha, -, -, c, hc, hpa, -, hpc, -, v, hv⟩
      -- `D` may have been folded into an ancestor, which is then above the source as well
      obtain ⟨kept, hkept, hcovers⟩ := covered_of_deny limits origins app ha hpa
      obtain ⟨redirect, hredirect, hsource, -⟩ := mem_of_redirect limits origins app hc hpc
      refine hapart kept hkept redirect hredirect (hcovers.trans ?_)
      exact isWithin_iff.mpr (Or.inr ⟨v, hsource.trans hv⟩)
    · cases hconflict : denyConflict (resolveApp limits origins app).1.deny redirect.source with
      | none => rfl
      | some conflict =>
          obtain ⟨hmem, hwithin⟩ := denyConflict_mem hconflict
          exact absurd hwithin (hapart conflict hmem redirect hredirect)
  · rintro ⟨hnone, hconflicts⟩ deny hdeny redirect hredirect hwithin
    refine denyConflict_ne_none (sorted_deny limits origins app) (isChain_deny limits origins app) hdeny hwithin ?_
      (hconflicts redirect hredirect)
    intro b hb hinterposed
    obtain ⟨a', ha', hpa, hpath⟩ := deny_of_mem limits origins app hdeny
    obtain ⟨b', hb', hpb, hpath'⟩ := deny_of_mem limits origins app hb
    obtain ⟨c', hc', hpc, hsource, -⟩ := redirect_of_mem limits origins app hredirect
    refine hnone ⟨a', ha', b', hb', c', hc', hpa, hpb, hpc, ?_⟩
    rwa [← normalizeRulePath_bytes hpath, ← normalizeRulePath_bytes hpath', ← normalizeRulePath_bytes hsource]

/-- **Deny rules and redirect sources.** In an accepted document no deny rule is above a redirect source exactly when
no enabled app has an interposed deny rule, and an enabled app whose redirect has a deny rule just above its source has
fewer redundant rules before it than the list of diagnostics takes. -/
theorem denyApart_iff (hok : (compileRules toml source limits).ok = true)
    (hdocument : (parseRulesDocument toml source limits).document = some document)
    (hpolicy : (compileRules toml source limits).canonical = some policy) :
    (∀ app ∈ policy.apps, DenyApart app) ↔
      (∀ app ∈ document.apps, app.enabled = true → ¬ HasInterposedDeny limits app) ∧
        ∀ before app after, document.apps = before ++ app :: after → app.enabled = true ∧ HasDenyConflict limits app →
          redundantRules limits before + (redundantRedirects limits app + redundantDeny limits app) <
            limits.maxDiagnostics := by
  have haccepted := accepted_of_document hok hdocument
  obtain rfl : _ = policy := Option.some.inj (haccepted.canonical.symm.trans hpolicy)
  rw [← haccepted.none_iff fun app h => HasDenyConflict.errorBehind _ h.2, forall_canonicalPolicy]
  simp only [denyApart_canonicalApp, hasDenyConflict_iff _ (parseRulesDocument toml source limits).origins, denyErrors,
    ne_eq, denyConflicts_eq_nil, not_and, not_not]
  exact ⟨fun h => ⟨fun app happ hon => (h app happ hon).1, fun app happ hon => (h app happ hon).2⟩,
    fun h app happ hon => ⟨h.1 app happ hon, h.2 app happ hon⟩⟩

def siblingDeny : Sample := { deny := ["A", "A-x"], redirects := [("B", "C")] }

theorem ok_siblingDeny : (compileRules siblingDeny.toml siblingDeny.source {}).ok = true := by decide +kernel

theorem denyApart_iff_siblings :
    ∃ document policy,
      (parseRulesDocument siblingDeny.toml siblingDeny.source {}).document = some document ∧
      (compileRules siblingDeny.toml siblingDeny.source {}).canonical = some policy ∧
      ((∀ app ∈ policy.apps, DenyApart app) ↔
        (∀ app ∈ document.apps, app.enabled = true → ¬ HasInterposedDeny {} app) ∧
          ∀ before app after, document.apps = before ++ app :: after → app.enabled = true ∧ HasDenyConflict {} app →
            redundantRules {} before + (redundantRedirects {} app + redundantDeny {} app) <
              ({} : RulesLimits).maxDiagnostics) := by
  have hok := ok_siblingDeny
  obtain ⟨document, haccepted⟩ := accepted_of_ok hok
  exact ⟨document, _, haccepted.parsed_document, haccepted.canonical,
    denyApart_iff hok haccepted.parsed_document haccepted.canonical⟩

def interposedDeny : Sample := { deny := ["A", "A-x"], redirects := [("A/B", "C")] }

/-- `A-x` is the deny rule just below `A/B`, so `A` is not looked at, and the document is accepted. -/
theorem denyApart_interposed :
    (compileRules interposedDeny.toml interposedDeny.source {}).ok = true ∧
      ∃ policy ∈ (compileRules interposedDeny.toml interposedDeny.source {}).canonical,
        ∃ app ∈ policy.apps, ¬ DenyApart app := by
  decide +kernel

/-! ## Errors and the cap -/

/-- Every check of the semantic phase passes on the app. -/
structure AppSound (limits : RulesLimits) (origins : OriginMap) (app : AppRules) : Prop where
  deny : ∀ rule ∈ app.deny, exceedsPathLimits limits rule.path = false ∧
    (normalizeRulePath limits rule.path).isSome = true
  redirects : ∀ rule ∈ app.redirects,
    (exceedsPathLimits limits rule.source = false ∧ (normalizeRulePath limits rule.source).isSome = true) ∧
      exceedsPathLimits limits rule.target = false ∧ (normalizeRulePath limits rule.target).isSome = true
  overlap : ∀ rule ∈ (resolveApp limits origins app).1.redirects, pathsOverlap rule.source rule.target = false
  neighbours : (resolveApp limits origins app).1.redirects.IsChain
    fun a b => pathsOverlap a.source b.source = false
  denied : ∀ redirect ∈ (resolveApp limits origins app).1.redirects,
    denyConflict (resolveApp limits origins app).1.deny redirect.source = none
  acyclic : ¬ HasCycle ((resolveApp limits origins app).1.redirects.map link)
  picker : app.filePicker = true → app.redirects ≠ []

theorem passesPath_iff {path : Bytes} : passesPath limits path = true ↔
    exceedsPathLimits limits path = false ∧ (normalizeRulePath limits path).isSome = true := by
  rw [passesPath, Bool.and_eq_true, Bool.not_eq_true']

theorem passesRedirect_iff {rule : RedirectRule} : passesRedirect limits rule = true ↔
    (exceedsPathLimits limits rule.source = false ∧ (normalizeRulePath limits rule.source).isSome = true) ∧
      exceedsPathLimits limits rule.target = false ∧ (normalizeRulePath limits rule.target).isSome = true := by
  rw [passesRedirect, Bool.and_eq_true, passesPath_iff, passesPath_iff]

theorem redirects_eq_nil_iff {app : AppRules} (h : ∀ rule ∈ app.redirects, passesRedirect limits rule = true) :
    (resolveApp limits origins app).1.redirects = [] ↔ app.redirects = [] := by
  rw [List.eq_nil_iff_forall_not_mem, List.eq_nil_iff_forall_not_mem]
  constructor
  · intro hnone rule hrule
    obtain ⟨kept, hkept, -⟩ := mem_of_redirect limits origins app hrule (h rule hrule)
    exact hnone kept hkept
  · intro hnone rule hrule
    obtain ⟨original, horiginal, -⟩ := redirect_of_mem limits origins app hrule
    exact hnone original horiginal

/-- One app: every check passes on it exactly when nothing in it is refused. -/
theorem appSound_iff (limits : RulesLimits) (origins : OriginMap) (app : AppRules) :
    AppSound limits origins app ↔
      ¬ HasInvalidPath limits app ∧ ¬ HasRedirectError limits app ∧ ¬ HasDenyConflict limits app := by
  rw [hasInvalidPath_iff limits origins, hasRedirectError_iff limits origins, hasDenyConflict_iff limits origins, not_ne_iff,
    not_ne_iff, not_ne_iff, pathErrors_eq_nil, redirectErrors, denyErrors, denyConflicts_eq_nil, List.append_eq_nil_iff,
    List.append_eq_nil_iff, redirectConflicts_eq_nil, Option.toList_none, List.nil_append, cycleDiagnostics_eq_nil,
    pickerDiagnostics_eq_nil]
  have hdistinct := fun hchain => (lt_sources_of_isChain limits origins app hchain).imp fun h => ne_of_lt h
  constructor
  · intro h
    have hredirects : ∀ rule ∈ app.redirects, passesRedirect limits rule = true := fun rule hrule =>
      passesRedirect_iff.mpr (h.redirects rule hrule)
    refine ⟨⟨fun rule hrule => passesPath_iff.mpr (h.deny rule hrule), hredirects⟩, ⟨⟨⟨h.overlap, h.neighbours⟩, ?_⟩, ?_⟩,
      h.denied⟩
    · exact (redirectCycle_eq_none_iff (hdistinct h.neighbours)).mpr h.acyclic
    · exact fun hon hnil => h.picker hon ((redirects_eq_nil_iff hredirects).mp hnil)
  · rintro ⟨⟨hdeny, hredirects⟩, ⟨⟨⟨hoverlap, hneighbours⟩, hcycle⟩, hpicker⟩, hdenied⟩
    exact {
      deny := fun rule hrule => passesPath_iff.mp (hdeny rule hrule)
      redirects := fun rule hrule => passesRedirect_iff.mp (hredirects rule hrule)
      overlap := hoverlap
      neighbours := hneighbours
      denied := hdenied
      acyclic := (redirectCycle_eq_none_iff (hdistinct hneighbours)).mp hcycle
      picker := fun hon hempty => hpicker hon ((redirects_eq_nil_iff hredirects).mpr hempty) }

/-- **Errors and the cap.** In an accepted document every check passes on every app exactly when whatever is refused in
an app stands behind fewer redundant rules than the list of diagnostics takes. -/
theorem appSound_iff_roomForErrors (hok : (compileRules toml source limits).ok = true)
    (hdocument : (parseRulesDocument toml source limits).document = some document) :
    (∀ app ∈ document.apps, AppSound limits (parseRulesDocument toml source limits).origins app) ↔
      ∀ before app after, document.apps = before ++ app :: after → RoomForErrors limits before app := by
  have haccepted := accepted_of_document hok hdocument
  simp only [appSound_iff]
  have hpaths := haccepted.none_iff fun app h => HasInvalidPath.errorBehind _ h
  have hredirects := haccepted.none_iff fun app h => HasRedirectError.errorBehind _ h
  have hdeny := haccepted.none_iff fun app h => HasDenyConflict.errorBehind _ h
  constructor
  · intro h before app after happs
    exact {
      paths := hpaths.mp (fun app happ => (h app happ).1) before app after happs
      redirects := hredirects.mp (fun app happ => (h app happ).2.1) before app after happs
      deny := hdeny.mp (fun app happ => (h app happ).2.2) before app after happs }
  · intro hroom app happ
    exact ⟨hpaths.mpr (fun before app after happs => (hroom before app after happs).paths) app happ,
      hredirects.mpr (fun before app after happs => (hroom before app after happs).redirects) app happ,
      hdeny.mpr (fun before app after happs => (hroom before app after happs).deny) app happ⟩

theorem appSound_iff_siblings :
    ∃ document, (parseRulesDocument siblingDeny.toml siblingDeny.source {}).document = some document ∧
      ((∀ app ∈ document.apps,
          AppSound {} (parseRulesDocument siblingDeny.toml siblingDeny.source {}).origins app) ↔
        ∀ before app after, document.apps = before ++ app :: after → RoomForErrors {} before app) := by
  have hok := ok_siblingDeny
  obtain ⟨document, haccepted⟩ := accepted_of_ok hok
  exact ⟨document, haccepted.parsed_document, appSound_iff_roomForErrors hok haccepted.parsed_document⟩

def redundantThenConflict : Sample := { deny := ["B", "B", "A"], redirects := [("A/B", "C")] }

/-- With room for one diagnostic, a redundancy warning takes the place of the conflict of `A` with `A/B`, and the
document is accepted. -/
theorem appSound_dropped :
    (compileRules redundantThenConflict.toml redundantThenConflict.source { maxDiagnostics := 1 }).ok = true ∧
      ∃ document ∈ (parseRulesDocument redundantThenConflict.toml redundantThenConflict.source
        { maxDiagnostics := 1 }).document,
        ∃ app ∈ document.apps, ¬ AppSound { maxDiagnostics := 1 } (parseRulesDocument redundantThenConflict.toml
          redundantThenConflict.source { maxDiagnostics := 1 }).origins app := by
  refine ⟨by decide +kernel, ?_⟩
  have hconflict : ∃ document ∈ (parseRulesDocument redundantThenConflict.toml redundantThenConflict.source
      { maxDiagnostics := 1 }).document, ∃ app ∈ document.apps,
      ¬ ∀ redirect ∈ (resolveApp { maxDiagnostics := 1 } (parseRulesDocument redundantThenConflict.toml
        redundantThenConflict.source { maxDiagnostics := 1 }).origins app).1.redirects,
        denyConflict (resolveApp { maxDiagnostics := 1 } (parseRulesDocument redundantThenConflict.toml
          redundantThenConflict.source { maxDiagnostics := 1 }).origins app).1.deny redirect.source = none := by
    decide +kernel
  obtain ⟨document, hdocument, app, happ, hfail⟩ := hconflict
  exact ⟨document, hdocument, app, happ, fun hsound => hfail hsound.denied⟩

/-! ## Redirect targets -/

/-- The redirects of an app, from source to target. -/
def CanonicalAppPolicy.links (app : CanonicalAppPolicy) : List (Bytes × Bytes) :=
  app.redirects.map fun redirect => (redirect.source.bytes, redirect.target.bytes)

theorem links_canonicalApp (limits : RulesLimits) (origins : OriginMap) (app : AppRules) :
    (canonicalApp (resolveApp limits origins app).1).links = (resolveApp limits origins app).1.redirects.map link := by
  rw [CanonicalAppPolicy.links, canonicalApp_redirects, List.map_map]
  rfl

/-- As long as the list has room, nothing is refused. -/
theorem Accepted.appSound {parsed : RulesCompileResult} {result : RulesBuildResult}
    (h : Accepted limits parsed document result) (hroom : result.diagnostics.length < limits.maxDiagnostics)
    {app : AppRules} (happ : app ∈ document.apps) : AppSound limits parsed.origins app := by
  have hwarnings := h.warnings
  rw [h.diagnostics, List.length_take] at hroom
  rw [h.diagnostics, List.take_of_length_le (by omega)] at hwarnings
  have hnot : ∀ {ahead}, ¬ ErrorBehind (resolveApp limits parsed.origins app).2 ahead := by
    rintro ahead ⟨front, d, back, hemitted, herror, -⟩
    exact hwarnings d (List.mem_flatMap.mpr ⟨app, happ, by simp [hemitted]⟩) herror
  rw [appSound_iff]
  exact ⟨fun hpath => hnot (hpath.errorBehind _), fun hredirect => hnot (hredirect.errorBehind _),
    fun hdeny => hnot (hdeny.errorBehind _)⟩

/-- **Redirect targets.** In a document accepted with room left in the diagnostics, the target of a redirect is apart
from its own source, and no redirect leads back to itself. -/
theorem targets_apart_acyclic (hok : (compileRules toml source limits).ok = true)
    (hroom : (compileRules toml source limits).diagnostics.length < limits.maxDiagnostics)
    (hpolicy : (compileRules toml source limits).canonical = some policy) :
    ∀ app ∈ policy.apps, (∀ redirect ∈ app.redirects, Apart redirect.target.bytes redirect.source.bytes) ∧
      ¬ HasCycle app.links := by
  obtain ⟨document, haccepted⟩ := accepted_of_ok hok
  obtain rfl : _ = policy := Option.some.inj (haccepted.canonical.symm.trans hpolicy)
  refine forall_canonicalPolicy.mpr fun app happ _ => ?_
  have hsound := haccepted.appSound hroom happ
  rw [links_canonicalApp, canonicalApp_redirects, List.forall_mem_map]
  exact ⟨fun rule hrule => (pathsOverlap_eq_false_iff.mp (hsound.overlap rule hrule)).symm, hsound.acyclic⟩

theorem targets_apart_acyclic_siblings :
    ∃ policy, (compileRules siblingSources.toml siblingSources.source {}).canonical = some policy ∧
      ∀ app ∈ policy.apps, (∀ redirect ∈ app.redirects, Apart redirect.target.bytes redirect.source.bytes) ∧
        ¬ HasCycle app.links := by
  have hok := ok_siblingSources
  obtain ⟨document, haccepted⟩ := accepted_of_ok hok
  exact ⟨_, haccepted.canonical, targets_apart_acyclic hok (by decide +kernel) haccepted.canonical⟩

def aliasedTargets : Sample := { deny := ["V/S"], redirects := [("A", "V"), ("B", "A"), ("C", "V/T")] }

/-- Accepted with a target above a deny path, a target that is the source of another redirect, and two targets one
inside the other. -/
theorem targets_aliased :
    (compileRules aliasedTargets.toml aliasedTargets.source {}).ok = true ∧
      ∃ policy ∈ (compileRules aliasedTargets.toml aliasedTargets.source {}).canonical, ∃ app ∈ policy.apps,
        (∃ redirect ∈ app.redirects, ∃ deny ∈ app.deny, ¬ Apart redirect.target.bytes deny.bytes) ∧
        (∃ a ∈ app.redirects, ∃ b ∈ app.redirects, ¬ Apart a.target.bytes b.source.bytes) ∧
        ∃ a ∈ app.redirects, ∃ b ∈ app.redirects, a.target.bytes ≠ b.target.bytes ∧
          ¬ Apart a.target.bytes b.target.bytes := by
  decide +kernel

end PathGuard.Rules

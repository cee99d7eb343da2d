import PathGuard.Rules.CompilerSpec
import PathGuard.Rules.SemanticSpec

/-!
# Acceptance

What `CompileRules` having returned `ok()` says about the document. The diagnostics of all apps go into one list, in
order, and those that find it full are dropped, errors among them.

* `Accepted` : the parts of an accepted result;
* `Accepted.error_behind` : whatever error there is has a full list of warnings before it.
-/

namespace PathGuard.Rules

variable {limits : RulesLimits} {origins : OriginMap} {document : RulesDocument}

/-! ## The cap -/

theorem addDiagnostics_eq (limits : RulesLimits) (diagnostics emitted : List Diagnostic) :
    addDiagnostics limits diagnostics emitted =
      diagnostics ++ emitted.take (limits.maxDiagnostics - diagnostics.length) := by
  induction emitted generalizing diagnostics with
  | nil => simp [addDiagnostics]
  | cons d emitted ih =>
      have hstep : addDiagnostics limits diagnostics (d :: emitted) =
          addDiagnostics limits (addDiagnostic limits diagnostics d) emitted := rfl
      rw [hstep, ih, addDiagnostic]
      split
      · next hfull =>
        rw [Nat.sub_eq_zero_of_le hfull, List.take_zero, List.take_zero]
      · next hroom =>
        obtain ⟨room, hroom'⟩ : ∃ room, limits.maxDiagnostics - diagnostics.length = room + 1 :=
          ⟨limits.maxDiagnostics - diagnostics.length - 1, by omega⟩
        rw [hroom', List.take_succ_cons, List.length_append, List.length_singleton, ← Nat.sub_sub, hroom',
          Nat.add_sub_cancel, List.append_assoc, List.singleton_append]

/-- Everything handed to `AddDiagnostic`. -/
def emissions (limits : RulesLimits) (origins : OriginMap) (apps : List AppRules) : List Diagnostic :=
  apps.flatMap fun app => (resolveApp limits origins app).2

/-! ## Accepted documents -/

def resolvedPolicy (limits : RulesLimits) (origins : OriginMap) (document : RulesDocument) : ResolvedPolicy where
  allowLegacyMount := document.compatibility.allowLegacyMount
  apps := document.apps.map fun app => (resolveApp limits origins app).1

/-- What is known once `CompileRules` has returned `ok()`. -/
structure Accepted (limits : RulesLimits) (parsed : RulesCompileResult) (document : RulesDocument)
    (result : RulesBuildResult) : Prop where
  parsed_document : parsed.document = some document
  diagnostics : result.diagnostics = (emissions limits parsed.origins document.apps).take limits.maxDiagnostics
  warnings : ∀ d ∈ result.diagnostics, d.severity ≠ .error
  canonical : result.canonical = some (canonicalPolicy (resolvedPolicy limits parsed.origins document))
  blob : ∃ blob, result.blob = some blob ∧
    encodeAndVerify (canonicalPolicy (resolvedPolicy limits parsed.origins document)) = some blob

theorem hasErrors_eq_false {diagnostics : List Diagnostic} :
    hasErrors diagnostics = false ↔ ∀ d ∈ diagnostics, d.severity ≠ .error := by
  simp [hasErrors]

theorem accepted_of_compileParsed_ok {parsed : RulesCompileResult}
    (hquiet : ∀ document, parsed.document = some document → parsed.diagnostics = [])
    (h : (compileParsed limits parsed).ok = true) :
    ∃ document, Accepted limits parsed document (compileParsed limits parsed) := by
  unfold compileParsed at h ⊢
  cases hdocument : parsed.document with
  | none => simp [hdocument, RulesBuildResult.ok] at h
  | some document =>
      have hnil := hquiet document hdocument
      simp only [hdocument, hnil] at h ⊢
      rw [if_neg (by decide)] at h ⊢
      cases hexpanded : validateExpandedRuleLimit limits document.apps 0 with
      | some first => simp [hexpanded, RulesBuildResult.ok] at h
      | none =>
          simp only [hexpanded] at h ⊢
          have hreported : addDiagnostics limits [] ((document.apps.map (resolveApp limits parsed.origins)).flatMap
              Prod.snd) = (emissions limits parsed.origins document.apps).take limits.maxDiagnostics := by
            rw [addDiagnostics_eq, List.flatMap_map, List.nil_append, List.length_nil, Nat.sub_zero, emissions]
          rw [hreported] at h ⊢
          split at h
          · simp [RulesBuildResult.ok] at h
          · next herrors =>
            rw [if_neg herrors]
            have hresolved : (⟨document.compatibility.allowLegacyMount,
                (document.apps.map (resolveApp limits parsed.origins)).map Prod.fst⟩ : ResolvedPolicy) =
                resolvedPolicy limits parsed.origins document := by
              rw [resolvedPolicy, List.map_map]
              rfl
            rw [hresolved] at h ⊢
            refine ⟨document, ?_⟩
            unfold finishRules at h ⊢
            cases hencode : encodeAndVerify (canonicalPolicy (resolvedPolicy limits parsed.origins document)) with
            | none => simp [hencode, RulesBuildResult.ok] at h
            | some blob =>
                simp only [hencode]
                exact {
                  parsed_document := hdocument
                  diagnostics := rfl
                  warnings := hasErrors_eq_false.mp (Bool.eq_false_iff.mpr herrors)
                  canonical := rfl
                  blob := ⟨blob, rfl, hencode⟩ }

theorem finishRules_of_canonical {output : RulesBuildResult} {resolved : ResolvedPolicy} {policy : CanonicalPolicy}
    (hnone : output.canonical = none) (h : (finishRules limits output resolved).canonical = some policy) :
    ∃ blob, finishRules limits output resolved =
      { output with
        resolved := some resolved, canonical := some policy, requirements := policyRequirements policy
        blob := some blob } := by
  unfold finishRules at h ⊢
  cases hencode : encodeAndVerify (canonicalPolicy resolved) with
  | none => simp [hencode, hnone] at h
  | some blob =>
      simp only [hencode] at h ⊢
      rw [Option.some.inj h]
      exact ⟨blob, rfl⟩

theorem compileParsed_of_canonical {parsed : RulesCompileResult} {policy : CanonicalPolicy}
    (h : (compileParsed limits parsed).canonical = some policy) :
    (compileParsed limits parsed).ok = true ∧
      (compileParsed limits parsed).requirements = policyRequirements policy := by
  unfold compileParsed at h ⊢
  cases hdocument : parsed.document with
  | none => simp [hdocument] at h
  | some document =>
      simp only [hdocument] at h ⊢
      by_cases herrors : hasErrors parsed.diagnostics = true
      · simp [herrors] at h
      · rw [if_neg herrors] at h ⊢
        cases hexpanded : validateExpandedRuleLimit limits document.apps 0 with
        | some first => simp [hexpanded] at h
        | none =>
            simp only [hexpanded] at h ⊢
            split at h
            · cases h
            · next hquiet =>
              obtain ⟨blob, hfinish⟩ := finishRules_of_canonical rfl h
              rw [if_neg hquiet, hfinish]
              exact ⟨by simpa [RulesBuildResult.ok] using hquiet, rfl⟩

theorem accepted_of_ok {toml : TomlParser} {source : SourceBuffer}
    (h : (compileRules toml source limits).ok = true) :
    ∃ document, Accepted limits (parseRulesDocument toml source limits) document (compileRules toml source limits) :=
  accepted_of_compileParsed_ok (fun _ hdocument => (parseRulesDocument_some hdocument).1) h

theorem accepted_of_document {toml : TomlParser} {source : SourceBuffer}
    (h : (compileRules toml source limits).ok = true)
    (hdocument : (parseRulesDocument toml source limits).document = some document) :
    Accepted limits (parseRulesDocument toml source limits) document (compileRules toml source limits) := by
  obtain ⟨accepted, haccepted⟩ := accepted_of_ok h
  obtain rfl : accepted = document := Option.some.inj (haccepted.parsed_document.symm.trans hdocument)
  exact haccepted

/-! ## Errors that are not reported -/

def warningCount (emitted : List Diagnostic) : Nat := emitted.countP fun d => d.severity = .warning

/-- An error stands behind a full list, and nothing in that list is an error. -/
theorem Accepted.error_behind {parsed : RulesCompileResult} {result : RulesBuildResult}
    (h : Accepted limits parsed document result) {front back : List Diagnostic} {d : Diagnostic}
    (hemitted : emissions limits parsed.origins document.apps = front ++ d :: back) (herror : d.severity = .error) :
    limits.maxDiagnostics ≤ warningCount front := by
  have hwarnings := h.warnings
  rw [h.diagnostics, hemitted] at hwarnings
  have hfull : limits.maxDiagnostics ≤ front.length := by
    by_contra hroom
    obtain ⟨room, hroom⟩ : ∃ room, limits.maxDiagnostics - front.length = room + 1 :=
      ⟨limits.maxDiagnostics - front.length - 1, by omega⟩
    refine hwarnings d ?_ herror
    rw [List.take_append, hroom, List.take_succ_cons]
    exact List.mem_append_right _ List.mem_cons_self
  rw [List.take_append_of_le_length hfull] at hwarnings
  have hcount : warningCount (front.take limits.maxDiagnostics) = limits.maxDiagnostics := by
    rw [warningCount, List.countP_eq_length.mpr, List.length_take, Nat.min_eq_left hfull]
    intro d hd
    cases hseverity : d.severity with
    | error => exact absurd hseverity (hwarnings d hd)
    | warning => exact decide_eq_true rfl
  have hle : warningCount (front.take limits.maxDiagnostics) ≤ warningCount front :=
    (List.take_sublist _ _).countP_le
  omega

end PathGuard.Rules

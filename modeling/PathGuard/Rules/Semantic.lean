import PathGuard.Core.Binary
import PathGuard.Core.MountBackend
import PathGuard.Lib.Cycle
import PathGuard.Rules.Compiler

/-!
# The semantic phase of the rules compiler

`rules/src/semantic.cpp`: paths are normalised, conflicts are looked for app by app, and what is left is put
into canonical order, encoded and verified.

The functions below return the diagnostics they hand to `AddDiagnostic`, in order; `addDiagnostics` replays
them against the cap, as the calls do one by one.

* `normalizeRulePath`, `isSameOrAncestor` : paths, checked and compared byte by byte;
* `validateRedirects`, `validateDeny` : the checks of an app; `canonicalPolicy` : what goes on;
* `compileRules` : the phase, behind the parser.
-/

namespace PathGuard.Rules

open PathGuard

/-! ## Diagnostics -/

/-- `AddDiagnostic`: dropped when the list is full. -/
def addDiagnostic (limits : RulesLimits) (diagnostics : List Diagnostic) (diagnostic : Diagnostic) :
    List Diagnostic :=
  if limits.maxDiagnostics ≤ diagnostics.length then diagnostics else diagnostics ++ [diagnostic]

def addDiagnostics (limits : RulesLimits) (diagnostics emitted : List Diagnostic) : List Diagnostic :=
  emitted.foldl (addDiagnostic limits) diagnostics

/-- The diagnostic `AddDiagnostic` builds. -/
def semanticDiagnostic (limits : RulesLimits) (code messageKey : String) (primary : ByteSpan)
    (severity : DiagnosticSeverity) (related : Option ByteSpan := none) : Diagnostic where
  code := code
  messageKey := messageKey
  primary := primary
  severity := severity
  phase := .semantic
  related :=
    match related with
    | some span => if limits.maxRelatedSpans ≠ 0 then [⟨span, "related_rule"⟩] else []
    | none => []

def originSpan (origins : OriginMap) (id : RuleId) : ByteSpan :=
  match OriginMap.find origins id with
  | some origin => origin.primary
  | none => {}

/-! ## The expanded rule limit -/

/-- `AddExpanded`. -/
def addExpanded (value limit total : Nat) : Option Nat :=
  if limit < value || limit - value < total then none else some (total + value)

/-- The id that `expanded_rule_limit` is reported at. -/
def firstRuleId (app : AppRules) : RuleId :=
  match app.redirects, app.deny with
  | redirect :: _, _ => redirect.id
  | [], deny :: _ => deny.id
  | [], [] => 0

/-- `ValidateExpandedRuleLimit`: the rule it stops at, or nothing. -/
def validateExpandedRuleLimit (limits : RulesLimits) : List AppRules → Nat → Option RuleId
  | [], _ => none
  | app :: apps, expanded =>
      if !app.enabled then validateExpandedRuleLimit limits apps expanded
      else
        let users := max app.users.length 1
        let processes := max app.processes.length 1
        let rules := app.deny.length + app.redirects.length
        if rules ≠ 0 && (limits.maxExpandedRules / rules < users ||
            limits.maxExpandedRules / processes < users * rules) then some (firstRuleId app)
        else if rules ≠ 0 then
          match addExpanded (users * rules * processes) limits.maxExpandedRules expanded with
          | none => some (firstRuleId app)
          | some expanded => validateExpandedRuleLimit limits apps expanded
        else validateExpandedRuleLimit limits apps expanded

/-! ## Paths -/

def exceedsPathLimits (limits : RulesLimits) (input : Bytes) : Bool :=
  limits.maxPathBytes < input.length ||
    limits.maxPathComponents < (if input.isEmpty then 0 else 1) + input.count slash

structure NormalizedPath where
  bytes : Bytes
  componentOffsets : List UInt16
  deriving DecidableEq, Repr

/-- A byte no component may hold. -/
def isControlByte (byte : UInt8) : Bool := byte == 0 || byte < 0x20 || byte == 0x7f

/-- The loop of `NormalizeRulePath` over the components, the first of which starts at `start`. -/
def componentOffsets (limits : RulesLimits) : List Bytes → Nat → List UInt16 → Option (List UInt16)
  | [], _, offsets => some offsets
  | component :: rest, start, offsets =>
      if component.isEmpty || component == ascii "." || component == ascii ".." ||
          limits.maxPathComponents ≤ offsets.length || 0xffff < start then none
      else if component.any isControlByte then none
      else componentOffsets limits rest (start + component.length + 1) (offsets ++ [UInt16.ofNat start])

/-- The components the loop visits: it ends at the end of the input, so it does not look at the empty one after
a separator that comes last. -/
def visitedComponents (input : Bytes) : List Bytes :=
  let components := input.splitOn slash
  if components.getLast? = some [] then components.dropLast else components

def normalizeRulePath (limits : RulesLimits) (input : Bytes) : Option NormalizedPath :=
  if input.isEmpty || limits.maxPathBytes < input.length || input.head? = some slash then none
  else (componentOffsets limits (visitedComponents input) 0 []).map fun offsets => ⟨input, offsets⟩

/-- `IsSameOrAncestor`. -/
def isSameOrAncestor (ancestor path : NormalizedPath) : Bool :=
  path.bytes == ancestor.bytes ||
    ancestor.bytes.length < path.bytes.length && ancestor.bytes.isPrefixOf path.bytes &&
      path.bytes[ancestor.bytes.length]? == some slash

def samePath (lhs rhs : NormalizedPath) : Bool := lhs.bytes == rhs.bytes

def pathsOverlap (lhs rhs : NormalizedPath) : Bool := isSameOrAncestor lhs rhs || isSameOrAncestor rhs lhs

/-! ## Resolved and canonical policies -/

structure ResolvedDenyRule where
  id : RuleId
  path : NormalizedPath
  deriving DecidableEq, Repr

structure ResolvedRedirectRule where
  id : RuleId
  source : NormalizedPath
  target : NormalizedPath
  deriving DecidableEq, Repr

structure ResolvedAppPolicy where
  package : Bytes
  enabled : Bool
  users : List Int
  processes : List Bytes
  filePicker : Bool
  deny : List ResolvedDenyRule
  redirects : List ResolvedRedirectRule
  deriving DecidableEq, Repr

structure ResolvedPolicy where
  allowLegacyMount : Bool
  apps : List ResolvedAppPolicy
  deriving DecidableEq, Repr

structure CanonicalRedirectRule where
  source : NormalizedPath
  target : NormalizedPath
  deriving DecidableEq, Repr

structure CanonicalAppPolicy where
  package : Bytes
  users : List Int
  processes : List Bytes
  filePicker : Bool
  deny : List NormalizedPath
  redirects : List CanonicalRedirectRule
  deriving DecidableEq, Repr

structure CanonicalPolicy where
  allowLegacyMount : Bool
  apps : List CanonicalAppPolicy
  deriving DecidableEq, Repr

structure PolicyRequirements where
  mountActions : MountActionMask := 0
  provider : Bool := false
  topology : Bool := false
  deriving DecidableEq, Repr

structure PolicyBlob where
  bytes : Bytes
  contentGeneration : UInt64
  deriving DecidableEq, Repr

/-! ## ValidateRedirects -/

def redirectSortKey (rule : ResolvedRedirectRule) : Bytes ×ₗ Bytes ×ₗ Nat :=
  toLex (rule.source.bytes, toLex (rule.target.bytes, rule.id))

/-- The loop that drops duplicates; `back` is the last rule kept. -/
def uniqueRedirects (limits : RulesLimits) (origins : OriginMap) (back : Option ResolvedRedirectRule) :
    List ResolvedRedirectRule → List ResolvedRedirectRule × List Diagnostic
  | [] => ([], [])
  | rule :: rules =>
      match back with
      | some kept =>
          if samePath kept.source rule.source && samePath kept.target rule.target then
            let (unique, emitted) := uniqueRedirects limits origins (some kept) rules
            (unique, semanticDiagnostic limits kRuleRedundant "duplicate_redirect" (originSpan origins rule.id)
              .warning (some (originSpan origins kept.id)) :: emitted)
          else
            let (unique, emitted) := uniqueRedirects limits origins (some rule) rules
            (rule :: unique, emitted)
      | none =>
          let (unique, emitted) := uniqueRedirects limits origins (some rule) rules
          (rule :: unique, emitted)

/-- The check of a redirect by itself. -/
def overlapDiagnostics (limits : RulesLimits) (origins : OriginMap) (current : ResolvedRedirectRule) :
    List Diagnostic :=
  if pathsOverlap current.source current.target then
    [semanticDiagnostic limits kRuleConflict "redirect_source_target_overlap" (originSpan origins current.id) .error]
  else []

/-- The check of a redirect against the one before it. -/
def neighbourDiagnostics (limits : RulesLimits) (origins : OriginMap) (current : ResolvedRedirectRule) :
    Option ResolvedRedirectRule → List Diagnostic
  | none => []
  | some previous =>
      if pathsOverlap previous.source current.source then
        [semanticDiagnostic limits kRuleConflict "redirect_source_conflict" (originSpan origins current.id) .error
          (some (originSpan origins previous.id))]
      else []

/-- The loop over the redirects and their predecessors. -/
def redirectConflicts (limits : RulesLimits) (origins : OriginMap) (previous : Option ResolvedRedirectRule) :
    List ResolvedRedirectRule → List Diagnostic
  | [] => []
  | current :: rules =>
      overlapDiagnostics limits origins current ++ neighbourDiagnostics limits origins current previous ++
        redirectConflicts limits origins (some current) rules

/-- `source_index.find(redirects[index].target)`: the first redirect whose source is that target. -/
def nextRedirect (redirects : List ResolvedRedirectRule) (index : Nat) : Option Nat :=
  redirects[index]?.bind fun rule => redirects.findIdx? fun other => other.source.bytes == rule.target.bytes

/-- The `visit` loop: the first redirect found to be on the way to a cycle. -/
def redirectCycle (redirects : List ResolvedRedirectRule) : Option Nat :=
  findCycle (nextRedirect redirects) redirects.length redirects.length (redirects.map fun _ => .white) 0

def redirectIdAt (redirects : List ResolvedRedirectRule) (index : Nat) : RuleId :=
  match redirects[index]? with
  | some rule => rule.id
  | none => 0

def cycleDiagnostics (limits : RulesLimits) (origins : OriginMap) (redirects : List ResolvedRedirectRule) :
    List Diagnostic :=
  match redirectCycle redirects with
  | some index =>
      [semanticDiagnostic limits kRedirectCycle "redirect_cycle"
        (originSpan origins (redirectIdAt redirects index)) .error]
  | none => []

def pickerDiagnostics (limits : RulesLimits) (filePicker : Bool) (redirects : List ResolvedRedirectRule) :
    List Diagnostic :=
  if filePicker && redirects.isEmpty then
    [semanticDiagnostic limits kInvalidValue "file_picker_requires_redirect" {} .error]
  else []

def validateRedirects (limits : RulesLimits) (origins : OriginMap) (app : ResolvedAppPolicy) :
    ResolvedAppPolicy × List Diagnostic :=
  let (redirects, duplicates) := uniqueRedirects limits origins none (sortOn redirectSortKey app.redirects)
  ({ app with redirects := redirects },
    duplicates ++ redirectConflicts limits origins none redirects ++ cycleDiagnostics limits origins redirects ++
      pickerDiagnostics limits app.filePicker redirects)

/-! ## ValidateDeny -/

def denySortKey (rule : ResolvedDenyRule) : Bytes ×ₗ Nat := toLex (rule.path.bytes, rule.id)

/-- The loop that folds what a kept deny already covers; `back` is the last rule kept. -/
def foldDeny (limits : RulesLimits) (origins : OriginMap) (back : Option ResolvedDenyRule) :
    List ResolvedDenyRule → List ResolvedDenyRule × List Diagnostic
  | [] => ([], [])
  | current :: rules =>
      match back with
      | some kept =>
          if isSameOrAncestor kept.path current.path then
            let (unique, emitted) := foldDeny limits origins (some kept) rules
            (unique, semanticDiagnostic limits kRuleRedundant "deny_redundant" (originSpan origins current.id)
              .warning (some (originSpan origins kept.id)) :: emitted)
          else
            let (unique, emitted) := foldDeny limits origins (some current) rules
            (current :: unique, emitted)
      | none =>
          let (unique, emitted) := foldDeny limits origins (some current) rules
          (current :: unique, emitted)

/-- The deny rule that conflicts with a redirect source: `std::lower_bound`, and the one before it. -/
def denyConflict (deny : List ResolvedDenyRule) (source : NormalizedPath) : Option ResolvedDenyRule :=
  let below := deny.takeWhile fun rule => rule.path.bytes < source.bytes
  let next := (deny.dropWhile fun rule => rule.path.bytes < source.bytes).head?
  match below.getLast? with
  | some previous =>
      if isSameOrAncestor previous.path source then some previous
      else next.filter fun rule => samePath source rule.path
  | none => next.filter fun rule => samePath source rule.path

def denyConflicts (limits : RulesLimits) (origins : OriginMap) (deny : List ResolvedDenyRule)
    (redirects : List ResolvedRedirectRule) : List Diagnostic :=
  redirects.flatMap fun redirect =>
    match denyConflict deny redirect.source with
    | some conflict =>
        [semanticDiagnostic limits kRuleConflict "deny_redirect_conflict" (originSpan origins redirect.id)
          .error (some (originSpan origins conflict.id))]
    | none => []

def validateDeny (limits : RulesLimits) (origins : OriginMap) (app : ResolvedAppPolicy) :
    ResolvedAppPolicy × List Diagnostic :=
  let (deny, redundant) := foldDeny limits origins none (sortOn denySortKey app.deny)
  ({ app with deny := deny }, redundant ++ denyConflicts limits origins deny app.redirects)

/-! ## Resolving one app -/

def resolveDeny (limits : RulesLimits) (origins : OriginMap) (rule : DenyRule) :
    Except Diagnostic ResolvedDenyRule :=
  if exceedsPathLimits limits rule.path then
    .error (semanticDiagnostic limits kResourceLimit "path_resource_limit" (originSpan origins rule.id) .error)
  else
    match normalizeRulePath limits rule.path with
    | none => .error (semanticDiagnostic limits kPathInvalid "invalid_path" (originSpan origins rule.id) .error)
    | some path => .ok ⟨rule.id, path⟩

def resolveRedirect (limits : RulesLimits) (origins : OriginMap) (rule : RedirectRule) :
    Except Diagnostic ResolvedRedirectRule :=
  if exceedsPathLimits limits rule.source || exceedsPathLimits limits rule.target then
    .error (semanticDiagnostic limits kResourceLimit "path_resource_limit" (originSpan origins rule.id) .error)
  else
    match normalizeRulePath limits rule.source, normalizeRulePath limits rule.target with
    | some source, some target => .ok ⟨rule.id, source, target⟩
    | _, _ => .error (semanticDiagnostic limits kPathInvalid "invalid_path" (originSpan origins rule.id) .error)

/-- The rules that pass, in order, and the diagnostics of those that do not. -/
def resolveRules {α β : Type} (resolve : α → Except Diagnostic β) : List α → List β × List Diagnostic
  | [] => ([], [])
  | rule :: rules =>
      let (resolved, emitted) := resolveRules resolve rules
      match resolve rule with
      | .ok value => (value :: resolved, emitted)
      | .error diagnostic => (resolved, diagnostic :: emitted)

/-- One round of the loop of `CompileRules` over the apps. -/
def resolveApp (limits : RulesLimits) (origins : OriginMap) (source : AppRules) :
    ResolvedAppPolicy × List Diagnostic :=
  let (deny, denyEmitted) := resolveRules (resolveDeny limits origins) source.deny
  let (redirects, redirectEmitted) := resolveRules (resolveRedirect limits origins) source.redirects
  let app : ResolvedAppPolicy :=
    { package := source.package, enabled := source.enabled, users := source.users, processes := source.processes
      filePicker := source.filePicker, deny := deny, redirects := redirects }
  let (app, redirectsEmitted) := validateRedirects limits origins app
  let (app, denysEmitted) := validateDeny limits origins app
  (app, denyEmitted ++ redirectEmitted ++ redirectsEmitted ++ denysEmitted)

/-! ## Canonical form -/

/-- `std::unique`. -/
def stdUnique {α : Type} [DecidableEq α] : List α → List α
  | [] => []
  | [a] => [a]
  | a :: b :: l => if a = b then stdUnique (b :: l) else a :: stdUnique (b :: l)

def canonicalRedirectKey (rule : CanonicalRedirectRule) : Bytes ×ₗ Bytes :=
  toLex (rule.source.bytes, rule.target.bytes)

def canonicalApp (source : ResolvedAppPolicy) : CanonicalAppPolicy where
  package := source.package
  users := stdUnique (sortOn id source.users)
  processes := stdUnique (sortOn id source.processes)
  filePicker := source.filePicker
  deny := sortOn NormalizedPath.bytes (source.deny.map ResolvedDenyRule.path)
  redirects := sortOn canonicalRedirectKey (source.redirects.map fun rule => ⟨rule.source, rule.target⟩)

def canonicalPolicy (resolved : ResolvedPolicy) : CanonicalPolicy where
  allowLegacyMount := resolved.allowLegacyMount
  apps := sortOn CanonicalAppPolicy.package
    ((resolved.apps.filter ResolvedAppPolicy.enabled).map canonicalApp)

def policyRequirements (canonical : CanonicalPolicy) : PolicyRequirements where
  mountActions := canonical.apps.foldl (fun actions app =>
    let actions := if app.redirects.isEmpty then actions else actions ||| kMountActionRedirect
    if app.deny.isEmpty then actions else actions ||| kMountActionDenyAnchor) 0
  provider := canonical.apps.any CanonicalAppPolicy.filePicker
  topology := !canonical.apps.isEmpty

/-- `std::to_string` of an `int32_t`. -/
def toDecimal (value : Int) : Bytes :=
  if value < 0 then 0x2d :: decimalBytes value.natAbs else decimalBytes value.natAbs

def orStar (values : List Bytes) : List Bytes := if values.isEmpty then [ascii "*"] else values

def toAppPolicy (source : CanonicalAppPolicy) : AppPolicy where
  package := source.package
  providerCompat := if source.filePicker then .virtualize else .off
  users := orStar (source.users.map toDecimal)
  processes := orStar source.processes
  mounts :=
    (source.deny.map fun deny => { action := .deny, visiblePath := deny.bytes }) ++
      source.redirects.map fun redirect =>
        { action := .redirect, visiblePath := redirect.source.bytes, backingPath := redirect.target.bytes
          depth := UInt16.ofNat redirect.source.componentOffsets.length }

def toPolicyDocument (canonical : CanonicalPolicy) : PolicyDocument where
  schema := 2
  failureMode := .kOpen
  allowLegacyStringBind := canonical.allowLegacyMount
  apps := canonical.apps.map toAppPolicy

def verifyPolicyBytes (bytes : Bytes) (expected : UInt64) : Bool :=
  match decodePolicy bytes with
  | .ok (decoded, generation) => generation == expected && computeContentGeneration decoded == expected
  | .error _ => false

def verifyPolicyBlob (policy : CanonicalPolicy) (blob : PolicyBlob) : Bool :=
  computeContentGeneration (toPolicyDocument policy) == blob.contentGeneration &&
    verifyPolicyBytes blob.bytes blob.contentGeneration

def encodeAndVerify (canonical : CanonicalPolicy) : Option PolicyBlob :=
  match encodePolicy (toPolicyDocument canonical) with
  | .error _ => none
  | .ok bytes =>
      let blob : PolicyBlob := ⟨bytes, computeContentGeneration (toPolicyDocument canonical)⟩
      if blob.contentGeneration != 0 && verifyPolicyBlob canonical blob then some blob else none

/-! ## CompileRules -/

structure RulesBuildResult where
  resolved : Option ResolvedPolicy := none
  canonical : Option CanonicalPolicy := none
  requirements : PolicyRequirements := {}
  blob : Option PolicyBlob := none
  diagnostics : List Diagnostic := []
  origins : OriginMap := []

/-- `RulesBuildResult::ok`. -/
def RulesBuildResult.ok (result : RulesBuildResult) : Bool :=
  result.resolved.isSome && result.canonical.isSome && result.blob.isSome && !hasErrors result.diagnostics

/-- The end of `CompileRules`, once no error is known. -/
def finishRules (limits : RulesLimits) (output : RulesBuildResult) (resolved : ResolvedPolicy) : RulesBuildResult :=
  let canonical := canonicalPolicy resolved
  let output := { output with resolved := some resolved, requirements := policyRequirements canonical }
  match encodeAndVerify canonical with
  | none => { output with
      diagnostics := addDiagnostic limits output.diagnostics
        (semanticDiagnostic limits kPolicyEncode "policy_encode_failed" {} .error) }
  | some blob => { output with blob := some blob, canonical := some canonical }

/-- `CompileRules` after `ParseRulesDocument`. -/
def compileParsed (limits : RulesLimits) (parsed : RulesCompileResult) : RulesBuildResult :=
  let output : RulesBuildResult := { origins := parsed.origins, diagnostics := parsed.diagnostics }
  match parsed.document with
  | none => output
  | some document =>
      if hasErrors parsed.diagnostics then output
      else
        match validateExpandedRuleLimit limits document.apps 0 with
        | some first => { output with
            diagnostics := addDiagnostic limits output.diagnostics (semanticDiagnostic limits kResourceLimit
              "expanded_rule_limit" (originSpan parsed.origins first) .error) }
        | none =>
            let apps := document.apps.map (resolveApp limits parsed.origins)
            let resolved : ResolvedPolicy :=
              { allowLegacyMount := document.compatibility.allowLegacyMount, apps := apps.map Prod.fst }
            let output := { output with
              diagnostics := addDiagnostics limits output.diagnostics (apps.flatMap Prod.snd) }
            if hasErrors output.diagnostics then { output with resolved := some resolved }
            else finishRules limits output resolved

def compileRules (toml : TomlParser) (source : SourceBuffer) (limits : RulesLimits) : RulesBuildResult :=
  compileParsed limits (parseRulesDocument toml source limits)

end PathGuard.Rules

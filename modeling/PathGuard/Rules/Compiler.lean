import PathGuard.Lib.Decimal
import PathGuard.Rules.Desugarer
import PathGuard.Rules.Document

/-!
# The rules parser

`rules/src/compiler.cpp`: `ParseRulesDocument` probes the format, scans and desugars the source, has the result
parsed as TOML and decodes the tree. `toml::parse` is a parameter; `TomlNode` is what the decoder sees of its
result.

* `TomlNode`, `TomlParser` : the tree and the parser that makes it;
* `Decoder` : what is decoded so far, with its diagnostics and origins;
* `decodeDesugaredRules`, `parseRulesDocument` : the decoder, and the whole of the parser.
-/

namespace PathGuard.Rules

/-! ## The tree of the TOML parser -/

structure SourcePosition where
  line : Nat
  column : Nat
  deriving DecidableEq, Repr

structure SourceRegion where
  first : SourcePosition
  last : SourcePosition
  deriving DecidableEq, Repr

structure TomlKey where
  str : Bytes
  source : SourceRegion
  deriving DecidableEq, Repr

/-- A node. The entries of a table come in the order of their keys, which are all different. A floating-point
value shows only as the integer it is equal to, if it is equal to one; dates and times show as `other`. -/
inductive TomlNode
  | table (source : SourceRegion) (isInline : Bool) (entries : List (TomlKey × TomlNode))
  | array (source : SourceRegion) (items : List TomlNode)
  | string (source : SourceRegion) (value : Bytes)
  | integer (source : SourceRegion) (value : Int)
  | floatingPoint (source : SourceRegion) (whole : Option Int)
  | boolean (source : SourceRegion) (value : Bool)
  | other (source : SourceRegion)

namespace TomlNode

def source : TomlNode → SourceRegion
  | table source .. => source
  | array source _ => source
  | string source _ => source
  | integer source _ => source
  | floatingPoint source _ => source
  | boolean source _ => source
  | other source => source

def asTable : TomlNode → Option (List (TomlKey × TomlNode))
  | table _ _ entries => some entries
  | _ => none

def asArray : TomlNode → Option (List TomlNode)
  | array _ items => some items
  | _ => none

/-- `value<std::string>()`. -/
def stringValue : TomlNode → Option Bytes
  | string _ value => some value
  | _ => none

/-- `value<std::int64_t>()`. -/
def integerValue : TomlNode → Option Int
  | integer _ value => some value
  | floatingPoint _ whole => whole
  | boolean _ value => some (if value then 1 else 0)
  | _ => none

/-- `value<bool>()`. -/
def boolValue : TomlNode → Option Bool
  | boolean _ value => some value
  | integer _ value => some (value != 0)
  | _ => none

end TomlNode

/-- `table::get`. -/
def tomlGet (entries : List (TomlKey × TomlNode)) (key : Bytes) : Option TomlNode :=
  (entries.find? fun entry => entry.1.str == key).map Prod.snd

/-- `toml::parse`: the text and the file name in, the entries of the root table or the region of the error out. -/
abbrev TomlParser := Bytes → Bytes → Except SourceRegion (List (TomlKey × TomlNode))

/-! ## Positions -/

def utf8Width (value : UInt8) : Nat :=
  if value &&& 0x80 = 0 then 1
  else if value &&& 0xe0 = 0xc0 then 2
  else if value &&& 0xf0 = 0xe0 then 3
  else if value &&& 0xf8 = 0xf0 then 4
  else 1

/-- The starts of the lines after the first; `offset` is that of the first byte of `rest`. -/
def lineStartsAfter : Bytes → Nat → List Nat
  | [], _ => []
  | value :: rest, offset =>
      if value = lineFeed then (offset + 1) :: lineStartsAfter rest (offset + 1)
      else lineStartsAfter rest (offset + 1)

def lineStarts (text : Bytes) : List Nat := 0 :: lineStartsAfter text 0

/-- The loop of `ToByte`; a fuel of the text's size is enough. -/
def columnOffset (text : Bytes) (wanted : Nat) : Nat → Nat → Nat → Nat
  | 0, offset, _ => offset
  | fuel + 1, offset, column =>
      match text[offset]? with
      | none => offset
      | some value =>
          if column < wanted && value != lineFeed then
            if value = carriageReturn then columnOffset text wanted fuel (offset + 1) column
            else columnOffset text wanted fuel (offset + min (utf8Width value) (text.length - offset)) (column + 1)
          else offset

/-- `GeneratedPositionIndex::ToByte`. -/
def toByte (text : Bytes) (position : SourcePosition) : Nat :=
  if position.line = 0 then text.length
  else
    match (lineStarts text)[position.line - 1]? with
    | none => text.length
    | some offset => columnOffset text position.column text.length offset 1

/-- `GeneratedPositionIndex::Region`. -/
def regionSpan (text : Bytes) (region : SourceRegion) : ByteSpan := ⟨toByte text region.first, toByte text region.last⟩

/-! ## Names -/

def isAlpha (value : UInt8) : Bool := 0x41 ≤ value && value ≤ 0x5a || 0x61 ≤ value && value ≤ 0x7a

def isAlnum (value : UInt8) : Bool := isAlpha value || 0x30 ≤ value && value ≤ 0x39

/-- One component of a package name. -/
def isPackagePart (part : Bytes) : Bool :=
  match part with
  | [] => false
  | first :: rest => isAlpha first && rest.all fun value => isAlnum value || value == 0x5f

/-- The components `IsPackageName` visits: its loop ends at the end of the input, so it does not look at the empty
one after a dot that comes last. -/
def packageParts (value : Bytes) : List Bytes :=
  let parts := value.splitOn dotSign
  if parts.getLast? = some [] then parts.dropLast else parts

def isPackageName (value : Bytes) : Bool :=
  let parts := packageParts value
  parts.all isPackagePart && 2 ≤ parts.length

def isProcessName (package process : Bytes) : Bool :=
  process == package ||
    package.isPrefixOf process && package.length + 1 < process.length &&
      process[package.length]? == some 0x3a &&
      (process.drop (package.length + 1)).all fun value => isAlnum value || value == 0x5f || value == dotSign

/-! ## Decoder -/

structure InlineNode where
  generated : ByteSpan
  path : List Bytes
  deriving DecidableEq, Repr

mutual

def collectInlineNodes (text : Bytes) : TomlNode → List Bytes → List InlineNode
  | .table source isInline entries, path =>
      (if isInline then [⟨regionSpan text source, path⟩] else []) ++ collectEntries text entries path
  | .array _ items, path => collectItems text items 0 path
  | .string .., _ => []
  | .integer .., _ => []
  | .floatingPoint .., _ => []
  | .boolean .., _ => []
  | .other _, _ => []

def collectEntries (text : Bytes) : List (TomlKey × TomlNode) → List Bytes → List InlineNode
  | [], _ => []
  | (key, node) :: entries, path =>
      collectInlineNodes text node (path ++ [key.str]) ++ collectEntries text entries path

def collectItems (text : Bytes) : List TomlNode → Nat → List Bytes → List InlineNode
  | [], _, _ => []
  | node :: items, index, path =>
      collectInlineNodes text node (path ++ [decimalBytes index]) ++ collectItems text items (index + 1) path

end

def isRedirectScope (path : List Bytes) : Bool :=
  match path with
  | [apps, package, redirect, _] => apps == ascii "apps" && !package.isEmpty && redirect == ascii "redirect"
  | _ => false

/-- What the decoder writes to. -/
structure Decoder where
  diagnostics : List Diagnostic := []
  origins : OriginMap := []
  nextRuleId : RuleId := 1

/-- What it only reads: the limits, the map back to the source, and the redirects bound to the tables at their
paths. -/
structure DecoderContext where
  limits : RulesLimits
  original : SourceRegion → ByteSpan
  bound : List (List Bytes × GeneratedRedirect)

/-- `Decoder::Add`. -/
def Decoder.add (limits : RulesLimits) (decoder : Decoder) (code messageKey : String) (span : ByteSpan)
    (phase : DiagnosticPhase) (fieldPath : Bytes) : Decoder :=
  if decoder.diagnostics.length < max limits.maxDiagnostics 1 then
    { decoder with diagnostics := decoder.diagnostics ++
        [{ code := code, messageKey := messageKey, primary := span, phase := phase, fieldPath := fieldPath }] }
  else if decoder.diagnostics.getLast?.any fun diagnostic => !diagnostic.omitted then
    { decoder with diagnostics := decoder.diagnostics.dropLast ++
        [{ code := kDiagnosticsOmitted, messageKey := "rules.diagnostics_omitted", primary := span, phase := phase
           omitted := true }] }
  else decoder

/-- The loop over the redirects in `BindGenerated`; `nodes` have different spans. -/
def bindRedirects (limits : RulesLimits) (nodes : List InlineNode) :
    List GeneratedRedirect → List ByteSpan → List (List Bytes × GeneratedRedirect) → Decoder →
      Except Decoder (List (List Bytes × GeneratedRedirect))
  | [], _, bound, _ => .ok bound
  | redirect :: redirects, spans, bound, decoder =>
      if spans.contains redirect.generatedTable then
        .error (decoder.add limits kDesugarInternal "rules.generated_duplicate" redirect.originalRule .internal [])
      else
        match nodes.find? fun node => node.generated == redirect.generatedTable with
        | none =>
            .error (decoder.add limits kDesugarInternal "rules.generated_unmatched" redirect.originalRule .internal [])
        | some node =>
            bindRedirects limits nodes redirects (spans ++ [redirect.generatedTable])
              (bound ++ [(node.path, redirect)]) decoder

/-- The loop over the inline nodes that looks for redirects out of place. -/
def checkScopes (limits : RulesLimits) (bound : List (List Bytes × GeneratedRedirect)) :
    List InlineNode → Decoder → Bool × Decoder
  | [], decoder => (true, decoder)
  | node :: nodes, decoder =>
      match bound.lookup node.path with
      | some redirect =>
          if isRedirectScope node.path then checkScopes limits bound nodes decoder
          else
            let decoder := decoder.add limits kRuleArrowScope "rules.arrow_scope" redirect.originalRule .decode
              (ascii "/apps/<package>/redirect")
            (false, (checkScopes limits bound nodes decoder).2)
      | none => checkScopes limits bound nodes decoder

/-- Whether `nodes_by_span` takes every node. -/
def distinctSpans (nodes : List InlineNode) : Bool := decide (nodes.map InlineNode.generated).Nodup

/-- `BindGenerated`: the bound redirects when there is no error. A node is bound at most once, since the spans of
the redirects are different too. -/
def bindGenerated (limits : RulesLimits) (text : Bytes) (root : List (TomlKey × TomlNode))
    (redirects : List GeneratedRedirect) (decoder : Decoder) :
    Except Decoder (List (List Bytes × GeneratedRedirect)) :=
  let nodes := collectEntries text root []
  if !distinctSpans nodes then
    .error (decoder.add limits kDesugarInternal "rules.generated_duplicate" {} .internal [])
  else
    match bindRedirects limits nodes redirects [] [] decoder with
    | .error decoder => .error decoder
    | .ok bound =>
        match checkScopes limits bound nodes decoder with
        | (true, _) => .ok bound
        | (false, decoder) => .error decoder

/-- `CheckFields`. -/
def checkFields (context : DecoderContext) (allowed : List Bytes) (path : Bytes) :
    List (TomlKey × TomlNode) → Decoder → Bool × Decoder
  | [], decoder => (true, decoder)
  | (key, _) :: entries, decoder =>
      if allowed.contains key.str then checkFields context allowed path entries decoder
      else
        let decoder := decoder.add context.limits kUnknownField "rules.unknown_field" (context.original key.source)
          .decode (path ++ ascii "/" ++ key.str)
        (false, (checkFields context allowed path entries decoder).2)

/-- `DecodeBool`: the value of the field, or what it was. -/
def decodeBool (context : DecoderContext) (entries : List (TomlKey × TomlNode)) (key path : Bytes) (output : Bool)
    (decoder : Decoder) : Bool × Bool × Decoder :=
  match tomlGet entries key with
  | none => (true, output, decoder)
  | some node =>
      match node.boolValue with
      | none => (false, output, decoder.add context.limits kTypeMismatch "rules.boolean_required"
          (context.original node.source) .decode path)
      | some value => (true, value, decoder)

/-- The loop of `DecodeUsers` and of `DecodeProcesses`. A value is in `unique` exactly when it was put out. -/
def decodeUniqueItems {α : Type} [DecidableEq α] (context : DecoderContext) (valueOf : TomlNode → Option α)
    (refuses : α → Bool) (mismatchKey invalidKey : String) (path : Bytes) :
    List TomlNode → List α → Decoder → Bool × List α × Decoder
  | [], output, decoder => (true, output, decoder)
  | node :: items, output, decoder =>
      match valueOf node with
      | none =>
          let decoder := decoder.add context.limits kTypeMismatch mismatchKey (context.original node.source) .decode path
          (false, (decodeUniqueItems context valueOf refuses mismatchKey invalidKey path items output decoder).2)
      | some value =>
          if refuses value || output.contains value then
            let decoder := decoder.add context.limits kInvalidValue invalidKey (context.original node.source) .decode path
            (false, (decodeUniqueItems context valueOf refuses mismatchKey invalidKey path items output decoder).2)
          else decodeUniqueItems context valueOf refuses mismatchKey invalidKey path items (output ++ [value]) decoder

def decodeUserItems (context : DecoderContext) (path : Bytes) :
    List TomlNode → List Int → Decoder → Bool × List Int × Decoder :=
  decodeUniqueItems context TomlNode.integerValue (fun value => value < 0 || 99999 < value) "rules.integer_required"
    "rules.user_invalid" path

def decodeUsers (context : DecoderContext) (node : TomlNode) (path : Bytes) (output : List Int) (decoder : Decoder) :
    Bool × List Int × Decoder :=
  match node.asArray with
  | none => (false, output, decoder.add context.limits kTypeMismatch "rules.integer_array_required"
      (context.original node.source) .decode path)
  | some items =>
      let (valid, users, decoder) := decodeUserItems context path items [] decoder
      if users.isEmpty then
        (false, users, decoder.add context.limits kInvalidValue "rules.users_empty" (context.original node.source)
          .decode path)
      else (valid, users, decoder)

def decodeProcessItems (context : DecoderContext) (package path : Bytes) :
    List TomlNode → List Bytes → Decoder → Bool × List Bytes × Decoder :=
  decodeUniqueItems context TomlNode.stringValue (fun value => !isProcessName package value) "rules.string_required"
    "rules.process_invalid" path

def decodeProcesses (context : DecoderContext) (node : TomlNode) (package path : Bytes) (decoder : Decoder) :
    Bool × List Bytes × Decoder :=
  match node.asArray with
  | none => (false, [], decoder.add context.limits kTypeMismatch "rules.string_array_required"
      (context.original node.source) .decode path)
  | some items => decodeProcessItems context package path items [] decoder

/-- `OriginMap::Add`, and the diagnostic when the id is taken. -/
def Decoder.addOrigin (limits : RulesLimits) (decoder : Decoder) (id : RuleId) (origin : RuleOrigin) (path : Bytes) :
    Bool × Decoder :=
  match OriginMap.add decoder.origins id origin with
  | some origins => (true, { decoder with origins := origins })
  | none => (false, decoder.add limits kDesugarInternal "rules.origin_duplicate" origin.primary .internal path)

/-- The loop of `DecodeDeny`. -/
def decodeDenyItems (context : DecoderContext) (path : Bytes) :
    List TomlNode → List DenyRule → Decoder → Bool × List DenyRule × Decoder
  | [], output, decoder => (true, output, decoder)
  | node :: items, output, decoder =>
      match node.stringValue with
      | none =>
          let decoder := decoder.add context.limits kTypeMismatch "rules.string_required"
            (context.original node.source) .decode path
          (false, (decodeDenyItems context path items output decoder).2)
      | some value =>
          let id := decoder.nextRuleId
          let decoder := { decoder with nextRuleId := id + 1 }
          let (added, decoder) := decoder.addOrigin context.limits id { primary := context.original node.source } path
          let (valid, output, decoder) := decodeDenyItems context path items (output ++ [⟨id, value⟩]) decoder
          (added && valid, output, decoder)

def decodeDeny (context : DecoderContext) (node : TomlNode) (path : Bytes) (decoder : Decoder) :
    Bool × List DenyRule × Decoder :=
  match node.asArray with
  | none => (false, [], decoder.add context.limits kTypeMismatch "rules.string_array_required"
      (context.original node.source) .decode path)
  | some items => decodeDenyItems context path items [] decoder

/-- The two strings of a generated table. -/
def generatedOperands (entries : List (TomlKey × TomlNode)) : Option (Bytes × Bytes) :=
  if entries.length ≠ 2 then none
  else do
    let source ← (← tomlGet entries (ascii "from")).stringValue
    let target ← (← tomlGet entries (ascii "to")).stringValue
    return (source, target)

/-- The loop of `DecodeRedirect`; `index` is that of the first item, `base` the path of the array. -/
def decodeRedirectItems (context : DecoderContext) (base : List Bytes) (path : Bytes) :
    List TomlNode → Nat → List RedirectRule → Decoder → Bool × List RedirectRule × Decoder
  | [], _, output, decoder => (true, output, decoder)
  | node :: items, index, output, decoder =>
      match node.asTable, context.bound.lookup (base ++ [decimalBytes index]) with
      | some entries, some generated =>
          match generatedOperands entries with
          | none =>
              let decoder := decoder.add context.limits kDesugarInternal "rules.generated_shape_invalid"
                generated.originalRule .internal path
              (false, (decodeRedirectItems context base path items (index + 1) output decoder).2)
          | some (source, target) =>
              let (added, decoder) := decoder.addOrigin context.limits generated.id
                { primary := generated.originalRule, source := generated.originalSource
                  arrow := generated.originalArrow, target := generated.originalTarget
                  hasRedirectOperands := true } path
              let (valid, output, decoder) := decodeRedirectItems context base path items (index + 1)
                (output ++ [⟨generated.id, source, target⟩]) decoder
              (added && valid, output, decoder)
      | _, _ =>
          let decoder := decoder.add context.limits kRedirectSyntax "rules.redirect_arrow_required"
            (context.original node.source) .decode path
          (false, (decodeRedirectItems context base path items (index + 1) output decoder).2)

def decodeRedirect (context : DecoderContext) (base : List Bytes) (node : TomlNode) (path : Bytes)
    (decoder : Decoder) : Bool × List RedirectRule × Decoder :=
  match node.asArray with
  | none => (false, [], decoder.add context.limits kRedirectSyntax "rules.redirect_array_required"
      (context.original node.source) .decode path)
  | some items => decodeRedirectItems context base path items 0 [] decoder

/-- A field that may be missing. -/
def decodeField {α : Type} (entries : List (TomlKey × TomlNode)) (key : Bytes) (unset : α)
    (decode : TomlNode → Decoder → Bool × α × Decoder) (decoder : Decoder) : Bool × α × Decoder :=
  match tomlGet entries key with
  | none => (true, unset, decoder)
  | some node => decode node decoder

def decodeApp (context : DecoderContext) (package : Bytes) (region : SourceRegion)
    (entries : List (TomlKey × TomlNode)) (decoder : Decoder) : Bool × AppRules × Decoder :=
  let base := ascii "/apps/" ++ package
  let allowed := ["enabled", "users", "processes", "file_picker", "deny", "redirect"].map ascii
  let (fieldsValid, decoder) := checkFields context allowed base entries decoder
  let (enabledValid, enabled, decoder) :=
    decodeBool context entries (ascii "enabled") (base ++ ascii "/enabled") true decoder
  let (pickerValid, filePicker, decoder) :=
    decodeBool context entries (ascii "file_picker") (base ++ ascii "/file_picker") false decoder
  let (usersValid, users, decoder) := decodeField entries (ascii "users") [0]
    (fun node => decodeUsers context node (base ++ ascii "/users") [0]) decoder
  let (processesValid, processes, decoder) := decodeField entries (ascii "processes") []
    (fun node => decodeProcesses context node package (base ++ ascii "/processes")) decoder
  let (denyValid, deny, decoder) := decodeField entries (ascii "deny") []
    (fun node => decodeDeny context node (base ++ ascii "/deny")) decoder
  let (redirectValid, redirects, decoder) := decodeField entries (ascii "redirect") []
    (fun node => decodeRedirect context [ascii "apps", package, ascii "redirect"] node (base ++ ascii "/redirect"))
    decoder
  let app : AppRules := { package, enabled, users, processes, filePicker, deny, redirects }
  let valid := fieldsValid && enabledValid && pickerValid && usersValid && processesValid && denyValid && redirectValid
  if context.limits.maxRulesPerApp < deny.length + redirects.length then
    (false, app, decoder.add context.limits kResourceLimit "rules.app_rule_limit" (context.original region) .decode
      base)
  else (valid, app, decoder)

/-- The loop over the apps. -/
def decodeApps (context : DecoderContext) :
    List (TomlKey × TomlNode) → List AppRules → Decoder → Bool × List AppRules × Decoder
  | [], apps, decoder => (true, apps, decoder)
  | (key, node) :: entries, apps, decoder =>
      if !isPackageName key.str then
        let decoder := decoder.add context.limits kInvalidValue "rules.package_invalid" (context.original key.source)
          .decode (ascii "/apps/" ++ key.str)
        (false, (decodeApps context entries apps decoder).2)
      else
        match node.asTable with
        | none =>
            let decoder := decoder.add context.limits kTypeMismatch "rules.app_type" (context.original node.source)
              .decode (ascii "/apps/" ++ key.str)
            (false, (decodeApps context entries apps decoder).2)
        | some table =>
            let (appValid, app, decoder) := decodeApp context key.str node.source table decoder
            let (valid, apps, decoder) := decodeApps context entries (apps ++ [app]) decoder
            (appValid && valid, apps, decoder)

def decodeCompatibility (context : DecoderContext) (entries : List (TomlKey × TomlNode)) (decoder : Decoder) :
    Bool × CompatibilityRules × Decoder :=
  let (fieldsValid, decoder) := checkFields context [ascii "allow_legacy_mount"] (ascii "/compatibility") entries
    decoder
  let (valid, allowLegacyMount, decoder) := decodeBool context entries (ascii "allow_legacy_mount")
    (ascii "/compatibility/allow_legacy_mount") false decoder
  (fieldsValid && valid, { allowLegacyMount := allowLegacyMount }, decoder)

/-- The `compatibility` field of the root. -/
def decodeCompatibilityField (context : DecoderContext) (root : List (TomlKey × TomlNode)) (decoder : Decoder) :
    Bool × CompatibilityRules × Decoder :=
  match tomlGet root (ascii "compatibility") with
  | none => (true, {}, decoder)
  | some node =>
      match node.asTable with
      | none => (false, {}, decoder.add context.limits kTypeMismatch "rules.compatibility_type"
          (context.original node.source) .decode (ascii "/compatibility"))
      | some table => decodeCompatibility context table decoder

/-- The `format` field of the root. -/
def decodeFormat (context : DecoderContext) (root : List (TomlKey × TomlNode)) (decoder : Decoder) :
    Bool × Decoder :=
  let format := tomlGet root (ascii "format")
  if format.bind TomlNode.integerValue = some 1 then (true, decoder)
  else
    let span := match format with
      | some node => context.original node.source
      | none => {}
    (false, decoder.add context.limits kTypeMismatch "rules.format_type" span .decode (ascii "/format"))

def decodeRoot (context : DecoderContext) (root : List (TomlKey × TomlNode)) (decoder : Decoder) :
    Bool × RulesDocument × Decoder :=
  let (fieldsValid, decoder) := checkFields context (["format", "compatibility", "apps"].map ascii) [] root decoder
  let (formatValid, decoder) := decodeFormat context root decoder
  let (compatibilityValid, compatibility, decoder) := decodeCompatibilityField context root decoder
  let appsNode := tomlGet root (ascii "apps")
  match appsNode.bind TomlNode.asTable with
  | some (entry :: entries) =>
      let table := entry :: entries
      let span := match appsNode with
        | some node => context.original node.source
        | none => {}
      if context.limits.maxApps < table.length then
        (false, { compatibility }, decoder.add context.limits kResourceLimit "rules.apps_limit" span .decode
          (ascii "/apps"))
      else
        let (appsValid, apps, decoder) := decodeApps context table [] decoder
        (fieldsValid && formatValid && compatibilityValid && appsValid, { compatibility, apps }, decoder)
  | _ =>
      let span := match appsNode with
        | some node => context.original node.source
        | none => {}
      (false, { compatibility }, decoder.add context.limits kTypeMismatch "rules.apps_required" span .decode
        (ascii "/apps"))

/-- `DecodeDesugaredRules`, that is `Decoder::Run`. -/
def decodeDesugaredRules (toml : TomlParser) (source : SourceBuffer) (desugared : DesugarResult)
    (limits : RulesLimits) : RulesCompileResult :=
  if !desugared.ok then { diagnostics := desugared.diagnostics }
  else
    let text := desugared.parserInput source
    let original := fun region => (desugared.rewriteMap.mapGeneratedSpan (regionSpan text region)).getD {}
    let decoder : Decoder := {}
    match toml text source.fileName with
    | .error region =>
        { diagnostics := (decoder.add limits kTomlParse "rules.toml_parse" (original region) .parse []).diagnostics }
    | .ok root =>
        match bindGenerated limits text root desugared.redirects decoder with
        | .error decoder => { diagnostics := decoder.diagnostics }
        | .ok bound =>
            let nextRuleId := desugared.redirects.foldl (fun id redirect => max id (redirect.id + 1)) 1
            let (decoded, document, decoder) :=
              decodeRoot ⟨limits, original, bound⟩ root { decoder with nextRuleId := nextRuleId }
            if !decoded || !decoder.diagnostics.isEmpty then { diagnostics := decoder.diagnostics }
            else { document := some document, origins := decoder.origins }

/-! ## ParseRulesDocument -/

/-- The rewrites of the candidates, with ids from `id` on. -/
def numberRewrites : Nat → List ArrowCandidate → List ArrowRewrite
  | _, [] => []
  | id, candidate :: candidates =>
      ⟨id, candidate.rule, candidate.source, candidate.arrow, candidate.target⟩ :: numberRewrites (id + 1) candidates

def parseRulesDocument (toml : TomlParser) (source : SourceBuffer) (limits : RulesLimits) : RulesCompileResult :=
  match probeRulesFormat source with
  | .error diagnostic => { diagnostics := [diagnostic] }
  | .ok _ =>
      let lexical := scanArrowCandidates source limits
      if !lexical.parserAllowed then { diagnostics := lexical.diagnostics }
      else
        let desugared := emitDesugaredSource source (numberRewrites 1 lexical.candidates) limits
        if !desugared.ok then { diagnostics := desugared.diagnostics }
        else decodeDesugaredRules toml source desugared limits

end PathGuard.Rules

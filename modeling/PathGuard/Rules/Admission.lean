import PathGuard.Rules.Semantic

/-!
# Diagnostics as text, and admission

`RenderDiagnosticText` of `rules/src/diagnostic.cpp` with the line index of `source.cpp`, and `AdmitPolicy` of
`rules/src/semantic.cpp`: what is asked of a device before a compiled policy is published on it.
-/

namespace PathGuard.Rules

/-! ## Diagnostics as text -/

namespace LineIndex

/-- The bytes of the character at an offset; a character that does not end before `limit` counts as one byte. -/
def utf8Width (bytes : Bytes) (offset limit : Nat) : Nat :=
  let width := Rules.utf8Width (bytes.getD offset 0)
  if limit < offset + width then 1
  else if ((bytes.drop (offset + 1)).take (width - 1)).all fun byte => byte &&& 0xc0 = 0x80 then width
  else 1

/-- The columns from `cursor` to `offset`; a carriage return before a line feed has none. -/
def columnsBetween (bytes : Bytes) (offset : Nat) : Nat → Nat → Nat
  | 0, _ => 0
  | fuel + 1, cursor =>
      if offset ≤ cursor then 0
      else if bytes[cursor]? = some carriageReturn && bytes[cursor + 1]? = some lineFeed then
        columnsBetween bytes offset fuel (cursor + 1)
      else 1 + columnsBetween bytes offset fuel (cursor + utf8Width bytes cursor offset)

def positionAt (bytes : Bytes) (offset : Nat) : Option SourcePosition :=
  if bytes.length < offset then none
  else
    let line := ((lineStarts bytes).takeWhile (· ≤ offset)).length - 1
    let lineStart := (lineStarts bytes).getD line 0
    let cursor := if line = 0 && hasUtf8Bom bytes && lineStart < 3 && 3 ≤ offset then 3 else lineStart
    some ⟨line + 1, 1 + columnsBetween bytes offset offset cursor⟩

end LineIndex

def severityName : DiagnosticSeverity → String
  | .warning => "warning"
  | .error => "error"

def renderDiagnosticText (diagnostic : Diagnostic) (source : SourceBuffer) : Bytes :=
  let position := (LineIndex.positionAt source.bytes diagnostic.primary.first).getD ⟨1, 1⟩
  source.fileName ++ ascii ":" ++ decimalBytes position.line ++ ascii ":" ++ decimalBytes position.column ++
    ascii ": " ++ ascii (severityName diagnostic.severity) ++ ascii "[" ++ ascii diagnostic.code ++ ascii "] " ++
    ascii diagnostic.messageKey ++
    (if diagnostic.fieldPath.isEmpty then [] else ascii " (" ++ diagnostic.fieldPath ++ ascii ")")

/-! ## AdmitPolicy -/

structure DeviceSnapshot where
  mount : MountBackendCapabilities := {}
  providerSupported : Bool := false
  topologySupported : Bool := false
  capabilityGeneration : UInt64 := 0
  topologyGeneration : UInt64 := 0
  deriving DecidableEq, Repr

structure AdmissionResult where
  admitted : Bool
  backend : MountBackendKind
  reason : MountBackendReason
  contentGeneration : UInt64
  capabilityGeneration : UInt64
  topologyGeneration : UInt64
  deriving DecidableEq, Repr

def admitPolicy (policy : CanonicalPolicy) (requirements : PolicyRequirements) (snapshot : DeviceSnapshot) :
    AdmissionResult :=
  let selection := selectMountBackend requirements.mountActions snapshot.mount policy.allowLegacyMount
  { admitted := selection.backend ≠ .unsupported && (!requirements.provider || snapshot.providerSupported) &&
      (!requirements.topology || snapshot.topologySupported)
    backend := selection.backend
    reason := selection.reason
    contentGeneration := computeContentGeneration (toPolicyDocument policy)
    capabilityGeneration := snapshot.capabilityGeneration
    topologyGeneration := snapshot.topologyGeneration }

end PathGuard.Rules

import PathGuard.Rules.Contract

/-!
# Source texts and the format probe

`rules/src/source.cpp` and `rules/src/format_probe.cpp`. Only `SourceBuffer::Create` builds a buffer, so every
offset into one fits 32 bits.
-/

namespace PathGuard.Rules

def lineFeed : UInt8 := 0x0a
def carriageReturn : UInt8 := 0x0d
def hashSign : UInt8 := 0x23
def equalsSign : UInt8 := 0x3d

structure SourceBuffer where
  fileName : Bytes
  bytes : Bytes
  size_lt : bytes.length < 2 ^ 32

namespace SourceBuffer

def size (source : SourceBuffer) : Nat := source.bytes.length

def create (fileName bytes : Bytes) (limits : RulesLimits) : Except Diagnostic SourceBuffer :=
  if limits.maxSourceBytes < bytes.length then
    .error { code := kResourceLimit, messageKey := "rules.source_too_large"
             primary := ⟨0, min bytes.length (2 ^ 32 - 1)⟩ }
  else if h : bytes.length < 2 ^ 32 then .ok ⟨fileName, bytes, h⟩
  else
    .error { code := kResourceLimit, messageKey := "rules.source_too_large"
             primary := ⟨0, min bytes.length (2 ^ 32 - 1)⟩ }

def isValidSpan (source : SourceBuffer) (span : ByteSpan) : Bool :=
  span.first ≤ span.last && span.last ≤ source.bytes.length

end SourceBuffer

/-- `bytes.substr(span.begin, span.size())`. -/
def sliceSpan (bytes : Bytes) (span : ByteSpan) : Bytes := (bytes.drop span.first).take span.size

/-! ## ProbeRulesFormat -/

def hasUtf8Bom (bytes : Bytes) : Bool := [0xef, 0xbb, 0xbf].isPrefixOf bytes

def isHorizontalSpace (value : UInt8) : Bool := value == 0x20 || value == 0x09

def isNewline (value : UInt8) : Bool := value == carriageReturn || value == lineFeed

/-- The offset the loop `while (p(bytes[offset])) ++offset` ends at. -/
def skipWhile (p : UInt8 → Bool) (bytes : Bytes) (offset : Nat) : Nat :=
  offset + ((bytes.drop offset).takeWhile p).length

/-- How many bytes of blanks, line breaks and comments come first; the flag is set inside a comment. -/
def blankPrefix : Bool → Bytes → Nat
  | _, [] => 0
  | true, value :: rest => 1 + blankPrefix (value != lineFeed) rest
  | false, value :: rest =>
      if isHorizontalSpace value || isNewline value then 1 + blankPrefix false rest
      else if value == hashSign then 1 + blankPrefix true rest
      else 0

def formatError (code messageKey : String) (first last : Nat) : Diagnostic :=
  { code := code, messageKey := messageKey, primary := ⟨first, last⟩ }

/-- The end of a format value. -/
def endsFormatLine (value : UInt8) : Bool := value == hashSign || isNewline value

/-- The version 1, or the diagnostic. -/
def probeRulesFormat (source : SourceBuffer) : Except Diagnostic Nat :=
  let bytes := source.bytes
  let start := if hasUtf8Bom bytes then 3 else 0
  let declaration := start + blankPrefix false (bytes.drop start)
  if declaration = bytes.length then
    .error (formatError kFormatMissing "rules.format_missing" declaration declaration)
  else if (bytes.drop declaration).take 6 ≠ ascii "format" then
    .error (formatError kFormatInvalid "rules.format_must_be_first" declaration
      (min bytes.length (declaration + 1)))
  else
    let offset := declaration + 6
    if bytes[offset]?.any fun value => !isHorizontalSpace value && value != equalsSign then
      .error (formatError kFormatInvalid "rules.format_bare_key_required" declaration
        (min bytes.length (offset + 1)))
    else
      let offset := skipWhile isHorizontalSpace bytes offset
      if bytes[offset]? ≠ some equalsSign then
        .error (formatError kFormatInvalid "rules.format_equals_required" declaration offset)
      else
        let first := skipWhile isHorizontalSpace bytes (offset + 1)
        let last := skipWhile (fun value => !isHorizontalSpace value && !endsFormatLine value) bytes first
        let value := sliceSpan bytes ⟨first, last⟩
        let offset := skipWhile isHorizontalSpace bytes last
        if bytes[offset]?.any fun value => !endsFormatLine value then
          .error (formatError kFormatInvalid "rules.format_invalid_value" first (offset + 1))
        else if value = ascii "1" then .ok 1
        else if !value.isEmpty && value.all (fun digit => 0x30 ≤ digit && digit ≤ 0x39) &&
            (value == ascii "0" || value.head? != some 0x30) then
          .error (formatError kFormatUnsupported "rules.format_unsupported" first offset)
        else .error (formatError kFormatInvalid "rules.format_invalid_value" first offset)

end PathGuard.Rules

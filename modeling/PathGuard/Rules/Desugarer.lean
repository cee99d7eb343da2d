import PathGuard.Rules.ArrowScanner

/-!
# The desugarer

`rules/src/desugarer.cpp`: every arrow becomes an inline table that plain TOML can hold, and a map from the
generated text back to the source is kept beside it.

* `RewriteMap`, `mapPosition`, `mapGeneratedSpan` : the map and its two searches;
* `emitDesugaredSource` : the text and the map in one loop over the rewrites.
-/

namespace PathGuard.Rules

structure ArrowRewrite where
  id : RuleId
  rule : ByteSpan
  source : ByteSpan
  arrow : ByteSpan
  target : ByteSpan
  deriving DecidableEq, Repr

inductive RewriteSegmentKind
  | kCopied
  | kSyntheticRule
  | kSyntheticArrow
  deriving DecidableEq, Repr

structure RewriteSegment where
  generated : ByteSpan
  original : ByteSpan
  kind : RewriteSegmentKind
  deriving DecidableEq, Repr

/-- `RewriteMap`; the count of the queries is left out. -/
structure RewriteMap where
  segments : List RewriteSegment
  generatedSize : Nat
  originalSize : Nat
  deriving DecidableEq, Repr

structure GeneratedRedirect where
  id : RuleId
  originalRule : ByteSpan
  originalSource : ByteSpan
  originalArrow : ByteSpan
  originalTarget : ByteSpan
  generatedTable : ByteSpan
  generatedSource : ByteSpan
  generatedTarget : ByteSpan
  deriving DecidableEq, Repr

structure DesugarResult where
  generatedStorage : Option Bytes := none
  rewriteMap : RewriteMap
  redirects : List GeneratedRedirect := []
  diagnostics : List Diagnostic := []

def DesugarResult.ok (result : DesugarResult) : Bool := result.diagnostics.isEmpty

def DesugarResult.parserInput (result : DesugarResult) (source : SourceBuffer) : Bytes :=
  result.generatedStorage.getD source.bytes

namespace RewriteMap

def identity (sourceSize : Nat) : RewriteMap := ⟨[], sourceSize, sourceSize⟩

/-- The loop of `Create`: where the segments end, when they follow one another. -/
def checkSegments (generatedSize originalSize : Nat) : List RewriteSegment → Nat → Option Nat
  | [], expectedBegin => some expectedBegin
  | segment :: segments, expectedBegin =>
      if segment.generated.first ≠ expectedBegin || segment.generated.last ≤ segment.generated.first ||
          generatedSize < segment.generated.last || segment.original.last < segment.original.first ||
          originalSize < segment.original.last ||
          segment.kind == .kCopied && segment.generated.size ≠ segment.original.size then none
      else checkSegments generatedSize originalSize segments segment.generated.last

def create (segments : List RewriteSegment) (generatedSize originalSize : Nat) : Option RewriteMap :=
  if segments.isEmpty then none
  else if checkSegments generatedSize originalSize segments 0 = some generatedSize then
    some ⟨segments, generatedSize, originalSize⟩
  else none

/-- `MapPositionUnchecked`: the last segment that does not begin after the offset. -/
def mapPosition (map : RewriteMap) (offset : Nat) : Option ByteSpan :=
  if map.generatedSize < offset then none
  else if map.segments.isEmpty then
    if map.generatedSize ≠ map.originalSize then none else some ⟨offset, offset⟩
  else if offset = map.generatedSize then some ⟨map.originalSize, map.originalSize⟩
  else
    match (map.segments.takeWhile fun segment => segment.generated.first ≤ offset).getLast? with
    | none => none
    | some segment =>
        if segment.generated.last ≤ offset then none
        else if segment.kind ≠ .kCopied then some segment.original
        else
          let mapped := segment.original.first + (offset - segment.generated.first)
          some ⟨mapped, mapped⟩

/-- What a segment contributes to a span, if they meet. -/
def spanPart (span : ByteSpan) (segment : RewriteSegment) : Option ByteSpan :=
  let first := max span.first segment.generated.first
  let last := min span.last segment.generated.last
  if last ≤ first then none
  else if segment.kind = .kCopied then
    let delta := first - segment.generated.first
    some ⟨segment.original.first + delta, segment.original.first + delta + (last - first)⟩
  else some segment.original

def joinSpans (mapped : Option ByteSpan) (part : ByteSpan) : Option ByteSpan :=
  match mapped with
  | none => some part
  | some mapped => some ⟨min mapped.first part.first, max mapped.last part.last⟩

def mapGeneratedSpan (map : RewriteMap) (span : ByteSpan) : Option ByteSpan :=
  if span.last < span.first || map.generatedSize < span.last then none
  else if span.first = span.last then map.mapPosition span.first
  else if map.segments.isEmpty then
    if map.generatedSize ≠ map.originalSize then none else some span
  else (map.segments.filterMap (spanPart span)).foldl joinSpans none

end RewriteMap

/-! ## EmitDesugaredSource -/

def kPrefix : Bytes := ascii "\x7b from = "
def kMiddle : Bytes := ascii ", to = "
def kSuffix : Bytes := ascii " \x7d"

def desugarFailure (source : SourceBuffer) (code messageKey : String) (span : ByteSpan) : DesugarResult where
  rewriteMap := .identity source.size
  diagnostics := [{ code := code, messageKey := messageKey, primary := span }]

def isValidRewrite (source : SourceBuffer) (rewrite : ArrowRewrite) : Bool :=
  rewrite.id != 0 && source.isValidSpan rewrite.rule && source.isValidSpan rewrite.source &&
    source.isValidSpan rewrite.arrow && source.isValidSpan rewrite.target &&
    rewrite.rule.first == rewrite.source.first && rewrite.rule.last == rewrite.target.last &&
    rewrite.source.first < rewrite.source.last && rewrite.arrow.first < rewrite.arrow.last &&
    rewrite.target.first < rewrite.target.last && rewrite.source.last ≤ rewrite.arrow.first &&
    rewrite.arrow.last ≤ rewrite.target.first

/-- The size of what replaces a rule. -/
def replacementSize (rewrite : ArrowRewrite) : Nat :=
  kPrefix.length + rewrite.source.size + kMiddle.length + rewrite.target.size + kSuffix.length

/-- The first loop: the size of the generated text, or the failure. The rules follow one another inside the source,
so the subtraction stays exact and the sums stay far below the range of `size_t`. -/
def generatedSize (source : SourceBuffer) (limits : RulesLimits) :
    List ArrowRewrite → List RuleId → Nat → Nat → Except DesugarResult Nat
  | [], _, _, size => .ok size
  | rewrite :: rewrites, ids, previousEnd, size =>
      if !isValidRewrite source rewrite || rewrite.rule.first < previousEnd || ids.contains rewrite.id then
        .error (desugarFailure source kDesugarInternal "rules.desugar_invalid_rewrite" rewrite.rule)
      else
        let size := size - rewrite.rule.size + replacementSize rewrite
        if limits.maxGeneratedBytes < size || 2 ^ 32 ≤ size then
          .error (desugarFailure source kResourceLimit "rules.generated_too_large" rewrite.rule)
        else generatedSize source limits rewrites (ids ++ [rewrite.id]) rewrite.rule.last size

/-- The output so far. -/
structure Emission where
  output : Bytes := []
  segments : List RewriteSegment := []
  redirects : List GeneratedRedirect := []

/-- `append_segment`; nothing when the segments are used up. -/
def appendSegment (limits : RulesLimits) (emission : Emission) (bytes : Bytes) (original : ByteSpan)
    (kind : RewriteSegmentKind) : Option Emission :=
  if bytes.isEmpty then some emission
  else if limits.maxRewriteSegments ≤ emission.segments.length then none
  else
    let first := emission.output.length
    some { emission with
      output := emission.output ++ bytes
      segments := emission.segments ++ [⟨⟨first, first + bytes.length⟩, original, kind⟩] }

def appendCopied (source : SourceBuffer) (limits : RulesLimits) (emission : Emission) (span : ByteSpan) :
    Option Emission :=
  appendSegment limits emission (sliceSpan source.bytes span) span .kCopied

/-- One round of the second loop. -/
def emitRewrite (source : SourceBuffer) (limits : RulesLimits) (sourceCursor : Nat) (emission : Emission)
    (rewrite : ArrowRewrite) : Option Emission := do
  let emission ← appendCopied source limits emission ⟨sourceCursor, rewrite.rule.first⟩
  let tableBegin := emission.output.length
  let emission ← appendSegment limits emission kPrefix rewrite.rule .kSyntheticRule
  let sourceBegin := emission.output.length
  let emission ← appendCopied source limits emission rewrite.source
  let sourceEnd := emission.output.length
  let emission ← appendSegment limits emission kMiddle rewrite.arrow .kSyntheticArrow
  let targetBegin := emission.output.length
  let emission ← appendCopied source limits emission rewrite.target
  let targetEnd := emission.output.length
  let emission ← appendSegment limits emission kSuffix rewrite.rule .kSyntheticRule
  return { emission with
    redirects := emission.redirects ++
      [{ id := rewrite.id
         originalRule := rewrite.rule
         originalSource := rewrite.source
         originalArrow := rewrite.arrow
         originalTarget := rewrite.target
         generatedTable := ⟨tableBegin, emission.output.length⟩
         generatedSource := ⟨sourceBegin, sourceEnd⟩
         generatedTarget := ⟨targetBegin, targetEnd⟩ }] }

/-- The second loop: the output and the cursor after the last rewrite. -/
def emitRewrites (source : SourceBuffer) (limits : RulesLimits) :
    List ArrowRewrite → Nat → Emission → Except DesugarResult (Nat × Emission)
  | [], sourceCursor, emission => .ok (sourceCursor, emission)
  | rewrite :: rewrites, sourceCursor, emission =>
      match emitRewrite source limits sourceCursor emission rewrite with
      | none => .error (desugarFailure source kResourceLimit "rules.rewrite_segment_limit" rewrite.rule)
      | some emission => emitRewrites source limits rewrites rewrite.rule.last emission

/-- What `EmitDesugaredSource` does once the rewrites are known to be in order. -/
def finishEmission (source : SourceBuffer) (limits : RulesLimits) (size : Nat) (cursor : Nat) (emission : Emission) :
    DesugarResult :=
  match appendCopied source limits emission ⟨cursor, source.size⟩ with
  | none => desugarFailure source kDesugarInternal "rules.desugar_emit_mismatch" ⟨cursor, source.size⟩
  | some emission =>
      if emission.output.length ≠ size then
        desugarFailure source kDesugarInternal "rules.desugar_emit_mismatch" ⟨cursor, source.size⟩
      else
        match RewriteMap.create emission.segments emission.output.length source.size with
        | none => desugarFailure source kDesugarInternal "rules.desugar_map_invalid" ⟨0, source.size⟩
        | some map =>
            { generatedStorage := some emission.output, rewriteMap := map, redirects := emission.redirects }

def emitDesugaredSource (source : SourceBuffer) (rewrites : List ArrowRewrite) (limits : RulesLimits) :
    DesugarResult :=
  match rewrites with
  | [] => { rewriteMap := .identity source.size }
  | first :: _ =>
      if limits.maxRewrites < rewrites.length then
        desugarFailure source kResourceLimit "rules.rewrite_limit" first.rule
      else
        match generatedSize source limits rewrites [] 0 source.size with
        | .error failure => failure
        | .ok size =>
            match emitRewrites source limits rewrites 0 {} with
            | .error failure => failure
            | .ok (cursor, emission) => finishEmission source limits size cursor emission

end PathGuard.Rules

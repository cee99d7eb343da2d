import PathGuard.Rules.Source

/-!
# The arrow scanner

`rules/src/arrow_scanner.cpp`: a scan of the source for the `"source" -> "target"` elements of value arrays. It
knows just enough of TOML: strings, comments, brackets and whether a value comes next.

* `scanStringToken` : a string on one line or over several; `Scanner` : the state, with its frames and flags;
* `scanArrowCandidates` : the scan of a whole source.
-/

namespace PathGuard.Rules

inductive SignificantKind
  | kString
  | kMultilineString
  | kArrow
  | kOpenArray
  | kCloseArray
  | kOpenInlineTable
  | kCloseInlineTable
  | kComma
  | kEquals
  | kDot
  | kOther
  deriving DecidableEq, Repr

inductive FrameKind
  | kValueArray
  | kInlineTable
  | kTableHeader
  | kArrayTableHeader
  | kUnknownBracket
  | kUnknownBrace
  deriving DecidableEq, Repr

structure SignificantToken where
  kind : SignificantKind
  span : ByteSpan
  frameId : Nat
  deriving DecidableEq, Repr

structure Frame where
  kind : FrameKind
  id : Nat
  closing : UInt8
  closingCount : Nat
  deriving DecidableEq, Repr

inductive PendingStage
  | kWaitingTarget
  | kWaitingDelimiter
  deriving DecidableEq, Repr

structure PendingCandidate where
  stage : PendingStage
  source : ByteSpan
  arrow : ByteSpan
  target : ByteSpan
  arrayFrameId : Nat
  deriving DecidableEq, Repr

structure ArrowCandidate where
  rule : ByteSpan
  source : ByteSpan
  arrow : ByteSpan
  target : ByteSpan
  arrayFrameId : Nat
  deriving DecidableEq, Repr

structure ArrowScanResult where
  candidates : List ArrowCandidate := []
  diagnostics : List Diagnostic := []
  significantTokens : Nat := 0
  maxFrameDepth : Nat := 0
  bytesConsumed : Nat := 0
  openFramesAtEof : Nat := 0
  deriving DecidableEq, Repr

/-! ## Strings -/

def doubleQuote : UInt8 := 0x22
def singleQuote : UInt8 := 0x27
def backslash : UInt8 := 0x5c
def openBracket : UInt8 := 0x5b
def closeBracket : UInt8 := 0x5d
def openCurly : UInt8 := 0x7b
def closeCurly : UInt8 := 0x7d
def commaSign : UInt8 := 0x2c
def dotSign : UInt8 := 0x2e
def dash : UInt8 := 0x2d
def greaterSign : UInt8 := 0x3e

def isTokenBoundary (value : UInt8) : Bool :=
  isHorizontalSpace value || isNewline value || value == hashSign || value == doubleQuote ||
    value == singleQuote || value == openBracket || value == closeBracket || value == openCurly ||
    value == closeCurly || value == equalsSign || value == commaSign || value == dotSign

structure StringToken where
  last : Nat
  multiline : Bool
  terminated : Bool
  deriving DecidableEq, Repr

/-- `QuoteRun` at the front of `rest`. -/
def quoteRun (quote : UInt8) (rest : Bytes) : Nat := (rest.takeWhile (· == quote)).length

/-- The loop for a string on one line, at `offset`. -/
def scanSingleLine (quote : UInt8) (basic : Bool) : Bytes → Nat → Nat → StringToken
  | [], offset, _ => ⟨offset, false, false⟩
  | value :: rest, offset, slashRun =>
      if isNewline value then ⟨offset, false, false⟩
      else if value == quote && (!basic || slashRun % 2 == 0) then ⟨offset + 1, false, true⟩
      else scanSingleLine quote basic rest (offset + 1) (if basic && value == backslash then slashRun + 1 else 0)

/-- The loop for a string over several lines, at `offset`; `skip` counts the quotes of a run that did not end the
string and are still to be passed over. -/
def scanMultiline (quote : UInt8) (basic : Bool) : Nat → Bytes → Nat → Nat → StringToken
  | _, [], offset, _ => ⟨offset, true, false⟩
  | skip + 1, _ :: rest, offset, slashRun => scanMultiline quote basic skip rest (offset + 1) slashRun
  | 0, value :: rest, offset, slashRun =>
      if value == quote then
        let run := quoteRun quote (value :: rest)
        if 3 ≤ run && (!basic || slashRun % 2 == 0) then ⟨offset + min run 5, true, true⟩
        else if basic && slashRun % 2 == 1 && 4 ≤ run then ⟨offset + 1 + min (run - 1) 5, true, true⟩
        else scanMultiline quote basic (run - 1) rest (offset + 1) 0
      else scanMultiline quote basic 0 rest (offset + 1) (if basic && value == backslash then slashRun + 1 else 0)

/-- `ScanStringToken`, at a quote. -/
def scanStringToken (bytes : Bytes) (start : Nat) : StringToken :=
  match bytes.drop start with
  | [] => ⟨start, false, false⟩
  | quote :: rest =>
      if rest.take 2 = [quote, quote] then
        scanMultiline quote (quote == doubleQuote) 0 (rest.drop 2) (start + 3) 0
      else scanSingleLine quote (quote == doubleQuote) rest (start + 1) 0

/-! ## The scanner -/

structure Scanner where
  result : ArrowScanResult := {}
  frames : List Frame := []
  previous : Option SignificantToken := none
  last : Option SignificantToken := none
  pending : Option PendingCandidate := none
  suppressArrowFrame : Option Nat := none
  nextFrameId : Nat := 1
  atStatementStart : Bool := true
  expectingValue : Bool := false
  commentSinceSignificant : Bool := false
  hasError : Bool := false
  omitted : Bool := false
  stopped : Bool := false

namespace Scanner

/-- `frames_.back()`: the innermost frame comes last. -/
def currentFrame (s : Scanner) : Option Frame := s.frames.getLast?

def currentFrameId (s : Scanner) : Nat :=
  match s.currentFrame with
  | some frame => frame.id
  | none => 0

def currentFrameKind (s : Scanner) : FrameKind :=
  match s.currentFrame with
  | some frame => frame.kind
  | none => .kUnknownBracket

def isValueArrayFrame (s : Scanner) (id : Nat) : Bool :=
  s.frames.any fun frame => frame.id == id && frame.kind == .kValueArray

/-- `Scanner::AddDiagnostic`: once the list is full, its last entry says that more were left out. -/
def addDiagnostic (limits : RulesLimits) (s : Scanner) (code messageKey : String) (primary : ByteSpan) : Scanner :=
  let s := { s with hasError := true }
  if s.result.diagnostics.length < max limits.maxDiagnostics 1 then
    { s with result := { s.result with
        diagnostics := s.result.diagnostics ++ [{ code := code, messageKey := messageKey, primary := primary }] } }
  else if !s.omitted then
    { s with
      omitted := true
      result := { s.result with
        diagnostics := s.result.diagnostics.dropLast ++ [{ code := kDiagnosticsOmitted
                                                           messageKey := "rules.diagnostics_omitted"
                                                           primary := primary
                                                           omitted := true }] } }
  else s

/-- `PushFrame`; the flag says whether it did. -/
def pushFrame (limits : RulesLimits) (s : Scanner) (kind : FrameKind) (closing : UInt8) (closingCount offset : Nat) :
    Bool × Scanner :=
  if limits.maxContainerDepth ≤ s.frames.length then
    (false, { addDiagnostic limits s kResourceLimit "rules.container_depth" ⟨offset, offset + 1⟩ with
      stopped := true })
  else
    (true, { s with
      frames := s.frames ++ [⟨kind, s.nextFrameId, closing, closingCount⟩]
      nextFrameId := s.nextFrameId + 1
      result := { s.result with maxFrameDepth := max s.result.maxFrameDepth (s.frames.length + 1) } })

def confirmCandidate (limits : RulesLimits) (s : Scanner) : Scanner :=
  match s.pending with
  | none => s
  | some pending =>
      if limits.maxRewrites ≤ s.result.candidates.length then
        { addDiagnostic limits s kResourceLimit "rules.rewrite_limit" pending.arrow with pending := none }
      else
        { s with
          pending := none
          result := { s.result with
            candidates := s.result.candidates ++
              [⟨⟨pending.source.first, pending.target.last⟩, pending.source, pending.arrow, pending.target,
                pending.arrayFrameId⟩] } }

/-- Whether a token ends an element of the array with that frame. -/
def delimits (token : SignificantToken) (frameId : Nat) : Bool :=
  (token.kind == .kComma || token.kind == .kCloseArray) && token.frameId == frameId

/-- `HandlePending` when there is a candidate. -/
def handleCandidate (limits : RulesLimits) (s : Scanner) (pending : PendingCandidate) (token : SignificantToken) :
    Scanner :=
  match pending.stage with
  | .kWaitingTarget =>
      if token.kind == .kString && token.frameId == pending.arrayFrameId then
        { s with pending := some { pending with target := token.span, stage := .kWaitingDelimiter } }
      else { addDiagnostic limits s kArrowOperand "rules.arrow_operand" token.span with pending := none }
  | .kWaitingDelimiter =>
      if delimits token pending.arrayFrameId then confirmCandidate limits s
      else if token.kind == .kArrow then
        { addDiagnostic limits s kArrowChained "rules.arrow_chained" token.span with pending := none }
      else if token.kind == .kString || token.kind == .kMultilineString then
        { addDiagnostic limits s kArrowMissingComma "rules.arrow_missing_comma" token.span with
          suppressArrowFrame := some pending.arrayFrameId
          pending := none }
      else { addDiagnostic limits s kArrowContext "rules.arrow_context" token.span with pending := none }

/-- `HandlePending` when there is none: an arrow must follow the first string of an array element. -/
def handleArrow (limits : RulesLimits) (s : Scanner) (token : SignificantToken) : Scanner :=
  if token.kind != .kArrow then s
  else
    match s.last with
    | none => addDiagnostic limits s kArrowOperand "rules.arrow_operand" token.span
    | some last =>
        if last.kind != .kString then addDiagnostic limits s kArrowOperand "rules.arrow_operand" token.span
        else if s.commentSinceSignificant then
          addDiagnostic limits s kArrowCommentInside "rules.arrow_comment_inside" token.span
        else if s.previous.any (fun previous =>
            (previous.kind == .kOpenArray || previous.kind == .kComma) && previous.frameId == last.frameId) &&
            last.frameId == token.frameId && s.isValueArrayFrame token.frameId then
          { s with pending := some ⟨.kWaitingTarget, last.span, token.span, {}, token.frameId⟩ }
        else addDiagnostic limits s kArrowContext "rules.arrow_context" token.span

def handlePending (limits : RulesLimits) (s : Scanner) (token : SignificantToken) : Scanner :=
  if token.kind == .kArrow && s.suppressArrowFrame == some token.frameId then s
  else
    let s := if s.suppressArrowFrame.any (delimits token) then { s with suppressArrowFrame := none } else s
    match s.pending with
    | some pending => handleCandidate limits s pending token
    | none => handleArrow limits s token

def emit (limits : RulesLimits) (s : Scanner) (kind : SignificantKind) (first last frameId : Nat) : Scanner :=
  let token : SignificantToken := ⟨kind, ⟨first, last⟩, frameId⟩
  if s.stopped then s
  else if limits.maxTokensOrNodes ≤ s.result.significantTokens then
    { addDiagnostic limits s kResourceLimit "rules.token_limit" token.span with stopped := true }
  else
    let s := { s with result := { s.result with significantTokens := s.result.significantTokens + 1 } }
    let s := handlePending limits s token
    { s with previous := s.last, last := some token, commentSinceSignificant := false }

def openArray (limits : RulesLimits) (bytes : Bytes) (s : Scanner) (offset : Nat) : Nat × Scanner :=
  let header := s.frames.isEmpty && s.atStatementStart && !s.expectingValue
  let arrayTable := header && bytes[offset + 1]? == some openBracket
  let kind :=
    if arrayTable then FrameKind.kArrayTableHeader
    else if header then .kTableHeader
    else if s.expectingValue then .kValueArray
    else .kUnknownBracket
  let width := if arrayTable then 2 else 1
  match pushFrame limits s kind closeBracket width offset with
  | (false, s) => (bytes.length, s)
  | (true, s) =>
      (offset + width, { emit limits s .kOpenArray offset (offset + width) s.currentFrameId with
        expectingValue := kind == .kValueArray
        atStatementStart := false })

/-- `frames_.pop_back()` when the innermost frame is closed by that byte. -/
def popFrame (s : Scanner) (closing : UInt8) : Scanner :=
  if s.currentFrame.any fun frame => frame.closing == closing then { s with frames := s.frames.dropLast } else s

def closeArray (limits : RulesLimits) (bytes : Bytes) (s : Scanner) (offset : Nat) : Nat × Scanner :=
  let double := s.currentFrame.any fun frame => frame.closing == closeBracket && frame.closingCount == 2
  let width := if double && bytes[offset + 1]? == some closeBracket then 2 else 1
  let s := emit limits s .kCloseArray offset (offset + width) s.currentFrameId
  (offset + width, { popFrame s closeBracket with expectingValue := false })

def openBrace (limits : RulesLimits) (s : Scanner) (offset : Nat) : Scanner :=
  let kind := if s.expectingValue then FrameKind.kInlineTable else .kUnknownBrace
  match pushFrame limits s kind closeCurly 1 offset with
  | (false, s) => s
  | (true, s) =>
      { emit limits s .kOpenInlineTable offset (offset + 1) s.currentFrameId with
        expectingValue := false
        atStatementStart := false }

def closeBrace (limits : RulesLimits) (s : Scanner) (offset : Nat) : Scanner :=
  let s := emit limits s .kCloseInlineTable offset (offset + 1) s.currentFrameId
  { popFrame s closeCurly with expectingValue := false }

def handleComment (limits : RulesLimits) (bytes : Bytes) (s : Scanner) (offset : Nat) : Scanner :=
  match s.pending with
  | some pending =>
      match pending.stage with
      | .kWaitingTarget =>
          { addDiagnostic limits s kArrowCommentInside "rules.arrow_comment_inside"
              ⟨offset, min bytes.length (offset + 1)⟩ with pending := none }
      | .kWaitingDelimiter => s
  | none => { s with commentSinceSignificant := true }

def finishAtEof (limits : RulesLimits) (s : Scanner) : Scanner :=
  match s.pending with
  | none => s
  | some pending =>
      match pending.stage with
      | .kWaitingTarget =>
          { addDiagnostic limits s kArrowOperand "rules.arrow_operand" pending.arrow with pending := none }
      | .kWaitingDelimiter => confirmCandidate limits s

/-- A string token; the scan stops at one that is too long or does not end. -/
def scanString (limits : RulesLimits) (bytes : Bytes) (s : Scanner) (offset : Nat) : Nat × Scanner :=
  let string := scanStringToken bytes offset
  let tokenEnd := max (offset + 1) string.last
  if limits.maxStringTokenBytes < tokenEnd - offset then
    (tokenEnd, { addDiagnostic limits s kResourceLimit "rules.string_token_too_large" ⟨offset, tokenEnd⟩ with
      stopped := true })
  else if !string.terminated then
    (tokenEnd, { addDiagnostic limits s kArrowStringBoundary "rules.arrow_string_boundary" ⟨offset, tokenEnd⟩ with
      stopped := true })
  else
    (string.last, { emit limits s (if string.multiline then .kMultilineString else .kString) offset string.last
        s.currentFrameId with
      expectingValue := false
      atStatementStart := false })

/-- Where a token that is none of the others ends, from the byte after its first. -/
def otherEnd : Bytes → Nat → Nat
  | [], offset => offset
  | value :: rest, offset =>
      if isTokenBoundary value || value == dash && rest.head? == some greaterSign then offset
      else otherEnd rest (offset + 1)

/-- One round of the loop of `Run`, at a byte of the source. -/
def scanStep (limits : RulesLimits) (bytes : Bytes) (value : UInt8) (offset : Nat) (s : Scanner) : Nat × Scanner :=
  let next := bytes[offset + 1]?
  if isHorizontalSpace value then (offset + 1, s)
  else if isNewline value then
    (if value == carriageReturn && next == some lineFeed then offset + 2 else offset + 1,
      if s.frames.isEmpty then { s with atStatementStart := true, expectingValue := false } else s)
  else if value == hashSign then
    (skipWhile (· != lineFeed) bytes offset, handleComment limits bytes s offset)
  else if value == doubleQuote || value == singleQuote then scanString limits bytes s offset
  else if value == dash && next == some greaterSign then
    (offset + 2, emit limits s .kArrow offset (offset + 2) s.currentFrameId)
  else if value == openBracket then openArray limits bytes s offset
  else if value == closeBracket then closeArray limits bytes s offset
  else if value == openCurly then (offset + 1, openBrace limits s offset)
  else if value == closeCurly then (offset + 1, closeBrace limits s offset)
  else if value == equalsSign then
    (offset + 1, { emit limits s .kEquals offset (offset + 1) s.currentFrameId with
      expectingValue := true
      atStatementStart := false })
  else if value == commaSign then
    let s := emit limits s .kComma offset (offset + 1) s.currentFrameId
    (offset + 1, { s with expectingValue := s.currentFrameKind == .kValueArray })
  else if value == dotSign then
    (offset + 1, { emit limits s .kDot offset (offset + 1) s.currentFrameId with
      expectingValue := false
      atStatementStart := false })
  else
    let last := otherEnd (bytes.drop (offset + 1)) (offset + 1)
    (last, { emit limits s .kOther offset last s.currentFrameId with
      expectingValue := false
      atStatementStart := false })

/-- The loop of `Run`. Every round moves on by a byte at least, so a fuel of the source's size is enough. -/
def scanLoop (limits : RulesLimits) (bytes : Bytes) : Nat → Nat → Scanner → Nat × Scanner
  | 0, offset, s => (offset, s)
  | fuel + 1, offset, s =>
      match bytes[offset]? with
      | none => (offset, s)
      | some value =>
          if s.stopped then (offset, s)
          else
            let (offset, s) := scanStep limits bytes value offset s
            scanLoop limits bytes fuel offset s

end Scanner

def scanArrowCandidates (source : SourceBuffer) (limits : RulesLimits) : ArrowScanResult :=
  let (offset, s) := Scanner.scanLoop limits source.bytes source.bytes.length 0 {}
  let s := { s with result := { s.result with bytesConsumed := offset, openFramesAtEof := s.frames.length } }
  let s := Scanner.finishAtEof limits s
  if s.hasError then { s.result with candidates := [] } else s.result

/-- `parser_allowed`. -/
def ArrowScanResult.parserAllowed (result : ArrowScanResult) : Bool := result.diagnostics.isEmpty

end PathGuard.Rules

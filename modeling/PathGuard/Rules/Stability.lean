import PathGuard.Rules.Desugaring
import PathGuard.Rules.FormatLine

/-!
# A desugared text has no arrows

Every arrow of a source is the arrow of a candidate, and no table holds one; so a scan of the generated text finds
neither candidates nor anything to report, and the text is its own desugaring.

* `Tiled.arrowless` : the generated text has no arrows;
* `quietAt_round`, `scan_arrowless` : a round, and a scan, over a text without arrows;
* `desugarRulesSource_stable` : the text is its own desugaring.
-/

namespace PathGuard.Rules

/-! ## The arrows of a source -/

section Arrows
variable {bytes rest : Bytes} {cursor last : Nat} {span : ByteSpan} {candidate : ArrowCandidate}
  {candidates : List ArrowCandidate}

theorem ArrowAt.lexed (h : ArrowAt bytes span) : Lexed (bytes.drop span.first) (bytes.drop span.last) [.arrow] := by
  rw [drop_of_getElem? h.dash, drop_of_getElem? h.greater, h.last]
  exact .arrow (.nil _)

theorem Tiled.lexed (h : Tiled bytes cursor candidates last) (htail : ArrowFree bytes last bytes.length) :
    ∃ items, Lexed (bytes.drop cursor) [] items ∧ items.count .arrow = candidates.length := by
  induction candidates generalizing cursor with
  | nil =>
      obtain rfl : cursor = last := h
      obtain ⟨items, hitems, hnone⟩ := htail.lexed
      rw [List.drop_length] at hitems
      exact ⟨items, hitems, List.count_eq_zero.mpr hnone⟩
  | cons candidate candidates ih =>
      obtain ⟨hgap, hrule, hrest⟩ := h
      obtain ⟨rest, hrestLexed, hcount⟩ := ih hrest
      have hlast : candidate.rule.last = candidate.target.last := by rw [hrule.rule]
      rw [hlast] at hrestLexed
      obtain ⟨front, hfront, hnoFront⟩ := (hgap.trans hrule.source.arrowFree |>.trans hrule.before).lexed
      obtain ⟨back, hback, hnoBack⟩ := (hrule.after.trans hrule.target.arrowFree).lexed
      refine ⟨front ++ ([.arrow] ++ (back ++ rest)), hfront.trans (hrule.arrow.lexed.trans (hback.trans hrestLexed)), ?_⟩
      rw [List.count_append, List.count_append, List.count_append, hcount, List.count_eq_zero.mpr hnoFront,
        List.count_eq_zero.mpr hnoBack, List.length_cons, List.count_singleton_self]
      omega

end Arrows

/-! ## The generated text -/

section Generated
variable {bytes : Bytes} {cursor last id : Nat} {span : ByteSpan} {candidate : ArrowCandidate}
  {candidates : List ArrowCandidate}

/-- A string on one line, with its quotes. -/
def IsStringToken (token : Bytes) : Prop :=
  ∃ quote body, token = quote :: body ∧ isQuote quote = true ∧ scanStringToken token 0 = ⟨token.length, false, true⟩

theorem StringAt.isStringToken (h : StringAt bytes span) : IsStringToken (sliceSpan bytes span) := by
  obtain ⟨quote, hbyte, hquote⟩ := h.quote
  have hlt := h.lt
  have hle := h.last_le
  have hsize : span.size = (span.size - 1) + 1 := by
    simp only [ByteSpan.size]
    omega
  obtain ⟨body, hbody⟩ : ∃ body, sliceSpan bytes span = quote :: body := by
    rw [sliceSpan, drop_of_getElem? hbyte, hsize, List.take_succ_cons]
    exact ⟨_, rfl⟩
  have hwhole : bytes.drop span.first = quote :: body ++ bytes.drop span.last := by
    rw [← hbody, sliceSpan]
    nth_rewrite 1 [← List.take_append_drop span.size (bytes.drop span.first)]
    rw [List.drop_drop]
    congr 2
    simp only [ByteSpan.size]
    omega
  have hlength : (quote :: body).length = span.size := by rw [← hbody, length_sliceSpan hle]
  have hscan := h.token
  rw [scanStringToken_shift, hwhole] at hscan
  have hinside : scanStringToken (quote :: body ++ bytes.drop span.last) 0 = ⟨(quote :: body).length, false, true⟩ := by
    cases hresult : scanStringToken (quote :: body ++ bytes.drop span.last) 0 with
    | mk size multiline terminated =>
    rw [hresult] at hscan
    obtain ⟨hfirst, rfl, rfl⟩ := StringToken.mk.inj hscan
    rw [hlength, ByteSpan.size]
    dsimp only at hfirst
    congr 1
    omega
  have halone : scanStringToken (quote :: body ++ []) 0 = ⟨(quote :: body).length, false, true⟩ :=
    scanStringToken_local (Or.inr fun hhead => by cases hhead) hinside
  rw [hbody]
  rw [List.append_nil] at halone
  exact ⟨quote, body, rfl, hquote, halone⟩

theorem IsStringToken.scan {token rest : Bytes} {value : UInt8} (h : IsStringToken token)
    (hrest : rest.head? = some value) (hvalue : isQuote value = false) :
    scanStringToken (token ++ rest) 0 = ⟨token.length, false, true⟩ := by
  obtain ⟨quote, body, rfl, hquote, hscan⟩ := h
  have hfree : QuoteFree quote [] rest := by
    refine Or.inr ?_
    rw [hrest]
    intro hsame
    rw [Option.some.inj hsame, hquote] at hvalue
    cases hvalue
  refine scanStringToken_local hfree ?_
  rw [List.append_nil]
  exact hscan

theorem IsStringToken.lexed {token rest : Bytes} {value : UInt8} (h : IsStringToken token)
    (hrest : rest.head? = some value) (hvalue : isQuote value = false) :
    Lexed (token ++ rest) rest [.string false] := by
  have hscan := h.scan hrest hvalue
  obtain ⟨quote, body, rfl, hquote, -⟩ := h
  have hdone : Lexed ((quote :: body ++ rest).drop (quote :: body).length) rest [] := by
    rw [List.drop_left]
    exact .nil _
  exact .string hquote hscan hdone

/-- A text without arrows. -/
def Arrowless (text rest : Bytes) : Prop := ∃ items, Lexed text rest items ∧ .arrow ∉ items

theorem Arrowless.trans {text middle rest : Bytes} (h₁ : Arrowless text middle) (h₂ : Arrowless middle rest) :
    Arrowless text rest := by
  obtain ⟨xs, hxs, hx⟩ := h₁
  obtain ⟨ys, hys, hy⟩ := h₂
  refine ⟨xs ++ ys, hxs.trans hys, ?_⟩
  rw [List.mem_append]
  exact fun hmem => hmem.elim hx hy

theorem arrowless_singles {front : Bytes} (rest : Bytes) (h : ∀ value ∈ front, isSingle value = true) :
    Arrowless (front ++ rest) rest :=
  ⟨_, lexed_singles rest h, fun hmem => absurd (List.mem_replicate.mp hmem).2 (by decide)⟩

theorem arrowless_table (h : RuleAt bytes candidate) (id : Nat) (rest : Bytes) :
    Arrowless (tableOf bytes ⟨id, candidate.rule, candidate.source, candidate.arrow, candidate.target⟩ ++ rest) rest := by
  simp only [tableOf, List.append_assoc]
  refine (arrowless_singles _ (List.all_eq_true.mp (by decide))).trans
    (.trans ⟨_, h.source.isStringToken.lexed rfl ?_, by simp⟩
      ((arrowless_singles _ (List.all_eq_true.mp (by decide))).trans
        (.trans ⟨_, h.target.isStringToken.lexed rfl ?_, by simp⟩
          (arrowless_singles _ (List.all_eq_true.mp (by decide))))))
  · decide
  · decide

theorem arrowless_gap (hgap : ArrowFree bytes cursor span.first) (hstring : StringAt bytes span) (rest : Bytes) :
    Arrowless (sliceSpan bytes ⟨cursor, span.first⟩ ++ (kPrefix ++ rest)) (kPrefix ++ rest) := by
  obtain ⟨quote, hbyte, hquote⟩ := hstring.quote
  obtain ⟨items, hitems, hnone⟩ := hgap.lexed
  have hwhole : bytes.drop cursor = sliceSpan bytes ⟨cursor, span.first⟩ ++ bytes.drop span.first := by
    rw [sliceSpan, ByteSpan.size]
    nth_rewrite 1 [← List.take_append_drop (span.first - cursor) (bytes.drop cursor)]
    rw [List.drop_drop, Nat.add_sub_cancel' hgap.le]
  have hhead : (bytes.drop span.first).head? = some quote := by rw [List.head?_drop, hbyte]
  exact ⟨items, hitems.replace hquote hhead rfl (by decide) (by decide) hwhole, hnone⟩

/-- **The generated text has no arrows.** -/
theorem Tiled.arrowless (h : Tiled bytes cursor candidates last) (htail : ArrowFree bytes last bytes.length) (id : Nat) :
    Arrowless (expand bytes cursor (numberRewrites id candidates)) [] := by
  induction candidates generalizing cursor id with
  | nil =>
      obtain rfl : cursor = last := h
      obtain ⟨items, hitems, hnone⟩ := htail.lexed
      rw [List.drop_length] at hitems
      exact ⟨items, hitems, hnone⟩
  | cons candidate candidates ih =>
      obtain ⟨hgap, hrule, hrest⟩ := h
      have hfirst : candidate.rule.first = candidate.source.first := by rw [hrule.rule]
      have hlater := ih hrest (id + 1)
      have htable := arrowless_table hrule id (expand bytes candidate.rule.last (numberRewrites (id + 1) candidates))
      refine Arrowless.trans ?_ (htable.trans hlater)
      rw [numberRewrites, expand, hfirst, List.append_assoc]
      simp only [tableOf, List.append_assoc]
      exact arrowless_gap hgap hrule.source _

end Generated

/-! ## The second scan -/

/-- Nothing has been reported or found, and so many tokens and frames have been counted at most. -/
structure Quiet (tokens depth : Nat) (s : Scanner) : Prop where
  running : s.stopped = false
  clean : s.hasError = false
  diagnostics : s.result.diagnostics = []
  candidates : s.result.candidates = []
  pending : s.pending = none
  tokens : s.result.significantTokens ≤ tokens
  depth : s.frames.length ≤ depth

section Quiet
variable {limits : RulesLimits} {bytes : Bytes} {tokens depth offset : Nat} {s : Scanner} {value : UInt8}

theorem Quiet.flags (h : Quiet tokens depth s) (expectingValue atStatementStart : Bool) :
    Quiet tokens depth { s with expectingValue := expectingValue, atStatementStart := atStatementStart } :=
  ⟨h.running, h.clean, h.diagnostics, h.candidates, h.pending, h.tokens, h.depth⟩

theorem Quiet.mono (h : Quiet tokens depth s) {more deeper : Nat} (htokens : tokens ≤ more) (hdepth : depth ≤ deeper) :
    Quiet more deeper s :=
  ⟨h.running, h.clean, h.diagnostics, h.candidates, h.pending, h.tokens.trans htokens, h.depth.trans hdepth⟩

theorem quiet_handlePending (h : Quiet tokens depth s) {token : SignificantToken} (hkind : token.kind ≠ .kArrow) :
    Quiet tokens depth (s.handlePending limits token) := by
  have harrow : (token.kind == SignificantKind.kArrow) = false := beq_eq_false_iff_ne.mpr hkind
  have hpending := h.pending
  unfold Scanner.handlePending
  rw [harrow, Bool.false_and, if_neg (by decide)]
  by_cases hsuppress : s.suppressArrowFrame.any (Scanner.delimits token) = true
  · simp only [if_pos hsuppress, hpending, Scanner.handleArrow, bne, harrow, Bool.not_false, if_true]
    exact ⟨h.running, h.clean, h.diagnostics, h.candidates, rfl, h.tokens, h.depth⟩
  · simp only [if_neg hsuppress, hpending, Scanner.handleArrow, bne, harrow, Bool.not_false, if_true]
    exact h

theorem quiet_emit (h : Quiet tokens depth s) {kind : SignificantKind} (hkind : kind ≠ .kArrow)
    (hroom : tokens < limits.maxTokensOrNodes) (first last frameId : Nat) :
    Quiet (tokens + 1) depth (s.emit limits kind first last frameId) := by
  have htokens := h.tokens
  have hcounted : Quiet (tokens + 1) depth
      { s with result := { s.result with significantTokens := s.result.significantTokens + 1 } } :=
    ⟨h.running, h.clean, h.diagnostics, h.candidates, h.pending, Nat.succ_le_succ htokens, h.depth⟩
  have hafter : Quiet (tokens + 1) depth (Scanner.handlePending limits _ ⟨kind, ⟨first, last⟩, frameId⟩) :=
    quiet_handlePending hcounted hkind
  unfold Scanner.emit
  dsimp only
  rw [if_neg (by rw [h.running]; decide), if_neg (by omega)]
  exact ⟨hafter.running, hafter.clean, hafter.diagnostics, hafter.candidates, hafter.pending, hafter.tokens, hafter.depth⟩

theorem quiet_pushFrame (h : Quiet tokens depth s) (hroom : depth < limits.maxContainerDepth) {kind : FrameKind}
    {closing : UInt8} {width start : Nat} {pushed : Bool} {after : Scanner}
    (hpush : s.pushFrame limits kind closing width start = (pushed, after)) :
    pushed = true ∧ Quiet tokens (depth + 1) after := by
  have hdepth := h.depth
  unfold Scanner.pushFrame at hpush
  rw [if_neg (by omega)] at hpush
  obtain ⟨rfl, rfl⟩ := Prod.mk.inj hpush
  refine ⟨rfl, h.running, h.clean, h.diagnostics, h.candidates, h.pending, h.tokens, ?_⟩
  rw [List.length_append, List.length_singleton]
  omega

theorem quiet_popFrame (h : Quiet tokens depth s) (closing : UInt8) : Quiet tokens depth (s.popFrame closing) := by
  unfold Scanner.popFrame
  split
  · refine ⟨h.running, h.clean, h.diagnostics, h.candidates, h.pending, h.tokens, ?_⟩
    have := h.depth
    rw [List.length_dropLast]
    omega
  · exact h

theorem quiet_openBrace (h : Quiet offset offset s) (htokens : offset < limits.maxTokensOrNodes)
    (hdepth : offset < limits.maxContainerDepth) : Quiet (offset + 1) (offset + 1) (s.openBrace limits offset) := by
  unfold Scanner.openBrace
  dsimp only
  split
  · next hpush =>
    cases (quiet_pushFrame h hdepth hpush).1
  · next pushed hpush =>
    exact (quiet_emit (quiet_pushFrame h hdepth hpush).2 (by decide) htokens _ _ _).flags _ _

theorem quiet_comment (h : Quiet tokens depth s) : Quiet tokens depth (s.handleComment limits bytes offset) := by
  have hnone := h.pending
  unfold Scanner.handleComment
  split
  · next pending hpending =>
    rw [hnone] at hpending
    cases hpending
  · exact ⟨h.running, h.clean, h.diagnostics, h.candidates, h.pending, h.tokens, h.depth⟩

theorem ArrowFree.rest {first middle : Nat} (h : ArrowFree bytes first bytes.length)
    (hmiddle : ArrowFree bytes first middle) :
    ArrowFree bytes middle bytes.length := by
  obtain ⟨xs, hxs, hx⟩ := h.lexed
  obtain ⟨ys, hys, -⟩ := hmiddle.lexed
  refine ⟨hmiddle.last_le, Nat.le_refl _, ?_⟩
  obtain ⟨zs, hzs, -⟩ | ⟨zs, hzs, hitems⟩ := hxs.compare hys
  · -- nothing is left to cut
    rw [List.drop_length] at hzs ⊢
    obtain ⟨front, hfront⟩ := hzs.suffix
    rw [(List.append_eq_nil_iff.mp hfront.symm).2]
    exact ⟨[], .nil _, nofun⟩
  · exact ⟨zs, hzs, fun hmem => hx (hitems ▸ List.mem_append_right _ hmem)⟩

theorem string_terminated {last : Nat} (h : ArrowFree bytes offset last) (hlt : offset < last)
    (hbyte : bytes[offset]? = some value) (hquote : isQuote value = true) :
    (scanStringToken bytes offset).terminated = true := by
  obtain ⟨items, hitems, -⟩ := h.lexed
  have hle := h.last_le
  have hdrop := drop_of_getElem? hbyte
  rw [scanStringToken_shift, hdrop]
  rw [hdrop] at hitems
  generalize hrest : bytes.drop last = rest at hitems
  generalize hmore : bytes.drop (offset + 1) = more at hitems
  cases hitems with
  | nil =>
      have hlength := congrArg List.length hrest
      rw [List.length_cons, ← hmore, List.length_drop, List.length_drop] at hlength
      omega
  | plain hplain => exact absurd hplain (by simp [isPlain, hquote])
  | comment => exact absurd hquote (by decide)
  | string _ hscan => rw [hscan]
  | arrow => exact absurd hquote (by decide)

theorem no_arrow {last : Nat} (h : ArrowFree bytes offset last) (hlt : offset < last)
    (hbyte : bytes[offset]? = some dash) : bytes[offset + 1]? ≠ some greaterSign := by
  intro hnext
  obtain ⟨items, hitems, hnone⟩ := h.lexed
  have hle := h.last_le
  have hdrop := drop_of_getElem? hbyte
  rw [hdrop, drop_of_getElem? hnext] at hitems
  generalize hrest : bytes.drop last = rest at hitems
  generalize hmore : bytes.drop (offset + 1 + 1) = more at hitems
  cases hitems with
  | nil =>
      have hlength := congrArg List.length hrest
      rw [List.length_cons, List.length_cons, ← hmore, List.length_drop, List.length_drop] at hlength
      have := lt_of_getElem? hnext
      omega
  | plain hplain => exact absurd hplain (by simp [isPlain])
  | string hquote => exact absurd hquote (by decide)
  | arrow => exact absurd List.mem_cons_self hnone

/-- The limits are not reached before the end of the text. -/
structure Roomy (limits : RulesLimits) (size : Nat) : Prop where
  tokens : size ≤ limits.maxTokensOrNodes
  depth : size ≤ limits.maxContainerDepth
  strings : size ≤ limits.maxStringTokenBytes

/-- Where a scan stands that has found nothing. -/
def QuietAt (bytes : Bytes) (place : Nat × Scanner) : Prop :=
  Quiet place.1 place.1 place.2 ∧ ArrowFree bytes place.1 bytes.length

theorem quietAt_string (hroomy : Roomy limits bytes.length) (h : QuietAt bytes (offset, s))
    (hbyte : bytes[offset]? = some value) (hquote : isQuote value = true) :
    offset < (s.scanString limits bytes offset).1 ∧ QuietAt bytes (s.scanString limits bytes offset) := by
  obtain ⟨hquiet, hfree⟩ := h
  have hlt := lt_of_getElem? hbyte
  have hterminated := string_terminated hfree hlt hbyte hquote
  cases htoken : scanStringToken bytes offset with
  | mk last multiline terminated =>
  rw [htoken] at hterminated
  obtain rfl : terminated = true := hterminated
  obtain ⟨hgt, hle, -⟩ := lexed_string hbyte hquote htoken
  have hstrings := hroomy.strings
  have htokens := hroomy.tokens
  unfold Scanner.scanString
  dsimp only
  rw [htoken]
  dsimp only
  rw [if_neg (by omega), if_neg (by decide)]
  refine ⟨hgt, Quiet.flags ?_ _ _, hfree.rest (arrowFree_string hbyte hquote htoken)⟩
  have hkind : (if multiline = true then SignificantKind.kMultilineString else .kString) ≠ .kArrow := by
    split <;> decide
  exact (quiet_emit hquiet hkind (by omega) _ _ _).mono hgt (Nat.le_of_lt hgt)

theorem quietAt_openArray (hroomy : Roomy limits bytes.length) (h : QuietAt bytes (offset, s))
    (hbyte : bytes[offset]? = some openBracket) :
    offset < (s.openArray limits bytes offset).1 ∧ QuietAt bytes (s.openArray limits bytes offset) := by
  obtain ⟨hquiet, hfree⟩ := h
  have hlt := lt_of_getElem? hbyte
  have htokens := hroomy.tokens
  have hdepth := hroomy.depth
  have hpair := arrowFree_pair hbyte (by decide) (by decide : isSingle openBracket = true)
    (s.frames.isEmpty && s.atStatementStart && !s.expectingValue)
  unfold Scanner.openArray
  dsimp only
  split
  · next hpush =>
    cases (quiet_pushFrame hquiet (by dsimp only; omega) hpush).1
  · next pushed hpush =>
    have hpushed := (quiet_pushFrame hquiet (by dsimp only; omega) hpush).2
    have hgt : offset < offset + (if s.frames.isEmpty && s.atStatementStart && !s.expectingValue &&
        bytes[offset + 1]? == some openBracket then 2 else 1) := by
      split <;> omega
    refine ⟨hgt, Quiet.flags ?_ _ _, hfree.rest hpair⟩
    exact (quiet_emit hpushed (by decide) (by dsimp only; omega) _ _ _).mono hgt hgt

/-- **A round over a text without arrows** reports nothing. -/
theorem quietAt_round (hroomy : Roomy limits bytes.length) (h : QuietAt bytes (offset, s))
    (hbyte : bytes[offset]? = some value) {after : Nat × Scanner} (hround : Round limits bytes offset s value after) :
    offset < after.1 ∧ QuietAt bytes after := by
  have hlt := lt_of_getElem? hbyte
  have htokens : offset < limits.maxTokensOrNodes := Nat.lt_of_lt_of_le hlt hroomy.tokens
  have hdepth : offset < limits.maxContainerDepth := Nat.lt_of_lt_of_le hlt hroomy.depth
  obtain ⟨hquiet, hfree⟩ := id h
  dsimp only at hquiet hfree
  cases hround with
  | space hspace =>
      refine ⟨Nat.lt_succ_self _, hquiet.mono (Nat.le_succ _) (Nat.le_succ _), hfree.rest ?_⟩
      exact arrowFree_single hbyte (isSingle_of_isHorizontalSpace hspace)
  | newline hnewline =>
      have hsingle : isSingle value = true := by
        simp only [isNewline, Bool.or_eq_true, beq_iff_eq] at hnewline
        obtain rfl | rfl := hnewline <;> decide
      have hpair := arrowFree_pair hbyte hsingle (by decide : isSingle lineFeed = true) (value == carriageReturn)
      have hline : Quiet offset offset
          (if s.frames.isEmpty then { s with atStatementStart := true, expectingValue := false } else s) := by
        split
        · exact hquiet.flags _ _
        · exact hquiet
      split at hpair
      · next hfeed =>
        rw [if_pos hfeed]
        exact ⟨by dsimp only; omega, hline.mono (by dsimp only; omega) (by dsimp only; omega), hfree.rest hpair⟩
      · next hfeed =>
        rw [if_neg hfeed]
        exact ⟨Nat.lt_succ_self _, hline.mono (Nat.le_succ _) (Nat.le_succ _), hfree.rest hpair⟩
  | comment =>
      have hskip := lt_skip_comment hbyte
      exact ⟨hskip, (quiet_comment hquiet).mono (Nat.le_of_lt hskip) (Nat.le_of_lt hskip),
        hfree.rest (arrowFree_comment hbyte)⟩
  | string hquote => exact quietAt_string hroomy h hbyte hquote
  | arrow hnext => exact absurd hnext (no_arrow hfree hlt hbyte)
  | openArray => exact quietAt_openArray hroomy h hbyte
  | closeArray =>
      unfold Scanner.closeArray
      dsimp only
      generalize hdouble : (s.currentFrame.any fun frame => frame.closing == closeBracket && frame.closingCount == 2) =
        double
      have hpair := arrowFree_pair hbyte (by decide) (by decide : isSingle closeBracket = true) double
      have hgt : offset < offset + (if double && bytes[offset + 1]? == some closeBracket then 2 else 1) := by
        split <;> omega
      refine ⟨hgt, ?_, hfree.rest hpair⟩
      exact (quiet_popFrame ((quiet_emit hquiet (by decide) htokens _ _ _).mono hgt (Nat.le_of_lt hgt)) _).flags _ _
  | openBrace =>
      exact ⟨Nat.lt_succ_self _, quiet_openBrace hquiet htokens hdepth,
        hfree.rest (arrowFree_single hbyte (by decide))⟩
  | closeBrace =>
      refine ⟨Nat.lt_succ_self _, ?_, hfree.rest (arrowFree_single hbyte (by decide))⟩
      have hemit : Quiet (offset + 1) (offset + 1)
          (s.emit limits .kCloseInlineTable offset (offset + 1) s.currentFrameId) :=
        (quiet_emit hquiet (by decide) htokens _ _ _).mono (Nat.le_refl _) (Nat.le_succ _)
      exact (quiet_popFrame hemit closeCurly).flags _ _
  | @mark _ kind after expecting starts hkind hafter =>
      subst hafter
      simp only [List.mem_cons, Prod.mk.injEq, List.not_mem_nil, or_false] at hkind
      have hmark : isSingle value = true ∧ kind ≠ .kArrow := by
        obtain ⟨rfl, rfl⟩ | ⟨rfl, rfl⟩ | ⟨rfl, rfl⟩ := hkind <;> decide
      refine ⟨Nat.lt_succ_self _, Quiet.flags ?_ _ _, hfree.rest (arrowFree_single hbyte hmark.1)⟩
      exact (quiet_emit hquiet hmark.2 htokens _ _ _).mono (Nat.le_refl _) (Nat.le_succ _)
  | @other _ last after hplain hlast hafter =>
      subst hafter
      have hgt : offset < last := hlast ▸ otherEnd_ge _ _
      refine ⟨hgt, Quiet.flags ?_ _ _, ?_⟩
      · exact (quiet_emit hquiet (by decide) htokens _ _ _).mono hgt (Nat.le_of_lt hgt)
      · rw [hlast]
        exact hfree.rest (arrowFree_other hbyte hplain)

theorem quietAt_scanLoop {fuel : Nat} (hroomy : Roomy limits bytes.length) (h : QuietAt bytes (offset, s)) :
    QuietAt bytes (s.scanLoop limits bytes fuel offset) := by
  induction fuel generalizing offset s with
  | zero => exact h
  | succ fuel ih =>
      rw [Scanner.scanLoop]
      cases hbyte : bytes[offset]? with
      | none => exact h
      | some value =>
          dsimp only
          split
          · exact h
          · exact ih (quietAt_round hroomy h hbyte (round_scanStep limits bytes value offset s)).2

end Quiet

theorem scan_arrowless {source : SourceBuffer} {limits : RulesLimits} (hroomy : Roomy limits source.bytes.length)
    (h : Arrowless source.bytes []) :
    (scanArrowCandidates source limits).diagnostics = [] ∧ (scanArrowCandidates source limits).candidates = [] := by
  obtain ⟨items, hitems, hnone⟩ := h
  have hfree : ArrowFree source.bytes 0 source.bytes.length := by
    refine ⟨Nat.zero_le _, Nat.le_refl _, items, ?_, hnone⟩
    rw [List.drop_zero, List.drop_length]
    exact hitems
  have hstart : QuietAt source.bytes (0, {}) := ⟨⟨rfl, rfl, rfl, rfl, rfl, Nat.le_refl _, Nat.le_refl _⟩, hfree⟩
  have hquiet := (@quietAt_scanLoop _ _ _ _ source.bytes.length hroomy hstart).1
  unfold scanArrowCandidates
  cases hloop : Scanner.scanLoop limits source.bytes source.bytes.length 0 {} with
  | mk offset s =>
  rw [hloop] at hquiet
  have hpending : s.pending = none := hquiet.pending
  have hclean : s.hasError = false := hquiet.clean
  simp only [Scanner.finishAtEof, hpending, hclean, Bool.false_eq_true, if_false]
  exact ⟨hquiet.diagnostics, hquiet.candidates⟩

/-! ## The second desugaring -/

section Stable
variable {source : SourceBuffer} {limits : RulesLimits}

theorem desugarRulesSource_ok (h : (desugarRulesSource source limits).ok = true) :
    (∃ version, probeRulesFormat source = .ok version) ∧ (scanArrowCandidates source limits).diagnostics = [] ∧
      desugarRulesSource source limits =
        emitDesugaredSource source (numberRewrites 1 (scanArrowCandidates source limits).candidates) limits := by
  cases hprobe : probeRulesFormat source with
  | error diagnostic =>
      unfold desugarRulesSource analyzeRulesSource at h
      rw [hprobe] at h
      cases h
  | ok version =>
      by_cases hquiet : (scanArrowCandidates source limits).diagnostics = []
      · exact ⟨⟨version, rfl⟩, hquiet, desugarRulesSource_emitted hprobe limits hquiet⟩
      · rw [desugarRulesSource_reported hprobe limits hquiet] at h
        exact absurd (List.isEmpty_iff.mp h) hquiet

theorem desugarRulesSource_of_arrowless {version : Nat} (hprobe : probeRulesFormat source = .ok version)
    (hroomy : Roomy limits source.bytes.length) (h : Arrowless source.bytes []) :
    desugarRulesSource source limits = { rewriteMap := .identity source.size } := by
  obtain ⟨hquiet, hnone⟩ := scan_arrowless hroomy h
  rw [desugarRulesSource_emitted hprobe limits hquiet, hnone]
  rfl

theorem FormatLine.expand {bytes : Bytes} {equals first last final cursor : Nat} {candidates : List ArrowCandidate}
    (h : FormatLine bytes equals first last final) (htiled : Tiled bytes 0 candidates cursor) :
    FormatLine (expand bytes 0 (numberRewrites 1 candidates)) equals first last final := by
  cases candidates with
  | nil => exact h
  | cons candidate candidates =>
      obtain ⟨hgap, hrule, -⟩ := htiled
      obtain ⟨quote, hbyte, hquote⟩ := hrule.source.quote
      have hfirst : candidate.rule.first = candidate.source.first := by rw [hrule.rule]
      have hlt := h.lt_string hgap hbyte hquote
      have hsplit : bytes = sliceSpan bytes ⟨0, candidate.source.first⟩ ++ bytes.drop candidate.source.first := by
        rw [sliceSpan, ByteSpan.size, List.drop_zero, Nat.sub_zero, List.take_append_drop]
      have hlength : (sliceSpan bytes ⟨0, candidate.source.first⟩).length = candidate.source.first :=
        length_sliceSpan (Nat.le_of_lt hrule.source.first_lt)
      rw [hsplit] at h
      rw [numberRewrites, Rules.expand, hfirst, List.append_assoc]
      exact h.transfer _ (by rw [hlength]; exact hlt)

/-- **Desugaring is stable.** It leaves as many redirects as the source has arrows and a text with none; and that text,
scanned with room enough, has no candidates and is its own desugaring. -/
theorem desugarRulesSource_stable (h : (desugarRulesSource source limits).ok = true) :
    let text := (desugarRulesSource source limits).parserInput source
    (desugarRulesSource source limits).redirects.length = arrowTokens source.bytes ∧ arrowTokens text = 0 ∧
      text.length < 2 ^ 32 ∧
      ∀ (again : SourceBuffer) (roomy : RulesLimits), again.bytes = text → Roomy roomy text.length →
        (scanArrowCandidates again roomy).diagnostics = [] ∧ (scanArrowCandidates again roomy).candidates = [] ∧
          (desugarRulesSource again roomy).ok = true ∧ (desugarRulesSource again roomy).parserInput again = text := by
  obtain ⟨hprobe, hquiet, hemitted⟩ := desugarRulesSource_ok h
  obtain ⟨cursor, htiled, htail⟩ := (scan_spec source limits).2.2.2 hquiet
  rw [hemitted] at h ⊢
  generalize hcandidates : (scanArrowCandidates source limits).candidates = candidates at htiled h ⊢
  obtain ⟨htext, -, -, horiginals, -⟩ := emitDesugaredSource_mapsBack h
  have hredirects := congrArg List.length horiginals
  rw [List.length_map, length_numberRewrites] at hredirects
  obtain ⟨items, hitems, hcount⟩ := htiled.lexed htail
  rw [List.drop_zero] at hitems
  have harrowless := htiled.arrowless htail 1
  obtain ⟨equals, first, last, final, hline⟩ := probeRulesFormat_iff.mp hprobe
  have hgenerated := hline.expand htiled
  have hlength : (expand source.bytes 0 (numberRewrites 1 candidates)).length < 2 ^ 32 := by
    by_cases hne : numberRewrites 1 candidates = []
    · rw [hne]
      exact source.size_lt
    · exact (desugared_of_ok hne h).length
  dsimp only
  rw [htext]
  refine ⟨by rw [hredirects, hitems.arrowTokens_eq, hcount], ?_, hlength, ?_⟩
  · obtain ⟨more, hmore, hnone⟩ := harrowless
    rw [hmore.arrowTokens_eq, List.count_eq_zero.mpr hnone]
  · intro again roomy hagain hroomy
    rw [← hagain] at harrowless hroomy hgenerated ⊢
    obtain ⟨version, hversion⟩ := probeRulesFormat_iff.mpr ⟨_, _, _, _, hgenerated⟩
    obtain ⟨hdiagnostics, hnone⟩ := scan_arrowless hroomy harrowless
    rw [desugarRulesSource_of_arrowless hversion hroomy harrowless]
    exact ⟨hdiagnostics, hnone, rfl, rfl⟩

end Stable

theorem desugarRulesSource_stable_oneRule :
    (desugarRulesSource oneRuleDocument {}).redirects.length = 1 ∧
      arrowTokens ((desugarRulesSource oneRuleDocument {}).parserInput oneRuleDocument) = 0 ∧
      ∃ again : SourceBuffer, again.bytes = (desugarRulesSource oneRuleDocument {}).parserInput oneRuleDocument ∧
        (desugarRulesSource again {}).parserInput again = again.bytes := by
  have hok : (desugarRulesSource oneRuleDocument {}).ok = true := by decide +kernel
  obtain ⟨hredirects, harrows, hlength, hstable⟩ := desugarRulesSource_stable hok
  have hone : arrowTokens oneRuleDocument.bytes = 1 := by decide +kernel
  have hsize : ((desugarRulesSource oneRuleDocument {}).parserInput oneRuleDocument).length ≤ 128 := by decide +kernel
  have hroomy : Roomy {} ((desugarRulesSource oneRuleDocument {}).parserInput oneRuleDocument).length :=
    ⟨hsize.trans (by decide), hsize, hsize.trans (by decide)⟩
  exact ⟨hredirects.trans hone, harrows, ⟨[], _, hlength⟩, rfl, (hstable ⟨[], _, hlength⟩ {} rfl hroomy).2.2.2⟩

end PathGuard.Rules

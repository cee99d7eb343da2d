import PathGuard.Rules.Lexing

/-!
# What the scanner finds

A scan that reports nothing has cut the whole source into tokens: its candidates are a string, an arrow and a string
each, they follow one another, and no arrow is between them. The frames and the flags of the scanner only say when it
reports, so the invariant of the scan is about the rest of its state.

* `Tiled` : candidates that make up the source; `ScanInv` : the invariant of the scan;
* `scanInv_handlePending`, `advances_round`, `scanInv_scanLoop` : a token, a round, the loop;
* `scan_spec` : what a scan finds.
-/

namespace PathGuard.Rules

variable {bytes : Bytes}

/-! ## Parts of a source -/

/-- The bytes between the offsets are whole tokens, and none of them is an arrow. -/
structure ArrowFree (bytes : Bytes) (first last : Nat) : Prop where
  le : first ≤ last
  last_le : last ≤ bytes.length
  lexed : ∃ items, Lexed (bytes.drop first) (bytes.drop last) items ∧ .arrow ∉ items

/-- A string on one line. -/
structure StringAt (bytes : Bytes) (span : ByteSpan) : Prop where
  lt : span.first < span.last
  last_le : span.last ≤ bytes.length
  quote : ∃ quote, bytes[span.first]? = some quote ∧ isQuote quote = true
  token : scanStringToken bytes span.first = ⟨span.last, false, true⟩

structure ArrowAt (bytes : Bytes) (span : ByteSpan) : Prop where
  last : span.last = span.first + 2
  dash : bytes[span.first]? = some dash
  greater : bytes[span.first + 1]? = some greaterSign

/-- A candidate: a string, an arrow and a string. -/
structure RuleAt (bytes : Bytes) (candidate : ArrowCandidate) : Prop where
  source : StringAt bytes candidate.source
  before : ArrowFree bytes candidate.source.last candidate.arrow.first
  arrow : ArrowAt bytes candidate.arrow
  after : ArrowFree bytes candidate.arrow.last candidate.target.first
  target : StringAt bytes candidate.target
  rule : candidate.rule = ⟨candidate.source.first, candidate.target.last⟩

/-- The candidates follow one another from the first offset on, the last of them up to the second. -/
def Tiled (bytes : Bytes) : Nat → List ArrowCandidate → Nat → Prop
  | cursor, [], last => cursor = last
  | cursor, candidate :: candidates, last =>
      ArrowFree bytes cursor candidate.source.first ∧ RuleAt bytes candidate ∧
        Tiled bytes candidate.rule.last candidates last

theorem Tiled.snoc {cursor last : Nat} {candidates : List ArrowCandidate} {candidate : ArrowCandidate}
    (h : Tiled bytes cursor candidates last) (hgap : ArrowFree bytes last candidate.source.first)
    (hrule : RuleAt bytes candidate) : Tiled bytes cursor (candidates ++ [candidate]) candidate.rule.last := by
  induction candidates generalizing cursor with
  | nil =>
      obtain rfl : cursor = last := h
      exact ⟨hgap, hrule, rfl⟩
  | cons first candidates ih => exact ⟨h.1, h.2.1, ih h.2.2⟩

namespace ArrowFree
variable {first middle last : Nat}

theorem refl (h : first ≤ bytes.length) : ArrowFree bytes first first :=
  ⟨Nat.le_refl _, h, [], .nil _, nofun⟩

theorem trans (h₁ : ArrowFree bytes first middle) (h₂ : ArrowFree bytes middle last) : ArrowFree bytes first last := by
  obtain ⟨xs, hxs, hx⟩ := h₁.lexed
  obtain ⟨ys, hys, hy⟩ := h₂.lexed
  refine ⟨h₁.le.trans h₂.le, h₂.last_le, xs ++ ys, hxs.trans hys, ?_⟩
  rw [List.mem_append]
  exact fun h => h.elim hx hy

end ArrowFree

theorem drop_of_getElem? {offset : Nat} {value : UInt8} (h : bytes[offset]? = some value) :
    bytes.drop offset = value :: bytes.drop (offset + 1) := by
  obtain ⟨hlt, rfl⟩ := List.getElem?_eq_some_iff.mp h
  exact List.drop_eq_getElem_cons hlt

theorem lt_of_getElem? {offset : Nat} {value : UInt8} (h : bytes[offset]? = some value) : offset < bytes.length :=
  (List.getElem?_eq_some_iff.mp h).1

section Cuts
variable {offset : Nat} {value : UInt8}

theorem arrowFree_plain (h : bytes[offset]? = some value) (hplain : isPlain value (bytes.drop (offset + 1)) = true) :
    ArrowFree bytes offset (offset + 1) := by
  refine ⟨Nat.le_succ _, lt_of_getElem? h, [.plain], ?_, by simp⟩
  rw [drop_of_getElem? h]
  exact .plain hplain (.nil _)

/-- A byte that starts no comment, no string and no arrow. -/
def isSingle (value : UInt8) : Bool := value != hashSign && !isQuote value && value != dash

theorem arrowFree_single (h : bytes[offset]? = some value) (hsingle : isSingle value = true) :
    ArrowFree bytes offset (offset + 1) := by
  refine arrowFree_plain h ?_
  simp only [isSingle, Bool.and_eq_true, bne_iff_ne, ne_eq] at hsingle
  simp [isPlain, hsingle.1.1, hsingle.1.2, hsingle.2]

theorem arrowFree_pair {second : UInt8} (h : bytes[offset]? = some value) (hsingle : isSingle value = true)
    (hsecond : isSingle second = true) (double : Bool) :
    ArrowFree bytes offset (offset + if double && bytes[offset + 1]? == some second then 2 else 1) := by
  have hfirst := arrowFree_single h hsingle
  split
  · next hdouble =>
    rw [Bool.and_eq_true] at hdouble
    exact hfirst.trans (arrowFree_single (eq_of_beq hdouble.2) hsecond)
  · exact hfirst

theorem drop_takeWhile_length {p : UInt8 → Bool} (text : Bytes) :
    text.drop (text.takeWhile p).length = text.dropWhile p := by
  induction text with
  | nil => rfl
  | cons value text ih => by_cases hvalue : p value <;> simp [hvalue, ih]

theorem arrowFree_comment (h : bytes[offset]? = some hashSign) :
    ArrowFree bytes offset (skipWhile (· != lineFeed) bytes offset) := by
  have hdrop := drop_of_getElem? h
  have htake := (List.takeWhile_prefix (p := (· != lineFeed)) (l := bytes.drop offset)).length_le
  rw [List.length_drop] at htake
  have hlt := lt_of_getElem? h
  refine ⟨Nat.le_add_right _ _, ?_, [.comment], ?_, by simp⟩
  · rw [skipWhile]
    omega
  · have hskip : bytes.drop (skipWhile (· != lineFeed) bytes offset) =
        (bytes.drop (offset + 1)).dropWhile (· != lineFeed) := by
      rw [skipWhile, ← List.drop_drop, drop_takeWhile_length, hdrop, List.dropWhile_cons_of_pos (by decide)]
    rw [hdrop, hskip]
    exact .comment (.nil _)

theorem StringAt.first_lt {span : ByteSpan} (h : StringAt bytes span) : span.first < bytes.length :=
  Nat.lt_of_lt_of_le h.lt h.last_le

theorem lexed_string {last : Nat} {multiline : Bool} (h : bytes[offset]? = some value) (hquote : isQuote value = true)
    (hscan : scanStringToken bytes offset = ⟨last, multiline, true⟩) :
    offset < last ∧ last ≤ bytes.length ∧ Lexed (bytes.drop offset) (bytes.drop last) [.string multiline] := by
  rw [scanStringToken_shift] at hscan
  cases htoken : scanStringToken (bytes.drop offset) 0 with
  | mk size lines terminated =>
  rw [htoken] at hscan
  obtain ⟨rfl, rfl, rfl⟩ := StringToken.mk.inj hscan
  have hbounds := scanStringToken_bounds htoken
  have hlt := lt_of_getElem? h
  rw [List.length_drop] at hbounds
  refine ⟨by dsimp only; omega, by dsimp only; omega, ?_⟩
  rw [drop_of_getElem? h] at htoken ⊢
  refine .string hquote htoken ?_
  rw [← drop_of_getElem? h, List.drop_drop]
  exact .nil _

theorem arrowFree_string {last : Nat} {multiline : Bool} (h : bytes[offset]? = some value)
    (hquote : isQuote value = true) (hscan : scanStringToken bytes offset = ⟨last, multiline, true⟩) :
    ArrowFree bytes offset last := by
  obtain ⟨hlt, hle, hlexed⟩ := lexed_string h hquote hscan
  exact ⟨Nat.le_of_lt hlt, hle, _, hlexed, by simp⟩

theorem StringAt.arrowFree {span : ByteSpan} (h : StringAt bytes span) : ArrowFree bytes span.first span.last := by
  obtain ⟨quote, hbyte, hquote⟩ := h.quote
  exact arrowFree_string hbyte hquote h.token

theorem arrowFree_other (h : bytes[offset]? = some value) (hplain : isPlain value (bytes.drop (offset + 1)) = true) :
    ArrowFree bytes offset (Scanner.otherEnd (bytes.drop (offset + 1)) (offset + 1)) := by
  refine (arrowFree_plain h hplain).trans ?_
  have hlt := lt_of_getElem? h
  generalize hstart : offset + 1 = start
  have hle : start ≤ bytes.length := by omega
  clear hstart h hplain hlt
  induction hn : bytes.length - start generalizing start with
  | zero =>
      rw [List.drop_of_length_le (by omega)]
      exact .refl hle
  | succ n ih =>
      have hlt : start < bytes.length := by omega
      have hbyte := List.getElem?_eq_getElem hlt
      rw [drop_of_getElem? hbyte, Scanner.otherEnd]
      split
      · exact .refl hle
      · next hstop =>
        rw [Bool.not_eq_true, Bool.or_eq_false_iff] at hstop
        refine (arrowFree_plain hbyte ?_).trans (ih (start + 1) (by omega) (by omega))
        have hboundary := hstop.1
        simp only [isTokenBoundary, Bool.or_eq_false_iff, and_assoc] at hboundary
        obtain ⟨-, -, hhash, hdouble, hsingle, -⟩ := hboundary
        simp only [isPlain, isQuote, bne, hhash, hdouble, hsingle, hstop.2]
        rfl

end Cuts

/-! ## The invariant -/

/-- What of the state of the scanner decides its result. -/
structure ScanView where
  candidates : List ArrowCandidate
  diagnostics : List Diagnostic
  hasError : Bool
  stopped : Bool
  suppressArrowFrame : Option Nat
  pending : Option PendingCandidate
  last : Option SignificantToken

def Scanner.view (s : Scanner) : ScanView :=
  ⟨s.result.candidates, s.result.diagnostics, s.hasError, s.stopped, s.suppressArrowFrame, s.pending, s.last⟩

/-- A candidate that waits for its target, or for what ends it. -/
structure PendingAt (bytes : Bytes) (cursor offset : Nat) (pending : PendingCandidate) : Prop where
  gap : ArrowFree bytes cursor pending.source.first
  source : StringAt bytes pending.source
  before : ArrowFree bytes pending.source.last pending.arrow.first
  arrow : ArrowAt bytes pending.arrow
  waitingTarget : pending.stage = .kWaitingTarget → ArrowFree bytes pending.arrow.last offset
  waitingDelimiter : pending.stage = .kWaitingDelimiter →
    ArrowFree bytes pending.arrow.last pending.target.first ∧ StringAt bytes pending.target ∧
      ArrowFree bytes pending.target.last offset

/-- A string just before the offset: the source of a candidate, if an arrow comes next. -/
def LastAt (bytes : Bytes) (cursor offset : Nat) (last : SignificantToken) : Prop :=
  last.kind = .kString →
    ArrowFree bytes cursor last.span.first ∧ StringAt bytes last.span ∧ ArrowFree bytes last.span.last offset

/-- What has been cut so far, up to the offset. -/
structure Scanned (bytes : Bytes) (offset : Nat) (view : ScanView) : Prop where
  running : view.stopped = false
  unsuppressed : view.suppressArrowFrame = none
  cut : ∃ cursor, Tiled bytes 0 view.candidates cursor ∧
    (∀ pending, view.pending = some pending → PendingAt bytes cursor offset pending) ∧
    (view.pending = none → ArrowFree bytes cursor offset ∧
      ∀ last, view.last = some last → LastAt bytes cursor offset last)

structure ScanInv (limits : RulesLimits) (bytes : Bytes) (offset : Nat) (view : ScanView) : Prop where
  codes : ∀ diagnostic ∈ view.diagnostics, diagnostic.code ≠ kDesugarInternal
  few : view.candidates.length ≤ limits.maxRewrites
  reported : view.hasError = true ↔ view.diagnostics ≠ []
  scanned : view.hasError = false → Scanned bytes offset view

section Invariant
variable {limits : RulesLimits} {offset next : Nat} {s : Scanner} {view : ScanView}

theorem Scanned.of_arrowFree (h : Scanned bytes offset view) (hfree : ArrowFree bytes offset next) :
    Scanned bytes next view := by
  obtain ⟨cursor, htiled, hpending, hnone⟩ := h.cut
  refine ⟨h.running, h.unsuppressed, cursor, htiled, fun pending heq => ?_, fun heq => ⟨?_, fun last hlast hkind => ?_⟩⟩
  · have hat := hpending pending heq
    refine ⟨hat.gap, hat.source, hat.before, hat.arrow, fun hstage => (hat.waitingTarget hstage).trans hfree, ?_⟩
    intro hstage
    obtain ⟨hafter, htarget, htail⟩ := hat.waitingDelimiter hstage
    exact ⟨hafter, htarget, htail.trans hfree⟩
  · exact (hnone heq).1.trans hfree
  · obtain ⟨hgap, hstring, htail⟩ := (hnone heq).2 last hlast hkind
    exact ⟨hgap, hstring, htail.trans hfree⟩

theorem Scanned.le (h : Scanned bytes offset view) : offset ≤ bytes.length := by
  obtain ⟨cursor, -, hpending, hnone⟩ := h.cut
  cases hcase : view.pending with
  | none => exact (hnone hcase).1.last_le
  | some pending =>
      have hat := hpending pending hcase
      cases hstage : pending.stage with
      | kWaitingTarget => exact (hat.waitingTarget hstage).last_le
      | kWaitingDelimiter => exact (hat.waitingDelimiter hstage).2.2.last_le

theorem ScanInv.of_arrowFree (h : ScanInv limits bytes offset view) (hfree : ArrowFree bytes offset next) :
    ScanInv limits bytes next view :=
  ⟨h.codes, h.few, h.reported, fun herror => (h.scanned herror).of_arrowFree hfree⟩

theorem ScanInv.of_error {candidates : List ArrowCandidate} {diagnostics : List Diagnostic}
    {stopped : Bool} {suppress : Option Nat} {pending : Option PendingCandidate} {last : Option SignificantToken}
    (hcodes : ∀ diagnostic ∈ diagnostics, diagnostic.code ≠ kDesugarInternal)
    (hfew : candidates.length ≤ limits.maxRewrites) (hreported : diagnostics ≠ []) :
    ScanInv limits bytes next ⟨candidates, diagnostics, true, stopped, suppress, pending, last⟩ :=
  ⟨hcodes, hfew, iff_of_true rfl hreported, nofun⟩

theorem addDiagnostic_diagnostics (h : ScanInv limits bytes offset s.view) {code : String} (messageKey : String)
    (primary : ByteSpan) (hcode : code ≠ kDesugarInternal) :
    (∀ diagnostic ∈ (s.addDiagnostic limits code messageKey primary).result.diagnostics,
        diagnostic.code ≠ kDesugarInternal) ∧
      (s.addDiagnostic limits code messageKey primary).result.diagnostics ≠ [] ∧
      (s.addDiagnostic limits code messageKey primary).result.candidates = s.result.candidates ∧
      (s.addDiagnostic limits code messageKey primary).hasError = true := by
  have hcodes : ∀ diagnostic ∈ s.result.diagnostics, diagnostic.code ≠ kDesugarInternal := h.codes
  unfold Scanner.addDiagnostic
  dsimp only
  split
  · refine ⟨fun diagnostic hmem => ?_, by simp, rfl, rfl⟩
    obtain hmem | hmem := List.mem_append.mp hmem
    · exact hcodes diagnostic hmem
    · rw [List.mem_singleton.mp hmem]
      exact hcode
  · next hfull =>
    split
    · refine ⟨fun diagnostic hmem => ?_, by simp, rfl, rfl⟩
      obtain hmem | hmem := List.mem_append.mp hmem
      · exact hcodes diagnostic (List.dropLast_subset _ hmem)
      · rw [List.mem_singleton.mp hmem]
        show kDiagnosticsOmitted ≠ kDesugarInternal
        decide
    · refine ⟨hcodes, ?_, rfl, rfl⟩
      rintro hnil
      rw [hnil, List.length_nil] at hfull
      omega

/-- What a token is made of. -/
def TokenAt (bytes : Bytes) (kind : SignificantKind) (span : ByteSpan) : Prop :=
  match kind with
  | .kString => StringAt bytes span
  | .kArrow => ArrowAt bytes span
  | _ => ArrowFree bytes span.first span.last

theorem TokenAt.arrowFree {kind : SignificantKind} {span : ByteSpan} (h : TokenAt bytes kind span)
    (hkind : kind ≠ .kArrow) : ArrowFree bytes span.first span.last := by
  cases kind with
  | kString => exact StringAt.arrowFree h
  | kArrow => exact absurd rfl hkind
  | _ => exact h

/-- The state once the token is the last one. -/
def Scanner.took (s : Scanner) (token : SignificantToken) : ScanView := { s.view with last := some token }

theorem scanInv_reported (h : ScanInv limits bytes offset s.view) {code : String} (messageKey : String)
    (primary : ByteSpan) (hcode : code ≠ kDesugarInternal) {stopped : Bool} {suppress : Option Nat}
    {pending : Option PendingCandidate} {last : Option SignificantToken} :
    ScanInv limits bytes next ⟨(s.addDiagnostic limits code messageKey primary).result.candidates,
      (s.addDiagnostic limits code messageKey primary).result.diagnostics,
      (s.addDiagnostic limits code messageKey primary).hasError, stopped, suppress, pending, last⟩ := by
  obtain ⟨hcodes, hne, hcandidates, herror⟩ := addDiagnostic_diagnostics h messageKey primary hcode
  rw [herror]
  refine .of_error hcodes ?_ hne
  rw [hcandidates]
  exact h.few

/-- What a candidate whose target is there adds to what was cut. -/
theorem tiled_of_pending (h : ScanInv limits bytes offset s.view) (herror : s.hasError = false)
    {pending : PendingCandidate} (hpending : s.pending = some pending) (hstage : pending.stage = .kWaitingDelimiter) :
    Tiled bytes 0 (s.result.candidates ++ [⟨⟨pending.source.first, pending.target.last⟩, pending.source, pending.arrow,
        pending.target, pending.arrayFrameId⟩]) pending.target.last ∧
      ArrowFree bytes pending.target.last offset := by
  obtain ⟨cursor, htiled, hat, -⟩ := (h.scanned herror).cut
  have hat := hat pending hpending
  obtain ⟨hafter, htarget, htail⟩ := hat.waitingDelimiter hstage
  exact ⟨htiled.snoc hat.gap ⟨hat.source, hat.before, hat.arrow, hafter, htarget, rfl⟩, htail⟩

theorem scanInv_confirm {token : SignificantToken} (h : ScanInv limits bytes token.span.first s.view)
    {pending : PendingCandidate} (hpending : s.pending = some pending) (hstage : pending.stage = .kWaitingDelimiter)
    (htoken : ArrowFree bytes token.span.first token.span.last) (hkind : token.kind ≠ .kString) :
    ScanInv limits bytes token.span.last ((s.confirmCandidate limits).took token) := by
  unfold Scanner.confirmCandidate
  rw [hpending]
  dsimp only
  split
  · exact scanInv_reported h _ _ (by decide)
  · next hroom =>
    refine ⟨h.codes, ?_, h.reported, fun herror => ?_⟩
    · show (s.result.candidates ++ [_]).length ≤ limits.maxRewrites
      rw [List.length_append, List.length_singleton]
      omega
    · have hscanned := h.scanned herror
      obtain ⟨htiled, htail⟩ := tiled_of_pending h herror hpending hstage
      refine ⟨hscanned.running, hscanned.unsuppressed, pending.target.last, htiled, nofun,
        fun _ => ⟨htail.trans htoken, ?_⟩⟩
      rintro _ ⟨⟩ hstring
      exact absurd hstring hkind

theorem TokenAt.last_le {kind : SignificantKind} {span : ByteSpan} (h : TokenAt bytes kind span) :
    span.last ≤ bytes.length := by
  cases kind with
  | kString => exact StringAt.last_le h
  | kArrow =>
      have hlt := lt_of_getElem? (ArrowAt.greater h)
      rw [ArrowAt.last h]
      omega
  | _ => exact ArrowFree.last_le h

theorem scanInv_candidate {token : SignificantToken} {pending : PendingCandidate}
    (h : ScanInv limits bytes token.span.first s.view) (htoken : TokenAt bytes token.kind token.span)
    (hpending : s.pending = some pending) :
    ScanInv limits bytes token.span.last ((s.handleCandidate limits pending token).took token) := by
  unfold Scanner.handleCandidate
  split
  · next hstage =>
    split
    · next htarget =>
      rw [Bool.and_eq_true, beq_iff_eq] at htarget
      refine ⟨h.codes, h.few, h.reported, fun herror => ?_⟩
      have hscanned := h.scanned herror
      obtain ⟨cursor, htiled, hat, -⟩ := hscanned.cut
      have hat := hat pending hpending
      rw [htarget.1] at htoken
      refine ⟨hscanned.running, hscanned.unsuppressed, cursor, htiled, ?_, nofun⟩
      rintro _ ⟨⟩
      exact ⟨hat.gap, hat.source, hat.before, hat.arrow, nofun,
        fun _ => ⟨hat.waitingTarget hstage, htoken, .refl (StringAt.last_le htoken)⟩⟩
    · exact scanInv_reported h _ _ (by decide)
  · next hstage =>
    split
    · next hdelimits =>
      have hkind : token.kind = .kComma ∨ token.kind = .kCloseArray := by
        simp only [Scanner.delimits, Bool.and_eq_true, Bool.or_eq_true, beq_iff_eq] at hdelimits
        exact hdelimits.1
      have hfree : ArrowFree bytes token.span.first token.span.last :=
        htoken.arrowFree (by obtain hkind | hkind := hkind <;> simp [hkind])
      exact scanInv_confirm h hpending hstage hfree (by obtain hkind | hkind := hkind <;> simp [hkind])
    · split
      · exact scanInv_reported h _ _ (by decide)
      · split
        · exact scanInv_reported h _ _ (by decide)
        · exact scanInv_reported h _ _ (by decide)

theorem scanInv_arrow {token : SignificantToken} (h : ScanInv limits bytes token.span.first s.view)
    (htoken : TokenAt bytes token.kind token.span) (hpending : s.pending = none) :
    ScanInv limits bytes token.span.last ((s.handleArrow limits token).took token) := by
  unfold Scanner.handleArrow
  split
  · next hkind =>
    have hne : token.kind ≠ .kArrow := by simpa using hkind
    refine ⟨h.codes, h.few, h.reported, fun herror => ?_⟩
    have hscanned := h.scanned herror
    obtain ⟨cursor, htiled, -, hnone⟩ := hscanned.cut
    obtain ⟨hgap, -⟩ := hnone hpending
    refine ⟨hscanned.running, hscanned.unsuppressed, cursor, htiled, fun pending hsome => ?_,
      fun _ => ⟨hgap.trans (htoken.arrowFree hne), ?_⟩⟩
    · rw [show s.pending = some pending from hsome] at hpending
      cases hpending
    · rintro _ ⟨⟩ hstring
      rw [hstring] at htoken
      exact ⟨hgap, htoken, .refl (StringAt.last_le htoken)⟩
  · next hkind =>
    have hkind : token.kind = .kArrow := by simpa using hkind
    split
    · exact scanInv_reported h _ _ (by decide)
    · next last hlast =>
      split
      · exact scanInv_reported h _ _ (by decide)
      · next hstring =>
        have hstring : last.kind = .kString := by simpa using hstring
        split
        · exact scanInv_reported h _ _ (by decide)
        · split
          · refine ⟨h.codes, h.few, h.reported, fun herror => ?_⟩
            have hscanned := h.scanned herror
            obtain ⟨cursor, htiled, -, hnone⟩ := hscanned.cut
            obtain ⟨hgap, hsource, hbefore⟩ := (hnone hpending).2 last hlast hstring
            have hend := htoken.last_le
            rw [hkind] at htoken
            refine ⟨hscanned.running, hscanned.unsuppressed, cursor, htiled, ?_, nofun⟩
            rintro _ ⟨⟩
            exact ⟨hgap, hsource, hbefore, htoken, fun _ => .refl hend, nofun⟩
          · exact scanInv_reported h _ _ (by decide)

/-- **What a token does to the invariant.** -/
theorem scanInv_handlePending {token : SignificantToken} (h : ScanInv limits bytes token.span.first s.view)
    (htoken : TokenAt bytes token.kind token.span) :
    ScanInv limits bytes token.span.last ((s.handlePending limits token).took token) := by
  unfold Scanner.handlePending
  split
  · -- an arrow passed over: only after a report
    next hsuppressed =>
    refine ⟨h.codes, h.few, h.reported, fun herror => ?_⟩
    have hnone : s.suppressArrowFrame = none := (h.scanned herror).unsuppressed
    rw [hnone] at hsuppressed
    simp at hsuppressed
  · generalize hs : (if s.suppressArrowFrame.any (Scanner.delimits token) then
      { s with suppressArrowFrame := none } else s) = after
    have hafter : ScanInv limits bytes token.span.first after.view := by
      rw [← hs]
      split
      · refine ⟨h.codes, h.few, h.reported, fun herror => ?_⟩
        have hscanned := h.scanned herror
        exact ⟨hscanned.running, rfl, hscanned.cut⟩
      · exact h
    clear hs h
    dsimp only
    split
    · next pending hpending => exact scanInv_candidate hafter htoken hpending
    · next hpending => exact scanInv_arrow hafter htoken hpending

theorem scanInv_emit {kind : SignificantKind} {first last frameId : Nat} (h : ScanInv limits bytes first s.view)
    (htoken : TokenAt bytes kind ⟨first, last⟩) :
    ScanInv limits bytes last (s.emit limits kind first last frameId).view := by
  unfold Scanner.emit
  split
  · next hstopped =>
    refine ⟨h.codes, h.few, h.reported, fun herror => ?_⟩
    have hrunning : s.stopped = false := (h.scanned herror).running
    rw [hrunning] at hstopped
    cases hstopped
  · split
    · exact scanInv_reported h _ _ (by decide)
    · let token : SignificantToken := ⟨kind, ⟨first, last⟩, frameId⟩
      let counted := { s with result := { s.result with significantTokens := s.result.significantTokens + 1 } }
      show ScanInv limits bytes token.span.last ((counted.handlePending limits token).took token)
      exact scanInv_handlePending h htoken

theorem scanInv_pushFrame (h : ScanInv limits bytes offset s.view) {kind : FrameKind} {closing : UInt8}
    {closingCount : Nat} {pushed : Bool} {after : Scanner}
    (hpush : s.pushFrame limits kind closing closingCount offset = (pushed, after)) :
    (pushed = true ∧ ScanInv limits bytes offset after.view) ∨
      (pushed = false ∧ ∀ next, ScanInv limits bytes next after.view) := by
  unfold Scanner.pushFrame at hpush
  split at hpush
  · obtain ⟨rfl, rfl⟩ := Prod.mk.inj hpush
    exact Or.inr ⟨rfl, fun next => scanInv_reported h _ _ (by decide)⟩
  · obtain ⟨rfl, rfl⟩ := Prod.mk.inj hpush
    exact Or.inl ⟨rfl, h⟩

/-! ## A round of the scan -/

/-- A round ends further on, with the invariant. -/
def Advances (limits : RulesLimits) (bytes : Bytes) (offset : Nat) (after : Nat × Scanner) : Prop :=
  offset < after.1 ∧ ScanInv limits bytes after.1 after.2.view

variable {value : UInt8}

theorem advances_openArray (h : ScanInv limits bytes offset s.view) (hbyte : bytes[offset]? = some openBracket) :
    Advances limits bytes offset (s.openArray limits bytes offset) := by
  unfold Scanner.openArray
  dsimp only
  split
  · next pushed hpush =>
    have hpushed := scanInv_pushFrame h hpush
    exact ⟨lt_of_getElem? hbyte, (hpushed.resolve_left (by simp)).2 _⟩
  · next pushed hpush =>
    have hafter := ((scanInv_pushFrame h hpush).resolve_right (by simp)).2
    refine ⟨?_, ?_⟩
    · dsimp only
      split <;> omega
    · exact scanInv_emit hafter (arrowFree_pair hbyte (by decide) (by decide) _)

theorem view_popFrame (closing : UInt8) : (s.popFrame closing).view = s.view := by
  unfold Scanner.popFrame
  split <;> rfl

theorem advances_closeArray (h : ScanInv limits bytes offset s.view) (hbyte : bytes[offset]? = some closeBracket) :
    Advances limits bytes offset (s.closeArray limits bytes offset) := by
  unfold Scanner.closeArray
  refine ⟨?_, ?_⟩
  · dsimp only
    split <;> omega
  · dsimp only
    generalize hwidth : (if (s.currentFrame.any fun frame => frame.closing == closeBracket && frame.closingCount == 2) &&
      bytes[offset + 1]? == some closeBracket then 2 else 1) = width
    have hfree : ArrowFree bytes offset (offset + width) := by
      rw [← hwidth]
      exact arrowFree_pair hbyte (by decide) (by decide) _
    have hemit : ScanInv limits bytes (offset + width)
        (s.emit limits .kCloseArray offset (offset + width) s.currentFrameId).view := scanInv_emit h hfree
    rw [← view_popFrame closeBracket] at hemit
    exact hemit

theorem scanInv_openBrace (h : ScanInv limits bytes offset s.view) (hbyte : bytes[offset]? = some openCurly) :
    ScanInv limits bytes (offset + 1) (s.openBrace limits offset).view := by
  unfold Scanner.openBrace
  dsimp only
  split
  · next pushed hpush => exact ((scanInv_pushFrame h hpush).resolve_left (by simp)).2 _
  · next pushed hpush =>
    have hafter := ((scanInv_pushFrame h hpush).resolve_right (by simp)).2
    exact scanInv_emit hafter (arrowFree_single hbyte (by decide))

theorem scanInv_closeBrace (h : ScanInv limits bytes offset s.view) (hbyte : bytes[offset]? = some closeCurly) :
    ScanInv limits bytes (offset + 1) (s.closeBrace limits offset).view := by
  have hemit : ScanInv limits bytes (offset + 1)
      (s.emit limits .kCloseInlineTable offset (offset + 1) s.currentFrameId).view :=
    scanInv_emit h (arrowFree_single hbyte (by decide))
  rw [← view_popFrame closeCurly] at hemit
  exact hemit

theorem scanInv_comment (h : ScanInv limits bytes offset s.view) (hbyte : bytes[offset]? = some hashSign) :
    ScanInv limits bytes (skipWhile (· != lineFeed) bytes offset) (s.handleComment limits bytes offset).view := by
  unfold Scanner.handleComment
  split
  · split
    · exact scanInv_reported h _ _ (by decide)
    · exact h.of_arrowFree (arrowFree_comment hbyte)
  · exact h.of_arrowFree (arrowFree_comment hbyte)

theorem lt_skip_comment (hbyte : bytes[offset]? = some hashSign) : offset < skipWhile (· != lineFeed) bytes offset := by
  rw [skipWhile, drop_of_getElem? hbyte, List.takeWhile_cons_of_pos (by decide), List.length_cons]
  omega

theorem advances_string (h : ScanInv limits bytes offset s.view) (hbyte : bytes[offset]? = some value)
    (hquote : isQuote value = true) : Advances limits bytes offset (s.scanString limits bytes offset) := by
  unfold Scanner.scanString
  dsimp only
  split
  · exact ⟨by dsimp only; omega, scanInv_reported h _ _ (by decide)⟩
  · split
    · exact ⟨by dsimp only; omega, scanInv_reported h _ _ (by decide)⟩
    · next hterminated =>
      cases htoken : scanStringToken bytes offset with
      | mk last multiline terminated =>
      rw [htoken] at hterminated
      obtain rfl : terminated = true := by simpa using hterminated
      obtain ⟨hlt, hle, -⟩ := lexed_string hbyte hquote htoken
      refine ⟨hlt, scanInv_emit h ?_⟩
      cases multiline with
      | true => exact arrowFree_string hbyte hquote htoken
      | false => exact ⟨hlt, hle, ⟨value, hbyte, hquote⟩, htoken⟩

theorem otherEnd_ge (rest : Bytes) (start : Nat) : start ≤ Scanner.otherEnd rest start := by
  induction rest generalizing start with
  | nil => exact Nat.le_refl _
  | cons value rest ih =>
      rw [Scanner.otherEnd]
      split
      · exact Nat.le_refl _
      · exact (Nat.le_succ _).trans (ih (start + 1))

/-- What a round of the scan can be. -/
inductive Round (limits : RulesLimits) (bytes : Bytes) (offset : Nat) (s : Scanner) : UInt8 → Nat × Scanner → Prop
  | space {value : UInt8} : isHorizontalSpace value = true → Round limits bytes offset s value (offset + 1, s)
  | newline {value : UInt8} : isNewline value = true →
      Round limits bytes offset s value
        (if value == carriageReturn && bytes[offset + 1]? == some lineFeed then offset + 2 else offset + 1,
          if s.frames.isEmpty then { s with atStatementStart := true, expectingValue := false } else s)
  | comment : Round limits bytes offset s hashSign
      (skipWhile (· != lineFeed) bytes offset, s.handleComment limits bytes offset)
  | string {value : UInt8} : isQuote value = true →
      Round limits bytes offset s value (s.scanString limits bytes offset)
  | arrow : bytes[offset + 1]? = some greaterSign →
      Round limits bytes offset s dash (offset + 2, s.emit limits .kArrow offset (offset + 2) s.currentFrameId)
  | openArray : Round limits bytes offset s openBracket (s.openArray limits bytes offset)
  | closeArray : Round limits bytes offset s closeBracket (s.closeArray limits bytes offset)
  | openBrace : Round limits bytes offset s openCurly (offset + 1, s.openBrace limits offset)
  | closeBrace : Round limits bytes offset s closeCurly (offset + 1, s.closeBrace limits offset)
  | mark {value : UInt8} {kind : SignificantKind} {after : Scanner} (expectingValue atStatementStart : Bool) :
      (value, kind) ∈ [(equalsSign, .kEquals), (commaSign, .kComma), (dotSign, .kDot)] →
      after = { s.emit limits kind offset (offset + 1) s.currentFrameId with
        expectingValue := expectingValue, atStatementStart := atStatementStart } →
      Round limits bytes offset s value (offset + 1, after)
  | other {value : UInt8} {last : Nat} {after : Scanner} : isPlain value (bytes.drop (offset + 1)) = true →
      last = Scanner.otherEnd (bytes.drop (offset + 1)) (offset + 1) →
      after = { s.emit limits .kOther offset last s.currentFrameId with
        expectingValue := false, atStatementStart := false } →
      Round limits bytes offset s value (last, after)

theorem round_scanStep (limits : RulesLimits) (bytes : Bytes) (value : UInt8) (offset : Nat) (s : Scanner) :
    Round limits bytes offset s value (s.scanStep limits bytes value offset) := by
  unfold Scanner.scanStep
  by_cases hspace : isHorizontalSpace value = true
  · rw [if_pos hspace]
    exact .space hspace
  rw [if_neg hspace]
  by_cases hnewline : isNewline value = true
  · rw [if_pos hnewline]
    exact .newline hnewline
  rw [if_neg hnewline]
  by_cases hhash : (value == hashSign) = true
  · rw [if_pos hhash]
    obtain rfl := eq_of_beq hhash
    exact .comment
  rw [if_neg hhash]
  by_cases hquote : (value == doubleQuote || value == singleQuote) = true
  · rw [if_pos hquote]
    exact .string hquote
  rw [if_neg hquote]
  by_cases harrow : (value == dash && bytes[offset + 1]? == some greaterSign) = true
  · rw [if_pos harrow]
    rw [Bool.and_eq_true] at harrow
    obtain rfl := eq_of_beq harrow.1
    exact .arrow (eq_of_beq harrow.2)
  rw [if_neg harrow]
  by_cases hopen : (value == openBracket) = true
  · rw [if_pos hopen]
    obtain rfl := eq_of_beq hopen
    exact .openArray
  rw [if_neg hopen]
  by_cases hclose : (value == closeBracket) = true
  · rw [if_pos hclose]
    obtain rfl := eq_of_beq hclose
    exact .closeArray
  rw [if_neg hclose]
  by_cases hopen : (value == openCurly) = true
  · rw [if_pos hopen]
    obtain rfl := eq_of_beq hopen
    exact .openBrace
  rw [if_neg hopen]
  by_cases hclose : (value == closeCurly) = true
  · rw [if_pos hclose]
    obtain rfl := eq_of_beq hclose
    exact .closeBrace
  rw [if_neg hclose]
  by_cases hequals : (value == equalsSign) = true
  · rw [if_pos hequals]
    obtain rfl := eq_of_beq hequals
    exact .mark _ _ (by simp) rfl
  rw [if_neg hequals]
  by_cases hcomma : (value == commaSign) = true
  · rw [if_pos hcomma]
    obtain rfl := eq_of_beq hcomma
    exact .mark _ _ (by simp) rfl
  rw [if_neg hcomma]
  by_cases hdot : (value == dotSign) = true
  · rw [if_pos hdot]
    obtain rfl := eq_of_beq hdot
    exact .mark _ _ (by simp) rfl
  rw [if_neg hdot]
  refine .other ?_ rfl rfl
  simp only [isPlain, isQuote, bne, List.head?_drop, Bool.not_eq_true _ ▸ hhash, Bool.not_eq_true _ ▸ hquote,
    Bool.not_eq_true _ ▸ harrow]
  rfl

/-- **A round of the scan keeps the invariant.** -/
theorem advances_round (h : ScanInv limits bytes offset s.view) (hbyte : bytes[offset]? = some value)
    {after : Nat × Scanner} (hround : Round limits bytes offset s value after) : Advances limits bytes offset after := by
  cases hround with
  | space hspace =>
      refine ⟨Nat.lt_succ_self _, h.of_arrowFree (arrowFree_single hbyte ?_)⟩
      simp only [isHorizontalSpace, Bool.or_eq_true, beq_iff_eq] at hspace
      obtain rfl | rfl := hspace <;> decide
  | newline hnewline =>
      have hsingle : isSingle value = true := by
        simp only [isNewline, Bool.or_eq_true, beq_iff_eq] at hnewline
        obtain rfl | rfl := hnewline <;> decide
      have hpair := arrowFree_pair hbyte hsingle (by decide : isSingle lineFeed = true) (value == carriageReturn)
      have hview : (if s.frames.isEmpty then { s with atStatementStart := true, expectingValue := false }
          else s).view = s.view := by split <;> rfl
      refine ⟨?_, ?_⟩
      · dsimp only
        split <;> omega
      · dsimp only
        rw [hview]
        refine h.of_arrowFree ?_
        split at hpair
        · next hfeed => rwa [if_pos hfeed]
        · next hfeed => rwa [if_neg hfeed]
  | comment => exact ⟨lt_skip_comment hbyte, scanInv_comment h hbyte⟩
  | string hquote => exact advances_string h hbyte hquote
  | arrow hnext => exact ⟨by dsimp only; omega, scanInv_emit h ⟨rfl, hbyte, hnext⟩⟩
  | openArray => exact advances_openArray h hbyte
  | closeArray => exact advances_closeArray h hbyte
  | openBrace => exact ⟨Nat.lt_succ_self _, scanInv_openBrace h hbyte⟩
  | closeBrace => exact ⟨Nat.lt_succ_self _, scanInv_closeBrace h hbyte⟩
  | @mark _ kind after expecting starts hkind hafter =>
      subst hafter
      refine ⟨Nat.lt_succ_self _, ?_⟩
      show ScanInv limits bytes (offset + 1) (s.emit limits kind offset (offset + 1) s.currentFrameId).view
      refine scanInv_emit h ?_
      simp only [List.mem_cons, Prod.mk.injEq, List.not_mem_nil, or_false] at hkind
      obtain ⟨rfl, rfl⟩ | ⟨rfl, rfl⟩ | ⟨rfl, rfl⟩ := hkind <;> exact arrowFree_single hbyte (by decide)
  | @other _ last after hplain hlast hafter =>
      subst hafter
      refine ⟨hlast ▸ otherEnd_ge _ _, ?_⟩
      show ScanInv limits bytes last (s.emit limits .kOther offset last s.currentFrameId).view
      refine scanInv_emit h ?_
      rw [hlast]
      exact arrowFree_other hbyte hplain

/-- **A scan keeps the invariant**, and one that reports nothing comes to the end. -/
theorem scanInv_scanLoop {fuel : Nat} (h : ScanInv limits bytes offset s.view) (hfuel : bytes.length ≤ offset + fuel) :
    ScanInv limits bytes (s.scanLoop limits bytes fuel offset).1 (s.scanLoop limits bytes fuel offset).2.view ∧
      ((s.scanLoop limits bytes fuel offset).2.hasError = false →
        bytes.length ≤ (s.scanLoop limits bytes fuel offset).1) := by
  induction fuel generalizing offset s with
  | zero => exact ⟨h, fun _ => hfuel⟩
  | succ fuel ih =>
      rw [Scanner.scanLoop]
      cases hbyte : bytes[offset]? with
      | none => exact ⟨h, fun _ => List.getElem?_eq_none_iff.mp hbyte⟩
      | some value =>
          dsimp only
          split
          · next hstopped =>
            refine ⟨h, fun herror => ?_⟩
            have hrunning : s.stopped = false := (h.scanned herror).running
            rw [hrunning] at hstopped
            cases hstopped
          · obtain ⟨hlt, hafter⟩ := advances_round h hbyte (round_scanStep limits bytes value offset s)
            exact ih hafter (by omega)

/-- What a scan leaves. -/
structure Finished (limits : RulesLimits) (bytes : Bytes) (s : Scanner) : Prop where
  codes : ∀ diagnostic ∈ s.result.diagnostics, diagnostic.code ≠ kDesugarInternal
  few : s.result.candidates.length ≤ limits.maxRewrites
  reported : s.hasError = true ↔ s.result.diagnostics ≠ []
  tiled : s.hasError = false →
    ∃ cursor, Tiled bytes 0 s.result.candidates cursor ∧ ArrowFree bytes cursor bytes.length

theorem finished_reported (h : ScanInv limits bytes offset s.view) {code : String} (messageKey : String)
    (primary : ByteSpan) (hcode : code ≠ kDesugarInternal) {pending : Option PendingCandidate} :
    Finished limits bytes { s.addDiagnostic limits code messageKey primary with pending := pending } := by
  obtain ⟨hcodes, hne, hcandidates, herror⟩ := addDiagnostic_diagnostics h messageKey primary hcode
  refine ⟨hcodes, ?_, iff_of_true herror hne, fun hnone => ?_⟩
  · show (s.addDiagnostic limits code messageKey primary).result.candidates.length ≤ limits.maxRewrites
    rw [hcandidates]
    exact h.few
  · rw [show (s.addDiagnostic limits code messageKey primary).hasError = false from hnone] at herror
    cases herror

theorem finished_finishAtEof (h : ScanInv limits bytes offset s.view)
    (hend : s.hasError = false → offset = bytes.length) : Finished limits bytes (s.finishAtEof limits) := by
  unfold Scanner.finishAtEof
  split
  · next hpending =>
    refine ⟨h.codes, h.few, h.reported, fun herror => ?_⟩
    obtain ⟨cursor, htiled, -, hnone⟩ := (h.scanned herror).cut
    exact ⟨cursor, htiled, hend herror ▸ (hnone hpending).1⟩
  · next pending hpending =>
    split
    · exact finished_reported h _ _ (by decide)
    · next hstage =>
      unfold Scanner.confirmCandidate
      rw [hpending]
      dsimp only
      split
      · exact finished_reported h _ _ (by decide)
      · next hroom =>
        refine ⟨h.codes, ?_, h.reported, fun herror => ?_⟩
        · show (s.result.candidates ++ [_]).length ≤ limits.maxRewrites
          rw [List.length_append, List.length_singleton]
          omega
        · obtain ⟨htiled, htail⟩ := tiled_of_pending h herror hpending hstage
          exact ⟨_, htiled, hend herror ▸ htail⟩

end Invariant

theorem scanInv_start (limits : RulesLimits) (bytes : Bytes) : ScanInv limits bytes 0 ({} : Scanner).view := by
  refine ⟨nofun, Nat.zero_le _, by simp [Scanner.view], fun _ => ⟨rfl, rfl, 0, rfl, nofun, fun _ => ⟨?_, nofun⟩⟩⟩
  exact .refl (Nat.zero_le _)

/-- **What a scan finds.** Its diagnostics are not those of an inconsistent desugarer. With none of them the candidates
and what is between them make up the source; with one there are no candidates. -/
theorem scan_spec (source : SourceBuffer) (limits : RulesLimits) :
    (∀ diagnostic ∈ (scanArrowCandidates source limits).diagnostics, diagnostic.code ≠ kDesugarInternal) ∧
      (scanArrowCandidates source limits).candidates.length ≤ limits.maxRewrites ∧
      ((scanArrowCandidates source limits).diagnostics ≠ [] → (scanArrowCandidates source limits).candidates = []) ∧
      ((scanArrowCandidates source limits).diagnostics = [] →
        ∃ cursor, Tiled source.bytes 0 (scanArrowCandidates source limits).candidates cursor ∧
          ArrowFree source.bytes cursor source.bytes.length) := by
  have hfuel : source.bytes.length ≤ 0 + source.bytes.length := by omega
  obtain ⟨hinv, hend⟩ := scanInv_scanLoop (scanInv_start limits source.bytes) hfuel
  unfold scanArrowCandidates
  cases hloop : Scanner.scanLoop limits source.bytes source.bytes.length 0 {} with
  | mk offset s =>
  rw [hloop] at hinv hend
  dsimp only at hinv hend ⊢
  let counted : Scanner := { s with
    result := { s.result with bytesConsumed := offset, openFramesAtEof := s.frames.length } }
  have hcounted : ScanInv limits source.bytes offset counted.view := hinv
  have hfinished : Finished limits source.bytes (counted.finishAtEof limits) := by
    refine finished_finishAtEof hcounted fun herror => ?_
    exact Nat.le_antisymm (hinv.scanned herror).le (hend herror)
  show (∀ diagnostic ∈ (if (counted.finishAtEof limits).hasError then _ else _ : ArrowScanResult).diagnostics, _) ∧ _
  split
  · next herror =>
    exact ⟨hfinished.codes, Nat.zero_le _, fun _ => rfl, fun hnil => absurd hnil (hfinished.reported.mp herror)⟩
  · next herror =>
    have herror : (counted.finishAtEof limits).hasError = false := by simpa using herror
    refine ⟨hfinished.codes, hfinished.few, fun hne => ?_, fun _ => hfinished.tiled herror⟩
    rw [hfinished.reported.mpr hne] at herror
    cases herror

end PathGuard.Rules

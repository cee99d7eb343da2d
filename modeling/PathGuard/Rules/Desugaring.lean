import PathGuard.Rules.FormatLine
import PathGuard.Rules.RewriteMap

/-!
# Desugaring a source

`AnalyzeRulesSource` and `DesugarRulesSource`: the probe, the scan and the emission in one. What the scanner finds is
what the emitter checks for, so the emitter reports nothing but a text that grows too large.

* `analyzeRulesSource`, `desugarRulesSource` : the functions;
* `scan_tiled`, `emitDesugaredSource_codes` : what the scan hands over, and what the emitter can refuse;
* `desugarRulesSource_consistent` : the internal error never comes.
-/

namespace PathGuard.Rules

/-! ## The entry points -/

structure RulesLexResult where
  formatVersion : Nat := 0
  candidates : List ArrowCandidate := []
  diagnostics : List Diagnostic := []
  significantTokens : Nat := 0
  maxFrameDepth : Nat := 0
  bytesConsumed : Nat := 0
  openFramesAtEof : Nat := 0
  deriving DecidableEq, Repr

def RulesLexResult.parserAllowed (result : RulesLexResult) : Bool := result.diagnostics.isEmpty

def analyzeRulesSource (source : SourceBuffer) (limits : RulesLimits) : RulesLexResult :=
  match probeRulesFormat source with
  | .error diagnostic => { diagnostics := [diagnostic] }
  | .ok version =>
      let scanned := scanArrowCandidates source limits
      { formatVersion := version
        candidates := scanned.candidates
        diagnostics := scanned.diagnostics
        significantTokens := scanned.significantTokens
        maxFrameDepth := scanned.maxFrameDepth
        bytesConsumed := scanned.bytesConsumed
        openFramesAtEof := scanned.openFramesAtEof }

def desugarRulesSource (source : SourceBuffer) (limits : RulesLimits) : DesugarResult :=
  let lexical := analyzeRulesSource source limits
  if !lexical.parserAllowed then
    { rewriteMap := .identity source.size, diagnostics := lexical.diagnostics }
  else emitDesugaredSource source (numberRewrites 1 lexical.candidates) limits

section Probed
variable {source : SourceBuffer} {version : Nat} (hprobe : probeRulesFormat source = .ok version) (limits : RulesLimits)
include hprobe

theorem desugarRulesSource_emitted (hquiet : (scanArrowCandidates source limits).diagnostics = []) :
    desugarRulesSource source limits =
      emitDesugaredSource source (numberRewrites 1 (scanArrowCandidates source limits).candidates) limits := by
  unfold desugarRulesSource analyzeRulesSource
  rw [hprobe]
  refine if_neg ?_
  show ¬(!(scanArrowCandidates source limits).diagnostics.isEmpty) = true
  rw [hquiet]
  decide

theorem desugarRulesSource_reported (hreported : (scanArrowCandidates source limits).diagnostics ≠ []) :
    desugarRulesSource source limits =
      { rewriteMap := .identity source.size, diagnostics := (scanArrowCandidates source limits).diagnostics } := by
  unfold desugarRulesSource analyzeRulesSource
  rw [hprobe]
  refine if_pos ?_
  show (!(scanArrowCandidates source limits).diagnostics.isEmpty) = true
  simpa using hreported

end Probed

theorem parseRulesDocument_eq (toml : TomlParser) (source : SourceBuffer) (limits : RulesLimits) :
    parseRulesDocument toml source limits =
      decodeDesugaredRules toml source (desugarRulesSource source limits) limits := by
  have hfailed : ∀ desugared : DesugarResult, desugared.ok = false →
      decodeDesugaredRules toml source desugared limits = { diagnostics := desugared.diagnostics } := by
    intro desugared hok
    rw [decodeDesugaredRules, hok]
    rfl
  unfold parseRulesDocument
  cases hprobe : probeRulesFormat source with
  | error diagnostic =>
      unfold desugarRulesSource analyzeRulesSource
      rw [hprobe]
      exact (hfailed ⟨none, .identity source.size, [], [diagnostic]⟩ rfl).symm
  | ok version =>
      dsimp only
      by_cases hquiet : (scanArrowCandidates source limits).diagnostics = []
      · rw [desugarRulesSource_emitted hprobe limits hquiet, if_neg (by rw [ArrowScanResult.parserAllowed, hquiet]; decide)]
        split
        · next hfailure => exact (hfailed _ (by simpa using hfailure)).symm
        · rfl
      · have hblocked : (scanArrowCandidates source limits).parserAllowed = false := by
          simpa [ArrowScanResult.parserAllowed] using hquiet
        rw [desugarRulesSource_reported hprobe limits hquiet, hblocked]
        refine Eq.trans ?_ (hfailed _ ?_).symm
        · rfl
        · exact hblocked

/-! ## The rewrites of the candidates -/

section Rewrites
variable {bytes : Bytes} {cursor last id : Nat} {candidate : ArrowCandidate} {candidates : List ArrowCandidate}

theorem RuleAt.validRewrite (h : RuleAt bytes candidate) (hid : id ≠ 0) :
    ValidRewrite bytes.length ⟨id, candidate.rule, candidate.source, candidate.arrow, candidate.target⟩ := by
  have harrow := h.arrow.last
  exact ⟨hid, by rw [h.rule], by rw [h.rule], h.source.lt, h.before.le, by dsimp only; omega, h.after.le, h.target.lt,
    h.target.last_le⟩

theorem Tiled.inOrder (h : Tiled bytes cursor candidates last) (hid : id ≠ 0) :
    InOrder bytes.length cursor (numberRewrites id candidates) := by
  induction candidates generalizing cursor id with
  | nil => trivial
  | cons candidate candidates ih =>
      obtain ⟨hgap, hrule, htail⟩ := h
      refine ⟨hrule.validRewrite hid, ?_, ih htail (Nat.succ_ne_zero id)⟩
      rw [hrule.rule]
      exact hgap.le

theorem Tiled.pairwise (h : Tiled bytes cursor candidates last) :
    candidates.Pairwise (fun first second => first.rule.last ≤ second.rule.first) ∧
      ∀ candidate ∈ candidates, RuleAt bytes candidate ∧ cursor ≤ candidate.rule.first := by
  induction candidates generalizing cursor with
  | nil => exact ⟨.nil, nofun⟩
  | cons first candidates ih =>
      obtain ⟨hgap, hrule, htail⟩ := h
      obtain ⟨hpairwise, hrest⟩ := ih htail
      have hvalid := hrule.validRewrite Nat.one_ne_zero
      have hfirst : first.rule.first = first.source.first := hvalid.ruleFirst
      have hbounds : first.rule.first ≤ first.rule.last := hvalid.bounds.1
      have hgap := hgap.le
      refine ⟨List.Pairwise.cons (fun second hmem => (hrest second hmem).2) hpairwise, fun candidate hmem => ?_⟩
      obtain rfl | hmem := List.mem_cons.mp hmem
      · exact ⟨hrule, by omega⟩
      · obtain ⟨hat, hle⟩ := hrest candidate hmem
        exact ⟨hat, by omega⟩

theorem numberRewrites_ids (id : Nat) (candidates : List ArrowCandidate) :
    (numberRewrites id candidates).map ArrowRewrite.id = List.range' id candidates.length := by
  induction candidates generalizing id with
  | nil => rfl
  | cons candidate candidates ih => rw [numberRewrites, List.map_cons, ih, List.length_cons, List.range'_succ]

theorem length_numberRewrites (id : Nat) (candidates : List ArrowCandidate) :
    (numberRewrites id candidates).length = candidates.length := by
  rw [← List.length_map, numberRewrites_ids, List.length_range']

end Rewrites

/-! ## The emission of rewrites in order -/

section Emission
variable {source : SourceBuffer} {limits : RulesLimits} {rewrites : List ArrowRewrite}

theorem length_gapSegment_le (start cursor last : Nat) : (gapSegment start cursor last).length ≤ 1 := by
  unfold gapSegment
  split <;> simp

theorem length_planSegments_le (size start cursor : Nat) (rewrites : List ArrowRewrite) :
    (planSegments size start cursor rewrites).length ≤ 6 * rewrites.length + 1 := by
  induction rewrites generalizing start cursor with
  | nil => exact length_gapSegment_le _ _ _
  | cons rewrite rewrites ih =>
      have hgap := length_gapSegment_le start cursor rewrite.rule.first
      have hrest := ih (tableEnd (start + (rewrite.rule.first - cursor)) rewrite) rewrite.rule.last
      have htable : (tableSegments (start + (rewrite.rule.first - cursor)) rewrite).length = 5 := rfl
      rw [planSegments, List.length_append, List.length_append, List.length_cons]
      omega

/-- What is left of the source can be copied while there is room for its segment. -/
theorem appendCopied_tail {emission : Emission} {cursor : Nat} (hcursor : cursor ≤ source.bytes.length)
    (hroom : (emission.segments ++ gapSegment emission.output.length cursor source.bytes.length).length ≤
      limits.maxRewriteSegments) :
    ∃ after, appendCopied source limits emission ⟨cursor, source.size⟩ = some after := by
  unfold appendCopied appendSegment
  split
  · exact ⟨_, rfl⟩
  · next hne =>
    have hlt : cursor < source.bytes.length := by
      by_contra hge
      refine hne ?_
      rw [sliceSpan, List.drop_of_length_le (by dsimp only; omega), List.take_nil]
      rfl
    rw [gapSegment, if_pos hlt, List.length_append, List.length_singleton] at hroom
    rw [if_neg (by omega)]
    exact ⟨_, rfl⟩

theorem create_planSegments (horder : InOrder source.bytes.length 0 rewrites) (hne : rewrites ≠ []) :
    RewriteMap.create (planSegments source.bytes.length 0 0 rewrites) (expand source.bytes 0 rewrites).length
      source.size = some ⟨planSegments source.bytes.length 0 0 rewrites, (expand source.bytes 0 rewrites).length,
        source.size⟩ := by
  have hchained := chained_plan 0 horder (Nat.zero_le _)
  rw [Nat.zero_add] at hchained
  have hsegments : ∀ segment ∈ planSegments source.bytes.length 0 0 rewrites,
      segment.original.first ≤ segment.original.last ∧ segment.original.last ≤ source.size ∧
        (segment.kind = .kCopied → segment.generated.size = segment.original.size) := by
    intro segment hmem
    have hfaithful := faithful_plan horder (Nat.zero_le _) (List.drop_zero) hmem
    exact ⟨hfaithful.le, hfaithful.last_le, hfaithful.size⟩
  have hcheck := checkSegments_of_chained hchained (Nat.le_refl _) hsegments
  have hsome : (planSegments source.bytes.length 0 0 rewrites).isEmpty = false := by
    obtain ⟨rewrite, rest, rfl⟩ := List.exists_cons_of_ne_nil hne
    simp [planSegments, tableSegments]
  rw [RewriteMap.create, hsome, if_neg (by decide), if_pos hcheck]

theorem finishEmission_quiet {size cursor : Nat} {emission : Emission} (hne : rewrites ≠ [])
    (horder : InOrder source.bytes.length 0 rewrites) (hsize : size = (expand source.bytes 0 rewrites).length)
    (hemit : emitRewrites source limits rewrites 0 {} = .ok (cursor, emission))
    (hroom : 6 * rewrites.length + 1 ≤ limits.maxRewriteSegments) :
    (finishEmission source limits size cursor emission).diagnostics = [] := by
  obtain ⟨hcursor, houtput, hsegments, -⟩ := emitRewrites_ok hemit horder (Nat.zero_le _)
  have hfew := length_planSegments_le source.bytes.length 0 0 rewrites
  have hplan : emission.segments ++ gapSegment emission.output.length cursor source.bytes.length =
      planSegments source.bytes.length 0 0 rewrites := hsegments
  obtain ⟨after, hafter⟩ := appendCopied_tail hcursor (hplan ▸ hfew.trans hroom)
  have hcopied := appendCopied_some hafter hcursor (Nat.le_refl _)
  have htext : after.output = expand source.bytes 0 rewrites := by
    rw [hcopied.output, SourceBuffer.size, sliceSpan, ByteSpan.size, ← List.length_drop, List.take_length, houtput]
    rfl
  have hmap : RewriteMap.create after.segments after.output.length source.size ≠ none := by
    have hcreate := create_planSegments horder hne
    rw [hcopied.segments, htext, SourceBuffer.size, hplan]
    rw [SourceBuffer.size] at hcreate
    rw [hcreate]
    exact Option.some_ne_none _
  unfold finishEmission
  rw [hafter]
  dsimp only
  rw [if_neg (by rw [htext, hsize]; exact not_not_intro rfl)]
  split
  · next hnone => exact absurd hnone hmap
  · rfl

/-- **Rewrites in order are only refused for their number or their size.** -/
theorem emitDesugaredSource_codes (horder : InOrder source.bytes.length 0 rewrites)
    (hids : (rewrites.map ArrowRewrite.id).Nodup) (hroom : 6 * rewrites.length + 1 ≤ limits.maxRewriteSegments) :
    ∀ diagnostic ∈ (emitDesugaredSource source rewrites limits).diagnostics, diagnostic.code = kResourceLimit := by
  have hfailure : ∀ messageKey span, ∀ diagnostic ∈ (desugarFailure source kResourceLimit messageKey span).diagnostics,
      diagnostic.code = kResourceLimit := by
    intro messageKey span diagnostic hmem
    rw [List.mem_singleton.mp hmem]
  unfold emitDesugaredSource
  split
  · intro diagnostic hmem
    cases hmem
  · next first rest =>
    split
    · exact hfailure _ _
    · split
      · next failure hsize =>
        obtain ⟨code, messageKey, span, rfl, hcode⟩ := generatedSize_error hsize
        rw [hcode horder (by simpa using hids)]
        exact hfailure _ _
      · next size hsize =>
        obtain ⟨-, htotal⟩ := generatedSize_ok hsize (Nat.zero_le _) (Nat.sub_le _ _)
        split
        · next failure hemit =>
          obtain ⟨messageKey, span, rfl⟩ := emitRewrites_error hemit
          exact hfailure _ _
        · next cursor emission hemit =>
          have hexact : size = (expand source.bytes 0 (first :: rest)).length := by
            simp only [SourceBuffer.size] at htotal
            omega
          rw [finishEmission_quiet (List.cons_ne_nil _ _) horder hexact hemit hroom]
          intro diagnostic hmem
          cases hmem

end Emission

/-! ## The candidates of a source -/

section Source
variable {source : SourceBuffer} {limits : RulesLimits}

theorem probeRulesFormat_codes {diagnostic : Diagnostic} (h : probeRulesFormat source = .error diagnostic) :
    diagnostic.code ≠ kDesugarInternal := by
  rcases (probeRulesFormat_error h).2 with ⟨hmissing, -⟩ | hinvalid | ⟨hunsupported, -⟩
  · rw [hmissing]
    decide
  · rw [hinvalid]
    decide
  · rw [hunsupported]
    decide

/-- The candidates of a scan make up the source, or there are none. -/
theorem scan_tiled (source : SourceBuffer) (limits : RulesLimits) :
    ∃ cursor, Tiled source.bytes 0 (scanArrowCandidates source limits).candidates cursor := by
  obtain ⟨-, -, hnone, htiled⟩ := scan_spec source limits
  by_cases hquiet : (scanArrowCandidates source limits).diagnostics = []
  · obtain ⟨cursor, htiled, -⟩ := htiled hquiet
    exact ⟨cursor, htiled⟩
  · rw [hnone hquiet]
    exact ⟨0, rfl⟩

theorem scan_inOrder (source : SourceBuffer) (limits : RulesLimits) :
    InOrder source.bytes.length 0 (numberRewrites 1 (scanArrowCandidates source limits).candidates) := by
  obtain ⟨cursor, htiled⟩ := scan_tiled source limits
  exact htiled.inOrder Nat.one_ne_zero

/-- **The desugarer is consistent with the scanner.** The candidates follow one another inside the source, each a string
on one line, an arrow and a string on one line; and what is emitted for them is never found inconsistent. -/
theorem desugarRulesSource_consistent (source : SourceBuffer) (limits : RulesLimits)
    (hsegments : 6 * limits.maxRewrites + 1 ≤ limits.maxRewriteSegments) :
    let candidates := (scanArrowCandidates source limits).candidates
    (∀ diagnostic ∈ (desugarRulesSource source limits).diagnostics, diagnostic.code ≠ kDesugarInternal) ∧
      candidates.Pairwise (fun first second => first.rule.last ≤ second.rule.first) ∧
      (∀ candidate ∈ candidates, RuleAt source.bytes candidate ∧ source.isValidSpan candidate.rule = true) ∧
      ∀ diagnostic ∈ (emitDesugaredSource source (numberRewrites 1 candidates) limits).diagnostics,
        diagnostic.code = kResourceLimit := by
  obtain ⟨hcodes, hfew, -, -⟩ := scan_spec source limits
  obtain ⟨cursor, htiled⟩ := scan_tiled source limits
  obtain ⟨hpairwise, hrules⟩ := htiled.pairwise
  have hemit : ∀ diagnostic ∈ (emitDesugaredSource source
      (numberRewrites 1 (scanArrowCandidates source limits).candidates) limits).diagnostics,
      diagnostic.code = kResourceLimit := by
    refine emitDesugaredSource_codes (scan_inOrder source limits) ?_ ?_
    · rw [numberRewrites_ids]
      exact List.nodup_range'
    · rw [length_numberRewrites]
      omega
  refine ⟨fun diagnostic hmem => ?_, hpairwise, fun candidate hmem => ?_, hemit⟩
  · cases hprobe : probeRulesFormat source with
    | error failure =>
        unfold desugarRulesSource analyzeRulesSource at hmem
        rw [hprobe] at hmem
        rw [List.mem_singleton.mp hmem]
        exact probeRulesFormat_codes hprobe
    | ok version =>
        by_cases hquiet : (scanArrowCandidates source limits).diagnostics = []
        · rw [desugarRulesSource_emitted hprobe limits hquiet] at hmem
          rw [hemit diagnostic hmem]
          decide
        · rw [desugarRulesSource_reported hprobe limits hquiet] at hmem
          exact hcodes diagnostic hmem
  · have hrule := (hrules candidate hmem).1
    have hvalid := hrule.validRewrite Nat.one_ne_zero
    refine ⟨hrule, ?_⟩
    rw [SourceBuffer.isValidSpan, Bool.and_eq_true, decide_eq_true_eq, decide_eq_true_eq]
    exact ⟨hvalid.bounds.1, hvalid.bounds.2.2.2⟩

end Source

/-- A document with one rule. -/
def oneRuleDocument : SourceBuffer :=
  ⟨[], ascii "format = 1\n[apps.\"a.b\"]\nredirect = [\"A\" -> \"B\"]\n", by decide +kernel⟩

theorem desugarRulesSource_consistent_oneRule :
    (∀ diagnostic ∈ (desugarRulesSource oneRuleDocument {}).diagnostics, diagnostic.code ≠ kDesugarInternal) ∧
      (scanArrowCandidates oneRuleDocument {}).candidates.map ArrowCandidate.rule = [⟨36, 46⟩] :=
  ⟨(desugarRulesSource_consistent oneRuleDocument {} (by decide)).1, by decide +kernel⟩

end PathGuard.Rules

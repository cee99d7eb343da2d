import PathGuard.Rules.Compiler

/-!
# What the desugarer writes

The generated text, the segments of the map and the spans of the redirects come out of one loop. Each is said here on
its own, with what the loop keeps between them: the segments follow one another through the text, a copied one holds
the bytes of its original, and the five of a table are those of its rule.

* `expand`, `planSegments`, `planRedirects` : the text, the segments and the spans, each on its own;
* `emitRewrite_some`, `emitRewrites_ok` : one rewrite, and the loop;
* `desugared_of_ok` : what the desugarer makes of rewrites it accepts.
-/

namespace PathGuard.Rules

variable {source : SourceBuffer} {limits : RulesLimits}

/-! ## The generated text -/

/-- The inline table of a rewrite. -/
def tableOf (bytes : Bytes) (rewrite : ArrowRewrite) : Bytes :=
  kPrefix ++ sliceSpan bytes rewrite.source ++ kMiddle ++ sliceSpan bytes rewrite.target ++ kSuffix

/-- The source from the cursor on, every rule replaced by its table. -/
def expand (bytes : Bytes) : Nat → List ArrowRewrite → Bytes
  | cursor, [] => bytes.drop cursor
  | cursor, rewrite :: rewrites =>
      sliceSpan bytes ⟨cursor, rewrite.rule.first⟩ ++ tableOf bytes rewrite ++
        expand bytes rewrite.rule.last rewrites

/-- A rewrite that is consistent and inside a source of that size. -/
structure ValidRewrite (size : Nat) (rewrite : ArrowRewrite) : Prop where
  id : rewrite.id ≠ 0
  ruleFirst : rewrite.rule.first = rewrite.source.first
  ruleLast : rewrite.rule.last = rewrite.target.last
  source : rewrite.source.first < rewrite.source.last
  before : rewrite.source.last ≤ rewrite.arrow.first
  arrow : rewrite.arrow.first < rewrite.arrow.last
  after : rewrite.arrow.last ≤ rewrite.target.first
  target : rewrite.target.first < rewrite.target.last
  last_le : rewrite.target.last ≤ size

theorem ValidRewrite.bounds {size : Nat} {rewrite : ArrowRewrite} (h : ValidRewrite size rewrite) :
    rewrite.rule.first ≤ rewrite.rule.last ∧ rewrite.source.last ≤ size ∧ rewrite.arrow.last ≤ size ∧
      rewrite.rule.last ≤ size := by
  have := h.ruleFirst
  have := h.ruleLast
  have := h.source
  have := h.before
  have := h.arrow
  have := h.after
  have := h.target
  have := h.last_le
  omega

theorem isValidRewrite_iff {rewrite : ArrowRewrite} :
    isValidRewrite source rewrite = true ↔ ValidRewrite source.bytes.length rewrite := by
  simp only [isValidRewrite, SourceBuffer.isValidSpan, Bool.and_eq_true, decide_eq_true_eq, beq_iff_eq, bne_iff_ne,
    and_assoc]
  constructor
  · rintro ⟨hid, -, -, -, -, -, -, -, hlast, hfirst, hend, hsource, harrow, htarget, hbefore, hafter⟩
    exact ⟨hid, hfirst, hend, hsource, hbefore, harrow, hafter, htarget, hlast⟩
  · intro h
    have := h.ruleFirst
    have := h.ruleLast
    have := h.source
    have := h.before
    have := h.arrow
    have := h.after
    have := h.target
    have := h.last_le
    refine ⟨h.id, ?_⟩
    omega

/-- The rewrites are valid and follow one another from the offset on. -/
def InOrder (size : Nat) : Nat → List ArrowRewrite → Prop
  | _, [] => True
  | previousEnd, rewrite :: rewrites =>
      ValidRewrite size rewrite ∧ previousEnd ≤ rewrite.rule.first ∧ InOrder size rewrite.rule.last rewrites

theorem length_sliceSpan {bytes : Bytes} {span : ByteSpan} (h : span.last ≤ bytes.length) :
    (sliceSpan bytes span).length = span.size := by
  rw [sliceSpan, List.length_take, List.length_drop]
  simp only [ByteSpan.size]
  omega

theorem length_tableOf {bytes : Bytes} {rewrite : ArrowRewrite} (h : ValidRewrite bytes.length rewrite) :
    (tableOf bytes rewrite).length = replacementSize rewrite := by
  simp only [tableOf, replacementSize, List.length_append, length_sliceSpan h.bounds.2.1, length_sliceSpan h.last_le]

theorem generatedSize_ok {rewrites : List ArrowRewrite} {ids : List RuleId} {previousEnd size total : Nat}
    (h : generatedSize source limits rewrites ids previousEnd size = .ok total)
    (hend : previousEnd ≤ source.bytes.length) (hsize : source.bytes.length - previousEnd ≤ size) :
    InOrder source.bytes.length previousEnd rewrites ∧
      total + (source.bytes.length - previousEnd) = size + (expand source.bytes previousEnd rewrites).length := by
  induction rewrites generalizing ids previousEnd size with
  | nil =>
      obtain rfl : size = total := by simpa [generatedSize] using h
      refine ⟨trivial, ?_⟩
      rw [expand, List.length_drop]
  | cons rewrite rewrites ih =>
      rw [generatedSize] at h
      split at h
      · cases h
      · next hvalid =>
        simp only [Bool.or_eq_true, Bool.not_eq_true', not_or, Bool.not_eq_false, decide_eq_true_eq, not_lt] at hvalid
        have hrewrite := isValidRewrite_iff.mp hvalid.1.1
        have hlast : rewrite.rule.last ≤ source.bytes.length := hrewrite.ruleLast ▸ hrewrite.last_le
        have hfirst : rewrite.rule.first ≤ rewrite.rule.last := hrewrite.bounds.1
        dsimp only at h
        split at h
        · cases h
        · obtain ⟨horder, htotal⟩ := ih h hlast (by simp only [ByteSpan.size]; omega)
          refine ⟨⟨hrewrite, hvalid.1.2, horder⟩, ?_⟩
          have hgap : (sliceSpan source.bytes ⟨previousEnd, rewrite.rule.first⟩).length =
              rewrite.rule.first - previousEnd := length_sliceSpan (hfirst.trans hlast)
          simp only [ByteSpan.size] at htotal
          rw [expand, List.length_append, List.length_append, hgap, length_tableOf hrewrite]
          have := hvalid.1.2
          omega

theorem generatedSize_lt {rewrites : List ArrowRewrite} {ids : List RuleId} {previousEnd size total : Nat}
    (h : generatedSize source limits rewrites ids previousEnd size = .ok total) (hsize : size < 2 ^ 32) :
    total < 2 ^ 32 := by
  induction rewrites generalizing ids previousEnd size with
  | nil =>
      obtain rfl : size = total := by simpa [generatedSize] using h
      exact hsize
  | cons rewrite rewrites ih =>
      rw [generatedSize] at h
      split at h
      · cases h
      · dsimp only at h
        split at h
        · cases h
        · next hroom =>
          rw [Bool.or_eq_true, not_or, decide_eq_true_eq, decide_eq_true_eq, not_le] at hroom
          exact ih h hroom.2

/-- The first loop finds rewrites inconsistent only when they are not valid, not in order or not told apart. -/
theorem generatedSize_error {rewrites : List ArrowRewrite} {ids : List RuleId} {previousEnd size : Nat}
    {failure : DesugarResult} (h : generatedSize source limits rewrites ids previousEnd size = .error failure) :
    ∃ code messageKey span, failure = desugarFailure source code messageKey span ∧
      (InOrder source.bytes.length previousEnd rewrites → (ids ++ rewrites.map ArrowRewrite.id).Nodup →
        code = kResourceLimit) := by
  induction rewrites generalizing ids previousEnd size with
  | nil => simp [generatedSize] at h
  | cons rewrite rewrites ih =>
      rw [generatedSize] at h
      split at h
      · next hinvalid =>
        refine ⟨_, _, _, (Except.error.inj h).symm, fun horder hids => ?_⟩
        obtain ⟨hvalid, hfirst, -⟩ := horder
        have hfresh : rewrite.id ∉ ids := by
          intro hmem
          rw [List.nodup_append] at hids
          exact hids.2.2 _ hmem rewrite.id (by simp) rfl
        simp only [isValidRewrite_iff.mpr hvalid, Bool.not_true, Bool.false_or, Bool.or_eq_true, decide_eq_true_eq,
          List.contains_iff_mem] at hinvalid
        obtain hbefore | hmem := hinvalid
        · omega
        · exact absurd hmem hfresh
      · dsimp only at h
        split at h
        · exact ⟨_, _, _, (Except.error.inj h).symm, fun _ _ => rfl⟩
        · obtain ⟨code, messageKey, span, hfailure, hcode⟩ := ih h
          refine ⟨code, messageKey, span, hfailure, fun horder hids => hcode horder.2.2 ?_⟩
          simpa using hids

/-! ## The segments and the redirects -/

/-- What is copied up to a rule, or to the end. -/
def gapSegment (start cursor last : Nat) : List RewriteSegment :=
  if cursor < last then [⟨⟨start, start + (last - cursor)⟩, ⟨cursor, last⟩, .kCopied⟩] else []

/-- Where the operands of a table stand, and where it ends. -/
def sourceStart (start : Nat) : Nat := start + kPrefix.length
def middleStart (start : Nat) (rewrite : ArrowRewrite) : Nat := sourceStart start + rewrite.source.size
def targetStart (start : Nat) (rewrite : ArrowRewrite) : Nat := middleStart start rewrite + kMiddle.length
def suffixStart (start : Nat) (rewrite : ArrowRewrite) : Nat := targetStart start rewrite + rewrite.target.size
def tableEnd (start : Nat) (rewrite : ArrowRewrite) : Nat := suffixStart start rewrite + kSuffix.length

theorem tableEnd_eq (start : Nat) (rewrite : ArrowRewrite) : tableEnd start rewrite = start + replacementSize rewrite := by
  simp only [tableEnd, suffixStart, targetStart, middleStart, sourceStart, replacementSize]
  omega

def tableSegments (start : Nat) (rewrite : ArrowRewrite) : List RewriteSegment :=
  [⟨⟨start, sourceStart start⟩, rewrite.rule, .kSyntheticRule⟩,
    ⟨⟨sourceStart start, middleStart start rewrite⟩, rewrite.source, .kCopied⟩,
    ⟨⟨middleStart start rewrite, targetStart start rewrite⟩, rewrite.arrow, .kSyntheticArrow⟩,
    ⟨⟨targetStart start rewrite, suffixStart start rewrite⟩, rewrite.target, .kCopied⟩,
    ⟨⟨suffixStart start rewrite, tableEnd start rewrite⟩, rewrite.rule, .kSyntheticRule⟩]

def tableRedirect (start : Nat) (rewrite : ArrowRewrite) : GeneratedRedirect where
  id := rewrite.id
  originalRule := rewrite.rule
  originalSource := rewrite.source
  originalArrow := rewrite.arrow
  originalTarget := rewrite.target
  generatedTable := ⟨start, tableEnd start rewrite⟩
  generatedSource := ⟨sourceStart start, middleStart start rewrite⟩
  generatedTarget := ⟨targetStart start rewrite, suffixStart start rewrite⟩

/-- The segments of the text from the cursor on, which starts at `start`. -/
def planSegments (size : Nat) : Nat → Nat → List ArrowRewrite → List RewriteSegment
  | start, cursor, [] => gapSegment start cursor size
  | start, cursor, rewrite :: rewrites =>
      gapSegment start cursor rewrite.rule.first ++
        tableSegments (start + (rewrite.rule.first - cursor)) rewrite ++
        planSegments size (tableEnd (start + (rewrite.rule.first - cursor)) rewrite) rewrite.rule.last rewrites

def planRedirects : Nat → Nat → List ArrowRewrite → List GeneratedRedirect
  | _, _, [] => []
  | start, cursor, rewrite :: rewrites =>
      tableRedirect (start + (rewrite.rule.first - cursor)) rewrite ::
        planRedirects (tableEnd (start + (rewrite.rule.first - cursor)) rewrite) rewrite.rule.last rewrites

/-- The bytes and the segments are added, and no redirect. -/
structure Appends (emission after : Emission) (bytes : Bytes) (segments : List RewriteSegment) : Prop where
  output : after.output = emission.output ++ bytes
  segments : after.segments = emission.segments ++ segments
  redirects : after.redirects = emission.redirects

theorem Appends.length {emission after : Emission} {bytes : Bytes} {segments : List RewriteSegment}
    (h : Appends emission after bytes segments) : after.output.length = emission.output.length + bytes.length := by
  rw [h.output, List.length_append]

section Append
variable {emission after : Emission} {bytes : Bytes} {cursor last : Nat}

theorem appendSegment_some {original : ByteSpan} {kind : RewriteSegmentKind}
    (h : appendSegment limits emission bytes original kind = some after) (hbytes : bytes ≠ []) :
    Appends emission after bytes
      [⟨⟨emission.output.length, emission.output.length + bytes.length⟩, original, kind⟩] := by
  unfold appendSegment at h
  split at h
  · next hempty => exact absurd (List.isEmpty_iff.mp hempty) hbytes
  · split at h
    · cases h
    · obtain rfl := Option.some.inj h
      exact ⟨rfl, rfl, rfl⟩

theorem appendCopied_some (h : appendCopied source limits emission ⟨cursor, last⟩ = some after) (hle : cursor ≤ last)
    (hlast : last ≤ source.bytes.length) :
    Appends emission after (sliceSpan source.bytes ⟨cursor, last⟩) (gapSegment emission.output.length cursor last) := by
  have hlength : (sliceSpan source.bytes ⟨cursor, last⟩).length = last - cursor := length_sliceSpan hlast
  unfold appendCopied at h
  unfold gapSegment
  split
  · next hlt =>
    have hne : sliceSpan source.bytes ⟨cursor, last⟩ ≠ [] := by
      intro hnil
      rw [hnil, List.length_nil] at hlength
      omega
    rw [← hlength]
    exact appendSegment_some h hne
  · next hge =>
    have hnil : sliceSpan source.bytes ⟨cursor, last⟩ = [] := List.eq_nil_of_length_eq_zero (by omega)
    rw [appendSegment, hnil, List.isEmpty_nil, if_pos rfl] at h
    obtain rfl := Option.some.inj h
    rw [hnil]
    exact ⟨(List.append_nil _).symm, (List.append_nil _).symm, rfl⟩

theorem appendCopied_operand {span : ByteSpan} (h : appendCopied source limits emission span = some after)
    (hlt : span.first < span.last) (hlast : span.last ≤ source.bytes.length) :
    Appends emission after (sliceSpan source.bytes span)
      [⟨⟨emission.output.length, emission.output.length + span.size⟩, span, .kCopied⟩] := by
  have hcopied := appendCopied_some h (Nat.le_of_lt hlt) hlast
  rw [gapSegment, if_pos hlt] at hcopied
  exact hcopied

end Append

/-- **What a rewrite adds.** -/
theorem emitRewrite_some {cursor start : Nat} {emission after : Emission} {rewrite : ArrowRewrite}
    (h : emitRewrite source limits cursor emission rewrite = some after)
    (hvalid : ValidRewrite source.bytes.length rewrite) (hcursor : cursor ≤ rewrite.rule.first)
    (hstart : emission.output.length + (rewrite.rule.first - cursor) = start) :
    after.output = emission.output ++ sliceSpan source.bytes ⟨cursor, rewrite.rule.first⟩ ++
        tableOf source.bytes rewrite ∧
      after.segments = emission.segments ++ gapSegment emission.output.length cursor rewrite.rule.first ++
        tableSegments start rewrite ∧
      after.redirects = emission.redirects ++ [tableRedirect start rewrite] := by
  have hbounds := hvalid.bounds
  simp only [emitRewrite, Option.bind_eq_bind, Option.bind_eq_some_iff] at h
  obtain ⟨gap, hgap, first, hfirst, second, hsecond, third, hthird, fourth, hfourth, fifth, hfifth, hafter⟩ := h
  have hrule : rewrite.rule.first ≤ source.bytes.length := by omega
  have hgap := appendCopied_some hgap hcursor hrule
  have hfirst := appendSegment_some hfirst (by decide)
  have hsecond := appendCopied_operand hsecond hvalid.source hbounds.2.1
  have hthird := appendSegment_some hthird (by decide)
  have hfourth := appendCopied_operand hfourth hvalid.target hvalid.last_le
  have hfifth := appendSegment_some hfifth (by decide)
  -- where the parts of the table start
  have hstart : gap.output.length = start := by
    rw [hgap.length, length_sliceSpan hrule]
    exact hstart
  have hsourceStart : first.output.length = sourceStart start := by rw [hfirst.length, hstart, sourceStart]
  have hmiddleStart : second.output.length = middleStart start rewrite := by
    rw [hsecond.length, hsourceStart, length_sliceSpan hbounds.2.1, middleStart]
  have htargetStart : third.output.length = targetStart start rewrite := by
    rw [hthird.length, hmiddleStart, targetStart]
  have hsuffixStart : fourth.output.length = suffixStart start rewrite := by
    rw [hfourth.length, htargetStart, length_sliceSpan hvalid.last_le, suffixStart]
  have htableEnd : fifth.output.length = tableEnd start rewrite := by rw [hfifth.length, hsuffixStart, tableEnd]
  obtain rfl := Option.some.inj hafter
  refine ⟨?_, ?_, ?_⟩
  · simp only [hfifth.output, hfourth.output, hthird.output, hsecond.output, hfirst.output, hgap.output, tableOf,
      List.append_assoc]
  · simp only [hfifth.segments, hfourth.segments, hthird.segments, hsecond.segments, hfirst.segments, hgap.segments,
      hstart, hsourceStart, hmiddleStart, htargetStart, hsuffixStart, tableSegments, sourceStart, middleStart,
      targetStart, suffixStart, tableEnd, List.append_assoc, List.cons_append, List.nil_append]
  · simp only [hfifth.redirects, hfourth.redirects, hthird.redirects, hsecond.redirects, hfirst.redirects,
      hgap.redirects, hstart, hsourceStart, hmiddleStart, htargetStart, hsuffixStart, htableEnd, tableRedirect]

/-- **What the second loop writes**, with what is still to be copied. -/
theorem emitRewrites_ok {rewrites : List ArrowRewrite} {cursor last : Nat} {emission after : Emission}
    (h : emitRewrites source limits rewrites cursor emission = .ok (last, after))
    (horder : InOrder source.bytes.length cursor rewrites) (hcursor : cursor ≤ source.bytes.length) :
    last ≤ source.bytes.length ∧
      after.output ++ source.bytes.drop last = emission.output ++ expand source.bytes cursor rewrites ∧
      after.segments ++ gapSegment after.output.length last source.bytes.length =
        emission.segments ++ planSegments source.bytes.length emission.output.length cursor rewrites ∧
      after.redirects = emission.redirects ++ planRedirects emission.output.length cursor rewrites := by
  induction rewrites generalizing cursor emission with
  | nil =>
      obtain ⟨rfl, rfl⟩ : cursor = last ∧ emission = after := by simpa [emitRewrites] using h
      exact ⟨hcursor, rfl, rfl, (List.append_nil _).symm⟩
  | cons rewrite rewrites ih =>
      obtain ⟨hvalid, hfirst, horder⟩ := horder
      rw [emitRewrites] at h
      split at h
      · cases h
      · next next hemit =>
        obtain ⟨houtput, hsegments, hredirects⟩ := emitRewrite_some hemit hvalid hfirst rfl
        obtain ⟨hlast, hout, hseg, hred⟩ := ih h horder hvalid.bounds.2.2.2
        have hlength : next.output.length =
            tableEnd (emission.output.length + (rewrite.rule.first - cursor)) rewrite := by
          have hrule : rewrite.rule.first ≤ source.bytes.length := hvalid.bounds.1.trans hvalid.bounds.2.2.2
          rw [houtput, List.length_append, List.length_append, length_sliceSpan hrule, length_tableOf hvalid, tableEnd_eq]
          rfl
        rw [hlength] at hseg hred
        refine ⟨hlast, ?_, ?_, ?_⟩
        · rw [hout, houtput, expand]
          simp only [List.append_assoc]
        · rw [hseg, hsegments, planSegments]
          simp only [List.append_assoc]
        · rw [hred, hredirects, planRedirects, List.append_assoc]
          rfl

/-! ## The result -/

theorem not_ok_desugarFailure (code messageKey : String) (span : ByteSpan) :
    (desugarFailure source code messageKey span).ok ≠ true := by
  simp [desugarFailure, DesugarResult.ok]

theorem create_some {segments : List RewriteSegment} {generatedSize originalSize : Nat} {map : RewriteMap}
    (h : RewriteMap.create segments generatedSize originalSize = some map) :
    map = ⟨segments, generatedSize, originalSize⟩ := by
  unfold RewriteMap.create at h
  split at h
  · cases h
  · split at h
    · exact (Option.some.inj h).symm
    · cases h

/-- The result of a desugarer that has something to rewrite. -/
structure Desugared (source : SourceBuffer) (limits : RulesLimits) (rewrites : List ArrowRewrite)
    (result : DesugarResult) : Prop where
  order : InOrder source.bytes.length 0 rewrites
  text : result.generatedStorage = some (expand source.bytes 0 rewrites)
  map : result.rewriteMap = ⟨planSegments source.bytes.length 0 0 rewrites,
    (expand source.bytes 0 rewrites).length, source.bytes.length⟩
  redirects : result.redirects = planRedirects 0 0 rewrites
  length : (expand source.bytes 0 rewrites).length < 2 ^ 32

theorem finishEmission_ok {size cursor : Nat} {emission : Emission} {rewrites : List ArrowRewrite}
    (horder : InOrder source.bytes.length 0 rewrites) (hsize : size = (expand source.bytes 0 rewrites).length)
    (hlength : size < 2 ^ 32) (hemit : emitRewrites source limits rewrites 0 {} = .ok (cursor, emission))
    (h : (finishEmission source limits size cursor emission).ok = true) :
    Desugared source limits rewrites (finishEmission source limits size cursor emission) := by
  obtain ⟨hcursor, houtput, hsegments, hredirects⟩ := emitRewrites_ok hemit horder (Nat.zero_le _)
  unfold finishEmission at h ⊢
  split
  · next htail =>
    rw [htail] at h
    exact absurd h (not_ok_desugarFailure _ _ _)
  · next after htail =>
    rw [htail] at h
    dsimp only at h
    split at h
    · exact absurd h (not_ok_desugarFailure _ _ _)
    · next hexact =>
      rw [if_neg hexact]
      have hcopied := appendCopied_some htail hcursor (Nat.le_refl _)
      have htext : after.output = expand source.bytes 0 rewrites := by
        rw [hcopied.output, SourceBuffer.size, sliceSpan, ByteSpan.size, ← List.length_drop, List.take_length, houtput]
        rfl
      have hplan : after.segments = planSegments source.bytes.length 0 0 rewrites := by
        rw [hcopied.segments]
        exact hsegments
      split at h
      · exact absurd h (not_ok_desugarFailure _ _ _)
      · next map hmap =>
        refine ⟨horder, congrArg some htext, ?_, hcopied.redirects.trans hredirects, hsize ▸ hlength⟩
        rw [create_some hmap, htext, hplan]
        rfl

theorem emitRewrites_error {rewrites : List ArrowRewrite} {cursor : Nat} {emission : Emission} {failure : DesugarResult}
    (h : emitRewrites source limits rewrites cursor emission = .error failure) :
    ∃ messageKey span, failure = desugarFailure source kResourceLimit messageKey span := by
  induction rewrites generalizing cursor emission with
  | nil => simp [emitRewrites] at h
  | cons rewrite rewrites ih =>
      rw [emitRewrites] at h
      split at h
      · exact ⟨_, _, (Except.error.inj h).symm⟩
      · exact ih h

/-- **What the desugarer makes of rewrites it accepts.** -/
theorem desugared_of_ok {rewrites : List ArrowRewrite} (hne : rewrites ≠ [])
    (h : (emitDesugaredSource source rewrites limits).ok = true) :
    Desugared source limits rewrites (emitDesugaredSource source rewrites limits) := by
  unfold emitDesugaredSource at h ⊢
  split
  · exact absurd rfl hne
  · next first rest =>
    dsimp only at h
    split at h
    · exact absurd h (not_ok_desugarFailure _ _ _)
    · next hfew =>
      rw [if_neg hfew]
      split
      · next failure hfailure =>
        rw [hfailure] at h
        obtain ⟨code, messageKey, span, rfl, -⟩ := generatedSize_error hfailure
        exact absurd h (not_ok_desugarFailure _ _ _)
      · next size hsize =>
        rw [hsize] at h
        obtain ⟨horder, htotal⟩ := generatedSize_ok hsize (Nat.zero_le _) (Nat.sub_le _ _)
        have hlength := generatedSize_lt hsize source.size_lt
        split
        · next failure hfailure =>
          dsimp only at h
          rw [hfailure] at h
          obtain ⟨messageKey, span, rfl⟩ := emitRewrites_error hfailure
          exact absurd h (not_ok_desugarFailure _ _ _)
        · next cursor emission hemit =>
          dsimp only at h
          rw [hemit] at h
          refine finishEmission_ok horder ?_ hlength hemit h
          simp only [SourceBuffer.size] at htotal
          omega

end PathGuard.Rules

import PathGuard.Rules.DesugarerSpec

/-!
# The way back to the source

The segments of a map follow one another through the generated text, so an offset is in one of them and a span meets
neighbours only. A copied segment holds the bytes of its original; a table is five segments that join to its rule.

* `Chained` : segments that follow one another; `Faithful` : what a segment says of the source;
* `mapGeneratedSpan_inside`, `mapGeneratedSpan_table` : spans of whole segments, and of tables;
* `emitDesugaredSource_mapsBack` : every offset, span and redirect goes back where it came from.
-/

namespace PathGuard.Rules

/-! ## Segments that follow one another -/

/-- The segments follow one another from the first offset to the last, none of them empty. -/
def Chained : Nat → List RewriteSegment → Nat → Prop
  | first, [], last => first = last
  | first, segment :: segments, last =>
      segment.generated.first = first ∧ first < segment.generated.last ∧ Chained segment.generated.last segments last

section Chained
variable {first middle last : Nat} {before after segments : List RewriteSegment} {segment : RewriteSegment}

theorem Chained.append (h₁ : Chained first before middle) (h₂ : Chained middle after last) :
    Chained first (before ++ after) last := by
  induction before generalizing first with
  | nil =>
      obtain rfl : first = middle := h₁
      exact h₂
  | cons segment before ih => exact ⟨h₁.1, h₁.2.1, ih h₁.2.2⟩

theorem Chained.split (h : Chained first (before ++ after) last) :
    ∃ middle, Chained first before middle ∧ Chained middle after last := by
  induction before generalizing first with
  | nil => exact ⟨first, rfl, h⟩
  | cons segment before ih =>
      obtain ⟨middle, hbefore, hafter⟩ := ih h.2.2
      exact ⟨middle, ⟨h.1, h.2.1, hbefore⟩, hafter⟩

theorem Chained.le (h : Chained first segments last) : first ≤ last := by
  induction segments generalizing first with
  | nil => exact Nat.le_of_eq h
  | cons segment segments ih => exact (Nat.le_of_lt h.2.1).trans (ih h.2.2)

theorem Chained.bounds (h : Chained first segments last) (hmem : segment ∈ segments) :
    first ≤ segment.generated.first ∧ segment.generated.first < segment.generated.last ∧
      segment.generated.last ≤ last := by
  obtain ⟨before, after, rfl⟩ := List.append_of_mem hmem
  obtain ⟨middle, hbefore, hfirst, hlt, hafter⟩ := h.split
  have := hbefore.le
  have := hafter.le
  omega

theorem Chained.exists_mem (h : Chained first segments last) {offset : Nat} (hfirst : first ≤ offset)
    (hlast : offset < last) :
    ∃ segment ∈ segments, segment.generated.first ≤ offset ∧ offset < segment.generated.last := by
  induction segments generalizing first with
  | nil =>
      obtain rfl : first = last := h
      omega
  | cons segment segments ih =>
      by_cases hin : offset < segment.generated.last
      · exact ⟨segment, List.mem_cons_self, by have := h.1; omega, hin⟩
      · obtain ⟨found, hmem, hfound⟩ := ih h.2.2 (Nat.le_of_not_lt hin)
        exact ⟨found, List.mem_cons_of_mem _ hmem, hfound⟩

theorem checkSegments_of_chained {generatedSize originalSize : Nat} (h : Chained first segments last)
    (hlast : last ≤ generatedSize)
    (horiginal : ∀ segment ∈ segments, segment.original.first ≤ segment.original.last ∧
      segment.original.last ≤ originalSize ∧
      (segment.kind = .kCopied → segment.generated.size = segment.original.size)) :
    RewriteMap.checkSegments generatedSize originalSize segments first = some last := by
  induction segments generalizing first with
  | nil =>
      obtain rfl : first = last := h
      rfl
  | cons segment segments ih =>
      obtain ⟨hfirst, hlt, hchained⟩ := h
      obtain ⟨hle, hend, hcopied⟩ := horiginal segment List.mem_cons_self
      have hsegment := hchained.le
      rw [RewriteMap.checkSegments, if_neg]
      · exact ih hchained fun other hmem => horiginal other (List.mem_cons_of_mem _ hmem)
      · simp only [Bool.or_eq_true, decide_eq_true_eq, Bool.and_eq_true, beq_iff_eq, ne_eq, not_or]
        refine ⟨⟨⟨⟨⟨?_, ?_⟩, ?_⟩, ?_⟩, ?_⟩, fun hkind => hkind.2 (hcopied hkind.1)⟩ <;> omega

/-! ## Positions -/

/-- The segment of an offset is the last one that does not begin after it. -/
theorem takeWhile_of_chained (h : Chained first (before ++ segment :: after) last) {offset : Nat}
    (hfirst : segment.generated.first ≤ offset) (hlast : offset < segment.generated.last) :
    ((before ++ segment :: after).takeWhile fun other => other.generated.first ≤ offset).getLast? = some segment := by
  obtain ⟨middle, hbefore, hmiddle, -, hafter⟩ := h.split
  have hall : ∀ other ∈ before, (decide (other.generated.first ≤ offset)) = true := by
    intro other hmem
    have := hbefore.bounds hmem
    rw [decide_eq_true_eq]
    omega
  rw [List.takeWhile_append_of_pos hall, List.takeWhile_cons_of_pos (by rw [decide_eq_true_eq]; exact hfirst)]
  have hstop : after.takeWhile (fun other => decide (other.generated.first ≤ offset)) = [] := by
    cases after with
    | nil => rfl
    | cons next after =>
        rw [List.takeWhile_cons_of_neg]
        rw [decide_eq_true_eq, hafter.1]
        omega
  rw [hstop, List.getLast?_concat]

theorem mapPosition_segment {map : RewriteMap} (h : Chained 0 map.segments map.generatedSize)
    (hmem : segment ∈ map.segments) {offset : Nat} (hfirst : segment.generated.first ≤ offset)
    (hlast : offset < segment.generated.last) :
    map.mapPosition offset = if segment.kind ≠ .kCopied then some segment.original else
      some ⟨segment.original.first + (offset - segment.generated.first),
        segment.original.first + (offset - segment.generated.first)⟩ := by
  have hbounds := h.bounds hmem
  obtain ⟨before, after, hsegments⟩ := List.append_of_mem hmem
  have hfound := takeWhile_of_chained (hsegments ▸ h) hfirst hlast
  rw [← hsegments] at hfound
  have hne : map.segments.isEmpty = false := by
    rw [hsegments]
    simp
  unfold RewriteMap.mapPosition
  rw [if_neg (by omega), hne, if_neg (by decide), if_neg (by omega), hfound]
  dsimp only
  rw [if_neg (by omega)]

theorem mapPosition_copied {map : RewriteMap} (h : Chained 0 map.segments map.generatedSize)
    (hmem : segment ∈ map.segments) (hkind : segment.kind = .kCopied) {offset : Nat}
    (hfirst : segment.generated.first ≤ offset) (hlast : offset < segment.generated.last) :
    map.mapPosition offset = some
      ⟨segment.original.first + (offset - segment.generated.first),
        segment.original.first + (offset - segment.generated.first)⟩ := by
  rw [mapPosition_segment h hmem hfirst hlast, if_neg (by simp [hkind])]

/-! ## Spans -/

theorem spanPart_none {span : ByteSpan}
    (h : segment.generated.last ≤ span.first ∨ span.last ≤ segment.generated.first) :
    RewriteMap.spanPart span segment = none := by
  unfold RewriteMap.spanPart
  exact if_pos (by omega)

theorem filterMap_of_chained {inside : List RewriteSegment} {span : ByteSpan}
    (h : Chained 0 before span.first) (hafter : Chained span.last after last) :
    (before ++ inside ++ after).filterMap (RewriteMap.spanPart span) = inside.filterMap (RewriteMap.spanPart span) := by
  have hbefore : before.filterMap (RewriteMap.spanPart span) = [] := by
    rw [List.filterMap_eq_nil_iff]
    exact fun other hmem => spanPart_none (Or.inl (h.bounds hmem).2.2)
  have hafter : after.filterMap (RewriteMap.spanPart span) = [] := by
    rw [List.filterMap_eq_nil_iff]
    exact fun other hmem => spanPart_none (Or.inr (hafter.bounds hmem).1)
  rw [List.filterMap_append, List.filterMap_append, hbefore, hafter, List.nil_append, List.append_nil]

theorem spanPart_valid {span part : ByteSpan} {size : Nat} (h : RewriteMap.spanPart span segment = some part)
    (hle : segment.original.first ≤ segment.original.last) (hlast : segment.original.last ≤ size)
    (hcopied : segment.kind = .kCopied → segment.generated.size = segment.original.size) :
    part.first ≤ part.last ∧ part.last ≤ size := by
  unfold RewriteMap.spanPart at h
  dsimp only at h
  split at h
  · cases h
  · next hmeet =>
    split at h
    · next hkind =>
      have hsize := hcopied hkind
      simp only [ByteSpan.size] at hsize
      obtain rfl := Option.some.inj h
      dsimp only
      omega
    · obtain rfl := Option.some.inj h
      exact ⟨hle, hlast⟩

theorem joinSpans_valid {size : Nat} {parts : List ByteSpan}
    (hparts : ∀ part ∈ parts, part.first ≤ part.last ∧ part.last ≤ size) {mapped : Option ByteSpan}
    (hmapped : ∀ span, mapped = some span → span.first ≤ span.last ∧ span.last ≤ size)
    (hne : parts ≠ [] ∨ mapped ≠ none) :
    ∃ joined, parts.foldl RewriteMap.joinSpans mapped = some joined ∧ joined.first ≤ joined.last ∧ joined.last ≤ size := by
  induction parts generalizing mapped with
  | nil =>
      cases mapped with
      | none => exact absurd rfl (hne.resolve_left (by simp))
      | some span => exact ⟨span, rfl, hmapped span rfl⟩
  | cons part parts ih =>
      have hpart := hparts part List.mem_cons_self
      refine ih (fun other hmem => hparts other (List.mem_cons_of_mem _ hmem)) ?_ (Or.inr ?_)
      · intro span hspan
        cases mapped with
        | none =>
            obtain rfl := Option.some.inj hspan
            exact hpart
        | some mapped =>
            have := hmapped mapped rfl
            obtain rfl := Option.some.inj hspan
            dsimp only
            omega
      · cases mapped <;> simp [RewriteMap.joinSpans]

end Chained

/-! ## The segments of a desugared text -/

/-- A segment lies over a span of the source, and a copied one holds its bytes. -/
structure Faithful (bytes text : Bytes) (segment : RewriteSegment) : Prop where
  le : segment.original.first ≤ segment.original.last
  last_le : segment.original.last ≤ bytes.length
  size : segment.kind = .kCopied → segment.generated.size = segment.original.size
  bytes : segment.kind = .kCopied → ∀ offset, segment.generated.first ≤ offset → offset < segment.generated.last →
    text[offset]? = bytes[segment.original.first + (offset - segment.generated.first)]?

section Plan
variable {bytes text : Bytes} {start cursor : Nat}

theorem faithful_copied {first last : Nat} {rest : Bytes} (hle : first ≤ last) (hlast : last ≤ bytes.length)
    (htext : text.drop start = sliceSpan bytes ⟨first, last⟩ ++ rest) :
    Faithful bytes text ⟨⟨start, start + (last - first)⟩, ⟨first, last⟩, .kCopied⟩ := by
  refine ⟨hle, hlast, fun _ => by simp [ByteSpan.size], fun _ offset hfirst hend => ?_⟩
  dsimp only at hfirst hend ⊢
  have hdrop : text[offset]? = (text.drop start)[offset - start]? := by
    rw [List.getElem?_drop]
    congr 1
    omega
  have hlength : (sliceSpan bytes ⟨first, last⟩).length = last - first := length_sliceSpan hlast
  rw [hdrop, htext, List.getElem?_append_left (by omega), sliceSpan,
    List.getElem?_take_of_lt (by simp only [ByteSpan.size]; omega),
    List.getElem?_drop]

theorem chained_gap {last : Nat} (h : cursor ≤ last) :
    Chained start (gapSegment start cursor last) (start + (last - cursor)) := by
  unfold gapSegment
  split
  · exact ⟨rfl, by dsimp only; omega, rfl⟩
  · show start = _
    omega

theorem faithful_gap {last : Nat} (rest : Bytes) (hlast : last ≤ bytes.length)
    (htext : text.drop start = sliceSpan bytes ⟨cursor, last⟩ ++ rest) {segment : RewriteSegment}
    (hmem : segment ∈ gapSegment start cursor last) : Faithful bytes text segment := by
  unfold gapSegment at hmem
  split at hmem
  · next hlt =>
    obtain rfl := List.mem_singleton.mp hmem
    exact faithful_copied (Nat.le_of_lt hlt) hlast htext
  · cases hmem

theorem chained_table {rewrite : ArrowRewrite} (h : ValidRewrite bytes.length rewrite) :
    Chained start (tableSegments start rewrite) (tableEnd start rewrite) := by
  have := h.source
  have := h.target
  have hprefix : 0 < kPrefix.length := by decide
  have hmiddle : 0 < kMiddle.length := by decide
  have hsuffix : 0 < kSuffix.length := by decide
  refine ⟨rfl, ?_, rfl, ?_, rfl, ?_, rfl, ?_, rfl, ?_, rfl⟩ <;>
    simp only [sourceStart, middleStart, targetStart, suffixStart, tableEnd, ByteSpan.size] <;> omega

theorem drop_append_length {front rest : Bytes} (htext : text.drop start = front ++ rest) :
    text.drop (start + front.length) = rest := by
  rw [← List.drop_drop, htext, List.drop_left]

theorem faithful_table {rewrite : ArrowRewrite} {rest : Bytes} (h : ValidRewrite bytes.length rewrite)
    (htext : text.drop start = tableOf bytes rewrite ++ rest) {segment : RewriteSegment}
    (hmem : segment ∈ tableSegments start rewrite) : Faithful bytes text segment := by
  have hbounds := h.bounds
  simp only [tableOf, List.append_assoc] at htext
  have hsource := drop_append_length htext
  have hmiddle := drop_append_length hsource
  have htarget := drop_append_length hmiddle
  rw [length_sliceSpan hbounds.2.1] at hmiddle htarget
  simp only [tableSegments, List.mem_cons, List.not_mem_nil, or_false] at hmem
  obtain rfl | rfl | rfl | rfl | rfl := hmem
  · exact ⟨hbounds.1, hbounds.2.2.2, (fun hkind => by cases hkind), (fun hkind => by cases hkind)⟩
  · exact faithful_copied (Nat.le_of_lt h.source) hbounds.2.1 hsource
  · exact ⟨Nat.le_of_lt h.arrow, hbounds.2.2.1, (fun hkind => by cases hkind), (fun hkind => by cases hkind)⟩
  · exact faithful_copied (Nat.le_of_lt h.target) h.last_le htarget
  · exact ⟨hbounds.1, hbounds.2.2.2, (fun hkind => by cases hkind), (fun hkind => by cases hkind)⟩

theorem chained_plan (start : Nat) {rewrites : List ArrowRewrite} (horder : InOrder bytes.length cursor rewrites)
    (hcursor : cursor ≤ bytes.length) :
    Chained start (planSegments bytes.length start cursor rewrites)
      (start + (expand bytes cursor rewrites).length) := by
  induction rewrites generalizing start cursor with
  | nil =>
      rw [planSegments, expand, List.length_drop]
      exact chained_gap hcursor
  | cons rewrite rewrites ih =>
      obtain ⟨hvalid, hfirst, horder⟩ := horder
      have hbounds := hvalid.bounds
      have hgap : (sliceSpan bytes ⟨cursor, rewrite.rule.first⟩).length = rewrite.rule.first - cursor :=
        length_sliceSpan (hbounds.1.trans hbounds.2.2.2)
      have hrest := ih (tableEnd (start + (rewrite.rule.first - cursor)) rewrite) horder hbounds.2.2.2
      have htotal : tableEnd (start + (rewrite.rule.first - cursor)) rewrite +
          (expand bytes rewrite.rule.last rewrites).length =
          start + (expand bytes cursor (rewrite :: rewrites)).length := by
        rw [expand, List.length_append, List.length_append, hgap, length_tableOf hvalid, tableEnd_eq]
        omega
      rw [htotal] at hrest
      exact ((chained_gap hfirst).append (chained_table hvalid)).append hrest

theorem faithful_plan {rewrites : List ArrowRewrite} (horder : InOrder bytes.length cursor rewrites)
    (hcursor : cursor ≤ bytes.length) (htext : text.drop start = expand bytes cursor rewrites)
    {segment : RewriteSegment} (hmem : segment ∈ planSegments bytes.length start cursor rewrites) :
    Faithful bytes text segment := by
  induction rewrites generalizing start cursor with
  | nil =>
      refine faithful_gap [] (Nat.le_refl _) ?_ hmem
      rw [htext, expand, sliceSpan, ByteSpan.size, ← List.length_drop, List.take_length, List.append_nil]
  | cons rewrite rewrites ih =>
      obtain ⟨hvalid, hfirst, horder⟩ := horder
      have hbounds := hvalid.bounds
      have hrule : rewrite.rule.first ≤ bytes.length := hbounds.1.trans hbounds.2.2.2
      rw [expand, List.append_assoc] at htext
      have htable := drop_append_length htext
      rw [length_sliceSpan hrule] at htable
      have hrest := drop_append_length htable
      rw [length_tableOf hvalid, ← tableEnd_eq] at hrest
      rw [planSegments, List.mem_append, List.mem_append] at hmem
      obtain (hmem | hmem) | hmem := hmem
      · exact faithful_gap _ hrule htext hmem
      · exact faithful_table hvalid htable hmem
      · exact ih horder hbounds.2.2.2 hrest hmem

theorem redirect_plan {rewrites : List ArrowRewrite} (horder : InOrder bytes.length cursor rewrites)
    (htext : text.drop start = expand bytes cursor rewrites) {redirect : GeneratedRedirect}
    (hmem : redirect ∈ planRedirects start cursor rewrites) :
    ∃ before after tableStart rewrite rest, ValidRewrite bytes.length rewrite ∧
      redirect = tableRedirect tableStart rewrite ∧ text.drop tableStart = tableOf bytes rewrite ++ rest ∧
      planSegments bytes.length start cursor rewrites = before ++ tableSegments tableStart rewrite ++ after := by
  induction rewrites generalizing start cursor with
  | nil => cases hmem
  | cons rewrite rewrites ih =>
      obtain ⟨hvalid, hfirst, horder⟩ := horder
      have hbounds := hvalid.bounds
      rw [expand, List.append_assoc] at htext
      have htable := drop_append_length htext
      rw [length_sliceSpan (hbounds.1.trans hbounds.2.2.2), ByteSpan.size] at htable
      rw [planRedirects] at hmem
      obtain rfl | hmem := List.mem_cons.mp hmem
      · exact ⟨_, _, _, rewrite, _, hvalid, rfl, htable, rfl⟩
      · have hrest := drop_append_length htable
        rw [length_tableOf hvalid, ← tableEnd_eq] at hrest
        obtain ⟨before, after, tableStart, found, rest, hfound, hredirect, hat, hsegments⟩ := ih horder hrest hmem
        refine ⟨gapSegment start cursor rewrite.rule.first ++
          tableSegments (start + (rewrite.rule.first - cursor)) rewrite ++ before, after, tableStart, found, rest,
          hfound, hredirect, hat, ?_⟩
        rw [planSegments, hsegments]
        simp only [List.append_assoc]

theorem planRedirects_originals (rewrites : List ArrowRewrite) :
    (planRedirects start cursor rewrites).map (fun redirect => (⟨redirect.id, redirect.originalRule,
      redirect.originalSource, redirect.originalArrow, redirect.originalTarget⟩ : ArrowRewrite)) = rewrites := by
  induction rewrites generalizing start cursor with
  | nil => rfl
  | cons rewrite rewrites ih => rw [planRedirects, List.map_cons, ih]; rfl

end Plan

/-! ## The spans of a redirect -/

section Redirect
variable {before inside after : List RewriteSegment} {span : ByteSpan} {generatedSize originalSize start : Nat}
  {rewrite : ArrowRewrite}

theorem spanPart_whole {segment : RewriteSegment} (hlt : segment.generated.first < segment.generated.last)
    (hfirst : span.first ≤ segment.generated.first) (hlast : segment.generated.last ≤ span.last)
    (hwhole : segment.kind = .kCopied →
      segment.generated.size = segment.original.size ∧ segment.original.first ≤ segment.original.last) :
    RewriteMap.spanPart span segment = some segment.original := by
  unfold RewriteMap.spanPart
  obtain ⟨generated, ⟨first, last⟩, kind⟩ := segment
  simp only [ByteSpan.size] at hfirst hlast hlt hwhole ⊢
  rw [if_neg (by omega)]
  split
  · next hkind =>
    obtain ⟨hsize, hle⟩ := hwhole hkind
    rw [Nat.max_eq_right hfirst, Nat.min_eq_right hlast, Nat.sub_self, Nat.add_zero, hsize, Nat.add_sub_cancel' hle]
  · rfl

/-- **A span of whole segments** maps to what they lie over together. -/
theorem mapGeneratedSpan_inside {first last : Nat} (hbefore : Chained 0 before first) (hinside : Chained first inside last)
    (hafter : Chained last after generatedSize) (hlt : first < last)
    (hwhole : ∀ segment ∈ inside, segment.kind = .kCopied →
      segment.generated.size = segment.original.size ∧ segment.original.first ≤ segment.original.last) :
    (RewriteMap.mk (before ++ inside ++ after) generatedSize originalSize).mapGeneratedSpan ⟨first, last⟩ =
      (inside.map RewriteSegment.original).foldl RewriteMap.joinSpans none := by
  have hend := hafter.le
  have hne : (before ++ inside ++ after).isEmpty = false := by
    cases inside with
    | nil =>
        have hempty : first = last := hinside
        omega
    | cons segment inside => simp
  have hparts : inside.filterMap (RewriteMap.spanPart ⟨first, last⟩) = inside.map RewriteSegment.original := by
    rw [← List.filterMap_eq_map]
    refine List.filterMap_congr fun segment hmem => ?_
    have hbounds := hinside.bounds hmem
    exact spanPart_whole hbounds.2.1 hbounds.1 hbounds.2.2 (hwhole segment hmem)
  rw [← hparts, ← filterMap_of_chained hbefore hafter]
  unfold RewriteMap.mapGeneratedSpan
  dsimp only
  rw [if_neg (by simp only [Bool.or_eq_true, decide_eq_true_eq]; omega), if_neg (by omega), hne, if_neg (by decide)]

theorem joinSpans_table {size : Nat} (h : ValidRewrite size rewrite) :
    [rewrite.rule, rewrite.source, rewrite.arrow, rewrite.target, rewrite.rule].foldl RewriteMap.joinSpans none =
      some rewrite.rule := by
  have := h.ruleFirst
  have := h.ruleLast
  have := h.source
  have := h.before
  have := h.arrow
  have := h.after
  have := h.target
  obtain ⟨id, ⟨first, last⟩, source, arrow, target⟩ := rewrite
  simp only [List.foldl_cons, List.foldl_nil, RewriteMap.joinSpans, Option.some.injEq, ByteSpan.mk.injEq] at *
  omega

theorem mapGeneratedSpan_table {size : Nat} (hvalid : ValidRewrite size rewrite)
    (h : Chained 0 (before ++ tableSegments start rewrite ++ after) generatedSize) :
    let map : RewriteMap := ⟨before ++ tableSegments start rewrite ++ after, generatedSize, originalSize⟩
    map.mapGeneratedSpan (tableRedirect start rewrite).generatedTable = some rewrite.rule ∧
      map.mapGeneratedSpan (tableRedirect start rewrite).generatedSource = some rewrite.source ∧
      map.mapGeneratedSpan (tableRedirect start rewrite).generatedTarget = some rewrite.target := by
  obtain ⟨tail, hfront, hafter⟩ := h.split
  obtain ⟨head, hbefore, htable⟩ := hfront.split
  obtain rfl : start = head := htable.1
  obtain ⟨-, hp, -, hs, -, hm, -, ht, -, hx, hend⟩ := htable
  obtain rfl : tableEnd start rewrite = tail := hend
  have hsource : middleStart start rewrite - sourceStart start = rewrite.source.size := by
    simp only [middleStart]
    omega
  have htarget : suffixStart start rewrite - targetStart start rewrite = rewrite.target.size := by
    simp only [suffixStart]
    omega
  have hsourceLe := Nat.le_of_lt hvalid.source
  have htargetLe := Nat.le_of_lt hvalid.target
  have hlt : start < tableEnd start rewrite := by
    dsimp only at hp hs hm ht hx
    omega
  -- the segments on either side of an operand
  have hmiddle : before ++ tableSegments start rewrite ++ after =
      (before ++ (tableSegments start rewrite).take 1) ++ ((tableSegments start rewrite).drop 1).take 1 ++
        ((tableSegments start rewrite).drop 2 ++ after) := by
    simp [tableSegments]
  have hsuffix : before ++ tableSegments start rewrite ++ after =
      (before ++ (tableSegments start rewrite).take 3) ++ ((tableSegments start rewrite).drop 3).take 1 ++
        ((tableSegments start rewrite).drop 4 ++ after) := by
    simp [tableSegments]
  refine ⟨?_, ?_, ?_⟩
  · have hinside : Chained start (tableSegments start rewrite) (tableEnd start rewrite) :=
      ⟨rfl, hp, rfl, hs, rfl, hm, rfl, ht, rfl, hx, rfl⟩
    refine (mapGeneratedSpan_inside hbefore hinside hafter hlt ?_).trans (joinSpans_table hvalid)
    intro segment hmem hkind
    simp only [tableSegments, List.mem_cons, List.not_mem_nil, or_false] at hmem
    obtain rfl | rfl | rfl | rfl | rfl := hmem
    · cases hkind
    · exact ⟨hsource, hsourceLe⟩
    · cases hkind
    · exact ⟨htarget, htargetLe⟩
    · cases hkind
  · rw [hmiddle]
    refine mapGeneratedSpan_inside (hbefore.append ⟨rfl, hp, rfl⟩) ⟨rfl, hs, rfl⟩
      (Chained.append ⟨rfl, hm, rfl, ht, rfl, hx, rfl⟩ hafter) hs ?_
    intro segment hmem _
    obtain rfl := List.mem_singleton.mp hmem
    exact ⟨hsource, hsourceLe⟩
  · rw [hsuffix]
    refine mapGeneratedSpan_inside (hbefore.append ⟨rfl, hp, rfl, hs, rfl, hm, rfl⟩) ⟨rfl, ht, rfl⟩
      (Chained.append ⟨rfl, hx, rfl⟩ hafter) ht ?_
    intro segment hmem _
    obtain rfl := List.mem_singleton.mp hmem
    exact ⟨htarget, htargetLe⟩

end Redirect

theorem sliceSpan_table {bytes text rest : Bytes} {start : Nat} {rewrite : ArrowRewrite}
    (hvalid : ValidRewrite bytes.length rewrite) (hat : text.drop start = tableOf bytes rewrite ++ rest) :
    sliceSpan text (tableRedirect start rewrite).generatedTable = tableOf bytes rewrite := by
  have hsize : (tableRedirect start rewrite).generatedTable.size = (tableOf bytes rewrite).length := by
    rw [length_tableOf hvalid]
    simp only [tableRedirect, ByteSpan.size, tableEnd_eq]
    omega
  rw [sliceSpan, hsize]
  show (text.drop start).take _ = _
  rw [hat, List.take_left]

/-! ## The map of a desugared text -/

section Desugared
variable {source : SourceBuffer} {limits : RulesLimits} {rewrites : List ArrowRewrite} {result : DesugarResult}

theorem Desugared.chained (h : Desugared source limits rewrites result) :
    Chained 0 result.rewriteMap.segments result.rewriteMap.generatedSize := by
  have hchained := chained_plan 0 h.order (Nat.zero_le _)
  rw [Nat.zero_add] at hchained
  rw [h.map]
  exact hchained

theorem Desugared.faithful (h : Desugared source limits rewrites result) {segment : RewriteSegment}
    (hmem : segment ∈ result.rewriteMap.segments) :
    Faithful source.bytes (expand source.bytes 0 rewrites) segment := by
  rw [h.map] at hmem
  exact faithful_plan h.order (Nat.zero_le _) (List.drop_zero) hmem

theorem Desugared.parserInput (h : Desugared source limits rewrites result) :
    result.parserInput source = expand source.bytes 0 rewrites := by
  rw [DesugarResult.parserInput, h.text, Option.getD_some]

/-- An offset of a copied segment goes to one that holds the same byte. -/
theorem Desugared.mapPosition (h : Desugared source limits rewrites result) {segment : RewriteSegment}
    (hmem : segment ∈ result.rewriteMap.segments) (hkind : segment.kind = .kCopied) {offset : Nat}
    (hfirst : segment.generated.first ≤ offset) (hlast : offset < segment.generated.last) :
    ∃ original < source.bytes.length, result.rewriteMap.mapPosition offset = some ⟨original, original⟩ ∧
      (expand source.bytes 0 rewrites)[offset]? = source.bytes[original]? := by
  have hfaithful := h.faithful hmem
  have hsize := hfaithful.size hkind
  have hend := hfaithful.last_le
  have hle := hfaithful.le
  simp only [ByteSpan.size] at hsize
  exact ⟨_, by omega, mapPosition_copied h.chained hmem hkind hfirst hlast,
    hfaithful.bytes hkind offset hfirst hlast⟩

/-- Every span of the text that holds a byte goes to a span of the source. -/
theorem Desugared.mapGeneratedSpan (h : Desugared source limits rewrites result) {span : ByteSpan}
    (hlt : span.first < span.last) (hlast : span.last ≤ (expand source.bytes 0 rewrites).length) :
    ∃ original, result.rewriteMap.mapGeneratedSpan span = some original ∧ source.isValidSpan original = true := by
  have hsize : result.rewriteMap.generatedSize = (expand source.bytes 0 rewrites).length := by rw [h.map]
  obtain ⟨segment, hmem, hfirst, hend⟩ := h.chained.exists_mem (Nat.zero_le span.first) (by omega)
  have hparts : ∀ part ∈ result.rewriteMap.segments.filterMap (RewriteMap.spanPart span),
      part.first ≤ part.last ∧ part.last ≤ source.bytes.length := by
    intro part hpart
    obtain ⟨other, hother, hspan⟩ := List.mem_filterMap.mp hpart
    have hfaithful := h.faithful hother
    exact spanPart_valid hspan hfaithful.le hfaithful.last_le hfaithful.size
  have hmeet : result.rewriteMap.segments.filterMap (RewriteMap.spanPart span) ≠ [] := by
    intro hnil
    have hnone := List.filterMap_eq_nil_iff.mp hnil segment hmem
    unfold RewriteMap.spanPart at hnone
    rw [if_neg (by omega)] at hnone
    split at hnone <;> cases hnone
  obtain ⟨original, hjoined, hvalid⟩ := @joinSpans_valid _ _ hparts none nofun (Or.inl hmeet)
  refine ⟨original, ?_, ?_⟩
  · unfold RewriteMap.mapGeneratedSpan
    have hne : result.rewriteMap.segments.isEmpty = false := by
      cases hsegments : result.rewriteMap.segments with
      | nil => rw [hsegments] at hmem; cases hmem
      | cons => rfl
    rw [if_neg (by simp only [Bool.or_eq_true, decide_eq_true_eq]; omega), if_neg (by omega), hne, if_neg (by decide)]
    exact hjoined
  · rw [SourceBuffer.isValidSpan, Bool.and_eq_true, decide_eq_true_eq, decide_eq_true_eq]
    exact hvalid

theorem Desugared.redirect (h : Desugared source limits rewrites result) {redirect : GeneratedRedirect}
    (hmem : redirect ∈ result.redirects) :
    result.rewriteMap.mapGeneratedSpan redirect.generatedTable = some redirect.originalRule ∧
      result.rewriteMap.mapGeneratedSpan redirect.generatedSource = some redirect.originalSource ∧
      result.rewriteMap.mapGeneratedSpan redirect.generatedTarget = some redirect.originalTarget ∧
      sliceSpan (expand source.bytes 0 rewrites) redirect.generatedTable = tableOf source.bytes
        ⟨redirect.id, redirect.originalRule, redirect.originalSource, redirect.originalArrow,
          redirect.originalTarget⟩ := by
  rw [h.redirects] at hmem
  obtain ⟨before, after, start, rewrite, rest, hvalid, rfl, hat, hsegments⟩ :=
    redirect_plan h.order (List.drop_zero) hmem
  have hchained := h.chained
  rw [h.map, hsegments] at hchained
  rw [h.map, hsegments]
  exact ⟨(mapGeneratedSpan_table hvalid hchained).1, (mapGeneratedSpan_table hvalid hchained).2.1,
    (mapGeneratedSpan_table hvalid hchained).2.2, sliceSpan_table hvalid hat⟩

theorem Desugared.tableFirst (h : Desugared source limits rewrites result) {redirect : GeneratedRedirect}
    (hmem : redirect ∈ result.redirects) (offset : Nat) :
    result.rewriteMap.mapPosition redirect.generatedTable.first ≠ some ⟨offset, offset⟩ := by
  have hredirects := h.redirects
  rw [hredirects] at hmem
  obtain ⟨before, after, start, rewrite, rest, hvalid, rfl, -, hsegments⟩ :=
    redirect_plan h.order (List.drop_zero) hmem
  have hsegment : (⟨⟨start, sourceStart start⟩, rewrite.rule, .kSyntheticRule⟩ : RewriteSegment) ∈
      result.rewriteMap.segments := by
    rw [h.map, hsegments]
    simp [tableSegments]
  have hpositive : start < sourceStart start := (h.chained.bounds hsegment).2.1
  rw [show (tableRedirect start rewrite).generatedTable.first = start from rfl,
    mapPosition_segment h.chained hsegment (Nat.le_refl _) hpositive, if_pos (by simp)]
  intro hsame
  have hrule := Option.some.inj hsame
  have hlt : rewrite.rule.first < rewrite.rule.last := by
    have := hvalid.ruleFirst
    have := hvalid.ruleLast
    have := hvalid.source
    have := hvalid.before
    have := hvalid.arrow
    have := hvalid.after
    have := hvalid.target
    omega
  have hfirst := congrArg ByteSpan.first hrule
  have hlast := congrArg ByteSpan.last hrule
  dsimp only at hfirst hlast
  omega

end Desugared

section Identity
variable {size : Nat}

theorem mapPosition_identity {offset : Nat} (h : offset ≤ size) :
    (RewriteMap.identity size).mapPosition offset = some ⟨offset, offset⟩ := by
  simp [RewriteMap.mapPosition, RewriteMap.identity, h]

theorem mapGeneratedSpan_identity {span : ByteSpan} (hlt : span.first < span.last) (hlast : span.last ≤ size) :
    (RewriteMap.identity size).mapGeneratedSpan span = some span := by
  simp [RewriteMap.mapGeneratedSpan, RewriteMap.identity, Nat.not_lt.mpr hlast, Nat.le_of_lt hlt, Nat.ne_of_lt hlt]

end Identity

/-- **The way back from a desugared text**, for rewrites the desugarer accepts: the text is the source with a table in
the place of every rule; an offset of a copied segment goes to the same byte, every redirect to its rewrite, and every
span that holds a byte to a span of the source. -/
theorem emitDesugaredSource_mapsBack {source : SourceBuffer} {rewrites : List ArrowRewrite} {limits : RulesLimits}
    (h : (emitDesugaredSource source rewrites limits).ok = true) :
    let result := emitDesugaredSource source rewrites limits
    let text := result.parserInput source
    text = expand source.bytes 0 rewrites ∧
      (∀ segment ∈ result.rewriteMap.segments, segment.kind = .kCopied →
        ∀ offset, segment.generated.first ≤ offset → offset < segment.generated.last →
          ∃ original < source.bytes.length, result.rewriteMap.mapPosition offset = some ⟨original, original⟩ ∧
            text[offset]? = source.bytes[original]?) ∧
      (result.rewriteMap.segments = [] → text = source.bytes ∧
        ∀ offset < text.length, result.rewriteMap.mapPosition offset = some ⟨offset, offset⟩) ∧
      result.redirects.map (fun redirect => (⟨redirect.id, redirect.originalRule, redirect.originalSource,
        redirect.originalArrow, redirect.originalTarget⟩ : ArrowRewrite)) = rewrites ∧
      (∀ redirect ∈ result.redirects,
        result.rewriteMap.mapGeneratedSpan redirect.generatedTable = some redirect.originalRule ∧
        result.rewriteMap.mapGeneratedSpan redirect.generatedSource = some redirect.originalSource ∧
        result.rewriteMap.mapGeneratedSpan redirect.generatedTarget = some redirect.originalTarget ∧
        sliceSpan text redirect.generatedTable = tableOf source.bytes ⟨redirect.id, redirect.originalRule,
          redirect.originalSource, redirect.originalArrow, redirect.originalTarget⟩) ∧
      ∀ span : ByteSpan, span.first < span.last → span.last ≤ text.length →
        ∃ original, result.rewriteMap.mapGeneratedSpan span = some original ∧ source.isValidSpan original = true := by
  by_cases hne : rewrites = []
  · subst hne
    refine ⟨rfl, nofun, fun _ => ⟨rfl, fun offset hoffset => ?_⟩, rfl, nofun, fun span hlt hlast => ?_⟩
    · exact mapPosition_identity (Nat.le_of_lt hoffset)
    · have hlast : span.last ≤ source.size := hlast
      refine ⟨span, mapGeneratedSpan_identity hlt hlast, ?_⟩
      rw [SourceBuffer.isValidSpan, Bool.and_eq_true, decide_eq_true_eq, decide_eq_true_eq]
      exact ⟨Nat.le_of_lt hlt, hlast⟩
  · have hdesugared := desugared_of_ok hne h
    refine ⟨hdesugared.parserInput, ?_, fun hnil => ?_, ?_, ?_, ?_⟩
    · intro segment hmem hkind offset hfirst hlast
      rw [hdesugared.parserInput]
      exact hdesugared.mapPosition hmem hkind hfirst hlast
    · exfalso
      obtain ⟨rewrite, rest, rfl⟩ := List.exists_cons_of_ne_nil hne
      rw [hdesugared.map] at hnil
      simp [planSegments, tableSegments] at hnil
    · rw [hdesugared.redirects]
      exact planRedirects_originals rewrites
    · intro redirect hmem
      rw [hdesugared.parserInput]
      exact hdesugared.redirect hmem
    · intro span hlt hlast
      rw [hdesugared.parserInput] at hlast
      exact hdesugared.mapGeneratedSpan hlt hlast

/-- A text with one rule, and its rewrite. -/
def oneRule : SourceBuffer := ⟨[], ascii "x = [\"A\" -> \"B\"]\n", by decide⟩

def oneRewrite : ArrowRewrite := ⟨1, ⟨5, 15⟩, ⟨5, 8⟩, ⟨9, 11⟩, ⟨12, 15⟩⟩

theorem emitDesugaredSource_mapsBack_oneRule :
    (emitDesugaredSource oneRule [oneRewrite] {}).parserInput oneRule =
        ascii "x = [\x7b from = \"A\", to = \"B\" \x7d]\n" ∧
      ∃ original, (emitDesugaredSource oneRule [oneRewrite] {}).rewriteMap.mapGeneratedSpan ⟨4, 14⟩ = some original ∧
        oneRule.isValidSpan original = true := by
  have hok : (emitDesugaredSource oneRule [oneRewrite] {}).ok = true := by decide +kernel
  have hback := emitDesugaredSource_mapsBack hok
  exact ⟨hback.1.trans (by decide +kernel), hback.2.2.2.2.2 ⟨4, 14⟩ (by decide) (by decide +kernel)⟩

end PathGuard.Rules

import PathGuard.Lib.Search
import PathGuard.Rules.RewriteMap

/-!
# The search for a position

`MapGeneratedPosition` of `rules/src/desugarer.cpp` with the binary search it makes, against the linear search for the
segment that contains the offset, and what `MapGeneratedSpan` returns for a span that is not empty: the smallest span that
covers the images of its offsets. Both hold for every list of segments that `Create` accepts.

* `mapGeneratedPosition`, `linearPosition` : the two searches (`mapGeneratedPosition_eq_linear`);
* `Covers`, `CoversImages` : smallest spans (`mapGeneratedSpan_covers`);
* `rewriteMap_of_create` : both, for every accepted list.
-/

namespace PathGuard.Rules

/-! ## What `Create` accepts -/

/-- The segments cover the generated text without a gap, each over a span of the original one. -/
structure RewriteMap.Created (map : RewriteMap) : Prop where
  ne_nil : map.segments ≠ []
  chained : Chained 0 map.segments map.generatedSize
  original : ∀ segment ∈ map.segments, segment.original.first ≤ segment.original.last ∧
    segment.original.last ≤ map.originalSize ∧
    (segment.kind = .kCopied → segment.generated.size = segment.original.size)

theorem chained_of_checkSegments {generatedSize originalSize first last : Nat} {segments : List RewriteSegment}
    (h : RewriteMap.checkSegments generatedSize originalSize segments first = some last) :
    Chained first segments last ∧ ∀ segment ∈ segments, segment.original.first ≤ segment.original.last ∧
      segment.original.last ≤ originalSize ∧
      (segment.kind = .kCopied → segment.generated.size = segment.original.size) := by
  induction segments generalizing first with
  | nil => exact ⟨Option.some.inj h, by simp⟩
  | cons segment segments ih =>
      rw [RewriteMap.checkSegments] at h
      split at h
      · cases h
      · next hchecks =>
        simp only [Bool.or_eq_true, decide_eq_true_eq, Bool.and_eq_true, beq_iff_eq, ne_eq, not_or, not_not,
          not_and] at hchecks
        obtain ⟨⟨⟨⟨⟨hfirst, hlt⟩, -⟩, hle⟩, hend⟩, hcopied⟩ := hchecks
        obtain ⟨hchained, horiginal⟩ := ih h
        refine ⟨⟨hfirst, by omega, hchained⟩, List.forall_mem_cons.mpr ⟨⟨by omega, by omega, hcopied⟩, horiginal⟩⟩

theorem RewriteMap.created {segments : List RewriteSegment} {generatedSize originalSize : Nat} {map : RewriteMap}
    (h : RewriteMap.create segments generatedSize originalSize = some map) : map.Created := by
  obtain rfl := create_some h
  unfold RewriteMap.create at h
  split at h
  · cases h
  · next hne =>
    split at h
    · next hchecks =>
      obtain ⟨hchained, horiginal⟩ := chained_of_checkSegments hchecks
      exact ⟨by simpa using hne, hchained, horiginal⟩
    · cases h

/-! ## The two searches -/

def RewriteSegment.Contains (segment : RewriteSegment) (offset : Nat) : Prop :=
  segment.generated.first ≤ offset ∧ offset < segment.generated.last

instance (segment : RewriteSegment) (offset : Nat) : Decidable (segment.Contains offset) :=
  inferInstanceAs (Decidable (_ ∧ _))

/-- Where an offset of a segment comes from. -/
def RewriteSegment.position (segment : RewriteSegment) (offset : Nat) : ByteSpan :=
  if segment.kind ≠ .kCopied then segment.original
  else
    let mapped := segment.original.first + (offset - segment.generated.first)
    ⟨mapped, mapped⟩

namespace RewriteMap

/-- The comparison of the search: the segment at the index does not begin after the offset. -/
def notAfter (segments : List RewriteSegment) (offset index : Nat) : Except Unit Bool :=
  .ok (segments[index]?.any fun segment => segment.generated.first ≤ offset)

/-- `std::upper_bound` over the segments: the index of the first one that begins after the offset. -/
def upperBound (segments : List RewriteSegment) (offset : Nat) : Nat :=
  match searchLower (notAfter segments offset) segments.length 0 segments.length with
  | .ok next => next
  | .error _ => 0

/-- `MapGeneratedPosition`, with `MapPositionUnchecked`. -/
def mapGeneratedPosition (map : RewriteMap) (offset : Nat) : Option ByteSpan :=
  if map.generatedSize < offset then none
  else if map.segments.isEmpty then
    if map.generatedSize ≠ map.originalSize then none else some ⟨offset, offset⟩
  else if offset = map.generatedSize then some ⟨map.originalSize, map.originalSize⟩
  else
    let next := upperBound map.segments offset
    if next = 0 then none
    else
      match map.segments[next - 1]? with
      | none => none
      | some segment => if segment.generated.last ≤ offset then none else some (segment.position offset)

/-- The linear search: the segment that contains the offset; the end of the text comes from the end of the original. -/
def linearPosition (map : RewriteMap) (offset : Nat) : Option ByteSpan :=
  if offset = map.generatedSize then some ⟨map.originalSize, map.originalSize⟩
  else (map.segments.find? fun segment => segment.Contains offset).map fun segment => segment.position offset

end RewriteMap

section Position
variable {first last offset : Nat} {segments : List RewriteSegment} {segment : RewriteSegment}

theorem Chained.pairwise (h : Chained first segments last) (offset : Nat) :
    segments.Pairwise fun a b => decide (b.generated.first ≤ offset) = true → decide (a.generated.first ≤ offset) = true := by
  induction segments generalizing first with
  | nil => exact .nil
  | cons segment segments ih =>
      refine .cons (fun later hmem hlater => ?_) (ih h.2.2)
      have hbounds := h.2.2.bounds hmem
      have hfirst := h.1
      have hlt := h.2.1
      rw [decide_eq_true_eq] at hlater ⊢
      omega

theorem upperBound_eq (h : Chained first segments last) (offset : Nat) :
    RewriteMap.upperBound segments offset =
      (segments.takeWhile fun segment => segment.generated.first ≤ offset).length := by
  have hsearch : searchLower (RewriteMap.notAfter segments offset) segments.length 0 segments.length =
      .ok (segments.takeWhile fun segment => segment.generated.first ≤ offset).length := by
    apply searchLower_eq _ (Nat.zero_le _) (List.takeWhile_prefix _).length_le (le_refl _) (Nat.sub_le _ _)
    intro index hindex
    have hsegment := List.getElem?_eq_getElem hindex
    rw [RewriteMap.notAfter, hsegment, Option.any_some]
    congr 1
    rw [Bool.eq_iff_iff, decide_eq_true_eq (p := index < _)]
    exact (lt_length_takeWhile_iff (h.pairwise offset) hsegment).symm
  unfold RewriteMap.upperBound
  rw [hsearch]

/-- The binary search ends behind the segment that contains the offset. -/
theorem segment_of_upperBound (h : Chained first segments last) (hmem : segment ∈ segments)
    (hoffset : segment.Contains offset) :
    RewriteMap.upperBound segments offset ≠ 0 ∧ segments[RewriteMap.upperBound segments offset - 1]? = some segment := by
  obtain ⟨before, after, rfl⟩ := List.append_of_mem hmem
  have hfound := takeWhile_of_chained h hoffset.1 hoffset.2
  rw [upperBound_eq h]
  generalize hrun : (before ++ segment :: after).takeWhile (fun other => decide (other.generated.first ≤ offset)) = run
    at hfound
  obtain ⟨rest, hrest⟩ : run <+: before ++ segment :: after := hrun ▸ List.takeWhile_prefix _
  have hpos : 0 < run.length := List.length_pos_of_mem (List.mem_of_getLast? hfound)
  refine ⟨Nat.ne_of_gt hpos, ?_⟩
  rw [← hrest, List.getElem?_append_left (by omega), ← List.getLast?_eq_getElem?, hfound]

theorem mapGeneratedPosition_segment {map : RewriteMap} (h : map.Created) (hmem : segment ∈ map.segments)
    (hoffset : segment.Contains offset) : map.mapGeneratedPosition offset = some (segment.position offset) := by
  have hbounds := h.chained.bounds hmem
  have hne : map.segments.isEmpty = false := by simpa using h.ne_nil
  obtain ⟨hnext, hfound⟩ := segment_of_upperBound h.chained hmem hoffset
  have hin := hoffset.2
  unfold RewriteMap.mapGeneratedPosition
  rw [if_neg (by omega), hne, if_neg Bool.false_ne_true, if_neg (by omega)]
  dsimp only
  rw [if_neg hnext, hfound]
  dsimp only
  rw [if_neg (by omega)]

theorem Chained.unique (h : Chained first segments last) {other : RewriteSegment} (hmem : segment ∈ segments)
    (hother : other ∈ segments) (hoffset : segment.Contains offset) (hoffset' : other.Contains offset) :
    other = segment := by
  have hfound := (segment_of_upperBound h hmem hoffset).2
  rw [(segment_of_upperBound h hother hoffset').2] at hfound
  exact Option.some.inj hfound

theorem linearPosition_segment {map : RewriteMap} (h : map.Created) (hmem : segment ∈ map.segments)
    (hoffset : segment.Contains offset) : map.linearPosition offset = some (segment.position offset) := by
  have hbounds := h.chained.bounds hmem
  have hin := hoffset.2
  unfold RewriteMap.linearPosition
  rw [if_neg (by omega)]
  cases hfind : map.segments.find? fun segment => segment.Contains offset with
  | none =>
      rw [List.find?_eq_none] at hfind
      exact absurd (decide_eq_true hoffset) (hfind segment hmem)
  | some found =>
      have hfound : found.Contains offset := by simpa using List.find?_some hfind
      rw [h.chained.unique hmem (List.mem_of_find?_eq_some hfind) hoffset hfound]
      rfl

/-- **The binary search returns what the linear search returns**, for every offset. -/
theorem mapGeneratedPosition_eq_linear {map : RewriteMap} (h : map.Created) (offset : Nat) :
    map.mapGeneratedPosition offset = map.linearPosition offset := by
  rcases Nat.lt_trichotomy offset map.generatedSize with hlt | heq | hgt
  · obtain ⟨segment, hmem, hoffset⟩ := h.chained.exists_mem (Nat.zero_le _) hlt
    rw [mapGeneratedPosition_segment h hmem hoffset, linearPosition_segment h hmem hoffset]
  · have hne : map.segments.isEmpty = false := by simpa using h.ne_nil
    unfold RewriteMap.mapGeneratedPosition RewriteMap.linearPosition
    rw [if_neg (by omega), hne, if_neg Bool.false_ne_true, if_pos heq, if_pos heq]
  · unfold RewriteMap.mapGeneratedPosition RewriteMap.linearPosition
    rw [if_pos hgt, if_neg (by omega)]
    have hnone : (map.segments.find? fun segment => segment.Contains offset) = none := by
      rw [List.find?_eq_none]
      intro segment hmem hoffset
      have hbounds := h.chained.bounds hmem
      have hin := (of_decide_eq_true hoffset).2
      omega
    rw [hnone]
    rfl

theorem mapGeneratedPosition_eq {map : RewriteMap} (h : map.Created) (offset : Nat) :
    map.mapGeneratedPosition offset = map.mapPosition offset := by
  rcases Nat.lt_trichotomy offset map.generatedSize with hlt | heq | hgt
  · obtain ⟨segment, hmem, hoffset⟩ := h.chained.exists_mem (Nat.zero_le _) hlt
    rw [mapGeneratedPosition_segment h hmem hoffset, mapPosition_segment h.chained hmem hoffset.1 hoffset.2]
    unfold RewriteSegment.position
    split <;> rfl
  · have hne : map.segments.isEmpty = false := by simpa using h.ne_nil
    unfold RewriteMap.mapGeneratedPosition RewriteMap.mapPosition
    rw [if_neg (by omega), hne, if_neg Bool.false_ne_true, if_pos heq, if_neg (by omega), if_neg Bool.false_ne_true,
      if_pos heq]
  · unfold RewriteMap.mapGeneratedPosition RewriteMap.mapPosition
    rw [if_pos hgt, if_pos hgt]

end Position

/-! ## The span of a span -/

/-- A span within another one. -/
def Covers (outer inner : ByteSpan) : Prop := outer.first ≤ inner.first ∧ inner.last ≤ outer.last

/-- What an offset of a segment counts as: the byte it is a copy of, or the whole original of a synthetic segment. -/
def RewriteSegment.image (segment : RewriteSegment) (offset : Nat) : ByteSpan :=
  if segment.kind ≠ .kCopied then segment.original
  else
    let mapped := segment.original.first + (offset - segment.generated.first)
    ⟨mapped, mapped + 1⟩

/-- The span covers the images of all offsets of a generated span. -/
def CoversImages (map : RewriteMap) (span outer : ByteSpan) : Prop :=
  ∀ segment ∈ map.segments, ∀ offset, span.first ≤ offset → offset < span.last → segment.Contains offset →
    Covers outer (segment.image offset)

section Span
variable {span part outer : ByteSpan} {segment : RewriteSegment}

theorem not_contains_of_spanPart_none (h : RewriteMap.spanPart span segment = none) {offset : Nat}
    (hfirst : span.first ≤ offset) (hlast : offset < span.last) : ¬ segment.Contains offset := by
  unfold RewriteMap.spanPart at h
  dsimp only at h
  split at h
  · next hapart =>
    rintro ⟨hstart, hend⟩
    omega
  · split at h <;> cases h

/-- The part of a span in a segment is the smallest span over the images of the offsets they share. -/
theorem covers_part_iff (h : RewriteMap.spanPart span segment = some part) :
    Covers outer part ↔ ∀ offset, span.first ≤ offset → offset < span.last → segment.Contains offset →
      Covers outer (segment.image offset) := by
  unfold RewriteMap.spanPart at h
  dsimp only at h
  split at h
  · cases h
  · next hmeet =>
    have hstart : segment.Contains (max span.first segment.generated.first) := ⟨by omega, by omega⟩
    have hend : segment.Contains (min span.last segment.generated.last - 1) := ⟨by omega, by omega⟩
    unfold RewriteSegment.image Covers
    split at h
    · next hkind =>
      obtain rfl := Option.some.inj h
      simp only [hkind, ne_eq, not_true_eq_false, if_false]
      constructor
      · rintro ⟨hfirst, hlast⟩ offset hin hbefore ⟨hleft, hright⟩
        omega
      · intro hall
        have hlow := hall _ (by omega) (by omega) hstart
        have hhigh := hall _ (by omega) (by omega) hend
        omega
    · next hkind =>
      obtain rfl := Option.some.inj h
      simp only [ne_eq, hkind, not_false_eq_true, if_true]
      constructor
      · exact fun hcovers _ _ _ _ => hcovers
      · intro hall
        exact hall _ (by omega) (by omega) hstart

theorem foldl_joinSpans (parts : List ByteSpan) (mapped : ByteSpan) :
    ∃ joined, parts.foldl RewriteMap.joinSpans (some mapped) = some joined ∧
      ∀ outer, Covers outer joined ↔ Covers outer mapped ∧ ∀ part ∈ parts, Covers outer part := by
  induction parts generalizing mapped with
  | nil => exact ⟨mapped, rfl, fun outer => by simp⟩
  | cons part parts ih =>
      obtain ⟨joined, hjoined, hcovers⟩ := ih ⟨min mapped.first part.first, max mapped.last part.last⟩
      refine ⟨joined, hjoined, fun outer => ?_⟩
      rw [hcovers, List.forall_mem_cons, ← and_assoc]
      apply and_congr_left'
      unfold Covers
      dsimp only
      omega

/-- **The mapped span is the smallest one over the images**, for a span that is not empty. -/
theorem mapGeneratedSpan_covers {map : RewriteMap} (h : map.Created) (hne : span.first < span.last)
    (hlast : span.last ≤ map.generatedSize) :
    ∃ mapped, map.mapGeneratedSpan span = some mapped ∧ ∀ outer, Covers outer mapped ↔ CoversImages map span outer := by
  have hempty : map.segments.isEmpty = false := by simpa using h.ne_nil
  have himages : ∀ outer, CoversImages map span outer ↔
      ∀ part ∈ map.segments.filterMap (RewriteMap.spanPart span), Covers outer part := by
    intro outer
    simp only [List.mem_filterMap, forall_exists_index, and_imp]
    constructor
    · intro hall part segment hmem hpart
      exact (covers_part_iff hpart).mpr (hall segment hmem)
    · intro hall segment hmem offset hfirst hbefore hoffset
      cases hpart : RewriteMap.spanPart span segment with
      | none => exact absurd hoffset (not_contains_of_spanPart_none hpart hfirst hbefore)
      | some part => exact (covers_part_iff hpart).mp (hall part segment hmem hpart) offset hfirst hbefore hoffset
  have hparts : map.segments.filterMap (RewriteMap.spanPart span) ≠ [] := by
    obtain ⟨segment, hmem, hoffset⟩ := h.chained.exists_mem (Nat.zero_le span.first) (by omega)
    intro hnil
    rw [List.filterMap_eq_nil_iff] at hnil
    exact not_contains_of_spanPart_none (hnil segment hmem) (le_refl _) hne hoffset
  unfold RewriteMap.mapGeneratedSpan
  rw [if_neg (by simp only [Bool.or_eq_true, decide_eq_true_eq]; omega), if_neg (by omega), hempty,
    if_neg Bool.false_ne_true]
  obtain ⟨part, parts, heq⟩ := List.exists_cons_of_ne_nil hparts
  obtain ⟨joined, hjoined, hcovers⟩ := foldl_joinSpans parts part
  rw [heq]
  refine ⟨joined, hjoined, fun outer => ?_⟩
  rw [hcovers, himages, heq, List.forall_mem_cons]

theorem CoversImages.mono {map : RewriteMap} {inner : ByteSpan} (h : Covers span inner)
    (hall : CoversImages map span outer) :
    CoversImages map inner outer := fun segment hmem offset hfirst hlast hoffset =>
  hall segment hmem offset (h.1.trans hfirst) (lt_of_lt_of_le hlast h.2) hoffset

end Span

/-- **The map that `Create` accepts**: the binary search returns what a linear search for the one segment of an offset
returns; a span that is not empty is mapped to the smallest span over the images of its offsets, so that a span within
another one is mapped within it. -/
theorem rewriteMap_of_create {segments : List RewriteSegment} {generatedSize originalSize : Nat} {map : RewriteMap}
    (h : RewriteMap.create segments generatedSize originalSize = some map) :
    (∀ offset, map.mapGeneratedPosition offset = map.linearPosition offset) ∧
      (∀ offset < map.generatedSize, ∃! segment, segment ∈ map.segments ∧ segment.Contains offset) ∧
      (∀ span : ByteSpan, span.first < span.last → span.last ≤ map.generatedSize →
        ∃ mapped, map.mapGeneratedSpan span = some mapped ∧ CoversImages map span mapped ∧
          ∀ outer, CoversImages map span outer → Covers outer mapped) ∧
      ∀ inner outer mapped mapped' : ByteSpan, inner.first < inner.last → outer.last ≤ map.generatedSize →
        Covers outer inner → map.mapGeneratedSpan inner = some mapped → map.mapGeneratedSpan outer = some mapped' →
          Covers mapped' mapped := by
  have hcreated := RewriteMap.created h
  refine ⟨mapGeneratedPosition_eq_linear hcreated, fun offset hlt => ?_, fun span hne hlast => ?_, ?_⟩
  · obtain ⟨segment, hmem, hoffset⟩ := hcreated.chained.exists_mem (Nat.zero_le _) hlt
    exact ⟨segment, ⟨hmem, hoffset⟩, fun other hother => hcreated.chained.unique hmem hother.1 hoffset hother.2⟩
  · obtain ⟨mapped, hmapped, hcovers⟩ := mapGeneratedSpan_covers hcreated hne hlast
    exact ⟨mapped, hmapped, (hcovers mapped).mp ⟨le_refl _, le_refl _⟩, fun outer => (hcovers outer).mpr⟩
  · intro inner outer mapped mapped' hne hlast hinner hmapped hmapped'
    have hsize := hinner.1
    have hend := hinner.2
    obtain ⟨small, hsmall, hleast⟩ := mapGeneratedSpan_covers hcreated hne (hend.trans hlast)
    obtain ⟨large, hlarge, hcovers⟩ := mapGeneratedSpan_covers hcreated (show outer.first < outer.last by omega) hlast
    obtain rfl : small = mapped := Option.some.inj (hsmall.symm.trans hmapped)
    obtain rfl : large = mapped' := Option.some.inj (hlarge.symm.trans hmapped')
    exact (hleast large).mpr (((hcovers large).mp ⟨le_refl _, le_refl _⟩).mono hinner)

theorem rewriteMap_of_create_rule :
    let map : RewriteMap :=
      ⟨[⟨⟨0, 2⟩, ⟨0, 2⟩, .kCopied⟩, ⟨⟨2, 9⟩, ⟨2, 7⟩, .kSyntheticRule⟩], 9, 7⟩
    map.mapGeneratedPosition 3 = map.linearPosition 3 ∧ Covers ⟨0, 7⟩ ⟨1, 7⟩ ∧
      ∃ mapped, map.mapGeneratedSpan ⟨1, 4⟩ = some mapped ∧ CoversImages map ⟨1, 4⟩ mapped := by
  have hmap := rewriteMap_of_create (show RewriteMap.create
    [⟨⟨0, 2⟩, ⟨0, 2⟩, .kCopied⟩, ⟨⟨2, 9⟩, ⟨2, 7⟩, .kSyntheticRule⟩] 9 7 = some _ from rfl)
  obtain ⟨mapped, hmapped, hcovers, -⟩ := hmap.2.2.1 ⟨1, 4⟩ (by decide) (by decide)
  exact ⟨hmap.1 3, hmap.2.2.2 ⟨1, 4⟩ ⟨0, 4⟩ ⟨1, 7⟩ ⟨0, 7⟩ (by decide) (by decide) ⟨by decide, by decide⟩ rfl rfl,
    mapped, hmapped, hcovers⟩

end PathGuard.Rules

import PathGuard.Rules.ScannerSpec

/-!
# The format line

What the probe accepts, as a line with its parts. The probe reads no further than the byte after the value, so another
text with the same front is accepted too; and there is no string in that front, so no rule either.

* `ProbedLine` : the line with its parts; `FormatLine` : the line of format 1;
* `probeResult` : one case for each way out of the probe; `probeRulesFormat_iff` : what it accepts;
* `FormatLine.lt_string` : a rule starts after the line.
-/

namespace PathGuard.Rules

/-! ## The parts of the line -/

/-- Where the first declaration of a text stands. -/
def declarationAt (bytes : Bytes) : Nat :=
  let start := if hasUtf8Bom bytes then 3 else 0
  start + blankPrefix false (bytes.drop start)

def isValueByte (value : UInt8) : Bool := !isHorizontalSpace value && !endsFormatLine value

/-- The line with the value the probe reads, whatever it is. -/
structure ProbedLine (bytes value : Bytes) (equals first last final : Nat) : Prop where
  keyword : (bytes.drop (declarationAt bytes)).take 6 = ascii "format"
  bare : (bytes[declarationAt bytes + 6]?.any fun value => !isHorizontalSpace value && value != equalsSign) = false
  equalsAt : skipWhile isHorizontalSpace bytes (declarationAt bytes + 6) = equals
  sign : bytes[equals]? = some equalsSign
  firstAt : skipWhile isHorizontalSpace bytes (equals + 1) = first
  lastAt : skipWhile isValueByte bytes first = last
  value_eq : sliceSpan bytes ⟨first, last⟩ = value
  finalAt : skipWhile isHorizontalSpace bytes last = final
  ends : (bytes[final]?.any fun value => !endsFormatLine value) = false

/-- The line that the probe accepts. -/
abbrev FormatLine (bytes : Bytes) : Nat → Nat → Nat → Nat → Prop := ProbedLine bytes (ascii "1")

theorem le_skipWhile (p : UInt8 → Bool) (bytes : Bytes) (offset : Nat) : offset ≤ skipWhile p bytes offset :=
  Nat.le_add_right _ _

theorem skipWhile_le {p : UInt8 → Bool} {bytes : Bytes} {offset : Nat} (h : offset ≤ bytes.length) :
    skipWhile p bytes offset ≤ bytes.length := by
  have hrun := (List.takeWhile_prefix p (l := bytes.drop offset)).length_le
  rw [List.length_drop] at hrun
  unfold skipWhile
  omega

theorem drop_skipWhile (p : UInt8 → Bool) (bytes : Bytes) (offset : Nat) :
    bytes.drop offset = (bytes.drop offset).takeWhile p ++ bytes.drop (skipWhile p bytes offset) := by
  have hrest : bytes.drop (skipWhile p bytes offset) = (bytes.drop offset).dropWhile p := by
    rw [skipWhile, ← List.drop_drop, drop_takeWhile_length]
  rw [hrest, List.takeWhile_append_dropWhile]

def isCanonicalDecimal (value : Bytes) : Bool :=
  !value.isEmpty && value.all (fun digit => 0x30 ≤ digit && digit ≤ 0x39) &&
    (value == ascii "0" || value.head? != some 0x30)

/-- What the probe says of a line it has read to its end. -/
def formatVerdict (value : Bytes) (first final : Nat) : Except Diagnostic Nat :=
  if value = ascii "1" then .ok 1
  else if isCanonicalDecimal value then .error (formatError kFormatUnsupported "rules.format_unsupported" first final)
  else .error (formatError kFormatInvalid "rules.format_invalid_value" first final)

/-- What the probe can return. -/
inductive ProbeResult (bytes : Bytes) : Except Diagnostic Nat → Prop
  | missing : declarationAt bytes = bytes.length →
      ProbeResult bytes (.error (formatError kFormatMissing "rules.format_missing" bytes.length bytes.length))
  | invalid (messageKey : String) {first last : Nat} : declarationAt bytes ≠ bytes.length → first ≤ last →
      last ≤ bytes.length → (∀ value equals start stop final, ¬ ProbedLine bytes value equals start stop final) →
      ProbeResult bytes (.error (formatError kFormatInvalid messageKey first last))
  | line {value : Bytes} {equals first last final : Nat} : ProbedLine bytes value equals first last final →
      first ≤ final → final ≤ bytes.length → ProbeResult bytes (formatVerdict value first final)

theorem blankPrefix_le (inside : Bool) (text : Bytes) : blankPrefix inside text ≤ text.length := by
  induction text generalizing inside with
  | nil => cases inside <;> exact Nat.le_refl _
  | cons value text ih =>
      have hplain := ih false
      have hcomment := ih true
      have hnext := ih (value != lineFeed)
      rw [List.length_cons]
      cases inside with
      | true =>
          rw [blankPrefix]
          omega
      | false =>
          rw [blankPrefix]
          split
          · omega
          · split <;> omega

theorem declarationAt_le (bytes : Bytes) : declarationAt bytes ≤ bytes.length := by
  unfold declarationAt
  dsimp only
  have hrest := blankPrefix_le false (bytes.drop (if hasUtf8Bom bytes = true then 3 else 0))
  rw [List.length_drop] at hrest
  split at hrest
  next hbom =>
    have hlength := (List.isPrefixOf_iff_prefix.mp hbom).length_le
    rw [if_pos hbom]
    simp only [List.length_cons, List.length_nil] at hlength
    omega
  next hbom =>
    rw [if_neg hbom]
    omega

/-- **One case for each way out of the probe.** -/
theorem probeResult (source : SourceBuffer) : ProbeResult source.bytes (probeRulesFormat source) := by
  have hle := declarationAt_le source.bytes
  unfold probeRulesFormat
  dsimp only
  generalize hdeclaration : (if hasUtf8Bom source.bytes = true then 3 else 0) +
    blankPrefix false (source.bytes.drop (if hasUtf8Bom source.bytes = true then 3 else 0)) = declaration
  obtain rfl : declarationAt source.bytes = declaration := hdeclaration
  split
  next hend =>
    rw [hend]
    exact .missing hend
  next hne =>
  split
  next hkeyword =>
    exact .invalid _ hne (by omega) (Nat.min_le_left _ _) fun _ _ _ _ _ hline => hkeyword hline.keyword
  next hkeyword =>
  have hroom : declarationAt source.bytes + 6 ≤ source.bytes.length := by
    have hlength := congrArg List.length (Decidable.not_not.mp hkeyword)
    rw [List.length_take, List.length_drop, show (ascii "format").length = 6 from rfl] at hlength
    omega
  split
  next hbare =>
    refine .invalid _ hne (by omega) (Nat.min_le_left _ _) fun _ _ _ _ _ hline => ?_
    rw [hline.bare] at hbare
    exact Bool.false_ne_true hbare
  next hbare =>
  have hequals := skipWhile_le (p := isHorizontalSpace) hroom
  have hafter := le_skipWhile isHorizontalSpace source.bytes (declarationAt source.bytes + 6)
  generalize hequalsAt : skipWhile isHorizontalSpace source.bytes (declarationAt source.bytes + 6) = equals
    at hequals hafter ⊢
  split
  next hsign =>
    exact .invalid _ hne (by omega) hequals fun _ _ _ _ _ hline => hsign (hequalsAt ▸ hline.equalsAt ▸ hline.sign)
  next hsign =>
  have hfirst := skipWhile_le (p := isHorizontalSpace) (lt_of_getElem? (Decidable.not_not.mp hsign))
  generalize hfirstAt : skipWhile isHorizontalSpace source.bytes (equals + 1) = first at hfirst ⊢
  have hlast := skipWhile_le (p := isValueByte) hfirst
  have hvalue := le_skipWhile isValueByte source.bytes first
  rw [show (fun value => !isHorizontalSpace value && !endsFormatLine value) = isValueByte from rfl]
  generalize hlastAt : skipWhile isValueByte source.bytes first = last at hlast hvalue ⊢
  have hfinal := skipWhile_le (p := isHorizontalSpace) hlast
  have htrailing := le_skipWhile isHorizontalSpace source.bytes last
  generalize hfinalAt : skipWhile isHorizontalSpace source.bytes last = final at hfinal htrailing ⊢
  split
  next hends =>
    have hlt : final < source.bytes.length := by
      by_contra hge
      rw [List.getElem?_eq_none (by omega)] at hends
      cases hends
    refine .invalid _ hne (by omega) hlt fun _ _ _ _ _ hline => ?_
    have heq := hline.finalAt
    rw [← hline.lastAt, ← hline.firstAt, ← hline.equalsAt, hequalsAt, hfirstAt, hlastAt, hfinalAt] at heq
    rw [heq, hline.ends] at hends
    exact Bool.false_ne_true hends
  next hends =>
    have hline : ProbedLine source.bytes (sliceSpan source.bytes ⟨first, last⟩) equals first last final :=
      ⟨Decidable.not_not.mp hkeyword, Bool.eq_false_iff.mpr hbare, hequalsAt, Decidable.not_not.mp hsign, hfirstAt,
        hlastAt, rfl, hfinalAt, Bool.eq_false_iff.mpr hends⟩
    exact .line hline (by omega) hfinal

theorem ProbedLine.declaration_ne {bytes value : Bytes} {equals first last final : Nat}
    (h : ProbedLine bytes value equals first last final) : declarationAt bytes ≠ bytes.length := by
  intro hend
  have hkeyword := h.keyword
  rw [hend, List.drop_length] at hkeyword
  cases hkeyword

theorem ProbedLine.unique {bytes value value' : Bytes} {equals first last final equals' first' last' final' : Nat}
    (h : ProbedLine bytes value equals first last final) (h' : ProbedLine bytes value' equals' first' last' final') :
    value = value' ∧ first = first' ∧ final = final' := by
  obtain rfl : equals = equals' := h.equalsAt.symm.trans h'.equalsAt
  obtain rfl : first = first' := h.firstAt.symm.trans h'.firstAt
  obtain rfl : last = last' := h.lastAt.symm.trans h'.lastAt
  exact ⟨h.value_eq.symm.trans h'.value_eq, rfl, h.finalAt.symm.trans h'.finalAt⟩

theorem probeRulesFormat_of_line {source : SourceBuffer} {value : Bytes} {equals first last final : Nat}
    (h : ProbedLine source.bytes value equals first last final) :
    probeRulesFormat source = formatVerdict value first final := by
  have hresult := probeResult source
  generalize probeRulesFormat source = result at hresult
  cases hresult with
  | missing hend => exact absurd hend h.declaration_ne
  | invalid _ _ _ _ hnone => exact absurd h (hnone value equals first last final)
  | line hline =>
      obtain ⟨rfl, rfl, rfl⟩ := h.unique hline
      rfl

theorem formatVerdict_eq_ok_iff {value : Bytes} {first final version : Nat} :
    formatVerdict value first final = .ok version ↔ version = 1 ∧ value = ascii "1" := by
  unfold formatVerdict
  split
  next hvalue => simp [hvalue, eq_comm]
  next hvalue => split <;> simp [hvalue]

/-- What the probe reports: a span of the text, and one of three codes. -/
theorem probeRulesFormat_error {source : SourceBuffer} {diagnostic : Diagnostic}
    (h : probeRulesFormat source = .error diagnostic) :
    (diagnostic.primary.first ≤ diagnostic.primary.last ∧ diagnostic.primary.last ≤ source.bytes.length) ∧
      (diagnostic.code = kFormatMissing ∧ declarationAt source.bytes = source.bytes.length ∨
        diagnostic.code = kFormatInvalid ∨
        diagnostic.code = kFormatUnsupported ∧ ∃ value equals first last final,
          ProbedLine source.bytes value equals first last final ∧ isCanonicalDecimal value = true ∧
            value ≠ ascii "1") := by
  have hresult := probeResult source
  rw [h] at hresult
  generalize herror : (Except.error diagnostic : Except Diagnostic Nat) = result at hresult
  cases hresult with
  | missing hend =>
      obtain rfl := Except.error.inj herror
      exact ⟨⟨le_refl _, le_refl _⟩, Or.inl ⟨rfl, hend⟩⟩
  | invalid _ _ horder hend =>
      obtain rfl := Except.error.inj herror
      exact ⟨⟨horder, hend⟩, Or.inr (Or.inl rfl)⟩
  | @line value _ _ _ _ hline horder hend =>
      unfold formatVerdict at herror
      split at herror
      next => cases herror
      next hone =>
        split at herror
        next hdecimal =>
          obtain rfl := Except.error.inj herror
          exact ⟨⟨horder, hend⟩, Or.inr (Or.inr ⟨rfl, value, _, _, _, _, hline, hdecimal, hone⟩)⟩
        next =>
          obtain rfl := Except.error.inj herror
          exact ⟨⟨horder, hend⟩, Or.inr (Or.inl rfl)⟩

/-- **What the probe accepts.** -/
theorem probeRulesFormat_iff {source : SourceBuffer} :
    (∃ version, probeRulesFormat source = .ok version) ↔
      ∃ equals first last final, FormatLine source.bytes equals first last final := by
  constructor
  · rintro ⟨version, h⟩
    have hresult := probeResult source
    rw [h] at hresult
    generalize hok : (Except.ok version : Except Diagnostic Nat) = result at hresult
    cases hresult with
    | missing => cases hok
    | invalid => cases hok
    | line hline =>
        obtain ⟨-, rfl⟩ := formatVerdict_eq_ok_iff.mp hok.symm
        exact ⟨_, _, _, _, hline⟩
  · rintro ⟨equals, first, last, final, hline⟩
    exact ⟨1, by rw [probeRulesFormat_of_line hline]; rfl⟩

/-! ## Its place in the text -/

section Local
variable {front rest rest' : Bytes} {p : UInt8 → Bool}

theorem skipWhile_local {offset last : Nat} (h : skipWhile p (front ++ rest) offset = last) (hlast : last < front.length) :
    skipWhile p (front ++ rest') offset = last := by
  have hle : offset ≤ front.length := (le_skipWhile p (front ++ rest) offset).trans (h ▸ Nat.le_of_lt hlast)
  unfold skipWhile at h ⊢
  rw [List.drop_append_of_le_length hle, List.takeWhile_append] at h ⊢
  split at h
  · next hall =>
    rw [List.length_append, List.length_drop] at h
    omega
  · next hsome => rw [if_neg hsome, h]

theorem blankPrefix_local {inside : Bool} (h : blankPrefix inside (front ++ rest) < front.length) :
    blankPrefix inside (front ++ rest') = blankPrefix inside (front ++ rest) := by
  induction front generalizing inside with
  | nil => cases h
  | cons value front ih =>
      rw [List.length_cons] at h
      cases inside with
      | true =>
          simp only [List.cons_append, blankPrefix] at h ⊢
          rw [ih (by omega)]
      | false =>
          simp only [List.cons_append, blankPrefix] at h ⊢
          split at h
          · next hspace => rw [if_pos hspace, if_pos hspace, ih (by omega)]
          · next hspace =>
            rw [if_neg hspace, if_neg hspace]
            split at h
            · next hhash => rw [if_pos hhash, if_pos hhash, ih (by omega)]
            · next hhash => rw [if_neg hhash, if_neg hhash]

theorem hasUtf8Bom_local (h : 3 ≤ front.length) : hasUtf8Bom (front ++ rest') = hasUtf8Bom (front ++ rest) := by
  match front, h with
  | _ :: _ :: _ :: _, _ => simp [hasUtf8Bom, List.isPrefixOf]

theorem declarationAt_local (hthree : 3 ≤ front.length) (h : declarationAt (front ++ rest) < front.length) :
    declarationAt (front ++ rest') = declarationAt (front ++ rest) := by
  unfold declarationAt at h ⊢
  dsimp only at h ⊢
  rw [hasUtf8Bom_local hthree]
  have hstart : (if hasUtf8Bom (front ++ rest) = true then 3 else 0) ≤ front.length := by split <;> omega
  rw [List.drop_append_of_le_length hstart] at h ⊢
  rw [List.drop_append_of_le_length hstart]
  have hinside : blankPrefix false (front.drop (if hasUtf8Bom (front ++ rest) = true then 3 else 0) ++ rest) <
      (front.drop (if hasUtf8Bom (front ++ rest) = true then 3 else 0)).length := by
    rw [List.length_drop]
    omega
  rw [blankPrefix_local hinside]

end Local

namespace ProbedLine
variable {bytes value : Bytes} {equals first last final : Nat}

theorem order (h : ProbedLine bytes value equals first last final) :
    declarationAt bytes + 6 ≤ equals ∧ equals < first ∧ first ≤ last ∧ last ≤ final :=
  ⟨h.equalsAt ▸ le_skipWhile _ _ _, h.firstAt ▸ le_skipWhile _ _ _, h.lastAt ▸ le_skipWhile _ _ _,
    h.finalAt ▸ le_skipWhile _ _ _⟩

theorem transfer {front rest : Bytes} (rest' : Bytes) (h : ProbedLine (front ++ rest) value equals first last final)
    (hfinal : final < front.length) : ProbedLine (front ++ rest') value equals first last final := by
  have horder := h.order
  have hdeclaration : declarationAt (front ++ rest') = declarationAt (front ++ rest) :=
    declarationAt_local (by omega) (by omega)
  have hbyte : ∀ index, index < front.length → (front ++ rest')[index]? = (front ++ rest)[index]? := by
    intro index hindex
    rw [List.getElem?_append_left hindex, List.getElem?_append_left hindex]
  have hslice : ∀ start size, start + size ≤ front.length →
      ((front ++ rest').drop start).take size = ((front ++ rest).drop start).take size := by
    intro start size hsize
    have hroom : size ≤ (front.drop start).length := by
      rw [List.length_drop]
      omega
    rw [List.drop_append_of_le_length (by omega), List.drop_append_of_le_length (by omega),
      List.take_append_of_le_length hroom, List.take_append_of_le_length hroom]
  refine ⟨?_, ?_, ?_, ?_, ?_, ?_, ?_, ?_, ?_⟩
  · rw [hdeclaration, hslice _ _ (by omega)]
    exact h.keyword
  · rw [hdeclaration, hbyte _ (by omega)]
    exact h.bare
  · rw [hdeclaration]
    exact skipWhile_local h.equalsAt (by omega)
  · rw [hbyte _ (by omega)]
    exact h.sign
  · exact skipWhile_local h.firstAt (by omega)
  · exact skipWhile_local h.lastAt (by omega)
  · rw [sliceSpan, hslice _ _ (by simp only [ByteSpan.size]; omega)]
    exact h.value_eq
  · exact skipWhile_local h.finalAt hfinal
  · rw [hbyte _ hfinal]
    exact h.ends

end ProbedLine

/-! ## What is before a rule -/

/-- No string is among the items, and no arrow. -/
def Blank (items : List LexItem) : Prop := ∀ item ∈ items, item = .plain ∨ item = .comment

theorem Blank.append {xs ys : List LexItem} (hx : Blank xs) (hy : Blank ys) : Blank (xs ++ ys) :=
  fun item hmem => (List.mem_append.mp hmem).elim (hx item) (hy item)

/-- The front of a text up to an offset holds no string. -/
def BlankTo (text rest : Bytes) : Prop := ∃ items, Lexed text rest items ∧ Blank items

theorem BlankTo.trans {text middle rest : Bytes} (h₁ : BlankTo text middle) (h₂ : BlankTo middle rest) :
    BlankTo text rest := by
  obtain ⟨xs, hxs, hx⟩ := h₁
  obtain ⟨ys, hys, hy⟩ := h₂
  exact ⟨xs ++ ys, hxs.trans hys, hx.append hy⟩

theorem isPlain_of_isSingle {value : UInt8} (h : isSingle value = true) (text : Bytes) : isPlain value text = true := by
  simp only [isSingle, Bool.and_eq_true, bne_iff_ne, ne_eq] at h
  simp [isPlain, h.1.1, h.1.2, h.2]

theorem lexed_singles {front : Bytes} (rest : Bytes) (h : ∀ value ∈ front, isSingle value = true) :
    Lexed (front ++ rest) rest (List.replicate front.length .plain) := by
  induction front with
  | nil => exact .nil rest
  | cons value front ih =>
      exact .plain (isPlain_of_isSingle (h value List.mem_cons_self) _)
        (ih fun other hmem => h other (List.mem_cons_of_mem _ hmem))

theorem blankTo_singles {front : Bytes} (rest : Bytes) (h : ∀ value ∈ front, isSingle value = true) :
    BlankTo (front ++ rest) rest :=
  ⟨_, lexed_singles rest h, fun _ hmem => Or.inl (List.mem_replicate.mp hmem).2⟩

theorem blankTo_skip {p : UInt8 → Bool} (hp : ∀ value, p value = true → isSingle value = true) (bytes : Bytes)
    (offset : Nat) : BlankTo (bytes.drop offset) (bytes.drop (skipWhile p bytes offset)) := by
  rw [drop_skipWhile p bytes offset]
  exact blankTo_singles _ fun value hmem => hp value (List.all_eq_true.mp List.all_takeWhile value hmem)

theorem isSingle_of_isHorizontalSpace {value : UInt8} (h : isHorizontalSpace value = true) : isSingle value = true := by
  simp only [isHorizontalSpace, Bool.or_eq_true, beq_iff_eq] at h
  obtain rfl | rfl := h <;> decide

/-- What `blankPrefix` passes over; inside a comment, from the end of it on. -/
theorem blankTo_blankPrefix (text : Bytes) :
    BlankTo text (text.drop (blankPrefix false text)) ∧
      BlankTo (text.dropWhile (· != lineFeed)) (text.drop (blankPrefix true text)) := by
  induction text with
  | nil => exact ⟨⟨[], .nil _, nofun⟩, ⟨[], .nil _, nofun⟩⟩
  | cons value text ih =>
      obtain ⟨hoff, hinside⟩ := ih
      constructor
      · rw [blankPrefix]
        split
        · next hblank =>
          have hsingle : isSingle value = true := by
            rw [Bool.or_eq_true] at hblank
            obtain hspace | hnewline := hblank
            · exact isSingle_of_isHorizontalSpace hspace
            · simp only [isNewline, Bool.or_eq_true, beq_iff_eq] at hnewline
              obtain rfl | rfl := hnewline <;> decide
          rw [Nat.add_comm, List.drop_succ_cons]
          exact (@blankTo_singles [value] text (by simpa using hsingle)).trans hoff
        · split
          · next hhash =>
            obtain rfl := eq_of_beq hhash
            rw [Nat.add_comm, List.drop_succ_cons]
            obtain ⟨items, hitems, hblank⟩ := hinside
            refine ⟨.comment :: items, .comment hitems, fun item hmem => ?_⟩
            obtain rfl | hmem := List.mem_cons.mp hmem
            · exact Or.inr rfl
            · exact hblank item hmem
          · exact ⟨[], .nil _, nofun⟩
      · rw [blankPrefix, Nat.add_comm, List.drop_succ_cons]
        by_cases hfeed : value = lineFeed
        · subst hfeed
          exact (@blankTo_singles [lineFeed] text (List.all_eq_true.mp (by decide))).trans hoff
        · have hne : (value != lineFeed) = true := bne_iff_ne.mpr hfeed
          rw [List.dropWhile_cons, if_pos hne, hne]
          exact hinside

theorem blankTo_declaration (bytes : Bytes) : BlankTo bytes (bytes.drop (declarationAt bytes)) := by
  unfold declarationAt
  dsimp only
  rw [← List.drop_drop]
  refine BlankTo.trans ?_ (blankTo_blankPrefix _).1
  split
  · next hbom =>
    obtain ⟨rest, rfl⟩ := List.isPrefixOf_iff_prefix.mp hbom
    exact blankTo_singles rest (List.all_eq_true.mp (by decide))
  · exact ⟨[], .nil _, nofun⟩

theorem FormatLine.blankTo {bytes : Bytes} {equals first last final : Nat}
    (h : FormatLine bytes equals first last final) : BlankTo bytes (bytes.drop final) := by
  have hspace : ∀ value, isHorizontalSpace value = true → isSingle value = true :=
    fun value => isSingle_of_isHorizontalSpace
  have hkeyword : bytes.drop (declarationAt bytes) = ascii "format" ++ bytes.drop (declarationAt bytes + 6) := by
    rw [← h.keyword, ← List.drop_drop, List.take_append_drop]
  have hequals := blankTo_skip hspace bytes (declarationAt bytes + 6)
  have hfirst := blankTo_skip hspace bytes (equals + 1)
  have hfinal := blankTo_skip hspace bytes last
  rw [h.equalsAt] at hequals
  rw [h.firstAt] at hfirst
  rw [h.finalAt] at hfinal
  have hvalue : bytes.drop first = ascii "1" ++ bytes.drop last := by
    rw [← h.value_eq, sliceSpan, ByteSpan.size]
    nth_rewrite 1 [← List.take_append_drop (last - first) (bytes.drop first)]
    rw [List.drop_drop, Nat.add_sub_cancel' h.order.2.2.1]
  refine (blankTo_declaration bytes).trans (BlankTo.trans ?_ (hequals.trans (BlankTo.trans ?_ (hfirst.trans
    (BlankTo.trans ?_ hfinal)))))
  · rw [hkeyword]
    exact blankTo_singles _ (List.all_eq_true.mp (by decide))
  · rw [drop_of_getElem? h.sign]
    exact @blankTo_singles [equalsSign] _ (List.all_eq_true.mp (by decide))
  · rw [hvalue]
    exact blankTo_singles _ (List.all_eq_true.mp (by decide))

/-- **A rule starts after the format line.** -/
theorem FormatLine.lt_string {bytes : Bytes} {equals first last final start : Nat} {quote : UInt8}
    (h : FormatLine bytes equals first last final) (hfree : ArrowFree bytes 0 start)
    (hbyte : bytes[start]? = some quote) (hquote : isQuote quote = true) : final < start := by
  obtain ⟨ys, hys, hblank⟩ := h.blankTo
  obtain ⟨xs, hxs, -⟩ := hfree.lexed
  rw [List.drop_zero] at hxs
  have hlt := lt_of_getElem? hbyte
  have hne : final ≠ start := by
    rintro rfl
    have hends := h.ends
    rw [hbyte] at hends
    simp only [isQuote, Bool.or_eq_true, beq_iff_eq] at hquote
    obtain rfl | rfl := hquote <;> exact absurd hends (by decide)
  obtain ⟨zs, hzs, -⟩ | ⟨zs, hzs, hitems⟩ := hys.compare hxs
  · obtain ⟨body, hbody⟩ := hzs.suffix
    have hlength := congrArg List.length hbody
    rw [List.length_append, List.length_drop, List.length_drop] at hlength
    omega
  · exfalso
    have hdrop := drop_of_getElem? hbyte
    have hitem : ∀ item ∈ zs, item = .plain ∨ item = .comment :=
      fun item hmem => hblank item (hitems ▸ List.mem_append_right _ hmem)
    rw [hdrop] at hzs
    generalize htail : bytes.drop final = tail at hzs
    generalize bytes.drop (start + 1) = more at hzs hdrop
    cases hzs with
    | nil =>
        have hlength := congrArg List.length (htail.trans hdrop.symm)
        rw [List.length_drop, List.length_drop] at hlength
        omega
    | plain hplain => exact absurd hplain (by simp [isPlain, hquote])
    | comment => exact absurd hquote (by decide)
    | string => exact absurd (hitem _ List.mem_cons_self) (by simp)
    | arrow => exact absurd hquote (by decide)

end PathGuard.Rules

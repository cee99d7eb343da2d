import PathGuard.Rules.CompiledPolicy
import PathGuard.Rules.FormatLine

/-!
# The grammar of the format line

`ProbeRulesFormat` of `rules/src/format_probe.cpp` against the grammar of what it recognises, for every text: layout
(blanks, line breaks, comments), then `format`, `=` and the value with blanks around them, then the end of the text or of
the line. `probeResult` says once what the probe can return; `formatShape_iff` connects the offsets of the
probe to the parts of the grammar.

* `Layout`, `FormatShape` : the grammar; `exists_layout` : every text begins with layout;
* `isCanonicalDecimal_iff_exists` : the values, as numbers;
* `probeRulesFormat_grammar` : version 1 and the two errors.
-/

namespace PathGuard.Rules

/-! ## Layout -/

def utf8Bom : Bytes := [0xef, 0xbb, 0xbf]

/-- Blanks, line breaks and comments, each comment with the line feed that ends it. -/
inductive Layout : Bytes → Prop
  | nil : Layout []
  | blank {value : UInt8} {rest : Bytes} : (isHorizontalSpace value || isNewline value) = true → Layout rest →
      Layout (value :: rest)
  | comment {text rest : Bytes} : lineFeed ∉ text → Layout rest → Layout (hashSign :: (text ++ lineFeed :: rest))

/-- A text that is nothing but layout: its last comment may go on to the end. -/
def OnlyLayout (text : Bytes) : Prop :=
  Layout text ∨ ∃ front comment, Layout front ∧ lineFeed ∉ comment ∧ text = front ++ hashSign :: comment

/-- What can follow all of the layout: no blank, no line break and no comment. -/
def StartsToken (rest : Bytes) : Prop :=
  ∃ value tail, rest = value :: tail ∧ (isHorizontalSpace value || isNewline value) = false ∧ value ≠ hashSign

theorem blankPrefix_comment {text : Bytes} (h : lineFeed ∉ text) (rest : Bytes) :
    blankPrefix true (text ++ lineFeed :: rest) = text.length + 1 + blankPrefix false rest := by
  induction text with
  | nil => simp [blankPrefix]
  | cons value text ih =>
      rw [List.mem_cons, not_or] at h
      have hne : (value != lineFeed) = true := bne_iff_ne.mpr (Ne.symm h.1)
      rw [List.cons_append, blankPrefix, hne, ih h.2, List.length_cons]
      omega

theorem blankPrefix_open_comment {text : Bytes} (h : lineFeed ∉ text) : blankPrefix true text = text.length := by
  induction text with
  | nil => rfl
  | cons value text ih =>
      rw [List.mem_cons, not_or] at h
      have hne : (value != lineFeed) = true := bne_iff_ne.mpr (Ne.symm h.1)
      rw [blankPrefix, hne, ih h.2, List.length_cons, Nat.add_comm]

theorem blankPrefix_hash (text : Bytes) : blankPrefix false (hashSign :: text) = 1 + blankPrefix true text := by
  rw [blankPrefix, if_neg (by decide), if_pos (by decide)]

theorem blankPrefix_token {rest : Bytes} (h : StartsToken rest) : blankPrefix false rest = 0 := by
  obtain ⟨value, tail, rfl, hblank, hhash⟩ := h
  rw [blankPrefix, if_neg (Bool.eq_false_iff.mp hblank), if_neg (by rwa [beq_iff_eq])]

theorem Layout.blankPrefix {front : Bytes} (h : Layout front) (rest : Bytes) :
    blankPrefix false (front ++ rest) = front.length + blankPrefix false rest := by
  induction h with
  | nil => simp
  | blank hblank _ ih =>
      rw [List.cons_append, Rules.blankPrefix, if_pos hblank, ih, List.length_cons]
      omega
  | @comment text tail hfree _ ih =>
      have hassoc : text ++ lineFeed :: tail ++ rest = text ++ lineFeed :: (tail ++ rest) := by simp
      rw [List.cons_append, blankPrefix_hash, hassoc, blankPrefix_comment hfree, ih, List.length_cons, List.length_append,
        List.length_cons]
      omega

/-- Every text is layout and then nothing, an open comment, or something else. -/
theorem exists_layout (text : Bytes) :
    ∃ front rest, Layout front ∧ text = front ++ rest ∧
      (rest = [] ∨ (∃ comment, lineFeed ∉ comment ∧ rest = hashSign :: comment) ∨ StartsToken rest) := by
  induction hsize : text.length using Nat.strong_induction_on generalizing text with
  | h size ih =>
      cases text with
      | nil => exact ⟨[], [], .nil, rfl, Or.inl rfl⟩
      | cons value text =>
          rw [List.length_cons] at hsize
          by_cases hblank : (isHorizontalSpace value || isNewline value) = true
          · obtain ⟨front, rest, hfront, rfl, hrest⟩ := ih text.length (by omega) text rfl
            exact ⟨value :: front, rest, .blank hblank hfront, rfl, hrest⟩
          · by_cases hhash : value = hashSign
            · subst hhash
              by_cases hfeed : lineFeed ∈ text
              · obtain ⟨comment, tail, rfl, hfree⟩ := List.eq_append_cons_of_mem hfeed
                rw [List.length_append, List.length_cons] at hsize
                obtain ⟨front, rest, hfront, rfl, hrest⟩ := ih tail.length (by omega) tail rfl
                exact ⟨_, rest, .comment hfree hfront, by simp, hrest⟩
              · exact ⟨[], _, .nil, rfl, Or.inr (Or.inl ⟨text, hfeed, rfl⟩)⟩
            · exact ⟨[], _, .nil, rfl, Or.inr (Or.inr ⟨value, text, rfl, Bool.eq_false_iff.mpr hblank, hhash⟩)⟩

/-! ## The declaration -/

/-- A text in front of its declaration: a mark or none, and the layout. -/
structure Front (bytes bom front rest : Bytes) : Prop where
  bytes_eq : bytes = bom ++ (front ++ rest)
  bom : bom = [] ∧ hasUtf8Bom bytes = false ∨ bom = utf8Bom
  layout : Layout front

theorem hasUtf8Bom_iff {bytes : Bytes} : hasUtf8Bom bytes = true ↔ ∃ text, bytes = utf8Bom ++ text := by
  unfold hasUtf8Bom
  rw [List.isPrefixOf_iff_prefix]
  exact exists_congr fun text => eq_comm

theorem exists_front (bytes : Bytes) :
    ∃ bom front rest, Front bytes bom front rest ∧
      (rest = [] ∨ (∃ comment, lineFeed ∉ comment ∧ rest = hashSign :: comment) ∨ StartsToken rest) := by
  by_cases hbom : hasUtf8Bom bytes = true
  · obtain ⟨text, rfl⟩ := hasUtf8Bom_iff.mp hbom
    obtain ⟨front, rest, hfront, rfl, hrest⟩ := exists_layout text
    exact ⟨_, front, rest, ⟨rfl, Or.inr rfl, hfront⟩, hrest⟩
  · obtain ⟨front, rest, hfront, htext, hrest⟩ := exists_layout bytes
    exact ⟨[], front, rest, ⟨htext, Or.inl ⟨rfl, Bool.eq_false_iff.mpr hbom⟩, hfront⟩, hrest⟩

theorem not_hasUtf8Bom {front rest : Bytes} (h : Layout front) (hrest : rest.head? ≠ some 0xef) :
    hasUtf8Bom (front ++ rest) = false := by
  rw [Bool.eq_false_iff]
  intro hbom
  obtain ⟨text, htext⟩ := hasUtf8Bom_iff.mp hbom
  have hhead : (front ++ rest).head? = some 0xef := by
    rw [htext]
    rfl
  cases h with
  | nil => exact hrest hhead
  | blank hblank =>
      obtain rfl := Option.some.inj hhead
      exact absurd hblank (by decide)
  | comment => simp [hashSign] at hhead

theorem Front.of_parts {bom front rest : Bytes} (hbom : bom = [] ∨ bom = utf8Bom) (hfront : Layout front)
    (hrest : rest.head? ≠ some 0xef) : Front (bom ++ (front ++ rest)) bom front rest := by
  refine ⟨rfl, ?_, hfront⟩
  rcases hbom with rfl | rfl
  · rw [List.nil_append]
    exact Or.inl ⟨rfl, not_hasUtf8Bom hfront hrest⟩
  · exact Or.inr rfl

theorem Front.declarationAt {bytes bom front rest : Bytes} (h : Front bytes bom front rest) :
    declarationAt bytes = bom.length + (front.length + blankPrefix false rest) := by
  have hstart : (if hasUtf8Bom bytes = true then 3 else 0) = bom.length := by
    rcases h.bom with ⟨rfl, hnone⟩ | rfl
    · rw [hnone]
      rfl
    · rw [if_pos (hasUtf8Bom_iff.mpr ⟨_, h.bytes_eq⟩)]
      rfl
  unfold Rules.declarationAt
  dsimp only
  rw [hstart, h.bytes_eq, List.drop_left, h.layout.blankPrefix]

/-- The probe finds no declaration exactly in layout. -/
theorem declarationAt_eq_length_iff (bytes : Bytes) :
    declarationAt bytes = bytes.length ↔
      ∃ bom text, (bom = [] ∨ bom = utf8Bom) ∧ OnlyLayout text ∧ bytes = bom ++ text := by
  constructor
  · intro hend
    obtain ⟨bom, front, rest, hfront, hrest⟩ := exists_front bytes
    refine ⟨bom, front ++ rest, hfront.bom.imp And.left id, ?_, hfront.bytes_eq⟩
    rcases hrest with rfl | ⟨comment, hfree, rfl⟩ | htoken
    · rw [List.append_nil]
      exact Or.inl hfront.layout
    · exact Or.inr ⟨front, comment, hfront.layout, hfree, rfl⟩
    · rw [hfront.declarationAt, blankPrefix_token htoken, hfront.bytes_eq, List.length_append, List.length_append] at hend
      obtain ⟨value, tail, rfl, -⟩ := htoken
      rw [List.length_cons] at hend
      omega
  · rintro ⟨bom, text, hbom, honly, rfl⟩
    rcases honly with hlayout | ⟨front, comment, hlayout, hfree, rfl⟩
    · have hfront := @Front.of_parts bom text [] hbom hlayout (by simp)
      rw [List.append_nil] at hfront
      rw [hfront.declarationAt, List.length_append]
      rfl
    · have hfront := @Front.of_parts bom front (hashSign :: comment) hbom hlayout (by simp [hashSign])
      rw [hfront.declarationAt, blankPrefix_hash, blankPrefix_open_comment hfree]
      simp only [List.length_append, List.length_cons]
      omega

/-! ## The line -/

def Blanks (text : Bytes) : Prop := ∀ value ∈ text, isHorizontalSpace value = true

/-- The end of the text, a comment or a line break. -/
def EndsLine (rest : Bytes) : Prop := ∀ value, rest.head? = some value → endsFormatLine value = true

/-- A mark or none, layout, `format`, `=` and the value with blanks around them, the end of the line; after it anything. -/
def FormatShape (bytes value : Bytes) : Prop :=
  ∃ bom front before after trailing rest, (bom = [] ∨ bom = utf8Bom) ∧ Layout front ∧ Blanks before ∧ Blanks after ∧
    Blanks trailing ∧ EndsLine rest ∧
    bytes = bom ++ (front ++ (ascii "format" ++ (before ++ equalsSign :: (after ++ (value ++ (trailing ++ rest))))))

theorem skipWhile_append {p : UInt8 → Bool} {bytes front run rest : Bytes} (hbytes : bytes = front ++ (run ++ rest))
    (hrun : ∀ value ∈ run, p value = true) (hrest : ∀ value, rest.head? = some value → p value = false) :
    skipWhile p bytes front.length = (front ++ run).length := by
  have hstop : rest.takeWhile p = [] := by
    cases rest with
    | nil => rfl
    | cons value tail => rw [List.takeWhile_cons, hrest value rfl, if_neg Bool.false_ne_true]
  rw [hbytes, skipWhile, List.drop_left, List.takeWhile_append_of_pos hrun, hstop, List.append_nil, List.length_append]

theorem exists_blanks (bytes : Bytes) (offset : Nat) :
    ∃ run, Blanks run ∧ bytes.drop offset = run ++ bytes.drop (skipWhile isHorizontalSpace bytes offset) :=
  ⟨_, fun value hmem => List.all_eq_true.mp List.all_takeWhile value hmem, drop_skipWhile _ bytes offset⟩

theorem ProbedLine.shape {bytes value : Bytes} {equals first last final : Nat}
    (h : ProbedLine bytes value equals first last final) : FormatShape bytes value := by
  obtain ⟨bom, front, rest, hfront, hrest⟩ := exists_front bytes
  have hne := h.declaration_ne
  have htoken : StartsToken rest := by
    rcases hrest with hnil | hcomment | htoken
    · exact absurd ((declarationAt_eq_length_iff bytes).mpr ⟨bom, front ++ rest, hfront.bom.imp And.left id,
        Or.inl (by rw [hnil, List.append_nil]; exact hfront.layout), hfront.bytes_eq⟩) hne
    · obtain ⟨comment, hfree, rfl⟩ := hcomment
      exact absurd ((declarationAt_eq_length_iff bytes).mpr ⟨bom, front ++ hashSign :: comment,
        hfront.bom.imp And.left id, Or.inr ⟨front, comment, hfront.layout, hfree, rfl⟩, hfront.bytes_eq⟩) hne
    · exact htoken
  have hdeclaration : bytes.drop (declarationAt bytes) = rest := by
    rw [hfront.declarationAt, blankPrefix_token htoken, Nat.add_zero, ← List.length_append]
    nth_rewrite 1 [hfront.bytes_eq]
    rw [← List.append_assoc, List.drop_left]
  have hkeyword : rest = ascii "format" ++ bytes.drop (declarationAt bytes + 6) := by
    rw [← h.keyword, ← List.drop_drop, List.take_append_drop, hdeclaration]
  obtain ⟨before, hbefore, hequals⟩ := exists_blanks bytes (declarationAt bytes + 6)
  obtain ⟨after, hafter, hfirst⟩ := exists_blanks bytes (equals + 1)
  obtain ⟨trailing, htrailing, hfinal⟩ := exists_blanks bytes last
  rw [h.equalsAt, drop_of_getElem? h.sign] at hequals
  rw [h.firstAt] at hfirst
  rw [h.finalAt] at hfinal
  have hvalue : bytes.drop first = value ++ bytes.drop last := by
    have hle : first ≤ last := h.lastAt ▸ le_skipWhile _ _ _
    rw [← h.value_eq, sliceSpan, ByteSpan.size]
    nth_rewrite 1 [← List.take_append_drop (last - first) (bytes.drop first)]
    rw [List.drop_drop, Nat.add_sub_cancel' hle]
  refine ⟨bom, front, before, after, trailing, bytes.drop final, hfront.bom.imp And.left id, hfront.layout, hbefore,
    hafter, htrailing, ?_, ?_⟩
  · intro value hhead
    have hends := h.ends
    rw [← List.head?_drop, hhead] at hends
    simpa using hends
  · rw [← hfinal, ← hvalue, ← hfirst, ← hequals, ← hkeyword]
    exact hfront.bytes_eq

theorem EndsLine.not_blank {rest : Bytes} (h : EndsLine rest) :
    ∀ byte, rest.head? = some byte → isHorizontalSpace byte = false := by
  intro byte hhead
  have hend := h byte hhead
  simp only [endsFormatLine, isNewline, Bool.or_eq_true, beq_iff_eq] at hend
  rcases hend with rfl | rfl | rfl <;> decide

theorem head_value {value : Bytes} (hne : value ≠ []) (hvalue : ∀ byte ∈ value, isValueByte byte = true) {rest : Bytes} :
    ∀ byte, (value ++ rest).head? = some byte → isHorizontalSpace byte = false := by
  intro byte hhead
  rw [List.head?_append_of_ne_nil _ hne] at hhead
  have hbyte := hvalue byte (List.mem_of_head? hhead)
  rw [isValueByte, Bool.and_eq_true, Bool.not_eq_true'] at hbyte
  exact hbyte.1

theorem head_trailing {trailing rest : Bytes} (htrailing : Blanks trailing) (hends : EndsLine rest) :
    ∀ byte, (trailing ++ rest).head? = some byte → isValueByte byte = false := by
  intro byte hhead
  cases trailing with
  | nil => simp [isValueByte, hends byte hhead]
  | cons blank trailing =>
      obtain rfl := Option.some.inj hhead
      simp [isValueByte, htrailing blank List.mem_cons_self]

theorem FormatShape.probed {bytes value : Bytes} (h : FormatShape bytes value) (hne : value ≠ [])
    (hvalue : ∀ byte ∈ value, isValueByte byte = true) :
    ∃ equals first last final, ProbedLine bytes value equals first last final := by
  obtain ⟨bom, front, before, after, trailing, rest, hbom, hfront, hbefore, hafter, htrailing, hends, hbytes⟩ := h
  have hdeclaration : declarationAt bytes = (bom ++ front).length := by
    have htoken : StartsToken (ascii "format" ++ (before ++ equalsSign :: (after ++ (value ++ (trailing ++ rest))))) :=
      ⟨_, _, rfl, by decide, by decide⟩
    rw [hbytes, (Front.of_parts hbom hfront (by simp [ascii])).declarationAt, blankPrefix_token htoken, List.length_append]
    rfl
  rw [← List.append_assoc] at hbytes
  generalize bom ++ front = start at hdeclaration hbytes
  -- The same text, taken apart at each offset the probe stops at.
  have hatKey : bytes = start ++ ascii "format" ++ (before ++ equalsSign :: (after ++ (value ++ (trailing ++ rest)))) := by
    rw [hbytes, List.append_assoc start]
  have hatSign : bytes = start ++ ascii "format" ++ before ++
      equalsSign :: (after ++ (value ++ (trailing ++ rest))) := by
    rw [hatKey, List.append_assoc _ before]
  have hatAfter : bytes = start ++ ascii "format" ++ before ++ [equalsSign] ++
      (after ++ (value ++ (trailing ++ rest))) := by
    rw [hatSign, List.append_assoc _ [equalsSign], List.singleton_append]
  have hatValue : bytes = start ++ ascii "format" ++ before ++ [equalsSign] ++ after ++
      (value ++ (trailing ++ rest)) := by
    rw [hatAfter, List.append_assoc _ after]
  have hatTrailing : bytes = start ++ ascii "format" ++ before ++ [equalsSign] ++ after ++ value ++
      (trailing ++ rest) := by
    rw [hatValue, List.append_assoc _ value]
  have hatRest : bytes = start ++ ascii "format" ++ before ++ [equalsSign] ++ after ++ value ++ trailing ++ rest := by
    rw [hatTrailing, List.append_assoc _ trailing]
  have hkey : declarationAt bytes + 6 = (start ++ ascii "format").length := by
    rw [hdeclaration, List.length_append]
    rfl
  refine ⟨(start ++ ascii "format" ++ before).length,
    (start ++ ascii "format" ++ before ++ [equalsSign] ++ after).length,
    (start ++ ascii "format" ++ before ++ [equalsSign] ++ after ++ value).length,
    (start ++ ascii "format" ++ before ++ [equalsSign] ++ after ++ value ++ trailing).length,
    ?_, ?_, ?_, ?_, ?_, ?_, ?_, ?_, ?_⟩
  · rw [hdeclaration, hbytes, List.drop_left]
    rfl
  · rw [hkey, ← List.head?_drop, hatKey, List.drop_left]
    cases before with
    | nil => rfl
    | cons blank before => simp [hbefore blank List.mem_cons_self]
  · rw [hkey]
    apply skipWhile_append hatKey hbefore
    rintro byte ⟨⟩
    decide
  · rw [← List.head?_drop, hatSign, List.drop_left]
    rfl
  · rw [← List.length_concat (a := equalsSign), List.concat_eq_append]
    exact skipWhile_append hatAfter hafter (head_value hne hvalue)
  · exact skipWhile_append hatValue hvalue (head_trailing htrailing hends)
  · dsimp only [sliceSpan, ByteSpan.size]
    rw [@List.length_append _ _ value, Nat.add_sub_cancel_left, hatValue, List.drop_left, List.take_left]
  · exact skipWhile_append hatTrailing htrailing hends.not_blank
  · rw [← List.head?_drop, hatRest, List.drop_left]
    cases rest with
    | nil => rfl
    | cons byte rest => simp [hends byte rfl]

/-! ## Canonical decimals -/

theorem ofNat_digit {digit : UInt8} (h : 0x30 ≤ digit) : UInt8.ofNat (0x30 + (digit.toNat - 0x30)) = digit := by
  have hle : 0x30 ≤ digit.toNat := UInt8.le_iff_toNat_le.mp h
  rw [Nat.add_sub_cancel' hle, UInt8.ofNat_toNat]

theorem isCanonicalDecimal_iff {value : Bytes} :
    isCanonicalDecimal value = true ↔
      value ≠ [] ∧ (∀ digit ∈ value, 0x30 ≤ digit ∧ digit ≤ 0x39) ∧ (value = ascii "0" ∨ value.head? ≠ some 0x30) := by
  simp [isCanonicalDecimal, and_assoc]

/-- The canonical decimals are the numbers, written as `std::to_string` writes them. -/
theorem isCanonicalDecimal_iff_exists {value : Bytes} :
    isCanonicalDecimal value = true ↔ ∃ number, value = decimalBytes number := by
  constructor
  · intro h
    obtain ⟨hne, hdigits, hcanonical⟩ := isCanonicalDecimal_iff.mp h
    by_cases hzero : value = ascii "0"
    · exact ⟨0, hzero⟩
    · have hhead := hcanonical.resolve_left hzero
      have hall : ∀ digit ∈ (value.map fun byte => byte.toNat - 0x30).reverse, digit < 10 := by
        intro digit hdigit
        obtain ⟨byte, hbyte, rfl⟩ := List.mem_map.mp (List.mem_reverse.mp hdigit)
        have hle := UInt8.le_iff_toNat_le.mp (hdigits byte hbyte).2
        have hnine : (0x39 : UInt8).toNat = 0x39 := rfl
        omega
      have hlast : ∀ h, (value.map fun byte => byte.toNat - 0x30).reverse.getLast h ≠ 0 := by
        intro hmap hfirst
        rw [List.getLast_reverse, List.head_map] at hfirst
        have hle := UInt8.le_iff_toNat_le.mp (hdigits _ (List.head_mem hne)).1
        have hthirty : (0x30 : UInt8).toNat = 0x30 := rfl
        refine hhead (List.head_eq_iff_head?_eq_some hne |>.mp (UInt8.toNat_inj.mp ?_))
        omega
      have hback := Nat.digits_ofDigits 10 (by decide) _ hall hlast
      have hnumber : Nat.ofDigits 10 (value.map fun byte => byte.toNat - 0x30).reverse ≠ 0 := by
        intro hnone
        rw [hnone, Nat.digits_zero] at hback
        exact hne (by simpa using hback.symm)
      refine ⟨Nat.ofDigits 10 (value.map fun byte => byte.toNat - 0x30).reverse, ?_⟩
      rw [decimalBytes, if_neg hnumber, hback, List.reverse_reverse, List.map_map]
      exact (List.map_id value).symm.trans (List.map_congr_left fun byte hbyte => (ofNat_digit (hdigits byte hbyte).1).symm)
  · rintro ⟨number, rfl⟩
    obtain ⟨hne, hdigits, -⟩ := decimalBytes_digits number
    rw [isCanonicalDecimal_iff]
    refine ⟨hne, fun digit hmem => by simpa [isDigit] using hdigits digit hmem, ?_⟩
    by_cases hnumber : number = 0
    · exact Or.inl (by rw [hnumber]; rfl)
    · exact Or.inr (decimalBytes_head hnumber)

/-! ## The probe -/

theorem isValueByte_of_digit {digit : UInt8} (h : 0x30 ≤ digit ∧ digit ≤ 0x39) : isValueByte digit = true := by
  have hne : ∀ byte : UInt8, byte < 0x30 → digit ≠ byte := by
    rintro byte hlt rfl
    exact absurd h.1 (UInt8.not_le.mpr hlt)
  simp [isValueByte, isHorizontalSpace, endsFormatLine, isNewline, hashSign, carriageReturn, lineFeed,
    hne 0x20 (by decide), hne 0x09 (by decide), hne 0x23 (by decide), hne 0x0d (by decide), hne 0x0a (by decide)]

theorem formatShape_iff {bytes value : Bytes} (h : isCanonicalDecimal value = true) :
    FormatShape bytes value ↔ ∃ equals first last final, ProbedLine bytes value equals first last final := by
  obtain ⟨hne, hdigits, -⟩ := isCanonicalDecimal_iff.mp h
  constructor
  · exact fun hshape => hshape.probed hne fun digit hmem => isValueByte_of_digit (hdigits digit hmem)
  · rintro ⟨equals, first, last, final, hline⟩
    exact hline.shape

/-- **The probe recognises the grammar exactly**, on every text: the version 1, the missing format and the format it does
not support, and every span it reports lies in the source. -/
theorem probeRulesFormat_grammar (source : SourceBuffer) :
    (∀ version, probeRulesFormat source = .ok version ↔ version = 1 ∧ FormatShape source.bytes (ascii "1")) ∧
      ((∃ diagnostic, probeRulesFormat source = .error diagnostic ∧ diagnostic.code = kFormatMissing) ↔
        ∃ bom text, (bom = [] ∨ bom = utf8Bom) ∧ OnlyLayout text ∧ source.bytes = bom ++ text) ∧
      ((∃ diagnostic, probeRulesFormat source = .error diagnostic ∧ diagnostic.code = kFormatUnsupported) ↔
        ∃ number, number ≠ 1 ∧ FormatShape source.bytes (decimalBytes number)) ∧
      ∀ diagnostic, probeRulesFormat source = .error diagnostic → source.isValidSpan diagnostic.primary = true := by
  have hresult := probeResult source
  refine ⟨fun version => ⟨fun h => ?_, ?_⟩, ⟨?_, ?_⟩, ⟨?_, ?_⟩, fun diagnostic h => ?_⟩
  · rw [h] at hresult
    generalize hok : (Except.ok version : Except Diagnostic Nat) = result at hresult
    cases hresult with
    | missing => cases hok
    | invalid => cases hok
    | line hline =>
        obtain ⟨hversion, rfl⟩ := formatVerdict_eq_ok_iff.mp hok.symm
        exact ⟨hversion, hline.shape⟩
  · rintro ⟨rfl, hshape⟩
    obtain ⟨equals, first, last, final, hline⟩ := (formatShape_iff (by decide)).mp hshape
    rw [probeRulesFormat_of_line hline]
    exact formatVerdict_eq_ok_iff.mpr ⟨rfl, rfl⟩
  · rintro ⟨diagnostic, h, hcode⟩
    have hreport := (probeRulesFormat_error h).2
    rw [hcode] at hreport
    rcases hreport with ⟨-, hend⟩ | hinvalid | ⟨hunsupported, -⟩
    · exact (declarationAt_eq_length_iff _).mp hend
    · exact absurd hinvalid (show kFormatMissing ≠ kFormatInvalid by decide)
    · exact absurd hunsupported (show kFormatMissing ≠ kFormatUnsupported by decide)
  · intro hlayout
    have hend := (declarationAt_eq_length_iff _).mpr hlayout
    generalize probeRulesFormat source = result at hresult
    cases hresult with
    | missing => exact ⟨_, rfl, rfl⟩
    | invalid _ hne => exact absurd hend hne
    | line hline => exact absurd hend hline.declaration_ne
  · rintro ⟨diagnostic, h, hcode⟩
    have hreport := (probeRulesFormat_error h).2
    rw [hcode] at hreport
    rcases hreport with ⟨hmissing, -⟩ | hinvalid | ⟨-, value, equals, first, last, final, hline, hdecimal, hone⟩
    · exact absurd hmissing (show kFormatUnsupported ≠ kFormatMissing by decide)
    · exact absurd hinvalid (show kFormatUnsupported ≠ kFormatInvalid by decide)
    · obtain ⟨number, rfl⟩ := isCanonicalDecimal_iff_exists.mp hdecimal
      refine ⟨number, ?_, hline.shape⟩
      rintro rfl
      exact hone rfl
  · rintro ⟨number, hnumber, hshape⟩
    have hdecimal := isCanonicalDecimal_iff_exists.mpr ⟨number, rfl⟩
    have hone : decimalBytes number ≠ ascii "1" := fun heq =>
      hnumber (decimalBytes_injective (heq.trans (show ascii "1" = decimalBytes 1 by decide)))
    obtain ⟨equals, first, last, final, hline⟩ := (formatShape_iff hdecimal).mp hshape
    rw [probeRulesFormat_of_line hline, formatVerdict, if_neg hone, if_pos hdecimal]
    exact ⟨_, rfl, rfl⟩
  · unfold SourceBuffer.isValidSpan
    rw [Bool.and_eq_true, decide_eq_true_eq, decide_eq_true_eq]
    exact (probeRulesFormat_error h).1

end PathGuard.Rules

import PathGuard.Lib.Utf8

/-!
# Visual skeletons

`rules/src/tools.cpp`, `DecodeCodePoint`, `AppendCodePoint` and `VisualSkeleton`: what the linter compares paths by. A byte
that begins no code point stands for itself, so that every string has code points.

* `codePoints`, `foldCodePoint` : the code points of a text, and what each is folded to;
* `codePoints_visualSkeleton` : the skeleton has the folded ones;
* `visualSkeleton_text` : of texts, it is the same exactly when they fold alike, and is its own.
-/

namespace PathGuard.Rules

/-! ## Code points -/

/-- The width that a lead byte announces, and its bits. -/
def decodeLead (lead : UInt8) : Nat × Nat :=
  if lead &&& 0xe0 = 0xc0 then (2, (lead &&& 0x1f).toNat)
  else if lead &&& 0xf0 = 0xe0 then (3, (lead &&& 0x0f).toNat)
  else if lead &&& 0xf8 = 0xf0 then (4, (lead &&& 0x07).toNat)
  else (1, lead.toNat)

/-- The loop of `DecodeCodePoint`. -/
def continueCodePoint : Nat → Bytes → Option Nat
  | value, [] => some value
  | value, byte :: bytes =>
      if byte &&& 0xc0 ≠ 0x80 then none else continueCodePoint (value <<< 6 ||| (byte &&& 0x3f).toNat) bytes

/-- `DecodeCodePoint`, and by how many bytes the offset goes on. -/
def decodeCodePoint (lead : UInt8) (rest : Bytes) : Nat × Nat :=
  let (width, value) := decodeLead lead
  if rest.length + 1 < width then (lead.toNat, 1)
  else
    match continueCodePoint value (rest.take (width - 1)) with
    | none => (lead.toNat, 1)
    | some value => (value, width)

def appendCodePoint (value : Nat) : Bytes :=
  if value ≤ 0x7f then [UInt8.ofNat value]
  else if value ≤ 0x7ff then [UInt8.ofNat (0xc0 ||| value >>> 6), UInt8.ofNat (0x80 ||| (value &&& 0x3f))]
  else if value ≤ 0xffff then
    [UInt8.ofNat (0xe0 ||| value >>> 12), UInt8.ofNat (0x80 ||| (value >>> 6 &&& 0x3f)),
      UInt8.ofNat (0x80 ||| (value &&& 0x3f))]
  else
    [UInt8.ofNat (0xf0 ||| value >>> 18), UInt8.ofNat (0x80 ||| (value >>> 12 &&& 0x3f)),
      UInt8.ofNat (0x80 ||| (value >>> 6 &&& 0x3f)), UInt8.ofNat (0x80 ||| (value &&& 0x3f))]

/-- `std::tolower`. -/
def toLowerCodePoint (value : Nat) : Nat := if 0x41 ≤ value ∧ value ≤ 0x5a then value + 0x20 else value

/-- What the loop of `VisualSkeleton` makes of a code point; it leaves out combining marks. -/
def foldCodePoint (value : Nat) : Option Nat :=
  if 0x0300 ≤ value ∧ value ≤ 0x036f then none
  else
    let value := if 0xff01 ≤ value ∧ value ≤ 0xff5e then value - 0xfee0 else value
    some (if value ≤ 0x7f then toLowerCodePoint value else value)

/-- The loop of `VisualSkeleton`; `skip` counts the bytes of a code point that are still to be passed over. -/
def skeletonFrom : Nat → Bytes → Bytes
  | _, [] => []
  | skip + 1, _ :: rest => skeletonFrom skip rest
  | 0, lead :: rest =>
      let (value, width) := decodeCodePoint lead rest
      match foldCodePoint value with
      | none => skeletonFrom (width - 1) rest
      | some value => appendCodePoint value ++ skeletonFrom (width - 1) rest

def visualSkeleton (input : Bytes) : Bytes := skeletonFrom 0 input

/-- The code points that the loop comes upon. -/
def codePointsFrom : Nat → Bytes → List Nat
  | _, [] => []
  | skip + 1, _ :: rest => codePointsFrom skip rest
  | 0, lead :: rest => (decodeCodePoint lead rest).1 :: codePointsFrom ((decodeCodePoint lead rest).2 - 1) rest

def codePoints (input : Bytes) : List Nat := codePointsFrom 0 input

/-- The code points of the skeleton. -/
def foldedCodePoints (input : Bytes) : List Nat := (codePoints input).filterMap foldCodePoint

theorem skeletonFrom_eq (skip : Nat) (input : Bytes) :
    skeletonFrom skip input = ((codePointsFrom skip input).filterMap foldCodePoint).flatMap appendCodePoint := by
  induction input generalizing skip with
  | nil => cases skip <;> rfl
  | cons lead rest ih =>
      cases skip with
      | succ skip => exact ih skip
      | zero =>
          rw [skeletonFrom, codePointsFrom, List.filterMap_cons]
          cases hfold : foldCodePoint (decodeCodePoint lead rest).1 with
          | none =>
              simp only [hfold]
              exact ih _
          | some value =>
              simp only [hfold, List.flatMap_cons]
              rw [← ih]

/-! ## What is appended is decoded again -/

/-- Code points of four bytes at most. -/
def codePointLimit : Nat := 2 ^ 21

theorem decodeLead_two {high : Nat} (h : high < 32) : decodeLead (UInt8.ofNat (0xc0 ||| high)) = (2, high) := by
  revert high
  decide

theorem decodeLead_three {high : Nat} (h : high < 16) : decodeLead (UInt8.ofNat (0xe0 ||| high)) = (3, high) := by
  revert high
  decide

theorem decodeLead_four {high : Nat} (h : high < 8) : decodeLead (UInt8.ofNat (0xf0 ||| high)) = (4, high) := by
  revert high
  decide

theorem decodeLead_one {value : Nat} (h : value < 128) : decodeLead (UInt8.ofNat value) = (1, value) := by
  revert value
  decide

theorem continuation_byte {low : Nat} (h : low < 64) : UInt8.ofNat (0x80 ||| low) &&& 0xc0 = 0x80 ∧
    (UInt8.ofNat (0x80 ||| low) &&& 0x3f).toNat = low := by
  revert low
  decide

theorem low_lt (value : Nat) : value &&& 0x3f < 64 := Nat.and_lt_two_pow value (show 0x3f < 2 ^ 6 by decide)

theorem high_low (value : Nat) : value >>> 6 <<< 6 ||| (value &&& 0x3f) = value := by
  rw [← Nat.shiftLeft_add_eq_or_of_lt (low_lt value), Nat.shiftLeft_eq, Nat.shiftRight_eq_div_pow,
    show value &&& 0x3f = value % 2 ^ 6 from Nat.and_two_pow_sub_one_eq_mod value 6]
  exact Nat.div_add_mod' value (2 ^ 6)

theorem continueCodePoint_append (value : Nat) (bytes : Bytes) :
    continueCodePoint (value >>> 6) (UInt8.ofNat (0x80 ||| (value &&& 0x3f)) :: bytes) = continueCodePoint value bytes := by
  obtain ⟨hmark, hlow⟩ := continuation_byte (low_lt value)
  rw [continueCodePoint, if_neg (not_not.mpr hmark), hlow, high_low]

/-- What `AppendCodePoint` writes is a lead byte and the continuation that it announces. -/
theorem appendCodePoint_shape {value : Nat} (h : value < codePointLimit) :
    ∃ lead more high, appendCodePoint value = lead :: more ∧ decodeLead lead = (more.length + 1, high) ∧
      continueCodePoint high more = some value := by
  rw [codePointLimit] at h
  rw [appendCodePoint]
  split
  · next hone => exact ⟨_, [], value, rfl, decodeLead_one (Nat.lt_succ_of_le hone), rfl⟩
  · split
    · next htwo =>
      have hhigh : value >>> 6 < 32 := by
        rw [Nat.shiftRight_eq_div_pow]
        omega
      refine ⟨_, _, _, rfl, decodeLead_two hhigh, ?_⟩
      rw [continueCodePoint_append]
      rfl
    · split
      · next hthree =>
        have hhigh : value >>> 12 < 16 := by
          rw [Nat.shiftRight_eq_div_pow]
          omega
        refine ⟨_, _, _, rfl, decodeLead_three hhigh, ?_⟩
        rw [show value >>> 12 = value >>> 6 >>> 6 from Nat.shiftRight_add value 6 6, continueCodePoint_append,
          continueCodePoint_append]
        rfl
      · have hhigh : value >>> 18 < 8 := by
          rw [Nat.shiftRight_eq_div_pow]
          omega
        refine ⟨_, _, _, rfl, decodeLead_four hhigh, ?_⟩
        rw [show value >>> 18 = value >>> 12 >>> 6 from Nat.shiftRight_add value 12 6, continueCodePoint_append,
          show value >>> 12 = value >>> 6 >>> 6 from Nat.shiftRight_add value 6 6, continueCodePoint_append,
          continueCodePoint_append]
        rfl

theorem codePointsFrom_skip (more rest : Bytes) : codePointsFrom more.length (more ++ rest) = codePoints rest := by
  induction more with
  | nil => rfl
  | cons byte more ih => exact ih

theorem codePoints_append {value : Nat} (h : value < codePointLimit) (rest : Bytes) :
    codePoints (appendCodePoint value ++ rest) = value :: codePoints rest := by
  obtain ⟨lead, more, high, heq, hlead, hcontinue⟩ := appendCodePoint_shape h
  have hdecode : decodeCodePoint lead (more ++ rest) = (value, more.length + 1) := by
    rw [decodeCodePoint, hlead]
    simp only [List.length_append, Nat.add_sub_cancel, List.take_left, hcontinue]
    exact if_neg (by omega)
  rw [heq, List.cons_append, codePoints, codePointsFrom, hdecode]
  simp only [Nat.add_sub_cancel, codePointsFrom_skip]

theorem codePoints_flatMap {values : List Nat} (h : ∀ value ∈ values, value < codePointLimit) :
    codePoints (values.flatMap appendCodePoint) = values := by
  induction values with
  | nil => rfl
  | cons value values ih =>
      rw [List.forall_mem_cons] at h
      rw [List.flatMap_cons, codePoints_append h.1, ih h.2]

/-! ## What is decoded -/

theorem continueCodePoint_lt {value result : Nat} {bytes : Bytes} (h : continueCodePoint value bytes = some result) :
    result < (value + 1) * 64 ^ bytes.length := by
  induction bytes generalizing value with
  | nil =>
      obtain rfl := Option.some.inj h
      simp
  | cons byte bytes ih =>
      rw [continueCodePoint] at h
      split at h
      · cases h
      · have hlow : (byte &&& 0x3f).toNat < 64 := by
          rw [UInt8.toNat_and]
          exact Nat.and_lt_two_pow _ (show (0x3f : UInt8).toNat < 2 ^ 6 by decide)
        have hresult := ih h
        rw [← Nat.shiftLeft_add_eq_or_of_lt hlow, Nat.shiftLeft_eq] at hresult
        calc result < (value * 2 ^ 6 + (byte &&& 0x3f).toNat + 1) * 64 ^ bytes.length := hresult
          _ ≤ ((value + 1) * 64) * 64 ^ bytes.length := Nat.mul_le_mul_right _ (by omega)
          _ = (value + 1) * 64 ^ (byte :: bytes).length := by rw [List.length_cons, pow_succ', mul_assoc]

theorem decodeLead_le (lead : UInt8) :
    ((decodeLead lead).2 + 1) * 64 ^ ((decodeLead lead).1 - 1) ≤ codePointLimit := by
  have hbits : ∀ (mask : UInt8) (width : Nat), mask.toNat < 2 ^ width → (lead &&& mask).toNat < 2 ^ width :=
    fun mask width hmask => by
      rw [UInt8.toNat_and]
      exact Nat.and_lt_two_pow _ hmask
  rw [codePointLimit, decodeLead]
  split
  · have hlt := hbits 0x1f 5 (by decide)
    simp only
    omega
  · split
    · have hlt := hbits 0x0f 4 (by decide)
      simp only
      omega
    · split
      · have hlt := hbits 0x07 3 (by decide)
        simp only
        omega
      · have hlt := lead.toNat_lt
        simp only
        omega

theorem decodeCodePoint_lt (lead : UInt8) (rest : Bytes) : (decodeCodePoint lead rest).1 < codePointLimit := by
  have hlead : lead.toNat < codePointLimit := lead.toNat_lt.trans (by decide)
  rw [decodeCodePoint]
  simp only
  split
  · exact hlead
  · next hlong =>
    cases hcontinue : continueCodePoint (decodeLead lead).2 (rest.take ((decodeLead lead).1 - 1)) with
    | none => exact hlead
    | some value =>
        have hlength : (rest.take ((decodeLead lead).1 - 1)).length = (decodeLead lead).1 - 1 := by
          rw [List.length_take]
          omega
        have hlt := continueCodePoint_lt hcontinue
        rw [hlength] at hlt
        exact Nat.lt_of_lt_of_le hlt (decodeLead_le lead)

theorem codePointsFrom_lt (skip : Nat) (input : Bytes) : ∀ value ∈ codePointsFrom skip input, value < codePointLimit := by
  induction input generalizing skip with
  | nil => cases skip <;> exact List.forall_mem_nil _
  | cons lead rest ih =>
      cases skip with
      | succ skip => exact ih skip
      | zero => exact List.forall_mem_cons.mpr ⟨decodeCodePoint_lt lead rest, ih _⟩

/-! ## The skeleton -/

theorem foldCodePoint_lt {value folded : Nat} (h : foldCodePoint value = some folded) (hvalue : value < codePointLimit) :
    folded < codePointLimit := by
  unfold foldCodePoint toLowerCodePoint at h
  unfold codePointLimit at *
  grind

theorem foldCodePoint_fold {value folded : Nat} (h : foldCodePoint value = some folded) :
    foldCodePoint folded = some folded := by
  unfold foldCodePoint toLowerCodePoint at *
  grind

theorem foldedCodePoints_lt (input : Bytes) : ∀ value ∈ foldedCodePoints input, value < codePointLimit := by
  intro folded hfolded
  obtain ⟨value, hvalue, hfold⟩ := List.mem_filterMap.mp hfolded
  exact foldCodePoint_lt hfold (codePointsFrom_lt 0 input value hvalue)

theorem visualSkeleton_eq (input : Bytes) : visualSkeleton input = (foldedCodePoints input).flatMap appendCodePoint :=
  skeletonFrom_eq 0 input

theorem codePoints_visualSkeleton (input : Bytes) : codePoints (visualSkeleton input) = foldedCodePoints input := by
  rw [visualSkeleton_eq, codePoints_flatMap (foldedCodePoints_lt input)]

theorem filterMap_foldCodePoint (values : List Nat) :
    (values.filterMap foldCodePoint).filterMap foldCodePoint = values.filterMap foldCodePoint := by
  rw [List.filterMap_filterMap]
  refine List.filterMap_congr fun value _ => ?_
  cases hfold : foldCodePoint value with
  | none => rfl
  | some folded => exact foldCodePoint_fold hfold

theorem visualSkeleton_inj {input other : Bytes} :
    visualSkeleton input = visualSkeleton other ↔ foldedCodePoints input = foldedCodePoints other := by
  constructor
  · intro h
    rw [← codePoints_visualSkeleton, ← codePoints_visualSkeleton, h]
  · intro h
    rw [visualSkeleton_eq, visualSkeleton_eq, h]

theorem visualSkeleton_idem (input : Bytes) : visualSkeleton (visualSkeleton input) = visualSkeleton input := by
  rw [visualSkeleton_inj, foldedCodePoints, codePoints_visualSkeleton, foldedCodePoints, filterMap_foldCodePoint]

/-! ## Texts -/

theorem appendCodePoint_char (c : Char) : appendCodePoint c.toNat = String.utf8EncodeChar c := by
  have hlimit : c.toNat < 0x110000 := by
    rcases c.valid with hlow | hhigh
    · exact hlow.trans (by decide)
    · exact hhigh.2
  have hor : ∀ base low width : Nat, base % 2 ^ width = 0 → low < 2 ^ width → base ||| low = low + base := by
    intro base low width hbase hlow
    obtain ⟨high, rfl⟩ := Nat.dvd_of_mod_eq_zero hbase
    rw [Nat.mul_comm, ← Nat.shiftLeft_eq, ← Nat.shiftLeft_add_eq_or_of_lt hlow, Nat.add_comm]
  have hmask : ∀ value : Nat, value &&& 0x3f = value % 0x40 := fun value => Nat.and_two_pow_sub_one_eq_mod value 6
  have hlow : ∀ value : Nat, 0x80 ||| value % 0x40 = value % 0x40 + 0x80 := fun value =>
    hor 0x80 _ 6 rfl (Nat.mod_lt _ (by decide))
  rw [appendCodePoint, String.utf8EncodeChar]
  change _ = if c.toNat ≤ 0x7f then _ else _
  split
  · rfl
  · change _ = if c.toNat ≤ 0x7ff then _ else _
    split
    · rw [hmask, hlow, Nat.shiftRight_eq_div_pow, hor 0xc0 _ 5 rfl (by omega)]
      change _ = [UInt8.ofNat (c.toNat / 64 % 0x20 + 0xc0), UInt8.ofNat (c.toNat % 0x40 + 0x80)]
      rw [Nat.mod_eq_of_lt (show c.toNat / 64 < 0x20 by omega)]
    · change _ = if c.toNat ≤ 0xffff then _ else _
      split
      · rw [hmask, hmask, hlow, hlow, Nat.shiftRight_eq_div_pow, Nat.shiftRight_eq_div_pow, hor 0xe0 _ 4 rfl (by omega)]
        change _ = [UInt8.ofNat (c.toNat / 4096 % 0x10 + 0xe0), UInt8.ofNat (c.toNat / 64 % 0x40 + 0x80),
          UInt8.ofNat (c.toNat % 0x40 + 0x80)]
        rw [Nat.mod_eq_of_lt (show c.toNat / 4096 < 0x10 by omega)]
      · rw [hmask, hmask, hmask, hlow, hlow, hlow, Nat.shiftRight_eq_div_pow, Nat.shiftRight_eq_div_pow,
          Nat.shiftRight_eq_div_pow, hor 0xf0 _ 3 rfl (by omega)]
        change _ = [UInt8.ofNat (c.toNat / 262144 % 0x08 + 0xf0), UInt8.ofNat (c.toNat / 4096 % 0x40 + 0x80),
          UInt8.ofNat (c.toNat / 64 % 0x40 + 0x80), UInt8.ofNat (c.toNat % 0x40 + 0x80)]
        rw [Nat.mod_eq_of_lt (show c.toNat / 262144 < 0x08 by omega)]

theorem codePoints_utf8 (text : List Char) : codePoints (utf8 text) = text.map Char.toNat := by
  have hlimit : ∀ value ∈ text.map Char.toNat, value < codePointLimit := by
    rw [List.forall_mem_map]
    intro c _
    rcases c.valid with hlow | hhigh
    · exact hlow.trans (by decide)
    · exact hhigh.2.trans (by decide)
  rw [← codePoints_flatMap hlimit, utf8, List.flatMap_map]
  exact congrArg codePoints (List.flatMap_congr fun c _ => (appendCodePoint_char c).symm)

/-- **What a skeleton tells apart.** Two texts have one skeleton if and only if they are the same once combining marks are
left out, fullwidth forms are made ASCII and ASCII letters small; a skeleton is its own skeleton, whatever the bytes. -/
theorem visualSkeleton_text (text other : List Char) (input : Bytes) :
    (visualSkeleton (utf8 text) = visualSkeleton (utf8 other) ↔
      text.filterMap (fun c => foldCodePoint c.toNat) = other.filterMap fun c => foldCodePoint c.toNat) ∧
    visualSkeleton (visualSkeleton input) = visualSkeleton input := by
  refine ⟨?_, visualSkeleton_idem input⟩
  rw [visualSkeleton_inj, foldedCodePoints, foldedCodePoints, codePoints_utf8, codePoints_utf8, List.filterMap_map,
    List.filterMap_map]
  rfl

end PathGuard.Rules

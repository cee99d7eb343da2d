import PathGuard.Lib.Bytes

/-!
# Octal escapes

A text in which some bytes are written as a backslash and three octal digits. Readers differ in the values they take:
`accept` is what a reader makes of the number that the digits are.

* `escape`, `decode` : writing and reading; `decode_escape` : what is written is read;
* `Reads` : which texts are read, and as what; `decode_iff` : the reader computes it.
-/

namespace PathGuard.Octal

def escapeMark : UInt8 := 0x5c

def isOctalDigit (byte : UInt8) : Bool := 0x30 ≤ byte && byte ≤ 0x37

def octalValue (first second third : UInt8) : Nat :=
  (first.toNat - 0x30) * 64 + (second.toNat - 0x30) * 8 + (third.toNat - 0x30)

def decode (accept : Nat → Option UInt8) : Bytes → Option Bytes
  | [] => some []
  | byte :: rest =>
      if byte ≠ escapeMark then (decode accept rest).map (byte :: ·)
      else
        match rest with
        | first :: second :: third :: rest =>
            if isOctalDigit first && isOctalDigit second && isOctalDigit third then
              (accept (octalValue first second third)).bind fun value => (decode accept rest).map (value :: ·)
            else none
        | _ => none

def escapeByte (byte : UInt8) : Bytes :=
  [escapeMark, 0x30 + byte / 64, 0x30 + byte / 8 % 8, 0x30 + byte % 8]

/-- The special bytes are escaped. -/
def escape (special : UInt8 → Bool) (text : Bytes) : Bytes :=
  text.flatMap fun byte => if special byte then escapeByte byte else [byte]

section Decode
variable {accept : Nat → Option UInt8}

theorem decode_cons {byte : UInt8} (h : byte ≠ escapeMark) (rest : Bytes) :
    decode accept (byte :: rest) = (decode accept rest).map (byte :: ·) := by
  rw [decode.eq_def]
  exact if_pos h

theorem escapeByte_digits (byte : UInt8) :
    (isOctalDigit (0x30 + byte / 64) && isOctalDigit (0x30 + byte / 8 % 8) && isOctalDigit (0x30 + byte % 8)) = true ∧
      octalValue (0x30 + byte / 64) (0x30 + byte / 8 % 8) (0x30 + byte % 8) = byte.toNat := by
  have hbyte := byte.toNat_lt
  have hfirst : (0x30 + byte / 64).toNat = 0x30 + byte.toNat / 64 := by
    rw [UInt8.toNat_add, UInt8.toNat_div]
    exact Nat.mod_eq_of_lt (show 0x30 + byte.toNat / 64 < 2 ^ 8 by omega)
  have hsecond : (0x30 + byte / 8 % 8).toNat = 0x30 + byte.toNat / 8 % 8 := by
    rw [UInt8.toNat_add, UInt8.toNat_mod, UInt8.toNat_div]
    exact Nat.mod_eq_of_lt (show 0x30 + byte.toNat / 8 % 8 < 2 ^ 8 by omega)
  have hthird : (0x30 + byte % 8).toNat = 0x30 + byte.toNat % 8 := by
    rw [UInt8.toNat_add, UInt8.toNat_mod]
    exact Nat.mod_eq_of_lt (show 0x30 + byte.toNat % 8 < 2 ^ 8 by omega)
  simp only [isOctalDigit, octalValue, Bool.and_eq_true, decide_eq_true_eq, UInt8.le_iff_toNat_le, hfirst, hsecond,
    hthird]
  rw [show (0x30 : UInt8).toNat = 0x30 from rfl, show (0x37 : UInt8).toNat = 0x37 from rfl]
  omega

theorem decode_escapeByte (byte : UInt8) (rest : Bytes) :
    decode accept (escapeByte byte ++ rest) =
      (accept byte.toNat).bind fun value => (decode accept rest).map (value :: ·) := by
  obtain ⟨hdigits, hvalue⟩ := escapeByte_digits byte
  rw [escapeByte, List.cons_append, List.cons_append, List.cons_append, List.cons_append, List.nil_append, decode,
    if_neg (not_not.mpr rfl)]
  rw [if_pos hdigits, hvalue]

/-- What is escaped is read back, when the reader takes the values of the special bytes. -/
theorem decode_escape {special : UInt8 → Bool} (hmark : special escapeMark = true) {text : Bytes}
    (haccept : ∀ byte ∈ text, special byte = true → accept byte.toNat = some byte) :
    decode accept (escape special text) = some text := by
  induction text with
  | nil => rfl
  | cons byte text ih =>
      rw [List.forall_mem_cons] at haccept
      have hcons : escape special (byte :: text) =
          (if special byte then escapeByte byte else [byte]) ++ escape special text := rfl
      rw [hcons]
      by_cases hspecial : special byte = true
      · rw [if_pos hspecial, decode_escapeByte, haccept.1 hspecial, ih haccept.2]
        rfl
      · have hne : byte ≠ escapeMark := fun heq => hspecial (heq ▸ hmark)
        rw [if_neg hspecial, List.singleton_append, decode_cons hne, ih haccept.2]
        rfl

/-- How a text that is read is made: of plain bytes and of escapes. -/
inductive Reads (accept : Nat → Option UInt8) : Bytes → Bytes → Prop
  | nil : Reads accept [] []
  | plain {byte : UInt8} {text output : Bytes} (hne : byte ≠ escapeMark) (h : Reads accept text output) :
      Reads accept (byte :: text) (byte :: output)
  | escaped {first second third value : UInt8} {text output : Bytes}
      (hdigits : (isOctalDigit first && isOctalDigit second && isOctalDigit third) = true)
      (hvalue : accept (octalValue first second third) = some value) (h : Reads accept text output) :
      Reads accept (escapeMark :: first :: second :: third :: text) (value :: output)

theorem decode_escaped {first second third : UInt8}
    (h : (isOctalDigit first && isOctalDigit second && isOctalDigit third) = true) (rest : Bytes) :
    decode accept (escapeMark :: first :: second :: third :: rest) =
      (accept (octalValue first second third)).bind fun value => (decode accept rest).map (value :: ·) := by
  rw [decode, if_neg (not_not.mpr rfl)]
  exact if_pos h

theorem decode_iff {text output : Bytes} : decode accept text = some output ↔ Reads accept text output := by
  constructor
  · intro h
    induction text using decode.induct generalizing output with
    | case1 =>
        obtain rfl : [] = output := Option.some.inj h
        exact .nil
    | case2 byte text hne ih =>
        rw [decode_cons hne, Option.map_eq_some_iff] at h
        obtain ⟨output', hread, rfl⟩ := h
        exact .plain hne (ih hread)
    | case3 byte hmark first second third text hdigits ih =>
        obtain rfl : byte = escapeMark := not_not.mp hmark
        rw [decode_escaped hdigits] at h
        simp only [Option.bind_eq_some_iff, Option.map_eq_some_iff] at h
        obtain ⟨value, hvalue, output', hread, rfl⟩ := h
        exact .escaped hdigits hvalue (ih hread)
    | case4 byte hmark first second third text hdigits =>
        rw [decode, if_neg hmark] at h
        simp only [if_neg hdigits, reduceCtorEq] at h
    | case5 byte text hmark hshort =>
        rw [decode, if_neg hmark] at h
        · cases h
        · exact hshort
  · intro h
    induction h with
    | nil => rfl
    | plain hne _ ih => rw [decode_cons hne, ih, Option.map_some]
    | escaped hdigits hvalue _ ih => rw [decode_escaped hdigits, hvalue, Option.bind_some, ih, Option.map_some]

theorem Reads.decode_append {text output : Bytes} (h : Reads accept text output) (rest : Bytes) :
    decode accept (text ++ rest) = (decode accept rest).map (output ++ ·) := by
  induction h with
  | nil => simp
  | plain hne _ ih =>
      rw [List.cons_append, decode_cons hne, ih, Option.map_map]
      rfl
  | escaped hdigits hvalue _ ih =>
      rw [List.cons_append, List.cons_append, List.cons_append, List.cons_append, decode_escaped hdigits, hvalue,
        Option.bind_some, ih, Option.map_map]
      rfl

theorem Reads.mono {accept' : Nat → Option UInt8} (haccept : ∀ value byte, accept value = some byte →
    accept' value = some byte) {text output : Bytes} (h : Reads accept text output) : Reads accept' text output := by
  induction h with
  | nil => exact .nil
  | plain hne _ ih => exact .plain hne ih
  | escaped hdigits hvalue _ ih => exact .escaped hdigits (haccept _ _ hvalue) ih

/-- A byte that no escape stands for and that is not part of one is read where it is. -/
theorem Reads.mem_iff {byte : UInt8} (hmark : byte ≠ escapeMark) (hdigit : isOctalDigit byte = false)
    (haccept : ∀ value, accept value ≠ some byte) {text output : Bytes} (h : Reads accept text output) :
    byte ∈ output ↔ byte ∈ text := by
  induction h with
  | nil => exact Iff.rfl
  | plain _ _ ih => rw [List.mem_cons, List.mem_cons, ih]
  | @escaped first second third value text output hdigits hvalue _ ih =>
      have hne : ∀ digit, isOctalDigit digit = true → byte ≠ digit := by
        rintro digit hoctal rfl
        rw [hdigit] at hoctal
        cases hoctal
      rw [Bool.and_eq_true, Bool.and_eq_true] at hdigits
      have hvalue' : byte ≠ value := fun heq => haccept _ (heq ▸ hvalue)
      simp only [List.mem_cons, hvalue', hmark, hne first hdigits.1.1, hne second hdigits.1.2, hne third hdigits.2,
        false_or, ih]

theorem Reads.eq_nil {text : Bytes} (h : Reads accept text []) : text = [] := by
  cases h
  rfl

theorem decode_of_notMem {text : Bytes} (h : escapeMark ∉ text) : decode accept text = some text := by
  induction text with
  | nil => rfl
  | cons byte text ih =>
      rw [List.mem_cons, not_or] at h
      rw [decode_cons (Ne.symm h.1), ih h.2]
      rfl

theorem escape_ne_nil {special : UInt8 → Bool} {text : Bytes} (h : text ≠ []) : escape special text ≠ [] := by
  obtain ⟨byte, text, rfl⟩ := List.exists_cons_of_ne_nil h
  rw [escape, List.flatMap_cons]
  split <;> exact List.cons_ne_nil _ _

theorem mem_escape {special : UInt8 → Bool} {text : Bytes} {byte : UInt8} (h : byte ∈ escape special text) :
    byte = escapeMark ∨ isOctalDigit byte = true ∨ byte ∈ text ∧ special byte = false := by
  rw [escape, List.mem_flatMap] at h
  obtain ⟨source, hsource, hbyte⟩ := h
  split at hbyte
  · obtain ⟨hdigits, -⟩ := escapeByte_digits source
    rw [Bool.and_eq_true, Bool.and_eq_true] at hdigits
    simp only [escapeByte, List.mem_cons, List.not_mem_nil, or_false] at hbyte
    rcases hbyte with rfl | rfl | rfl | rfl
    · exact Or.inl rfl
    · exact Or.inr (Or.inl hdigits.1.1)
    · exact Or.inr (Or.inl hdigits.1.2)
    · exact Or.inr (Or.inl hdigits.2)
  · next hspecial =>
    rw [List.mem_singleton] at hbyte
    subst hbyte
    exact Or.inr (Or.inr ⟨hsource, by simpa using hspecial⟩)

end Decode

end PathGuard.Octal

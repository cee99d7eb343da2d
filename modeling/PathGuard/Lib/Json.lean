import Mathlib.Data.List.TakeWhile
import PathGuard.Lib.Decimal
import PathGuard.Lib.Utf8

/-!
# JSON texts

What a JSON text stands for: `parse` reads a whole text, with all kinds of values, all escapes and the white space the
grammar allows; strings are the bytes of their UTF-8 encoding. `IsJson` adds that the text itself is UTF-8. An object
that is written member by member is read member by member (`parse_object`).

* `readString_plain`, `readString_escape`, `readsAs_number` : the units of the texts that a renderer writes;
* `readMembers_text`, `parse_object` : its members and its object.
-/

namespace PathGuard.Json

inductive Value
  | null
  | bool (value : Bool)
  /-- The number `mantissa * 10 ^ exponent`. -/
  | number (mantissa exponent : Int)
  | string (text : Bytes)
  | array (items : List Value)
  | object (members : List (Bytes × Value))

def quote : UInt8 := 0x22
def backslash : UInt8 := 0x5c
def comma : UInt8 := 0x2c
def colon : UInt8 := 0x3a
def openBrace : UInt8 := 0x7b
def closeBrace : UInt8 := 0x7d
def openBracket : UInt8 := 0x5b
def closeBracket : UInt8 := 0x5d

def isSpace (byte : UInt8) : Bool := byte == 0x20 || byte == 0x09 || byte == 0x0a || byte == 0x0d

def skipSpace (text : Bytes) : Bytes := text.dropWhile isSpace

/-! ## Strings -/

def hexValue (byte : UInt8) : Option Nat :=
  if 0x30 ≤ byte && byte ≤ 0x39 then some (byte.toNat - 0x30)
  else if 0x41 ≤ byte && byte ≤ 0x46 then some (byte.toNat - 0x41 + 10)
  else if 0x61 ≤ byte && byte ≤ 0x66 then some (byte.toNat - 0x61 + 10)
  else none

/-- Four hexadecimal digits. -/
def readHex (text : Bytes) : Option (Nat × Bytes) :=
  match text with
  | a :: b :: c :: d :: rest => do
      let a ← hexValue a
      let b ← hexValue b
      let c ← hexValue c
      let d ← hexValue d
      return (((a * 16 + b) * 16 + c) * 16 + d, rest)
  | _ => none

/-- What follows `\u`: one unit, or the two units of a character beyond the first plane. -/
def readUnicode (text : Bytes) : Option (Bytes × Bytes) := do
  let (unit, rest) ← readHex text
  if unit < 0xd800 || 0xe000 ≤ unit then return (String.utf8EncodeChar (Char.ofNat unit), rest)
  else if 0xdc00 ≤ unit || rest.take 2 ≠ [backslash, 0x75] then none
  else
    let (low, rest) ← readHex (rest.drop 2)
    if low < 0xdc00 || 0xe000 ≤ low then none
    else return (String.utf8EncodeChar (Char.ofNat (0x10000 + (unit - 0xd800) * 0x400 + (low - 0xdc00))), rest)

/-- What follows a backslash. -/
def readEscape (text : Bytes) : Option (Bytes × Bytes) :=
  match text with
  | [] => none
  | byte :: rest =>
      if byte = quote || byte = backslash || byte = 0x2f then some ([byte], rest)
      else if byte = 0x62 then some ([0x08], rest)
      else if byte = 0x66 then some ([0x0c], rest)
      else if byte = 0x6e then some ([0x0a], rest)
      else if byte = 0x72 then some ([0x0d], rest)
      else if byte = 0x74 then some ([0x09], rest)
      else if byte = 0x75 then readUnicode rest
      else none

/-- The inside of a string, with the quote that ends it. -/
def readString : Nat → Bytes → Option (Bytes × Bytes)
  | 0, _ => none
  | _ + 1, [] => none
  | fuel + 1, byte :: rest =>
      if byte = quote then some ([], rest)
      else if byte < 0x20 then none
      else
        match if byte = backslash then readEscape rest else some ([byte], rest) with
        | none => none
        | some (unit, rest) => (readString fuel rest).map fun (text, rest) => (unit ++ text, rest)

/-! ## Numbers -/

def readDigits (text : Bytes) : Option (Bytes × Bytes) :=
  if (text.takeWhile isDigit).isEmpty then none else some (text.takeWhile isDigit, text.dropWhile isDigit)

def readInteger (text : Bytes) : Option (Bytes × Bytes) := do
  let (digits, rest) ← readDigits text
  if digits.head? = some 0x30 && 1 < digits.length then none else return (digits, rest)

def readFraction (text : Bytes) : Option (Bytes × Bytes) :=
  if text.head? = some 0x2e then readDigits text.tail else some ([], text)

def readExponent (text : Bytes) : Option (Int × Bytes) :=
  if text.head? = some 0x65 || text.head? = some 0x45 then do
    let rest := text.tail
    let negative := rest.head? = some 0x2d
    let (digits, rest) ← readDigits (if negative || rest.head? = some 0x2b then rest.tail else rest)
    return (if negative then -(decimalValue digits : Int) else decimalValue digits, rest)
  else some (0, text)

def readNumber (text : Bytes) : Option (Value × Bytes) := do
  let negative := text.head? = some 0x2d
  let (whole, rest) ← readInteger (if negative then text.tail else text)
  let (fraction, rest) ← readFraction rest
  let (exponent, rest) ← readExponent rest
  let mantissa : Int := decimalValue (whole ++ fraction)
  return (.number (if negative then -mantissa else mantissa) (exponent - fraction.length), rest)

/-! ## Values -/

/-- A key and the colon behind it. -/
def readKey (text : Bytes) : Option (Bytes × Bytes) :=
  match skipSpace text with
  | [] => none
  | byte :: rest =>
      if byte ≠ quote then none
      else do
        let (key, rest) ← readString (rest.length + 1) rest
        let rest := skipSpace rest
        if rest.head? = some colon then return (key, rest.tail) else none

mutual

def readValue : Nat → Bytes → Option (Value × Bytes)
  | 0, _ => none
  | fuel + 1, text =>
      match skipSpace text with
      | [] => none
      | byte :: rest =>
          if byte = openBrace then
            if (skipSpace rest).head? = some closeBrace then some (.object [], (skipSpace rest).tail)
            else (readMembers fuel rest).map fun (members, rest) => (.object members, rest)
          else if byte = openBracket then
            if (skipSpace rest).head? = some closeBracket then some (.array [], (skipSpace rest).tail)
            else (readItems fuel rest).map fun (items, rest) => (.array items, rest)
          else if byte = quote then
            (readString (rest.length + 1) rest).map fun (text, rest) => (.string text, rest)
          else if (ascii "null").isPrefixOf (byte :: rest) then some (.null, rest.drop 3)
          else if (ascii "true").isPrefixOf (byte :: rest) then some (.bool true, rest.drop 3)
          else if (ascii "false").isPrefixOf (byte :: rest) then some (.bool false, rest.drop 4)
          else readNumber (byte :: rest)

def readItems : Nat → Bytes → Option (List Value × Bytes)
  | 0, _ => none
  | fuel + 1, text => do
      let (item, rest) ← readValue fuel text
      let rest := skipSpace rest
      if rest.head? = some closeBracket then return ([item], rest.tail)
      else if rest.head? = some comma then
        let (items, rest) ← readItems fuel rest.tail
        return (item :: items, rest)
      else none

def readMembers : Nat → Bytes → Option (List (Bytes × Value) × Bytes)
  | 0, _ => none
  | fuel + 1, text => do
      let (key, rest) ← readKey text
      let (value, rest) ← readValue fuel rest
      let rest := skipSpace rest
      if rest.head? = some closeBrace then return ([(key, value)], rest.tail)
      else if rest.head? = some comma then
        let (members, rest) ← readMembers fuel rest.tail
        return ((key, value) :: members, rest)
      else none

end

/-- A whole text; no value is nested deeper than the text is long. -/
def parse (text : Bytes) : Option Value := do
  let (value, rest) ← readValue (text.length + 1) text
  if (skipSpace rest).isEmpty then return value else none

/-- The text is UTF-8 and stands for the value. -/
structure IsJson (text : Bytes) (value : Value) : Prop where
  utf8 : ValidUtf8 text
  parse_eq : parse text = some value

/-! ## Reading strings -/

/-- A byte that stands for itself in a string. -/
def IsPlain (byte : UInt8) : Prop := 0x20 ≤ byte ∧ byte ≠ quote ∧ byte ≠ backslash

instance (byte : UInt8) : Decidable (IsPlain byte) :=
  inferInstanceAs (Decidable (0x20 ≤ byte ∧ byte ≠ quote ∧ byte ≠ backslash))

def IsPlainText (text : Bytes) : Prop := ∀ byte ∈ text, IsPlain byte

instance (text : Bytes) : Decidable (IsPlainText text) := List.decidableBAll _ _

theorem readString_quote (fuel : Nat) (rest : Bytes) : readString (fuel + 1) (quote :: rest) = some ([], rest) := by
  rw [readString, if_pos rfl]

theorem readString_unit {byte : UInt8} {rest unit after : Bytes} (hquote : byte ≠ quote) (hcontrol : ¬ byte < 0x20)
    (hunit : (if byte = backslash then readEscape rest else some ([byte], rest)) = some (unit, after)) (fuel : Nat) :
    readString (fuel + 1) (byte :: rest) = (readString fuel after).map fun read => (unit ++ read.1, read.2) := by
  rw [readString, if_neg hquote, if_neg hcontrol, hunit]

theorem readString_plain {byte : UInt8} (h : IsPlain byte) (fuel : Nat) (rest : Bytes) :
    readString (fuel + 1) (byte :: rest) = (readString fuel rest).map fun read => (byte :: read.1, read.2) :=
  readString_unit h.2.1 (UInt8.not_lt.mpr h.1) (if_neg h.2.2) fuel

theorem readString_escape {unit rest after : Bytes} (h : readEscape rest = some (unit, after)) (fuel : Nat) :
    readString (fuel + 1) (backslash :: rest) =
      (readString fuel after).map fun read => (unit ++ read.1, read.2) := by
  apply readString_unit (by decide) (by decide)
  rw [if_pos rfl]
  exact h

theorem readString_control {byte : UInt8} (h : byte < 0x20) (fuel : Nat) (rest : Bytes) :
    readString (fuel + 1) (byte :: rest) = none := by
  have hquote : byte ≠ quote := by
    rintro rfl
    exact absurd h (by decide)
  rw [readString, if_neg hquote, if_pos h]

example : (parse [quote, 0x09, quote]).isNone ∧ (parse (ascii "[\"\\t\\u0009\", -2.5e3]")).isSome := by
  decide +kernel

theorem readString_of_plain {text : Bytes} (h : IsPlainText text) {fuel : Nat} (hfuel : text.length < fuel)
    (rest : Bytes) : readString fuel (text ++ quote :: rest) = some (text, rest) := by
  induction text generalizing fuel with
  | nil =>
      obtain ⟨fuel, rfl⟩ := Nat.exists_eq_add_of_lt hfuel
      exact readString_quote _ rest
  | cons byte text ih =>
      unfold IsPlainText at h ih
      rw [List.forall_mem_cons] at h
      cases fuel with
      | zero => exact absurd hfuel (Nat.not_lt_zero _)
      | succ fuel =>
          rw [List.cons_append, readString_plain h.1, ih h.2 (Nat.lt_of_succ_lt_succ hfuel)]
          rfl

/-! ## Reading a member -/

theorem skipSpace_cons {byte : UInt8} (h : isSpace byte = false) (rest : Bytes) :
    skipSpace (byte :: rest) = byte :: rest := by
  rw [skipSpace, List.dropWhile_cons_of_neg (by simp [h])]

/-- What can follow a member of an object. -/
def EndsValue (rest : Bytes) : Prop := rest.head? = some comma ∨ rest.head? = some closeBrace

/-- The text is read as the value in front of whatever can follow it, or is not read at all. -/
def ReadsAs (text : Bytes) (value : Option Value) : Prop :=
  ∀ fuel rest, EndsValue rest → readValue (fuel + 1) (text ++ rest) = value.map fun value => (value, rest)

theorem readsAs_string {text : Bytes} {value : Option Bytes}
    (h : ∀ rest, readString ((text ++ quote :: rest).length + 1) (text ++ quote :: rest) =
      value.map fun value => (value, rest)) :
    ReadsAs (quote :: (text ++ [quote])) (value.map Value.string) := by
  intro fuel rest _
  have htext : quote :: (text ++ [quote]) ++ rest = quote :: (text ++ quote :: rest) := by simp
  rw [htext, readValue, skipSpace_cons (by decide)]
  dsimp only
  rw [if_neg (show quote ≠ openBrace by decide), if_neg (show quote ≠ openBracket by decide), if_pos rfl, h rest]
  cases value <;> rfl

theorem ne_of_isDigit {byte other : UInt8} (h : isDigit byte = true) (hother : isDigit other = false) :
    byte ≠ other := by
  rintro rfl
  rw [h] at hother
  cases hother

theorem readValue_digit {byte : UInt8} (h : isDigit byte = true) (fuel : Nat) (rest : Bytes) :
    readValue (fuel + 1) (byte :: rest) = readNumber (byte :: rest) := by
  have hwords : ∀ word : Bytes, (∃ other, word.head? = some other ∧ isDigit other = false) →
      ¬ word.isPrefixOf (byte :: rest) = true := by
    rintro (_ | ⟨other, word⟩) ⟨first, hfirst, hother⟩ hword
    · cases hfirst
    · cases hfirst
      rw [List.isPrefixOf_iff_prefix, List.cons_prefix_cons] at hword
      exact ne_of_isDigit h hother hword.1.symm
  have hspace : isSpace byte = false := by
    simp [isSpace, ne_of_isDigit h (show isDigit 0x20 = false by decide),
      ne_of_isDigit h (show isDigit 0x09 = false by decide), ne_of_isDigit h (show isDigit 0x0a = false by decide),
      ne_of_isDigit h (show isDigit 0x0d = false by decide)]
  rw [readValue, skipSpace_cons hspace]
  dsimp only
  rw [if_neg (ne_of_isDigit h (show isDigit openBrace = false by decide)),
    if_neg (ne_of_isDigit h (show isDigit openBracket = false by decide)),
    if_neg (ne_of_isDigit h (show isDigit quote = false by decide)),
    if_neg (hwords (ascii "null") ⟨0x6e, rfl, by decide⟩), if_neg (hwords (ascii "true") ⟨0x74, rfl, by decide⟩),
    if_neg (hwords (ascii "false") ⟨0x66, rfl, by decide⟩)]

theorem readDigits_append {digits rest : Bytes} (hne : digits ≠ []) (hdigits : ∀ digit ∈ digits, isDigit digit = true)
    (hrest : EndsValue rest) : readDigits (digits ++ rest) = some (digits, rest) := by
  have hstop : ∀ byte ∈ rest.head?, isDigit byte = false := by
    intro byte hbyte
    rcases hrest with hhead | hhead <;> rw [Option.mem_def, hhead] at hbyte <;> cases hbyte <;> decide
  have htake : (digits ++ rest).takeWhile isDigit = digits := by
    rw [List.takeWhile_append_of_pos hdigits]
    cases rest with
    | nil => simp
    | cons byte rest => rw [List.takeWhile_cons_of_neg (by simp [hstop byte rfl]), List.append_nil]
  have hdrop : (digits ++ rest).dropWhile isDigit = rest := by
    rw [List.dropWhile_append_of_pos hdigits]
    cases rest with
    | nil => rfl
    | cons byte rest => rw [List.dropWhile_cons_of_neg (by simp [hstop byte rfl])]
  rw [readDigits, htake, hdrop, if_neg (by simpa using hne)]

theorem readsAs_number {digits : Bytes} (hne : digits ≠ []) (hdigits : ∀ digit ∈ digits, isDigit digit = true)
    (hzero : digits.head? = some 0x30 → digits.length = 1) :
    ReadsAs digits (some (.number (decimalValue digits) 0)) := by
  intro fuel rest hends
  obtain ⟨first, others, rfl⟩ := List.exists_cons_of_ne_nil hne
  have hsign : ¬ (first :: others ++ rest).head? = some 0x2d := fun hhead =>
    ne_of_isDigit (hdigits first List.mem_cons_self) (by decide) (Option.some.inj hhead)
  have hinteger : readInteger (first :: others ++ rest) = some (first :: others, rest) := by
    rw [readInteger, readDigits_append hne hdigits hends, Option.bind_eq_bind, Option.bind_some]
    apply if_neg
    rw [Bool.and_eq_true, decide_eq_true_eq, decide_eq_true_eq]
    rintro ⟨hhead, hlength⟩
    exact absurd (hzero hhead) (Nat.ne_of_gt hlength)
  have hfraction : readFraction rest = some ([], rest) := by
    rw [readFraction, if_neg]
    rcases hends with hhead | hhead <;> rw [hhead] <;> decide
  have hexponent : readExponent rest = some (0, rest) := by
    rw [readExponent, if_neg]
    rcases hends with hhead | hhead <;> rw [hhead] <;> decide
  rw [List.cons_append, readValue_digit (hdigits first List.mem_cons_self), ← List.cons_append, readNumber]
  simp only [if_neg hsign, hinteger, hfraction, hexponent, Option.bind_eq_bind, Option.bind_some, List.append_nil]
  rfl

/-! ## Reading an object -/

/-- A member that stands in a text: a key without escapes, and the text of a value with what it stands for, if it stands
for anything. -/
structure Member where
  key : Bytes
  text : Bytes
  value : Option Value
  plain : IsPlainText key
  reads : ReadsAs text value

namespace Member

def write (member : Member) : Bytes := quote :: (member.key ++ quote :: colon :: member.text)

def read (member : Member) : Option (Bytes × Value) := member.value.map fun value => (member.key, value)

end Member

/-- The members of an object and its closing brace. -/
def membersText : List Member → Bytes
  | [] => [closeBrace]
  | [member] => member.write ++ [closeBrace]
  | member :: members => member.write ++ comma :: membersText members

theorem readKey_plain {key : Bytes} (h : IsPlainText key) (rest : Bytes) :
    readKey (quote :: (key ++ quote :: colon :: rest)) = some (key, rest) := by
  have hread := readString_of_plain h (show key.length < (key ++ quote :: colon :: rest).length + 1 by
      rw [List.length_append]
      omega)
    (colon :: rest)
  rw [readKey, skipSpace_cons (by decide)]
  dsimp only
  rw [if_neg (not_not.mpr rfl), hread, Option.bind_eq_bind, Option.bind_some]
  dsimp only
  rw [skipSpace_cons (by decide)]
  rfl

theorem readMembers_last (member : Member) (fuel : Nat) (rest : Bytes) :
    readMembers (fuel + 2) (member.write ++ closeBrace :: rest) = member.read.map fun pair => ([pair], rest) := by
  have hwrite : member.write ++ closeBrace :: rest =
      quote :: (member.key ++ quote :: colon :: (member.text ++ closeBrace :: rest)) := by simp [Member.write]
  rw [hwrite, readMembers, readKey_plain member.plain, Option.bind_eq_bind, Option.bind_some]
  dsimp only
  rw [member.reads fuel _ (Or.inr rfl), Member.read]
  cases member.value with
  | none => rfl
  | some value =>
      rw [Option.map_some, Option.bind_eq_bind, Option.bind_some]
      dsimp only
      rw [skipSpace_cons (by decide)]
      rfl

theorem readMembers_more (member : Member) (fuel : Nat) (rest : Bytes) :
    readMembers (fuel + 2) (member.write ++ comma :: rest) =
      member.read.bind fun pair => (readMembers (fuel + 1) rest).map fun read => (pair :: read.1, read.2) := by
  have hwrite : member.write ++ comma :: rest =
      quote :: (member.key ++ quote :: colon :: (member.text ++ comma :: rest)) := by simp [Member.write]
  rw [hwrite, readMembers, readKey_plain member.plain, Option.bind_eq_bind, Option.bind_some]
  dsimp only
  rw [member.reads fuel _ (Or.inl rfl), Member.read]
  cases member.value with
  | none => rfl
  | some value =>
      rw [Option.map_some, Option.bind_eq_bind, Option.bind_some]
      dsimp only
      rw [skipSpace_cons (by decide)]
      cases hmore : readMembers (fuel + 1) rest <;> simp [hmore, comma, closeBrace]

theorem readMembers_text {members : List Member} (hne : members ≠ []) {fuel : Nat} (hfuel : members.length < fuel)
    (rest : Bytes) :
    readMembers fuel (membersText members ++ rest) =
      (members.mapM Member.read).map fun pairs => (pairs, rest) := by
  induction members generalizing fuel with
  | nil => exact absurd rfl hne
  | cons member members ih =>
      obtain ⟨fuel, rfl⟩ := Nat.exists_eq_add_of_lt (show 1 < fuel by rw [List.length_cons] at hfuel; omega)
      cases members with
      | nil =>
          rw [membersText, List.append_assoc, Nat.add_comm 1 fuel]
          refine (readMembers_last member fuel rest).trans ?_
          cases hread : member.read <;> simp [hread]
      | cons next members =>
          have hmore := ih (List.cons_ne_nil _ _) (show (next :: members).length < fuel + 1 by
            rw [List.length_cons] at hfuel; omega)
          rw [membersText, List.append_assoc, List.cons_append, Nat.add_comm 1 fuel]
          refine (readMembers_more member fuel _).trans ?_
          rw [hmore]
          generalize next :: members = others
          rw [List.mapM_cons]
          cases member.read with
          | none => rfl
          | some pair => cases others.mapM Member.read <;> rfl
          simp

theorem membersText_cons (member : Member) (members : List Member) :
    ∃ rest, membersText (member :: members) = quote :: rest := by
  cases members <;> exact ⟨_, rfl⟩

theorem length_lt_membersText (members : List Member) : members.length < (membersText members).length := by
  fun_induction membersText members with
  | case1 => exact Nat.one_pos
  | case2 member =>
      simp only [Member.write, List.length_cons, List.length_append, List.length_nil]
      omega
  | case3 member members _ ih =>
      rw [List.length_cons, List.length_append, List.length_cons]
      omega

/-- **A text that is an object written member by member**, with white space behind it, stands for the object of what the
members stand for, and for nothing if one of them stands for nothing. -/
theorem parse_object {members : List Member} (hne : members ≠ []) {space : Bytes}
    (hspace : ∀ byte ∈ space, isSpace byte = true) :
    parse (openBrace :: membersText members ++ space) = (members.mapM Member.read).map Value.object := by
  have hskip : skipSpace space = [] := List.dropWhile_eq_nil_iff.mpr hspace
  have hopen : (skipSpace (membersText members ++ space)).head? ≠ some closeBrace := by
    obtain ⟨member, others, rfl⟩ := List.exists_cons_of_ne_nil hne
    obtain ⟨rest, hrest⟩ := membersText_cons member others
    rw [hrest, List.cons_append, skipSpace_cons (by decide)]
    exact fun hhead => absurd (Option.some.inj hhead) (by decide)
  have hfuel : members.length < (openBrace :: (membersText members ++ space)).length := by
    rw [List.length_cons, List.length_append]
    exact Nat.lt_succ_of_le (Nat.le_add_right_of_le (length_lt_membersText members).le)
  rw [parse, List.cons_append, readValue, skipSpace_cons (by decide)]
  dsimp only
  rw [if_pos rfl, if_neg hopen, readMembers_text hne hfuel]
  cases members.mapM Member.read with
  | none => rfl
  | some pairs => simp [hskip]

end PathGuard.Json

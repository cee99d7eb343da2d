import Mathlib.Data.List.Infix
import PathGuard.Lib.Bytes

/-!
# SQL conditions

The conditions that `IS NULL`, `!=`, `NOT LIKE ? ESCAPE`, `AND`, `OR` and parentheses make, with placeholders for
arguments: `parse` reads one from its text, and `Condition.truth` is its truth value in a row, which may be unknown.
A text in a row is its UTF-8 bytes.

* `parse` : the condition of a text, if it is one; `Condition.truth` : its value in a row, of three;
* `matchesLike` : the `LIKE` of SQLite with an escape; `matchItems_literals` : a pattern for a prefix.
-/

namespace PathGuard.Sql

/-! ## LIKE -/

/-- What a byte of a pattern stands for. -/
inductive LikeItem
  | literal (byte : UInt8)
  | one
  | many
  deriving DecidableEq

def likeItem (byte : UInt8) : LikeItem :=
  if byte = 0x25 then .many else if byte = 0x5f then .one else .literal byte

/-- A pattern read with an escape character; a pattern that ends with the escape character matches nothing. -/
def likeItems (escape : UInt8) : Bytes → Option (List LikeItem)
  | [] => some []
  | [byte] => if byte = escape then none else some [likeItem byte]
  | byte :: next :: rest =>
      if byte = escape then (likeItems escape rest).map (LikeItem.literal next :: ·)
      else (likeItems escape (next :: rest)).map (likeItem byte :: ·)

/-- The case of a letter of ASCII does not count. -/
def foldCase (byte : UInt8) : UInt8 := if 0x41 ≤ byte && byte ≤ 0x5a then byte + 0x20 else byte

/-- What comes after the first character. -/
def afterCharacter : Bytes → Option Bytes
  | [] => none
  | lead :: rest => some (if lead < 0xc0 then rest else rest.dropWhile fun byte => 0x80 ≤ byte && byte < 0xc0)

def matchItems : List LikeItem → Bytes → Bool
  | [], text => text.isEmpty
  | .literal _ :: _, [] => false
  | .literal byte :: items, first :: text => foldCase byte == foldCase first && matchItems items text
  | .one :: items, text =>
      match afterCharacter text with
      | none => false
      | some rest => matchItems items rest
  | .many :: items, text => text.tails.any fun rest => matchItems items rest

def matchesLike (escape : UInt8) (pattern text : Bytes) : Bool :=
  match likeItems escape pattern with
  | none => false
  | some items => matchItems items text

/-- Literals and a last `%` are a test for a prefix, up to case. -/
theorem matchItems_literals (stem text : Bytes) :
    matchItems (stem.map LikeItem.literal ++ [.many]) text = true ↔ stem.map foldCase <+: text.map foldCase := by
  induction stem generalizing text with
  | nil =>
      simp only [List.map_nil, List.nil_append, matchItems, List.any_eq_true, List.nil_prefix, iff_true]
      exact ⟨[], (List.mem_tails _ _).mpr List.nil_suffix, rfl⟩
  | cons byte stem ih =>
      cases text with
      | nil => simp [matchItems]
      | cons first text =>
          simp only [List.map_cons, List.cons_append, matchItems, Bool.and_eq_true, beq_iff_eq, ih,
            List.cons_prefix_cons]

/-! ## Conditions -/

inductive Term
  | column (name : Bytes)
  | argument (index : Nat)
  | text (value : Bytes)
  deriving DecidableEq

inductive Condition
  | isNull (term : Term)
  | unequal (left right : Term)
  | like (term pattern escape : Term)
  | not (condition : Condition)
  | and (left right : Condition)
  | or (left right : Condition)
  deriving DecidableEq

/-- The value of a term; NULL is `none`. -/
def Term.value (row : Bytes → Option Bytes) (arguments : List Bytes) : Term → Option Bytes
  | .column name => row name
  | .argument index => arguments[index]?
  | .text value => some value

/-- Conjunction of truth values, `none` being unknown. -/
def both : Option Bool → Option Bool → Option Bool
  | some false, _ => some false
  | _, some false => some false
  | some true, some true => some true
  | _, _ => none

def either : Option Bool → Option Bool → Option Bool
  | some true, _ => some true
  | _, some true => some true
  | some false, some false => some false
  | _, _ => none

def Condition.truth (row : Bytes → Option Bytes) (arguments : List Bytes) : Condition → Option Bool
  | .isNull term => some (term.value row arguments).isNone
  | .unequal left right =>
      match left.value row arguments, right.value row arguments with
      | some left, some right => some (left != right)
      | _, _ => none
  | .like term pattern escape =>
      match term.value row arguments, pattern.value row arguments, escape.value row arguments with
      | some text, some pattern, some [escape] => some (matchesLike escape pattern text)
      | _, _, _ => none
  | .not condition => (condition.truth row arguments).map (!·)
  | .and left right => both (left.truth row arguments) (right.truth row arguments)
  | .or left right => either (left.truth row arguments) (right.truth row arguments)

theorem both_eq_true {left right : Option Bool} : both left right = some true ↔ left = some true ∧ right = some true := by
  rcases left with - | - | - <;> rcases right with - | - | - <;> decide

theorem either_eq_true {left right : Option Bool} :
    either left right = some true ↔ left = some true ∨ right = some true := by
  rcases left with - | - | - <;> rcases right with - | - | - <;> decide

theorem Condition.truth_and {row : Bytes → Option Bytes} {arguments : List Bytes} {left right : Condition} :
    (Condition.and left right).truth row arguments = some true ↔
      left.truth row arguments = some true ∧ right.truth row arguments = some true :=
  both_eq_true

theorem Condition.truth_or {row : Bytes → Option Bytes} {arguments : List Bytes} {left right : Condition} :
    (Condition.or left right).truth row arguments = some true ↔
      left.truth row arguments = some true ∨ right.truth row arguments = some true :=
  either_eq_true

/-! ## Tokens -/

inductive Token
  | opening
  | closing
  | unequal
  | placeholder (index : Nat)
  | word (name : Bytes)
  | text (value : Bytes)
  deriving DecidableEq

inductive LexMode
  | gap
  | word (name : Bytes)
  | text (value : Bytes)
  | bang

def isWordByte (byte : UInt8) : Bool :=
  0x30 ≤ byte && byte ≤ 0x39 || 0x41 ≤ byte && byte ≤ 0x5a || 0x61 ≤ byte && byte ≤ 0x7a || byte == 0x5f

/-- The tokens of a text, the last one first; a placeholder gets the number of the placeholders before it. -/
def lex : LexMode → Nat → List Token → Bytes → Option (List Token)
  | .gap, _, tokens, [] => some tokens
  | .word name, _, tokens, [] => some (.word name :: tokens)
  | _, _, _, [] => none
  | .text value, placeholders, tokens, byte :: rest =>
      if byte = 0x27 then lex .gap placeholders (.text value :: tokens) rest
      else lex (.text (value ++ [byte])) placeholders tokens rest
  | .bang, placeholders, tokens, byte :: rest =>
      if byte = 0x3d then lex .gap placeholders (.unequal :: tokens) rest else none
  | .word name, placeholders, tokens, byte :: rest =>
      if isWordByte byte then lex (.word (name ++ [byte])) placeholders tokens rest
      else if byte = 0x20 then lex .gap placeholders (.word name :: tokens) rest
      else if byte = 0x28 then lex .gap placeholders (.opening :: .word name :: tokens) rest
      else if byte = 0x29 then lex .gap placeholders (.closing :: .word name :: tokens) rest
      else none
  | .gap, placeholders, tokens, byte :: rest =>
      if isWordByte byte then lex (.word [byte]) placeholders tokens rest
      else if byte = 0x20 then lex .gap placeholders tokens rest
      else if byte = 0x28 then lex .gap placeholders (.opening :: tokens) rest
      else if byte = 0x29 then lex .gap placeholders (.closing :: tokens) rest
      else if byte = 0x3f then lex .gap (placeholders + 1) (.placeholder placeholders :: tokens) rest
      else if byte = 0x21 then lex .bang placeholders tokens rest
      else if byte = 0x27 then lex (.text []) placeholders tokens rest
      else none

def tokens (text : Bytes) : Option (List Token) := (lex .gap 0 [] text).map List.reverse

/-! ## Reading -/

def parseTerm : List Token → Option (Term × List Token)
  | .placeholder index :: rest => some (.argument index, rest)
  | .text value :: rest => some (.text value, rest)
  | .word name :: rest => some (.column name, rest)
  | _ => none

/-- `IS NULL`, `!= term` or `NOT LIKE term ESCAPE term`, after a term. -/
def parseComparison (term : Term) : List Token → Option (Condition × List Token)
  | .unequal :: rest => do
      let (right, rest) ← parseTerm rest
      return (.unequal term right, rest)
  | .word first :: .word second :: rest =>
      if first = ascii "IS" && second = ascii "NULL" then some (.isNull term, rest)
      else if first = ascii "NOT" && second = ascii "LIKE" then do
        let (pattern, rest) ← parseTerm rest
        match rest with
        | .word third :: rest =>
            if third = ascii "ESCAPE" then
              let (escape, rest) ← parseTerm rest
              return (.not (.like term pattern escape), rest)
            else none
        | _ => none
      else none
  | _ => none

mutual

/-- Disjunctions of conjunctions of comparisons and of conditions in parentheses. -/
def parseOr : Nat → List Token → Option (Condition × List Token)
  | 0, _ => none
  | fuel + 1, tokens => do
      let (left, rest) ← parseAnd fuel tokens
      parseOrRest fuel left rest

def parseOrRest : Nat → Condition → List Token → Option (Condition × List Token)
  | fuel + 1, left, .word name :: rest =>
      if name = ascii "OR" then do
        let (right, rest) ← parseAnd fuel rest
        parseOrRest fuel (.or left right) rest
      else some (left, .word name :: rest)
  | _, left, rest => some (left, rest)

def parseAnd : Nat → List Token → Option (Condition × List Token)
  | 0, _ => none
  | fuel + 1, tokens => do
      let (left, rest) ← parsePrimary fuel tokens
      parseAndRest fuel left rest

def parseAndRest : Nat → Condition → List Token → Option (Condition × List Token)
  | fuel + 1, left, .word name :: rest =>
      if name = ascii "AND" then do
        let (right, rest) ← parsePrimary fuel rest
        parseAndRest fuel (.and left right) rest
      else some (left, .word name :: rest)
  | _, left, rest => some (left, rest)

def parsePrimary : Nat → List Token → Option (Condition × List Token)
  | fuel + 1, .opening :: rest => do
      let (condition, rest) ← parseOr fuel rest
      match rest with
      | .closing :: rest => return (condition, rest)
      | _ => none
  | _, tokens => do
      let (term, rest) ← parseTerm tokens
      parseComparison term rest

end

/-- The condition that a text is. A condition has no more nested parts than tokens. -/
def parse (text : Bytes) : Option Condition := do
  let tokens ← tokens text
  match parseOr (4 * tokens.length + 4) tokens with
  | some (condition, []) => return condition
  | _ => none

end PathGuard.Sql

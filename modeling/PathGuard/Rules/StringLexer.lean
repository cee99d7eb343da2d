import PathGuard.Rules.Lexing

/-!
# Strings as TOML reads them

A lexer of TOML 1.0 strings that consumes one character or one escape at a time. `ScanStringToken` counts backslashes
and measures runs of quotes instead; it gives the same token at every quote of every text.

* `lexString` : the lexer; `scanStringToken_eq_lexString` : the scanner gives its token;
* `scanSingleLine_eq`, `scanMultiline_quotes` : runs of backslashes and runs of quotes.
-/

namespace PathGuard.Rules

/-! ## The reference -/

/-- A string on one line, after its opening quote: it ends at a quote, and a line that ends first leaves it open. In a
basic string a backslash takes the next byte with it, unless that ends the line. -/
def lexOneLine (quote : UInt8) (basic : Bool) : Bytes → Nat → StringToken
  | [], offset => ⟨offset, false, false⟩
  | value :: rest, offset =>
      if isNewline value then ⟨offset, false, false⟩
      else if value = quote then ⟨offset + 1, false, true⟩
      else if basic && value == backslash then
        match rest with
        | [] => ⟨offset + 1, false, false⟩
        | escaped :: rest =>
            if isNewline escaped then ⟨offset + 1, false, false⟩ else lexOneLine quote basic rest (offset + 2)
      else lexOneLine quote basic rest (offset + 1)

/-- A string over several lines, after its opening quotes; `quotes` of them stand directly before `offset`. Three close
it, and of those that go on directly after three the last ones close it: up to two are content. -/
def lexSeveralLines (quote : UInt8) (basic : Bool) : Bytes → Nat → Nat → StringToken
  | [], quotes, offset => ⟨offset, true, 3 ≤ quotes⟩
  | value :: rest, quotes, offset =>
      if value = quote then
        if quotes = 4 then ⟨offset + 1, true, true⟩ else lexSeveralLines quote basic rest (quotes + 1) (offset + 1)
      else if 3 ≤ quotes then ⟨offset, true, true⟩
      else if basic && value == backslash then
        match rest with
        | [] => ⟨offset + 1, true, false⟩
        | _ :: rest => lexSeveralLines quote basic rest 0 (offset + 2)
      else lexSeveralLines quote basic rest 0 (offset + 1)

/-- The string whose first quote is at `start`. -/
def lexString (bytes : Bytes) (start : Nat) : StringToken :=
  match bytes.drop start with
  | [] => ⟨start, false, false⟩
  | quote :: rest =>
      let basic := quote == doubleQuote
      match rest with
      | second :: third :: inside =>
          if second = quote ∧ third = quote then lexSeveralLines quote basic inside 0 (start + 3)
          else lexOneLine quote basic rest (start + 1)
      | _ => lexOneLine quote basic rest (start + 1)

section Agree
variable {quote : UInt8} {basic : Bool}

/-! ## One line -/

/-- What is left of an escape whose backslash stands before `offset`. -/
def lexEscapedOneLine (quote : UInt8) (basic : Bool) : Bytes → Nat → StringToken
  | [], offset => ⟨offset, false, false⟩
  | escaped :: rest, offset =>
      if isNewline escaped then ⟨offset, false, false⟩ else lexOneLine quote basic rest (offset + 1)

theorem lexOneLine_cons (value : UInt8) (rest : Bytes) (offset : Nat) :
    lexOneLine quote basic (value :: rest) offset =
      if isNewline value then ⟨offset, false, false⟩
      else if value = quote then ⟨offset + 1, false, true⟩
      else if basic && value == backslash then lexEscapedOneLine quote basic rest (offset + 1)
      else lexOneLine quote basic rest (offset + 1) := by
  cases rest <;> rfl

/-- An even run of backslashes is a run of escaped ones, an odd run leaves one that escapes what comes next. -/
theorem scanSingleLine_eq (rest : Bytes) (offset slashRun : Nat) :
    (basic = false ∨ slashRun % 2 = 0 →
      scanSingleLine quote basic rest offset slashRun = lexOneLine quote basic rest offset) ∧
    (basic = true ∧ slashRun % 2 = 1 →
      scanSingleLine quote basic rest offset slashRun = lexEscapedOneLine quote basic rest offset) := by
  induction rest generalizing offset slashRun with
  | nil => exact ⟨fun _ => rfl, fun _ => rfl⟩
  | cons value rest ih =>
      rw [scanSingleLine]
      by_cases hnewline : isNewline value = true
      · simp [lexOneLine_cons, lexEscapedOneLine, hnewline]
      · refine ⟨fun heven => ?_, ?_⟩
        · have hopen : (!basic || slashRun % 2 == 0) = true := by
            rcases heven with hliteral | heven
            · simp [hliteral]
            · simp [heven]
          by_cases hvalue : value = quote
          · simp [lexOneLine_cons, hvalue, hopen]
          · by_cases hslash : (basic && value == backslash) = true
            · obtain ⟨rfl, rfl⟩ : basic = true ∧ value = backslash := by simpa using hslash
              have hrun : slashRun % 2 = 0 := heven.resolve_left (by decide)
              rw [lexOneLine_cons, if_neg hnewline, if_neg hnewline, if_neg hvalue, if_neg (by simp [hvalue]),
                if_pos hslash, if_pos hslash]
              exact (ih (offset + 1) (slashRun + 1)).2 ⟨rfl, by omega⟩
            · rw [lexOneLine_cons, if_neg hnewline, if_neg hnewline, if_neg hvalue, if_neg (by simp [hvalue]),
                if_neg hslash, if_neg hslash]
              exact (ih (offset + 1) 0).1 (Or.inr rfl)
        · rintro ⟨rfl, hodd⟩
          rw [lexEscapedOneLine, if_neg hnewline, if_neg hnewline, if_neg (by simp [hodd])]
          refine (ih (offset + 1) _).1 (Or.inr ?_)
          split
          · omega
          · rfl

/-! ## Several lines -/

/-- What is left of an escape whose backslash stands before `offset`. -/
def lexEscapedSeveralLines (quote : UInt8) (basic : Bool) : Bytes → Nat → StringToken
  | [], offset => ⟨offset, true, false⟩
  | _ :: rest, offset => lexSeveralLines quote basic rest 0 (offset + 1)

theorem lexSeveralLines_cons (value : UInt8) (rest : Bytes) (quotes offset : Nat) :
    lexSeveralLines quote basic (value :: rest) quotes offset =
      if value = quote then
        if quotes = 4 then ⟨offset + 1, true, true⟩ else lexSeveralLines quote basic rest (quotes + 1) (offset + 1)
      else if 3 ≤ quotes then ⟨offset, true, true⟩
      else if basic && value == backslash then lexEscapedSeveralLines quote basic rest (offset + 1)
      else lexSeveralLines quote basic rest 0 (offset + 1) := by
  cases rest <;> rfl

/-- Where no quote follows, three quotes have closed the string and fewer are content. -/
theorem lexSeveralLines_of_ne {rest : Bytes} {quotes offset : Nat} (hrest : rest.head? ≠ some quote) :
    lexSeveralLines quote basic rest quotes offset =
      if 3 ≤ quotes then ⟨offset, true, true⟩ else lexSeveralLines quote basic rest 0 offset := by
  cases rest with
  | nil =>
      simp only [lexSeveralLines]
      split
      · next hclosed => simp [hclosed]
      · next hopen => simp [hopen]
  | cons value rest =>
      have hvalue : ¬ value = quote := by simpa using hrest
      rw [lexSeveralLines_cons, lexSeveralLines_cons, if_neg hvalue, if_neg hvalue]
      simp

theorem lexSeveralLines_run {run quotes offset : Nat} {rest : Bytes} (hrest : rest.head? ≠ some quote)
    (hquotes : quotes ≤ 4) :
    lexSeveralLines quote basic (List.replicate run quote ++ rest) quotes offset =
      if 3 ≤ quotes + run then ⟨offset + min run (5 - quotes), true, true⟩
      else lexSeveralLines quote basic rest 0 (offset + run) := by
  induction run generalizing quotes offset with
  | zero => simpa using lexSeveralLines_of_ne hrest
  | succ run ih =>
      rw [List.replicate_succ, List.cons_append, lexSeveralLines_cons, if_pos rfl]
      split
      · next hfour =>
        subst hfour
        rw [if_pos (by omega)]
        simp only [StringToken.mk.injEq, and_true]
        omega
      · next hfour =>
        rw [ih (by omega)]
        by_cases hclosed : 3 ≤ quotes + (run + 1)
        · rw [if_pos hclosed, if_pos (by omega)]
          simp only [StringToken.mk.injEq, and_true]
          omega
        · rw [if_neg hclosed, if_neg (by omega)]
          congr 1
          omega

theorem scanMultiline_skip (passed rest : Bytes) (offset slashRun : Nat) :
    scanMultiline quote basic passed.length (passed ++ rest) offset slashRun =
      scanMultiline quote basic 0 rest (offset + passed.length) slashRun := by
  induction passed generalizing offset with
  | nil => rfl
  | cons value passed ih =>
      rw [List.length_cons, List.cons_append, scanMultiline, ih]
      congr 1
      omega

theorem exists_quoteRun (quote : UInt8) (rest : Bytes) :
    ∃ run after, rest = List.replicate run quote ++ after ∧ after.head? ≠ some quote := by
  have hreplicate : rest.takeWhile (· == quote) = List.replicate (quoteRun quote rest) quote := by
    rw [List.eq_replicate_iff]
    exact ⟨rfl, fun value hvalue => by simpa using List.all_eq_true.mp List.all_takeWhile value hvalue⟩
  refine ⟨quoteRun quote rest, rest.dropWhile (· == quote), ?_, ?_⟩
  · rw [← hreplicate]
    exact List.takeWhile_append_dropWhile.symm
  · intro hhead
    have := List.head?_dropWhile_not (· == quote) rest
    rw [hhead] at this
    simp at this

/-- A run of quotes closes the string or is passed over, with the first one set aside when it is escaped. -/
theorem scanMultiline_quotes {run offset slashRun : Nat} {rest : Bytes} (hrest : rest.head? ≠ some quote) :
    scanMultiline quote basic 0 (quote :: (List.replicate run quote ++ rest)) offset slashRun =
      match runEnd basic slashRun (run + 1) with
      | some size => ⟨offset + size, true, true⟩
      | none => scanMultiline quote basic 0 rest (offset + run + 1) 0 := by
  have hrun : quoteRun quote (quote :: (List.replicate run quote ++ rest)) = run + 1 := by
    have hwhole := @quoteRun_whole quote (List.replicate (run + 1) quote) rest
    rw [List.length_replicate, quoteRun_eq_zero.mpr hrest, List.replicate_succ, List.cons_append] at hwhole
    refine hwhole ?_
    rw [quoteRun, ← List.cons_append, ← List.replicate_succ, List.takeWhile_append_of_pos (by simp)]
    simp
  have hskip := @scanMultiline_skip quote basic (List.replicate run quote) rest (offset + 1) 0
  rw [List.length_replicate] at hskip
  have hscan := @scanMultiline_run quote basic quote (List.replicate run quote ++ rest) offset slashRun (by simp)
  rw [hrun, Nat.add_sub_cancel, hskip, Nat.add_right_comm] at hscan
  exact hscan

theorem lexSeveralLines_quotes {run offset slashRun : Nat} {rest : Bytes} (hrest : rest.head? ≠ some quote)
    (heven : basic = false ∨ slashRun % 2 = 0) :
    (match runEnd basic slashRun (run + 1) with
      | some size => ⟨offset + size, true, true⟩
      | none => lexSeveralLines quote basic rest 0 (offset + run + 1)) =
      lexSeveralLines quote basic (quote :: (List.replicate run quote ++ rest)) 0 offset := by
  have hopen : (!basic || slashRun % 2 == 0) = true := by
    rcases heven with hliteral | heven
    · simp [hliteral]
    · simp [heven]
  have hescaped : ¬ (basic && slashRun % 2 == 1 && decide (4 ≤ run + 1)) = true := by
    rcases heven with hliteral | heven
    · simp [hliteral]
    · simp [heven]
  have hlex := @lexSeveralLines_run quote basic (run + 1) 0 offset rest hrest (by omega)
  rw [List.replicate_succ, List.cons_append] at hlex
  rw [hlex, runEnd, hopen, Bool.and_true, if_neg hescaped]
  by_cases hclosed : 3 ≤ run + 1
  · simp [hclosed]
  · simp [hclosed, Nat.add_assoc]

/-- The first of the quotes belongs to the escape, so it takes four to close the string. -/
theorem lexEscapedSeveralLines_quotes {run offset slashRun : Nat} {rest : Bytes} (hrest : rest.head? ≠ some quote)
    (hodd : slashRun % 2 = 1) :
    (match runEnd true slashRun (run + 1) with
      | some size => ⟨offset + size, true, true⟩
      | none => lexSeveralLines quote true rest 0 (offset + run + 1)) =
      lexEscapedSeveralLines quote true (quote :: (List.replicate run quote ++ rest)) offset := by
  rw [lexEscapedSeveralLines, lexSeveralLines_run hrest (by omega), runEnd, Nat.zero_add, Nat.sub_zero]
  by_cases hclosed : 3 ≤ run
  · have hmin : offset + min (run + 1) 6 = offset + 1 + min run 5 := by omega
    simp [hodd, hclosed, hmin]
  · simp [hodd, hclosed, Nat.add_right_comm]

theorem scanMultiline_eq (rest : Bytes) (offset slashRun : Nat) :
    (basic = false ∨ slashRun % 2 = 0 →
      scanMultiline quote basic 0 rest offset slashRun = lexSeveralLines quote basic rest 0 offset) ∧
    (basic = true ∧ slashRun % 2 = 1 →
      scanMultiline quote basic 0 rest offset slashRun = lexEscapedSeveralLines quote basic rest offset) := by
  induction hlength : rest.length using Nat.strong_induction_on generalizing rest offset slashRun with
  | _ length ih =>
      cases rest with
      | nil => exact ⟨fun _ => rfl, fun _ => rfl⟩
      | cons value rest =>
          by_cases hvalue : value = quote
          · subst hvalue
            obtain ⟨run, after, rfl, hafter⟩ := exists_quoteRun value rest
            have hshort : after.length < length := by
              rw [← hlength, List.length_cons, List.length_append]
              omega
            have hrest := (ih after.length hshort after (offset + run + 1) 0 rfl).1 (Or.inr rfl)
            rw [scanMultiline_quotes hafter, hrest]
            refine ⟨lexSeveralLines_quotes hafter, ?_⟩
            rintro ⟨rfl, hodd⟩
            exact lexEscapedSeveralLines_quotes hafter hodd
          · have hvalue' : ¬ (value == quote) = true := by simpa using hvalue
            have hshort : rest.length < length := by
              rw [← hlength, List.length_cons]
              omega
            rw [scanMultiline, if_neg hvalue']
            refine ⟨fun heven => ?_, ?_⟩
            · rw [lexSeveralLines_cons, if_neg hvalue, if_neg (by decide : ¬ 3 ≤ 0)]
              by_cases hslash : (basic && value == backslash) = true
              · rw [if_pos hslash, if_pos hslash]
                obtain ⟨hbasic, -⟩ := Bool.and_eq_true_iff.mp hslash
                have hrun : slashRun % 2 = 0 := heven.resolve_left (by rw [hbasic]; decide)
                exact (ih rest.length hshort rest (offset + 1) (slashRun + 1) rfl).2 ⟨hbasic, by omega⟩
              · rw [if_neg hslash, if_neg hslash]
                exact (ih rest.length hshort rest (offset + 1) 0 rfl).1 (Or.inr rfl)
            · rintro ⟨-, hodd⟩
              rw [lexEscapedSeveralLines]
              refine (ih rest.length hshort rest (offset + 1) _ rfl).1 (Or.inr ?_)
              split
              · omega
              · rfl

end Agree

/-! ## The token at a quote -/

/-- **The scanner's strings are TOML's.** -/
theorem scanStringToken_eq_lexString (bytes : Bytes) (start : Nat) :
    scanStringToken bytes start = lexString bytes start := by
  unfold scanStringToken lexString
  cases bytes.drop start with
  | nil => rfl
  | cons quote rest =>
      have hone := fun rest : Bytes =>
        (@scanSingleLine_eq quote (quote == doubleQuote) rest (start + 1) 0).1 (Or.inr rfl)
      match rest with
      | [] => exact hone []
      | [second] => simpa using hone [second]
      | second :: third :: inside =>
          have hseveral := (@scanMultiline_eq quote (quote == doubleQuote) inside (start + 3) 0).1 (Or.inr rfl)
          by_cases hopening : second = quote ∧ third = quote
          · obtain ⟨rfl, rfl⟩ := hopening
            simpa using hseveral
          · simpa [hopening] using hone (second :: third :: inside)

/-- Of the five quotes the last three close the string. -/
example : scanStringToken (ascii "\"\"\"a\"\"\"\"\"b") 0 = ⟨9, true, true⟩ := by decide +kernel

end PathGuard.Rules

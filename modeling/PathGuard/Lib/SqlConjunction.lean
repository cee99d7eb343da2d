import PathGuard.Lib.Sql

/-!
# Conjunctions of texts

When two texts are conditions, the text `(left) AND (right)` is their conjunction, with the placeholders of the second one
numbered on from those of the first. In a row it is true for the arguments of both, one list after the other, exactly
when each is true for its own.

* `parse_conjunction` : the text of a conjunction is parsed into the conjunction, renumbered;
* `parse_conjunction_truth` : its truth, with the arguments of both.
-/

namespace PathGuard.Sql

/-! ## Numbering on -/

def Token.rename (f : Nat → Nat) : Token → Token
  | .placeholder index => .placeholder (f index)
  | token => token

@[simp] theorem Token.rename_word (f : Nat → Nat) (name : Bytes) : (Token.word name).rename f = .word name := rfl

@[simp] theorem Token.rename_opening (f : Nat → Nat) : Token.opening.rename f = .opening := rfl

theorem Token.rename_zero (token : Token) : token.rename (· + 0) = token := by
  cases token <;> rfl

def Term.rename (f : Nat → Nat) : Term → Term
  | .argument index => .argument (f index)
  | term => term

def Condition.rename (f : Nat → Nat) : Condition → Condition
  | .isNull term => .isNull (term.rename f)
  | .unequal left right => .unequal (left.rename f) (right.rename f)
  | .like term pattern escape => .like (term.rename f) (pattern.rename f) (escape.rename f)
  | .not condition => .not (condition.rename f)
  | .and left right => .and (left.rename f) (right.rename f)
  | .or left right => .or (left.rename f) (right.rename f)

/-- What a reader returns, numbered on. -/
def readRenamed {α : Type} (rename : α → α) (f : Nat → Nat) : α × List Token → α × List Token
  | (read, rest) => (rename read, rest.map (Token.rename f))

theorem parseTerm_rename (f : Nat → Nat) (tokens : List Token) :
    parseTerm (tokens.map (Token.rename f)) = (parseTerm tokens).map (readRenamed (Term.rename f) f) := by
  cases tokens with
  | nil => rfl
  | cons token rest => cases token <;> rfl

theorem parseComparison_rename (f : Nat → Nat) (term : Term) (tokens : List Token) :
    parseComparison (term.rename f) (tokens.map (Token.rename f)) =
      (parseComparison term tokens).map (readRenamed (Condition.rename f) f) := by
  cases tokens with
  | nil => rfl
  | cons first tokens =>
      cases first with
      | unequal =>
          simp only [List.map_cons, Token.rename, parseComparison, parseTerm_rename, Option.bind_eq_bind]
          cases parseTerm tokens <;> rfl
      | word first =>
          cases tokens with
          | nil => rfl
          | cons second tokens =>
              cases second with
              | word second =>
                  simp only [List.map_cons, Token.rename, parseComparison, parseTerm_rename]
                  split
                  · rfl
                  · split
                    · cases hpattern : parseTerm tokens with
                      | none => rfl
                      | some read =>
                          obtain ⟨pattern, tokens⟩ := read
                          cases tokens with
                          | nil => rfl
                          | cons third tokens =>
                              cases third with
                              | word third =>
                                  simp only [readRenamed, List.map_cons, Token.rename, Option.bind_eq_bind,
                                    Option.map_some, Option.bind_some, parseTerm_rename]
                                  split
                                  · cases parseTerm tokens <;> rfl
                                  · rfl
                              | _ => rfl
                    · rfl
              | _ => rfl
      | _ => rfl

/-- Reading does not depend on the numbers of the placeholders. -/
structure ReadsRenamed (f : Nat → Nat) (fuel : Nat) : Prop where
  or : ∀ tokens, parseOr fuel (tokens.map (Token.rename f)) =
    (parseOr fuel tokens).map (readRenamed (Condition.rename f) f)
  orRest : ∀ left tokens, parseOrRest fuel (left.rename f) (tokens.map (Token.rename f)) =
    (parseOrRest fuel left tokens).map (readRenamed (Condition.rename f) f)
  and : ∀ tokens, parseAnd fuel (tokens.map (Token.rename f)) =
    (parseAnd fuel tokens).map (readRenamed (Condition.rename f) f)
  andRest : ∀ left tokens, parseAndRest fuel (left.rename f) (tokens.map (Token.rename f)) =
    (parseAndRest fuel left tokens).map (readRenamed (Condition.rename f) f)
  primary : ∀ tokens, parsePrimary fuel (tokens.map (Token.rename f)) =
    (parsePrimary fuel tokens).map (readRenamed (Condition.rename f) f)

theorem parsePrimary_of_ne {fuel : Nat} {tokens : List Token} (h : ∀ rest, tokens ≠ .opening :: rest) :
    parsePrimary fuel tokens = (parseTerm tokens).bind fun read => parseComparison read.1 read.2 := by
  cases tokens with
  | nil => cases fuel <;> rfl
  | cons token rest =>
      cases token with
      | opening => exact absurd rfl (h rest)
      | _ => cases fuel <;> rfl

theorem parsePrimary_opening (fuel : Nat) (rest : List Token) :
    parsePrimary (fuel + 1) (.opening :: rest) =
      (parseOr fuel rest).bind fun read =>
        match read.2 with
        | .closing :: rest => some (read.1, rest)
        | _ => none := rfl

theorem parseTerm_comparison_rename (f : Nat → Nat) (tokens : List Token) :
    ((parseTerm (tokens.map (Token.rename f))).bind fun read => parseComparison read.1 read.2) =
      ((parseTerm tokens).bind fun read => parseComparison read.1 read.2).map (readRenamed (Condition.rename f) f) := by
  rw [parseTerm_rename]
  cases parseTerm tokens with
  | none => rfl
  | some read => exact parseComparison_rename f read.1 read.2

theorem rename_ne_opening {f : Nat → Nat} {tokens : List Token} (h : ∀ rest, tokens ≠ .opening :: rest) :
    ∀ rest, tokens.map (Token.rename f) ≠ .opening :: rest := by
  cases tokens with
  | nil => simp
  | cons token rest =>
      cases token with
      | opening => exact absurd rfl (h rest)
      | _ => simp [Token.rename]

theorem readsRenamed (f : Nat → Nat) (fuel : Nat) : ReadsRenamed f fuel := by
  induction fuel with
  | zero =>
      refine ⟨fun _ => rfl, fun _ _ => rfl, fun _ => rfl, fun _ _ => rfl, fun tokens => ?_⟩
      by_cases hopening : ∃ rest, tokens = .opening :: rest
      · obtain ⟨rest, rfl⟩ := hopening
        rfl
      · have hne := not_exists.mp hopening
        rw [parsePrimary_of_ne hne, parsePrimary_of_ne (rename_ne_opening hne), parseTerm_comparison_rename]
  | succ fuel ih =>
      refine ⟨fun tokens => ?_, fun left tokens => ?_, fun tokens => ?_, fun left tokens => ?_, fun tokens => ?_⟩
      · rw [parseOr, parseOr, ih.and]
        cases parseAnd fuel tokens with
        | none => rfl
        | some read => exact ih.orRest read.1 read.2
      · cases tokens with
        | nil => rfl
        | cons token rest =>
            cases token with
            | word name =>
                rw [List.map_cons, Token.rename_word, parseOrRest, parseOrRest, ih.and]
                split
                · cases parseAnd fuel rest with
                  | none => rfl
                  | some read => exact ih.orRest (.or left read.1) read.2
                · rfl
            | _ => rfl
      · rw [parseAnd, parseAnd, ih.primary]
        cases parsePrimary fuel tokens with
        | none => rfl
        | some read => exact ih.andRest read.1 read.2
      · cases tokens with
        | nil => rfl
        | cons token rest =>
            cases token with
            | word name =>
                rw [List.map_cons, Token.rename_word, parseAndRest, parseAndRest, ih.primary]
                split
                · cases parsePrimary fuel rest with
                  | none => rfl
                  | some read => exact ih.andRest (.and left read.1) read.2
                · rfl
            | _ => rfl
      · by_cases hopening : ∃ rest, tokens = .opening :: rest
        · obtain ⟨rest, rfl⟩ := hopening
          rw [List.map_cons, Token.rename_opening, parsePrimary_opening, parsePrimary_opening, ih.or]
          cases parseOr fuel rest with
          | none => rfl
          | some read =>
              obtain ⟨condition, behind⟩ := read
              cases behind with
              | nil => rfl
              | cons token behind => cases token <;> rfl
        · have hne := not_exists.mp hopening
          rw [parsePrimary_of_ne hne, parsePrimary_of_ne (rename_ne_opening hne), parseTerm_comparison_rename]

/-! ## What may come behind -/

/-- A reader of conjunctions ends where no `AND` comes. -/
def EndsAnd (rest : List Token) : Prop := rest.head? ≠ some (.word (ascii "AND"))

/-- A reader of disjunctions ends where neither word comes. -/
def EndsOr (rest : List Token) : Prop := rest.head? ≠ some (.word (ascii "OR")) ∧ EndsAnd rest

theorem endsOr_closing (rest : List Token) : EndsOr (.closing :: rest) := ⟨by simp, by simp [EndsAnd]⟩

/-- Where neither word comes, both readers of what is behind a condition stop. -/
theorem parseRest_of_ends {fuel : Nat} {left : Condition} {tokens : List Token} :
    (tokens.head? ≠ some (.word (ascii "OR")) → parseOrRest fuel left tokens = some (left, tokens)) ∧
      (EndsAnd tokens → parseAndRest fuel left tokens = some (left, tokens)) := by
  cases fuel with
  | zero => exact ⟨fun _ => rfl, fun _ => rfl⟩
  | succ fuel =>
      cases tokens with
      | nil => exact ⟨fun _ => rfl, fun _ => rfl⟩
      | cons token rest =>
          cases token with
          | word name =>
              exact ⟨fun h => if_neg fun heq => h (by rw [List.head?_cons, heq]),
                fun h => if_neg fun heq => h (by rw [List.head?_cons, heq])⟩
          | _ => exact ⟨fun _ => rfl, fun _ => rfl⟩

theorem parseOrRest_of_ends {fuel : Nat} {left : Condition} {tokens : List Token}
    (h : tokens.head? ≠ some (.word (ascii "OR"))) : parseOrRest fuel left tokens = some (left, tokens) :=
  parseRest_of_ends.1 h

theorem parseAndRest_of_ends {fuel : Nat} {left : Condition} {tokens : List Token} (h : EndsAnd tokens) :
    parseAndRest fuel left tokens = some (left, tokens) :=
  parseRest_of_ends.2 h

theorem parseTerm_append {tokens rest : List Token} {term : Term} (h : parseTerm tokens = some (term, rest))
    (behind : List Token) : parseTerm (tokens ++ behind) = some (term, rest ++ behind) := by
  cases tokens with
  | nil => cases h
  | cons token tokens => cases token <;> cases h <;> rfl

theorem parseComparison_append {term : Term} {tokens rest : List Token} {condition : Condition}
    (h : parseComparison term tokens = some (condition, rest)) (behind : List Token) :
    parseComparison term (tokens ++ behind) = some (condition, rest ++ behind) := by
  cases tokens with
  | nil => cases h
  | cons first tokens =>
      cases first with
      | unequal =>
          simp only [parseComparison, Option.bind_eq_bind, Option.bind_eq_some_iff, List.cons_append] at h ⊢
          obtain ⟨⟨right, left⟩, hterm, hread⟩ := h
          cases hread
          exact ⟨_, parseTerm_append hterm behind, rfl⟩
      | word first =>
          cases tokens with
          | nil => cases h
          | cons second tokens =>
              cases second with
              | word second =>
                  simp only [parseComparison, List.cons_append] at h ⊢
                  split at h
                  · next hnull =>
                    rw [if_pos hnull]
                    cases h
                    rfl
                  · next hnull =>
                    rw [if_neg hnull]
                    split at h
                    · next hlike =>
                      rw [if_pos hlike]
                      simp only [Option.bind_eq_bind, Option.bind_eq_some_iff] at h ⊢
                      obtain ⟨⟨pattern, left⟩, hterm, hread⟩ := h
                      refine ⟨_, parseTerm_append hterm behind, ?_⟩
                      cases left with
                      | nil => cases hread
                      | cons third left =>
                          cases third with
                          | word third =>
                              simp only [List.cons_append] at hread ⊢
                              split at hread
                              · next hescape =>
                                rw [if_pos hescape]
                                rw [Option.bind_eq_some_iff] at hread ⊢
                                obtain ⟨⟨escape, left⟩, hterm', hread⟩ := hread
                                cases hread
                                exact ⟨_, parseTerm_append hterm' behind, rfl⟩
                              · cases hread
                          | _ => cases hread
                    · cases h
              | _ => cases h
      | _ => cases h

/-- What is read is read with more fuel, too, and with more tokens behind it. -/
structure ReadsOn (fuel : Nat) : Prop where
  or : ∀ {fuel' tokens rest condition}, fuel ≤ fuel' → parseOr fuel tokens = some (condition, rest) → EndsOr rest →
    ∀ {behind}, EndsOr (rest ++ behind) → parseOr fuel' (tokens ++ behind) = some (condition, rest ++ behind)
  orRest : ∀ {fuel' left tokens rest condition}, fuel ≤ fuel' → parseOrRest fuel left tokens = some (condition, rest) →
    EndsOr rest → ∀ {behind}, EndsOr (rest ++ behind) →
      parseOrRest fuel' left (tokens ++ behind) = some (condition, rest ++ behind)
  and : ∀ {fuel' tokens rest condition}, fuel ≤ fuel' → parseAnd fuel tokens = some (condition, rest) → EndsAnd rest →
    ∀ {behind}, EndsAnd (rest ++ behind) → parseAnd fuel' (tokens ++ behind) = some (condition, rest ++ behind)
  andRest : ∀ {fuel' left tokens rest condition}, fuel ≤ fuel' → parseAndRest fuel left tokens = some (condition, rest) →
    EndsAnd rest → ∀ {behind}, EndsAnd (rest ++ behind) →
      parseAndRest fuel' left (tokens ++ behind) = some (condition, rest ++ behind)
  primary : ∀ {fuel' tokens rest condition}, fuel ≤ fuel' → parsePrimary fuel tokens = some (condition, rest) →
    ∀ behind, parsePrimary fuel' (tokens ++ behind) = some (condition, rest ++ behind)

theorem endsAnd_of_parseOrRest {fuel : Nat} {left condition : Condition} {tokens rest : List Token}
    (h : parseOrRest fuel left tokens = some (condition, rest)) (hends : EndsOr rest) : EndsAnd tokens := by
  intro hand
  have hor : tokens.head? ≠ some (.word (ascii "OR")) := by
    rw [hand]
    decide
  rw [parseOrRest_of_ends hor] at h
  cases h
  exact hends.2 hand

theorem endsAnd_append_of_parseOrRest {fuel : Nat} {left condition : Condition} {tokens rest behind : List Token}
    (h : parseOrRest fuel left tokens = some (condition, rest)) (hends : EndsOr rest) (hbehind : EndsOr (rest ++ behind)) :
    EndsAnd (tokens ++ behind) := by
  cases tokens with
  | nil =>
      rw [parseOrRest_of_ends (by simp)] at h
      cases h
      exact hbehind.2
  | cons token tokens =>
      have hands : EndsAnd (token :: tokens) := endsAnd_of_parseOrRest h hends
      exact hands

theorem parseTerm_comparison_append {tokens rest : List Token} {condition : Condition}
    (h : ((parseTerm tokens).bind fun read => parseComparison read.1 read.2) = some (condition, rest))
    (behind : List Token) :
    ((parseTerm (tokens ++ behind)).bind fun read => parseComparison read.1 read.2) = some (condition, rest ++ behind) := by
  rw [Option.bind_eq_some_iff] at h ⊢
  obtain ⟨⟨term, left⟩, hterm, hcomparison⟩ := h
  exact ⟨_, parseTerm_append hterm behind, parseComparison_append hcomparison behind⟩

theorem append_ne_opening {tokens behind : List Token} (hne : tokens ≠ []) (h : ∀ rest, tokens ≠ .opening :: rest) :
    ∀ rest, tokens ++ behind ≠ .opening :: rest := by
  obtain ⟨token, tokens, rfl⟩ := List.exists_cons_of_ne_nil hne
  intro rest heq
  rw [List.cons_append, List.cons_eq_cons] at heq
  exact h tokens (by rw [heq.1])

theorem primary_append {fuel fuel' : Nat} {tokens rest : List Token} {condition : Condition}
    (hne : ∀ rest, tokens ≠ .opening :: rest) (h : parsePrimary fuel tokens = some (condition, rest))
    (behind : List Token) : parsePrimary fuel' (tokens ++ behind) = some (condition, rest ++ behind) := by
  rw [parsePrimary_of_ne hne] at h
  have hnil : tokens ≠ [] := by
    rintro rfl
    cases h
  rw [parsePrimary_of_ne (append_ne_opening hnil hne)]
  exact parseTerm_comparison_append h behind

theorem readsOn (fuel : Nat) : ReadsOn fuel := by
  induction fuel with
  | zero =>
      refine ⟨fun _ h => ?_, fun _ h hends _ hbehind => ?_, fun _ h => ?_, fun _ h hends _ hbehind => ?_,
        fun {fuel' tokens rest condition} _ h behind => ?_⟩
      · cases h
      · cases h
        exact parseOrRest_of_ends hbehind.1
      · cases h
      · cases h
        exact parseAndRest_of_ends hbehind
      · refine primary_append (fun opened heq => ?_) h behind
        rw [heq] at h
        cases h
  | succ fuel ih =>
      refine ⟨fun {fuel' tokens rest condition} hle h hends behind hbehind => ?_,
        fun {fuel' left tokens rest condition} hle h hends behind hbehind => ?_,
        fun {fuel' tokens rest condition} hle h hends behind hbehind => ?_,
        fun {fuel' left tokens rest condition} hle h hends behind hbehind => ?_,
        fun {fuel' tokens rest condition} hle h behind => ?_⟩
      all_goals
        obtain ⟨more, rfl⟩ := Nat.exists_eq_add_of_le' (Nat.le_trans (Nat.succ_le_succ (Nat.zero_le fuel)) hle)
        have hless : fuel ≤ more := Nat.le_of_succ_le_succ hle
      · simp only [parseOr, Option.bind_eq_bind, Option.bind_eq_some_iff] at h ⊢
        obtain ⟨⟨left, middle⟩, hleft, hright⟩ := h
        exact ⟨_, ih.and hless hleft (endsAnd_of_parseOrRest hright hends)
          (endsAnd_append_of_parseOrRest hright hends hbehind),
          ih.orRest hless hright hends hbehind⟩
      · by_cases hor : tokens.head? = some (.word (ascii "OR"))
        · obtain ⟨tokens, rfl⟩ := List.head?_eq_some_iff.mp hor
          simp only [List.cons_append, parseOrRest, if_true, Option.bind_eq_bind, Option.bind_eq_some_iff] at h ⊢
          obtain ⟨⟨right, middle⟩, hright, hlater⟩ := h
          exact ⟨_, ih.and hless hright (endsAnd_of_parseOrRest hlater hends)
            (endsAnd_append_of_parseOrRest hlater hends hbehind),
            ih.orRest hless hlater hends hbehind⟩
        · rw [parseOrRest_of_ends hor] at h
          cases h
          exact parseOrRest_of_ends hbehind.1
      · simp only [parseAnd, Option.bind_eq_bind, Option.bind_eq_some_iff] at h ⊢
        obtain ⟨⟨left, middle⟩, hleft, hright⟩ := h
        exact ⟨_, ih.primary hless hleft behind, ih.andRest hless hright hends hbehind⟩
      · by_cases hand : tokens.head? = some (.word (ascii "AND"))
        · obtain ⟨tokens, rfl⟩ := List.head?_eq_some_iff.mp hand
          simp only [List.cons_append, parseAndRest, if_true, Option.bind_eq_bind, Option.bind_eq_some_iff] at h ⊢
          obtain ⟨⟨right, middle⟩, hright, hlater⟩ := h
          exact ⟨_, ih.primary hless hright behind, ih.andRest hless hlater hends hbehind⟩
        · rw [parseAndRest_of_ends hand] at h
          cases h
          exact parseAndRest_of_ends hbehind
      · by_cases hopening : ∃ opened, tokens = .opening :: opened
        · obtain ⟨opened, rfl⟩ := hopening
          rw [parsePrimary_opening, Option.bind_eq_some_iff] at h
          rw [List.cons_append, parsePrimary_opening, Option.bind_eq_some_iff]
          obtain ⟨⟨inner, middle⟩, hinner, hclosed⟩ := h
          cases middle with
          | nil => cases hclosed
          | cons token middle =>
              cases token with
              | closing =>
                  cases hclosed
                  exact ⟨_, ih.or hless hinner (endsOr_closing _) (endsOr_closing _), rfl⟩
              | _ => cases hclosed
        · exact primary_append (not_exists.mp hopening) h behind

/-! ## The tokens of a text in parentheses -/

def Token.isPlaceholder : Token → Bool
  | .placeholder _ => true
  | _ => false

/-- The number of placeholders of a text. -/
def placeholders (text : Bytes) : Nat := ((tokens text).getD []).countP Token.isPlaceholder

theorem lex_rename (count : Nat) (before : List Token) (mode : LexMode) (number : Nat) (found : List Token) (text : Bytes) :
    lex mode (number + count) (found.map (Token.rename (· + count)) ++ before) text =
      (lex mode number found text).map fun out => out.map (Token.rename (· + count)) ++ before := by
  have hnumber : ∀ number : Nat, number + 1 + count = number + count + 1 := fun number => Nat.add_right_comm number 1 count
  fun_induction lex mode number found text <;> simp_all [lex, Token.rename]

theorem lex_closing {mode : LexMode} {number : Nat} {found out : List Token} {text : Bytes}
    (h : lex mode number found text = some out) (hnumber : found.countP Token.isPlaceholder = number) (rest : Bytes) :
    lex mode number found (text ++ 0x29 :: rest) =
      lex .gap (out.countP Token.isPlaceholder) (.closing :: out) rest := by
  have hword : isWordByte 0x29 = false := by decide
  fun_induction lex mode number found text
  -- the word at the end becomes a token where the parenthesis comes
  case case2 =>
    obtain rfl := Option.some.inj h
    simp_all [lex, Token.isPlaceholder]
  all_goals simp_all [lex, Token.isPlaceholder, List.countP_cons]

theorem lex_placeholder_lt {mode : LexMode} {number : Nat} {found out : List Token} {text : Bytes}
    (h : lex mode number found text = some out) (hnumber : found.countP Token.isPlaceholder = number)
    (hfound : ∀ index, Token.placeholder index ∈ found → index < number) :
    ∀ index, Token.placeholder index ∈ out → index < out.countP Token.isPlaceholder := by
  fun_induction lex mode number found text
  case case2 =>
    obtain rfl := Option.some.inj h
    simp_all [Token.isPlaceholder]
  case case17 ih =>
    refine ih h (by simp_all [Token.isPlaceholder, List.countP_cons]) fun index hindex => ?_
    rcases List.mem_cons.mp hindex with heq | hindex
    · cases heq
      exact Nat.lt_succ_self _
    · exact Nat.lt_succ_of_lt (hfound index hindex)
  all_goals simp_all [Token.isPlaceholder]

theorem countP_rename (f : Nat → Nat) (found : List Token) :
    (found.map (Token.rename f)).countP Token.isPlaceholder = found.countP Token.isPlaceholder := by
  rw [List.countP_map]
  refine List.countP_congr fun token _ => ?_
  cases token <;> rfl

theorem lex_inside {text : Bytes} {out : List Token} (h : lex .gap 0 [] text = some out) (before : List Token)
    (hbefore : before.countP Token.isPlaceholder = count) (rest : Bytes) :
    lex .gap count before (text ++ 0x29 :: rest) =
      lex .gap (out.countP Token.isPlaceholder + count)
        (.closing :: (out.map (Token.rename (· + count)) ++ before)) rest := by
  have hrename := lex_rename count before .gap 0 [] text
  rw [Nat.zero_add, List.map_nil, List.nil_append, h, Option.map_some] at hrename
  rw [lex_closing hrename hbefore, List.countP_append, countP_rename, hbefore]

theorem tokens_conjunction {left right : Bytes} {first second : List Token} (hleft : tokens left = some first)
    (hright : tokens right = some second) :
    tokens (ascii "(" ++ (left ++ (ascii ") AND (" ++ (right ++ ascii ")")))) =
      some (.opening :: (first ++ (.closing :: .word (ascii "AND") :: .opening ::
        (second.map (Token.rename (· + placeholders left)) ++ [.closing])))) := by
  have hplaceholders : placeholders left = first.countP Token.isPlaceholder := by
    rw [placeholders, hleft, Option.getD_some]
  obtain ⟨front, hfront, rfl⟩ := Option.map_eq_some_iff.mp hleft
  obtain ⟨back, hback, rfl⟩ := Option.map_eq_some_iff.mp hright
  rw [List.countP_reverse] at hplaceholders
  have hand : ∀ number before rest, lex .gap number before (ascii " AND (" ++ rest) =
      lex .gap number (.opening :: .word (ascii "AND") :: before) rest := fun _ _ _ => rfl
  have hopen : lex .gap 0 [] (ascii "(" ++ (left ++ (ascii ") AND (" ++ (right ++ ascii ")")))) =
      lex .gap 0 [.opening] (left ++ 0x29 :: (ascii " AND (" ++ (right ++ 0x29 :: []))) := rfl
  have hfirst : ∀ rest, lex .gap 0 [.opening] (left ++ 0x29 :: rest) =
      lex .gap (placeholders left) (.closing :: (front ++ [.opening])) rest := by
    intro rest
    have hinside := @lex_inside 0 left front hfront [.opening] rfl rest
    rwa [List.map_congr_left fun token _ => token.rename_zero, List.map_id', Nat.add_zero, ← hplaceholders] at hinside
  have hcount : (Token.opening :: .word (ascii "AND") :: .closing :: (front ++ [.opening])).countP Token.isPlaceholder =
      placeholders left := by
    rw [hplaceholders]
    simp [Token.isPlaceholder]
  rw [tokens, hopen, hfirst, hand, lex_inside hback _ hcount]
  simp [lex]

theorem placeholders_conjunction {left right : Bytes} {first second : List Token} (hleft : tokens left = some first)
    (hright : tokens right = some second) :
    placeholders (ascii "(" ++ (left ++ (ascii ") AND (" ++ (right ++ ascii ")")))) =
      placeholders left + placeholders right := by
  simp only [placeholders, tokens_conjunction hleft hright, hleft, hright, Option.getD_some, List.countP_cons,
    List.countP_append, countP_rename, List.countP_nil]
  simp [Token.isPlaceholder]

/-! ## The condition -/

theorem parse_eq_some {text : Bytes} {condition : Condition} (h : parse text = some condition) :
    ∃ found, tokens text = some found ∧ parseOr (4 * found.length + 4) found = some (condition, []) := by
  rw [parse, Option.bind_eq_bind, Option.bind_eq_some_iff] at h
  obtain ⟨found, htokens, hread⟩ := h
  refine ⟨found, htokens, ?_⟩
  split at hread
  · next heq =>
    rw [heq, ← Option.some.inj hread]
  · cases hread

theorem parsePrimary_inside {found : List Token} {condition : Condition} {fuel fuel' : Nat}
    (h : parseOr fuel found = some (condition, [])) (hfuel : fuel ≤ fuel') (rest : List Token) :
    parsePrimary (fuel' + 1) (.opening :: (found ++ .closing :: rest)) = some (condition, rest) := by
  have hends : EndsOr [] := ⟨by simp, by simp [EndsAnd]⟩
  rw [parsePrimary_opening, (readsOn fuel).or hfuel h hends (endsOr_closing rest)]
  rfl

theorem parse_conjunction {left right : Bytes} {first second : Condition} (hleft : parse left = some first)
    (hright : parse right = some second) :
    parse (ascii "(" ++ (left ++ (ascii ") AND (" ++ (right ++ ascii ")")))) =
      some (.and first (second.rename (· + placeholders left))) := by
  obtain ⟨front, hfront, hfirst⟩ := parse_eq_some hleft
  obtain ⟨back, hback, hsecond⟩ := parse_eq_some hright
  have hrenamed : parseOr (4 * back.length + 4) (back.map (Token.rename (· + placeholders left))) =
      some (second.rename (· + placeholders left), []) := by
    rw [(readsRenamed _ _).or, hsecond]
    rfl
  rw [parse, tokens_conjunction hfront hback, Option.bind_eq_bind, Option.bind_some]
  obtain ⟨fuel, hfuel, hroom⟩ : ∃ fuel, 4 * (Token.opening :: (front ++ .closing :: .word (ascii "AND") :: .opening ::
      (back.map (Token.rename (· + placeholders left)) ++ [.closing]))).length + 4 = fuel + 4 ∧
      4 * front.length + 4 ≤ fuel ∧ 4 * back.length + 4 ≤ fuel := by
    refine ⟨_, rfl, ?_, ?_⟩ <;>
      · simp only [List.length_cons, List.length_append, List.length_map]
        omega
  have hend : EndsAnd ([] : List Token) := by simp [EndsAnd]
  have hrest : parseAndRest (fuel + 2) first (.word (ascii "AND") :: .opening ::
      (back.map (Token.rename (· + placeholders left)) ++ [.closing])) =
      some (.and first (second.rename (· + placeholders left)), []) := by
    rw [parseAndRest, if_pos rfl, parsePrimary_inside hrenamed hroom.2]
    exact parseAndRest_of_ends hend
  have hor : parseOr (fuel + 4) (.opening :: (front ++ .closing :: .word (ascii "AND") :: .opening ::
      (back.map (Token.rename (· + placeholders left)) ++ [.closing]))) =
      some (.and first (second.rename (· + placeholders left)), []) := by
    have hfirst' := parsePrimary_inside hfirst (Nat.le_succ_of_le hroom.1) (.word (ascii "AND") :: .opening ::
      (back.map (Token.rename (· + placeholders left)) ++ [.closing]))
    rw [parseOr, parseAnd, hfirst']
    simp only [Option.bind_eq_bind, Option.bind_some, hrest]
    exact parseOrRest_of_ends (by simp)
  rw [hfuel, hor]
  rfl

/-! ## Its truth -/

def Term.arguments : Term → List Nat
  | .argument index => [index]
  | _ => []

/-- The arguments that a condition asks for. -/
def Condition.arguments : Condition → List Nat
  | .isNull term => term.arguments
  | .unequal left right => left.arguments ++ right.arguments
  | .like term pattern escape => term.arguments ++ pattern.arguments ++ escape.arguments
  | .not condition => condition.arguments
  | .and left right | .or left right => left.arguments ++ right.arguments

section Truth
variable {row : Bytes → Option Bytes} {f : Nat → Nat} {arguments arguments' : List Bytes}

theorem Term.value_rename {term : Term} (h : ∀ index ∈ term.arguments, arguments'[f index]? = arguments[index]?) :
    (term.rename f).value row arguments' = term.value row arguments := by
  cases term with
  | argument index => exact h index (List.mem_singleton_self _)
  | _ => rfl

theorem Condition.truth_rename {condition : Condition}
    (h : ∀ index ∈ condition.arguments, arguments'[f index]? = arguments[index]?) :
    (condition.rename f).truth row arguments' = condition.truth row arguments := by
  induction condition with
  | isNull term => rw [Condition.rename, Condition.truth, Condition.truth, Term.value_rename h]
  | unequal left right =>
      rw [Condition.arguments, List.forall_mem_append] at h
      rw [Condition.rename, Condition.truth, Condition.truth, Term.value_rename h.1, Term.value_rename h.2]
  | like term pattern escape =>
      rw [Condition.arguments, List.forall_mem_append, List.forall_mem_append] at h
      rw [Condition.rename, Condition.truth, Condition.truth, Term.value_rename h.1.1, Term.value_rename h.1.2,
        Term.value_rename h.2]
  | not condition ih => rw [Condition.rename, Condition.truth, Condition.truth, ih h]
  | and left right ihLeft ihRight =>
      rw [Condition.arguments, List.forall_mem_append] at h
      rw [Condition.rename, Condition.truth, Condition.truth, ihLeft h.1, ihRight h.2]
  | or left right ihLeft ihRight =>
      rw [Condition.arguments, List.forall_mem_append] at h
      rw [Condition.rename, Condition.truth, Condition.truth, ihLeft h.1, ihRight h.2]

theorem Term.rename_id (term : Term) : term.rename id = term := by
  cases term <;> rfl

theorem Condition.rename_id (condition : Condition) : condition.rename id = condition := by
  induction condition <;> simp_all [Condition.rename, Term.rename_id]

theorem Term.eq_of_rename {term : Term} (h : term.rename f = term) : ∀ index ∈ term.arguments, f index = index := by
  cases term with
  | argument index =>
      rw [Term.arguments, List.forall_mem_singleton]
      exact Term.argument.inj h
  | _ => exact List.forall_mem_nil _

theorem Condition.eq_of_rename {condition : Condition} (h : condition.rename f = condition) :
    ∀ index ∈ condition.arguments, f index = index := by
  induction condition with
  | isNull term => exact Term.eq_of_rename (Condition.isNull.inj h)
  | unequal left right =>
      rw [Condition.rename, Condition.unequal.injEq] at h
      rw [Condition.arguments, List.forall_mem_append]
      exact ⟨Term.eq_of_rename h.1, Term.eq_of_rename h.2⟩
  | like term pattern escape =>
      rw [Condition.rename, Condition.like.injEq] at h
      rw [Condition.arguments, List.forall_mem_append, List.forall_mem_append]
      exact ⟨⟨Term.eq_of_rename h.1, Term.eq_of_rename h.2.1⟩, Term.eq_of_rename h.2.2⟩
  | not condition ih => exact ih (Condition.not.inj h)
  | and left right ihLeft ihRight =>
      rw [Condition.rename, Condition.and.injEq] at h
      rw [Condition.arguments, List.forall_mem_append]
      exact ⟨ihLeft h.1, ihRight h.2⟩
  | or left right ihLeft ihRight =>
      rw [Condition.rename, Condition.or.injEq] at h
      rw [Condition.arguments, List.forall_mem_append]
      exact ⟨ihLeft h.1, ihRight h.2⟩

/-- A condition asks for arguments of placeholders of its text only: renaming others changes nothing. -/
theorem arguments_lt_placeholders {text : Bytes} {condition : Condition} (h : parse text = some condition) :
    ∀ index ∈ condition.arguments, index < placeholders text := by
  obtain ⟨found, hfound, hread⟩ := parse_eq_some h
  have hplaceholders : placeholders text = found.countP Token.isPlaceholder := by
    rw [placeholders, hfound, Option.getD_some]
  obtain ⟨out, hout, rfl⟩ := Option.map_eq_some_iff.mp hfound
  have hlt := lex_placeholder_lt hout rfl (by simp)
  rw [List.countP_reverse] at hplaceholders
  let f : Nat → Nat := fun index => if index < placeholders text then index else index + 1
  have hsame : out.reverse.map (Token.rename f) = out.reverse := by
    refine (List.map_congr_left fun token htoken => ?_).trans (List.map_id _)
    cases token with
    | placeholder index =>
        have hindex := hlt index (List.mem_reverse.mp htoken)
        rw [← hplaceholders] at hindex
        exact congrArg Token.placeholder (if_pos hindex)
    | _ => rfl
  have hrenamed := (readsRenamed f (4 * out.reverse.length + 4)).or out.reverse
  rw [hsame, hread, Option.map_some, readRenamed, Option.some.injEq, Prod.mk.injEq] at hrenamed
  intro index hindex
  have heq : f index = index := Condition.eq_of_rename hrenamed.1.symm index hindex
  by_contra hge
  rw [show f index = index + 1 from if_neg hge] at heq
  omega

/-- **A conjunction of texts is the conjunction of their conditions**, each with its own arguments. -/
theorem parse_conjunction_truth {left right : Bytes} {first second : Condition} (hleft : parse left = some first)
    (hright : parse right = some second) (harguments : arguments.length = placeholders left) :
    ∃ condition, parse (ascii "(" ++ (left ++ (ascii ") AND (" ++ (right ++ ascii ")")))) = some condition ∧
      (condition.truth row (arguments ++ arguments') = some true ↔
        first.truth row arguments = some true ∧ second.truth row arguments' = some true) := by
  refine ⟨_, parse_conjunction hleft hright, ?_⟩
  have hfirst : first.truth row (arguments ++ arguments') = first.truth row arguments := by
    conv_lhs => rw [← first.rename_id]
    refine Condition.truth_rename fun index hindex => List.getElem?_append_left ?_
    rw [harguments]
    exact arguments_lt_placeholders hleft index hindex
  have hsecond : (second.rename (· + placeholders left)).truth row (arguments ++ arguments') =
      second.truth row arguments' := by
    refine Condition.truth_rename fun index _ => ?_
    rw [← harguments, List.getElem?_append_right (Nat.le_add_left _ _), Nat.add_sub_cancel]
  rw [Condition.truth_and, hfirst, hsecond]

end Truth

end PathGuard.Sql

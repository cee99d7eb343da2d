import PathGuard.Rules.ArrowScanner

/-!
# The tokens of a rules text

What the arrow scanner takes for strings and comments, without its frames: `Lexed text rest items` cuts the front of a
text into strings, comments, arrows and single bytes. A string ends where it does whatever comes after it, short of one
more quote; so a text can be cut, and something else put between the pieces.

* `scanStringToken_local` : a string ends where it does whatever comes after it;
* `Lexed`, `countArrows_eq` : the cut of a text, and its arrows;
* `replace`, `compare` : other text put in, and two cuts of one text.
-/

namespace PathGuard.Rules

/-! ## Strings -/

section Strings
variable {quote : UInt8} {basic : Bool}

theorem scanSingleLine_shift (rest : Bytes) (offset slashRun : Nat) :
    scanSingleLine quote basic rest offset slashRun =
      ⟨offset + (scanSingleLine quote basic rest 0 slashRun).last, false,
        (scanSingleLine quote basic rest 0 slashRun).terminated⟩ := by
  induction rest generalizing offset slashRun with
  | nil => rfl
  | cons value rest ih =>
      simp only [scanSingleLine]
      split
      · rfl
      · split
        · rfl
        · rw [ih (offset + 1), ih (0 + 1)]
          simp only [StringToken.mk.injEq, and_true]
          omega

theorem scanMultiline_shift (skip : Nat) (rest : Bytes) (offset slashRun : Nat) :
    scanMultiline quote basic skip rest offset slashRun =
      ⟨offset + (scanMultiline quote basic skip rest 0 slashRun).last, true,
        (scanMultiline quote basic skip rest 0 slashRun).terminated⟩ := by
  induction rest generalizing skip offset slashRun with
  | nil => cases skip <;> rfl
  | cons value rest ih =>
      cases skip with
      | succ skip =>
          simp only [scanMultiline]
          rw [ih skip (offset + 1), ih skip (0 + 1)]
          simp only [StringToken.mk.injEq, and_true]
          omega
      | zero =>
          simp only [scanMultiline]
          split
          · split
            · simp
            · split
              · simp only [StringToken.mk.injEq, and_true]
                omega
              · rw [ih _ (offset + 1), ih _ (0 + 1)]
                simp only [StringToken.mk.injEq, and_true]
                omega
          · rw [ih _ (offset + 1), ih _ (0 + 1)]
            simp only [StringToken.mk.injEq, and_true]
            omega

theorem scanSingleLine_bounds {rest : Bytes} {offset slashRun last : Nat} {multiline : Bool}
    (h : scanSingleLine quote basic rest offset slashRun = ⟨last, multiline, true⟩) :
    offset < last ∧ last ≤ offset + rest.length := by
  induction rest generalizing offset slashRun with
  | nil => cases h
  | cons value rest ih =>
      rw [List.length_cons]
      rw [scanSingleLine] at h
      split at h
      · cases h
      · split at h
        · cases h
          omega
        · have := ih h
          omega

theorem quoteRun_le (rest : Bytes) : quoteRun quote rest ≤ rest.length :=
  (List.takeWhile_prefix _).length_le

/-- How many bytes a run of quotes still adds to the string it ends, if it ends it. -/
def runEnd (basic : Bool) (slashRun run : Nat) : Option Nat :=
  if 3 ≤ run && (!basic || slashRun % 2 == 0) then some (min run 5)
  else if basic && slashRun % 2 == 1 && 4 ≤ run then some (min run 6)
  else none

theorem runEnd_bounds {slashRun run size : Nat} (h : runEnd basic slashRun run = some size) : 0 < size ∧ size ≤ run := by
  unfold runEnd at h
  split at h
  · next hclose =>
    simp only [Bool.and_eq_true, decide_eq_true_eq] at hclose
    obtain rfl := Option.some.inj h
    omega
  · split at h
    · next hescaped =>
      simp only [Bool.and_eq_true, decide_eq_true_eq] at hescaped
      obtain rfl := Option.some.inj h
      omega
    · cases h

theorem scanMultiline_run {value : UInt8} {rest : Bytes} {offset slashRun : Nat} (hquote : (value == quote) = true) :
    scanMultiline quote basic 0 (value :: rest) offset slashRun =
      match runEnd basic slashRun (quoteRun quote (value :: rest)) with
      | some size => ⟨offset + size, true, true⟩
      | none => scanMultiline quote basic (quoteRun quote (value :: rest) - 1) rest (offset + 1) 0 := by
  rw [scanMultiline, if_pos hquote]
  unfold runEnd
  dsimp only
  split
  · rfl
  · split
    · next hescaped =>
      simp only [Bool.and_eq_true, decide_eq_true_eq] at hescaped
      simp only [StringToken.mk.injEq, and_true]
      omega
    · rfl

theorem scanMultiline_bounds {skip : Nat} {rest : Bytes} {offset slashRun last : Nat} {multiline : Bool}
    (h : scanMultiline quote basic skip rest offset slashRun = ⟨last, multiline, true⟩) :
    offset + skip < last ∧ last ≤ offset + rest.length := by
  induction rest generalizing skip offset slashRun with
  | nil => cases skip <;> cases h
  | cons value rest ih =>
      rw [List.length_cons]
      cases skip with
      | succ skip =>
          rw [scanMultiline] at h
          have := ih h
          omega
      | zero =>
          by_cases hquote : (value == quote) = true
          · have hrun : quoteRun quote (value :: rest) ≤ rest.length + 1 := quoteRun_le _
            rw [scanMultiline_run hquote] at h
            cases hend : runEnd basic slashRun (quoteRun quote (value :: rest)) with
            | none =>
                rw [hend] at h
                have := ih h
                omega
            | some size =>
                rw [hend] at h
                have hsize := runEnd_bounds hend
                have := (StringToken.mk.inj h).1
                omega
          · rw [scanMultiline, if_neg hquote] at h
            have := ih h
            omega

/-! ### What comes after a string -/

/-- Nothing after it ends a string on one line elsewhere. -/
theorem scanSingleLine_local {token rest : Bytes} {offset slashRun : Nat} (rest' : Bytes)
    (h : scanSingleLine quote basic (token ++ rest) offset slashRun = ⟨offset + token.length, false, true⟩) :
    scanSingleLine quote basic (token ++ rest') offset slashRun = ⟨offset + token.length, false, true⟩ := by
  induction token generalizing offset slashRun with
  | nil =>
      have hbounds := scanSingleLine_bounds h
      simp at hbounds
  | cons value token ih =>
      simp only [List.cons_append, scanSingleLine] at h ⊢
      split
      · next hnewline => simp [hnewline] at h
      · next hnewline =>
        rw [if_neg hnewline] at h
        split
        · next hquote =>
          rw [if_pos hquote] at h
          exact h
        · next hquote =>
          rw [if_neg hquote] at h
          have hlength : offset + (value :: token).length = offset + 1 + token.length := by
            rw [List.length_cons]
            omega
          rw [hlength] at h ⊢
          exact ih h

/-- What may follow a string in the place of what does. -/
def QuoteFree (quote : UInt8) (rest rest' : Bytes) : Prop := rest'.head? = rest.head? ∨ rest'.head? ≠ some quote

theorem quoteRun_inside {token rest : Bytes} (rest' : Bytes) (h : quoteRun quote (token ++ rest) < token.length) :
    quoteRun quote (token ++ rest') = quoteRun quote (token ++ rest) := by
  unfold quoteRun at h ⊢
  rw [List.takeWhile_append] at h ⊢
  split at h
  · next hall =>
    simp only [List.length_append] at h
    omega
  · next hall =>
    rw [if_neg hall, List.takeWhile_append, if_neg hall]

theorem quoteRun_whole {token rest : Bytes} (h : token.length ≤ quoteRun quote (token ++ rest)) :
    quoteRun quote (token ++ rest) = token.length + quoteRun quote rest := by
  unfold quoteRun at h ⊢
  rw [List.takeWhile_append] at h ⊢
  split at h
  · next hall => rw [if_pos hall, List.length_append]
  · next hall =>
    have := (List.takeWhile_prefix (p := (· == quote)) (l := token)).length_le
    omega

theorem quoteRun_eq_zero {rest : Bytes} : quoteRun quote rest = 0 ↔ rest.head? ≠ some quote := by
  unfold quoteRun
  cases rest with
  | nil => simp
  | cons value rest =>
      by_cases hvalue : value = quote
      · simp [hvalue]
      · simp [hvalue]

theorem quoteRun_end {token rest rest' : Bytes} {cap : Nat} (hfree : QuoteFree quote rest rest')
    (hwhole : token.length ≤ quoteRun quote (token ++ rest))
    (hend : min (quoteRun quote (token ++ rest)) cap = token.length) :
    min (quoteRun quote (token ++ rest')) cap = token.length := by
  have hrest := quoteRun_whole hwhole
  have hall : token.length ≤ quoteRun quote (token ++ rest') := by
    unfold quoteRun at hwhole ⊢
    rw [List.takeWhile_append] at hwhole ⊢
    split at hwhole
    · next hall =>
      rw [if_pos hall]
      simp
    · next hall =>
      have := (List.takeWhile_prefix (p := (· == quote)) (l := token)).length_le
      omega
  have hrest' := quoteRun_whole hall
  by_cases hzero : quoteRun quote rest = 0
  · have hzero' : quoteRun quote rest' = 0 := by
      have hhead := quoteRun_eq_zero.mp hzero
      rw [quoteRun_eq_zero]
      obtain hsame | hfree := hfree
      · rw [hsame]
        exact hhead
      · exact hfree
    omega
  · omega

theorem runEnd_local {token rest rest' : Bytes} {slashRun : Nat} (hfree : QuoteFree quote rest rest')
    (hwhole : token.length ≤ quoteRun quote (token ++ rest))
    (h : runEnd basic slashRun (quoteRun quote (token ++ rest)) = some token.length) :
    runEnd basic slashRun (quoteRun quote (token ++ rest')) = some token.length := by
  unfold runEnd at h
  split at h
  · next hclose =>
    have hend := Option.some.inj h
    have hend' := quoteRun_end hfree hwhole hend
    simp only [Bool.and_eq_true, decide_eq_true_eq] at hclose
    have hthree : 3 ≤ quoteRun quote (token ++ rest') := by omega
    rw [runEnd, if_pos (by simp only [Bool.and_eq_true, decide_eq_true_eq]; exact ⟨hthree, hclose.2⟩), hend']
  · split at h
    · next hescaped =>
      simp only [Bool.and_eq_true, decide_eq_true_eq, beq_iff_eq] at hescaped
      have hend := Option.some.inj h
      have hend' := quoteRun_end hfree hwhole hend
      have hfour : 4 ≤ quoteRun quote (token ++ rest') := by omega
      rw [runEnd, if_neg (by simp [hescaped.1.1, hescaped.1.2]),
        if_pos (by simp only [Bool.and_eq_true, decide_eq_true_eq, beq_iff_eq]; exact ⟨hescaped.1, hfour⟩), hend']
    · cases h

/-- Nothing after it but a quote ends a string over several lines elsewhere. -/
theorem scanMultiline_local {skip : Nat} {token rest rest' : Bytes} {offset slashRun : Nat}
    (hfree : QuoteFree quote rest rest')
    (h : scanMultiline quote basic skip (token ++ rest) offset slashRun = ⟨offset + token.length, true, true⟩) :
    scanMultiline quote basic skip (token ++ rest') offset slashRun = ⟨offset + token.length, true, true⟩ := by
  induction token generalizing skip offset slashRun with
  | nil =>
      have hbounds := scanMultiline_bounds h
      simp only [List.length_nil, Nat.add_zero] at hbounds
      omega
  | cons value token ih =>
      have hlength : offset + (value :: token).length = offset + 1 + token.length := by
        rw [List.length_cons]
        omega
      cases skip with
      | succ skip =>
          simp only [List.cons_append, scanMultiline] at h ⊢
          rw [hlength] at h ⊢
          exact ih h
      | zero =>
          by_cases hquote : (value == quote) = true
          · rw [List.cons_append, scanMultiline_run hquote, ← List.cons_append] at h ⊢
            by_cases hinside : quoteRun quote ((value :: token) ++ rest) < (value :: token).length
            · rw [quoteRun_inside rest' hinside]
              cases hend : runEnd basic slashRun (quoteRun quote ((value :: token) ++ rest)) with
              | some size => rwa [hend] at h
              | none =>
                  rw [hend, hlength] at h
                  rw [hlength]
                  exact ih h
            · have hwhole := Nat.le_of_not_lt hinside
              cases hend : runEnd basic slashRun (quoteRun quote ((value :: token) ++ rest)) with
              | some size =>
                  rw [hend] at h
                  obtain rfl : size = (value :: token).length := by
                    have := (StringToken.mk.inj h).1
                    omega
                  rw [runEnd_local hfree hwhole hend]
              | none =>
                  -- the run ends the string too late to end it at all
                  rw [hend] at h
                  have hbounds := scanMultiline_bounds h
                  omega
          · rw [List.cons_append, scanMultiline, if_neg hquote, hlength] at h ⊢
            exact ih h

end Strings

/-! ### String tokens -/

def isQuote (value : UInt8) : Bool := value == doubleQuote || value == singleQuote

theorem scanStringToken_shift (bytes : Bytes) (start : Nat) :
    scanStringToken bytes start =
      ⟨start + (scanStringToken (bytes.drop start) 0).last, (scanStringToken (bytes.drop start) 0).multiline,
        (scanStringToken (bytes.drop start) 0).terminated⟩ := by
  unfold scanStringToken
  rw [List.drop_zero]
  cases bytes.drop start with
  | nil => rfl
  | cons quote rest =>
      dsimp only
      split
      · rw [scanMultiline_shift _ _ (start + 3), scanMultiline_shift _ _ (0 + 3)]
        simp only [StringToken.mk.injEq, and_true]
        omega
      · rw [scanSingleLine_shift _ (start + 1), scanSingleLine_shift _ (0 + 1)]
        simp only [StringToken.mk.injEq, and_true]
        omega

theorem scanStringToken_bounds {text : Bytes} {size : Nat} {multiline : Bool}
    (h : scanStringToken text 0 = ⟨size, multiline, true⟩) : 2 ≤ size ∧ size ≤ text.length := by
  unfold scanStringToken at h
  rw [List.drop_zero] at h
  cases text with
  | nil => cases h
  | cons quote rest =>
      dsimp only at h
      split at h
      · next hthree =>
        have hbounds := scanMultiline_bounds h
        have hlength : 2 ≤ rest.length := by
          have := congrArg List.length hthree
          rw [List.length_take] at this
          simp only [List.length_cons, List.length_nil] at this
          omega
        simp only [List.length_drop] at hbounds
        rw [List.length_cons]
        omega
      · have hbounds := scanSingleLine_bounds h
        rw [List.length_cons]
        omega

theorem scanStringToken_local {quote : UInt8} {token rest rest' : Bytes} {multiline : Bool}
    (hfree : QuoteFree quote rest rest')
    (h : scanStringToken (quote :: token ++ rest) 0 = ⟨(quote :: token).length, multiline, true⟩) :
    scanStringToken (quote :: token ++ rest') 0 = ⟨(quote :: token).length, multiline, true⟩ := by
  unfold scanStringToken at h ⊢
  rw [List.drop_zero, List.cons_append, List.length_cons] at h ⊢
  dsimp only at h ⊢
  split at h
  · next hthree =>
    -- three quotes are inside the token: one of two bytes would have ended before the third
    have hbounds := scanMultiline_bounds h
    obtain ⟨body, rfl⟩ : ∃ body, token = quote :: quote :: body := by
      match token, hthree with
      | first :: second :: body, hthree =>
          simp only [List.cons_append, List.take_succ_cons, List.take_zero, List.cons.injEq, and_true] at hthree
          exact ⟨body, by rw [hthree.1, hthree.2]⟩
      | [_], _ => simp at hbounds
      | [], _ => simp at hbounds
    rw [if_pos (by simp)]
    have hlength : (quote :: quote :: body).length + 1 = 0 + 3 + body.length := by
      simp only [List.length_cons]
      omega
    rw [hlength] at h ⊢
    obtain rfl : true = multiline := by
      rw [scanMultiline_shift] at h
      exact (StringToken.mk.inj h).2.1
    exact scanMultiline_local hfree h
  · next hthree =>
    obtain rfl : false = multiline := by
      rw [scanSingleLine_shift] at h
      exact (StringToken.mk.inj h).2.1
    have hlength : token.length + 1 = 0 + 1 + token.length := by omega
    rw [hlength] at h ⊢
    have hsame := scanSingleLine_local rest' h
    rw [if_neg ?_]
    · exact hsame
    · intro hthree'
      -- only the empty string needs the byte after it
      match token, hthree, hthree', h with
      | [], _, _, h =>
          have hbounds := scanSingleLine_bounds h
          simp at hbounds
      | [value], hthree, hthree', h =>
          simp only [List.cons_append, List.nil_append, List.take_succ_cons, List.cons.injEq] at hthree hthree'
          obtain ⟨rfl, hrest'⟩ := hthree'
          have hhead : rest'.head? = some value := by
            cases rest' with
            | nil => cases hrest'
            | cons other rest' => rw [List.head?_cons, (List.cons.inj hrest').1]
          obtain hsame | hne := hfree
          · refine hthree ⟨rfl, ?_⟩
            cases rest with
            | nil => rw [hhead] at hsame; cases hsame
            | cons other rest =>
                rw [hhead, List.head?_cons] at hsame
                rw [List.take_succ_cons, List.take_zero, Option.some.inj hsame]
          · exact hne hhead
      | first :: second :: body, hthree, hthree', _ =>
          exact hthree (by simpa using hthree')

/-! ## Cutting a text -/

inductive LexItem
  | plain
  | comment
  | string (multiline : Bool)
  | arrow
  deriving DecidableEq, Repr

/-- A byte that starts nothing longer. -/
def isPlain (value : UInt8) (text : Bytes) : Bool :=
  value != hashSign && !isQuote value && !(value == dash && text.head? == some greaterSign)

/-- The front of a text is cut into the items; the rest is left. -/
inductive Lexed : Bytes → Bytes → List LexItem → Prop
  | nil (rest : Bytes) : Lexed rest rest []
  | plain {value : UInt8} {text rest : Bytes} {items : List LexItem} :
      isPlain value text = true → Lexed text rest items → Lexed (value :: text) rest (.plain :: items)
  | comment {text rest : Bytes} {items : List LexItem} :
      Lexed (text.dropWhile (· != lineFeed)) rest items → Lexed (hashSign :: text) rest (.comment :: items)
  | string {quote : UInt8} {text rest : Bytes} {size : Nat} {multiline : Bool} {items : List LexItem} :
      isQuote quote = true → scanStringToken (quote :: text) 0 = ⟨size, multiline, true⟩ →
      Lexed ((quote :: text).drop size) rest items → Lexed (quote :: text) rest (.string multiline :: items)
  | arrow {text rest : Bytes} {items : List LexItem} :
      Lexed text rest items → Lexed (dash :: greaterSign :: text) rest (.arrow :: items)

/-- The number of the arrows outside strings and comments. A fuel of the text's size is enough. -/
def countArrows : Nat → Bytes → Nat
  | 0, _ => 0
  | _ + 1, [] => 0
  | fuel + 1, value :: text =>
      if value == hashSign then countArrows fuel (text.dropWhile (· != lineFeed))
      else if isQuote value then countArrows fuel ((value :: text).drop (scanStringToken (value :: text) 0).last)
      else if value == dash && text.head? == some greaterSign then countArrows fuel text.tail + 1
      else countArrows fuel text

def arrowTokens (text : Bytes) : Nat := countArrows text.length text

namespace Lexed
variable {text rest rest' last : Bytes} {items more : List LexItem}

theorem trans (first : Lexed text rest items) (second : Lexed rest last more) : Lexed text last (items ++ more) := by
  induction first with
  | nil => exact second
  | plain hplain _ ih => exact .plain hplain (ih second)
  | comment _ ih => exact .comment (ih second)
  | string hquote hscan _ ih => exact .string hquote hscan (ih second)
  | arrow _ ih => exact .arrow (ih second)

theorem suffix (h : Lexed text rest items) : ∃ front, text = front ++ rest := by
  induction h with
  | nil => exact ⟨[], rfl⟩
  | @plain value _ _ _ _ _ ih =>
      obtain ⟨front, hfront⟩ := ih
      exact ⟨value :: front, by rw [hfront]; rfl⟩
  | @comment text _ _ _ ih =>
      obtain ⟨front, hfront⟩ := ih
      refine ⟨hashSign :: (text.takeWhile (· != lineFeed) ++ front), ?_⟩
      rw [List.cons_append, List.append_assoc, ← hfront, List.takeWhile_append_dropWhile]
  | @string quote text _ size _ _ _ _ _ ih =>
      obtain ⟨front, hfront⟩ := ih
      refine ⟨(quote :: text).take size ++ front, ?_⟩
      rw [List.append_assoc, ← hfront, List.take_append_drop]
  | arrow _ ih =>
      obtain ⟨front, hfront⟩ := ih
      exact ⟨dash :: greaterSign :: front, by rw [hfront]; rfl⟩

theorem countArrows_eq {fuel : Nat} (h : Lexed text [] items) (hfuel : text.length ≤ fuel) :
    countArrows fuel text = items.count .arrow := by
  generalize hend : ([] : Bytes) = rest at h
  induction h generalizing fuel with
  | nil => subst hend; cases fuel <;> rfl
  | @plain value text _ _ hplain _ ih =>
      obtain ⟨fuel, rfl⟩ : ∃ n, fuel = n + 1 := ⟨fuel - 1, by simp at hfuel; omega⟩
      simp only [isPlain, Bool.and_eq_true, Bool.not_eq_true', bne_iff_ne, ne_eq] at hplain
      rw [List.length_cons] at hfuel
      have hrest : countArrows fuel text = _ := ih (by omega) hend
      simp [countArrows, hplain.1.1, hplain.1.2, hplain.2, hrest]
  | @comment text _ _ _ ih =>
      obtain ⟨fuel, rfl⟩ : ∃ n, fuel = n + 1 := ⟨fuel - 1, by simp at hfuel; omega⟩
      have hlength : (text.dropWhile (· != lineFeed)).length ≤ text.length := (List.dropWhile_suffix _).length_le
      rw [List.length_cons] at hfuel
      have hrest : countArrows fuel (text.dropWhile (· != lineFeed)) = _ := ih (by omega) hend
      simp [countArrows, hrest]
  | @string quote text _ size _ _ hquote hscan _ ih =>
      obtain ⟨fuel, rfl⟩ : ∃ n, fuel = n + 1 := ⟨fuel - 1, by simp at hfuel; omega⟩
      have hbounds := scanStringToken_bounds hscan
      have hhash : (quote == hashSign) = false := by
        rw [beq_eq_false_iff_ne]
        rintro rfl
        exact absurd hquote (by decide)
      rw [List.length_cons] at hfuel hbounds
      rw [countArrows, hhash, if_neg (by decide), if_pos hquote, hscan, ih _ hend]
      · simp
      · rw [List.length_drop, List.length_cons]
        omega
  | @arrow text _ _ _ ih =>
      obtain ⟨fuel, rfl⟩ : ∃ n, fuel = n + 1 := ⟨fuel - 1, by simp at hfuel; omega⟩
      simp only [List.length_cons] at hfuel
      have hrest : countArrows fuel text = _ := ih (by omega) hend
      simp [countArrows, isQuote, dash, hashSign, doubleQuote, singleQuote, hrest]

theorem arrowTokens_eq (h : Lexed text [] items) : arrowTokens text = items.count .arrow :=
  h.countArrows_eq (Nat.le_refl _)

/-- What is cut does not depend on what follows, when a quote follows and neither a quote nor the end of an arrow comes
in its place. -/
theorem replace (h : Lexed text rest items) {quote value : UInt8} (hquote : isQuote quote = true)
    (hrest : rest.head? = some quote) (hrest' : rest'.head? = some value) (hvalue : isQuote value = false)
    (harrow : value ≠ greaterSign) {front : Bytes} (htext : text = front ++ rest) :
    Lexed (front ++ rest') rest' items := by
  induction h generalizing front with
  | nil rest =>
      obtain rfl : front = [] := List.append_left_eq_self.mp htext.symm
      exact .nil rest'
  | @plain first text rest items hplain htail ih =>
      obtain ⟨body, hbody⟩ := htail.suffix
      have hfront : front ++ rest = (first :: body) ++ rest := by rw [← htext, hbody]; rfl
      obtain rfl := List.append_cancel_right hfront
      refine .plain ?_ (ih hrest hbody)
      simp only [isPlain, Bool.and_eq_true, Bool.not_eq_true', Bool.and_eq_false_iff, beq_eq_false_iff_ne] at hplain ⊢
      refine ⟨hplain.1, hplain.2.imp_right fun hhead => ?_⟩
      cases body with
      | nil =>
          show rest'.head? ≠ some greaterSign
          rw [hrest']
          simpa using harrow
      | cons second body =>
          rw [hbody] at hhead
          exact hhead
  | @comment text rest items htail ih =>
      obtain ⟨body, hbody⟩ := htail.suffix
      have hfront : front ++ rest = hashSign :: (text.takeWhile (· != lineFeed) ++ body) ++ rest := by
        rw [← htext, List.cons_append, List.append_assoc, ← hbody, List.takeWhile_append_dropWhile]
      obtain rfl := List.append_cancel_right hfront
      -- a comment ends before a line feed, so what follows it is still cut
      cases body with
      | nil =>
          have hstop := List.head?_dropWhile_not (· != lineFeed) text
          rw [hbody, List.nil_append, hrest] at hstop
          obtain rfl : quote = lineFeed := by simpa using hstop
          exact absurd hquote (by decide)
      | cons stop body =>
          obtain rfl : stop = lineFeed := by
            have hstop := List.head?_dropWhile_not (· != lineFeed) text
            rw [hbody, List.cons_append, List.head?_cons] at hstop
            simpa using hstop
          have hbytes : hashSign :: (text.takeWhile (· != lineFeed) ++ lineFeed :: body) ++ rest' =
              hashSign :: (text.takeWhile (· != lineFeed) ++ (lineFeed :: body ++ rest')) := by simp
          rw [hbytes]
          refine .comment ?_
          rw [List.dropWhile_append_of_pos (List.all_eq_true.mp List.all_takeWhile)]
          exact ih hrest hbody
  | @string first text rest size multiline items hfirst hscan htail ih =>
      obtain ⟨body, hbody⟩ := htail.suffix
      obtain ⟨htwo, hsize⟩ := scanStringToken_bounds hscan
      obtain ⟨token, htoken⟩ : ∃ token, (first :: text).take size = first :: token :=
        ⟨text.take (size - 1), by rw [← List.take_succ_cons]; congr 1; omega⟩
      have hfront : front ++ rest = first :: token ++ body ++ rest := by
        rw [← htext, List.append_assoc, ← hbody, ← htoken, List.take_append_drop]
      obtain rfl := List.append_cancel_right hfront
      have hlength : (first :: token).length = size := by
        rw [← htoken, List.length_take]
        omega
      have hfree : QuoteFree first (body ++ rest) (body ++ rest') := by
        cases body with
        | nil =>
            refine Or.inr ?_
            rw [List.nil_append, hrest']
            intro hsame
            rw [Option.some.inj hsame, hfirst] at hvalue
            cases hvalue
        | cons second body => exact Or.inl rfl
      have hwhole : first :: text = first :: token ++ (body ++ rest) := by
        rw [← hbody, ← htoken, List.take_append_drop]
      rw [hwhole, ← hlength] at hscan
      have hscan' := scanStringToken_local hfree hscan
      have htail' : Lexed ((first :: token ++ (body ++ rest')).drop (first :: token).length) rest' items := by
        rw [List.drop_left]
        exact ih hrest hbody
      rw [List.append_assoc]
      exact .string hfirst hscan' htail'
  | @arrow text rest items htail ih =>
      obtain ⟨body, hbody⟩ := htail.suffix
      have hfront : front ++ rest = (dash :: greaterSign :: body) ++ rest := by rw [← htext, hbody]; rfl
      obtain rfl := List.append_cancel_right hfront
      exact .arrow (ih hrest hbody)

theorem compare {rest₁ rest₂ : Bytes} {xs ys : List LexItem} (h₁ : Lexed text rest₁ xs) (h₂ : Lexed text rest₂ ys) :
    (∃ zs, Lexed rest₁ rest₂ zs ∧ ys = xs ++ zs) ∨ ∃ zs, Lexed rest₂ rest₁ zs ∧ xs = ys ++ zs := by
  induction h₁ generalizing ys with
  | nil => exact Or.inl ⟨ys, h₂, rfl⟩
  | @plain value text rest items hplain htail ih =>
      cases h₂ with
      | nil => exact Or.inr ⟨_, .plain hplain htail, rfl⟩
      | plain _ htail₂ =>
          obtain ⟨zs, hzs, heq⟩ | ⟨zs, hzs, heq⟩ := ih htail₂
          · exact Or.inl ⟨zs, hzs, by rw [heq]; rfl⟩
          · exact Or.inr ⟨zs, hzs, by rw [heq]; rfl⟩
      | comment => exact absurd hplain (by simp [isPlain])
      | string hquote => exact absurd hplain (by simp [isPlain, hquote])
      | arrow => exact absurd hplain (by simp [isPlain])
  | @comment text rest items htail ih =>
      cases h₂ with
      | nil => exact Or.inr ⟨_, .comment htail, rfl⟩
      | plain hplain => exact absurd hplain (by simp [isPlain])
      | comment htail₂ =>
          obtain ⟨zs, hzs, heq⟩ | ⟨zs, hzs, heq⟩ := ih htail₂
          · exact Or.inl ⟨zs, hzs, by rw [heq]; rfl⟩
          · exact Or.inr ⟨zs, hzs, by rw [heq]; rfl⟩
      | string hquote => exact absurd hquote (by decide)
  | @string quote text rest size multiline items hquote hscan htail ih =>
      cases h₂ with
      | nil => exact Or.inr ⟨_, .string hquote hscan htail, rfl⟩
      | plain hplain => exact absurd hplain (by simp [isPlain, hquote])
      | comment => exact absurd hquote (by decide)
      | string _ hscan₂ htail₂ =>
          obtain ⟨rfl, rfl, -⟩ := StringToken.mk.inj (hscan.symm.trans hscan₂)
          obtain ⟨zs, hzs, heq⟩ | ⟨zs, hzs, heq⟩ := ih htail₂
          · exact Or.inl ⟨zs, hzs, by rw [heq]; rfl⟩
          · exact Or.inr ⟨zs, hzs, by rw [heq]; rfl⟩
      | arrow => exact absurd hquote (by decide)
  | @arrow text rest items htail ih =>
      cases h₂ with
      | nil => exact Or.inr ⟨_, .arrow htail, rfl⟩
      | plain hplain => exact absurd hplain (by simp [isPlain])
      | string hquote => exact absurd hquote (by decide)
      | arrow htail₂ =>
          obtain ⟨zs, hzs, heq⟩ | ⟨zs, hzs, heq⟩ := ih htail₂
          · exact Or.inl ⟨zs, hzs, by rw [heq]; rfl⟩
          · exact Or.inr ⟨zs, hzs, by rw [heq]; rfl⟩

end Lexed

end PathGuard.Rules

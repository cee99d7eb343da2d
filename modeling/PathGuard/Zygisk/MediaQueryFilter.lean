import PathGuard.Core.Path
import PathGuard.Lib.Sql

/-!
# The filter of media queries

`zygisk/src/media_query_filter.cpp`: the selection that keeps the rows of denied paths out of a query of the media
provider. Its text has one clause for each path; the paths themselves are arguments, each in a slot of `stride` bytes.

* `clauseTexts`, `denyArguments` : the text and the slots, path by path (`buildDenySelection_eq_some`);
* `clauseCondition_truth` : a clause in a row;
* `buildDenySelection_sound` : which rows are left.
-/

namespace PathGuard.Zygisk

open Sql

/-! ## BuildDenySelection -/

def percent : UInt8 := 0x25
def underscore : UInt8 := 0x5f
def likeEscape : UInt8 := 0x5c

/-- `Append`. -/
def appendText (output : Bytes) (capacity : Nat) (value : Bytes) : Option Bytes :=
  if capacity < output.length + value.length + 1 then none else some (output ++ value)

/-- `Copy`. -/
def copyText (capacity : Nat) (value : Bytes) : Option Bytes := if capacity < value.length + 1 then none else some value

/-- `CopyLikePrefix`; `output` is what has been written. -/
def copyLikePrefix (capacity : Nat) : Bytes → Bytes → Option Bytes
  | [], output => if capacity < output.length + 3 then none else some (output ++ [slash, percent])
  | byte :: path, output =>
      if byte = percent || byte = underscore || byte = likeEscape then
        if capacity ≤ output.length + 1 || capacity ≤ output.length + 2 then none
        else copyLikePrefix capacity path (output ++ [likeEscape, byte])
      else if capacity ≤ output.length + 1 then none
      else copyLikePrefix capacity path (output ++ [byte])

def kClause : Bytes := ascii "(_data IS NULL OR (_data != ? AND _data NOT LIKE ? ESCAPE '\\'))"

/-- What `BuildDenySelection` writes: `arguments` is the memory from the pointer on. -/
structure DenySelection where
  selection : Bytes
  arguments : Nat → UInt8
  argumentCount : Nat

def store (memory : Nat → UInt8) (offset : Nat) (bytes : Bytes) : Nat → UInt8 := fun address =>
  if offset ≤ address then (bytes[address - offset]?).getD (memory address) else memory address

/-- The loop of `BuildDenySelection`, from `index` on. -/
def addClauses (selectionCapacity argumentStride : Nat) : Nat → List Bytes → DenySelection → Option DenySelection
  | _, [], written => some written
  | index, path :: paths, written =>
      if path.head? != some slash || path.length = 1 || path.getLast? = some slash then none
      else do
        let selection ← (if 0 < index then appendText written.selection selectionCapacity (ascii " AND ")
          else some written.selection)
        let selection ← appendText selection selectionCapacity kClause
        let exact ← copyText argumentStride path
        let arguments := store written.arguments (written.argumentCount * argumentStride) (exact ++ [0])
        let descendants ← copyLikePrefix argumentStride path []
        let arguments := store arguments ((written.argumentCount + 1) * argumentStride) (descendants ++ [0])
        addClauses selectionCapacity argumentStride (index + 1) paths
          { selection := selection, arguments := arguments, argumentCount := written.argumentCount + 2 }

def buildDenySelection (denyPaths : List Bytes) (selectionCapacity : Nat) (arguments : Nat → UInt8)
    (argumentCapacity argumentStride : Nat) : Option DenySelection :=
  if denyPaths.isEmpty || selectionCapacity = 0 || argumentStride = 0 || argumentCapacity / 2 < denyPaths.length then
    none
  else
    addClauses selectionCapacity argumentStride 0 denyPaths
      { selection := [], arguments := arguments, argumentCount := 0 }

/-- The string in a slot. -/
def argumentAt (memory : Nat → UInt8) (stride index : Nat) : Bytes :=
  ((List.range stride).map fun place => memory (index * stride + place)).takeWhile (· ≠ 0)

/-- The strings the caller reads. -/
def DenySelection.argumentTexts (written : DenySelection) (stride : Nat) : List Bytes :=
  (List.range written.argumentCount).map (argumentAt written.arguments stride)

/-! ## The slots -/

section Slots
variable {memory : Nat → UInt8} {stride : Nat}

theorem store_before {offset address : Nat} (bytes : Bytes) (h : address < offset) :
    store memory offset bytes address = memory address :=
  if_neg (Nat.not_le.mpr h)

theorem store_at {offset place : Nat} {bytes : Bytes} (h : place < bytes.length) :
    store memory offset bytes (offset + place) = bytes[place] := by
  rw [store, if_pos (Nat.le_add_right _ _), Nat.add_sub_cancel_left, List.getElem?_eq_getElem h, Option.getD_some]

theorem argumentAt_store {value : Bytes} (hvalue : 0 ∉ value) (hfits : value.length + 1 ≤ stride) (index : Nat) :
    argumentAt (store memory (index * stride) (value ++ [0])) stride index = value := by
  obtain ⟨rest, hrest⟩ := Nat.exists_eq_add_of_le hfits
  have hmap : (List.range (value.length + 1)).map (fun place =>
      store memory (index * stride) (value ++ [0]) (index * stride + place)) = value ++ [0] := by
    refine List.ext_getElem (by simp) fun place hplace hplace' => ?_
    rw [List.getElem_map, List.getElem_range, store_at hplace']
  have hall : ∀ byte ∈ value, decide (byte ≠ 0) = true := fun byte hbyte =>
    decide_eq_true (ne_of_mem_of_not_mem hbyte hvalue)
  rw [argumentAt, hrest, List.range_add, List.map_append, ← hrest, hmap, List.append_assoc,
    List.takeWhile_append_of_pos hall]
  simp

theorem argumentAt_store_of_lt {index slot : Nat} (bytes : Bytes) (h : index < slot) :
    argumentAt (store memory (slot * stride) bytes) stride index = argumentAt memory stride index := by
  have hle : (index + 1) * stride ≤ slot * stride := Nat.mul_le_mul_right stride h
  rw [Nat.add_mul, Nat.one_mul] at hle
  unfold argumentAt
  congr 1
  refine List.map_congr_left fun place hplace => store_before bytes ?_
  rw [List.mem_range] at hplace
  omega

theorem argumentTexts_store {arguments : Nat → UInt8} {count : Nat} {value : Bytes} (hvalue : 0 ∉ value)
    (hfits : value.length + 1 ≤ stride) (selection selection' : Bytes) :
    DenySelection.argumentTexts ⟨selection, store arguments (count * stride) (value ++ [0]), count + 1⟩ stride =
      DenySelection.argumentTexts ⟨selection', arguments, count⟩ stride ++ [value] := by
  simp only [DenySelection.argumentTexts]
  rw [List.range_succ, List.map_append]
  congr 1
  · exact List.map_congr_left fun index hindex => argumentAt_store_of_lt _ (List.mem_range.mp hindex)
  · rw [List.map_singleton, argumentAt_store hvalue hfits]

end Slots

/-! ## The arguments of a path -/

def escapeLike (path : Bytes) : Bytes :=
  path.flatMap fun byte =>
    if byte = percent || byte = underscore || byte = likeEscape then [likeEscape, byte] else [byte]

theorem escapeLike_cons (byte : UInt8) (path : Bytes) :
    escapeLike (byte :: path) =
      (if byte = percent || byte = underscore || byte = likeEscape then [likeEscape, byte] else [byte]) ++
        escapeLike path := rfl

theorem copyLikePrefix_eq_some {capacity : Nat} {path output copied : Bytes}
    (h : copyLikePrefix capacity path output = some copied) :
    copied = output ++ escapeLike path ++ [slash, percent] ∧ copied.length + 1 ≤ capacity := by
  induction path generalizing output with
  | nil =>
      rw [copyLikePrefix] at h
      split at h
      · cases h
      · next hcapacity =>
        obtain rfl := Option.some.inj h
        refine ⟨by simp [escapeLike], ?_⟩
        rw [List.length_append]
        exact Nat.not_lt.mp hcapacity
  | cons byte path ih =>
      rw [copyLikePrefix] at h
      split at h
      · next hspecial =>
        split at h
        · cases h
        · obtain ⟨rfl, hcapacity⟩ := ih h
          exact ⟨by rw [escapeLike_cons, if_pos hspecial, List.append_assoc output], hcapacity⟩
      · next hplain =>
        split at h
        · cases h
        · obtain ⟨rfl, hcapacity⟩ := ih h
          exact ⟨by rw [escapeLike_cons, if_neg hplain, List.append_assoc output], hcapacity⟩

/-- The escaped path is read as the path itself, and only the `%` at the end is a wildcard. -/
theorem likeItems_escapeLike (path : Bytes) :
    likeItems likeEscape (escapeLike path ++ [slash, percent]) =
      some ((path ++ [slash]).map LikeItem.literal ++ [.many]) := by
  induction path with
  | nil => rfl
  | cons byte path ih =>
      rw [escapeLike_cons]
      split
      · rw [List.append_assoc, List.cons_append, List.cons_append, List.nil_append, likeItems, if_pos rfl, ih]
        rfl
      · next hplain =>
        simp only [Bool.or_eq_true, decide_eq_true_eq, not_or] at hplain
        obtain ⟨next, rest, hnext⟩ : ∃ next rest, escapeLike path ++ [slash, percent] = next :: rest :=
          List.exists_cons_of_ne_nil (by simp)
        have hitem : likeItem byte = .literal byte := (if_neg hplain.1.1).trans (if_neg hplain.1.2)
        rw [List.append_assoc, List.singleton_append, hnext, likeItems, if_neg hplain.2, ← hnext, ih, hitem]
        rfl

theorem zero_notMem_escapeLike {path : Bytes} (h : 0 ∉ path) : 0 ∉ escapeLike path ++ [slash, percent] := by
  simp only [escapeLike, List.mem_append, List.mem_flatMap, not_or, not_exists, not_and]
  refine ⟨fun byte hbyte => ?_, by decide⟩
  have hne : (0 : UInt8) ≠ byte := (ne_of_mem_of_not_mem hbyte h).symm
  split <;> simp [hne, likeEscape]

/-! ## The loop -/

/-- The two arguments of each path. -/
def denyArguments (denyPaths : List Bytes) : List Bytes :=
  denyPaths.flatMap fun path => [path, escapeLike path ++ [slash, percent]]

/-- The clauses from `index` on. -/
def clauseTexts : Nat → Nat → Bytes
  | _, 0 => []
  | index, count + 1 => (if 0 < index then ascii " AND " else []) ++ kClause ++ clauseTexts (index + 1) count

theorem appendText_eq_some {output value appended : Bytes} {capacity : Nat}
    (h : appendText output capacity value = some appended) : appended = output ++ value := by
  rw [appendText] at h
  split at h
  · cases h
  · exact (Option.some.inj h).symm

theorem addClauses_eq_some {selectionCapacity stride index : Nat} {denyPaths : List Bytes}
    {written result : DenySelection}
    (h : addClauses selectionCapacity stride index denyPaths written = some result) :
    result.selection = written.selection ++ clauseTexts index denyPaths.length ∧
      result.argumentCount = written.argumentCount + 2 * denyPaths.length ∧
      ((∀ path ∈ denyPaths, 0 ∉ path) →
        result.argumentTexts stride = written.argumentTexts stride ++ denyArguments denyPaths) := by
  induction denyPaths generalizing index written with
  | nil =>
      obtain rfl := Option.some.inj h
      simp [clauseTexts, denyArguments]
  | cons path denyPaths ih =>
      rw [addClauses] at h
      split at h
      · cases h
      · simp only [Option.bind_eq_bind, Option.bind_eq_some_iff] at h
        obtain ⟨joined, hjoined, selection, hselection, exact, hexact, descendants, hdescendants, hrest⟩ := h
        have hseparator : joined = written.selection ++ (if 0 < index then ascii " AND " else []) := by
          split at hjoined
          · next hindex => rw [appendText_eq_some hjoined, if_pos hindex]
          · next hindex => rw [if_neg hindex, List.append_nil, Option.some.inj hjoined]
        rw [copyText] at hexact
        split at hexact
        · cases hexact
        · next hfits =>
          obtain rfl := Option.some.inj hexact
          obtain ⟨rfl, hfits'⟩ := copyLikePrefix_eq_some hdescendants
          obtain ⟨htext, hcount, harguments⟩ := ih hrest
          refine ⟨?_, ?_, fun hpaths => ?_⟩
          · rw [htext, appendText_eq_some hselection, hseparator, List.length_cons, clauseTexts]
            simp only [List.append_assoc]
          · rw [hcount, List.length_cons]
            show written.argumentCount + 2 + 2 * denyPaths.length = _
            omega
          · rw [List.forall_mem_cons] at hpaths
            rw [harguments hpaths.2, List.nil_append,
              argumentTexts_store (zero_notMem_escapeLike hpaths.1) hfits' _ selection,
              argumentTexts_store hpaths.1 (Nat.not_lt.mp hfits) _ written.selection, List.append_assoc,
              List.append_assoc]
            rfl

/-! ## The condition -/

/-- The tokens of a clause whose first placeholder has the number `placeholder`. -/
def clauseTokens (placeholder : Nat) : List Token :=
  [.opening, .word (ascii "_data"), .word (ascii "IS"), .word (ascii "NULL"), .word (ascii "OR"), .opening,
    .word (ascii "_data"), .unequal, .placeholder placeholder, .word (ascii "AND"), .word (ascii "_data"),
    .word (ascii "NOT"), .word (ascii "LIKE"), .placeholder (placeholder + 1), .word (ascii "ESCAPE"),
    .text [likeEscape], .closing, .closing]

def clauseCondition (placeholder : Nat) : Condition :=
  .or (.isNull (.column (ascii "_data")))
    (.and (.unequal (.column (ascii "_data")) (.argument placeholder))
      (.not (.like (.column (ascii "_data")) (.argument (placeholder + 1)) (.text [likeEscape]))))

def laterTokens : Nat → Nat → List Token
  | _, 0 => []
  | placeholder, count + 1 => .word (ascii "AND") :: clauseTokens placeholder ++ laterTokens (placeholder + 2) count

def laterConditions : Condition → Nat → Nat → Condition
  | condition, _, 0 => condition
  | condition, placeholder, count + 1 =>
      laterConditions (.and condition (clauseCondition placeholder)) (placeholder + 2) count

set_option maxRecDepth 4000 in
theorem lex_kClause (placeholder : Nat) (before : List Token) (rest : Bytes) :
    lex .gap placeholder before (kClause ++ rest) =
      lex .gap (placeholder + 2) ((clauseTokens placeholder).reverse ++ before) rest := rfl

theorem lex_clauseTexts (placeholder index count : Nat) (before : List Token) :
    lex .gap placeholder before (clauseTexts (index + 1) count) =
      some ((laterTokens placeholder count).reverse ++ before) := by
  induction count generalizing placeholder index before with
  | zero => rfl
  | succ count ih =>
      have hand : ∀ rest, lex .gap placeholder before (ascii " AND " ++ rest) =
          lex .gap placeholder (.word (ascii "AND") :: before) rest := fun _ => rfl
      rw [clauseTexts, if_pos (Nat.succ_pos _), List.append_assoc, hand, lex_kClause, ih, laterTokens]
      simp

theorem parsePrimary_clause (fuel placeholder : Nat) (rest : List Token) :
    parsePrimary (fuel + 9) (clauseTokens placeholder ++ rest) = some (clauseCondition placeholder, rest) := rfl

theorem parseAndRest_later {fuel count : Nat} (hfuel : count + 9 ≤ fuel) (condition : Condition) (placeholder : Nat) :
    parseAndRest fuel condition (laterTokens placeholder count) =
      some (laterConditions condition placeholder count, []) := by
  induction count generalizing fuel condition placeholder with
  | zero =>
      cases fuel <;> rfl
  | succ count ih =>
      obtain ⟨rest, rfl⟩ := Nat.exists_eq_add_of_le hfuel
      have hfuel' : count + 1 + 9 + rest = (count + rest + 9) + 1 := by omega
      rw [hfuel', laterTokens, List.cons_append, parseAndRest, if_pos rfl, parsePrimary_clause]
      exact ih (by omega) _ _

theorem length_laterTokens (placeholder count : Nat) : (laterTokens placeholder count).length = 19 * count := by
  induction count generalizing placeholder with
  | zero => rfl
  | succ count ih =>
      rw [laterTokens, List.length_append, ih,
        show (Token.word (ascii "AND") :: clauseTokens placeholder).length = 19 from rfl]
      omega

theorem parse_clauseTexts (count : Nat) :
    parse (clauseTexts 0 (count + 1)) = some (laterConditions (clauseCondition 0) 2 count) := by
  have htokens : tokens (clauseTexts 0 (count + 1)) = some (clauseTokens 0 ++ laterTokens 2 count) := by
    rw [tokens, clauseTexts, if_neg (Nat.lt_irrefl 0), List.nil_append, lex_kClause, lex_clauseTexts]
    simp
  have hlength : (clauseTokens 0 ++ laterTokens 2 count).length = 18 + 19 * count := by
    rw [List.length_append, length_laterTokens]
    rfl
  have hparsed : parseOr (4 * (clauseTokens 0 ++ laterTokens 2 count).length + 4)
      (clauseTokens 0 ++ laterTokens 2 count) = some (laterConditions (clauseCondition 0) 2 count, []) := by
    obtain ⟨fuel, hfuel⟩ : ∃ fuel, 4 * (18 + 19 * count) + 4 = (fuel + 9) + 2 := ⟨76 * count + 65, by omega⟩
    rw [hlength, hfuel, parseOr, parseAnd, parsePrimary_clause]
    simp only [Option.bind_eq_bind, Option.bind_some]
    rw [parseAndRest_later (by omega)]
    rfl
  rw [parse, htokens]
  simp only [Option.bind_eq_bind, Option.bind_some, hparsed]
  rfl

/-! ## What the selection keeps -/

/-- A value that is the path, or in the directory of that name up to the case of ASCII letters. -/
def DeniedValue (path value : Bytes) : Prop :=
  value = path ∨ (path ++ [slash]).map foldCase <+: value.map foldCase

instance (path value : Bytes) : Decidable (DeniedValue path value) :=
  inferInstanceAs (Decidable (value = path ∨ (path ++ [slash]).map foldCase <+: value.map foldCase))

section Truth
variable {row : Bytes → Option Bytes} {texts : List Bytes}

theorem matchesLike_escapeLike (path value : Bytes) :
    matchesLike likeEscape (escapeLike path ++ [slash, percent]) value = true ↔
      (path ++ [slash]).map foldCase <+: value.map foldCase := by
  rw [matchesLike, likeItems_escapeLike]
  exact matchItems_literals (path ++ [slash]) value

/-- One clause keeps a row unless its value is denied by the path of the clause. -/
theorem clauseCondition_truth {placeholder : Nat} {path : Bytes} (hexact : texts[placeholder]? = some path)
    (hdescendants : texts[placeholder + 1]? = some (escapeLike path ++ [slash, percent])) :
    (clauseCondition placeholder).truth row texts = some true ↔
      ∀ value ∈ row (ascii "_data"), ¬ DeniedValue path value := by
  rw [clauseCondition, Condition.truth_or, Condition.truth_and]
  simp only [Condition.truth, Term.value, hexact, hdescendants]
  cases hvalue : row (ascii "_data") with
  | none => simp
  | some value =>
      simp only [Option.isNone_some, Option.some.injEq, Bool.false_eq_true, false_or, Option.mem_some,
        forall_eq', bne_iff_ne, ne_eq, Option.map_some, Bool.not_eq_true', DeniedValue, not_or]
      rw [← Bool.not_eq_true, matchesLike_escapeLike]

theorem laterConditions_truth (condition : Condition) (placeholder count : Nat) :
    (laterConditions condition placeholder count).truth row texts = some true ↔
      condition.truth row texts = some true ∧
        ∀ index < count, (clauseCondition (placeholder + 2 * index)).truth row texts = some true := by
  induction count generalizing condition placeholder with
  | zero => simp [laterConditions]
  | succ count ih =>
      rw [laterConditions, ih, Condition.truth_and, Nat.forall_lt_succ_left]
      simp only [Nat.mul_zero, Nat.add_zero, Nat.mul_succ, and_assoc]
      simp only [Nat.add_assoc, Nat.add_comm 2]

theorem denyArguments_getElem? (denyPaths : List Bytes) (index : Nat) :
    (denyArguments denyPaths)[2 * index]? = denyPaths[index]? ∧
      (denyArguments denyPaths)[2 * index + 1]? =
        denyPaths[index]?.map fun path => escapeLike path ++ [slash, percent] := by
  induction denyPaths generalizing index with
  | nil => exact ⟨rfl, rfl⟩
  | cons path denyPaths ih =>
      cases index with
      | zero => exact ⟨rfl, rfl⟩
      | succ index => exact ih index

end Truth

theorem count_clauseTexts (index count : Nat) : (clauseTexts index count).count 0x3f = 2 * count := by
  induction count generalizing index with
  | zero => rfl
  | succ count ih =>
      have hclause : kClause.count 0x3f = 2 := by decide
      have hseparator : (if 0 < index then ascii " AND " else []).count 0x3f = 0 := by
        split <;> decide
      rw [clauseTexts, List.count_append, List.count_append, ih, hclause, hseparator]
      omega

theorem buildDenySelection_eq_some {denyPaths : List Bytes} {selectionCapacity argumentCapacity stride : Nat}
    {memory : Nat → UInt8} {written : DenySelection}
    (h : buildDenySelection denyPaths selectionCapacity memory argumentCapacity stride = some written) :
    denyPaths ≠ [] ∧ written.selection = clauseTexts 0 denyPaths.length ∧
      written.argumentCount = 2 * denyPaths.length ∧
      ((∀ path ∈ denyPaths, 0 ∉ path) → written.argumentTexts stride = denyArguments denyPaths) := by
  rw [buildDenySelection] at h
  split at h
  · cases h
  · next hguard =>
    simp only [Bool.or_eq_true, not_or, List.isEmpty_iff] at hguard
    obtain ⟨hselection, hcount, htexts⟩ := addClauses_eq_some h
    exact ⟨hguard.1.1.1, hselection, hcount.trans (Nat.zero_add _), htexts⟩

/-- **The selection keeps the rows that no denied path covers.** Its text has a placeholder for each argument and is the
same for all lists of paths of one length. -/
theorem buildDenySelection_sound {denyPaths : List Bytes} (hpaths : ∀ path ∈ denyPaths, 0 ∉ path)
    {selectionCapacity argumentCapacity stride : Nat} {memory : Nat → UInt8} {written : DenySelection}
    (h : buildDenySelection denyPaths selectionCapacity memory argumentCapacity stride = some written) :
    written.selection.count 0x3f = written.argumentCount ∧
    written.argumentTexts stride =
      (denyPaths.flatMap fun path => [path, escapeLike path ++ [slash, percent]]) ∧
    (∀ others capacity memory' capacity' stride' written',
      buildDenySelection others capacity memory' capacity' stride' = some written' →
        others.length = denyPaths.length → written'.selection = written.selection) ∧
    ∃ condition, parse written.selection = some condition ∧
      ∀ row, condition.truth row (written.argumentTexts stride) = some true ↔
        ∀ value ∈ row (ascii "_data"), ∀ path ∈ denyPaths, ¬ DeniedValue path value := by
  obtain ⟨hne, hselection, hcount, htexts⟩ := buildDenySelection_eq_some h
  replace htexts := htexts hpaths
  refine ⟨?_, htexts, ?_, ?_⟩
  · rw [hselection, hcount, count_clauseTexts]
  · intro others capacity memory' capacity' stride' written' h' hlength
    rw [hselection, (buildDenySelection_eq_some h').2.1, hlength]
  · obtain ⟨count, hpred⟩ := Nat.exists_eq_succ_of_ne_zero (mt List.length_eq_zero_iff.mp hne)
    refine ⟨_, by rw [hselection, hpred, Nat.succ_eq_add_one, parse_clauseTexts], fun row => ?_⟩
    have hclause : ∀ index (hindex : index < denyPaths.length),
        (clauseCondition (2 * index)).truth row (written.argumentTexts stride) = some true ↔
          ∀ value ∈ row (ascii "_data"), ¬ DeniedValue denyPaths[index] value := by
      intro index hindex
      have hplaces := denyArguments_getElem? denyPaths index
      rw [← htexts, List.getElem?_eq_getElem hindex] at hplaces
      exact clauseCondition_truth hplaces.1 hplaces.2
    have hall : (laterConditions (clauseCondition 0) 2 count).truth row (written.argumentTexts stride) = some true ↔
        ∀ index, index < denyPaths.length →
          (clauseCondition (2 * index)).truth row (written.argumentTexts stride) = some true := by
      rw [laterConditions_truth, hpred, Nat.succ_eq_add_one, Nat.forall_lt_succ_left]
      simp only [Nat.mul_zero, Nat.mul_succ, Nat.add_comm 2]
    rw [hall]
    constructor
    · intro htruth value hvalue path hpath
      obtain ⟨index, hindex, rfl⟩ := List.mem_iff_getElem.mp hpath
      exact (hclause index hindex).mp (htruth index hindex) value hvalue
    · intro hkeeps index hindex
      exact (hclause index hindex).mpr fun value hvalue => hkeeps value hvalue _ (List.getElem_mem hindex)

theorem buildDenySelection_sound_hostile :
    ∃ written condition, buildDenySelection [ascii "/a/%_\\'?"] 1024 (fun _ => 0) 2 64 = some written ∧
      parse written.selection = some condition ∧ written.argumentCount = 2 ∧
      condition.truth (fun _ => some (ascii "/A/%_\\'?/x")) (written.argumentTexts 64) ≠ some true := by
  obtain ⟨written, hwritten⟩ : ∃ written,
      buildDenySelection [ascii "/a/%_\\'?"] 1024 (fun _ => 0) 2 64 = some written := ⟨_, rfl⟩
  obtain ⟨hcount, -, -, condition, hparse, htruth⟩ := buildDenySelection_sound (by decide) hwritten
  refine ⟨written, condition, hwritten, hparse, (buildDenySelection_eq_some hwritten).2.2.1, fun h => ?_⟩
  exact (htruth _).mp h _ rfl _ List.mem_cons_self (by decide)

end PathGuard.Zygisk

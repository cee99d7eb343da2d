import PathGuard.Lib.Text
import PathGuard.Rules.CompiledPolicy

/-!
# The grammar of package and process names

`IsPackageName` of `rules/src/compiler.cpp` as the loop it is (`packageNameFrom_eq`), against the grammar
`ident ('.' ident)+`. The loop ends when `begin` has reached the end of the input, so nothing rejects the empty component
after a dot that comes last: a name with one dot behind it is accepted too, and no other string that the grammar does not
have (`isPackageName_iff`).

* `IsDottedName`, `IsAcceptedName` : the grammar, and what the loop takes;
* `NamesExact` : what is promised of the names of a package; `namesExact_iff` : the packages of which it is kept.
-/

namespace PathGuard.Rules

/-! ## The loop -/

/-- The loop of `IsPackageName` from `begin` on, with the components counted so far. -/
def packageNameFrom (value : Bytes) (first components : Nat) : Bool :=
  if first < value.length then
    match _h : findFrom value dotSign first with
    | none =>
        if isPackagePart ((value.drop first).take (value.length - first)) then 2 ≤ components + 1 else false
    | some last =>
        if isPackagePart ((value.drop first).take (last - first)) then packageNameFrom value (last + 1) (components + 1)
        else false
  else 2 ≤ components
termination_by value.length - first
decreasing_by
  have hbounds := findFrom_bounds _h
  omega

theorem packageParts_eq (value : Bytes) : packageParts value = visitedParts dotSign value := rfl

theorem packageNameFrom_eq_parts (value : Bytes) (first components : Nat) :
    packageNameFrom value first components =
      ((packageParts (value.drop first)).all isPackagePart &&
        2 ≤ components + (packageParts (value.drop first)).length) := by
  induction hsize : value.length - first using Nat.strong_induction_on generalizing first components with
  | h size ih =>
      unfold packageNameFrom
      split
      next hfirst =>
        have hrest : (value.drop first).take (value.length - first) = value.drop first := by
          apply List.take_of_length_le
          rw [List.length_drop]
        have hne : value.drop first ≠ [] := by
          intro hnil
          rw [List.drop_eq_nil_iff] at hnil
          omega
        rw [packageParts_eq]
        split
        next hnone =>
          rw [hrest, visitedParts_of_notMem hne (findFrom_eq_none_iff.mp hnone)]
          cases hpart : isPackagePart (value.drop first) <;> simp [hpart]
        next last hsome =>
          have hbounds := findFrom_bounds hsome
          unfold findFrom at hsome
          obtain ⟨index, hindex, rfl⟩ := Option.map_eq_some_iff.mp hsome
          rw [visitedParts_of_idxOf? hindex, Nat.add_sub_cancel_left, List.drop_drop,
            ih _ (by omega) (first + index + 1) (components + 1) rfl, packageParts_eq, ← Nat.add_assoc]
          cases hpart : isPackagePart ((value.drop first).take index) with
          | false => simp [hpart]
          | true => simp [hpart, Nat.add_assoc, Nat.add_comm 1]
      next hend =>
        rw [List.drop_eq_nil_of_le (by omega)]
        simp [packageParts]

theorem packageNameFrom_eq (value : Bytes) : packageNameFrom value 0 0 = isPackageName value := by
  rw [packageNameFrom_eq_parts, List.drop_zero, Nat.zero_add]
  rfl

/-! ## The grammar -/

/-- `ident`: a letter, then letters, digits and `_`. -/
def IsIdent (part : Bytes) : Prop :=
  ∃ first rest, part = first :: rest ∧ isAlpha first = true ∧ ∀ byte ∈ rest, isAlnum byte = true ∨ byte = 0x5f

/-- `ident ('.' ident)+`. -/
def IsDottedName (value : Bytes) : Prop :=
  ∃ first rest, rest ≠ [] ∧ IsIdent first ∧ (∀ part ∈ rest, IsIdent part) ∧
    value = first ++ rest.flatMap fun part => dotSign :: part

theorem isPackagePart_iff (part : Bytes) : isPackagePart part = true ↔ IsIdent part := by
  unfold isPackagePart IsIdent
  cases part with
  | nil => simp
  | cons first rest => simp [and_assoc]

theorem IsIdent.dot_notMem {part : Bytes} (h : IsIdent part) : dotSign ∉ part := by
  obtain ⟨first, rest, rfl, hfirst, hrest⟩ := h
  rw [List.mem_cons, not_or]
  constructor
  · rintro rfl
    exact absurd hfirst (by decide)
  · intro hmem
    cases hrest dotSign hmem with
    | inl halnum => exact absurd halnum (by decide)
    | inr hunderscore => exact absurd hunderscore (by decide)

theorem IsIdent.ne_nil {part : Bytes} (h : IsIdent part) : part ≠ [] := by
  obtain ⟨first, rest, rfl, -⟩ := h
  exact List.cons_ne_nil _ _

theorem isDottedName_iff (value : Bytes) :
    IsDottedName value ↔ 2 ≤ (value.splitOn dotSign).length ∧ ∀ part ∈ value.splitOn dotSign, IsIdent part := by
  constructor
  · rintro ⟨first, rest, hrest, hfirst, hparts, rfl⟩
    have hall : ∀ part ∈ first :: rest, IsIdent part := List.forall_mem_cons.mpr ⟨hfirst, hparts⟩
    rw [← intercalate_cons, List.splitOn_intercalate dotSign (fun part hpart => (hall part hpart).dot_notMem) (by simp)]
    refine ⟨?_, hall⟩
    have hpos := List.length_pos_iff.mpr hrest
    rw [List.length_cons]
    omega
  · rintro ⟨hlength, hparts⟩
    have hjoined : [dotSign].intercalate (value.splitOn dotSign) = value := List.intercalate_splitOn dotSign
    cases hsplit : value.splitOn dotSign with
    | nil => exact absurd hsplit (List.splitOn_ne_nil _ _)
    | cons first rest =>
        rw [hsplit] at hlength hparts hjoined
        rw [List.forall_mem_cons] at hparts
        refine ⟨first, rest, ?_, hparts.1, hparts.2, ?_⟩
        · rintro rfl
          exact absurd hlength (by simp)
        · rw [← intercalate_cons, hjoined]

theorem splitOn_append_dot (name : Bytes) : (name ++ [dotSign]).splitOn dotSign = name.splitOn dotSign ++ [[]] := by
  rw [show name ++ [dotSign] = name ++ dotSign :: [] from rfl, List.splitOn_append_cons_self]
  rfl

theorem not_isDottedName_append_dot (name : Bytes) : ¬ IsDottedName (name ++ [dotSign]) := by
  intro h
  rw [isDottedName_iff, splitOn_append_dot] at h
  exact (h.2 [] (List.mem_append_right _ List.mem_cons_self)).ne_nil rfl

theorem eq_nil_or_append_dot {value : Bytes} (h : (value.splitOn dotSign).getLast? = some []) :
    value = [] ∨ ∃ name, value = name ++ [dotSign] := by
  have hparts := List.dropLast_append_getLast? [] h
  have hjoined : [dotSign].intercalate (value.splitOn dotSign) = value := List.intercalate_splitOn dotSign
  rw [← hparts] at hjoined
  by_cases hfront : (value.splitOn dotSign).dropLast = []
  · rw [hfront] at hjoined
    exact Or.inl hjoined.symm
  · rw [intercalate_append hfront (by simp)] at hjoined
    exact Or.inr ⟨_, hjoined.symm⟩

theorem isPackageName_iff_parts (value : Bytes) :
    isPackageName value = true ↔
      2 ≤ (packageParts value).length ∧ ∀ part ∈ packageParts value, IsIdent part := by
  unfold isPackageName
  simp only [Bool.and_eq_true, List.all_eq_true, decide_eq_true_eq, isPackagePart_iff, and_comm]

theorem isPackageName_append_dot (name : Bytes) : isPackageName (name ++ [dotSign]) = true ↔ IsDottedName name := by
  have hparts : packageParts (name ++ [dotSign]) = name.splitOn dotSign := by
    simp only [packageParts, splitOn_append_dot, List.getLast?_concat, List.dropLast_concat, if_true]
  rw [isPackageName_iff_parts, hparts, isDottedName_iff]

theorem isPackageName_of_no_dot {value : Bytes} (h : ¬ ∃ name, value = name ++ [dotSign]) :
    isPackageName value = true ↔ IsDottedName value := by
  by_cases hnil : value = []
  · rw [hnil, isDottedName_iff]
    exact iff_of_false (by decide) (by simp)
  · have hlast : (value.splitOn dotSign).getLast? ≠ some [] := fun hlast =>
      (eq_nil_or_append_dot hlast).elim hnil h
    rw [isPackageName_iff_parts, isDottedName_iff, packageParts]
    simp only [if_neg hlast]

/-- **What `IsPackageName` accepts**: the names of the grammar, and each of them with one dot behind it. -/
theorem isPackageName_iff (value : Bytes) :
    isPackageName value = true ↔ IsDottedName value ∨ ∃ name, IsDottedName name ∧ value = name ++ [dotSign] := by
  by_cases hdot : ∃ name, value = name ++ [dotSign]
  · obtain ⟨name, rfl⟩ := hdot
    rw [isPackageName_append_dot, or_iff_right (not_isDottedName_append_dot name)]
    constructor
    · intro hname
      exact ⟨name, hname, rfl⟩
    · rintro ⟨other, hother, heq⟩
      rwa [List.append_cancel_right heq]
  · rw [isPackageName_of_no_dot hdot]
    constructor
    · exact Or.inl
    · rintro (hname | ⟨name, -, heq⟩)
      · exact hname
      · exact absurd ⟨name, heq⟩ hdot

/-! ## What the names rely on -/

/-- A package that is accepted, or an accepted process of one. -/
def IsAcceptedName (name : Bytes) : Prop :=
  isPackageName name = true ∨ ∃ package, isPackageName package = true ∧ isProcessName package name = true

/-- No comma, slash or brace, no whitespace and no control byte. -/
def IsPlainByte (byte : UInt8) : Prop :=
  byte ≠ comma ∧ byte ≠ slash ∧ byte ≠ openBrace ∧ byte ≠ closeBrace ∧ 0x20 < byte ∧ byte < 0x7f

instance (byte : UInt8) : Decidable (IsPlainByte byte) := inferInstanceAs (Decidable (_ ∧ _))

theorem IsSuffixByte.plain {byte : UInt8} (h : IsSuffixByte byte) : IsPlainByte byte := by
  rcases h with halnum | rfl | rfl
  · simp only [isAlnum, isAlpha, Bool.or_eq_true, Bool.and_eq_true, decide_eq_true_eq, UInt8.le_iff_toNat_le,
      UInt8.reduceToNat] at halnum
    simp only [IsPlainByte, ne_eq, ← UInt8.toNat_inj, UInt8.lt_iff_toNat_lt, comma, slash, openBrace, closeBrace,
      UInt8.reduceToNat]
    omega
  · decide
  · decide

theorem plain_of_isProcessName {package process : Bytes} (hpackage : isPackageName package = true)
    (h : isProcessName package process = true) {byte : UInt8} (hbyte : byte ∈ process) : IsPlainByte byte := by
  have hpackageByte : byte ∈ package → IsPlainByte byte := fun hmem =>
    IsSuffixByte.plain (byte_of_isPackageName hpackage hmem)
  rcases (isProcessName_iff package process).mp h with rfl | ⟨suffix, -, hsuffix, rfl⟩
  · exact hpackageByte hbyte
  · rw [List.mem_append, List.mem_cons] at hbyte
    rcases hbyte with hmem | rfl | hmem
    · exact hpackageByte hmem
    · decide
    · exact (hsuffix byte hmem).plain

theorem IsAcceptedName.listItem {name : Bytes} (h : IsAcceptedName name) : ListItem name := by
  rcases h with hpackage | ⟨package, hpackage, hprocess⟩
  · exact listItem_of_isPackageName hpackage
  · exact listItem_of_isProcessName hpackage hprocess

theorem joinList_inj {names names' : List Bytes} (h : ∀ name ∈ names, IsAcceptedName name)
    (h' : ∀ name ∈ names', IsAcceptedName name) (heq : joinList names = joinList names') : names = names' := by
  have hsplit : ∀ list : List Bytes, (∀ name ∈ list, IsAcceptedName name) →
      splitList (joinList list) = if list = [] then none else some list := by
    intro list hlist
    split
    next hnil =>
      rw [hnil]
      rfl
    next hne => exact splitList_joinList hne fun name hname => (hlist name hname).listItem
  have hboth := hsplit names h
  rw [heq, hsplit names' h'] at hboth
  split at hboth <;> split at hboth <;> simp_all

/-- What is promised of the names of a package: the grammar is met exactly, the processes are the package and the names
that go on with a colon, and no name has a byte that a list, a path or a placeholder gives a meaning to. -/
structure NamesExact (package : Bytes) : Prop where
  grammar : isPackageName package = true ↔ IsDottedName package
  processes : isPackageName package = true → ∀ process,
    isProcessName package process = true ↔
      process = package ∨ ∃ suffix, suffix ≠ [] ∧ (∀ byte ∈ suffix, IsSuffixByte byte) ∧
        process = package ++ 0x3a :: suffix
  bytes : isPackageName package = true →
    (∀ byte ∈ package, IsPlainByte byte) ∧
      ∀ process, isProcessName package process = true → ∀ byte ∈ process, IsPlainByte byte

/-- **The names are exact but for one dot**: a package is treated as the grammar says if and only if it is not a name of
the grammar with a dot behind it; lists of accepted names never collide. -/
theorem namesExact_iff (package : Bytes) :
    (NamesExact package ↔ ¬ ∃ name, IsDottedName name ∧ package = name ++ [dotSign]) ∧
      ∀ names names' : List Bytes, (∀ name ∈ names, IsAcceptedName name) → (∀ name ∈ names', IsAcceptedName name) →
        joinList names = joinList names' → names = names' := by
  refine ⟨⟨?_, ?_⟩, fun names names' h h' heq => joinList_inj h h' heq⟩
  · rintro hexact ⟨name, hname, rfl⟩
    have haccepted := (isPackageName_append_dot name).mpr hname
    exact not_isDottedName_append_dot name (hexact.grammar.mp haccepted)
  · intro hdot
    refine ⟨?_, fun _ => isProcessName_iff package, fun hpackage => ⟨fun byte hbyte => ?_, ?_⟩⟩
    · rw [isPackageName_iff, or_iff_left hdot]
    · exact IsSuffixByte.plain (byte_of_isPackageName hpackage hbyte)
    · exact fun process hprocess byte hbyte => plain_of_isProcessName hpackage hprocess hbyte

theorem namesExact_example :
    NamesExact (ascii "com.example") ∧
      (joinList [ascii "com.example"] = joinList [ascii "com.example:sync"] →
        [ascii "com.example"] = [ascii "com.example:sync"]) := by
  refine ⟨(namesExact_iff (ascii "com.example")).1.mpr ?_, (namesExact_iff (ascii "com.example")).2 _ _ ?_ ?_⟩
  · rintro ⟨name, -, heq⟩
    have hlast := congrArg List.getLast? heq
    rw [List.getLast?_concat] at hlast
    exact absurd hlast (by decide)
  · intro name hname
    rw [List.mem_singleton.mp hname]
    exact Or.inl (by decide)
  · intro name hname
    rw [List.mem_singleton.mp hname]
    exact Or.inr ⟨ascii "com.example", by decide, by decide⟩

/-- The name `com.example.` is accepted. -/
theorem isPackageName_last_dot :
    isPackageName (ascii "com.example.") = true ∧ ¬ IsDottedName (ascii "com.example.") :=
  ⟨by decide, not_isDottedName_append_dot (ascii "com.example")⟩

end PathGuard.Rules

import PathGuard.Lib.Text
import PathGuard.Zygisk.PlanArena

/-!
# The loops over a joined list

`Join` and `Split` of `core/src/binary.cpp` and `ListContains` of `zygisk/src/module_entry.cpp` as they move through the
bytes: an index, a start offset, a pointer. Each equals the function of its name in the model (`join_eq`, `split_eq`,
`listContains_eq`), which says by `splitOn` what the loop computes; `join_split_listContains` is what they do together.

* `join_eq`, `split_eq`, `listContains_eq` : the loops are the functions;
* `join_split_listContains` : joining, splitting and looking up.
-/

namespace PathGuard.Joined
open Zygisk (cString cString_append_zero cString_of_nulFree listItems listContains_joinList)

/-! ## Join -/

/-- The loop from `index` on. -/
def joinFrom : List Bytes → Nat → Bytes → Bytes
  | [], _, joined => joined
  | value :: values, index, joined =>
      joinFrom values (index + 1) ((if index ≠ 0 then joined ++ [comma] else joined) ++ value)

def join (values : List Bytes) : Bytes := joinFrom values 0 []

theorem joinFrom_succ (values : List Bytes) (index : Nat) (joined : Bytes) :
    joinFrom values (index + 1) joined = joined ++ values.flatMap fun value => comma :: value := by
  induction values generalizing index joined with
  | nil => simp [joinFrom]
  | cons value values ih =>
      unfold joinFrom
      rw [if_pos (Nat.succ_ne_zero index), ih, List.flatMap_cons, List.append_assoc, List.append_assoc]
      simp

theorem mem_joinList {values : List Bytes} {value : Bytes} {byte : UInt8} (hvalue : value ∈ values)
    (hbyte : byte ∈ value) : byte ∈ joinList values := by
  cases values with
  | nil => exact absurd hvalue List.not_mem_nil
  | cons first rest =>
      rw [joinList, intercalate_cons, List.mem_append, List.mem_flatMap]
      cases List.mem_cons.mp hvalue with
      | inl hfirst => exact Or.inl (hfirst ▸ hbyte)
      | inr hrest => exact Or.inr ⟨value, hrest, List.mem_cons_of_mem _ hbyte⟩

theorem join_eq (values : List Bytes) : join values = joinList values := by
  unfold join
  cases values with
  | nil => rfl
  | cons value values =>
      unfold joinFrom
      rw [if_neg (by simp), joinFrom_succ, joinList, intercalate_cons, List.nil_append]

/-! ## Split -/

/-- The loop from `start` on, with what the output holds so far. -/
def splitFrom (value : Bytes) (start : Nat) (output : List Bytes) : Option (List Bytes) :=
  if start ≤ value.length then
    match _h : findFrom value comma start with
    | none =>
        let item := (value.drop start).take (value.length - start)
        if item.isEmpty then none else some (output ++ [item])
    | some found =>
        let item := (value.drop start).take (found - start)
        if item.isEmpty then none else splitFrom value (found + 1) (output ++ [item])
  else if output.isEmpty then none else some output
termination_by value.length + 1 - start
decreasing_by
  have hbounds := findFrom_bounds _h
  omega

def split (value : Bytes) : Option (List Bytes) := splitFrom value 0 []

theorem splitList_of_notMem {text : Bytes} (h : comma ∉ text) :
    splitList text = if text.isEmpty then none else some [text] := by
  unfold splitList
  rw [List.splitOn_eq_singleton h]
  simp

theorem splitList_of_idxOf? {text : Bytes} {index : Nat} (h : text.idxOf? comma = some index) :
    splitList text = if (text.take index).isEmpty then none
      else (splitList (text.drop (index + 1))).map (text.take index :: ·) := by
  unfold splitList
  simp only [splitOn_of_idxOf? h, List.any_cons]
  cases (text.take index).isEmpty with
  | true => simp
  | false =>
      simp only [Bool.false_or, Bool.false_eq_true, if_false]
      split <;> rfl

theorem splitFrom_eq (value : Bytes) (start : Nat) (output : List Bytes) (h : start ≤ value.length) :
    splitFrom value start output = (splitList (value.drop start)).map (output ++ ·) := by
  induction hsize : value.length + 1 - start using Nat.strong_induction_on generalizing start output with
  | h size ih =>
      have hrest : (value.drop start).take (value.length - start) = value.drop start := by
        apply List.take_of_length_le
        rw [List.length_drop]
      unfold splitFrom
      rw [if_pos h]
      split
      next hnone =>
        simp only [hrest, splitList_of_notMem (findFrom_eq_none_iff.mp hnone)]
        split <;> rfl
      next found hsome =>
        have hbounds := findFrom_bounds hsome
        unfold findFrom at hsome
        obtain ⟨index, hindex, rfl⟩ := Option.map_eq_some_iff.mp hsome
        simp only [splitList_of_idxOf? hindex, Nat.add_sub_cancel_left, List.drop_drop]
        cases ((value.drop start).take index).isEmpty with
        | true => rfl
        | false =>
            simp only [Bool.false_eq_true, if_false]
            rw [ih _ (by omega) (start + index + 1) _ (by omega) rfl, Option.map_map, Nat.add_assoc]
            congr 1
            funext items
            simp

theorem split_eq (value : Bytes) : split value = splitList value := by
  unfold split
  rw [splitFrom_eq value 0 [] (Nat.zero_le _), List.drop_zero]
  simp

theorem splitList_eq_some_iff {value : Bytes} {items : List Bytes} (hvalue : 0 ∉ value) :
    splitList value = some items ↔ items ≠ [] ∧ (∀ item ∈ items, ListItem item) ∧ joinList items = value := by
  constructor
  · intro h
    simp only [splitList] at h
    split at h
    next => exact absurd h (by simp)
    next hany =>
      have hitems : value.splitOn comma = items := Option.some.inj h
      have hjoin : joinList items = value := by
        rw [← hitems]
        exact List.intercalate_splitOn _
      rw [hitems, Bool.not_eq_true, List.any_eq_false] at hany
      refine ⟨hitems ▸ List.splitOn_ne_nil _ _, fun item hmem => ⟨?_, ?_, ?_⟩, hjoin⟩
      · simpa using hany item hmem
      · intro hzero
        apply hvalue
        rw [← hjoin]
        exact mem_joinList hmem hzero
      · exact notMem_of_mem_splitOn (hitems ▸ hmem)
  · rintro ⟨hne, h, rfl⟩
    exact splitList_joinList hne h

/-! ## ListContains -/

def strlen (text : Bytes) : Nat := (cString text).length

/-- `strchr`, as the distance from the start of the text. -/
def strchr (text : Bytes) (byte : UInt8) : Option Nat := (cString text).idxOf? byte

/-- `memcmp(left, right, length) == 0`. -/
def memEqual (left right : Bytes) (length : Nat) : Bool := left.take length == right.take length

theorem strchr_lt {text : Bytes} {byte : UInt8} {index : Nat} (h : strchr text byte = some index) :
    index < text.length := by
  unfold strchr at h
  obtain ⟨hlt, -⟩ := List.idxOf?_eq_some_iff.mp h
  exact lt_of_lt_of_le hlt (List.takeWhile_prefix _).length_le

/-- The loop from `current` on, which points into the list. -/
def containsFrom (current expected : Bytes) : Bool :=
  if current.head?.getD 0 = 0 then false
  else
    match _h : strchr current comma with
    | none => strlen current == strlen expected && memEqual current expected (strlen current)
    | some length =>
        if length == strlen expected && memEqual current expected length then true
        else containsFrom (current.drop (length + 1)) expected
termination_by current.length
decreasing_by
  have hlt := strchr_lt _h
  rw [List.length_drop]
  omega

/-- The arguments are pointers, each to a zero byte and what stands before it. -/
def listContains : Option Bytes → Option Bytes → Bool
  | some list, some expected => if cString list == ascii "*" then true else containsFrom list expected
  | _, _ => false

theorem cString_cons (byte : UInt8) (rest : Bytes) :
    cString (byte :: rest) = if byte = 0 then [] else byte :: cString rest := by
  unfold cString
  rw [List.takeWhile_cons]
  simp only [decide_eq_true_eq, ne_eq, ite_not]

theorem take_strlen (text : Bytes) : text.take (strlen text) = cString text :=
  (List.prefix_iff_eq_take.mp (List.takeWhile_prefix _)).symm

theorem memEqual_iff {current expected : Bytes} {length : Nat} (h : length ≤ strlen current) :
    (length == strlen expected && memEqual current expected length) = true ↔
      (cString current).take length = cString expected := by
  have htake : (cString current).take length = current.take length := by
    rw [← take_strlen, List.take_take, Nat.min_eq_left h]
  rw [Bool.and_eq_true, beq_iff_eq, memEqual, beq_iff_eq, htake]
  constructor
  · rintro ⟨hlength, hequal⟩
    rw [hequal, hlength, take_strlen]
  · intro hequal
    have hlength : length = strlen expected := by
      rw [strlen, ← hequal, ← htake, List.length_take]
      exact (Nat.min_eq_left h).symm
    exact ⟨hlength, by rw [hequal, hlength, take_strlen]⟩

theorem cString_drop {text : Bytes} {length : Nat} (h : length ≤ strlen text) :
    cString (text.drop length) = (cString text).drop length := by
  unfold strlen at h
  induction text generalizing length with
  | nil => simp [cString]
  | cons byte text ih =>
      cases length with
      | zero => rfl
      | succ length =>
          rw [cString_cons] at h ⊢
          split at h
          · exact absurd h (by simp)
          · next hbyte =>
            rw [if_neg hbyte, List.drop_succ_cons, List.drop_succ_cons]
            exact ih (Nat.le_of_succ_le_succ h)

theorem cString_eq_nil_iff {text : Bytes} : cString text = [] ↔ text.head?.getD 0 = 0 := by
  cases text with
  | nil => simp [cString]
  | cons byte text =>
      rw [cString_cons]
      split <;> simp_all

theorem listItems_eq (text : Bytes) : listItems text = visitedParts comma text := rfl

theorem containsFrom_iff (current expected : Bytes) :
    containsFrom current expected = true ↔ cString expected ∈ listItems (cString current) := by
  induction hsize : current.length using Nat.strong_induction_on generalizing current with
  | h size ih =>
      unfold containsFrom
      split
      next hend =>
        rw [cString_eq_nil_iff.mpr hend]
        exact iff_of_false Bool.false_ne_true List.not_mem_nil
      next hnext =>
        have hne : cString current ≠ [] := fun hnil => hnext (cString_eq_nil_iff.mp hnil)
        split
        next hnone =>
          have hfree : comma ∉ cString current := List.idxOf?_eq_none_iff.mp hnone
          rw [memEqual_iff (le_refl _), listItems_eq, visitedParts_of_notMem hne hfree, List.mem_singleton, eq_comm]
          unfold strlen
          rw [List.take_length]
        next length hsome =>
          have hlt := strchr_lt hsome
          obtain ⟨hlength, -⟩ := List.idxOf?_eq_some_iff.mp hsome
          have hrest := ih _ (by rw [List.length_drop]; omega) (current.drop (length + 1)) rfl
          rw [cString_drop (by unfold strlen; omega)] at hrest
          rw [listItems_eq, visitedParts_of_idxOf? hsome, List.mem_cons, ← listItems_eq, ← hrest,
            @eq_comm _ (cString expected), ← memEqual_iff (by unfold strlen; omega)]
          split
          · next hequal => exact iff_of_true rfl (Or.inl hequal)
          · next hequal => exact (or_iff_right hequal).symm

theorem listContains_eq (list expected : Bytes) :
    listContains (some list) (some expected) = Zygisk.listContains (cString list) (cString expected) := by
  rw [Bool.eq_iff_iff]
  simp only [listContains, Zygisk.listContains]
  rw [Bool.or_eq_true, List.contains_iff_mem, ← containsFrom_iff]
  split
  · next hstar => exact iff_of_true rfl (Or.inl hstar)
  · next hstar => exact (or_iff_right hstar).symm

/-- **The three loops agree on every list of items**: `Split` gives back what `Join` was given, `ListContains` finds in
the text the items of the list, or everything if the list is a `*` alone, and `Split` takes no other text than a joined
list. -/
theorem join_split_listContains :
    (∀ items : List Bytes, items ≠ [] → (∀ item ∈ items, ListItem item) →
      split (join items) = some items ∧
        ∀ list expected : Bytes, cString list = join items →
          (listContains (some list) (some expected) = true ↔ items = [ascii "*"] ∨ cString expected ∈ items)) ∧
      ∀ value : Bytes, 0 ∉ value →
        ((split value).isSome = true ↔
          ∃ items, items ≠ [] ∧ (∀ item ∈ items, ListItem item) ∧ join items = value) := by
  constructor
  · intro items hne h
    rw [join_eq, split_eq]
    refine ⟨splitList_joinList hne h, fun list expected hlist => ?_⟩
    rw [listContains_eq, hlist]
    exact listContains_joinList hne h (cString expected)
  · intro value hvalue
    rw [split_eq, Option.isSome_iff_exists]
    apply exists_congr
    intro items
    rw [splitList_eq_some_iff hvalue, join_eq]

theorem join_split_listContains_users :
    split (join [ascii "0", ascii "10"]) = some [ascii "0", ascii "10"] ∧
      listContains (some (ascii "0,10" ++ [0])) (some (ascii "10" ++ [0])) = true ∧
      (split (ascii "0,10")).isSome = true := by
  have hitem : ∀ item ∈ [ascii "0", ascii "10"], ListItem item := by
    intro item hmem
    simp only [List.mem_cons, List.not_mem_nil, or_false] at hmem
    rcases hmem with rfl | rfl <;> exact ⟨by decide, by decide, by decide⟩
  have husers := join_split_listContains.1 [ascii "0", ascii "10"] (by simp) hitem
  have haccepted := join_split_listContains.2 (ascii "0,10") (by decide)
  exact ⟨husers.1, (husers.2 (ascii "0,10" ++ [0]) (ascii "10" ++ [0]) (by decide)).mpr (Or.inr (by decide)),
    haccepted.mpr ⟨_, by simp, hitem, by decide⟩⟩

end PathGuard.Joined

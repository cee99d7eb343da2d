import Mathlib.Data.List.Sort
import Mathlib.Logic.Function.Basic

/-!
# Ordered maps

`std::map`: the entries in the order of their keys, each key once; and the edits between two maps, which take the
one to the other.

* `emplace`, `get?` : the map; `get?_emplace` : one key more;
* `EditsBetween` : edits in the order of their keys, one for each key on which two maps differ;
* `foldlM_apply` : they take the one map to the other.
-/

namespace PathGuard

theorem mem_of_lookup {α β : Type*} [BEq α] [LawfulBEq α] {entries : List (α × β)} {key : α} {value : β}
    (h : entries.lookup key = some value) : (key, value) ∈ entries := by
  obtain ⟨before, after, rfl, -⟩ := List.lookup_eq_some_iff.mp h
  simp

theorem lookup_of_mem {α β : Type*} [BEq α] [LawfulBEq α] {entries : List (α × β)} {key : α} {value : β}
    (h : (key, value) ∈ entries) (hunique : ∀ other, (key, other) ∈ entries → other = value) :
    entries.lookup key = some value := by
  cases hlookup : entries.lookup key with
  | none => exact absurd (List.lookup_eq_none_iff.mp hlookup _ h) (by simp)
  | some other => rw [hunique other (mem_of_lookup hlookup)]

/-- The entries of a map, in the order of its iterators. -/
structure OrderedMap (κ ν : Type*) [LinearOrder κ] where
  entries : List (κ × ν)
  sorted : entries.Pairwise fun a b => a.1 < b.1

namespace OrderedMap
variable {κ ν : Type*} [LinearOrder κ]

def empty : OrderedMap κ ν := ⟨[], List.Pairwise.nil⟩

/-- What the entries bind a key to. -/
def bound (entries : List (κ × ν)) (key : κ) : Option ν := entries.lookup key

/-- The value at a key. -/
def get? (map : OrderedMap κ ν) : κ → Option ν := bound map.entries

/-- `emplace` among sorted entries: an entry with that key stays as it is. -/
def emplaceEntry (key : κ) (value : ν) : List (κ × ν) → List (κ × ν)
  | [] => [(key, value)]
  | entry :: entries =>
      if key < entry.1 then (key, value) :: entry :: entries
      else if key = entry.1 then entry :: entries
      else entry :: emplaceEntry key value entries

theorem mem_emplaceEntry {key : κ} {value : ν} {entry : κ × ν} {entries : List (κ × ν)}
    (h : entry ∈ emplaceEntry key value entries) : entry.1 = key ∨ entry ∈ entries := by
  induction entries with
  | nil => exact Or.inl (by rw [List.mem_singleton.mp h])
  | cons first entries ih =>
      rw [emplaceEntry] at h
      split at h
      · rcases List.mem_cons.mp h with rfl | h
        · exact Or.inl rfl
        · exact Or.inr h
      · split at h
        · exact Or.inr h
        · rcases List.mem_cons.mp h with rfl | h
          · exact Or.inr List.mem_cons_self
          · exact (ih h).imp_right (List.mem_cons_of_mem first)

theorem sorted_emplaceEntry {key : κ} {value : ν} {entries : List (κ × ν)}
    (h : entries.Pairwise fun a b => a.1 < b.1) :
    (emplaceEntry key value entries).Pairwise fun a b => a.1 < b.1 := by
  induction entries with
  | nil => exact List.pairwise_singleton _ _
  | cons first entries ih =>
      have hrest := List.pairwise_cons.mp h
      rw [emplaceEntry]
      split
      · next hlt =>
        refine List.pairwise_cons.mpr ⟨fun entry hentry => ?_, h⟩
        rcases List.mem_cons.mp hentry with rfl | hentry
        · exact hlt
        · exact hlt.trans (hrest.1 entry hentry)
      · next hge =>
        split
        · exact h
        · next hne =>
          refine List.pairwise_cons.mpr ⟨fun entry hentry => ?_, ih hrest.2⟩
          rcases mem_emplaceEntry hentry with heq | hentry
          · rw [heq]
            exact lt_of_le_of_ne (not_lt.mp hge) (Ne.symm hne)
          · exact hrest.1 entry hentry

def emplace (map : OrderedMap κ ν) (key : κ) (value : ν) : OrderedMap κ ν :=
  ⟨emplaceEntry key value map.entries, sorted_emplaceEntry map.sorted⟩

theorem bound_nil : bound ([] : List (κ × ν)) = fun _ => none := rfl

theorem bound_cons (key : κ) (value : ν) (entries : List (κ × ν)) :
    bound ((key, value) :: entries) = Function.update (bound entries) key (some value) := by
  funext other
  rw [bound, List.lookup_cons, Function.update_apply]
  by_cases h : other = key
  · rw [if_pos h, h, beq_self_eq_true]
  · rw [if_neg h, beq_false_of_ne h]
    rfl

theorem bound_eq_none {key : κ} {entries : List (κ × ν)} (h : ∀ entry ∈ entries, key < entry.1) :
    bound entries key = none := by
  rw [bound, List.lookup_eq_none_iff]
  intro entry hentry
  exact bne_iff_ne.mpr (h entry hentry).ne

theorem exists_entry_of_bound {key : κ} {value : ν} {entries : List (κ × ν)} (h : bound entries key = some value) :
    (key, value) ∈ entries :=
  mem_of_lookup h

theorem bound_of_entry {key : κ} {value : ν} {entries : List (κ × ν)} (h : (key, value) ∈ entries)
    (hunique : ∀ other, (key, other) ∈ entries → other = value) : bound entries key = some value :=
  lookup_of_mem h hunique

theorem bound_emplaceEntry {key : κ} {value : ν} {entries : List (κ × ν)}
    (h : entries.Pairwise fun a b => a.1 < b.1) :
    bound (emplaceEntry key value entries) =
      Function.update (bound entries) key (some ((bound entries key).getD value)) := by
  induction entries with
  | nil => exact bound_cons key value []
  | cons first entries ih =>
      have hrest := List.pairwise_cons.mp h
      rw [emplaceEntry]
      split
      · next hlt =>
        have hnone : bound (first :: entries) key = none := bound_eq_none fun entry hentry => by
          rcases List.mem_cons.mp hentry with rfl | hentry
          · exact hlt
          · exact hlt.trans (hrest.1 entry hentry)
        rw [bound_cons, hnone, Option.getD_none]
      · next hge =>
        split
        · next heq =>
          rw [heq, bound_cons, Function.update_self, Option.getD_some, Function.update_idem]
        · next hne =>
          rw [bound_cons, bound_cons, ih hrest.2, Function.update_of_ne hne, Function.update_comm (Ne.symm hne)]

theorem get?_emplace (map : OrderedMap κ ν) (key : κ) (value : ν) :
    (map.emplace key value).get? = Function.update map.get? key (some ((map.get? key).getD value)) :=
  bound_emplaceEntry map.sorted

theorem get?_emplace_self {map : OrderedMap κ ν} {key : κ} (h : map.get? key = none) (value : ν) :
    (map.emplace key value).get? key = some value := by
  rw [get?_emplace, Function.update_self, h, Option.getD_none]

theorem get?_emplace_of_ne (map : OrderedMap κ ν) {key other : κ} (h : other ≠ key) (value : ν) :
    (map.emplace key value).get? other = map.get? other := by
  rw [get?_emplace, Function.update_of_ne h]

theorem get?_foldl_emplace (entries : List (κ × ν)) (map : OrderedMap κ ν) (key : κ) :
    (entries.foldl (fun map entry => map.emplace entry.1 entry.2) map).get? key =
      (map.get? key).or (bound entries key) := by
  induction entries generalizing map with
  | nil => rw [List.foldl_nil, bound_nil, Option.or_none]
  | cons entry entries ih =>
      rw [List.foldl_cons, ih, get?_emplace, bound_cons]
      by_cases h : key = entry.1
      · rw [h, Function.update_self, Function.update_self]
        cases map.get? entry.1 <;> rfl
      · rw [Function.update_of_ne h, Function.update_of_ne h]

end OrderedMap

/-! ## Edits -/

/-- What a key is bound to before and after. -/
structure Edit (κ ν : Type*) where
  key : κ
  before : Option ν
  after : Option ν

/-- An edit is refused by a map that does not bind the key to what the edit says. -/
def Edit.apply {κ ν : Type*} [LinearOrder κ] [DecidableEq ν] (map : κ → Option ν) (edit : Edit κ ν) :
    Option (κ → Option ν) :=
  if map edit.key = edit.before then some (Function.update map edit.key edit.after) else none

/-- The edits are those between the two maps: in the order of the keys, one for every key that is bound
differently. -/
structure EditsBetween {κ ν : Type*} [LinearOrder κ] (before after : κ → Option ν) (edits : List (Edit κ ν)) :
    Prop where
  ordered : edits.Pairwise fun a b => a.key < b.key
  mem_iff : ∀ edit, edit ∈ edits ↔
    edit.before = before edit.key ∧ edit.after = after edit.key ∧ edit.before ≠ edit.after

namespace EditsBetween
variable {κ ν : Type*} [LinearOrder κ] {before after : κ → Option ν} {edits : List (Edit κ ν)}

theorem refl (map : κ → Option ν) : EditsBetween map map [] where
  ordered := List.Pairwise.nil
  mem_iff edit := by
    refine ⟨fun h => absurd h List.not_mem_nil, fun ⟨hbefore, hafter, hne⟩ => ?_⟩
    exact absurd (hbefore.trans hafter.symm) hne

theorem eq_of_forall_ne (h : EditsBetween before after edits) {key : κ} (hkey : ∀ edit ∈ edits, edit.key ≠ key) :
    before key = after key := by
  by_contra hne
  exact hkey ⟨key, before key, after key⟩ ((h.mem_iff _).mpr ⟨rfl, rfl, hne⟩) rfl

theorem eq_nil_iff (h : EditsBetween before after edits) : edits = [] ↔ before = after := by
  constructor
  · rintro rfl
    funext key
    exact h.eq_of_forall_ne fun edit hedit => absurd hedit List.not_mem_nil
  · rintro rfl
    refine List.eq_nil_iff_forall_not_mem.mpr fun edit hedit => ?_
    obtain ⟨hbefore, hafter, hne⟩ := (h.mem_iff edit).mp hedit
    exact hne (hbefore.trans hafter.symm)

theorem update (h : EditsBetween before after edits) {key : κ} (hkey : before key = after key) (value : Option ν) :
    EditsBetween (Function.update before key value) (Function.update after key value) edits where
  ordered := h.ordered
  mem_iff edit := by
    rw [h.mem_iff edit]
    by_cases heq : edit.key = key
    · rw [heq, hkey, Function.update_self, Function.update_self]
      constructor
      · rintro ⟨hbefore, hafter, hne⟩
        exact absurd (hbefore.trans hafter.symm) hne
      · rintro ⟨hbefore, hafter, hne⟩
        exact absurd (hbefore.trans hafter.symm) hne
    · rw [Function.update_of_ne heq, Function.update_of_ne heq]

theorem cons (h : EditsBetween before after edits) {edit : Edit κ ν} (hkeys : ∀ e ∈ edits, edit.key < e.key)
    (hne : edit.before ≠ edit.after) :
    EditsBetween (Function.update before edit.key edit.before) (Function.update after edit.key edit.after)
      (edit :: edits) where
  ordered := List.pairwise_cons.mpr ⟨hkeys, h.ordered⟩
  mem_iff other := by
    rw [List.mem_cons, h.mem_iff other]
    by_cases heq : other.key = edit.key
    · have hmem : other ∉ edits := fun hmem => absurd heq (hkeys other hmem).ne'
      rw [← h.mem_iff other, heq, Function.update_self, Function.update_self]
      constructor
      · rintro (rfl | hother)
        · exact ⟨rfl, rfl, hne⟩
        · exact absurd hother hmem
      · rintro ⟨hbefore, hafter, -⟩
        obtain ⟨key, old, new⟩ := other
        obtain ⟨key', old', new'⟩ := edit
        simp_all
    · rw [Function.update_of_ne heq, Function.update_of_ne heq]
      exact ⟨fun h => h.resolve_left fun h => heq (congrArg Edit.key h), Or.inr⟩

theorem lt_key {oldEntries newEntries : List (κ × ν)}
    (h : EditsBetween (OrderedMap.bound oldEntries) (OrderedMap.bound newEntries) edits) {key : κ}
    (hold : ∀ entry ∈ oldEntries, key < entry.1) (hnew : ∀ entry ∈ newEntries, key < entry.1) :
    ∀ edit ∈ edits, key < edit.key := by
  intro edit hedit
  obtain ⟨hbefore, hafter, hne⟩ := (h.mem_iff edit).mp hedit
  cases hedited : edit.before with
  | some value => exact hold _ (OrderedMap.exists_entry_of_bound (hbefore.symm.trans hedited))
  | none =>
      cases hedited' : edit.after with
      | some value => exact hnew _ (OrderedMap.exists_entry_of_bound (hafter.symm.trans hedited'))
      | none => exact absurd (hedited.trans hedited'.symm) hne

section Entries
variable {oldEntries newEntries : List (κ × ν)} {key : κ}

theorem removed (h : EditsBetween (OrderedMap.bound oldEntries) (OrderedMap.bound newEntries) edits)
    (hold : ∀ entry ∈ oldEntries, key < entry.1) (hnew : ∀ entry ∈ newEntries, key < entry.1) (value : ν) :
    EditsBetween (OrderedMap.bound ((key, value) :: oldEntries)) (OrderedMap.bound newEntries)
      (⟨key, some value, none⟩ :: edits) := by
  have hcons := @cons κ ν _ _ _ _ h ⟨key, some value, none⟩ (h.lt_key hold hnew) (Option.some_ne_none value)
  rw [OrderedMap.bound_cons]
  rwa [← OrderedMap.bound_eq_none hnew, Function.update_eq_self, OrderedMap.bound_eq_none hnew] at hcons

theorem added (h : EditsBetween (OrderedMap.bound oldEntries) (OrderedMap.bound newEntries) edits)
    (hold : ∀ entry ∈ oldEntries, key < entry.1) (hnew : ∀ entry ∈ newEntries, key < entry.1) (value : ν) :
    EditsBetween (OrderedMap.bound oldEntries) (OrderedMap.bound ((key, value) :: newEntries))
      (⟨key, none, some value⟩ :: edits) := by
  have hcons := @cons κ ν _ _ _ _ h ⟨key, none, some value⟩ (h.lt_key hold hnew) (Option.some_ne_none value).symm
  rw [OrderedMap.bound_cons]
  rwa [← OrderedMap.bound_eq_none hold, Function.update_eq_self, OrderedMap.bound_eq_none hold] at hcons

theorem modified (h : EditsBetween (OrderedMap.bound oldEntries) (OrderedMap.bound newEntries) edits)
    (hold : ∀ entry ∈ oldEntries, key < entry.1) (hnew : ∀ entry ∈ newEntries, key < entry.1) {value value' : ν}
    (hne : value ≠ value') :
    EditsBetween (OrderedMap.bound ((key, value) :: oldEntries)) (OrderedMap.bound ((key, value') :: newEntries))
      (⟨key, some value, some value'⟩ :: edits) := by
  rw [OrderedMap.bound_cons, OrderedMap.bound_cons]
  exact @cons κ ν _ _ _ _ h ⟨key, some value, some value'⟩ (h.lt_key hold hnew) fun heq => hne (Option.some.inj heq)

theorem kept (h : EditsBetween (OrderedMap.bound oldEntries) (OrderedMap.bound newEntries) edits)
    (hold : ∀ entry ∈ oldEntries, key < entry.1) (hnew : ∀ entry ∈ newEntries, key < entry.1) (value : ν) :
    EditsBetween (OrderedMap.bound ((key, value) :: oldEntries)) (OrderedMap.bound ((key, value) :: newEntries))
      edits := by
  rw [OrderedMap.bound_cons, OrderedMap.bound_cons]
  exact h.update (by rw [OrderedMap.bound_eq_none hold, OrderedMap.bound_eq_none hnew]) _

end Entries

/-- **The edits take one map to the other.** -/
theorem foldlM_apply [DecidableEq ν] (h : EditsBetween before after edits) :
    edits.foldlM Edit.apply before = some after := by
  induction edits generalizing before with
  | nil =>
      rw [List.foldlM_nil, h.eq_nil_iff.mp rfl]
      rfl
  | cons edit edits ih =>
      have hordered := List.pairwise_cons.mp h.ordered
      have hedit := (h.mem_iff edit).mp List.mem_cons_self
      have hrest : EditsBetween (Function.update before edit.key edit.after) after edits := by
        refine ⟨hordered.2, fun other => ?_⟩
        by_cases heq : other.key = edit.key
        · have hmem : other ∉ edits := fun hmem => absurd heq (hordered.1 other hmem).ne'
          rw [heq, Function.update_self, hedit.2.1]
          refine ⟨fun h => absurd h hmem, fun ⟨hbefore, hafter, hne⟩ => ?_⟩
          exact absurd (hbefore.trans hafter.symm) hne
        · rw [Function.update_of_ne heq, ← h.mem_iff other, List.mem_cons]
          exact ⟨Or.inr, fun h => h.resolve_left fun h => heq (congrArg Edit.key h)⟩
      rw [List.foldlM_cons, Edit.apply, if_pos hedit.1.symm]
      exact ih hrest

end EditsBetween

end PathGuard

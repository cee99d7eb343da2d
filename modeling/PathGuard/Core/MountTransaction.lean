/-!
# The status word of a mount transaction

`core/include/pathguard/mount_transaction.h` and `mutation_journal.h`: the eight values of the shared
status word, which of them are terminal, which changes of it a compare-and-swap may try, and the
bounded journal that records every namespace mutation.
-/

namespace PathGuard

/-- `MountTransactionState`. -/
inductive MountTransactionState
  | pending
  | applying
  | complete
  | cancelRequested
  | cancelled
  | failed
  | rollbackComplete
  | namespaceTainted
  deriving DecidableEq, Repr

open MountTransactionState

def isMountTransactionTerminal (state : MountTransactionState) : Bool :=
  state == complete || state == cancelled || state == failed || state == rollbackComplete ||
    state == namespaceTainted

def mountTransactionHasResult (state : MountTransactionState) : Bool :=
  state == complete || state == failed || state == rollbackComplete || state == namespaceTainted

def isMountTransitionAllowed (source target : MountTransactionState) : Bool :=
  match source with
  | pending => target == applying || target == complete || target == cancelRequested || target == failed
  | applying =>
      target == complete || target == cancelRequested || target == rollbackComplete ||
        target == namespaceTainted
  | cancelRequested => target == cancelled || target == rollbackComplete || target == namespaceTainted
  | failed => target == rollbackComplete
  | complete | cancelled | rollbackComplete | namespaceTainted => false

/-- `MutationJournal<Entry, Capacity>`: the recorded mutations in push order, never more than fit. -/
structure MutationJournal (Entry : Type) (capacity : Nat) where
  entries : List Entry
  size_le : entries.length ≤ capacity

namespace MutationJournal

variable {Entry : Type} {capacity : Nat}

def empty : MutationJournal Entry capacity := ⟨[], Nat.zero_le _⟩

def size (journal : MutationJournal Entry capacity) : Nat := journal.entries.length

def isEmpty (journal : MutationJournal Entry capacity) : Bool := journal.entries.isEmpty

def push (journal : MutationJournal Entry capacity) (entry : Entry) :
    Option (MutationJournal Entry capacity) :=
  if h : journal.entries.length < capacity then
    some ⟨journal.entries ++ [entry], by rw [List.length_append]; exact h⟩
  else none

def updateAt (journal : MutationJournal Entry capacity) (index : Nat) (entry : Entry) :
    Option (MutationJournal Entry capacity) :=
  if index < journal.entries.length then
    some ⟨journal.entries.set index entry, by rw [List.length_set]; exact journal.size_le⟩
  else none

def at? (journal : MutationJournal Entry capacity) (index : Nat) : Option Entry := journal.entries[index]?

theorem push_entries {journal journal' : MutationJournal Entry capacity} {entry : Entry}
    (h : journal.push entry = some journal') : journal'.entries = journal.entries ++ [entry] := by
  unfold push at h
  split at h
  · rw [Option.some.injEq] at h
    rw [← h]
  · cases h

theorem updateAt_entries {journal journal' : MutationJournal Entry capacity} {index : Nat} {entry : Entry}
    (h : journal.updateAt index entry = some journal') :
    journal'.entries = journal.entries.set index entry := by
  unfold updateAt at h
  split at h
  · rw [Option.some.injEq] at h
    rw [← h]
  · cases h

end MutationJournal

end PathGuard

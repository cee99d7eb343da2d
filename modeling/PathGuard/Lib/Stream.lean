import Mathlib.Data.List.TakeDrop

/-!
# Reading a stream that ends

A `StreamReader` takes items off the front of a stream, and fails where the stream ends first or where it does not
like what it read. `Consumes r front result` says that `front` is exactly what `r` needs to return `result`: whatever
comes after it is left alone, and a stream that ends within it makes `r` fail. Consumers compose along `bind`, so a
sequence of reads is treated one read at a time, for the round trip and for every truncation at once.

* `Consumes` : a reader with exactly what it needs;
* `Consumes.bind`, `consumes_readExactly` : reads one after the other, and the one they are made of.
-/

namespace PathGuard

abbrev StreamReader (α β : Type) := StateT (List α) Option β

variable {α β γ : Type}

/-- The next `size` items, all of them. -/
def readExactly (size : Nat) : StreamReader α (List α) := fun stream =>
  if stream.length < size then none else some (stream.take size, stream.drop size)

structure Consumes (r : StreamReader α β) (front : List α) (result : β) : Prop where
  reads : ∀ rest, r (front ++ rest) = some (result, rest)
  starves : ∀ cut, cut <+: front → cut ≠ front → r cut = none

theorem Consumes.eq_some {r : StreamReader α β} {front : List α} {result : β} (h : Consumes r front result) :
    r front = some (result, []) := by
  have hreads := h.reads []
  rwa [List.append_nil] at hreads

theorem consumes_pure (result : β) : Consumes (pure result : StreamReader α β) [] result :=
  ⟨fun _ => rfl, fun _ hcut hne => absurd (List.prefix_nil.mp hcut) hne⟩

theorem prefix_append_cases {cut front back : List α} (hcut : cut <+: front ++ back) :
    (cut <+: front ∧ cut ≠ front) ∨ ∃ more, cut = front ++ more ∧ more <+: back := by
  obtain hlt | hge := Nat.lt_or_ge cut.length front.length
  · refine Or.inl ⟨List.prefix_of_prefix_length_le hcut (List.prefix_append _ _) (Nat.le_of_lt hlt), ?_⟩
    intro heq
    rw [heq] at hlt
    exact Nat.lt_irrefl _ hlt
  · obtain ⟨more, rfl⟩ := List.prefix_of_prefix_length_le (List.prefix_append front back) hcut hge
    exact Or.inr ⟨more, rfl, (List.prefix_append_right_inj front).mp hcut⟩

theorem Consumes.bind {r : StreamReader α β} {f : β → StreamReader α γ} {front back : List α} {result : β} {final : γ}
    (h : Consumes r front result) (hf : Consumes (f result) back final) : Consumes (r >>= f) (front ++ back) final := by
  have hbind : ∀ stream, (r >>= f) stream = (r stream).bind fun read => f read.1 read.2 := fun _ => rfl
  refine ⟨fun rest => ?_, fun cut hcut hne => ?_⟩
  · rw [hbind, List.append_assoc, h.reads, Option.bind_some, hf.reads]
  · rw [hbind]
    obtain ⟨hwithin, hshort⟩ | ⟨more, rfl, hmore⟩ := prefix_append_cases hcut
    · rw [h.starves cut hwithin hshort, Option.bind_none]
    · rw [h.reads, Option.bind_some]
      exact hf.starves more hmore fun heq => hne (by rw [heq])

theorem Consumes.bind_nil {r : StreamReader α β} {f : β → StreamReader α γ} {front : List α} {result : β} {final : γ}
    (h : Consumes r front result) (hf : Consumes (f result) [] final) : Consumes (r >>= f) front final := by
  have hbind := h.bind hf
  rwa [List.append_nil] at hbind

theorem bind_eq_none {r : StreamReader α β} {f : β → StreamReader α γ} (h : ∀ result rest, f result rest = none)
    (stream : List α) : (r >>= f) stream = none := by
  have hbind : (r >>= f) stream = (r stream).bind fun read => f read.1 read.2 := rfl
  rw [hbind, Option.bind_eq_none_iff]
  intro read _
  exact h read.1 read.2

theorem consumes_readExactly {front : List α} {size : Nat} (h : front.length = size) :
    Consumes (readExactly size) front front := by
  refine ⟨fun rest => ?_, fun cut hcut hne => ?_⟩
  · rw [readExactly, if_neg (by rw [List.length_append]; omega), List.take_left' h, List.drop_left' h]
  · have hlt : cut.length < front.length :=
      Nat.lt_of_le_of_ne hcut.length_le fun heq => hne (hcut.eq_of_length heq)
    rw [readExactly, if_pos (by omega)]

end PathGuard

import PathGuard.Lib.LittleEndian

/-!
# Codes that show where they end

A code is delimited on the values of a domain when the code of a value, followed by anything, tells the value and what
follows. Records, and lists behind their length, are delimited when their parts are; so a byte string that is made of
such parts is the code of one value.

* `Delimited` : what a code followed by anything tells;
* `of_length`, `counted`, `flatMap` : codes of one length, lists behind their length, lists of one length.
-/

namespace PathGuard

variable {α β : Type}

/-- The code of a value of the domain can be read off the front of what it begins. -/
def Delimited (domain : α → Prop) (code : α → List β) : Prop :=
  ∀ a b x y, domain a → domain b → code a ++ x = code b ++ y → a = b ∧ x = y

namespace Delimited
variable {domain : α → Prop} {code : α → List β}

theorem injective (h : Delimited domain code) {a b : α} (ha : domain a) (hb : domain b) (heq : code a = code b) :
    a = b :=
  (h a b [] [] ha hb (by rw [heq])).1

theorem of_length {size : Nat} (hlength : ∀ a, domain a → (code a).length = size)
    (hinj : ∀ a b, domain a → domain b → code a = code b → a = b) : Delimited domain code := by
  intro a b x y ha hb heq
  obtain ⟨hcode, hrest⟩ := List.append_inj heq ((hlength a ha).trans (hlength b hb).symm)
  exact ⟨hinj a b ha hb hcode, hrest⟩

theorem flatMap (h : Delimited domain code) {l l' : List α} {x y : List β} (hl : ∀ a ∈ l, domain a)
    (hl' : ∀ a ∈ l', domain a) (hlength : l.length = l'.length) (heq : l.flatMap code ++ x = l'.flatMap code ++ y) :
    l = l' ∧ x = y := by
  induction l generalizing l' with
  | nil =>
      obtain rfl := List.length_eq_zero_iff.mp hlength.symm
      exact ⟨rfl, heq⟩
  | cons a l ih =>
      cases l' with
      | nil => cases hlength
      | cons b l' =>
          rw [List.forall_mem_cons] at hl hl'
          rw [List.flatMap_cons, List.flatMap_cons, List.append_assoc, List.append_assoc] at heq
          obtain ⟨rfl, hrest⟩ := h _ _ _ _ hl.1 hl'.1 heq
          obtain ⟨rfl, hxy⟩ := ih hl.2 hl'.2 (Nat.succ.inj hlength) hrest
          exact ⟨rfl, hxy⟩

theorem counted (h : Delimited domain code) {bound : Nat} {count : Nat → List β}
    (hcount : Delimited (· < bound) count) :
    Delimited (fun l : List α => l.length < bound ∧ ∀ a ∈ l, domain a) fun l => count l.length ++ l.flatMap code := by
  intro l l' x y hl hl' heq
  rw [List.append_assoc, List.append_assoc] at heq
  obtain ⟨hlength, hrest⟩ := hcount _ _ _ _ hl.1 hl'.1 heq
  exact h.flatMap hl.2 hl'.2 hlength hrest

end Delimited

theorem delimited_singleton : Delimited (fun _ => True) fun a : α => [a] :=
  Delimited.of_length (fun _ _ => List.length_singleton) fun _ _ _ _ h => List.singleton_injective h

theorem delimited_leBytes (width : Nat) : Delimited (· < 256 ^ width) (leBytes width) := by
  refine Delimited.of_length (fun n _ => length_leBytes width n) fun m n hm hn heq => ?_
  rw [← leValue_leBytes_of_lt hm, ← leValue_leBytes_of_lt hn, heq]

end PathGuard

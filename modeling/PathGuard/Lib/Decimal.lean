import Mathlib.Data.Nat.Digits.Lemmas
import PathGuard.Lib.Fields

/-!
# Decimal numbers

Numbers that are not negative as the digits that `std::to_string` writes, and what those are read as again.

* `decimalBytes`, `decimalValue` : writing and reading;
* `decimalBytes_digits` : what is written are digits, and is read as the number;
* `decimalBytes_injective`, `length_decimalBytes_le` : different numbers look different, and how long they are.
-/

namespace PathGuard

def isDigit (byte : UInt8) : Bool := 0x30 ≤ byte && byte ≤ 0x39

def decimalValue (digits : Bytes) : Nat := digits.foldl (fun value digit => value * 10 + (digit.toNat - 0x30)) 0

/-- `std::to_string` of a number that is not negative. -/
def decimalBytes (value : Nat) : Bytes :=
  if value = 0 then [0x30] else (Nat.digits 10 value).reverse.map fun digit => UInt8.ofNat (0x30 + digit)

theorem of_isDigit {byte : UInt8} (h : isDigit byte = true) :
    isWhitespace byte = false ∧ byte ≠ 0x2d ∧ byte ≠ 0x2b := by
  have hlow : (0x30 : UInt8) ≤ byte := by
    rw [isDigit, Bool.and_eq_true, decide_eq_true_eq] at h
    exact h.1
  rw [UInt8.le_iff_toNat_le] at hlow
  have hne : ∀ other : UInt8, other.toNat < 0x30 → byte ≠ other := by
    rintro other hother rfl
    exact absurd hlow (Nat.not_le.mpr hother)
  refine ⟨?_, hne 0x2d (by decide), hne 0x2b (by decide)⟩
  rw [isWhitespace, Bool.or_eq_false_iff, Bool.and_eq_false_iff, beq_eq_false_iff_ne]
  refine ⟨hne 0x20 (by decide), Or.inr (decide_eq_false fun hle => ?_)⟩
  have hle' : byte.toNat ≤ 0x0d := UInt8.le_iff_toNat_le.mp hle
  have hlow' : 0x30 ≤ byte.toNat := hlow
  omega

theorem decimalValue_digits {digits : List Nat} (h : ∀ digit ∈ digits, digit < 10) :
    decimalValue (digits.reverse.map fun digit => UInt8.ofNat (0x30 + digit)) = Nat.ofDigits 10 digits := by
  induction digits with
  | nil => rfl
  | cons digit digits ih =>
      rw [List.forall_mem_cons] at h
      have hdigit : (UInt8.ofNat (0x30 + digit)).toNat = 0x30 + digit :=
        UInt8.toNat_ofNat_of_lt' (show 0x30 + digit < 256 by omega)
      have hrest := ih h.2
      unfold decimalValue at hrest ⊢
      rw [List.reverse_cons, List.map_append, List.foldl_append, hrest, Nat.ofDigits_cons]
      simp only [List.map_cons, List.map_nil, List.foldl_cons, List.foldl_nil, hdigit]
      omega

theorem isDigit_ofNat {digit : Nat} (h : digit < 10) : isDigit (UInt8.ofNat (0x30 + digit)) = true := by
  have hdigit : (UInt8.ofNat (0x30 + digit)).toNat = 0x30 + digit :=
    UInt8.toNat_ofNat_of_lt' (show 0x30 + digit < 256 by omega)
  rw [isDigit, Bool.and_eq_true, decide_eq_true_eq, decide_eq_true_eq, UInt8.le_iff_toNat_le, UInt8.le_iff_toNat_le,
    hdigit]
  exact ⟨Nat.le_add_right _ _, show 0x30 + digit ≤ 0x39 by omega⟩

theorem decimalBytes_digits (value : Nat) :
    decimalBytes value ≠ [] ∧ (∀ byte ∈ decimalBytes value, isDigit byte = true) ∧
      decimalValue (decimalBytes value) = value := by
  unfold decimalBytes
  split
  · next hzero =>
    refine ⟨List.cons_ne_nil _ _, fun byte hbyte => ?_, hzero.symm⟩
    rw [List.mem_singleton.mp hbyte]
    rfl
  · next hzero =>
    have hdigits : ∀ digit ∈ Nat.digits 10 value, digit < 10 := fun digit hdigit =>
      Nat.digits_lt_base (by decide) hdigit
    refine ⟨by simpa [Nat.digits_eq_nil_iff_eq_zero] using hzero, fun byte hbyte => ?_, ?_⟩
    · obtain ⟨digit, hdigit, rfl⟩ := List.mem_map.mp hbyte
      exact isDigit_ofNat (hdigits digit (List.mem_reverse.mp hdigit))
    · rw [decimalValue_digits hdigits, Nat.ofDigits_digits]

theorem decimalBytes_injective {first second : Nat} (h : decimalBytes first = decimalBytes second) : first = second := by
  rw [← (decimalBytes_digits first).2.2, h, (decimalBytes_digits second).2.2]

theorem not_mem_decimalBytes {byte : UInt8} (h : isDigit byte = false) (value : Nat) : byte ∉ decimalBytes value := by
  intro hmem
  have hdigit := (decimalBytes_digits value).2.1 byte hmem
  rw [hdigit] at h
  cases h

theorem length_decimalBytes_le {value width : Nat} (hwidth : 0 < width) (h : value < 10 ^ width) :
    (decimalBytes value).length ≤ width := by
  unfold decimalBytes
  split
  · exact hwidth
  · rw [List.length_map, List.length_reverse]
    exact (Nat.digits_length_le_iff (by decide) _).mpr h

theorem decimalBytes_head {number : Nat} (h : number ≠ 0) : (decimalBytes number).head? ≠ some 0x30 := by
  have hne : Nat.digits 10 number ≠ [] := Nat.digits_ne_nil_iff_ne_zero.mpr h
  have hlast := Nat.getLast_digit_ne_zero 10 h
  have hlt : (Nat.digits 10 number).getLast hne < 10 := Nat.digits_lt_base (by decide) (List.getLast_mem hne)
  rw [decimalBytes, if_neg h, List.head?_map, List.head?_reverse, List.getLast?_eq_getLast_of_ne_nil hne, Option.map_some]
  intro heq
  have hbyte := congrArg UInt8.toNat (Option.some.inj heq)
  rw [UInt8.toNat_ofNat_of_lt' (show 0x30 + _ < 256 by omega)] at hbyte
  have hzero : (0x30 : UInt8).toNat = 0x30 := rfl
  omega

end PathGuard

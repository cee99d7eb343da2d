import Mathlib.Tactic.Ring
import PathGuard.Lib.Bytes

/-!
# Little-endian numbers

`leBytes width n` is the low `width` bytes of `n`, least significant first, and `leValue` reads them back. The
widths of a format are instances: two, four and eight bytes.
-/

namespace PathGuard

def leBytes : Nat → Nat → Bytes
  | 0, _ => []
  | width + 1, n => UInt8.ofNat n :: leBytes width (n / 256)

def leValue : Bytes → Nat
  | [] => 0
  | byte :: bytes => byte.toNat + 256 * leValue bytes

@[simp] theorem length_leBytes (width n : Nat) : (leBytes width n).length = width := by
  induction width generalizing n with
  | zero => rfl
  | succ width ih => rw [leBytes, List.length_cons, ih]

theorem leValue_leBytes (width n : Nat) : leValue (leBytes width n) = n % 256 ^ width := by
  induction width generalizing n with
  | zero => rw [leBytes, leValue, pow_zero, Nat.mod_one]
  | succ width ih =>
      have hlow : (UInt8.ofNat n).toNat = n % 256 := UInt8.toNat_ofNat'
      rw [leBytes, leValue, ih, hlow, pow_succ', Nat.mod_mul]

theorem leValue_leBytes_of_lt {width n : Nat} (h : n < 256 ^ width) : leValue (leBytes width n) = n := by
  rw [leValue_leBytes, Nat.mod_eq_of_lt h]

theorem leValue_lt (bytes : Bytes) : leValue bytes < 256 ^ bytes.length := by
  induction bytes with
  | nil => exact Nat.one_pos
  | cons byte bytes ih =>
      have hbyte := byte.toNat_lt
      rw [leValue, List.length_cons, pow_succ']
      omega

theorem leValue_injOn {a b : Bytes} (hlength : a.length = b.length) (h : leValue a = leValue b) : a = b := by
  induction a generalizing b with
  | nil => exact (List.length_eq_zero_iff.mp hlength.symm).symm
  | cons x a ih =>
      cases b with
      | nil => cases hlength
      | cons y b =>
          have hx := x.toNat_lt
          have hy := y.toNat_lt
          rw [leValue, leValue] at h
          have hlow : x = y := UInt8.toNat_inj.mp (by omega)
          rw [hlow, ih (Nat.succ.inj hlength) (by omega)]

end PathGuard

import Mathlib.Data.BitVec
import Mathlib.Logic.Function.Iterate

/-!
# Checksums that fold over the input

A checksum carries a state through the input, one step for each symbol. Where a step is injective in the state, two
inputs with the same end that lead to one state lead to one state before that end.

A feedback register of width `w` shifts its lowest bit out and, when that bit was set, adds a polynomial whose highest
bit is set. It is linear and injective, and `k` shifts are undone by a shift up as long as nothing is lost at the top.
So as many symbols as the register has room for can be read back from it.

* `feedback`, `shiftIn` : the register, without input and with a symbol;
* `eq_of_foldl_set` : one symbol changed shows in every injective fold;
* `eq_of_foldl_shiftIn` : so do as many symbols as the register has room for.
-/

namespace PathGuard

section Fold
variable {σ β : Type*} {step : σ → β → σ}

theorem foldl_injective (h : ∀ b, Function.Injective fun s => step s b) (l : List β) :
    Function.Injective fun s => l.foldl step s := by
  induction l with
  | nil => exact fun s t hst => hst
  | cons b l ih => exact fun s t hst => h b (ih hst)

theorem eq_of_foldl_set (hstate : ∀ b, Function.Injective fun s => step s b) (hsymbol : ∀ s, Function.Injective (step s))
    {s : σ} {before after : List β} {b c : β}
    (h : (before ++ b :: after).foldl step s = (before ++ c :: after).foldl step s) : b = c := by
  rw [List.foldl_append, List.foldl_append, List.foldl_cons, List.foldl_cons] at h
  exact hsymbol _ (foldl_injective hstate after h)

end Fold

section Feedback
variable {w : Nat}

def feedback (poly s : BitVec w) : BitVec w := if s.getLsbD 0 then (s >>> 1) ^^^ poly else s >>> 1

variable {poly : BitVec w}

theorem feedback_xor (s t : BitVec w) : feedback poly (s ^^^ t) = feedback poly s ^^^ feedback poly t := by
  unfold feedback
  rw [BitVec.getLsbD_xor, BitVec.ushiftRight_xor_distrib]
  cases hs : s.getLsbD 0 <;> cases ht : t.getLsbD 0
  · simp
  · simp [BitVec.xor_assoc]
  · simp only [Bool.bne_false, if_true, Bool.false_eq_true, if_false, BitVec.xor_assoc]
    rw [BitVec.xor_comm poly]
  · simp only [bne_self_eq_false, Bool.false_eq_true, if_false, if_true]
    rw [BitVec.xor_assoc, ← BitVec.xor_assoc poly, BitVec.xor_comm poly (t >>> 1), BitVec.xor_assoc (t >>> 1),
      BitVec.xor_self, BitVec.xor_zero]

theorem toNat_of_getLsbD_zero {s : BitVec w} (h : s.getLsbD 0 = false) : s.toNat % 2 = 0 := by
  rw [BitVec.getLsbD, Nat.testBit_zero, decide_eq_false_iff_not] at h
  omega

/-- The highest bit of the result tells which bit was shifted out. -/
theorem feedback_eq_zero (hpoly : poly.msb = true) {s : BitVec w} (h : feedback poly s = 0#w) : s = 0#w := by
  unfold feedback at h
  split at h
  · rw [← BitVec.xor_eq_zero_iff.mp h, BitVec.msb_ushiftRight] at hpoly
    simp at hpoly
  · next hlow =>
    rw [Bool.not_eq_true] at hlow
    have heven := toNat_of_getLsbD_zero hlow
    have hhalf : s.toNat / 2 = 0 := by simpa [Nat.shiftRight_eq_div_pow] using congrArg BitVec.toNat h
    apply BitVec.eq_of_toNat_eq
    rw [BitVec.toNat_ofNat, Nat.zero_mod]
    omega

theorem feedback_injective (hpoly : poly.msb = true) : Function.Injective (feedback poly) := by
  intro s t h
  have hzero : feedback poly (s ^^^ t) = 0#w := by rw [feedback_xor, h, BitVec.xor_self]
  exact BitVec.xor_eq_zero_iff.mp (feedback_eq_zero hpoly hzero)

theorem iterate_feedback_xor (k : Nat) (s t : BitVec w) :
    (feedback poly)^[k] (s ^^^ t) = (feedback poly)^[k] s ^^^ (feedback poly)^[k] t := by
  induction k generalizing s t with
  | zero => rfl
  | succ k ih => rw [Function.iterate_succ_apply, feedback_xor, ih]; rfl

theorem iterate_feedback_shiftLeft (k : Nat) {s : BitVec w} (h : s.toNat * 2 ^ k < 2 ^ w) :
    (feedback poly)^[k] (s <<< k) = s := by
  have hup : ∀ k, s.toNat * 2 ^ k < 2 ^ w → (s <<< k).toNat = s.toNat * 2 ^ k := fun k hk => by
    rw [BitVec.toNat_shiftLeft, Nat.shiftLeft_eq, Nat.mod_eq_of_lt hk]
  induction k with
  | zero => simp
  | succ k ih =>
      rw [Nat.pow_succ, ← Nat.mul_assoc] at h
      have hk : s.toNat * 2 ^ k < 2 ^ w := by omega
      have hsucc := hup (k + 1) (by rw [Nat.pow_succ, ← Nat.mul_assoc]; exact h)
      have hlow : (s <<< (k + 1)).getLsbD 0 = false := by simp
      have hstep : feedback poly (s <<< (k + 1)) = s <<< k := by
        rw [feedback, if_neg (by rw [hlow]; decide)]
        apply BitVec.eq_of_toNat_eq
        rw [BitVec.toNat_ushiftRight, hsucc, hup k hk, Nat.shiftRight_eq_div_pow, Nat.pow_succ, ← Nat.mul_assoc,
          pow_one, Nat.mul_div_cancel _ (by decide)]
      rw [Function.iterate_succ_apply, hstep, ih hk]

end Feedback

/-! ## Symbols shifted into a feedback register -/

section Register
variable {w k : Nat} (poly : BitVec w)

/-- A symbol of `k` bits is added at the low end, then the register shifts `k` times. -/
def shiftIn (s : BitVec w) (symbol : BitVec k) : BitVec w := (feedback poly)^[k] (s ^^^ symbol.setWidth w)

variable {poly}

theorem shiftIn_injective (hpoly : poly.msb = true) (symbol : BitVec k) :
    Function.Injective fun s => shiftIn poly s symbol := by
  intro s t h
  have hxor := (feedback_injective hpoly).iterate k h
  simpa using hxor

theorem xor_xor_cancel (s t a b : BitVec w) : s ^^^ t = (s ^^^ a) ^^^ (t ^^^ b) ^^^ (a ^^^ b) := by
  ext i hi
  simp only [BitVec.getElem_xor]
  cases s[i] <;> cases t[i] <;> cases a[i] <;> cases b[i] <;> rfl

/-- What a difference of the states after some symbols says of the difference before them: it is no longer than the
symbols, and where there is none the symbols are the same. -/
theorem eq_of_foldl_shiftIn (hpoly : poly.msb = true) {symbols symbols' : List (BitVec k)}
    (hlength : symbols.length = symbols'.length) (hfits : k * symbols.length ≤ w) {s t : BitVec w}
    (h : symbols.foldl (shiftIn poly) s = symbols'.foldl (shiftIn poly) t) :
    (s ^^^ t).toNat < 2 ^ (k * symbols.length) ∧ (s = t → symbols = symbols') := by
  induction symbols generalizing symbols' s t with
  | nil =>
      obtain rfl : symbols' = [] := List.length_eq_zero_iff.mp hlength.symm
      obtain rfl : s = t := h
      simp
  | cons a symbols ih =>
      cases symbols' with
      | nil => simp at hlength
      | cons b symbols' =>
          rw [List.length_cons, List.length_cons, Nat.succ_inj] at hlength
          rw [List.length_cons, Nat.mul_succ] at hfits ⊢
          have hk : 2 ^ k ≤ 2 ^ (k * symbols.length + k) := Nat.pow_le_pow_right (by decide) (by omega)
          have hw : 2 ^ (k * symbols.length + k) ≤ 2 ^ w := Nat.pow_le_pow_right (by decide) hfits
          obtain ⟨hlt, heq⟩ := ih hlength (by omega) h
          set d := shiftIn poly s a ^^^ shiftIn poly t b with hd
          have hup : d.toNat * 2 ^ k < 2 ^ (k * symbols.length + k) := by
            rw [Nat.pow_add]
            exact Nat.mul_lt_mul_of_pos_right hlt (Nat.two_pow_pos k)
          have hupNat : (d <<< k).toNat = d.toNat * 2 ^ k := by
            rw [BitVec.toNat_shiftLeft, Nat.shiftLeft_eq, Nat.mod_eq_of_lt (by omega)]
          -- the difference before the first symbol is the one after it, shifted up, and the first symbols
          have hbefore : (s ^^^ a.setWidth w) ^^^ (t ^^^ b.setWidth w) = d <<< k := by
            apply (feedback_injective hpoly).iterate k
            rw [iterate_feedback_shiftLeft k (by omega), iterate_feedback_xor]
            rfl
          have hsymbol : ∀ c : BitVec k, (c.setWidth w).toNat = c.toNat := fun c => by
            have := c.isLt
            rw [BitVec.toNat_setWidth, Nat.mod_eq_of_lt (by omega)]
          have hstates : s ^^^ t = d <<< k ^^^ (a.setWidth w ^^^ b.setWidth w) := by
            rw [← hbefore, ← xor_xor_cancel]
          constructor
          · rw [hstates, BitVec.toNat_xor, BitVec.toNat_xor, hupNat, hsymbol, hsymbol]
            have ha := a.isLt
            have hb := b.isLt
            exact Nat.xor_lt_two_pow hup (Nat.xor_lt_two_pow (by omega) (by omega))
          · rintro rfl
            have hzero : d <<< k = a.setWidth w ^^^ b.setWidth w := by
              rw [BitVec.xor_self] at hstates
              exact BitVec.xor_eq_zero_iff.mp hstates.symm
            have hnat : d.toNat * 2 ^ k = a.toNat ^^^ b.toNat := by
              rw [← hupNat, hzero, BitVec.toNat_xor, hsymbol, hsymbol]
            have hsmall : d.toNat * 2 ^ k < 2 ^ k := by
              rw [hnat]
              exact Nat.xor_lt_two_pow a.isLt b.isLt
            have hdzero : d = 0#w := by
              apply BitVec.eq_of_toNat_eq
              rw [BitVec.toNat_ofNat, Nat.zero_mod]
              exact Nat.eq_zero_of_not_pos fun hpos => absurd hsmall (Nat.not_lt.mpr (Nat.le_mul_of_pos_left _ hpos))
            have hab : a = b := by
              rw [hdzero, BitVec.zero_shiftLeft] at hzero
              apply BitVec.eq_of_toNat_eq
              rw [← hsymbol a, ← hsymbol b, BitVec.xor_eq_zero_iff.mp hzero.symm]
            rw [hab, heq (BitVec.xor_eq_zero_iff.mp hdzero)]

end Register

end PathGuard

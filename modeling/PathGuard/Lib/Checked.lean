import Mathlib.Algebra.Group.Nat.Defs
import Mathlib.Data.Nat.Basic

/-!
# Arithmetic that stops instead of wrapping

Operations on unsigned numbers of `width` bits that have no result when the exact one does not fit. A computation made
of them that has a result is, step by step, the exact one and the machine's. For computations that can fail besides,
`Agrees` compares one that stops at a wrap with one that does not look, and its rules go through their binds.

* `checkedAdd`, `checkedMul`, `checkedSub` : the operations that stop;
* `Agrees` : two computations of which one stops at a wrap, with a rule for each way to compose them.
-/

namespace PathGuard

/-- The exact result, if it fits. -/
def fitting (width value : Nat) : Option Nat := if value < 2 ^ width then some value else none

def checkedAdd (width a b : Nat) : Option Nat := fitting width (a + b)

def checkedMul (width a b : Nat) : Option Nat := fitting width (a * b)

def checkedSub (a b : Nat) : Option Nat := if b ≤ a then some (a - b) else none

variable {width a b : Nat}

theorem checkedAdd_of_lt (h : a + b < 2 ^ width) : checkedAdd width a b = some (a + b) := if_pos h

theorem checkedMul_of_lt (h : a * b < 2 ^ width) : checkedMul width a b = some (a * b) := if_pos h

theorem checkedSub_of_le (h : b ≤ a) : checkedSub a b = some (a - b) := if_pos h

/-! ## Computations that fail -/

/-- How a checked computation stops. -/
inductive Stop (ε : Type*)
  | failed (failure : ε)
  | wrapped
  deriving DecidableEq, Repr

/-- A computation without arithmetic of its own. -/
def lifted {ε α : Type} (step : Except ε α) : Except (Stop ε) α := step.mapError Stop.failed

/-- The result of a checked operation. -/
def exactly {ε : Type} (result : Option Nat) : Except (Stop ε) Nat :=
  match result with
  | some value => .ok value
  | none => .error .wrapped

/-- The checked computation does not wrap: it is the plain one, which does not fail in the way that is ruled out. -/
structure Agrees {ε α : Type} (ruledOut : ε) (checked : Except (Stop ε) α) (plain : Except ε α) : Prop where
  eq_lifted : checked = lifted plain
  ne_ruledOut : plain ≠ .error ruledOut

namespace Agrees
variable {ε α β : Type} {ruledOut : ε}

theorem lift {plain : Except ε α} (h : plain ≠ .error ruledOut) : Agrees ruledOut (lifted plain) plain := ⟨rfl, h⟩

theorem ok (value : α) : Agrees ruledOut (.ok value) (.ok value : Except ε α) := ⟨rfl, fun h => by cases h⟩

theorem pure (value : α) : Agrees ruledOut (Pure.pure value) (Pure.pure value : Except ε α) := ok value

theorem error {failure : ε} (h : failure ≠ ruledOut) :
    Agrees ruledOut (.error (.failed failure)) (.error failure : Except ε α) :=
  ⟨rfl, fun heq => h (Except.error.inj heq)⟩

theorem bind {checked : Except (Stop ε) α} {plain : Except ε α} {next : α → Except (Stop ε) β} {next' : α → Except ε β}
    (h : Agrees ruledOut checked plain) (hnext : ∀ value, plain = .ok value → Agrees ruledOut (next value) (next' value)) :
    Agrees ruledOut (checked >>= next) (plain >>= next') := by
  obtain ⟨rfl, hne⟩ := h
  cases plain with
  | error failure => exact ⟨rfl, fun heq => hne (congrArg Except.error (Except.error.inj heq))⟩
  | ok value => exact hnext value rfl

theorem step {result : Option Nat} {value : Nat} {next : Nat → Except (Stop ε) β} {plain : Except ε β}
    (h : result = some value) (hnext : Agrees ruledOut (next value) plain) :
    Agrees ruledOut (exactly result >>= next) plain := by
  rw [h]
  exact hnext

theorem ite {condition : Prop} [Decidable condition] {checked checked' : Except (Stop ε) α} {plain plain' : Except ε α}
    (hthen : condition → Agrees ruledOut checked plain) (helse : ¬ condition → Agrees ruledOut checked' plain') :
    Agrees ruledOut (if condition then checked else checked') (if condition then plain else plain') := by
  by_cases h : condition
  · rw [if_pos h, if_pos h]
    exact hthen h
  · rw [if_neg h, if_neg h]
    exact helse h

end Agrees

end PathGuard

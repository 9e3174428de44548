import Mathlib.Algebra.Order.Ring.Int
import Mathlib.Data.Option.Basic

/-!
# Signed machine integers

Addition and subtraction of integers of `w` bits that may not overflow: an operation has a
result only if the exact one fits.

## Main definitions

- `Fits` — an integer of `w` bits
- `checkedAdd`, `checkedSub` — the operations

## Main results

- `checkedAdd_eq_some_iff`, `checkedSub_eq_some_iff` — when there is a result, and which
-/

namespace WfcIo.Foundation

/-- `x` is an integer of `w` bits. -/
def Fits (w : ℕ) (x : ℤ) : Prop := -2 ^ (w - 1) ≤ x ∧ x < 2 ^ (w - 1)

instance (w : ℕ) (x : ℤ) : Decidable (Fits w x) := inferInstanceAs (Decidable (_ ∧ _))

/-- Between two integers of `w` bits there are only such. -/
theorem Fits.between {w : ℕ} {a x b : ℤ} (ha : Fits w a) (hax : a ≤ x) (hxb : x ≤ b)
    (hb : Fits w b) : Fits w x :=
  ⟨ha.1.trans hax, hxb.trans_lt hb.2⟩

/-- The integer, if it has `w` bits. -/
def checked (w : ℕ) (x : ℤ) : Option ℤ := if Fits w x then some x else none

theorem checked_eq_some_iff {w : ℕ} {x y : ℤ} : checked w x = some y ↔ Fits w x ∧ x = y := by
  rw [checked, Option.ite_none_right_eq_some, Option.some.injEq]

def checkedAdd (w : ℕ) (x y : ℤ) : Option ℤ := checked w (x + y)

def checkedSub (w : ℕ) (x y : ℤ) : Option ℤ := checked w (x - y)

theorem checkedAdd_eq_some_iff {w : ℕ} {x y z : ℤ} :
    checkedAdd w x y = some z ↔ Fits w (x + y) ∧ x + y = z :=
  checked_eq_some_iff

theorem checkedSub_eq_some_iff {w : ℕ} {x y z : ℤ} :
    checkedSub w x y = some z ↔ Fits w (x - y) ∧ x - y = z :=
  checked_eq_some_iff

end WfcIo.Foundation

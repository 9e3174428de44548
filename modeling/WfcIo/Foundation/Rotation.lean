import Mathlib.Algebra.Order.Ring.Int
import Mathlib.Logic.Function.Iterate
import Mathlib.Tactic.Ring

/-!
# Going round with a fixed step

A position on a round of length `L` moves on by `s`, and comes back by `L` if it gets past the
end. It comes back once only, so it stays on the round as long as the step is not longer than
the round, and then its position is that of a clock. With a longer step it is past the end in
every move, and gains `s - L` each time.

## Main definitions

- `rotate` — one move

## Main results

- `rotate_iterate` — the position after any number of moves, if the step is not too long
- `exists_le_rotate_iterate` — otherwise it leaves the round
-/

namespace WfcIo.Foundation

/-- Move on by `s`, and come back by `L` at the end. -/
def rotate (L s x : ℤ) : ℤ := if x + s < L then x + s else x + s - L

variable {L s x : ℤ}

/-- With a step that is not longer than the round one way back is enough. -/
theorem rotate_eq_emod (hx : 0 ≤ x) (hxL : x < L) (hs : 0 ≤ s) (hsL : s ≤ L) :
    rotate L s x = (x + s) % L := by
  rw [rotate]
  split
  · next hlt => rw [Int.emod_eq_of_lt (by omega) hlt]
  · next hge =>
    rw [← Int.sub_emod_right, Int.emod_eq_of_lt (by omega) (by omega)]

/-- **The clock.** After `k` moves the position is `k` steps on, on the round. -/
theorem rotate_iterate (hL : 0 < L) (hs : 0 ≤ s) (hsL : s ≤ L) (k : ℕ) :
    (rotate L s)^[k] 0 = k * s % L := by
  induction k with
  | zero => rw [Function.iterate_zero_apply, Nat.cast_zero, zero_mul, Int.zero_emod]
  | succ k ih =>
    have hnonneg := Int.emod_nonneg (k * s) hL.ne'
    have hlt := Int.emod_lt_of_pos (k * s) hL
    have hcast : ((k + 1 : ℕ) : ℤ) * s = k * s + s := by
      rw [Nat.cast_succ]
      ring
    rw [Function.iterate_succ_apply', ih, rotate_eq_emod hnonneg hlt hs hsL, hcast,
      Int.emod_add_emod]

/-- With a step that is too long every move gets past the end. -/
theorem rotate_iterate_of_le (hsL : L ≤ s) (k : ℕ) : (rotate L s)^[k] 0 = k * (s - L) := by
  induction k with
  | zero => rw [Function.iterate_zero_apply, Nat.cast_zero, zero_mul]
  | succ k ih =>
    have hnonneg : 0 ≤ (k : ℤ) * (s - L) := mul_nonneg (Int.natCast_nonneg k) (by omega)
    rw [Function.iterate_succ_apply', ih, rotate, if_neg (by omega), Nat.cast_succ]
    ring

/-- **Leaving.** With a step longer than the round the position leaves it some time. -/
theorem exists_le_rotate_iterate (hL : 0 ≤ L) (hsL : L < s) : ∃ k, L ≤ (rotate L s)^[k] 0 := by
  refine ⟨L.toNat, ?_⟩
  rw [rotate_iterate_of_le hsL.le, Int.toNat_of_nonneg hL]
  exact le_mul_of_one_le_right hL (by omega)

end WfcIo.Foundation

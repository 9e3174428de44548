import WfcIo.Tank.Tank
import WfcIo.Foundation.Rotation
import WfcIo.Foundation.Signed

/-!
# The counter of the tank

A `__counter` runs from `from` up to `to`, which it does not reach, and begins again. Its fields
are `long`s from the options of a variable, which nobody checks. `next` computes in `long`s too:
an operation that overflows has no result.

Where the step is longer than the range, the branch of `next` that begins again adds more than
it takes away, and the counter runs out of its range.

## Main definitions

- `TankCounter.nextLong` — `next` with its operations on 64 bits
- `TankCounter.start`, `TankCounter.after` — the counter that a variable makes, and the counter
  after so many calls of `next`

## Main results

- `TankCounter.nextLong_eq_some_iff` — when `next` does not overflow
- `TankCounter.after_start` — the values of a counter
- `TankCounter.stays_iff` — which counters stay in their range
-/

namespace WfcIo

open Foundation

namespace TankCounter

/-- `LONG_MAX`. -/
def longMax : ℤ := 2 ^ 63 - 1

/-- `next`, where an operation that overflows has no result. -/
def nextLong (c : TankCounter) : Option TankCounter := do
  let rest ← checkedSub 64 c.to_ c.current
  if rest > c.step then
    let current ← checkedAdd 64 c.current c.step
    return { c with current }
  else
    let sum ← checkedAdd 64 c.from_ c.step
    let rest' ← checkedSub 64 c.to_ c.current
    let current ← checkedSub 64 sum rest'
    return { c with current }

/-- The counter of a variable with the options `from`, `to` and `step`. -/
def start (from_ to_ step : ℤ) : TankCounter := { current := from_, from_, to_, step }

/-- The counter after `k` calls of `next`. -/
def after (c : TankCounter) : ℕ → Option TankCounter
  | 0 => some c
  | k + 1 => (c.after k).bind nextLong

variable {c c' : TankCounter} {from_ to_ step : ℤ} {k : ℕ}

/-! ### One call -/

/-- **One call.** `next` has a result exactly if what it computes fits, and this is the exact
    one. -/
theorem nextLong_eq_some_iff : c.nextLong = some c' ↔
    Fits 64 (c.to_ - c.current) ∧
      (c.to_ - c.current > c.step → Fits 64 (c.current + c.step)) ∧
      (¬ c.to_ - c.current > c.step →
        Fits 64 (c.from_ + c.step) ∧ Fits 64 (c.from_ + c.step - (c.to_ - c.current))) ∧
      c.next = c' := by
  simp only [nextLong, Option.bind_eq_bind, Option.bind_eq_some_iff, checkedSub_eq_some_iff]
  by_cases hbranch : c.to_ - c.current > c.step
  · rw [next, if_pos hbranch]
    constructor
    · rintro ⟨_, ⟨hrest, rfl⟩, h⟩
      rw [if_pos hbranch] at h
      obtain ⟨_, hcurrent, h⟩ := Option.bind_eq_some_iff.mp h
      obtain ⟨hfits, rfl⟩ := checkedAdd_eq_some_iff.mp hcurrent
      exact ⟨hrest, fun _ => hfits, fun hnot => absurd hbranch hnot, Option.some.inj h⟩
    · rintro ⟨hrest, hfits, _, rfl⟩
      refine ⟨_, ⟨hrest, rfl⟩, ?_⟩
      rw [if_pos hbranch, checkedAdd_eq_some_iff.mpr ⟨hfits hbranch, rfl⟩]
      rfl
  · rw [next, if_neg hbranch]
    constructor
    · rintro ⟨_, ⟨hrest, rfl⟩, h⟩
      rw [if_neg hbranch] at h
      obtain ⟨_, hsum, h⟩ := Option.bind_eq_some_iff.mp h
      obtain ⟨_, hrest', h⟩ := Option.bind_eq_some_iff.mp h
      obtain ⟨_, hcurrent, h⟩ := Option.bind_eq_some_iff.mp h
      obtain ⟨hfitsSum, rfl⟩ := checkedAdd_eq_some_iff.mp hsum
      obtain ⟨_, rfl⟩ := checkedSub_eq_some_iff.mp hrest'
      obtain ⟨hfits, rfl⟩ := checkedSub_eq_some_iff.mp hcurrent
      exact ⟨hrest, fun hlt => absurd hlt hbranch, fun _ => ⟨hfitsSum, hfits⟩, Option.some.inj h⟩
    · rintro ⟨hrest, _, hfits, rfl⟩
      obtain ⟨hfitsSum, hfits⟩ := hfits hbranch
      refine ⟨_, ⟨hrest, rfl⟩, ?_⟩
      rw [if_neg hbranch, checkedAdd_eq_some_iff.mpr ⟨hfitsSum, rfl⟩,
        checkedSub_eq_some_iff.mpr ⟨hrest, rfl⟩]
      dsimp only [Option.bind_some]
      rw [checkedSub_eq_some_iff.mpr ⟨hfits, rfl⟩]
      rfl

/-! ### Many calls -/

theorem after_succ (c : TankCounter) (k : ℕ) : c.after (k + 1) = (c.after k).bind nextLong := rfl

/-- What `next` gives without overflow is what it gives with integers that have no bounds. -/
theorem eq_next_of_after (h : c.after k = some c') : c' = next^[k] c := by
  induction k generalizing c' with
  | zero => exact (Option.some.inj h).symm
  | succ k ih =>
    obtain ⟨d, hd, hnext⟩ := Option.bind_eq_some_iff.mp h
    obtain ⟨_, _, _, rfl⟩ := nextLong_eq_some_iff.mp hnext
    rw [Function.iterate_succ_apply', ih hd]

/-- The counter `x` on from its start. -/
def place (from_ to_ step x : ℤ) : TankCounter := { current := from_ + x, from_, to_, step }

theorem start_eq_place (from_ to_ step : ℤ) : start from_ to_ step = place from_ to_ step 0 := by
  rw [place, add_zero, start]

/-- The counter goes round its range. -/
theorem next_place (from_ to_ step x : ℤ) :
    (place from_ to_ step x).next = place from_ to_ step (rotate (to_ - from_) step x) := by
  have hiff : to_ - (from_ + x) > step ↔ x + step < to_ - from_ := by omega
  simp only [next, place, rotate, hiff]
  split
  · rw [add_assoc]
  · congr 1
    omega

theorem iterate_next_start (from_ to_ step : ℤ) (k : ℕ) :
    next^[k] (start from_ to_ step) =
      place from_ to_ step ((rotate (to_ - from_) step)^[k] 0) := by
  induction k with
  | zero => exact start_eq_place from_ to_ step
  | succ k ih => rw [Function.iterate_succ_apply', Function.iterate_succ_apply', ih, next_place]

/-- In its range the counter does not overflow, if the step is not longer than the range. -/
theorem nextLong_place {x : ℤ} (hfrom : Fits 64 from_) (hto : Fits 64 to_)
    (hlength : to_ - from_ ≤ longMax) (hpos : 1 ≤ step) (hstep : step ≤ to_ - from_) (hx : 0 ≤ x)
    (hlt : x < to_ - from_) :
    (place from_ to_ step x).nextLong = some (place from_ to_ step x).next := by
  have hrest : Fits 64 (to_ - (from_ + x)) := by
    rw [longMax] at hlength
    exact ⟨by omega, by omega⟩
  have hfits : ∀ y, from_ ≤ y → y ≤ to_ → Fits 64 y := fun y hge hle =>
    hfrom.between hge hle hto
  rw [nextLong_eq_some_iff]
  dsimp only [place]
  refine ⟨hrest, fun hlt => ?_, fun hge => ⟨?_, ?_⟩, rfl⟩
  all_goals exact hfits _ (by omega) (by omega)

/-- A counter whose step is not longer than its range does not overflow. -/
theorem after_start_eq_iterate (hfrom : Fits 64 from_) (hto : Fits 64 to_) (hrange : from_ < to_)
    (hlength : to_ - from_ ≤ longMax) (hpos : 1 ≤ step) (hstep : step ≤ to_ - from_) (k : ℕ) :
    (start from_ to_ step).after k = some (next^[k] (start from_ to_ step)) := by
  induction k with
  | zero => rfl
  | succ k ih =>
    have hround : 0 < to_ - from_ := by omega
    have hclock := rotate_iterate hround (by omega) hstep k
    rw [after_succ, ih, Option.bind_some, iterate_next_start, nextLong_place hfrom hto hlength
      hpos hstep, ← iterate_next_start, Function.iterate_succ_apply']
    · rw [hclock]
      exact Int.emod_nonneg _ hround.ne'
    · rw [hclock]
      exact Int.emod_lt_of_pos _ hround

/-- **The values of a counter.** After `k` calls of `next` it is `k` steps on from `from`, in its
    range, and no operation has overflowed. -/
theorem after_start (from_ to_ step : ℤ) (hfrom : Fits 64 from_) (hto : Fits 64 to_)
    (hrange : from_ < to_) (hlength : to_ - from_ ≤ longMax) (hpos : 1 ≤ step)
    (hstep : step ≤ to_ - from_) (k : ℕ) :
    (start from_ to_ step).after k =
      some { start from_ to_ step with current := from_ + k * step % (to_ - from_) } := by
  rw [after_start_eq_iterate hfrom hto hrange hlength hpos hstep, iterate_next_start,
    rotate_iterate (by omega) (by omega) hstep]
  rfl

/-- The counter of a variable without options goes up to the end of the type. -/
theorem after_start_default :
    (start 0 longMax 1).after (10 ^ 20) =
      some { start 0 longMax 1 with current := 0 + (10 ^ 20 : ℕ) * 1 % (longMax - 0) } :=
  after_start 0 longMax 1 (by decide) (by decide) (by decide) (by decide) (by decide) (by decide)
    (10 ^ 20)

/-! ### The range -/

/-- **The range.** A counter stays in its range, and does not overflow, exactly if the length of
    the range is a `long` and the step is not longer. -/
theorem stays_iff (from_ to_ step : ℤ) (hfrom : Fits 64 from_) (hto : Fits 64 to_)
    (hrange : from_ < to_) (hpos : 1 ≤ step) :
    (∀ k, ∃ c, (start from_ to_ step).after k = some c ∧ from_ ≤ c.current ∧ c.current < to_) ↔
      to_ - from_ ≤ longMax ∧ step ≤ to_ - from_ := by
  constructor
  · intro hall
    constructor
    · -- the first call computes the length
      obtain ⟨c, hc, _⟩ := hall 1
      obtain ⟨⟨_, hlength⟩, _⟩ := nextLong_eq_some_iff.mp hc
      exact Int.le_sub_one_of_lt hlength
    · by_contra hstep
      obtain ⟨k, hk⟩ := exists_le_rotate_iterate (L := to_ - from_) (s := step) (by omega)
        (by omega)
      obtain ⟨c, hc, _, hlt⟩ := hall k
      rw [eq_next_of_after hc, iterate_next_start, place] at hlt
      dsimp only at hlt
      omega
  · rintro ⟨hlength, hstep⟩ k
    have hround : 0 < to_ - from_ := by omega
    refine ⟨_, after_start_eq_iterate hfrom hto hrange hlength hpos hstep k, ?_⟩
    have hnonneg := Int.emod_nonneg (k * step) hround.ne'
    have hlt := Int.emod_lt_of_pos (k * step) hround
    rw [iterate_next_start, rotate_iterate hround (by omega) hstep, place]
    dsimp only
    omega

/-- From 10 up to 20 by 2, far on. -/
theorem stays_ten_twenty :
    ∃ c, (start 10 20 2).after (10 ^ 20) = some c ∧ 10 ≤ c.current ∧ c.current < 20 :=
  (stays_iff 10 20 2 (by decide) (by decide) (by decide) (by decide)).mpr ⟨by decide, by decide⟩
    (10 ^ 20)

/-- From 1 up to 3 by 10: the second value is 9. -/
theorem not_stays :
    ¬ ∀ from_ to_ step : ℤ, Fits 64 from_ → Fits 64 to_ → Fits 64 step → from_ < to_ → 1 ≤ step →
      ∀ k, ∃ c, (start from_ to_ step).after k = some c ∧ from_ ≤ c.current ∧ c.current < to_ := by
  intro hall
  obtain ⟨c, hc, _, hlt⟩ := hall 1 3 10 (by decide) (by decide) (by decide) (by decide)
    (by decide) 1
  have hnine : (start 1 3 10).after 1 = some { start 1 3 10 with current := 9 } := by decide
  cases hnine.symm.trans hc
  exact absurd hlt (by decide)

end TankCounter

end WfcIo

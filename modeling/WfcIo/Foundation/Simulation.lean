import WfcIo.Foundation.History

/-!
# Two systems step by step

Two step functions take the same actions, and each step shows something. As long as a relation
between their states is kept, they show the same. Where a condition on the actions is all that
keeps the relation, and what is shown differs at once without it, the condition is exact.

## Main definitions

- `Simulates` — under a condition, a step keeps the relation and shows the same
- `Shows` — what a system shows in one more step of a run

## Main results

- `Simulates.run` — the rule for runs
- `Simulates.same_iff` — the rule for exact conditions
- `related_run`, `related_along` — relations that need no condition
-/

namespace WfcIo.Foundation

universe u v w x

variable {σ : Type u} {τ : Type v} {α : Type w} {β : Type x}

/-- A step of the first system and one of the second, taken from related states by an action
    that meets the condition, lead to related states and show the same. -/
structure Simulates (step : σ → α → σ) (step' : τ → α → τ) (out : σ → β) (out' : τ → β)
    (R : σ → τ → Prop) (G : σ → α → Prop) : Prop where
  related : ∀ s t a, R s t → G s a → R (step s a) (step' t a)
  same : ∀ s t a, R s t → G s a → out (step s a) = out' (step' t a)

/-- What a system shows when it takes the action `a` after the actions `pre`. -/
def Shows (step : σ → α → σ) (out : σ → β) (s : σ) (pre : List α) (a : α) : β :=
  out (step (run step s pre) a)

namespace Simulates

variable {step : σ → α → σ} {step' : τ → α → τ} {out : σ → β} {out' : τ → β}
  {R : σ → τ → Prop} {G : σ → α → Prop} {s : σ} {t : τ}

/-- The relation holds at the end of a run whose steps all meet the condition. -/
theorem run (h : Simulates step step' out out' R G) (hR : R s t) {as : List α}
    (has : Along step G s as) : R (Foundation.run step s as) (Foundation.run step' t as) := by
  induction as generalizing s t with
  | nil => exact hR
  | cons a as ih => exact ih (h.related s t a hR has.1) has.2

/-- **Exact conditions.** If without the condition the two systems show different things at
    once, they show the same in every step of a run exactly if every step meets it. -/
theorem same_iff (h : Simulates step step' out out' R G)
    (hdiffer : ∀ s t a, R s t → ¬ G s a → out (step s a) ≠ out' (step' t a)) (hR : R s t)
    (as : List α) :
    AtEach (fun pre a => Shows step out s pre a = Shows step' out' t pre a) as ↔
      Along step G s as := by
  rw [along_iff_atEach]
  apply atEach_congr
  intro pre a _ hpre
  have hrun := h.run hR (along_iff_atEach.mpr hpre)
  constructor
  · intro hsame
    by_contra hG
    exact hdiffer _ _ a hrun hG hsame
  · exact h.same _ _ a hrun

end Simulates

/-! ### Relations that every step keeps -/

section Related

variable {step : σ → α → σ} {step' : τ → α → τ} {R : σ → τ → Prop} {s : σ} {t : τ}

theorem related_run (h : ∀ s t a, R s t → R (step s a) (step' t a)) (hR : R s t) (as : List α) :
    R (run step s as) (run step' t as) := by
  induction as generalizing s t with
  | nil => exact hR
  | cons a as ih => exact ih (h s t a hR)

/-- Conditions that mean the same on related states mean the same along related runs. -/
theorem related_along {G : σ → α → Prop} {G' : τ → α → Prop}
    (h : ∀ s t a, R s t → R (step s a) (step' t a)) (hG : ∀ s t a, R s t → (G s a ↔ G' t a))
    (hR : R s t) (as : List α) : Along step G s as ↔ Along step' G' t as := by
  induction as generalizing s t with
  | nil => exact Iff.rfl
  | cons a as ih => rw [along_cons, along_cons, hG s t a hR, ih (h s t a hR)]

end Related

end WfcIo.Foundation

import Mathlib.Data.List.Infix

/-!
# Runs of a step function

A component that is called, or receives an event, one step at a time is a step
function `step : σ → α → σ`. This file has the finite runs of such a function and
the induction rules every invariant below is proved with.

## Main definitions

- `run` — the state after a finite list of actions
- `Along` — every step of a run is taken in a state that satisfies a condition
-/

namespace WfcIo.Foundation

universe u v

variable {σ : Type u} {α : Type v} {step : σ → α → σ}

/-- The state reached from `s` by the actions `as`, first to last. -/
def run (step : σ → α → σ) (s : σ) (as : List α) : σ := as.foldl step s

@[simp] theorem run_nil (s : σ) : run step s [] = s := rfl

@[simp] theorem run_cons (s : σ) (a : α) (as : List α) :
    run step s (a :: as) = run step (step s a) as := rfl

@[simp] theorem run_append (s : σ) (as bs : List α) :
    run step s (as ++ bs) = run step (run step s as) bs :=
  List.foldl_append

/-- A run with one more action. -/
theorem run_concat (s : σ) (as : List α) (a : α) :
    run step s (as ++ [a]) = step (run step s as) a := by
  rw [run_append, run_cons, run_nil]

/-- A run through the action `a`. -/
theorem run_split {s : σ} {as pre post : List α} {a : α} (h : as = pre ++ a :: post) :
    run step s as = run step (step (run step s pre) a) post := by
  rw [h, run_append, run_cons]

/-- Every step of the run `as` from `s` is taken with `G` true of the state before
    it and of its action. -/
def Along (step : σ → α → σ) (G : σ → α → Prop) : σ → List α → Prop
  | _, [] => True
  | s, a :: as => G s a ∧ Along step G (step s a) as

variable {G : σ → α → Prop}

@[simp] theorem along_nil (s : σ) : Along step G s [] := trivial

@[simp] theorem along_cons (s : σ) (a : α) (as : List α) :
    Along step G s (a :: as) ↔ G s a ∧ Along step G (step s a) as := Iff.rfl

theorem along_append (s : σ) (as bs : List α) :
    Along step G s (as ++ bs) ↔ Along step G s as ∧ Along step G (run step s as) bs := by
  induction as generalizing s with
  | nil => simp
  | cons a as ih => simp only [List.cons_append, along_cons, run_cons, ih, and_assoc]

theorem along_concat (s : σ) (as : List α) (a : α) :
    Along step G s (as ++ [a]) ↔ Along step G s as ∧ G (run step s as) a := by
  rw [along_append, along_cons]
  exact and_congr_right fun _ => and_iff_left (along_nil _)

/-- What holds along a run holds along the beginning of it. -/
theorem Along.of_prefix {s : σ} {as bs : List α} (h : Along step G s as) (hpre : bs <+: as) :
    Along step G s bs := by
  obtain ⟨cs, rfl⟩ := hpre
  exact ((along_append s bs cs).mp h).1

instance [∀ s a, Decidable (G s a)] : ∀ (s : σ) (as : List α), Decidable (Along step G s as)
  | _, [] => inferInstanceAs (Decidable True)
  | s, a :: as =>
    have : Decidable (Along step G (step s a) as) := instDecidableAlong (step s a) as
    inferInstanceAs (Decidable (G s a ∧ Along step G (step s a) as))

theorem along_of_forall {G : α → Prop} {s : σ} {as : List α} (h : ∀ a ∈ as, G a) :
    Along step (fun _ a => G a) s as := by
  induction as generalizing s with
  | nil => trivial
  | cons a as ih =>
    exact ⟨h a List.mem_cons_self, ih fun b hb => h b (List.mem_cons_of_mem a hb)⟩

/-- What holds in every state holds along every run. -/
theorem along_of_always (h : ∀ s a, G s a) (s : σ) (as : List α) : Along step G s as := by
  induction as generalizing s with
  | nil => trivial
  | cons a as ih => exact ⟨h s a, ih (step s a)⟩

theorem Along.and {H : σ → α → Prop} {s : σ} {as : List α} (h : Along step G s as)
    (h' : Along step H s as) : Along step (fun s a => G s a ∧ H s a) s as := by
  induction as generalizing s with
  | nil => trivial
  | cons a as ih => exact ⟨⟨h.1, h'.1⟩, ih h.2 h'.2⟩

/-- A run that leaves the condition does so at a first step. -/
theorem exists_first_of_not_along {s : σ} {as : List α} (h : ¬ Along step G s as) :
    ∃ pre a post, as = pre ++ a :: post ∧ Along step G s pre ∧ ¬ G (run step s pre) a := by
  induction as generalizing s with
  | nil => exact absurd trivial h
  | cons a as ih =>
    by_cases ha : G s a
    · have hrest : ¬ Along step G (step s a) as := fun hr => h ⟨ha, hr⟩
      obtain ⟨pre, b, post, rfl, hpre, hb⟩ := ih hrest
      exact ⟨a :: pre, b, post, rfl, ⟨ha, hpre⟩, hb⟩
    · exact ⟨[], a, as, rfl, trivial, ha⟩

/-- **Invariant rule**: what every step preserves, every run preserves. -/
theorem run_invariant {I : σ → Prop} (hstep : ∀ s a, I s → I (step s a)) {s : σ} (h : I s)
    (as : List α) : I (run step s as) := by
  induction as generalizing s with
  | nil => exact h
  | cons a as ih => exact ih (hstep s a h)

/-- **Invariant rule along a condition**: it is enough to preserve `I` in the steps
    that satisfy `G`. -/
theorem run_invariant_along {I : σ → Prop} (hstep : ∀ s a, G s a → I s → I (step s a)) {s : σ}
    (h : I s) {as : List α} (has : Along step G s as) : I (run step s as) := by
  induction as generalizing s with
  | nil => exact h
  | cons a as ih => exact ih (hstep s a has.1 h) has.2

/-- An invariant along a condition decides what may be said of every step. -/
theorem along_of_invariant {I : σ → Prop} {Q : σ → α → Prop}
    (hstep : ∀ s a, G s a → I s → I (step s a)) (hQ : ∀ s a, I s → Q s a) {s : σ} (h : I s)
    {as : List α} (has : Along step G s as) : Along step Q s as := by
  induction as generalizing s with
  | nil => trivial
  | cons a as ih => exact ⟨hQ s a h, ih (hstep s a has.1 h) has.2⟩

/-- **History rule**: an invariant that may speak of the actions performed so far. -/
theorem run_history {P : List α → σ → Prop} {s : σ} (h : P [] s)
    (hstep : ∀ hist a, P hist (run step s hist) → P (hist ++ [a]) (step (run step s hist) a))
    (as : List α) : P as (run step s as) := by
  induction as using List.reverseRecOn with
  | nil => exact h
  | append_singleton as a ih => simpa using hstep as a ih

/-- The last action of a kind is one action. -/
theorem last_unique {N : α → Prop} {p p' q q' : List α} {a b : α}
    (h : p ++ a :: q = p' ++ b :: q') (ha : N a) (hb : N b) (hq : ∀ x ∈ q, ¬ N x)
    (hq' : ∀ x ∈ q', ¬ N x) : p = p' ∧ a = b ∧ q = q' := by
  obtain ⟨l, rfl, hl⟩ | ⟨l, rfl, hl⟩ := List.append_eq_append_iff.mp h
  · cases l with
    | nil =>
      cases hl
      exact ⟨by simp, rfl, rfl⟩
    | cons c l =>
      cases hl
      exact absurd hb (hq b (List.mem_append_right _ List.mem_cons_self))
  · cases l with
    | nil =>
      cases hl
      exact ⟨by simp, rfl, rfl⟩
    | cons c l =>
      cases hl
      exact absurd ha (hq' a (List.mem_append_right _ List.mem_cons_self))

end WfcIo.Foundation

import WfcIo.Foundation.Run
import Mathlib.Data.List.Basic

/-!
# Histories

What the steps of a run put out, as one list, and the last element of a list that says
anything about a given matter. Who is registered where is always a question of the latest
word: of a source to a component, or of a component to its target.

## Main definitions

- `trace` — the output of a run, step by step
- `taken` — the actions of a run that meet a condition when they are performed
- `collected` — what the actions of a run say when they are performed
- `AtEach` — something holds of every element of a list and what is before it
- `latest` — the last value of a partial function along a list

## Main results

- `flag_iff` — what has been raised and not lowered since
- `atEach_congr` — the rule for exact conditions: it is enough to compare at one element,
  with the condition granted for all that is before it
-/

namespace WfcIo.Foundation

universe u v w

variable {σ : Type u} {α : Type v} {β : Type w}

/-! ### The output of a run -/

/-- What the steps of a run put out, where `out` reads off the output of the step that
    led to a state. -/
def trace (step : σ → α → σ) (out : σ → List β) : σ → List α → List β
  | _, [] => []
  | s, a :: as => out (step s a) ++ trace step out (step s a) as

variable {step : σ → α → σ} {out : σ → List β}

@[simp] theorem trace_nil (s : σ) : trace step out s [] = [] := rfl

@[simp] theorem trace_cons (s : σ) (a : α) (as : List α) :
    trace step out s (a :: as) = out (step s a) ++ trace step out (step s a) as := rfl

@[simp] theorem trace_append (s : σ) (as bs : List α) :
    trace step out s (as ++ bs) = trace step out s as ++ trace step out (run step s as) bs := by
  induction as generalizing s with
  | nil => rfl
  | cons a as ih => simp only [List.cons_append, trace_cons, run_cons, ih, List.append_assoc]

theorem trace_concat (s : σ) (as : List α) (a : α) :
    trace step out s (as ++ [a]) = trace step out s as ++ out (step (run step s as) a) := by
  rw [trace_append, trace_cons, trace_nil, List.append_nil]

/-! ### The actions that count -/

/-- The actions of a run for which `ok` is true in the state they are performed in. -/
def taken (step : σ → α → σ) (ok : σ → α → Bool) : σ → List α → List α
  | _, [] => []
  | s, a :: as => (if ok s a then [a] else []) ++ taken step ok (step s a) as

variable {ok : σ → α → Bool}

@[simp] theorem taken_nil (s : σ) : taken step ok s [] = [] := rfl

theorem taken_append (s : σ) (as bs : List α) :
    taken step ok s (as ++ bs) = taken step ok s as ++ taken step ok (run step s as) bs := by
  induction as generalizing s with
  | nil => rfl
  | cons a as ih => simp only [List.cons_append, taken, run_cons, ih, List.append_assoc]

theorem taken_concat (s : σ) (as : List α) (a : α) :
    taken step ok s (as ++ [a]) =
      taken step ok s as ++ if ok (run step s as) a then [a] else [] := by
  rw [taken_append, taken, taken_nil, List.append_nil]

/-! ### What actions say -/

/-- What the actions of a run say, each in the state in which it is performed. -/
def collected (step : σ → α → σ) (tells : σ → α → List β) : σ → List α → List β
  | _, [] => []
  | s, a :: as => tells s a ++ collected step tells (step s a) as

/-- A log to which each step adds what its action says has at the end what all of them have said. -/
theorem run_collected {tells : σ → α → List β} {log : σ → List β}
    (h : ∀ s a, log (step s a) = log s ++ tells s a) (s : σ) (as : List α) :
    log (run step s as) = log s ++ collected step tells s as := by
  induction as generalizing s with
  | nil => exact (List.append_nil _).symm
  | cons a as ih => rw [run_cons, ih, h, collected, List.append_assoc]

/-! ### Every element and its past -/

/-- `Q` holds of every element of the list together with the elements before it. -/
def AtEach (Q : List α → α → Prop) (l : List α) : Prop :=
  ∀ pre a post, l = pre ++ a :: post → Q pre a

section AtEach

variable {P Q : List α → α → Prop} {l l' : List α} {a : α}

theorem atEach_nil : AtEach Q [] := by
  intro pre a post h
  simp at h

theorem AtEach.of_append (h : AtEach Q (l ++ l')) : AtEach Q l := by
  intro pre a post hl
  apply h pre a (post ++ l')
  rw [hl, List.append_assoc, List.cons_append]

theorem atEach_concat_iff : AtEach Q (l ++ [a]) ↔ AtEach Q l ∧ Q l a := by
  constructor
  · exact fun h => ⟨h.of_append, h l a [] rfl⟩
  · rintro ⟨hl, ha⟩ pre b post h
    obtain rfl | ⟨post', c, rfl⟩ := List.eq_nil_or_concat post
    · obtain ⟨rfl, hb⟩ := List.append_inj' h rfl
      cases hb
      exact ha
    · rw [List.concat_eq_append, ← List.cons_append, ← List.append_assoc] at h
      obtain ⟨hpre, _⟩ := List.append_inj' h rfl
      exact hl pre b post' hpre

/-- **Exact conditions.** If, given the condition everywhere before, what is claimed of one
    element is equivalent to the condition there, the claim holds everywhere exactly if the
    condition does. -/
theorem atEach_congr (h : ∀ pre a, pre ++ [a] <+: l → AtEach Q pre → (P pre a ↔ Q pre a)) :
    AtEach P l ↔ AtEach Q l := by
  induction l using List.reverseRecOn with
  | nil => exact iff_of_true atEach_nil atEach_nil
  | append_singleton l a ih =>
    rw [atEach_concat_iff, atEach_concat_iff,
      ih fun pre b hpre => h pre b (hpre.trans (List.prefix_append l [a]))]
    exact and_congr_right (h l a (List.prefix_refl _))

/-- What holds of every beginning of a list, if it holds of the empty list. -/
theorem forall_prefix_iff_atEach {R : List α → Prop} (h : R []) :
    (∀ pre, pre <+: l → R pre) ↔ AtEach (fun pre a => R (pre ++ [a])) l := by
  induction l using List.reverseRecOn with
  | nil => simp only [List.prefix_nil, forall_eq, h, atEach_nil]
  | append_singleton l a ih =>
    rw [atEach_concat_iff, ← ih]
    simp only [List.prefix_concat_iff, forall_eq_or_imp, and_comm]

/-- A list can be checked element by element. -/
theorem atEach_iff_take : AtEach Q l ↔ ∀ i : Fin l.length, Q (l.take i) (l.get i) := by
  constructor
  · intro h i
    refine h (l.take i) (l.get i) (l.drop (i + 1)) ?_
    rw [List.get_eq_getElem, List.cons_getElem_drop_succ, List.take_append_drop]
  · rintro h pre a post rfl
    have hlt : pre.length < (pre ++ a :: post).length := by simp
    simpa using h ⟨pre.length, hlt⟩

instance [∀ pre a, Decidable (Q pre a)] : Decidable (AtEach Q l) :=
  decidable_of_iff _ atEach_iff_take.symm

/-- A condition along a run is a condition at each of its actions. -/
theorem along_iff_atEach {G : σ → α → Prop} {s : σ} :
    Along step G s l ↔ AtEach (fun pre a => G (run step s pre) a) l := by
  induction l using List.reverseRecOn with
  | nil => exact iff_of_true trivial atEach_nil
  | append_singleton l a ih =>
    rw [atEach_concat_iff, along_concat, ih]

end AtEach

/-- **Flags.** What some actions raise and others lower is up exactly if it has been raised and
    not lowered since. -/
theorem flag_iff {F : σ → Prop} {raises : σ → α → Prop} {lowers : α → Prop} {s : σ} (h : ¬ F s)
    (hstep : ∀ pre a, pre ++ [a] <+: l →
      (F (step (run step s pre) a) ↔
        raises (run step s pre) a ∨ F (run step s pre) ∧ ¬ lowers a)) :
    F (run step s l) ↔
      ∃ pre a post, l = pre ++ a :: post ∧ raises (run step s pre) a ∧ ∀ b ∈ post, ¬ lowers b := by
  induction l using List.reverseRecOn with
  | nil => exact iff_of_false h fun ⟨pre, a, post, hl, _⟩ => (by simp at hl)
  | append_singleton l a ih =>
    rw [run_concat, hstep l a (List.prefix_refl _),
      ih fun pre b hpre => hstep pre b (hpre.trans (List.prefix_append l [a]))]
    constructor
    · rintro (hraises | ⟨⟨pre, b, post, rfl, hb, hpost⟩, ha⟩)
      · exact ⟨l, a, [], rfl, hraises, fun b hb => absurd hb List.not_mem_nil⟩
      · refine ⟨pre, b, post ++ [a], ?_, hb, fun c hc => ?_⟩
        · rw [List.append_assoc, List.cons_append]
        · obtain hc | hc := List.mem_append.mp hc
          · exact hpost c hc
          · exact List.mem_singleton.mp hc ▸ ha
    · rintro ⟨pre, b, post, hl, hb, hpost⟩
      obtain rfl | ⟨post', c, rfl⟩ := List.eq_nil_or_concat post
      · obtain ⟨rfl, hab⟩ := List.append_inj' hl rfl
        cases hab
        exact Or.inl hb
      · rw [List.concat_eq_append, ← List.cons_append, ← List.append_assoc] at hl
        obtain ⟨rfl, hc⟩ := List.append_inj' hl rfl
        cases hc
        refine Or.inr ⟨⟨pre, b, post', rfl, hb, fun x hx => hpost x ?_⟩, hpost a ?_⟩
        · rw [List.concat_eq_append]
          exact List.mem_append_left _ hx
        · rw [List.concat_eq_append]
          exact List.mem_append_right _ List.mem_cons_self

/-! ### The latest word -/

/-- The value of `f` at the last element of the list where it has one. -/
def latest (f : α → Option β) (l : List α) : Option β := l.reverse.findSome? f

variable {f : α → Option β} {l l' : List α} {a : α} {b : β}

@[simp] theorem latest_nil : latest f [] = none := rfl

theorem latest_append (l l' : List α) : latest f (l ++ l') = (latest f l').or (latest f l) := by
  simp only [latest, List.reverse_append, List.findSome?_append]

@[simp] theorem latest_singleton : latest f [a] = f a := by
  simp only [latest, List.reverse_singleton, List.findSome?_singleton]

@[simp] theorem latest_concat (l : List α) (a : α) :
    latest f (l ++ [a]) = (f a).or (latest f l) := by
  rw [latest_append, latest_singleton]

theorem latest_eq_none_iff : latest f l = none ↔ ∀ x ∈ l, f x = none := by
  simp only [latest, List.findSome?_eq_none_iff, List.mem_reverse]

/-- Elements that say nothing do not matter. -/
theorem latest_append_of_silent (h : ∀ x ∈ l', f x = none) :
    latest f (l ++ l') = latest f l := by
  rw [latest_append, latest_eq_none_iff.mpr h, Option.none_or]

/-- Elements that say one thing, at least one of them, decide. -/
theorem latest_append_of_unanimous (hsome : ∃ x ∈ l', f x = some b)
    (hall : ∀ x ∈ l', f x = some b ∨ f x = none) : latest f (l ++ l') = some b := by
  rw [latest_append]
  cases h : latest f l' with
  | none =>
    obtain ⟨x, hx, hfx⟩ := hsome
    have hnone : f x = none := latest_eq_none_iff.mp h x hx
    rw [hfx] at hnone
    cases hnone
  | some c =>
    obtain ⟨x, hx, hfx⟩ := List.exists_of_findSome?_eq_some h
    have hcase := hall x (List.mem_reverse.mp hx)
    rw [hfx] at hcase
    obtain heq | hnone := hcase
    · rw [heq, Option.some_or]
    · cases hnone

/-- The latest word was spoken, and nothing was said after it. -/
theorem latest_eq_some_iff : latest f l = some b ↔
    ∃ pre x post, l = pre ++ x :: post ∧ f x = some b ∧ ∀ y ∈ post, f y = none := by
  constructor
  · intro h
    obtain ⟨l₁, x, l₂, hl, hx, hnone⟩ := List.findSome?_eq_some_iff.mp h
    refine ⟨l₂.reverse, x, l₁.reverse, ?_, hx, fun y hy => hnone y (List.mem_reverse.mp hy)⟩
    have hrev := congrArg List.reverse hl
    simpa using hrev
  · rintro ⟨pre, x, post, rfl, hx, hpost⟩
    rw [List.append_cons, latest_append_of_silent hpost, latest_concat, hx, Option.some_or]

end WfcIo.Foundation

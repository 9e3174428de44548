import WfcIo.Foundation.Run
import Mathlib.Logic.Function.Basic

/-!
# Interleaved calls in atomic sections

Calls of several threads over one shared state. A call is carried out as a sequence
of atomic sections (the code between taking and releasing a lock, say); between two of
them any other call may execute any number of its own. The local state of a call says
which section comes next and what the call has found out so far.

## Main definitions

- `Sections` — how a call starts and what its next section does
- `Config` — the shared state and the calls in progress, by slot
- `Sections.next` — one move of the interleaving: a new call, or the next section of one
- `Sections.Sound` — the rely-guarantee obligations of an invariant
- `Sections.alone` — a call that is not interrupted
- `Config.Related` — two interleavings of the same calls, compared call by call
-/

namespace WfcIo.Foundation

universe u v w

/-- The sections of a kind of call: `enter` gives the local state of a call that has
    just begun, `step` executes the next section. -/
structure Sections (σ : Type u) (ω : Type v) (τ : Type w) where
  enter : ω → τ
  step : σ → τ → σ × τ

/-- A shared state and the calls in progress, each in a slot of its own. A finished
    call keeps its slot. -/
structure Config (σ : Type u) (τ : Type w) where
  shared : σ
  calls : ℕ → Option τ

/-- What happens next: a call begins in a free slot, or the call of a slot executes
    its next section. -/
inductive Move (ω : Type v)
  | enter (i : ℕ) (op : ω)
  | resume (i : ℕ)

variable {σ : Type u} {ω : Type v} {τ : Type w}

/-- The configuration in which no call has begun. -/
def Config.idle (s : σ) : Config σ τ := ⟨s, fun _ => none⟩

/-! ### Slots -/

section Slots

variable {calls : ℕ → Option τ} {i j : ℕ} {t u : τ}

/-- What is in slot `j` after slot `i` was written. -/
theorem calls_update (h : Function.update calls i (some t) j = some u) :
    (j = i ∧ u = t) ∨ (j ≠ i ∧ calls j = some u) := by
  rw [Function.update_apply] at h
  split at h
  · next heq => exact Or.inl ⟨heq, (Option.some.inj h).symm⟩
  · next hne => exact Or.inr ⟨hne, h⟩

/-- Writing a free slot leaves the calls in progress alone. -/
theorem calls_update_of_none (hi : calls i = none) (hj : calls j = some u) :
    Function.update calls i (some t) j = some u := by
  have hne : j ≠ i := by
    rintro rfl
    rw [hi] at hj
    cases hj
  exact (Function.update_of_ne hne _ _).trans hj

end Slots

namespace Sections

variable (S : Sections σ ω τ)

/-! ### Moves -/

def next (c : Config σ τ) : Move ω → Config σ τ
  | .enter i op =>
    match c.calls i with
    | none => { c with calls := Function.update c.calls i (some (S.enter op)) }
    | some _ => c
  | .resume i =>
    match c.calls i with
    | none => c
    | some t =>
      { shared := (S.step c.shared t).1
        calls := Function.update c.calls i (some (S.step c.shared t).2) }

/-- A move that does something: it begins a call in a free slot or executes one
    section of the call in slot `i`. -/
theorem next_cases (c : Config σ τ) (a : Move ω) :
    S.next c a = c ∨
    (∃ i op, a = .enter i op ∧ c.calls i = none ∧
      S.next c a = { c with calls := Function.update c.calls i (some (S.enter op)) }) ∨
    (∃ i t, a = .resume i ∧ c.calls i = some t ∧
      S.next c a = { shared := (S.step c.shared t).1
                     calls := Function.update c.calls i (some (S.step c.shared t).2) }) := by
  cases a with
  | enter i op =>
    cases hi : c.calls i with
    | none => exact Or.inr (Or.inl ⟨i, op, rfl, hi, by simp only [next, hi]⟩)
    | some t => exact Or.inl (by simp only [next, hi])
  | resume i =>
    cases hi : c.calls i with
    | none => exact Or.inl (by simp only [next, hi])
    | some t => exact Or.inr (Or.inr ⟨i, t, rfl, hi, by simp only [next, hi]⟩)

/-- The slots in which calls begin, one for each beginning. -/
def entered (as : List (Move ω)) : List ℕ :=
  as.filterMap fun
    | .enter i _ => some i
    | .resume _ => none

/-- A call in progress has begun. -/
theorem mem_entered {s : σ} {as : List (Move ω)} {i : ℕ} {t : τ}
    (h : (run S.next (Config.idle s) as).calls i = some t) : i ∈ entered as := by
  induction as using List.reverseRecOn generalizing t with
  | nil => cases h
  | append_singleton as a ih =>
    rw [entered, List.filterMap_append, List.mem_append]
    rw [run_concat] at h
    obtain heq | ⟨j, op, rfl, _, heq⟩ | ⟨j, u, rfl, hj, heq⟩ :=
      S.next_cases (run S.next (Config.idle s) as) a
    · rw [heq] at h
      exact Or.inl (ih h)
    · rw [heq] at h
      obtain ⟨rfl, _⟩ | ⟨_, h⟩ := calls_update h
      · exact Or.inr List.mem_cons_self
      · exact Or.inl (ih h)
    · rw [heq] at h
      obtain ⟨rfl, _⟩ | ⟨_, h⟩ := calls_update h
      · exact Or.inl (ih hj)
      · exact Or.inl (ih h)

/-! ### Invariants of an interleaving -/

/-- `I` holds of the shared state and `Own` of every call in progress. -/
structure Good (I : σ → Prop) (Own : σ → τ → Prop) (c : Config σ τ) : Prop where
  shared : I c.shared
  calls : ∀ i t, c.calls i = some t → Own c.shared t

/-- The obligations that make `I` and `Own` hold along every interleaving whose
    moves satisfy `G`: a beginning call owns what it needs, a section re-establishes
    `I` and what its own call needs, and leaves alone what the other calls need. -/
structure Sound (G : Config σ τ → Move ω → Prop) (I : σ → Prop) (Own : σ → τ → Prop) :
    Prop where
  enter : ∀ s op, I s → Own s (S.enter op)
  section_ : ∀ c i t, c.calls i = some t → G c (.resume i) → I c.shared → Own c.shared t →
    I (S.step c.shared t).1 ∧ Own (S.step c.shared t).1 (S.step c.shared t).2
  stable : ∀ c i t j u, c.calls i = some t → j ≠ i → c.calls j = some u →
    G c (.resume i) → I c.shared → Own c.shared t → Own c.shared u →
    Own (S.step c.shared t).1 u

variable {S} {G : Config σ τ → Move ω → Prop} {I : σ → Prop} {Own : σ → τ → Prop}

theorem Sound.next_good (h : S.Sound G I Own) {c : Config σ τ} {a : Move ω} (hG : G c a)
    (hc : Good I Own c) : Good I Own (S.next c a) := by
  obtain hsame | ⟨i, op, rfl, hi, heq⟩ | ⟨i, t, rfl, hi, heq⟩ := S.next_cases c a
  · rw [hsame]
    exact hc
  · rw [heq]
    refine ⟨hc.shared, fun j u hu => ?_⟩
    obtain ⟨_, rfl⟩ | ⟨_, hu⟩ := calls_update hu
    · exact h.enter _ op hc.shared
    · exact hc.calls j u hu
  · rw [heq]
    obtain ⟨hI, hOwn⟩ := h.section_ c i t hi hG hc.shared (hc.calls i t hi)
    refine ⟨hI, fun j u hu => ?_⟩
    obtain ⟨_, rfl⟩ | ⟨hj, hu⟩ := calls_update hu
    · exact hOwn
    · exact h.stable c i t j u hi hj hu hG hc.shared (hc.calls i t hi) (hc.calls j u hu)

/-- **Interleaving rule**: sound obligations hold along every interleaving that keeps
    to `G`, however the calls are scheduled. -/
theorem Sound.run_good (h : S.Sound G I Own) {c : Config σ τ} (hc : Good I Own c)
    {as : List (Move ω)} (has : Along S.next G c as) : Good I Own (run S.next c as) :=
  run_invariant_along (fun _ _ hG hgood => h.next_good hG hgood) hc has

theorem Good.idle {s : σ} (hs : I s) : Good I Own (Config.idle s) :=
  ⟨hs, fun _ _ h => by cases h⟩

/-! ### A call that runs alone -/

variable (S)

/-- Execute the next `n` sections of one call with nothing in between. -/
def alone : ℕ → σ → τ → σ × τ
  | 0, s, t => (s, t)
  | n + 1, s, t => alone n (S.step s t).1 (S.step s t).2

theorem run_resume (n : ℕ) {c : Config σ τ} {i : ℕ} {t : τ} (hi : c.calls i = some t) :
    (run S.next c (List.replicate n (.resume i))).shared = (S.alone n c.shared t).1 := by
  induction n generalizing c t with
  | zero => rfl
  | succ n ih =>
    have hnext : S.next c (.resume i) =
        { shared := (S.step c.shared t).1
          calls := Function.update c.calls i (some (S.step c.shared t).2) } := by
      simp only [next, hi]
    rw [List.replicate_succ, run_cons, hnext, alone]
    exact ih (Function.update_self i _ _)

/-- **A call that is not interrupted** does to the shared state what its sections do one
    after the other. -/
theorem run_alone (n : ℕ) {c : Config σ τ} {i : ℕ} (hi : c.calls i = none) (op : ω) :
    (run S.next c (.enter i op :: List.replicate n (.resume i))).shared =
      (S.alone n c.shared (S.enter op)).1 := by
  have hnext : S.next c (.enter i op) =
      { c with calls := Function.update c.calls i (some (S.enter op)) } := by
    simp only [next, hi]
  rw [run_cons, hnext]
  exact S.run_resume n (Function.update_self i _ _)

end Sections

/-! ### Two kinds of sections side by side -/

variable {σ' : Type*} {τ' : Type*} {Rs : σ → σ' → Prop} {Rt : τ → τ' → Prop}

/-- The shared states are related, and so are the calls of each slot. -/
structure Config.Related (Rs : σ → σ' → Prop) (Rt : τ → τ' → Prop) (c : Config σ τ)
    (c' : Config σ' τ') : Prop where
  shared : Rs c.shared c'.shared
  calls : ∀ i, Option.Rel Rt (c.calls i) (c'.calls i)

variable {c : Config σ τ} {c' : Config σ' τ'}

theorem Config.Related.idle {s : σ} {s' : σ'} (h : Rs s s') :
    Related Rs Rt (Config.idle s) (Config.idle s') :=
  ⟨h, fun _ => .none⟩

theorem Config.Related.left {i : ℕ} {t : τ} (h : Related Rs Rt c c') (hi : c.calls i = some t) :
    ∃ t', c'.calls i = some t' ∧ Rt t t' := by
  have hrel := h.calls i
  rw [hi] at hrel
  generalize c'.calls i = x' at hrel ⊢
  cases hrel with
  | some ht => exact ⟨_, rfl, ht⟩

theorem Config.Related.right {i : ℕ} {t' : τ'} (h : Related Rs Rt c c')
    (hi : c'.calls i = some t') : ∃ t, c.calls i = some t ∧ Rt t t' := by
  have hrel := h.calls i
  rw [hi] at hrel
  generalize c.calls i = x at hrel ⊢
  cases hrel with
  | some ht => exact ⟨_, rfl, ht⟩

/-- A slot is free on both sides, or holds related calls. -/
theorem Config.Related.slot (h : Related Rs Rt c c') (i : ℕ) :
    (c.calls i = none ∧ c'.calls i = none) ∨
    ∃ t t', c.calls i = some t ∧ c'.calls i = some t' ∧ Rt t t' := by
  have hrel := h.calls i
  generalize c.calls i = x at hrel ⊢
  generalize c'.calls i = x' at hrel ⊢
  cases hrel with
  | none => exact Or.inl ⟨rfl, rfl⟩
  | some ht => exact Or.inr ⟨_, _, rfl, rfl, ht⟩

namespace Sections

variable {S : Sections σ ω τ} {S' : Sections σ' ω τ'}

/-- If calls are related from the beginning and stay so in each section, a move of one
    interleaving is a move of the other. -/
theorem related_next (henter : ∀ op, Rt (S.enter op) (S'.enter op))
    (hstep : ∀ s s' t t', Rs s s' → Rt t t' →
      Rs (S.step s t).1 (S'.step s' t').1 ∧ Rt (S.step s t).2 (S'.step s' t').2)
    (a : Move ω) (h : Config.Related Rs Rt c c') :
    Config.Related Rs Rt (S.next c a) (S'.next c' a) := by
  have hupdate : ∀ {i t t'}, Rt t t' → ∀ j, Option.Rel Rt
      (Function.update c.calls i (some t) j) (Function.update c'.calls i (some t') j) := by
    intro i t t' ht j
    rw [Function.update_apply, Function.update_apply]
    split
    · exact .some ht
    · exact h.calls j
  cases a with
  | enter i op =>
    obtain ⟨hi, hi'⟩ | ⟨t, t', hi, hi', _⟩ := h.slot i
    · simp only [next, hi, hi']
      exact ⟨h.shared, hupdate (henter op)⟩
    · simp only [next, hi, hi']
      exact h
  | resume i =>
    obtain ⟨hi, hi'⟩ | ⟨t, t', hi, hi', ht⟩ := h.slot i
    · simp only [next, hi, hi']
      exact h
    · obtain ⟨hs, ht⟩ := hstep c.shared c'.shared t t' h.shared ht
      simp only [next, hi, hi']
      exact ⟨hs, hupdate ht⟩

end Sections

end WfcIo.Foundation

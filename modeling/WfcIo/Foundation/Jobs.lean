import Mathlib.Data.List.InsertIdx
import Mathlib.Data.List.Nodup

/-!
# Jobs that are settled once

An abstract account of jobs that are given to somebody, may wait, and end with an outcome.
A job is settled when it is given, or it becomes pending and is finished later. Finishing a
job without an outcome loses it; that is the only way to lose one.

## Main definitions

- `Jobs` — the jobs given, pending and settled; `submit`, `finish`
- `Jobs.Move`, `Jobs.apply` — the two moves, or none
- `Jobs.Sound` — a pending job has no outcome, and no job has two
- `Jobs.Accounted` — the job is pending and has no outcome, or it has exactly one
- `Jobs.AllAccounted` — that of all jobs

## Main results

- `Jobs.Sound.apply` — the moves keep the account sound
- `Jobs.allAccounted_apply_iff` — all jobs stay accounted for unless a move loses one
- `Jobs.map_eraseIdx`, `Jobs.elim_eq_finish_iff` — waiting jobs that are finished by their
  position
-/

namespace WfcIo.Foundation

universe u v

/-- Jobs with outcomes from `β`, numbered in the order in which they were given. -/
structure Jobs (β : Type u) where
  given : ℕ := 0
  pending : List ℕ := []
  outcomes : List (ℕ × β) := []

namespace Jobs

variable {β : Type u}

/-- A new job, settled at once if there is an outcome. -/
def submit (o : Option β) (j : Jobs β) : Jobs β where
  given := j.given + 1
  pending := if o.isSome then j.pending else j.pending ++ [j.given]
  outcomes := j.outcomes ++ (o.map (j.given, ·)).toList

/-- The job `n` is not pending any more. -/
def finish (n : ℕ) (o : Option β) (j : Jobs β) : Jobs β where
  given := j.given
  pending := j.pending.erase n
  outcomes := j.outcomes ++ (o.map (n, ·)).toList

/-- The outcome of the job `n`, if the entry is about it. -/
def outcomeOf (n : ℕ) (p : ℕ × β) : Option β := if p.1 = n then some p.2 else none

/-- The outcomes of one job. -/
def outcomesOf (j : Jobs β) (n : ℕ) : List β := j.outcomes.filterMap (outcomeOf n)

/-- A pending job has no outcome yet, and no job has two. -/
structure Sound (j : Jobs β) : Prop where
  pending_nodup : j.pending.Nodup
  pending_lt : ∀ n ∈ j.pending, n < j.given
  outcomes_lt : ∀ p ∈ j.outcomes, p.1 < j.given
  open_of_pending : ∀ n ∈ j.pending, j.outcomesOf n = []
  at_most_one : ∀ n, (j.outcomesOf n).length ≤ 1

/-- The job waits for its outcome, or has one. -/
def Accounted (j : Jobs β) (n : ℕ) : Prop :=
  (n ∈ j.pending ∧ j.outcomesOf n = []) ∨ (n ∉ j.pending ∧ ∃ o, j.outcomesOf n = [o])

def AllAccounted (j : Jobs β) : Prop := ∀ n, n < j.given → j.Accounted n

variable {j : Jobs β} {n m : ℕ} {o : Option β}

theorem sound_empty : Sound ({} : Jobs β) where
  pending_nodup := List.nodup_nil
  pending_lt := fun n hn => by cases hn
  outcomes_lt := fun p hp => by cases hp
  open_of_pending := fun n hn => by cases hn
  at_most_one := fun _ => Nat.zero_le 1

theorem allAccounted_empty : AllAccounted ({} : Jobs β) := fun _ hn => absurd hn (Nat.not_lt_zero _)

/-! ### The outcomes after a move -/

/-- What one more outcome of the job `m` adds to those of `n`. -/
theorem filterMap_outcomeOf (l : List (ℕ × β)) (m : ℕ) (o : Option β) :
    (l ++ (o.map (m, ·)).toList).filterMap (outcomeOf n) =
      l.filterMap (outcomeOf n) ++ if m = n then o.toList else [] := by
  rw [List.filterMap_append]
  congr 1
  cases o with
  | none => simp
  | some b => by_cases h : m = n <;> simp [outcomeOf, h]

theorem outcomesOf_submit (o : Option β) (j : Jobs β) (n : ℕ) :
    (j.submit o).outcomesOf n = j.outcomesOf n ++ if j.given = n then o.toList else [] :=
  filterMap_outcomeOf j.outcomes j.given o

theorem outcomesOf_finish (m : ℕ) (o : Option β) (j : Jobs β) (n : ℕ) :
    (j.finish m o).outcomesOf n = j.outcomesOf n ++ if m = n then o.toList else [] :=
  filterMap_outcomeOf j.outcomes m o

/-- A job that has not been given has no outcome. -/
theorem Sound.outcomesOf_of_le (h : j.Sound) (hn : j.given ≤ n) : j.outcomesOf n = [] := by
  apply List.filterMap_eq_nil_iff.mpr
  intro p hp
  have hlt := h.outcomes_lt p hp
  apply if_neg
  omega

/-! ### The moves keep the account sound -/

theorem Sound.submit (h : j.Sound) (o : Option β) : (j.submit o).Sound where
  pending_nodup := by
    simp only [Jobs.submit]
    split
    · exact h.pending_nodup
    · rw [← List.concat_eq_append]
      exact h.pending_nodup.concat fun hmem => Nat.lt_irrefl _ (h.pending_lt _ hmem)
  pending_lt := by
    intro n hn
    simp only [Jobs.submit] at hn ⊢
    split at hn
    · have hlt := h.pending_lt n hn
      omega
    · obtain hn | hn := List.mem_append.mp hn
      · have hlt := h.pending_lt n hn
        omega
      · rw [List.mem_singleton.mp hn]
        exact Nat.lt_succ_self _
  outcomes_lt := by
    intro p hp
    simp only [Jobs.submit] at hp ⊢
    obtain hp | hp := List.mem_append.mp hp
    · have hlt := h.outcomes_lt p hp
      omega
    · obtain ⟨b, _, rfl⟩ := Option.map_eq_some_iff.mp (Option.mem_toList.mp hp)
      exact Nat.lt_succ_self _
  open_of_pending := by
    intro n hn
    rw [outcomesOf_submit]
    simp only [Jobs.submit] at hn
    split at hn
    · have hlt := h.pending_lt n hn
      rw [h.open_of_pending n hn, if_neg (by omega), List.append_nil]
    · rename_i ho
      -- the new job is pending only if it has no outcome
      have hnone : o = none := by simpa using ho
      have hold : j.outcomesOf n = [] := by
        obtain hn | hn := List.mem_append.mp hn
        · exact h.open_of_pending n hn
        · rw [List.mem_singleton.mp hn]
          exact h.outcomesOf_of_le (Nat.le_refl _)
      rw [hold, hnone]
      simp
  at_most_one := by
    intro n
    rw [outcomesOf_submit]
    split
    · rename_i hn
      rw [h.outcomesOf_of_le (Nat.le_of_eq hn)]
      cases o <;> simp
    · rw [List.append_nil]
      exact h.at_most_one n

theorem Sound.finish (h : j.Sound) (hm : m ∈ j.pending) (o : Option β) : (j.finish m o).Sound where
  pending_nodup := h.pending_nodup.erase m
  pending_lt := fun n hn => h.pending_lt n (List.mem_of_mem_erase hn)
  outcomes_lt := by
    intro p hp
    simp only [Jobs.finish] at hp ⊢
    obtain hp | hp := List.mem_append.mp hp
    · exact h.outcomes_lt p hp
    · obtain ⟨b, _, rfl⟩ := Option.map_eq_some_iff.mp (Option.mem_toList.mp hp)
      exact h.pending_lt m hm
  open_of_pending := by
    intro n hn
    obtain ⟨hne, hn⟩ := h.pending_nodup.mem_erase_iff.mp hn
    rw [outcomesOf_finish, if_neg (Ne.symm hne), List.append_nil]
    exact h.open_of_pending n hn
  at_most_one := by
    intro n
    rw [outcomesOf_finish]
    split
    · rename_i hmn
      rw [← hmn, h.open_of_pending m hm]
      cases o <;> simp
    · rw [List.append_nil]
      exact h.at_most_one n

/-! ### What the moves lose -/

theorem mem_pending_submit (hn : n ≠ j.given) :
    n ∈ (j.submit o).pending ↔ n ∈ j.pending := by
  simp only [submit]
  split
  · rfl
  · simp [hn]

theorem accounted_submit_of_ne (hn : n ≠ j.given) :
    (j.submit o).Accounted n ↔ j.Accounted n := by
  simp only [Accounted, outcomesOf_submit, if_neg (Ne.symm hn), List.append_nil,
    mem_pending_submit hn]

/-- A new job is settled or pending. -/
theorem Sound.accounted_submit (h : j.Sound) (o : Option β) :
    (j.submit o).Accounted j.given := by
  have hnot : j.given ∉ j.pending := fun hmem => Nat.lt_irrefl _ (h.pending_lt _ hmem)
  have hold : j.outcomesOf j.given = [] := h.outcomesOf_of_le (Nat.le_refl _)
  rw [Accounted, outcomesOf_submit, hold, if_pos rfl]
  cases o with
  | none =>
    left
    exact ⟨List.mem_append_right _ List.mem_cons_self, rfl⟩
  | some b =>
    right
    exact ⟨hnot, b, rfl⟩

theorem allAccounted_submit_iff (h : j.Sound) (o : Option β) :
    (j.submit o).AllAccounted ↔ j.AllAccounted := by
  constructor
  · intro hall n hn
    have hne : n ≠ j.given := by omega
    have hlt : n < (j.submit o).given := Nat.lt_succ_of_lt hn
    exact (accounted_submit_of_ne hne).mp (hall n hlt)
  · intro hall n hn
    by_cases hne : n = j.given
    · rw [hne]
      exact h.accounted_submit o
    · have hlt : n < j.given := by
        have hle : n < j.given + 1 := hn
        omega
      exact (accounted_submit_of_ne hne).mpr (hall n hlt)

theorem accounted_finish_of_ne (h : j.Sound) (hn : n ≠ m) :
    (j.finish m o).Accounted n ↔ j.Accounted n := by
  have hmem : n ∈ (j.finish m o).pending ↔ n ∈ j.pending :=
    h.pending_nodup.mem_erase_iff.trans (and_iff_right hn)
  simp only [Accounted, outcomesOf_finish, if_neg (Ne.symm hn), List.append_nil, hmem]

/-- A pending job that is finished is lost exactly if there is no outcome. -/
theorem Sound.accounted_finish_iff (h : j.Sound) (hm : m ∈ j.pending) :
    (j.finish m o).Accounted m ↔ o.isSome = true := by
  have hnot : m ∉ (j.finish m o).pending := fun hmem =>
    (h.pending_nodup.mem_erase_iff.mp hmem).1 rfl
  simp only [Accounted, outcomesOf_finish, h.open_of_pending m hm, if_true, List.nil_append,
    hnot, false_and, false_or, not_false_eq_true, true_and]
  cases o <;> simp

theorem allAccounted_finish_iff (h : j.Sound) (hm : m ∈ j.pending) (o : Option β) :
    (j.finish m o).AllAccounted ↔ j.AllAccounted ∧ o.isSome = true := by
  constructor
  · intro hall
    refine ⟨fun n hn => ?_, (h.accounted_finish_iff hm).mp (hall m (h.pending_lt m hm))⟩
    by_cases hne : n = m
    · rw [hne]
      exact Or.inl ⟨hm, h.open_of_pending m hm⟩
    · exact (accounted_finish_of_ne h hne).mp (hall n hn)
  · rintro ⟨hall, ho⟩ n hn
    by_cases hne : n = m
    · rw [hne]
      exact (h.accounted_finish_iff hm).mpr ho
    · exact (accounted_finish_of_ne h hne).mpr (hall n hn)

/-! ### Moves -/

/-- A job is given, with its outcome if it has one at once, or finished, or nothing
    happens. -/
inductive Move (β : Type u)
  | stay
  | submit (o : Option β)
  | finish (n : ℕ) (o : Option β)

def apply (j : Jobs β) : Move β → Jobs β
  | .stay => j
  | .submit o => j.submit o
  | .finish n o => j.finish n o

/-- Only a pending job is finished. -/
def Move.Valid (j : Jobs β) (mv : Move β) : Prop := ∀ n o, mv = .finish n o → n ∈ j.pending

/-- A job that is finished has an outcome. -/
def Move.Keeps (mv : Move β) : Prop := ∀ n o, mv = .finish n o → o.isSome = true

theorem Sound.apply (h : j.Sound) {mv : Move β} (hv : mv.Valid j) : (j.apply mv).Sound := by
  cases mv with
  | stay => exact h
  | submit o => exact h.submit o
  | finish n o => exact h.finish (hv n o rfl) o

/-- All jobs stay accounted for exactly if no job is finished without an outcome. -/
theorem allAccounted_apply_iff (h : j.Sound) {mv : Move β} (hv : mv.Valid j) :
    (j.apply mv).AllAccounted ↔ j.AllAccounted ∧ mv.Keeps := by
  cases mv with
  | stay => exact (and_iff_left fun n o heq => by cases heq).symm
  | submit o =>
    rw [apply, allAccounted_submit_iff h]
    exact (and_iff_left fun n o heq => by cases heq).symm
  | finish n o =>
    rw [apply, allAccounted_finish_iff h (hv n o rfl)]
    apply and_congr_right
    intro _
    constructor
    · intro ho m o' heq
      cases heq
      exact ho
    · exact fun hkeeps => hkeeps n o rfl

/-! ### Jobs in lists -/

section Lists

variable {τ : Type v} {number : τ → ℕ} {l l' : List τ} {i : ℕ} {k : τ}

/-- A job keeps its number when others are given. -/
theorem getElem?_append_of_eq_some (h : l[i]? = some k) : (l ++ l')[i]? = some k := by
  obtain ⟨hi, _⟩ := List.getElem?_eq_some_iff.mp h
  rw [List.getElem?_append_left hi]
  exact h

/-- Where the waiting jobs have different numbers, to erase one by its position is to erase its
    number. -/
theorem map_eraseIdx (hnodup : (l.map number).Nodup) (hk : l[i]? = some k) :
    (l.eraseIdx i).map number = (l.map number).erase (number k) := by
  obtain ⟨hi, hget⟩ := List.getElem?_eq_some_iff.mp hk
  have hi' : i < (l.map number).length := by
    rw [List.length_map]
    exact hi
  have hnumber : (l.map number)[i] = number k := by
    rw [List.getElem_map, hget]
  rw [← hnumber, hnodup.erase_getElem i hi', List.eraseIdx_map]

/-- The move that finishes the job at a position, if there is one. -/
theorem elim_eq_finish_iff {p : Option τ} {outcome : τ → Option β} :
    (p.elim .stay fun k => .finish (number k) (outcome k)) = Move.finish n o ↔
      ∃ k, p = some k ∧ number k = n ∧ outcome k = o := by
  cases p with
  | none => simp only [Option.elim_none, reduceCtorEq, false_and, exists_false]
  | some k =>
    simp only [Option.elim_some, Move.finish.injEq, Option.some.injEq, exists_eq_left']

end Lists

end Jobs

end WfcIo.Foundation

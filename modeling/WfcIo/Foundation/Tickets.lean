import WfcIo.Foundation.Interleave
import Mathlib.Algebra.BigOperators.Group.Finset.Basic
import Mathlib.Algebra.Order.BigOperators.Group.Finset
import Mathlib.Order.Interval.Finset.Nat

/-!
# Tickets from a shared counter

Calls that increment a shared counter and then read it, each as often as it wants to, where
every access is atomic and other calls go on in between. The reading is meant to give a call
the number that its own increment led to.

If no call increments the counter while another has something to read yet, all readings do.
Conversely, let all calls come to an end: once a call reads too large a number, some two calls
read the same number, or one call reads two.

## Main definitions

- `Tickets.Taker` — a call: its own number, and what it has read
- `Tickets.takers` — the sections of the calls
- `Tickets.Undisturbed` — an increment happens while no other call has yet to read
- `Tickets.Separate` — each call reads one number only, and no two calls the same

## Main results

- `Tickets.numbered_run` — the numbers of the increments, and how they bound the readings
- `Tickets.shared_le_entered` — there are no more increments than calls
- `Tickets.separate_of_undisturbed`, `Tickets.undisturbed_of_separate`
-/

namespace WfcIo.Foundation.Tickets

universe v

/-- A call: what it is for, the number its increment led to, and what it has read since. -/
structure Taker (ω : Type v) where
  op : ω
  number : Option ℕ := none
  seen : List ℕ := []

variable {ω : Type v}

/-- A call increments the counter, and then reads it as long as there is more to read. -/
def takers (more : ω → List ℕ → Bool) : Sections ℕ ω (Taker ω) where
  enter op := { op }
  step n t :=
    match t.number with
    | none => (n + 1, { t with number := some (n + 1) })
    | some _ => if more t.op t.seen then (n, { t with seen := t.seen ++ [n] }) else (n, t)

/-- An increment happens while no call has yet to read. -/
def Undisturbed (more : ω → List ℕ → Bool) (c : Config ℕ (Taker ω)) : Move ω → Prop
  | .enter _ _ => True
  | .resume i => ∀ t, c.calls i = some t → t.number = none →
    ∀ j u, c.calls j = some u → u.number ≠ none → more u.op u.seen = false

/-- All calls have come to an end. -/
def Finished (more : ω → List ℕ → Bool) (c : Config ℕ (Taker ω)) : Prop :=
  ∀ i t, c.calls i = some t → t.number ≠ none ∧ more t.op t.seen = false

/-- A call reads one number only, and another call reads other numbers. -/
structure Separate (c : Config ℕ (Taker ω)) : Prop where
  agree : ∀ i t, c.calls i = some t → ∀ x ∈ t.seen, ∀ y ∈ t.seen, x = y
  distinct : ∀ i j t u, i ≠ j → c.calls i = some t → c.calls j = some u →
    ∀ x ∈ t.seen, ∀ y ∈ u.seen, x ≠ y

variable {more : ω → List ℕ → Bool} {c : Config ℕ (Taker ω)}

/-- A move begins a call, increments the counter, or reads it. -/
theorem next_takers_cases (more : ω → List ℕ → Bool) (c : Config ℕ (Taker ω)) (a : Move ω) :
    (takers more).next c a = c ∨
    (∃ i op, a = .enter i op ∧ c.calls i = none ∧
      (takers more).next c a = ⟨c.shared, Function.update c.calls i (some { op })⟩) ∨
    (∃ i t, a = .resume i ∧ c.calls i = some t ∧ t.number = none ∧
      (takers more).next c a = ⟨c.shared + 1,
        Function.update c.calls i (some { t with number := some (c.shared + 1) })⟩) ∨
    (∃ i t n, a = .resume i ∧ c.calls i = some t ∧ t.number = some n ∧
      more t.op t.seen = true ∧
      (takers more).next c a = ⟨c.shared,
        Function.update c.calls i (some { t with seen := t.seen ++ [c.shared] })⟩) := by
  obtain hsame | ⟨i, op, rfl, hi, heq⟩ | ⟨i, t, rfl, hi, heq⟩ := (takers more).next_cases c a
  · exact Or.inl hsame
  · exact Or.inr (Or.inl ⟨i, op, rfl, hi, heq⟩)
  · rw [heq]
    cases hnumber : t.number with
    | none =>
      refine Or.inr (Or.inr (Or.inl ⟨i, t, rfl, hi, hnumber, ?_⟩))
      simp only [takers, hnumber]
    | some n =>
      cases hmore : more t.op t.seen with
      | false =>
        left
        simp only [takers, hnumber, hmore, Bool.false_eq_true, if_false]
        rw [← hi, Function.update_eq_self]
      | true =>
        refine Or.inr (Or.inr (Or.inr ⟨i, t, n, rfl, hi, hnumber, hmore, ?_⟩))
        simp only [takers, hnumber, hmore, if_true]

/-! ### The numbers of the increments -/

/-- The increments have been numbered from one on, each by one call, and a call reads no less
    than its own number, and no more than the counter. -/
structure Numbered (c : Config ℕ (Taker ω)) : Prop where
  unread : ∀ i t, c.calls i = some t → t.number = none → t.seen = []
  range : ∀ i t n, c.calls i = some t → t.number = some n → 0 < n ∧ n ≤ c.shared
  owner : ∀ i j t u n, c.calls i = some t → c.calls j = some u → t.number = some n →
    u.number = some n → i = j
  taken : ∀ n, 0 < n → n ≤ c.shared → ∃ i t, c.calls i = some t ∧ t.number = some n
  late : ∀ i t n, c.calls i = some t → t.number = some n → ∀ x ∈ t.seen, n ≤ x ∧ x ≤ c.shared

theorem Numbered.enter {i : ℕ} {op : ω} (h : Numbered c) (hi : c.calls i = none) :
    Numbered ⟨c.shared, Function.update c.calls i (some { op })⟩ where
  unread j t hj ht := by
    obtain ⟨_, rfl⟩ | ⟨_, hj⟩ := calls_update hj
    · rfl
    · exact h.unread j t hj ht
  range j t n hj ht := by
    obtain ⟨_, rfl⟩ | ⟨_, hj⟩ := calls_update hj
    · cases ht
    · exact h.range j t n hj ht
  owner j k t u n hj hk ht hu := by
    obtain ⟨_, rfl⟩ | ⟨_, hj⟩ := calls_update hj
    · cases ht
    · obtain ⟨_, rfl⟩ | ⟨_, hk⟩ := calls_update hk
      · cases hu
      · exact h.owner j k t u n hj hk ht hu
  taken n hpos hle := by
    obtain ⟨j, t, hj, ht⟩ := h.taken n hpos hle
    exact ⟨j, t, calls_update_of_none hi hj, ht⟩
  late j t n hj ht := by
    obtain ⟨_, rfl⟩ | ⟨_, hj⟩ := calls_update hj
    · cases ht
    · exact h.late j t n hj ht

theorem Numbered.increment {i : ℕ} {t : Taker ω} (h : Numbered c) (hi : c.calls i = some t)
    (hnumber : t.number = none) :
    Numbered ⟨c.shared + 1,
      Function.update c.calls i (some { t with number := some (c.shared + 1) })⟩ where
  unread j u hj hu := by
    obtain ⟨_, rfl⟩ | ⟨_, hj⟩ := calls_update hj
    · cases hu
    · exact h.unread j u hj hu
  range j u n hj hu := by
    obtain ⟨_, rfl⟩ | ⟨_, hj⟩ := calls_update hj
    · cases hu
      exact ⟨Nat.succ_pos _, le_rfl⟩
    · obtain ⟨hpos, hle⟩ := h.range j u n hj hu
      exact ⟨hpos, Nat.le_succ_of_le hle⟩
  owner j k u w n hj hk hu hw := by
    -- the new number is greater than all others
    obtain ⟨rfl, rfl⟩ | ⟨_, hj'⟩ := calls_update hj
    · obtain ⟨rfl, _⟩ | ⟨_, hk⟩ := calls_update hk
      · rfl
      · cases hu
        exact absurd (h.range k w _ hk hw).2 (Nat.not_succ_le_self _)
    · obtain ⟨rfl, rfl⟩ | ⟨_, hk⟩ := calls_update hk
      · cases hw
        exact absurd (h.range j u _ hj' hu).2 (Nat.not_succ_le_self _)
      · exact h.owner j k u w n hj' hk hu hw
  taken n hpos hle := by
    obtain hle | rfl := Nat.le_succ_iff.mp hle
    · obtain ⟨j, u, hj, hu⟩ := h.taken n hpos hle
      have hne : j ≠ i := by
        rintro rfl
        rw [hi] at hj
        cases hj
        rw [hnumber] at hu
        cases hu
      exact ⟨j, u, (Function.update_of_ne hne _ _).trans hj, hu⟩
    · exact ⟨i, _, Function.update_self _ _ _, rfl⟩
  late j u n hj hu x hx := by
    obtain ⟨_, rfl⟩ | ⟨_, hj⟩ := calls_update hj
    · rw [h.unread i t hi hnumber] at hx
      cases hx
    · obtain ⟨hge, hle⟩ := h.late j u n hj hu x hx
      exact ⟨hge, Nat.le_succ_of_le hle⟩

theorem Numbered.read {i n : ℕ} {t : Taker ω} (h : Numbered c) (hi : c.calls i = some t)
    (hnumber : t.number = some n) :
    Numbered ⟨c.shared,
      Function.update c.calls i (some { t with seen := t.seen ++ [c.shared] })⟩ where
  unread j u hj hu := by
    obtain ⟨_, rfl⟩ | ⟨_, hj⟩ := calls_update hj
    · rw [hnumber] at hu
      cases hu
    · exact h.unread j u hj hu
  range j u m hj hu := by
    obtain ⟨rfl, rfl⟩ | ⟨_, hj⟩ := calls_update hj
    · exact h.range j t m hi hu
    · exact h.range j u m hj hu
  owner j k u w m hj hk hu hw := by
    obtain ⟨rfl, rfl⟩ | ⟨_, hj'⟩ := calls_update hj
    · obtain ⟨rfl, _⟩ | ⟨_, hk⟩ := calls_update hk
      · rfl
      · exact h.owner j k t w m hi hk hu hw
    · obtain ⟨rfl, rfl⟩ | ⟨_, hk⟩ := calls_update hk
      · exact h.owner j k u t m hj' hi hu hw
      · exact h.owner j k u w m hj' hk hu hw
  taken m hpos hle := by
    obtain ⟨j, u, hj, hu⟩ := h.taken m hpos hle
    by_cases hne : j = i
    · subst hne
      rw [hi] at hj
      cases hj
      exact ⟨j, _, Function.update_self _ _ _, hu⟩
    · exact ⟨j, u, (Function.update_of_ne hne _ _).trans hj, hu⟩
  late j u m hj hu x hx := by
    obtain ⟨rfl, rfl⟩ | ⟨_, hj⟩ := calls_update hj
    · obtain hx | hx := List.mem_append.mp hx
      · exact h.late j t m hi hu x hx
      · rw [List.mem_singleton.mp hx]
        exact ⟨(h.range j t m hi hu).2, le_rfl⟩
    · exact h.late j u m hj hu x hx

theorem numbered_run (more : ω → List ℕ → Bool) (as : List (Move ω)) :
    Numbered (run (takers more).next (Config.idle 0) as) := by
  apply run_invariant
  · intro c a h
    obtain heq | ⟨i, op, _, hi, heq⟩ | ⟨i, t, _, hi, ht, heq⟩ | ⟨i, t, n, _, hi, ht, _, heq⟩ :=
      next_takers_cases more c a
    · rw [heq]
      exact h
    · rw [heq]
      exact h.enter hi
    · rw [heq]
      exact h.increment hi ht
    · rw [heq]
      exact h.read hi ht
  · exact {
      unread := fun _ _ hi => by cases hi
      range := fun _ _ _ hi => by cases hi
      owner := fun _ _ _ _ _ hi => by cases hi
      taken := fun n hpos hle => absurd hpos (Nat.not_lt.mpr hle)
      late := fun _ _ _ hi => by cases hi }

/-- There are no more increments than calls. -/
theorem shared_le_entered (more : ω → List ℕ → Bool) (as : List (Move ω)) :
    (run (takers more).next (Config.idle 0) as).shared ≤ (Sections.entered as).length := by
  have hnumbered := numbered_run more as
  have hslot : ∀ n ∈ Finset.Icc 1 (run (takers more).next (Config.idle 0) as).shared,
      ∃ i t, (run (takers more).next (Config.idle 0) as).calls i = some t ∧ t.number = some n := by
    intro n hn
    obtain ⟨hpos, hle⟩ := Finset.mem_Icc.mp hn
    exact hnumbered.taken n hpos hle
  choose! f hf using hslot
  have hmaps : ∀ n ∈ Finset.Icc 1 (run (takers more).next (Config.idle 0) as).shared,
      f n ∈ (Sections.entered as).toFinset := by
    intro n hn
    obtain ⟨t, ht, _⟩ := hf n hn
    exact List.mem_toFinset.mpr ((takers more).mem_entered ht)
  have hinj : Set.InjOn f (Finset.Icc 1 (run (takers more).next (Config.idle 0) as).shared) := by
    intro n hn n' hn' heq
    obtain ⟨t, ht, hnumber⟩ := hf n hn
    obtain ⟨t', ht', hnumber'⟩ := hf n' hn'
    rw [heq] at ht
    obtain rfl := Option.some.inj (ht.symm.trans ht')
    exact Option.some.inj (hnumber.symm.trans hnumber')
  have hcard := Finset.card_le_card_of_injOn f hmaps hinj
  rw [Nat.card_Icc, Nat.add_sub_cancel] at hcard
  exact hcard.trans (List.toFinset_card_le _)

/-! ### Runs without disturbance -/

/-- A call has read its own number only, and as long as it has to read, that is the counter. -/
def Current (more : ω → List ℕ → Bool) (n : ℕ) (t : Taker ω) : Prop :=
  match t.number with
  | none => t.seen = []
  | some m => (∀ x ∈ t.seen, x = m) ∧ (more t.op t.seen = true → m = n)

theorem current_sound (more : ω → List ℕ → Bool) :
    (takers more).Sound (Undisturbed more) (fun _ => True) (Current more) where
  enter _ _ _ := rfl
  section_ c i t _ _ _ hown := by
    refine ⟨trivial, ?_⟩
    cases hnumber : t.number with
    | none =>
      simp only [Current, hnumber] at hown
      simp only [takers, Current, hnumber, hown]
      exact ⟨fun x hx => absurd hx List.not_mem_nil, fun _ => trivial⟩
    | some m =>
      simp only [Current, hnumber] at hown
      obtain ⟨hseen, hmore⟩ := hown
      cases hreads : more t.op t.seen with
      | false =>
        simp only [takers, Current, hnumber, hreads, Bool.false_eq_true, if_false]
        exact ⟨hseen, fun h => (by cases h)⟩
      | true =>
        obtain rfl := hmore hreads
        simp only [takers, Current, hnumber, hreads, if_true]
        refine ⟨fun x hx => ?_, fun _ => trivial⟩
        obtain hx | hx := List.mem_append.mp hx
        · exact hseen x hx
        · exact List.mem_singleton.mp hx
  stable c i t j u hi _ hj hundisturbed _ _ hu := by
    cases hnumber : t.number with
    | none =>
      -- the counter changes, but the other call does not look at it any more
      have hdone := hundisturbed t hi hnumber j u hj
      simp only [takers, Current, hnumber]
      simp only [Current] at hu
      split
      · next hnone => rwa [hnone] at hu
      · next m hm =>
        rw [hm] at hu
        rw [hdone (by rw [hm]; exact Option.some_ne_none m)]
        exact ⟨hu.1, fun h => (by cases h)⟩
    | some m =>
      have hshared : ((takers more).step c.shared t).1 = c.shared := by
        simp only [takers, hnumber]
        split <;> rfl
      rw [hshared]
      exact hu

/-- In a run without disturbance the readings are right. -/
theorem separate_of_undisturbed {as : List (Move ω)}
    (has : Along (takers more).next (Undisturbed more) (Config.idle 0) as) :
    Separate (run (takers more).next (Config.idle 0) as) := by
  have hgood := (current_sound more).run_good (Sections.Good.idle trivial) has
  have hnumbered := numbered_run more as
  have hown : ∀ i t, (run (takers more).next (Config.idle 0) as).calls i = some t →
      ∀ x ∈ t.seen, t.number = some x := by
    intro i t hi x hx
    have hcurrent := hgood.calls i t hi
    simp only [Current] at hcurrent
    split at hcurrent
    · rw [hcurrent] at hx
      cases hx
    · next m hm => rw [hm, hcurrent.1 x hx]
  constructor
  · intro i t hi x hx y hy
    exact Option.some.inj ((hown i t hi x hx).symm.trans (hown i t hi y hy))
  · rintro i j t u hne hi hj x hx _ hy rfl
    exact hne (hnumbered.owner i j t u x hi hj (hown i t hi x hx) (hown j u hj x hy))

/-! ### Runs with disturbance -/

/-- A map of the numbers up to `N` that never goes down and takes no value twice changes
    nothing. -/
theorem eq_of_le_of_injOn {N : ℕ} {f : ℕ → ℕ} (hle : ∀ n ∈ Finset.Icc 1 N, n ≤ f n ∧ f n ≤ N)
    (hinj : Set.InjOn f (Finset.Icc 1 N)) : ∀ n ∈ Finset.Icc 1 N, f n = n := by
  have himage : (Finset.Icc 1 N).image f = Finset.Icc 1 N := by
    refine Finset.eq_of_subset_of_card_le (fun m hm => ?_) (Finset.card_image_of_injOn hinj).ge
    obtain ⟨n, hn, rfl⟩ := Finset.mem_image.mp hm
    obtain ⟨hge, hN⟩ := hle n hn
    exact Finset.mem_Icc.mpr ⟨(Finset.mem_Icc.mp hn).1.trans hge, hN⟩
  have hsum : ∑ n ∈ Finset.Icc 1 N, n = ∑ n ∈ Finset.Icc 1 N, f n := by
    calc ∑ n ∈ Finset.Icc 1 N, n = ∑ n ∈ (Finset.Icc 1 N).image f, n := by rw [himage]
      _ = ∑ n ∈ Finset.Icc 1 N, f n := Finset.sum_image hinj
  intro n hn
  exact ((Finset.sum_eq_sum_iff_of_le fun m hm => (hle m hm).1).mp hsum n hn).symm

/-- If all calls have come to an end, and each has read something, right readings are those of
    the own number. -/
theorem Separate.eq_number (hmore : ∀ op, more op [] = true) (hnumbered : Numbered c)
    (hfinished : Finished more c) (h : Separate c) {i n : ℕ} {t : Taker ω}
    (hi : c.calls i = some t) (hn : t.number = some n) : ∀ x ∈ t.seen, x = n := by
  have hread : ∀ m ∈ Finset.Icc 1 c.shared, ∃ x j u, c.calls j = some u ∧ u.number = some m ∧
      x ∈ u.seen := by
    intro m hm
    obtain ⟨hpos, hle⟩ := Finset.mem_Icc.mp hm
    obtain ⟨j, u, hj, hu⟩ := hnumbered.taken m hpos hle
    have hseen : u.seen ≠ [] := by
      intro hnil
      have hdone := (hfinished j u hj).2
      rw [hnil, hmore] at hdone
      cases hdone
    obtain ⟨x, hx⟩ := List.exists_mem_of_ne_nil _ hseen
    exact ⟨x, j, u, hj, hu, hx⟩
  choose! f hf using hread
  have hbounds : ∀ m ∈ Finset.Icc 1 c.shared, m ≤ f m ∧ f m ≤ c.shared := by
    intro m hm
    obtain ⟨j, u, hj, hu, hx⟩ := hf m hm
    exact hnumbered.late j u m hj hu _ hx
  have hinj : Set.InjOn f (Finset.Icc 1 c.shared) := by
    intro m hm m' hm' heq
    obtain ⟨j, u, hj, hu, hx⟩ := hf m hm
    obtain ⟨j', u', hj', hu', hx'⟩ := hf m' hm'
    have hslot : j = j' := by
      by_contra hne
      exact h.distinct j j' u u' hne hj hj' _ hx _ hx' heq
    subst hslot
    obtain rfl := Option.some.inj (hj.symm.trans hj')
    exact Option.some.inj (hu.symm.trans hu')
  intro x hx
  have hmem : n ∈ Finset.Icc 1 c.shared := Finset.mem_Icc.mpr (hnumbered.range i t n hi hn)
  obtain ⟨j, u, hj, hu, hfn⟩ := hf n hmem
  obtain rfl := hnumbered.owner j i u t n hj hi hu hn
  obtain rfl := Option.some.inj (hj.symm.trans hi)
  calc x = f n := h.agree j u hj x hx _ hfn
    _ = n := eq_of_le_of_injOn hbounds hinj n hmem

/-- A call with the number `m` has to read, or has read, a counter that is greater. -/
def Stale (more : ω → List ℕ → Bool) (j m : ℕ) (c : Config ℕ (Taker ω)) : Prop :=
  m < c.shared ∧ ∃ t, c.calls j = some t ∧ t.number = some m ∧
    (more t.op t.seen = true ∨ ∃ x ∈ t.seen, m < x)

theorem Stale.step {j m : ℕ} (a : Move ω) (h : Stale more j m c) :
    Stale more j m ((takers more).next c a) := by
  obtain ⟨hlt, t, hj, hnumber, hreads⟩ := h
  obtain heq | ⟨i, op, _, hi, heq⟩ | ⟨i, u, _, hi, hu, heq⟩ | ⟨i, u, n, _, hi, _, _, heq⟩ :=
    next_takers_cases more c a
  · rw [heq]
    exact ⟨hlt, t, hj, hnumber, hreads⟩
  · rw [heq]
    exact ⟨hlt, t, calls_update_of_none hi hj, hnumber, hreads⟩
  · have hne : j ≠ i := by
      rintro rfl
      obtain rfl := Option.some.inj (hi.symm.trans hj)
      rw [hu] at hnumber
      cases hnumber
    rw [heq]
    exact ⟨Nat.lt_succ_of_lt hlt, t, (Function.update_of_ne hne _ _).trans hj, hnumber, hreads⟩
  · rw [heq]
    by_cases hne : j = i
    · subst hne
      obtain rfl := Option.some.inj (hi.symm.trans hj)
      refine ⟨hlt, _, Function.update_self _ _ _, hnumber, Or.inr ⟨c.shared, ?_, hlt⟩⟩
      exact List.mem_append_right _ List.mem_cons_self
    · exact ⟨hlt, t, (Function.update_of_ne hne _ _).trans hj, hnumber, hreads⟩

/-- If all calls have come to an end, only a run without disturbance has read right. -/
theorem undisturbed_of_separate (hmore : ∀ op, more op [] = true) {as : List (Move ω)}
    (hfinished : Finished more (run (takers more).next (Config.idle 0) as))
    (h : Separate (run (takers more).next (Config.idle 0) as)) :
    Along (takers more).next (Undisturbed more) (Config.idle 0) as := by
  by_contra hnot
  obtain ⟨pre, a, post, rfl, _, ha⟩ := exists_first_of_not_along hnot
  have hnumbered := numbered_run more pre
  have hnumbered' := numbered_run more (pre ++ a :: post)
  rw [run_append, run_cons] at hfinished h hnumbered'
  generalize run (takers more).next (Config.idle 0) pre = c at ha hfinished h hnumbered hnumbered'
  -- the call that increments leaves the other one behind
  have hstale : ∃ j m, Stale more j m ((takers more).next c a) := by
    cases a with
    | enter i op => exact absurd trivial ha
    | resume i =>
      simp only [Undisturbed, not_forall] at ha
      obtain ⟨t, hi, ht, j, u, hj, hu, hreads⟩ := ha
      obtain ⟨m, hm⟩ := Option.ne_none_iff_exists'.mp hu
      have hne : j ≠ i := by
        rintro rfl
        obtain rfl := Option.some.inj (hi.symm.trans hj)
        exact hu ht
      refine ⟨j, m, ?_⟩
      simp only [Stale, Sections.next, hi, takers, ht]
      refine ⟨Nat.lt_succ_of_le (hnumbered.range j u m hj hm).2, u,
        (Function.update_of_ne hne _ _).trans hj, hm, Or.inl ?_⟩
      rwa [Bool.not_eq_false] at hreads
  obtain ⟨j, m, hstale⟩ := hstale
  have hend := run_invariant (fun c a (hc : Stale more j m c) => hc.step a) hstale post
  obtain ⟨_, t, hj, hm, hreads⟩ := hend
  rw [(hfinished j t hj).2] at hreads
  obtain hreads | ⟨x, hx, hlt⟩ := hreads
  · cases hreads
  · exact absurd (h.eq_number hmore hnumbered' hfinished hj hm x hx) hlt.ne'

end WfcIo.Foundation.Tickets

import WfcIo.Foundation.Walk
import Mathlib.Data.List.Count
import Mathlib.Algebra.Order.Ring.Nat

/-!
# Flooding a tree

Every vertex has one parent at most. What comes to a vertex is passed on to its children and to
its parent, but not back to where it has come from. Some of the ways may be closed, and they may
be closed in one direction only.

Whatever ways are closed, no vertex is met twice. A vertex is met if it lies down, by open ways,
from one that the start lies up from.

## Main definitions

- `Ways` — the parents, and the ways up and down that are open
- `Ways.next` — where something goes that has come to a vertex from its `Origin`
- `Ways.Below`, `Ways.Over`, `Ways.Under` — up and down, by all ways and by the open ones

## Main results

- `Ways.falls` — a flood comes to an end
- `Ways.count_above`, `Ways.count_walk` — which vertices are met, once each
-/

namespace WfcIo.Foundation

universe u

/-- The parent of each vertex, and the ways that are open, up to a parent and down to children. -/
structure Ways (V : Type u) where
  parent : V → Option V
  up : V → Option V
  down : V → List V
  up_parent : ∀ v p, up v = some p → parent v = some p
  down_parent : ∀ v, ∀ c ∈ down v, parent c = some v
  nodup_down : ∀ v, (down v).Nodup

/-- Where something has come from: from outside, from the child `c`, or from the parent. -/
inductive Origin (V : Type u)
  | outside
  | below (c : V)
  | above
  deriving DecidableEq

/-- Of a list without repetitions at most one element counts. -/
theorem sum_ite_of_unique {α : Type u} {l : List α} (hl : l.Nodup) {P : α → Prop}
    [DecidablePred P] (hP : ∀ a ∈ l, ∀ b ∈ l, P a → P b → a = b) :
    (l.map fun a => if P a then 1 else 0).sum = if ∃ a ∈ l, P a then 1 else 0 := by
  induction l with
  | nil => simp
  | cons a l ih =>
    obtain ⟨ha, hl⟩ := List.nodup_cons.mp hl
    have hih := ih hl fun b hb c hc =>
      hP b (List.mem_cons_of_mem _ hb) c (List.mem_cons_of_mem _ hc)
    rw [List.map_cons, List.sum_cons, hih]
    by_cases hPa : P a
    · have hnone : ¬ ∃ b ∈ l, P b := by
        rintro ⟨b, hb, hPb⟩
        have hab := hP a List.mem_cons_self b (List.mem_cons_of_mem _ hb) hPa hPb
        exact ha (hab ▸ hb)
      rw [if_pos hPa, if_neg hnone, if_pos ⟨a, List.mem_cons_self, hPa⟩]
    · simp [hPa]

namespace Ways

variable {V : Type u} (W : Ways V)

/-- All links go up to a vertex of lower rank. -/
def Ascends (rank : V → ℕ) : Prop := ∀ v p, W.parent v = some p → rank p < rank v

/-- `a` is below `b`, or `b` itself. -/
def Below : V → V → Prop := Relation.ReflTransGen fun a b => W.parent a = some b

/-- By open ways `a` leads up to `b`. -/
def Over : V → V → Prop := Relation.ReflTransGen fun a b => W.up a = some b

/-- By open ways `a` leads down to `b`. -/
def Under : V → V → Prop := Relation.ReflTransGen fun a b => b ∈ W.down a

/-- What comes to `v` from `o` meets `m`. -/
def Meets (v : V) (o : Origin V) (m : V) : Prop :=
  (∃ r, W.Over v r ∧ W.Under r m) ∧ ∀ c, o = .below c → ¬ W.Below m c

variable {W} {rank : V → ℕ} {a b c c' m v : V}

/-! ### Up and down -/

theorem rank_le_of_below (hrank : W.Ascends rank) (h : W.Below a b) : rank b ≤ rank a := by
  induction h with
  | refl => exact Nat.le_refl _
  | @tail b c _ hbc ih =>
    have hlt := hrank b c hbc
    omega

theorem Under.below (h : W.Under a b) : W.Below b a := by
  induction h with
  | refl => exact .refl
  | tail _ hbc ih => exact .head (W.down_parent _ _ hbc) ih

/-- The vertices above `m` lie on one line. -/
theorem below_or_below (ha : W.Below m a) (hb : W.Below m b) : W.Below a b ∨ W.Below b a := by
  refine Relation.ReflTransGen.total_of_right_unique ?_ ha hb
  intro x y z hy hz
  exact Option.some.inj (hy.symm.trans hz)

theorem not_below_child (hrank : W.Ascends rank) (hc : W.parent c = some v) : ¬ W.Below v c := by
  intro h
  have hle := rank_le_of_below hrank h
  have hlt := hrank c v hc
  omega

/-- A vertex is below one of the children only. -/
theorem child_unique (hrank : W.Ascends rank) (hc : W.parent c = some v)
    (hc' : W.parent c' = some v) (h : W.Below m c) (h' : W.Below m c') : c = c' := by
  have hup : ∀ {x y : V}, W.parent x = some v → W.parent y = some v → W.Below x y → x = y := by
    intro x y hx hy hxy
    obtain rfl | ⟨z, hz, hzy⟩ := Relation.ReflTransGen.cases_head_iff.mp hxy
    · rfl
    · obtain rfl := Option.some.inj (hx.symm.trans hz)
      exact absurd hzy (not_below_child hrank hy)
  obtain hcc | hcc := below_or_below h h'
  · exact hup hc hc' hcc
  · exact (hup hc' hc hcc).symm

theorem under_iff : W.Under v m ↔ v = m ∨ ∃ c ∈ W.down v, W.Under c m :=
  Relation.ReflTransGen.cases_head_iff

theorem over_iff : W.Over v m ↔ v = m ∨ ∃ p, W.up v = some p ∧ W.Over p m :=
  Relation.ReflTransGen.cases_head_iff

theorem Over.below (h : W.Over a b) : W.Below a b := by
  induction h with
  | refl => exact .refl
  | tail _ hbc ih => exact ih.tail (W.up_parent _ _ hbc)

/-- A way down that starts above `v` and ends below it leads through `v`. -/
theorem Under.of_between (hrank : W.Ascends rank) (h : W.Under a m) (hm : W.Below m v)
    (hv : W.Below v a) : W.Under v m := by
  induction h with
  | refl =>
    obtain rfl | ⟨p, hp, hpa⟩ := Relation.ReflTransGen.cases_head_iff.mp hv
    · exact .refl
    · have hle := rank_le_of_below hrank (hpa.trans hm)
      have hlt := hrank v p hp
      omega
  | @tail b c hab hbc ih =>
    obtain rfl | ⟨p, hp, hpv⟩ := Relation.ReflTransGen.cases_head_iff.mp hm
    · exact .refl
    · obtain rfl := Option.some.inj (hp.symm.trans (W.down_parent b c hbc))
      exact (ih hpv).tail hbc

variable {o : Origin V}

/-- Below `v`, what comes to it meets what lies under it, not on the way back. -/
theorem meets_of_below (hrank : W.Ascends rank) (ho : ∀ c, o = .below c → W.parent c = some v)
    (hm : W.Below m v) :
    W.Meets v o m ↔ v = m ∨ ∃ c ∈ W.down v, .below c ≠ o ∧ W.Under c m := by
  constructor
  · rintro ⟨⟨r, hr, hrm⟩, hback⟩
    obtain rfl | ⟨c, hc, hcm⟩ := under_iff.mp (hrm.of_between hrank hm hr.below)
    · exact Or.inl rfl
    · exact Or.inr ⟨c, hc, fun heq => hback c heq.symm hcm.below, hcm⟩
  · rintro (rfl | ⟨c, hc, hco, hcm⟩)
    · refine ⟨⟨v, .refl, .refl⟩, fun c hc => ?_⟩
      exact not_below_child hrank (ho c hc)
    · refine ⟨⟨v, .refl, under_iff.mpr (Or.inr ⟨c, hc, hcm⟩)⟩, ?_⟩
      rintro c' rfl hmc'
      exact hco (congrArg Origin.below
        (child_unique hrank (W.down_parent v c hc) (ho c' rfl) hcm.below hmc'))

/-- Elsewhere it meets what its way up leads to. -/
theorem meets_of_not_below (ho : ∀ c, o = .below c → W.parent c = some v) (hm : ¬ W.Below m v) :
    W.Meets v o m ↔ ∃ p, W.up v = some p ∧ W.Meets p (.below v) m := by
  constructor
  · rintro ⟨⟨r, hr, hrm⟩, -⟩
    obtain rfl | ⟨p, hp, hpr⟩ := over_iff.mp hr
    · exact absurd hrm.below hm
    · refine ⟨p, hp, ⟨r, hpr, hrm⟩, ?_⟩
      rintro c ⟨⟩
      exact hm
  · rintro ⟨p, hp, ⟨r, hpr, hrm⟩, -⟩
    refine ⟨⟨r, over_iff.mpr (Or.inr ⟨p, hp, hpr⟩), hrm⟩, ?_⟩
    rintro c rfl hmc
    exact hm (hmc.tail (ho c rfl))

/-! ### Floods -/

/-- How deep a flood is that has come to a vertex, if no rank is above `M`. -/
def depth (rank : V → ℕ) (M : ℕ) : V × Origin V → ℕ
  | (v, .above) => M - rank v
  | (v, _) => M + 1 + rank v

variable {M f : ℕ}

theorem depth_of_ne (ho : o ≠ .above) : depth rank M (v, o) = M + 1 + rank v := by
  cases o with
  | above => exact absurd rfl ho
  | _ => rfl

/-- What goes down goes deeper than what it has come from. -/
theorem depth_child (hrank : W.Ascends rank) (hM : ∀ v, rank v ≤ M) (hc : c ∈ W.down v)
    (o : Origin V) : depth rank M (c, .above) < depth rank M (v, o) := by
  have hlt := hrank c v (W.down_parent v c hc)
  have hle := hM c
  cases o <;> simp only [depth] <;> omega

variable [DecidableEq V]

variable (W) in
/-- Where something goes that has come to a vertex: down to the children, then up to the parent,
    and not back. -/
def next : V × Origin V → List (V × Origin V)
  | (v, .above) => (W.down v).map (·, .above)
  | (v, o) =>
    ((W.down v).filter (.below · ≠ o)).map (·, .above) ++ (W.up v).toList.map (·, .below v)

theorem next_of_ne (ho : o ≠ .above) :
    W.next (v, o) =
      ((W.down v).filter (.below · ≠ o)).map (·, .above) ++ (W.up v).toList.map (·, .below v) := by
  cases o with
  | above => exact absurd rfl ho
  | _ => rfl

/-- **Termination.** A flood goes deeper at every step. -/
theorem falls (hrank : W.Ascends rank) (hM : ∀ v, rank v ≤ M) : Falls W.next (depth rank M) := by
  rintro ⟨v, o⟩ x hx
  by_cases ho : o = .above
  · subst ho
    obtain ⟨c, hc, rfl⟩ := List.mem_map.mp hx
    exact depth_child hrank hM hc _
  · rw [next_of_ne ho, List.mem_append, List.mem_map, List.mem_map] at hx
    obtain ⟨c, hc, rfl⟩ | ⟨p, hp, rfl⟩ := hx
    · exact depth_child hrank hM (List.mem_of_mem_filter hc) o
    · have hlt := hrank v p (W.up_parent v p (Option.mem_toList.mp hp))
      rw [depth_of_ne ho]
      simp only [depth]
      omega

/-! ### How often a vertex is met -/

/-- How often a list of visits meets `m`. -/
def visits (m : V) (l : List (V × Origin V)) : ℕ := l.countP fun x => x.1 = m

/-- What is not met gives nothing. -/
theorem flatMap_of_visits_eq_zero {β : Type*} {l : List (V × Origin V)} {g : V × Origin V → List β}
    (hg : ∀ x, x.1 ≠ m → g x = []) (h : visits m l = 0) : l.flatMap g = [] := by
  refine List.flatMap_eq_nil_iff.mpr fun x hx => hg x ?_
  simpa using List.countP_eq_zero.mp h x hx

/-- What is met once gives what the visit gives. -/
theorem flatMap_of_visits_eq_one {β : Type*} {l : List (V × Origin V)} {g : V × Origin V → List β}
    (hg : ∀ x, x.1 ≠ m → g x = []) (h : visits m l = 1) {x : V × Origin V} (hx : x ∈ l)
    (hxm : x.1 = m) : l.flatMap g = g x := by
  obtain ⟨l₁, l₂, rfl⟩ := List.append_of_mem hx
  have hsum : visits m (l₁ ++ x :: l₂) = visits m l₁ + (visits m l₂ + 1) := by
    simp [visits, hxm]
  rw [List.flatMap_append, List.flatMap_cons, flatMap_of_visits_eq_zero hg (by omega),
    flatMap_of_visits_eq_zero hg (by omega), List.nil_append, List.append_nil]

theorem visits_walk_succ (f : ℕ) (x : V × Origin V) :
    visits m (walk W.next (f + 1) x) =
      ((W.next x).map fun y => visits m (walk W.next f y)).sum + if x.1 = m then 1 else 0 := by
  simp only [visits, walk, List.countP_cons, List.countP_flatMap, decide_eq_true_eq]
  rfl

open Classical in
/-- What is passed on to some of the children. -/
theorem sum_visits_down (hrank : W.Ascends rank) (p : V → Bool) (m : V)
    (hchild : ∀ c ∈ W.down v,
      visits m (walk W.next f (c, .above)) = if W.Under c m then 1 else 0) :
    ((((W.down v).filter p).map (·, Origin.above)).map
        fun y => visits m (walk W.next f y)).sum =
      if ∃ c ∈ W.down v, p c ∧ W.Under c m then 1 else 0 := by
  have hunique : ∀ a ∈ (W.down v).filter p, ∀ b ∈ (W.down v).filter p,
      W.Under a m → W.Under b m → a = b := fun a ha b hb hma hmb =>
    child_unique hrank (W.down_parent v a (List.mem_of_mem_filter ha))
      (W.down_parent v b (List.mem_of_mem_filter hb)) hma.below hmb.below
  have hsum := sum_ite_of_unique ((W.nodup_down v).filter p) hunique
  have hmap : (((W.down v).filter p).map fun c => visits m (walk W.next f (c, Origin.above))) =
      ((W.down v).filter p).map fun a => if W.Under a m then 1 else 0 :=
    List.map_congr_left fun c hc => hchild c (List.mem_of_mem_filter hc)
  rw [List.map_map]
  simp only [Function.comp_def, hmap, hsum, List.mem_filter, and_assoc]

open Classical in
/-- **Downwards.** What comes from above meets what lies under, once. -/
theorem count_above (hrank : W.Ascends rank) (hM : ∀ v, rank v ≤ M) (m : V)
    (hf : depth rank M (v, .above) < f) :
    visits m (walk W.next f (v, .above)) = if W.Under v m then 1 else 0 := by
  induction f generalizing v with
  | zero => omega
  | succ f ih =>
    have hchild : ∀ c ∈ W.down v,
        visits m (walk W.next f (c, .above)) = if W.Under c m then 1 else 0 := by
      intro c hc
      have hdeeper := depth_child hrank hM hc .above
      exact ih (by omega)
    have hall := sum_visits_down hrank (fun _ => true) m hchild
    simp only [true_and, List.filter_true] at hall
    rw [visits_walk_succ, next, hall, under_iff (v := v)]
    by_cases hvm : v = m
    · subst hvm
      have hnone : ¬ ∃ c ∈ W.down v, W.Under c v := by
        rintro ⟨c, hc, hcv⟩
        exact not_below_child hrank (W.down_parent v c hc) hcv.below
      rw [if_neg hnone, if_pos rfl, if_pos (Or.inl rfl)]
    · simp only [hvm, false_or, if_false, add_zero]

open Classical in
/-- **Floods.** What comes from outside or from below meets every vertex once at most, and exactly
    those that lie under a vertex that the first lies over, not on the way back. -/
theorem count_walk (hrank : W.Ascends rank) (hM : ∀ v, rank v ≤ M) (m : V) (hne : o ≠ .above)
    (ho : ∀ c, o = .below c → W.parent c = some v) (hf : depth rank M (v, o) < f) :
    visits m (walk W.next f (v, o)) = if W.Meets v o m then 1 else 0 := by
  induction f generalizing v o with
  | zero => omega
  | succ f ih =>
    have hchild : ∀ c ∈ W.down v,
        visits m (walk W.next f (c, .above)) = if W.Under c m then 1 else 0 := by
      intro c hc
      have hdeeper := depth_child hrank hM hc o
      exact count_above hrank hM m (by omega)
    have hparent : ((W.up v).toList.map fun p => visits m (walk W.next f (p, .below v))).sum =
        if ∃ p, W.up v = some p ∧ W.Meets p (.below v) m then 1 else 0 := by
      cases hp : W.up v with
      | none => simp
      | some p =>
        have hup := W.up_parent v p hp
        have hlt := hrank v p hup
        rw [depth_of_ne hne] at hf
        have hihp : visits m (walk W.next f (p, .below v)) =
            if W.Meets p (.below v) m then 1 else 0 := by
          refine ih (fun h => by cases h) (fun c hc => ?_) ?_
          · cases hc
            exact hup
          · simp only [depth]
            omega
        simp [hihp]
    rw [visits_walk_succ, next_of_ne hne, List.map_append, List.sum_append,
      sum_visits_down hrank _ m hchild, List.map_map]
    simp only [Function.comp_def, hparent, decide_eq_true_eq]
    by_cases hm : W.Below m v
    · have hnone : ¬ ∃ p, W.up v = some p ∧ W.Meets p (.below v) m := by
        rintro ⟨p, _, _, hback⟩
        exact hback v rfl hm
      rw [meets_of_below hrank ho hm, if_neg hnone, add_zero]
      by_cases hvm : v = m
      · subst hvm
        have hnochild : ¬ ∃ c ∈ W.down v, .below c ≠ o ∧ W.Under c v := by
          rintro ⟨c, hc, _, hcv⟩
          exact not_below_child hrank (W.down_parent v c hc) hcv.below
        rw [if_neg hnochild, if_pos rfl, if_pos (Or.inl rfl)]
      · simp only [hvm, false_or, if_false, add_zero]
    · have hnochild : ¬ ∃ c ∈ W.down v, .below c ≠ o ∧ W.Under c m := by
        rintro ⟨c, hc, _, hcm⟩
        exact hm (hcm.below.tail (W.down_parent v c hc))
      have hvm : v ≠ m := by
        rintro rfl
        exact hm .refl
      simp only [meets_of_not_below ho hm, if_neg hnochild, if_neg hvm, zero_add, add_zero]

/-- Nothing goes outside. -/
theorem origin_ne_outside {x : V × Origin V} (hx : x ∈ (W.next (v, o)).flatMap (walk W.next f)) :
    x.2 ≠ .outside := by
  have hnext : ∀ y, ∀ z ∈ W.next y, z.2 ≠ .outside := by
    rintro ⟨v, o⟩ z hz
    by_cases ho : o = .above
    · subst ho
      obtain ⟨c, _, rfl⟩ := List.mem_map.mp hz
      exact fun h => (by cases h)
    · rw [next_of_ne ho, List.mem_append, List.mem_map, List.mem_map] at hz
      obtain ⟨c, _, rfl⟩ | ⟨p, _, rfl⟩ := hz
      · exact fun h => (by cases h)
      · exact fun h => (by cases h)
  obtain ⟨y, hy, hx⟩ := List.mem_flatMap.mp hx
  exact walk_invariant (I := fun z => z.2 ≠ .outside) (fun y z hz _ => hnext y z hz)
    (hnext _ y hy) hx

end Ways

end WfcIo.Foundation

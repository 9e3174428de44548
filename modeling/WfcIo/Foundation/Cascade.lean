import Mathlib.Logic.Relation
import Mathlib.Logic.Function.Basic
import Mathlib.Data.Set.Defs
import Mathlib.Data.List.Basic

/-!
# Cascades of calls

Objects that call one another. An object that is called changes its state, shows something,
and calls other objects, one after the other; each of these calls is carried out to its end
before the next begins. Where the links between the objects are ranked, every cascade comes to
an end.

A cascade changes states as it goes. If what an object passes on, and whether it shows anything,
depends on a part of its state that no call changes, then a cascade shows something exactly if
an object that can be reached in the state before it would.

## Main definitions

- `Reaction`, `Network`, `cascade` — an object that is called, all objects, and a call
- `Outlines` — what a call leads to, in terms of a part of the state that stays
- `Reach` — the calls that a call leads to

## Main results

- `cascade_spec` — when a cascade shows something
- `cascade_eq_of_rank_lt` — more fuel makes no difference
-/

namespace WfcIo.Foundation

universe u v w x y

/-- What an object does when it is called: its next state, what it calls, and what it shows. -/
structure Reaction (ι : Type u) (κ : Type v) (μ : Type w) (β : Type x) where
  state : κ
  sends : List (ι × μ)
  shows : List β

/-- The states of all objects, and what has been shown. -/
structure Network (ι : Type u) (κ : Type v) (β : Type x) where
  node : ι → κ
  shown : List β := []

variable {ι : Type u} {κ : Type v} {μ : Type w} {β : Type x} {ξ : Type y}

/-- An object calls others it has links to. Which ones and with what depends on the outline of
    the message only, and so does whether it shows anything; and a call changes none of this. -/
structure Outlines (react : ι → μ → κ → Reaction ι κ μ β) (outline : μ → ξ)
    (links : κ → Set ι) (passes : κ → ξ → List (ι × ξ)) (alarms : κ → ξ → Prop) : Prop where
  sends : ∀ n m k, (react n m k).sends.map (Prod.map id outline) = passes k (outline m)
  shows : ∀ n m k, (react n m k).shows = [] ↔ ¬ alarms k (outline m)
  linked : ∀ k z c, c ∈ passes k z → c.1 ∈ links k
  same_links : ∀ n m k, links (react n m k).state = links k
  same_passes : ∀ n m k, passes (react n m k).state = passes k
  same_alarms : ∀ n m k, alarms (react n m k).state = alarms k

/-- The calls that a call leads to, itself among them. -/
def Reach (passes : κ → ξ → List (ι × ξ)) (N : Network ι κ β) : ι × ξ → ι × ξ → Prop :=
  Relation.ReflTransGen fun c c' => c' ∈ passes (N.node c.1) c.2

/-- All links go down. -/
def Ranked (links : κ → Set ι) (rank : ι → ℕ) (N : Network ι κ β) : Prop :=
  ∀ n t, t ∈ links (N.node n) → rank t < rank n

/-- No object that the call leads to shows anything. -/
def Calm (passes : κ → ξ → List (ι × ξ)) (alarms : κ → ξ → Prop) (N : Network ι κ β)
    (c : ι × ξ) : Prop :=
  ∀ c', Reach passes N c c' → ¬ alarms (N.node c'.1) c'.2

/-- Two networks that differ only in what calls may change. -/
structure Alike (links : κ → Set ι) (passes : κ → ξ → List (ι × ξ)) (alarms : κ → ξ → Prop)
    (N N' : Network ι κ β) : Prop where
  links : ∀ n, links (N'.node n) = links (N.node n)
  passes : ∀ n, passes (N'.node n) = passes (N.node n)
  alarms : ∀ n, alarms (N'.node n) = alarms (N.node n)

variable {react : ι → μ → κ → Reaction ι κ μ β} {outline : μ → ξ} {links : κ → Set ι}
  {passes : κ → ξ → List (ι × ξ)} {alarms : κ → ξ → Prop} {rank : ι → ℕ}
  {N N' N'' : Network ι κ β} {c : ι × ξ}

namespace Alike

theorem refl (N : Network ι κ β) : Alike links passes alarms N N :=
  ⟨fun _ => rfl, fun _ => rfl, fun _ => rfl⟩

theorem trans (h : Alike links passes alarms N N') (h' : Alike links passes alarms N' N'') :
    Alike links passes alarms N N'' :=
  ⟨fun n => (h'.links n).trans (h.links n), fun n => (h'.passes n).trans (h.passes n),
    fun n => (h'.alarms n).trans (h.alarms n)⟩

theorem ranked (h : Alike links passes alarms N N') (hN : Ranked links rank N) :
    Ranked links rank N' := by
  intro n t ht
  rw [h.links n] at ht
  exact hN n t ht

theorem calm_iff (h : Alike links passes alarms N N') :
    Calm passes alarms N' c ↔ Calm passes alarms N c := by
  have hreach : Reach passes N' = Reach passes N := by
    simp only [Reach, h.passes]
  simp only [Calm, hreach, h.alarms]

end Alike

/-- A call shows nothing if the object does not, and the calls it makes do not. -/
theorem calm_iff_passes : Calm passes alarms N c ↔
    ¬ alarms (N.node c.1) c.2 ∧ ∀ c' ∈ passes (N.node c.1) c.2, Calm passes alarms N c' := by
  constructor
  · exact fun h => ⟨h c .refl, fun c' hc' d hd => h d (.head hc' hd)⟩
  · rintro ⟨hc, hpasses⟩ d hd
    obtain rfl | ⟨c', hc', hd⟩ := Relation.ReflTransGen.cases_head_iff.mp hd
    · exact hc
    · exact hpasses c' hc' d hd

/-- Calls one after the other, each in the state that the ones before it have left. -/
theorem calls_spec {call : ι × μ → Network ι κ β → Network ι κ β} (calls : List (ι × μ))
    (hcall : ∀ c ∈ calls, ∀ N, Ranked links rank N → Alike links passes alarms N (call c N) ∧
      ((call c N).shown = [] ↔ N.shown = [] ∧ Calm passes alarms N (c.1, outline c.2)))
    (hN : Ranked links rank N) :
    Alike links passes alarms N (calls.foldl (fun N c => call c N) N) ∧
      ((calls.foldl (fun N c => call c N) N).shown = [] ↔
        N.shown = [] ∧ ∀ c ∈ calls, Calm passes alarms N (c.1, outline c.2)) := by
  induction calls generalizing N with
  | nil => exact ⟨.refl N, by simp⟩
  | cons c calls ih =>
    obtain ⟨halike, hshown⟩ := hcall c List.mem_cons_self N hN
    obtain ⟨halike', hshown'⟩ := ih (fun c' hc' => hcall c' (List.mem_cons_of_mem _ hc'))
      (halike.ranked hN)
    refine ⟨halike.trans halike', ?_⟩
    rw [List.foldl_cons, hshown', hshown, List.forall_mem_cons, and_assoc]
    simp only [halike.calm_iff]

/-- An object that is called calls others further down. -/
theorem rank_lt_of_mem_sends (h : Outlines react outline links passes alarms)
    (hrank : Ranked links rank N) {c c' : ι × μ}
    (hc' : c' ∈ (react c.1 c.2 (N.node c.1)).sends) : rank c'.1 < rank c.1 := by
  have hpassed : (c'.1, outline c'.2) ∈ passes (N.node c.1) (outline c.2) := by
    rw [← h.sends c.1 c.2 (N.node c.1)]
    exact List.mem_map_of_mem hc'
  exact hrank c.1 c'.1 (h.linked _ _ _ hpassed)

/-! ### The cascade of a call -/

variable [DecidableEq ι]

/-- Call an object with a message, `c`, and carry out what it calls. The fuel bounds the depth
    of the calls. -/
def cascade (react : ι → μ → κ → Reaction ι κ μ β) :
    ℕ → ι × μ → Network ι κ β → Network ι κ β
  | 0, _, N => N
  | f + 1, c, N =>
    let r := react c.1 c.2 (N.node c.1)
    r.sends.foldl (fun N c' => cascade react f c' N)
      { node := Function.update N.node c.1 r.state, shown := N.shown ++ r.shows }

/-- The object that is called changes its state. -/
theorem Alike.update (h : Outlines react outline links passes alarms) (N : Network ι κ β)
    (c : ι × μ) (shown : List β) : Alike links passes alarms N
      { node := Function.update N.node c.1 (react c.1 c.2 (N.node c.1)).state, shown } := by
  refine ⟨fun n => ?_, fun n => ?_, fun n => ?_⟩
  all_goals
    by_cases hn : n = c.1
    · subst hn
      simp only [Function.update_self, h.same_links, h.same_passes, h.same_alarms]
    · simp only [Function.update_of_ne hn]

/-- **Cascades.** A cascade changes nothing that matters for another, and shows something exactly
    if some object that it leads to does. -/
theorem cascade_spec (h : Outlines react outline links passes alarms) {f : ℕ} {c : ι × μ}
    {N : Network ι κ β} (hrank : Ranked links rank N) (hf : rank c.1 < f) :
    Alike links passes alarms N (cascade react f c N) ∧
      ((cascade react f c N).shown = [] ↔
        N.shown = [] ∧ Calm passes alarms N (c.1, outline c.2)) := by
  induction f generalizing c N with
  | zero => omega
  | succ f ih =>
    have hupdate := Alike.update h N c (N.shown ++ (react c.1 c.2 (N.node c.1)).shows)
    have hranks : ∀ c' ∈ (react c.1 c.2 (N.node c.1)).sends, rank c'.1 < f := by
      intro c' hc'
      have hlt := rank_lt_of_mem_sends h hrank hc'
      omega
    obtain ⟨halike, hshown⟩ := calls_spec _ (fun c' hc' N hN => ih hN (hranks c' hc'))
      (hupdate.ranked hrank)
    refine ⟨hupdate.trans halike, ?_⟩
    rw [cascade, hshown, calm_iff_passes, List.append_eq_nil_iff, h.shows, and_assoc,
      ← h.sends c.1 c.2 (N.node c.1), List.forall_mem_map]
    simp only [hupdate.calm_iff]
    rfl

/-- **Enough fuel.** A cascade comes to an end at the depth of the rank. -/
theorem cascade_eq_of_rank_lt (h : Outlines react outline links passes alarms) {f f' : ℕ}
    {c : ι × μ} {N : Network ι κ β} (hrank : Ranked links rank N) (hf : rank c.1 < f)
    (hf' : rank c.1 < f') : cascade react f c N = cascade react f' c N := by
  induction f generalizing f' c N with
  | zero => omega
  | succ f ih =>
    cases f' with
    | zero => omega
    | succ f' =>
      have hfold : ∀ (calls : List (ι × μ)) (N : Network ι κ β), Ranked links rank N →
          (∀ c' ∈ calls, rank c'.1 < f ∧ rank c'.1 < f') →
          calls.foldl (fun N c' => cascade react f c' N) N =
            calls.foldl (fun N c' => cascade react f' c' N) N := by
        intro calls
        induction calls with
        | nil => exact fun N _ _ => rfl
        | cons c' calls ihcalls =>
          intro N hN hcalls
          obtain ⟨hc, hc'⟩ := hcalls c' List.mem_cons_self
          obtain ⟨halike, _⟩ := cascade_spec h hN hc
          rw [List.foldl_cons, List.foldl_cons, ← ih hN hc hc']
          exact ihcalls _ (halike.ranked hN) fun d hd => hcalls d (List.mem_cons_of_mem _ hd)
      have hupdate := Alike.update h N c (N.shown ++ (react c.1 c.2 (N.node c.1)).shows)
      refine hfold _ _ (hupdate.ranked hrank) fun c' hc' => ?_
      have hlt := rank_lt_of_mem_sends h hrank hc'
      omega

end WfcIo.Foundation

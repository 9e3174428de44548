import WfcIo.Foundation.Walk
import Mathlib.Algebra.BigOperators.Group.Finset.Basic
import Mathlib.Tactic.Abel

/-!
# What a cascade conserves

A measure of a network, and what a call is worth. If the measure after an object has been called,
and what the calls it makes are worth, compare to the measure before and what the call is worth,
then so it is for a whole cascade. The comparison may be equality, and then nothing is lost in a
cascade and nothing comes twice; or an order, and then a call costs no more than it is worth.

## Main definitions

- `Additive` — a comparison that sums respect
- `Conserves` — an object holds, passes on and shows what it held before and what it got
- `Pays` — an object raises its potential and passes on no more than the call is worth

## Main results

- `cascade_measure` — the rule for a cascade
- `cascade_conserves` — nothing is lost in a cascade and nothing comes twice
- `potential_deliver` — what `cascade_measure` needs of an object that pays
-/

namespace WfcIo.Foundation

universe u v w x y z

variable {ι : Type u} {κ : Type v} {μ : Type w} {β : Type x} {ξ : Type y} {M : Type z}
  [AddCommMonoid M]

/-- What an object held and what it got is what it holds, passes on and shows. -/
def Conserves (react : ι → μ → κ → Reaction ι κ μ β) (held : κ → M) (load : μ → M)
    (worth : β → M) : Prop :=
  ∀ n m k, held k + load m =
    held (react n m k).state + ((react n m k).sends.map fun c => load c.2).sum +
      ((react n m k).shows.map worth).sum

/-- An object whose links go down raises its potential, and passes on, no more than the call is
    worth to it. -/
def Pays (react : ι → μ → κ → Reaction ι κ μ β) (links : κ → Set ι) (rank : ι → ℕ)
    (pot : ι → κ → ℕ) (cost : ι × μ → ℕ) : Prop :=
  ∀ n m k, (∀ t ∈ links k, rank t < rank n) →
    pot n (react n m k).state + ((react n m k).sends.map cost).sum ≤ pot n k + cost (n, m)

/-- All that the objects of `s` hold, and all that has been shown. -/
def total (held : κ → M) (worth : β → M) (s : Finset ι) (N : Network ι κ β) : M :=
  (∑ n ∈ s, held (N.node n)) + (N.shown.map worth).sum

/-- The potentials of the objects of `s`. -/
def potential (pot : ι → κ → ℕ) (s : Finset ι) (N : Network ι κ β) : ℕ := ∑ n ∈ s, pot n (N.node n)

/-- The links of the objects of `s` stay in `s`. -/
def Closed (links : κ → Set ι) (s : Finset ι) (N : Network ι κ β) : Prop :=
  ∀ n ∈ s, ∀ t ∈ links (N.node n), t ∈ s

variable {react : ι → μ → κ → Reaction ι κ μ β} {outline : μ → ξ} {links : κ → Set ι}
  {passes : κ → ξ → List (ι × ξ)} {alarms : κ → ξ → Prop} {rank : ι → ℕ} {held : κ → M}
  {load : μ → M} {worth : β → M} {s : Finset ι} {N N' : Network ι κ β}

theorem Alike.closed (h : Alike links passes alarms N N') (hs : Closed links s N) :
    Closed links s N' := by
  intro n hn t ht
  rw [h.links n] at ht
  exact hs n hn t ht

/-- A comparison of measures that sums respect. -/
structure Additive (r : M → M → Prop) : Prop where
  refl : ∀ x, r x x
  trans : ∀ {x y z}, r x y → r y z → r x z
  add : ∀ {x y} z, r x y → r (x + z) (y + z)

theorem additive_eq : Additive (Eq : M → M → Prop) :=
  ⟨fun _ => rfl, Eq.trans, fun _ h => by rw [h]⟩

theorem additive_le : Additive (LE.le : ℕ → ℕ → Prop) :=
  ⟨le_refl, le_trans, fun z h => Nat.add_le_add_right h z⟩

/-- Calls one after the other, each measured by what it is worth. -/
theorem calls_measure {r : M → M → Prop} (hr : Additive r) (measure : Network ι κ β → M)
    (cost : ι × μ → M) {call : ι × μ → Network ι κ β → Network ι κ β} (calls : List (ι × μ))
    (hcall : ∀ c ∈ calls, ∀ N', Alike links passes alarms N N' →
      Alike links passes alarms N' (call c N') ∧ r (measure (call c N')) (measure N' + cost c)) :
    Alike links passes alarms N (calls.foldl (fun N c => call c N) N) ∧
      r (measure (calls.foldl (fun N c => call c N) N)) (measure N + (calls.map cost).sum) := by
  induction calls using List.reverseRecOn with
  | nil =>
    refine ⟨.refl N, ?_⟩
    rw [List.foldl_nil, List.map_nil, List.sum_nil, add_zero]
    exact hr.refl _
  | append_singleton calls c ih =>
    obtain ⟨halike, hmeasure⟩ := ih fun d hd => hcall d (List.mem_append_left _ hd)
    obtain ⟨halike', hmeasure'⟩ := hcall c (List.mem_append_right _ List.mem_cons_self) _ halike
    rw [List.foldl_concat, List.map_append, List.sum_append, List.map_singleton,
      List.sum_singleton, ← add_assoc]
    exact ⟨halike.trans halike', hr.trans hmeasure' (hr.add _ hmeasure)⟩

variable [DecidableEq ι]

/-- What the other objects hold does not depend on the state of one. -/
theorem exists_rest (held : κ → M) (node : ι → κ) {n : ι} (hn : n ∈ s) :
    ∃ r, (∑ m ∈ s, held (node m)) = held (node n) + r ∧
      ∀ k, (∑ m ∈ s, held (Function.update node n k m)) = held k + r := by
  refine ⟨∑ m ∈ s.erase n, held (node m), (Finset.add_sum_erase s _ hn).symm, fun k => ?_⟩
  have hrest : ∑ m ∈ s.erase n, held (Function.update node n k m) =
      ∑ m ∈ s.erase n, held (node m) := by
    refine Finset.sum_congr rfl fun m hm => ?_
    rw [Function.update_of_ne (Finset.ne_of_mem_erase hm)]
  rw [← Finset.add_sum_erase s _ hn, hrest, Function.update_self]

/-- **Cascades.** What holds of every object that is called and has not yet called the others
    holds of a cascade. -/
theorem cascade_measure {r : M → M → Prop} (hr : Additive r) (measure : Network ι κ β → M)
    (cost : ι × μ → M) (h : Outlines react outline links passes alarms)
    (hdeliver : ∀ c N, Ranked links rank N → c.1 ∈ s →
      r (measure (N.deliver react c) + ((react c.1 c.2 (N.node c.1)).sends.map cost).sum)
        (measure N + cost c))
    {f : ℕ} {c : ι × μ} (hrank : Ranked links rank N) (hs : Closed links s N) (hc : c.1 ∈ s)
    (hf : rank c.1 < f) : r (measure (cascade react f c N)) (measure N + cost c) := by
  induction f generalizing c N with
  | zero => omega
  | succ f ih =>
    have hupdate : Alike links passes alarms N (N.deliver react c) := Alike.update h N c _
    have hcalls : ∀ c' ∈ (react c.1 c.2 (N.node c.1)).sends, ∀ N',
        Alike links passes alarms (N.deliver react c) N' →
        Alike links passes alarms N' (cascade react f c' N') ∧
          r (measure (cascade react f c' N')) (measure N' + cost c') := by
      intro c' hc' N' halike
      have hlt := rank_lt_of_mem_sends h hrank hc'
      have hlink : c'.1 ∈ links (N.node c.1) := by
        refine h.linked (N.node c.1) (outline c.2) (c'.1, outline c'.2) ?_
        rw [← h.sends c.1 c.2 (N.node c.1)]
        exact List.mem_map_of_mem hc'
      have hrank' : Ranked links rank N' := (hupdate.trans halike).ranked hrank
      have hs' : Closed links s N' := (hupdate.trans halike).closed hs
      exact ⟨(cascade_spec h hrank' (by omega)).1,
        ih hrank' hs' (hs c.1 hc c'.1 hlink) (by omega)⟩
    obtain ⟨_, hmeasure⟩ :=
      calls_measure hr measure cost (react c.1 c.2 (N.node c.1)).sends hcalls
    rw [cascade_succ]
    exact hr.trans hmeasure (hdeliver c N hrank hc)

/-- One object is called and has not yet called the others. -/
theorem total_deliver (hlaw : Conserves react held load worth) {c : ι × μ} (hc : c.1 ∈ s) :
    total held worth s (N.deliver react c) +
        ((react c.1 c.2 (N.node c.1)).sends.map fun c => load c.2).sum =
      total held worth s N + load c.2 := by
  obtain ⟨r, hsum, hupdate⟩ := exists_rest held N.node hc
  have h := hlaw c.1 c.2 (N.node c.1)
  simp only [total, Network.deliver, List.map_append, List.sum_append, hsum, hupdate]
  calc _ = (held (react c.1 c.2 (N.node c.1)).state +
          ((react c.1 c.2 (N.node c.1)).sends.map fun c => load c.2).sum +
          ((react c.1 c.2 (N.node c.1)).shows.map worth).sum) + r + (N.shown.map worth).sum := by
        abel
    _ = held (N.node c.1) + load c.2 + r + (N.shown.map worth).sum := by rw [← h]
    _ = _ := by abel

/-- **Conservation.** What every object conserves, a cascade conserves. -/
theorem cascade_conserves (h : Outlines react outline links passes alarms)
    (hlaw : Conserves react held load worth) {f : ℕ} {c : ι × μ} (hrank : Ranked links rank N)
    (hs : Closed links s N) (hc : c.1 ∈ s) (hf : rank c.1 < f) :
    total held worth s (cascade react f c N) = total held worth s N + load c.2 :=
  cascade_measure additive_eq (total held worth s) (fun c => load c.2) h
    (fun _ _ _ hc => total_deliver hlaw hc) hrank hs hc hf

/-! ### Potentials -/

/-- One object changes its state. -/
theorem potential_update (pot : ι → κ → ℕ) (N : Network ι κ β) {n : ι} (hn : n ∈ s) (k : κ)
    (shown : List β) :
    potential pot s { node := Function.update N.node n k, shown } + pot n (N.node n) =
      potential pot s N + pot n k := by
  have hrest : ∑ m ∈ s.erase n, pot m (Function.update N.node n k m) =
      ∑ m ∈ s.erase n, pot m (N.node m) := by
    refine Finset.sum_congr rfl fun m hm => ?_
    rw [Function.update_of_ne (Finset.ne_of_mem_erase hm)]
  simp only [potential]
  rw [← Finset.add_sum_erase s _ hn, ← Finset.add_sum_erase s (fun m => pot m (N.node m)) hn,
    hrest, Function.update_self]
  omega

/-- One object is called and has not yet called the others. -/
theorem potential_deliver {pot : ι → κ → ℕ} {cost : ι × μ → ℕ}
    (hlaw : Pays react links rank pot cost) {c : ι × μ} (hrank : Ranked links rank N)
    (hc : c.1 ∈ s) :
    potential pot s (N.deliver react c) + ((react c.1 c.2 (N.node c.1)).sends.map cost).sum ≤
      potential pot s N + cost c := by
  have hupdate := potential_update pot N hc (react c.1 c.2 (N.node c.1)).state
    (N.shown ++ (react c.1 c.2 (N.node c.1)).shows)
  have hpays : pot c.1 (react c.1 c.2 (N.node c.1)).state +
      ((react c.1 c.2 (N.node c.1)).sends.map cost).sum ≤ pot c.1 (N.node c.1) + cost c :=
    hlaw c.1 c.2 (N.node c.1) (hrank c.1)
  rw [Network.deliver]
  omega

end WfcIo.Foundation

import WfcIo.Foundation.Walk
import Mathlib.Data.List.Induction
import Mathlib.Data.List.Nodup

/-!
# Order along a lane

Objects that keep some of what they get, in the order they got it, and pass it on one to another:
a lane. What has come out at its end, and then what the objects keep, from the last to the first,
is what has gone in, in this order, unless something is missing.

Only part of the messages go along the lane. The goods of a message, `load`, are nothing for the
others, which may go wherever they like.

## Main definitions

- `Lane` — objects that lead to one another, down to one where everything ends
- `backlogs` — what the objects of a lane keep, the oldest first
- `Orderly` — the law for one object
- `Advance` — something has gone in, and may have moved the rest

## Main results

- `cascade_advance` — a call at the beginning of a lane is an advance
- `cascade_advance_of_load_eq_nil` — a call without goods is an advance of any lane
-/

namespace WfcIo.Foundation

universe u v w x y

variable {ι : Type u} {κ : Type v} {μ : Type w} {β : Type x} {γ : Type y}

/-- Each object leads to the next one, and the last to none. -/
def Lane (leads : κ → ι → Prop) (ends : κ → Prop) (node : ι → κ) : List ι → Prop
  | [] => False
  | [n] => ends (node n)
  | n :: t :: ns => leads (node n) t ∧ Lane leads ends node (t :: ns)

/-- What the objects of a lane keep, from the last one to the first. -/
def backlogs (backlog : κ → List γ) (node : ι → κ) (ns : List ι) : List γ :=
  ns.reverse.flatMap fun n => backlog (node n)

/-- An object without goods to pass on does nothing about the goods. One that leads to `t`
    passes them on to `t` only, and one where everything ends passes on none. What comes out or
    is passed on comes before what is kept, and both were kept before, or have come now. -/
structure Orderly (react : ι → μ → κ → Reaction ι κ μ β) (load : μ → List γ)
    (worth : β → List γ) (backlog : κ → List γ) (leads : κ → ι → Prop) (ends : κ → Prop) :
    Prop where
  idle : ∀ n m k, load m = [] → (∀ c ∈ (react n m k).sends, load c.2 = []) ∧
    (react n m k).shows.flatMap worth = [] ∧ backlog (react n m k).state = backlog k
  sends : ∀ n m k t, leads k t → ∀ c ∈ (react n m k).sends, load c.2 = [] ∨ c.1 = t
  shows : ∀ n m k t, leads k t → (react n m k).shows.flatMap worth = []
  stops : ∀ n m k, ends k → ∀ c ∈ (react n m k).sends, load c.2 = []
  order : ∀ n m k, (∃ t, leads k t) ∨ ends k →
    List.Sublist ((react n m k).shows.flatMap worth ++
      (((react n m k).sends.flatMap fun c => load c.2) ++ backlog (react n m k).state))
      (backlog k ++ load m)
  same_leads : ∀ n m k t, leads k t → leads (react n m k).state t
  same_ends : ∀ n m k, ends k → ends (react n m k).state

/-- What leads somewhere still does. -/
def Standing (leads : κ → ι → Prop) (ends : κ → Prop) (N N' : Network ι κ β) : Prop :=
  ∀ n, (∀ t, leads (N.node n) t → leads (N'.node n) t) ∧ (ends (N.node n) → ends (N'.node n))

/-- The goods `l` have gone in at the beginning of the lane `ns`. -/
structure Advance (worth : β → List γ) (backlog : κ → List γ) (leads : κ → ι → Prop)
    (ends : κ → Prop) (ns : List ι) (l : List γ) (N N' : Network ι κ β) : Prop where
  standing : Standing leads ends N N'
  others : ∀ n ∉ ns, backlog (N'.node n) = backlog (N.node n)
  order : List.Sublist (N'.shown.flatMap worth ++ backlogs backlog N'.node ns)
    (N.shown.flatMap worth ++ backlogs backlog N.node ns ++ l)

variable {react : ι → μ → κ → Reaction ι κ μ β} {load : μ → List γ} {worth : β → List γ}
  {backlog : κ → List γ} {leads : κ → ι → Prop} {ends : κ → Prop} {ns : List ι} {l l' : List γ}
  {n : ι} {node node' : ι → κ} {N N' N'' : Network ι κ β}

@[simp] theorem backlogs_nil : backlogs backlog node [] = [] := rfl

@[simp] theorem backlogs_cons :
    backlogs backlog node (n :: ns) = backlogs backlog node ns ++ backlog (node n) := by
  simp [backlogs]

@[simp] theorem backlogs_append (ns' : List ι) :
    backlogs backlog node (ns ++ ns') =
      backlogs backlog node ns' ++ backlogs backlog node ns := by
  simp [backlogs]

theorem backlogs_congr (h : ∀ n ∈ ns, backlog (node' n) = backlog (node n)) :
    backlogs backlog node' ns = backlogs backlog node ns :=
  List.flatMap_congr fun n hn => h n (List.mem_reverse.mp hn)

/-- A lane stays a lane if its objects lead to where they have led. -/
theorem Lane.mono (hlane : Lane leads ends node ns)
    (h : ∀ n ∈ ns, (∀ t, leads (node n) t → leads (node' n) t) ∧ (ends (node n) → ends (node' n))) :
    Lane leads ends node' ns := by
  induction ns with
  | nil => exact hlane
  | cons n ns ih =>
    obtain ⟨hleads, hends⟩ := h n List.mem_cons_self
    cases ns with
    | nil => exact hends hlane
    | cons t ns => exact ⟨hleads t hlane.1, ih hlane.2 fun j hj => h j (List.mem_cons_of_mem n hj)⟩

namespace Standing

theorem refl (N : Network ι κ β) : Standing leads ends N N := fun _ => ⟨fun _ h => h, fun h => h⟩

theorem trans (h : Standing leads ends N N') (h' : Standing leads ends N' N'') :
    Standing leads ends N N'' :=
  fun n => ⟨fun t ht => (h' n).1 t ((h n).1 t ht), fun hn => (h' n).2 ((h n).2 hn)⟩

theorem lane (h : Standing leads ends N N') (hlane : Lane leads ends N.node ns) :
    Lane leads ends N'.node ns := hlane.mono fun n _ => h n

end Standing

/-- The end of a lane is a lane. -/
theorem Lane.of_append {pre : List ι} (hlane : Lane leads ends node (pre ++ n :: ns)) :
    Lane leads ends node (n :: ns) := by
  induction pre with
  | nil => exact hlane
  | cons m pre ih =>
    cases pre with
    | nil => exact hlane.2
    | cons t pre => exact ih hlane.2

namespace Advance

theorem refl (ns : List ι) (N : Network ι κ β) : Advance worth backlog leads ends ns [] N N where
  standing := .refl N
  others _ _ := rfl
  order := by rw [List.append_nil]

theorem trans (h : Advance worth backlog leads ends ns l N N')
    (h' : Advance worth backlog leads ends ns l' N' N'') :
    Advance worth backlog leads ends ns (l ++ l') N N'' where
  standing := h.standing.trans h'.standing
  others n hn := (h'.others n hn).trans (h.others n hn)
  order := by
    refine h'.order.trans ?_
    rw [← List.append_assoc]
    exact h.order.append_right l'

/-- Nothing has changed about the goods. -/
theorem of_same (hstanding : Standing leads ends N N')
    (hbacklog : ∀ n, backlog (N'.node n) = backlog (N.node n))
    (hshown : N'.shown.flatMap worth = N.shown.flatMap worth) :
    Advance worth backlog leads ends ns [] N N' where
  standing := hstanding
  others n _ := hbacklog n
  order := by rw [hshown, backlogs_congr fun n _ => hbacklog n, List.append_nil]

end Advance

/-- Calls one after the other, each of which is an advance. -/
theorem calls_advance {call : ι × μ → Network ι κ β → Network ι κ β} (calls : List (ι × μ))
    (hcall : ∀ c ∈ calls, ∀ N', Standing leads ends N N' →
      Advance worth backlog leads ends ns (load c.2) N' (call c N')) :
    Advance worth backlog leads ends ns (calls.flatMap fun c => load c.2) N
      (calls.foldl (fun N c => call c N) N) := by
  induction calls using List.reverseRecOn with
  | nil => exact .refl ns N
  | append_singleton calls c ih =>
    have hcalls := ih fun d hd => hcall d (List.mem_append_left _ hd)
    rw [List.foldl_concat, List.flatMap_append, List.flatMap_singleton]
    exact hcalls.trans
      (hcall c (List.mem_append_right _ List.mem_cons_self) _ hcalls.standing)

variable [DecidableEq ι]

theorem standing_deliver (h : Orderly react load worth backlog leads ends) (c : ι × μ)
    (N : Network ι κ β) : Standing leads ends N (N.deliver react c) := by
  intro n
  simp only [Network.deliver]
  by_cases hn : n = c.1
  · subst hn
    rw [Function.update_self]
    exact ⟨h.same_leads _ _ _, h.same_ends _ _ _⟩
  · rw [Function.update_of_ne hn]
    exact ⟨fun _ ht => ht, fun ht => ht⟩

/-- **No goods.** A call without goods changes nothing about the goods, wherever it goes. -/
theorem cascade_advance_of_load_eq_nil (h : Orderly react load worth backlog leads ends) {f : ℕ}
    {c : ι × μ} (hc : load c.2 = []) (N : Network ι κ β) :
    Advance worth backlog leads ends ns [] N (cascade react f c N) := by
  refine cascade_invariant (Q := Advance worth backlog leads ends ns [] N)
    (I := fun c => load c.2 = []) (fun c N' hc hN' => ?_) hc (.refl ns N)
  obtain ⟨hsends, hshows, hbacklog⟩ := h.idle c.1 c.2 (N'.node c.1) hc
  refine ⟨hN'.trans (.of_same (standing_deliver h c N') (fun n => ?_) ?_), hsends⟩
  · simp only [Network.deliver]
    by_cases hn : n = c.1
    · subst hn
      rw [Function.update_self, hbacklog]
    · rw [Function.update_of_ne hn]
  · rw [Network.deliver, List.flatMap_append, hshows, List.append_nil]

/-- The first object of the lane is called, and has not yet called the next. What it calls it
    with is not counted. -/
theorem advance_head (h : Orderly react load worth backlog leads ends) {c : ι × μ}
    (hlane : Lane leads ends N.node (c.1 :: ns)) (hnodup : (c.1 :: ns).Nodup)
    (hcalls : Advance worth backlog leads ends ns
      ((react c.1 c.2 (N.node c.1)).sends.flatMap fun c => load c.2) (N.deliver react c) N') :
    Advance worth backlog leads ends (c.1 :: ns) (load c.2) N N' := by
  have hnot : c.1 ∉ ns := (List.nodup_cons.mp hnodup).1
  have hdeliver : ∀ n, n ≠ c.1 → (N.deliver react c).node n = N.node n :=
    fun n hn => Function.update_of_ne hn _ _
  refine ⟨(standing_deliver h c N).trans hcalls.standing, fun n hn => ?_, ?_⟩
  · obtain ⟨hne, hns⟩ := not_or.mp fun h => hn (List.mem_cons.mpr h)
    rw [hcalls.others n hns, hdeliver n hne]
  · have hrest : backlogs backlog (N.deliver react c).node ns = backlogs backlog N.node ns :=
      backlogs_congr fun n hn => by rw [hdeliver n fun heq => hnot (heq ▸ hn)]
    have hself : backlog (N'.node c.1) = backlog (react c.1 c.2 (N.node c.1)).state := by
      rw [hcalls.others c.1 hnot]
      simp only [Network.deliver, Function.update_self]
    -- either the object shows nothing, or it is the last one
    have hcomm : (react c.1 c.2 (N.node c.1)).shows.flatMap worth ++ backlogs backlog N.node ns =
        backlogs backlog N.node ns ++ (react c.1 c.2 (N.node c.1)).shows.flatMap worth := by
      cases ns with
      | nil => rw [backlogs_nil, List.append_nil, List.nil_append]
      | cons t ns => rw [h.shows _ _ _ t hlane.1, List.append_nil, List.nil_append]
    have hhead : (∃ t, leads (N.node c.1) t) ∨ ends (N.node c.1) := by
      cases ns with
      | nil => exact Or.inr hlane
      | cons t ns => exact Or.inl ⟨t, hlane.1⟩
    have hmoved := hcalls.order
    rw [hrest, Network.deliver, List.flatMap_append] at hmoved
    rw [backlogs_cons, backlogs_cons, hself, ← List.append_assoc]
    refine (hmoved.append_right _).trans ?_
    have horder := (h.order c.1 c.2 (N.node c.1) hhead).append_left
      (N.shown.flatMap worth ++ backlogs backlog N.node ns)
    simp only [List.append_assoc] at horder ⊢
    rw [← List.append_assoc (List.flatMap worth _) (backlogs backlog N.node ns), hcomm]
    simpa only [List.append_assoc] using horder

/-- **Advance.** A call at the beginning of a lane takes its goods into the lane, and whatever
    it moves stays in order. -/
theorem cascade_advance (h : Orderly react load worth backlog leads ends) {f : ℕ} {c : ι × μ}
    (hlane : Lane leads ends N.node (c.1 :: ns)) (hnodup : (c.1 :: ns).Nodup) :
    Advance worth backlog leads ends (c.1 :: ns) (load c.2) N (cascade react f c N) := by
  induction f generalizing c N ns with
  | zero =>
    refine ⟨.refl N, fun _ _ => rfl, ?_⟩
    exact List.sublist_append_left _ _
  | succ f ih =>
    rw [cascade_succ]
    refine advance_head h hlane hnodup (calls_advance _ fun c' hc' N' hN' => ?_)
    by_cases hload : load c'.2 = []
    · rw [hload]
      exact cascade_advance_of_load_eq_nil h hload N'
    · cases ns with
      | nil => exact absurd (h.stops c.1 c.2 _ hlane c' hc') hload
      | cons t ns =>
        obtain ⟨n, m⟩ := c'
        obtain rfl : n = t := (h.sends c.1 c.2 _ t hlane.1 _ hc').resolve_left hload
        have hstanding := (standing_deliver h c N).trans hN'
        exact ih (c := (n, m)) (hstanding.lane hlane.2) (List.nodup_cons.mp hnodup).2

end WfcIo.Foundation

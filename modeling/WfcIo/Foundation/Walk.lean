import WfcIo.Foundation.Cascade

/-!
# The journal of a cascade

Objects that show each call they get leave a journal of the cascade. If what an object passes on
does not depend on what calls change, the journal is known before the cascade begins: it is a
walk over the calls that a call leads to, each followed at once by those that it leads to.

## Main definitions

- `walk` — what an element leads to, in order
- `Network.deliver` — an object is called, and has not yet called the others
- `Recorded` — every call shows itself, and changes nothing that decides what is passed on

## Main results

- `mem_walk_iff` — a walk meets what can be reached, if it has fuel enough
- `cascade_invariant` — what one call preserves, a cascade preserves
- `cascade_journal` — the journal of a cascade is a walk
-/

namespace WfcIo.Foundation

universe u v w x y z

/-! ### Walks -/

section Walk

variable {α : Type u}

/-- What an element leads to: itself, and then for each of the next elements all that it leads
    to. The fuel bounds the depth. -/
def walk (next : α → List α) : ℕ → α → List α
  | 0, _ => []
  | f + 1, a => a :: (next a).flatMap (walk next f)

/-- Every step goes down. -/
def Falls (next : α → List α) (rank : α → ℕ) : Prop := ∀ a, ∀ b ∈ next a, rank b < rank a

variable {next : α → List α} {rank : α → ℕ} {a b : α} {f : ℕ}

theorem mem_walk_succ : b ∈ walk next (f + 1) a ↔ b = a ∨ ∃ c ∈ next a, b ∈ walk next f c := by
  rw [walk, List.mem_cons, List.mem_flatMap]

/-- What every step keeps is kept along a walk. -/
theorem walk_invariant {I : α → Prop} (hstep : ∀ a, ∀ b ∈ next a, I a → I b) (ha : I a)
    (hb : b ∈ walk next f a) : I b := by
  induction f generalizing a with
  | zero => cases hb
  | succ f ih =>
    obtain rfl | ⟨c, hc, hb⟩ := mem_walk_succ.mp hb
    · exact ha
    · exact ih (hstep a c hc ha) hb

/-- A walk with fuel enough meets everything that can be reached. -/
theorem mem_walk_iff (hfalls : Falls next rank) (hf : rank a < f) :
    b ∈ walk next f a ↔ Relation.ReflTransGen (fun a b => b ∈ next a) a b := by
  constructor
  · intro h
    exact walk_invariant (I := Relation.ReflTransGen (fun a b => b ∈ next a) a)
      (fun c d hd hc => hc.tail hd) .refl h
  · intro h
    induction f generalizing a with
    | zero => omega
    | succ f ih =>
      rw [mem_walk_succ]
      obtain rfl | ⟨c, hc, hreach⟩ := Relation.ReflTransGen.cases_head_iff.mp h
      · exact Or.inl rfl
      · have hlt := hfalls a c hc
        exact Or.inr ⟨c, hc, ih (by omega) hreach⟩

/-- A walk over images is the image of a walk. -/
theorem walk_map {β : Type v} {next' : β → List β} {g : β → α} {I : β → Prop}
    (hnext : ∀ b, I b → next (g b) = (next' b).map g) (hI : ∀ b, I b → ∀ c ∈ next' b, I c) {b : β}
    (hb : I b) : walk next f (g b) = (walk next' f b).map g := by
  induction f generalizing b with
  | zero => rfl
  | succ f ih =>
    rw [walk, walk, hnext b hb, List.map_cons, List.flatMap_map, List.map_flatMap]
    exact congrArg (g b :: ·) (List.flatMap_congr fun c hc => ih (hI b hb c hc))

end Walk

/-! ### Journals -/

variable {ι : Type u} {κ : Type v} {μ : Type w} {β : Type x} {ξ : Type y} {γ : Type z}

/-- What a call leads to next. -/
def nextCalls (passes : κ → ξ → List (ι × ξ)) (node : ι → κ) (c : ι × ξ) : List (ι × ξ) :=
  passes (node c.1) c.2

/-- What an object passes on, and what it marks of what it shows, depends on the outline of the
    call and on nothing that a call changes. -/
structure Marked (react : ι → μ → κ → Reaction ι κ μ β) (outline : μ → ξ)
    (passes : κ → ξ → List (ι × ξ)) (marks : ι → κ → ξ → List γ) (entry : β → Option γ) : Prop where
  sends : ∀ n m k, (react n m k).sends.map (Prod.map id outline) = passes k (outline m)
  shows : ∀ n m k, (react n m k).shows.filterMap entry = marks n k (outline m)
  same_passes : ∀ n m k, passes (react n m k).state = passes k
  same_marks : ∀ i n m k, marks i (react n m k).state = marks i k

/-- An object that is called shows the outline of the call once, maybe among other things, and
    what it passes on depends on nothing that a call changes. -/
structure Recorded (react : ι → μ → κ → Reaction ι κ μ β) (outline : μ → ξ)
    (passes : κ → ξ → List (ι × ξ)) (entry : β → Option (ι × ξ)) : Prop where
  sends : ∀ n m k, (react n m k).sends.map (Prod.map id outline) = passes k (outline m)
  shows : ∀ n m k, (react n m k).shows.filterMap entry = [(n, outline m)]
  same_passes : ∀ n m k, passes (react n m k).state = passes k

/-- What all objects mark of a call. -/
def markCall (marks : ι → κ → ξ → List γ) (node : ι → κ) (c : ι × ξ) : List γ :=
  marks c.1 (node c.1) c.2

variable {react : ι → μ → κ → Reaction ι κ μ β} {outline : μ → ξ}
  {passes : κ → ξ → List (ι × ξ)} {marks : ι → κ → ξ → List γ} {entry : β → Option γ}
  {N : Network ι κ β}

theorem Recorded.marked {entry : β → Option (ι × ξ)} (h : Recorded react outline passes entry) :
    Marked react outline passes (fun n _ z => [(n, z)]) entry where
  sends := h.sends
  shows := h.shows
  same_passes := h.same_passes
  same_marks _ _ _ _ := rfl

/-- Links that go down make calls go down. -/
theorem falls_nextCalls {links : κ → Set ι} {rank : ι → ℕ} (hrank : Ranked links rank N)
    (hlinked : ∀ k z c, c ∈ passes k z → c.1 ∈ links k) :
    Falls (nextCalls passes N.node) (fun c => rank c.1) :=
  fun c c' hc' => hrank c.1 c'.1 (hlinked _ _ _ hc')

/-- Calls one after the other, each of which leaves the entries `w` of its outline. -/
theorem calls_journal {call : ι × μ → Network ι κ β → Network ι κ β} {I : Network ι κ β → Prop}
    {w : ι × ξ → List γ} (calls : List (ι × μ))
    (hcall : ∀ c N, I N → I (call c N) ∧
      (call c N).shown.filterMap entry = N.shown.filterMap entry ++ w (c.1, outline c.2))
    (hN : I N) :
    I (calls.foldl (fun N c => call c N) N) ∧
      (calls.foldl (fun N c => call c N) N).shown.filterMap entry =
        N.shown.filterMap entry ++ (calls.map (Prod.map id outline)).flatMap w := by
  induction calls generalizing N with
  | nil => exact ⟨hN, by simp⟩
  | cons c calls ih =>
    obtain ⟨hsame, hshown⟩ := hcall c N hN
    obtain ⟨hsame', hshown'⟩ := ih hsame
    refine ⟨hsame', ?_⟩
    rw [List.foldl_cons, hshown', hshown, List.map_cons, List.flatMap_cons, List.append_assoc]
    rfl

variable [DecidableEq ι]

/-- The object `c.1` is called, and has not yet called the others. -/
def Network.deliver (react : ι → μ → κ → Reaction ι κ μ β) (c : ι × μ) (N : Network ι κ β) :
    Network ι κ β :=
  { node := Function.update N.node c.1 (react c.1 c.2 (N.node c.1)).state
    shown := N.shown ++ (react c.1 c.2 (N.node c.1)).shows }

theorem cascade_succ (f : ℕ) (c : ι × μ) (N : Network ι κ β) :
    cascade react (f + 1) c N =
      (react c.1 c.2 (N.node c.1)).sends.foldl (fun N c' => cascade react f c' N)
        (N.deliver react c) := rfl

/-- **Invariants.** What one call preserves, if it is a call of a kind that leads to such calls
    only, a cascade of calls of this kind preserves. -/
theorem cascade_invariant {Q : Network ι κ β → Prop} {I : ι × μ → Prop}
    (hstep : ∀ c N, I c → Q N →
      Q (N.deliver react c) ∧ ∀ c' ∈ (react c.1 c.2 (N.node c.1)).sends, I c')
    {f : ℕ} {c : ι × μ} (hc : I c) (hN : Q N) : Q (cascade react f c N) := by
  induction f generalizing c N with
  | zero => exact hN
  | succ f ih =>
    obtain ⟨hdeliver, hsends⟩ := hstep c N hc hN
    rw [cascade_succ]
    exact List.foldlRecOn _ _ hdeliver fun N' hN' c' hc' => ih (hsends c' hc') hN'

/-- **Marks.** A cascade changes nothing that decides what is passed on, and marks what the calls
    of the walk mark that the first one leads to. -/
theorem cascade_marks (h : Marked react outline passes marks entry) (f : ℕ) (c : ι × μ)
    (N : Network ι κ β) :
    (nextCalls passes (cascade react f c N).node = nextCalls passes N.node ∧
      markCall marks (cascade react f c N).node = markCall marks N.node) ∧
      (cascade react f c N).shown.filterMap entry =
        N.shown.filterMap entry ++ (walk (nextCalls passes N.node) f (c.1, outline c.2)).flatMap
          (markCall marks N.node) := by
  induction f generalizing c N with
  | zero => exact ⟨⟨rfl, rfl⟩, by simp [cascade, walk]⟩
  | succ f ih =>
    let I : Network ι κ β → Prop := fun N' =>
      nextCalls passes N'.node = nextCalls passes N.node ∧
        markCall marks N'.node = markCall marks N.node
    have hdeliver : I (N.deliver react c) := by
      constructor
      all_goals
        funext c'
        simp only [nextCalls, markCall, Network.deliver]
        by_cases hc' : c'.1 = c.1
        · rw [hc', Function.update_self]
          simp only [h.same_passes, h.same_marks]
        · rw [Function.update_of_ne hc']
    have hcall : ∀ c' N', I N' → I (cascade react f c' N') ∧
        (cascade react f c' N').shown.filterMap entry = N'.shown.filterMap entry ++
          (walk (nextCalls passes N.node) f (c'.1, outline c'.2)).flatMap
            (markCall marks N.node) := by
      intro c' N' hN'
      have hih := ih c' N'
      rwa [hN'.1, hN'.2] at hih
    obtain ⟨hsame, hshown⟩ := calls_journal (I := I)
      (w := fun c => (walk (nextCalls passes N.node) f c).flatMap (markCall marks N.node))
      (react c.1 c.2 (N.node c.1)).sends hcall hdeliver
    refine ⟨hsame, hshown.trans ?_⟩
    rw [Network.deliver, List.filterMap_append, h.shows, h.sends, walk, List.append_assoc,
      List.flatMap_cons, List.flatMap_assoc]
    rfl

/-- **Journals.** The journal of a cascade is the walk over the calls that the first one leads
    to. -/
theorem cascade_journal {entry : β → Option (ι × ξ)} (h : Recorded react outline passes entry)
    (f : ℕ) (c : ι × μ) (N : Network ι κ β) :
    nextCalls passes (cascade react f c N).node = nextCalls passes N.node ∧
      (cascade react f c N).shown.filterMap entry =
        N.shown.filterMap entry ++ walk (nextCalls passes N.node) f (c.1, outline c.2) := by
  obtain ⟨⟨hnext, _⟩, hshown⟩ := cascade_marks h.marked f c N
  have hself : ∀ l : List (ι × ξ), l.flatMap (markCall (fun n _ z => [(n, z)]) N.node) = l :=
    fun l => List.flatMap_singleton' l
  exact ⟨hnext, by rw [hshown, hself]⟩

end WfcIo.Foundation

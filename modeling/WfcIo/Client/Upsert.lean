import WfcIo.Client.Pools
import WfcIo.Foundation.Interleave

/-!
# Concurrent calls of `upsert_`

`upsert_` looks an id up in one section under the read lock and creates and inserts an
adapter in a second section under the write lock, without looking again. Two calls of
one id that both find nothing both create an adapter; `std::map::insert` keeps the first.

## Main definitions

- `Upsert` — the local states of a call of `upsert_`, and `Upsert.sections`
- `Upsert.Agree` — all calls of an id have returned the adapter stored under it
- `Upsert.Unmapped` — no call creates an adapter for an id that has one

## Main results

- `Upsert.agree_iff` — the calls agree exactly in the interleavings that are `Unmapped`
-/

namespace WfcIo

open Foundation

/-- The local state of a call of `upsert_`: before its first section, before its
    second, or returned with an adapter. -/
inductive Upsert
  | lookup (id : IoId)
  | create (id : IoId)
  | returned (id : IoId) (cli : ℕ)
  deriving DecidableEq

namespace Upsert

/-- The next section of a call. -/
def step (m : ClientTcpMap) : Upsert → ClientTcpMap × Upsert
  | lookup id =>
    match m.find id with
    | some cli => (m, returned id cli)
    | none => (m, create id)
  | create id =>
    let r := m.createAndInsert id
    (r.1, returned id r.2)
  | returned id cli => (m, returned id cli)

def sections : Sections ClientTcpMap IoId Upsert := ⟨lookup, step⟩

/-- A call of `upsert_` that is not interrupted is the function `upsert_`. -/
theorem alone_eq (m : ClientTcpMap) (id : IoId) :
    sections.alone 2 m (lookup id) = ((m.upsert_ id).1, returned id (m.upsert_ id).2) := by
  simp only [ClientTcpMap.upsert_]
  cases hfind : m.find id with
  | some cli => simp [Sections.alone, sections, step, hfind]
  | none => simp [Sections.alone, sections, step, hfind]

/-- So is one that has the map for itself while it runs. -/
theorem serial_eq {c : Config ClientTcpMap Upsert} {i : ℕ} (hi : c.calls i = none) (id : IoId) :
    (run sections.next c (.enter i id :: List.replicate 2 (.resume i))).shared =
      (c.shared.upsert_ id).1 := by
  rw [sections.run_alone 2 hi id]
  exact congrArg Prod.fst (alone_eq c.shared id)

/-- The calls of an id that have returned agree on an adapter, and it is the one stored
    in `_clients` under the id. -/
structure Agree (c : Config ClientTcpMap Upsert) : Prop where
  same : ∀ i j id x y, c.calls i = some (returned id x) → c.calls j = some (returned id y) →
    x = y
  stored : ∀ i id x, c.calls i = some (returned id x) → c.shared.find id = some x

/-- If the move is the second section of a call, the id is not in the map. -/
def Unmapped (c : Config ClientTcpMap Upsert) (a : Move IoId) : Prop :=
  ∀ i id, a = .resume i → c.calls i = some (create id) → c.shared.find id = none

/-- What a returned call relies on. -/
def Own (m : ClientTcpMap) : Upsert → Prop
  | returned id cli => m.find id = some cli
  | _ => True

variable {m : ClientTcpMap} {id k : IoId} {x : ℕ}

/-- The first section writes nothing. -/
@[simp] theorem step_lookup_fst (m : ClientTcpMap) (id : IoId) : (step m (lookup id)).1 = m := by
  simp only [step]
  cases m.find id <;> rfl

/-- Creating an adapter never changes what is stored under an id. -/
theorem find_createAndInsert_of_mapped (h : m.find k = some x) (id : IoId) :
    (m.createAndInsert id).1.find k = some x := by
  cases hfind : m.find id with
  | some y =>
    rw [ClientTcpMap.createAndInsert_of_mapped hfind]
    show m.create_.1.clients.find k = some x
    rw [ClientTcpMap.create_clients]
    exact h
  | none =>
    have hne : k ≠ id := by
      rintro rfl
      rw [hfind] at h
      cases h
    rw [ClientTcpMap.find_createAndInsert hfind, if_neg hne]
    exact h

theorem find_step (h : m.find k = some x) (t : Upsert) : (step m t).1.find k = some x := by
  cases t with
  | lookup id =>
    rw [step_lookup_fst]
    exact h
  | create id => exact find_createAndInsert_of_mapped h id
  | returned id cli => exact h

theorem owned_step (h : m.Owned) (t : Upsert) : (step m t).1.Owned := by
  cases t with
  | lookup id =>
    rw [step_lookup_fst]
    exact h
  | create id => exact h.createAndInsert id
  | returned id cli => exact h

theorem sound : sections.Sound Unmapped ClientTcpMap.Owned Own where
  enter := fun _ _ _ => trivial
  section_ := by
    intro c i t hi hG hI hOwn
    refine ⟨owned_step hI t, ?_⟩
    show Own (step c.shared t).1 (step c.shared t).2
    cases t with
    | lookup id =>
      cases hfind : c.shared.find id with
      | some cli =>
        simp only [step, hfind]
        exact hfind
      | none =>
        simp only [step, hfind]
        trivial
    | create id =>
      show (c.shared.createAndInsert id).1.find id = some (c.shared.createAndInsert id).2
      rw [ClientTcpMap.find_createAndInsert (hG i id rfl hi), if_pos rfl]
      rfl
    | returned id cli => exact hOwn
  stable := by
    intro c i t j u _ _ _ _ _ _ hu
    cases u with
    | returned id cli => exact find_step hu t
    | lookup id => trivial
    | create id => trivial

/-- A call that creates an adapter for an id that has one returns another adapter. -/
theorem created_ne (h : m.Owned) (hfind : m.find id = some x) : (m.createAndInsert id).2 ≠ x := by
  rintro rfl
  obtain ⟨_, hout⟩ := h.create
  refine hout (Or.inl ⟨id, ?_⟩)
  show m.create_.1.clients.find id = some m.create_.2
  rw [ClientTcpMap.create_clients]
  exact hfind

/-- A returned call that disagrees with the map does so for good. -/
theorem disagree_run {c : Config ClientTcpMap Upsert} {i : ℕ} {y : ℕ}
    (hi : c.calls i = some (returned id x)) (hfind : c.shared.find id = some y)
    (as : List (Move IoId)) :
    (run sections.next c as).calls i = some (returned id x) ∧
      (run sections.next c as).shared.find id = some y := by
  refine run_invariant (I := fun c : Config ClientTcpMap Upsert =>
    c.calls i = some (returned id x) ∧ c.shared.find id = some y) ?_ ⟨hi, hfind⟩ as
  rintro c a ⟨hi, hfind⟩
  obtain heq | ⟨j, op, rfl, hj, heq⟩ | ⟨j, t, rfl, hj, heq⟩ := sections.next_cases c a
  · rw [heq]
    exact ⟨hi, hfind⟩
  · rw [heq]
    exact ⟨calls_update_of_none hj hi, hfind⟩
  · rw [heq]
    refine ⟨?_, find_step hfind t⟩
    by_cases hij : i = j
    · subst hij
      rw [hi] at hj
      cases hj
      exact Function.update_self _ _ _
    · exact (Function.update_of_ne hij _ _).trans hi

/-- **Agreement of `upsert_`.** From every state the map can reach, the calls of an
    interleaving agree exactly if no call enters its second section with its id already
    in the map. -/
theorem agree_iff (refuses : ℕ → Bool) (acts : List ClientTcpMap.Act) (as : List (Move IoId)) :
    let c := Config.idle (run ClientTcpMap.step (ClientTcpMap.init refuses) acts)
    Agree (run sections.next c as) ↔ Along sections.next Unmapped c as := by
  intro c
  have hgood : Sections.Good ClientTcpMap.Owned Own c :=
    .idle (ClientTcpMap.run_inv refuses acts).toOwned
  constructor
  · intro hagree
    by_contra hnot
    obtain ⟨pre, a, post, rfl, hpre, ha⟩ := exists_first_of_not_along hnot
    simp only [Unmapped] at ha
    push Not at ha
    obtain ⟨i, id, rfl, hi, hne⟩ := ha
    obtain ⟨y, hy⟩ := Option.ne_none_iff_exists'.mp hne
    -- the call returns an adapter that is not the one stored, and stays so
    have hown := (sound.run_good hgood hpre).shared
    obtain ⟨c', hc'⟩ : ∃ c', c' = run sections.next c pre := ⟨_, rfl⟩
    rw [← hc'] at hi hy hown
    have hnext : sections.next c' (.resume i) =
        { shared := (c'.shared.createAndInsert id).1
          calls := Function.update c'.calls i
            (some (returned id (c'.shared.createAndInsert id).2)) } := by
      simp only [Sections.next, hi]
      rfl
    have hret : (sections.next c' (.resume i)).calls i =
        some (returned id (c'.shared.createAndInsert id).2) := by
      rw [hnext]
      exact Function.update_self _ _ _
    have hmap : (sections.next c' (.resume i)).shared.find id = some y := by
      rw [hnext]
      exact find_createAndInsert_of_mapped hy id
    obtain ⟨hret', hmap'⟩ := disagree_run hret hmap post
    have hrun : run sections.next c (pre ++ .resume i :: post) =
        run sections.next (sections.next c' (.resume i)) post := by
      rw [run_append, run_cons, hc']
    rw [hrun] at hagree
    have hxy := Option.some.inj ((hagree.stored i id _ hret').symm.trans hmap')
    exact created_ne hown hy hxy
  · intro halong
    have hrun := sound.run_good hgood halong
    have hstored : ∀ i id x, (run sections.next c as).calls i = some (returned id x) →
        (run sections.next c as).shared.find id = some x := fun i id x hi => hrun.calls i _ hi
    refine ⟨fun i j id x y hi hj => ?_, hstored⟩
    exact Option.some.inj ((hstored i id x hi).symm.trans (hstored j id y hj))

/-- Two calls of one id that both look before either inserts do not agree. -/
theorem upserts_disagree :
    ¬ ∀ (refuses : ℕ → Bool) (acts : List ClientTcpMap.Act) (as : List (Move IoId)),
      Agree (run sections.next
        (Config.idle (run ClientTcpMap.step (ClientTcpMap.init refuses) acts)) as) := by
  intro hall
  have h := hall (fun _ => false) [.reconfigureAndStart {}]
    [.enter 0 7, .enter 1 7, .resume 0, .resume 1, .resume 0, .resume 1]
  exact absurd (h.same 0 1 7 1 2 (by decide) (by decide)) (by decide)

end Upsert

end WfcIo

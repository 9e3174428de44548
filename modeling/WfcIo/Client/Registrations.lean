import WfcIo.Foundation.History
import WfcIo.Client.Pools

/-!
# Which ids are in the map

`perform_io` gives an adapter to an id that `reg_io` has never named, or that
`unreg_io` has already taken out. An id is in `_clients` exactly if a call has served it
and it has not been unregistered, nor the map stopped, since.

## Main results

- `ClientTcpMap.mapped_step` — what one step does to the set of mapped ids
- `ClientTcpMap.mapped_iff` — the mapped ids in terms of the calls of a run
- `ClientTcpMap.mapped_after_unreg_iff` — when an id is mapped although it unregistered
-/

namespace WfcIo

open Foundation

namespace ClientTcpMap

variable {m : ClientTcpMap} {id : IoId}

theorem upsert_mapped_iff (k : IoId) :
    (m.upsert_ k).1.find id ≠ none ↔ k = id ∨ m.find id ≠ none := by
  simp only [upsert_]
  cases hfind : m.find k with
  | some cli =>
    refine ⟨Or.inr, fun h => h.elim ?_ fun h => h⟩
    rintro rfl
    rw [hfind]
    exact Option.some_ne_none cli
  | none =>
    show (m.createAndInsert k).1.find id ≠ none ↔ _
    rw [find_createAndInsert hfind]
    by_cases hk : id = k
    · rw [if_pos hk]
      exact iff_of_true (Option.some_ne_none _) (Or.inl hk.symm)
    · rw [if_neg hk]
      exact ⟨Or.inr, fun h => h.elim (fun h => absurd h.symm hk) fun h => h⟩

theorem unregIo_mapped_iff (hinv : m.Inv) (k : IoId) :
    (m.unregIo k).find id ≠ none ↔ m.find id ≠ none ∧ k ≠ id := by
  obtain ⟨hidle, heq⟩ | ⟨cli, _, _, hu⟩ := m.unregIo_spec k
  · -- `k` is not in the map then, stopped or not
    have hnone : m.find k = none := by
      obtain hstop | hnone := hidle
      · by_contra hne
        obtain ⟨cli, hcli⟩ := Option.ne_none_iff_exists'.mp hne
        exact hinv.stopped hstop cli (Or.inl ⟨k, hcli⟩)
      · exact hnone
    rw [heq]
    exact ⟨fun h => ⟨h, fun hk => h (hk ▸ hnone)⟩, fun h => h.1⟩
  · rw [hu.find]
    by_cases hk : id = k
    · rw [if_pos hk]
      exact iff_of_false (fun h => h rfl) fun h => h.2 hk.symm
    · rw [if_neg hk]
      exact ⟨fun h => ⟨h, Ne.symm hk⟩, fun h => h.1⟩

/-- The calls that take an id out of the map. -/
def Act.Removes (id : IoId) : Act → Prop
  | .unregIo k => k = id
  | .stop => True
  | _ => False

/-- An id is mapped after a step if the step serves it, or if it was mapped and the step
    does not remove it. -/
theorem mapped_step (hinv : m.Inv) (a : Act) :
    (m.step a).find id ≠ none ↔
      a.Serves id ∧ m.stopFlag = false ∨ m.find id ≠ none ∧ ¬ a.Removes id := by
  have hquiet : m.quiet.Inv := hinv.with_io _
  -- the actions that neither serve an id nor remove one
  have hsame : ∀ {a : Act}, ¬ a.Serves id → ¬ a.Removes id →
      ((m.step a).find id ≠ none ↔ m.find id ≠ none) → ((m.step a).find id ≠ none ↔
        a.Serves id ∧ m.stopFlag = false ∨ m.find id ≠ none ∧ ¬ a.Removes id) := by
    intro a hserves hremoves hfind
    rw [hfind]
    tauto
  have hevent : ∀ cli f, (m.quiet.event cli f).find id ≠ none ↔ m.find id ≠ none := by
    intro cli f
    simp only [event]
    split <;> rfl
  -- the two calls that serve the id `k`
  have hserve : ∀ k cli f, (if m.stopFlag then m.quiet
      else (m.quiet.upsert_ k).1.call cli f).find id ≠ none ↔
        k = id ∧ m.stopFlag = false ∨ m.find id ≠ none ∧ ¬ False := by
    intro k cli f
    split
    · next hstop =>
      rw [hstop]
      show m.find id ≠ none ↔ _
      tauto
    · next hstop =>
      have hupsert : (m.quiet.upsert_ k).1.find id ≠ none ↔ k = id ∨ m.find id ≠ none :=
        upsert_mapped_iff k
      have hrun : m.stopFlag = false := Bool.not_eq_true _ ▸ hstop
      show (m.quiet.upsert_ k).1.find id ≠ none ↔ _
      rw [hupsert, hrun]
      tauto
  cases a with
  | reconfigureAndStart opt =>
    refine hsame (fun h => h) (fun h => h) ?_
    have hr := m.quiet.reconfigureAndStart_spec opt
    show (m.quiet.reconfigureAndStart opt).clients.find id ≠ none ↔ m.clients.find id ≠ none
    rw [ne_eq, ne_eq, OrderedMap.find_eq_none_iff, OrderedMap.find_eq_none_iff, hr.keys]
    rfl
  | stop =>
    obtain ⟨io, _, heq⟩ := m.quiet.stop_spec
    have hnone : (m.step .stop).find id = none := by
      show m.quiet.stop.find id = none
      rw [heq]
      rfl
    rw [hnone]
    exact iff_of_false (fun h => h rfl) fun h => h.elim (fun h => h.1) fun h => h.2 trivial
  | regIo k itf => exact hserve k _ _
  | performIo d k handler snd =>
    show (m.quiet.performIo d k handler snd).find id ≠ none ↔ _
    rw [performIo_eq]
    exact hserve k _ _
  | unregIo k =>
    refine (unregIo_mapped_iff hquiet k).trans ?_
    show m.find id ≠ none ∧ k ≠ id ↔ False ∧ _ ∨ m.find id ≠ none ∧ ¬ k = id
    tauto
  | release s => exact hsame (fun h => h) (fun h => h) Iff.rfl
  | runTask n => exact hsame (fun h => h) (fun h => h) Iff.rfl
  | input cli d out => exact hsame (fun h => h) (fun h => h) (hevent cli _)
  | connected cli => exact hsame (fun h => h) (fun h => h) (hevent cli _)
  | closed cli => exact hsame (fun h => h) (fun h => h) (hevent cli _)
  | counterReply cli d snd => exact hsame (fun h => h) (fun h => h) (hevent cli _)

/-! ### Runs -/

/-- **Which ids are mapped**: in every state a run reaches, those that a call has served
    while the map was running and that no call has removed since. -/
theorem mapped_iff (refuses : ℕ → Bool) (id : IoId) (acts : List Act) :
    (run step (init refuses) acts).find id ≠ none ↔
      ∃ pre a post, acts = pre ++ a :: post ∧ a.Serves id ∧
        (run step (init refuses) pre).stopFlag = false ∧ ∀ b ∈ post, ¬ b.Removes id := by
  have hflag := @flag_iff _ _ step acts (fun m => m.find id ≠ none)
    (fun m a => a.Serves id ∧ m.stopFlag = false) (Act.Removes id) (init refuses) (fun h => h rfl)
    fun pre a _ => mapped_step (run_inv refuses pre) a
  simpa only [and_assoc] using hflag

/-- **Late data brings an id back.** Where the last registration call of an id is
    `unreg_io`, the id is mapped exactly if a `perform_io` of that id has come after it,
    while the map was running and with no `stop` since. -/
theorem mapped_after_unreg_iff (refuses : ℕ → Bool) (id : IoId) (pre post : List Act)
    (hreg : ∀ itf, .regIo id itf ∉ post) (hunreg : .unregIo id ∉ post) :
    (run step (init refuses) (pre ++ .unregIo id :: post)).find id ≠ none ↔
      ∃ p d handler snd q, post = p ++ .performIo d id handler snd :: q ∧
        (run step (init refuses) (pre ++ .unregIo id :: p)).stopFlag = false ∧ .stop ∉ q := by
  rw [mapped_iff]
  constructor
  · rintro ⟨p, a, q, h, ha, hrun, hq⟩
    -- the serving call cannot come before the `unreg_io`, which removes the id
    obtain ⟨l, rfl, hl⟩ | ⟨l, rfl, hl⟩ := List.append_eq_append_iff.mp h
    · cases l with
      | nil =>
        cases hl
        exact ha.elim
      | cons b l =>
        cases hl
        have hmem : a ∈ l ++ a :: q := List.mem_append_right _ List.mem_cons_self
        cases a with
        | performIo d k handler snd =>
          obtain rfl : k = id := ha
          refine ⟨l, d, handler, snd, q, rfl, hrun, fun hstop => hq _ hstop trivial⟩
        | regIo k itf =>
          obtain rfl : k = id := ha
          exact absurd hmem (hreg itf)
        | _ => exact ha.elim
    · cases l with
      | nil =>
        cases hl
        exact ha.elim
      | cons b l =>
        cases hl
        exact absurd rfl (hq (.unregIo id) (List.mem_append_right _ List.mem_cons_self))
  · rintro ⟨p, d, handler, snd, q, rfl, hrun, hstop⟩
    refine ⟨pre ++ .unregIo id :: p, .performIo d id handler snd, q, by simp, rfl, hrun, ?_⟩
    intro b hb hremoves
    cases b with
    | unregIo k =>
      obtain rfl : k = id := hremoves
      exact hunreg (List.mem_append_right _ (List.mem_cons_of_mem _ hb))
    | stop => exact hstop hb
    | _ => exact hremoves.elim

/-- The run registers 7, unregisters it and then carries out a late `perform_io`. -/
theorem mapped_after_unreg_seven :
    (run step (init fun _ => false)
      ([.reconfigureAndStart {}, .regIo 7 (some 5)] ++ .unregIo 7 ::
        [.performIo none 7 none .rejected])).find 7 ≠ none :=
  (mapped_after_unreg_iff (fun _ => false) 7 _ [.performIo none 7 none .rejected]
    (by simp) (by simp)).mpr
    ⟨[], none, none, .rejected, [], rfl, by decide, List.not_mem_nil⟩

/-- A mapping can outlive its source. -/
theorem mapping_outlives :
    ¬ ∀ (refuses : ℕ → Bool) (acts pre post : List Act) (id : IoId),
      acts = pre ++ .unregIo id :: post → (∀ itf, .regIo id itf ∉ post) → .unregIo id ∉ post →
      (run step (init refuses) acts).find id = none := by
  intro hnone
  have h := hnone (fun _ => false) _ [.reconfigureAndStart {}, .regIo 7 (some 5)]
    [.performIo none 7 none .rejected] 7 rfl (by simp) (by simp)
  exact absurd h (by decide)

end ClientTcpMap

end WfcIo

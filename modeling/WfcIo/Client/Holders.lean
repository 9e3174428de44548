import WfcIo.Client.Pools

/-!
# The holder ids of the adapters

`_holder_id` of an adapter against the keys of `_clients`. An adapter in a pool has the
holder id 0, and one that is mapped under an id has 0 or that id, so `reg_io` of an
adapter never meets another source. `reconfigure_and_start` gives every id a new adapter
and leaves that one without a holder.

## Main definitions

- `ClientTcpMap.Matched` — the holder ids match the map
- `ClientTcpMap.Registered` — the last registration of an id in a run
- `ClientTcpMap.Rebound` — an id is served by an adapter bound to its holder

## Main results

- `ClientTcpMap.holders_match` — the holder ids match in every reachable state
- `ClientTcpMap.registration_lost` — no registration survives `reconfigure_and_start`
-/

namespace WfcIo

open Foundation

/-- No report of several sources is added on the way from `io` to `io'`. -/
def Io.Sane (io io' : Io) : Prop := ∀ o ∈ io'.outcalls, o.several = true → o ∈ io.outcalls

namespace Io.Sane

variable {io io' io'' : Io}

theorem refl (io : Io) : Io.Sane io io := fun _ ho _ => ho

theorem trans (h : Io.Sane io io') (h' : Io.Sane io' io'') : Io.Sane io io'' :=
  fun o ho hs => h o (h' o ho hs) hs

theorem of_logs {P : Outcall → Prop} (h : Io.Logs P io io')
    (hP : ∀ o, P o → o.Plain) : Io.Sane io io' := by
  intro o ho hs
  obtain ho | ho := h.mem_outcalls ho
  · exact ho
  · rw [hP o ho] at hs
    cases hs

theorem of_plain (h : Io.Logs Outcall.Plain io io') : Io.Sane io io' := of_logs h fun _ ho => ho

theorem of_lifecycle (h : Io.Logs Outcall.Lifecycle io io') : Io.Sane io io' :=
  of_logs h fun _ => Outcall.Lifecycle.plain

theorem post (io : Io) (t : Task) : Io.Sane io (io.post t) := by
  intro o ho hs
  obtain ho | ho := List.mem_append.mp ho
  · exact ho
  · rw [List.mem_singleton.mp ho] at hs
    cases hs

end Io.Sane

namespace ClientTcpAdapter

variable (a : ClientTcpAdapter) (io : Io)

theorem regIo_sane (ioId : IoId) (itf : Option Source)
    (h : a.holderId = 0 ∨ a.holderId = ioId) : Io.Sane io (a.regIo ioId itf io).2 := by
  refine .of_logs (a.regIo_logs io ioId itf) fun o ho => ?_
  by_contra hs
  obtain ⟨hpos, hne⟩ := ho (Bool.not_eq_false _ ▸ hs)
  obtain h | h := h
  · exact hpos.ne' h
  · exact hne h

theorem closed_sane : Io.Sane io (a.closed io) := by
  obtain h | ⟨holder, _, h⟩ := a.closed_logs io
  · exact .of_plain h
  · exact (Io.Sane.post io _).trans (.of_plain h)

/-- Without a handler `perform_io` binds nothing, unless the id is 0. -/
theorem counterReply_holderId (d : DataPtr) (snd : Sending) :
    (a.counterReply d snd io).1.holderId = a.holderId := by
  obtain heq | ⟨_, heq⟩ := a.counterReply_cases io d snd
  · rw [heq]
  · rw [heq, performIo_holderId, ite_self]

end ClientTcpAdapter

theorem Io.runTask_sane (n : ℕ) (io : Io) : Io.Sane io (io.runTask n) := by
  simp only [Io.runTask]
  split
  · exact .refl io
  · next t _ =>
    have hsane : Io.Sane { io with tasks := io.tasks.eraseIdx n } _ :=
      .of_lifecycle (t.holder.unregIo_logs _ t.cli)
    exact hsane

namespace ClientTcpMap

/-- Every mapped adapter has the holder id 0 or the id it is mapped under, every pooled
    one has 0. -/
structure Matched (m : ClientTcpMap) : Prop where
  mapped : ∀ {id x}, m.find id = some x →
    (m.adapters x).holderId = 0 ∨ (m.adapters x).holderId = id
  pooled : ∀ {x}, x ∈ m.pooled → (m.adapters x).holderId = 0

namespace Matched

variable {m : ClientTcpMap} {id : IoId} {cli : ℕ}

/-- A call that leaves the holder id of its adapter alone. -/
theorem call (h : m.Matched) {f : ClientTcpAdapter → Io → ClientTcpAdapter × Io}
    (hf : ∀ a io, (f a io).1.holderId = a.holderId) : (m.call cli f).Matched := by
  have hsame : ∀ x, ((m.call cli f).adapters x).holderId = (m.adapters x).holderId := by
    intro x
    simp only [ClientTcpMap.call, Function.update_apply]
    split_ifs with hx
    · rw [hf, hx]
    · rfl
  exact ⟨fun hk => by rw [hsame]; exact h.mapped hk, fun hx => by rw [hsame]; exact h.pooled hx⟩

/-- A call of the adapter that serves `id` may also set the holder id to `id` or to 0. -/
theorem call_of_find (h : m.Matched) (howned : m.Owned) (hfind : m.find id = some cli)
    {f : ClientTcpAdapter → Io → ClientTcpAdapter × Io}
    (hf : (f (m.adapters cli) m.io).1.holderId = 0 ∨ (f (m.adapters cli) m.io).1.holderId = id) :
    (m.call cli f).Matched := by
  refine ⟨fun {k x} hk => ?_, fun {x} hx => ?_⟩
  · simp only [ClientTcpMap.call, Function.update_apply]
    split_ifs with hx
    · have hkid : k = id := howned.exclusive.leased_inj hk (hx ▸ hfind)
      rw [hkid]
      exact hf
    · exact h.mapped hk
  · simp only [ClientTcpMap.call, Function.update_apply]
    split_ifs with hcli
    · exact absurd (Multiset.mem_coe.mpr (hcli ▸ hx)) (howned.exclusive.not_idle hfind)
    · exact h.pooled hx

theorem createAndInsert (h : m.Matched) (howned : m.Owned) (hfind : m.find id = none) :
    (m.createAndInsert id).1.Matched := by
  -- what comes from a pool is as it was there, a new adapter is unbound
  have hblank : ∀ x, x ∈ m.ledger.idle ∨ m.builds ∧ x = m.nextId →
      (m.create_.1.adapters x).holderId = 0 := by
    rintro x (hx | ⟨hb, rfl⟩)
    · rw [create_adapters_of_lt (howned.allocated x (Or.inr hx))]
      exact h.pooled (Multiset.mem_coe.mp hx)
    · rw [create_adapters_nextId hb]
      rfl
  refine ⟨fun {k x} hk => ?_, fun {x} hx => ?_⟩
  · rw [find_createAndInsert hfind] at hk
    split_ifs at hk with hkid
    · cases hk
      exact Or.inl (hblank _ m.create_mem_idle)
    · show (m.create_.1.adapters x).holderId = 0 ∨ (m.create_.1.adapters x).holderId = k
      rw [create_adapters_of_lt (howned.allocated x (Or.inl ⟨k, hk⟩))]
      exact h.mapped hk
  · exact hblank x (mem_idle_of_create (Multiset.mem_coe.mpr hx))

theorem upsert (h : m.Matched) (howned : m.Owned) (id : IoId) : (m.upsert_ id).1.Matched := by
  simp only [upsert_]
  cases hfind : m.find id with
  | some cli => exact h
  | none => exact h.createAndInsert howned hfind

theorem with_io (h : m.Matched) (io : Io) : Matched { m with io } := ⟨h.mapped, h.pooled⟩

/-- The adapter of the id may go back to the pool: `unreg_io` leaves its holder id 0
    whether that was the id or 0 before. -/
theorem of_unregistered (h : m.Matched) (hfind : m.find id = some cli) {m' : ClientTcpMap}
    (hu : Unregistered id cli m m') : m'.Matched := by
  have hzero : ((m.adapters cli).unregIo id).holderId = 0 := by
    rw [ClientTcpAdapter.unregIo_holderId]
    obtain h0 | hid := h.mapped hfind
    · rw [h0, ite_self]
    · rw [if_pos hid]
  have hcli : (m'.adapters cli).holderId = 0 := by
    obtain ⟨_, _, heq⟩ | ⟨_, _, heq⟩ := hu.recycled
    · rw [heq, hzero]
    · rw [heq]
      exact hzero
  refine ⟨fun {k x} hk => ?_, fun {x} hx => ?_⟩
  · rw [hu.find] at hk
    split_ifs at hk
    by_cases hx : x = cli
    · rw [hx]
      exact Or.inl hcli
    · rw [hu.adapters x hx]
      exact h.mapped hk
  · by_cases hxc : x = cli
    · rw [hxc]
      exact hcli
    · rw [hu.adapters x hxc]
      exact h.pooled ((hu.mem_pooled hx).resolve_right hxc)

theorem of_not_held (h : ∀ x, ¬ m.ledger.Held x) : m.Matched :=
  ⟨fun {k x} hk => absurd (Or.inl ⟨k, hk⟩) (h x),
    fun {x} hx => absurd (Or.inr (Multiset.mem_coe.mpr hx)) (h x)⟩

/-- `reconfigure_and_start` leaves nothing but unbound adapters. -/
theorem of_reconfigured {cfg : ClientTcpConfig} {m' : ClientTcpMap}
    (h : Reconfigured cfg m m') : m'.Matched := by
  have hfresh : ∀ x, m'.ledger.Held x → (m'.adapters x).holderId = 0 := by
    intro x hx
    rw [h.fresh_of_held hx]
    rfl
  exact ⟨fun {k _} hk => Or.inl (hfresh _ (Or.inl ⟨k, hk⟩)),
    fun hx => hfresh _ (Or.inr (Multiset.mem_coe.mpr hx))⟩

end Matched

/-! ### One step -/

/-- A step that keeps the holder ids matched and reports no second source. -/
structure Sane (m m' : ClientTcpMap) : Prop where
  io : Io.Sane m.io m'.io
  matched : m'.Matched

section Step

variable {m : ClientTcpMap}

theorem regIo_sane (hinv : m.Inv) (h : m.Matched) (id : IoId) (itf : Option Source) :
    Sane m (m.regIo id itf) := by
  simp only [regIo]
  split
  · exact ⟨.refl _, h⟩
  · have hserved := h.upsert hinv.toOwned id
    have hfind := m.find_upsert id
    refine ⟨(Io.Sane.of_lifecycle (m.upsert_logs id)).trans ?_, ?_⟩
    · exact ClientTcpAdapter.regIo_sane _ _ id itf (hserved.mapped hfind)
    · exact hserved.call_of_find (hinv.toOwned.upsert id) hfind (Or.inr rfl)

theorem performIo_sane (hinv : m.Inv) (h : m.Matched) (d : DataPtr) (id : IoId)
    (handler : Option Handler) (snd : Sending) : Sane m (m.performIo d id handler snd) := by
  rw [performIo_eq]
  split
  · exact ⟨.refl _, h⟩
  · have hserved := h.upsert hinv.toOwned id
    have hfind := m.find_upsert id
    refine ⟨(Io.Sane.of_lifecycle (m.upsert_logs id)).trans ?_, ?_⟩
    · exact .of_plain (ClientTcpAdapter.performIo_logs _ _ d id handler snd)
    · refine hserved.call_of_find (hinv.toOwned.upsert id) hfind ?_
      rw [ClientTcpAdapter.performIo_holderId]
      split
      · exact Or.inr rfl
      · exact hserved.mapped hfind

theorem unregIo_sane (h : m.Matched) (id : IoId) : Sane m (m.unregIo id) := by
  obtain ⟨_, heq⟩ | ⟨cli, _, hfind, hu⟩ := m.unregIo_spec id
  · rw [heq]
    exact ⟨.refl _, h⟩
  · exact ⟨.of_lifecycle hu.io, h.of_unregistered hfind hu⟩

theorem reconfigureAndStart_sane (opt : ClientTcpConfig) : Sane m (m.reconfigureAndStart opt) :=
  have hr := m.reconfigureAndStart_spec opt
  ⟨.of_lifecycle hr.io, .of_reconfigured hr⟩

theorem stop_sane (hinv : m.Inv) : Sane m m.stop := by
  have hmatched : m.stop.Matched := .of_not_held (hinv.stop.stopped m.stop_fields.1)
  obtain ⟨io, hio, heq⟩ := m.stop_spec
  exact ⟨by rw [heq]; exact .of_lifecycle hio, hmatched⟩

theorem event_sane (h : m.Matched) (cli : ℕ) {f : ClientTcpAdapter → Io → ClientTcpAdapter × Io}
    (hid : ∀ a io, (f a io).1.holderId = a.holderId) (hio : ∀ a io, Io.Sane io (f a io).2) :
    Sane m (m.event cli f) := by
  simp only [event]
  split
  · exact ⟨hio _ _, h.call hid⟩
  · exact ⟨.refl _, h⟩

theorem exec_sane (hinv : m.Inv) (h : m.Matched) (a : Act) : Sane m (m.exec a) := by
  cases a with
  | reconfigureAndStart opt => exact reconfigureAndStart_sane opt
  | stop => exact stop_sane hinv
  | regIo id itf => exact regIo_sane hinv h id itf
  | unregIo id => exact unregIo_sane h id
  | performIo d id handler snd => exact performIo_sane hinv h d id handler snd
  | release s => exact ⟨fun _ ho _ => ho, h.with_io _⟩
  | input cli d out =>
    exact event_sane h cli (fun _ _ => rfl) fun a io => .of_plain (a.input_logs io d out)
  | connected cli =>
    exact event_sane h cli (fun _ _ => rfl) fun a io => .of_plain (a.connected_logs io)
  | closed cli => exact event_sane h cli (fun _ _ => rfl) fun a io => a.closed_sane io
  | runTask n => exact ⟨m.io.runTask_sane n, h.with_io _⟩
  | counterReply cli d snd =>
    exact event_sane h cli (fun a io => a.counterReply_holderId io d snd)
      fun a io => .of_plain (a.counterReply_logs io d snd)

end Step

/-! ### Runs -/

theorem run_matched (refuses : ℕ → Bool) (acts : List Act) :
    (run step (init refuses) acts).Inv ∧ (run step (init refuses) acts).Matched := by
  have hinit : (init refuses).Matched := ⟨fun hk => (by cases hk), fun hx => (by cases hx)⟩
  refine run_invariant (I := fun m : ClientTcpMap => m.Inv ∧ m.Matched) ?_
    ⟨inv_init refuses, hinit⟩ acts
  rintro m a ⟨hinv, h⟩
  exact ⟨step_inv hinv a, (exec_sane (hinv.with_io _) (h.with_io _) a).matched⟩

/-- **Holder ids match the map.** In every state a run reaches, a mapped adapter has the
    holder id 0 or the id it is mapped under and a pooled one has 0; so no step reports
    that several sources use one adapter. -/
theorem holders_match (refuses : ℕ → Bool) (acts : List Act) :
    let m := run step (init refuses) acts
    (∀ id cli, m.find id = some cli →
      (m.adapters cli).holderId = 0 ∨ (m.adapters cli).holderId = id) ∧
    (∀ cli ∈ m.startupPool ++ m.secondaryPool ++ m.primaryPool,
      (m.adapters cli).holderId = 0) ∧
    ∀ a holderId ioId, .severalSources holderId ioId ∉ (m.step a).io.outcalls := by
  intro m
  obtain ⟨hinv, h⟩ := run_matched refuses acts
  refine ⟨fun _ _ hk => h.mapped hk, fun _ hx => h.pooled hx, fun a i j hmem => ?_⟩
  have hsane : Sane m.quiet (m.quiet.exec a) := exec_sane (hinv.with_io _) (h.with_io _) a
  -- a step begins with no calls recorded
  have hbefore : Outcall.severalSources i j ∈ m.quiet.io.outcalls := hsane.io _ hmem rfl
  cases hbefore

/-! ### Registrations and `reconfigure_and_start` -/

/-- The run has registered `id` with the source `h`, and not registered it anew or
    unregistered it since. -/
def Registered (id : IoId) (h : Source) (acts : List Act) : Prop :=
  ∃ pre post, acts = pre ++ .regIo id (some h) :: post ∧
    (∀ itf, .regIo id itf ∉ post) ∧ .unregIo id ∉ post

/-- The id is served by an adapter that is bound to `h`, and `h` has just been told the
    number of this adapter. -/
def Rebound (id : IoId) (h : Source) (m : ClientTcpMap) : Prop :=
  ∃ cli, m.find id = some cli ∧ (m.adapters cli).getHolder m.io = some (.source h) ∧
    (m.adapters cli).holderId = id ∧ .regIo h cli ∈ m.io.outcalls

/-- **Registrations are lost.** After `reconfigure_and_start` every id in the map is
    served by an adapter without a holder and with the holder id 0, which no source has
    been told of; so no registration is carried over, whoever holds it. -/
theorem registration_lost (refuses : ℕ → Bool) (acts : List Act) (opt : ClientTcpConfig)
    (id : IoId) (hmap : (run step (init refuses) acts).find id ≠ none) :
    let m := (run step (init refuses) acts).step (.reconfigureAndStart opt)
    (∃ cli, m.find id = some cli ∧ (m.adapters cli).getHolder m.io = none ∧
      (m.adapters cli).holderId = 0 ∧ ∀ h, .regIo h cli ∉ m.io.outcalls) ∧
    ∀ h, ¬ Rebound id h m := by
  intro m
  have hr : Reconfigured opt (run step (init refuses) acts).quiet m :=
    reconfigureAndStart_spec opt _
  have hsome : m.find id ≠ none := by
    intro hnone
    refine hmap (OrderedMap.find_eq_none_iff.mpr ?_)
    have hkeys : id ∉ m.clients.keys := OrderedMap.find_eq_none_iff.mp hnone
    rwa [hr.keys] at hkeys
  obtain ⟨cli, hcli⟩ := Option.ne_none_iff_exists'.mp hsome
  have hfresh : m.adapters cli = fresh opt cli := hr.fresh_of_held (Or.inl ⟨id, hcli⟩)
  have htold : ∀ h, .regIo h cli ∉ m.io.outcalls := by
    intro h hin
    obtain hin | hlife := hr.io.mem_outcalls hin
    · cases hin
    · exact hlife
  refine ⟨⟨cli, hcli, by rw [hfresh]; rfl, by rw [hfresh]; rfl, htold⟩, ?_⟩
  rintro h ⟨cli', hcli', _, _, hin⟩
  rw [hcli] at hcli'
  cases hcli'
  exact htold h hin

/-- A source registered as 7 is no longer bound after a restart. -/
theorem registration_lost_seven :
    (run step (init fun _ => false)
      [.reconfigureAndStart {}, .regIo 7 (some 5)]).find 7 ≠ none ∧
    ¬ Rebound 7 5 ((run step (init fun _ => false)
      [.reconfigureAndStart {}, .regIo 7 (some 5)]).step (.reconfigureAndStart {})) :=
  ⟨by decide, (registration_lost (fun _ => false) _ {} 7 (by decide)).2 5⟩

/-- Not every live registration is there after a restart. -/
theorem registration_not_kept :
    ¬ ∀ (refuses : ℕ → Bool) (acts : List Act) (opt : ClientTcpConfig) (id : IoId) (h : Source),
      Registered id h acts → h ∉ (run step (init refuses) acts).io.released →
      (run step (init refuses) acts).find id ≠ none →
      Rebound id h ((run step (init refuses) acts).step (.reconfigureAndStart opt)) := by
  intro hkept
  have hreg : Registered 7 5 [.reconfigureAndStart {}, .regIo 7 (some 5)] :=
    ⟨[.reconfigureAndStart {}], [], rfl, fun _ => List.not_mem_nil, List.not_mem_nil⟩
  obtain ⟨cli, hcli, _, hid, _⟩ := hkept (fun _ => false) _ {} 7 5 hreg (by decide) (by decide)
  have htwo : cli = 2 := Option.some.inj (hcli.symm.trans (by decide))
  subst htwo
  exact absurd hid (by decide)

end ClientTcpMap

end WfcIo

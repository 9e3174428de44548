import WfcIo.Client.Isolation

/-!
# Answers without a secondary pool

With `secondary_pool` 0, which is the default, `unreg_io` drops the adapter of the id, and
no adapter is ever used for a second one. All calls of all runs are then clean.

## Main definitions

- `Net.Unpooled` — every adapter in use has seen one id only

## Main results

- `Net.clean_of_no_pool` — without a secondary pool every call is clean
-/

namespace WfcIo

open Foundation

namespace Net

variable {n : Net} {id : IoId}

/-- No adapter is used for a second id: those in the pools are new, and those in the map
    have the requests and a holder of their id only. -/
structure Unpooled (n : Net) : Prop where
  inv : n.map.Inv
  running : n.map.stopFlag = false
  secondaryPool : n.map.opt.secondaryPool = 0
  allocated : ∀ r ∈ n.inflight, r.cli < n.map.nextId
  idle : ∀ x ∈ n.map.pooled, (n.map.adapters x).holder = none ∧ ∀ r ∈ n.inflight, r.cli ≠ x
  allowed : ∀ id x, n.map.find id = some x → ∀ k,
    (n.map.adapters x).getHolder n.map.io = some k → n.Allowed id k
  owner : ∀ id r, n.map.find id = some r.cli → r ∈ n.inflight → r.owner = id

namespace Unpooled

/-- An adapter without a holder. -/
theorem getHolder_eq_none {a : ClientTcpAdapter} {io : Io} (h : a.holder = none) :
    a.getHolder io = none := by
  simp only [ClientTcpAdapter.getHolder]
  rw [h]
  rfl

theorem quiet (h : n.Unpooled) : Unpooled { n with map := n.map.quiet } :=
  ⟨h.inv.with_io _, h.running, h.secondaryPool, h.allocated, h.idle, h.allowed, h.owner⟩

theorem createAndInsert (h : n.Unpooled) (hfind : n.map.find id = none) :
    Unpooled { n with map := (n.map.createAndInsert id).1 } := by
  have howned := h.inv.toOwned
  have hlogs := n.map.create_logs
  have hsteady := ClientTcpMap.Steady.createAndInsert n.map id
  -- what comes from a pool or is new has no holder and no requests
  have hblank : ∀ x, x ∈ n.map.ledger.idle ∨ n.map.builds ∧ x = n.map.nextId →
      (n.map.create_.1.adapters x).holder = none ∧ ∀ r ∈ n.inflight, r.cli ≠ x := by
    rintro x (hx | ⟨hb, rfl⟩)
    · rw [ClientTcpMap.create_adapters_of_lt (howned.allocated x (Or.inr hx))]
      exact h.idle x (Multiset.mem_coe.mp hx)
    · rw [ClientTcpMap.create_adapters_nextId hb]
      exact ⟨rfl, fun r hr => ne_of_lt (h.allocated r hr)⟩
  have hcli := n.map.create_mem_idle
  refine ⟨h.inv.createAndInsert h.running hfind, hsteady.stopFlag.trans h.running, ?_, ?_, ?_,
    ?_, ?_⟩
  · exact (congrArg ClientTcpConfig.secondaryPool hsteady.opt).trans h.secondaryPool
  · exact fun r hr => (h.allocated r hr).trans_le hsteady.nextId
  · exact fun x hx => hblank x (ClientTcpMap.mem_idle_of_create (Multiset.mem_coe.mpr hx))
  · intro k x hk holder hget
    rw [ClientTcpMap.find_createAndInsert hfind] at hk
    have hget' : (n.map.create_.1.adapters x).getHolder n.map.io = some holder := by
      rw [← ClientTcpAdapter.getHolder_of_logs hlogs]
      exact hget
    split_ifs at hk with hkid
    · cases hk
      rw [getHolder_eq_none (hblank _ hcli).1] at hget'
      cases hget'
    · rw [ClientTcpMap.create_adapters_of_lt (howned.allocated x (Or.inl ⟨k, hk⟩))] at hget'
      exact h.allowed k x hk holder hget'
  · intro k r hk hr
    rw [ClientTcpMap.find_createAndInsert hfind] at hk
    split_ifs at hk with hkid
    · exact absurd (Option.some.inj hk).symm ((hblank _ hcli).2 r hr)
    · exact h.owner k r hk hr

theorem upsert (h : n.Unpooled) (id : IoId) :
    Unpooled { n with map := (n.map.upsert_ id).1 } := by
  simp only [ClientTcpMap.upsert_]
  cases hfind : n.map.find id with
  | some cli => exact h
  | none => exact h.createAndInsert hfind

/-- A call of the adapter that serves `id` may send requests of `id` and bind a holder of
    it. -/
theorem call (h : n.Unpooled) {x : ℕ} (hfind : n.map.find id = some x)
    {f : ClientTcpAdapter → Io → ClientTcpAdapter × Io} (hf : ClientTcpAdapter.Tame f)
    {P : Outcall → Prop} (hlogs : ∀ a io, Io.Logs P io (f a io).2) {n' : Net}
    (hmap : n'.map = n.map.call x f)
    (hinflight : ∀ r ∈ n'.inflight, r ∈ n.inflight ∨ r.cli = x ∧ r.owner = id)
    (hkeep : ∀ k, k ≠ id → ∀ holder, n.Allowed k holder → n'.Allowed k holder)
    (hholder : ∀ k, (f (n.map.adapters x) n.map.io).1.getHolder n.map.io = some k →
      n'.Allowed id k) : n'.Unpooled := by
  have howned := h.inv.toOwned
  have hadapters : ∀ y, y ≠ x → (n.map.call x f).adapters y = n.map.adapters y := fun y hy =>
    Function.update_of_ne hy _ _
  have hget : ∀ y, ((n.map.call x f).adapters y).getHolder (n.map.call x f).io =
      ((n.map.call x f).adapters y).getHolder n.map.io := fun y =>
    ClientTcpAdapter.getHolder_of_logs (hlogs _ _)
  refine ⟨?_, ?_, ?_, ?_, ?_, ?_, ?_⟩
  · rw [hmap]
    exact h.inv.call x hf
  · rw [hmap]
    exact h.running
  · rw [hmap]
    exact h.secondaryPool
  · intro r hr
    rw [hmap]
    obtain hr | ⟨hcli, _⟩ := hinflight r hr
    · exact h.allocated r hr
    · rw [hcli]
      exact howned.allocated x (Or.inl ⟨id, hfind⟩)
  · intro y hy
    rw [hmap] at hy ⊢
    have hne : y ≠ x := by
      rintro rfl
      exact howned.exclusive.not_idle hfind (Multiset.mem_coe.mpr hy)
    obtain ⟨hnone, hrequests⟩ := h.idle y hy
    refine ⟨by rw [hadapters y hne]; exact hnone, fun r hr heq => ?_⟩
    obtain hr | ⟨hcli, _⟩ := hinflight r hr
    · exact hrequests r hr heq
    · exact hne (heq.symm.trans hcli)
  · intro k y hk holder hholds
    rw [hmap, hget] at hholds
    rw [hmap] at hk
    by_cases hy : y = x
    · subst hy
      have hkid : k = id := howned.exclusive.leased_inj hk hfind
      rw [hkid]
      refine hholder holder ?_
      rw [← hholds]
      simp only [ClientTcpMap.call, Function.update_self]
    · rw [hadapters y hy] at hholds
      have hkid : k ≠ id := by
        rintro rfl
        exact hy (Option.some.inj (hk.symm.trans hfind))
      exact hkeep k hkid holder (h.allowed k y hk holder hholds)
  · intro k r hk hr
    rw [hmap] at hk
    obtain hr | ⟨hcli, howner⟩ := hinflight r hr
    · exact h.owner k r hk hr
    · rw [howner]
      exact howned.exclusive.leased_inj hfind (hcli ▸ hk)

/-- There is no room in the pool, so `unreg_io` drops the adapter. -/
theorem unregIo (h : n.Unpooled) (id : IoId) :
    Unpooled { n.note (.unregIo id) with map := n.map.unregIo id } := by
  -- the other ids are registered as before
  have hnote : ∀ {k holder}, k ≠ id → n.Allowed k holder →
      (n.note (.unregIo id)).Allowed k holder := fun hk hallowed =>
    allowed_note (fun heq => hk (Option.some.inj heq).symm) hallowed
  obtain ⟨hnone, heq⟩ | ⟨cli, hrun, hfind, hu⟩ := n.map.unregIo_spec id
  · have hfind : n.map.find id = none := hnone.resolve_left (ne_true_of_eq_false h.running)
    rw [heq]
    refine ⟨h.inv, h.running, h.secondaryPool, h.allocated, h.idle, fun k x hk holder hget => ?_,
      h.owner⟩
    refine hnote ?_ (h.allowed k x hk holder hget)
    rintro rfl
    cases hfind.symm.trans hk
  · have hexcl := h.inv.exclusive
    have hfound : ∀ k x, (n.map.unregIo id).find k = some x →
        n.map.find k = some x ∧ x ≠ cli := by
      intro k x hk
      rw [hu.find] at hk
      split_ifs at hk with hkid
      refine ⟨hk, ?_⟩
      rintro rfl
      exact hkid (hexcl.leased_inj hk hfind)
    have hpooled : ∀ x ∈ (n.map.unregIo id).pooled, x ∈ n.map.pooled := by
      intro x hx
      have hzero := h.secondaryPool
      obtain ⟨hroom, _⟩ | ⟨_, hpool, _⟩ := hu.recycled
      · omega
      · simp only [ClientTcpMap.pooled] at hx ⊢
        rwa [hu.startupPool, hu.primaryPool, hpool] at hx
    refine ⟨h.inv.unregIo id, hu.stopFlag.trans hrun, ?_, ?_, ?_, ?_, ?_⟩
    · exact (congrArg ClientTcpConfig.secondaryPool hu.opt).trans h.secondaryPool
    · exact fun r hr => hu.nextId ▸ h.allocated r hr
    · intro x hx
      have hidle := hpooled x hx
      have hne : x ≠ cli := by
        rintro rfl
        exact hexcl.not_idle hfind (Multiset.mem_coe.mpr hidle)
      show ((n.map.unregIo id).adapters x).holder = none ∧ _
      rw [hu.adapters x hne]
      exact h.idle x hidle
    · intro k x hk holder hget
      obtain ⟨hk', hne⟩ := hfound k x hk
      have hkid : k ≠ id := by
        rintro rfl
        exact hne (Option.some.inj (hk'.symm.trans hfind))
      refine hnote hkid (h.allowed k x hk' holder ?_)
      rw [← hu.adapters x hne, ← ClientTcpAdapter.getHolder_of_logs hu.io]
      exact hget
    · exact fun k r hk hr => h.owner k r (hfound k r.cli hk).1 hr

/-- Something happens outside that binds nothing, and perhaps a request is answered. -/
theorem with_io (h : n.Unpooled) (io : Io) {inflight : List Request}
    (hkeep : ∀ (a : ClientTcpAdapter) k, a.getHolder io = some k →
      a.getHolder n.map.io = some k) (hsub : ∀ r ∈ inflight, r ∈ n.inflight) :
    Unpooled { n with map := { n.map with io }, inflight } where
  inv := h.inv.with_io io
  running := h.running
  secondaryPool := h.secondaryPool
  allocated := fun r hr => h.allocated r (hsub r hr)
  idle := fun x hx => ⟨(h.idle x hx).1, fun r hr => (h.idle x hx).2 r (hsub r hr)⟩
  allowed := fun k x hk holder hget => h.allowed k x hk holder (hkeep _ _ hget)
  owner := fun k r hk hr => h.owner k r hk (hsub r hr)

theorem step (h : n.Unpooled) (act : Act) : (n.step act).Unpooled := by
  have hrun : n.map.quiet.stopFlag = false := h.running
  cases act with
  | regIo id itf =>
    have hnote : ∀ {k holder}, k ≠ id → n.Allowed k holder →
        (n.note (.regIo id itf)).Allowed k holder := fun hk hallowed =>
      allowed_note (fun heq => hk (Option.some.inj heq).symm) hallowed
    have hserved : Unpooled { n with map := (n.map.quiet.upsert_ id).1 } := h.quiet.upsert id
    have hlogs : ∀ (a : ClientTcpAdapter) io, Io.Logs (fun _ => True) io (a.regIo id itf io).2 :=
      fun a io => (a.regIo_logs io id itf).mono fun _ _ => trivial
    refine hserved.call (n.map.quiet.find_upsert id) (.regIo id itf) hlogs
      (ClientTcpMap.regIo_of_running hrun) ?_ (fun _ hk _ hallowed => hnote hk hallowed)
      fun k hk => ?_
    · exact fun r hr => Or.inl ((n.note_inflight (.regIo id itf)) ▸ hr)
    · obtain ⟨s, hs, rfl, _⟩ := ClientTcpAdapter.getHolder_regIo hk
      obtain rfl : itf = some s := hs
      exact Function.update_self id (some s) n.registered
  | performIo d id handler snd =>
    have hnote : ∀ {owner k}, n.Allowed owner k →
        (n.note (.performIo d id handler snd)).Allowed owner k := fun hk =>
      allowed_note (fun heq => by cases heq) hk
    have hserved : Unpooled { n with map := (n.map.quiet.upsert_ id).1 } := h.quiet.upsert id
    have hfind := n.map.quiet.find_upsert id
    refine hserved.call hfind (.performIo id d handler snd)
      (fun a io => a.performIo_logs io d id handler snd)
      (ClientTcpMap.performIo_of_running hrun) ?_
      (fun _ _ _ hk => hnote hk) fun k hk => ?_
    · intro r hr
      obtain hr | hr := List.mem_append.mp hr
      · exact Or.inl hr
      · obtain ⟨_, howner, hcli, _⟩ := request_of_performIo (h.inv.with_io _) rfl hr
        exact Or.inr ⟨hcli, howner⟩
    · have hdecide := ClientTcpAdapter.getHolder_performIo hk
      split at hdecide
      · rw [hdecide]
        intro f hf
        obtain rfl : handler = some f := hf
        exact List.mem_append_right _ (List.mem_singleton_self _)
      · exact hnote (hserved.allowed id _ hfind k hdecide)
  | unregIo id => exact h.quiet.unregIo id
  | release s =>
    exact h.with_io (n.map.quiet.io.release s)
      (fun a k hk => ClientTcpAdapter.getHolder_release hk) fun _ hr => hr
  | answer cli conn d out =>
    cases hold : n.oldest cli conn with
    | none =>
      simp only [Net.step, hold]
      exact h.quiet
    | some r =>
      rw [step_answer hold]
      have hsub : ∀ q ∈ n.inflight.erase r, q ∈ n.inflight := fun _ hq =>
        List.mem_of_mem_erase hq
      obtain ⟨io, heq, hio⟩ := n.map.quiet.event_input cli d out
      have hmap : n.map.step (.input cli d out) = { n.map with io } := heq
      rw [hmap]
      refine h.with_io io (fun a k hk => ?_) hsub
      rwa [ClientTcpAdapter.getHolder_of_logs hio] at hk

/-- The adapter of an open request serves the id of the request, if the map still owns it. -/
theorem find_owner (h : n.Unpooled) {r : Request} (hr : r ∈ n.inflight)
    (hown : r.cli ∈ n.map.clientList) : n.map.find r.owner = some r.cli := by
  obtain ⟨k, hk⟩ | hidle := ClientTcpMap.mem_clientList_iff.mp hown
  · have howner : r.owner = k := h.owner k r hk hr
    rw [howner]
    exact hk
  · exact absurd rfl ((h.idle r.cli (Multiset.mem_coe.mp hidle)).2 r hr)

/-- Where no adapter is used for a second id, every call is clean. -/
theorem clean (h : n.Unpooled) (act : Act) : n.Clean act := by
  cases act with
  | regIo id itf =>
    have hserved : Unpooled { n with map := (n.map.quiet.upsert_ id).1 } := h.quiet.upsert id
    refine ⟨fun s hs _ r hr hcli => ?_, fun r hr howner hkept => ?_⟩
    · obtain rfl : itf = some s := hs
      have howner : r.owner = id :=
        hserved.owner id r (hcli ▸ n.map.quiet.find_upsert id) hr
      rw [howner]
      exact Function.update_self id (some s) n.registered
    · -- the requests of the id are on the adapter that serves it
      obtain ⟨hown, hne⟩ := List.mem_filter.mp hkept
      have hfind : n.map.quiet.find id = some r.cli := howner ▸ h.find_owner hr hown
      refine absurd ?_ (of_decide_eq_true hne)
      simp only [ClientTcpMap.upsert_, hfind]
  | unregIo id =>
    intro r hr howner hkept
    have hfind : n.map.find id = some r.cli :=
      howner ▸ h.find_owner hr (ClientTcpMap.mem_of_mem_keptBy hkept)
    have hroom : ¬ n.map.secondaryPool.length < n.map.opt.secondaryPool := by
      rw [h.secondaryPool]
      exact Nat.not_lt_zero _
    rw [ClientTcpMap.keptBy, if_neg hroom] at hkept
    exact absurd hfind (of_decide_eq_true (List.mem_filter.mp hkept).2)
  | performIo d id handler snd =>
    have hserved : Unpooled { n with map := (n.map.quiet.upsert_ id).1 } := h.quiet.upsert id
    have hfind := n.map.quiet.find_upsert id
    unfold Clean
    dsimp only
    split
    · intro r hr hcli f hf
      rw [hserved.owner id r (hcli ▸ hfind) hr]
      obtain rfl : handler = some f := hf
      exact List.mem_append_right _ (List.mem_singleton_self _)
    · exact fun _ k hk =>
        allowed_note (fun heq => by cases heq) (hserved.allowed id _ hfind k hk)
  | _ => trivial

end Unpooled

/-- Without a secondary pool, which is the default, every call of every run is clean. -/
theorem clean_of_no_pool (refuses : ℕ → Bool) (opt : ClientTcpConfig)
    (hpool : opt.secondaryPool = 0) (acts : List Act) :
    Along step Clean (start refuses opt) acts := by
  have hr := ClientTcpMap.reconfigureAndStart_spec opt (ClientTcpMap.init refuses).quiet
  have hnone : ∀ x, (start refuses opt).map.ledger.Held x →
      ((start refuses opt).map.adapters x).holder = none := by
    intro x hx
    exact congrArg ClientTcpAdapter.holder (hr.fresh_of_held hx)
  have hstart : (start refuses opt).Unpooled := {
    inv := (clear_start refuses opt).inv
    running := hr.stopFlag
    secondaryPool := (congrArg ClientTcpConfig.secondaryPool hr.opt).trans hpool
    allocated := fun _ hr => by cases hr
    idle := fun x hx =>
      ⟨hnone x (Or.inr (Multiset.mem_coe.mpr hx)), fun _ hr => by cases hr⟩
    allowed := by
      intro id x hx k hk
      rw [Unpooled.getHolder_eq_none (hnone x (Or.inl ⟨id, hx⟩))] at hk
      cases hk
    owner := fun _ _ _ hr => by cases hr }
  exact along_of_invariant (G := fun _ _ => True) (I := Unpooled) (fun _ act _ h => h.step act)
    (fun _ act h => h.clean act) hstart (along_of_forall fun _ _ => trivial)

end Net

end WfcIo

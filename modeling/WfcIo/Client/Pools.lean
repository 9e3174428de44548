import WfcIo.Client.Lifecycle

/-!
# The pools over whole runs

The invariant of `client_tcp_map` that every call and event keeps, and what follows
from it for runs of any length: no adapter is in two places, the pools keep their
sizes, an id is served from the pools in their order, and exactly the adapters the map
owns are live.

## Main definitions

- `ClientTcpMap.Steady` — what a call of a running map leaves alone
- `ClientTcpMap.Inv` — the invariant
- `ClientTcpMap.Act.Serves` — the calls that give an id an adapter

## Main results

- `ClientTcpMap.run_inv` — the invariant holds in every reachable state
- `ClientTcpMap.pools_hold` — places, sizes and order of the pools
- `ClientTcpMap.live_iff_owned` — the live adapters are the owned ones
-/

namespace WfcIo

open Foundation

namespace ClientTcpMap

/-! ### What a call between `reconfigure_and_start` and `stop` leaves alone -/

/-- The options and the flags stay, the startup pool does not grow, and no number of an
    adapter is used again. -/
structure Steady (m m' : ClientTcpMap) : Prop where
  opt : m'.opt = m.opt
  startupFlag : m'.startupFlag = m.startupFlag
  stopFlag : m'.stopFlag = m.stopFlag
  startupPool : m'.startupPool.length ≤ m.startupPool.length
  nextId : m.nextId ≤ m'.nextId

namespace Steady

theorem refl (m : ClientTcpMap) : Steady m m := ⟨rfl, rfl, rfl, le_rfl, le_rfl⟩

theorem createAndInsert (m : ClientTcpMap) (id : IoId) : Steady m (m.createAndInsert id).1 := by
  obtain ⟨hflag, hstop⟩ := m.create_flags
  have hnext : m.nextId ≤ m.create_.1.nextId := by
    obtain ⟨_, _, hn, _⟩ | ⟨_, _, hn, _⟩ | ⟨_, _, hn, _⟩ := m.create_moves <;> omega
  exact ⟨m.create_opt, hflag, hstop, m.create_pools.2.2, hnext⟩

theorem upsert (m : ClientTcpMap) (id : IoId) : Steady m (m.upsert_ id).1 := by
  simp only [upsert_]
  cases m.find id with
  | some cli => exact refl m
  | none => exact createAndInsert m id

variable {m m' : ClientTcpMap}

theorem call (h : Steady m m') (cli : ℕ) (f : ClientTcpAdapter → Io → ClientTcpAdapter × Io) :
    Steady m (m'.call cli f) := ⟨h.opt, h.startupFlag, h.stopFlag, h.startupPool, h.nextId⟩

theorem of_quiet (h : Steady m.quiet m') : Steady m m' :=
  ⟨h.opt, h.startupFlag, h.stopFlag, h.startupPool, h.nextId⟩

theorem event (cli : ℕ) (f : ClientTcpAdapter → Io → ClientTcpAdapter × Io) :
    Steady m (m.event cli f) := by
  simp only [ClientTcpMap.event]
  split
  · exact (refl m).call cli f
  · exact refl m

theorem regIo (id : IoId) (itf : Option Source) : Steady m (m.regIo id itf) := by
  simp only [ClientTcpMap.regIo]
  split
  · exact refl m
  · exact (upsert m id).call _ _

theorem unregIo (id : IoId) : Steady m (m.unregIo id) := by
  obtain ⟨_, heq⟩ | ⟨cli, _, _, hu⟩ := m.unregIo_spec id
  · rw [heq]
    exact refl m
  · exact ⟨hu.opt, hu.startupFlag, hu.stopFlag, hu.startupPool ▸ le_rfl, hu.nextId.ge⟩

theorem performIo (d : DataPtr) (id : IoId) (handler : Option Handler) (snd : Sending) :
    Steady m (m.performIo d id handler snd) := by
  rw [performIo_eq]
  split
  · exact refl m
  · exact (upsert m id).call _ _

end Steady

/-! ### The invariant -/

/-- What every call and event keeps. After the first `reconfigure_and_start` the
    startup flag is down, so `primary_eq` speaks of a running map. -/
structure Inv (m : ClientTcpMap) : Prop extends Owned m where
  ident : ∀ x, (m.adapters x).id = x
  live : ∀ x, (m.adapters x).live = true ↔ m.ledger.Held x
  configured : ∀ x, m.ledger.Held x → (m.adapters x).options = some m.opt
  secondary_le : m.secondaryPool.length ≤ m.opt.secondaryPool
  primary_eq : m.startupFlag = false → m.stopFlag = false →
    m.primaryPool.length = m.opt.primaryPool
  stopped : m.stopFlag = true → ∀ x, ¬ m.ledger.Held x

theorem inv_init (refuses : ℕ → Bool) : (init refuses).Inv where
  exclusive :=
    { leased_inj := fun h => by cases h
      idle_nodup := Multiset.nodup_zero
      not_idle := fun h => by cases h }
  allocated := by rintro x (⟨id, h⟩ | h) <;> cases h
  ident := fun _ => rfl
  live := by
    intro x
    constructor
    · intro h
      cases h
    · rintro (⟨id, h⟩ | h) <;> cases h
  configured := by rintro x (⟨id, h⟩ | h) <;> cases h
  secondary_le := Nat.zero_le _
  primary_eq := fun h => by cases h
  stopped := fun h => by cases h

namespace Inv

variable {m : ClientTcpMap}

theorem with_io (h : m.Inv) (io : Io) : Inv { m with io } where
  exclusive := h.exclusive
  allocated := h.allocated
  ident := h.ident
  live := h.live
  configured := h.configured
  secondary_le := h.secondary_le
  primary_eq := h.primary_eq
  stopped := h.stopped

/-- An operation of an adapter that neither starts nor stops it. -/
theorem call (h : m.Inv) (cli : ℕ) {f : ClientTcpAdapter → Io → ClientTcpAdapter × Io}
    (hf : ClientTcpAdapter.Tame f) : (m.call cli f).Inv where
  exclusive := h.exclusive
  allocated := h.allocated
  ident := by
    intro x
    simp only [ClientTcpMap.call, Function.update_apply]
    split_ifs with hx
    · rw [hf.id, hx]
      exact h.ident cli
    · exact h.ident x
  live := by
    intro x
    show _ ↔ m.ledger.Held x
    rw [← h.live x]
    simp only [ClientTcpMap.call, Function.update_apply]
    split_ifs with hx
    · rw [hf.live, hx]
    · rfl
  configured := by
    intro x hheld
    have hopt := h.configured x hheld
    simp only [ClientTcpMap.call, Function.update_apply]
    split_ifs with hx
    · rw [hf.options, ← hx]
      exact hopt
    · exact hopt
  secondary_le := h.secondary_le
  primary_eq := h.primary_eq
  stopped := h.stopped

/-- What is left to show of a steady call of a running map. -/
theorem of_steady (h : m.Inv) (hstop : m.stopFlag = false) {m' : ClientTcpMap}
    (hsteady : Steady m m') (howned : m'.Owned) (hident : ∀ x, (m'.adapters x).id = x)
    (hlive : ∀ x, (m'.adapters x).live = true ↔ m'.ledger.Held x)
    (hconfigured : ∀ x, m'.ledger.Held x → (m'.adapters x).options = some m.opt)
    (hsecondary : m'.secondaryPool.length ≤ m.opt.secondaryPool)
    (hprimary : m'.primaryPool.length = m.primaryPool.length) : m'.Inv where
  toOwned := howned
  ident := hident
  live := hlive
  configured := by
    rw [hsteady.opt]
    exact hconfigured
  secondary_le := by
    rw [hsteady.opt]
    exact hsecondary
  primary_eq := fun hflag _ => by
    rw [hsteady.opt, hprimary]
    exact h.primary_eq (hsteady.startupFlag.symm.trans hflag) hstop
  stopped := fun hs => absurd (hstop.symm.trans (hsteady.stopFlag.symm.trans hs)) (by decide)

theorem createAndInsert (h : m.Inv) {id : IoId} (hstop : m.stopFlag = false)
    (hfind : m.find id = none) : (m.createAndInsert id).1.Inv := by
  obtain ⟨hprimary, hsecondary, _⟩ := m.create_pools
  refine h.of_steady hstop (.createAndInsert m id) (h.toOwned.createAndInsert id) ?_ ?_ ?_
    (hsecondary.trans h.secondary_le) hprimary
  · intro x
    show (m.create_.1.adapters x).id = x
    obtain ⟨_, hadapters⟩ | ⟨_, hadapters⟩ := m.create_adapters
    · rw [hadapters]
      exact h.ident x
    · rw [hadapters, Function.update_apply]
      split_ifs with hx
      · exact hx.symm
      · exact h.ident x
  · intro x
    show (m.create_.1.adapters x).live = true ↔ _
    rw [h.toOwned.held_createAndInsert hfind, ← h.live x]
    obtain ⟨hb, hadapters⟩ | ⟨hb, hadapters⟩ := m.create_adapters
    · simp only [hadapters, hb, false_and, or_false]
    · rw [hadapters, Function.update_apply]
      by_cases hx : x = m.nextId
      · simp only [hx, if_true, hb, and_self, or_true, iff_true]
        rfl
      · simp only [hx, if_false, and_false, or_false]
  · intro x hheld
    show (m.create_.1.adapters x).options = _
    rw [h.toOwned.held_createAndInsert hfind] at hheld
    obtain ⟨hb, hadapters⟩ | ⟨_, hadapters⟩ := m.create_adapters
    · rw [hadapters]
      exact h.configured x (hheld.resolve_right fun hnew => hb hnew.1)
    · rw [hadapters, Function.update_apply]
      split_ifs with hx
      · rfl
      · exact h.configured x (hheld.resolve_right fun hnew => hx hnew.2)

theorem upsert (h : m.Inv) (hstop : m.stopFlag = false) (id : IoId) : (m.upsert_ id).1.Inv := by
  simp only [upsert_]
  cases hfind : m.find id with
  | some cli => exact h
  | none => exact h.createAndInsert hstop hfind

theorem regIo (h : m.Inv) (id : IoId) (itf : Option Source) : (m.regIo id itf).Inv := by
  simp only [ClientTcpMap.regIo]
  split
  · exact h
  · next hstop =>
    exact (h.upsert (Bool.not_eq_true _ ▸ hstop) id).call _ (.regIo id itf)

theorem performIo (h : m.Inv) (d : DataPtr) (id : IoId) (handler : Option Handler)
    (snd : Sending) : (m.performIo d id handler snd).Inv := by
  rw [performIo_eq]
  split
  · exact h
  · next hstop =>
    exact (h.upsert (Bool.not_eq_true _ ▸ hstop) id).call _ (.performIo id d handler snd)

theorem unregIo (h : m.Inv) (id : IoId) : (m.unregIo id).Inv := by
  obtain ⟨_, heq⟩ | ⟨cli, hstop, hfind, hu⟩ := m.unregIo_spec id
  · rw [heq]
    exact h
  · have hsecondary : (m.unregIo id).secondaryPool.length ≤ m.opt.secondaryPool := by
      obtain ⟨hroom, hpool, _⟩ | ⟨_, hpool, _⟩ := hu.recycled
      · rw [hpool, List.length_append, List.length_singleton]
        exact hroom
      · rw [hpool]
        exact h.secondary_le
    have htame := ClientTcpAdapter.Tame.unregIo id
    have hcases := hu.held_cases h.toOwned hfind
    refine h.of_steady hstop (.unregIo id) (hu.owned h.toOwned hfind) (fun x => ?_) (fun x => ?_)
      (fun x hx => ?_) hsecondary (congrArg List.length hu.primaryPool)
    · by_cases hx : x = cli
      · obtain ⟨_, hcli⟩ | ⟨_, hcli⟩ := hcases
        · rw [hx, hcli]
          exact (htame.id _ m.io).trans (h.ident cli)
        · rw [hx, hcli]
          exact (htame.id _ m.io).trans (h.ident cli)
      · rw [hu.adapters x hx]
        exact h.ident x
    · obtain ⟨hheld, hcli⟩ | ⟨hheld, hcli⟩ := hcases
      · -- the adapter of the id goes to the pool as it is
        rw [hheld, ← h.live x]
        by_cases hx : x = cli
        · rw [hx, hcli]
          exact Bool.eq_iff_iff.mp (htame.live _ m.io)
        · rw [hu.adapters x hx]
      · -- it is stopped, and in no place
        rw [hheld, ← h.live x]
        by_cases hx : x = cli
        · rw [hx, hcli]
          simp
        · rw [hu.adapters x hx]
          simp [hx]
    · obtain ⟨hheld, hcli⟩ | ⟨hheld, hcli⟩ := hcases
      · rw [hheld] at hx
        by_cases hxc : x = cli
        · rw [hxc, hcli]
          exact (htame.options _ m.io).trans (h.configured cli (hxc ▸ hx))
        · rw [hu.adapters x hxc]
          exact h.configured x hx
      · rw [hheld] at hx
        rw [hu.adapters x hx.2]
        exact h.configured x hx.1

theorem reconfigureAndStart (h : m.Inv) (opt : ClientTcpConfig) :
    (m.reconfigureAndStart opt).Inv := by
  have hr := m.reconfigureAndStart_spec opt
  have hheld : ∀ x, (m.reconfigureAndStart opt).ledger.Held x ↔
      m.nextId ≤ x ∧ x < m.nextId + m.renewed opt := fun x => by
    rw [← mem_clientList_iff, hr.clientList, List.mem_range'_1]
  refine ⟨⟨exclusive_iff.mpr ?_, fun x hx => ?_⟩, fun x => ?_, fun x => ?_, fun x hx => ?_, ?_,
    fun _ _ => ?_, fun hs => ?_⟩
  · rw [hr.clientList]
    exact List.nodup_range'
  · rw [hr.nextId]
    exact ((hheld x).mp hx).2
  · rw [hr.adapters]
    split_ifs
    · rfl
    · exact h.ident x
    · exact h.ident x
  · rw [hheld, hr.adapters]
    split_ifs with hnew hold
    · exact iff_of_true rfl hnew
    · exact iff_of_false (by simp) hnew
    · refine iff_of_false (fun hx => hold ?_) hnew
      exact mem_clientList_iff.mpr ((h.live x).mp hx)
  · rw [hr.fresh_of_held hx, hr.opt]
    rfl
  · rw [hr.secondaryPool]
    exact Nat.zero_le _
  · rw [hr.primaryPool, hr.opt, List.length_range']
  · rw [hr.stopFlag] at hs
    cases hs

theorem stop (h : m.Inv) : m.stop.Inv := by
  obtain ⟨io, _, heq⟩ := m.stop_spec
  rw [heq]
  have hnone : ∀ x, ¬ Ledger.Held
      (⟨OrderedMap.empty.find, ([] : List ℕ)⟩ : Ledger IoId ℕ) x := by
    rintro x (⟨id, hid⟩ | hx)
    · cases hid
    · cases hx
  refine ⟨⟨⟨fun hk => ?_, Multiset.nodup_zero, fun hk => ?_⟩, fun x hx => ?_⟩, fun x => ?_,
    fun x => ?_, fun x hx => absurd hx (hnone x), Nat.zero_le _, fun _ hs => ?_, fun _ => hnone⟩
  · cases hk
  · cases hk
  · exact absurd hx (hnone x)
  · dsimp only
    split_ifs
    · exact h.ident x
    · exact h.ident x
  · refine iff_of_false ?_ (hnone x)
    dsimp only
    split_ifs with hx
    · simp
    · exact fun hlive => hx (mem_clientList_iff.mpr ((h.live x).mp hlive))
  · cases hs

/-- An event changes no more of an adapter than a call does. -/
theorem event (h : m.Inv) (cli : ℕ) {f : ClientTcpAdapter → Io → ClientTcpAdapter × Io}
    (hf : ClientTcpAdapter.Tame f) : (m.event cli f).Inv := by
  simp only [ClientTcpMap.event]
  split
  · exact h.call cli hf
  · exact h

theorem exec (h : m.Inv) (a : Act) : (m.exec a).Inv := by
  cases a with
  | reconfigureAndStart opt => exact h.reconfigureAndStart opt
  | stop => exact h.stop
  | regIo id itf => exact h.regIo id itf
  | unregIo id => exact h.unregIo id
  | performIo d id handler snd => exact h.performIo d id handler snd
  | release s => exact h.with_io _
  | input cli d out => exact h.event cli (.observe _)
  | connected cli => exact h.event cli (.observe _)
  | closed cli => exact h.event cli (.observe _)
  | runTask n => exact h.with_io _
  | counterReply cli d snd => exact h.event cli (.counterReply d snd)

end Inv

/-- **Step**: every call and event keeps the invariant. -/
theorem step_inv {m : ClientTcpMap} (h : m.Inv) (a : Act) : (m.step a).Inv :=
  (h.with_io _).exec a

/-- **Run**: the invariant holds in every reachable state. -/
theorem run_inv (refuses : ℕ → Bool) (acts : List Act) : (run step (init refuses) acts).Inv :=
  run_invariant (I := Inv) (fun _ a h => step_inv h a) (inv_init refuses) acts

/-! ### Flags, numbers and the startup pool over a run -/

/-- A call other than `reconfigure_and_start` and `stop` is steady, and so is an event. -/
theorem exec_cases (m : ClientTcpMap) (a : Act) :
    (∃ opt, a = .reconfigureAndStart opt) ∨ a = .stop ∨ Steady m (m.exec a) := by
  cases a with
  | reconfigureAndStart opt => exact Or.inl ⟨opt, rfl⟩
  | stop => exact Or.inr (Or.inl rfl)
  | regIo id itf => exact Or.inr (Or.inr (.regIo id itf))
  | unregIo id => exact Or.inr (Or.inr (.unregIo id))
  | performIo d id handler snd => exact Or.inr (Or.inr (.performIo d id handler snd))
  | release h => exact Or.inr (Or.inr ⟨rfl, rfl, rfl, le_rfl, le_rfl⟩)
  | input cli d out => exact Or.inr (Or.inr (.event cli _))
  | connected cli => exact Or.inr (Or.inr (.event cli _))
  | closed cli => exact Or.inr (Or.inr (.event cli _))
  | runTask n => exact Or.inr (Or.inr ⟨rfl, rfl, rfl, le_rfl, le_rfl⟩)
  | counterReply cli d snd => exact Or.inr (Or.inr (.event cli _))

/-- `stop` changes the stop flag, `_clients` and the pools. -/
theorem stop_fields (m : ClientTcpMap) : m.stop.stopFlag = true ∧
    m.stop.startupFlag = m.startupFlag ∧ m.stop.startupPool = [] ∧ m.stop.nextId = m.nextId := by
  obtain ⟨io, _, heq⟩ := m.stop_spec
  rw [heq]
  exact ⟨rfl, rfl, rfl, rfl⟩

theorem step_reconfigureAndStart (m : ClientTcpMap) (opt : ClientTcpConfig) :
    (m.step (.reconfigureAndStart opt)).startupFlag = false ∧
      (m.step (.reconfigureAndStart opt)).stopFlag = false :=
  ⟨(m.quiet.reconfigureAndStart_spec opt).startupFlag,
    (m.quiet.reconfigureAndStart_spec opt).stopFlag⟩

/-- Once the startup flag is down it stays down, and the startup pool does not grow. -/
theorem step_startup {m : ClientTcpMap} (h : m.startupFlag = false) (a : Act) :
    (m.step a).startupFlag = false ∧ (m.step a).startupPool.length ≤ m.startupPool.length := by
  obtain ⟨opt, rfl⟩ | rfl | hsteady := m.quiet.exec_cases a
  · have hr := m.quiet.reconfigureAndStart_spec opt
    have hcount : m.quiet.startupCount opt.startupPool = 0 := by
      unfold startupCount quiet
      rw [h]
      exact if_neg Bool.false_ne_true
    refine ⟨hr.startupFlag, ?_⟩
    show (m.quiet.reconfigureAndStart opt).startupPool.length ≤ _
    rw [hr.startupPool, hcount]
    exact Nat.zero_le _
  · obtain ⟨_, hflag, hpool, _⟩ := m.quiet.stop_fields
    refine ⟨hflag.trans h, ?_⟩
    show m.quiet.stop.startupPool.length ≤ _
    rw [hpool]
    exact Nat.zero_le _
  · exact ⟨hsteady.startupFlag.trans h, hsteady.startupPool⟩

theorem step_stopFlag {m : ClientTcpMap} {a : Act} (hstop : a ≠ .stop)
    (h : m.stopFlag = false) : (m.step a).stopFlag = false := by
  obtain ⟨opt, rfl⟩ | rfl | hsteady := m.quiet.exec_cases a
  · exact (m.quiet.reconfigureAndStart_spec opt).stopFlag
  · exact absurd rfl hstop
  · exact hsteady.stopFlag.trans h

theorem step_stopped {m : ClientTcpMap} {a : Act} (hstart : ∀ opt, a ≠ .reconfigureAndStart opt)
    (h : m.stopFlag = true) : (m.step a).stopFlag = true := by
  obtain ⟨opt, rfl⟩ | rfl | hsteady := m.quiet.exec_cases a
  · exact absurd rfl (hstart opt)
  · exact m.quiet.stop_fields.1
  · exact hsteady.stopFlag.trans h

theorem step_opt {m : ClientTcpMap} {a : Act} (hstart : ∀ opt, a ≠ .reconfigureAndStart opt) :
    (m.step a).opt = m.opt := by
  obtain ⟨opt, rfl⟩ | rfl | hsteady := m.quiet.exec_cases a
  · exact absurd rfl (hstart opt)
  · obtain ⟨io, _, heq⟩ := m.quiet.stop_spec
    show m.quiet.stop.opt = m.quiet.opt
    rw [heq]
  · exact hsteady.opt

theorem nextId_le_step (m : ClientTcpMap) (a : Act) : m.nextId ≤ (m.step a).nextId := by
  obtain ⟨opt, rfl⟩ | rfl | hsteady := m.quiet.exec_cases a
  · have hr := (m.quiet.reconfigureAndStart_spec opt).nextId
    show m.quiet.nextId ≤ (m.quiet.reconfigureAndStart opt).nextId
    omega
  · exact m.quiet.stop_fields.2.2.2.ge
  · exact hsteady.nextId

theorem nextId_le_run (m : ClientTcpMap) (acts : List Act) :
    m.nextId ≤ (run step m acts).nextId :=
  run_invariant (I := fun m' : ClientTcpMap => m.nextId ≤ m'.nextId)
    (fun m' a h => h.trans (m'.nextId_le_step a)) le_rfl acts

theorem run_startupFlag {m : ClientTcpMap} (h : m.startupFlag = false) (acts : List Act) :
    (run step m acts).startupFlag = false :=
  run_invariant (I := fun m' : ClientTcpMap => m'.startupFlag = false)
    (fun _ a h' => (step_startup h' a).1) h acts

/-- Between a `reconfigure_and_start` and the next `stop` the map is running. -/
theorem run_stopFlag {m : ClientTcpMap} (h : m.stopFlag = false) {acts : List Act}
    (hacts : .stop ∉ acts) : (run step m acts).stopFlag = false := by
  refine run_invariant_along (G := fun _ (a : Act) => a ≠ .stop)
    (I := fun m' : ClientTcpMap => m'.stopFlag = false) (fun _ a ha h' => step_stopFlag ha h') h ?_
  exact along_of_forall fun a ha heq => hacts (heq ▸ ha)

theorem run_stopped {m : ClientTcpMap} (h : m.stopFlag = true) {acts : List Act}
    (hacts : ∀ opt, .reconfigureAndStart opt ∉ acts) : (run step m acts).stopFlag = true := by
  refine run_invariant_along (G := fun _ (a : Act) => ∀ opt, a ≠ .reconfigureAndStart opt)
    (I := fun m' : ClientTcpMap => m'.stopFlag = true) (fun _ a ha h' => step_stopped ha h') h ?_
  exact along_of_forall fun a ha opt heq => hacts opt (heq ▸ ha)

/-- The options are those of the last `reconfigure_and_start`. -/
theorem run_options (m : ClientTcpMap) {acts : List Act}
    (hacts : ∀ opt, .reconfigureAndStart opt ∉ acts) : (run step m acts).opt = m.opt := by
  refine run_invariant_along (G := fun _ (a : Act) => ∀ opt, a ≠ .reconfigureAndStart opt)
    (I := fun m' : ClientTcpMap => m'.opt = m.opt) (fun _ a ha h' => (step_opt ha).trans h') rfl ?_
  exact along_of_forall fun a ha opt heq => hacts opt (heq ▸ ha)

/-! ### Which adapter an id is served with -/

/-- The calls that give an id an adapter. -/
def Act.Serves (id : IoId) : Act → Prop
  | .regIo k _ => k = id
  | .performIo _ k _ _ => k = id
  | _ => False

/-- `cli` is at the front of the first pool that is not empty, in the order startup,
    secondary, primary; if all are empty it is the next adapter to be built. -/
def FirstInLine (m : ClientTcpMap) (cli : ℕ) : Prop :=
  m.startupPool.head? = some cli ∨
  (m.startupPool = [] ∧ m.secondaryPool.head? = some cli) ∨
  (m.startupPool = [] ∧ m.secondaryPool = [] ∧ m.primaryPool.head? = some cli) ∨
  (m.startupPool = [] ∧ m.secondaryPool = [] ∧ m.primaryPool = [] ∧ cli = m.nextId)

theorem firstInLine_create (m : ClientTcpMap) : m.FirstInLine m.create_.2 := by
  obtain ⟨cli, rest, hs, h⟩ | ⟨cli, rest, hs, hsec, h⟩ |
      ⟨cli, rest, hb, hp, h⟩ | ⟨hb, hp, h⟩ := m.create_cases
  · exact Or.inl (by rw [h, hs]; rfl)
  · exact Or.inr (Or.inl ⟨hs, by rw [h, hsec]; rfl⟩)
  · exact Or.inr (Or.inr (Or.inl ⟨hb.1, hb.2, by rw [h, hp]; rfl⟩))
  · exact Or.inr (Or.inr (Or.inr ⟨hb.1, hb.2, hp, by rw [h]⟩))

/-- An id that is not in the map is served with what `create_` returns. -/
theorem find_step_of_serves {m : ClientTcpMap} {a : Act} {id : IoId} (ha : a.Serves id)
    (hstop : m.stopFlag = false) (hfind : m.find id = none) :
    (m.step a).find id = some m.quiet.create_.2 := by
  have hstop' : m.quiet.stopFlag = false := hstop
  have hfind' : m.quiet.find id = none := hfind
  have hinsert : (m.quiet.createAndInsert id).1.find id = some m.quiet.create_.2 := by
    rw [find_createAndInsert hfind', if_pos rfl]
  cases a with
  | regIo k itf =>
    obtain rfl : k = id := ha
    show (m.quiet.regIo k itf).find k = _
    rw [regIo_of_running hstop']
    simp only [upsert_]
    rw [hfind']
    exact hinsert
  | performIo d k handler snd =>
    obtain rfl : k = id := ha
    show (m.quiet.performIo d k handler snd).find k = _
    rw [performIo_of_running hstop']
    simp only [upsert_]
    rw [hfind']
    exact hinsert
  | _ => exact ha.elim

/-! ### The results -/

theorem owned_perm (m : ClientTcpMap) :
    (m.clients.values ++ m.startupPool ++ m.primaryPool ++ m.secondaryPool).Perm m.clientList := by
  have hrot : (m.startupPool ++ (m.primaryPool ++ m.secondaryPool)).Perm
      ((m.primaryPool ++ m.secondaryPool) ++ m.startupPool) := List.perm_append_comm
  simpa only [clientList, List.append_assoc] using hrot.append_left m.clients.values

/-- **The pools hold.** In every state a run reaches, no adapter is in two places; the
    primary pool is full between a `reconfigure_and_start` and the next `stop`, with as many
    adapters as the last options say; the secondary pool keeps its bound; from the first
    `reconfigure_and_start` on the startup pool never grows; and an id that is not in the map is
    served with the first adapter in line. What is built then (`nextId`) is an adapter the map has
    never owned. -/
theorem pools_hold (refuses : ℕ → Bool) (acts : List Act) :
    let m := run step (init refuses) acts
    (m.clients.values ++ m.startupPool ++ m.primaryPool ++ m.secondaryPool).Nodup ∧
    (∀ pre opt post, acts = pre ++ .reconfigureAndStart opt :: post → .stop ∉ post →
      m.primaryPool.length = m.opt.primaryPool) ∧
    (∀ pre opt post, acts = pre ++ .reconfigureAndStart opt :: post →
      (∀ opt', .reconfigureAndStart opt' ∉ post) → m.opt = opt) ∧
    m.secondaryPool.length ≤ m.opt.secondaryPool ∧
    (∀ opt, .reconfigureAndStart opt ∈ acts → ∀ a,
      (m.step a).startupPool.length ≤ m.startupPool.length) ∧
    (∀ a id, a.Serves id → m.stopFlag = false → m.find id = none →
      ∃ cli, m.FirstInLine cli ∧ (m.step a).find id = some cli) ∧
    ∀ pre, pre <+: acts → m.nextId ∉ (run step (init refuses) pre).clientList := by
  intro m
  have hinv : m.Inv := run_inv refuses acts
  refine ⟨?_, ?_, ?_, hinv.secondary_le, ?_, ?_, ?_⟩
  · exact m.owned_perm.nodup_iff.mpr (exclusive_iff.mp hinv.exclusive)
  · intro pre opt post hacts hpost
    have hm : m = run step _ post := run_split hacts
    obtain ⟨hflag, hstop⟩ := (run step (init refuses) pre).step_reconfigureAndStart opt
    rw [hm] at hinv ⊢
    exact hinv.primary_eq (run_startupFlag hflag post) (run_stopFlag hstop hpost)
  · intro pre opt post hacts hpost
    have hm : m = run step _ post := run_split hacts
    rw [hm, run_options _ hpost]
    exact ((run step (init refuses) pre).quiet.reconfigureAndStart_spec opt).opt
  · intro opt hopt a
    obtain ⟨pre, post, hacts⟩ := List.append_of_mem hopt
    have hm : m = run step _ post := run_split hacts
    obtain ⟨hflag, _⟩ := (run step (init refuses) pre).step_reconfigureAndStart opt
    have hdown : m.startupFlag = false := hm ▸ run_startupFlag hflag post
    exact (step_startup hdown a).2
  · intro a id ha hstop hfind
    exact ⟨m.quiet.create_.2, m.quiet.firstInLine_create, find_step_of_serves ha hstop hfind⟩
  · rintro pre ⟨post, hpost⟩ hmem
    have hlt := (run_inv refuses pre).allocated _ (mem_clientList_iff.mp hmem)
    have hle : (run step (init refuses) pre).nextId ≤ m.nextId := by
      have hm : m = run step (run step (init refuses) pre) post := by
        rw [← run_append, hpost]
      rw [hm]
      exact nextId_le_run _ post
    omega

/-- **The live adapters are the owned ones**: in every state a run reaches, exactly the
    adapters in the map and its pools have been started and not stopped, and from a
    `stop` to the next `reconfigure_and_start` there are none. -/
theorem live_iff_owned (refuses : ℕ → Bool) (acts : List Act) :
    let m := run step (init refuses) acts
    (∀ x, (m.adapters x).live = true ↔
      x ∈ m.clients.values ++ m.startupPool ++ m.primaryPool ++ m.secondaryPool) ∧
    ∀ pre post, acts = pre ++ .stop :: post → (∀ opt, .reconfigureAndStart opt ∉ post) →
      ∀ x, (m.adapters x).live = false := by
  intro m
  have hinv : m.Inv := run_inv refuses acts
  refine ⟨fun x => ?_, ?_⟩
  · rw [hinv.live x, ← mem_clientList_iff, m.owned_perm.mem_iff]
  · intro pre post hacts hpost x
    have hm : m = run step ((run step (init refuses) pre).step .stop) post := run_split hacts
    have hstopped : m.stopFlag = true := by
      rw [hm]
      exact run_stopped (run step (init refuses) pre).quiet.stop_fields.1 hpost
    have hnot : ¬ (m.adapters x).live = true :=
      fun h => hinv.stopped hstopped x ((hinv.live x).mp h)
    exact Bool.not_eq_true _ ▸ hnot

end ClientTcpMap

end WfcIo

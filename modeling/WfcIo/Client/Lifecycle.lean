import WfcIo.Client.Ownership
import WfcIo.Client.Calls

/-!
# Starting, reconfiguring and stopping adapters

`reconfigure_and_start` and `stop` go over all adapters in several loops. This file puts
each loop, and then the two operations, into closed form, and says once what `unreg_io`
does to the adapter of an id.

## Main definitions

- `ClientTcpMap.Makes` — a loop that makes new adapters
- `ClientTcpMap.Refilled` — all adapters are new, and not yet started
- `ClientTcpMap.Reconfigured` — what `reconfigure_and_start` leaves behind
- `ClientTcpMap.Unregistered` — what `unreg_io` of an id in the map leaves behind

## Main results

- `ClientTcpMap.reconfigureAndStart_spec`, `ClientTcpMap.stop_spec`,
  `ClientTcpMap.unregIo_spec` — the three operations
-/

namespace WfcIo

open Foundation

namespace ClientTcpMap

/-- `create_` only ever reports to the log. -/
theorem create_logs (m : ClientTcpMap) : Io.Logs Outcall.Lifecycle m.io m.create_.1.io := by
  have hbuild : Io.Logs Outcall.Lifecycle m.io m.buildClient.1.io := by
    have hstart := ClientTcpAdapter.start_logs { id := m.nextId } m.io m.opt
    simpa [buildClient, makeClient, startClient, call] using hstart
  obtain ⟨_, _, _, h⟩ | ⟨_, _, _, _, h⟩ | ⟨_, _, _, _, h⟩ | ⟨_, _, h⟩ := m.create_cases
  · rw [h]
    exact .refl _ _
  · rw [h]
    exact .refl _ _
  · rw [h]
    exact hbuild
  · rw [h]
    exact hbuild

theorem upsert_logs (m : ClientTcpMap) (id : IoId) :
    Io.Logs Outcall.Lifecycle m.io (m.upsert_ id).1.io := by
  simp only [upsert_]
  cases m.find id with
  | some cli => exact .refl _ _
  | none => exact m.create_logs

/-! ### The loops -/

theorem foldl_stopClient (l : List ℕ) (m : ClientTcpMap) :
    l.foldl stopClient m =
      { m with adapters := fun x => if x ∈ l then (m.adapters x).stop else m.adapters x } := by
  induction l generalizing m with
  | nil => simp
  | cons cli l ih =>
    have hadapters : ∀ x, (m.stopClient cli).adapters x =
        if x = cli then (m.adapters cli).stop else m.adapters x := fun x =>
      Function.update_apply _ _ _ x
    rw [List.foldl_cons, ih]
    refine congrArg (fun f => { m with adapters := f }) (funext fun x => ?_)
    rw [hadapters]
    by_cases hx : x = cli
    · subst hx
      by_cases hl : x ∈ l <;> simp [hl, ClientTcpAdapter.stop]
    · simp [hx]

theorem destroyAll_eq (m : ClientTcpMap) (l : List ℕ) :
    ∃ io, Io.Logs Outcall.Lifecycle m.io io ∧ m.destroyAll l = { m with io } := by
  induction l generalizing m with
  | nil => exact ⟨m.io, .refl _ _, rfl⟩
  | cons cli l ih =>
    obtain ⟨io, hio, heq⟩ := ih (m.destroyClient cli)
    refine ⟨io, ((m.adapters cli).destroy_logs m.io).trans hio, ?_⟩
    exact heq

/-- `n` new adapters get the next `n` ids. -/
theorem makeClients_eq (n : ℕ) (m : ClientTcpMap) :
    makeClients n m =
      ({ m with
        adapters := fun x =>
          if m.nextId ≤ x ∧ x < m.nextId + n then { id := x } else m.adapters x
        nextId := m.nextId + n }, List.range' m.nextId n) := by
  induction n generalizing m with
  | zero =>
    have hnone : ∀ x, ¬ (m.nextId ≤ x ∧ x < m.nextId + 0) := fun x => by omega
    simp only [makeClients, hnone, if_false]
    rfl
  | succ n ih =>
    rw [makeClients, ih]
    refine Prod.ext ?_ rfl
    simp only [makeClient, ClientTcpMap.mk.injEq, true_and, and_true]
    refine ⟨funext fun x => ?_, by omega⟩
    rw [Function.update_apply]
    by_cases hx : x = m.nextId
    · subst hx
      simp
    · have hiff : m.nextId + 1 ≤ x ∧ x < m.nextId + 1 + n ↔
          m.nextId ≤ x ∧ x < m.nextId + (n + 1) := by omega
      simp only [hx, if_false, hiff]

/-- `m'` is `m` after `n` adapters have been made, not counting changes of `_clients`,
    the pools and the flags. -/
structure Makes (n : ℕ) (m m' : ClientTcpMap) : Prop where
  io : Io.Logs Outcall.Lifecycle m.io m'.io
  opt : m'.opt = m.opt
  nextId : m'.nextId = m.nextId + n
  adapters : ∀ x, m'.adapters x =
    if m.nextId ≤ x ∧ x < m.nextId + n then { id := x } else m.adapters x

theorem Makes.trans {n n' : ℕ} {m m' m'' : ClientTcpMap} (h : Makes n m m')
    (h' : Makes n' m' m'') : Makes (n + n') m m'' where
  io := h.io.trans h'.io
  opt := h'.opt.trans h.opt
  nextId := by rw [h'.nextId, h.nextId, Nat.add_assoc]
  adapters := by
    intro x
    rw [h'.adapters, h.adapters, h.nextId]
    by_cases hx : m.nextId + n ≤ x ∧ x < m.nextId + n + n'
    · have hx' : m.nextId ≤ x ∧ x < m.nextId + (n + n') := by omega
      simp only [hx, hx', and_self, if_true]
    · have hiff : m.nextId ≤ x ∧ x < m.nextId + n ↔
          m.nextId ≤ x ∧ x < m.nextId + (n + n') := by omega
      simp only [hx, hiff, if_false]

theorem makeClients_makes (n : ℕ) (m : ClientTcpMap) {io : Io}
    (hio : Io.Logs Outcall.Lifecycle m.io io) :
    Makes n m { (makeClients n m).1 with io } := by
  rw [makeClients_eq]
  exact ⟨hio, rfl, rfl, fun _ => rfl⟩

theorem mapAccumEntries_renew (l : List (IoId × ℕ)) (m : ClientTcpMap) :
    ∃ io l', Io.Logs Outcall.Lifecycle m.io io ∧
      OrderedMap.mapAccumEntries
        (fun m old => (m.makeClient.1.destroyClient old, m.makeClient.2)) m l =
        ({ (makeClients l.length m).1 with io }, l') ∧
      l'.map Prod.snd = List.range' m.nextId l.length := by
  induction l generalizing m with
  | nil => exact ⟨m.io, [], .refl _ _, rfl, rfl⟩
  | cons p l ih =>
    let m' := m.makeClient.1.destroyClient p.2
    have hstep : Io.Logs Outcall.Lifecycle m.io m'.io :=
      (m.makeClient.1.adapters p.2).destroy_logs m.io
    obtain ⟨io, l', hio, heq, hvals⟩ := ih m'
    refine ⟨io, (p.1, m.nextId) :: l', hstep.trans hio, ?_, ?_⟩
    · have hmake : (makeClients l.length m').1 =
          { (makeClients l.length m.makeClient.1).1 with io := m'.io } := by
        rw [makeClients_eq, makeClients_eq]
        rfl
      show ((OrderedMap.mapAccumEntries _ m' l).1, (p.1, m.nextId) ::
        (OrderedMap.mapAccumEntries _ m' l).2) = _
      rw [heq, hmake]
      rfl
    · rw [List.map_cons, hvals]
      rfl

/-- Every id keeps its place in `_clients` and gets a new adapter there. -/
theorem renewClients_spec (m : ClientTcpMap) :
    Makes m.clients.size m m.renewClients ∧
      m.renewClients.clients.keys = m.clients.keys ∧
      m.renewClients.clients.values = List.range' m.nextId m.clients.size ∧
      m.renewClients.startupPool = m.startupPool ∧
      m.renewClients.startupFlag = m.startupFlag := by
  obtain ⟨io, l', hio, heq, hvals⟩ := mapAccumEntries_renew m.clients.entries m
  have hm : m.renewClients =
      { { (makeClients m.clients.size m).1 with io } with clients := m.renewClients.clients } :=
    congrArg (fun n => { n with clients := m.renewClients.clients }) (congrArg Prod.fst heq)
  have hmakes := makeClients_makes m.clients.size m hio
  refine ⟨?_, OrderedMap.keys_mapAccum _ m m.clients, ?_, ?_, ?_⟩
  · rw [hm]
    exact ⟨hmakes.io, hmakes.opt, hmakes.nextId, hmakes.adapters⟩
  · exact (congrArg (fun r => r.2.map Prod.snd) heq).trans hvals
  · rw [hm, makeClients_eq]
  · rw [hm, makeClients_eq]

theorem clearSecondary_spec (m : ClientTcpMap) :
    Makes 0 m m.clearSecondary ∧ m.clearSecondary.clients = m.clients ∧
      m.clearSecondary.startupPool = m.startupPool ∧ m.clearSecondary.secondaryPool = [] ∧
      m.clearSecondary.startupFlag = m.startupFlag := by
  obtain ⟨io, hio, heq⟩ := m.destroyAll_eq m.secondaryPool
  have hnone : ∀ x, ¬ (m.nextId ≤ x ∧ x < m.nextId + 0) := fun x => by omega
  unfold clearSecondary
  rw [heq]
  exact ⟨⟨hio, rfl, rfl, fun x => (if_neg (hnone x)).symm⟩, rfl, rfl, rfl, rfl⟩

theorem refillPrimary_spec (n : ℕ) (m : ClientTcpMap) :
    Makes n m (m.refillPrimary n) ∧ (m.refillPrimary n).clients = m.clients ∧
      (m.refillPrimary n).startupPool = m.startupPool ∧
      (m.refillPrimary n).secondaryPool = m.secondaryPool ∧
      (m.refillPrimary n).primaryPool = List.range' m.nextId n ∧
      (m.refillPrimary n).startupFlag = m.startupFlag := by
  obtain ⟨io, hio, heq⟩ := m.destroyAll_eq m.primaryPool
  simp only [refillPrimary]
  rw [heq, makeClients_eq]
  exact ⟨⟨hio, rfl, rfl, fun _ => rfl⟩, rfl, rfl, rfl, rfl, rfl⟩

/-- How many adapters `reconfigure_and_start` puts into the startup pool. -/
def startupCount (m : ClientTcpMap) (n : ℕ) : ℕ := if m.startupFlag then n else 0

theorem refillStartup_spec (n : ℕ) (m : ClientTcpMap) :
    Makes (m.startupCount n) m (m.refillStartup n) ∧ (m.refillStartup n).clients = m.clients ∧
      (m.refillStartup n).startupPool = List.range' m.nextId (m.startupCount n) ∧
      (m.refillStartup n).secondaryPool = m.secondaryPool ∧
      (m.refillStartup n).primaryPool = m.primaryPool ∧
      (m.refillStartup n).startupFlag = false := by
  obtain ⟨io, hio, heq⟩ := m.destroyAll_eq m.startupPool
  have hnone : ∀ x, ¬ (m.nextId ≤ x ∧ x < m.nextId + 0) := fun x => by omega
  simp only [refillStartup, startupCount]
  rw [heq]
  by_cases hflag : m.startupFlag = true
  · rw [if_pos hflag, if_pos hflag, makeClients_eq]
    exact ⟨⟨hio, rfl, rfl, fun _ => rfl⟩, rfl, rfl, rfl, rfl, rfl⟩
  · rw [if_neg hflag, if_neg hflag]
    exact ⟨⟨hio, rfl, rfl, fun x => (if_neg (hnone x)).symm⟩, rfl, rfl, rfl, rfl,
      Bool.not_eq_true _ ▸ hflag⟩

theorem foldl_startClient (l : List ℕ) (m : ClientTcpMap) :
    ∃ io, Io.Logs Outcall.Lifecycle m.io io ∧
      l.foldl startClient m =
        { m with
          io
          adapters := fun x =>
            if x ∈ l then ((m.adapters x).start m.opt m.io).1 else m.adapters x } := by
  induction l generalizing m with
  | nil => exact ⟨m.io, .refl _ _, by simp⟩
  | cons cli l ih =>
    obtain ⟨io, hio, heq⟩ := ih (m.startClient cli)
    refine ⟨io, ((m.adapters cli).start_logs m.io m.opt).trans hio, ?_⟩
    have hadapters : ∀ x, (m.startClient cli).adapters x =
        if x = cli then ((m.adapters cli).start m.opt m.io).1 else m.adapters x := fun x =>
      Function.update_apply _ _ _ x
    rw [List.foldl_cons, heq]
    refine congrArg (fun f => { m with io, adapters := f }) (funext fun x => ?_)
    rw [hadapters]
    by_cases hx : x = cli
    · subst hx
      by_cases hl : x ∈ l <;> simp [hl, ClientTcpAdapter.start, startClient, call]
    · simp only [hx, if_false, List.mem_cons, false_or]
      rfl

/-! ### `reconfigure_and_start` -/

/-- How many adapters `reconfigure_and_start` makes. -/
def renewed (m : ClientTcpMap) (opt : ClientTcpConfig) : ℕ :=
  m.clients.size + opt.primaryPool + m.startupCount opt.startupPool

/-- The adapter `x` as `start(opt)` leaves it when it is new. -/
def fresh (opt : ClientTcpConfig) (x : ℕ) : ClientTcpAdapter :=
  { id := x, keepAlive := opt.keepAlive, options := some opt, startCalled := true }

/-- The map between the two loops over all adapters: everything it owns is new, numbered
    on from `nextId` (the adapters of `_clients` first, then the primary and the startup
    pool). -/
structure Refilled (cfg : ClientTcpConfig) (m m' : ClientTcpMap) : Prop where
  makes : Makes (m.renewed cfg) m m'
  keys : m'.clients.keys = m.clients.keys
  values : m'.clients.values = List.range' m.nextId m.clients.size
  primaryPool : m'.primaryPool = List.range' (m.nextId + m.clients.size) cfg.primaryPool
  startupPool : m'.startupPool =
    List.range' (m.nextId + m.clients.size + cfg.primaryPool) (m.startupCount cfg.startupPool)
  secondaryPool : m'.secondaryPool = []
  startupFlag : m'.startupFlag = false

theorem refill_spec (cfg : ClientTcpConfig) (m : ClientTcpMap) :
    Refilled cfg m ((m.renewClients.clearSecondary.refillPrimary cfg.primaryPool).refillStartup
      cfg.startupPool) := by
  -- `m₁` to `m₄` are the states after the four loops
  obtain ⟨hmake₁, hkeys, hvalues, _, hflag₁⟩ := m.renewClients_spec
  set m₁ := m.renewClients
  obtain ⟨hmake₂, hclients₂, _, hsecondary₂, hflag₂⟩ := m₁.clearSecondary_spec
  set m₂ := m₁.clearSecondary
  obtain ⟨hmake₃, hclients₃, _, hsecondary₃, hprimary₃, hflag₃⟩ :=
    m₂.refillPrimary_spec cfg.primaryPool
  set m₃ := m₂.refillPrimary cfg.primaryPool
  obtain ⟨hmake₄, hclients₄, hstartup₄, hsecondary₄, hprimary₄, hflag₄⟩ :=
    m₃.refillStartup_spec cfg.startupPool
  set m₄ := m₃.refillStartup cfg.startupPool
  have hcount : m₃.startupCount cfg.startupPool = m.startupCount cfg.startupPool := by
    simp only [startupCount]
    rw [hflag₃, hflag₂, hflag₁]
  have hclients : m₄.clients = m₁.clients := by rw [hclients₄, hclients₃, hclients₂]
  have hnext₂ : m₂.nextId = m.nextId + m.clients.size := (hmake₁.trans hmake₂).nextId
  have hnext₃ : m₃.nextId = m.nextId + m.clients.size + cfg.primaryPool := by
    rw [hmake₃.nextId, hnext₂]
  rw [hcount] at hmake₄ hstartup₄
  exact {
    makes := ((hmake₁.trans hmake₂).trans hmake₃).trans hmake₄
    keys := by rw [hclients, hkeys]
    values := by rw [hclients, hvalues]
    primaryPool := by rw [hprimary₄, hprimary₃, hnext₂]
    startupPool := by rw [hstartup₄, hnext₃]
    secondaryPool := by rw [hsecondary₄, hsecondary₃, hsecondary₂]
    startupFlag := hflag₄ }

/-- The adapters that are started then are the new ones. -/
theorem Refilled.mem_iff {cfg : ClientTcpConfig} {m m' : ClientTcpMap} (h : Refilled cfg m m')
    (x : ℕ) : x ∈ m'.clients.values ++ m'.primaryPool ++ m'.startupPool ↔
      m.nextId ≤ x ∧ x < m.nextId + m.renewed cfg := by
  rw [h.values, h.primaryPool, h.startupPool]
  simp only [List.mem_append, List.mem_range'_1, renewed]
  omega

/-- What `reconfigure_and_start` leaves behind: all adapters are new and started with the
    new options; those the map had are stopped. -/
structure Reconfigured (cfg : ClientTcpConfig) (m m' : ClientTcpMap) : Prop where
  io : Io.Logs Outcall.Lifecycle m.io m'.io
  opt : m'.opt = cfg
  keys : m'.clients.keys = m.clients.keys
  values : m'.clients.values = List.range' m.nextId m.clients.size
  primaryPool : m'.primaryPool = List.range' (m.nextId + m.clients.size) cfg.primaryPool
  startupPool : m'.startupPool =
    List.range' (m.nextId + m.clients.size + cfg.primaryPool) (m.startupCount cfg.startupPool)
  secondaryPool : m'.secondaryPool = []
  nextId : m'.nextId = m.nextId + m.renewed cfg
  startupFlag : m'.startupFlag = false
  stopFlag : m'.stopFlag = false
  adapters : ∀ x, m'.adapters x =
    if m.nextId ≤ x ∧ x < m.nextId + m.renewed cfg then fresh cfg x
    else if x ∈ m.clientList then (m.adapters x).stop else m.adapters x

theorem reconfigureAndStart_spec (opt : ClientTcpConfig) (m : ClientTcpMap) :
    Reconfigured opt m (m.reconfigureAndStart opt) := by
  have hstop : m.stopAllClients =
      { m with adapters := fun x =>
          if x ∈ m.clientList then (m.adapters x).stop else m.adapters x } :=
    foldl_stopClient m.clientList m
  have hdef : m.reconfigureAndStart opt =
      let m' := ({ m.stopAllClients with opt }.renewClients.clearSecondary.refillPrimary
        opt.primaryPool).refillStartup opt.startupPool
      { (m'.clients.values ++ m'.primaryPool ++ m'.startupPool).foldl startClient m' with
        stopFlag := false } := rfl
  rw [hstop] at hdef
  have hrefilled := refill_spec opt
    { m with
      adapters := fun x => if x ∈ m.clientList then (m.adapters x).stop else m.adapters x
      opt }
  obtain ⟨m', hm'⟩ : ∃ m', m' = ({ m with
      adapters := fun x => if x ∈ m.clientList then (m.adapters x).stop else m.adapters x
      opt }.renewClients.clearSecondary.refillPrimary opt.primaryPool).refillStartup
        opt.startupPool := ⟨_, rfl⟩
  obtain ⟨io, hio, hstart⟩ :=
    foldl_startClient (m'.clients.values ++ m'.primaryPool ++ m'.startupPool) m'
  dsimp only at hdef
  rw [← hm'] at hdef hrefilled
  rw [hdef, hstart]
  exact {
    io := hrefilled.makes.io.trans hio
    opt := hrefilled.makes.opt
    keys := hrefilled.keys
    values := hrefilled.values
    primaryPool := hrefilled.primaryPool
    startupPool := hrefilled.startupPool
    secondaryPool := hrefilled.secondaryPool
    nextId := hrefilled.makes.nextId
    startupFlag := hrefilled.startupFlag
    stopFlag := rfl
    adapters := by
      intro x
      have hmade := hrefilled.makes.adapters x
      have hmem := hrefilled.mem_iff x
      have hopt : m'.opt = opt := hrefilled.makes.opt
      show (if x ∈ _ then _ else _) = _
      by_cases hx : m.nextId ≤ x ∧ x < m.nextId + m.renewed opt
      · rw [if_pos (hmem.mpr hx), if_pos hx, hmade, hopt]
        exact congrArg (fun a => (ClientTcpAdapter.start opt a m'.io).1) (if_pos hx)
      · rw [if_neg (fun h => hx (hmem.mp h)), if_neg hx, hmade]
        exact if_neg hx }

/-- After `reconfigure_and_start` the map owns the new adapters, and no others. -/
theorem Reconfigured.clientList {cfg : ClientTcpConfig} {m m' : ClientTcpMap}
    (h : Reconfigured cfg m m') : m'.clientList = List.range' m.nextId (m.renewed cfg) := by
  rw [ClientTcpMap.clientList, h.values, h.primaryPool, h.secondaryPool, h.startupPool,
    List.append_nil, List.range'_append_1, Nat.add_assoc, List.range'_append_1]
  rfl

/-- Everything the map owns after `reconfigure_and_start` is new. -/
theorem Reconfigured.fresh_of_held {cfg : ClientTcpConfig} {m m' : ClientTcpMap}
    (h : Reconfigured cfg m m') {x : ℕ} (hx : m'.ledger.Held x) : m'.adapters x = fresh cfg x := by
  rw [← mem_clientList_iff, h.clientList, List.mem_range'_1] at hx
  rw [h.adapters, if_pos hx]

/-! ### `unreg_io` -/

/-- What `unreg_io` of an id leaves behind: the id is out of the map, its adapter has been
    unregistered, and that is in the secondary pool or, if there was no room, stopped. -/
structure Unregistered (id : IoId) (cli : ℕ) (m m' : ClientTcpMap) : Prop where
  io : Io.Logs Outcall.Lifecycle m.io m'.io
  opt : m'.opt = m.opt
  nextId : m'.nextId = m.nextId
  startupFlag : m'.startupFlag = m.startupFlag
  stopFlag : m'.stopFlag = m.stopFlag
  clients : m'.clients = m.clients.erase id
  startupPool : m'.startupPool = m.startupPool
  primaryPool : m'.primaryPool = m.primaryPool
  adapters : ∀ x, x ≠ cli → m'.adapters x = m.adapters x
  recycled : (m.secondaryPool.length < m.opt.secondaryPool ∧
      m'.secondaryPool = m.secondaryPool ++ [cli] ∧
      m'.adapters cli = (m.adapters cli).unregIo id) ∨
    (m.opt.secondaryPool ≤ m.secondaryPool.length ∧ m'.secondaryPool = m.secondaryPool ∧
      m'.adapters cli = ((m.adapters cli).unregIo id).stop)

/-- Everything `unreg_io` can do. -/
theorem unregIo_spec (m : ClientTcpMap) (id : IoId) :
    ((m.stopFlag = true ∨ m.find id = none) ∧ m.unregIo id = m) ∨
    ∃ cli, m.stopFlag = false ∧ m.find id = some cli ∧ Unregistered id cli m (m.unregIo id) := by
  simp only [unregIo]
  cases hstop : m.stopFlag with
  | true => exact Or.inl ⟨Or.inl rfl, rfl⟩
  | false =>
    cases hfind : m.find id with
    | none => exact Or.inl ⟨Or.inr rfl, rfl⟩
    | some cli =>
      refine Or.inr ⟨cli, rfl, rfl, ?_⟩
      have hne : ∀ x, x ≠ cli → (m.unregClient id cli).adapters x = m.adapters x := fun x hx =>
        Function.update_of_ne hx _ _
      have hcli : (m.unregClient id cli).adapters cli = (m.adapters cli).unregIo id :=
        Function.update_self _ _ _
      simp only [eraseAndPool]
      by_cases hroom : m.secondaryPool.length < m.opt.secondaryPool
      · have hroom' : (m.unregClient id cli).secondaryPool.length <
            (m.unregClient id cli).opt.secondaryPool := hroom
        simp only [Bool.false_eq_true, if_false, if_pos hroom', if_true]
        exact ⟨.refl _ _, rfl, rfl, rfl, rfl, rfl, rfl, rfl, hne, Or.inl ⟨hroom, rfl, hcli⟩⟩
      · have hroom' : ¬ (m.unregClient id cli).secondaryPool.length <
            (m.unregClient id cli).opt.secondaryPool := hroom
        simp only [Bool.false_eq_true, if_false, if_neg hroom']
        refine ⟨ClientTcpAdapter.destroy_logs _ _, rfl, rfl, rfl, rfl, rfl, rfl, rfl,
          fun x hx => ?_, Or.inr ⟨not_lt.mp hroom, rfl, ?_⟩⟩
        · exact (Function.update_of_ne hx _ _).trans (hne x hx)
        · exact (Function.update_self _ _ _).trans (congrArg ClientTcpAdapter.stop hcli)

namespace Unregistered

variable {id : IoId} {cli : ℕ} {m m' : ClientTcpMap}

/-- `unreg_io` is `eraseAndPool` as far as the ledger goes. -/
theorem ledger_eq (h : Unregistered id cli m m') :
    m'.ledger = (m.eraseAndPool id cli).1.ledger := by
  have hfind : m'.find = (m.clients.erase id).find := congrArg OrderedMap.find h.clients
  simp only [ledger, pooled, eraseAndPool]
  rw [hfind, h.startupPool, h.primaryPool]
  obtain ⟨hroom, hpool, _⟩ | ⟨hfull, hpool, _⟩ := h.recycled
  · rw [hpool, if_pos hroom]
    rfl
  · rw [hpool, if_neg (not_lt.mpr hfull)]
    rfl

theorem find (h : Unregistered id cli m m') (k : IoId) :
    m'.find k = if k = id then none else m.find k := by
  show m'.clients.find k = _
  rw [h.clients, OrderedMap.find_erase]
  rfl

theorem owned (h : Unregistered id cli m m') (howned : m.Owned) (hfind : m.find id = some cli) :
    m'.Owned := by
  have hpool := howned.eraseAndPool (howned.exclusive.reservedFor hfind)
    (howned.allocated cli (Or.inl ⟨id, hfind⟩))
  refine ⟨h.ledger_eq ▸ hpool.exclusive, fun x hx => ?_⟩
  rw [h.nextId, ← m.eraseAndPool_nextId id cli]
  exact hpool.allocated x (h.ledger_eq ▸ hx)

/-- Which adapters are held then, and what has become of that of the id. -/
theorem held_cases (h : Unregistered id cli m m') (howned : m.Owned)
    (hfind : m.find id = some cli) :
    ((∀ x, m'.ledger.Held x ↔ m.ledger.Held x) ∧
      m'.adapters cli = (m.adapters cli).unregIo id) ∨
    ((∀ x, m'.ledger.Held x ↔ m.ledger.Held x ∧ x ≠ cli) ∧
      m'.adapters cli = ((m.adapters cli).unregIo id).stop) := by
  have hheld : m.ledger.Held cli := Or.inl ⟨id, hfind⟩
  have hdrop : ∀ x, (m.ledger.drop id).Held x ↔ m.ledger.Held x ∧ x ≠ cli := fun x =>
    Ledger.held_drop howned.exclusive hfind
  rw [h.ledger_eq]
  obtain ⟨hroom, _, hcli⟩ | ⟨hfull, _, hcli⟩ := h.recycled
  · obtain ⟨_, hL⟩ | ⟨hfull, _⟩ := m.eraseAndPool_ledger id cli
    · refine Or.inl ⟨fun x => ?_, hcli⟩
      rw [hL, Ledger.held_park, hdrop]
      by_cases hx : x = cli
      · simp only [hx, hheld, true_or]
      · simp only [hx, false_or, ne_eq, not_false_eq_true, and_true]
    · omega
  · obtain ⟨hroom, _⟩ | ⟨_, hL⟩ := m.eraseAndPool_ledger id cli
    · omega
    · refine Or.inr ⟨fun x => ?_, hcli⟩
      rw [hL, hdrop]

/-- What is idle then was so before, or is the adapter of the id. -/
theorem mem_pooled (h : Unregistered id cli m m') {x : ℕ} (hx : x ∈ m'.pooled) :
    x ∈ m.pooled ∨ x = cli := by
  simp only [pooled] at hx ⊢
  rw [h.startupPool, h.primaryPool] at hx
  obtain ⟨_, hpool, _⟩ | ⟨_, hpool, _⟩ := h.recycled
  · rw [hpool] at hx
    simp only [List.mem_append, List.mem_singleton] at hx ⊢
    tauto
  · rw [hpool] at hx
    exact Or.inl hx

end Unregistered

/-! ### `stop` -/

theorem stop_spec (m : ClientTcpMap) :
    ∃ io, Io.Logs Outcall.Lifecycle m.io io ∧
      m.stop =
        { m with
          io
          adapters := fun x => if x ∈ m.clientList then (m.adapters x).stop else m.adapters x
          clients := .empty
          primaryPool := []
          secondaryPool := []
          startupPool := []
          stopFlag := true } := by
  have hstop : { m with stopFlag := true }.stopAllClients =
      { m with
        stopFlag := true
        adapters := fun x => if x ∈ m.clientList then (m.adapters x).stop else m.adapters x } :=
    foldl_stopClient m.clientList { m with stopFlag := true }
  obtain ⟨m', hm'⟩ : ∃ m', m' = { m with stopFlag := true }.stopAllClients := ⟨_, rfl⟩
  obtain ⟨io, hio, heq⟩ := m'.destroyAll_eq
    (m'.clients.values ++ m'.primaryPool ++ m'.secondaryPool ++ m'.startupPool)
  have hdef : m.stop =
      { m'.destroyAll
          (m'.clients.values ++ m'.primaryPool ++ m'.secondaryPool ++ m'.startupPool) with
        clients := .empty, primaryPool := [], secondaryPool := [], startupPool := [] } := by
    rw [hm']
    rfl
  refine ⟨io, ?_, ?_⟩
  · rw [hm', hstop] at hio
    exact hio
  · rw [hdef, heq, hm', hstop]

end ClientTcpMap

end WfcIo

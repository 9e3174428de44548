import WfcIo.Client.Pools
import WfcIo.Client.Binding

/-!
# Answers and the sources they reach

The map of clients together with a server that answers the requests on every connection
in the order they came, each after any delay. An adapter hands inbound data to the
holder it has at that moment, and one that has gone through the secondary pool may by
then be bound to another source than the one that sent the request, or still be bound to one
that is not registered any more.

## Main definitions

- `Net` — the map, the requests that wait for an answer, and who has passed what
- `Net.step` — a call of the map, or an answer of the server
- `Net.Clean` — the call does not bind a source to the open requests of another, and leaves no
  open request of its own id with a source that is not registered for it any more
- `Net.Isolated` — the answer reaches nobody but the sender of the request

## Main results

- `Net.answers_isolated` — in a run of clean calls all answers are isolated
-/

namespace WfcIo

open Foundation

/-- A request on its way: the adapter and the connection that sent it, and the id it was
    performed for. -/
structure Request where
  cli : ℕ
  conn : Conn
  owner : IoId
  deriving DecidableEq

/-- `registered` says with which holder an id is registered at the moment, and `passed` are the
    handlers passed to `perform_io` so far, with the ids they were passed for. -/
structure Net where
  map : ClientTcpMap
  inflight : List Request := []
  registered : IoId → Option Source := fun _ => none
  passed : List (IoId × Handler) := []

/-- The adapters that the map still owns after `unreg_io` of `id`: its own goes, unless there is
    room in the pool. -/
def ClientTcpMap.keptBy (id : IoId) (m : ClientTcpMap) : List ℕ :=
  if m.secondaryPool.length < m.opt.secondaryPool then m.clientList
  else m.clientList.filter fun x => m.find id ≠ some x

namespace Net

/-- The map after its first `reconfigure_and_start`. -/
def start (refuses : ℕ → Bool) (opt : ClientTcpConfig) : Net :=
  { map := (ClientTcpMap.init refuses).step (.reconfigureAndStart opt) }

inductive Act
  | regIo (id : IoId) (itf : Option Source)
  | unregIo (id : IoId)
  | performIo (d : DataPtr) (id : IoId) (handler : Option Handler) (snd : Sending)
  | answer (cli : ℕ) (conn : Conn) (d : DataPtr) (out : Option Conn)
  | release (h : Source)
  deriving DecidableEq

/-- The oldest request on a connection. -/
def oldest (n : Net) (cli : ℕ) (conn : Conn) : Option Request :=
  n.inflight.find? (fun r => r.cli = cli ∧ r.conn = conn)

/-- The requests of `id` among the calls of a step. -/
def requests (id : IoId) (os : List Outcall) : List Request :=
  os.filterMap fun
    | .send cli conn _ => some { cli, conn, owner := id }
    | _ => none

/-- Note the holder or the handler a call passes, or that a registration has ended. -/
def note (n : Net) : Act → Net
  | .regIo id itf => { n with registered := Function.update n.registered id itf }
  | .unregIo id => { n with registered := Function.update n.registered id none }
  | .performIo _ id (some f) _ => { n with passed := n.passed ++ [(id, f)] }
  | _ => n

def step (n : Net) (act : Act) : Net :=
  match act with
  | .regIo id itf => { n.note act with map := n.map.step (.regIo id itf) }
  | .unregIo id => { n.note act with map := n.map.step (.unregIo id) }
  | .performIo d id handler snd =>
    let m := n.map.step (.performIo d id handler snd)
    { n.note act with map := m, inflight := n.inflight ++ requests id m.io.outcalls }
  | .answer cli conn d out =>
    match n.oldest cli conn with
    | none => { n with map := n.map.quiet }
    | some r => { n with map := n.map.step (.input cli d out), inflight := n.inflight.erase r }
  | .release h => { n with map := n.map.step (.release h) }

/-- A holder that is `id`'s own: the one that it is registered with, or one made for a handler
    passed with a request of it. -/
def Allowed (n : Net) (id : IoId) : Holder → Prop
  | .source h => n.registered id = some h
  | .perform p => ∀ f ∈ p.handler, (id, f) ∈ n.passed

/-- A call that delivers nothing to anybody but the holder that `id` is registered with, or a
    handler of it. -/
def Admissible (n : Net) (id : IoId) : Outcall → Prop
  | .performIo h _ _ _ => n.registered id = some h
  | .handler f _ => (id, f) ∈ n.passed
  | _ => True

/-- An answer to a request of some id is delivered to that id's own holder or handler,
    or dropped. -/
def Isolated (n : Net) : Act → Prop
  | .answer cli conn d out => ∀ r ∈ n.oldest cli conn,
      ∀ o ∈ (n.step (.answer cli conn d out)).map.io.outcalls, n.Admissible r.owner o
  | _ => True

/-- The call changes the registration of `id`, but takes it from no holder that is still alive on an
    adapter of `kept` over which a request of `id` is in flight. -/
def Spares (n : Net) (act : Act) (id : IoId) (kept : List ℕ) : Prop :=
  ∀ r ∈ n.inflight, r.owner = id → r.cli ∈ kept →
    ∀ k ∈ (n.map.adapters r.cli).getHolder n.map.io, (n.note act).Allowed id k

/-- The call binds the adapter that serves its id to nobody else's open requests: a
    holder or handler it binds belongs to the owner of every request in flight there,
    and a holder it finds, when it sends a request, belongs to its own id. And where it ends or
    changes the registration of its id, it withdraws it from no holder that the map keeps on
    another adapter with an open request of the id. -/
def Clean (n : Net) (act : Act) : Prop :=
  match act with
  | .regIo id itf =>
    (∀ h ∈ itf, n.map.io.sourceAlive h = true →
      ∀ r ∈ n.inflight, r.cli = (n.map.quiet.upsert_ id).2 →
        (n.note act).Allowed r.owner (.source h)) ∧
      n.Spares act id (n.map.clientList.filter (· ≠ (n.map.quiet.upsert_ id).2))
  | .unregIo id => n.Spares act id (n.map.keptBy id)
  | .performIo _ id handler snd =>
    let m := (n.map.quiet.upsert_ id).1
    let x := (n.map.quiet.upsert_ id).2
    if (m.adapters x).wraps id handler m.io then
      ∀ r ∈ n.inflight, r.cli = x →
        (n.note act).Allowed r.owner (.perform ((m.adapters x).makePerformHolder handler))
    else snd ≠ .rejected → ∀ k ∈ (m.adapters x).getHolder m.io, (n.note act).Allowed id k
  | _ => True

instance (n : Net) (id : IoId) (k : Holder) : Decidable (n.Allowed id k) :=
  match k with
  | .source h => inferInstanceAs (Decidable (n.registered id = some h))
  | .perform p => inferInstanceAs (Decidable (∀ f ∈ p.handler, (id, f) ∈ n.passed))

instance (n : Net) (id : IoId) (o : Outcall) : Decidable (n.Admissible id o) :=
  match o with
  | .performIo h _ _ _ => inferInstanceAs (Decidable (n.registered id = some h))
  | .handler f _ => inferInstanceAs (Decidable ((id, f) ∈ n.passed))
  | .regIo _ _ | .unregIo _ _ | .emptyHandler | .closeReply _ | .optionHandler _ | .post _
  | .send _ _ _ | .severalSources _ _ | .startError _ _ | .withoutRegistration _
  | .noSuitableClient _ | .addrNotSet => inferInstanceAs (Decidable True)

instance (n : Net) (act : Act) (id : IoId) (kept : List ℕ) : Decidable (n.Spares act id kept) :=
  inferInstanceAs (Decidable (∀ r ∈ n.inflight, r.owner = id → r.cli ∈ kept →
    ∀ k ∈ (n.map.adapters r.cli).getHolder n.map.io, (n.note act).Allowed id k))

instance (n : Net) (act : Act) : Decidable (n.Clean act) :=
  match act with
  | .regIo id itf => inferInstanceAs (Decidable ((∀ h ∈ itf, n.map.io.sourceAlive h = true →
      ∀ r ∈ n.inflight, r.cli = (n.map.quiet.upsert_ id).2 →
        (n.note (.regIo id itf)).Allowed r.owner (.source h)) ∧
      n.Spares (.regIo id itf) id
        (n.map.clientList.filter (· ≠ (n.map.quiet.upsert_ id).2))))
  | .unregIo id => inferInstanceAs (Decidable (n.Spares (.unregIo id) id (n.map.keptBy id)))
  | .performIo _ _ _ _ => inferInstanceAs (Decidable (ite _ _ _))
  | .answer _ _ _ _ | .release _ => inferInstanceAs (Decidable True)

end Net

/-- A call that sends a request does so for the adapter `cli`, and only if the client
    accepts it. -/
def Outcall.SentBy (cli : ℕ) (snd : Sending) : Outcall → Prop
  | .send x _ _ => x = cli ∧ snd ≠ .rejected
  | _ => True

/-! ### Whom an adapter delivers to -/

namespace ClientTcpAdapter

section Holder

variable {P : Outcall → Prop} {a : ClientTcpAdapter} {io io' : Io} {k : Holder}

theorem getHolder_of_logs (h : Io.Logs P io io') : a.getHolder io' = a.getHolder io := by
  have halive : a.alive io' = a.alive io := by
    funext k
    cases k <;> simp only [alive, h.released, h.tasks]
  simp only [getHolder]
  rw [halive]

theorem getHolder_regIo {ioId : IoId} {itf : Option Source}
    (h : (a.regIo ioId itf io).1.getHolder io = some k) :
    ∃ s ∈ itf, k = .source s ∧ io.sourceAlive s = true := by
  obtain ⟨hk, halive⟩ := Option.filter_eq_some_iff.mp h
  obtain ⟨s, hs, rfl⟩ := Option.map_eq_some_iff.mp hk
  exact ⟨s, hs, rfl, halive⟩

/-- `unreg_io` may end the life of a wrapper; it binds nothing. -/
theorem getHolder_unregIo {ioId : IoId} (h : (a.unregIo ioId).getHolder io = some k) :
    a.getHolder io = some k := by
  obtain ⟨hk, halive⟩ := Option.filter_eq_some_iff.mp h
  rw [unregIo_holder] at hk
  refine Option.filter_eq_some_iff.mpr ⟨hk, ?_⟩
  cases k with
  | source s => exact halive
  | perform p =>
    simp only [unregIo] at halive
    split at halive
    · exact halive
    · simp only [alive, Bool.or_eq_true, decide_eq_true_eq] at halive ⊢
      exact halive.imp (fun h => by cases h) fun h => h

theorem getHolder_release {s : Source} (h : a.getHolder (io.release s) = some k) :
    a.getHolder io = some k := by
  obtain ⟨hk, halive⟩ := Option.filter_eq_some_iff.mp h
  refine Option.filter_eq_some_iff.mpr ⟨hk, ?_⟩
  cases k with
  | perform p => exact halive
  | source k =>
    simp only [alive, Io.release, Bool.or_eq_true, decide_eq_true_eq, List.mem_append,
      not_or] at halive ⊢
    exact halive.imp (fun h => h.1) fun h => h

/-- `perform_io` binds its wrapper, or leaves the holder as it is. -/
theorem getHolder_performIo {d : DataPtr} {ioId : IoId} {handler : Option Handler} {snd : Sending}
    (h : (a.performIo d ioId handler snd io).1.getHolder io = some k) :
    if a.wraps ioId handler io then k = .perform (a.makePerformHolder handler)
    else a.getHolder io = some k := by
  split
  · next hwraps =>
    obtain ⟨hk, _⟩ := Option.filter_eq_some_iff.mp h
    rw [performIo_holder, if_pos hwraps] at hk
    exact (Option.some.inj hk).symm
  · next hwraps =>
    obtain ⟨b, hb⟩ := a.performIo_fst io ioId d handler snd
    rw [hb, bind_fst, if_neg hwraps] at h
    exact h

/-- A request goes out over a connection of the adapter, and only if it is accepted. -/
theorem performIo_sends (a : ClientTcpAdapter) (io : Io) (d : DataPtr) (ioId : IoId)
    (handler : Option Handler) (snd : Sending) :
    Io.Logs (Outcall.SentBy a.id snd) io (a.performIo d ioId handler snd io).2 := by
  have hbind : Io.Logs (Outcall.SentBy a.id snd) io (a.bind ioId handler io).2 := by
    simp only [bind]
    split
    · exact Io.Logs.emit (P := Outcall.SentBy a.id snd) (o := .withoutRegistration a.id) trivial io
    · exact .refl _ io
  refine hbind.trans ?_
  have hid : (a.bind ioId handler io).1.id = a.id := a.bind_id io ioId handler
  have htransmit : ∀ (b : ClientTcpAdapter) (io : Io), b.id = a.id →
      Io.Logs (Outcall.SentBy a.id snd) io (b.transmit d handler snd io).2 := by
    intro b io hb
    cases snd with
    | accepted conn => exact Io.Logs.emit (o := .send b.id conn d) ⟨hb, by simp⟩ io
    | acceptedByRequest conn => exact Io.Logs.emit (o := .send b.id conn d) ⟨hb, by simp⟩ io
    | rejected =>
      have herror : Io.Logs (Outcall.SentBy a.id .rejected) io
          (if b.errorFlag then io else io.emit (.noSuitableClient d)) := by
        split
        · exact .refl _ io
        · exact Io.Logs.emit (P := Outcall.SentBy a.id .rejected) (o := .noSuitableClient d)
            trivial io
      cases handler with
      | none => exact herror
      | some f =>
        exact herror.trans
          (Io.Logs.emit (P := Outcall.SentBy a.id .rejected) (o := .handler f none) trivial _)
  exact htransmit _ _ hid

/-- Inbound data is delivered to the holder the adapter has at that moment. -/
theorem input_delivers (a : ClientTcpAdapter) (io : Io) (d : DataPtr) (out : Option Conn)
    (hsource : ∀ h reply, a.getHolder io = some (.source h) → P (.performIo h d a.id reply))
    (hperform : ∀ p f, a.getHolder io = some (.perform p) → p.handler = some f → P (.handler f d))
    (hempty : P .emptyHandler) (hclose : ∀ c, P (.closeReply c))
    (hoption : ∀ f, P (.optionHandler f)) : Io.Logs P io (a.input d out io) := by
  have hholder : ∀ holder reply (io' : Io), a.getHolder io = some holder →
      Io.Logs P io' (holder.performIo d a.id reply io') := by
    intro holder reply io' hget
    cases holder with
    | source h =>
      cases reply with
      | connection c => exact .emit (hsource h _ hget) io'
      | counter x => exact (Io.Logs.lend P io' x).trans (.emit (hsource h _ hget) _)
    | perform p =>
      cases hp : p.handler with
      | some f =>
        simp only [Holder.performIo, hp]
        exact .emit (hperform p f hget hp) io'
      | none =>
        simp only [Holder.performIo, hp]
        exact .emit hempty io'
  simp only [input]
  split
  · exact .refl P io
  · split
    · next f _ => exact .emit (hoption f) io
    · split
      · exact .refl P io
      · next holder hget =>
        split
        · exact hholder holder _ io hget
        · cases out with
          | none => exact hholder holder _ io hget
          | some c => exact (Io.Logs.emit (hclose c) io).trans (hholder holder _ _ hget)

end Holder

end ClientTcpAdapter

namespace ClientTcpMap

variable {m : ClientTcpMap} {id : IoId} {x : ℕ} {k : Holder}

/-- Serving an id writes no adapter that has been made before. -/
theorem upsert_adapters (hx : x < m.nextId) : (m.upsert_ id).1.adapters x = m.adapters x := by
  simp only [upsert_]
  cases m.find id with
  | some cli => rfl
  | none => exact create_adapters_of_lt hx

/-- Serving an id changes nothing in which of the adapters made before the map owns. -/
theorem mem_clientList_upsert (h : m.Owned) (hx : x < m.nextId) :
    x ∈ (m.upsert_ id).1.clientList ↔ x ∈ m.clientList := by
  simp only [upsert_]
  cases hfind : m.find id with
  | some cli => rfl
  | none =>
    rw [mem_clientList_iff, mem_clientList_iff, h.held_createAndInsert hfind]
    exact or_iff_left fun hnew => absurd hnew.2 (ne_of_lt hx)

theorem mem_keptBy_iff (h : m.Owned) (hstop : m.stopFlag = false) :
    x ∈ m.keptBy id ↔ x ∈ (m.unregIo id).clientList := by
  obtain ⟨hnone, heq⟩ | ⟨cli, _, hfind, hu⟩ := m.unregIo_spec id
  · have hfind : m.find id = none := hnone.resolve_left (ne_true_of_eq_false hstop)
    rw [heq]
    simp [keptBy, hfind]
  · have hdrop : ∀ x, (m.ledger.drop id).Held x ↔ m.ledger.Held x ∧ x ≠ cli := fun x =>
      Ledger.held_drop h.exclusive hfind
    rw [mem_clientList_iff, hu.ledger_eq]
    obtain ⟨hroom, hL⟩ | ⟨hfull, hL⟩ := m.eraseAndPool_ledger id cli
    · rw [keptBy, if_pos hroom, mem_clientList_iff, hL, Ledger.held_park, hdrop]
      by_cases hx : x = cli
      · exact iff_of_true (hx ▸ Or.inl ⟨id, hfind⟩) (Or.inl hx)
      · exact ⟨fun hheld => Or.inr ⟨hheld, hx⟩, fun hheld => (hheld.resolve_left hx).1⟩
    · rw [keptBy, if_neg (not_lt.mpr hfull), hL, hdrop, List.mem_filter, mem_clientList_iff, hfind]
      refine and_congr_right fun _ => ?_
      rw [decide_eq_true_eq, ne_eq, Option.some.injEq, ne_comm]

theorem mem_of_mem_keptBy (h : x ∈ m.keptBy id) : x ∈ m.clientList := by
  simp only [keptBy] at h
  split at h
  · exact h
  · exact List.mem_of_mem_filter h

/-- `unreg_io` binds no adapter. -/
theorem unregIo_getHolder
    (h : ((m.unregIo id).adapters x).getHolder (m.unregIo id).io = some k) :
    (m.adapters x).getHolder m.io = some k := by
  obtain ⟨_, heq⟩ | ⟨cli, _, _, hu⟩ := m.unregIo_spec id
  · rwa [heq] at h
  · rw [ClientTcpAdapter.getHolder_of_logs hu.io] at h
    by_cases hx : x = cli
    · rw [hx] at h ⊢
      -- stopping the adapter changes no binding either
      obtain ⟨_, _, hcli⟩ | ⟨_, _, hcli⟩ := hu.recycled
      · rw [hcli] at h
        exact ClientTcpAdapter.getHolder_unregIo h
      · rw [hcli] at h
        exact ClientTcpAdapter.getHolder_unregIo h
    · rwa [hu.adapters x hx] at h

theorem event_clientList (m : ClientTcpMap) (cli : ℕ)
    (f : ClientTcpAdapter → Io → ClientTcpAdapter × Io) :
    (m.event cli f).clientList = m.clientList := by
  simp only [event]
  split <;> rfl

/-- Inbound data leaves everything in the map as it is. -/
theorem event_input (m : ClientTcpMap) (cli : ℕ) (d : DataPtr) (out : Option Conn) :
    ∃ io, m.event cli (fun a io => (a, a.input d out io)) = { m with io } ∧
      Io.Logs Outcall.Plain m.io io := by
  simp only [event]
  split
  · refine ⟨(m.adapters cli).input d out m.io, ?_, (m.adapters cli).input_logs m.io d out⟩
    simp only [call, Function.update_eq_self]
  · exact ⟨m.io, rfl, .refl _ m.io⟩

/-- Inbound data binds no adapter. -/
theorem input_getHolder {cli : ℕ} {d : DataPtr} {out : Option Conn} :
    ((m.step (.input cli d out)).adapters x).getHolder (m.step (.input cli d out)).io =
      (m.adapters x).getHolder m.io := by
  obtain ⟨io, heq, hlogs⟩ := m.quiet.event_input cli d out
  have hstep : m.step (.input cli d out) = { m with io } := heq
  have hkeep : (m.adapters x).getHolder io = (m.adapters x).getHolder m.quiet.io :=
    ClientTcpAdapter.getHolder_of_logs hlogs
  rw [hstep]
  exact hkeep

end ClientTcpMap

namespace Net

/-! ### Open requests and the holders of their adapters -/

theorem mem_requests {id : IoId} {os : List Outcall} {r : Request} :
    r ∈ requests id os ↔ r.owner = id ∧ ∃ d, .send r.cli r.conn d ∈ os := by
  simp only [requests]
  rw [List.mem_filterMap]
  constructor
  · rintro ⟨o, ho, hr⟩
    cases o with
    | send cli conn d =>
      cases hr
      exact ⟨rfl, d, ho⟩
    | _ => cases hr
  · rintro ⟨rfl, d, ho⟩
    exact ⟨_, ho, rfl⟩

/-- The requests of a `perform_io` step go out over the adapter that serves the id. -/
theorem request_of_performIo {m : ClientTcpMap} (hinv : m.Inv) (hquiet : m.io.outcalls = [])
    {d : DataPtr} {id : IoId} {handler : Option Handler} {snd : Sending} {r : Request}
    (hr : r ∈ requests id (m.performIo d id handler snd).io.outcalls) :
    m.stopFlag = false ∧ r.owner = id ∧ r.cli = (m.upsert_ id).2 ∧ snd ≠ .rejected ∧
      r.cli < (m.performIo d id handler snd).nextId := by
  obtain ⟨howner, d', hsend⟩ := mem_requests.mp hr
  rw [ClientTcpMap.performIo_eq] at hsend ⊢
  split at hsend
  · rw [hquiet] at hsend
    cases hsend
  · next hstop =>
    have hserved : (m.upsert_ id).1.Inv := hinv.upsert (Bool.not_eq_true _ ▸ hstop) id
    have hident : ((m.upsert_ id).1.adapters (m.upsert_ id).2).id = (m.upsert_ id).2 :=
      hserved.ident _
    have hlt : (m.upsert_ id).2 < (m.upsert_ id).1.nextId :=
      hserved.allocated _ (Or.inl ⟨id, m.find_upsert id⟩)
    have hbefore : .send r.cli r.conn d' ∉ (m.upsert_ id).1.io.outcalls := by
      intro hmem
      obtain hmem | hlife := (m.upsert_logs id).mem_outcalls hmem
      · rw [hquiet] at hmem
        cases hmem
      · exact hlife
    obtain hmem | ⟨hcli, hsent⟩ :=
      (ClientTcpAdapter.performIo_sends _ _ d id handler snd).mem_outcalls hsend
    · exact absurd hmem hbefore
    · rw [hident] at hcli
      rw [if_neg hstop]
      exact ⟨Bool.not_eq_true _ ▸ hstop, howner, hcli, hsent, hcli ▸ hlt⟩

/-- The holder of an adapter of the map with open requests belongs to the owners of all of them. -/
structure Clear (n : Net) : Prop where
  inv : n.map.Inv
  running : n.map.stopFlag = false
  allocated : ∀ r ∈ n.inflight, r.cli < n.map.nextId
  allowed : ∀ r ∈ n.inflight, r.cli ∈ n.map.clientList → ∀ k,
    (n.map.adapters r.cli).getHolder n.map.io = some k → n.Allowed r.owner k

theorem note_inflight (n : Net) (act : Act) : (n.note act).inflight = n.inflight := by
  simp only [note]
  split <;> rfl

/-- The id whose registration a call begins or ends. -/
def Act.registers : Act → Option IoId
  | .regIo id _ => some id
  | .unregIo id => some id
  | _ => none

/-- What is allowed stays so, unless the call is about the registration. -/
theorem allowed_note {n : Net} {act : Act} {id : IoId} {k : Holder} (hne : act.registers ≠ some id)
    (h : n.Allowed id k) : (n.note act).Allowed id k := by
  have hupdate : ∀ {id' : IoId} (itf : Option Source), id' ≠ id →
      Allowed { n with registered := Function.update n.registered id' itf } id k := by
    intro id' itf hid
    cases k with
    | source s => exact (Function.update_of_ne (Ne.symm hid) _ _).trans h
    | perform p => exact h
  cases act with
  | regIo id' itf => exact hupdate itf fun heq => hne (congrArg some heq)
  | unregIo id' => exact hupdate none fun heq => hne (congrArg some heq)
  | performIo d id' handler snd =>
    cases handler with
    | none => exact h
    | some f =>
      cases k with
      | source s => exact h
      | perform p => exact fun f hf => List.mem_append_left _ (h f hf)
  | answer cli conn d out => exact h
  | release s => exact h

/-- The wrapper of a handler stays allowed. -/
theorem allowed_note_perform {n : Net} (act : Act) {id : IoId} {p : PerformHolder}
    (h : n.Allowed id (.perform p)) : (n.note act).Allowed id (.perform p) := by
  simp only [note]
  split
  · exact h
  · exact h
  · exact fun f hf => List.mem_append_left _ (h f hf)
  · exact h

section Clean

variable {n : Net} {id : IoId} {d : DataPtr} {handler : Option Handler} {snd : Sending}

theorem clean_wraps (hclean : n.Clean (.performIo d id handler snd))
    (hwraps : ((n.map.quiet.upsert_ id).1.adapters (n.map.quiet.upsert_ id).2).wraps id handler
      (n.map.quiet.upsert_ id).1.io = true) :
    ∀ r ∈ n.inflight, r.cli = (n.map.quiet.upsert_ id).2 →
      (n.note (.performIo d id handler snd)).Allowed r.owner
        (.perform (((n.map.quiet.upsert_ id).1.adapters
          (n.map.quiet.upsert_ id).2).makePerformHolder handler)) :=
  (if_pos hwraps).mp hclean

theorem clean_keeps (hclean : n.Clean (.performIo d id handler snd))
    (hwraps : ¬ ((n.map.quiet.upsert_ id).1.adapters (n.map.quiet.upsert_ id).2).wraps id handler
      (n.map.quiet.upsert_ id).1.io = true) :
    snd ≠ .rejected → ∀ k ∈ ((n.map.quiet.upsert_ id).1.adapters
      (n.map.quiet.upsert_ id).2).getHolder (n.map.quiet.upsert_ id).1.io,
      (n.note (.performIo d id handler snd)).Allowed id k :=
  (if_neg hwraps).mp hclean

end Clean

namespace Clear

variable {n : Net} {id : IoId} {k : Holder} {r : Request}

/-- The adapter of an open request after `upsert_`. -/
theorem allowed_upsert (h : n.Clear) (hr : r ∈ n.inflight)
    (hown : r.cli ∈ (n.map.quiet.upsert_ id).1.clientList)
    (hk : ((n.map.quiet.upsert_ id).1.adapters r.cli).getHolder (n.map.quiet.upsert_ id).1.io =
      some k) : n.Allowed r.owner k := by
  have hx : r.cli < n.map.quiet.nextId := h.allocated r hr
  have howned : n.map.quiet.Owned := (h.inv.with_io _).toOwned
  rw [ClientTcpMap.upsert_adapters hx,
    ClientTcpAdapter.getHolder_of_logs (n.map.quiet.upsert_logs id)] at hk
  exact h.allowed r hr ((ClientTcpMap.mem_clientList_upsert howned hx).mp hown) k hk

/-- The adapter of an open request after the adapter that serves `id` has been called:
    it is another one, and bound as before, or the call has decided on its holder. -/
theorem holder_call (h : n.Clear) {P : Outcall → Prop}
    {f : ClientTcpAdapter → Io → ClientTcpAdapter × Io}
    (hlogs : ∀ a io, Io.Logs P io (f a io).2) (hr : r ∈ n.inflight)
    (hk : let m := (n.map.quiet.upsert_ id).1.call (n.map.quiet.upsert_ id).2 f
      (m.adapters r.cli).getHolder m.io = some k) :
    r.cli ≠ (n.map.quiet.upsert_ id).2 ∧
      (n.map.adapters r.cli).getHolder n.map.io = some k ∨
    r.cli = (n.map.quiet.upsert_ id).2 ∧
      (f ((n.map.quiet.upsert_ id).1.adapters r.cli) (n.map.quiet.upsert_ id).1.io).1.getHolder
        (n.map.quiet.upsert_ id).1.io = some k := by
  simp only [ClientTcpMap.call, Function.update_apply,
    ClientTcpAdapter.getHolder_of_logs (hlogs _ _)] at hk
  split_ifs at hk with hx
  · rw [← hx] at hk
    exact Or.inr ⟨hx, hk⟩
  · have hlt : r.cli < n.map.quiet.nextId := h.allocated r hr
    rw [ClientTcpMap.upsert_adapters hlt,
      ClientTcpAdapter.getHolder_of_logs (n.map.quiet.upsert_logs id)] at hk
    exact Or.inl ⟨hx, hk⟩

theorem regIo (h : n.Clear) {itf : Option Source} (hclean : n.Clean (.regIo id itf)) :
    (n.step (.regIo id itf)).Clear := by
  obtain ⟨hbound, hspares⟩ := hclean
  have hinflight : (n.step (.regIo id itf)).inflight = n.inflight := n.note_inflight _
  have hrun : n.map.quiet.stopFlag = false := h.running
  have howned : n.map.quiet.Owned := (h.inv.with_io _).toOwned
  have hmap : (n.step (.regIo id itf)).map = (n.map.quiet.upsert_ id).1.call
      (n.map.quiet.upsert_ id).2 (ClientTcpAdapter.regIo id itf) :=
    ClientTcpMap.regIo_of_running hrun
  refine ⟨ClientTcpMap.step_inv h.inv (.regIo id itf), ?_, fun r hr => ?_, fun r hr hown k hk => ?_⟩
  · rw [hmap]
    exact (ClientTcpMap.Steady.upsert n.map.quiet id).stopFlag.trans hrun
  · rw [hinflight] at hr
    exact (h.allocated r hr).trans_le (n.map.nextId_le_step (.regIo id itf))
  · rw [hinflight] at hr
    show (n.note (.regIo id itf)).Allowed r.owner k
    rw [hmap] at hown hk
    have hlogs : ∀ (a : ClientTcpAdapter) io, Io.Logs (fun _ => True) io (a.regIo id itf io).2 :=
      fun a io => (a.regIo_logs io id itf).mono fun _ _ => trivial
    obtain ⟨hx, hold⟩ | ⟨hx, hnew⟩ := h.holder_call hlogs hr hk
    · have hbefore : r.cli ∈ n.map.clientList :=
        (ClientTcpMap.mem_clientList_upsert howned (h.allocated r hr)).mp hown
      by_cases howner : r.owner = id
      · rw [howner]
        refine hspares r hr howner ?_ k hold
        rw [List.mem_filter]
        exact ⟨hbefore, decide_eq_true hx⟩
      · exact allowed_note (fun heq => howner (Option.some.inj heq).symm)
          (h.allowed r hr hbefore k hold)
    · obtain ⟨s, hs, rfl, halive⟩ := ClientTcpAdapter.getHolder_regIo hnew
      rw [ClientTcpAdapter.sourceAlive_of_logs (n.map.quiet.upsert_logs id)] at halive
      exact hbound s hs halive r hr hx

theorem performIo (h : n.Clear) {d : DataPtr} {handler : Option Handler} {snd : Sending}
    (hclean : n.Clean (.performIo d id handler snd)) :
    (n.step (.performIo d id handler snd)).Clear := by
  have hlogs : ∀ (a : ClientTcpAdapter) io,
      Io.Logs Outcall.Plain io (a.performIo d id handler snd io).2 :=
    fun a io => a.performIo_logs io d id handler snd
  have hinv : n.map.quiet.Inv := h.inv.with_io _
  have hrun : n.map.quiet.stopFlag = false := h.running
  have hnote : ∀ {owner k}, n.Allowed owner k →
      (n.note (.performIo d id handler snd)).Allowed owner k := fun hk =>
    allowed_note (fun heq => by cases heq) hk
  have hmap : (n.step (.performIo d id handler snd)).map = (n.map.quiet.upsert_ id).1.call
      (n.map.quiet.upsert_ id).2 (ClientTcpAdapter.performIo d id handler snd) :=
    ClientTcpMap.performIo_of_running hrun
  refine ⟨ClientTcpMap.step_inv h.inv (.performIo d id handler snd), ?_, fun r hr => ?_,
    fun r hr hown k hk => ?_⟩
  · rw [hmap]
    exact (ClientTcpMap.Steady.upsert n.map.quiet id).stopFlag.trans hrun
  · obtain hr | hr := List.mem_append.mp hr
    · exact (h.allocated r hr).trans_le (n.map.nextId_le_step (.performIo d id handler snd))
    · exact (request_of_performIo hinv rfl hr).2.2.2.2
  · show (n.note (.performIo d id handler snd)).Allowed r.owner k
    rw [hmap] at hown hk
    obtain hr | hr := List.mem_append.mp hr
    · obtain ⟨_, hold⟩ | ⟨hx, hnew⟩ := h.holder_call hlogs hr hk
      · have hbefore : r.cli ∈ n.map.clientList :=
          (ClientTcpMap.mem_clientList_upsert hinv.toOwned (h.allocated r hr)).mp hown
        exact hnote (h.allowed r hr hbefore k hold)
      · have hdecide := ClientTcpAdapter.getHolder_performIo hnew
        split at hdecide
        · next hwraps =>
          rw [hx] at hwraps
          rw [hdecide, hx]
          exact clean_wraps hclean hwraps r hr hx
        · exact hnote (h.allowed_upsert hr hown hdecide)
    · obtain ⟨_, howner, hx, hsent, _⟩ := request_of_performIo hinv rfl hr
      simp only [ClientTcpMap.call, hx, Function.update_self,
        ClientTcpAdapter.getHolder_of_logs (hlogs _ _)] at hk
      have hdecide := ClientTcpAdapter.getHolder_performIo hk
      rw [howner]
      split at hdecide
      · -- the wrapper is made for the handler that comes with the request
        rw [hdecide]
        intro f hf
        obtain rfl : handler = some f := hf
        exact List.mem_append_right _ (List.mem_singleton_self _)
      · next hwraps => exact clean_keeps hclean hwraps hsent k hdecide

/-- An adapter that the map keeps is bound as before, and what it is bound to is `id`'s own still,
    or somebody else's. -/
theorem unregIo (h : n.Clear) (hclean : n.Clean (.unregIo id)) :
    (n.step (.unregIo id)).Clear := by
  have hinflight : (n.step (.unregIo id)).inflight = n.inflight := n.note_inflight _
  have hrun : n.map.quiet.stopFlag = false := h.running
  refine ⟨ClientTcpMap.step_inv h.inv (.unregIo id), ?_, fun r hr => ?_, fun r hr hown k hk => ?_⟩
  · exact (ClientTcpMap.Steady.of_quiet (.unregIo id)).stopFlag.trans hrun
  · rw [hinflight] at hr
    exact (h.allocated r hr).trans_le (n.map.nextId_le_step (.unregIo id))
  · rw [hinflight] at hr
    show (n.note (.unregIo id)).Allowed r.owner k
    have hold : (n.map.adapters r.cli).getHolder n.map.io = some k :=
      ClientTcpMap.unregIo_getHolder (m := n.map.quiet) hk
    have hkept : r.cli ∈ n.map.keptBy id :=
      (ClientTcpMap.mem_keptBy_iff (h.inv.with_io _).toOwned hrun).mpr hown
    by_cases howner : r.owner = id
    · rw [howner]
      exact hclean r hr howner hkept k hold
    · exact allowed_note (fun heq => howner (Option.some.inj heq).symm)
        (h.allowed r hr (ClientTcpMap.mem_of_mem_keptBy hkept) k hold)

/-- An answer and the end of a source bind nothing. -/
theorem of_getHolder (h : n.Clear) {act : ClientTcpMap.Act} {inflight : List Request}
    (hstop : (n.map.step act).stopFlag = n.map.stopFlag)
    (hlist : (n.map.step act).clientList = n.map.clientList)
    (hsub : ∀ r ∈ inflight, r ∈ n.inflight)
    (hkeep : ∀ x k, ((n.map.step act).adapters x).getHolder (n.map.step act).io = some k →
      (n.map.adapters x).getHolder n.map.io = some k) :
    Clear { n with map := n.map.step act, inflight } where
  inv := ClientTcpMap.step_inv h.inv act
  running := hstop.trans h.running
  allocated := fun r hr => (h.allocated r (hsub r hr)).trans_le (n.map.nextId_le_step act)
  allowed := fun r hr hown k hk => h.allowed r (hsub r hr) (hlist ▸ hown) k (hkeep _ k hk)

theorem step (h : n.Clear) {act : Act} (hclean : n.Clean act) : (n.step act).Clear := by
  cases act with
  | regIo id itf => exact h.regIo hclean
  | performIo d id handler snd => exact h.performIo hclean
  | unregIo id => exact h.unregIo hclean
  | release s =>
    refine h.of_getHolder rfl rfl (fun _ hr => hr) fun x k hk => ?_
    have hquiet : (n.map.adapters x).getHolder n.map.quiet.io = some k :=
      ClientTcpAdapter.getHolder_release hk
    exact hquiet
  | answer cli conn d out =>
    unfold Net.step
    dsimp only
    split
    · exact ⟨h.inv.with_io _, h.running, h.allocated, h.allowed⟩
    · next r _ =>
      refine h.of_getHolder ?_ (ClientTcpMap.event_clientList _ cli _)
        (fun _ hr => List.mem_of_mem_erase hr) fun x k hk => ?_
      · exact (ClientTcpMap.Steady.of_quiet (.event cli _)).stopFlag
      · rwa [ClientTcpMap.input_getHolder] at hk

end Clear

/-! ### Runs -/

theorem clear_start (refuses : ℕ → Bool) (opt : ClientTcpConfig) : (start refuses opt).Clear :=
  ⟨ClientTcpMap.step_inv (ClientTcpMap.inv_init refuses) (.reconfigureAndStart opt),
    (ClientTcpMap.reconfigureAndStart_spec opt (ClientTcpMap.init refuses).quiet).stopFlag,
    fun _ hr => (by cases hr), fun _ hr => (by cases hr)⟩

theorem step_answer {n : Net} {cli : ℕ} {conn : Conn} {r : Request}
    (hold : n.oldest cli conn = some r) (d : DataPtr) (out : Option Conn) :
    n.step (.answer cli conn d out) =
      { n with map := n.map.step (.input cli d out), inflight := n.inflight.erase r } := by
  simp only [Net.step, hold]

/-- Where the open requests are clear, an answer reaches nobody but its own id. -/
theorem Clear.isolated {n : Net} (h : n.Clear) (act : Act) : n.Isolated act := by
  cases act with
  | answer cli conn d out =>
    intro r hr o ho
    have hmem : r ∈ n.inflight := List.mem_of_find?_eq_some hr
    have hcli : r.cli = cli := by
      have hp := List.find?_some hr
      simp only [decide_eq_true_eq] at hp
      exact hp.1
    rw [step_answer hr] at ho
    -- what the holder of the adapter is allowed to receive decides
    have hevent : o ∈ (n.map.quiet.event cli fun a io => (a, a.input d out io)).io.outcalls := ho
    simp only [ClientTcpMap.event] at hevent
    split at hevent
    · next hown =>
      have hown' : r.cli ∈ n.map.clientList := hcli.symm ▸ hown
      have hholder : ∀ k, (n.map.adapters cli).getHolder n.map.quiet.io = some k →
          n.Allowed r.owner k := fun k hk => h.allowed r hmem hown' k (hcli.symm ▸ hk)
      have hlogs : Io.Logs (n.Admissible r.owner) n.map.quiet.io
          ((n.map.adapters cli).input d out n.map.quiet.io) :=
        ClientTcpAdapter.input_delivers _ _ d out (fun s _ hs => hholder _ hs)
          (fun p f hp hf => hholder _ hp f hf) trivial (fun _ => trivial) fun _ => trivial
      obtain hnone | hadm := hlogs.mem_outcalls hevent
      · cases hnone
      · exact hadm
    · cases hevent
  | _ => trivial

/-- **Answers are isolated.** In a run of clean calls every answer is delivered to the
    holder that the id of the request is registered with, or to a handler of it, or to nobody. -/
theorem answers_isolated (refuses : ℕ → Bool) (opt : ClientTcpConfig) (acts : List Act)
    (hclean : Along step Clean (start refuses opt) acts) :
    Along step Isolated (start refuses opt) acts :=
  along_of_invariant (I := Clear) (fun _ _ hact h => h.step hact) (fun _ act h => h.isolated act)
    (clear_start refuses opt) hclean

/-- 1 is answered and unregistered, and 2 gets its adapter from the pool, while a request of 3,
    which came with a handler, is open. -/
def reuse : List Act :=
  [.regIo 1 (some 11), .performIo none 1 none (.accepted 0),
    .performIo none 3 (some 33) (.accepted 0), .answer 1 0 none none, .unregIo 1,
    .regIo 2 (some 22), .performIo none 2 none (.accepted 0), .answer 1 0 none none,
    .answer 2 0 none none]

/-- The answers to 1 and 2 come by the same adapter, and reach the source of each. -/
theorem answers_isolated_reuse :
    Along step Isolated (start (fun _ => false) { secondaryPool := 1 }) reuse ∧
      (run step (start (fun _ => false) { secondaryPool := 1 }) (reuse.take 4)).map.io.outcalls =
        [.performIo 11 none 1 (.connection none)] ∧
      (run step (start (fun _ => false) { secondaryPool := 1 }) (reuse.take 8)).map.io.outcalls =
        [.performIo 22 none 1 (.connection none)] :=
  ⟨answers_isolated _ _ _ (by decide +kernel), by decide, by decide⟩

/-- Through the secondary pool an answer for 1 reaches the source of 2. -/
theorem answers_not_isolated :
    ¬ ∀ (refuses : ℕ → Bool) (opt : ClientTcpConfig) (acts : List Act),
      Along step Isolated (start refuses opt) acts := by
  intro hall
  have h := hall (fun _ => false) { secondaryPool := 1 }
    [.regIo 1 (some 11), .performIo none 1 none (.accepted 0), .unregIo 1, .regIo 2 (some 22),
      .answer 1 0 none none]
  obtain ⟨_, _, _, _, hanswer, _⟩ := h
  exact absurd (hanswer ⟨1, 0, 1⟩ (by decide) (.performIo 22 none 1 (.connection none)) (by decide))
    (by decide)

end Net

end WfcIo

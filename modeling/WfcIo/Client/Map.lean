import WfcIo.Client.Adapter
import WfcIo.Foundation.Run
import WfcIo.Foundation.OrderedMap
import Mathlib.Logic.Function.Basic

/-!
# The map of TCP clients

`client_tcp_map` gives every source that sends data (every id) an adapter of its own.
An adapter comes from one of three pools or is built on demand, and goes back to the
secondary pool, if there is room, when its id is unregistered.

An adapter is known by its `_id`, which `create_id` never hands out twice. The adapters
themselves, dead ones included, are in the field `adapters`; the map and the pools hold
the ids of those they own. Nobody else owns an adapter: all callbacks into one go
through a weak pointer.

## Main definitions

- `ClientTcpMap` — the fields of the class, the adapters and what is outside them
- `ClientTcpMap.upsert_`, `create_`, `eraseAndPool` — the sections under the lock
- `ClientTcpMap.Act` — the public calls, and the events that reach an adapter
- `ClientTcpMap.step` — one call or event as an atomic step
-/

namespace WfcIo

open Foundation

structure ClientTcpMap where
  io : Io := {}
  adapters : ℕ → ClientTcpAdapter := fun cli => { id := cli }
  nextId : ℕ := 1
  opt : ClientTcpConfig := {}
  clients : OrderedMap IoId ℕ := .empty
  startupPool : List ℕ := []
  primaryPool : List ℕ := []
  secondaryPool : List ℕ := []
  startupFlag : Bool := true
  stopFlag : Bool := false

namespace ClientTcpMap

/-- The map as it is constructed, where `_client->start` throws for the adapters in
    `refuses`. -/
def init (refuses : ℕ → Bool) : ClientTcpMap := { io := { refuses } }

/-! ### Adapters -/

/-- Call an operation of the adapter `cli`. -/
def call (cli : ℕ) (f : ClientTcpAdapter → Io → ClientTcpAdapter × Io) (m : ClientTcpMap) :
    ClientTcpMap :=
  { m with
    adapters := Function.update m.adapters cli (f (m.adapters cli) m.io).1
    io := (f (m.adapters cli) m.io).2 }

/-- `std::make_shared<client_type>(_io)`. -/
def makeClient (m : ClientTcpMap) : ClientTcpMap × ℕ :=
  ({ m with
    adapters := Function.update m.adapters m.nextId { id := m.nextId }
    nextId := m.nextId + 1 }, m.nextId)

/-- `cli->start(_opt)`. -/
def startClient (m : ClientTcpMap) (cli : ℕ) : ClientTcpMap :=
  m.call cli (ClientTcpAdapter.start m.opt)

/-- A new adapter that is started at once. -/
def buildClient (m : ClientTcpMap) : ClientTcpMap × ℕ :=
  let r := m.makeClient
  (r.1.startClient r.2, r.2)

/-- `cli->stop()`. -/
def stopClient (m : ClientTcpMap) (cli : ℕ) : ClientTcpMap :=
  m.call cli (fun a io => (a.stop, io))

/-- The last pointer to `cli` goes. -/
def destroyClient (m : ClientTcpMap) (cli : ℕ) : ClientTcpMap :=
  { m with io := (m.adapters cli).destroy m.io }

/-! ### Sections under the lock -/

/-- `find`. -/
def find (m : ClientTcpMap) (id : IoId) : Option ℕ := m.clients.find id

/-- `create_`. -/
def create_ (m : ClientTcpMap) : ClientTcpMap × ℕ :=
  match m.startupPool with
  | cli :: rest => ({ m with startupPool := rest }, cli)
  | [] =>
    match m.secondaryPool with
    | cli :: rest => ({ m with secondaryPool := rest }, cli)
    | [] =>
      match m.primaryPool with
      | cli :: rest =>
        let r := { m with primaryPool := rest }.buildClient
        ({ r.1 with primaryPool := r.1.primaryPool ++ [r.2] }, cli)
      | [] => m.buildClient

/-- The second section of `upsert_`: create an adapter and insert it. -/
def createAndInsert (id : IoId) (m : ClientTcpMap) : ClientTcpMap × ℕ :=
  let r := m.create_
  ({ r.1 with clients := r.1.clients.insert id r.2 }, r.2)

/-- `upsert_`: a lookup, and the second section when it finds nothing. -/
def upsert_ (id : IoId) (m : ClientTcpMap) : ClientTcpMap × ℕ :=
  match m.find id with
  | some cli => (m, cli)
  | none => m.createAndInsert id

/-- The locked section of `unreg_io`; tells whether the adapter went to the pool. -/
def eraseAndPool (id : IoId) (cli : ℕ) (m : ClientTcpMap) : ClientTcpMap × Bool :=
  if m.secondaryPool.length < m.opt.secondaryPool then
    ({ m with clients := m.clients.erase id, secondaryPool := m.secondaryPool ++ [cli] }, true)
  else ({ m with clients := m.clients.erase id }, false)

/-- What `unreg_io` does with an adapter that did not go to the pool. -/
def discard (m : ClientTcpMap) (cli : ℕ) : ClientTcpMap :=
  (m.stopClient cli).destroyClient cli

/-! ### Public calls -/

/-- `reg_io`. -/
def regIo (id : IoId) (itf : Option Source) (m : ClientTcpMap) : ClientTcpMap :=
  if m.stopFlag then m
  else
    let r := m.upsert_ id
    r.1.call r.2 (ClientTcpAdapter.regIo id itf)

/-- `cli->unreg_io(id)`. -/
def unregClient (id : IoId) (cli : ℕ) (m : ClientTcpMap) : ClientTcpMap :=
  m.call cli (fun a io => (a.unregIo id, io))

/-- `unreg_io`. -/
def unregIo (id : IoId) (m : ClientTcpMap) : ClientTcpMap :=
  if m.stopFlag then m
  else
    match m.find id with
    | none => m
    | some cli =>
      let r := (m.unregClient id cli).eraseAndPool id cli
      if r.2 then r.1 else r.1.discard cli

/-- `create`. -/
def create (id : IoId) (m : ClientTcpMap) : ClientTcpMap × ℕ := m.upsert_ id

/-- `perform_io`. An id that is not in the map gets an adapter without `reg_io`. -/
def performIo (d : DataPtr) (id : IoId) (handler : Option Handler) (snd : Sending)
    (m : ClientTcpMap) : ClientTcpMap :=
  if m.stopFlag then m
  else
    let r := match m.find id with
      | some cli => (m, cli)
      | none => m.create id
    r.1.call r.2 (ClientTcpAdapter.performIo d id handler snd)

/-- The adapters `stop_all_clients` collects: all the map owns. -/
def clientList (m : ClientTcpMap) : List ℕ :=
  m.clients.values ++ m.primaryPool ++ m.secondaryPool ++ m.startupPool

/-- `stop_all_clients`. -/
def stopAllClients (m : ClientTcpMap) : ClientTcpMap := m.clientList.foldl stopClient m

/-- The last pointers to the adapters of a list go, first to last. -/
def destroyAll (m : ClientTcpMap) (l : List ℕ) : ClientTcpMap := l.foldl destroyClient m

/-- `n` new adapters, in the order they are made. -/
def makeClients : ℕ → ClientTcpMap → ClientTcpMap × List ℕ
  | 0, m => (m, [])
  | n + 1, m =>
    let r := m.makeClient
    let t := makeClients n r.1
    (t.1, r.2 :: t.2)

/-- Give every id in `_clients` a new adapter in place of the old one. -/
def renewClients (m : ClientTcpMap) : ClientTcpMap :=
  let r := m.clients.mapAccum
    (fun m old => (m.makeClient.1.destroyClient old, m.makeClient.2)) m
  { r.1 with clients := r.2 }

def clearSecondary (m : ClientTcpMap) : ClientTcpMap :=
  { m.destroyAll m.secondaryPool with secondaryPool := [] }

def refillPrimary (n : ℕ) (m : ClientTcpMap) : ClientTcpMap :=
  let r := (m.destroyAll m.primaryPool).makeClients n
  { r.1 with primaryPool := r.2 }

/-- The startup pool is emptied, and filled only the first time. -/
def refillStartup (n : ℕ) (m : ClientTcpMap) : ClientTcpMap :=
  let m' := m.destroyAll m.startupPool
  if m.startupFlag then
    let r := m'.makeClients n
    { r.1 with startupPool := r.2, startupFlag := false }
  else { m' with startupPool := [] }

/-- `reconfigure_and_start`. -/
def reconfigureAndStart (opt : ClientTcpConfig) (m : ClientTcpMap) : ClientTcpMap :=
  let m₁ := { m.stopAllClients with opt }.renewClients
  let m₂ := (m₁.clearSecondary.refillPrimary opt.primaryPool).refillStartup opt.startupPool
  let m₃ := (m₂.clients.values ++ m₂.primaryPool ++ m₂.startupPool).foldl startClient m₂
  { m₃ with stopFlag := false }

/-- `stop`. -/
def stop (m : ClientTcpMap) : ClientTcpMap :=
  let m' := { m with stopFlag := true }.stopAllClients
  let m'' := m'.destroyAll
    (m'.clients.values ++ m'.primaryPool ++ m'.secondaryPool ++ m'.startupPool)
  { m'' with clients := .empty, primaryPool := [], secondaryPool := [], startupPool := [] }

/-! ### Steps -/

/-- A public call of the map, or an event: a source is let go by its last owner, data
    comes in to an adapter, one of its connections is established or closed, a posted
    task runs, a source calls the counter-request callback it was given. -/
inductive Act
  | reconfigureAndStart (opt : ClientTcpConfig)
  | stop
  | regIo (id : IoId) (itf : Option Source)
  | unregIo (id : IoId)
  | performIo (d : DataPtr) (id : IoId) (handler : Option Handler) (snd : Sending)
  | release (h : Source)
  | input (cli : ℕ) (d : DataPtr) (out : Option Conn)
  | connected (cli : ℕ)
  | closed (cli : ℕ)
  | runTask (n : ℕ)
  | counterReply (cli : ℕ) (d : DataPtr) (snd : Sending)
  deriving DecidableEq

/-- The action is an event, not a call. -/
def Act.isEvent : Act → Bool
  | .release _ => true
  | .input _ _ _ => true
  | .connected _ => true
  | .closed _ => true
  | .runTask _ => true
  | .counterReply _ _ _ => true
  | _ => false

/-- An event reaches the adapter `cli` if it still exists. -/
def event (cli : ℕ) (f : ClientTcpAdapter → Io → ClientTcpAdapter × Io) (m : ClientTcpMap) :
    ClientTcpMap :=
  if cli ∈ m.clientList then m.call cli f else m

def exec (m : ClientTcpMap) : Act → ClientTcpMap
  | .reconfigureAndStart opt => m.reconfigureAndStart opt
  | .stop => m.stop
  | .regIo id itf => m.regIo id itf
  | .unregIo id => m.unregIo id
  | .performIo d id handler snd => m.performIo d id handler snd
  | .release h => { m with io := m.io.release h }
  | .input cli d out => m.event cli (fun a io => (a, a.input d out io))
  | .connected cli => m.event cli (fun a io => (a, a.connected io))
  | .closed cli => m.event cli (fun a io => (a, a.closed io))
  | .runTask n => { m with io := m.io.runTask n }
  | .counterReply cli d snd => m.event cli (ClientTcpAdapter.counterReply d snd)

/-- Forget what was called outside in the previous step. -/
def quiet (m : ClientTcpMap) : ClientTcpMap := { m with io := { m.io with outcalls := [] } }

/-- One atomic step; `io.outcalls` is then what it has called outside. -/
def step (m : ClientTcpMap) (a : Act) : ClientTcpMap := m.quiet.exec a

end ClientTcpMap

end WfcIo

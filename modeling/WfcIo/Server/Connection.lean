import WfcIo.Interface
import WfcIo.Foundation.Session

/-!
# The connections of a TCP server

`tcp_connection` registers at the target of the server when it is set up and ends its registration
when it is shut down, unless it is in direct mode. The input handler of `server_tcp` passes what
comes in on to the target; without keep-alive, an answer is followed by a null pointer, which closes
the connection.

The library calls the three handlers of a connection: one when it is established, one for each
message, and one when it is closed. The target is a `winterface`, and alive as long as the handlers.

## Main definitions

- `TcpConnection.startup`, `ServerTcp.inputHandler`, `TcpConnection.shutdown` — the handlers
- `ServerTcp.Contract` — the order in which the library calls them
- `ServerTcp.targetCalls` — what the target of the server sees

## Main results

- `ServerTcp.targetCalls_word` — who is registered at the target
- `ServerTcp.in_session_iff` — when the target gets messages of registered sources only
-/

namespace WfcIo

open Foundation

/-- `tcp_connection_options`: the fields that the package reads. -/
structure TcpConnectionOptions where
  directMode : Bool := false
  startupHandler : Option Handler := none
  shutdownHandler : Option Handler := none
  deriving DecidableEq

/-- The output handler that the target gets: that of the connection, or the lambda that closes the
    connection after the answer. -/
inductive ServerReply
  | plain (cb : Option Handler)
  | closing (cb : Option Handler)
  deriving DecidableEq

/-- What a call of the handler calls (`none` is an empty function, which throws). -/
def ServerReply.call (d : DataPtr) : ServerReply → List (Option Handler × DataPtr)
  | .plain cb => [(cb, d)]
  | .closing cb => [(cb, d), (cb, none)]

namespace TcpConnection

/-- What the handlers of a connection call: the target, with the connection as source, or a handler
    that was in the options before. -/
inductive Outcall
  | target (c : IoCall IoId ServerReply)
  | optionHandler (f : Handler)
  deriving DecidableEq

/-- The startup handler that `initialize` puts into the options. -/
def startup (o : TcpConnectionOptions) (id : IoId) : List Outcall :=
  (if o.directMode then [] else [.target (.regIo id id)]) ++
    o.startupHandler.toList.map .optionHandler

/-- The shutdown handler that `initialize` puts into the options. -/
def shutdown (o : TcpConnectionOptions) (id : IoId) : List Outcall :=
  (if o.directMode then [] else [.target (.unregIo id)]) ++
    o.shutdownHandler.toList.map .optionHandler

end TcpConnection

namespace ServerTcp

/-- The input handler that `run_` puts into the options. -/
def inputHandler (keepAlive : Bool) (d : DataPtr) (id : IoId) (cb : Option Handler) :
    List TcpConnection.Outcall :=
  [.target (.performIo d id (if keepAlive then .plain cb else .closing cb))]

/-- A connection is established, a message comes in, or the connection is closed. -/
inductive ConnectionEvent
  | startup (id : IoId)
  | input (d : DataPtr) (id : IoId) (cb : Option Handler)
  | shutdown (id : IoId)
  deriving DecidableEq

/-- What the server does. -/
def serve (o : TcpConnectionOptions) (keepAlive : Bool) :
    ConnectionEvent → List TcpConnection.Outcall
  | .startup id => TcpConnection.startup o id
  | .input d id cb => inputHandler keepAlive d id cb
  | .shutdown id => TcpConnection.shutdown o id

/-- What the event says about the connection `id`: it is open, or closed. -/
def ConnectionEvent.word (id : IoId) : ConnectionEvent → Option Bool
  | .startup k => if k = id then some true else none
  | .input _ _ _ => none
  | .shutdown k => if k = id then some false else none

/-- The connection is open. -/
def Open (events : List ConnectionEvent) (id : IoId) : Prop :=
  latest (ConnectionEvent.word id) events = some true

/-- What the library keeps to: a connection is not established twice at a time, and it is there
    when a message comes in and when it is closed. -/
def Contract (pre : List ConnectionEvent) : ConnectionEvent → Prop
  | .startup id => ¬ Open pre id
  | .input _ id _ => Open pre id
  | .shutdown id => Open pre id

instance (events : List ConnectionEvent) (id : IoId) : Decidable (Open events id) :=
  inferInstanceAs (Decidable (_ = _))

instance (pre : List ConnectionEvent) : ∀ e, Decidable (Contract pre e)
  | .startup id => inferInstanceAs (Decidable (¬ Open pre id))
  | .input _ id _ => inferInstanceAs (Decidable (Open pre id))
  | .shutdown id => inferInstanceAs (Decidable (Open pre id))

def targetCall : TcpConnection.Outcall → Option (IoCall IoId ServerReply)
  | .target c => some c
  | .optionHandler _ => none

/-- The calls of the target. -/
def targetCalls (o : TcpConnectionOptions) (keepAlive : Bool) (events : List ConnectionEvent) :
    List (IoCall IoId ServerReply) :=
  (events.flatMap (serve o keepAlive)).filterMap targetCall

variable {o : TcpConnectionOptions} {keepAlive : Bool} {events : List ConnectionEvent}

/-- The handlers of the options are no calls of the target. -/
theorem filterMap_optionHandler (f : Option Handler) :
    (f.toList.map TcpConnection.Outcall.optionHandler).filterMap targetCall = [] := by
  cases f <;> rfl

theorem targetCalls_concat (events : List ConnectionEvent) (e : ConnectionEvent) :
    targetCalls o keepAlive (events ++ [e]) =
      targetCalls o keepAlive events ++
        match e with
        | .startup id => if o.directMode then [] else [.regIo id id]
        | .input d id cb => [.performIo d id (if keepAlive then .plain cb else .closing cb)]
        | .shutdown id => if o.directMode then [] else [.unregIo id] := by
  rw [targetCalls, List.flatMap_append, List.filterMap_append, List.flatMap_singleton]
  congr 1
  cases e with
  | startup id =>
    simp only [serve, TcpConnection.startup, List.filterMap_append, filterMap_optionHandler,
      List.append_nil]
    split <;> rfl
  | input d id cb => rfl
  | shutdown id =>
    simp only [serve, TcpConnection.shutdown, List.filterMap_append, filterMap_optionHandler,
      List.append_nil]
    split <;> rfl

/-- **Who is registered**: the open connections, or nobody in direct mode. -/
theorem targetCalls_word (events : List ConnectionEvent) (id : IoId) :
    latest (IoCall.word id) (targetCalls o keepAlive events) =
      if o.directMode then none else latest (ConnectionEvent.word id) events := by
  induction events using List.reverseRecOn with
  | nil => exact (ite_self none).symm
  | append_singleton events e ih =>
    rw [targetCalls_concat, latest_append, ih, latest_concat]
    cases e with
    | startup k => cases o.directMode <;> simp [ConnectionEvent.word, IoCall.word]
    | input d k cb => simp [ConnectionEvent.word, IoCall.word]
    | shutdown k => cases o.directMode <;> simp [ConnectionEvent.word, IoCall.word]

/-- **Sessions of a server.** If the library keeps to the order, the target of the server gets
    messages of registered connections only, unless messages come in in direct mode. -/
theorem in_session_iff (hevents : AtEach Contract events) :
    InSession IoCall.word IoCall.uses (targetCalls o keepAlive events) ↔
      (o.directMode = true → ∀ d id cb, .input d id cb ∉ events) := by
  induction events using List.reverseRecOn with
  | nil => exact iff_of_true inSession_nil fun _ _ _ _ => List.not_mem_nil
  | append_singleton events e ih =>
    obtain ⟨hevents', he⟩ := atEach_concat_iff.mp hevents
    rw [targetCalls_concat]
    cases e with
    | input d id cb =>
      have hopen : latest (ConnectionEvent.word id) events = some true := he
      rw [inSession_concat_iff, ih hevents']
      simp only [IoCall.uses, targetCalls_word, Option.some.injEq, forall_eq']
      cases o.directMode with
      | true =>
        refine iff_of_false (fun h => by cases h.2) fun h => ?_
        exact h rfl d id cb (List.mem_append_right _ List.mem_cons_self)
      | false => simp [hopen]
    | startup id =>
      have hmem : ∀ d k cb, .input d k cb ∉ events ++ [ConnectionEvent.startup id] ↔
          .input d k cb ∉ events := by simp
      simp only [hmem]
      rw [inSession_append_unused, ih hevents']
      intro c hc
      split at hc
      · cases hc
      · cases List.mem_singleton.mp hc
        rfl
    | shutdown id =>
      have hmem : ∀ d k cb, .input d k cb ∉ events ++ [ConnectionEvent.shutdown id] ↔
          .input d k cb ∉ events := by simp
      simp only [hmem]
      rw [inSession_append_unused, ih hevents']
      intro c hc
      split at hc
      · cases hc
      · cases List.mem_singleton.mp hc
        rfl

end ServerTcp

end WfcIo

import WfcIo.Interface

/-!
# The TCP client adapter

`client_tcp_adapter` owns one client of the remote server (with one or more
connections) and passes the traffic of that client to the one source it is bound to.
The binding is kept in three fields: `_holder_id` is the id the source registered
with, `_holder` a weak pointer to the source, and `_perform_holder` the wrapper the
adapter makes around an output handler when a source sends data without registering.

The functions below take the adapter and what is outside of it (`Io`) and return both.
What an adapter calls outside itself during a step is recorded in `Io.outcalls`.

## Main definitions

- `ClientTcpConfig` — the options of a client
- `Holder` — a source, or a `perform_holder` made by an adapter
- `Io` — sources that are gone, tasks posted to the `io_context`, calls made outside
- `ClientTcpAdapter` — the adapter and its operations and event handlers
-/

namespace WfcIo

/-- `client_tcp_config` with the fields of its base that the package reads. The
    three handlers are those a caller may have put into the options. -/
structure ClientTcpConfig where
  addr : String := ""
  readerSep : String := ""
  writerSep : String := ""
  inputHandler : Option Handler := none
  connectHandler : Option Handler := none
  shutdownHandler : Option Handler := none
  rn : Bool := true
  keepAlive : Bool := true
  abortIfError : Bool := true
  startupPool : ℕ := 1
  primaryPool : ℕ := 0
  secondaryPool : ℕ := 0
  deriving DecidableEq

/-- `client_tcp_adapter::perform_holder`: the `serial`-th wrapper the adapter `cli` has
    made, around `handler`. The first two fields are the identity of the object. -/
structure PerformHolder where
  cli : ℕ
  serial : ℕ
  handler : Option Handler
  deriving DecidableEq

/-- What `_holder` can point to. -/
inductive Holder
  | source (h : Source)
  | perform (p : PerformHolder)
  deriving DecidableEq

/-- A task posted to the `io_context` by a shutdown handler: it calls
    `holder->unreg_io(cli)`, and owns the holder until it has run. -/
structure Task where
  holder : Holder
  cli : ℕ
  deriving DecidableEq

/-- The output handler an adapter passes on with inbound data: the one of the
    connection, or the lambda that answers through the adapter `cli`. -/
inductive Reply
  | connection (out : Option Conn)
  | counter (cli : ℕ)
  deriving DecidableEq

/-- What an adapter does outside itself. -/
inductive Outcall
  | regIo (h : Source) (cli : ℕ)
  | unregIo (h : Source) (cli : ℕ)
  | performIo (h : Source) (d : DataPtr) (cli : ℕ) (reply : Reply)
  | handler (f : Handler) (d : DataPtr)
  /-- An empty `output_handler_t` is called: `std::bad_function_call`. -/
  | emptyHandler
  /-- The output handler of a connection is called with `nullptr`. -/
  | closeReply (out : Conn)
  | optionHandler (f : Handler)
  | post (t : Task)
  /-- The client accepts the data and sends it over the connection `conn`. -/
  | send (cli : ℕ) (conn : Conn) (d : DataPtr)
  /-- `DOMAIN_LOG_FATAL`: "Several sources are unacceptable". -/
  | severalSources (holderId ioId : IoId)
  /-- `_client->start` has thrown; `abort` when `abort_if_error` makes that fatal. -/
  | startError (cli : ℕ) (abort : Bool)
  /-- `DOMAIN_LOG_WARNING`: "The object sent data without registration". -/
  | withoutRegistration (cli : ℕ)
  /-- `IOW_LOG_ERROR`: "No suitable client to send data was found". -/
  | noSuitableClient (d : DataPtr)
  /-- `DOMAIN_LOG_FATAL`: "you must set the 'addr' field or enable suspend mode". -/
  | addrNotSet
  deriving DecidableEq

/-- The two `_client->send` attempts of `perform_io`: the first accepts the data, the
    second (which may connect, see `connect_by_request`) does, or neither. -/
inductive Sending
  | accepted (conn : Conn)
  | acceptedByRequest (conn : Conn)
  | rejected
  deriving DecidableEq

/-- What is outside the adapters. `released` are the sources whose owners have let
    them go, `counters` the adapters whose counter-request callback has been handed to
    a source, `refuses` the adapters whose `_client->start` throws. -/
structure Io where
  released : List Source := []
  tasks : List Task := []
  counters : List ℕ := []
  refuses : ℕ → Bool := fun _ => false
  outcalls : List Outcall := []

namespace Io

def emit (io : Io) (o : Outcall) : Io := { io with outcalls := io.outcalls ++ [o] }

/-- `boost::asio::post`. -/
def post (io : Io) (t : Task) : Io :=
  { io with tasks := io.tasks ++ [t], outcalls := io.outcalls ++ [.post t] }

/-- A source has been given the counter-request callback of the adapter `cli`. -/
def lend (io : Io) (cli : ℕ) : Io := { io with counters := io.counters ++ [cli] }

@[simp] theorem emit_outcalls (io : Io) (o : Outcall) :
    (io.emit o).outcalls = io.outcalls ++ [o] := rfl

@[simp] theorem post_outcalls (io : Io) (t : Task) :
    (io.post t).outcalls = io.outcalls ++ [.post t] := rfl

end Io

namespace Holder

/-- `holder->reg_io(cli, adapter)`. A `perform_holder` does not override it. -/
def regIo (cli : ℕ) (io : Io) : Holder → Io
  | source h => io.emit (.regIo h cli)
  | perform _ => io

/-- `holder->unreg_io(cli)`. A `perform_holder` does not override it. -/
def unregIo (cli : ℕ) (io : Io) : Holder → Io
  | source h => io.emit (.unregIo h cli)
  | perform _ => io

/-- `holder->perform_io(d, cli, reply)`. A `perform_holder` calls its handler and drops
    the reply. -/
def performIo (d : DataPtr) (cli : ℕ) (reply : Reply) (io : Io) : Holder → Io
  | source h =>
    match reply with
    | .connection _ => io.emit (.performIo h d cli reply)
    | .counter x => (io.lend x).emit (.performIo h d cli reply)
  | perform p =>
    match p.handler with
    | some f => io.emit (.handler f d)
    | none => io.emit .emptyHandler

end Holder

/-- `client_tcp_adapter`. `performs` counts the wrappers made so far, and the last two
    fields say whether `start` and `stop` have been called. -/
structure ClientTcpAdapter where
  id : ℕ
  holderId : IoId := 0
  errorFlag : Bool := false
  holder : Option Holder := none
  performHolder : Option PerformHolder := none
  keepAlive : Bool := false
  options : Option ClientTcpConfig := none
  performs : ℕ := 0
  startCalled : Bool := false
  stopCalled : Bool := false
  deriving DecidableEq

namespace ClientTcpAdapter

/-- `start` has been called on the adapter and `stop` has not. -/
def live (a : ClientTcpAdapter) : Bool := a.startCalled && !a.stopCalled

/-- The object is still owned by somebody: a source by its owners or by a posted task,
    a `perform_holder` by `_perform_holder` or by a posted task. -/
def alive (a : ClientTcpAdapter) (io : Io) : Holder → Bool
  | .source h => decide (h ∉ io.released) || io.tasks.any (fun t => t.holder = .source h)
  | .perform p => decide (a.performHolder = some p) || io.tasks.any (fun t => t.holder = .perform p)

/-- `get_holder`: `_holder.lock()`. -/
def getHolder (a : ClientTcpAdapter) (io : Io) : Option Holder := a.holder.filter (a.alive io)

/-- `start`. The handlers it puts into the options are `input`, `connected` and
    `closed` below. -/
def start (opt : ClientTcpConfig) (a : ClientTcpAdapter) (io : Io) : ClientTcpAdapter × Io :=
  ({ a with keepAlive := opt.keepAlive, options := some opt, startCalled := true },
    if io.refuses a.id then io.emit (.startError a.id opt.abortIfError) else io)

/-- `stop`. -/
def stop (a : ClientTcpAdapter) : ClientTcpAdapter := { a with stopCalled := true }

/-- The destructor. -/
def destroy (a : ClientTcpAdapter) (io : Io) : Io :=
  match a.getHolder io with
  | some h => h.unregIo a.id io
  | none => io

/-- `reg_io`. -/
def regIo (ioId : IoId) (itf : Option Source) (a : ClientTcpAdapter) (io : Io) :
    ClientTcpAdapter × Io :=
  let a' := { a with holderId := ioId, holder := itf.map .source, performHolder := none }
  let io' :=
    if 0 < a.holderId ∧ a.holderId ≠ ioId then io.emit (.severalSources a.holderId ioId) else io
  (a', match a'.getHolder io' with
    | some pholder => pholder.regIo a'.id io'
    | none => io')

/-- `unreg_io`. -/
def unregIo (ioId : IoId) (a : ClientTcpAdapter) : ClientTcpAdapter :=
  if a.holderId ≠ ioId then a else { a with holderId := 0, performHolder := none }

/-- `perform_io` wraps the handler when the adapter has no live holder or the sender
    has no id, unless there is nothing to wrap. (The code tests the first part once
    more under its lock.) -/
def wraps (ioId : IoId) (handler : Option Handler) (a : ClientTcpAdapter) (io : Io) : Bool :=
  ((a.getHolder io).isNone || ioId == 0) && (handler.isSome || ioId == 0)

/-- The wrapper `perform_io` makes for the handler of a source that has not registered. -/
def makePerformHolder (handler : Option Handler) (a : ClientTcpAdapter) : PerformHolder :=
  { cli := a.id, serial := a.performs, handler }

/-- Bind the adapter to the wrapper. -/
def wrap (ioId : IoId) (handler : Option Handler) (a : ClientTcpAdapter) : ClientTcpAdapter :=
  { a with
    performHolder := some (a.makePerformHolder handler)
    holder := some (.perform (a.makePerformHolder handler))
    holderId := ioId
    performs := a.performs + 1 }

/-- The part of `perform_io` before anything is sent. -/
def bind (ioId : IoId) (handler : Option Handler) (a : ClientTcpAdapter) (io : Io) :
    ClientTcpAdapter × Io :=
  if a.wraps ioId handler io then (a.wrap ioId handler, io.emit (.withoutRegistration a.id))
  else (a, io)

/-- The part of `perform_io` that sends. -/
def transmit (d : DataPtr) (handler : Option Handler) (snd : Sending) (a : ClientTcpAdapter)
    (io : Io) : ClientTcpAdapter × Io :=
  match snd with
  | .accepted conn => ({ a with errorFlag := false }, io.emit (.send a.id conn d))
  | .acceptedByRequest conn => ({ a with errorFlag := false }, io.emit (.send a.id conn d))
  | .rejected =>
    let io' := if a.errorFlag then io else io.emit (.noSuitableClient d)
    ({ a with errorFlag := true },
      match handler with
      | some f => io'.emit (.handler f none)
      | none => io')

/-- `perform_io`. -/
def performIo (d : DataPtr) (ioId : IoId) (handler : Option Handler) (snd : Sending)
    (a : ClientTcpAdapter) (io : Io) : ClientTcpAdapter × Io :=
  let r := a.bind ioId handler io
  r.1.transmit d handler snd r.2

/-- The input handler: data `d` has come in over a connection with the output handler
    `out`. -/
def input (d : DataPtr) (out : Option Conn) (a : ClientTcpAdapter) (io : Io) : Io :=
  match a.options with
  | none => io
  | some opt =>
    match opt.inputHandler with
    | some f => io.emit (.optionHandler f)
    | none =>
      match a.getHolder io with
      | none => io
      | some holder =>
        if a.keepAlive then holder.performIo d a.id (.connection out) io
        else
          let io' := match out with
            | some c => io.emit (.closeReply c)
            | none => io
          holder.performIo d a.id (.counter a.id) io'

/-- The counter-request callback that `input` hands out when `keep_alive` is false. -/
def counterReply (d : DataPtr) (snd : Sending) (a : ClientTcpAdapter) (io : Io) :
    ClientTcpAdapter × Io :=
  if a.id ∈ io.counters then a.performIo d a.holderId none snd io else (a, io)

/-- The connect handler. -/
def connected (a : ClientTcpAdapter) (io : Io) : Io :=
  match a.options with
  | none => io
  | some opt =>
    let io' := match a.getHolder io with
      | some holder => holder.regIo a.id io
      | none => io
    match opt.connectHandler with
    | some f => io'.emit (.optionHandler f)
    | none => io'

/-- The shutdown handler: a connection of the client has been closed. -/
def closed (a : ClientTcpAdapter) (io : Io) : Io :=
  match a.options with
  | none => io
  | some opt =>
    let io' := match a.getHolder io with
      | some holder => io.post ⟨holder, a.id⟩
      | none => io
    match opt.shutdownHandler with
    | some f => io'.emit (.optionHandler f)
    | none => io'

/-! ### What the operations change -/

section Fields

variable (a : ClientTcpAdapter) (io : Io) (ioId : IoId) (itf : Option Source) (d : DataPtr)
  (handler : Option Handler) (snd : Sending)

@[simp] theorem unregIo_holder : (a.unregIo ioId).holder = a.holder := by
  unfold unregIo; split <;> rfl

theorem unregIo_holderId :
    (a.unregIo ioId).holderId = if a.holderId = ioId then 0 else a.holderId := by
  by_cases h : a.holderId = ioId
  · simp [unregIo, h]
  · simp [unregIo, h]

theorem bind_fst : (a.bind ioId handler io).1 =
    if a.wraps ioId handler io then a.wrap ioId handler else a := by
  unfold bind; split <;> rfl

/-- Apart from the binding, `perform_io` writes only the error flag. -/
theorem performIo_fst : ∃ b, (a.performIo d ioId handler snd io).1 =
    { (a.bind ioId handler io).1 with errorFlag := b } := by
  simp only [performIo, transmit]
  cases snd with
  | accepted conn => exact ⟨false, rfl⟩
  | acceptedByRequest conn => exact ⟨false, rfl⟩
  | rejected => exact ⟨true, rfl⟩

@[simp] theorem bind_id : (a.bind ioId handler io).1.id = a.id := by
  rw [bind_fst]; split <;> rfl

theorem performIo_holderId : (a.performIo d ioId handler snd io).1.holderId =
    if a.wraps ioId handler io then ioId else a.holderId := by
  obtain ⟨b, h⟩ := a.performIo_fst io ioId d handler snd
  rw [h, bind_fst]
  split <;> rfl

theorem performIo_holder : (a.performIo d ioId handler snd io).1.holder =
    if a.wraps ioId handler io then some (.perform (a.makePerformHolder handler))
    else a.holder := by
  obtain ⟨b, h⟩ := a.performIo_fst io ioId d handler snd
  rw [h, bind_fst]
  split <;> rfl

/-- A counter-request reply is a `perform_io` under the registered id, or nothing. -/
theorem counterReply_cases :
    a.counterReply d snd io = (a, io) ∨
      a.id ∈ io.counters ∧ a.counterReply d snd io = a.performIo d a.holderId none snd io := by
  simp only [counterReply]
  split
  · next h => exact Or.inr ⟨h, rfl⟩
  · exact Or.inl rfl

@[simp] theorem stop_live : a.stop.live = false := by simp [stop, live]

end Fields

/-- An operation that leaves alone which adapter it is, and how it was started. -/
structure Tame (f : ClientTcpAdapter → Io → ClientTcpAdapter × Io) : Prop where
  id : ∀ a io, (f a io).1.id = a.id
  live : ∀ a io, (f a io).1.live = a.live
  options : ∀ a io, (f a io).1.options = a.options

namespace Tame

variable (ioId : IoId) (itf : Option Source) (d : DataPtr) (handler : Option Handler)
  (snd : Sending)

/-- The event handlers do not write the adapter. -/
theorem observe (f : ClientTcpAdapter → Io → Io) : Tame fun a io => (a, f a io) :=
  ⟨fun _ _ => rfl, fun _ _ => rfl, fun _ _ => rfl⟩

theorem regIo : Tame (ClientTcpAdapter.regIo ioId itf) :=
  ⟨fun _ _ => rfl, fun _ _ => rfl, fun _ _ => rfl⟩

theorem unregIo : Tame fun a io => (a.unregIo ioId, io) := by
  refine ⟨fun a _ => ?_, fun a _ => ?_, fun a _ => ?_⟩
  all_goals
    dsimp only [ClientTcpAdapter.unregIo]
    split <;> rfl

theorem performIo : Tame (ClientTcpAdapter.performIo d ioId handler snd) := by
  refine ⟨fun a io => ?_, fun a io => ?_, fun a io => ?_⟩
  all_goals
    obtain ⟨b, h⟩ := a.performIo_fst io ioId d handler snd
    rw [h, bind_fst]
    split <;> rfl

theorem counterReply : Tame (ClientTcpAdapter.counterReply d snd) := by
  have hperform : ∀ (a : ClientTcpAdapter) io, a.counterReply d snd io = (a, io) ∨
      a.counterReply d snd io = a.performIo d a.holderId none snd io := fun a io =>
    (a.counterReply_cases io d snd).imp_right And.right
  refine ⟨fun a io => ?_, fun a io => ?_, fun a io => ?_⟩
  · obtain heq | heq := hperform a io
    · rw [heq]
    · rw [heq, (performIo a.holderId d none snd).id]
  · obtain heq | heq := hperform a io
    · rw [heq]
    · rw [heq, (performIo a.holderId d none snd).live]
  · obtain heq | heq := hperform a io
    · rw [heq]
    · rw [heq, (performIo a.holderId d none snd).options]

end Tame

end ClientTcpAdapter

/-- The `io_context` runs the task at position `n`. -/
def Io.runTask (n : ℕ) (io : Io) : Io :=
  match io.tasks[n]? with
  | none => io
  | some t => t.holder.unregIo t.cli { io with tasks := io.tasks.eraseIdx n }

/-- The last owner outside lets a source go. -/
def Io.release (h : Source) (io : Io) : Io := { io with released := io.released ++ [h] }

end WfcIo

import WfcIo.Foundation.History

/-!
# The servers

`server_tcp` and `server_udp` own an `impl`, the server of the library, and make a new one at
each restart. The old one is stopped at once if the endpoint stays the same, and by a posted
task otherwise. An `impl` is live from its `start` until its `stop` is executed.

The two classes differ in `run_`: `server_udp` takes its context from the global object and
does nothing without one, `server_tcp` has a timer for its statistics.

## Main definitions

- `Server` — the fields of the two classes and what is outside them
- `ServerTcp.run_`, `ServerUdp.run_` — make an `impl` and start it
- `Server.restart`, `Server.stop` — the life cycle
- `Server.Act`, `Server.step` — a call, or an event outside

## Main results

- `Server.run_spec` — what `run_` does, for both classes
-/

namespace WfcIo

open Foundation

/-- What the servers read of `server_tcp_config` and `server_udp_config`. `keepAlive` is read
    by `server_tcp` only. -/
structure ServerConfig where
  addr : String
  port : String
  rn : Bool := true
  keepAlive : Bool := true
  nonblocking : Bool := true
  readerSep : String := ""
  writerSep : String := ""
  deriving DecidableEq

/-- The address and the port. -/
def ServerConfig.endpoint (o : ServerConfig) : String × String := (o.addr, o.port)

namespace Server

/-- An `impl` with the options it was started with. -/
structure Impl where
  id : ℕ
  opt : ServerConfig
  deriving DecidableEq

/-- The start of an `impl`, with those that were live then. -/
structure Start where
  impl : Impl
  live : List Impl
  deriving DecidableEq

end Server

/-- `server_tcp` or `server_udp`. `options` and `trackingMs` are the configuration in force,
    `global` and `statistics` tell whether these objects are there. `live` are the `impl`s
    that run, `posted` what the posted tasks will stop (`none` for a null pointer), `timers`
    the timers created and not released, and `starts` what the last step has started.
    `nullImpl` tells whether `stop` was called on a null pointer. -/
structure Server where
  options : ServerConfig
  global : Bool := true
  statistics : Bool := false
  trackingMs : ℕ := 1000
  impl : Option ℕ := none
  port : String := ""
  addr : String := ""
  timerId : Option ℕ := none
  nextImpl : ℕ := 0
  live : List Server.Impl := []
  posted : List (Option ℕ) := []
  timers : List ℕ := []
  nextTimer : ℕ := 0
  starts : List Server.Start := []
  nullImpl : Bool := false
  deriving DecidableEq

namespace Server

/-! ### Operations -/

/-- The options `run_` starts the `impl` with. -/
def implOptions (o : ServerConfig) : ServerConfig :=
  if o.rn then
    { o with
      nonblocking := false
      readerSep := if o.readerSep = "" then "\r\n" else o.readerSep
      writerSep := if o.writerSep = "" then "\r\n" else o.writerSep }
  else { o with nonblocking := false }

/-- `_impl = std::make_shared<impl>(…)`. -/
def makeImpl (s : Server) : Server :=
  { s with impl := some s.nextImpl, nextImpl := s.nextImpl + 1 }

/-- `_impl->start(opt)`. -/
def startImpl (opt : ServerConfig) (s : Server) : Server :=
  match s.impl with
  | some i =>
    { s with
      live := s.live ++ [⟨i, opt⟩]
      starts := s.starts ++ [⟨⟨i, opt⟩, s.live⟩] }
  | none => { s with nullImpl := true }

/-- `stop` of an `impl`. -/
def stopImpl (p : Option ℕ) (s : Server) : Server :=
  match p with
  | some i => { s with live := s.live.filter (·.id ≠ i) }
  | none => { s with nullImpl := true }

/-- What `run_` begins with. -/
def remember (s : Server) : Server := { s with port := s.options.port, addr := s.options.addr }

end Server

namespace ServerTcp

open Server

/-- The timer of `stat_init_`: the old one is released, a new one is created. -/
def statInit_ (s : Server) : Server :=
  if s.statistics then
    let s' := { s with timers := s.timers.filter (some · ≠ s.timerId) }
    if 0 < s.trackingMs then
      { s' with
        timerId := some s'.nextTimer
        timers := s'.timers ++ [s'.nextTimer]
        nextTimer := s'.nextTimer + 1 }
    else s'
  else s

/-- `server_tcp::run_`. -/
def run_ (s : Server) : Server :=
  (statInit_ s.remember.makeImpl).startImpl (implOptions s.options)

end ServerTcp

namespace ServerUdp

open Server

/-- `server_udp::run_`. -/
def run_ (s : Server) : Server :=
  if s.remember.global then s.remember.makeImpl.startImpl (implOptions s.options) else s.remember

end ServerUdp

namespace Server

/-- The two classes. -/
inductive Kind
  | tcp
  | udp
  deriving DecidableEq

/-- `run_`. -/
def run_ : Kind → Server → Server
  | .tcp => ServerTcp.run_
  | .udp => ServerUdp.run_

/-- `start`. -/
def start (kind : Kind) (s : Server) : Server := s.run_ kind

/-- `restart`. -/
def restart (kind : Kind) (s : Server) : Server :=
  let shutdown := s.impl
  let s' := { s with impl := none }
  -- only the endpoint of the last `run_` is compared
  if s.port ≠ s.options.port ∨ s.addr ≠ s.options.addr then
    { s' with posted := s'.posted ++ [shutdown] }.run_ kind
  else (s'.stopImpl shutdown).run_ kind

/-- `stop`. -/
def stop (s : Server) : Server :=
  match s.impl with
  | some i => { s.stopImpl (some i) with impl := none }
  | none => s

/-! ### Steps -/

/-- A new configuration, a call, or an event outside: the workflow runs the `n`-th posted
    task, the global object comes or goes. -/
inductive Act
  | configure (options : ServerConfig) (trackingMs : ℕ)
  | start
  | restart
  | stop
  | runPosted (n : ℕ)
  | setGlobal (flag : Bool)
  deriving DecidableEq

def exec (kind : Kind) (s : Server) : Act → Server
  | .configure options trackingMs => { s with options, trackingMs }
  | .start => s.start kind
  | .restart => s.restart kind
  | .stop => s.stop
  | .runPosted n =>
    match s.posted[n]? with
    | some p => { s with posted := s.posted.eraseIdx n }.stopImpl p
    | none => s
  | .setGlobal flag => { s with global := flag }

/-- Forget what the previous step has started. -/
def quiet (s : Server) : Server := { s with starts := [] }

def step (kind : Kind) (s : Server) (a : Act) : Server := s.quiet.exec kind a

/-! ### What `run_` does -/

/-- The condition under which `run_` makes an `impl`. -/
def opens : Kind → Server → Bool
  | .tcp, _ => true
  | .udp, s => s.global

/-- What `run_` leaves, given the condition under which it makes an `impl`. -/
structure RunSpec (opens : Bool) (s s' : Server) : Prop where
  options : s'.options = s.options
  endpoint : (s'.addr, s'.port) = s.options.endpoint
  posted : s'.posted = s.posted
  impl : s'.impl = if opens then some s.nextImpl else s.impl
  nextImpl : s'.nextImpl = if opens then s.nextImpl + 1 else s.nextImpl
  live : s'.live = s.live ++ if opens then [⟨s.nextImpl, implOptions s.options⟩] else []
  starts : s'.starts =
    s.starts ++ if opens then [⟨⟨s.nextImpl, implOptions s.options⟩, s.live⟩] else []

theorem implOptions_endpoint (o : ServerConfig) : (implOptions o).endpoint = o.endpoint := by
  simp only [implOptions]
  split <;> rfl

theorem statInit_spec (s : Server) :
    ∃ timerId timers nextTimer, ServerTcp.statInit_ s = { s with timerId, timers, nextTimer } := by
  simp only [ServerTcp.statInit_]
  split
  · split
    · exact ⟨_, _, _, rfl⟩
    · exact ⟨_, _, _, rfl⟩
  · exact ⟨_, _, _, rfl⟩

/-- Both kinds of `run_` do the same to the `impl`s, if they make one. -/
theorem run_spec (kind : Kind) (s : Server) : RunSpec (opens kind s) s (s.run_ kind) := by
  cases kind with
  | tcp =>
    obtain ⟨timerId, timers, nextTimer, hstat⟩ := statInit_spec s.remember.makeImpl
    simp only [run_, ServerTcp.run_, hstat]
    exact ⟨rfl, rfl, rfl, rfl, rfl, rfl, rfl⟩
  | udp =>
    have hglobal : s.remember.global = s.global := rfl
    simp only [run_, ServerUdp.run_, opens, hglobal]
    cases s.global with
    | true => exact ⟨rfl, rfl, rfl, rfl, rfl, rfl, rfl⟩
    | false => exact ⟨rfl, rfl, rfl, rfl, rfl, (List.append_nil _).symm, (List.append_nil _).symm⟩

end Server

end WfcIo

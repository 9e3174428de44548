import WfcIo.Client.Pools

/-!
# The object `client_tcp`

`client_tcp` puts a life cycle around the map of clients. Until it is started,
registrations are kept in a wait list; `start` passes them on to the map. The model
begins after `initialize`, so `_client_map` is there.

## Main definitions

- `ClientTcp` — the object and its configuration
- `ClientTcp.Act`, `ClientTcp.step` — the calls, a change of the configuration, and events

## Main results

- `ClientTcp.run_inv` — the invariant of the map holds under every run of the object
- `ClientTcp.run_running` — while the object is started its map is not stopped
-/

namespace WfcIo

open Foundation

/-- `client_tcp`. `suspended`, `options` and `trackingMs` are the configuration in force,
    `statistics` tells whether there is a statistics object. `timers` are the timers of
    the workflow that the object has created and not released, and `nextTimer` numbers
    them. `mapCalls` are the calls of the map in the last step. -/
structure ClientTcp where
  suspended : Bool := false
  options : ClientTcpConfig := {}
  statistics : Bool := false
  trackingMs : ℕ := 1000
  clientMap : ClientTcpMap
  waitList : OrderedMap IoId (Option Source) := .empty
  clientStarted : Bool := false
  timerId : Option ℕ := none
  timers : List ℕ := []
  nextTimer : ℕ := 0
  mapCalls : List ClientTcpMap.Act := []

namespace ClientTcp

/-- The object after `initialize`. -/
def initialized (refuses : ℕ → Bool) (statistics : Bool) : ClientTcp :=
  { clientMap := .init refuses, statistics }

/-- Call the map. -/
def mapCall (a : ClientTcpMap.Act) (c : ClientTcp) : ClientTcp :=
  { c with clientMap := c.clientMap.exec a, mapCalls := c.mapCalls ++ [a] }

/-- Do something outside the object. -/
def emit (o : Outcall) (c : ClientTcp) : ClientTcp :=
  { c with clientMap := { c.clientMap with io := c.clientMap.io.emit o } }

/-- `reg_io`. -/
def regIo (id : IoId) (itf : Option Source) (c : ClientTcp) : ClientTcp :=
  if c.suspended then c
  else if c.clientStarted then c.mapCall (.regIo id itf)
  else { c with waitList := c.waitList.assign id itf }

/-- `unreg_io`. -/
def unregIo (id : IoId) (c : ClientTcp) : ClientTcp :=
  if c.clientStarted then c.mapCall (.unregIo id)
  else { c with waitList := c.waitList.erase id }

/-- `perform_io`. -/
def performIo (d : DataPtr) (id : IoId) (handler : Option Handler) (snd : Sending)
    (c : ClientTcp) : ClientTcp :=
  if c.suspended then
    match handler with
    | some f => c.emit (.handler f none)
    | none => c
  else c.mapCall (.performIo d id handler snd)

/-- The options `reconfigure_and_start_` passes to the map. -/
def mapOptions (c : ClientTcp) : ClientTcpConfig :=
  if c.options.rn then
    { c.options with
      readerSep := if c.options.readerSep = "" then "\r\n" else c.options.readerSep
      writerSep := if c.options.writerSep = "" then "\r\n" else c.options.writerSep }
  else c.options

/-- Register everything in the wait list, in the order of the ids. -/
def replay (c : ClientTcp) : ClientTcp :=
  c.waitList.entries.foldl (fun c item => c.regIo item.1 item.2) c

/-- Start the timer of the statistics. The old one, if any, is not released. -/
def createTimer (c : ClientTcp) : ClientTcp :=
  if c.statistics && decide (0 < c.trackingMs) then
    { c with
      timerId := some c.nextTimer
      timers := c.timers ++ [c.nextTimer]
      nextTimer := c.nextTimer + 1 }
  else c

/-- `reconfigure_and_start_`. -/
def reconfigureAndStart_ (c : ClientTcp) : ClientTcp :=
  let c₁ := c.mapCall (.reconfigureAndStart c.mapOptions)
  let c₂ := if c₁.clientStarted then c₁ else { c₁ with clientStarted := true }.replay
  c₂.createTimer

/-- `start`. -/
def start (c : ClientTcp) : ClientTcp :=
  if !c.suspended && c.options.addr == "" then c.emit .addrNotSet else c.reconfigureAndStart_

/-- `restart`. -/
def restart (c : ClientTcp) : ClientTcp := c.reconfigureAndStart_

/-- `stop`. -/
def stop (c : ClientTcp) : ClientTcp := { c with clientStarted := false }.mapCall .stop

/-- A call of the object, a new configuration for it, or an event of the map. -/
inductive Act
  | configure (suspended : Bool) (options : ClientTcpConfig) (trackingMs : ℕ)
  | start
  | restart
  | stop
  | regIo (id : IoId) (itf : Option Source)
  | unregIo (id : IoId)
  | performIo (d : DataPtr) (id : IoId) (handler : Option Handler) (snd : Sending)
  | event (e : ClientTcpMap.Act)
  deriving DecidableEq

def exec (c : ClientTcp) : Act → ClientTcp
  | .configure suspended options trackingMs => { c with suspended, options, trackingMs }
  | .start => c.start
  | .restart => c.restart
  | .stop => c.stop
  | .regIo id itf => c.regIo id itf
  | .unregIo id => c.unregIo id
  | .performIo d id handler snd => c.performIo d id handler snd
  | .event e => if e.isEvent then { c with clientMap := c.clientMap.exec e } else c

/-- Forget what was called in the previous step. -/
def quiet (c : ClientTcp) : ClientTcp := { c with clientMap := c.clientMap.quiet, mapCalls := [] }

def step (c : ClientTcp) (a : Act) : ClientTcp := c.quiet.exec a

/-! ### The map below the object -/

@[simp] theorem createTimer_clientMap (c : ClientTcp) : c.createTimer.clientMap = c.clientMap := by
  simp only [createTimer]
  split <;> rfl

@[simp] theorem createTimer_clientStarted (c : ClientTcp) :
    c.createTimer.clientStarted = c.clientStarted := by
  simp only [createTimer]
  split <;> rfl

section Induction

variable {I : ClientTcpMap → Prop}

theorem regIo_induction (hreg : ∀ m id itf, I m → I (m.regIo id itf)) {c : ClientTcp}
    (h : I c.clientMap) (id : IoId) (itf : Option Source) : I (c.regIo id itf).clientMap := by
  simp only [regIo]
  split
  · exact h
  · split
    · exact hreg _ id itf h
    · exact h

/-- What a registration keeps in the map, the replay keeps. -/
theorem replay_induction (hreg : ∀ m id itf, I m → I (m.regIo id itf)) {c : ClientTcp}
    (h : I c.clientMap) : I c.replay.clientMap := by
  have hfold : ∀ (l : List (IoId × Option Source)) (c : ClientTcp), I c.clientMap →
      I (l.foldl (fun c item => c.regIo item.1 item.2) c).clientMap := by
    intro l
    induction l with
    | nil => exact fun _ h => h
    | cons p l ih => exact fun c h => ih _ (regIo_induction hreg h p.1 p.2)
  exact hfold _ c h

/-- What `reconfigure_and_start` of the map establishes and a registration keeps, holds of
    the map once the object is started. -/
theorem reconfigureAndStart_induction (hreg : ∀ m id itf, I m → I (m.regIo id itf))
    {c : ClientTcp} (h : I (c.clientMap.reconfigureAndStart c.mapOptions)) :
    I c.reconfigureAndStart_.clientMap := by
  simp only [reconfigureAndStart_, createTimer_clientMap]
  split
  · exact h
  · exact replay_induction hreg h

/-- What every call of the map and everything outside it keeps, the object keeps. -/
theorem exec_induction (hexec : ∀ m a, I m → I (m.exec a))
    (hio : ∀ m io, I m → I { m with io }) {c : ClientTcp} (h : I c.clientMap) (a : Act) :
    I (c.exec a).clientMap := by
  have hreg : ∀ m id itf, I m → I (m.regIo id itf) := fun m id itf => hexec m (.regIo id itf)
  have hstart : ∀ c : ClientTcp, I c.clientMap → I c.reconfigureAndStart_.clientMap := fun c h =>
    reconfigureAndStart_induction hreg (hexec _ (.reconfigureAndStart c.mapOptions) h)
  cases a with
  | configure suspended options trackingMs => exact h
  | start =>
    simp only [exec, start]
    split
    · exact hio _ _ h
    · exact hstart c h
  | restart => exact hstart c h
  | stop => exact hexec _ .stop h
  | regIo id itf => exact regIo_induction hreg h id itf
  | unregIo id =>
    simp only [exec, unregIo]
    split
    · exact hexec _ (.unregIo id) h
    · exact h
  | performIo d id handler snd =>
    simp only [exec, performIo]
    split
    · cases handler with
      | some f => exact hio _ _ h
      | none => exact h
    · exact hexec _ (.performIo d id handler snd) h
  | event e =>
    simp only [exec]
    split
    · exact hexec _ e h
    · exact h

end Induction

theorem step_inv {c : ClientTcp} (h : c.clientMap.Inv) (a : Act) : (c.step a).clientMap.Inv :=
  exec_induction (fun _ a h => h.exec a) (fun _ io h => h.with_io io) (c := c.quiet)
    (h.with_io _) a

/-- The map keeps its invariant in every run of the object. -/
theorem run_inv (refuses : ℕ → Bool) (statistics : Bool) (acts : List Act) :
    (run step (initialized refuses statistics) acts).clientMap.Inv :=
  run_invariant (I := fun c : ClientTcp => c.clientMap.Inv) (fun _ a h => step_inv h a)
    (ClientTcpMap.inv_init refuses) acts

/-- The map of an object that is running is not stopped. -/
def Running (c : ClientTcp) : Prop := c.clientStarted = true → c.clientMap.stopFlag = false

theorem reconfigureAndStart_stopFlag (c : ClientTcp) :
    c.reconfigureAndStart_.clientMap.stopFlag = false := by
  apply reconfigureAndStart_induction (I := fun m => m.stopFlag = false)
  · intro m id itf h
    exact (ClientTcpMap.Steady.regIo id itf).stopFlag.trans h
  · exact (c.clientMap.reconfigureAndStart_spec c.mapOptions).stopFlag

theorem step_running {c : ClientTcp} (h : Running c) (a : Act) : Running (step c a) := by
  intro hstarted
  cases a with
  | configure suspended options trackingMs => exact h hstarted
  | start =>
    simp only [step, exec, start] at hstarted ⊢
    split at hstarted
    · next hrefuse =>
      rw [if_pos hrefuse]
      exact h hstarted
    · next hrefuse =>
      rw [if_neg hrefuse]
      exact c.quiet.reconfigureAndStart_stopFlag
  | restart => exact c.quiet.reconfigureAndStart_stopFlag
  | stop => cases hstarted
  | regIo id itf =>
    simp only [step, exec, regIo] at hstarted ⊢
    split at hstarted
    · next hsusp =>
      rw [if_pos hsusp]
      exact h hstarted
    · next hsusp =>
      rw [if_neg hsusp]
      split at hstarted
      · next hrun =>
        rw [if_pos hrun]
        exact (ClientTcpMap.Steady.regIo id itf).stopFlag.trans (h hstarted)
      · next hrun => exact absurd hstarted hrun
  | unregIo id =>
    simp only [step, exec, unregIo] at hstarted ⊢
    split at hstarted
    · next hrun =>
      rw [if_pos hrun]
      exact (ClientTcpMap.Steady.unregIo id).stopFlag.trans (h hstarted)
    · next hrun => exact absurd hstarted hrun
  | performIo d id handler snd =>
    simp only [step, exec, performIo] at hstarted ⊢
    split at hstarted
    · next hsusp =>
      rw [if_pos hsusp]
      cases handler with
      | some f => exact h hstarted
      | none => exact h hstarted
    · next hsusp =>
      rw [if_neg hsusp]
      exact (ClientTcpMap.Steady.performIo d id handler snd).stopFlag.trans (h hstarted)
  | event e =>
    simp only [step, exec] at hstarted ⊢
    split at hstarted
    · next hevent =>
      rw [if_pos hevent]
      obtain ⟨opt, rfl⟩ | rfl | hsteady := c.quiet.clientMap.exec_cases e
      · cases hevent
      · cases hevent
      · exact hsteady.stopFlag.trans (h hstarted)
    · next hevent =>
      rw [if_neg hevent]
      exact h hstarted

theorem run_running (refuses : ℕ → Bool) (statistics : Bool) (acts : List Act) :
    Running (run step (initialized refuses statistics) acts) := by
  apply run_invariant (I := Running) fun _ a h => step_running h a
  intro hstarted
  cases hstarted

end ClientTcp

end WfcIo

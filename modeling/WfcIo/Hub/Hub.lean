import WfcIo.Interface
import WfcIo.Foundation.History
import WfcIo.Foundation.OrderedMap

/-!
# The hub

`hub` gives every message to all its peers but the sender, and to its target. It registers
at the target under an id of its own, with a relay: what the target sends to the relay comes
to the hub as a message of that id.

The peers are in an `std::unordered_map`; the order in which its loop meets them is left to
the library, and the model takes the order of the ids. The ids that `create_id` gives are
parameters of `restart`.

## Main definitions

- `Hub` — the fields of the class and what is outside it
- `Hub.restart`, `Hub.regIo`, `Hub.unregIo`, `Hub.performIo` — the operations
- `Hub.Act`, `Hub.step` — a call, or an event outside

## Main results

- `Hub.performIo_eq`, `Hub.step_performIo_outcalls` — what `perform_io` calls
- `Hub.step_map` — what a step makes of the map
-/

namespace WfcIo

open Foundation

/-- `target_handler`, the relay. Its owner is the hub. -/
structure TargetHandler where
  id : IoId
  deriving DecidableEq

namespace Hub

/-- What a hub does outside: it calls its target, the peer registered under `k`, or it
    dereferences a null pointer to data. -/
inductive Outcall
  | target (t : Target) (c : IoCall TargetHandler (Option Handler))
  | peer (k : IoId) (p : Source) (d : Data) (id : IoId) (handler : Option Handler)
  | nullData
  deriving DecidableEq

end Hub

/-- `hub`. `id` is what `get_id` returns, `expired` and `gone` are the targets and the
    sources whose last owners have let them go. -/
structure Hub where
  id : IoId
  suspended : Bool := false
  map : OrderedMap IoId (Option Source) := .empty
  wtarget : Option Target := none
  targetHandler : Option TargetHandler := none
  handlerId : IoId := 0
  expired : List Target := []
  gone : List Source := []
  outcalls : List Hub.Outcall := []

namespace Hub

/-! ### Operations -/

/-- The hub `id` after `initialize`, where `get_target` gives `target`. -/
def initialized (id : IoId) (target : Option Target) : Hub := { id, wtarget := target }

/-- `_wtarget.lock()`. -/
def lockTarget (h : Hub) : Option Target := h.wtarget.filter (· ∉ h.expired)

/-- `lock` of a weak pointer to a peer. -/
def lock (h : Hub) (w : Option Source) : Option Source := w.filter (· ∉ h.gone)

def emit (o : Outcall) (h : Hub) : Hub := { h with outcalls := h.outcalls ++ [o] }

/-- `restart`, where `create_id` gives `newId`. -/
def restart (newId : IoId) (h : Hub) : Hub :=
  match h.lockTarget with
  | some t =>
    -- the old id is forgotten, the target is not told
    { h with
      handlerId := newId
      targetHandler := some ⟨newId⟩ }.emit (.target t (.regIo newId ⟨newId⟩))
  | none => h

/-- `reg_io`. -/
def regIo (id : IoId) (itf : Option Source) (h : Hub) : Hub :=
  if h.suspended then h else { h with map := h.map.assign id itf }

/-- `unreg_io`. -/
def unregIo (id : IoId) (h : Hub) : Hub :=
  if h.suspended then h
  else
    let h' := match h.lockTarget with
      | some t => h.emit (.target t (.unregIo id))
      | none => h
    { h' with map := h'.map.erase id }

/-- One turn of the loop of `perform_io`: a copy of the data for one peer. -/
def deliver (d : DataPtr) (id : IoId) (h : Hub) (item : IoId × Option Source) : Hub :=
  if item.1 = id then h
  else
    match h.lock item.2 with
    | none => h
    | some p =>
      match d with
      | some data => h.emit (.peer item.1 p data h.id none)
      -- `*d` with a null pointer
      | none => h.emit .nullData

/-- `perform_io`. -/
def performIo (d : DataPtr) (id : IoId) (handler : Option Handler) (h : Hub) : Hub :=
  if h.suspended then h
  else
    let h' := h.map.entries.foldl (deliver d id) h
    match h'.lockTarget with
    | some t =>
      -- what came through the relay does not go back
      if h'.handlerId = id then h' else h'.emit (.target t (.performIo d h'.handlerId handler))
    | none => h'

/-- `target_handler::perform_io`, called by the target with any id. -/
def TargetHandler.performIo (d : DataPtr) (_ : IoId) (cb : Option Handler) (r : TargetHandler)
    (h : Hub) : Hub := h.performIo d r.id cb

/-! ### Steps -/

/-- A call of the hub or of its relay, or an event outside. -/
inductive Act
  | restart (newId : IoId)
  | regIo (id : IoId) (itf : Option Source)
  | unregIo (id : IoId)
  | performIo (d : DataPtr) (id : IoId) (handler : Option Handler)
  | relay (d : DataPtr) (id : IoId) (cb : Option Handler)
  | suspend (flag : Bool)
  | expire (t : Target)
  | leave (p : Source)
  deriving DecidableEq

def exec (h : Hub) : Act → Hub
  | .restart newId => h.restart newId
  | .regIo id itf => h.regIo id itf
  | .unregIo id => h.unregIo id
  | .performIo d id handler => h.performIo d id handler
  | .relay d id cb =>
    match h.targetHandler with
    | some r => TargetHandler.performIo d id cb r h
    | none => h
  | .suspend flag => { h with suspended := flag }
  | .expire t => { h with expired := h.expired ++ [t] }
  | .leave p => { h with gone := h.gone ++ [p] }

/-- Forget what the previous step has done outside. -/
def quiet (h : Hub) : Hub := { h with outcalls := [] }

def step (h : Hub) (a : Act) : Hub := h.quiet.exec a

/-! ### What `perform_io` calls -/

variable {h : Hub} {d : DataPtr} {id : IoId} {handler : Option Handler}

theorem lock_eq_some_iff {w : Option Source} {p : Source} :
    h.lock w = some p ↔ w = some p ∧ p ∉ h.gone := by
  simp only [lock, Option.filter_eq_some_iff, decide_eq_true_eq]

/-- What one turn of the loop calls. -/
def delivery (h : Hub) (d : DataPtr) (id : IoId) (item : IoId × Option Source) :
    Option Outcall :=
  if item.1 = id then none
  else
    (h.lock item.2).map fun p =>
      match d with
      | some data => .peer item.1 p data h.id none
      | none => .nullData

theorem deliver_eq (item : IoId × Option Source) : h.deliver d id item =
    { h with outcalls := h.outcalls ++ (h.delivery d id item).toList } := by
  simp only [deliver, delivery]
  split
  · simp
  · cases h.lock item.2 with
    | none => simp
    | some p => cases d <;> rfl

theorem foldl_deliver (l : List (IoId × Option Source)) (h : Hub) :
    l.foldl (deliver d id) h =
      { h with outcalls := h.outcalls ++ l.filterMap (h.delivery d id) } := by
  induction l generalizing h with
  | nil => simp
  | cons item l ih =>
    have hsame : (h.deliver d id item).delivery d id = h.delivery d id := by
      rw [deliver_eq]
      rfl
    rw [List.foldl_cons, ih, hsame, deliver_eq]
    cases hd : h.delivery d id item with
    | none => simp [hd]
    | some o => simp [hd]

/-- What the target of the hub is called with. -/
def forward (h : Hub) (d : DataPtr) (id : IoId) (handler : Option Handler) : Option Outcall :=
  if h.handlerId = id then none
  else h.lockTarget.map fun t => .target t (.performIo d h.handlerId handler)

/-- The peers first, then the target. -/
theorem performIo_eq (h : Hub) (d : DataPtr) (id : IoId) (handler : Option Handler) :
    h.performIo d id handler =
      if h.suspended then h
      else
        { h with
          outcalls := h.outcalls ++ h.map.entries.filterMap (h.delivery d id) ++
            (h.forward d id handler).toList } := by
  simp only [performIo, foldl_deliver, forward]
  split
  · rfl
  · cases ht : h.lockTarget with
    | none =>
      have ht' : lockTarget { h with
          outcalls := h.outcalls ++ h.map.entries.filterMap (h.delivery d id) } = none := ht
      simp [ht']
    | some t =>
      have ht' : lockTarget { h with
          outcalls := h.outcalls ++ h.map.entries.filterMap (h.delivery d id) } = some t := ht
      simp only [ht', Option.map_some]
      split
      · simp
      · rfl

/-- A message changes nothing of the hub itself. -/
theorem performIo_spec (d : DataPtr) (id : IoId) (handler : Option Handler) (h : Hub) :
    ∃ outcalls, h.performIo d id handler = { h with outcalls } := by
  rw [performIo_eq]
  split
  · exact ⟨h.outcalls, rfl⟩
  · exact ⟨_, rfl⟩

/-- What an unsuspended hub calls when it gets a message. -/
theorem step_performIo_outcalls (hs : h.suspended = false) (d : DataPtr) (id : IoId)
    (handler : Option Handler) :
    (step h (.performIo d id handler)).outcalls =
      h.map.entries.filterMap (h.delivery d id) ++ (h.forward d id handler).toList := by
  have hs' : ¬ h.quiet.suspended = true := ne_true_of_eq_false hs
  rw [step, exec, performIo_eq, if_neg hs']
  rfl

/-! ### The other operations -/

@[simp] theorem quiet_lockTarget (h : Hub) : h.quiet.lockTarget = h.lockTarget := rfl

@[simp] theorem quiet_outcalls (h : Hub) : h.quiet.outcalls = [] := rfl

@[simp] theorem quiet_suspended (h : Hub) : h.quiet.suspended = h.suspended := rfl

/-- `unreg_io` passes the id down to the target and erases it. -/
theorem unregIo_eq (id : IoId) (h : Hub) :
    h.unregIo id =
      if h.suspended then h
      else
        { h with
          map := h.map.erase id
          outcalls := h.outcalls ++
            (h.lockTarget.map fun t => Outcall.target t (.unregIo id)).toList } := by
  simp only [unregIo]
  split
  · rfl
  · cases h.lockTarget with
    | none => simp
    | some t => rfl

/-- What a call makes of the map, if the hub is not suspended. -/
def Act.change (m : OrderedMap IoId (Option Source)) : Act → OrderedMap IoId (Option Source)
  | .regIo id itf => m.assign id itf
  | .unregIo id => m.erase id
  | _ => m

theorem performIo_map (d : DataPtr) (id : IoId) (handler : Option Handler) (h : Hub) :
    (h.performIo d id handler).map = h.map := by
  rw [performIo_eq]
  split <;> rfl

/-- The map changes by `reg_io` and `unreg_io` only, and never while the hub is suspended. -/
theorem step_map (h : Hub) (a : Act) :
    (step h a).map = if h.suspended then h.map else a.change h.map := by
  have hsame : ∀ m : OrderedMap IoId (Option Source), m = h.map →
      m = if h.suspended then h.map else h.map := fun m hm => hm.trans (ite_self _).symm
  cases a with
  | regIo id itf =>
    simp only [step, exec, regIo]
    rw [apply_ite Hub.map]
    rfl
  | unregIo id =>
    simp only [step, exec, unregIo_eq]
    rw [apply_ite Hub.map]
    rfl
  | restart newId =>
    apply hsame
    simp only [step, exec, restart]
    cases h.quiet.lockTarget <;> rfl
  | performIo d id handler => exact hsame _ (performIo_map d id handler h.quiet)
  | relay d id cb =>
    apply hsame
    simp only [step, exec]
    cases h.quiet.targetHandler with
    | none => rfl
    | some r => exact performIo_map d r.id cb h.quiet
  | _ => exact hsame _ rfl

end Hub

end WfcIo

import WfcIo.Broker.Broker
import WfcIo.Hub.Hub
import WfcIo.Queue.Queue
import WfcIo.Statistics.Statistics
import WfcIo.Foundation.Cascade

/-!
# The components of a pipeline

Brokers, statistics, queues and hubs stand in front of one another, and of objects that accept
any message. The components are those of the modules before; here they call each other, so the
targets and the peers of a component are numbers of objects, and the handlers that a component
makes are known to the next one by a number too.

## Main definitions

- `Component`, `Component.performIo` — an object of a pipeline, and what it does with a message
- `Fault` — a null pointer is dereferenced
- `Outline` — what of a message decides where it goes
- `Component.passes`, `Component.alarms` — where a message goes, and whether it does harm

## Main results

- `Component.outlines` — the outlines are right
-/

namespace WfcIo

open Foundation

/-- The arguments of `perform_io`. -/
abbrev Message := Queue.Request

/-- An object that is called by `perform_io`. A leaf accepts everything. -/
inductive Component
  | broker (b : Broker)
  | statistics (s : Statistics)
  | queue (q : Queue)
  | hub (h : Hub)
  | leaf

/-- The dereference of a null pointer, to data or to a target. -/
inductive Fault
  | nullData
  | nullTarget
  deriving DecidableEq

/-- The numbers under which the objects know the handlers that one of them makes. -/
structure Names where
  metered : ℕ → Option Handler → ℕ → Handler
  queued : ℕ → Handler → Handler

/-- The handler that the statistics `n` give to their target. -/
def Names.handed (names : Names) (n : ℕ) : MeteredHandler → Option Handler
  | .plain handler => handler
  | .metered handler meter => some (names.metered n handler meter)

/-- The handler that the queue `n` gives to its target. -/
def Names.reply (names : Names) (n : ℕ) : ReplyHandler → Option Handler
  | .plain handler => handler
  | .queued handler => some (names.queued n handler)

namespace Component

/-! ### Messages that a component passes on -/

def brokerSend : Target × SourceCall → Option (ℕ × Message)
  | (t, .performIo d id handler) => some (t, ⟨d, id, handler⟩)
  | _ => none

def statisticsSend (names : Names) (n : ℕ) : Statistics.Outcall → Option (ℕ × Message)
  | .target t (.performIo d id handler) => some (t, ⟨d, id, names.handed n handler⟩)
  | _ => none

def queueSend (names : Names) (n : ℕ) : ℕ × Queue.Outcome → Option (ℕ × Message)
  | (_, .target t d id reply) => some (t, ⟨d, id, names.reply n reply⟩)
  | _ => none

def queueFault : ℕ × Queue.Outcome → Option Fault
  | (_, .nullTarget) => some .nullTarget
  | _ => none

def hubSend : Hub.Outcall → Option (ℕ × Message)
  | .target t (.performIo d id handler) => some (t, ⟨d, id, handler⟩)
  | .peer _ p d id handler => some (p, ⟨some d, id, handler⟩)
  | _ => none

def hubFault : Hub.Outcall → Option Fault
  | .nullData => some .nullData
  | _ => none

/-- The object `n` is called by `perform_io`. -/
def performIo (names : Names) (n : ℕ) (m : Message) :
    Component → Reaction ℕ Component Message Fault
  | .broker b =>
    let b' := Broker.step b (.call (.performIo m.d m.id m.handler))
    { state := .broker b', sends := b'.calls.filterMap brokerSend, shows := [] }
  | .statistics s =>
    let s' := s.quiet.performIo m.d m.id m.handler
    { state := .statistics s', sends := s'.outcalls.filterMap (statisticsSend names n)
      shows := [] }
  | .queue q =>
    let q' := Queue.step q (.performIo m)
    { state := .queue q', sends := q'.outcomes.filterMap (queueSend names n)
      shows := q'.outcomes.filterMap queueFault }
  | .hub h =>
    let h' := Hub.step h (.performIo m.d m.id m.handler)
    { state := .hub h', sends := h'.outcalls.filterMap hubSend
      shows := h'.outcalls.filterMap hubFault }
  | .leaf => { state := .leaf, sends := [], shows := [] }

end Component

/-! ### Outlines -/

/-- What of a message decides where it goes: the data, the id, and whether there is a handler. -/
structure Outline where
  d : DataPtr
  id : IoId
  handled : Bool
  deriving DecidableEq

/-- The outline of a message. -/
def outline (m : Message) : Outline := ⟨m.d, m.id, m.handler.isSome⟩

@[simp] theorem outline_d (m : Message) : (outline m).d = m.d := rfl

@[simp] theorem outline_id (m : Message) : (outline m).id = m.id := rfl

namespace Component

/-- The objects that a component points to. -/
def links : Component → Set ℕ
  | .broker b => {t | b.target = some t ∨ ∃ r ∈ b.rules, r.target = some t}
  | .statistics s => {t | s.target = some t}
  | .queue q => {t | q.target = some t}
  | .hub h => {t | h.wtarget = some t ∨ ∃ k, h.map.find k = some (some t)}
  | .leaf => ∅

/-- What the hub passes on to a peer: the data under its own id, without a handler. -/
def toPeer (h : Hub) (o : Outline) (item : IoId × Option Source) : Option (ℕ × Outline) :=
  if item.1 = o.id then none
  else (h.lock item.2).bind fun p => o.d.map fun data => (p, ⟨some data, h.id, false⟩)

/-- Where a component passes a message on to at once. -/
def passes (c : Component) (o : Outline) : List (ℕ × Outline) :=
  match c with
  | .broker b => (b.destination o.d).toList.map fun t => (t, o)
  | .statistics s =>
    s.lockTarget.toList.map fun t => (t, { o with handled := o.handled || s.measures o.d })
  | .queue q =>
    if q.alive && q.suspended then q.lockTarget.toList.map fun t => (t, o) else []
  | .hub h =>
    if h.suspended then []
    else
      h.map.entries.filterMap (toPeer h o) ++
        if h.handlerId = o.id then []
        else h.lockTarget.toList.map fun t => (t, { o with id := h.handlerId })
  | .leaf => []

/-- The message makes the component dereference a null pointer: a hub does so if there are no
    data and it has a living peer besides the sender, a suspended queue if its target is gone
    and there is no handler. -/
def alarms (c : Component) (o : Outline) : Prop :=
  match c with
  | .queue q => q.alive = true ∧ q.suspended = true ∧ q.lockTarget = none ∧ o.handled = false
  | .hub h => h.suspended = false ∧ o.d = none ∧
      ∃ item ∈ h.map.entries, item.1 ≠ o.id ∧ h.lock item.2 ≠ none
  | _ => False

variable (names : Names) (n : ℕ) (m : Message)

/-! ### Brokers and statistics -/

theorem broker_calls (b : Broker) :
    (Broker.step b (.call (.performIo m.d m.id m.handler))).calls =
      (b.destination m.d).toList.map fun t => (t, .performIo m.d m.id m.handler) := by
  rw [Broker.step, Broker.exec, Broker.call, Broker.performIo_eq]
  rfl

theorem broker_state (b : Broker) :
    ∃ calls logs,
      Broker.step b (.call (.performIo m.d m.id m.handler)) = { b with calls, logs } := by
  rw [Broker.step, Broker.exec, Broker.call, Broker.performIo_eq]
  exact ⟨_, _, rfl⟩

theorem broker_linked {b : Broker} {d : DataPtr} {t : Target} (h : b.destination d = some t) :
    b.target = some t ∨ ∃ r ∈ b.rules, r.target = some t := by
  have hlock : b.lock b.target = some t → b.target = some t :=
    fun h => (Broker.lock_eq_some_iff.mp h).1
  cases d with
  | none => exact Or.inl (hlock h)
  | some data =>
    simp only [Broker.destination] at h
    split at h
    · exact Or.inl (hlock h)
    · split at h
      · next r hr =>
        exact Or.inr ⟨r, List.mem_of_find?_eq_some hr, (Broker.lock_eq_some_iff.mp h).1⟩
      · exact Or.inl (hlock h)

theorem statistics_state (s : Statistics) :
    ∃ meters outcalls, s.quiet.performIo m.d m.id m.handler = { s with meters, outcalls } := by
  rw [Statistics.performIo_eq]
  split
  · exact ⟨_, _, rfl⟩
  · exact ⟨_, _, rfl⟩

theorem statistics_sends (s : Statistics) :
    ((s.quiet.performIo m.d m.id m.handler).outcalls.filterMap (statisticsSend names n)).map
        (Prod.map id outline) =
      s.lockTarget.toList.map fun t =>
        (t, { outline m with handled := m.handler.isSome || s.measures m.d }) := by
  have hquiet : s.quiet.lockTarget = s.lockTarget := rfl
  rw [Statistics.performIo_eq, hquiet]
  cases s.lockTarget with
  | none => rfl
  | some t =>
    have hmetering : (s.quiet.metering m.d).filterMap (statisticsSend names n) = [] := by
      rw [Statistics.metering]
      split <;> rfl
    have hhanded : (names.handed n (s.quiet.handed m.d m.handler)).isSome =
        (m.handler.isSome || s.measures m.d) := by
      have hmeasures : s.quiet.measures m.d = s.measures m.d := rfl
      rw [Statistics.handed, hmeasures]
      cases s.measures m.d with
      | true => simp [Names.handed]
      | false => simp [Names.handed]
    have hnone : s.quiet.outcalls = [] := rfl
    simp only [hnone, List.nil_append, List.filterMap_append, hmetering]
    simp [statisticsSend, outline, hhanded]

/-! ### Queues -/

theorem queue_state (q : Queue) :
    ∃ given pending outcomes calls,
      Queue.step q (.performIo m) = { q with given, pending, outcomes, calls } := by
  simp only [Queue.step, Queue.exec, Queue.performIo]
  split
  · split
    · exact ⟨_, _, _, _, rfl⟩
    · exact ⟨_, _, _, _, rfl⟩
  · exact ⟨_, _, _, _, rfl⟩

/-- What the queue does at once, if it is alive. -/
theorem queue_outcomes (q : Queue) :
    (Queue.step q (.performIo m)).outcomes =
      if q.alive then (q.atOnce m).toList.map fun o => (q.given, o) else [] := by
  have halive : q.quiet.alive = q.alive := rfl
  have hatOnce : q.quiet.atOnce m = q.atOnce m := rfl
  simp only [Queue.step, Queue.exec, Queue.performIo, halive, hatOnce]
  split
  · cases q.atOnce m with
    | none => rfl
    | some o => rfl
  · rfl

theorem queue_sends (q : Queue) :
    ((Queue.step q (.performIo m)).outcomes.filterMap (queueSend names n)).map
        (Prod.map id outline) =
      if q.alive && q.suspended then q.lockTarget.toList.map fun t => (t, outline m) else [] := by
  rw [queue_outcomes]
  cases q.alive with
  | false => rfl
  | true =>
    simp only [if_true, Bool.true_and, Queue.atOnce]
    cases q.lockTarget with
    | none =>
      cases m.handler with
      | some f => simp [queueSend]
      | none => cases q.suspended <;> simp [queueSend]
    | some t =>
      cases q.suspended <;> simp [queueSend, outline, Names.reply]

theorem queue_faults (q : Queue) :
    (Queue.step q (.performIo m)).outcomes.filterMap queueFault = [] ↔
      ¬ (q.alive = true ∧ q.suspended = true ∧ q.lockTarget = none ∧ m.handler.isSome = false) := by
  rw [queue_outcomes]
  cases q.alive with
  | false => simp
  | true =>
    simp only [if_true, Queue.atOnce]
    cases q.lockTarget with
    | none =>
      cases m.handler with
      | some f => simp [queueFault]
      | none => cases q.suspended <;> simp [queueFault]
    | some t => cases q.suspended <;> simp [queueFault]

/-! ### Hubs -/

theorem hub_state (h : Hub) :
    ∃ outcalls, Hub.step h (.performIo m.d m.id m.handler) = { h with outcalls } :=
  Hub.performIo_spec m.d m.id m.handler h.quiet

theorem hub_outcalls (h : Hub) :
    (Hub.step h (.performIo m.d m.id m.handler)).outcalls =
      if h.suspended then []
      else
        h.map.entries.filterMap (h.delivery m.d m.id) ++
          (h.forward m.d m.id m.handler).toList := by
  split
  · next hs =>
    have hs' : h.quiet.suspended = true := hs
    rw [Hub.step, Hub.exec, Hub.performIo_eq, if_pos hs']
    rfl
  · next hs => exact Hub.step_performIo_outcalls (Bool.eq_false_iff.mpr hs) m.d m.id m.handler

theorem hub_sends (h : Hub) :
    ((Hub.step h (.performIo m.d m.id m.handler)).outcalls.filterMap hubSend).map
        (Prod.map id outline) = passes (.hub h) (outline m) := by
  rw [hub_outcalls, passes]
  split
  · rfl
  · have hpeers : ((h.map.entries.filterMap (h.delivery m.d m.id)).filterMap hubSend).map
        (Prod.map id outline) = h.map.entries.filterMap (toPeer h (outline m)) := by
      rw [List.filterMap_filterMap, List.map_filterMap]
      refine List.filterMap_congr fun item _ => ?_
      by_cases hid : item.1 = m.id
      · simp [Hub.delivery, toPeer, hid]
      · simp only [Hub.delivery, toPeer, outline_d, outline_id, hid, if_false]
        cases h.lock item.2 with
        | none => rfl
        | some p =>
          cases m.d with
          | none => rfl
          | some data => rfl
    have htarget : ((h.forward m.d m.id m.handler).toList.filterMap hubSend).map
        (Prod.map id outline) =
        if h.handlerId = (outline m).id then []
        else h.lockTarget.toList.map fun t => (t, { outline m with id := h.handlerId }) := by
      by_cases hid : h.handlerId = m.id
      · simp [Hub.forward, hid]
      · simp only [Hub.forward, outline_id, hid, if_false]
        cases h.lockTarget with
        | none => rfl
        | some t => rfl
    rw [List.filterMap_append, List.map_append, hpeers, htarget]

theorem hub_faults (h : Hub) :
    (Hub.step h (.performIo m.d m.id m.handler)).outcalls.filterMap hubFault = [] ↔
      ¬ alarms (.hub h) (outline m) := by
  have htarget : (h.forward m.d m.id m.handler).toList.filterMap hubFault = [] := by
    simp only [Hub.forward]
    split
    · rfl
    · cases h.lockTarget with
      | none => rfl
      | some t => rfl
  have hpeer : ∀ item, (h.delivery m.d m.id item).bind hubFault = none ↔
      ¬ (m.d = none ∧ item.1 ≠ m.id ∧ h.lock item.2 ≠ none) := by
    intro item
    simp only [Hub.delivery]
    by_cases hid : item.1 = m.id
    · simp [hid]
    · cases h.lock item.2 with
      | none => simp
      | some p => cases m.d <;> simp [hid, hubFault]
  rw [hub_outcalls, alarms]
  cases hs : h.suspended with
  | true => simp
  | false =>
    simp only [Bool.false_eq_true, if_false, List.filterMap_append, htarget, List.append_nil,
      List.filterMap_filterMap, List.filterMap_eq_nil_iff]
    simp only [hpeer, outline]
    constructor
    · rintro hall ⟨_, hd, item, hitem, hne, halive⟩
      exact hall item hitem ⟨hd, hne, halive⟩
    · rintro hnot item hitem ⟨hd, hne, halive⟩
      exact hnot ⟨trivial, hd, item, hitem, hne, halive⟩

/-! ### All components -/

/-- What a component passes on goes along one of its pointers, with the data as they were. -/
theorem mem_passes {c : Component} {o : Outline} {x : ℕ × Outline} (hx : x ∈ c.passes o) :
    x.1 ∈ c.links ∧ x.2.d = o.d := by
  cases c with
  | broker b =>
    obtain ⟨t, ht, rfl⟩ := List.mem_map.mp hx
    exact ⟨broker_linked (Option.mem_toList.mp ht), rfl⟩
  | statistics s =>
    obtain ⟨t, ht, rfl⟩ := List.mem_map.mp hx
    exact ⟨(Option.filter_eq_some_iff.mp (Option.mem_toList.mp ht)).1, rfl⟩
  | queue q =>
    simp only [passes] at hx
    split at hx
    · obtain ⟨t, ht, rfl⟩ := List.mem_map.mp hx
      exact ⟨(Option.filter_eq_some_iff.mp (Option.mem_toList.mp ht)).1, rfl⟩
    · cases hx
  | hub h =>
    simp only [passes] at hx
    split at hx
    · cases hx
    · obtain hx | hx := List.mem_append.mp hx
      · obtain ⟨⟨k, w⟩, hitem, hx⟩ := List.mem_filterMap.mp hx
        simp only [toPeer] at hx
        split at hx
        · cases hx
        · obtain ⟨p, hp, hx⟩ := Option.bind_eq_some_iff.mp hx
          obtain ⟨data, hdata, rfl⟩ := Option.map_eq_some_iff.mp hx
          obtain ⟨rfl, _⟩ := Hub.lock_eq_some_iff.mp hp
          exact ⟨Or.inr ⟨k, OrderedMap.find_eq_some_iff.mpr hitem⟩, hdata.symm⟩
      · split at hx
        · cases hx
        · obtain ⟨t, ht, rfl⟩ := List.mem_map.mp hx
          exact ⟨Or.inl (Option.filter_eq_some_iff.mp (Option.mem_toList.mp ht)).1, rfl⟩
  | leaf => cases hx

/-- `perform_io` changes nothing that decides where messages go. -/
theorem performIo_state (c : Component) :
    links (performIo names n m c).state = links c ∧
      passes (performIo names n m c).state = passes c ∧
      alarms (performIo names n m c).state = alarms c := by
  cases c with
  | broker b =>
    obtain ⟨calls, logs, hstate⟩ := broker_state m b
    simp only [performIo, hstate]
    exact ⟨rfl, rfl, rfl⟩
  | statistics s =>
    obtain ⟨meters, outcalls, hstate⟩ := statistics_state m s
    simp only [performIo, hstate]
    exact ⟨rfl, rfl, rfl⟩
  | queue q =>
    obtain ⟨given, pending, outcomes, calls, hstate⟩ := queue_state m q
    simp only [performIo, hstate]
    exact ⟨rfl, rfl, rfl⟩
  | hub h =>
    obtain ⟨outcalls, hstate⟩ := hub_state m h
    simp only [performIo, hstate]
    exact ⟨rfl, rfl, rfl⟩
  | leaf => exact ⟨rfl, rfl, rfl⟩

/-- **Outlines.** Where a message goes, and whether it does harm, depends on its outline only,
    and `perform_io` changes nothing that decides about it. -/
theorem outlines (names : Names) : Outlines (performIo names) outline links passes alarms where
  sends n m c := by
    cases c with
    | broker b =>
      simp only [performIo, broker_calls, passes, List.filterMap_map, outline_d]
      cases b.destination m.d with
      | none => rfl
      | some t => rfl
    | statistics s => exact statistics_sends names n m s
    | queue q => exact queue_sends names n m q
    | hub h => exact hub_sends m h
    | leaf => rfl
  shows n m c := by
    cases c with
    | broker b => exact iff_of_true rfl fun h => h
    | statistics s => exact iff_of_true rfl fun h => h
    | queue q => exact queue_faults m q
    | hub h => exact hub_faults m h
    | leaf => exact iff_of_true rfl fun h => h
  linked _ _ _ hx := (mem_passes hx).1
  same_links n m c := (performIo_state names n m c).1
  same_passes n m c := (performIo_state names n m c).2.1
  same_alarms n m c := (performIo_state names n m c).2.2

end Component

end WfcIo

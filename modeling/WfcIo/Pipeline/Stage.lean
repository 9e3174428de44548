import WfcIo.Broker.Routing
import WfcIo.Pipeline.Component
import WfcIo.Foundation.Walk

/-!
# The stages of a line

Brokers, statistics and queues pass registrations on as well as messages. Here they are called by
any call of the interface, and call each other; what stands at the end of a line (a client, a
hub) accepts everything and is a leaf.

Every call shows itself, and a message that is not passed on shows what has become of it, unless
a queue keeps it.

## Main definitions

- `Stage`, `Stage.call` — an object of a line, and what it does with a call
- `Event`, `Ending` — what is shown
- `sketch`, `Stage.conveys` — what of a call decides where it goes, and where it goes

## Main results

- `Stage.recorded`, `Stage.outlines` — the sketches are right
-/

namespace WfcIo

open Foundation

/-- A component that passes registrations on, or an object outside. -/
inductive Stage
  | broker (b : Broker)
  | statistics (s : Statistics)
  | queue (q : Queue)
  | leaf

/-- What becomes of a message that is not passed on: an object outside has it, a handler is called
    with a null pointer, tracking drops it, nothing is done, or a null target is dereferenced. -/
inductive Ending
  | taken
  | refused (f : Handler)
  | dropped
  | lost
  | fault
  deriving DecidableEq

/-- The object `n` is called, or it is the last one to have the message. -/
inductive Event
  | called (n : ℕ) (c : SourceCall)
  | ended (n : ℕ) (m : Message) (e : Ending)
  deriving DecidableEq

/-- What the outcome of a request in a queue means for the message, unless it goes on. -/
def ending : Option Queue.Outcome → Option Ending
  | none => some .lost
  | some (.target _ _ _ _) => none
  | some (.handler f _) => some (.refused f)
  | some (.dropped _) => some .dropped
  | some .nullTarget => some .fault

/-- A call of the interface as an action of a queue. -/
def Queue.Act.ofCall : SourceCall → Queue.Act
  | .regIo id itf => .regIo id itf
  | .unregIo id => .unregIo id
  | .performIo d id handler => .performIo ⟨d, id, handler⟩

/-- A call of the interface. -/
def Statistics.call (s : Statistics) : SourceCall → Statistics
  | .regIo id itf => s.quiet.regIo id itf
  | .unregIo id => s.quiet.unregIo id
  | .performIo d id handler => s.quiet.performIo d id handler

namespace Stage

/-! ### Calls that a stage passes on -/

def statisticsSend (names : Names) (n : ℕ) : Statistics.Outcall → Option (ℕ × SourceCall)
  | .target t (.regIo id itf) => some (t, .regIo id itf)
  | .target t (.unregIo id) => some (t, .unregIo id)
  | .target t (.performIo d id handler) => some (t, .performIo d id (names.handed n handler))
  | _ => none

def queueSend (names : Names) (n : ℕ) : ℕ × Queue.Outcome → Option (ℕ × SourceCall)
  | (_, .target t d id reply) => some (t, .performIo d id (names.reply n reply))
  | _ => none

/-- The message of the call ends at `n` if nothing is passed on. -/
def unsent (n : ℕ) (sends : List (ℕ × SourceCall)) : SourceCall → List Event
  | .performIo d id handler => if sends.isEmpty then [.ended n ⟨d, id, handler⟩ .lost] else []
  | _ => []

/-- What the queue does at once. -/
def atOnce (n : ℕ) (q : Queue) : SourceCall → List Event
  | .performIo d id handler =>
    if q.alive then
      ((q.atOnce ⟨d, id, handler⟩).bind fun o => ending (some o)).toList.map
        (.ended n ⟨d, id, handler⟩)
    else [.ended n ⟨d, id, handler⟩ .lost]
  | _ => []

def taken (n : ℕ) : SourceCall → List Event
  | .performIo d id handler => [.ended n ⟨d, id, handler⟩ .taken]
  | _ => []

/-- The object `n` is called. -/
def call (names : Names) (n : ℕ) (c : SourceCall) : Stage → Reaction ℕ Stage SourceCall Event
  | .broker b =>
    let b' := Broker.step b (.call c)
    { state := .broker b', sends := b'.calls, shows := .called n c :: unsent n b'.calls c }
  | .statistics s =>
    let s' := s.call c
    let sends := s'.outcalls.filterMap (statisticsSend names n)
    { state := .statistics s', sends, shows := .called n c :: unsent n sends c }
  | .queue q =>
    let q' := Queue.step q (.ofCall c)
    { state := .queue q', sends := q'.calls ++ q'.outcomes.filterMap (queueSend names n)
      shows := .called n c :: atOnce n q c }
  | .leaf => { state := .leaf, sends := [], shows := .called n c :: taken n c }

end Stage

/-! ### Sketches -/

/-- What of a call decides where it goes. -/
def sketch : SourceCall → IoCall Unit Unit
  | .regIo id _ => .regIo id ()
  | .unregIo id => .unregIo id
  | .performIo d id _ => .performIo d id ()

@[simp] theorem word_sketch (id : IoId) (c : SourceCall) : (sketch c).word id = c.word id := by
  cases c <;> rfl

@[simp] theorem uses_sketch (c : SourceCall) : (sketch c).uses = c.uses := by
  cases c <;> rfl

@[simp] theorem id_sketch (c : SourceCall) : (sketch c).id = c.id := by
  cases c <;> rfl

namespace Stage

/-- The objects that a stage points to. -/
def links : Stage → Set ℕ
  | .broker b => {t | some t ∈ b.targets ∨ b.target = some t ∨ ∃ r ∈ b.rules, r.target = some t}
  | .statistics s => {t | s.target = some t}
  | .queue q => {t | q.target = some t}
  | .leaf => ∅

/-- Whom a stage passes a call on to at once. -/
def receivers : Stage → IoCall Unit Unit → List ℕ
  | .broker b, .performIo d _ _ => (b.destination d).toList
  | .broker b, _ => b.targets.filterMap b.lock
  | .statistics s, _ => s.lockTarget.toList
  | .queue q, .performIo _ _ _ => if q.alive && q.suspended then q.lockTarget.toList else []
  | .queue q, _ => if q.alive then q.lockTarget.toList else []
  | .leaf, _ => []

/-- A call is passed on as it is. -/
def conveys (k : Stage) (z : IoCall Unit Unit) : List (ℕ × IoCall Unit Unit) :=
  (k.receivers z).map fun t => (t, z)

/-- The call of an event. -/
def entry : Event → Option (ℕ × IoCall Unit Unit)
  | .called n c => some (n, sketch c)
  | .ended _ _ _ => none

variable (names : Names) (n : ℕ) (c : SourceCall)

/-! ### Brokers and statistics -/

theorem broker_sends (b : Broker) :
    (Broker.step b (.call c)).calls.map (Prod.map id sketch) = conveys (.broker b) (sketch c) := by
  rw [Broker.step_call_calls, List.map_map, conveys]
  cases c <;> rfl

theorem broker_state (b : Broker) :
    ∃ calls logs, Broker.step b (.call c) = { b with calls, logs } := by
  rw [Broker.step, Broker.exec, Broker.call_eq]
  exact ⟨_, _, rfl⟩

theorem callTarget_outcalls (c : IoCall (Option Source) MeteredHandler) (s : Statistics) :
    s.quiet.callTarget c =
      { s with outcalls := s.lockTarget.toList.map fun t => Statistics.Outcall.target t c } := by
  have hlock : s.quiet.lockTarget = s.lockTarget := rfl
  rw [Statistics.callTarget, hlock]
  cases s.lockTarget with
  | none => rfl
  | some t => rfl

theorem statistics_state (s : Statistics) :
    ∃ meters outcalls, s.call c = { s with meters, outcalls } := by
  cases c with
  | performIo d id handler => exact Component.statistics_state ⟨d, id, handler⟩ s
  | regIo id itf => exact ⟨_, _, callTarget_outcalls (.regIo id itf) s⟩
  | unregIo id => exact ⟨_, _, callTarget_outcalls (.unregIo id) s⟩

theorem statistics_sends (s : Statistics) :
    ((s.call c).outcalls.filterMap (statisticsSend names n)).map (Prod.map id sketch) =
      conveys (.statistics s) (sketch c) := by
  cases c with
  | regIo id itf =>
    rw [Statistics.call, Statistics.regIo, callTarget_outcalls, conveys, receivers]
    cases s.lockTarget with
    | none => rfl
    | some t => rfl
  | unregIo id =>
    rw [Statistics.call, Statistics.unregIo, callTarget_outcalls, conveys, receivers]
    cases s.lockTarget with
    | none => rfl
    | some t => rfl
  | performIo d id handler =>
    have hlock : s.quiet.lockTarget = s.lockTarget := rfl
    have hquiet : s.quiet.outcalls = [] := rfl
    have hmetering : (s.quiet.metering d).filterMap (statisticsSend names n) = [] := by
      rw [Statistics.metering]
      split <;> rfl
    rw [Statistics.call, Statistics.performIo_eq, hlock, conveys, receivers]
    cases s.lockTarget with
    | none => rfl
    | some t =>
      simp only [hquiet, List.nil_append, List.filterMap_append, hmetering]
      rfl

/-! ### Queues -/

theorem queue_state (q : Queue) :
    ∃ given pending untracked outcomes calls, Queue.step q (.ofCall c) =
      { q with given, pending, untracked, outcomes, calls } := by
  cases c with
  | performIo d id handler =>
    obtain ⟨given, pending, outcomes, calls, hstate⟩ := Component.queue_state ⟨d, id, handler⟩ q
    exact ⟨given, pending, q.untracked, outcomes, calls, hstate⟩
  | regIo id itf =>
    obtain ⟨calls, hspec⟩ := Queue.regIo_spec id itf q.quiet
    simp only [Queue.Act.ofCall, Queue.step, Queue.exec, hspec]
    split
    · exact ⟨_, _, _, _, _, rfl⟩
    · exact ⟨_, _, _, _, _, rfl⟩
  | unregIo id =>
    obtain ⟨calls, hspec⟩ := Queue.unregIo_spec id q.quiet
    simp only [Queue.Act.ofCall, Queue.step, Queue.exec, hspec]
    split
    · exact ⟨_, _, _, _, _, rfl⟩
    · exact ⟨_, _, _, _, _, rfl⟩

/-- What a queue does when it is told about a registration. -/
theorem queue_regIo (id : IoId) (itf : Option Source) (q : Queue) :
    (q.regIo id itf).outcomes = q.outcomes ∧
      (q.regIo id itf).calls =
        q.calls ++ q.lockTarget.toList.map fun t => (t, IoCall.regIo id itf) := by
  simp only [Queue.regIo]
  cases q.lockTarget with
  | none => simp
  | some t => simp

theorem queue_unregIo (id : IoId) (q : Queue) :
    (q.unregIo id).outcomes = q.outcomes ∧
      (q.unregIo id).calls =
        q.calls ++ q.lockTarget.toList.map fun t => (t, IoCall.unregIo id) := by
  have hlock : Queue.lockTarget { q with untracked := id :: q.untracked } = q.lockTarget := rfl
  rw [Queue.unregIo]
  simp only [hlock]
  cases q.lockTarget with
  | none => simp
  | some t => simp

theorem queue_told (q : Queue) (hc : ∀ d id handler, c ≠ .performIo d id handler) :
    (Queue.step q (.ofCall c)).outcomes = [] ∧
      (Queue.step q (.ofCall c)).calls =
        (if q.alive then q.lockTarget.toList else []).map fun t => (t, c) := by
  have halive : q.quiet.alive = q.alive := rfl
  cases c with
  | performIo d id handler => exact absurd rfl (hc d id handler)
  | regIo id itf =>
    simp only [Queue.Act.ofCall, Queue.step, Queue.exec, halive]
    split
    · exact queue_regIo id itf q.quiet
    · exact ⟨rfl, rfl⟩
  | unregIo id =>
    simp only [Queue.Act.ofCall, Queue.step, Queue.exec, halive]
    split
    · exact queue_unregIo id q.quiet
    · exact ⟨rfl, rfl⟩

/-- A message is no word to the target of the queue. -/
theorem queue_performIo_calls (q : Queue) (m : Message) :
    (Queue.step q (.performIo m)).calls = [] := by
  simp only [Queue.step, Queue.exec, Queue.performIo]
  split
  · split
    · rfl
    · rfl
  · rfl

/-- The queue makes the message wait, or not, and then only a suspended queue passes it on. -/
theorem queue_makes_wait (names : Names) (n : ℕ) (m : Message) (q : Queue) :
    ((Queue.step q (.performIo m)).pending = q.pending ∧
        (q.suspended = true ∨
          (Queue.step q (.performIo m)).outcomes.filterMap (queueSend names n) = [])) ∨
      q.suspended = false ∧
        (Queue.step q (.performIo m)).pending = q.pending ++ [⟨q.given, m⟩] ∧
        (Queue.step q (.performIo m)).outcomes.filterMap (queueSend names n) = [] := by
  have halive : q.quiet.alive = q.alive := rfl
  have hatOnce : q.quiet.atOnce m = q.atOnce m := rfl
  rw [Component.queue_outcomes]
  simp only [Queue.step, Queue.exec, Queue.performIo, halive, hatOnce]
  cases q.alive with
  | false => exact Or.inl ⟨rfl, Or.inr rfl⟩
  | true =>
    simp only [if_true]
    cases hsuspended : q.suspended with
    | true =>
      -- something is done at once in any case
      cases hq : q.atOnce m with
      | none =>
        simp only [Queue.atOnce, hsuspended, if_true] at hq
        split at hq
        · split at hq
          · cases hq
          · cases hq
        · cases hq
      | some o => exact Or.inl ⟨rfl, Or.inl rfl⟩
    | false =>
      cases hq : q.atOnce m with
      | none => exact Or.inr ⟨rfl, rfl, rfl⟩
      | some o =>
        refine Or.inl ⟨rfl, Or.inr ?_⟩
        simp only [Queue.atOnce, hsuspended] at hq
        split at hq
        · split at hq
          · cases hq
            rfl
          · cases hq
        · cases hq

theorem queue_sends (q : Queue) :
    ((Queue.step q (.ofCall c)).calls ++
        (Queue.step q (.ofCall c)).outcomes.filterMap (queueSend names n)).map
        (Prod.map id sketch) = conveys (.queue q) (sketch c) := by
  by_cases hc : ∀ d id handler, c ≠ .performIo d id handler
  · obtain ⟨houtcomes, hcalls⟩ := queue_told c q hc
    rw [houtcomes, hcalls, List.filterMap_nil, List.append_nil, List.map_map, conveys]
    cases c with
    | performIo d id handler => exact absurd rfl (hc d id handler)
    | regIo id itf => rfl
    | unregIo id => rfl
  · push Not at hc
    obtain ⟨d, id, handler, rfl⟩ := hc
    simp only [Queue.Act.ofCall, queue_performIo_calls, Component.queue_outcomes, conveys,
      sketch, receivers]
    cases q.alive with
    | false => rfl
    | true =>
      simp only [if_true, Bool.true_and, Queue.atOnce]
      cases q.lockTarget with
      | none =>
        cases handler with
        | some f => cases q.suspended <;> rfl
        | none => cases q.suspended <;> rfl
      | some t => cases q.suspended <;> rfl

/-! ### All stages -/

/-- A call is passed on along one of the pointers. -/
theorem mem_receivers {k : Stage} {z : IoCall Unit Unit} {t : ℕ} (h : t ∈ k.receivers z) :
    t ∈ k.links := by
  have hfilter : ∀ {w : Option ℕ} {p : ℕ → Bool}, t ∈ (w.filter p).toList → w = some t :=
    fun h => (Option.filter_eq_some_iff.mp (Option.mem_toList.mp h)).1
  have htold : ∀ b : Broker, t ∈ b.targets.filterMap b.lock → t ∈ links (.broker b) := by
    intro b h
    obtain ⟨w, hw, ht⟩ := List.mem_filterMap.mp h
    exact Or.inl ((Broker.lock_eq_some_iff.mp ht).1 ▸ hw)
  cases k with
  | broker b =>
    cases z with
    | performIo d id handler => exact Or.inr (Component.broker_linked (Option.mem_toList.mp h))
    | regIo id itf => exact htold b h
    | unregIo id => exact htold b h
  | statistics s => exact hfilter h
  | queue q =>
    cases z with
    | performIo d id handler =>
      simp only [receivers] at h
      split at h
      · exact hfilter h
      · cases h
    | regIo id itf =>
      simp only [receivers] at h
      split at h
      · exact hfilter h
      · cases h
    | unregIo id =>
      simp only [receivers] at h
      split at h
      · exact hfilter h
      · cases h
  | leaf => cases h

/-- A message is passed on to one object at most. -/
theorem length_receivers_le {z : IoCall Unit Unit} (hz : z.uses ≠ none) (k : Stage) :
    (k.receivers z).length ≤ 1 := by
  cases z with
  | regIo id itf => exact absurd rfl hz
  | unregIo id => exact absurd rfl hz
  | performIo d id handler =>
    cases k with
    | broker b => exact Option.length_toList_le
    | statistics s => exact Option.length_toList_le
    | queue q =>
      simp only [receivers]
      split
      · exact Option.length_toList_le
      · exact Nat.zero_le 1
    | leaf => exact Nat.zero_le 1

theorem mem_conveys {k : Stage} {z : IoCall Unit Unit} {x : ℕ × IoCall Unit Unit}
    (hx : x ∈ k.conveys z) : x.1 ∈ k.links ∧ x.2 = z := by
  obtain ⟨t, ht, rfl⟩ := List.mem_map.mp hx
  exact ⟨mem_receivers ht, rfl⟩

/-- A call changes nothing that decides where calls go. -/
theorem call_state (k : Stage) :
    links (call names n c k).state = links k ∧ conveys (call names n c k).state = conveys k := by
  cases k with
  | broker b =>
    obtain ⟨calls, logs, hstate⟩ := broker_state c b
    simp only [call, hstate]
    exact ⟨rfl, funext fun z => by cases z <;> rfl⟩
  | statistics s =>
    obtain ⟨meters, outcalls, hstate⟩ := statistics_state c s
    simp only [call, hstate]
    exact ⟨rfl, funext fun z => by cases z <;> rfl⟩
  | queue q =>
    obtain ⟨given, pending, untracked, outcomes, calls, hstate⟩ := queue_state c q
    simp only [call, hstate]
    exact ⟨rfl, funext fun z => by cases z <;> rfl⟩
  | leaf => exact ⟨rfl, rfl⟩

theorem call_sends (k : Stage) :
    (call names n c k).sends.map (Prod.map id sketch) = k.conveys (sketch c) := by
  cases k with
  | broker b => exact broker_sends c b
  | statistics s => exact statistics_sends names n c s
  | queue q => exact queue_sends names n c q
  | leaf => rfl

/-- What is passed on is the same call, to a receiver. -/
theorem mem_sends {names : Names} {n : ℕ} {c : SourceCall} {k : Stage} {c' : ℕ × SourceCall}
    (h : c' ∈ (call names n c k).sends) :
    c'.1 ∈ k.receivers (sketch c) ∧ sketch c'.2 = sketch c := by
  have hmem : (c'.1, sketch c'.2) ∈ k.conveys (sketch c) := by
    rw [← call_sends names n c k]
    exact List.mem_map_of_mem h
  obtain ⟨t, ht, heq⟩ := List.mem_map.mp hmem
  obtain ⟨rfl, hsketch⟩ := Prod.mk.inj heq
  exact ⟨ht, hsketch.symm⟩

theorem length_sends_le {c : SourceCall} (hc : c.uses ≠ none) (names : Names) (n : ℕ) (k : Stage) :
    (call names n c k).sends.length ≤ 1 := by
  have hlength := congrArg List.length (call_sends names n c k)
  rw [List.length_map, conveys, List.length_map] at hlength
  rw [hlength]
  exact length_receivers_le (uses_sketch c ▸ hc) k

/-- What is shown besides the call is no call. -/
theorem ended_entry (m : Message) (l : List Ending) :
    (l.map (Event.ended n m)).filterMap entry = [] := by
  rw [List.filterMap_map]
  exact List.filterMap_eq_nil_iff.mpr fun _ _ => rfl

theorem unsent_entry (sends : List (ℕ × SourceCall)) :
    (unsent n sends c).filterMap entry = [] := by
  cases c with
  | performIo d id handler =>
    rw [unsent]
    split <;> rfl
  | regIo id itf => rfl
  | unregIo id => rfl

theorem atOnce_entry (q : Queue) : (atOnce n q c).filterMap entry = [] := by
  cases c with
  | performIo d id handler =>
    rw [atOnce]
    split
    · exact ended_entry n _ _
    · rfl
  | regIo id itf => rfl
  | unregIo id => rfl

/-- **Sketches.** Where a call goes depends on its sketch only, and on nothing that calls change;
    and every call is recorded once. -/
theorem recorded (names : Names) : Recorded (call names) sketch conveys entry where
  sends n c k := call_sends names n c k
  shows n c k := by
    cases k with
    | broker b =>
      simp only [call, List.filterMap_cons, entry, unsent_entry]
    | statistics s =>
      simp only [call, List.filterMap_cons, entry, unsent_entry]
    | queue q =>
      simp only [call, List.filterMap_cons, entry, atOnce_entry]
    | leaf => cases c <;> rfl
  same_passes n c k := (call_state names n c k).2

theorem outlines (names : Names) :
    Outlines (call names) sketch links conveys (fun _ _ => True) where
  sends n c k := call_sends names n c k
  shows n c k := by
    refine iff_of_false ?_ (fun h => h trivial)
    cases k <;> exact List.cons_ne_nil _ _
  linked _ _ _ hx := (mem_conveys hx).1
  same_links n c k := (call_state names n c k).1
  same_passes n c k := (call_state names n c k).2
  same_alarms _ _ _ := rfl

end Stage

end WfcIo

import WfcIo.Hub.Membership

/-!
# What a message makes the hub do

A hub that is never suspended gives a message to every peer whose last call was a
registration with a living interface, once each, but not to the sender; and to its target,
unless the message has come from there. The relay brings the messages of the target under
the id of the hub, and no peer has that id if `create_id` never gives one of theirs.

## Main definitions

- `Hub.registered` — the interface that the last call about an id has registered
- `Hub.Broadcast` — the calls that a message leads to
- `Hub.FreshIds` — what `create_id` is relied on for

## Main results

- `Hub.broadcast_exact` — a message leads to exactly these calls
-/

namespace WfcIo

open Foundation

namespace Hub

/-- The interface given by the last of the calls about `k`, if that is a registration and the
    interface is not among the sources that are gone. -/
def registered (gone : List Source) (calls : List Act) (k : IoId) : Option Source :=
  (latest (Act.interface k) calls).join.filter (· ∉ gone)

/-- The call goes to the peer registered under `k`. -/
def Outcall.toPeer (k : IoId) : Outcall → Bool
  | .peer k' _ _ _ _ => k' = k
  | _ => false

/-- The call goes to the target. -/
def Outcall.toTarget : Outcall → Bool
  | .target _ _ => true
  | _ => false

/-- What the hub `h`, which has heard `calls`, does outside when it gets a message of `sender`:
    each registered peer but the sender gets a copy of the data, and the target, unless it is
    the sender, gets the data and the handler. -/
structure Broadcast (h : Hub) (calls : List Act) (data : Data) (sender : IoId)
    (handler : Option Handler) (out : List Outcall) : Prop where
  peers : ∀ k, out.filter (Outcall.toPeer k) =
    if k = sender then []
    else ((registered h.gone calls k).map fun p => Outcall.peer k p data h.id none).toList
  target : out.filter Outcall.toTarget =
    if h.handlerId = sender then []
    else
      (h.lockTarget.map fun t =>
        Outcall.target t (.performIo (some data) h.handlerId handler)).toList
  nothingElse : .nullData ∉ out

/-- The ids that restarts take are not zero, and no peer registers under one. -/
def FreshIds (acts : List Act) : Prop :=
  ∀ newId, .restart newId ∈ acts → newId ≠ 0 ∧ ∀ itf, .regIo newId itf ∉ acts

variable {h : Hub} {acts : List Act} {k : IoId}

/-! ### One message -/

/-- The calls of the loop that go to `k`. -/
theorem filter_delivery (h : Hub) (data : Data) (sender k : IoId) :
    (h.map.entries.filterMap (h.delivery (some data) sender)).filter (Outcall.toPeer k) =
      if k = sender then []
      else
        (((h.map.find k).join.filter (· ∉ h.gone)).map fun p =>
          Outcall.peer k p data h.id none).toList := by
  have hother : ∀ item : IoId × Option Source, item.1 ≠ k →
      (h.delivery (some data) sender item).filter (Outcall.toPeer k) = none := by
    intro item hk
    simp only [delivery]
    split
    · rfl
    · cases h.lock item.2 with
      | none => rfl
      | some p =>
        refine Option.filter_eq_none_iff.mpr fun o ho => ?_
        cases ho
        simpa only [Outcall.toPeer, decide_eq_true_eq] using hk
  rw [List.filter_filterMap, h.map.filterMap_entries k hother]
  cases hfind : h.map.find k with
  | none => simp
  | some w =>
    rw [Option.bind_some, Option.join_some]
    simp only [delivery, lock]
    split
    · rfl
    · cases w.filter (· ∉ h.gone) with
      | none => rfl
      | some p => simp [Outcall.toPeer]

theorem forward_toPeer (h : Hub) (d : DataPtr) (sender : IoId) (handler : Option Handler) :
    (h.forward d sender handler).toList.filter (Outcall.toPeer k) = [] := by
  simp only [forward]
  split
  · rfl
  · cases h.lockTarget <;> rfl

theorem forward_toTarget (h : Hub) (d : DataPtr) (sender : IoId) (handler : Option Handler) :
    (h.forward d sender handler).toList.filter Outcall.toTarget =
      (h.forward d sender handler).toList := by
  simp only [forward]
  split
  · rfl
  · cases h.lockTarget <;> rfl

theorem delivery_toTarget (h : Hub) (d : DataPtr) (sender : IoId)
    (l : List (IoId × Option Source)) :
    (l.filterMap (h.delivery d sender)).filter Outcall.toTarget = [] := by
  rw [List.filter_filterMap]
  refine List.filterMap_eq_nil_iff.mpr fun item _ => ?_
  simp only [delivery]
  split
  · rfl
  · cases h.lock item.2 with
    | none => rfl
    | some p => cases d <;> rfl

/-- Data that is there is never a null pointer. -/
theorem nullData_notMem (h : Hub) (data : Data) (sender : IoId) (handler : Option Handler)
    (l : List (IoId × Option Source)) :
    .nullData ∉ l.filterMap (h.delivery (some data) sender) ++
      (h.forward (some data) sender handler).toList := by
  rw [List.mem_append, List.mem_filterMap, Option.mem_toList]
  rintro (⟨item, _, hitem⟩ | hforward)
  · simp only [delivery] at hitem
    split at hitem
    · cases hitem
    · obtain ⟨p, _, hp⟩ := Option.map_eq_some_iff.mp hitem
      cases hp
  · simp only [forward] at hforward
    split at hforward
    · cases hforward
    · obtain ⟨t, _, ht⟩ := Option.map_eq_some_iff.mp hforward
      cases ht

/-- What an unsuspended hub does with a message, by what its map says. -/
theorem broadcast_performIo (hs : h.suspended = false) {calls : List Act}
    (hmap : ∀ k, (h.map.find k).join = (latest (Act.interface k) calls).join) (data : Data)
    (sender : IoId) (handler : Option Handler) :
    Broadcast h calls data sender handler
      (step h (.performIo (some data) sender handler)).outcalls := by
  rw [step_performIo_outcalls hs]
  refine ⟨fun k => ?_, ?_, nullData_notMem h data sender handler _⟩
  · rw [List.filter_append, filter_delivery, forward_toPeer, List.append_nil, hmap]
    rfl
  · rw [List.filter_append, delivery_toTarget, forward_toTarget, List.nil_append, forward]
    split
    · rfl
    · rfl

/-! ### Runs -/

/-- What a step does apart from the map and the calls: only a restart writes the relay. -/
theorem step_spec (h : Hub) (a : Act) :
    ((step h a).suspended = h.suspended ∨ ∃ flag, a = .suspend flag ∧ (step h a).suspended = flag) ∧
      ((step h a).targetHandler = h.targetHandler ∧ (step h a).handlerId = h.handlerId ∨
        ∃ newId, a = .restart newId ∧ (step h a).targetHandler = some ⟨newId⟩ ∧
          (step h a).handlerId = newId) := by
  have hperform : ∀ d id handler, a = .performIo d id handler ∨ a = .relay d id handler →
      ∃ outcalls, step h a = { h with outcalls } := by
    rintro d id handler (rfl | rfl)
    · exact performIo_spec d id handler h.quiet
    · simp only [step, exec]
      cases h.quiet.targetHandler with
      | none => exact ⟨[], rfl⟩
      | some r => exact performIo_spec d r.id handler h.quiet
  cases a with
  | restart newId =>
    simp only [step, exec, restart]
    cases h.quiet.lockTarget with
    | none => exact ⟨Or.inl rfl, Or.inl ⟨rfl, rfl⟩⟩
    | some t => exact ⟨Or.inl rfl, Or.inr ⟨newId, rfl, rfl, rfl⟩⟩
  | regIo id itf =>
    simp only [step, exec, regIo]
    split <;> exact ⟨Or.inl rfl, Or.inl ⟨rfl, rfl⟩⟩
  | unregIo id =>
    simp only [step, exec, unregIo_eq]
    split <;> exact ⟨Or.inl rfl, Or.inl ⟨rfl, rfl⟩⟩
  | performIo d id handler =>
    obtain ⟨outcalls, heq⟩ := hperform d id handler (Or.inl rfl)
    rw [heq]
    exact ⟨Or.inl rfl, Or.inl ⟨rfl, rfl⟩⟩
  | relay d id cb =>
    obtain ⟨outcalls, heq⟩ := hperform d id cb (Or.inr rfl)
    rw [heq]
    exact ⟨Or.inl rfl, Or.inl ⟨rfl, rfl⟩⟩
  | suspend flag => exact ⟨Or.inr ⟨flag, rfl, rfl⟩, Or.inl ⟨rfl, rfl⟩⟩
  | expire t => exact ⟨Or.inl rfl, Or.inl ⟨rfl, rfl⟩⟩
  | leave p => exact ⟨Or.inl rfl, Or.inl ⟨rfl, rfl⟩⟩

/-- A hub that is never suspended hears every call. -/
theorem heard_eq_self (hs : h.suspended = false) (hacts : .suspend true ∉ acts) :
    heard h acts = acts ∧ (run step h acts).suspended = false := by
  induction acts using List.reverseRecOn with
  | nil => exact ⟨rfl, hs⟩
  | append_singleton acts a ih =>
    rw [List.mem_append, not_or, List.mem_singleton] at hacts
    obtain ⟨hheard, hrun⟩ := ih hacts.1
    constructor
    · rw [heard_concat, hheard, hrun]
      rfl
    · rw [run_concat]
      obtain hsame | ⟨flag, rfl, hflag⟩ := (step_spec (run step h acts) a).1
      · rw [hsame, hrun]
      · cases flag with
        | true => exact absurd rfl hacts.2
        | false => exact hflag

/-- The relay of a hub has the id of the hub, which a restart has taken. -/
theorem relay_run (id : IoId) (target : Option Target) (acts : List Act) {r : TargetHandler}
    (hr : (run step (initialized id target) acts).targetHandler = some r) :
    r.id = (run step (initialized id target) acts).handlerId ∧ .restart r.id ∈ acts := by
  induction acts using List.reverseRecOn with
  | nil => cases hr
  | append_singleton acts a ih =>
    rw [run_concat] at hr ⊢
    obtain ⟨hsame, hid⟩ | ⟨newId, rfl, hnew, hid⟩ :=
      (step_spec (run step (initialized id target) acts) a).2
    · rw [hsame] at hr
      rw [hid]
      exact ⟨(ih hr).1, List.mem_append_left _ (ih hr).2⟩
    · rw [hnew] at hr
      cases hr
      exact ⟨hid.symm, List.mem_append_right _ List.mem_cons_self⟩

/-- Nobody registers under an id that no call registers. -/
theorem registered_eq_none (gone : List Source) (hk : ∀ itf, .regIo k itf ∉ acts) :
    registered gone acts k = none := by
  have hjoin : (latest (Act.interface k) acts).join = none := by
    cases hlatest : latest (Act.interface k) acts with
    | none => rfl
    | some w =>
      obtain ⟨pre, a, post, rfl, ha, _⟩ := latest_eq_some_iff.mp hlatest
      cases a with
      | regIo id itf =>
        simp only [Act.interface] at ha
        split at ha
        · rename_i hid
          subst hid
          exact absurd (List.mem_append_right _ List.mem_cons_self) (hk itf)
        · cases ha
      | unregIo id =>
        simp only [Act.interface] at ha
        split at ha
        · cases ha
          rfl
        · cases ha
      | _ => cases ha
  rw [registered, hjoin, Option.filter_none]

/-- **Broadcast.** A message that comes in a run of a hub that is never suspended leads to
    exactly the calls of `Broadcast`. One that the target sends through the relay goes to
    every registered peer, once each, and not back to the target. -/
theorem broadcast_exact (id : IoId) (target : Option Target) (acts : List Act)
    (hnever : .suspend true ∉ acts) (hfresh : FreshIds acts) (data : Data) (sender : IoId)
    (handler : Option Handler) :
    Broadcast (run step (initialized id target) acts) acts data sender handler
        (step (run step (initialized id target) acts)
          (.performIo (some data) sender handler)).outcalls ∧
      ((run step (initialized id target) acts).targetHandler ≠ none →
        ∀ k, (step (run step (initialized id target) acts)
            (.relay (some data) sender handler)).outcalls.filter (Outcall.toPeer k) =
          ((registered (run step (initialized id target) acts).gone acts k).map fun p =>
            Outcall.peer k p data (run step (initialized id target) acts).id none).toList ∧
        (step (run step (initialized id target) acts)
          (.relay (some data) sender handler)).outcalls.filter Outcall.toTarget = []) := by
  obtain ⟨hheard, hs⟩ := heard_eq_self (h := initialized id target) rfl hnever
  have hmap : ∀ k, ((run step (initialized id target) acts).map.find k).join =
      (latest (Act.interface k) acts).join := by
    intro k
    rw [run_find, hheard]
  refine ⟨broadcast_performIo hs hmap data sender handler, fun hrelay k => ?_⟩
  -- through the relay the message comes under the id of the hub, which is no peer's
  obtain ⟨r, hr⟩ := Option.ne_none_iff_exists'.mp hrelay
  obtain ⟨hid, hrestart⟩ := relay_run id target acts hr
  have hstep : step (run step (initialized id target) acts) (.relay (some data) sender handler) =
      step (run step (initialized id target) acts) (.performIo (some data) r.id handler) := by
    have hr' : (run step (initialized id target) acts).quiet.targetHandler = some r := hr
    simp only [step, exec, hr', TargetHandler.performIo]
  have hall := broadcast_performIo hs hmap data r.id handler
  rw [hstep]
  constructor
  · rw [hall.peers k]
    split
    · rename_i hk
      rw [hk, registered_eq_none _ (hfresh r.id hrestart).2]
      rfl
    · rfl
  · rw [hall.target, if_pos hid.symm]

/-- The hub restarts with its target, and two peers come. -/
def twoPeers : List Act := [.restart 2, .regIo 7 (some 5), .regIo 8 (some 6)]

/-- A message of the peer 7 goes to the peer 8 and to the target; one of the target goes to both
    peers. -/
theorem broadcast_seven :
    let h := run step (initialized 1 (some 4)) twoPeers
    Broadcast h twoPeers [1] 7 (some 9) (step h (.performIo (some [1]) 7 (some 9))).outcalls ∧
      (step h (.performIo (some [1]) 7 (some 9))).outcalls =
        [.peer 8 6 [1] 1 none, .target 4 (.performIo (some [1]) 2 (some 9))] ∧
      (∀ k, (step h (.relay (some [1]) 7 (some 9))).outcalls.filter (Outcall.toPeer k) =
          ((registered h.gone twoPeers k).map fun p => Outcall.peer k p [1] h.id none).toList ∧
        (step h (.relay (some [1]) 7 (some 9))).outcalls.filter Outcall.toTarget = []) ∧
      (step h (.relay (some [1]) 7 (some 9))).outcalls =
        [.peer 7 5 [1] 1 none, .peer 8 6 [1] 1 none] := by
  have hfresh : FreshIds twoPeers := by
    intro newId hmem
    have hid : newId = 2 := by simpa [twoPeers] using hmem
    subst hid
    exact ⟨by decide, by simp [twoPeers]⟩
  have hboth := broadcast_exact 1 (some 4) twoPeers (by decide) hfresh [1] 7 (some 9)
  exact ⟨hboth.1, by decide, hboth.2 (by decide), by decide⟩

end Hub

end WfcIo

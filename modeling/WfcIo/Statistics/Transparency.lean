import WfcIo.Foundation.Simulation
import WfcIo.Statistics.Statistics

/-!
# Does the measuring show?

The statistics with a target that answers, at once or later and as often as it likes, side by
side with the same statistics without a statistics object, which pass everything on. What the
target and the sources see is the same, with one exception: a message without a handler comes
to the target with one, and the call of that one throws.

## Main definitions

- `Statistics.Behaviour` — a target, by the answers it gives
- `Statistics.Exchange`, `Exchange.step` — the statistics and their target, one event of theirs
- `Exchange.seen` — what the target and the sources see of a step
- `Exchange.passOn` — a step without a statistics object
- `Exchange.Masks` — a message without a handler is measured

## Main results

- `Exchange.transparent_iff` — the measuring does not show exactly in runs without such messages
-/

namespace WfcIo

open Foundation

/-- The same call with another handler. -/
def IoCall.mapHandler {ι η η' : Type} (f : η → η') : IoCall ι η → IoCall ι η'
  | .regIo id itf => .regIo id itf
  | .unregIo id => .unregIo id
  | .performIo d id handler => .performIo d id (f handler)

/-- The handler of the source that it leads to. -/
def MeteredHandler.source : MeteredHandler → Option Handler
  | .plain handler => handler
  | .metered handler _ => handler

namespace Statistics

/-- A target: with what it calls the handler of a message, before its `perform_io` returns and
    later. It does not call an empty handler. -/
structure Behaviour where
  now : DataPtr → IoId → List DataPtr
  later : DataPtr → IoId → List DataPtr

/-- What the target and the sources see. Of a handler that it is given the target sees whether
    it is empty. -/
inductive Seen
  | target (t : Target) (c : IoCall (Option Source) Bool)
  | handler (f : Handler) (d : DataPtr)
  | emptyHandler
  deriving DecidableEq

/-- Who sees the call; nobody sees a meter. -/
def Outcall.seen : Outcall → Option Seen
  | .target t c => some (.target t (c.mapHandler MeteredHandler.isNull))
  | .handler f d => some (.handler f d)
  | .emptyHandler => some .emptyHandler
  | .createMeter _ _ => none
  | .setWriteSize _ _ => none

/-- The messages that the target has got. -/
def messages (s : Statistics) : List (DataPtr × IoId × MeteredHandler) :=
  s.outcalls.filterMap fun
    | .target _ (.performIo d id h) => some (d, id, h)
    | _ => none

/-- The statistics and their target, which has still to give the answers `pending`. -/
structure Exchange where
  statistics : Statistics
  pending : List (MeteredHandler × DataPtr) := []

namespace Exchange

/-- The target reacts to a message. -/
def react (B : Behaviour) (w : Exchange) (m : DataPtr × IoId × MeteredHandler) : Exchange :=
  if m.2.2.isNull then w
  else
    { statistics := (B.now m.1 m.2.1).foldl (fun s d => s.answer m.2.2 d) w.statistics
      pending := w.pending ++ (B.later m.1 m.2.1).map fun d => (m.2.2, d) }

/-- A call of the statistics, the target gives the `n`-th pending answer, the suspend flag or
    the statistics object changes, or the last owner of an object lets it go. -/
inductive Act
  | regIo (id : IoId) (itf : Option Source)
  | unregIo (id : IoId)
  | performIo (d : DataPtr) (id : IoId) (handler : Option Handler)
  | answer (n : ℕ)
  | suspend (flag : Bool)
  | stat (flag : Bool)
  | expire (t : Target)
  deriving DecidableEq

def exec (B : Behaviour) (w : Exchange) : Act → Exchange
  | .regIo id itf => { w with statistics := w.statistics.regIo id itf }
  | .unregIo id => { w with statistics := w.statistics.unregIo id }
  | .performIo d id handler =>
    let s := w.statistics.performIo d id handler
    s.messages.foldl (react B) { w with statistics := s }
  | .answer n =>
    match w.pending[n]? with
    | some p =>
      { statistics := w.statistics.answer p.1 p.2, pending := w.pending.eraseIdx n }
    | none => w
  | .suspend flag => { w with statistics := { w.statistics with suspended := flag } }
  | .stat flag => { w with statistics := { w.statistics with stat := flag } }
  | .expire t =>
    { w with statistics := { w.statistics with expired := w.statistics.expired ++ [t] } }

def quiet (w : Exchange) : Exchange := { w with statistics := w.statistics.quiet }

def step (B : Behaviour) (w : Exchange) (a : Act) : Exchange := w.quiet.exec B a

/-- What the target and the sources see of the last step. -/
def seen (w : Exchange) : List Seen := w.statistics.outcalls.filterMap Outcall.seen

/-- Without a statistics object. -/
def plainly (w : Exchange) : Exchange :=
  { w with statistics := { w.statistics with stat := false } }

/-- A step of statistics that never get a statistics object. -/
def passOn (B : Behaviour) (w : Exchange) (a : Act) : Exchange := (step B w a).plainly

/-- A message without a handler is measured, and there is a target to get it. -/
def Masks (w : Exchange) : Act → Prop
  | .performIo d _ handler =>
    w.statistics.lockTarget ≠ none ∧ w.statistics.measures d = true ∧ handler = none
  | _ => False

instance (w : Exchange) : ∀ a, Decidable (Masks w a)
  | .performIo _ _ _ => inferInstanceAs (Decidable (_ ∧ _))
  | .regIo _ _ | .unregIo _ | .answer _ | .suspend _ | .stat _ | .expire _ =>
    inferInstanceAs (Decidable False)

/-- What is seen when a handler is called. -/
def answerSeen (h : MeteredHandler) (d : DataPtr) : Seen :=
  match h.source with
  | some f => .handler f d
  | none => .emptyHandler

/-! ### What is seen -/

variable {B : Behaviour} {w v : Exchange} {s : Statistics} {a : Act}

/-- The call of a handler is seen by its source, whatever the lambda does besides. -/
theorem answer_spec (h : MeteredHandler) (d : DataPtr) (s : Statistics) :
    ∃ outcalls, s.answer h d = { s with outcalls := s.outcalls ++ outcalls } ∧
      outcalls.filterMap Outcall.seen = [answerSeen h d] := by
  have hcall : ∀ (handler : Option Handler) (s : Statistics),
      ∃ o, s.callHandler handler d = s.emit o ∧
        o.seen = some (answerSeen (.plain handler) d) := by
    intro handler s
    cases handler with
    | none => exact ⟨.emptyHandler, rfl, rfl⟩
    | some f => exact ⟨.handler f d, rfl, rfl⟩
  cases h with
  | plain handler =>
    obtain ⟨o, ho, hseen⟩ := hcall handler s
    exact ⟨[o], ho, by rw [List.filterMap_cons, hseen]; rfl⟩
  | metered handler meter =>
    cases d with
    | none =>
      obtain ⟨o, ho, hseen⟩ := hcall handler s
      exact ⟨[o], ho, by rw [List.filterMap_cons, hseen]; rfl⟩
    | some data =>
      obtain ⟨o, ho, hseen⟩ := hcall handler (s.emit (.setWriteSize meter data.length))
      refine ⟨[.setWriteSize meter data.length, o], ?_, ?_⟩
      · rw [answer, ho]
        simp only [emit, List.append_assoc, List.cons_append, List.nil_append]
      · rw [List.filterMap_cons, List.filterMap_cons, hseen]
        rfl

theorem foldl_answer (h : MeteredHandler) (ds : List DataPtr) (s : Statistics) :
    ∃ outcalls, ds.foldl (fun s d => s.answer h d) s =
        { s with outcalls := s.outcalls ++ outcalls } ∧
      outcalls.filterMap Outcall.seen = ds.map (answerSeen h) := by
  induction ds generalizing s with
  | nil => exact ⟨[], by rw [List.append_nil]; rfl, rfl⟩
  | cons d ds ih =>
    obtain ⟨os, hos, hseen⟩ := answer_spec h d s
    obtain ⟨os', hos', hseen'⟩ := ih (s.answer h d)
    refine ⟨os ++ os', ?_, ?_⟩
    · rw [List.foldl_cons, hos', hos]
      simp only [List.append_assoc]
    · rw [List.filterMap_append, hseen, hseen', List.map_cons, List.singleton_append]

/-- What a message does before the target reacts: the target gets it, and a meter may be made,
    which nobody sees. -/
theorem performIo_spec (d : DataPtr) (id : IoId) (handler : Option Handler) {t : Target}
    (ht : s.lockTarget = some t) :
    ∃ meters outcalls, s.quiet.performIo d id handler = { s with meters, outcalls } ∧
      messages { s with meters, outcalls } = [(d, id, s.handed d handler)] ∧
      outcalls.filterMap Outcall.seen =
        [.target t (.performIo d id (s.handed d handler).isNull)] := by
  have ht' : s.quiet.lockTarget = some t := ht
  have hperform := performIo_eq d id handler s.quiet
  rw [ht'] at hperform
  refine ⟨_, _, hperform, ?_, ?_⟩
  · simp only [messages, metering, List.filterMap_append]
    split <;> rfl
  · simp only [metering, List.filterMap_append]
    split <;> rfl

/-- The step in which a message comes to the target, and the target reacts. -/
theorem step_performIo (B : Behaviour) (w : Exchange) (d : DataPtr) (id : IoId)
    (handler : Option Handler) {t : Target} (ht : w.statistics.lockTarget = some t) :
    ∃ meters outcalls, step B w (.performIo d id handler) =
        { statistics := { w.statistics with meters, outcalls }
          pending := w.pending ++
            if (w.statistics.handed d handler).isNull then []
            else (B.later d id).map fun d' => (w.statistics.handed d handler, d') } ∧
      outcalls.filterMap Outcall.seen =
        .target t (.performIo d id (w.statistics.handed d handler).isNull) ::
          if (w.statistics.handed d handler).isNull then []
          else (B.now d id).map (answerSeen (w.statistics.handed d handler)) := by
  obtain ⟨meters, os, hperform, hmessages, hseen⟩ := performIo_spec d id handler ht
  have hstep : step B w (.performIo d id handler) =
      react B { w with statistics := { w.statistics with meters, outcalls := os } }
        (d, id, w.statistics.handed d handler) := by
    have hexec : step B w (.performIo d id handler) =
        (w.statistics.quiet.performIo d id handler).messages.foldl (react B)
          { w with statistics := w.statistics.quiet.performIo d id handler } := rfl
    rw [hexec, hperform, hmessages]
    rfl
  rw [hstep, react]
  by_cases hnull : (w.statistics.handed d handler).isNull = true
  · refine ⟨meters, os, ?_, ?_⟩
    · rw [if_pos hnull, if_pos hnull, List.append_nil]
    · rw [if_pos hnull, hseen]
  · obtain ⟨outcalls, hanswers, hanswersSeen⟩ :=
      foldl_answer (w.statistics.handed d handler) (B.now d id)
        { w.statistics with meters, outcalls := os }
    refine ⟨meters, os ++ outcalls, ?_, ?_⟩
    · rw [if_neg hnull, if_neg hnull]
      dsimp only
      rw [hanswers]
    · rw [if_neg hnull, List.filterMap_append, hseen, hanswersSeen, List.singleton_append]

/-- Without a target a message has no effect. -/
theorem step_performIo_of_none (B : Behaviour) (w : Exchange) (d : DataPtr) (id : IoId)
    (handler : Option Handler) (ht : w.statistics.lockTarget = none) :
    step B w (.performIo d id handler) = w.quiet := by
  have ht' : w.statistics.quiet.lockTarget = none := ht
  have hperform := performIo_eq d id handler w.statistics.quiet
  rw [ht'] at hperform
  have hexec : step B w (.performIo d id handler) =
      (w.statistics.quiet.performIo d id handler).messages.foldl (react B)
        { w with statistics := w.statistics.quiet.performIo d id handler } := rfl
  rw [hexec, hperform]
  rfl

/-! ### The simulation -/

/-- The answer as it is given without a statistics object. -/
def plainAnswer (p : MeteredHandler × DataPtr) : MeteredHandler × DataPtr :=
  (.plain p.1.source, p.2)

/-- `v` passes everything on, and otherwise is as `w`, which has no answer pending to a message
    without a handler. -/
structure Sim (w v : Exchange) : Prop where
  suspended : v.statistics.suspended = w.statistics.suspended
  target : v.statistics.target = w.statistics.target
  expired : v.statistics.expired = w.statistics.expired
  stat : v.statistics.stat = false
  pending : v.pending = w.pending.map plainAnswer
  handlers : ∀ p ∈ w.pending, p.1.source ≠ none

theorem Sim.lockTarget (h : Sim w v) : v.statistics.lockTarget = w.statistics.lockTarget := by
  simp only [Statistics.lockTarget, h.target, h.expired]

theorem Sim.handed (h : Sim w v) (d : DataPtr) (handler : Option Handler) :
    v.statistics.handed d handler = .plain handler := by
  have hmeasures : v.statistics.measures d = false := by
    simp only [measures, h.stat, Bool.and_false]
  rw [Statistics.handed, hmeasures]
  rfl

theorem handed_source (d : DataPtr) (handler : Option Handler) (s : Statistics) :
    (s.handed d handler).source = handler := by
  simp only [Statistics.handed]
  split <;> rfl

/-- The handler handed on is as empty as that of the source, unless it is masked. -/
theorem handed_isNull (d : DataPtr) (handler : Option Handler) (s : Statistics) :
    (s.handed d handler).isNull = (handler.isNone && !s.measures d) := by
  simp only [Statistics.handed]
  split
  · rename_i h
    rw [h, Bool.not_true, Bool.and_false]
    rfl
  · rename_i h
    rw [Bool.not_eq_true] at h
    rw [h, Bool.not_false, Bool.and_true]
    rfl

/-- What the target gets is empty on both paths, or on neither. -/
theorem Sim.isNull_eq (h : Sim w v) {d : DataPtr} {id : IoId} {handler : Option Handler}
    (ht : w.statistics.lockTarget ≠ none) (hmask : ¬ Masks w (.performIo d id handler)) :
    (w.statistics.handed d handler).isNull = (v.statistics.handed d handler).isNull := by
  rw [h.handed, handed_isNull, MeteredHandler.isNull]
  cases hhandler : handler with
  | some f => rfl
  | none =>
    have hmeasures : ¬ w.statistics.measures d = true := fun hmeasures =>
      hmask ⟨ht, hmeasures, hhandler⟩
    rw [Bool.not_eq_true] at hmeasures
    rw [hmeasures]
    rfl

theorem answerSeen_of_source {h h' : MeteredHandler} (heq : h.source = h'.source) (d : DataPtr) :
    answerSeen h d = answerSeen h' d := by
  simp only [answerSeen, heq]

/-- A call that is passed on to the target looks the same. -/
theorem seen_callTarget (c : IoCall (Option Source) MeteredHandler) (s : Statistics) :
    (s.quiet.callTarget c).outcalls.filterMap Outcall.seen =
      (s.lockTarget.map fun t => Seen.target t (c.mapHandler MeteredHandler.isNull)).toList ∧
    ∃ outcalls, s.quiet.callTarget c = { s with outcalls } := by
  have hlock : s.quiet.lockTarget = s.lockTarget := rfl
  simp only [callTarget, hlock]
  cases s.lockTarget with
  | none => exact ⟨rfl, [], rfl⟩
  | some t => exact ⟨rfl, _, rfl⟩

/-- A registration keeps the relation and shows the same. -/
theorem sim_callTarget (h : Sim w v) (c : IoCall (Option Source) MeteredHandler) :
    Sim { w with statistics := w.statistics.quiet.callTarget c }
        (plainly { v with statistics := v.statistics.quiet.callTarget c }) ∧
      seen { w with statistics := w.statistics.quiet.callTarget c } =
        seen (plainly { v with statistics := v.statistics.quiet.callTarget c }) := by
  obtain ⟨hseen, outcalls, heq⟩ := seen_callTarget c w.statistics
  obtain ⟨hseen', outcalls', heq'⟩ := seen_callTarget c v.statistics
  constructor
  · rw [heq, heq']
    exact ⟨h.suspended, h.target, h.expired, rfl, h.pending, h.handlers⟩
  · show List.filterMap _ _ = List.filterMap _ _
    rw [hseen]
    refine Eq.trans ?_ hseen'.symm
    rw [h.lockTarget]

/-- A message that is not masked keeps the relation and shows the same. -/
theorem sim_performIo (h : Sim w v) (d : DataPtr) (id : IoId) (handler : Option Handler)
    (hmask : ¬ Masks w (.performIo d id handler)) :
    Sim (step B w (.performIo d id handler)) (passOn B v (.performIo d id handler)) ∧
      (step B w (.performIo d id handler)).seen =
        (passOn B v (.performIo d id handler)).seen := by
  cases ht : w.statistics.lockTarget with
  | none =>
    have ht' : v.statistics.lockTarget = none := h.lockTarget.trans ht
    rw [passOn, step_performIo_of_none B w d id handler ht,
      step_performIo_of_none B v d id handler ht']
    exact ⟨⟨h.suspended, h.target, h.expired, rfl, h.pending, h.handlers⟩, rfl⟩
  | some t =>
    have ht' : v.statistics.lockTarget = some t := h.lockTarget.trans ht
    obtain ⟨meters, os, hstep, hseen⟩ := step_performIo B w d id handler ht
    obtain ⟨meters', os', hstep', hseen'⟩ := step_performIo B v d id handler ht'
    have hnull := h.isNull_eq (by rw [ht]; exact Option.some_ne_none t) hmask
    have hsource : (w.statistics.handed d handler).source =
        (v.statistics.handed d handler).source := by
      rw [handed_source, handed_source]
    rw [passOn, hstep, hstep']
    constructor
    · refine ⟨h.suspended, h.target, h.expired, rfl, ?_, ?_⟩
      · show v.pending ++ _ = (w.pending ++ _).map plainAnswer
        rw [List.map_append, h.pending, hnull]
        congr 1
        split
        · rfl
        · rw [List.map_map, h.handed]
          apply List.map_congr_left
          intro d' _
          simp only [Function.comp_apply, plainAnswer, handed_source]
      · intro p hp
        obtain hp | hp := List.mem_append.mp hp
        · exact h.handlers p hp
        · split at hp
          · cases hp
          · rename_i hnot
            obtain ⟨d', _, rfl⟩ := List.mem_map.mp hp
            rw [hnull, h.handed, MeteredHandler.isNull, Option.isNone_iff_eq_none] at hnot
            rwa [handed_source]
    · show List.filterMap _ os = List.filterMap _ os'
      rw [hseen, hseen', hnull]
      congr 1
      split
      · rfl
      · apply List.map_congr_left
        intro d' _
        exact answerSeen_of_source hsource d'

/-- An answer goes to the same source on both paths. -/
theorem sim_answer (h : Sim w v) (n : ℕ) :
    Sim (step B w (.answer n)) (passOn B v (.answer n)) ∧
      (step B w (.answer n)).seen = (passOn B v (.answer n)).seen := by
  have hget : v.pending[n]? = w.pending[n]?.map plainAnswer := by
    rw [h.pending, List.getElem?_map]
  have hw : w.quiet.pending[n]? = w.pending[n]? := rfl
  have hv : v.quiet.pending[n]? = w.pending[n]?.map plainAnswer := hget
  cases hp : w.pending[n]? with
  | none =>
    rw [hp] at hw hv
    rw [Option.map_none] at hv
    simp only [passOn, step, exec, hw, hv]
    exact ⟨⟨h.suspended, h.target, h.expired, rfl, h.pending, h.handlers⟩, rfl⟩
  | some p =>
    rw [hp] at hw hv
    rw [Option.map_some] at hv
    obtain ⟨os, heq, hseen⟩ := answer_spec p.1 p.2 w.quiet.statistics
    obtain ⟨os', heq', hseen'⟩ := answer_spec (plainAnswer p).1 (plainAnswer p).2
      v.quiet.statistics
    simp only [passOn, step, exec, hw, hv, heq, heq']
    constructor
    · refine ⟨h.suspended, h.target, h.expired, rfl, ?_, fun q hq => ?_⟩
      · show v.pending.eraseIdx n = (w.pending.eraseIdx n).map plainAnswer
        rw [h.pending, List.eraseIdx_map]
      · exact h.handlers q (List.mem_of_mem_eraseIdx hq)
    · show List.filterMap _ ([] ++ os) = List.filterMap _ ([] ++ os')
      rw [List.nil_append, List.nil_append, hseen, hseen']
      rfl

/-- **Simulation.** Statistics that measure are simulated by statistics that pass everything
    on, as long as no message without a handler is measured. -/
theorem simulates_passOn (B : Behaviour) :
    Simulates (step B) (passOn B) seen seen Sim fun w a => ¬ Masks w a := by
  have hboth : ∀ w v a, Sim w v → ¬ Masks w a →
      Sim (step B w a) (passOn B v a) ∧ (step B w a).seen = (passOn B v a).seen := by
    intro w v a h hmask
    cases a with
    | regIo id itf => exact sim_callTarget h (.regIo id itf)
    | unregIo id => exact sim_callTarget h (.unregIo id)
    | performIo d id handler => exact sim_performIo h d id handler hmask
    | answer n => exact sim_answer h n
    | suspend flag => exact ⟨⟨rfl, h.target, h.expired, rfl, h.pending, h.handlers⟩, rfl⟩
    | stat flag => exact ⟨⟨h.suspended, h.target, h.expired, rfl, h.pending, h.handlers⟩, rfl⟩
    | expire t =>
      refine ⟨⟨h.suspended, h.target, ?_, rfl, h.pending, h.handlers⟩, rfl⟩
      show v.statistics.expired ++ [t] = w.statistics.expired ++ [t]
      rw [h.expired]
  exact ⟨fun w v a h hmask => (hboth w v a h hmask).1,
    fun w v a h hmask => (hboth w v a h hmask).2⟩

/-- The target sees that a handler has come up. -/
theorem seen_ne_of_masks (h : Sim w v) (hmask : Masks w a) :
    (step B w a).seen ≠ (passOn B v a).seen := by
  cases a with
  | performIo d id handler =>
    obtain ⟨hsome, hmeasures, rfl⟩ := hmask
    obtain ⟨t, ht⟩ := Option.ne_none_iff_exists'.mp hsome
    have ht' : v.statistics.lockTarget = some t := h.lockTarget.trans ht
    obtain ⟨meters, os, hstep, hseen⟩ := step_performIo B w d id none ht
    obtain ⟨meters', os', hstep', hseen'⟩ := step_performIo B v d id none ht'
    rw [handed_isNull, hmeasures] at hseen
    rw [h.handed] at hseen'
    rw [passOn, hstep, hstep']
    show List.filterMap _ os ≠ List.filterMap _ os'
    rw [hseen, hseen']
    intro heq
    cases heq
  | _ => exact hmask.elim

/-- **Transparency.** In a run of statistics with any target, the target and the sources see in
    every step what they see without a statistics object, exactly if no message without a
    handler is measured. -/
theorem transparent_iff (B : Behaviour) (s : Statistics) (acts : List Act) :
    AtEach (fun pre a =>
        Shows (step B) seen { statistics := s } pre a =
          Shows (passOn B) seen (plainly { statistics := s }) pre a) acts ↔
      Along (step B) (fun w a => ¬ Masks w a) { statistics := s } acts := by
  refine (simulates_passOn B).same_iff (fun w v a h hmask => ?_) ?_ acts
  · exact seen_ne_of_masks h (not_not.mp hmask)
  · exact ⟨rfl, rfl, rfl, rfl, rfl, fun p hp => by cases hp⟩

/-- A message without a handler, and a target that answers whoever gives it a handler. -/
theorem not_transparent :
    ¬ ∀ (B : Behaviour) (s : Statistics) (acts : List Act), AtEach (fun pre a =>
        Shows (step B) seen { statistics := s } pre a =
          Shows (passOn B) seen (plainly { statistics := s }) pre a) acts := by
  intro hall
  have h := hall ⟨fun _ _ => [some [2]], fun _ _ => []⟩ { target := some 4, stat := true }
    [.performIo (some [1]) 7 none] [] (.performIo (some [1]) 7 none) [] rfl
  exact absurd h (by decide)

end Exchange

end Statistics

end WfcIo

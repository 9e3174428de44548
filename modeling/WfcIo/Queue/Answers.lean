import WfcIo.Queue.Queue

/-!
# The answers of a queue

With a workflow for the answers, the handler that a queue gives to its target posts the call of
the source's handler: it looks for the queue first, and for its workflow, and calls the handler
itself if one of them is not there any more. The workflow runs one of the two callables of a post
some time, the task or the drop.

A target may answer as often as it likes, through any of the handlers it has been given.

## Main definitions

- `CallbackQueue` — a queue, its target, and the workflow of the answers
- `CallbackQueue.answer` — the handler that `make_handler_` returns is called
- `CallbackQueue.Act`, `CallbackQueue.step` — a step of the queue, an answer, or an event outside
- `CallbackQueue.given`, `CallbackQueue.dropped` — the answers that the target gives in a run, and
  those whose posts are dropped
- `CallbackQueue.account`, `CallbackQueue.move` — the answers as jobs

## Main results

- `CallbackQueue.account_step` — a step is a move of the account
- `CallbackQueue.called_once` — every answer leads to one call of the handler
-/

namespace WfcIo

open Foundation

/-- The handler that the target is given. -/
def Queue.Outcome.reply : Queue.Outcome → Option ReplyHandler
  | .target _ _ _ reply => some reply
  | _ => none

namespace CallbackQueue

/-- What the two callables of the post of an answer hold, and the number of the answer. -/
structure Post where
  number : ℕ
  handler : Handler
  d : DataPtr
  deriving DecidableEq

/-- How a handler has come to be called: by the answer itself, or by the task or the drop of its
    post. -/
inductive Route
  | direct
  | task
  | drop
  deriving DecidableEq

/-- A call of the handler of a source. -/
structure Call where
  route : Route
  handler : Handler
  d : DataPtr
  deriving DecidableEq

/-- The call passes on the data of the answer, or `nullptr` if the post was dropped. -/
def Call.IsFor (handler : Handler) (d : DataPtr) (c : Call) : Prop :=
  c.handler = handler ∧ c.d = if c.route = .drop then none else d

end CallbackQueue

/-- A queue with its target and the workflow of the answers. `replies` are the handlers that the
    target has been given. `answers` are those through a handler that leads to one of a source,
    with that handler, and `calls` are the calls of such handlers, with the number of the answer
    that each is for. -/
structure CallbackQueue where
  queue : Queue
  replies : List ReplyHandler := []
  answers : List (Handler × DataPtr) := []
  posted : List CallbackQueue.Post := []
  calls : List (ℕ × CallbackQueue.Call) := []

namespace CallbackQueue

/-! ### Operations -/

/-- The queue after `initialize`. -/
def initialized (target : Option Target) (callbackWorkflow : Bool) : CallbackQueue :=
  { queue := .initialized target callbackWorkflow }

/-- The handler of the source is called at once. -/
def callNow (f : Handler) (d : DataPtr) (s : CallbackQueue) : CallbackQueue :=
  { s with
    answers := s.answers ++ [(f, d)]
    calls := s.calls ++ [(s.answers.length, ⟨.direct, f, d⟩)] }

/-- The call of the handler is posted. -/
def post (f : Handler) (d : DataPtr) (s : CallbackQueue) : CallbackQueue :=
  { s with
    answers := s.answers ++ [(f, d)]
    posted := s.posted ++ [⟨s.answers.length, f, d⟩] }

/-- The workflow that the queue has for the answers, if the queue is still there. -/
def workflow (s : CallbackQueue) : Bool := s.queue.alive && s.queue.callbackWorkflow

/-- The target calls the handler that it was given. -/
def answer (reply : ReplyHandler) (d : DataPtr) (s : CallbackQueue) : CallbackQueue :=
  match reply with
  | .plain none => s
  | .plain (some f) => s.callNow f d
  | .queued f => if s.workflow then s.post f d else s.callNow f d

/-- The workflow is done with the post `p`, which was the `n`-th, and has called its handler. -/
def settle (n : ℕ) (p : Post) (route : Route) (d : DataPtr) (s : CallbackQueue) : CallbackQueue :=
  { s with
    posted := s.posted.eraseIdx n
    calls := s.calls ++ [(p.number, ⟨route, p.handler, d⟩)] }

/-! ### Steps -/

/-- A step of the queue, with its own workflow; `initialize` after a change of the configuration;
    an answer through the `i`-th of the handlers; or the workflow of the answers runs or drops the
    `n`-th pending post. -/
inductive Act
  | queue (a : Queue.Act)
  | initialized (target : Option Target) (callbackWorkflow : Bool)
  | answer (i : ℕ) (d : DataPtr)
  | run (n : ℕ)
  | drop (n : ℕ)
  deriving DecidableEq

def step (s : CallbackQueue) : Act → CallbackQueue
  | .queue a =>
    { s with
      queue := s.queue.step a
      replies := s.replies ++ (s.queue.step a).outcomes.filterMap (·.2.reply) }
  | .initialized target callbackWorkflow =>
    if s.queue.alive then { s with queue := { s.queue with target, callbackWorkflow } } else s
  | .answer i d =>
    match s.replies[i]? with
    | some reply => s.answer reply d
    | none => s
  | .run n =>
    match s.posted[n]? with
    | some p => s.settle n p .task p.d
    | none => s
  | .drop n =>
    match s.posted[n]? with
    | some p => s.settle n p .drop none
    | none => s

/-- The answer that an action gives, with the handler of the source that it is for, if there is
    one. What becomes of it is not asked here. -/
def gives (s : CallbackQueue) : Act → List (Handler × DataPtr)
  | .answer i d => (((s.replies[i]?).bind ReplyHandler.source).map (·, d)).toList
  | _ => []

/-- The answers that the target gives in a run, in their order. -/
def given : CallbackQueue → List Act → List (Handler × DataPtr) := collected step gives

/-- The number of the answer whose post an action drops. -/
def drops (s : CallbackQueue) : Act → List ℕ
  | .drop n => (s.posted[n]?.map Post.number).toList
  | _ => []

/-- The numbers of the answers whose posts are dropped in a run. -/
def dropped : CallbackQueue → List Act → List ℕ := collected step drops

/-! ### The answers as jobs -/

/-- The account of the answers. -/
def account (s : CallbackQueue) : Jobs Call := ⟨s.answers.length, s.posted.map Post.number, s.calls⟩

/-- What an action means for the answers. -/
def move (s : CallbackQueue) : Act → Jobs.Move Call
  | .answer i d =>
    match s.replies[i]? with
    | some (.plain (some f)) => .submit (some ⟨.direct, f, d⟩)
    | some (.queued f) => .submit (if s.workflow then none else some ⟨.direct, f, d⟩)
    | _ => .stay
  | .run n => s.posted[n]?.elim .stay fun p => .finish p.number (some ⟨.task, p.handler, p.d⟩)
  | .drop n => s.posted[n]?.elim .stay fun p => .finish p.number (some ⟨.drop, p.handler, none⟩)
  | _ => .stay

/-- The calls that are for the `n`-th answer. -/
def callsFor (s : CallbackQueue) (n : ℕ) : List Call := s.account.outcomesOf n

/-- The numbers of the answers for which a handler has been called by the drop of a post. -/
def dropCalls (s : CallbackQueue) : List ℕ :=
  (s.calls.filter fun c => c.2.route = .drop).map Prod.fst

variable {s : CallbackQueue} {a : Act}

theorem account_callNow (f : Handler) (d : DataPtr) :
    (s.callNow f d).account = s.account.submit (some ⟨.direct, f, d⟩) := by
  simp only [account, callNow, Jobs.submit, List.length_append, List.length_singleton,
    Option.isSome_some, if_true, Option.map_some, Option.toList_some]

theorem account_post (f : Handler) (d : DataPtr) :
    (s.post f d).account = s.account.submit none := by
  simp only [account, post, Jobs.submit, List.length_append, List.length_singleton, List.map_append,
    List.map_cons, List.map_nil, Option.isSome_none, Bool.false_eq_true, if_false, Option.map_none,
    Option.toList_none, List.append_nil]

theorem account_settle (hnodup : (s.posted.map Post.number).Nodup) {n : ℕ} {p : Post}
    (hp : s.posted[n]? = some p) (route : Route) (d : DataPtr) :
    (s.settle n p route d).account =
      s.account.finish p.number (some ⟨route, p.handler, d⟩) := by
  have herase := Jobs.map_eraseIdx hnodup hp
  simp only [account, settle, Jobs.finish, herase, Option.map_some, Option.toList_some]

/-- **Refinement.** A step is a move of the account. -/
theorem account_step (hnodup : (s.posted.map Post.number).Nodup) (a : Act) :
    (step s a).account = s.account.apply (s.move a) := by
  cases a with
  | queue a => rfl
  | initialized target callbackWorkflow =>
    simp only [step]
    split
    · rfl
    · rfl
  | answer i d =>
    simp only [step, move]
    cases s.replies[i]? with
    | none => rfl
    | some reply =>
      match reply with
      | .plain none => rfl
      | .plain (some f) => exact account_callNow f d
      | .queued f =>
        simp only [answer]
        cases s.workflow with
        | true => exact account_post f d
        | false => exact account_callNow f d
  | run n =>
    simp only [step, move]
    cases hp : s.posted[n]? with
    | none => rfl
    | some p => exact account_settle hnodup hp .task p.d
  | drop n =>
    simp only [step, move]
    cases hp : s.posted[n]? with
    | none => rfl
    | some p => exact account_settle hnodup hp .drop none

/-- Only a pending answer is finished, and with a call. -/
theorem move_finish {n : ℕ} {o : Option Call} (h : s.move a = .finish n o) :
    n ∈ s.posted.map Post.number ∧ o.isSome = true := by
  have hpost : ∀ (i : ℕ) (call : Post → Call),
      (s.posted[i]?.elim .stay fun p => .finish p.number (some (call p))) = Jobs.Move.finish n o →
        n ∈ s.posted.map Post.number ∧ o.isSome = true := by
    intro i call heq
    obtain ⟨p, hp, rfl, rfl⟩ := Jobs.elim_eq_finish_iff.mp heq
    exact ⟨List.mem_map_of_mem (List.mem_of_getElem? hp), rfl⟩
  cases a with
  | queue a => cases h
  | initialized target callbackWorkflow => cases h
  | answer i d =>
    simp only [move] at h
    split at h
    · cases h
    · cases h
    · cases h
  | run i => exact hpost i _ h
  | drop i => exact hpost i _ h

/-! ### Whole runs -/

/-- Every answer waits, or has led to one call. -/
structure Accounted (s : CallbackQueue) : Prop where
  sound : s.account.Sound
  all : s.account.AllAccounted

theorem Accounted.step (h : Accounted s) (a : Act) : Accounted (s.step a) := by
  have hvalid : (s.move a).Valid s.account := fun _ _ hmove => (move_finish hmove).1
  have hkeeps : (s.move a).Keeps := fun _ _ hmove => (move_finish hmove).2
  have hstep := account_step h.sound.pending_nodup a
  refine ⟨?_, ?_⟩
  · rw [hstep]
    exact h.sound.apply hvalid
  · rw [hstep, Jobs.allAccounted_apply_iff h.sound hvalid]
    exact ⟨h.all, hkeeps⟩

/-- What is posted, and every call, is for the answer of its number. -/
structure Right (s : CallbackQueue) : Prop where
  posted : ∀ p ∈ s.posted, s.answers[p.number]? = some (p.handler, p.d)
  calls : ∀ c ∈ s.calls, ∃ d, s.answers[c.1]? = some (c.2.handler, d) ∧ c.2.IsFor c.2.handler d

theorem Right.callNow (h : Right s) (f : Handler) (d : DataPtr) : Right (s.callNow f d) := by
  refine ⟨fun p hp => Jobs.getElem?_append_of_eq_some (h.posted p hp), fun c hc => ?_⟩
  obtain hc | hc := List.mem_append.mp hc
  · obtain ⟨d', hd', hfor⟩ := h.calls c hc
    exact ⟨d', Jobs.getElem?_append_of_eq_some hd', hfor⟩
  · cases List.mem_singleton.mp hc
    exact ⟨d, List.getElem?_concat_length, rfl, rfl⟩

theorem Right.post (h : Right s) (f : Handler) (d : DataPtr) : Right (s.post f d) := by
  refine ⟨fun p hp => ?_, fun c hc => ?_⟩
  · obtain hp | hp := List.mem_append.mp hp
    · exact Jobs.getElem?_append_of_eq_some (h.posted p hp)
    · cases List.mem_singleton.mp hp
      exact List.getElem?_concat_length
  · obtain ⟨d', hd', hfor⟩ := h.calls c hc
    exact ⟨d', Jobs.getElem?_append_of_eq_some hd', hfor⟩

theorem Right.answer (h : Right s) (reply : ReplyHandler) (d : DataPtr) :
    Right (s.answer reply d) := by
  match reply with
  | .plain none => exact h
  | .plain (some f) => exact h.callNow f d
  | .queued f =>
    simp only [CallbackQueue.answer]
    split
    · exact h.post f d
    · exact h.callNow f d

/-- The task and the drop of a post call its handler, the drop with `nullptr`. -/
theorem Right.settle (h : Right s) {n : ℕ} {p : Post} (hp : s.posted[n]? = some p) {route : Route}
    {d : DataPtr} (hd : d = if route = .drop then none else p.d) :
    Right (s.settle n p route d) := by
  refine ⟨fun p' hp' => h.posted p' (List.mem_of_mem_eraseIdx hp'), fun c hc => ?_⟩
  obtain hc | hc := List.mem_append.mp hc
  · exact h.calls c hc
  · cases List.mem_singleton.mp hc
    exact ⟨p.d, h.posted p (List.mem_of_getElem? hp), rfl, hd⟩

theorem Right.step (h : Right s) (a : Act) : Right (s.step a) := by
  cases a with
  | queue a => exact ⟨h.posted, h.calls⟩
  | initialized target callbackWorkflow =>
    simp only [CallbackQueue.step]
    split
    · exact ⟨h.posted, h.calls⟩
    · exact h
  | answer i d =>
    simp only [CallbackQueue.step]
    cases s.replies[i]? with
    | none => exact h
    | some reply => exact h.answer reply d
  | run n =>
    simp only [CallbackQueue.step]
    cases hp : s.posted[n]? with
    | none => exact h
    | some p => exact h.settle hp rfl
  | drop n =>
    simp only [CallbackQueue.step]
    cases hp : s.posted[n]? with
    | none => exact h
    | some p => exact h.settle hp rfl

/-- A step writes down the answer that it is given, whatever becomes of it. -/
theorem answers_step (s : CallbackQueue) (a : Act) :
    (s.step a).answers = s.answers ++ s.gives a := by
  cases a with
  | answer i d =>
    simp only [CallbackQueue.step, gives]
    cases s.replies[i]? with
    | none => exact (List.append_nil _).symm
    | some reply =>
      match reply with
      | .plain none => exact (List.append_nil _).symm
      | .plain (some f) => rfl
      | .queued f =>
        simp only [answer]
        split
        · rfl
        · rfl
  | queue a => exact (List.append_nil _).symm
  | initialized target callbackWorkflow =>
    simp only [CallbackQueue.step]
    split
    · exact (List.append_nil _).symm
    · exact (List.append_nil _).symm
  | run n =>
    simp only [CallbackQueue.step]
    cases s.posted[n]? with
    | none => exact (List.append_nil _).symm
    | some p => exact (List.append_nil _).symm
  | drop n =>
    simp only [CallbackQueue.step]
    cases s.posted[n]? with
    | none => exact (List.append_nil _).symm
    | some p => exact (List.append_nil _).symm

theorem run_answers (s : CallbackQueue) (acts : List Act) :
    (run step s acts).answers = s.answers ++ s.given acts :=
  run_collected answers_step s acts

theorem dropCalls_settle {n : ℕ} {p : Post} (route : Route) (d : DataPtr) :
    (s.settle n p route d).dropCalls =
      s.dropCalls ++ if route = .drop then [p.number] else [] := by
  simp only [dropCalls, settle, List.filter_append, List.map_append]
  by_cases hroute : route = .drop
  · simp [hroute]
  · simp [hroute]

theorem dropCalls_answer (reply : ReplyHandler) (d : DataPtr) :
    (s.answer reply d).dropCalls = s.dropCalls := by
  have hcallNow : ∀ f, (s.callNow f d).dropCalls = s.dropCalls := fun f => by
    simp [dropCalls, callNow, List.filter_append]
  match reply with
  | .plain none => rfl
  | .plain (some f) => exact hcallNow f
  | .queued f =>
    simp only [answer]
    split
    · rfl
    · exact hcallNow f

/-- A handler is called by the drop of a post where an action drops it. -/
theorem dropCalls_step (s : CallbackQueue) (a : Act) :
    (s.step a).dropCalls = s.dropCalls ++ s.drops a := by
  cases a with
  | queue a => exact (List.append_nil _).symm
  | initialized target callbackWorkflow =>
    simp only [CallbackQueue.step]
    split
    · exact (List.append_nil _).symm
    · exact (List.append_nil _).symm
  | answer i d =>
    simp only [CallbackQueue.step]
    cases s.replies[i]? with
    | none => exact (List.append_nil _).symm
    | some reply => exact (dropCalls_answer reply d).trans (List.append_nil _).symm
  | run n =>
    simp only [CallbackQueue.step]
    cases s.posted[n]? with
    | none => exact (List.append_nil _).symm
    | some p => exact dropCalls_settle .task p.d
  | drop n =>
    simp only [CallbackQueue.step, drops]
    cases s.posted[n]? with
    | none => exact (List.append_nil _).symm
    | some p => exact dropCalls_settle .drop none

theorem run_dropCalls (s : CallbackQueue) (acts : List Act) :
    (run step s acts).dropCalls = s.dropCalls ++ s.dropped acts :=
  run_collected dropCalls_step s acts

theorem run_accounted (target : Option Target) (callbackWorkflow : Bool) (acts : List Act) :
    Accounted (run step (initialized target callbackWorkflow) acts) :=
  run_invariant (I := Accounted) (fun _ a h => h.step a)
    ⟨Jobs.sound_empty, Jobs.allAccounted_empty⟩ acts

theorem run_right (target : Option Target) (callbackWorkflow : Bool) (acts : List Act) :
    Right (run step (initialized target callbackWorkflow) acts) :=
  run_invariant (I := Right) (fun _ a h => h.step a)
    ⟨fun _ hp => absurd hp List.not_mem_nil, fun _ hc => absurd hc List.not_mem_nil⟩ acts

theorem mem_callsFor {n : ℕ} {c : Call} : c ∈ s.callsFor n ↔ (n, c) ∈ s.calls := by
  simp only [callsFor, account, Jobs.outcomesOf, List.mem_filterMap, Jobs.outcomeOf]
  constructor
  · rintro ⟨p, hp, hpc⟩
    split at hpc
    · next hn =>
      cases hpc
      exact hn ▸ hp
    · cases hpc
  · exact fun hc => ⟨(n, c), hc, if_pos rfl⟩

/-- The calls for an answer are right. -/
theorem Right.callsFor (h : Right s) {n : ℕ} {c : Call} (hc : c ∈ s.callsFor n) :
    ∃ d, s.answers[n]? = some (c.handler, d) ∧ c.IsFor c.handler d :=
  h.calls (n, c) (mem_callsFor.mp hc)

/-- If there has been one call for an answer, it was by a drop exactly if a drop has made one. -/
theorem route_eq_drop_iff {n : ℕ} {c : Call} (hc : s.callsFor n = [c]) :
    c.route = .drop ↔ n ∈ s.dropCalls := by
  simp only [dropCalls, List.mem_map, List.mem_filter]
  constructor
  · exact fun hroute => ⟨(n, c), ⟨mem_callsFor.mp (hc ▸ List.mem_cons_self), decide_eq_true hroute⟩,
      rfl⟩
  · rintro ⟨⟨n', c'⟩, ⟨hcall, hroute⟩, rfl⟩
    have hmem := mem_callsFor.mpr hcall
    rw [hc] at hmem
    exact List.mem_singleton.mp hmem ▸ of_decide_eq_true hroute

/-- **Answers.** In every run, once no post is pending, there has been one call of the source's
    handler for each answer that the target has given, with its data, or with `nullptr` if its post
    was dropped, and only then; and there has been no other call. Where there is nothing to post,
    `make_handler_` passes the handler through. -/
theorem called_once (target : Option Target) (callbackWorkflow : Bool) (acts : List Act)
    (hposted : (run step (initialized target callbackWorkflow) acts).posted = []) :
    (∀ n f d, (given (initialized target callbackWorkflow) acts)[n]? = some (f, d) →
        ∃ c, (run step (initialized target callbackWorkflow) acts).callsFor n = [c] ∧
          c.IsFor f d ∧
          (c.route = .drop ↔ n ∈ dropped (initialized target callbackWorkflow) acts)) ∧
      (∀ p ∈ (run step (initialized target callbackWorkflow) acts).calls,
        p.1 < (given (initialized target callbackWorkflow) acts).length) ∧
      ∀ (q : Queue) (handler : Option Handler), handler = none ∨ q.callbackWorkflow = false →
        q.makeHandler_ handler = .plain handler := by
  have haccounted := run_accounted target callbackWorkflow acts
  have hright := run_right target callbackWorkflow acts
  have hanswers : (run step (initialized target callbackWorkflow) acts).answers =
      given (initialized target callbackWorkflow) acts :=
    run_answers (initialized target callbackWorkflow) acts
  have hdropped : (run step (initialized target callbackWorkflow) acts).dropCalls =
      dropped (initialized target callbackWorkflow) acts :=
    run_dropCalls (initialized target callbackWorkflow) acts
  rw [← hanswers, ← hdropped]
  generalize run step (initialized target callbackWorkflow) acts = s at hposted haccounted hright ⊢
  refine ⟨fun n f d hn => ?_, haccounted.sound.outcomes_lt, fun q handler hplain => ?_⟩
  · obtain ⟨hlt, _⟩ := List.getElem?_eq_some_iff.mp hn
    obtain ⟨hpending, _⟩ | ⟨_, c, hc⟩ := haccounted.all n hlt
    · rw [account, hposted] at hpending
      cases hpending
    · refine ⟨c, hc, ?_, route_eq_drop_iff hc⟩
      obtain ⟨d', hd', hfor⟩ := hright.callsFor (hc ▸ List.mem_cons_self)
      rw [hn] at hd'
      cases hd'
      exact hfor
  · cases handler with
    | none => rfl
    | some f =>
      obtain hnone | hworkflow := hplain
      · cases hnone
      · simp only [Queue.makeHandler_, hworkflow, Bool.false_eq_true, if_false]

/-- A request is answered twice, and once more after the queue is gone. The first answer is run
    after the second has been dropped. -/
def threeAnswers : List Act :=
  [.queue (.performIo ⟨some [1], 7, some 5⟩), .queue (.run 0), .answer 0 (some [2]),
    .answer 0 (some [3]), .queue .destroy, .answer 0 (some [4]), .drop 1, .run 0]

/-- Each of these answers leads to one call: the first from its task, the second from its drop,
    and the third at once, before the other two. -/
theorem called_once_three :
    let s := run step (initialized (some 3) true) threeAnswers
    let l := dropped (initialized (some 3) true) threeAnswers
    (∃ c, s.callsFor 0 = [c] ∧ c.IsFor 5 (some [2]) ∧ (c.route = .drop ↔ 0 ∈ l)) ∧
      (∃ c, s.callsFor 1 = [c] ∧ c.IsFor 5 (some [3]) ∧ (c.route = .drop ↔ 1 ∈ l)) ∧
      (∃ c, s.callsFor 2 = [c] ∧ c.IsFor 5 (some [4]) ∧ (c.route = .drop ↔ 2 ∈ l)) ∧
      l = [1] ∧
      s.calls = [(2, ⟨.direct, 5, some [4]⟩), (1, ⟨.drop, 5, none⟩), (0, ⟨.task, 5, some [2]⟩)] :=
  have honce := (called_once (some 3) true threeAnswers (by decide)).1
  ⟨honce 0 5 (some [2]) (by decide), honce 1 5 (some [3]) (by decide),
    honce 2 5 (some [4]) (by decide), by decide, by decide⟩

end CallbackQueue

end WfcIo

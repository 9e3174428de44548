import WfcIo.Interface
import WfcIo.Foundation.History
import WfcIo.Foundation.Jobs

/-!
# The queue

`queue` passes registrations on to its target at once and messages through a workflow: a
task performs the call of the target later. Answers may go through another workflow. While
the queue is suspended it hands messages to the target directly.

The workflow is outside: `post` takes two callables and runs one of them some time, the task
or the drop. So is `tracking`, which runs the task only as long as its id is tracked, and
writes a warning otherwise: `unreg_io` ends the tracking of an id, and what begins it again
is left open.

## Main definitions

- `Queue` — the fields of the class and what is outside it
- `ReplyHandler` — what `make_handler_` returns
- `Queue.performIo`, `Queue.task`, `Queue.dropTask` — a request, and what becomes of it later
- `Queue.Act`, `Queue.step` — a call, or an event outside
- `Queue.account`, `Queue.move` — the requests as jobs, and what an action does to them

## Main results

- `Queue.account_step` — a step of the queue is a move of the account
-/

namespace WfcIo

open Foundation

/-- The handler that a queue gives to its target: that of the source, or one that posts the
    call of the source's handler to the workflow of the answers. -/
inductive ReplyHandler
  | plain (handler : Option Handler)
  | queued (handler : Handler)
  deriving DecidableEq

/-- The handler of the source that it leads to. -/
def ReplyHandler.source : ReplyHandler → Option Handler
  | .plain handler => handler
  | .queued handler => some handler

namespace Queue

/-- The arguments of `perform_io`. -/
structure Request where
  d : DataPtr
  id : IoId
  handler : Option Handler
  deriving DecidableEq

/-- What the two callables of a `post` hold. The number says which request it is. -/
structure Task where
  number : ℕ
  request : Request
  deriving DecidableEq

/-- What is done for a request: a call of the target or of the handler, a warning that it
    was dropped by tracking, or the dereference of a null target. -/
inductive Outcome
  | target (t : Target) (d : DataPtr) (id : IoId) (reply : ReplyHandler)
  | handler (f : Handler) (d : DataPtr)
  | dropped (id : IoId)
  | nullTarget
  deriving DecidableEq

end Queue

/-- `queue`. `callbackWorkflow` tells whether there is a workflow for the answers, `alive`
    whether the object still is, `untracked` are the ids whose tracking has ended. `given`
    counts the requests, `outcomes` is what the last step has done for them, by number, and
    `calls` how it has called the target about registrations. -/
structure Queue where
  suspended : Bool := false
  target : Option Target := none
  callbackWorkflow : Bool := false
  alive : Bool := true
  expired : List Target := []
  untracked : List IoId := []
  given : ℕ := 0
  pending : List Queue.Task := []
  outcomes : List (ℕ × Queue.Outcome) := []
  calls : List (Target × SourceCall) := []

namespace Queue

/-! ### Operations -/

/-- The queue after `initialize`. -/
def initialized (target : Option Target) (callbackWorkflow : Bool) : Queue :=
  { target, callbackWorkflow }

/-- `_target.lock()`. -/
def lockTarget (q : Queue) : Option Target := q.target.filter (· ∉ q.expired)

/-- `reg_io`. -/
def regIo (id : IoId) (itf : Option Source) (q : Queue) : Queue :=
  match q.lockTarget with
  | some t => { q with calls := q.calls ++ [(t, .regIo id itf)] }
  | none => q

/-- `unreg_io`. -/
def unregIo (id : IoId) (q : Queue) : Queue :=
  let q' := { q with untracked := id :: q.untracked }
  match q'.lockTarget with
  | some t => { q' with calls := q'.calls ++ [(t, .unregIo id)] }
  | none => q'

/-- `make_handler_`. -/
def makeHandler_ (handler : Option Handler) (q : Queue) : ReplyHandler :=
  match handler with
  | some f => if q.callbackWorkflow then .queued f else .plain (some f)
  | none => .plain none

/-- What `perform_io` does at once, if anything. -/
def atOnce (r : Request) (q : Queue) : Option Outcome :=
  match q.lockTarget with
  | none =>
    match r.handler with
    | some f => some (.handler f none)
    -- without a handler the source goes on with the null pointer
    | none => if q.suspended then some .nullTarget else none
  | some t => if q.suspended then some (.target t r.d r.id (.plain r.handler)) else none

/-- `perform_io`. What is not done at once is posted. -/
def performIo (r : Request) (q : Queue) : Queue :=
  match q.atOnce r with
  | some o => { q with given := q.given + 1, outcomes := q.outcomes ++ [(q.given, o)] }
  | none => { q with given := q.given + 1, pending := q.pending ++ [⟨q.given, r⟩] }

/-- What the posted task does. -/
def task (r : Request) (q : Queue) : Option Outcome :=
  if r.id ∈ q.untracked then some (.dropped r.id)
  else if q.alive then
    match q.lockTarget with
    | some t => some (.target t r.d r.id (q.makeHandler_ r.handler))
    | none => r.handler.map fun f => .handler f none
  -- the queue is gone: there is no other branch
  else none

/-- What the second callable of the post does. -/
def dropTask (r : Request) : Option Outcome := r.handler.map fun f => .handler f none

/-- The workflow is done with the post `k`, which was the `n`-th. -/
def settle (n : ℕ) (k : Task) (o : Option Outcome) (q : Queue) : Queue :=
  { q with
    pending := q.pending.eraseIdx n
    outcomes := q.outcomes ++ (o.map (k.number, ·)).toList }

/-! ### Steps -/

/-- A call of the queue, or an event outside: the target or the queue itself is gone, an id is
    tracked again, the workflow runs or drops the `n`-th pending post. -/
inductive Act
  | regIo (id : IoId) (itf : Option Source)
  | unregIo (id : IoId)
  | performIo (r : Request)
  | suspend (flag : Bool)
  | expire (t : Target)
  | destroy
  | track (id : IoId)
  | run (n : ℕ)
  | drop (n : ℕ)
  deriving DecidableEq

/-- A queue that is gone is not called. -/
def exec (q : Queue) : Act → Queue
  | .regIo id itf => if q.alive then q.regIo id itf else q
  | .unregIo id => if q.alive then q.unregIo id else q
  | .performIo r => if q.alive then q.performIo r else q
  | .suspend flag => { q with suspended := flag }
  | .expire t => { q with expired := q.expired ++ [t] }
  | .destroy => { q with alive := false }
  | .track id => { q with untracked := q.untracked.filter (· ≠ id) }
  | .run n =>
    match q.pending[n]? with
    | some k => q.settle n k (q.task k.request)
    | none => q
  | .drop n =>
    match q.pending[n]? with
    | some k => q.settle n k (dropTask k.request)
    | none => q

/-- Forget what the previous step has done outside. -/
def quiet (q : Queue) : Queue := { q with outcomes := [], calls := [] }

def step (q : Queue) (a : Act) : Queue := q.quiet.exec a

/-! ### What a step does with the requests -/

/-- The account of the requests, with the outcomes so far. -/
def account (l : List (ℕ × Outcome)) (q : Queue) : Jobs Outcome :=
  ⟨q.given, q.pending.map Task.number, l⟩

/-- What an action means for the requests. -/
def move (q : Queue) : Act → Jobs.Move Outcome
  | .performIo r => if q.alive then .submit (q.atOnce r) else .stay
  | .run n => q.pending[n]?.elim .stay fun k => .finish k.number (q.task k.request)
  | .drop n => q.pending[n]?.elim .stay fun k => .finish k.number (dropTask k.request)
  | _ => .stay

variable {q : Queue} {l : List (ℕ × Outcome)}

theorem regIo_spec (id : IoId) (itf : Option Source) (q : Queue) :
    ∃ calls, q.regIo id itf = { q with calls } := by
  simp only [regIo]
  cases q.lockTarget with
  | none => exact ⟨q.calls, rfl⟩
  | some t => exact ⟨_, rfl⟩

theorem unregIo_spec (id : IoId) (q : Queue) :
    ∃ calls, q.unregIo id = { q with untracked := id :: q.untracked, calls } := by
  simp only [unregIo]
  cases lockTarget _ with
  | none => exact ⟨q.calls, rfl⟩
  | some t => exact ⟨_, rfl⟩

theorem account_performIo (r : Request) :
    account (l ++ (q.quiet.performIo r).outcomes) (q.quiet.performIo r) =
      (account l q).submit (q.atOnce r) := by
  have hat : q.quiet.atOnce r = q.atOnce r := rfl
  simp only [performIo, hat, account, Jobs.submit]
  cases q.atOnce r with
  | none => simp [quiet]
  | some o => simp [quiet]

/-- The posts have numbers, so the position of one says as much as its number. -/
theorem account_settle (hnodup : (q.pending.map Task.number).Nodup) {n : ℕ} {k : Task}
    (hk : q.pending[n]? = some k) (o : Option Outcome) :
    account (l ++ (q.quiet.settle n k o).outcomes) (q.quiet.settle n k o) =
      (account l q).finish k.number o := by
  have herase := Jobs.map_eraseIdx hnodup hk
  simp only [settle, account, Jobs.finish, quiet, List.nil_append, herase]

/-- **Refinement.** A step of the queue is a move of its account. -/
theorem account_step (hnodup : (q.pending.map Task.number).Nodup) (a : Act) :
    account (l ++ (step q a).outcomes) (step q a) = (account l q).apply (q.move a) := by
  have hstay : ∀ q' : Queue, q'.given = q.given → q'.pending = q.pending → q'.outcomes = [] →
      account (l ++ q'.outcomes) q' = (account l q).apply .stay := by
    intro q' hgiven hpending houtcomes
    simp only [account, hgiven, hpending, houtcomes, List.append_nil, Jobs.apply]
  cases a with
  | regIo id itf =>
    obtain ⟨calls, hspec⟩ := regIo_spec id itf q.quiet
    simp only [step, exec, hspec]
    split <;> exact hstay _ rfl rfl rfl
  | unregIo id =>
    obtain ⟨calls, hspec⟩ := unregIo_spec id q.quiet
    simp only [step, exec, hspec]
    split <;> exact hstay _ rfl rfl rfl
  | performIo r =>
    cases halive : q.alive with
    | true =>
      have halive' : q.quiet.alive = true := halive
      simp only [step, exec, halive', if_true, account_performIo, move, halive, Jobs.apply]
    | false =>
      have halive' : q.quiet.alive = false := halive
      simp only [step, exec, halive', move, halive]
      exact hstay _ rfl rfl rfl
  | run n =>
    have hget : q.quiet.pending[n]? = q.pending[n]? := rfl
    simp only [step, exec, hget, move]
    cases hk : q.pending[n]? with
    | none => exact hstay _ rfl rfl rfl
    | some k => exact account_settle hnodup hk _
  | drop n =>
    have hget : q.quiet.pending[n]? = q.pending[n]? := rfl
    simp only [step, exec, hget, move]
    cases hk : q.pending[n]? with
    | none => exact hstay _ rfl rfl rfl
    | some k => exact account_settle hnodup hk _
  | _ => exact hstay _ rfl rfl rfl

end Queue

end WfcIo

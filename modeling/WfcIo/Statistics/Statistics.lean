import WfcIo.Interface

/-!
# The statistics

`statistics` stands in front of a target and measures the traffic: the size of a message, the
size of each answer to it, and the time in between. It passes registrations on, and messages:
as they are while it is suspended, if there is no statistics object, and if there is no data;
otherwise with a handler of its own in place of that of the source.

## Main definitions

- `MeteredHandler` — the handler that the target gets
- `Statistics` — the fields of the class and what is outside it
- `Statistics.performIo`, `Statistics.answer` — a message, and a call of its handler

## Main results

- `Statistics.performIo_eq` — what `perform_io` does outside
-/

namespace WfcIo

/-- The handler that the target gets with a message: that of the source, or the lambda that
    holds it and the meter of the message. -/
inductive MeteredHandler
  | plain (handler : Option Handler)
  | metered (handler : Option Handler) (meter : ℕ)
  deriving DecidableEq

/-- The handler is an empty function. A lambda never is. -/
def MeteredHandler.isNull : MeteredHandler → Bool
  | .plain handler => handler.isNone
  | .metered _ _ => false

namespace Statistics

/-- What the statistics do outside: they call the target or a handler of a source (an empty
    one throws), or they create a meter, for a message of that size, or tell it the size of an
    answer. -/
inductive Outcall
  | target (t : Target) (c : IoCall (Option Source) MeteredHandler)
  | handler (f : Handler) (d : DataPtr)
  | emptyHandler
  | createMeter (meter : ℕ) (size : ℕ)
  | setWriteSize (meter : ℕ) (size : ℕ)
  deriving DecidableEq

end Statistics

/-- `statistics`. `stat` tells whether `get_statistics` gives an object, `expired` are the
    objects whose last owners have let them go, and `meters` counts the meters made so far. -/
structure Statistics where
  suspended : Bool := false
  target : Option Target := none
  stat : Bool := false
  expired : List Target := []
  meters : ℕ := 0
  outcalls : List Statistics.Outcall := []

namespace Statistics

/-- `_target.lock()`. -/
def lockTarget (s : Statistics) : Option Target := s.target.filter (· ∉ s.expired)

def emit (o : Outcall) (s : Statistics) : Statistics := { s with outcalls := s.outcalls ++ [o] }

/-- Call the target, if it is still there. -/
def callTarget (c : IoCall (Option Source) MeteredHandler) (s : Statistics) : Statistics :=
  match s.lockTarget with
  | some t => s.emit (.target t c)
  | none => s

/-- `reg_io`. -/
def regIo (id : IoId) (itf : Option Source) (s : Statistics) : Statistics :=
  s.callTarget (.regIo id itf)

/-- `unreg_io`. -/
def unregIo (id : IoId) (s : Statistics) : Statistics := s.callTarget (.unregIo id)

/-- The message is measured, and not just passed on. -/
def measures (d : DataPtr) (s : Statistics) : Bool := !s.suspended && d.isSome && s.stat

/-- `perform_io`. -/
def performIo (d : DataPtr) (id : IoId) (handler : Option Handler) (s : Statistics) : Statistics :=
  match s.lockTarget with
  | none => s
  | some t =>
    match d with
    | none => s.emit (.target t (.performIo none id (.plain handler)))
    | some data =>
      if s.suspended || !s.stat then s.emit (.target t (.performIo d id (.plain handler)))
      else
        let s' := { s with meters := s.meters + 1 }.emit (.createMeter s.meters data.length)
        s'.emit (.target t (.performIo d id (.metered handler s.meters)))

/-- The call of an `output_handler_t`. -/
def callHandler (handler : Option Handler) (d : DataPtr) (s : Statistics) : Statistics :=
  match handler with
  | some f => s.emit (.handler f d)
  | none => s.emit .emptyHandler

/-- The target calls the handler that it has been given. The lambda does not look whether the
    handler it holds is empty. -/
def answer (h : MeteredHandler) (d : DataPtr) (s : Statistics) : Statistics :=
  match h with
  | .plain handler => s.callHandler handler d
  | .metered handler meter =>
    match d with
    | some data => (s.emit (.setWriteSize meter data.length)).callHandler handler d
    | none => s.callHandler handler d

/-- Forget what the previous step has done outside. -/
def quiet (s : Statistics) : Statistics := { s with outcalls := [] }

/-! ### What `perform_io` does outside -/

/-- The handler that goes with the message. -/
def handed (d : DataPtr) (handler : Option Handler) (s : Statistics) : MeteredHandler :=
  if s.measures d then .metered handler s.meters else .plain handler

/-- The meter that is made for the message. -/
def metering (d : DataPtr) (s : Statistics) : List Outcall :=
  if s.measures d then [.createMeter s.meters (d.elim 0 List.length)] else []

/-- The target, if it is there, gets the message as it is, with the handler of the source or
    with the lambda. -/
theorem performIo_eq (d : DataPtr) (id : IoId) (handler : Option Handler) (s : Statistics) :
    s.performIo d id handler =
      match s.lockTarget with
      | none => s
      | some t =>
        { s with
          meters := s.meters + (s.metering d).length
          outcalls := s.outcalls ++ s.metering d ++
            [.target t (.performIo d id (s.handed d handler))] } := by
  simp only [performIo]
  cases s.lockTarget with
  | none => rfl
  | some t =>
    cases d with
    | none => simp [emit, metering, handed, measures]
    | some data =>
      by_cases hs : s.suspended = true
      · simp [emit, metering, handed, measures, hs]
      · by_cases hstat : s.stat = true
        · simp [emit, metering, handed, measures, hs, hstat]
        · simp [emit, metering, handed, measures, hs, hstat]

end Statistics

end WfcIo

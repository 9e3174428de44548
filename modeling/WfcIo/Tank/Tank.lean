import WfcIo.Interface
import WfcIo.Foundation.OrderedMap
import Mathlib.Data.Int.ModEq
import Mathlib.Logic.Function.Iterate
import Mathlib.Data.String.Basic

/-!
# The tank

`tank_io` makes requests for a load test and checks the responses. With a JSON-RPC method in
its options it puts the request into a call with an id of its own and keeps the expected result
under that id; a response, of one or more messages, is then checked message by message. Without
a method the expected responses are kept in a queue.

The ids come from a counter that all tanks share, an `int` that wraps around.

## Main definitions

- `TankOptions`, `TankEnv` — the options, and what is outside the tank
- `Tank` — the fields of the class and the shared counter
- `Tank.makeRequest_` — a request
- `Tank.checkMessage`, `Tank.checkLoop`, `Tank.checkResponse_` — one message, all messages of a
  response, and the check as a whole

## Main results

- `Tank.makeRequest_spec` — what a request leaves to be checked
- `Tank.checkMessage_eq_true_iff` — which messages are right
-/

namespace WfcIo

open Foundation

/-- `tank_options`. -/
structure TankOptions where
  enableVars : Bool := false
  checkResponse : Bool := false
  jsonrpcMethod : Option String := none
  deriving DecidableEq

/-- There is a method, and it is not empty. -/
def TankOptions.jsonrpc (opt : TankOptions) : Bool := opt.jsonrpcMethod.any (· ≠ "")

/-- A variable in a text, `$prefix{name, options}`. -/
structure Var where
  varPrefix : String
  name : String
  options : List (String × String) := []
  deriving DecidableEq

/-- What `incoming_holder` says of its current message: whether it is a response, its id and its
    result. `none` is an error; a result may also be a null pointer. -/
structure Incoming where
  isResponse : Bool
  id : Option ℤ
  result : Option DataPtr
  deriving DecidableEq

/-- `incoming_holder::parse` of attached bytes: an error, or the first message, which is current
    then, and the bytes that remain, fewer than before. `clears` tells what it does with an
    error that it finds in the error variable. -/
structure IncomingParser where
  parse : Data → Option (Incoming × DataPtr)
  clears : Bool
  shorter : ∀ d m rest, parse d = some (m, some rest) → rest.length < d.length

/-- What is outside the tank: the serializer of requests (from the method, the parameters and
    the id), the search for variables and their replacement (prefix, name and value), the
    number in an option of a variable, and the parser of responses. -/
structure TankEnv where
  serialize : String → Data → ℤ → Data
  searchVars : Data → List Var
  replaceVars : List (String × String × String) → Data → Data
  getOpt : Var → String → ℤ → ℤ
  parser : IncomingParser

/-- `tank_io::__counter`. -/
structure TankCounter where
  current : ℤ := 0
  from_ : ℤ := 0
  to_ : ℤ := 2 ^ 63 - 1
  step : ℤ := 1
  deriving DecidableEq

/-- `next`. -/
def TankCounter.next (c : TankCounter) : TankCounter :=
  if c.to_ - c.current > c.step then { c with current := c.current + c.step }
  else { c with current := c.from_ + c.step - (c.to_ - c.current) }

/-- `tank_io` after `configure`. `callId` is the static `_call_id`. -/
structure Tank where
  callId : ℤ := 0
  initialMake : Bool := true
  callMap : OrderedMap ℤ Data := .empty
  ioQueue : List Data := []
  counters : OrderedMap String TankCounter := .empty

namespace Tank

/-! ### Requests -/

/-- `++_call_id`, an `int` of 32 bits. -/
def increment (callId : ℤ) : ℤ := Int.bmod (callId + 1) (2 ^ 32)

theorem increment_iterate_modEq (c : ℤ) (n : ℕ) : increment^[n] c ≡ c + n [ZMOD 2 ^ 32] := by
  induction n with
  | zero => rw [Function.iterate_zero_apply, Nat.cast_zero, add_zero]
  | succ n ih =>
    rw [Function.iterate_succ_apply', Nat.cast_succ, ← add_assoc]
    have hbmod : increment (increment^[n] c) ≡ increment^[n] c + 1 [ZMOD 2 ^ 32] :=
      Int.bmod_emod
    exact hbmod.trans (ih.add_right 1)

/-- The counter has different values as long as it has not gone all the way round. -/
theorem increment_iterate_ne {c : ℤ} {m n : ℕ} (hlt : m < n) (hn : n < m + 2 ^ 32) :
    increment^[m] c ≠ increment^[n] c := by
  intro heq
  have hmod : c + m ≡ c + n [ZMOD 2 ^ 32] :=
    (increment_iterate_modEq c m).symm.trans (heq ▸ increment_iterate_modEq c n)
  have hdvd : (2 ^ 32 : ℤ) ∣ (c + n) - (c + m) := hmod.dvd
  rw [add_sub_add_left_eq_sub] at hdvd
  have hle := Int.le_of_dvd (by omega) hdvd
  omega

theorem increment_iterate_inj {c : ℤ} {m n : ℕ} (hm : m < 2 ^ 32) (hn : n < 2 ^ 32) :
    increment^[m] c = increment^[n] c ↔ m = n := by
  constructor
  · intro heq
    obtain hlt | rfl | hlt := Nat.lt_trichotomy m n
    · exact absurd heq (increment_iterate_ne hlt (by omega))
    · rfl
    · exact absurd heq.symm (increment_iterate_ne hlt (by omega))
  · rintro rfl
    rfl

/-- The first part of `make_request_`: the expected result is kept, and with a method the
    request is put into a call. -/
def expect (env : TankEnv) (opt : TankOptions) (req res : Data) (t : Tank) : Data × Tank :=
  if opt.jsonrpc then
    let t' := { t with callId := increment t.callId }
    (env.serialize (opt.jsonrpcMethod.getD "") req t'.callId,
      { t' with callMap := t'.callMap.assign t'.callId res })
  else (req, { t with ioQueue := t.ioQueue ++ [res] })

/-- The counter of the variable at the first request: a new one if it has options, or if there
    is none of that name. -/
def initCounter (env : TankEnv) (cv : Var) (t : Tank) : Tank :=
  if cv.options ≠ [] then
    { t with
      counters := t.counters.assign cv.name
        { current := env.getOpt cv "from" 1
          from_ := env.getOpt cv "from" 1
          to_ := env.getOpt cv "to" 100
          step := env.getOpt cv "step" 1 } }
  else { t with counters := t.counters.insert cv.name {} }

/-- One turn of the loop over the variables, with the replacements so far. -/
def replaceVar (env : TankEnv) (r : Tank × List (String × String × String)) (cv : Var) :
    Tank × List (String × String × String) :=
  if cv.varPrefix = "TANK" then
    if cv.name = "ID" then (r.1, r.2 ++ [("TANK", "ID", toString r.1.callId)])
    else if cv.name.startsWith "COUNT" then
      let t := if r.1.initialMake then initCounter env cv r.1 else r.1
      match t.counters.find cv.name with
      | some c => (t, r.2 ++ [("TANK", cv.name, toString c.current)])
      | none => (t, r.2)
    else r
  else r

/-- The part of `make_request_` about variables. -/
def substitute (env : TankEnv) (req : Data) (t : Tank) : Data × Tank :=
  let t' :=
    if t.initialMake then t
    else { t with counters := (t.counters.mapAccum (fun u c => (u, c.next)) ()).2 }
  let r := (env.searchVars req).foldl (replaceVar env) (t', [])
  (env.replaceVars r.2 req, r.1)

/-- `make_request_`, with the request that is sent. -/
def makeRequest_ (env : TankEnv) (opt : TankOptions) (req res : Data) (t : Tank) : Data × Tank :=
  let r := t.expect env opt req res
  let r' := if opt.enableVars then r.2.substitute env r.1 else r
  (r'.1, { r'.2 with initialMake := false })

/-! ### Responses -/

/-- What the check of one message gives: the verdict, whether an error has been set, and the
    results that are still expected. -/
structure Verdict where
  ok : Bool
  error : Bool := false
  callMap : OrderedMap ℤ Data

/-- The check of the current message. What is expected under its id is removed, also if the
    result is another one; but only if there is a result. -/
def checkMessage (m : Incoming) (callMap : OrderedMap ℤ Data) : Verdict :=
  if m.isResponse then
    match m.id with
    | none => { ok := false, error := true, callMap }
    | some id =>
      match m.result with
      | none => { ok := false, error := true, callMap }
      | some none => { ok := false, callMap }
      | some (some result) =>
        match callMap.find id with
        | some expected => { ok := expected = result, callMap := callMap.erase id }
        | none => { ok := false, callMap }
  else { ok := false, callMap }

/-- The loop, where the current message is `m` and `rest` are the remaining bytes. The next
    message is parsed before the test whether anything remains after it. -/
def checkLoop (P : IncomingParser) (m : Incoming) (rest : DataPtr) (ok : Bool)
    (callMap : OrderedMap ℤ Data) : Verdict :=
  let v := checkMessage m callMap
  let v' := { v with ok := ok && v.ok }
  match rest with
  | none => v'
  | some d =>
    match h : P.parse d with
    | none => { v' with error := true }
    | some (m', rest') =>
      let error := v'.error && !P.clears
      match rest' with
      -- nothing remains after `m'`, and the loop ends
      | none => { v' with error }
      | some d' =>
        if error then { v' with error }
        else
          have : d'.length < d.length := P.shorter d m' d' h
          checkLoop P m' (some d') v'.ok v'.callMap
  termination_by rest.elim 0 List.length

/-- `check_response_`, for the response `res2`. -/
def checkResponse_ (env : TankEnv) (opt : TankOptions) (res2 : Data) (t : Tank) : Bool × Tank :=
  if opt.checkResponse then
    if opt.jsonrpc then
      match env.parser.parse res2 with
      | none => (false, t)
      | some (m, rest) =>
        let v := checkLoop env.parser m rest true t.callMap
        (v.ok && !v.error, { t with callMap := v.callMap })
    else
      match t.ioQueue with
      | [] => (true, t)
      | res1 :: rest => (res1 = res2, { t with ioQueue := rest })
  else (true, t)

/-! ### What a request changes -/

/-- The variables concern the counters only. -/
theorem replaceVar_spec (env : TankEnv) (r : Tank × List (String × String × String)) (cv : Var) :
    ∃ counters, (replaceVar env r cv).1 = { r.1 with counters } := by
  have hinit : ∃ counters, initCounter env cv r.1 = { r.1 with counters } := by
    simp only [initCounter]
    split
    · exact ⟨_, rfl⟩
    · exact ⟨_, rfl⟩
  obtain ⟨counters, hcounters⟩ := hinit
  simp only [replaceVar]
  split
  · split
    · exact ⟨r.1.counters, rfl⟩
    · split
      · have hif : ∃ counters, (if r.1.initialMake then initCounter env cv r.1 else r.1) =
            { r.1 with counters } := by
          split
          · exact ⟨counters, hcounters⟩
          · exact ⟨r.1.counters, rfl⟩
        obtain ⟨counters', hcounters'⟩ := hif
        rw [hcounters']
        split
        · exact ⟨counters', rfl⟩
        · exact ⟨counters', rfl⟩
      · exact ⟨r.1.counters, rfl⟩
  · exact ⟨r.1.counters, rfl⟩

theorem substitute_spec (env : TankEnv) (req : Data) (t : Tank) :
    ∃ counters, (t.substitute env req).2 = { t with counters } := by
  have hfold : ∀ (vars : List Var) (r : Tank × List (String × String × String)),
      ∃ counters, (vars.foldl (replaceVar env) r).1 = { r.1 with counters } := by
    intro vars
    induction vars with
    | nil => exact fun r => ⟨r.1.counters, rfl⟩
    | cons cv vars ih =>
      intro r
      obtain ⟨counters, hcv⟩ := replaceVar_spec env r cv
      obtain ⟨counters', hvars⟩ := ih (replaceVar env r cv)
      rw [hcv] at hvars
      exact ⟨counters', hvars⟩
  simp only [substitute]
  split
  · exact hfold _ _
  · obtain ⟨counters, heq⟩ := hfold (env.searchVars req)
      ({ t with counters := (t.counters.mapAccum (fun u c => (u, c.next)) ()).2 }, [])
    exact ⟨counters, heq⟩

/-- With a method a request takes the next id and is expected under it; without one it is
    expected at the end of the queue. -/
theorem makeRequest_spec (env : TankEnv) (opt : TankOptions) (req res : Data) (t : Tank) :
    ∃ counters, (t.makeRequest_ env opt req res).2 =
      if opt.jsonrpc then
        { t with
          callId := increment t.callId
          initialMake := false
          callMap := t.callMap.assign (increment t.callId) res
          counters }
      else { t with initialMake := false, ioQueue := t.ioQueue ++ [res], counters } := by
  have hvars : ∀ r : Data × Tank, ∃ counters,
      (if opt.enableVars then r.2.substitute env r.1 else r).2 = { r.2 with counters } := by
    intro r
    split
    · exact substitute_spec env r.1 r.2
    · exact ⟨r.2.counters, rfl⟩
  obtain ⟨counters, hcounters⟩ := hvars (t.expect env opt req res)
  refine ⟨counters, ?_⟩
  simp only [makeRequest_, hcounters]
  simp only [expect]
  split
  · rfl
  · rfl

/-! ### What the check of a message finds -/

/-- The message is a response whose id is expected, with the expected result. -/
def Answers (callMap : OrderedMap ℤ Data) (m : Incoming) (id : ℤ) : Prop :=
  m.isResponse = true ∧ m.id = some id ∧ ∃ text, m.result = some (some text) ∧
    callMap.find id = some text

/-- A message is found right exactly if it answers, and then what was expected under its id is
    removed, and there is no error. -/
theorem checkMessage_eq_true_iff {m : Incoming} {callMap : OrderedMap ℤ Data} :
    (checkMessage m callMap).ok = true ↔ ∃ id, Answers callMap m id := by
  obtain ⟨isResponse, id, result⟩ := m
  simp only [checkMessage, Answers]
  cases isResponse with
  | false => simp
  | true =>
    cases id with
    | none => simp
    | some id =>
      match result with
      | none => simp
      | some none => simp
      | some (some text) =>
        cases hfind : callMap.find id with
        | none => simp [hfind]
        | some expected => simp [hfind]

theorem checkMessage_of_answers {m : Incoming} {callMap : OrderedMap ℤ Data} {id : ℤ}
    (h : Answers callMap m id) :
    checkMessage m callMap = { ok := true, callMap := callMap.erase id } := by
  obtain ⟨hresponse, hid, text, hresult, hfind⟩ := h
  simp only [checkMessage, hresponse, hid, hresult, hfind, if_true, decide_true]

end Tank

end WfcIo

import WfcIo.Tank.Expectations
import WfcIo.Foundation.Serials
import WfcIo.Foundation.Simulation

/-!
# A load test as an examination

What the checks of a tank are for: an examiner numbers its requests, notes what it expects for
each, and finds a response right if it is what is expected for a request that no response has come
for, in whatever order they come. The tank has an `int` in place of the numbers, which it shares
with other tanks and which wraps around. It gives the verdicts of the examiner as long as no
request waits until its id comes again.

Without a JSON-RPC method there are no ids, and responses are expected in the order of the
requests.

## Main definitions

- `Tank.Exam`, `Tank.Exam.step` — a tank and its last verdict
- `Tank.Examiner`, `Tank.Examiner.step` — the examiner
- `Tank.Punctual` — no request waits too long, and a response is one message

## Main results

- `Tank.examined` — the tank gives the verdicts of the examiner, and expects what the examiner does
-/

namespace WfcIo.Tank

open Foundation

/-- A tank, and the verdict of the last call if it was a check. -/
structure Exam where
  tank : Tank
  verdict : Option Bool := none

def Exam.step (env : TankEnv) (opt : TankOptions) (x : Exam) : Act → Exam
  | .makeRequest_ req res => { tank := (x.tank.makeRequest_ env opt req res).2 }
  | .checkResponse_ _ res2 =>
    let r := x.tank.checkResponse_ env opt res2
    { tank := r.2, verdict := some r.1 }
  | .other => { tank := { x.tank with callId := increment x.tank.callId } }

/-- The requests that wait for a response, each with its number and what is expected, and the last
    verdict. -/
structure Examiner where
  book : Serials Data := {}
  verdict : Option Bool := none

/-- The id of the `n`-th request of all tanks, when the counter was `c` at first. -/
def serialId (c : ℤ) (n : ℕ) : ℤ := increment^[n] c

/-- A response with a result is right if the result is what is expected for the request with this
    id; right or wrong, the request is then settled. Any other message is wrong. -/
def Examiner.answer (c : ℤ) (e : Examiner) : Incoming → Examiner
  | ⟨true, some id, some (some text)⟩ =>
    { book := e.book.settle (serialId c) id
      verdict := some (e.book.pending.any fun x => serialId c x.1 = id ∧ x.2 = text) }
  | _ => { book := e.book, verdict := some false }

/-- The examiner. -/
def Examiner.step (env : TankEnv) (opt : TankOptions) (c : ℤ) (e : Examiner) : Act → Examiner
  | .makeRequest_ _ res => { book := e.book.issue res }
  | .other => { book := e.book.skip }
  | .checkResponse_ _ res2 =>
    if opt.checkResponse then
      if opt.jsonrpc then
        match env.parser.parse res2 with
        | some (m, _) => e.answer c m
        | none => { book := e.book, verdict := some false }
      else
        match e.book.pending with
        | [] => { book := e.book, verdict := some true }
        | x :: rest =>
          { book := { e.book with pending := rest }, verdict := some (decide (x.2 = res2)) }
    else { book := e.book, verdict := some true }

/-- With a method, fewer than 2^32 ids are taken while a request waits, and a payload is one
    message, or cannot be read. -/
def Punctual (env : TankEnv) (opt : TankOptions) (e : Examiner) : Act → Prop
  | .makeRequest_ _ res => opt.jsonrpc = true → (e.book.issue res).Young (2 ^ 32)
  | .checkResponse_ _ res2 => opt.jsonrpc = true →
    ∀ m rest, env.parser.parse res2 = some (m, rest) → rest = none
  | .other => True

/-- The tank has what the examiner has in its book. -/
structure Examines (opt : TankOptions) (c : ℤ) (e : Examiner) (x : Exam) : Prop where
  json : opt.jsonrpc = true → x.tank.callId = serialId c e.book.count ∧ x.tank.ioQueue = [] ∧
    e.book.Apart (serialId c) ∧ e.book.Stored (serialId c) x.tank.callMap
  raw : opt.jsonrpc = false → x.tank.callMap = .empty ∧
    x.tank.ioQueue = e.book.pending.map Prod.snd

variable {env : TankEnv} {opt : TankOptions} {c : ℤ} {e : Examiner} {x : Exam}

theorem windowed_serialId (c : ℤ) : Windowed (serialId c) (2 ^ 32) :=
  fun _ _ hlt hn => increment_iterate_ne hlt hn

theorem serialId_succ (c : ℤ) (n : ℕ) : serialId c (n + 1) = increment (serialId c n) :=
  Function.iterate_succ_apply' increment n c

/-! ### One call -/

theorem Examines.request (req res : Data) (h : Examines opt c e x)
    (hyoung : opt.jsonrpc = true → (e.book.issue res).Young (2 ^ 32)) :
    Examines opt c (e.step env opt c (.makeRequest_ req res))
      (x.step env opt (.makeRequest_ req res)) := by
  obtain ⟨counters, hspec⟩ := makeRequest_spec env opt req res x.tank
  refine ⟨fun hjson => ?_, fun hraw => ?_⟩
  · obtain ⟨hid, hqueue, hapart, hstored⟩ := h.json hjson
    have hfresh := Serials.fresh_of_young (windowed_serialId c) hapart (hyoung hjson)
    have hnext : increment x.tank.callId = serialId c (e.book.count + 1) := by
      rw [hid, serialId_succ]
    simp only [Exam.step, hspec, hjson, if_true, hnext]
    exact ⟨rfl, hqueue, hapart.issue hfresh, hstored.issue hfresh⟩
  · obtain ⟨hmap, hqueue⟩ := h.raw hraw
    simp only [Exam.step, hspec, hraw, Bool.false_eq_true, if_false, hqueue]
    refine ⟨hmap, ?_⟩
    simp [Examiner.step, Serials.issue]

theorem Examines.other (h : Examines opt c e x) :
    Examines opt c (e.step env opt c .other) (x.step env opt .other) := by
  refine ⟨fun hjson => ?_, h.raw⟩
  obtain ⟨hid, hqueue, hapart, hstored⟩ := h.json hjson
  refine ⟨?_, hqueue, hapart.skip, hstored.skip⟩
  show increment x.tank.callId = serialId c (e.book.count + 1)
  rw [hid, serialId_succ]

/-- A message is right if it has the result that is expected under its id. -/
theorem checkMessage_eq (m : Incoming) (callMap : OrderedMap ℤ Data) :
    (checkMessage m callMap).ok = match m with
      | ⟨true, some id, some (some text)⟩ => decide (callMap.find id = some text)
      | _ => false := by
  obtain ⟨isResponse, id, result⟩ := m
  match isResponse, id, result with
  | false, _, _ => rfl
  | true, none, _ => rfl
  | true, some _, none => rfl
  | true, some _, some none => rfl
  | true, some id, some (some text) =>
    simp only [checkMessage, if_true]
    cases callMap.find id <;> simp

/-- Where an error is found, the message is not right either. -/
theorem checkMessage_error {m : Incoming} {callMap : OrderedMap ℤ Data}
    (h : (checkMessage m callMap).ok = true) : (checkMessage m callMap).error = false := by
  obtain ⟨id, hid⟩ := checkMessage_eq_true_iff.mp h
  rw [checkMessage_of_answers hid]

/-- **One message.** The check of a payload of one message. -/
theorem checkResponse_single {t : Tank} {res2 : Data} {m : Incoming}
    (hcheck : opt.checkResponse = true) (hjson : opt.jsonrpc = true)
    (hparse : env.parser.parse res2 = some (m, none)) :
    t.checkResponse_ env opt res2 =
      ((checkMessage m t.callMap).ok,
        { t with callMap := (checkMessage m t.callMap).callMap }) := by
  rw [checkResponse_eq hcheck hjson hparse, checkLoop_none, Verdict.passed]
  cases hok : (checkMessage m t.callMap).ok with
  | false => rfl
  | true => simp [checkMessage_error hok]

/-- What is stored decides as the book does. -/
theorem stored_any {book : Serials Data} {callMap : OrderedMap ℤ Data}
    (hstored : book.Stored (serialId c) callMap) (id : ℤ) (text : Data) :
    decide (callMap.find id = some text) =
      book.pending.any fun x => serialId c x.1 = id ∧ x.2 = text := by
  rw [Bool.eq_iff_iff, decide_eq_true_iff, hstored id text, List.any_eq_true]
  constructor
  · rintro ⟨n, hn, hmem⟩
    exact ⟨(n, text), hmem, by simp [hn]⟩
  · rintro ⟨⟨n, v⟩, hmem, hx⟩
    obtain ⟨hn, rfl⟩ := of_decide_eq_true hx
    exact ⟨n, hn, hmem⟩

/-- The tank after the check of a message. -/
def Exam.found (x : Exam) (m : Incoming) : Exam where
  tank := { x.tank with callMap := (checkMessage m x.tank.callMap).callMap }
  verdict := some (checkMessage m x.tank.callMap).ok

theorem Examines.answer (h : Examines opt c e x) (hjson : opt.jsonrpc = true) (m : Incoming) :
    Examines opt c (e.answer c m) (x.found m) ∧
      (e.answer c m).verdict = (x.found m).verdict := by
  obtain ⟨hid, hqueue, hapart, hstored⟩ := h.json hjson
  have hwrong : ∀ m, (checkMessage m x.tank.callMap).ok = false →
      (checkMessage m x.tank.callMap).callMap = x.tank.callMap →
      e.answer c m = { book := e.book, verdict := some false } →
      Examines opt c (e.answer c m) (x.found m) ∧
        (e.answer c m).verdict = (x.found m).verdict := by
    intro m hok hmap he
    rw [Exam.found, hok, hmap, he]
    exact ⟨⟨h.json, h.raw⟩, rfl⟩
  obtain ⟨isResponse, id, result⟩ := m
  match isResponse, id, result with
  | false, _, _ => exact hwrong _ rfl rfl rfl
  | true, none, _ => exact hwrong _ rfl rfl rfl
  | true, some _, none => exact hwrong _ rfl rfl rfl
  | true, some _, some none => exact hwrong _ rfl rfl rfl
  | true, some id, some (some text) =>
    rw [Exam.found, checkMessage_eq, checkMessage_callMap]
    refine ⟨⟨fun _ => ⟨hid, hqueue, hapart.settle id, hstored.settle id⟩, fun hraw => ?_⟩,
      congrArg some (stored_any hstored id text).symm⟩
    rw [hjson] at hraw
    cases hraw

theorem Examines.response (id : ℤ) (res2 : Data) (h : Examines opt c e x)
    (hsingle : opt.jsonrpc = true →
      ∀ m rest, env.parser.parse res2 = some (m, rest) → rest = none) :
    Examines opt c (e.step env opt c (.checkResponse_ id res2))
        (x.step env opt (.checkResponse_ id res2)) ∧
      (e.step env opt c (.checkResponse_ id res2)).verdict =
        (x.step env opt (.checkResponse_ id res2)).verdict := by
  have hnot : ∀ {b b' : Bool} {Q : Prop}, b ≠ b' → opt.jsonrpc = b → opt.jsonrpc = b' → Q :=
    fun hne hb hb' => absurd (hb.symm.trans hb') hne
  cases hcheck : opt.checkResponse with
  | false =>
    simp only [Exam.step, Examiner.step, checkResponse_, hcheck, Bool.false_eq_true, if_false]
    exact ⟨⟨h.json, h.raw⟩, trivial⟩
  | true =>
    cases hjson : opt.jsonrpc with
    | false =>
      obtain ⟨hmap, hqueue⟩ := h.raw hjson
      simp only [Exam.step, Examiner.step, checkResponse_, hcheck, hjson, Bool.false_eq_true,
        if_true, if_false, hqueue]
      cases hpending : e.book.pending with
      | nil => exact ⟨⟨hnot Bool.false_ne_true hjson, h.raw⟩, rfl⟩
      | cons y rest => exact ⟨⟨hnot Bool.false_ne_true hjson, fun _ => ⟨hmap, rfl⟩⟩, rfl⟩
    | true =>
      cases hparse : env.parser.parse res2 with
      | none =>
        simp only [Exam.step, Examiner.step, checkResponse_, hcheck, hjson, hparse, if_true]
        exact ⟨⟨h.json, h.raw⟩, trivial⟩
      | some p =>
        obtain ⟨m, rest⟩ := p
        obtain rfl := hsingle hjson m rest hparse
        simp only [Exam.step, Examiner.step, checkResponse_single hcheck hjson hparse, hcheck,
          hjson, hparse, if_true]
        exact h.answer hjson m

/-! ### Whole runs -/

/-- **Refinement.** The tank keeps up with the examiner. -/
theorem simulates (env : TankEnv) (opt : TankOptions) (c : ℤ) :
    Simulates (Examiner.step env opt c) (Exam.step env opt) Examiner.verdict Exam.verdict
      (Examines opt c) (Punctual env opt) where
  related e x a h ha := by
    cases a with
    | makeRequest_ req res => exact h.request req res ha
    | checkResponse_ id res2 => exact (h.response id res2 ha).1
    | other => exact h.other
  same e x a h ha := by
    cases a with
    | makeRequest_ req res => rfl
    | checkResponse_ id res2 => exact (h.response id res2 ha).2
    | other => rfl

/-- **The examination.** If no request waits until its id comes again, and every payload is one
    message or cannot be read, a tank gives the verdicts of the examiner in every run, whatever it
    is asked in which order and answered in which order; and it expects as many results as requests
    wait. -/
theorem examined (env : TankEnv) (opt : TankOptions) (c : ℤ) (as : List Act)
    (has : Along (Examiner.step env opt c) (Punctual env opt) {} as) :
    AtEach (fun pre a => Shows (Exam.step env opt) Exam.verdict { tank := { callId := c } } pre a =
        Shows (Examiner.step env opt c) Examiner.verdict {} pre a) as ∧
      let t := (run (Exam.step env opt) { tank := { callId := c } } as).tank
      t.callMap.size + t.ioQueue.length =
        (run (Examiner.step env opt c) {} as).book.pending.length := by
  have hstart : Examines opt c {} { tank := { callId := c } } :=
    ⟨fun _ => ⟨rfl, rfl, ⟨nofun, List.nodup_nil⟩, Serials.Stored.empty⟩,
      fun _ => ⟨rfl, rfl⟩⟩
  refine ⟨fun pre a post has' => ?_, ?_⟩
  · rw [has', along_append] at has
    have hpre := (simulates env opt c).run hstart has.1
    exact ((simulates env opt c).same _ _ a hpre has.2.1).symm
  · have hrun := (simulates env opt c).run hstart has
    cases hjson : opt.jsonrpc with
    | true =>
      obtain ⟨_, hqueue, hapart, hstored⟩ := hrun.json hjson
      dsimp only
      rw [hqueue, hstored.size hapart]
      rfl
    | false =>
      obtain ⟨hmap, hqueue⟩ := hrun.raw hjson
      dsimp only
      rw [hmap, hqueue, List.length_map]
      exact zero_add _

/-- Two requests, another tank in between; the second is answered first, and the first wrongly. -/
def twoRequests : List Act :=
  [.makeRequest_ [120] [53], .other, .makeRequest_ [121] [55],
    .checkResponse_ 3 (digitResponse 51 55), .checkResponse_ 1 (digitResponse 49 56),
    .checkResponse_ 1 (digitResponse 49 53)]

/-- The first response passes, and the other two do not: the wrong one has settled the request. -/
theorem examined_twoRequests :
    let opt : TankOptions := { checkResponse := true, jsonrpcMethod := some "get" }
    let start : Exam := { tank := { callId := 0 } }
    Shows (Exam.step digitEnv opt) Exam.verdict start (twoRequests.take 3)
        (.checkResponse_ 3 (digitResponse 51 55)) = some true ∧
      Shows (Exam.step digitEnv opt) Exam.verdict start (twoRequests.take 4)
        (.checkResponse_ 1 (digitResponse 49 56)) = some false ∧
      Shows (Exam.step digitEnv opt) Exam.verdict start (twoRequests.take 5)
        (.checkResponse_ 1 (digitResponse 49 53)) = some false := by
  intro opt start
  have hsingle : ∀ {d : Data} {m : Incoming}, digitParser.parse d = some (m, none) →
      ∀ m' rest, digitParser.parse d = some (m', rest) → rest = none := by
    intro d m hparse m' rest hparse'
    cases hparse.symm.trans hparse'
    rfl
  have hpunctual : Along (Examiner.step digitEnv opt 0) (Punctual digitEnv opt) {} twoRequests :=
    ⟨fun _ => by simp [Serials.Young, Serials.issue], trivial,
      fun _ => by simp [Serials.Young, Serials.issue, Examiner.step, Serials.skip],
      fun _ => hsingle (m := ⟨true, some 3, some (some [55])⟩) (by decide),
      fun _ => hsingle (m := ⟨true, some 1, some (some [56])⟩) (by decide),
      fun _ => hsingle (m := ⟨true, some 1, some (some [53])⟩) (by decide), trivial⟩
  have hverdicts := (examined digitEnv opt 0 twoRequests hpunctual).1
  refine ⟨(hverdicts _ _ (twoRequests.drop 4) rfl).trans ?_,
    (hverdicts _ _ (twoRequests.drop 5) rfl).trans ?_, (hverdicts _ _ [] rfl).trans ?_⟩
  · decide
  · decide
  · decide

end WfcIo.Tank

import WfcIo.Client.Unhandled

/-!
# Who gets the answers to unregistered requests

A source sends requests under one id and never registers. The adapter makes a wrapper around the
handler of the first request, and finds the wrapper alive at each request after it. So it is the
handler of the first request that all answers are passed to.

## Main definitions

- `ClientTcpAdapter.Exchange` — a request of the source, or the next answer of the server
- `ClientTcpAdapter.Answerable` — the server answers each request once
- `ClientTcpAdapter.delivered` — the handlers that a step has called

## Main results

- `ClientTcpAdapter.first_handler_iff` — when every answer gets to the handler of its request
- `ClientTcpAdapter.answers_to_first` — where the answers get to
-/

namespace WfcIo

open Foundation

/-- A handler is called with these data. -/
def Outcall.delivery : Outcall → Option (Handler × DataPtr)
  | .handler f d => some (f, d)
  | _ => none

namespace ClientTcpAdapter

/-- A request with a handler, which is sent (by a new connection if `connect`), or the next
    answer of the server. -/
inductive Exchange
  | request (d : DataPtr) (handler : Handler) (connect : Bool)
  | answer (d : DataPtr)
  deriving DecidableEq

/-- The call or event at the adapter. -/
def Exchange.act (ioId : IoId) (conn : Conn) : Exchange → Act
  | .request d handler connect =>
    .performIo d ioId (some handler)
      (if connect then .acceptedByRequest conn else .accepted conn)
  | .answer d => .input d (some conn)

def exchange (ioId : IoId) (conn : Conn) (s : Driven) (e : Exchange) : Driven :=
  step s (e.act ioId conn)

/-- The handlers of the requests. -/
def requests (es : List Exchange) : List Handler :=
  es.filterMap fun
    | .request _ handler _ => some handler
    | .answer _ => none

/-- The number of answers. -/
def answers (es : List Exchange) : ℕ :=
  es.countP fun
    | .request _ _ _ => false
    | .answer _ => true

/-- The server answers the requests in order, each of them once: an answer after `es` is the
    answer to the request number `answers es`. -/
def Answerable (es : List Exchange) : Prop :=
  AtEach (fun pre e => ∀ d, e = .answer d → answers pre < (requests pre).length) es

/-- The handlers that the step has called, with the data. -/
def delivered (s : Driven) : List (Handler × DataPtr) := s.io.outcalls.filterMap Outcall.delivery

/-- The adapter after these requests and answers. -/
def after (refuses : ℕ → Bool) (cli : ℕ) (opt : ClientTcpConfig) (ioId : IoId) (conn : Conn)
    (es : List Exchange) : Driven :=
  run (exchange ioId conn) (started refuses cli opt) es

/-- The calls of handlers if an answer is passed to the handler `expected`. -/
def Exchange.calls (expected : Option Handler) : Exchange → List (Handler × DataPtr)
  | .request _ _ _ => []
  | .answer d => (expected.map fun f => (f, d)).toList

/-- An answer is passed to the handler `expected` and no other, once, and a request calls no
    handler. -/
def PassesTo (refuses : ℕ → Bool) (cli : ℕ) (opt : ClientTcpConfig) (ioId : IoId) (conn : Conn)
    (expected : List Exchange → Option Handler) (es : List Exchange) : Prop :=
  AtEach (fun pre e =>
    delivered (exchange ioId conn (after refuses cli opt ioId conn pre) e) =
      e.calls (expected pre)) es

/-- The handler of the request that is answered next. -/
def ownHandler (es : List Exchange) : Option Handler := (requests es)[answers es]?

/-- The handler of the first request. -/
def firstHandler (es : List Exchange) : Option Handler := (requests es).head?

variable {refuses : ℕ → Bool} {cli : ℕ} {opt : ClientTcpConfig} {ioId : IoId} {conn : Conn}
  {es : List Exchange} {s : Driven}

/-- The wrapper in place has the handler `first`, if there is one. -/
structure Wrapped (opt : ClientTcpConfig) (first : Option Handler) (s : Driven) : Prop where
  running : Running opt s
  free : first = none → s.adapter.holder = none
  wrapper : ∀ f, first = some f → ∃ p, s.adapter.performHolder = some p ∧ p.handler = some f

/-- A wrapper is in place, and stays so. -/
theorem wraps_eq_false {p : PerformHolder} (h : Running opt s) (hid : ioId ≠ 0)
    (hp : s.adapter.performHolder = some p) (handler : Option Handler) :
    s.adapter.wraps ioId handler { s.io with outcalls := [] } = false := by
  have hget : s.adapter.getHolder { s.io with outcalls := [] } = some (.perform p) :=
    h.getHolder hp
  simp [wraps, hget, hid]

theorem Exchange.act_isTraffic (e : Exchange) : (e.act ioId conn).isTraffic = true := by
  cases e <;> rfl

theorem firstHandler_request (d : DataPtr) (handler : Handler) (connect : Bool) :
    firstHandler (es ++ [.request d handler connect]) = some ((firstHandler es).getD handler) := by
  rw [firstHandler, firstHandler, requests, List.filterMap_append, ← requests]
  cases requests es with
  | nil => rfl
  | cons f fs => rfl

theorem firstHandler_answer (d : DataPtr) :
    firstHandler (es ++ [.answer d]) = firstHandler es := by
  rw [firstHandler, firstHandler, requests, List.filterMap_append]
  exact congrArg List.head? (List.append_nil _)

/-- The handler of the first request stays in place. -/
theorem Wrapped.step (hid : ioId ≠ 0) (h : Wrapped opt (firstHandler es) s) (e : Exchange) :
    Wrapped opt (firstHandler (es ++ [e])) (exchange ioId conn s e) := by
  have hrunning : Running opt (exchange ioId conn s e) := h.running.step (e.act_isTraffic)
  cases e with
  | request d handler connect =>
    obtain ⟨b, hb⟩ := s.adapter.performIo_fst { s.io with outcalls := [] } ioId d (some handler)
      (if connect then .acceptedByRequest conn else .accepted conn)
    have hadapter : (exchange ioId conn s (.request d handler connect)).adapter =
        { (s.adapter.bind ioId (some handler) { s.io with outcalls := [] }).1 with
          errorFlag := b } := hb
    rw [bind_fst] at hadapter
    cases hfirst : firstHandler es with
    | none =>
      -- nothing is in place yet, and the adapter makes a wrapper
      have hwraps : s.adapter.wraps ioId (some handler) { s.io with outcalls := [] } = true := by
        simp [wraps, ClientTcpAdapter.getHolder, h.free hfirst]
      rw [if_pos hwraps] at hadapter
      rw [firstHandler_request, hfirst, Option.getD_none]
      refine ⟨hrunning, fun hnone => (by cases hnone), fun f hf => ?_⟩
      rw [hadapter]
      exact ⟨_, rfl, hf⟩
    | some f =>
      obtain ⟨p, hp, hhandler⟩ := h.wrapper f hfirst
      rw [wraps_eq_false h.running hid hp, if_neg Bool.false_ne_true] at hadapter
      rw [firstHandler_request, hfirst, Option.getD_some]
      refine ⟨hrunning, fun hnone => (by cases hnone), fun f' hf => ?_⟩
      cases hf
      rw [hadapter]
      exact ⟨p, hp, hhandler⟩
  | answer d =>
    rw [firstHandler_answer]
    exact ⟨hrunning, h.free, h.wrapper⟩

theorem delivered_request (d : DataPtr) (handler : Handler) (connect : Bool) :
    delivered (exchange ioId conn s (.request d handler connect)) = [] := by
  have hbind : (s.adapter.bind ioId (some handler) { s.io with outcalls := [] }).2.outcalls = [] ∨
      (s.adapter.bind ioId (some handler) { s.io with outcalls := [] }).2.outcalls =
        [.withoutRegistration s.adapter.id] := by
    simp only [bind]
    split
    · exact Or.inr rfl
    · exact Or.inl rfl
  cases connect with
  | false =>
    obtain hbind | hbind := hbind <;>
      simp [delivered, exchange, Exchange.act, ClientTcpAdapter.step, exec, performIo, transmit,
        hbind, Outcall.delivery]
  | true =>
    obtain hbind | hbind := hbind <;>
      simp [delivered, exchange, Exchange.act, ClientTcpAdapter.step, exec, performIo, transmit,
        hbind, Outcall.delivery]

/-- Data that come in go to the handler of the wrapper. -/
theorem delivered_answer {f : Handler} (hinput : opt.inputHandler = none)
    (h : Wrapped opt (some f) s) (d : DataPtr) :
    delivered (exchange ioId conn s (.answer d)) = [(f, d)] := by
  obtain ⟨p, hp, hhandler⟩ := h.wrapper f rfl
  have hget : s.adapter.getHolder { s.io with outcalls := [] } = some (.perform p) :=
    h.running.getHolder hp
  simp only [delivered, exchange, Exchange.act, ClientTcpAdapter.step, exec, input,
    h.running.options, hinput, hget, Holder.performIo, hhandler]
  cases s.adapter.keepAlive <;> rfl

/-! ### Runs -/

theorem wrapped_after (hid : ioId ≠ 0) :
    Wrapped opt (firstHandler es) (after refuses cli opt ioId conn es) := by
  induction es using List.reverseRecOn with
  | nil => exact ⟨running_started, fun _ => rfl, fun f hf => by cases hf⟩
  | append_singleton es e ih =>
    rw [after, run_concat]
    exact ih.step hid e

/-- One answer gets to the handler of the first request, and a request calls no handler. -/
theorem delivered_after (hid : ioId ≠ 0) (hinput : opt.inputHandler = none) (e : Exchange)
    (hanswerable : ∀ d, e = .answer d → answers es < (requests es).length) :
    delivered (exchange ioId conn (after refuses cli opt ioId conn es) e) =
      e.calls (firstHandler es) := by
  cases e with
  | request d handler connect => exact delivered_request d handler connect
  | answer d =>
    have hlength := hanswerable d rfl
    obtain ⟨f, hf⟩ : ∃ f, firstHandler es = some f := by
      cases hrequests : requests es with
      | nil =>
        rw [hrequests, List.length_nil] at hlength
        omega
      | cons f fs => exact ⟨f, by rw [firstHandler, hrequests, List.head?_cons]⟩
    have hwrapped : Wrapped opt (some f) (after refuses cli opt ioId conn es) := by
      rw [← hf]
      exact wrapped_after hid
    rw [delivered_answer hinput hwrapped, hf]
    rfl

/-- **Own handlers.** Every answer gets to the handler of its own request exactly if this is,
    for every request that is answered, the handler of the first. -/
theorem first_handler_iff (hid : ioId ≠ 0) (hinput : opt.inputHandler = none)
    (hes : Answerable es) :
    PassesTo refuses cli opt ioId conn ownHandler es ↔
      AtEach (fun pre e => ∀ d, e = .answer d → ownHandler pre = firstHandler pre) es := by
  apply atEach_congr
  rintro pre e ⟨post, rfl⟩ _
  rw [delivered_after hid hinput e (hes pre e post (List.append_assoc _ _ _))]
  cases e with
  | request d handler connect => exact iff_of_true rfl fun d' heq => by cases heq
  | answer d =>
    constructor
    · intro hsame _ _
      have hhead := congrArg List.head? hsame
      simp only [Exchange.calls, Option.head?_toList] at hhead
      have hinj : Function.Injective fun f : Handler => (f, d) := fun f f' heq =>
        (Prod.mk.inj heq).1
      exact (Option.map_injective hinj hhead).symm
    · intro hsame
      rw [hsame d rfl]

/-- **Answers.** Every answer is passed to the handler of the first request exactly once and to
    no other handler. -/
theorem answers_to_first (refuses : ℕ → Bool) (cli : ℕ) (opt : ClientTcpConfig) (ioId : IoId)
    (conn : Conn) (es : List Exchange) (hid : ioId ≠ 0) (hinput : opt.inputHandler = none)
    (hes : Answerable es) : PassesTo refuses cli opt ioId conn firstHandler es := by
  rintro pre e post rfl
  exact delivered_after hid hinput e (hes pre e post rfl)

/-- Two requests, and then an answer to each. -/
def twoRequests : List Exchange :=
  [.request (some [1]) 11 false, .request (some [2]) 12 false, .answer (some [3]),
    .answer (some [4])]

theorem answerable_twoRequests : Answerable twoRequests := by
  rintro pre e post hes d rfl
  match pre with
  | [] => cases hes
  | [_] => cases hes
  | [_, _] =>
    cases hes
    decide
  | [_, _, _] =>
    cases hes
    decide
  | _ :: _ :: _ :: _ :: pre =>
    have hlength := congrArg List.length hes
    simp [twoRequests] at hlength

theorem answers_to_first_two : PassesTo (fun _ => false) 1 {} 7 3 firstHandler twoRequests :=
  answers_to_first (fun _ => false) 1 {} 7 3 twoRequests (by decide) rfl answerable_twoRequests

/-- The answer to the second request goes to the handler of the first. -/
theorem not_own_handler :
    ¬ ∀ (refuses : ℕ → Bool) (cli : ℕ) (opt : ClientTcpConfig) (ioId : IoId) (conn : Conn)
      (es : List Exchange), ioId ≠ 0 → opt.inputHandler = none → Answerable es →
      PassesTo refuses cli opt ioId conn ownHandler es := by
  intro hall
  have hown := hall (fun _ => false) 1 {} 7 3 twoRequests (by decide) rfl answerable_twoRequests
    [.request (some [1]) 11 false, .request (some [2]) 12 false, .answer (some [3])]
    (.answer (some [4])) [] rfl
  exact absurd hown (by decide)

end ClientTcpAdapter

end WfcIo

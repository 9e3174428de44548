import WfcIo.Client.ClientTcp

/-!
# What becomes of a request

A request passes through the object, the map and an adapter. It is settled when one of the
two `_client->send` attempts accepts the data, or when its output handler is called with
`nullptr`. The map of a stopped object settles nothing: it returns at once.

## Main definitions

- `Outcall.settles` — the calls that settle a request with the given handler
- `Accounted` — a request has been settled exactly once

## Main results

- `ClientTcp.accounted_iff` — a request is accounted for unless the map is stopped
-/

namespace WfcIo

open Foundation

/-- The client has accepted data, or the handler `f` has been called with `nullptr`. -/
def Outcall.settles (f : Handler) : Outcall → Bool
  | .send _ _ _ => true
  | .handler g d => decide (g = f) && d.isNone
  | _ => false

/-- Exactly one of the two has happened, and once. -/
def Accounted (f : Handler) (os : List Outcall) : Prop := os.countP (Outcall.settles f) = 1

instance (f : Handler) (os : List Outcall) : Decidable (Accounted f os) :=
  inferInstanceAs (Decidable (_ = _))

/-- How often the request has been settled. -/
def Io.settled (f : Handler) (io : Io) : ℕ := io.outcalls.countP (Outcall.settles f)

section Settled

variable {f : Handler} {io io' : Io} {o : Outcall}

theorem settled_emit_of_settles (h : o.settles f = true) :
    (io.emit o).settled f = io.settled f + 1 := by
  simp only [Io.settled, Io.emit_outcalls, List.countP_append, List.countP_singleton, h, if_true]

theorem settled_emit_of_not_settles (h : o.settles f = false) :
    (io.emit o).settled f = io.settled f := by
  simp only [Io.settled, Io.emit_outcalls, List.countP_append, List.countP_singleton, h,
    Bool.false_eq_true, if_false, Nat.add_zero]

/-- Creating an adapter settles no request. -/
theorem settled_of_lifecycle (h : Io.Logs Outcall.Lifecycle io io') :
    io'.settled f = io.settled f := by
  obtain ⟨os, counters, rfl, hos⟩ := h
  have hnone : os.countP (Outcall.settles f) = 0 := by
    apply List.countP_eq_zero.mpr
    intro o ho
    have hlife := hos o ho
    cases o with
    | startError cli abort => exact Bool.false_ne_true
    | unregIo h cli => exact Bool.false_ne_true
    | _ => exact hlife.elim
  show (io.outcalls ++ os).countP _ = _
  rw [List.countP_append, hnone, Nat.add_zero]
  rfl

end Settled

namespace ClientTcpAdapter

variable (a : ClientTcpAdapter) (io : Io) (f : Handler)

theorem settled_bind (ioId : IoId) (handler : Option Handler) :
    (a.bind ioId handler io).2.settled f = io.settled f := by
  simp only [bind]
  split
  · exact settled_emit_of_not_settles rfl
  · rfl

/-- Whatever the client does with the data, the request is settled once more. -/
theorem settled_transmit (d : DataPtr) (snd : Sending) :
    (a.transmit d (some f) snd io).2.settled f = io.settled f + 1 := by
  cases snd with
  | accepted conn => exact settled_emit_of_settles rfl
  | acceptedByRequest conn => exact settled_emit_of_settles rfl
  | rejected =>
    have hcall : Outcall.settles f (.handler f none) = true := by
      simp only [Outcall.settles, decide_true, Option.isNone_none, Bool.and_self]
    have herror : (if a.errorFlag then io else io.emit (.noSuitableClient d)).settled f =
        io.settled f := by
      split
      · rfl
      · exact settled_emit_of_not_settles rfl
    simp only [transmit]
    rw [settled_emit_of_settles hcall, herror]

theorem settled_performIo (d : DataPtr) (ioId : IoId) (snd : Sending) :
    (a.performIo d ioId (some f) snd io).2.settled f = io.settled f + 1 := by
  simp only [performIo]
  rw [settled_transmit, settled_bind]

end ClientTcpAdapter

/-- A map that is not stopped settles a request once. -/
theorem ClientTcpMap.settled_performIo {m : ClientTcpMap} (hstop : m.stopFlag = false)
    (d : DataPtr) (id : IoId) (f : Handler) (snd : Sending) :
    (m.performIo d id (some f) snd).io.settled f = m.io.settled f + 1 := by
  rw [performIo_of_running hstop]
  show (ClientTcpAdapter.performIo d id (some f) snd _ (m.upsert_ id).1.io).2.settled f = _
  rw [ClientTcpAdapter.settled_performIo, settled_of_lifecycle (m.upsert_logs id)]

/-- **What becomes of a request.** In every state the object can reach, a `perform_io` with
    a handler is accounted for exactly if the object is suspended or its map is not
    stopped. -/
theorem ClientTcp.accounted_iff (refuses : ℕ → Bool) (statistics : Bool) (acts : List Act)
    (d : DataPtr) (id : IoId) (f : Handler) (snd : Sending) :
    let c := run step (initialized refuses statistics) acts
    Accounted f (step c (.performIo d id (some f) snd)).clientMap.io.outcalls ↔
      c.suspended = true ∨ c.clientMap.stopFlag = false := by
  intro c
  have hquiet : c.quiet.clientMap.io.settled f = 0 := rfl
  show (step c (.performIo d id (some f) snd)).clientMap.io.settled f = 1 ↔ _
  cases hsusp : c.suspended with
  | true =>
    have hstep : step c (.performIo d id (some f) snd) = c.quiet.emit (.handler f none) :=
      if_pos hsusp
    have hcall : Outcall.settles f (.handler f none) = true := by
      simp only [Outcall.settles, decide_true, Option.isNone_none, Bool.and_self]
    rw [hstep]
    refine iff_of_true ?_ (Or.inl rfl)
    show (c.quiet.clientMap.io.emit _).settled f = 1
    rw [settled_emit_of_settles hcall, hquiet]
  | false =>
    have hstep : step c (.performIo d id (some f) snd) =
        c.quiet.mapCall (.performIo d id (some f) snd) :=
      if_neg (Bool.not_eq_true _ ▸ hsusp : ¬ c.quiet.suspended = true)
    rw [hstep]
    show (c.quiet.clientMap.performIo d id (some f) snd).io.settled f = 1 ↔ _
    cases hstop : c.clientMap.stopFlag with
    | true =>
      -- the map returns at once
      have hnothing : c.quiet.clientMap.performIo d id (some f) snd = c.quiet.clientMap :=
        if_pos hstop
      rw [hnothing, hquiet]
      exact iff_of_false (by decide) fun h => by obtain h | h := h <;> cases h
    | false =>
      have hrun : c.quiet.clientMap.stopFlag = false := hstop
      rw [ClientTcpMap.settled_performIo hrun, hquiet]
      exact iff_of_true rfl (Or.inr rfl)

/-- A request to an object that has been stopped. -/
theorem ClientTcp.request_not_accounted :
    ¬ ∀ (refuses : ℕ → Bool) (statistics : Bool) (acts : List Act) (d : DataPtr) (id : IoId)
      (f : Handler) (snd : Sending),
      Accounted f (step (run step (initialized refuses statistics) acts)
        (.performIo d id (some f) snd)).clientMap.io.outcalls := by
  intro hall
  have h := hall (fun _ => false) false [.restart, .stop] none 7 1 .rejected
  exact absurd h (by decide)

end WfcIo

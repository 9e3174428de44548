import WfcIo.Client.Adapter

/-!
# What an adapter does outside itself

Every operation of an adapter records its calls in `Io.outcalls`. Only the shutdown
handler posts a task; all the others leave the tasks and the released sources alone, and
the calls they add are of known kinds.

## Main definitions

- `Io.Logs` — calls of a given kind are added, and nothing that keeps a source alive changes
- `Outcall.Lifecycle` — the calls of starting and destroying an adapter
- `Outcall.Plain` — all calls but the report that several sources use one adapter
-/

namespace WfcIo

/-- `io'` is `io` with more calls recorded, all of them in `P`, and perhaps more
    counter-request callbacks handed out. -/
def Io.Logs (P : Outcall → Prop) (io io' : Io) : Prop :=
  ∃ os counters, io' = { io with outcalls := io.outcalls ++ os, counters } ∧ ∀ o ∈ os, P o

namespace Io.Logs

variable {P Q : Outcall → Prop} {io io' io'' : Io}

theorem refl (P : Outcall → Prop) (io : Io) : Io.Logs P io io :=
  ⟨[], io.counters, by simp, by simp⟩

theorem trans (h : Io.Logs P io io') (h' : Io.Logs P io' io'') : Io.Logs P io io'' := by
  obtain ⟨os, _, rfl, hos⟩ := h
  obtain ⟨os', counters, rfl, hos'⟩ := h'
  refine ⟨os ++ os', counters, by simp, fun o ho => ?_⟩
  exact (List.mem_append.mp ho).elim (hos o) (hos' o)

theorem emit {o : Outcall} (ho : P o) (io : Io) : Io.Logs P io (io.emit o) :=
  ⟨[o], io.counters, rfl, by simpa using ho⟩

theorem lend (P : Outcall → Prop) (io : Io) (cli : ℕ) : Io.Logs P io (io.lend cli) :=
  ⟨[], io.counters ++ [cli], by simp [Io.lend], by simp⟩

theorem mono (h : Io.Logs P io io') (hPQ : ∀ o, P o → Q o) : Io.Logs Q io io' := by
  obtain ⟨os, counters, rfl, hos⟩ := h
  exact ⟨os, counters, rfl, fun o ho => hPQ o (hos o ho)⟩

theorem mem_outcalls (h : Io.Logs P io io') {o : Outcall} (ho : o ∈ io'.outcalls) :
    o ∈ io.outcalls ∨ P o := by
  obtain ⟨os, _, rfl, hos⟩ := h
  exact (List.mem_append.mp ho).imp_right (hos o)

theorem released (h : Io.Logs P io io') : io'.released = io.released := by
  obtain ⟨os, _, rfl, _⟩ := h
  rfl

theorem tasks (h : Io.Logs P io io') : io'.tasks = io.tasks := by
  obtain ⟨os, _, rfl, _⟩ := h
  rfl

end Io.Logs

/-- What starting and destroying adapters reports: errors of `_client->start` to the
    log, and unregistrations to the holders. -/
def Outcall.Lifecycle : Outcall → Prop
  | .startError _ _ => True
  | .unregIo _ _ => True
  | _ => False

/-- The call reports that several sources use one adapter, which ends the process. -/
def Outcall.several : Outcall → Bool
  | .severalSources _ _ => true
  | _ => false

/-- The call is no such report. -/
def Outcall.Plain (o : Outcall) : Prop := o.several = false

theorem Io.Logs.plain (io : Io) {o : Outcall} (ho : o.several = false) :
    Io.Logs Outcall.Plain io (io.emit o) := .emit ho io

theorem Outcall.Lifecycle.plain {o : Outcall} (h : o.Lifecycle) : o.Plain := by
  cases o with
  | severalSources i j => exact h.elim
  | _ => rfl

namespace Holder

variable (h : Holder) (io : Io) (cli : ℕ) (d : DataPtr) (reply : Reply)

theorem regIo_logs : Io.Logs Outcall.Plain io (h.regIo cli io) := by
  cases h with
  | source h => exact .plain io rfl
  | perform p => exact .refl _ io

theorem unregIo_logs : Io.Logs Outcall.Lifecycle io (h.unregIo cli io) := by
  cases h with
  | source h => exact .emit trivial io
  | perform p => exact .refl _ io

theorem performIo_logs : Io.Logs Outcall.Plain io (h.performIo d cli reply io) := by
  cases h with
  | source h =>
    cases reply with
    | connection out => exact .plain io rfl
    | counter x => exact (Io.Logs.lend _ io x).trans (.plain _ rfl)
  | perform p =>
    cases hf : p.handler with
    | some f =>
      simp only [performIo, hf]
      exact .plain io rfl
    | none =>
      simp only [performIo, hf]
      exact .plain io rfl

end Holder

namespace ClientTcpAdapter

variable (a : ClientTcpAdapter) (io : Io)

theorem destroy_logs : Io.Logs Outcall.Lifecycle io (a.destroy io) := by
  simp only [destroy]
  cases a.getHolder io with
  | none => exact .refl _ io
  | some h => exact h.unregIo_logs io a.id

theorem start_logs (opt : ClientTcpConfig) :
    Io.Logs Outcall.Lifecycle io (a.start opt io).2 := by
  unfold start
  dsimp only
  split
  · exact .emit trivial io
  · exact .refl _ io

/-- `reg_io` reports a second source only if the holder id is neither 0 nor the new one. -/
theorem regIo_logs (ioId : IoId) (itf : Option Source) :
    Io.Logs (fun o => o.several = true → 0 < a.holderId ∧ a.holderId ≠ ioId) io
      (a.regIo ioId itf io).2 := by
  have hplain : ∀ o : Outcall, o.Plain →
      (o.several = true → 0 < a.holderId ∧ a.holderId ≠ ioId) := by
    intro o ho hs
    exact absurd (ho.symm.trans hs) Bool.false_ne_true
  unfold regIo
  dsimp only
  by_cases hother : 0 < a.holderId ∧ a.holderId ≠ ioId
  · rw [if_pos hother]
    have hreport : Io.Logs (fun o => o.several = true → 0 < a.holderId ∧ a.holderId ≠ ioId) io
        (io.emit (.severalSources a.holderId ioId)) :=
      .emit (fun _ => hother) io
    refine hreport.trans ?_
    split
    · next pholder _ => exact (pholder.regIo_logs _ a.id).mono hplain
    · exact .refl _ _
  · rw [if_neg hother]
    split
    · next pholder _ => exact (pholder.regIo_logs io a.id).mono hplain
    · exact .refl _ io

theorem bind_logs (ioId : IoId) (handler : Option Handler) :
    Io.Logs Outcall.Plain io (a.bind ioId handler io).2 := by
  simp only [bind]
  split
  · exact .plain io rfl
  · exact .refl _ io

theorem transmit_logs (d : DataPtr) (handler : Option Handler) (snd : Sending) :
    Io.Logs Outcall.Plain io (a.transmit d handler snd io).2 := by
  cases snd with
  | accepted conn => exact .plain io rfl
  | acceptedByRequest conn => exact .plain io rfl
  | rejected =>
    have herror : Io.Logs Outcall.Plain io
        (if a.errorFlag then io else io.emit (.noSuitableClient d)) := by
      split
      · exact .refl _ io
      · exact .plain io rfl
    cases handler with
    | some f => exact herror.trans (.plain _ rfl)
    | none => exact herror

theorem performIo_logs (d : DataPtr) (ioId : IoId) (handler : Option Handler) (snd : Sending) :
    Io.Logs Outcall.Plain io (a.performIo d ioId handler snd io).2 :=
  (a.bind_logs io ioId handler).trans (transmit_logs _ _ d handler snd)

theorem counterReply_logs (d : DataPtr) (snd : Sending) :
    Io.Logs Outcall.Plain io (a.counterReply d snd io).2 := by
  obtain heq | ⟨_, heq⟩ := a.counterReply_cases io d snd
  · rw [heq]
    exact .refl _ io
  · rw [heq]
    exact a.performIo_logs io d a.holderId none snd

theorem input_logs (d : DataPtr) (out : Option Conn) :
    Io.Logs Outcall.Plain io (a.input d out io) := by
  simp only [input]
  split
  · exact .refl _ io
  · split
    · exact .plain io rfl
    · split
      · exact .refl _ io
      · next holder _ =>
        split
        · exact holder.performIo_logs io a.id d _
        · cases out with
          | some c => exact .trans (.plain io rfl) (holder.performIo_logs _ a.id d _)
          | none => exact holder.performIo_logs io a.id d _

theorem connected_logs : Io.Logs Outcall.Plain io (a.connected io) := by
  simp only [connected]
  cases a.options with
  | none => exact .refl _ io
  | some opt =>
    dsimp only
    cases a.getHolder io with
    | none =>
      cases opt.connectHandler with
      | some f => exact .plain io rfl
      | none => exact .refl _ io
    | some holder =>
      have hreg := holder.regIo_logs io a.id
      cases opt.connectHandler with
      | some f => exact hreg.trans (.plain _ rfl)
      | none => exact hreg

/-- The shutdown handler posts a task for a holder that is alive, or none. -/
theorem closed_logs : Io.Logs Outcall.Plain io (a.closed io) ∨
    ∃ holder, a.getHolder io = some holder ∧
      Io.Logs Outcall.Plain (io.post ⟨holder, a.id⟩) (a.closed io) := by
  simp only [closed]
  cases a.options with
  | none => exact Or.inl (.refl _ io)
  | some opt =>
    dsimp only
    cases hh : a.getHolder io with
    | none =>
      refine Or.inl ?_
      cases opt.shutdownHandler with
      | some f => exact .plain io rfl
      | none => exact .refl _ io
    | some holder =>
      refine Or.inr ⟨holder, rfl, ?_⟩
      cases opt.shutdownHandler with
      | some f => exact .plain _ rfl
      | none => exact .refl _ _

end ClientTcpAdapter

end WfcIo

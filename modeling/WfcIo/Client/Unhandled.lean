import WfcIo.Client.Binding
import WfcIo.Foundation.History

/-!
# Wrappers without a handler

`perform_io` with the id 0 makes a wrapper even if there is no handler to wrap, and the callback
for counter requests calls it so when the adapter has no holder id. Inbound data then reach a
wrapper that calls an empty `output_handler_t`.

## Main definitions

- `ClientTcpAdapter.Act.isTraffic` — the calls of a source, inbound data and late replies
- `ClientTcpAdapter.BindsEmpty` — this action makes a wrapper without a handler
- `ClientTcpAdapter.Dismisses` — this action puts away whatever wrapper has the id 0
- `ClientTcpAdapter.Unhandled` — what the history says of the wrapper in place

## Main results

- `ClientTcpAdapter.unhandled_iff` — the history is right
- `ClientTcpAdapter.never_empty_iff` — which runs never call an empty handler
-/

namespace WfcIo.ClientTcpAdapter

open Foundation

/-- A call of a source, inbound data, a late reply to a counter request; or a source is gone. -/
def Act.isTraffic : Act → Bool
  | .regIo _ _ => true
  | .unregIo _ => true
  | .performIo _ _ _ _ => true
  | .input _ _ => true
  | .counterReply _ _ => true
  | .release _ => true
  | _ => false

/-- A new adapter that has been started. -/
def started (refuses : ℕ → Bool) (cli : ℕ) (opt : ClientTcpConfig) : Driven :=
  step (new refuses cli) (.start opt)

/-- The action makes a wrapper without a handler: a `perform_io` with the id 0, or a reply to a
    counter request when the holder id is 0. -/
def BindsEmpty (s : Driven) : Act → Prop
  | .performIo _ ioId handler _ => ioId = 0 ∧ handler = none
  | .counterReply _ _ => s.adapter.id ∈ s.io.counters ∧ s.adapter.holderId = 0
  | _ => False

/-- The action puts away a wrapper that was made for the id 0. -/
def Dismisses : Act → Prop
  | .regIo _ _ => True
  | .unregIo ioId => ioId = 0
  | .performIo _ ioId handler _ => ioId = 0 ∧ handler ≠ none
  | _ => False

/-- A wrapper without a handler has been made, and not been put away since. -/
def Unhandled (s : Driven) (acts : List Act) : Prop :=
  ∃ pre act post, acts = pre ++ act :: post ∧ BindsEmpty (run step s pre) act ∧
    ∀ b ∈ post, ¬ Dismisses b

/-- The step calls no empty `output_handler_t`. -/
def CallsNoEmpty (s : Driven) : Prop := .emptyHandler ∉ s.io.outcalls

/-- The wrapper in place has no handler. -/
def Empty (a : ClientTcpAdapter) : Prop := ∃ p, a.performHolder = some p ∧ p.handler = none

/-- The adapter has been started with the options `opt`, no task is pending, and a wrapper is in
    place exactly if it is the holder; one without a handler was made for the id 0. -/
structure Running (opt : ClientTcpConfig) (s : Driven) : Prop where
  options : s.adapter.options = some opt
  tasks : s.io.tasks = []
  bound : ∀ p, s.adapter.performHolder = some p → s.adapter.holder = some (.perform p)
  unnamed : s.adapter.Empty → s.adapter.holderId = 0

variable {opt : ClientTcpConfig} {s : Driven} {a : ClientTcpAdapter} {io : Io}

/-! ### The wrapper in place -/

theorem getHolder_eq_perform_iff {p : PerformHolder} (htasks : io.tasks = []) :
    a.getHolder io = some (.perform p) ↔
      a.holder = some (.perform p) ∧ a.performHolder = some p := by
  rw [getHolder, Option.filter_eq_some_iff]
  refine and_congr_right fun _ => ?_
  simp [alive, htasks]

/-- A wrapper in place is alive. -/
theorem Running.getHolder (h : Running opt s) {p : PerformHolder}
    (hp : s.adapter.performHolder = some p) : s.adapter.getHolder s.io = some (.perform p) :=
  (getHolder_eq_perform_iff h.tasks).mpr ⟨h.bound p hp, hp⟩

/-- What `perform_io` does to the wrapper. -/
theorem performIo_empty (ioId : IoId) (d : DataPtr) (handler : Option Handler) (snd : Sending)
    (hholder : a.Empty → a.getHolder io ≠ none) :
    (a.performIo d ioId handler snd io).1.Empty ↔
      (ioId = 0 ∧ handler = none) ∨ a.Empty ∧ ¬ (ioId = 0 ∧ handler ≠ none) := by
  obtain ⟨b, hb⟩ := a.performIo_fst io ioId d handler snd
  have hempty : (a.performIo d ioId handler snd io).1.Empty ↔
      if a.wraps ioId handler io then handler = none else a.Empty := by
    rw [hb, bind_fst]
    split
    · simp [Empty, wrap, makePerformHolder]
    · exact Iff.rfl
  rw [hempty]
  by_cases hid : ioId = 0
  · have hwraps : a.wraps ioId handler io = true := by simp [wraps, hid]
    rw [if_pos hwraps]
    cases handler <;> simp [hid]
  · split
    · next hwraps =>
      -- there was no holder, so there is no wrapper to lose
      have hnot : ¬ a.Empty := by
        intro he
        have hsome := Option.isNone_eq_false_iff.mpr
          (Option.isSome_iff_ne_none.mpr (hholder he))
        simp [wraps, hsome, hid] at hwraps
      have hhandler : handler ≠ none := by
        rintro rfl
        simp [wraps, hid] at hwraps
      simp [hid, hnot, hhandler]
    · simp [hid]

/-- **One step.** A wrapper without a handler is in place after a step exactly if the step has
    made one, or one was in place and the step has not put it away. -/
theorem empty_step (h : Running opt s) {act : Act} (hact : act.isTraffic = true) :
    (step s act).adapter.Empty ↔
      BindsEmpty s act ∨ s.adapter.Empty ∧ ¬ Dismisses act := by
  have hgetHolder : s.adapter.Empty → s.adapter.getHolder { s.io with outcalls := [] } ≠ none := by
    rintro ⟨p, hp, _⟩
    have hget : s.adapter.getHolder { s.io with outcalls := [] } = some (.perform p) :=
      h.getHolder hp
    rw [hget]
    exact Option.some_ne_none _
  cases act with
  | regIo ioId itf => simp [step, exec, regIo, Empty, BindsEmpty, Dismisses]
  | unregIo ioId =>
    simp only [step, exec, unregIo, BindsEmpty, Dismisses, false_or]
    split
    · next hne =>
      exact ⟨fun he => ⟨he, fun hz => hne (by rw [h.unnamed he, hz])⟩, fun he => he.1⟩
    · next heq =>
      refine iff_of_false ?_ ?_
      · rintro ⟨p, hp, _⟩
        cases hp
      · rintro ⟨he, hz⟩
        apply hz
        rw [← not_not.mp heq, h.unnamed he]
  | performIo d ioId handler snd => exact performIo_empty ioId d handler snd hgetHolder
  | input d out => simp [step, exec, BindsEmpty, Dismisses]
  | counterReply d snd =>
    show (s.adapter.counterReply d snd _).1.Empty ↔ _
    simp only [counterReply, BindsEmpty, Dismisses, not_false_eq_true, and_true]
    split
    · next hmem =>
      rw [performIo_empty s.adapter.holderId d none snd hgetHolder]
      have hmem' : s.adapter.id ∈ s.io.counters := hmem
      simp [hmem']
    · next hmem =>
      have hmem' : s.adapter.id ∉ s.io.counters := hmem
      simp [hmem']
  | release k => simp [step, exec, BindsEmpty, Dismisses]
  | _ => cases hact

theorem performIo_running (h : Running opt s) (d : DataPtr) (ioId : IoId)
    (handler : Option Handler) (snd : Sending) :
    Running opt (step s (.performIo d ioId handler snd)) := by
  obtain ⟨a, io⟩ := s
  obtain ⟨b, hb⟩ := a.performIo_fst { io with outcalls := [] } ioId d handler snd
  rw [bind_fst] at hb
  have hadapter : (step ⟨a, io⟩ (.performIo d ioId handler snd)).adapter =
      (a.performIo d ioId handler snd { io with outcalls := [] }).1 := rfl
  refine ⟨?_, ?_, ?_, ?_⟩
  · rw [hadapter, hb]
    split
    · exact h.options
    · exact h.options
  · exact ((a.performIo_logs _ d ioId handler snd).tasks).trans h.tasks
  · rw [hadapter, hb]
    split
    · intro p hp
      exact congrArg (fun p => p.map Holder.perform) hp
    · exact h.bound
  · rw [hadapter, hb]
    split
    · next hwraps =>
      rintro ⟨p, hp, hhandler⟩
      obtain rfl : a.makePerformHolder handler = p := Option.some.inj hp
      obtain rfl : handler = none := hhandler
      simp only [wraps, Option.isSome_none, Bool.false_or, Bool.and_eq_true, beq_iff_eq] at hwraps
      exact hwraps.2
    · exact h.unnamed

theorem Running.step (h : Running opt s) {act : Act} (hact : act.isTraffic = true) :
    Running opt (step s act) := by
  obtain ⟨a, io⟩ := s
  cases act with
  | regIo ioId itf =>
    exact ⟨h.options, (a.regIo_logs _ ioId itf).tasks.trans h.tasks, fun p hp => (by cases hp),
      fun ⟨p, hp, _⟩ => (by cases hp)⟩
  | unregIo ioId =>
    simp only [ClientTcpAdapter.step, exec, unregIo]
    split
    · exact ⟨h.options, h.tasks, h.bound, h.unnamed⟩
    · exact ⟨h.options, h.tasks, fun p hp => (by cases hp), fun _ => rfl⟩
  | performIo d ioId handler snd => exact performIo_running h d ioId handler snd
  | input d out =>
    exact ⟨h.options, (a.input_logs _ d out).tasks.trans h.tasks, h.bound, h.unnamed⟩
  | counterReply d snd =>
    obtain heq | ⟨_, heq⟩ := a.counterReply_cases { io with outcalls := [] } d snd
    · simp only [ClientTcpAdapter.step, exec, heq]
      exact ⟨h.options, h.tasks, h.bound, h.unnamed⟩
    · have hstep : ClientTcpAdapter.step ⟨a, io⟩ (.counterReply d snd) =
          ClientTcpAdapter.step ⟨a, io⟩ (.performIo d a.holderId none snd) := by
        simp only [ClientTcpAdapter.step, exec, heq]
      rw [hstep]
      exact performIo_running h d a.holderId none snd
  | release k => exact ⟨h.options, h.tasks, h.bound, h.unnamed⟩
  | _ => cases hact

/-! ### Who calls an empty handler -/

theorem regIo_real (a : ClientTcpAdapter) (io : Io) (ioId : IoId) (itf : Option Source) :
    Io.Logs (· ≠ .emptyHandler) io (a.regIo ioId itf io).2 := by
  have hcheck : Io.Logs (· ≠ .emptyHandler) io
      (if 0 < a.holderId ∧ a.holderId ≠ ioId then io.emit (.severalSources a.holderId ioId)
        else io) := by
    split
    · exact .emit (fun h => by cases h) io
    · exact .refl _ io
  unfold regIo
  dsimp only
  generalize (if 0 < a.holderId ∧ a.holderId ≠ ioId then
    io.emit (.severalSources a.holderId ioId) else io) = io' at hcheck ⊢
  refine hcheck.trans ?_
  split
  · next holder _ =>
    cases holder with
    | source k => exact .emit (fun h => by cases h) io'
    | perform p => exact .refl _ io'
  · exact .refl _ io'

theorem performIo_real (a : ClientTcpAdapter) (io : Io) (d : DataPtr) (ioId : IoId)
    (handler : Option Handler) (snd : Sending) :
    Io.Logs (· ≠ .emptyHandler) io (a.performIo d ioId handler snd io).2 := by
  have hbind : Io.Logs (· ≠ .emptyHandler) io (a.bind ioId handler io).2 := by
    simp only [bind]
    split
    · exact .emit (fun h => by cases h) io
    · exact .refl _ io
  rw [performIo]
  generalize a.bind ioId handler io = r at hbind ⊢
  obtain ⟨a', io'⟩ := r
  refine hbind.trans ?_
  cases snd with
  | accepted conn => exact .emit (fun h => by cases h) io'
  | acceptedByRequest conn => exact .emit (fun h => by cases h) io'
  | rejected =>
    have herror : Io.Logs (· ≠ .emptyHandler) io'
        (if a'.errorFlag then io' else io'.emit (.noSuitableClient d)) := by
      split
      · exact .refl _ io'
      · exact .emit (fun h => by cases h) io'
    -- here the code asks whether there is a handler
    cases handler with
    | some f => exact herror.trans (.emit (fun h => by cases h) _)
    | none => exact herror

theorem counterReply_real (a : ClientTcpAdapter) (io : Io) (d : DataPtr) (snd : Sending) :
    Io.Logs (· ≠ .emptyHandler) io (a.counterReply d snd io).2 := by
  obtain heq | ⟨_, heq⟩ := a.counterReply_cases io d snd
  · rw [heq]
    exact .refl _ io
  · rw [heq]
    exact performIo_real a io d a.holderId none snd

/-- Inbound data call an empty handler exactly if they reach a wrapper that has none. -/
theorem input_callsNoEmpty (h : Running opt s) (d : DataPtr) (out : Option Conn) :
    CallsNoEmpty (step s (.input d out)) ↔ (opt.inputHandler = none → ¬ s.adapter.Empty) := by
  obtain ⟨a, io⟩ := s
  have hholder : ∀ p, a.getHolder { io with outcalls := [] } = some (.perform p) ↔
      a.performHolder = some p := by
    intro p
    refine ⟨fun hget => ?_, fun hp => ?_⟩
    · exact ((@getHolder_eq_perform_iff a { io with outcalls := [] } p h.tasks).mp hget).2
    · exact (getHolder_eq_perform_iff h.tasks).mpr ⟨h.bound p hp, hp⟩
  have hnot : (∀ p, a.getHolder { io with outcalls := [] } ≠ some (.perform p)) → ¬ a.Empty := by
    rintro hget ⟨p, hp, _⟩
    exact hget p ((hholder p).mpr hp)
  have hoptions : a.options = some opt := h.options
  simp only [CallsNoEmpty, step, exec, input, hoptions]
  cases hinput : opt.inputHandler with
  | some f => simp
  | none =>
    simp only [forall_const]
    cases hget : a.getHolder { io with outcalls := [] } with
    | none =>
      have hempty : ¬ a.Empty := hnot (by simp [hget])
      simp [hempty]
    | some holder =>
      cases holder with
      | source k =>
        have hempty : ¬ a.Empty := hnot (by simp [hget])
        cases a.keepAlive <;> cases out <;> simp [hempty, Holder.performIo, Io.lend]
      | perform p =>
        have hp := (hholder p).mp hget
        cases hhandler : p.handler with
        | some f =>
          cases a.keepAlive <;> cases out <;> simp [Empty, hp, hhandler, Holder.performIo]
        | none =>
          cases a.keepAlive <;> cases out <;> simp [Empty, hp, hhandler, Holder.performIo]

/-- Only inbound data do. -/
theorem callsNoEmpty_iff (h : Running opt s) {act : Act} (hact : act.isTraffic = true) :
    CallsNoEmpty (step s act) ↔
      ((∃ d out, act = .input d out) → opt.inputHandler = none → ¬ s.adapter.Empty) := by
  have hreal : ∀ {io' : Io}, Io.Logs (· ≠ .emptyHandler) { s.io with outcalls := [] } io' →
      .emptyHandler ∉ io'.outcalls := by
    intro io' hlogs hmem
    obtain hmem | hne := hlogs.mem_outcalls hmem
    · cases hmem
    · exact hne rfl
  cases act with
  | input d out =>
    rw [input_callsNoEmpty h]
    exact ⟨fun hc _ => hc, fun hc => hc ⟨d, out, rfl⟩⟩
  | regIo ioId itf =>
    exact iff_of_true (hreal (regIo_real s.adapter _ ioId itf)) fun ⟨d, out, heq⟩ => by cases heq
  | unregIo ioId =>
    exact iff_of_true (hreal (.refl _ _)) fun ⟨d, out, heq⟩ => by cases heq
  | performIo d ioId handler snd =>
    exact iff_of_true (hreal (performIo_real s.adapter _ d ioId handler snd))
      fun ⟨d, out, heq⟩ => by cases heq
  | counterReply d snd =>
    exact iff_of_true (hreal (counterReply_real s.adapter _ d snd))
      fun ⟨d, out, heq⟩ => by cases heq
  | release k =>
    exact iff_of_true (fun hmem => by cases hmem) fun ⟨d, out, heq⟩ => by cases heq
  | _ => cases hact

/-! ### Runs -/

variable {refuses : ℕ → Bool} {cli : ℕ} {acts : List Act}

theorem running_started : Running opt (started refuses cli opt) := by
  have hlogs := ClientTcpAdapter.start_logs { id := cli } { refuses } opt
  exact ⟨rfl, hlogs.tasks, fun p hp => (by cases hp), fun ⟨p, hp, _⟩ => (by cases hp)⟩

theorem running_run (hacts : ∀ act ∈ acts, act.isTraffic = true) :
    Running opt (run step (started refuses cli opt) acts) := by
  apply run_invariant_along (G := fun _ act => act.isTraffic = true)
  · exact fun s act hact h => h.step hact
  · exact running_started
  · exact along_of_forall hacts

/-- **The history.** A wrapper without a handler is in place exactly if one has been made, and
    not been put away since. -/
theorem unhandled_iff (hacts : ∀ act ∈ acts, act.isTraffic = true) :
    (run step (started refuses cli opt) acts).adapter.Empty ↔
      Unhandled (started refuses cli opt) acts := by
  apply flag_iff (F := fun s : Driven => s.adapter.Empty)
  · rintro ⟨p, hp, _⟩
    cases hp
  · intro pre act hpre
    have hrunning : Running opt (run step (started refuses cli opt) pre) :=
      running_run fun b hb => hacts b (hpre.subset (List.mem_append_left _ hb))
    exact empty_step hrunning (hacts act (hpre.subset (List.mem_append_right _ List.mem_cons_self)))

/-- **Empty handlers.** A run calls no empty handler exactly if, whenever data come in and the
    options have no input handler for them, no wrapper without a handler is in place. -/
theorem never_empty_iff (refuses : ℕ → Bool) (cli : ℕ) (opt : ClientTcpConfig) (acts : List Act)
    (hacts : ∀ act ∈ acts, act.isTraffic = true) :
    AtEach (fun pre act => CallsNoEmpty (step (run step (started refuses cli opt) pre) act)) acts ↔
      AtEach (fun pre act => (∃ d out, act = .input d out) → opt.inputHandler = none →
        ¬ Unhandled (started refuses cli opt) pre) acts := by
  apply atEach_congr
  intro pre act hpre _
  have hpre' : ∀ b ∈ pre, b.isTraffic = true :=
    fun b hb => hacts b (hpre.subset (List.mem_append_left _ hb))
  have hact := hacts act (hpre.subset (List.mem_append_right _ List.mem_cons_self))
  rw [callsNoEmpty_iff (running_run hpre') hact, unhandled_iff hpre']

/-- Data come in after a registration has put the wrapper away. -/
theorem never_empty_five :
    AtEach (fun pre act =>
        CallsNoEmpty (step (run step (started (fun _ => false) 1 {}) pre) act))
      [.performIo (some [1]) 0 none (.accepted 3), .regIo 7 (some 5), .input (some [2]) none] := by
  refine (never_empty_iff (fun _ => false) 1 {} _ (by decide)).mpr ?_
  rintro pre act post hacts ⟨d, out, rfl⟩ _ hunhandled
  match pre with
  | [] => cases hacts
  | [_] => cases hacts
  | [_, _] =>
    cases hacts
    obtain ⟨p, hp, _⟩ := (unhandled_iff (by decide)).mpr hunhandled
    cases hp
  | _ :: _ :: _ :: pre =>
    have hlength := congrArg List.length hacts
    simp at hlength

/-- A request without an id and without a handler, and then its answer. -/
theorem empty_handler :
    ¬ ∀ (refuses : ℕ → Bool) (cli : ℕ) (opt : ClientTcpConfig) (acts : List Act),
      (∀ act ∈ acts, act.isTraffic = true) →
      AtEach (fun pre act => CallsNoEmpty (step (run step (started refuses cli opt) pre) act))
        acts := by
  intro hall
  have hempty := hall (fun _ => false) 1 {}
    [.performIo (some [1]) 0 none (.accepted 3), .input (some [2]) none] (by decide)
    [.performIo (some [1]) 0 none (.accepted 3)] (.input (some [2]) none) [] rfl
  exact hempty (by decide)

end WfcIo.ClientTcpAdapter

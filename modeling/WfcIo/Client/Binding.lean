import WfcIo.Client.Calls
import WfcIo.Foundation.Run

/-!
# How long an adapter is bound to a source

Runs of one adapter. `unreg_io` clears `_holder_id` and `_perform_holder` but not the
weak pointer `_holder`, so the event handlers go on calling the source until it is
gone or something else is bound in its place.

## Main definitions

- `ClientTcpAdapter.Act`, `ClientTcpAdapter.step` — the calls and events of one adapter
- `ClientTcpAdapter.Rebinds` — the actions that bind a running adapter anew
- `Outcall.reaches` — the calls outside that reach a source

## Main results

- `ClientTcpAdapter.getHolder_run_iff` — whether a binding lasts to the end of a run
- `ClientTcpAdapter.unreg_silences_iff` — when `unreg_io` ends the deliveries
-/

namespace WfcIo

open Foundation

/-- The call reaches the source `h`: at once, or by a task that has been posted. -/
def Outcall.reaches (h : Source) : Outcall → Bool
  | .regIo h' _ => h' = h
  | .unregIo h' _ => h' = h
  | .performIo h' _ _ _ => h' = h
  | .post t => t.holder = .source h
  | _ => false

/-- A recorded call reaches the source. -/
def Io.Reaches (h : Source) (io : Io) : Prop := ∃ o ∈ io.outcalls, o.reaches h = true

/-- Somebody still owns the source. -/
def Io.sourceAlive (h : Source) (io : Io) : Bool :=
  decide (h ∉ io.released) || io.tasks.any (fun t => t.holder = .source h)

namespace ClientTcpAdapter

/-- A call of one adapter, an event of its connections, or an event outside. -/
inductive Act
  | start (opt : ClientTcpConfig)
  | stop
  | regIo (ioId : IoId) (itf : Option Source)
  | unregIo (ioId : IoId)
  | performIo (d : DataPtr) (ioId : IoId) (handler : Option Handler) (snd : Sending)
  | input (d : DataPtr) (out : Option Conn)
  | connected
  | closed
  | counterReply (d : DataPtr) (snd : Sending)
  | runTask (n : ℕ)
  | release (h : Source)
  deriving DecidableEq

/-- An adapter together with what is outside it. -/
structure Driven where
  adapter : ClientTcpAdapter
  io : Io := {}

def exec (a : ClientTcpAdapter) (io : Io) : Act → ClientTcpAdapter × Io
  | .start opt => a.start opt io
  | .stop => (a.stop, io)
  | .regIo ioId itf => a.regIo ioId itf io
  | .unregIo ioId => (a.unregIo ioId, io)
  | .performIo d ioId handler snd => a.performIo d ioId handler snd io
  | .input d out => (a, a.input d out io)
  | .connected => (a, a.connected io)
  | .closed => (a, a.closed io)
  | .counterReply d snd => a.counterReply d snd io
  | .runTask n => (a, io.runTask n)
  | .release h => (a, io.release h)

/-- One action; `io.outcalls` is then what it has called outside. -/
def step (s : Driven) (act : Act) : Driven :=
  let r := s.adapter.exec { s.io with outcalls := [] } act
  ⟨r.1, r.2⟩

/-- The events of the connections. -/
def Act.isEvent : Act → Bool
  | .input _ _ => true
  | .connected => true
  | .closed => true
  | _ => false

/-- The event looks up the holder: the adapter has been started, and inbound data is
    not taken by an input handler of the options. -/
def Consults (a : ClientTcpAdapter) : Act → Prop
  | .input _ _ => ∃ opt, a.options = some opt ∧ opt.inputHandler = none
  | .connected => a.options ≠ none
  | .closed => a.options ≠ none
  | _ => False

/-- The action binds the adapter anew although its source is there: every `reg_io` does,
    and a `perform_io` without an id. -/
def Rebinds (s : Driven) : Act → Prop
  | .regIo _ _ => True
  | .performIo _ ioId _ _ => ioId = 0
  | .counterReply _ _ => s.adapter.id ∈ s.io.counters ∧ s.adapter.holderId = 0
  | _ => False

/-! ### Sources come to an end once -/

section Alive

variable {h : Source} {io io' : Io}

theorem sourceAlive_iff :
    io.sourceAlive h = true ↔ h ∉ io.released ∨ ∃ t ∈ io.tasks, t.holder = .source h := by
  simp [Io.sourceAlive]

theorem sourceAlive_of_logs {P : Outcall → Prop} (hlogs : Io.Logs P io io') :
    io'.sourceAlive h = io.sourceAlive h := by
  simp only [Io.sourceAlive]
  rw [hlogs.released, hlogs.tasks]

theorem getHolder_eq_source_iff {a : ClientTcpAdapter} :
    a.getHolder io = some (.source h) ↔
      a.holder = some (.source h) ∧ io.sourceAlive h = true := by
  simp only [getHolder]
  rw [Option.filter_eq_some_iff]
  rfl

/-- A source that is gone stays gone: a task is only posted for a holder that is there. -/
theorem sourceAlive_of_step {s : Driven} {act : Act}
    (halive : (step s act).io.sourceAlive h = true) : s.io.sourceAlive h = true := by
  obtain ⟨a, io⟩ := s
  have hquiet : Io.sourceAlive h { io with outcalls := [] } = io.sourceAlive h := rfl
  show io.sourceAlive h = true
  rw [← hquiet]
  cases act with
  | start opt => rwa [← sourceAlive_of_logs (a.start_logs _ opt)]
  | stop => exact halive
  | regIo ioId itf => rwa [← sourceAlive_of_logs (a.regIo_logs _ ioId itf)]
  | unregIo ioId => exact halive
  | performIo d ioId handler snd =>
    rwa [← sourceAlive_of_logs (a.performIo_logs _ d ioId handler snd)]
  | input d out => rwa [← sourceAlive_of_logs (a.input_logs _ d out)]
  | connected => rwa [← sourceAlive_of_logs (a.connected_logs _)]
  | counterReply d snd => rwa [← sourceAlive_of_logs (a.counterReply_logs _ d snd)]
  | closed =>
    obtain hlogs | ⟨holder, hholder, hlogs⟩ := a.closed_logs { io with outcalls := [] }
    · rwa [← sourceAlive_of_logs hlogs]
    · have hpost : Io.sourceAlive h (Io.post { io with outcalls := [] } ⟨holder, a.id⟩) = true := by
        rw [← sourceAlive_of_logs hlogs]
        exact halive
      obtain hrel | ⟨t, ht, hth⟩ := sourceAlive_iff.mp hpost
      · exact sourceAlive_iff.mpr (Or.inl hrel)
      · obtain ht | ht := List.mem_append.mp ht
        · exact sourceAlive_iff.mpr (Or.inr ⟨t, ht, hth⟩)
        · rw [List.mem_singleton.mp ht] at hth
          have hsource : a.getHolder { io with outcalls := [] } = some (.source h) :=
            hholder.trans (congrArg some hth)
          exact (getHolder_eq_source_iff.mp hsource).2
  | runTask n =>
    have hrun : Io.sourceAlive h (Io.runTask n { io with outcalls := [] }) = true := halive
    simp only [Io.runTask] at hrun
    split at hrun
    · exact hrun
    · next t _ =>
      rw [sourceAlive_of_logs (t.holder.unregIo_logs _ t.cli)] at hrun
      refine sourceAlive_iff.mpr ((sourceAlive_iff.mp hrun).imp (fun h => h) ?_)
      rintro ⟨t', ht', hholder⟩
      exact ⟨t', List.mem_of_mem_eraseIdx ht', hholder⟩
  | release k =>
    refine sourceAlive_iff.mpr ((sourceAlive_iff.mp halive).imp (fun hrel hmem => ?_) fun h => h)
    exact hrel (List.mem_append_left _ hmem)

theorem sourceAlive_of_run {s : Driven} {acts : List Act}
    (halive : (run step s acts).io.sourceAlive h = true) : s.io.sourceAlive h = true := by
  induction acts generalizing s with
  | nil => exact halive
  | cons act acts ih => exact sourceAlive_of_step (ih halive)

end Alive

/-! ### What one step does to the binding -/

section Binding

variable {h : Source} {s : Driven} {act : Act}

theorem performIo_zero_holder (a : ClientTcpAdapter) (io : Io) (d : DataPtr)
    (handler : Option Handler) (snd : Sending) :
    (a.performIo d 0 handler snd io).1.holder =
      some (.perform (a.makePerformHolder handler)) := by
  have hwraps : a.wraps 0 handler io = true := by simp [wraps]
  rw [performIo_holder, if_pos hwraps]

/-- A source that is bound and alive stays bound unless the step binds the adapter anew. -/
theorem bound_step (hholder : s.adapter.holder = some (.source h)) (hid : s.adapter.holderId = 0)
    (halive : s.io.sourceAlive h = true) (hact : ¬ Rebinds s act) :
    (step s act).adapter.holder = some (.source h) ∧ (step s act).adapter.holderId = 0 := by
  obtain ⟨a, io⟩ := s
  cases act with
  | regIo ioId itf => exact absurd trivial hact
  | unregIo ioId =>
    refine ⟨(a.unregIo_holder ioId).trans hholder, (a.unregIo_holderId ioId).trans ?_⟩
    split
    · rfl
    · exact hid
  | performIo d ioId handler snd =>
    have hget : a.getHolder { io with outcalls := [] } = some (.source h) :=
      getHolder_eq_source_iff.mpr ⟨hholder, halive⟩
    have hne : ioId ≠ 0 := hact
    have hwraps : ¬ a.wraps ioId handler { io with outcalls := [] } = true := by
      simp [wraps, hget, hne]
    refine ⟨(performIo_holder _ _ _ _ _ _).trans ?_, (performIo_holderId _ _ _ _ _ _).trans ?_⟩
    · rw [if_neg hwraps]
      exact hholder
    · rw [if_neg hwraps]
      exact hid
  | counterReply d snd =>
    have hnot : a.id ∉ io.counters := fun hmem => hact ⟨hmem, hid⟩
    have hsame : a.counterReply d snd { io with outcalls := [] } =
        (a, { io with outcalls := [] }) := if_neg hnot
    show (a.counterReply d snd _).1.holder = _ ∧ (a.counterReply d snd _).1.holderId = 0
    rw [hsame]
    exact ⟨hholder, hid⟩
  | _ => exact ⟨hholder, hid⟩

/-- An action that binds the adapter anew, other than a registration of `h`. -/
theorem rebinds_step (hact : Rebinds s act) (hne : ∀ k, act ≠ .regIo k (some h)) :
    (step s act).adapter.holder ≠ some (.source h) := by
  obtain ⟨a, io⟩ := s
  cases act with
  | regIo ioId itf =>
    intro heq
    have hmap : itf.map Holder.source = some (.source h) := heq
    obtain ⟨h', rfl, hh⟩ := Option.map_eq_some_iff.mp hmap
    cases hh
    exact hne ioId rfl
  | performIo d ioId handler snd =>
    obtain rfl : ioId = 0 := hact
    intro heq
    have hperform := performIo_zero_holder a { io with outcalls := [] } d handler snd
    cases hperform.symm.trans heq
  | counterReply d snd =>
    obtain ⟨hmem, hid⟩ := hact
    have hsame : a.counterReply d snd { io with outcalls := [] } =
        a.performIo d 0 none snd { io with outcalls := [] } := by
      rw [← hid]
      exact if_pos hmem
    intro heq
    have hperform := performIo_zero_holder a { io with outcalls := [] } d none snd
    rw [← hsame] at hperform
    cases hperform.symm.trans heq
  | _ => exact hact.elim

/-- Only `reg_io` binds a source. -/
theorem unbound_step (hholder : s.adapter.holder ≠ some (.source h))
    (hne : ∀ k, act ≠ .regIo k (some h)) :
    (step s act).adapter.holder ≠ some (.source h) := by
  obtain ⟨a, io⟩ := s
  have hperform : ∀ d ioId handler snd (io : Io),
      (a.performIo d ioId handler snd io).1.holder ≠ some (.source h) := by
    intro d ioId handler snd io
    rw [performIo_holder]
    split
    · exact fun heq => by cases heq
    · exact hholder
  cases act with
  | regIo ioId itf => exact rebinds_step (s := ⟨a, io⟩) trivial hne
  | unregIo ioId => exact (a.unregIo_holder ioId).trans_ne hholder
  | performIo d ioId handler snd => exact hperform d ioId handler snd _
  | counterReply d snd =>
    show (a.counterReply d snd _).1.holder ≠ _
    obtain heq | ⟨_, heq⟩ := a.counterReply_cases { io with outcalls := [] } d snd
    · rw [heq]
      exact hholder
    · rw [heq]
      exact hperform d a.holderId none snd _
  | _ => exact hholder

theorem unbound_run {acts : List Act} (hholder : s.adapter.holder ≠ some (.source h))
    (hne : ∀ k, .regIo k (some h) ∉ acts) :
    (run step s acts).adapter.holder ≠ some (.source h) := by
  induction acts generalizing s with
  | nil => exact hholder
  | cons act acts ih =>
    refine ih (unbound_step hholder fun k heq => ?_) fun k hk => ?_
    · exact hne k (heq ▸ List.mem_cons_self)
    · exact hne k (List.mem_cons_of_mem _ hk)

/-- **How long a binding lasts.** An unregistered source that is not registered again is
    the holder at the end of a run exactly if it is still there and no step has bound
    the adapter anew. -/
theorem getHolder_run_iff {acts : List Act} (hholder : s.adapter.holder = some (.source h))
    (hid : s.adapter.holderId = 0) (hne : ∀ k, .regIo k (some h) ∉ acts) :
    (run step s acts).adapter.getHolder (run step s acts).io = some (.source h) ↔
      (run step s acts).io.sourceAlive h = true ∧
        Along step (fun s act => ¬ Rebinds s act) s acts := by
  induction acts generalizing s with
  | nil =>
    rw [getHolder_eq_source_iff]
    exact ⟨fun hb => ⟨hb.2, trivial⟩, fun hb => ⟨hholder, hb.1⟩⟩
  | cons act acts ih =>
    have hact : ∀ k, act ≠ .regIo k (some h) := fun k heq => hne k (heq ▸ List.mem_cons_self)
    have hacts : ∀ k, .regIo k (some h) ∉ acts := fun k hk => hne k (List.mem_cons_of_mem _ hk)
    rw [run_cons, along_cons]
    by_cases hre : Rebinds s act
    · -- `h` is lost in this step, and nothing brings it back
      have hlost := unbound_run (rebinds_step hre hact) hacts
      exact iff_of_false (fun hb => hlost (getHolder_eq_source_iff.mp hb).1) fun hb => hb.2.1 hre
    · by_cases halive : s.io.sourceAlive h = true
      · obtain ⟨hholder', hid'⟩ := bound_step hholder hid halive hre
        rw [ih hholder' hid' hacts]
        exact and_congr Iff.rfl ⟨fun hb => ⟨hre, hb⟩, fun hb => hb.2⟩
      · have hgone : ¬ (run step (step s act) acts).io.sourceAlive h = true :=
          fun hb => halive (sourceAlive_of_step (sourceAlive_of_run hb))
        exact iff_of_false (fun hb => hgone (getHolder_eq_source_iff.mp hb).2) fun hb => hgone hb.1

end Binding

/-! ### Events -/

section Reaches

variable {h : Source} {io : Io} {o : Outcall}

@[simp] theorem emit_reaches : (io.emit o).Reaches h ↔ io.Reaches h ∨ o.reaches h = true := by
  simp [Io.Reaches, or_and_right, exists_or]

@[simp] theorem post_reaches {t : Task} :
    (io.post t).Reaches h ↔ io.Reaches h ∨ t.holder = .source h := by
  simp [Io.Reaches, or_and_right, exists_or, Outcall.reaches]

@[simp] theorem lend_reaches {cli : ℕ} : (io.lend cli).Reaches h ↔ io.Reaches h := Iff.rfl

theorem regIo_reaches {holder : Holder} {cli : ℕ} :
    (holder.regIo cli io).Reaches h ↔ io.Reaches h ∨ holder = .source h := by
  cases holder <;> simp [Holder.regIo, Outcall.reaches]

theorem performIo_reaches {holder : Holder} {d : DataPtr} {cli : ℕ} {reply : Reply} :
    (holder.performIo d cli reply io).Reaches h ↔ io.Reaches h ∨ holder = .source h := by
  cases holder with
  | source k => cases reply <;> simp [Holder.performIo, Outcall.reaches]
  | perform p => cases hp : p.handler <;> simp [Holder.performIo, hp, Outcall.reaches]

variable {a : ClientTcpAdapter}

theorem input_reaches {d : DataPtr} {out : Option Conn} :
    (a.input d out io).Reaches h ↔ io.Reaches h ∨
      Consults a (.input d out) ∧ a.getHolder io = some (.source h) := by
  simp only [input, Consults]
  cases a.options with
  | none => simp
  | some opt =>
    cases hin : opt.inputHandler with
    | some f => simp [hin, Outcall.reaches]
    | none =>
      cases a.getHolder io with
      | none => simp [hin]
      | some holder =>
        cases a.keepAlive <;> cases out <;> simp [hin, performIo_reaches, Outcall.reaches]

theorem connected_reaches :
    (a.connected io).Reaches h ↔ io.Reaches h ∨
      Consults a .connected ∧ a.getHolder io = some (.source h) := by
  simp only [connected, Consults]
  cases a.options with
  | none => simp
  | some opt =>
    cases a.getHolder io <;> cases hf : opt.connectHandler <;>
      simp [hf, regIo_reaches, Outcall.reaches]

theorem closed_reaches :
    (a.closed io).Reaches h ↔ io.Reaches h ∨
      Consults a .closed ∧ a.getHolder io = some (.source h) := by
  simp only [closed, Consults]
  cases a.options with
  | none => simp
  | some opt =>
    cases a.getHolder io <;> cases hf : opt.shutdownHandler <;> simp [hf, Outcall.reaches]

end Reaches

/-- An event reaches exactly the source that is the holder, if it looks the holder up. -/
theorem event_reaches_iff {h : Source} {s : Driven} {ev : Act} (hev : ev.isEvent = true) :
    (step s ev).io.Reaches h ↔
      Consults s.adapter ev ∧ s.adapter.getHolder s.io = some (.source h) := by
  have hquiet : ¬ Io.Reaches h { s.io with outcalls := [] } := by
    rintro ⟨o, ho, _⟩
    cases ho
  cases ev with
  | input d out => exact input_reaches.trans (or_iff_right hquiet)
  | connected => exact connected_reaches.trans (or_iff_right hquiet)
  | closed => exact closed_reaches.trans (or_iff_right hquiet)
  | _ => cases hev

/-! ### `unreg_io` -/

/-- A new adapter, with nothing outside it yet. `_client->start` throws for the adapters
    in `refuses`. -/
def new (refuses : ℕ → Bool) (cli : ℕ) : Driven := ⟨{ id := cli }, { refuses }⟩

/-- **When `unreg_io` ends the deliveries.** An accepted `unreg_io` of the source `h` is
    followed by actions that do not register `h` and then by an event. The event leaves
    `h` alone exactly if `h` is gone by then, or the adapter has been bound anew in the
    meantime, or the event does not look up the holder. -/
theorem unreg_silences_iff (refuses : ℕ → Bool) (cli : ℕ) (pre mid : List Act) (ev : Act)
    (id : IoId) (h : Source)
    (hid : (run step (new refuses cli) pre).adapter.holderId = id)
    (hholder : (run step (new refuses cli) pre).adapter.holder = some (.source h))
    (hmid : ∀ k, .regIo k (some h) ∉ mid) (hev : ev.isEvent = true) :
    let s := run step (new refuses cli) (pre ++ .unregIo id :: mid)
    ¬ (step s ev).io.Reaches h ↔
      s.io.sourceAlive h = false ∨
      ¬ Along step (fun s act => ¬ Rebinds s act)
        (run step (new refuses cli) (pre ++ [.unregIo id])) mid ∨
      ¬ Consults s.adapter ev := by
  intro s
  have hs : s = run step (run step (new refuses cli) (pre ++ [.unregIo id])) mid := by
    rw [← run_append, List.append_assoc, List.singleton_append]
  -- `unreg_io` clears the holder id, and leaves the holder
  obtain ⟨t, ht⟩ : ∃ t, t = run step (new refuses cli) (pre ++ [.unregIo id]) := ⟨_, rfl⟩
  have hadapter : t.adapter = (run step (new refuses cli) pre).adapter.unregIo id := by
    rw [ht, run_append]
    rfl
  have hholder' : t.adapter.holder = some (.source h) := by
    rw [hadapter, unregIo_holder, hholder]
  have hid' : t.adapter.holderId = 0 := by
    rw [hadapter, unregIo_holderId, if_pos hid]
  rw [event_reaches_iff hev, hs, ← ht, getHolder_run_iff hholder' hid' hmid, ← Bool.not_eq_true]
  tauto

/-- A source that is gone is left alone, and so is one that stays if the adapter serves another one
    by then; but while nothing else happens, the data go on coming to it. -/
theorem unreg_silences_five :
    let started : List Act := [.start {}, .regIo 7 (some 5)]
    let s := fun mid => run step (new (fun _ => false) 1) (started ++ .unregIo 7 :: mid)
    ¬ (step (s [.release 5]) (.input none none)).io.Reaches 5 ∧
      (s [.regIo 8 (some 6)]).io.sourceAlive 5 = true ∧
      ¬ (step (s [.regIo 8 (some 6)]) (.input none none)).io.Reaches 5 ∧
      (s []).io.sourceAlive 5 = true ∧ (step (s []) (.input none none)).io.Reaches 5 := by
  have hsilent := fun mid => unreg_silences_iff (fun _ => false) 1 [.start {}, .regIo 7 (some 5)]
    mid (.input none none) 7 5 (by decide) (by decide)
  refine ⟨(hsilent [.release 5] (by simp) rfl).mpr (Or.inl (by decide)), by decide,
    (hsilent [.regIo 8 (some 6)] (by simp) rfl).mpr (Or.inr (Or.inl fun h => h.1 trivial)),
    by decide, ?_⟩
  refine Classical.not_not.mp fun hnot => ?_
  obtain hgone | hbound | hunasked := (hsilent [] (by simp) rfl).mp hnot
  · exact absurd hgone (by decide)
  · exact hbound trivial
  · exact hunasked ⟨_, rfl, rfl⟩

/-- A source that is there goes on receiving data after `unreg_io`. -/
theorem unreg_not_silent :
    ¬ ∀ (refuses : ℕ → Bool) (cli : ℕ) (pre mid : List Act) (ev : Act) (id : IoId) (h : Source),
      (run step (new refuses cli) pre).adapter.holderId = id →
      (run step (new refuses cli) pre).adapter.holder = some (.source h) →
      (∀ k, .regIo k (some h) ∉ mid) → ev.isEvent = true →
      ¬ (step (run step (new refuses cli) (pre ++ .unregIo id :: mid)) ev).io.Reaches h := by
  intro hsilent
  refine hsilent (fun _ => false) 1 [.start {}, .regIo 7 (some 5)] [] (.input none none) 7 5
    (by decide) (by decide) (by simp) rfl ?_
  exact ⟨.performIo 5 none 1 (.connection none), by decide, by decide⟩

end ClientTcpAdapter

end WfcIo

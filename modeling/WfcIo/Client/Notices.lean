import WfcIo.Client.Binding
import WfcIo.Foundation.History
import Mathlib.Data.Finset.Basic

/-!
# What the holder is told about the connections

The connect handler calls `reg_io` of the holder at once, the shutdown handler posts a task
that calls `unreg_io`. Both name the adapter, not the connection. So an unregistration can
come after the registration of a later connection, and one connection that goes down
unregisters the adapter while others are up.

## Main definitions

- `Link` — an adapter with its connections; `Link.step` — a connection comes up or goes
  down, or the `io_context` runs the first posted task
- `Link.Agrees` — the last notice to the holder tells whether a connection is up

## Main results

- `Link.views_agree_iff` — the holder's view agrees with the connections exactly if no
  unregistration runs last while a connection is up
-/

namespace WfcIo

open Foundation

/-- The call tells the source `h` that the adapter `cli` is registered or unregistered. -/
def Outcall.notice (h : Source) (cli : ℕ) : Outcall → Option Bool
  | .regIo h' cli' => if h' = h ∧ cli' = cli then some true else none
  | .unregIo h' cli' => if h' = h ∧ cli' = cli then some false else none
  | _ => none

/-- An adapter, what is outside it, and those of its connections that are up. -/
structure Link where
  driven : ClientTcpAdapter.Driven
  up : Finset Conn

namespace Link

/-- An event of a connection, or the first posted task runs. -/
inductive Act
  | up (conn : Conn)
  | down (conn : Conn)
  | runTask
  deriving DecidableEq

def Act.isEvent : Act → Bool
  | .runTask => false
  | _ => true

def step (l : Link) : Act → Link
  | .up conn =>
    { driven := ClientTcpAdapter.step l.driven .connected, up := insert conn l.up }
  | .down conn =>
    { driven := ClientTcpAdapter.step l.driven .closed, up := l.up.erase conn }
  | .runTask => { l with driven := ClientTcpAdapter.step l.driven (.runTask 0) }

/-- What a client with `connectCount` connections lets happen. -/
def Possible (connectCount : ℕ) (l : Link) : Act → Prop
  | .up conn => conn < connectCount ∧ conn ∉ l.up
  | .down conn => conn ∈ l.up
  | .runTask => l.driven.io.tasks ≠ []

instance (connectCount : ℕ) (l : Link) : ∀ a, Decidable (Possible connectCount l a)
  | .up _ => inferInstanceAs (Decidable (_ ∧ _))
  | .down _ => inferInstanceAs (Decidable (_ ∈ _))
  | .runTask => inferInstanceAs (Decidable (_ ≠ _))

/-- The last notice the holder `h` has received of this adapter. -/
def lastNotice (h : Source) (l : Link) (acts : List Act) : Option Bool :=
  latest (Outcall.notice h l.driven.adapter.id) (trace step (fun l => l.driven.io.outcalls) l acts)

/-- If no task is pending after `acts`, the last notice was `reg_io` if a connection is up,
    and `unreg_io` if none is. -/
def Agrees (h : Source) (l : Link) (acts : List Act) : Prop :=
  (run step l acts).driven.io.tasks = [] →
    lastNotice h l acts = some (decide ((run step l acts).up ≠ ∅))

/-- If the action runs the only pending task, no connection is up. -/
def Settled (l : Link) (a : Act) : Prop :=
  a = .runTask → l.driven.io.tasks.length = 1 → l.up = ∅

instance (l : Link) (a : Act) : Decidable (Settled l a) :=
  inferInstanceAs (Decidable (_ → _ → _))

/-! ### One step -/

section Handlers

variable {h : Source} {a : ClientTcpAdapter} {io : Io} {opt : ClientTcpConfig}

theorem connected_of_bound (hopt : a.options = some opt)
    (hget : a.getHolder io = some (.source h)) :
    ∃ os, (∀ o ∈ os, ∀ cli, Outcall.notice h cli o = none) ∧
      a.connected io = { io with outcalls := io.outcalls ++ .regIo h a.id :: os } := by
  cases hf : opt.connectHandler with
  | none =>
    refine ⟨[], fun o ho => (by cases ho), ?_⟩
    simp only [ClientTcpAdapter.connected, hopt, hget, hf]
    rfl
  | some f =>
    refine ⟨[.optionHandler f], fun o ho cli => ?_, ?_⟩
    · rw [List.mem_singleton.mp ho]
      rfl
    · simp only [ClientTcpAdapter.connected, hopt, hget, hf, Holder.regIo, Io.emit,
        List.append_assoc, List.cons_append, List.nil_append]

theorem closed_of_bound (hopt : a.options = some opt)
    (hget : a.getHolder io = some (.source h)) :
    ∃ os, (∀ o ∈ os, ∀ cli, Outcall.notice h cli o = none) ∧
      a.closed io =
        { io with
          tasks := io.tasks ++ [⟨.source h, a.id⟩]
          outcalls := io.outcalls ++ os } := by
  cases hf : opt.shutdownHandler with
  | none =>
    refine ⟨[.post ⟨.source h, a.id⟩], fun o ho cli => ?_, ?_⟩
    · rw [List.mem_singleton.mp ho]
      rfl
    · simp only [ClientTcpAdapter.closed, hopt, hget, hf]
      rfl
  | some f =>
    refine ⟨[.post ⟨.source h, a.id⟩, .optionHandler f], fun o ho cli => ?_, ?_⟩
    · simp only [List.mem_cons, List.not_mem_nil, or_false] at ho
      obtain rfl | rfl := ho <;> rfl
    · simp only [ClientTcpAdapter.closed, hopt, hget, hf, Io.post, Io.emit, List.append_assoc,
        List.cons_append, List.nil_append]

end Handlers

/-- The adapter is `a`, bound to the living source `h`, and all tasks unregister it there. -/
structure Bound (h : Source) (a : ClientTcpAdapter) (l : Link) : Prop where
  adapter : l.driven.adapter = a
  started : a.options ≠ none
  holder : a.holder = some (.source h)
  released : h ∉ l.driven.io.released
  tasks : ∀ t ∈ l.driven.io.tasks, t = ⟨.source h, a.id⟩

namespace Bound

variable {h : Source} {a : ClientTcpAdapter} {l : Link}

theorem getHolder (hb : Bound h a l) :
    l.driven.adapter.getHolder { l.driven.io with outcalls := [] } = some (.source h) := by
  rw [hb.adapter]
  apply ClientTcpAdapter.getHolder_eq_source_iff.mpr
  exact ⟨hb.holder, ClientTcpAdapter.sourceAlive_iff.mpr (Or.inl hb.released)⟩

/-- A connection that comes up is announced at once. -/
theorem up (hb : Bound h a l) (conn : Conn) : Bound h a (step l (.up conn)) ∧
    (step l (.up conn)).driven.io.tasks = l.driven.io.tasks ∧
    latest (Outcall.notice h a.id) (step l (.up conn)).driven.io.outcalls = some true := by
  obtain ⟨opt, hopt⟩ := Option.ne_none_iff_exists'.mp hb.started
  obtain ⟨os, hos, hio⟩ := connected_of_bound (hb.adapter.symm ▸ hopt) hb.getHolder
  have hstep : (step l (.up conn)).driven.io =
      { l.driven.io with outcalls := .regIo h l.driven.adapter.id :: os } := hio
  refine ⟨⟨hb.adapter, hb.started, hb.holder, ?_, ?_⟩, ?_, ?_⟩
  · rw [hstep]
    exact hb.released
  · rw [hstep]
    exact hb.tasks
  · rw [hstep]
  · rw [hstep, hb.adapter]
    apply latest_eq_some_iff.mpr ⟨[], .regIo h a.id, os, rfl, ?_, fun o ho => hos o ho a.id⟩
    simp only [Outcall.notice, and_self, if_true]

/-- A connection that goes down is not announced yet. -/
theorem down (hb : Bound h a l) (conn : Conn) : Bound h a (step l (.down conn)) ∧
    (step l (.down conn)).driven.io.tasks ≠ [] := by
  obtain ⟨opt, hopt⟩ := Option.ne_none_iff_exists'.mp hb.started
  obtain ⟨os, hos, hio⟩ := closed_of_bound (hb.adapter.symm ▸ hopt) hb.getHolder
  have hstep : (step l (.down conn)).driven.io =
      { l.driven.io with
        tasks := l.driven.io.tasks ++ [⟨.source h, l.driven.adapter.id⟩]
        outcalls := os } := hio
  refine ⟨⟨hb.adapter, hb.started, hb.holder, ?_, fun t ht => ?_⟩, ?_⟩
  · rw [hstep]
    exact hb.released
  · rw [hstep, hb.adapter] at ht
    obtain ht | ht := List.mem_append.mp ht
    · exact hb.tasks t ht
    · exact List.mem_singleton.mp ht
  · rw [hstep]
    exact List.append_ne_nil_of_right_ne_nil _ (List.cons_ne_nil _ _)

/-- The first task, if there is one, tells the holder that the adapter is unregistered. -/
theorem runTask (hb : Bound h a l) (hpending : l.driven.io.tasks ≠ []) :
    Bound h a (step l .runTask) ∧
    (step l .runTask).driven.io.tasks = l.driven.io.tasks.tail ∧
    latest (Outcall.notice h a.id) (step l .runTask).driven.io.outcalls = some false := by
  obtain ⟨t, rest, htasks⟩ := List.exists_cons_of_ne_nil hpending
  have ht : t = ⟨.source h, a.id⟩ := hb.tasks t (htasks ▸ List.mem_cons_self)
  have hstep : (step l .runTask).driven.io =
      { l.driven.io with tasks := rest, outcalls := [.unregIo h a.id] } := by
    simp only [step, ClientTcpAdapter.step, ClientTcpAdapter.exec, Io.runTask, htasks,
      List.getElem?_cons_zero, ht, List.eraseIdx_cons_zero]
    rfl
  refine ⟨⟨hb.adapter, hb.started, hb.holder, ?_, fun u hu => ?_⟩, ?_, ?_⟩
  · rw [hstep]
    exact hb.released
  · rw [hstep] at hu
    exact hb.tasks u (htasks ▸ List.mem_cons_of_mem t hu)
  · rw [hstep, htasks]
    rfl
  · rw [hstep]
    simp only [latest_singleton, Outcall.notice, and_self, if_true]

theorem step (hb : Bound h a l) {connectCount : ℕ} {act : Act}
    (hposs : Possible connectCount l act) : Bound h a (Link.step l act) := by
  cases act with
  | up conn => exact (hb.up conn).1
  | down conn => exact (hb.down conn).1
  | runTask => exact (hb.runTask hposs).1

end Bound

/-! ### Whole runs -/

section Runs

variable {h : Source} {a : ClientTcpAdapter} {l : Link} {connectCount : ℕ} {acts : List Act}

theorem bound_run (hb : Bound h a l) (hposs : Along step (Possible connectCount) l acts) :
    Bound h a (run step l acts) :=
  run_invariant_along (I := Bound h a) (fun _ _ hG h => h.step hG) hb hposs

/-- Before the first event no task is pending, so something has happened as soon as there is
    an action. -/
theorem exists_event {act : Act} (hnone : l.driven.io.tasks = [])
    (hposs : Along step (Possible connectCount) l (acts ++ [act])) :
    ∃ b ∈ acts ++ [act], b.isEvent = true := by
  cases acts with
  | nil =>
    cases act with
    | runTask => exact absurd hnone hposs.1
    | up conn => exact ⟨.up conn, List.mem_cons_self, rfl⟩
    | down conn => exact ⟨.down conn, List.mem_cons_self, rfl⟩
  | cons b acts =>
    cases b with
    | runTask => exact absurd hnone hposs.1
    | up conn => exact ⟨.up conn, List.mem_cons_self, rfl⟩
    | down conn => exact ⟨.down conn, List.mem_cons_self, rfl⟩

theorem lastNotice_concat (act : Act) : lastNotice h l (acts ++ [act]) =
    (latest (Outcall.notice h l.driven.adapter.id)
      (step (run step l acts) act).driven.io.outcalls).or (lastNotice h l acts) := by
  simp only [lastNotice, trace_concat, latest_append]

/-- What an action has to do with the agreement after it. -/
theorem agrees_concat_iff (hb : Bound h a l) {act : Act}
    (hposs : Along step (Possible connectCount) l (acts ++ [act])) :
    Agrees h l (acts ++ [act]) ↔ Settled (run step l acts) act := by
  obtain ⟨hacts, hact⟩ := (along_concat _ _ _).mp hposs
  have hb' := bound_run hb hacts
  have hid : l.driven.adapter.id = a.id := congrArg _ hb.adapter
  simp only [Agrees, lastNotice_concat, run_concat, hid]
  cases act with
  | up conn =>
    obtain ⟨_, _, hnotice⟩ := hb'.up conn
    refine iff_of_true (fun _ => ?_) (fun heq => by cases heq)
    have hup : (step (run step l acts) (.up conn)).up ≠ ∅ := Finset.insert_ne_empty _ _
    rw [hnotice, Option.some_or]
    simp only [hup, ne_eq, not_false_eq_true, decide_true]
  | down conn =>
    obtain ⟨_, hpending⟩ := hb'.down conn
    exact iff_of_true (fun hnone => absurd hnone hpending) (fun heq => by cases heq)
  | runTask =>
    obtain ⟨_, htasks, hnotice⟩ := hb'.runTask hact
    have hup : (step (run step l acts) .runTask).up = (run step l acts).up := rfl
    rw [hnotice, htasks, hup, Option.some_or]
    have hlast : (run step l acts).driven.io.tasks.tail = [] ↔
        (run step l acts).driven.io.tasks.length = 1 := by
      obtain ⟨t, rest, heq⟩ := List.exists_cons_of_ne_nil hact
      rw [heq]
      simp
    rw [hlast]
    simp only [Settled, true_imp_iff]
    apply imp_congr_right
    intro _
    simp

/-- **The holder's view.** For an adapter that is started and bound to a living source, with
    no task pending, let connections come up and go down and tasks run in any possible order.
    Whenever something has happened and no task is pending the holder's view agrees with the
    connections, exactly if no last pending unregistration runs while a connection is up. -/
theorem views_agree_iff (connectCount : ℕ) (h : Source) (l : Link) (acts : List Act)
    (hstarted : l.driven.adapter.options ≠ none)
    (hholder : l.driven.adapter.holder = some (.source h)) (halive : h ∉ l.driven.io.released)
    (hnone : l.driven.io.tasks = []) (hposs : Along step (Possible connectCount) l acts) :
    (∀ pre, pre <+: acts → (∃ act ∈ pre, act.isEvent = true) → Agrees h l pre) ↔
      Along step Settled l acts := by
  have hb : Bound h l.driven.adapter l := by
    refine ⟨rfl, hstarted, hholder, halive, fun t ht => ?_⟩
    rw [hnone] at ht
    cases ht
  rw [forall_prefix_iff_atEach fun ⟨b, hb, _⟩ => (by cases hb), along_iff_atEach]
  apply atEach_congr
  intro pre act hpre _
  have hposs' := hposs.of_prefix hpre
  have hevent := exists_event hnone hposs'
  rw [← agrees_concat_iff hb hposs']
  exact ⟨fun hagree => hagree hevent, fun hagree _ => hagree⟩

end Runs

/-- An adapter that is started and registered by the source 5, none of its connections up. -/
def five : Link where
  driven := run ClientTcpAdapter.step (ClientTcpAdapter.new (fun _ => false) 1)
    [.start {}, .regIo 7 (some 5)]
  up := ∅

/-- One connection that comes up and goes down. -/
theorem views_agree_five : Agrees 5 five [.up 0, .down 0, .runTask] :=
  (views_agree_iff 1 5 five [.up 0, .down 0, .runTask] (by decide) (by decide) (by decide)
    (by decide) (by decide)).mpr (by decide) _ (List.prefix_refl _) ⟨.up 0, by decide, rfl⟩

/-- Two connections come up, and one of them goes down. -/
theorem views_disagree :
    ¬ ∀ (connectCount : ℕ) (h : Source) (l : Link) (acts : List Act),
      1 ≤ connectCount → l.driven.adapter.options ≠ none →
      l.driven.adapter.holder = some (.source h) → h ∉ l.driven.io.released →
      l.driven.io.tasks = [] → Along step (Possible connectCount) l acts →
      ∀ pre, pre <+: acts → (∃ act ∈ pre, act.isEvent = true) → Agrees h l pre := by
  intro hall
  have h := hall 2 5 five [.up 0, .up 1, .down 0, .runTask] (by decide) (by decide) (by decide)
    (by decide) (by decide) (by decide) _ (List.prefix_refl _) ⟨.up 0, by decide, rfl⟩ (by decide)
  exact absurd h (by decide)

end Link

end WfcIo

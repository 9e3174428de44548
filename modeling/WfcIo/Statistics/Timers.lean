import WfcIo.Client.ClientTcp
import WfcIo.Server.Endpoints

/-!
# The timers of the statistics

With a statistics object, `client_tcp` and `server_tcp` let the workflow create a timer that
reports their statistics, at every start and restart, and keep its id in `_timer_id`. The workflow
gives each timer an id of its own.

Before that `server_tcp` releases the timer whose id it has. `client_tcp` releases none, and its
old timers go on.

## Main definitions

- `OneTimer` — at most one timer is live, and none after a start without tracking
- `ClientTcp.Once` — the timer of a run is created by its last start

## Main results

- `ClientTcp.step_timers` — the timers after a step
- `ServerTcp.Holds.step` — a server holds the id of its only timer
- `oneTimer_iff` — in which runs there is at most one timer
-/

namespace WfcIo

open Foundation

universe u v

/-- After each step of a run at most one timer is live, and none after a start or a restart whose
    `tracking_ms` is 0. -/
def OneTimer {σ : Type u} {α : Type v} (step : σ → α → σ) (isStart : α → Bool) (trackingMs : σ → ℕ)
    (timers : σ → List ℕ) (s : σ) (as : List α) : Prop :=
  AtEach (fun pre a =>
    (timers (step (run step s pre) a)).length ≤ 1 ∧
      (isStart a → trackingMs (run step s pre) = 0 → timers (step (run step s pre) a) = [])) as

/-! ### Clients -/

namespace ClientTcp

/-- `start` or `restart`. -/
def Act.isStart : Act → Bool
  | .start | .restart => true
  | _ => false

/-- A start without an address, which does nothing. -/
def refused (c : ClientTcp) (a : Act) : Bool :=
  decide (a = .start) && (!c.suspended && c.options.addr == "")

/-- A start or restart that creates a timer, if there is a statistics object. -/
def creates (c : ClientTcp) (a : Act) : Bool :=
  a.isStart && !c.refused a && decide (0 < c.trackingMs)

/-- If the action is a start or a restart, then none before has created a timer; or it is refused,
    with a positive `tracking_ms`. -/
def Once (s : ClientTcp) (pre : List Act) (a : Act) : Prop :=
  a.isStart → taken step creates s pre = [] ∨
    (run step s pre).refused a ∧ 0 < (run step s pre).trackingMs

/-- What the timers depend on. -/
def timing (c : ClientTcp) : Bool × ℕ × List ℕ × ℕ :=
  (c.statistics, c.trackingMs, c.timers, c.nextTimer)

variable {c : ClientTcp} {as : List Act}

theorem regIo_timing (c : ClientTcp) (id : IoId) (itf : Option Source) :
    (c.regIo id itf).timing = c.timing := by
  simp only [regIo]
  split
  · rfl
  · split
    · rfl
    · rfl

theorem replay_timing (c : ClientTcp) : c.replay.timing = c.timing := by
  have hfold : ∀ (l : List (IoId × Option Source)) (c : ClientTcp),
      (l.foldl (fun c item => c.regIo item.1 item.2) c).timing = c.timing := by
    intro l
    induction l with
    | nil => exact fun _ => rfl
    | cons item l ih => exact fun c => (ih _).trans (regIo_timing c item.1 item.2)
  exact hfold _ c

/-- The timers and the statistics object after `createTimer`. -/
theorem createTimer_timers {c₀ : ClientTcp} (h : c.timing = c₀.timing)
    (hstatistics : c₀.statistics = true) :
    c.createTimer.statistics = true ∧ c.createTimer.timers =
      c₀.timers ++ if 0 < c₀.trackingMs then [c₀.nextTimer] else [] := by
  simp only [timing, Prod.mk.injEq] at h
  obtain ⟨hstatistics', htracking, htimers, hnext⟩ := h
  simp only [createTimer, hstatistics', hstatistics, htracking, htimers, hnext, Bool.true_and,
    decide_eq_true_eq]
  split
  · exact ⟨rfl, rfl⟩
  · exact ⟨hstatistics'.trans hstatistics, by rw [htimers, List.append_nil]⟩

theorem reconfigureAndStart_timers (hstatistics : c.statistics = true) :
    c.reconfigureAndStart_.statistics = true ∧ c.reconfigureAndStart_.timers =
      c.timers ++ if 0 < c.trackingMs then [c.nextTimer] else [] := by
  refine createTimer_timers ?_ hstatistics
  split
  · rfl
  · exact replay_timing _

theorem timers_of_timing {c' : ClientTcp} (h : c'.timing = c.timing) :
    c'.statistics = c.statistics ∧ c'.timers = c.timers := by
  simp only [timing, Prod.mk.injEq] at h
  exact ⟨h.1, h.2.2.1⟩

/-- Other calls do not touch the timers. -/
theorem exec_timers {a : Act} (h : a.isStart = false) :
    (c.exec a).statistics = c.statistics ∧ (c.exec a).timers = c.timers := by
  cases a with
  | start => cases h
  | restart => cases h
  | configure suspended options trackingMs => exact ⟨rfl, rfl⟩
  | stop => exact ⟨rfl, rfl⟩
  | regIo id itf => exact timers_of_timing (regIo_timing c id itf)
  | unregIo id =>
    simp only [exec, unregIo]
    split
    · exact ⟨rfl, rfl⟩
    · exact ⟨rfl, rfl⟩
  | performIo d id handler snd =>
    simp only [exec, performIo]
    split
    · cases handler with
      | some f => exact ⟨rfl, rfl⟩
      | none => exact ⟨rfl, rfl⟩
    · exact ⟨rfl, rfl⟩
  | event e =>
    simp only [exec]
    split
    · exact ⟨rfl, rfl⟩
    · exact ⟨rfl, rfl⟩

/-- **A step** creates a timer exactly if it is a start that does, and releases none. -/
theorem step_timers (hstatistics : c.statistics = true) (a : Act) :
    (step c a).statistics = true ∧
      (step c a).timers = c.timers ++ if creates c a then [c.nextTimer] else [] := by
  have hstart := reconfigureAndStart_timers (c := c.quiet) hstatistics
  by_cases ha : a.isStart = true
  · cases a with
    | start =>
      by_cases hrefused : (!c.suspended && c.options.addr == "") = true
      · have hcreates : creates c .start = false := by
          simp only [creates, refused, hrefused, decide_true, Bool.and_self, Bool.not_true,
            Bool.and_false, Bool.false_and]
        rw [hcreates]
        have hstep : step c .start = c.quiet.emit .addrNotSet := if_pos hrefused
        rw [hstep]
        exact ⟨hstatistics, (List.append_nil _).symm⟩
      · have hcreates : creates c .start = decide (0 < c.trackingMs) := by
          simp only [creates, refused, Bool.eq_false_iff.mpr hrefused, Bool.and_false,
            Bool.not_false, Bool.and_true, Act.isStart, Bool.true_and]
        have hstep : step c .start = c.quiet.reconfigureAndStart_ := if_neg hrefused
        simp only [hcreates, hstep, decide_eq_true_eq]
        exact hstart
    | restart =>
      have hcreates : creates c .restart = decide (0 < c.trackingMs) := rfl
      simp only [hcreates, decide_eq_true_eq]
      exact hstart
    | _ => cases ha
  · have ha' : a.isStart = false := Bool.eq_false_iff.mpr ha
    have hcreates : creates c a = false := by
      rw [creates, ha', Bool.false_and, Bool.false_and]
    obtain ⟨hstatistics', htimers⟩ := exec_timers (c := c.quiet) ha'
    rw [hcreates]
    exact ⟨hstatistics'.trans hstatistics, htimers.trans (List.append_nil _).symm⟩

/-- The live timers are all that have been created. -/
theorem run_timers (refuses : ℕ → Bool) (as : List Act) :
    (run step (initialized refuses true) as).statistics = true ∧
      (run step (initialized refuses true) as).timers.length =
        (taken step creates (initialized refuses true) as).length := by
  induction as using List.reverseRecOn with
  | nil => exact ⟨rfl, rfl⟩
  | append_singleton as a ih =>
    obtain ⟨hstatistics, hlength⟩ := ih
    obtain ⟨hstatistics', htimers⟩ := step_timers hstatistics a
    rw [run_concat, taken_concat, htimers, List.length_append, List.length_append, hlength]
    refine ⟨hstatistics', ?_⟩
    split
    · rfl
    · rfl

/-- While no start follows one that has created a timer, there is at most one. -/
theorem length_le_one (refuses : ℕ → Bool)
    (h : AtEach (Once (initialized refuses true)) as) :
    (run step (initialized refuses true) as).timers.length ≤ 1 := by
  induction as using List.reverseRecOn with
  | nil => exact Nat.zero_le 1
  | append_singleton as a ih =>
    obtain ⟨has, ha⟩ := atEach_concat_iff.mp h
    obtain ⟨hstatistics, hlength⟩ := run_timers refuses as
    obtain ⟨_, htimers⟩ := step_timers hstatistics a
    rw [run_concat, htimers]
    split
    · next hcreates =>
      simp only [creates, Bool.and_eq_true, Bool.not_eq_true'] at hcreates
      obtain ⟨⟨hstart, hrefused⟩, _⟩ := hcreates
      obtain hnone | ⟨hrefused', _⟩ := ha hstart
      · rw [List.length_append, hlength, hnone]
        exact Nat.le_refl 1
      · rw [hrefused] at hrefused'
        cases hrefused'
    · rw [List.append_nil]
      exact ih has

/-- **Timers of a client.** They are at most one in every state of a run exactly if no start
    follows one that has created a timer. -/
theorem oneTimer_client (refuses : ℕ → Bool) (as : List Act) :
    OneTimer step Act.isStart trackingMs timers (initialized refuses true) as ↔
      AtEach (Once (initialized refuses true)) as := by
  refine atEach_congr fun pre a _ hpre => ?_
  obtain ⟨hstatistics, hlength⟩ := run_timers refuses pre
  have hle := length_le_one refuses hpre
  obtain ⟨_, htimers⟩ := step_timers hstatistics a
  have hnil : (run step (initialized refuses true) pre).timers = [] ↔
      taken step creates (initialized refuses true) pre = [] := by
    rw [← List.length_eq_zero_iff, hlength, List.length_eq_zero_iff]
  simp only [htimers, Once]
  generalize run step (initialized refuses true) pre = c at hle hnil ⊢
  by_cases hstart : a.isStart = true
  · simp only [hstart, true_implies, ← hnil]
    obtain hzero | hpos := Nat.eq_zero_or_pos c.trackingMs
    · -- nothing is created, and nothing may be there
      have hcreates : creates c a = false := by
        rw [creates, hzero, decide_eq_false (Nat.lt_irrefl 0), Bool.and_false]
      rw [hcreates, if_neg Bool.false_ne_true, List.append_nil, hzero]
      simp only [true_implies, Nat.lt_irrefl, and_false, or_false, and_iff_right hle]
    · simp only [hpos.ne', false_implies, and_true, hpos]
      cases hrefused : c.refused a with
      | true =>
        have hcreates : creates c a = false := by
          rw [creates, hrefused, Bool.not_true, Bool.and_false, Bool.false_and]
        rw [hcreates, if_neg Bool.false_ne_true, List.append_nil]
        exact iff_of_true hle (Or.inr rfl)
      | false =>
        have hcreates : creates c a = true := by
          rw [creates, hrefused, hstart, decide_eq_true hpos]
          rfl
        rw [hcreates, if_pos rfl, List.length_append, List.length_singleton]
        simp only [Bool.false_eq_true, or_false]
        rw [← List.length_eq_zero_iff]
        omega
  · have hcreates : creates c a = false := by
      rw [creates, Bool.eq_false_iff.mpr hstart, Bool.false_and, Bool.false_and]
    rw [hcreates, if_neg Bool.false_ne_true, List.append_nil]
    exact iff_of_true ⟨hle, fun h => absurd h hstart⟩ fun h => absurd h hstart

end ClientTcp

/-! ### Servers -/

namespace Server

/-- `start` or `restart`. -/
def Act.isStart : Act → Bool
  | .start | .restart => true
  | _ => false

/-- What the timers depend on. -/
def timing (s : Server) : Bool × ℕ × List ℕ × Option ℕ :=
  (s.statistics, s.trackingMs, s.timers, s.timerId)

theorem startImpl_timing (opt : ServerConfig) (s : Server) :
    (s.startImpl opt).timing = s.timing := by
  simp only [startImpl]
  cases s.impl with
  | some i => rfl
  | none => rfl

theorem stopImpl_timing (p : Option ℕ) (s : Server) : (s.stopImpl p).timing = s.timing := by
  cases p with
  | some i => rfl
  | none => rfl

theorem retire_timing (s : Server) : s.retire.timing = s.timing := by
  simp only [retire]
  split
  · rfl
  · exact stopImpl_timing s.impl { s with impl := none }

end Server

namespace ServerTcp

open Server

/-- The server has the id of its only timer. -/
structure Holds (s : Server) : Prop where
  statistics : s.statistics = true
  timerId : ∀ t ∈ s.timers, s.timerId = some t
  length_le : s.timers.length ≤ 1

variable {s s' : Server}

theorem Holds.of_timing (h : Holds s) (htiming : s'.timing = s.timing) : Holds s' := by
  simp only [timing, Prod.mk.injEq] at htiming
  obtain ⟨hstatistics, _, htimers, htimerId⟩ := htiming
  refine ⟨hstatistics.trans h.statistics, ?_, ?_⟩
  · rw [htimers, htimerId]
    exact h.timerId
  · rw [htimers]
    exact h.length_le

/-- The old timer is released before another is created. -/
theorem Holds.statInit (h : Holds s) :
    Holds (statInit_ s) ∧ (s.trackingMs = 0 → (statInit_ s).timers = []) := by
  have hreleased : s.timers.filter (some · ≠ s.timerId) = [] := by
    refine List.filter_eq_nil_iff.mpr fun t ht => ?_
    simp only [h.timerId t ht, ne_eq, not_true_eq_false, decide_false, Bool.false_eq_true,
      not_false_eq_true]
  simp only [statInit_, h.statistics, if_true, hreleased, List.nil_append]
  split
  · next hpos =>
    refine ⟨⟨rfl, fun t ht => ?_, Nat.le_refl 1⟩, fun hzero => absurd hzero hpos.ne'⟩
    rw [List.mem_singleton.mp ht]
  · exact ⟨⟨rfl, fun t ht => absurd ht List.not_mem_nil, Nat.zero_le 1⟩, fun _ => rfl⟩

/-- `run_` does to the timers what `statInit_` does. -/
theorem Holds.run (h : Holds s) :
    Holds (ServerTcp.run_ s) ∧ (s.trackingMs = 0 → (ServerTcp.run_ s).timers = []) := by
  have hmade : Holds s.remember.makeImpl := h.of_timing rfl
  obtain ⟨hinit, hzero⟩ := hmade.statInit
  have htiming := startImpl_timing (implOptions s.options) (statInit_ s.remember.makeImpl)
  refine ⟨hinit.of_timing htiming, fun htracking => ?_⟩
  have htimers := congrArg (fun t => t.2.2.1) htiming
  exact htimers.trans (hzero htracking)

/-- **A step** leaves the server with its only timer, and with none if it is a start without
    tracking. -/
theorem Holds.step (h : Holds s) (a : Act) :
    Holds (s.step .tcp a) ∧ (a.isStart → s.trackingMs = 0 → (s.step .tcp a).timers = []) := by
  have hquiet : Holds s.quiet := h.of_timing rfl
  cases a with
  | configure options trackingMs =>
    exact ⟨⟨h.statistics, h.timerId, h.length_le⟩, fun hstart => (by cases hstart)⟩
  | start =>
    obtain ⟨hrun, hzero⟩ := hquiet.run
    exact ⟨hrun, fun _ => hzero⟩
  | restart =>
    have htiming := retire_timing s.quiet
    obtain ⟨hrun, hzero⟩ := (hquiet.of_timing htiming).run
    have hstep : s.step .tcp .restart = ServerTcp.run_ s.quiet.retire := restart_eq .tcp s.quiet
    have htracking := congrArg (fun t => t.2.1) htiming
    rw [hstep]
    exact ⟨hrun, fun _ htracking' => hzero (htracking.trans htracking')⟩
  | stop =>
    refine ⟨?_, fun hstart => (by cases hstart)⟩
    simp only [Server.step, exec, stop]
    split
    · exact hquiet.of_timing rfl
    · exact hquiet
  | runPosted n =>
    refine ⟨?_, fun hstart => (by cases hstart)⟩
    simp only [Server.step, exec]
    split
    · exact hquiet.of_timing (stopImpl_timing _ _)
    · exact hquiet
  | setGlobal flag => exact ⟨hquiet.of_timing rfl, fun hstart => (by cases hstart)⟩

/-- **Timers of a server.** There is at most one in every state of every run. -/
theorem oneTimer_server (options : ServerConfig) (trackingMs : ℕ) (global : Bool) (as : List Act) :
    OneTimer (Server.step .tcp) Act.isStart Server.trackingMs timers
      (configured options trackingMs global true) as := by
  intro pre a _ _
  have hstart : Holds (configured options trackingMs global true) :=
    ⟨rfl, fun _ ht => absurd ht List.not_mem_nil, Nat.zero_le 1⟩
  have hpre : Holds (run (Server.step .tcp) (configured options trackingMs global true) pre) :=
    run_invariant (I := Holds) (fun _ a h => (h.step a).1) hstart pre
  obtain ⟨hholds, hzero⟩ := hpre.step a
  exact ⟨hholds.length_le, hzero⟩

end ServerTcp

/-! ### Both -/

/-- **One timer.** In a run of a client there is at most one timer, and none after a start or
    restart without tracking, exactly if no start or restart follows one that has created a timer,
    apart from a start that is refused. In a run of a server this is always so. -/
theorem oneTimer_iff (refuses : ℕ → Bool) (as : List ClientTcp.Act) (options : ServerConfig)
    (trackingMs : ℕ) (global : Bool) (as' : List Server.Act) :
    (OneTimer ClientTcp.step ClientTcp.Act.isStart ClientTcp.trackingMs ClientTcp.timers
        (.initialized refuses true) as ↔
      AtEach (ClientTcp.Once (.initialized refuses true)) as) ∧
      OneTimer (Server.step .tcp) Server.Act.isStart Server.trackingMs Server.timers
        (.configured options trackingMs global true) as' :=
  ⟨ClientTcp.oneTimer_client refuses as,
    ServerTcp.oneTimer_server options trackingMs global as'⟩

/-- A client is started, and then restarted: two timers. -/
theorem not_oneTimer :
    ¬ ∀ (refuses : ℕ → Bool) (as : List ClientTcp.Act),
      OneTimer ClientTcp.step ClientTcp.Act.isStart ClientTcp.trackingMs ClientTcp.timers
        (.initialized refuses true) as := by
  intro hall
  obtain ⟨hle, _⟩ := hall (fun _ => false)
    [.configure false { addr := "localhost" } 1000, .start, .restart]
    [.configure false { addr := "localhost" } 1000, .start] .restart [] rfl
  exact absurd hle (by decide)

end WfcIo

import WfcIo.Pipeline.Stage

/-!
# Lines

Stages that point to one another without a cycle. Calls of all three kinds enter at any of them and
run down to the leaves; a queue that is not suspended keeps a message until the workflow runs or
drops its post.

## Main definitions

- `Line`, `Line.step` — the stages, and what happens next
- `Line.journal` — the calls of a run
- `Line.starts` — what an action calls

## Main results

- `Line.step_journal` — the journal of a step is a walk from what the action calls
- `Line.step_steady` — only the loss of an object changes who is told about registrations
-/

namespace WfcIo

open Foundation

/-- The stages, and the events of the last step. -/
abbrev Line := Network ℕ Stage Event

namespace Stage

/-- The stage is suspended or resumed. -/
def suspend (flag : Bool) : Stage → Stage
  | .broker b => .broker { b with suspended := flag }
  | .statistics s => .statistics { s with suspended := flag }
  | .queue q => .queue { q with suspended := flag }
  | .leaf => .leaf

/-- The last owners of the object `t` have let it go. -/
def expire (t : ℕ) : Stage → Stage
  | .broker b => .broker { b with expired := b.expired ++ [t] }
  | .statistics s => .statistics { s with expired := s.expired ++ [t] }
  | .queue q => .queue { q with expired := q.expired ++ [t] }
  | .leaf => .leaf

/-- The stage itself is gone. What a queue has posted is still there. -/
def destroy : Stage → Stage
  | .queue q => .queue { q with alive := false }
  | k => k

/-- An id is tracked again. -/
def track (id : IoId) : Stage → Stage
  | .queue q => .queue (Queue.step q (.track id))
  | k => k

/-- The `k`-th pending post of a queue. -/
def post (k : ℕ) : Stage → Option Queue.Task
  | .queue q => q.pending[k]?
  | _ => none

end Stage

namespace Line

/-- A call enters at the object `n`, the workflow of the queue `n` runs or drops its `k`-th
    pending post, an id is tracked again by the queue `n`, a stage is suspended or resumed, or an
    object is gone. -/
inductive Act
  | enter (n : ℕ) (c : SourceCall)
  | run (n : ℕ) (k : ℕ)
  | drop (n : ℕ) (k : ℕ)
  | track (n : ℕ) (id : IoId)
  | suspend (n : ℕ) (flag : Bool)
  | expire (t : ℕ)
  deriving DecidableEq

variable (names : Names) (rank : ℕ → ℕ)

/-- The object `c.1` is called, and what it calls, down to the end of the line. -/
def call (c : ℕ × SourceCall) (p : Line) : Line := cascade (Stage.call names) (rank c.1 + 1) c p

/-- What the workflow does with a post: it hands the message on, or the message ends there. -/
def settle (n : ℕ) (k : ℕ) (a : Queue.Act) (p : Line) : Line :=
  match p.node n with
  | .queue q =>
    match q.pending[k]? with
    | some post =>
      let q' := Queue.step q a
      let outcome := (q'.outcomes.map Prod.snd).head?
      { node := Function.update p.node n (.queue q')
        shown := p.shown ++ (ending outcome).toList.map (.ended n post.request) }
    | none => p
  | _ => p

/-- The calls of a task that is run. -/
def handed (n : ℕ) (k : ℕ) (p : Line) : List (ℕ × SourceCall) :=
  match p.node n with
  | .queue q => (Queue.step q (.run k)).outcomes.filterMap (Stage.queueSend names n)
  | _ => []

def exec (p : Line) : Act → Line
  | .enter n c => p.call names rank (n, c)
  | .run n k =>
    (p.handed names n k).foldl (fun p c => p.call names rank c) (p.settle n k (.run k))
  | .drop n k => p.settle n k (.drop k)
  | .track n id => { p with node := Function.update p.node n ((p.node n).track id) }
  | .suspend n flag => { p with node := Function.update p.node n ((p.node n).suspend flag) }
  | .expire t =>
    { p with node := fun n => if n = t then ((p.node n).expire t).destroy else (p.node n).expire t }

def step (p : Line) (a : Act) : Line := exec names rank { p with shown := [] } a

/-- The events of a run. -/
def events (p : Line) (acts : List Act) : List Event :=
  trace (step names rank) Network.shown p acts

/-- The calls of a run, in sketches. -/
def journal (p : Line) (acts : List Act) : List (ℕ × IoCall Unit Unit) :=
  (p.events names rank acts).filterMap Stage.entry

/-- Where a call goes next. -/
abbrev next (p : Line) : ℕ × IoCall Unit Unit → List (ℕ × IoCall Unit Unit) :=
  nextCalls Stage.conveys p.node

/-- What the post of a queue hands on. -/
def posted (n k : ℕ) (p : Line) : List (ℕ × IoCall Unit Unit) :=
  match p.node n with
  | .queue q =>
    match q.pending[k]? with
    | some post =>
      if post.request.id ∉ q.untracked ∧ q.alive = true then
        q.lockTarget.toList.map fun t => (t, .performIo post.request.d post.request.id ())
      else []
    | none => []
  | _ => []

/-- What an action calls. -/
def starts (p : Line) : Act → List (ℕ × IoCall Unit Unit)
  | .enter n c => [(n, sketch c)]
  | .run n k => p.posted n k
  | _ => []

/-- The stages point to one another without a cycle. -/
def Acyclic (p : Line) : Prop := Ranked Stage.links rank p

end Line

namespace Stage

theorem post_eq_some_iff {k : Stage} {i : ℕ} {post : Queue.Task} :
    k.post i = some post ↔ ∃ q, k = .queue q ∧ q.pending[i]? = some post := by
  cases k with
  | queue q => exact ⟨fun h => ⟨q, rfl, h⟩, fun ⟨_, hq, h⟩ => by cases hq; exact h⟩
  | _ => exact ⟨fun h => (by cases h), fun ⟨_, hq, _⟩ => (by cases hq)⟩

/-! ### What decides who is told -/

/-- Two states of a stage with the same pointers to the same objects. -/
inductive Kin : Stage → Stage → Prop
  | broker {b b' : Broker} (htargets : b'.targets = b.targets) (htarget : b'.target = b.target)
      (hrules : b'.rules = b.rules) (hexpired : b'.expired = b.expired) :
      Kin (.broker b) (.broker b')
  | statistics {s s' : Statistics} (htarget : s'.target = s.target)
      (hexpired : s'.expired = s.expired) : Kin (.statistics s) (.statistics s')
  | queue {q q' : Queue} (htarget : q'.target = q.target) (hexpired : q'.expired = q.expired)
      (halive : q'.alive = q.alive) : Kin (.queue q) (.queue q')
  | leaf : Kin .leaf .leaf

theorem Kin.refl : ∀ k : Stage, Kin k k
  | .broker _ => .broker rfl rfl rfl rfl
  | .statistics _ => .statistics rfl rfl
  | .queue _ => .queue rfl rfl rfl
  | .leaf => .leaf

theorem Kin.trans {k k' k'' : Stage} (h : Kin k k') (h' : Kin k' k'') : Kin k k'' := by
  cases h with
  | broker htargets htarget hrules hexpired =>
    cases h' with
    | broker htargets' htarget' hrules' hexpired' =>
      exact .broker (htargets'.trans htargets) (htarget'.trans htarget) (hrules'.trans hrules)
        (hexpired'.trans hexpired)
  | statistics htarget hexpired =>
    cases h' with
    | statistics htarget' hexpired' =>
      exact .statistics (htarget'.trans htarget) (hexpired'.trans hexpired)
  | queue htarget hexpired halive =>
    cases h' with
    | queue htarget' hexpired' halive' =>
      exact .queue (htarget'.trans htarget) (hexpired'.trans hexpired) (halive'.trans halive)
  | leaf =>
    cases h'
    exact .leaf

/-- A call changes no pointer. -/
theorem call_kin (names : Names) (n : ℕ) (c : SourceCall) (k : Stage) :
    Kin k (call names n c k).state := by
  cases k with
  | broker b =>
    obtain ⟨calls, logs, hstate⟩ := broker_state c b
    simp only [call, hstate]
    exact .broker rfl rfl rfl rfl
  | statistics s =>
    obtain ⟨meters, outcalls, hstate⟩ := statistics_state c s
    simp only [call, hstate]
    exact .statistics rfl rfl
  | queue q =>
    obtain ⟨given, pending, untracked, outcomes, calls, hstate⟩ := queue_state c q
    simp only [call, hstate]
    exact .queue rfl rfl rfl
  | leaf => exact .leaf

theorem Kin.links {k k' : Stage} (h : Kin k k') : k'.links = k.links := by
  cases h with
  | broker htargets htarget hrules hexpired =>
    simp only [Stage.links, htargets, htarget, hrules]
  | statistics htarget hexpired => simp only [Stage.links, htarget]
  | queue htarget hexpired halive => simp only [Stage.links, htarget]
  | leaf => rfl

/-- Whom a stage tells about registrations. -/
def told (k : Stage) : List ℕ := k.receivers (.unregIo 0)

theorem receivers_regIo (k : Stage) (id : IoId) : k.receivers (.regIo id ()) = k.told := by
  cases k <;> rfl

theorem receivers_unregIo (k : Stage) (id : IoId) : k.receivers (.unregIo id) = k.told := by
  cases k <;> rfl

theorem Kin.told {k k' : Stage} (h : Kin k k') : k'.told = k.told := by
  cases h with
  | @broker b b' htargets htarget hrules hexpired =>
    have hlock : b'.lock = b.lock := by
      funext w
      simp only [Broker.lock, hexpired]
    simp only [Stage.told, receivers, htargets, hlock]
  | statistics htarget hexpired =>
    simp only [Stage.told, receivers, Statistics.lockTarget, htarget, hexpired]
  | queue htarget hexpired halive =>
    simp only [Stage.told, receivers, Queue.lockTarget, htarget, hexpired, halive]
  | leaf => rfl

/-- What the workflow does with a post changes no pointer, and not where calls go. -/
theorem settle_state {a : Queue.Act} {k : ℕ} (ha : a = .run k ∨ a = .drop k) (q : Queue) :
    ∃ pending outcomes calls, Queue.step q a = { q with pending, outcomes, calls } := by
  obtain rfl | rfl := ha
  all_goals
    simp only [Queue.step, Queue.exec, Queue.settle]
    split
    · exact ⟨_, _, _, rfl⟩
    · exact ⟨_, _, _, rfl⟩

theorem conveys_settle {a : Queue.Act} {k : ℕ} (ha : a = .run k ∨ a = .drop k) (q : Queue) :
    Kin (.queue q) (.queue (Queue.step q a)) ∧
      conveys (.queue (Queue.step q a)) = conveys (.queue q) := by
  obtain ⟨pending, outcomes, calls, hstate⟩ := settle_state ha q
  rw [hstate]
  exact ⟨.queue rfl rfl rfl, funext fun z => by cases z <;> rfl⟩

theorem suspend_kin (flag : Bool) (k : Stage) : Kin k (k.suspend flag) := by
  cases k with
  | broker b => exact .broker rfl rfl rfl rfl
  | statistics s => exact .statistics rfl rfl
  | queue q => exact .queue rfl rfl rfl
  | leaf => exact .leaf

theorem track_kin (id : IoId) (k : Stage) : Kin k (k.track id) := by
  cases k with
  | queue q => exact .queue rfl rfl rfl
  | _ => exact .refl _

end Stage

namespace Line

variable {names : Names} {rank : ℕ → ℕ} {p p' p'' : Line}

/-- Two states of a line with the same pointers to the same objects. -/
def Steady (p p' : Line) : Prop := ∀ n, Stage.Kin (p.node n) (p'.node n)

theorem Steady.refl (p : Line) : Steady p p := fun _ => .refl _

theorem Steady.trans (h : Steady p p') (h' : Steady p' p'') : Steady p p'' :=
  fun n => (h n).trans (h' n)

theorem Steady.acyclic (h : Steady p p') (hp : Acyclic rank p) : Acyclic rank p' := by
  intro n t ht
  rw [(h n).links] at ht
  exact hp n t ht

/-- One stage gets another state. -/
theorem steady_update {n : ℕ} {k : Stage} (h : Stage.Kin (p.node n) k) (shown : List Event) :
    Steady p { node := Function.update p.node n k, shown } := by
  intro j
  by_cases hj : j = n
  · subst hj
    simpa only [Function.update_self] using h
  · simpa only [Function.update_of_ne hj] using .refl _

theorem call_steady (c : ℕ × SourceCall) (p : Line) : Steady p (p.call names rank c) := by
  refine cascade_invariant (Q := Steady p) (I := fun _ => True) (fun c N _ hN => ?_) trivial
    (Steady.refl p)
  refine ⟨hN.trans (steady_update ?_ _), fun _ _ => trivial⟩
  exact Stage.call_kin names c.1 c.2 (N.node c.1)

theorem settle_steady {a : Queue.Act} {k : ℕ} (ha : a = .run k ∨ a = .drop k) (n : ℕ) :
    Steady p (p.settle n k a) ∧ (p.settle n k a).next = p.next ∧
      (p.settle n k a).shown.filterMap Stage.entry = p.shown.filterMap Stage.entry := by
  simp only [settle]
  split
  · next q hq =>
    split
    · next post hpost =>
      obtain ⟨hkin, hconveys⟩ := Stage.conveys_settle ha q
      refine ⟨steady_update (hq ▸ hkin) _, funext fun c => ?_, ?_⟩
      · simp only [nextCalls]
        by_cases hc : c.1 = n
        · rw [hc, Function.update_self, hconveys, hq]
        · rw [Function.update_of_ne hc]
      · rw [List.filterMap_append, Stage.ended_entry, List.append_nil]
    · exact ⟨.refl p, rfl, rfl⟩
  · exact ⟨.refl p, rfl, rfl⟩

/-- **Steadiness.** Only the loss of an object changes who points to whom. -/
theorem step_steady {a : Act} (ha : ∀ t, a ≠ .expire t) (p : Line) :
    Steady p (step names rank p a) := by
  have hcalls : ∀ (calls : List (ℕ × SourceCall)) (p : Line),
      Steady p (calls.foldl (fun p c => p.call names rank c) p) := fun calls p =>
    List.foldlRecOn (motive := Steady p) _ _ (.refl p) fun N hN c _ => hN.trans (call_steady c N)
  cases a with
  | enter n c => exact call_steady (n, c) { p with shown := [] }
  | run n k =>
    exact (settle_steady (p := { p with shown := [] }) (Or.inl rfl) n).1.trans (hcalls _ _)
  | drop n k => exact (settle_steady (p := { p with shown := [] }) (Or.inr rfl) n).1
  | track n id => exact steady_update (Stage.track_kin id _) _
  | suspend n flag => exact steady_update (Stage.suspend_kin flag _) _
  | expire t => exact absurd rfl (ha t)

/-! ### The journal of a step -/

/-- What the task of a post hands on. -/
theorem task_sends (names : Names) (n number : ℕ) (q : Queue) (r : Message) :
    (((q.task r).map (number, ·)).toList.filterMap (Stage.queueSend names n)).map
        (Prod.map id sketch) =
      if r.id ∉ q.untracked ∧ q.alive = true then
        q.lockTarget.toList.map fun t => (t, .performIo r.d r.id ())
      else [] := by
  by_cases hid : r.id ∈ q.untracked
  · simp [Queue.task, hid, Stage.queueSend]
  · cases halive : q.alive with
    | false => simp [Queue.task, hid, halive]
    | true =>
      cases htarget : q.lockTarget with
      | none =>
        cases hhandler : r.handler with
        | none => simp [Queue.task, hid, halive, htarget, hhandler]
        | some f => simp [Queue.task, hid, halive, htarget, hhandler, Stage.queueSend]
      | some t => simp [Queue.task, hid, halive, htarget, Stage.queueSend, sketch]

theorem handed_eq (names : Names) (n k : ℕ) (p : Line) :
    (p.handed names n k).map (Prod.map id sketch) = p.posted n k := by
  simp only [handed, posted]
  split
  · next q _ =>
    have hpending : q.quiet.pending = q.pending := rfl
    simp only [Queue.step, Queue.exec, hpending]
    cases hpost : q.pending[k]? with
    | none => rfl
    | some post => exact task_sends names n post.number q post.request
  · rfl

theorem mem_posted_of_handed {n k : ℕ} {c : ℕ × SourceCall} (hc : c ∈ p.handed names n k) :
    (c.1, sketch c.2) ∈ p.posted n k := by
  rw [← handed_eq names]
  exact List.mem_map_of_mem hc

theorem mem_posted_links {n k : ℕ} {x : ℕ × IoCall Unit Unit} (hx : x ∈ p.posted n k) :
    x.1 ∈ (p.node n).links := by
  simp only [posted] at hx
  split at hx
  · next q hq =>
    split at hx
    · split at hx
      · obtain ⟨t, ht, rfl⟩ := List.mem_map.mp hx
        rw [hq]
        exact (Option.filter_eq_some_iff.mp (Option.mem_toList.mp ht)).1
      · cases hx
    · cases hx
  · cases hx

/-- Without a post nothing is settled. -/
theorem settle_of_post {n k : ℕ} {a : Queue.Act} (h : (p.node n).post k = none) :
    p.settle n k a = p := by
  simp only [settle]
  split
  · next q hq =>
    rw [hq, Stage.post] at h
    rw [h]
  · rfl

theorem handed_of_post {n k : ℕ} (h : (p.node n).post k = none) : p.handed names n k = [] := by
  simp only [handed]
  split
  · next q hq =>
    rw [hq, Stage.post] at h
    have hpending : q.quiet.pending[k]? = none := h
    simp only [Queue.step, Queue.exec, hpending]
    rfl
  · rfl

/-- **The journal of a step** is a walk from what the action calls. -/
theorem step_journal (p : Line) (a : Act) :
    (step names rank p a).shown.filterMap Stage.entry =
      (p.starts a).flatMap fun c => walk p.next (rank c.1 + 1) c := by
  have hcall : ∀ (c : ℕ × SourceCall) (N : Line), N.next = p.next →
      (N.call names rank c).next = p.next ∧
        (N.call names rank c).shown.filterMap Stage.entry =
          N.shown.filterMap Stage.entry ++
            walk p.next (rank c.1 + 1) (c.1, sketch c.2) := by
    intro c N hN
    have hjournal := cascade_journal (Stage.recorded names) (rank c.1 + 1) c N
    rw [← hN]
    exact hjournal
  cases a with
  | enter n c =>
    have hjournal := (hcall (n, c) { p with shown := [] } rfl).2
    simpa [starts, step, exec] using hjournal
  | run n k =>
    obtain ⟨_, hnext, hshown⟩ := settle_steady (p := { p with shown := [] })
      (Or.inl (rfl : Queue.Act.run k = .run k)) n
    have hjournal := (calls_journal (I := fun N : Line => N.next = p.next)
      (w := fun c => walk p.next (rank c.1 + 1) c)
      (handed names n k { p with shown := [] }) hcall hnext).2
    rw [hshown, handed_eq] at hjournal
    exact hjournal
  | drop n k =>
    obtain ⟨_, _, hshown⟩ := settle_steady (p := { p with shown := [] })
      (Or.inr (rfl : Queue.Act.drop k = .drop k)) n
    exact hshown
  | track n id => rfl
  | suspend n flag => rfl
  | expire t => rfl

theorem events_concat (p : Line) (acts : List Act) (a : Act) :
    p.events names rank (acts ++ [a]) =
      p.events names rank acts ++ (step names rank (run (step names rank) p acts) a).shown :=
  trace_concat p acts a

theorem journal_concat (p : Line) (acts : List Act) (a : Act) :
    p.journal names rank (acts ++ [a]) =
      p.journal names rank acts ++
        ((run (step names rank) p acts).starts a).flatMap fun c =>
          walk (run (step names rank) p acts).next (rank c.1 + 1) c := by
  rw [journal, events_concat, List.filterMap_append, step_journal]
  rfl

/-- Calls go down. -/
theorem falls (h : Acyclic rank p) : Falls p.next (fun c => rank c.1) :=
  falls_nextCalls h fun _ _ _ hx => (Stage.mem_conveys hx).1

end Line

end WfcIo

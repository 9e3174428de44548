import WfcIo.Pipeline.Component

/-!
# Pipelines

Components that point to one another without a cycle. A message enters at any of them; a queue
that is not suspended keeps it, and hands it on when the workflow runs the post. In between, more
messages enter, components are suspended and resumed, and objects are gone.

A hub copies the data for each peer and does not ask whether there are any, though brokers and
statistics hand a message without data on. A queue without a target goes on with the null
pointer if it is suspended and there is no handler. Nothing else in a pipeline does harm.

## Main definitions

- `Pipeline`, `Pipeline.step` — the components, and what happens next
- `Pipeline.Tolerable` — what is called leads to no component that the message does harm to

## Main results

- `Pipeline.step_shown_iff` — one step
- `Pipeline.tolerates_iff` — which runs dereference no null pointer
-/

namespace WfcIo

open Foundation

/-- The components, and the faults of the last step. -/
abbrev Pipeline := Network ℕ Component Fault

namespace Component

/-- The component is suspended or resumed. -/
def suspend (flag : Bool) : Component → Component
  | .broker b => .broker { b with suspended := flag }
  | .statistics s => .statistics { s with suspended := flag }
  | .queue q => .queue { q with suspended := flag }
  | .hub h => .hub { h with suspended := flag }
  | .leaf => .leaf

/-- The last owners of the object `t` have let it go. -/
def expire (t : ℕ) : Component → Component
  | .broker b => .broker { b with expired := b.expired ++ [t] }
  | .statistics s => .statistics { s with expired := s.expired ++ [t] }
  | .queue q => .queue { q with expired := q.expired ++ [t] }
  | .hub h => .hub { h with expired := h.expired ++ [t], gone := h.gone ++ [t] }
  | .leaf => .leaf

/-- The component itself is gone. What a queue has posted is still there. -/
def destroy : Component → Component
  | .queue q => .queue { q with alive := false }
  | c => c

theorem suspend_links (flag : Bool) (c : Component) : (c.suspend flag).links = c.links := by
  cases c <;> rfl

theorem expire_links (t : ℕ) (c : Component) : (c.expire t).links = c.links := by
  cases c <;> rfl

theorem destroy_links (c : Component) : c.destroy.links = c.links := by
  cases c <;> rfl

end Component

namespace Pipeline

/-- A message enters at the object `n`, the workflow of the queue `n` runs or drops its `k`-th
    pending post, a component is suspended or resumed, or an object is gone. -/
inductive Act
  | enter (n : ℕ) (m : Message)
  | run (n : ℕ) (k : ℕ)
  | drop (n : ℕ) (k : ℕ)
  | suspend (n : ℕ) (flag : Bool)
  | expire (n : ℕ)
  deriving DecidableEq

variable (names : Names) (rank : ℕ → ℕ)

/-- The object `c.1` is called, and what it calls, down to the end of the pipeline. -/
def call (c : ℕ × Message) (p : Pipeline) : Pipeline :=
  cascade (Component.performIo names) (rank c.1 + 1) c p

/-- The messages that the queue `n` hands on when the workflow does `a`. -/
def handed (n : ℕ) (a : Queue.Act) (p : Pipeline) : List (ℕ × Message) :=
  match p.node n with
  | .queue q => (Queue.step q a).outcomes.filterMap (Component.queueSend names n)
  | _ => []

/-- The workflow of the queue `n` does `a`. -/
def settle (n : ℕ) (a : Queue.Act) (p : Pipeline) : Pipeline :=
  match p.node n with
  | .queue q => { p with node := Function.update p.node n (.queue (Queue.step q a)) }
  | _ => p

def exec (p : Pipeline) : Act → Pipeline
  | .enter n m => p.call names rank (n, m)
  | .run n k =>
    (p.handed names n (.run k)).foldl (fun p c => p.call names rank c) (p.settle n (.run k))
  | .drop n k => p.settle n (.drop k)
  | .suspend n flag => { p with node := Function.update p.node n ((p.node n).suspend flag) }
  | .expire t =>
    { p with node := fun n => if n = t then ((p.node n).expire t).destroy else (p.node n).expire t }

def step (p : Pipeline) (a : Act) : Pipeline := exec names rank { p with shown := [] } a

/-- What the `k`-th pending post of the queue `n` hands on. -/
def posted (n k : ℕ) (p : Pipeline) : List (ℕ × Outline) :=
  match p.node n with
  | .queue q =>
    match q.pending[k]? with
    | some post =>
      if post.request.id ∉ q.untracked ∧ q.alive = true then
        q.lockTarget.toList.map fun t => (t, outline post.request)
      else []
    | none => []
  | _ => []

/-- What an action calls. -/
def starts (p : Pipeline) : Act → List (ℕ × Outline)
  | .enter n m => [(n, outline m)]
  | .run n k => p.posted n k
  | _ => []

/-- What the action calls leads to no component that the message does harm to. -/
def Tolerable (p : Pipeline) (a : Act) : Prop :=
  ∀ c ∈ p.starts a, Calm Component.passes Component.alarms p c

/-- The components point to one another without a cycle. -/
def Acyclic (p : Pipeline) : Prop := Ranked Component.links rank p

variable {names : Names} {rank : ℕ → ℕ} {p : Pipeline}

/-! ### One step -/

/-- The two pipelines pass messages on in the same way. -/
abbrev Same (p p' : Pipeline) : Prop :=
  Alike Component.links Component.passes Component.alarms p p'

theorem call_spec (c : ℕ × Message) (h : Acyclic rank p) :
    Same p (p.call names rank c) ∧
      ((p.call names rank c).shown = [] ↔
        p.shown = [] ∧ Calm Component.passes Component.alarms p (c.1, outline c.2)) :=
  cascade_spec (Component.outlines names) h (Nat.lt_succ_self _)

/-- The depth of the rank is enough: with more fuel a call does the same. -/
theorem call_eq (c : ℕ × Message) (h : Acyclic rank p) {f : ℕ} (hf : rank c.1 < f) :
    p.call names rank c = cascade (Component.performIo names) f c p :=
  cascade_eq_of_rank_lt (Component.outlines names) h (Nat.lt_succ_self _) hf

/-- A post that is run or dropped changes nothing that decides where messages go. -/
theorem settle_same {a : Queue.Act} (ha : ∀ q : Queue, ∃ pending outcomes calls,
    Queue.step q a = { q with pending, outcomes, calls }) (n : ℕ) : Same p (p.settle n a) := by
  simp only [settle]
  split
  · next q hq =>
    obtain ⟨pending, outcomes, calls, hstep⟩ := ha q
    rw [hstep]
    refine ⟨fun j => ?_, fun j => ?_, fun j => ?_⟩
    all_goals
      by_cases hj : j = n
      · subst hj
        simp only [Function.update_self, hq]
        rfl
      · simp only [Function.update_of_ne hj]
  · exact .refl p

theorem run_same (n k : ℕ) : Same p (p.settle n (.run k)) := by
  refine settle_same (fun q => ?_) n
  simp only [Queue.step, Queue.exec, Queue.settle]
  split
  · exact ⟨_, _, _, rfl⟩
  · exact ⟨_, _, _, rfl⟩

theorem drop_same (n k : ℕ) : Same p (p.settle n (.drop k)) := by
  refine settle_same (fun q => ?_) n
  simp only [Queue.step, Queue.exec, Queue.settle]
  split
  · exact ⟨_, _, _, rfl⟩
  · exact ⟨_, _, _, rfl⟩

theorem settle_shown (n : ℕ) (a : Queue.Act) : (p.settle n a).shown = p.shown := by
  simp only [settle]
  split <;> rfl

/-- What the task of a post hands on. -/
theorem task_sends (n number : ℕ) (q : Queue) (r : Message) :
    (((q.task r).map (number, ·)).toList.filterMap (Component.queueSend names n)).map
        (Prod.map id outline) =
      if r.id ∉ q.untracked ∧ q.alive = true then
        q.lockTarget.toList.map fun t => (t, outline r)
      else [] := by
  by_cases hid : r.id ∈ q.untracked
  · simp [Queue.task, hid, Component.queueSend]
  · cases halive : q.alive with
    | false => simp [Queue.task, hid, halive]
    | true =>
      cases htarget : q.lockTarget with
      | none => cases hhandler : r.handler <;>
          simp [Queue.task, hid, halive, htarget, hhandler, Component.queueSend]
      | some t =>
        -- the handler is wrapped or not, but it stays a handler
        have hreply : (names.reply n (q.makeHandler_ r.handler)).isSome = r.handler.isSome := by
          cases r.handler with
          | none => rfl
          | some f => cases hc : q.callbackWorkflow <;> simp [Queue.makeHandler_, hc, Names.reply]
        simp [Queue.task, hid, halive, htarget, Component.queueSend, outline, hreply]

/-- What a post hands on, and to whom. -/
theorem handed_run (n k : ℕ) :
    (p.handed names n (.run k)).map (Prod.map id outline) = p.posted n k := by
  simp only [handed, posted]
  split
  · next q _ =>
    have hpending : q.quiet.pending = q.pending := rfl
    simp only [Queue.step, Queue.exec, hpending]
    cases hpost : q.pending[k]? with
    | none => rfl
    | some post => exact task_sends n post.number q post.request
  · rfl

/-- A step changes no pointers, so there is still no cycle. -/
theorem acyclic_step (h : Acyclic rank p) (a : Act) : Acyclic rank (p.step names rank a) := by
  have hshown : Acyclic rank { p with shown := [] } := h
  cases a with
  | enter n m => exact (call_spec (n, m) hshown).1.ranked hshown
  | run n k =>
    have hsettle := (run_same (p := { p with shown := [] }) n k).ranked hshown
    exact (calls_spec _ (fun c _ N hN => call_spec c hN) hsettle).1.ranked hsettle
  | drop n k => exact (drop_same n k).ranked hshown
  | suspend n flag =>
    intro j t ht
    refine h j t ?_
    simp only [step, exec, Function.update_apply] at ht
    split at ht
    · next hj =>
      subst hj
      rwa [Component.suspend_links] at ht
    · exact ht
  | expire u =>
    intro j t ht
    refine h j t ?_
    simp only [step, exec] at ht
    split at ht
    · rwa [Component.destroy_links, Component.expire_links] at ht
    · rwa [Component.expire_links] at ht

/-- **One step.** A step dereferences no null pointer exactly if what it calls leads to no
    component that the message does harm to. -/
theorem step_shown_iff (h : Acyclic rank p) (a : Act) :
    (p.step names rank a).shown = [] ↔ p.Tolerable a := by
  have hshown : Acyclic rank { p with shown := [] } := h
  cases a with
  | enter n m =>
    have hcall := (@call_spec names rank _ (n, m) hshown).2
    refine hcall.trans ?_
    simp only [Tolerable, starts, List.forall_mem_singleton, true_and]
    rfl
  | run n k =>
    have hsame := run_same (p := { p with shown := [] }) n k
    obtain ⟨_, hcalls⟩ := calls_spec (p.handed names n (.run k))
      (fun c _ N hN => @call_spec names rank N c hN) (hsame.ranked hshown)
    refine hcalls.trans ?_
    rw [settle_shown, Tolerable, starts, ← @handed_run names p, List.forall_mem_map]
    simp only [hsame.calm_iff, true_and]
    rfl
  | drop n k =>
    refine iff_of_true ?_ fun c hc => absurd hc List.not_mem_nil
    exact settle_shown (p := { p with shown := [] }) n (.drop k)
  | suspend n flag => exact iff_of_true rfl fun c hc => absurd hc List.not_mem_nil
  | expire t => exact iff_of_true rfl fun c hc => absurd hc List.not_mem_nil

/-! ### What a message carries to where it goes -/

/-- The data are the same wherever a message gets to. -/
theorem reach_d {c c' : ℕ × Outline} (h : Reach Component.passes p c c') : c'.2.d = c.2.d := by
  induction h with
  | refl => rfl
  | tail _ hstep ih => exact (Component.mem_passes hstep).2.trans ih

/-- A message that stays where it is does no harm if it does none there. -/
theorem calm_of_stays {c : ℕ × Outline} (hquiet : ¬ Component.alarms (p.node c.1) c.2)
    (hstays : Component.passes (p.node c.1) c.2 = []) :
    Calm Component.passes Component.alarms p c :=
  calm_iff_passes.mpr ⟨hquiet, fun _ hc' => absurd (hstays ▸ hc') List.not_mem_nil⟩

/-- A message that is passed on to one object does no harm if it does none here and none there. -/
theorem calm_of_forwards {c c' : ℕ × Outline} (hquiet : ¬ Component.alarms (p.node c.1) c.2)
    (hforwards : Component.passes (p.node c.1) c.2 = [c'])
    (hthere : Calm Component.passes Component.alarms p c') :
    Calm Component.passes Component.alarms p c := by
  refine calm_iff_passes.mpr ⟨hquiet, fun c'' hc'' => ?_⟩
  rw [hforwards] at hc''
  exact List.mem_singleton.mp hc'' ▸ hthere

/-- A message with data does no harm if no suspended queue has lost its target. -/
theorem calm_of_data {c : ℕ × Outline} (hd : c.2.d ≠ none)
    (hqueue : ∀ n q, p.node n = .queue q → q.suspended = true → q.lockTarget ≠ none) :
    Calm Component.passes Component.alarms p c := by
  intro c' hreach halarm
  have hdata := reach_d hreach
  cases hnode : p.node c'.1 with
  | queue q =>
    rw [hnode] at halarm
    exact hqueue c'.1 q hnode halarm.2.1 halarm.2.2.1
  | hub h =>
    rw [hnode] at halarm
    exact hd (hdata.symm.trans halarm.2.1)
  | _ =>
    rw [hnode] at halarm
    exact halarm

/-! ### Runs -/

theorem acyclic_run (h : Acyclic rank p) (acts : List Act) :
    Acyclic rank (run (step names rank) p acts) :=
  run_invariant (I := Acyclic rank) (fun _ a hp => acyclic_step hp a) h acts

/-- A broker in front of a hub with the peer 2. -/
def brokerAndHub : Pipeline where
  node
    | 0 => .broker { target := some 1 }
    | 1 => .hub { id := 9, map := OrderedMap.empty.assign 7 (some 2) }
    | _ => .leaf

def depth (n : ℕ) : ℕ := 2 - n

theorem acyclic_brokerAndHub : Acyclic depth brokerAndHub := by
  intro n t ht
  match n with
  | 0 =>
    obtain ht | ⟨r, hr, _⟩ := ht
    · cases ht
      decide
    · cases hr
  | 1 =>
    obtain ht | ⟨k, hk⟩ := ht
    · cases ht
    · rw [OrderedMap.find_assign] at hk
      split at hk
      · cases hk
        decide
      · cases hk
  | n + 2 => cases ht

def noNames : Names := ⟨fun _ _ _ => 0, fun _ _ => 0⟩

/-- A message with data, one without data from the only peer, one when the peer is gone, and one
    when the hub is. -/
def nothingToSay : List Act :=
  [.enter 0 ⟨some [1], 5, none⟩, .enter 0 ⟨none, 7, none⟩, .expire 2, .enter 0 ⟨none, 5, none⟩,
    .expire 1, .enter 0 ⟨none, 5, some 3⟩]

end Pipeline

end WfcIo

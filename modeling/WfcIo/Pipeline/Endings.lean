import WfcIo.Pipeline.Line

/-!
# Where messages end

A message that enters a line is passed on, kept by a queue, or it comes to an end. It ends at an
object outside, which takes it, and otherwise only for a reason: the object that it should be passed
on to is missing or gone, its id is not tracked any more, the workflow drops its post, or the object
that has it is gone itself.

## Main definitions

- `Stage.EndsWith` — what a stage ends a message with that it is called with
- `Queue.RunEnds`, `Queue.DropEnds` — what becomes of the message of a post
- `Line.Excused` — an event does not end a message without a reason

## Main results

- `Line.excused` — no step of a line does
-/

namespace WfcIo

open Foundation

/-- What a queue ends a message with in the task of its post. -/
def Queue.RunEnds (q : Queue) (m : Message) : Ending → Prop
  | .refused f => m.handler = some f ∧ q.alive = true ∧ q.lockTarget = none
  | .dropped => m.id ∈ q.untracked
  | .lost => q.alive = false ∨ q.lockTarget = none ∧ m.handler = none
  | .taken | .fault => False

/-- What a message ends with whose post is dropped. -/
def Queue.DropEnds (m : Message) : Ending → Prop
  | .refused f => m.handler = some f
  | .lost => m.handler = none
  | .taken | .dropped | .fault => False

namespace Stage

/-- What a stage ends a message with that it is called with: an object outside takes it, and the
    others have nobody to pass it on to. -/
def EndsWith (k : Stage) (m : Message) (e : Ending) : Prop :=
  match k with
  | .broker b => e = .lost ∧ b.destination m.d = none
  | .statistics s => e = .lost ∧ s.lockTarget = none
  | .queue q =>
    e = .lost ∧ q.alive = false ∨
      q.lockTarget = none ∧
        ((∃ f, e = .refused f ∧ m.handler = some f) ∨
          e = .fault ∧ m.handler = none ∧ q.suspended = true)
  | .leaf => e = .taken

variable {names : Names} {n : ℕ} {c : SourceCall} {k : Stage}

theorem statistics_sends_performIo (names : Names) (n : ℕ) (m : Message) (s : Statistics) :
    (s.call (.performIo m.d m.id m.handler)).outcalls.filterMap (statisticsSend names n) =
      s.lockTarget.toList.map fun t =>
        (t, .performIo m.d m.id (names.handed n (s.handed m.d m.handler))) := by
  have hlock : s.quiet.lockTarget = s.lockTarget := rfl
  have hquiet : s.quiet.outcalls = [] := rfl
  have hmetering : (s.quiet.metering m.d).filterMap (statisticsSend names n) = [] := by
    rw [Statistics.metering]
    split <;> rfl
  rw [Statistics.call, Statistics.performIo_eq, hlock]
  cases s.lockTarget with
  | none => rfl
  | some t =>
    simp only [hquiet, List.nil_append, List.filterMap_append, hmetering]
    rfl

/-- A message is refused through its own handler. -/
theorem handler_of_refused {m : Message} {f : Handler} (h : k.EndsWith m (.refused f)) :
    m.handler = some f := by
  cases k with
  | broker b => cases h.1
  | statistics s => cases h.1
  | queue q =>
    obtain ⟨heq, _⟩ | ⟨_, ⟨g, heq, hg⟩ | ⟨heq, _⟩⟩ := h
    · cases heq
    · cases heq
      exact hg
    · cases heq
  | leaf => cases h

/-! ### One call -/

/-- A call changes nothing that decides which messages end. -/
theorem call_endsWith (names : Names) (n : ℕ) (c : SourceCall) (k : Stage) :
    (call names n c k).state.EndsWith = k.EndsWith := by
  cases k with
  | broker b =>
    obtain ⟨calls, logs, hstate⟩ := broker_state c b
    simp only [call, hstate]
    rfl
  | statistics s =>
    obtain ⟨meters, outcalls, hstate⟩ := statistics_state c s
    simp only [call, hstate]
    rfl
  | queue q =>
    obtain ⟨given, pending, untracked, outcomes, calls, hstate⟩ := queue_state c q
    simp only [call, hstate]
    rfl
  | leaf => rfl

/-- Nothing is sent, so there is nobody to send to. -/
theorem mem_unsent {j : ℕ} {m : Message} {e : Ending} (w : Option Target)
    (handler : Option Handler) {sends : List (ℕ × SourceCall)}
    (hsends : ∀ d id h, c = .performIo d id h →
      sends = w.toList.map fun t => (t, IoCall.performIo d id handler))
    (h : .ended j m e ∈ unsent n sends c) :
    j = n ∧ c = .performIo m.d m.id m.handler ∧ e = .lost ∧ w = none := by
  cases c with
  | performIo d id handler' =>
    rw [unsent, hsends d id handler' rfl] at h
    cases w with
    | none =>
      cases List.mem_singleton.mp h
      exact ⟨rfl, rfl, rfl, rfl⟩
    | some t => cases h
  | regIo id itf => cases h
  | unregIo id => cases h

/-- What a queue does at once: without a target it calls the handler of the message, or goes on with
    the null pointer if it is suspended. -/
theorem mem_atOnce {j : ℕ} {m : Message} {e : Ending} {q : Queue}
    (h : .ended j m e ∈ atOnce n q c) : j = n ∧ EndsWith (.queue q) m e := by
  cases c with
  | regIo id itf => cases h
  | unregIo id => cases h
  | performIo d id handler =>
    rw [atOnce] at h
    cases halive : q.alive with
    | false =>
      rw [halive] at h
      cases List.mem_singleton.mp h
      exact ⟨rfl, Or.inl ⟨rfl, halive⟩⟩
    | true =>
      rw [halive, if_pos rfl] at h
      obtain ⟨e', he', heq⟩ := List.mem_map.mp h
      cases heq
      refine ⟨rfl, Or.inr ?_⟩
      obtain ⟨o, ho, hending⟩ := Option.bind_eq_some_iff.mp (Option.mem_toList.mp he')
      simp only [Queue.atOnce] at ho
      cases hlock : q.lockTarget with
      | none =>
        refine ⟨rfl, ?_⟩
        rw [hlock] at ho
        cases handler with
        | some f =>
          cases ho
          exact Or.inl ⟨f, (Option.some.inj hending).symm, rfl⟩
        | none =>
          simp only at ho
          split at ho
          · next hsuspended =>
            cases ho
            exact Or.inr ⟨(Option.some.inj hending).symm, rfl, hsuspended⟩
          · cases ho
      | some t =>
        -- what is passed on has not come to an end
        rw [hlock] at ho
        simp only at ho
        split at ho
        · cases ho
          cases hending
        · cases ho

/-- **One call.** A message that ends in a stage that is called ends there for a reason. -/
theorem endsWith_of_shows {j : ℕ} {m : Message} {e : Ending}
    (h : .ended j m e ∈ (call names n c k).shows) : j = n ∧ k.EndsWith m e := by
  cases k with
  | broker b =>
    obtain heq | h := List.mem_cons.mp h
    · cases heq
    · cases c with
      | performIo d id handler =>
        obtain ⟨rfl, hc, rfl, hnone⟩ := mem_unsent (b.destination d) handler
          (fun d' id' h' heq => by
            cases heq
            exact Component.broker_calls ⟨d, id, handler⟩ b) h
        cases hc
        exact ⟨rfl, rfl, hnone⟩
      | regIo id itf => cases h
      | unregIo id => cases h
  | statistics s =>
    obtain heq | h := List.mem_cons.mp h
    · cases heq
    · cases c with
      | performIo d id handler =>
        obtain ⟨rfl, _, rfl, hnone⟩ := mem_unsent s.lockTarget
          (names.handed n (s.handed d handler)) (fun d' id' h' heq => by
            cases heq
            exact statistics_sends_performIo names n ⟨d, id, handler⟩ s) h
        exact ⟨rfl, rfl, hnone⟩
      | regIo id itf => cases h
      | unregIo id => cases h
  | queue q =>
    obtain heq | h := List.mem_cons.mp h
    · cases heq
    · exact mem_atOnce h
  | leaf =>
    obtain heq | h := List.mem_cons.mp h
    · cases heq
    · cases c with
      | performIo d id handler =>
        cases List.mem_singleton.mp h
        exact ⟨rfl, rfl⟩
      | regIo id itf => cases h
      | unregIo id => cases h

end Stage

/-! ### Posts -/

namespace Queue

variable {q : Queue} {m : Message} {e : Ending}

/-- A message that ends in the task of its post ends for a reason. -/
theorem runEnds_of_ending (h : ending (q.task m) = some e) : q.RunEnds m e := by
  rw [task] at h
  split at h
  · next hid =>
    cases h
    exact hid
  · cases halive : q.alive with
    | false =>
      rw [halive] at h
      cases h
      exact Or.inl halive
    | true =>
      rw [halive, if_pos rfl] at h
      cases hlock : q.lockTarget with
      | some t =>
        rw [hlock] at h
        cases h
      | none =>
        rw [hlock] at h
        cases hhandler : m.handler with
        | none =>
          rw [hhandler] at h
          cases h
          exact Or.inr ⟨hlock, hhandler⟩
        | some f =>
          rw [hhandler] at h
          cases h
          exact ⟨hhandler, halive, hlock⟩

theorem dropEnds_of_ending (h : ending (dropTask m) = some e) : DropEnds m e := by
  rw [dropTask] at h
  cases hhandler : m.handler with
  | none =>
    rw [hhandler] at h
    cases h
    exact hhandler
  | some f =>
    rw [hhandler] at h
    cases h
    exact hhandler

end Queue

namespace Line

/-- The event ends no message without a reason: it is an object outside that takes it, there is
    nobody to pass it on to, or it is the message of the post that the action settles. -/
def Excused (p : Line) (a : Act) : Event → Prop
  | .called _ _ => True
  | .ended n m e =>
    (p.node n).EndsWith m e ∨
      ∃ q k post, p.node n = .queue q ∧ q.pending[k]? = some post ∧ post.request = m ∧
        (a = .run n k ∧ q.RunEnds m e ∨ a = .drop n k ∧ Queue.DropEnds m e)

variable {names : Names} {rank : ℕ → ℕ} {p : Line} {a : Act}

/-- So far in the step, everything has happened for a reason. -/
structure Reasoned (p : Line) (a : Act) (N : Line) : Prop where
  ends : ∀ n, (N.node n).EndsWith = (p.node n).EndsWith
  excused : ∀ e ∈ N.shown, Excused p a e

theorem Reasoned.call {N : Line} (h : Reasoned p a N) (c : ℕ × SourceCall) :
    Reasoned p a (N.call names rank c) := by
  refine cascade_invariant (Q := Reasoned p a) (I := fun _ => True)
    (fun c N _ hN => ⟨⟨fun j => ?_, fun e he => ?_⟩, fun _ _ => trivial⟩) trivial h
  · show (Function.update N.node c.1 (Stage.call names c.1 c.2 (N.node c.1)).state j).EndsWith = _
    by_cases hj : j = c.1
    · subst hj
      rw [Function.update_self, Stage.call_endsWith, hN.ends]
    · rw [Function.update_of_ne hj, hN.ends]
  · obtain he | he := List.mem_append.mp he
    · exact hN.excused e he
    · cases e with
      | called j c' => trivial
      | ended j m e =>
        obtain ⟨rfl, hends⟩ := Stage.endsWith_of_shows he
        exact Or.inl (hN.ends _ ▸ hends)

/-- The workflow runs or drops a post. -/
theorem reasoned_settle {n k : ℕ} {b : Queue.Act}
    (hb : a = .run n k ∧ b = .run k ∨ a = .drop n k ∧ b = .drop k) :
    Reasoned p a (settle n k b { p with shown := [] }) := by
  have hkind : b = .run k ∨ b = .drop k := hb.imp And.right And.right
  simp only [settle]
  split
  · next q hq =>
    split
    · next post hpost =>
      have hq' : p.node n = .queue q := hq
      have hpending : q.quiet.pending[k]? = some post := hpost
      refine ⟨fun j => ?_, fun e he => ?_⟩
      · obtain ⟨pending, outcomes, calls, hstate⟩ := Stage.settle_state hkind q
        show (Function.update p.node n (.queue (Queue.step q b)) j).EndsWith = _
        by_cases hj : j = n
        · subst hj
          rw [Function.update_self, hstate, hq']
          rfl
        · rw [Function.update_of_ne hj]
      · obtain ⟨e', he', rfl⟩ := List.mem_map.mp ((List.nil_append _).symm ▸ he)
        refine Or.inr ⟨q, k, post, hq', hpost, rfl, ?_⟩
        have houtcome : ∀ o : Option Queue.Outcome,
            ((q.quiet.settle k post o).outcomes.map Prod.snd).head? = o := fun o => by
          cases o <;> rfl
        have hending := Option.mem_toList.mp he'
        refine hb.imp ?_ ?_
        · rintro ⟨ha, rfl⟩
          simp only [Queue.step, Queue.exec, hpending, houtcome] at hending
          exact ⟨ha, Queue.runEnds_of_ending hending⟩
        · rintro ⟨ha, rfl⟩
          simp only [Queue.step, Queue.exec, hpending, houtcome] at hending
          exact ⟨ha, Queue.dropEnds_of_ending hending⟩
    · exact ⟨fun _ => rfl, fun e he => by cases he⟩
  · exact ⟨fun _ => rfl, fun e he => by cases he⟩

/-- **Reasons.** No message ends in a step without a reason. -/
theorem excused (names : Names) (rank : ℕ → ℕ) (p : Line) (a : Act) :
    ∀ e ∈ (step names rank p a).shown, Excused p a e := by
  have hquiet : Reasoned p a { p with shown := [] } := ⟨fun _ => rfl, fun e he => by cases he⟩
  cases a with
  | enter n c => exact (hquiet.call (n, c)).excused
  | run n k =>
    exact (List.foldlRecOn (motive := Reasoned p (.run n k)) _ _
      (reasoned_settle (Or.inl ⟨rfl, rfl⟩)) fun N hN c _ => hN.call c).excused
  | drop n k => exact (reasoned_settle (Or.inr ⟨rfl, rfl⟩)).excused
  | track n id => exact fun e he => by cases he
  | suspend n flag => exact fun e he => by cases he
  | expire t => exact fun e he => by cases he

end Line

end WfcIo

import WfcIo.Pipeline.Endings
import WfcIo.Foundation.Conservation

/-!
# The account of a line

What becomes of the messages that enter a line. A broker, statistics or a queue passes a message on
to one object at most, and hands it a handler that leads to the one of the source. So a message is
in one place: a queue keeps it, or it has come to an end, at an object outside or, for a reason, on
the way there.

Handlers are compared by where they lead, `root`: the lambda of the statistics and the handler that
a queue makes lead to where the handler leads that they hold.

## Main definitions

- `Rooted` — where the handlers that components make lead
- `Parcel`, `Line.held`, `Line.entered`, `Line.ended` — the messages, as multisets

## Main results

- `Stage.conserves` — no stage loses, copies or alters a message
- `Line.accounted` — in a run, every message is in one place
-/

namespace WfcIo

open Foundation

/-- What of a message stays the same on its way: the data, the id, and where the handler leads. -/
abbrev Parcel := DataPtr × IoId × Option Handler

/-- A handler that a component makes leads to where the handler leads that it holds. -/
structure Rooted (names : Names) (root : Option Handler → Option Handler) : Prop where
  metered : ∀ n handler k, root (some (names.metered n handler k)) = root handler
  queued : ∀ n f, root (some (names.queued n f)) = root (some f)

/-- The message as a parcel. -/
def parcel (root : Option Handler → Option Handler) (m : Message) : Parcel :=
  (m.d, m.id, root m.handler)

variable (root : Option Handler → Option Handler)

/-- The message of a call. -/
def load : SourceCall → Multiset Parcel
  | .performIo d id handler => {parcel root ⟨d, id, handler⟩}
  | _ => 0

@[simp] theorem load_performIo (m : Message) :
    load root (.performIo m.d m.id m.handler) = {parcel root m} := rfl

/-- The message that comes to its end. -/
def Event.worth : Event → Multiset Parcel
  | .ended _ m _ => {parcel root m}
  | .called _ _ => 0

namespace Stage

/-- The messages that wait in a queue. -/
def held : Stage → Multiset Parcel
  | .queue q => ↑(q.pending.map fun post => parcel root post.request)
  | _ => 0

variable {root} {names : Names}

/-! ### One call -/

theorem load_of_uses {c : SourceCall} (hc : c.uses = none) : load root c = 0 := by
  cases c with
  | performIo d id handler => cases hc
  | regIo id itf => rfl
  | unregIo id => rfl

/-- Nothing that is passed on is a message if the call is none. -/
theorem sum_sends_of_uses (n : ℕ) {c : SourceCall} (hc : c.uses = none) (k : Stage) :
    ((call names n c k).sends.map fun c => load root c.2).sum = 0 := by
  refine List.sum_eq_zero fun x hx => ?_
  obtain ⟨c', hc', rfl⟩ := List.mem_map.mp hx
  refine load_of_uses ?_
  rw [← uses_sketch, (mem_sends hc').2, uses_sketch, hc]

/-- A message that is passed on, or ends. -/
theorem sum_unsent (n : ℕ) (m : Message) {handler : Option Handler}
    (hroot : root handler = root m.handler) (w : Option Target) :
    ((w.toList.map fun t => (t, IoCall.performIo m.d m.id handler)).map
        fun c : ℕ × SourceCall => load root c.2).sum +
      ((unsent n (w.toList.map fun t => (t, IoCall.performIo m.d m.id handler))
        (.performIo m.d m.id m.handler)).map (Event.worth root)).sum = {parcel root m} := by
  cases w with
  | none => simp [unsent, Event.worth]
  | some t => simp [unsent, load, parcel, hroot]

/-- The lambda of the statistics leads to where the handler of the message does. -/
theorem root_handed (hrooted : Rooted names root) (n : ℕ) (m : Message) (s : Statistics) :
    root (names.handed n (s.handed m.d m.handler)) = root m.handler := by
  rw [Statistics.handed]
  split
  · exact hrooted.metered n m.handler s.meters
  · rfl

/-- The handler that a queue makes leads to where the handler of the message does. -/
theorem root_reply (hrooted : Rooted names root) (n : ℕ) (handler : Option Handler) (q : Queue) :
    root (names.reply n (q.makeHandler_ handler)) = root handler := by
  cases handler with
  | none => rfl
  | some f =>
    rw [Queue.makeHandler_]
    split
    · exact hrooted.queued n f
    · rfl

/-- The task of a post passes on what it holds, with the handler made for it. -/
theorem task_target {q : Queue} {m : Message} {t : Target} {d : DataPtr} {id : IoId}
    {reply : ReplyHandler} (h : q.task m = some (.target t d id reply)) :
    q.lockTarget = some t ∧ d = m.d ∧ id = m.id ∧ reply = q.makeHandler_ m.handler := by
  simp only [Queue.task] at h
  split at h
  · cases h
  · split at h
    · split at h
      · next t' ht' =>
        cases h
        exact ⟨ht', rfl, rfl, rfl⟩
      · obtain ⟨_, _, hhandler⟩ := Option.map_eq_some_iff.mp h
        cases hhandler
    · cases h

/-- What a queue sends for one outcome. -/
theorem queueSend_singleton (n k : ℕ) (o : Queue.Outcome) :
    [(k, o)].filterMap (queueSend names n) =
      match o with
      | .target t d id reply => [(t, .performIo d id (names.reply n reply))]
      | _ => [] := by
  cases o <;> rfl

/-- A queue that is called by `perform_io` passes the message on, ends it, or keeps it. -/
theorem queue_conserves (root : Option Handler → Option Handler) (names : Names) (n : ℕ)
    (m : Message) (q : Queue) :
    held root (.queue q) + load root (.performIo m.d m.id m.handler) =
      held root (.queue (Queue.step q (.performIo m))) +
        (((Queue.step q (.performIo m)).outcomes.filterMap (queueSend names n)).map
          fun c => load root c.2).sum +
        ((atOnce n q (.performIo m.d m.id m.handler)).map (Event.worth root)).sum := by
  have halive : q.quiet.alive = q.alive := rfl
  have hatOnce : q.quiet.atOnce m = q.atOnce m := rfl
  simp only [Queue.step, Queue.exec, Queue.performIo, halive, hatOnce, atOnce, load_performIo]
  cases q.alive with
  | false => simp [held, Queue.quiet, Event.worth]
  | true =>
    simp only [if_true]
    cases hq : q.atOnce m with
    | none =>
      have hadd := Multiset.coe_add (q.pending.map fun post => parcel root post.request)
        [parcel root m]
      simpa [held, Queue.quiet] using hadd
    | some o =>
      cases o with
      | target t d id reply =>
        -- the direct call goes on with the arguments of the message
        have hsame : d = m.d ∧ id = m.id ∧ names.reply n reply = m.handler := by
          simp only [Queue.atOnce] at hq
          split at hq
          · split at hq
            · cases hq
            · split at hq
              · cases hq
              · cases hq
          · split at hq
            · cases hq
              exact ⟨rfl, rfl, rfl⟩
            · cases hq
        obtain ⟨rfl, rfl, hreply⟩ := hsame
        simp [held, Queue.quiet, ending, queueSend_singleton, hreply]
      | handler f d => simp [held, Queue.quiet, ending, queueSend_singleton, Event.worth]
      | dropped id => simp [held, Queue.quiet, ending, queueSend_singleton, Event.worth]
      | nullTarget => simp [held, Queue.quiet, ending, queueSend_singleton, Event.worth]

/-- A queue that is told about a registration keeps what it has. -/
theorem queue_held_of_uses {c : SourceCall} (hc : c.uses = none) (q : Queue) :
    (Queue.step q (.ofCall c)).pending = q.pending := by
  cases c with
  | performIo d id handler => cases hc
  | regIo id itf =>
    obtain ⟨calls, hspec⟩ := Queue.regIo_spec id itf q.quiet
    simp only [Queue.Act.ofCall, Queue.step, Queue.exec, hspec]
    split <;> rfl
  | unregIo id =>
    obtain ⟨calls, hspec⟩ := Queue.unregIo_spec id q.quiet
    simp only [Queue.Act.ofCall, Queue.step, Queue.exec, hspec]
    split <;> rfl

/-- A word about a registration has no worth. -/
theorem conserves_of_uses (n : ℕ) {c : SourceCall} (hc : c.uses = none) (k : Stage) :
    held root k + load root c =
      held root (call names n c k).state +
        ((call names n c k).sends.map fun c => load root c.2).sum +
        ((call names n c k).shows.map (Event.worth root)).sum := by
  have hheld : held root (call names n c k).state = held root k := by
    cases k with
    | queue q => simp only [call, held, queue_held_of_uses hc]
    | _ => rfl
  have hshows : ((call names n c k).shows.map (Event.worth root)).sum = 0 := by
    cases c with
    | performIo d id handler => cases hc
    | regIo id itf => cases k <;> rfl
    | unregIo id => cases k <;> rfl
  rw [hheld, hshows, sum_sends_of_uses n hc, load_of_uses hc, add_zero, add_zero]

/-- **Stages.** No stage loses, copies or alters a message. -/
theorem conserves (hrooted : Rooted names root) :
    Conserves (call names) (held root) (load root) (Event.worth root) := by
  intro n c k
  cases huses : c.uses with
  | none => exact conserves_of_uses n huses k
  | some id =>
    cases c with
    | regIo id itf => cases huses
    | unregIo id => cases huses
    | performIo d id handler =>
      let m : Message := ⟨d, id, handler⟩
      have hcalled : ∀ l : List Event, ((Event.called n (.performIo d id handler) :: l).map
          (Event.worth root)).sum = (l.map (Event.worth root)).sum := by
        intro l
        rw [List.map_cons, List.sum_cons, Event.worth, zero_add]
      cases k with
      | broker b =>
        have hcalls := Component.broker_calls m b
        simp only [call, hcalled, held, zero_add]
        rw [hcalls]
        exact (sum_unsent n m rfl (b.destination m.d)).symm
      | statistics s =>
        have hsends := statistics_sends_performIo names n m s
        simp only [call, hcalled, held, zero_add]
        rw [hsends]
        exact (sum_unsent n m (root_handed hrooted n m s) s.lockTarget).symm
      | queue q =>
        have hconserves := queue_conserves root names n m q
        have hcalls := queue_performIo_calls q m
        simp only [call, hcalled, Queue.Act.ofCall]
        rw [hcalls, List.nil_append]
        exact hconserves
      | leaf =>
        simp only [call, hcalled, held, taken]
        simp [Event.worth, load]

end Stage

namespace Line

/-! ### Whole runs -/

/-- The messages that the queues of `s` keep. -/
def held (s : Finset ℕ) (p : Line) : Multiset Parcel := ∑ n ∈ s, (p.node n).held root

/-- The message that enters. -/
def Act.load : Act → Multiset Parcel
  | .enter _ c => WfcIo.load root c
  | _ => 0

/-- The messages that have entered. -/
def entered (acts : List Act) : Multiset Parcel := (acts.map (Act.load root)).sum

/-- The messages that have come to an end. -/
def ended (events : List Event) : Multiset Parcel := (events.map (Event.worth root)).sum

/-- What enters, enters at an object of `s`, and the posts that are settled are of such objects. -/
def Act.Within (s : Finset ℕ) : Act → Prop
  | .enter n _ => n ∈ s
  | .run n _ => n ∈ s
  | .drop n _ => n ∈ s
  | _ => True

instance (s : Finset ℕ) : DecidablePred (Act.Within s)
  | .enter n _ => inferInstanceAs (Decidable (n ∈ s))
  | .run n _ => inferInstanceAs (Decidable (n ∈ s))
  | .drop n _ => inferInstanceAs (Decidable (n ∈ s))
  | .track _ _ => .isTrue trivial
  | .suspend _ _ => .isTrue trivial
  | .expire _ => .isTrue trivial

variable {root} {names : Names} {rank : ℕ → ℕ} {s : Finset ℕ} {p : Line} {a : Act}

/-- The messages are those that are kept and those that have come to an end. -/
theorem total_eq (s : Finset ℕ) (p : Line) :
    total (Stage.held root) (Event.worth root) s p = held root s p + ended root p.shown := rfl

/-- A post that is settled goes on, or comes to an end. -/
theorem settled_total {n k : ℕ} (hn : n ∈ s) {q : Queue} (hq : p.node n = .queue q)
    {post : Queue.Task} (hpost : q.pending[k]? = some post) (o : Option Queue.Outcome)
    {b : Queue.Act} (hb : Queue.step q b = q.quiet.settle k post o) :
    total (Stage.held root) (Event.worth root) s (p.settle n k b) +
        (if ending o = none then {parcel root post.request} else 0) =
      total (Stage.held root) (Event.worth root) s p := by
  obtain ⟨r, hsum, hupdate⟩ := exists_rest (Stage.held root) p.node hn
  have hheld : Stage.held root (.queue q) =
      Stage.held root (.queue (q.quiet.settle k post o)) + {parcel root post.request} := by
    obtain ⟨hlt, hget⟩ := List.getElem?_eq_some_iff.mp hpost
    have hperm := (List.getElem_cons_eraseIdx_perm hlt).map fun post => parcel root post.request
    rw [hget, List.map_cons] at hperm
    rw [add_comm]
    exact (Multiset.coe_eq_coe.mpr hperm).symm
  have houtcome : ((q.quiet.settle k post o).outcomes.map Prod.snd).head? = o := by
    cases o <;> rfl
  simp only [settle, hq, hpost, hb, houtcome, total, hupdate, List.map_append, List.sum_append]
  rw [hsum, hq, hheld]
  cases hending : ending o with
  | none =>
    simp only [Option.toList_none, List.map_nil, List.sum_nil, if_true]
    abel
  | some e =>
    simp only [Option.toList_some, List.map_cons, List.map_nil, List.sum_cons, List.sum_nil,
      Event.worth, reduceCtorEq, if_false]
    abel

/-- What the task of a post hands on is its message, if the message does not end there. -/
theorem handed_load (hrooted : Rooted names root) {n k : ℕ} {q : Queue}
    (hq : p.node n = .queue q) {post : Queue.Task} (hpost : q.pending[k]? = some post) :
    ((p.handed names n k).map fun c => load root c.2).sum =
      if ending (q.task post.request) = none then {parcel root post.request} else 0 := by
  have hpending : q.quiet.pending = q.pending := rfl
  have htask : q.quiet.task post.request = q.task post.request := rfl
  simp only [handed, hq, Queue.step, Queue.exec, hpending, hpost, htask]
  cases ho : q.task post.request with
  | none => rfl
  | some o =>
    have hsingle : (q.quiet.settle k post (some o)).outcomes = [(post.number, o)] := rfl
    rw [hsingle, Stage.queueSend_singleton]
    cases o with
    | target t d id reply =>
      obtain ⟨_, rfl, rfl, rfl⟩ := Stage.task_target ho
      simp [ending, load, parcel, Stage.root_reply hrooted]
    | handler f d => rfl
    | dropped id => rfl
    | nullTarget => rfl

/-- An action changes no pointer. -/
theorem step_links (p : Line) (a : Act) (n : ℕ) :
    ((step names rank p a).node n).links = (p.node n).links := by
  by_cases ha : ∀ t, a ≠ .expire t
  · exact (step_steady ha p n).links
  · push Not at ha
    obtain ⟨t, rfl⟩ := ha
    have hdestroy : ∀ k : Stage, k.destroy.links = k.links := fun k => by cases k <;> rfl
    have hexpire : ∀ k : Stage, (k.expire t).links = k.links := fun k => by cases k <;> rfl
    simp only [step, exec]
    split
    · rw [hdestroy, hexpire]
    · rw [hexpire]

theorem Steady.closed {p' : Line} (h : Steady p p') (hclosed : Closed Stage.links s p) :
    Closed Stage.links s p' := by
  intro n hn t ht
  rw [(h n).links] at ht
  exact hclosed n hn t ht

/-- What the task of a post hands on goes to an object of `s`. -/
theorem handed_mem (hclosed : Closed Stage.links s p) {n k : ℕ} (hn : n ∈ s) :
    ∀ c ∈ p.handed names n k, c.1 ∈ s := fun c hc =>
  hclosed n hn c.1 (mem_posted_links (mem_posted_of_handed hc))

/-- A run changes no pointer. -/
theorem run_links (names : Names) (rank : ℕ → ℕ) (p : Line) (acts : List Act) (n : ℕ) :
    ((run (step names rank) p acts).node n).links = (p.node n).links :=
  run_invariant (I := fun p' : Line => ∀ n, (p'.node n).links = (p.node n).links)
    (fun p' a h n => (step_links p' a n).trans (h n)) (fun _ => rfl) acts n

theorem run_acyclic (names : Names) (hacyclic : Acyclic rank p) (acts : List Act) :
    Acyclic rank (run (step names rank) p acts) := by
  intro n t ht
  rw [run_links] at ht
  exact hacyclic n t ht

theorem run_closed (names : Names) (rank : ℕ → ℕ) (hclosed : Closed Stage.links s p)
    (acts : List Act) : Closed Stage.links s (run (step names rank) p acts) := by
  intro n hn t ht
  rw [run_links] at ht
  exact hclosed n hn t ht

/-- What is suspended, tracked again or lost keeps its messages. -/
theorem held_congr {p' : Line} (h : ∀ n, (p'.node n).held root = (p.node n).held root) :
    held root s p' = held root s p := Finset.sum_congr rfl fun n _ => h n

theorem held_update {n : ℕ} {k : Stage} (hk : k.held root = (p.node n).held root)
    (shown : List Event) :
    held root s { node := Function.update p.node n k, shown } = held root s p := by
  refine held_congr fun j => ?_
  show (Function.update p.node n k j).held root = (p.node j).held root
  by_cases hj : j = n
  · subst hj
    rw [Function.update_self, hk]
  · rw [Function.update_of_ne hj]

/-- Calls one after the other, measured by what they are worth. -/
theorem calls_measure {M : Type} [AddCommMonoid M] {r : M → M → Prop} (hr : Additive r)
    (measure : Line → M) (cost : ℕ × SourceCall → M)
    (hdeliver : ∀ c (N : Line), Acyclic rank N → c.1 ∈ s →
      r (measure (N.deliver (Stage.call names) c) +
        ((Stage.call names c.1 c.2 (N.node c.1)).sends.map cost).sum) (measure N + cost c))
    (hacyclic : Acyclic rank p) (hclosed : Closed Stage.links s p) (calls : List (ℕ × SourceCall))
    (hcalls : ∀ c ∈ calls, c.1 ∈ s) :
    r (measure (calls.foldl (fun p c => Line.call names rank c p) p))
      (measure p + (calls.map cost).sum) := by
  have hcall : ∀ c ∈ calls, ∀ N : Line, Alike Stage.links Stage.conveys (fun _ _ => True) p N →
      Alike Stage.links Stage.conveys (fun _ _ => True) N (N.call names rank c) ∧
        r (measure (N.call names rank c)) (measure N + cost c) := by
    intro c hc N hN
    have hrank : Acyclic rank N := hN.ranked hacyclic
    exact ⟨(cascade_spec (Stage.outlines names) hrank (Nat.lt_succ_self _)).1,
      cascade_measure hr measure cost (Stage.outlines names) hdeliver hrank (hN.closed hclosed)
        (hcalls c hc) (Nat.lt_succ_self _)⟩
  exact (Foundation.calls_measure hr measure cost calls hcall).2

/-- The messages of calls one after the other are kept, or come to an end. -/
theorem calls_total (hrooted : Rooted names root) (hacyclic : Acyclic rank p)
    (hclosed : Closed Stage.links s p) (calls : List (ℕ × SourceCall))
    (hcalls : ∀ c ∈ calls, c.1 ∈ s) :
    total (Stage.held root) (Event.worth root) s
        (calls.foldl (fun p c => Line.call names rank c p) p) =
      total (Stage.held root) (Event.worth root) s p + (calls.map fun c => load root c.2).sum :=
  calls_measure additive_eq _ (fun c => load root c.2)
    (fun _ _ _ hc => total_deliver (Stage.conserves hrooted) hc) hacyclic hclosed calls hcalls

/-- A post that is run: its message is handed on, or comes to an end. -/
theorem run_total (hrooted : Rooted names root) (hacyclic : Acyclic rank p)
    (hclosed : Closed Stage.links s p) {n : ℕ} (hn : n ∈ s) (k : ℕ) :
    total (Stage.held root) (Event.worth root) s
        ((p.handed names n k).foldl (fun p c => Line.call names rank c p)
          (p.settle n k (.run k))) =
      total (Stage.held root) (Event.worth root) s p := by
  have hsteady : Steady p (p.settle n k (.run k)) := (settle_steady (Or.inl rfl) n).1
  rw [calls_total hrooted (hsteady.acyclic hacyclic) (hsteady.closed hclosed) _
    (handed_mem hclosed hn)]
  cases hpost : (p.node n).post k with
  | none =>
    -- there is no such post
    have hsettle : p.settle n k (.run k) = p := settle_of_post hpost
    have hposted : p.handed names n k = [] := handed_of_post hpost
    rw [hsettle, hposted, List.map_nil, List.sum_nil, add_zero]
  | some post =>
    obtain ⟨q, hq, hget⟩ := Stage.post_eq_some_iff.mp hpost
    have hrun : Queue.step q (.run k) = q.quiet.settle k post (q.task post.request) := by
      have hpending : q.quiet.pending[k]? = some post := hget
      simp only [Queue.step, Queue.exec, hpending]
      rfl
    rw [handed_load hrooted hq hget]
    exact settled_total hn hq hget _ hrun

/-- A post that is dropped: its message comes to an end. -/
theorem drop_total {n : ℕ} (hn : n ∈ s) (k : ℕ) :
    total (Stage.held root) (Event.worth root) s (p.settle n k (.drop k)) =
      total (Stage.held root) (Event.worth root) s p := by
  cases hpost : (p.node n).post k with
  | none => rw [settle_of_post hpost]
  | some post =>
    obtain ⟨q, hq, hget⟩ := Stage.post_eq_some_iff.mp hpost
    have hdrop : Queue.step q (.drop k) = q.quiet.settle k post (Queue.dropTask post.request) := by
      have hpending : q.quiet.pending[k]? = some post := hget
      simp only [Queue.step, Queue.exec, hpending]
    have htotal : total (Stage.held root) (Event.worth root) s (p.settle n k (.drop k)) + _ = _ :=
      settled_total hn hq hget _ hdrop
    have hends : ending (Queue.dropTask post.request) ≠ none := by
      rw [Queue.dropTask]
      cases post.request.handler with
      | none => exact Option.some_ne_none _
      | some f => exact Option.some_ne_none _
    rwa [if_neg hends, add_zero] at htotal

/-- **One step.** What enters is kept, or comes to an end, and so does what was kept. -/
theorem step_accounted (names : Names) (hrooted : Rooted names root) (hacyclic : Acyclic rank p)
    (hclosed : Closed Stage.links s p) (ha : a.Within s) :
    held root s (step names rank p a) + ended root (step names rank p a).shown =
      held root s p + a.load root := by
  have hempty : total (Stage.held root) (Event.worth root) s { p with shown := [] } =
      held root s p := add_zero _
  have hquiet : ∀ p' : Line, p'.shown = [] → held root s p' = held root s p →
      held root s p' + ended root p'.shown = held root s p + 0 := by
    intro p' hshown hheld
    rw [hshown, hheld]
    rfl
  cases a with
  | enter n c =>
    rw [← total_eq, ← hempty]
    exact cascade_conserves (Stage.outlines names) (Stage.conserves hrooted)
      (N := { p with shown := [] }) hacyclic hclosed ha (Nat.lt_succ_self _)
  | run n k =>
    have hload : (Act.run n k).load root = 0 := rfl
    rw [← total_eq, hload, add_zero, ← hempty]
    exact run_total hrooted (p := { p with shown := [] }) hacyclic hclosed ha k
  | drop n k =>
    have hload : (Act.drop n k).load root = 0 := rfl
    rw [← total_eq, hload, add_zero, ← hempty]
    exact drop_total ha k
  | track n id =>
    refine hquiet _ rfl (held_update ?_ _)
    cases p.node n with
    | _ => rfl
  | suspend n flag =>
    refine hquiet _ rfl (held_update ?_ _)
    cases p.node n with
    | _ => rfl
  | expire t =>
    refine hquiet _ rfl (held_congr fun n => ?_)
    simp only [step, exec]
    cases hnode : p.node n with
    | _ =>
      split
      · rfl
      · rfl

/-- The account of a run, with the events of all its steps. -/
theorem run_accounted (names : Names) (hrooted : Rooted names root) (hacyclic : Acyclic rank p)
    (hclosed : Closed Stage.links s p) (acts : List Act) (hacts : ∀ a ∈ acts, a.Within s) :
    total (Stage.held root) (Event.worth root) s
        { run (step names rank) p acts with shown := p.events names rank acts } =
      held root s p + entered root acts := by
  show held root s (run (step names rank) p acts) + ended root (p.events names rank acts) = _
  induction acts using List.reverseRecOn with
  | nil => rfl
  | append_singleton acts a ih =>
    have hacts' : ∀ b ∈ acts, b.Within s := fun b hb => hacts b (List.mem_append_left _ hb)
    have hstep := step_accounted names hrooted (run_acyclic names hacyclic acts)
      (run_closed names rank hclosed acts) (hacts a (List.mem_append_right _ List.mem_cons_self))
    have hended : ∀ l l' : List Event, ended root (l ++ l') = ended root l + ended root l' := by
      intro l l'
      rw [ended, List.map_append, List.sum_append]
      rfl
    have hentered : entered root (acts ++ [a]) = entered root acts + a.load root := by
      rw [entered, List.map_append, List.sum_append, List.map_singleton, List.sum_singleton]
      rfl
    rw [run_concat, events_concat, hended, hentered]
    calc held root s (step names rank (run (step names rank) p acts) a) +
          (ended root (p.events names rank acts) +
            ended root (step names rank (run (step names rank) p acts) a).shown)
        = (held root s (run (step names rank) p acts) + a.load root) +
            ended root (p.events names rank acts) := by
          rw [← hstep]
          abel
      _ = (held root s p + entered root acts) + a.load root := by
          rw [← ih hacts']
          abel
      _ = held root s p + (entered root acts + a.load root) := add_assoc _ _ _

/-- **The account of a line.** In every run, whatever is suspended, tracked, or lost in it, the
    messages that the queues keep and those that have come to an end are together those that were
    kept at first and those that have entered: each in one place, once, with its data and its id,
    and with a handler that leads to the one of its source. And none has come to an end on the way
    to an object outside without a reason. -/
theorem accounted (names : Names) (root : Option Handler → Option Handler) (rank : ℕ → ℕ)
    (s : Finset ℕ) (p : Line) (acts : List Act) (hrooted : Rooted names root)
    (hacyclic : Acyclic rank p) (hclosed : Closed Stage.links s p)
    (hacts : ∀ a ∈ acts, a.Within s) :
    held root s (run (step names rank) p acts) + ended root (p.events names rank acts) =
        held root s p + entered root acts ∧
      Along (step names rank) (fun p a => ∀ e ∈ (step names rank p a).shown, Excused p a e) p
        acts :=
  ⟨run_accounted names hrooted hacyclic hclosed acts hacts,
    along_of_always (excused names rank) p acts⟩

/-- Numbers for the handlers that components make: the last two digits lead to the source. -/
def digits : Names := ⟨fun _ handler _ => 200 + handler.getD 0, fun _ f => 100 + f⟩

/-- The handler that a number leads to. -/
def lastDigits (handler : Option Handler) : Option Handler :=
  if handler.getD 0 % 100 = 0 then none else some (handler.getD 0 % 100)

theorem rooted_digits : Rooted digits lastDigits where
  metered n handler k := by
    have h : ∀ i : ℕ, (200 + i) % 100 = i % 100 := by omega
    simp only [lastDigits, digits, Option.getD_some, h]
  queued n f := by
    have h : (100 + f) % 100 = f % 100 := Nat.add_mod_left _ _
    simp only [lastDigits, digits, Option.getD_some, h]

/-- A broker, statistics and a queue with a workflow for the answers. -/
def threeStages : Line where
  node
    | 0 => .broker
        { target := some 1, targets := [some 1], rules := [⟨some 1, "", fun _ => true⟩] }
    | 1 => .statistics { target := some 2, stat := true }
    | 2 => .queue { target := some 3, callbackWorkflow := true }
    | _ => .leaf

/-- Three messages wait, one is run, one is dropped, and the queue is gone before the last. -/
def lossyRun : List Act :=
  [.enter 0 (.performIo (some [1]) 7 (some 5)), .enter 0 (.performIo (some [2]) 7 (some 6)),
    .enter 0 (.performIo (some [3]) 7 none), .run 2 0, .drop 2 0, .expire 2, .run 2 0]

theorem acyclic_threeStages : Acyclic (3 - ·) threeStages := by
  intro n t ht
  match n with
  | 0 =>
    have ht' : t = 1 := by
      simpa [threeStages, Stage.links, eq_comm] using ht
    subst ht'
    decide
  | 1 =>
    cases ht
    decide
  | 2 =>
    cases ht
    decide
  | n + 3 => cases ht

theorem closed_threeStages : Closed Stage.links (Finset.range 4) threeStages := by
  intro n hn t ht
  have hrank := acyclic_threeStages n t ht
  match n with
  | 0 =>
    have ht' : t = 1 := by
      simpa [threeStages, Stage.links, eq_comm] using ht
    subst ht'
    decide
  | 1 =>
    cases ht
    decide
  | 2 =>
    cases ht
    decide
  | n + 3 => cases ht

/-- Nothing is left in the queue, and the three messages have come to an end. -/
theorem accounted_lossyRun :
    (held lastDigits (Finset.range 4) (run (step digits (3 - ·)) threeStages lossyRun) +
          ended lastDigits (threeStages.events digits (3 - ·) lossyRun) =
        held lastDigits (Finset.range 4) threeStages + entered lastDigits lossyRun ∧
      Along (step digits (3 - ·))
        (fun p a => ∀ e ∈ (step digits (3 - ·) p a).shown, Excused p a e) threeStages lossyRun) ∧
      (threeStages.events digits (3 - ·) lossyRun).filter (fun e => e.worth lastDigits ≠ 0) =
        [.ended 3 ⟨some [1], 7, some 305⟩ .taken,
          .ended 2 ⟨some [2], 7, some 206⟩ (.refused 206),
          .ended 2 ⟨some [3], 7, some 200⟩ .lost] :=
  ⟨accounted digits lastDigits (3 - ·) (Finset.range 4) threeStages lossyRun rooted_digits
    acyclic_threeStages closed_threeStages (by decide), by decide⟩

end Line

end WfcIo

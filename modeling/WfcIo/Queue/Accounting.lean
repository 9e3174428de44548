import WfcIo.Queue.Queue

/-!
# The requests of a queue

Every request of a queue waits in a post, or has exactly one outcome: it has been handed to
the target, its handler has been called with `nullptr`, or it was dropped by tracking. The
exception is a task that runs after the queue is gone: it does nothing, and the handler of
the request is never called.

## Main definitions

- `Queue.requests` — the requests of a run, in order
- `Queue.Outcome.IsFor` — the outcomes that a request may have
- `Queue.Kept` — no task of a tracked id runs after the queue is gone

## Main results

- `Queue.outcome_isFor` — whatever is done for a request is meant for it
- `Queue.settled_iff` — all requests wait or have one outcome, exactly if no task comes
  too late
-/

namespace WfcIo

open Foundation

namespace Queue

/-- The actions of a run that are performed while the queue is there. -/
def accepted (q : Queue) (acts : List Act) : List Act := taken step (fun q _ => q.alive) q acts

def Act.request : Act → Option Request
  | .performIo r => some r
  | _ => none

/-- The requests of a run. -/
def requests (q : Queue) (acts : List Act) : List Request :=
  (accepted q acts).filterMap Act.request

/-- What has been done for the requests in a run. -/
def log (q : Queue) (acts : List Act) : List (ℕ × Outcome) := trace step Queue.outcomes q acts

/-- The request `r` is handed to the target with a handler that leads to that of the source,
    or the handler of the source is called with `nullptr`, or the request is dropped since
    its source has unregistered. -/
def Outcome.IsFor (target : Option Target) (acts : List Act) (r : Request) : Outcome → Prop
  | .target t d id reply =>
    target = some t ∧ d = r.d ∧ id = r.id ∧ reply.source = r.handler
  | .handler f d => r.handler = some f ∧ d = none
  | .dropped id => id = r.id ∧ .unregIo id ∈ acts
  | .nullTarget => False

/-- The request `n` of the run still waits, with nothing done for it, or it does not wait and
    has exactly one outcome. -/
def Settled (q : Queue) (acts : List Act) (n : ℕ) (r : Request) : Prop :=
  (n ∈ (run step q acts).pending.map Task.number ∧
      (account (log q acts) (run step q acts)).outcomesOf n = []) ∨
    (n ∉ (run step q acts).pending.map Task.number ∧
      ∃ o, (account (log q acts) (run step q acts)).outcomesOf n = [o] ∧
        o.IsFor q.target (accepted q acts) r)

/-- If a task runs, then the queue is there, or the source has unregistered. -/
def Kept (q : Queue) (a : Act) : Prop :=
  ∀ n, a = .run n → ∀ k ∈ q.pending[n]?, q.alive = true ∨ k.request.id ∈ q.untracked

variable {q : Queue} {a : Act} {acts : List Act} {n : ℕ} {r : Request}

/-! ### The account -/

theorem account_concat (hnodup : ((run step q acts).pending.map Task.number).Nodup) (a : Act) :
    account (log q (acts ++ [a])) (run step q (acts ++ [a])) =
      (account (log q acts) (run step q acts)).apply ((run step q acts).move a) := by
  rw [log, trace_concat, run_concat]
  exact account_step hnodup a

theorem move_valid (l : List (ℕ × Outcome)) (q : Queue) (a : Act) :
    (q.move a).Valid (account l q) := by
  intro n o heq
  have hpost : ∀ (i : ℕ) (f : Task → Option Outcome),
      (q.pending[i]?.elim .stay fun k => .finish k.number (f k)) = Jobs.Move.finish n o →
        n ∈ q.pending.map Task.number := by
    intro i f heq
    obtain ⟨k, hk, rfl, _⟩ := Jobs.elim_eq_finish_iff.mp heq
    exact List.mem_map_of_mem (List.mem_of_getElem? hk)
  cases a with
  | performIo r =>
    simp only [move] at heq
    split at heq <;> cases heq
  | run i => exact hpost i _ heq
  | drop i => exact hpost i _ heq
  | _ => cases heq

/-- A pending request has no outcome, and no request has two. -/
theorem sound (target : Option Target) (callbackWorkflow : Bool) (acts : List Act) :
    (account (log (initialized target callbackWorkflow) acts)
      (run step (initialized target callbackWorkflow) acts)).Sound := by
  induction acts using List.reverseRecOn with
  | nil => exact Jobs.sound_empty
  | append_singleton acts a ih =>
    rw [account_concat ih.pending_nodup]
    exact ih.apply (move_valid _ _ _)

/-! ### What is done for a request -/

section IsFor

variable {o : Outcome}

theorem Outcome.IsFor.mono {target : Option Target} (h : o.IsFor target acts r) (a : Act) :
    o.IsFor target (acts ++ [a]) r := by
  cases o with
  | dropped id => exact ⟨h.1, List.mem_append_left _ h.2⟩
  | _ => exact h

theorem lockTarget_eq_some {t : Target} (h : q.lockTarget = some t) : q.target = some t :=
  (Option.filter_eq_some_iff.mp h).1

theorem source_makeHandler_ (handler : Option Handler) (q : Queue) :
    (q.makeHandler_ handler).source = handler := by
  cases handler with
  | none => rfl
  | some f =>
    simp only [makeHandler_]
    split <;> rfl

theorem isFor_atOnce (h : q.atOnce r = some o) (hr : r.handler ≠ none) :
    o.IsFor q.target acts r := by
  simp only [atOnce] at h
  cases ht : q.lockTarget with
  | none =>
    obtain ⟨f, hf⟩ := Option.ne_none_iff_exists'.mp hr
    simp only [ht, hf] at h
    cases h
    exact ⟨hf, rfl⟩
  | some t =>
    simp only [ht] at h
    split at h
    · cases h
      exact ⟨lockTarget_eq_some ht, rfl, rfl, rfl⟩
    · cases h

theorem isFor_dropTask (h : dropTask r = some o) : o.IsFor q.target acts r := by
  obtain ⟨f, hf, rfl⟩ := Option.map_eq_some_iff.mp h
  exact ⟨hf, rfl⟩

theorem isFor_task (h : q.task r = some o)
    (hunreg : ∀ id ∈ q.untracked, .unregIo id ∈ acts) : o.IsFor q.target acts r := by
  simp only [task] at h
  split at h
  · rename_i hid
    cases h
    exact ⟨rfl, hunreg r.id hid⟩
  · split at h
    · cases ht : q.lockTarget with
      | none =>
        simp only [ht] at h
        exact isFor_dropTask h
      | some t =>
        simp only [ht] at h
        cases h
        exact ⟨lockTarget_eq_some ht, rfl, rfl, source_makeHandler_ r.handler q⟩
    · cases h

end IsFor

/-! ### Where the requests and their outcomes come from -/

theorem performIo_fields (r : Request) (q : Queue) :
    (q.performIo r).target = q.target ∧ (q.performIo r).untracked = q.untracked := by
  simp only [performIo]
  cases q.atOnce r <;> exact ⟨rfl, rfl⟩

theorem step_target (q : Queue) (a : Act) : (step q a).target = q.target := by
  cases a with
  | regIo id itf =>
    obtain ⟨calls, hspec⟩ := regIo_spec id itf q.quiet
    simp only [step, exec, hspec]
    split <;> rfl
  | unregIo id =>
    obtain ⟨calls, hspec⟩ := unregIo_spec id q.quiet
    simp only [step, exec, hspec]
    split <;> rfl
  | performIo r =>
    simp only [step, exec]
    split
    · exact (performIo_fields r q.quiet).1
    · rfl
  | run n =>
    simp only [step, exec]
    cases q.quiet.pending[n]? <;> rfl
  | drop n =>
    simp only [step, exec]
    cases q.quiet.pending[n]? <;> rfl
  | _ => rfl

/-- Only `unreg_io` ends the tracking of an id. -/
theorem untracked_step {id : IoId} (h : id ∈ (step q a).untracked) :
    id ∈ q.untracked ∨ (q.alive = true ∧ a = .unregIo id) := by
  cases a with
  | regIo k itf =>
    left
    obtain ⟨calls, hspec⟩ := regIo_spec k itf q.quiet
    simp only [step, exec, hspec] at h
    split at h <;> exact h
  | unregIo k =>
    obtain ⟨calls, hspec⟩ := unregIo_spec k q.quiet
    simp only [step, exec, hspec] at h
    split at h
    · rename_i halive
      obtain rfl | hmem := List.mem_cons.mp h
      · exact Or.inr ⟨halive, rfl⟩
      · exact Or.inl hmem
    · exact Or.inl h
  | performIo r =>
    left
    simp only [step, exec] at h
    split at h
    · rw [(performIo_fields r q.quiet).2] at h
      exact h
    · exact h
  | run n =>
    left
    simp only [step, exec] at h
    cases hl : q.quiet.pending[n]? <;> rw [hl] at h <;> exact h
  | drop n =>
    left
    simp only [step, exec] at h
    cases hl : q.quiet.pending[n]? <;> rw [hl] at h <;> exact h
  | track k => exact Or.inl (List.mem_of_mem_filter h)
  | _ => exact Or.inl h

/-- A post that is pending after a step was so before, or holds the request just given. -/
theorem mem_pending_step {k : Task} (h : k ∈ (step q a).pending) :
    k ∈ q.pending ∨ ∃ r, a = .performIo r ∧ q.alive = true ∧ k = ⟨q.given, r⟩ := by
  cases a with
  | regIo id itf =>
    left
    obtain ⟨calls, hspec⟩ := regIo_spec id itf q.quiet
    simp only [step, exec, hspec] at h
    split at h <;> exact h
  | unregIo id =>
    left
    obtain ⟨calls, hspec⟩ := unregIo_spec id q.quiet
    simp only [step, exec, hspec] at h
    split at h <;> exact h
  | performIo r =>
    simp only [step, exec] at h
    split at h
    · rename_i halive
      simp only [performIo] at h
      cases hat : q.quiet.atOnce r with
      | none =>
        rw [hat] at h
        obtain h | h := List.mem_append.mp h
        · exact Or.inl h
        · exact Or.inr ⟨r, rfl, halive, List.mem_singleton.mp h⟩
      | some o =>
        rw [hat] at h
        exact Or.inl h
    · exact Or.inl h
  | run n =>
    left
    simp only [step, exec] at h
    cases hl : q.quiet.pending[n]? with
    | none =>
      rw [hl] at h
      exact h
    | some k' =>
      rw [hl] at h
      exact List.mem_of_mem_eraseIdx h
  | drop n =>
    left
    simp only [step, exec] at h
    cases hl : q.quiet.pending[n]? with
    | none =>
      rw [hl] at h
      exact h
    | some k' =>
      rw [hl] at h
      exact List.mem_of_mem_eraseIdx h
  | _ => exact Or.inl h

/-- What a step does is meant for the request just given, or for a pending one. -/
theorem mem_outcomes_step (hnodup : (q.pending.map Task.number).Nodup) {p : ℕ × Outcome}
    (h : p ∈ (step q a).outcomes) :
    (∃ r, a = .performIo r ∧ q.alive = true ∧ p.1 = q.given ∧ q.atOnce r = some p.2) ∨
      ∃ k ∈ q.pending, p.1 = k.number ∧
        (q.task k.request = some p.2 ∨ dropTask k.request = some p.2) := by
  have houtcomes : (step q a).outcomes = ((account [] q).apply (q.move a)).outcomes :=
    congrArg Jobs.outcomes (account_step (l := []) hnodup a)
  rw [houtcomes] at h
  have hpost : ∀ (i : ℕ) (f : Task → Option Outcome),
      p ∈ ((account [] q).apply
        (q.pending[i]?.elim .stay fun k => .finish k.number (f k))).outcomes →
      ∃ k ∈ q.pending, p.1 = k.number ∧ f k = some p.2 := by
    intro i f h
    cases hk : q.pending[i]? with
    | none =>
      rw [hk] at h
      cases h
    | some k =>
      rw [hk] at h
      obtain ⟨o, ho, rfl⟩ := Option.map_eq_some_iff.mp (Option.mem_toList.mp h)
      exact ⟨k, List.mem_of_getElem? hk, rfl, ho⟩
  cases a with
  | performIo r =>
    left
    simp only [move] at h
    split at h
    · rename_i halive
      obtain ⟨o, ho, rfl⟩ := Option.map_eq_some_iff.mp (Option.mem_toList.mp h)
      exact ⟨r, rfl, halive, rfl, ho⟩
    · cases h
  | run n =>
    right
    obtain ⟨k, hk, hp, ho⟩ := hpost n _ h
    exact ⟨k, hk, hp, Or.inl ho⟩
  | drop n =>
    right
    obtain ⟨k, hk, hp, ho⟩ := hpost n _ h
    exact ⟨k, hk, hp, Or.inr ho⟩
  | _ => cases h

/-! ### Whole runs -/

theorem accepted_concat (q : Queue) (acts : List Act) (a : Act) :
    accepted q (acts ++ [a]) =
      accepted q acts ++ if (run step q acts).alive then [a] else [] :=
  taken_concat q acts a

theorem requests_concat (q : Queue) (acts : List Act) (a : Act) :
    requests q (acts ++ [a]) =
      requests q acts ++
        (if (run step q acts).alive then [a] else []).filterMap Act.request := by
  simp only [requests, accepted_concat, List.filterMap_append]

theorem given_step (hnodup : (q.pending.map Task.number).Nodup) (a : Act) :
    (step q a).given =
      q.given + ((if q.alive then [a] else []).filterMap Act.request).length := by
  have hgiven : (step q a).given = ((account [] q).apply (q.move a)).given :=
    congrArg Jobs.given (account_step (l := []) hnodup a)
  have hother : a.request = none → ((if q.alive then [a] else []).filterMap Act.request) = [] := by
    intro hnone
    split <;> simp [hnone]
  rw [hgiven]
  cases a with
  | performIo r =>
    simp only [move]
    split <;> rfl
  | run n =>
    rw [hother rfl]
    simp only [move]
    cases q.pending[n]? <;> rfl
  | drop n =>
    rw [hother rfl]
    simp only [move]
    cases q.pending[n]? <;> rfl
  | _ =>
    rw [hother rfl]
    rfl

/-- What the state and the log of a run have to do with its requests. -/
structure Traced (q : Queue) (acts : List Act) : Prop where
  target : (run step q acts).target = q.target
  given : (run step q acts).given = (requests q acts).length
  pending : ∀ k ∈ (run step q acts).pending, (requests q acts)[k.number]? = some k.request
  untracked : ∀ id ∈ (run step q acts).untracked, .unregIo id ∈ accepted q acts
  log : ∀ p ∈ log q acts, ∃ r, (requests q acts)[p.1]? = some r ∧
    p.2.IsFor q.target (accepted q acts) r

theorem getElem?_requests_concat (a : Act) (h : (requests q acts)[n]? = some r) :
    (requests q (acts ++ [a]))[n]? = some r := by
  rw [requests_concat]
  exact Jobs.getElem?_append_of_eq_some h

theorem Traced.concat (h : Traced q acts)
    (hnodup : ((run step q acts).pending.map Task.number).Nodup)
    (ha : ∀ r, a = .performIo r → (run step q acts).alive = true → r.handler ≠ none) :
    Traced q (acts ++ [a]) := by
  -- the request that is given now gets the next number
  have hnew : ∀ r, a = .performIo r → (run step q acts).alive = true →
      (requests q (acts ++ [a]))[(run step q acts).given]? = some r := by
    rintro r rfl halive
    rw [requests_concat, halive, h.given]
    exact List.getElem?_concat_length
  have hmono : ∀ {o : Outcome} {r}, o.IsFor q.target (accepted q acts) r →
      o.IsFor q.target (accepted q (acts ++ [a])) r := by
    intro o r ho
    rw [accepted_concat]
    split
    · exact ho.mono a
    · rw [List.append_nil]
      exact ho
  constructor
  · rw [run_concat, step_target, h.target]
  · rw [run_concat, given_step hnodup, h.given, requests_concat, List.length_append]
  · intro k hk
    rw [run_concat] at hk
    obtain hk | ⟨r, rfl, halive, rfl⟩ := mem_pending_step hk
    · exact getElem?_requests_concat a (h.pending k hk)
    · exact hnew r rfl halive
  · intro id hid
    rw [run_concat] at hid
    rw [accepted_concat]
    obtain hid | ⟨halive, rfl⟩ := untracked_step hid
    · exact List.mem_append_left _ (h.untracked id hid)
    · rw [halive]
      exact List.mem_append_right _ List.mem_cons_self
  · intro p hp
    rw [Queue.log, trace_concat] at hp
    obtain hp | hp := List.mem_append.mp hp
    · obtain ⟨r, hr, hfor⟩ := h.log p hp
      exact ⟨r, getElem?_requests_concat a hr, hmono hfor⟩
    · obtain ⟨r, rfl, halive, hn, hat⟩ | ⟨k, hk, hn, hdone⟩ := mem_outcomes_step hnodup hp
      · refine ⟨r, hn ▸ hnew r rfl halive, ?_⟩
        rw [← h.target]
        exact isFor_atOnce hat (ha r rfl halive)
      · refine ⟨k.request, hn ▸ getElem?_requests_concat a (h.pending k hk), hmono ?_⟩
        rw [← h.target]
        obtain htask | hdrop := hdone
        · exact isFor_task htask h.untracked
        · exact isFor_dropTask hdrop

/-- **Outcomes.** Whatever is done for a request in a run is meant for it. -/
theorem outcome_isFor (target : Option Target) (callbackWorkflow : Bool) (acts : List Act)
    (hhandlers : ∀ r ∈ requests (initialized target callbackWorkflow) acts, r.handler ≠ none) :
    Traced (initialized target callbackWorkflow) acts := by
  have hsound := sound target callbackWorkflow
  generalize hq : initialized target callbackWorkflow = q at hhandlers hsound ⊢
  induction acts using List.reverseRecOn with
  | nil =>
    rw [← hq]
    exact ⟨rfl, rfl, fun k hk => (by cases hk), fun id hid => (by cases hid),
      fun p hp => (by cases hp)⟩
  | append_singleton acts a ih =>
    rw [requests_concat] at hhandlers
    have ih := ih fun r hr => hhandlers r (List.mem_append_left _ hr)
    apply ih.concat (hsound acts).pending_nodup
    rintro r rfl halive
    apply hhandlers r
    rw [halive]
    exact List.mem_append_right _ List.mem_cons_self

/-- A move of the account keeps the requests exactly if the step of the queue does. -/
theorem keeps_iff_kept (hpending : ∀ k ∈ q.pending, k.request.handler ≠ none) :
    (q.move a).Keeps ↔ Kept q a := by
  have hpost : ∀ (i : ℕ) (f : Task → Option Outcome),
      (q.pending[i]?.elim Jobs.Move.stay fun k => .finish k.number (f k)).Keeps ↔
        ∀ k ∈ q.pending[i]?, (f k).isSome = true := by
    intro i f
    constructor
    · exact fun hkeeps k hk => hkeeps _ _ (Jobs.elim_eq_finish_iff.mpr ⟨k, hk, rfl, rfl⟩)
    · intro hall n o heq
      obtain ⟨k, hk, _, rfl⟩ := Jobs.elim_eq_finish_iff.mp heq
      exact hall k hk
  cases a with
  | run i =>
    rw [move, hpost]
    simp only [Kept, Act.run.injEq, forall_eq']
    apply forall₂_congr
    intro k hk
    obtain ⟨f, hf⟩ := Option.ne_none_iff_exists'.mp (hpending k (List.mem_of_getElem? hk))
    simp only [task, hf]
    -- with a handler, the only branch without an outcome is that of a queue that is gone
    by_cases hid : k.request.id ∈ q.untracked
    · simp [hid]
    · cases q.alive with
      | false => simp [hid]
      | true => cases q.lockTarget <;> simp [hid]
  | drop i =>
    rw [move, hpost]
    refine iff_of_true (fun k hk => ?_) (fun n heq => by cases heq)
    obtain ⟨f, hf⟩ := Option.ne_none_iff_exists'.mp (hpending k (List.mem_of_getElem? hk))
    simp only [dropTask, hf, Option.map_some, Option.isSome_some]
  | performIo r =>
    refine iff_of_true (fun n o heq => ?_) (fun n heq => (by cases heq))
    simp only [move] at heq
    split at heq <;> cases heq
  | _ => exact iff_of_true (fun n o heq => (by cases heq)) (fun n heq => (by cases heq))

theorem allAccounted_iff (target : Option Target) (callbackWorkflow : Bool) (acts : List Act)
    (hhandlers : ∀ r ∈ requests (initialized target callbackWorkflow) acts, r.handler ≠ none) :
    (account (log (initialized target callbackWorkflow) acts)
      (run step (initialized target callbackWorkflow) acts)).AllAccounted ↔
      Along step Kept (initialized target callbackWorkflow) acts := by
  have hsound := sound target callbackWorkflow
  have htraced := outcome_isFor target callbackWorkflow
  generalize hq : initialized target callbackWorkflow = q at hhandlers hsound htraced ⊢
  induction acts using List.reverseRecOn with
  | nil =>
    rw [← hq]
    exact iff_of_true Jobs.allAccounted_empty trivial
  | append_singleton acts a ih =>
    have hacts : ∀ r ∈ requests q acts, r.handler ≠ none := by
      intro r hr
      apply hhandlers r
      rw [requests_concat]
      exact List.mem_append_left _ hr
    have hpending : ∀ k ∈ (run step q acts).pending, k.request.handler ≠ none := fun k hk =>
      hacts _ (List.mem_of_getElem? ((htraced acts hacts).pending k hk))
    rw [account_concat (hsound acts).pending_nodup,
      Jobs.allAccounted_apply_iff (hsound acts) (move_valid _ _ _), keeps_iff_kept hpending,
      along_concat]
    exact and_congr_left' (ih hacts)

/-- **Accounting.** In every run of a queue whose requests have handlers, each request waits,
    or has exactly one outcome, which is meant for it, exactly if no task of a tracked id
    runs after the queue is gone. -/
theorem settled_iff (target : Option Target) (callbackWorkflow : Bool) (acts : List Act)
    (hhandlers : ∀ r ∈ requests (initialized target callbackWorkflow) acts, r.handler ≠ none) :
    (∀ n r, (requests (initialized target callbackWorkflow) acts)[n]? = some r →
      Settled (initialized target callbackWorkflow) acts n r) ↔
      Along step Kept (initialized target callbackWorkflow) acts := by
  rw [← allAccounted_iff target callbackWorkflow acts hhandlers]
  have htraced := outcome_isFor target callbackWorkflow acts hhandlers
  generalize initialized target callbackWorkflow = q at htraced ⊢
  constructor
  · intro hall n hn
    have hlt : n < (requests q acts).length := htraced.given ▸ hn
    obtain hwaits | ⟨hdone, o, ho, _⟩ := hall n _ (List.getElem?_eq_getElem hlt)
    · exact Or.inl hwaits
    · exact Or.inr ⟨hdone, o, ho⟩
  · intro hall n r hr
    have hlt : n < (run step q acts).given := by
      rw [htraced.given]
      exact (List.getElem?_eq_some_iff.mp hr).1
    obtain hwaits | ⟨hdone, o, ho⟩ := hall n hlt
    · exact Or.inl hwaits
    · refine Or.inr ⟨hdone, o, ho, ?_⟩
      have hmem : o ∈ (account (log q acts) (run step q acts)).outcomesOf n := by
        rw [ho]
        exact List.mem_cons_self
      obtain ⟨p, hp, hpo⟩ := List.mem_filterMap.mp hmem
      obtain ⟨r', hr', hfor⟩ := htraced.log p hp
      simp only [Jobs.outcomeOf] at hpo
      split at hpo
      · rename_i hpn
        cases hpo
        rw [hpn, hr] at hr'
        cases hr'
        exact hfor
      · cases hpo

/-- A request that is posted and run. -/
theorem settled_seven : Settled (initialized (some 3) false)
    [.performIo ⟨some [1], 7, some 5⟩, .run 0] 0 ⟨some [1], 7, some 5⟩ :=
  (settled_iff (some 3) false [.performIo ⟨some [1], 7, some 5⟩, .run 0] (by decide)).mpr
    ⟨fun _ heq => (by cases heq), fun _ _ _ _ => Or.inl rfl, trivial⟩ 0 _ rfl

/-- The queue goes away while a request is posted: its handler is never called. -/
theorem not_settled :
    ¬ ∀ (target : Option Target) (callbackWorkflow : Bool) (acts : List Act),
      (∀ r ∈ requests (initialized target callbackWorkflow) acts, r.handler ≠ none) →
      ∀ n r, (requests (initialized target callbackWorkflow) acts)[n]? = some r →
        Settled (initialized target callbackWorkflow) acts n r := by
  intro hall
  obtain ⟨hwaits, _⟩ | ⟨_, o, ho, _⟩ := hall (some 3) false
    [.performIo ⟨some [1], 7, some 5⟩, .destroy, .run 0] (by decide) 0 _ rfl
  · exact absurd hwaits (by decide)
  · have hnone : ([] : List Outcome) = [o] := ho
    cases hnone

end Queue

end WfcIo

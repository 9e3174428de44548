import WfcIo.Broker.Broker

/-!
# Who knows the sources whose messages it gets

Registrations walk the list of the targets of the rules. Messages go to the target of a rule
or to the default target, and the default target is in no list: unless it is also the target
of a rule, it gets messages of sources it was never told about.

## Main definitions

- `Broker.Knows` — the broker has passed the registration of a source to a target, and not
  its end

## Main results

- `Broker.latest_passed_step`, `Broker.latest_passed_run` — what a target is told
- `Broker.knows_destination_iff` — when the target of a message knows its source
-/

namespace WfcIo

open Foundation

namespace Broker

/-- What the source `id` says to the broker about its registration. -/
def Act.word (id : IoId) : Act → Option Bool
  | .call c => c.word id
  | _ => none

/-- What the broker says to the target `t` about the registration of `id`. -/
def passed (t : Target) (id : IoId) (p : Target × SourceCall) : Option Bool :=
  if p.1 = t then p.2.word id else none

/-- The last call of the source about itself was `reg_io`. -/
def Registered (id : IoId) (acts : List Act) : Prop := latest (Act.word id) acts = some true

/-- In the run `acts` of a new broker, the last thing the target has been told about the
    source is `reg_io`. -/
def Knows (t : Target) (id : IoId) (acts : List Act) : Prop :=
  latest (passed t id) (trace step Broker.calls {} acts) = some true

/-- The target `t` has a rule in the options. -/
def HasRule (env : Lookup) (opt : BrokerConfig) (t : Target) : Prop :=
  ∃ r ∈ opt.rules, env.getTarget r.target = some t

def Act.isRestart : Act → Bool
  | .restart _ _ => true
  | _ => false

instance (id : IoId) (acts : List Act) : Decidable (Registered id acts) :=
  inferInstanceAs (Decidable (_ = _))

instance (t : Target) (id : IoId) (acts : List Act) : Decidable (Knows t id acts) :=
  inferInstanceAs (Decidable (_ = _))

variable {b : Broker} {t : Target} {id : IoId} {a : Act} {acts : List Act}

/-! ### One step -/

@[simp] theorem quiet_targets (b : Broker) : b.quiet.targets = b.targets := rfl

@[simp] theorem quiet_calls (b : Broker) : b.quiet.calls = [] := rfl

theorem step_call_calls (c : SourceCall) (b : Broker) :
    (step b (.call c)).calls = (b.receivers c).map fun u => (u, c) := by
  rw [step, exec, call_eq, quiet_calls, List.nil_append]
  rfl

/-- Only a restart changes the list of targets. -/
theorem step_targets (ha : a.isRestart = false) (b : Broker) :
    (step b a).targets = b.targets := by
  cases a with
  | call c =>
    rw [step, exec, call_eq]
    rfl
  | restart env opt => cases ha
  | suspend flag => rfl
  | expire u => rfl

/-- A restart calls nobody. -/
theorem restart_step (env : Lookup) (opt : BrokerConfig) (b : Broker) :
    (step b (.restart env opt)).calls = [] ∧
      (step b (.restart env opt)).expired = b.expired := by
  cases h : b.quiet.restart env opt with
  | none =>
    simp only [step, exec, h, Option.getD_none]
    exact ⟨rfl, rfl⟩
  | some b' =>
    obtain ⟨_, hexp, hcalls⟩ := restart_fields h
    simp only [step, exec, h, Option.getD_some]
    exact ⟨hcalls, hexp⟩

/-- An object that is gone does not come back. -/
theorem step_expired (h : t ∈ b.expired) (a : Act) : t ∈ (step b a).expired := by
  cases a with
  | call c =>
    rw [step, exec, call_eq]
    exact h
  | restart env opt =>
    rw [(restart_step env opt b).2]
    exact h
  | suspend flag => exact h
  | expire u => exact List.mem_append_left _ h

/-- What `t` is told if one call is passed on to the targets `l`. -/
theorem latest_passed_calls (c : SourceCall) (l : List Target) :
    latest (passed t id) (l.map fun u => (u, c)) = if t ∈ l then c.word id else none := by
  have hother : ∀ {p}, p ∈ l.map (fun u => (u, c)) → p.1 ≠ t → passed t id p = none :=
    fun _ hne => if_neg hne
  have hone : ∀ {p}, p ∈ l.map (fun u => (u, c)) → p.1 = t → passed t id p = c.word id := by
    intro p hp heq
    obtain ⟨u, _, rfl⟩ := List.mem_map.mp hp
    exact if_pos heq
  split
  · rename_i hmem
    cases hw : c.word id with
    | none =>
      apply latest_eq_none_iff.mpr
      intro p hp
      by_cases heq : p.1 = t
      · rw [hone hp heq, hw]
      · exact hother hp heq
    | some w =>
      rw [← List.nil_append (l.map _)]
      apply latest_append_of_unanimous
      · have hp := List.mem_map_of_mem (f := fun u => (u, c)) hmem
        exact ⟨(t, c), hp, (hone hp rfl).trans hw⟩
      · intro p hp
        by_cases heq : p.1 = t
        · exact Or.inl ((hone hp heq).trans hw)
        · exact Or.inr (hother hp heq)
  · rename_i hmem
    apply latest_eq_none_iff.mpr
    intro p hp
    apply hother hp
    rintro rfl
    obtain ⟨u, hu, rfl⟩ := List.mem_map.mp hp
    exact hmem hu

/-- What a step tells the living target `t`: what the source has said, if `t` is the target
    of a rule. -/
theorem latest_passed_step (halive : t ∉ b.expired) (a : Act) :
    latest (passed t id) (step b a).calls =
      if some t ∈ b.targets then a.word id else none := by
  cases a with
  | call c =>
    rw [step_call_calls, latest_passed_calls]
    cases c with
    | performIo d k handler =>
      -- a message says nothing about registrations
      simp only [Act.word, IoCall.word, ite_self]
    | _ =>
      have hmem : t ∈ b.targets.filterMap b.lock ↔ some t ∈ b.targets := by
        simp only [List.mem_filterMap, lock_eq_some_iff]
        constructor
        · rintro ⟨w, hw, rfl, _⟩
          exact hw
        · exact fun h => ⟨some t, h, rfl, halive⟩
      exact if_congr hmem rfl rfl
  | restart env opt =>
    rw [(restart_step env opt b).1]
    simp only [latest_nil, Act.word, ite_self]
  | suspend flag => exact (ite_self none).symm
  | expire u => exact (ite_self none).symm

/-! ### Runs between restarts -/

theorem run_targets (hacts : ∀ a ∈ acts, a.isRestart = false) (b : Broker) :
    (run step b acts).targets = b.targets :=
  run_invariant_along (I := fun b' => b'.targets = b.targets)
    (fun b' _ ha h => (step_targets ha b').trans h) rfl
    (along_of_forall (G := fun a : Act => a.isRestart = false) hacts)

/-- What the steps between two restarts tell a target that is still there after them. -/
theorem latest_passed_run (hacts : ∀ a ∈ acts, a.isRestart = false)
    (halive : t ∉ (run step b acts).expired) :
    latest (passed t id) (trace step Broker.calls b acts) =
      if some t ∈ b.targets then latest (Act.word id) acts else none := by
  induction acts using List.reverseRecOn with
  | nil => exact (ite_self none).symm
  | append_singleton acts a ih =>
    have hpre : ∀ a ∈ acts, a.isRestart = false :=
      fun a ha => hacts a (List.mem_append_left _ ha)
    rw [run_concat] at halive
    have halive' : t ∉ (run step b acts).expired := fun h => halive (step_expired h a)
    rw [trace_concat, latest_append, ih hpre halive', latest_passed_step halive',
      run_targets hpre, latest_concat]
    split
    · rfl
    · rfl

theorem mem_destination_alive {d : DataPtr} (h : t ∈ b.destination d) : t ∉ b.expired := by
  have hlock : ∀ {w}, b.lock w = some t → t ∉ b.expired := fun h => (lock_eq_some_iff.mp h).2
  cases d with
  | none => exact hlock h
  | some data =>
    simp only [destination] at h
    split at h
    · exact hlock h
    · split at h
      · exact hlock h
      · exact hlock h

/-- **Who knows the source.** In a run of a new broker whose last successful restart has
    these options, let a message of a registered source be handed to the target `t`. Then
    `t` knows the source exactly if it knew it before that restart, or `t` is the target of
    a rule and the source has registered since. -/
theorem knows_destination_iff (hist acts : List Act) (env : Lookup) (opt : BrokerConfig)
    (hok : ((run step {} hist).restart env opt).isSome = true)
    (hacts : ∀ a ∈ acts, a.isRestart = false) (d : DataPtr) (id : IoId)
    (handler : Option Handler) (t : Target)
    (hreg : Registered id (hist ++ .restart env opt :: acts))
    (hsent : (t, .performIo d id handler) ∈
      (step (run step {} (hist ++ .restart env opt :: acts))
        (.call (.performIo d id handler))).calls) :
    Knows t id (hist ++ .restart env opt :: acts) ↔
      Knows t id hist ∨
        HasRule env opt t ∧ Registered id acts := by
  obtain ⟨b', hb'⟩ := Option.isSome_iff_exists.mp hok
  have hstep : step (run step {} hist) (.restart env opt) = b'.quiet := by
    obtain ⟨rules, hrules, rfl⟩ := Option.map_eq_some_iff.mp hb'
    simp only [step, exec, restart, hrules, Option.map_some, Option.getD_some]
    rfl
  -- the target is there when it gets the message, so it was there all the time
  have halive : t ∉ (run step b'.quiet acts).expired := by
    rw [step_call_calls] at hsent
    obtain ⟨u, hu, heq⟩ := List.mem_map.mp hsent
    cases heq
    have hdest := mem_destination_alive (Option.mem_toList.mp hu)
    rw [run_append, run_cons, hstep] at hdest
    exact hdest
  have hrules : some t ∈ b'.quiet.targets ↔ HasRule env opt t := by
    rw [quiet_targets, (restart_fields hb').1, List.mem_map, HasRule]
  -- both histories split at the restart, which says nothing and calls nobody
  have hword : latest (Act.word id) (hist ++ .restart env opt :: acts) =
      (latest (Act.word id) acts).or (latest (Act.word id) hist) := by
    rw [List.append_cons, latest_append, latest_concat]
    rfl
  have hpassed : latest (passed t id)
      (trace step Broker.calls {} (hist ++ .restart env opt :: acts)) =
      (if some t ∈ b'.quiet.targets then latest (Act.word id) acts else none).or
        (latest (passed t id) (trace step Broker.calls {} hist)) := by
    rw [trace_append, trace_cons, (restart_step _ _ _).1, List.nil_append, latest_append, hstep,
      latest_passed_run hacts halive]
  simp only [Registered, hword] at hreg
  simp only [Knows, Registered, hpassed]
  by_cases hmem : some t ∈ b'.quiet.targets
  · have hrule : HasRule env opt t := hrules.mp hmem
    rw [if_pos hmem]
    cases hlatest : latest (Act.word id) acts with
    | none => simp
    | some w =>
      rw [hlatest, Option.some_or] at hreg
      cases hreg
      simp [hrule]
  · have hrule : ¬ HasRule env opt t := fun h => hmem (hrules.mpr h)
    rw [if_neg hmem, Option.none_or]
    simp [hrule]

/-- Two targets, known by name, and regular expressions that match everything. -/
def twoQueues : Lookup where
  getTarget name := if name = "queue1" then some 1 else if name = "queue2" then some 2 else none
  regexMatch _ := some fun _ => true

/-- A message to the target of a rule. -/
theorem knows_destination_seven : Knows 2 7
    [.restart twoQueues { rules := [{ target := "queue2" }] }, .call (.regIo 7 (some 5))] :=
  (knows_destination_iff [] [.call (.regIo 7 (some 5))] twoQueues
    { rules := [{ target := "queue2" }] } rfl (by decide) (some [1]) 7 none 2 (by decide)
    (by decide)).mpr (Or.inr ⟨⟨_, List.mem_cons_self, rfl⟩, by decide⟩)

/-- A message to the default target of a broker without rules. -/
theorem destination_not_known :
    ¬ ∀ (hist acts : List Act) (env : Lookup) (opt : BrokerConfig),
      ((run step {} hist).restart env opt).isSome = true →
      (∀ a ∈ acts, a.isRestart = false) → ∀ d id handler t, Registered id acts →
      (t, .performIo d id handler) ∈
        (step (run step {} (hist ++ .restart env opt :: acts))
          (.call (.performIo d id handler))).calls →
      Knows t id (hist ++ .restart env opt :: acts) := by
  intro hall
  have h := hall [] [.call (.regIo 7 (some 5))] twoQueues { target := "queue1" } rfl (by decide)
    (some [1]) 7 none 1 (by decide) (by decide)
  exact absurd h (by decide)

end Broker

end WfcIo

import WfcIo.Broker.Routing

/-!
# Registrations when the rules change

A restart puts new targets in the list and calls nobody, and the broker keeps no list of the
sources it has passed on. Sources that are registered at a restart are unknown to the targets
that come with it, and stay registered at those that go.

## Main definitions

- `Broker.HandedOver` — after a restart every new target knows every registered source, and
  every dropped one has forgotten it
- `Broker.Unaffected` — nobody is registered at the restart, or it changes no living target

## Main results

- `Broker.knows_iff` — who knows whom as long as the restarts change nothing
- `Broker.handedOver_iff` — the registrations are handed over exactly in such runs
-/

namespace WfcIo

open Foundation

namespace Broker

/-- In the run `acts` of a new broker, the last thing the target has been told about the
    source is `unreg_io`. -/
def Forgot (t : Target) (id : IoId) (acts : List Act) : Prop :=
  latest (passed t id) (trace step Broker.calls {} acts) = some false

instance (t : Target) (id : IoId) (acts : List Act) : Decidable (Forgot t id acts) :=
  inferInstanceAs (Decidable (_ = _))

/-- If `a` is a restart and succeeds, then after it every living target of the new list
    knows all registered sources, and every living one that was dropped has forgotten them. -/
def HandedOver (pre : List Act) (a : Act) : Prop :=
  ∀ env opt, a = .restart env opt → ((run step {} pre).restart env opt).isSome = true →
    ∀ id, Registered id (pre ++ [a]) → ∀ t, t ∉ (run step {} (pre ++ [a])).expired →
      (some t ∈ (run step {} (pre ++ [a])).targets → Knows t id (pre ++ [a])) ∧
      (some t ∈ (run step {} pre).targets → some t ∉ (run step {} (pre ++ [a])).targets →
        Forgot t id (pre ++ [a]))

/-- If `a` is a restart and succeeds, then no source is registered, or the living targets of
    the list are those of the new rules. -/
def Unaffected (pre : List Act) (a : Act) : Prop :=
  ∀ env opt, a = .restart env opt → ((run step {} pre).restart env opt).isSome = true →
    (∀ id, ¬ Registered id pre) ∨
      ∀ t, t ∉ (run step {} pre).expired →
        (some t ∈ (run step {} pre).targets ↔ HasRule env opt t)

variable {t : Target} {id : IoId} {pre acts : List Act} {a : Act} {env : Lookup}
  {opt : BrokerConfig}

/-! ### One step -/

theorem registered_concat (pre : List Act) (a : Act) :
    Registered id (pre ++ [a]) ↔ (a.word id).or (latest (Act.word id) pre) = some true := by
  rw [Registered, latest_concat]

theorem latest_passed_concat (halive : t ∉ (run step {} pre).expired) (a : Act) :
    latest (passed t id) (trace step Broker.calls {} (pre ++ [a])) =
      (if some t ∈ (run step {} pre).targets then a.word id else none).or
        (latest (passed t id) (trace step Broker.calls {} pre)) := by
  rw [trace_concat, latest_append, latest_passed_step halive]

theorem restart_step_targets (b : Broker)
    (h : (b.restart env opt).isSome = true) :
    some t ∈ (step b (.restart env opt)).targets ↔ HasRule env opt t := by
  obtain ⟨b', hb'⟩ := Option.isSome_iff_exists.mp h
  obtain ⟨rules, hrules, rfl⟩ := Option.map_eq_some_iff.mp hb'
  simp only [step, exec, restart, hrules, Option.map_some, Option.getD_some, List.mem_map,
    HasRule]

/-- A restart that throws leaves the list as it is. -/
theorem failed_step_targets (b : Broker) (h : ¬ (b.restart env opt).isSome = true) :
    (step b (.restart env opt)).targets = b.targets := by
  have hnone : b.quiet.restart env opt = none := by
    rw [Option.not_isSome_iff_eq_none, restart, Option.map_eq_none_iff] at h
    rw [restart, h, Option.map_none]
  simp only [step, exec, hnone, Option.getD_none, quiet_targets]

/-! ### Whole runs -/

/-- What holds of the targets in the list, as long as the restarts change nothing. -/
theorem knows_iff (hacts : AtEach Unaffected acts) (halive : t ∉ (run step {} acts).expired)
    (id : IoId) :
    Knows t id acts ↔ some t ∈ (run step {} acts).targets ∧ Registered id acts := by
  induction acts using List.reverseRecOn with
  | nil => exact iff_of_false (by simp [Knows]) (by simp)
  | append_singleton pre a ih =>
    obtain ⟨hpre, ha⟩ := atEach_concat_iff.mp hacts
    rw [run_concat] at halive ⊢
    have halive' : t ∉ (run step {} pre).expired := fun h => halive (step_expired h a)
    have ih := ih hpre halive'
    rw [Knows, latest_passed_concat halive', registered_concat]
    -- the list changes only by a restart that does not throw
    by_cases hrestart : ∃ env opt, a = .restart env opt ∧
        ((run step {} pre).restart env opt).isSome = true
    · obtain ⟨env, opt, rfl, hok⟩ := hrestart
      rw [restart_step_targets _ hok]
      simp only [Act.word, ite_self, Option.none_or]
      -- no call is made, so the list must stay the same or nobody be registered
      obtain hnobody | hsame := ha env opt rfl hok
      · exact ih.trans (iff_of_false (fun h => hnobody id h.2) (fun h => hnobody id h.2))
      · rw [← hsame t halive']
        exact ih
    · have htargets : (step (run step {} pre) a).targets = (run step {} pre).targets := by
        cases a with
        | restart env opt =>
          apply failed_step_targets
          exact fun hok => hrestart ⟨env, opt, rfl, hok⟩
        | _ => exact step_targets rfl _
      rw [htargets]
      by_cases hmem : some t ∈ (run step {} pre).targets
      · rw [if_pos hmem]
        cases hword : a.word id with
        | none => exact ih
        | some w =>
          rw [Option.some_or, Option.some_or]
          exact (and_iff_right hmem).symm
      · rw [if_neg hmem, Option.none_or]
        exact ih.trans (iff_of_false (fun h => hmem h.1) (fun h => hmem h.1))

/-- One restart hands over exactly if there is nothing to hand over, given that there was
    nothing before. -/
theorem handedOver_iff_unaffected (hpre : AtEach Unaffected pre) :
    HandedOver pre a ↔ Unaffected pre a := by
  apply forall_congr'
  intro env
  apply forall_congr'
  intro opt
  apply imp_congr_right
  rintro rfl
  apply imp_congr_right
  intro hok
  have hreg : ∀ id, Registered id (pre ++ [.restart env opt]) ↔ Registered id pre :=
    fun id => registered_concat pre _
  have hrun : run step {} (pre ++ [.restart env opt]) =
      step (run step {} pre) (.restart env opt) := run_concat _ _ _
  have hexp : (step (run step {} pre) (.restart env opt)).expired =
      (run step {} pre).expired := (restart_step env opt _).2
  have hpassed : ∀ t, t ∉ (run step {} pre).expired → ∀ id,
      latest (passed t id) (trace step Broker.calls {} (pre ++ [.restart env opt])) =
        latest (passed t id) (trace step Broker.calls {} pre) := by
    intro t halive id
    rw [latest_passed_concat halive]
    simp only [Act.word, ite_self, Option.none_or]
  simp only [hreg, hrun, hexp, restart_step_targets _ hok]
  constructor
  · intro hover
    by_cases hsome : ∃ id, Registered id pre
    · obtain ⟨id, hid⟩ := hsome
      right
      intro t halive
      obtain ⟨hnew, hold⟩ := hover id hid t halive
      simp only [Knows, Forgot, hpassed t halive] at hnew hold
      constructor
      · -- a living target that is dropped still knows `id`
        intro hmem
        by_contra hno
        have hknows := (knows_iff hpre halive id).mpr ⟨hmem, hid⟩
        have hforgot := hold hmem hno
        rw [Knows, hforgot] at hknows
        cases hknows
      · intro hrule
        exact ((knows_iff hpre halive id).mp (hnew hrule)).1
    · left
      intro id hid
      exact hsome ⟨id, hid⟩
  · rintro (hnobody | hsame) id hid t halive
    · exact absurd hid (hnobody id)
    · simp only [Knows, Forgot, hpassed t halive]
      constructor
      · intro hrule
        exact (knows_iff hpre halive id).mpr ⟨(hsame t halive).mpr hrule, hid⟩
      · intro hmem hno
        exact absurd ((hsame t halive).mp hmem) hno

/-- **Handover.** In a run of a new broker every restart hands the registrations over,
    exactly if every restart finds no source registered or changes no living target. -/
theorem handedOver_iff (acts : List Act) : AtEach HandedOver acts ↔ AtEach Unaffected acts :=
  atEach_congr fun _ _ _ hpre => handedOver_iff_unaffected hpre

/-- A source is registered when the only rule moves to another target. -/
theorem not_handedOver : ¬ ∀ acts : List Act, AtEach HandedOver acts := by
  intro hall
  have h := hall
    [.restart twoQueues { rules := [{ target := "queue1" }] }, .call (.regIo 7 (some 5)),
      .restart twoQueues { rules := [{ target := "queue2" }] }]
  obtain ⟨_, hlast⟩ := atEach_concat_iff (l := [Act.restart twoQueues
    { rules := [{ target := "queue1" }] }, Act.call (.regIo 7 (some 5))]).mp h
  have hnew := (hlast twoQueues _ rfl rfl 7 (by decide) 2 (by decide)).1 (by decide)
  exact absurd hnew (by decide)

end Broker

end WfcIo

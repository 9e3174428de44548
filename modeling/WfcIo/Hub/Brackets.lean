import WfcIo.Hub.Hub
import WfcIo.Foundation.Bracket

/-!
# The registrations of the hub at its target

A restart registers the hub under a new id and does not unregister the old one, and
`unreg_io` passes the id of any source down to the target. So what the target sees is well
bracketed only if the restarts and the unregistrations themselves come in brackets.

## Main definitions

- `Hub.targetLog` — the registrations that the hub makes and ends at its target
- `Hub.reaches` — the call leads to a registration or its end at the target

## Main results

- `Hub.targetLog_eq` — which calls the target sees
- `Hub.bracketed_iff` — when its log is well bracketed and one id at most is open
-/

namespace WfcIo

open Foundation

namespace Hub

/-- The target is told of a registration or its end. -/
def Outcall.notice : Outcall → Option (Notice IoId)
  | .target _ (.regIo id _) => some (.opened id)
  | .target _ (.unregIo id) => some (.closed id)
  | _ => none

/-- The registrations made and ended at the target in the run `acts`. -/
def targetLog (h : Hub) (acts : List Act) : List (Notice IoId) :=
  (trace step Hub.outcalls h acts).filterMap Outcall.notice

/-- A restart opens the id it takes, an unregistration closes its id. -/
def Act.notice : Act → Option (Notice IoId)
  | .restart newId => some (.opened newId)
  | .unregIo id => some (.closed id)
  | _ => none

/-- The call gets through to the target: an unregistration only if the hub is not
    suspended. -/
def reaches (h : Hub) : Act → Bool
  | .restart _ => h.lockTarget.isSome
  | .unregIo _ => h.lockTarget.isSome && !h.suspended
  | _ => false

/-- The restarts and unregistrations of a run that get through to the target. -/
def passedOn (h : Hub) (acts : List Act) : List (Notice IoId) :=
  (taken step reaches h acts).filterMap Act.notice

variable {h : Hub} {a : Act} {acts : List Act} {id : IoId}

/-! ### One step -/

theorem performIo_silent (d : DataPtr) (handler : Option Handler) (h : Hub) :
    (h.quiet.performIo d id handler).outcalls.filterMap Outcall.notice = [] ∧
      (h.quiet.performIo d id handler).handlerId = h.handlerId := by
  rw [performIo_eq]
  split
  · exact ⟨rfl, rfl⟩
  · refine ⟨?_, rfl⟩
    simp only [quiet_outcalls, List.nil_append, List.filterMap_append, List.filterMap_filterMap,
      List.append_eq_nil_iff]
    constructor
    · apply List.filterMap_eq_nil_iff.mpr
      intro item _
      simp only [delivery]
      split
      · rfl
      · cases h.quiet.lock item.2 with
        | none => rfl
        | some p => cases d <;> rfl
    · simp only [forward]
      split
      · rfl
      · cases h.quiet.lockTarget <;> rfl

/-- What a step can tell the target: the opening of the new id of the hub, the closing of any
    id, or nothing. -/
theorem step_notice (h : Hub) (a : Act) :
    (∃ newId, a = .restart newId ∧ reaches h a = true ∧
      (step h a).outcalls.filterMap Outcall.notice = [.opened newId] ∧
      (step h a).handlerId = newId) ∨
    (∃ id, a = .unregIo id ∧ reaches h a = true ∧
      (step h a).outcalls.filterMap Outcall.notice = [.closed id] ∧
      (step h a).handlerId = h.handlerId) ∨
    (reaches h a = false ∧ (step h a).outcalls.filterMap Outcall.notice = [] ∧
      (step h a).handlerId = h.handlerId) := by
  cases a with
  | restart newId =>
    simp only [step, exec, restart, quiet_lockTarget, reaches]
    cases h.lockTarget with
    | none => exact Or.inr (Or.inr ⟨rfl, rfl, rfl⟩)
    | some t => exact Or.inl ⟨newId, rfl, rfl, rfl, rfl⟩
  | unregIo id =>
    by_cases hs : h.quiet.suspended = true
    · right; right
      rw [step, exec, unregIo_eq, if_pos hs]
      refine ⟨?_, rfl, rfl⟩
      rw [quiet_suspended] at hs
      simp only [reaches, hs, Bool.not_true, Bool.and_false]
    · rw [step, exec, unregIo_eq, if_neg hs, quiet_lockTarget]
      rw [quiet_suspended, Bool.not_eq_true] at hs
      simp only [reaches, hs, Bool.not_false, Bool.and_true]
      cases h.lockTarget with
      | none => exact Or.inr (Or.inr ⟨rfl, rfl, rfl⟩)
      | some t => exact Or.inr (Or.inl ⟨id, rfl, rfl, rfl, rfl⟩)
  | regIo id itf =>
    right; right
    refine ⟨rfl, ?_⟩
    simp only [step, exec, regIo]
    split <;> exact ⟨rfl, rfl⟩
  | performIo d id handler =>
    right; right
    exact ⟨rfl, performIo_silent d handler h⟩
  | relay d id cb =>
    right; right
    refine ⟨rfl, ?_⟩
    simp only [step, exec]
    cases h.quiet.targetHandler with
    | none => exact ⟨rfl, rfl⟩
    | some r => exact performIo_silent d cb h
  | _ =>
    right; right
    exact ⟨rfl, rfl, rfl⟩

/-! ### Whole runs -/

theorem targetLog_concat (h : Hub) (acts : List Act) (a : Act) :
    targetLog h (acts ++ [a]) =
      targetLog h acts ++ (step (run step h acts) a).outcalls.filterMap Outcall.notice := by
  simp only [targetLog, trace_concat, List.filterMap_append]

theorem passedOn_concat (h : Hub) (acts : List Act) (a : Act) :
    passedOn h (acts ++ [a]) =
      passedOn h acts ++
        (if reaches (run step h acts) a then [a] else []).filterMap Act.notice := by
  simp only [passedOn, taken_concat, List.filterMap_append]

/-- What the target is told are the restarts and unregistrations that get through. -/
theorem targetLog_eq (h : Hub) (acts : List Act) : targetLog h acts = passedOn h acts := by
  induction acts using List.reverseRecOn with
  | nil => rfl
  | append_singleton acts a ih =>
    rw [targetLog_concat, passedOn_concat, ih]
    obtain ⟨newId, rfl, hr, hnotice, _⟩ | ⟨id, rfl, hr, hnotice, _⟩ | ⟨hr, hnotice, _⟩ :=
      step_notice (run step h acts) a
    · rw [hnotice, hr]
      rfl
    · rw [hnotice, hr]
      rfl
    · rw [hnotice, hr]
      rfl

/-- At the end of the run one id at most is open at the target, that of the hub. -/
def OneOpen (h : Hub) (acts : List Act) : Prop :=
  openKeys (targetLog h acts) = [] ∨ openKeys (targetLog h acts) = [(run step h acts).handlerId]

instance (h : Hub) (acts : List Act) : Decidable (OneOpen h acts) :=
  inferInstanceAs (Decidable (_ ∨ _))

/-- **Brackets.** The log of the target is well bracketed and one id at most is open at every
    moment, that of the hub, exactly if the restarts and the unregistrations that get
    through to the target take turns, each unregistration with the id of the restart. -/
theorem bracketed_iff (id : IoId) (target : Option Target) (acts : List Act) :
    (Bracketed (targetLog (initialized id target) acts) ∧
      ∀ pre, pre <+: acts → OneOpen (initialized id target) pre) ↔
      Alternating (passedOn (initialized id target) acts) := by
  generalize initialized id target = h
  rw [← targetLog_eq]
  -- by induction on the run: the log grows by one notice at most
  induction acts using List.reverseRecOn with
  | nil =>
    refine iff_of_true ⟨bracketed_nil, fun pre hpre => ?_⟩ atEach_nil
    left
    rw [List.prefix_nil.mp hpre]
    rfl
  | append_singleton acts a ih =>
    have hpre : (∀ pre, pre <+: acts ++ [a] → OneOpen h pre) ↔
        (∀ pre, pre <+: acts → OneOpen h pre) ∧ OneOpen h (acts ++ [a]) := by
      simp only [List.prefix_concat_iff, forall_eq_or_imp, and_comm]
    rw [hpre]
    simp only [OneOpen, targetLog_concat, run_concat]
    obtain ⟨newId, rfl, _, hnotice, hid⟩ | ⟨k, rfl, _, hnotice, hid⟩ | ⟨_, hnotice, hid⟩ :=
      step_notice (run step h acts) a
    · rw [hnotice, hid, bracketed_concat_iff, alternating_concat_iff, ← ih]
      constructor
      · rintro ⟨⟨hb, _⟩, hall, hopen⟩
        refine ⟨⟨hb, hall⟩, (ih.mp ⟨hb, hall⟩).inTurn_opened_iff.mpr ?_⟩
        apply hopen.resolve_left
        rw [openKeys_concat]
        exact List.cons_ne_nil _ _
      · rintro ⟨⟨hb, hall⟩, hturn⟩
        refine ⟨⟨hb, fun k hk => (by cases hk)⟩, hall, Or.inr ?_⟩
        exact (ih.mp ⟨hb, hall⟩).inTurn_opened_iff.mp hturn
    · rw [hnotice, bracketed_concat_iff, alternating_concat_iff, ← ih]
      constructor
      · rintro ⟨⟨hb, hmatch⟩, hall, _⟩
        refine ⟨⟨hb, hall⟩, (ih.mp ⟨hb, hall⟩).inTurn_closed_iff.mpr ?_⟩
        exact hmatch k rfl
      · rintro ⟨⟨hb, hall⟩, hturn⟩
        have halt := ih.mp ⟨hb, hall⟩
        refine ⟨⟨hb, fun j hj => ?_⟩, hall, Or.inl ?_⟩
        · cases hj
          exact halt.inTurn_closed_iff.mp hturn
        · exact (alternating_concat_iff.mpr ⟨halt, hturn⟩).openKeys_eq.trans (by simp [Notice.left])
    · rw [hnotice, hid, List.append_nil, ← ih]
      constructor
      · rintro ⟨hb, hall, _⟩
        exact ⟨hb, hall⟩
      · rintro ⟨hb, hall⟩
        exact ⟨hb, hall, hall acts (List.prefix_refl acts)⟩

/-- The hub restarts twice: the old id stays open at the target. -/
theorem not_bracketed :
    ¬ ∀ (id : IoId) (target : Option Target) (acts : List Act),
      Bracketed (targetLog (initialized id target) acts) ∧
        ∀ pre, pre <+: acts → OneOpen (initialized id target) pre := by
  intro hall
  obtain ⟨_, hopen⟩ := hall 1 (some 3) [.restart 2, .regIo 7 (some 5), .restart 4]
  exact absurd (hopen _ (List.prefix_refl _)) (by decide)

end Hub

end WfcIo

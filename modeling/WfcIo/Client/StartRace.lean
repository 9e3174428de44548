import WfcIo.Client.ClientTcp
import WfcIo.Client.Registrations
import WfcIo.Foundation.Interleave

/-!
# Registrations during the start

`reg_io` reads `_client_started` and then registers in the map or inserts into
`_wait_list`; only the insertion is under `_mutex`. A start sets `_client_started`, not
under `_mutex` either, and then replays the wait list. A registration that has read the
flag before the start sets it may insert after the replay, and nobody looks into the list
again.

## Main definitions

- `TcpCall` — the local states of a registration and of a start, and `TcpCall.sections`
- `TcpCall.NoneLost` — every returned registration has its id in the map
- `TcpCall.Missed` — a registration inserts into the wait list after the replay

## Main results

- `TcpCall.serial_eq` — a call that is not interrupted is the atomic call
- `TcpCall.registered_iff` — no registration is lost exactly if none is `Missed`
-/

namespace WfcIo

open Foundation

/-- The local state of a call of `reg_io` or of `reconfigure_and_start_`. -/
inductive TcpCall
  /-- About to read `suspended` and `_client_started`. -/
  | beginRegIo (id : IoId) (itf : Option Source)
  /-- About to call `_client_map->reg_io`. -/
  | mapRegIo (id : IoId) (itf : Option Source)
  /-- About to insert into `_wait_list`. -/
  | waitRegIo (id : IoId) (itf : Option Source)
  | returned (id : IoId)
  /-- About to call `_client_map->reconfigure_and_start`. -/
  | reconfigure
  | readStarted
  | setStarted
  | replay
  | createTimer
  | started
  deriving DecidableEq

namespace TcpCall

/-- The calls. -/
inductive Op
  | regIo (id : IoId) (itf : Option Source)
  | start
  deriving DecidableEq

def enter : Op → TcpCall
  | .regIo id itf => beginRegIo id itf
  | .start => reconfigure

/-- The next section of a call. The replay holds `_mutex`, which is recursive. -/
def step (c : ClientTcp) : TcpCall → ClientTcp × TcpCall
  | beginRegIo id itf =>
    (c, if c.suspended then returned id
      else if c.clientStarted then mapRegIo id itf
      else waitRegIo id itf)
  | mapRegIo id itf => (c.mapCall (.regIo id itf), returned id)
  | waitRegIo id itf => ({ c with waitList := c.waitList.assign id itf }, returned id)
  | returned id => (c, returned id)
  | reconfigure => (c.mapCall (.reconfigureAndStart c.mapOptions), readStarted)
  | readStarted => (c, if c.clientStarted then createTimer else setStarted)
  | setStarted => ({ c with clientStarted := true }, replay)
  | replay => (c.replay, createTimer)
  | createTimer => (c.createTimer, started)
  | started => (c, started)

def sections : Sections ClientTcp Op TcpCall := ⟨enter, step⟩

/-- The call as one atomic step. -/
def Op.exec (c : ClientTcp) : Op → ClientTcp
  | .regIo id itf => c.regIo id itf
  | .start => c.reconfigureAndStart_

theorem alone_eq (c : ClientTcp) (op : Op) : (sections.alone 5 c (enter op)).1 = op.exec c := by
  cases op with
  | regIo id itf =>
    simp only [Op.exec, ClientTcp.regIo]
    cases hsusp : c.suspended <;> cases hstarted : c.clientStarted <;>
      simp [Sections.alone, sections, enter, step, hsusp, hstarted]
  | start =>
    have hkeep : (c.mapCall (.reconfigureAndStart c.mapOptions)).clientStarted =
        c.clientStarted := rfl
    simp only [Op.exec, ClientTcp.reconfigureAndStart_, hkeep]
    cases hstarted : c.clientStarted <;>
      simp [Sections.alone, sections, enter, step, hkeep, hstarted]

/-- Calls that do not overlap do to the object what the atomic calls do. -/
theorem serial_eq {c : Config ClientTcp TcpCall} {i : ℕ} (hi : c.calls i = none) (op : Op) :
    (run sections.next c (.enter i op :: List.replicate 5 (.resume i))).shared =
      op.exec c.shared := by
  rw [sections.run_alone 5 hi op]
  exact alone_eq c.shared op

/-- The id a registration is for; a start has none. -/
def ioId : TcpCall → Option IoId
  | beginRegIo id _ | mapRegIo id _ | waitRegIo id _ | returned id => some id
  | _ => none

/-- The start has the replay, if there was one, behind it. -/
def replayed : TcpCall → Bool
  | createTimer => true
  | started => true
  | _ => false

/-- All calls have returned. -/
def Completed (c : Config ClientTcp TcpCall) : Prop :=
  ∀ i t, c.calls i = some t → t = started ∨ ∃ id, t = returned id

/-- There is one start among the calls, and the registrations are of distinct ids. -/
def OneStart (c : Config ClientTcp TcpCall) : Prop :=
  (∃! i, c.calls i = some started) ∧
    ∀ i j id, c.calls i = some (returned id) → c.calls j = some (returned id) → i = j

/-- Every registration that has returned has its id in the map. -/
def NoneLost (c : Config ClientTcp TcpCall) : Prop :=
  ∀ i id, c.calls i = some (returned id) → c.shared.clientMap.find id ≠ none

/-- The move inserts an id into the wait list after the replay, and the id is not in the
    map. -/
def Missed (c : Config ClientTcp TcpCall) (a : Move Op) : Prop :=
  ∃ i id itf, a = .resume i ∧ c.calls i = some (waitRegIo id itf) ∧
    (∃ j t, c.calls j = some t ∧ t.replayed = true) ∧ c.shared.clientMap.find id = none

/-! ### What a section does to the object -/

/-- What no section takes back. -/
structure Grows (c c' : ClientTcp) : Prop where
  suspended : c'.suspended = c.suspended
  clientStarted : c.clientStarted = true → c'.clientStarted = true
  stopFlag : c.clientMap.stopFlag = false → c'.clientMap.stopFlag = false
  mapped : ∀ id, c.clientMap.find id ≠ none → c'.clientMap.find id ≠ none
  waiting : ∀ id, c.waitList.find id ≠ none → c'.waitList.find id ≠ none

variable {c : ClientTcp} {id k : IoId} {itf : Option Source}

theorem mapped_regIo {m : ClientTcpMap} (h : m.find k ≠ none) (id : IoId) (itf : Option Source) :
    (m.regIo id itf).find k ≠ none := by
  cases hstop : m.stopFlag with
  | true =>
    simp only [ClientTcpMap.regIo, hstop, if_true]
    exact h
  | false =>
    rw [ClientTcpMap.regIo_of_running hstop]
    exact (ClientTcpMap.upsert_mapped_iff id).mpr (Or.inr h)

theorem unmapped_regIo {m : ClientTcpMap} (h : m.find k = none) (hne : id ≠ k)
    (itf : Option Source) : (m.regIo id itf).find k = none := by
  cases hstop : m.stopFlag with
  | true =>
    simp only [ClientTcpMap.regIo, hstop, if_true]
    exact h
  | false =>
    rw [ClientTcpMap.regIo_of_running hstop]
    by_contra hmapped
    obtain hk | hk := (ClientTcpMap.upsert_mapped_iff id).mp hmapped
    · exact hne hk
    · exact hk h

/-- `reconfigure_and_start` keeps the ids. -/
theorem mapped_reconfigure (m : ClientTcpMap) (opt : ClientTcpConfig) :
    (m.reconfigureAndStart opt).find k = none ↔ m.find k = none := by
  simp only [ClientTcpMap.find, OrderedMap.find_eq_none_iff,
    (m.reconfigureAndStart_spec opt).keys]

theorem Grows.refl (c : ClientTcp) : Grows c c :=
  ⟨rfl, fun h => h, fun h => h, fun _ h => h, fun _ h => h⟩

theorem Grows.trans {c c' c'' : ClientTcp} (h : Grows c c') (h' : Grows c' c'') : Grows c c'' where
  suspended := h'.suspended.trans h.suspended
  clientStarted := fun hs => h'.clientStarted (h.clientStarted hs)
  stopFlag := fun hs => h'.stopFlag (h.stopFlag hs)
  mapped := fun id hm => h'.mapped id (h.mapped id hm)
  waiting := fun id hw => h'.waiting id (h.waiting id hw)

theorem grows_mapRegIo (c : ClientTcp) (id : IoId) (itf : Option Source) :
    Grows c (c.mapCall (.regIo id itf)) where
  suspended := rfl
  clientStarted := fun h => h
  stopFlag := fun h => (ClientTcpMap.Steady.regIo id itf).stopFlag.trans h
  mapped := fun _ h => mapped_regIo h id itf
  waiting := fun _ h => h

theorem grows_waitRegIo (c : ClientTcp) (id : IoId) (itf : Option Source) :
    Grows c { c with waitList := c.waitList.assign id itf } where
  suspended := rfl
  clientStarted := fun h => h
  stopFlag := fun h => h
  mapped := fun _ h => h
  waiting := by
    intro k h
    show (c.waitList.assign id itf).find k ≠ none
    rw [OrderedMap.find_assign]
    split
    · exact Option.some_ne_none itf
    · exact h

theorem grows_regIo (c : ClientTcp) (id : IoId) (itf : Option Source) :
    Grows c (c.regIo id itf) := by
  simp only [ClientTcp.regIo]
  split
  · exact .refl c
  · split
    · exact grows_mapRegIo c id itf
    · exact grows_waitRegIo c id itf

theorem grows_replay (c : ClientTcp) : Grows c c.replay := by
  have hfold : ∀ (l : List (IoId × Option Source)) (c : ClientTcp),
      Grows c (l.foldl (fun c item => c.regIo item.1 item.2) c) := by
    intro l
    induction l with
    | nil => exact .refl
    | cons p l ih => exact fun c => (grows_regIo c p.1 p.2).trans (ih _)
  exact hfold _ c

theorem step_grows (c : ClientTcp) (t : TcpCall) : Grows c (step c t).1 := by
  cases t with
  | beginRegIo id itf => exact .refl c
  | mapRegIo id itf => exact grows_mapRegIo c id itf
  | waitRegIo id itf => exact grows_waitRegIo c id itf
  | returned id => exact .refl c
  | reconfigure =>
    refine ⟨rfl, fun h => h, fun _ => ?_, fun id h => ?_, fun _ h => h⟩
    · exact (c.clientMap.reconfigureAndStart_spec c.mapOptions).stopFlag
    · exact fun hnone => h ((mapped_reconfigure _ _).mp hnone)
  | readStarted => exact .refl c
  | setStarted => exact ⟨rfl, fun _ => rfl, fun h => h, fun _ h => h, fun _ h => h⟩
  | replay => exact grows_replay c
  | createTimer =>
    have htimer : Grows c c.createTimer := by
      simp only [ClientTcp.createTimer]
      split
      · exact ⟨rfl, fun h => h, fun h => h, fun _ h => h, fun _ h => h⟩
      · exact .refl c
    exact htimer
  | started => exact .refl c

/-- The replay of a running object has every waiting id in the map. -/
theorem mapped_replay (hsusp : c.suspended = false) (hstarted : c.clientStarted = true)
    (hstop : c.clientMap.stopFlag = false) (hwait : c.waitList.find id ≠ none) :
    c.replay.clientMap.find id ≠ none := by
  have hreg : ∀ c : ClientTcp, c.suspended = false → c.clientStarted = true →
      ∀ k itf, c.regIo k itf = c.mapCall (.regIo k itf) := by
    intro c hsusp hstarted k itf
    simp only [ClientTcp.regIo, hsusp, hstarted, Bool.false_eq_true, if_false, if_true]
  have hfold : ∀ (l : List (IoId × Option Source)) (c : ClientTcp), c.suspended = false →
      c.clientStarted = true → c.clientMap.stopFlag = false →
      (c.clientMap.find id ≠ none ∨ ∃ itf, (id, itf) ∈ l) →
      (l.foldl (fun c item => c.regIo item.1 item.2) c).clientMap.find id ≠ none := by
    intro l
    induction l with
    | nil =>
      intro c _ _ _ h
      obtain h | ⟨itf, h⟩ := h
      · exact h
      · cases h
    | cons p l ih =>
      intro c hsusp hstarted hstop h
      rw [List.foldl_cons, hreg c hsusp hstarted]
      apply ih (c.mapCall (.regIo p.1 p.2)) hsusp hstarted
      · exact (ClientTcpMap.Steady.regIo p.1 p.2).stopFlag.trans hstop
      · obtain h | ⟨itf, h⟩ := h
        · exact Or.inl (mapped_regIo h p.1 p.2)
        · obtain rfl | h := List.mem_cons.mp h
          · left
            show (c.clientMap.regIo id itf).find id ≠ none
            rw [ClientTcpMap.regIo_of_running hstop]
            exact (ClientTcpMap.upsert_mapped_iff id).mpr (Or.inl rfl)
          · exact Or.inr ⟨itf, h⟩
  obtain ⟨itf, hfind⟩ := Option.ne_none_iff_exists'.mp hwait
  exact hfold _ c hsusp hstarted hstop (Or.inr ⟨itf, OrderedMap.find_eq_some_iff.mp hfind⟩)

theorem step_ioId (c : ClientTcp) (t : TcpCall) : (step c t).2.ioId = t.ioId := by
  cases t with
  | beginRegIo id itf =>
    simp only [step]
    split
    · rfl
    · split <;> rfl
  | readStarted =>
    simp only [step]
    split <;> rfl
  | _ => rfl

/-- A section leaves an id that is not in the map outside, unless it is a registration of
    that id or belongs to a start. -/
theorem unmapped_step (c : ClientTcp) {t : TcpCall} (h : c.clientMap.find k = none)
    (hid : t.ioId ≠ some k) (hstart : t.ioId = none → t.replayed = true) :
    (step c t).1.clientMap.find k = none := by
  cases t with
  | beginRegIo id itf => exact h
  | mapRegIo id itf => exact unmapped_regIo h (fun heq => hid (congrArg some heq)) itf
  | waitRegIo id itf => exact h
  | returned id => exact h
  | createTimer => exact (congrArg (ClientTcpMap.find · k) c.createTimer_clientMap).trans h
  | started => exact h
  | _ => cases hstart rfl

/-- The section registers its id, if the map is running. -/
theorem mapped_step (c : ClientTcp) {t : TcpCall} (hstop : c.clientMap.stopFlag = false)
    (ht : t = mapRegIo id itf) : (step c t).1.clientMap.find id ≠ none := by
  subst ht
  show (c.clientMap.regIo id itf).find id ≠ none
  rw [ClientTcpMap.regIo_of_running hstop]
  exact (ClientTcpMap.upsert_mapped_iff id).mpr (Or.inl rfl)

/-! ### The invariant -/

/-- The map has been reconfigured for the start, and the flag is about to be read or set, or
    the list to be replayed. -/
def configured : TcpCall → Bool
  | readStarted => true
  | setStarted => true
  | replay => true
  | _ => false

/-- The call has seen or made the object running. -/
def opened : TcpCall → Bool
  | mapRegIo _ _ => true
  | replay => true
  | createTimer => true
  | started => true
  | _ => false

/-- A replay is still to come. -/
def Pending (c : Config ClientTcp TcpCall) : Prop :=
  c.shared.clientStarted = false ∨ ∃ j, c.calls j = some replay

/-- A start has no replay before it any more. -/
def Over (c : Config ClientTcp TcpCall) : Prop :=
  ∃ j t, c.calls j = some t ∧ t.replayed = true

/-- Every returned registration is in the map, or waits for a replay that is to come. -/
structure Safe (c : Config ClientTcp TcpCall) : Prop where
  suspended : c.shared.suspended = false
  running : c.shared.Running
  configured : ∀ i t, c.calls i = some t → t.configured = true →
    c.shared.clientMap.stopFlag = false
  opened : ∀ i t, c.calls i = some t → t.opened = true → c.shared.clientStarted = true
  waiting : ∀ i id itf, c.calls i = some (waitRegIo id itf) → Pending c ∨ Over c
  kept : ∀ i id, c.calls i = some (returned id) → c.shared.clientMap.find id ≠ none ∨
    c.shared.waitList.find id ≠ none ∧ Pending c

section Resume

variable {c c' : Config ClientTcp TcpCall} {i : ℕ} {t : TcpCall}

theorem step_configured {s : ClientTcp} (h : t.configured = true → s.clientMap.stopFlag = false)
    (ht : (step s t).2.configured = true) : (step s t).1.clientMap.stopFlag = false := by
  cases t with
  | reconfigure => exact (s.clientMap.reconfigureAndStart_spec s.mapOptions).stopFlag
  | readStarted => exact h rfl
  | setStarted => exact h rfl
  | beginRegIo id itf =>
    simp only [step] at ht
    split at ht
    · cases ht
    · split at ht <;> cases ht
  | _ => cases ht

theorem step_opened {s : ClientTcp} (h : t.opened = true → s.clientStarted = true)
    (ht : (step s t).2.opened = true) : (step s t).1.clientStarted = true := by
  cases t with
  | beginRegIo id itf =>
    simp only [step] at ht
    split at ht
    · cases ht
    · split at ht
      · next hstarted => exact hstarted
      · cases ht
  | readStarted =>
    simp only [step] at ht
    split at ht
    · next hstarted => exact hstarted
    · cases ht
  | setStarted => rfl
  | replay => exact (grows_replay s).clientStarted (h rfl)
  | createTimer => exact (s.createTimer_clientStarted).trans (h rfl)
  | started => exact h rfl
  | mapRegIo id itf => cases ht
  | waitRegIo id itf => cases ht
  | returned id => cases ht
  | reconfigure => cases ht

/-- The configuration after a section of the call in slot `i`. -/
def resumed (c : Config ClientTcp TcpCall) (i : ℕ) (t : TcpCall) : Config ClientTcp TcpCall where
  shared := (step c.shared t).1
  calls := Function.update c.calls i (some (step c.shared t).2)

theorem resumed_self (c : Config ClientTcp TcpCall) (i : ℕ) (t : TcpCall) :
    (resumed c i t).calls i = some (step c.shared t).2 := Function.update_self _ _ _

theorem resumed_of_ne {j : ℕ} (hj : j ≠ i) : (resumed c i t).calls j = c.calls j :=
  Function.update_of_ne hj _ _

theorem step_clientStarted {s : ClientTcp} (h : s.clientStarted = false) (hset : t ≠ setStarted)
    (hreplay : t ≠ replay) : (step s t).1.clientStarted = false := by
  cases t with
  | setStarted => exact absurd rfl hset
  | replay => exact absurd rfl hreplay
  | createTimer => exact (s.createTimer_clientStarted).trans h
  | _ => exact h

/-- A replay to come is still to come after a section, unless that was the replay. -/
theorem pending_resumed (hi : c.calls i = some t) (h : Pending c) (ht : t ≠ replay) :
    Pending (resumed c i t) := by
  obtain hstarted | ⟨j, hj⟩ := h
  · by_cases hset : t = setStarted
    · subst hset
      exact Or.inr ⟨i, resumed_self c i setStarted⟩
    · exact Or.inl (step_clientStarted hstarted hset ht)
  · have hne : j ≠ i := by
      rintro rfl
      rw [hi] at hj
      exact ht (Option.some.inj hj)
    exact Or.inr ⟨j, (resumed_of_ne hne).trans hj⟩

theorem over_resumed (hi : c.calls i = some t) (h : Over c) : Over (resumed c i t) := by
  obtain ⟨j, u, hj, hu⟩ := h
  by_cases hji : j = i
  · subst hji
    rw [hi] at hj
    cases hj
    cases t with
    | createTimer => exact ⟨j, started, resumed_self c j createTimer, rfl⟩
    | started => exact ⟨j, started, resumed_self c j started, rfl⟩
    | _ => cases hu
  · exact ⟨j, u, (resumed_of_ne hji).trans hj, hu⟩

/-- A registration that is about to insert finds a replay to come or behind. -/
theorem waiting_resumed (h : Safe c) (hi : c.calls i = some t) {id : IoId} {itf : Option Source}
    (ht : (step c.shared t).2 = waitRegIo id itf) : Pending (resumed c i t) := by
  cases t with
  | beginRegIo k itf' =>
    simp only [step, h.suspended, Bool.false_eq_true, if_false] at ht
    split at ht
    · cases ht
    · next hstarted => exact Or.inl (Bool.not_eq_true _ ▸ hstarted)
  | readStarted =>
    simp only [step] at ht
    split at ht <;> cases ht
  | _ => cases ht

/-- A section that returns from a registration leaves the id in the map, or in the wait list
    with a replay to come. -/
theorem returned_resumed (h : Safe c) (hi : c.calls i = some t)
    (hmissed : ¬ Missed c (.resume i)) {id : IoId} (ht : (step c.shared t).2 = returned id) :
    (resumed c i t).shared.clientMap.find id ≠ none ∨
      (resumed c i t).shared.waitList.find id ≠ none ∧ Pending (resumed c i t) := by
  have hgrows := step_grows c.shared t
  cases t with
  | beginRegIo k itf =>
    simp only [step, h.suspended, Bool.false_eq_true, if_false] at ht
    split at ht <;> cases ht
  | mapRegIo k itf =>
    cases ht
    have hstop := h.running (h.opened i _ hi rfl)
    exact Or.inl (mapped_step c.shared hstop rfl)
  | waitRegIo k itf =>
    cases ht
    by_cases hmapped : c.shared.clientMap.find id = none
    · right
      refine ⟨?_, ?_⟩
      · show (c.shared.waitList.assign id itf).find id ≠ none
        rw [OrderedMap.find_assign, if_pos rfl]
        exact Option.some_ne_none itf
      · obtain hpending | ⟨j, u, hj, hu⟩ := h.waiting i id itf hi
        · exact pending_resumed hi hpending (fun heq => by cases heq)
        · exact absurd ⟨i, id, itf, rfl, hi, ⟨j, u, hj, hu⟩, hmapped⟩ hmissed
    · exact Or.inl (hgrows.mapped id hmapped)
  | returned k =>
    cases ht
    obtain hmapped | ⟨hwait, hpending⟩ := h.kept i id hi
    · exact Or.inl hmapped
    · exact Or.inr ⟨hwait, pending_resumed hi hpending (fun heq => by cases heq)⟩
  | readStarted =>
    simp only [step] at ht
    split at ht <;> cases ht
  | _ => cases ht

/-- What was kept for another call is still kept; the replay moves it to the map. -/
theorem kept_resumed (h : Safe c) (hi : c.calls i = some t) {id : IoId}
    (hkept : c.shared.clientMap.find id ≠ none ∨ c.shared.waitList.find id ≠ none ∧ Pending c) :
    (resumed c i t).shared.clientMap.find id ≠ none ∨
      (resumed c i t).shared.waitList.find id ≠ none ∧ Pending (resumed c i t) := by
  have hgrows := step_grows c.shared t
  obtain hmapped | ⟨hwait, hpending⟩ := hkept
  · exact Or.inl (hgrows.mapped id hmapped)
  · by_cases ht : t = replay
    · subst ht
      left
      apply mapped_replay h.suspended (h.opened i _ hi rfl) (h.configured i _ hi rfl) hwait
    · exact Or.inr ⟨hgrows.waiting id hwait, pending_resumed hi hpending ht⟩

theorem Safe.resume (h : Safe c) (hi : c.calls i = some t) (hmissed : ¬ Missed c (.resume i)) :
    Safe (resumed c i t) := by
  have hgrows := step_grows c.shared t
  -- a slot of the new configuration is that of this call, or it is as it was
  have hslot : ∀ j u, (resumed c i t).calls j = some u →
      j = i ∧ u = (step c.shared t).2 ∨ c.calls j = some u :=
    fun j u hu => (calls_update hu).imp_right fun h => h.2
  refine ⟨hgrows.suspended.trans h.suspended, fun hstarted => ?_, fun j u hu hconf => ?_,
    fun j u hu hopen => ?_, fun j id itf hu => ?_, fun j id hu => ?_⟩
  · by_cases hbefore : c.shared.clientStarted = true
    · exact hgrows.stopFlag (h.running hbefore)
    · -- only the section that sets the flag gets here
      have hset : t = setStarted ∨ t = replay := by
        by_contra hnot
        push Not at hnot
        have hfalse := step_clientStarted (Bool.not_eq_true _ ▸ hbefore) hnot.1 hnot.2
        exact absurd (hstarted.symm.trans hfalse) (by decide)
      obtain rfl | rfl := hset
      · exact hgrows.stopFlag (h.configured i _ hi rfl)
      · exact hgrows.stopFlag (h.configured i _ hi rfl)
  · obtain ⟨rfl, rfl⟩ | hj := hslot j u hu
    · exact step_configured (h.configured j t hi) hconf
    · exact hgrows.stopFlag (h.configured j u hj hconf)
  · obtain ⟨rfl, rfl⟩ | hj := hslot j u hu
    · exact step_opened (h.opened j t hi) hopen
    · exact hgrows.clientStarted (h.opened j u hj hopen)
  · obtain ⟨rfl, hut⟩ | hj := hslot j _ hu
    · exact Or.inl (waiting_resumed h hi hut.symm)
    · obtain hpending | hover := h.waiting j id itf hj
      · by_cases ht : t = replay
        · subst ht
          exact Or.inr ⟨i, createTimer, resumed_self c i replay, rfl⟩
        · exact Or.inl (pending_resumed hi hpending ht)
      · exact Or.inr (over_resumed hi hover)
  · obtain ⟨rfl, hut⟩ | hj := hslot j _ hu
    · exact returned_resumed h hi hmissed hut.symm
    · exact kept_resumed h hi (h.kept j id hj)

end Resume

/-- A call that begins has done nothing yet. -/
theorem Safe.enter {c : Config ClientTcp TcpCall} (h : Safe c) {i : ℕ} (hi : c.calls i = none)
    (op : Op) : Safe { c with calls := Function.update c.calls i (some (TcpCall.enter op)) } := by
  have hslot : ∀ j u, Function.update c.calls i (some (TcpCall.enter op)) j = some u →
      j = i ∧ u = TcpCall.enter op ∨ c.calls j = some u :=
    fun j u hu => (calls_update hu).imp_right fun h => h.2
  have hkeep : ∀ j u, c.calls j = some u →
      Function.update c.calls i (some (TcpCall.enter op)) j = some u :=
    fun j u hu => calls_update_of_none hi hu
  have hpending : Pending c →
      Pending { c with calls := Function.update c.calls i (some (TcpCall.enter op)) } :=
    fun hp => hp.imp_right fun ⟨j, hj⟩ => ⟨j, hkeep j _ hj⟩
  refine ⟨h.suspended, h.running, fun j u hu hconf => ?_, fun j u hu hopen => ?_,
    fun j id itf hu => ?_, fun j id hu => ?_⟩
  · obtain ⟨_, rfl⟩ | hj := hslot j u hu
    · cases op <;> cases hconf
    · exact h.configured j u hj hconf
  · obtain ⟨_, rfl⟩ | hj := hslot j u hu
    · cases op <;> cases hopen
    · exact h.opened j u hj hopen
  · obtain ⟨_, hut⟩ | hj := hslot j _ hu
    · cases op <;> cases hut
    · exact (h.waiting j id itf hj).imp hpending fun ⟨k, u, hk, hu'⟩ => ⟨k, u, hkeep k u hk, hu'⟩
  · obtain ⟨_, hut⟩ | hj := hslot j _ hu
    · cases op <;> cases hut
    · exact (h.kept j id hj).imp_right fun ⟨hwait, hp⟩ => ⟨hwait, hpending hp⟩

/-- **Step**: a move that does not miss the replay keeps every registration. -/
theorem Safe.next {c : Config ClientTcp TcpCall} (h : Safe c) {a : Move Op}
    (hmissed : ¬ Missed c a) : Safe (sections.next c a) := by
  obtain heq | ⟨i, op, rfl, hi, heq⟩ | ⟨i, t, rfl, hi, heq⟩ := sections.next_cases c a
  · rw [heq]
    exact h
  · rw [heq]
    exact h.enter hi op
  · rw [heq]
    exact h.resume hi hmissed

theorem Safe.idle {s : ClientTcp} (hsusp : s.suspended = false) (hrun : s.Running) :
    Safe (Config.idle s) where
  suspended := hsusp
  running := hrun
  configured := fun _ _ h => by cases h
  opened := fun _ _ h => by cases h
  waiting := fun _ _ _ h => by cases h
  kept := fun _ _ h => by cases h

/-! ### A missed registration is lost -/

/-- A registration has returned after the replay without its id in the map, or there is a
    second registration of the id, or a second start. -/
def Lost (i j : ℕ) (id : IoId) (c : Config ClientTcp TcpCall) : Prop :=
  c.calls i = some (returned id) ∧ (∃ t, c.calls j = some t ∧ t.replayed = true) ∧
    (c.shared.clientMap.find id = none ∨
      (∃ k t, k ≠ i ∧ c.calls k = some t ∧ t.ioId = some id) ∨
      ∃ k t, k ≠ j ∧ c.calls k = some t ∧ t.ioId = none)

theorem Lost.enter {i j k : ℕ} {id : IoId} {c : Config ClientTcp TcpCall} (h : Lost i j id c)
    (hk : c.calls k = none) (op : Op) :
    Lost i j id { c with calls := Function.update c.calls k (some (TcpCall.enter op)) } := by
  obtain ⟨hi, ⟨u, hj, hu⟩, hcase⟩ := h
  have hkeep : ∀ l v, c.calls l = some v →
      Function.update c.calls k (some (TcpCall.enter op)) l = some v :=
    fun l v hv => calls_update_of_none hk hv
  refine ⟨hkeep i _ hi, ⟨u, hkeep j u hj, hu⟩, hcase.imp_right (Or.imp ?_ ?_)⟩
  · rintro ⟨l, v, hl, hv, hid⟩
    exact ⟨l, v, hl, hkeep l v hv, hid⟩
  · rintro ⟨l, v, hl, hv, hid⟩
    exact ⟨l, v, hl, hkeep l v hv, hid⟩

theorem Lost.resume {i j k : ℕ} {id : IoId} {c : Config ClientTcp TcpCall} {t : TcpCall}
    (h : Lost i j id c) (hk : c.calls k = some t) : Lost i j id (resumed c k t) := by
  obtain ⟨hi, ⟨u, hj, hu⟩, hcase⟩ := h
  -- a slot keeps the id it is for
  have hkeep : ∀ l v, c.calls l = some v →
      ∃ v', (resumed c k t).calls l = some v' ∧ v'.ioId = v.ioId := by
    intro l v hl
    by_cases hlk : l = k
    · subst hlk
      rw [hk] at hl
      cases hl
      exact ⟨_, resumed_self c l t, step_ioId c.shared t⟩
    · exact ⟨v, (resumed_of_ne hlk).trans hl, rfl⟩
  have hi' : (resumed c k t).calls i = some (returned id) := by
    by_cases hik : i = k
    · subst hik
      rw [hi] at hk
      cases hk
      exact resumed_self c i (returned id)
    · exact (resumed_of_ne hik).trans hi
  have hj' : ∃ v, (resumed c k t).calls j = some v ∧ v.replayed = true := by
    by_cases hjk : j = k
    · subst hjk
      rw [hj] at hk
      cases hk
      cases t with
      | createTimer => exact ⟨started, resumed_self c j createTimer, rfl⟩
      | started => exact ⟨started, resumed_self c j started, rfl⟩
      | _ => cases hu
    · exact ⟨u, (resumed_of_ne hjk).trans hj, hu⟩
  refine ⟨hi', hj', ?_⟩
  obtain hnone | hcopy | hstart := hcase
  · by_cases hid : t.ioId = some id
    · by_cases hki : k = i
      · -- the call that returned does nothing any more
        subst hki
        rw [hi] at hk
        cases hk
        exact Or.inl hnone
      · exact Or.inr (Or.inl ⟨k, _, hki, resumed_self c k t, (step_ioId _ t).trans hid⟩)
    · by_cases hstart : t.ioId = none ∧ t.replayed = false
      · have hkj : k ≠ j := by
          rintro rfl
          rw [hj] at hk
          cases hk
          exact absurd (hu.symm.trans hstart.2) (by decide)
        exact Or.inr (Or.inr ⟨k, _, hkj, resumed_self c k t, (step_ioId _ t).trans hstart.1⟩)
      · left
        apply unmapped_step c.shared hnone hid
        intro hnoid
        by_contra hrep
        exact hstart ⟨hnoid, Bool.not_eq_true _ ▸ hrep⟩
  · obtain ⟨l, v, hl, hv, hid⟩ := hcopy
    obtain ⟨v', hv', hid'⟩ := hkeep l v hv
    exact Or.inr (Or.inl ⟨l, v', hl, hv', hid'.trans hid⟩)
  · obtain ⟨l, v, hl, hv, hid⟩ := hstart
    obtain ⟨v', hv', hid'⟩ := hkeep l v hv
    exact Or.inr (Or.inr ⟨l, v', hl, hv', hid'.trans hid⟩)

theorem Lost.next {i j : ℕ} {id : IoId} {c : Config ClientTcp TcpCall} (h : Lost i j id c)
    (a : Move Op) : Lost i j id (sections.next c a) := by
  obtain heq | ⟨k, op, rfl, hk, heq⟩ | ⟨k, t, rfl, hk, heq⟩ := sections.next_cases c a
  · rw [heq]
    exact h
  · rw [heq]
    exact h.enter hk op
  · rw [heq]
    exact h.resume hk

theorem lost_of_missed {c : Config ClientTcp TcpCall} {a : Move Op} (h : Missed c a) :
    ∃ i j id, Lost i j id (sections.next c a) := by
  obtain ⟨i, id, itf, rfl, hi, ⟨j, u, hj, hu⟩, hnone⟩ := h
  have hnext : sections.next c (.resume i) = resumed c i (waitRegIo id itf) := by
    simp only [Sections.next, hi]
    rfl
  have hne : j ≠ i := by
    rintro rfl
    rw [hi] at hj
    cases hj
    cases hu
  rw [hnext]
  exact ⟨i, j, id, resumed_self c i _, ⟨u, (resumed_of_ne hne).trans hj, hu⟩, Or.inl hnone⟩

/-- When all calls have returned, there is one start and all ids are distinct, the lost
    registration is not in the map. -/
theorem Lost.not_noneLost {i j : ℕ} {id : IoId} {c : Config ClientTcp TcpCall}
    (h : Lost i j id c) (hdone : Completed c) (hone : OneStart c) : ¬ NoneLost c := by
  obtain ⟨hi, ⟨u, hj, hu⟩, hcase⟩ := h
  obtain ⟨⟨s, hs, huniq⟩, hdistinct⟩ := hone
  obtain hnone | ⟨k, t, hki, hk, hid⟩ | ⟨k, t, hkj, hk, hid⟩ := hcase
  · exact fun hkept => hkept i id hi hnone
  · obtain rfl | ⟨id', rfl⟩ := hdone k t hk
    · cases hid
    · cases hid
      exact absurd (hdistinct k i id hk hi) hki
  · obtain rfl | ⟨id', rfl⟩ := hdone k t hk
    · obtain rfl | ⟨id', rfl⟩ := hdone j u hj
      · exact absurd ((huniq k hk).trans (huniq j hj).symm) hkj
      · cases hu
    · cases hid

/-- **No registration is lost, exactly when.** An object that is not suspended, in a state it
    can reach, is started once while any number of distinct ids register. When all calls have
    returned, every one of the ids is in the map exactly if no registration has inserted
    into the wait list after the replay an id that was not in the map. -/
theorem registered_iff (refuses : ℕ → Bool) (statistics : Bool) (acts : List ClientTcp.Act)
    (as : List (Move Op))
    (hsusp : (run ClientTcp.step (.initialized refuses statistics) acts).suspended = false)
    (hdone : Completed (run sections.next
      (.idle (run ClientTcp.step (.initialized refuses statistics) acts)) as))
    (hone : OneStart (run sections.next
      (.idle (run ClientTcp.step (.initialized refuses statistics) acts)) as)) :
    NoneLost (run sections.next
      (.idle (run ClientTcp.step (.initialized refuses statistics) acts)) as) ↔
    Along sections.next (fun c a => ¬ Missed c a)
      (.idle (run ClientTcp.step (.initialized refuses statistics) acts)) as := by
  have hrun := ClientTcp.run_running refuses statistics acts
  obtain ⟨s, hs⟩ : ∃ s, s = run ClientTcp.step (.initialized refuses statistics) acts := ⟨_, rfl⟩
  rw [← hs] at hsusp hdone hone hrun ⊢
  constructor
  · intro hkept
    by_contra hnot
    obtain ⟨pre, a, post, rfl, _, hmissed⟩ := exists_first_of_not_along hnot
    obtain ⟨i, j, id, hlost⟩ := lost_of_missed (not_not.mp hmissed)
    have hlost' : Lost i j id (run sections.next (.idle s) (pre ++ a :: post)) := by
      rw [run_append, run_cons]
      exact run_invariant (I := Lost i j id) (fun _ b h => h.next b) hlost post
    exact hlost'.not_noneLost hdone hone hkept
  · intro halong
    have hsafe : Safe (run sections.next (.idle s) as) :=
      run_invariant_along (I := Safe) (fun _ _ hG h => h.next hG) (.idle hsusp hrun) halong
    intro i id hi
    obtain hmapped | ⟨_, hstarted | ⟨j, hj⟩⟩ := hsafe.kept i id hi
    · exact hmapped
    · -- the start has set the flag
      obtain ⟨j, hj, _⟩ := hone.1
      exact absurd (hstarted.symm.trans (hsafe.opened j started hj rfl)) (by decide)
    · obtain hj' | ⟨id', hj'⟩ := hdone j replay hj
      · cases hj'
      · cases hj'

/-- A start and a registration that have returned, and nothing else. -/
theorem completed_two (id : IoId) {c : Config ClientTcp TcpCall}
    (h₀ : c.calls 0 = some started) (h₁ : c.calls 1 = some (returned id))
    (h₂ : ∀ i, c.calls (i + 2) = none) : Completed c ∧ OneStart c := by
  have hcases : ∀ i t, c.calls i = some t → i = 0 ∧ t = started ∨ i = 1 ∧ t = returned id := by
    intro i t hi
    match i with
    | 0 => exact Or.inl ⟨rfl, (Option.some.inj (h₀.symm.trans hi)).symm⟩
    | 1 => exact Or.inr ⟨rfl, (Option.some.inj (h₁.symm.trans hi)).symm⟩
    | j + 2 =>
      rw [h₂] at hi
      cases hi
  refine ⟨fun i t hi => ?_, ⟨0, h₀, fun i hi => ?_⟩, fun i j k hi hj => ?_⟩
  · exact (hcases i t hi).imp And.right fun ⟨_, ht⟩ => ⟨id, ht⟩
  · obtain ⟨rfl, _⟩ | ⟨_, ht⟩ := hcases i _ hi
    · rfl
    · cases ht
  · obtain ⟨_, ht⟩ | ⟨rfl, _⟩ := hcases i _ hi
    · cases ht
    · obtain ⟨_, ht⟩ | ⟨rfl, _⟩ := hcases j _ hj
      · cases ht
      · rfl

/-- A registration that inserts before the replay. -/
theorem registered_seven :
    NoneLost (run sections.next
      (.idle (run ClientTcp.step (.initialized (fun _ => false) false) []))
      [.enter 0 .start, .enter 1 (.regIo 7 (some 5)), .resume 1, .resume 1, .resume 0, .resume 0,
        .resume 0, .resume 0, .resume 0]) := by
  obtain ⟨hdone, hone⟩ := completed_two 7 (c := run sections.next
      (.idle (run ClientTcp.step (.initialized (fun _ => false) false) []))
      [.enter 0 .start, .enter 1 (.regIo 7 (some 5)), .resume 1, .resume 1, .resume 0, .resume 0,
        .resume 0, .resume 0, .resume 0]) rfl rfl fun _ => rfl
  refine (registered_iff (fun _ => false) false [] _ rfl hdone hone).mpr
    ⟨?_, ?_, ?_, ?_, ?_, ?_, ?_, ?_, ?_, trivial⟩
  · rintro ⟨i, id, itf, ⟨⟩, _⟩
  · rintro ⟨i, id, itf, ⟨⟩, _⟩
  · rintro ⟨i, id, itf, ⟨⟩, hi, _⟩
    cases hi
  · rintro ⟨i, id, itf, ⟨⟩, _, ⟨j, t, hj, ht⟩, _⟩
    match j with
    | 0 =>
      cases hj
      cases ht
    | 1 =>
      cases hj
      cases ht
    | _ + 2 => cases hj
  all_goals
    rintro ⟨i, id, itf, ⟨⟩, hi, _⟩
    cases hi

/-- A registration reads the flag, the start runs to its end, the registration inserts. -/
theorem registration_missed :
    ¬ ∀ (refuses : ℕ → Bool) (statistics : Bool) (acts : List ClientTcp.Act)
      (as : List (Move Op)),
      (run ClientTcp.step (.initialized refuses statistics) acts).suspended = false →
      Completed (run sections.next
        (.idle (run ClientTcp.step (.initialized refuses statistics) acts)) as) →
      OneStart (run sections.next
        (.idle (run ClientTcp.step (.initialized refuses statistics) acts)) as) →
      NoneLost (run sections.next
        (.idle (run ClientTcp.step (.initialized refuses statistics) acts)) as) := by
  intro hall
  obtain ⟨hdone, hone⟩ := completed_two 7 (c := run sections.next
      (.idle (run ClientTcp.step (.initialized (fun _ => false) false) []))
      [.enter 0 .start, .enter 1 (.regIo 7 (some 5)), .resume 1, .resume 0, .resume 0, .resume 0,
        .resume 0, .resume 0, .resume 1]) rfl rfl fun _ => rfl
  exact hall (fun _ => false) false [] _ rfl hdone hone 1 7 rfl (by decide)

end TcpCall

end WfcIo

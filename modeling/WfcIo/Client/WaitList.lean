import WfcIo.Client.ClientTcp

/-!
# The wait list over starts and stops

An id registered before the start is kept in `_wait_list`, and the start registers it in
the map. The entry stays in the list. While the object is running, `unreg_io` goes to
the map only, so the entry is still there when the object is started the next time.

## Main definitions

- `ClientTcp.Current` — the last registration call of an id was `reg_io`
- `ClientTcp.Stale` — the id unregistered while its entry could not be erased
- `ClientTcp.ReplaysCurrent` — a call registers current ids only
- `ClientTcp.Opens` — the call passes the wait list on to the map

## Main results

- `ClientTcp.current_or_stale` — an id in the wait list is current or stale
- `ClientTcp.replays_current_iff` — when a start registers current ids only
-/

namespace WfcIo

open Foundation

namespace ClientTcp

/-- A registration call of the id. -/
def Act.Names (id : IoId) : Act → Prop
  | .regIo k _ => k = id
  | .unregIo k => k = id
  | _ => False

/-- The last registration call of the id was `reg_io`. -/
def Current (id : IoId) (acts : List Act) : Prop :=
  ∃ pre itf post, acts = pre ++ .regIo id itf :: post ∧ ∀ a ∈ post, ¬ a.Names id

/-- The last registration call of the id was an `unreg_io` of the running object, made
    while the id was in the wait list. -/
def Stale (c : ClientTcp) (id : IoId) (acts : List Act) : Prop :=
  ∃ pre post, acts = pre ++ .unregIo id :: post ∧ (∀ a ∈ post, ¬ a.Names id) ∧
    (run step c pre).clientStarted = true ∧ (run step c pre).waitList.find id ≠ none

/-- The call registers only ids in the map whose last registration call was `reg_io`. -/
def ReplaysCurrent (c : ClientTcp) (acts : List Act) (a : Act) : Prop :=
  ∀ id itf, .regIo id itf ∈ (step (run step c acts) a).mapCalls → Current id acts

/-- The call starts the object, which is then neither running nor suspended. -/
def Opens (c : ClientTcp) (a : Act) : Prop :=
  c.suspended = false ∧ c.clientStarted = false ∧
    (a = .restart ∨ a = .start ∧ c.options.addr ≠ "")

/-! ### What one step does to the wait list -/

variable {c : ClientTcp} {id : IoId} {a : Act} {acts : List Act}

/-- The replay of a running object leaves the wait list alone, and calls the map once for
    every entry unless the object is suspended. -/
theorem foldl_regIo (hstarted : c.clientStarted = true) (l : List (IoId × Option Source)) :
    (l.foldl (fun c item => c.regIo item.1 item.2) c).waitList = c.waitList ∧
    (l.foldl (fun c item => c.regIo item.1 item.2) c).mapCalls = c.mapCalls ++
      if c.suspended then [] else l.map (fun item => .regIo item.1 item.2) := by
  induction l generalizing c with
  | nil => exact ⟨rfl, by simp⟩
  | cons p l ih =>
    have hreg : c.regIo p.1 p.2 = if c.suspended then c else c.mapCall (.regIo p.1 p.2) := by
      simp only [regIo]
      rw [if_pos hstarted]
    rw [List.foldl_cons, hreg]
    cases hsusp : c.suspended with
    | true =>
      obtain ⟨hwait, hcalls⟩ := ih hstarted
      rw [hsusp] at hcalls
      exact ⟨hwait, hcalls⟩
    | false =>
      obtain ⟨hwait, hcalls⟩ := ih (c := c.mapCall (.regIo p.1 p.2)) hstarted
      refine ⟨hwait, hcalls.trans ?_⟩
      show (c.mapCalls ++ [_]) ++ (if c.suspended then [] else _) = _
      rw [hsusp]
      simp

theorem createTimer_fields (c : ClientTcp) :
    c.createTimer.waitList = c.waitList ∧ c.createTimer.mapCalls = c.mapCalls := by
  simp only [createTimer]
  split <;> exact ⟨rfl, rfl⟩

theorem reconfigureAndStart_fields (c : ClientTcp) :
    c.reconfigureAndStart_.waitList = c.waitList ∧
    c.reconfigureAndStart_.mapCalls = c.mapCalls ++ .reconfigureAndStart c.mapOptions ::
      if c.clientStarted || c.suspended then []
      else c.waitList.entries.map (fun item => .regIo item.1 item.2) := by
  unfold reconfigureAndStart_
  dsimp only
  obtain ⟨hwait, hcalls⟩ := createTimer_fields
    (if (c.mapCall (.reconfigureAndStart c.mapOptions)).clientStarted then
      c.mapCall (.reconfigureAndStart c.mapOptions)
    else { c.mapCall (.reconfigureAndStart c.mapOptions) with clientStarted := true }.replay)
  rw [hwait, hcalls]
  have hstarted : (c.mapCall (.reconfigureAndStart c.mapOptions)).clientStarted =
      c.clientStarted := rfl
  rw [hstarted]
  cases c.clientStarted with
  | true => exact ⟨rfl, rfl⟩
  | false =>
    obtain ⟨hwait', hcalls'⟩ := foldl_regIo
      (c := { c.mapCall (.reconfigureAndStart c.mapOptions) with clientStarted := true }) rfl
      c.waitList.entries
    refine ⟨hwait', hcalls'.trans ?_⟩
    show (c.mapCalls ++ [_]) ++ (if c.suspended then [] else _) = _
    simp

theorem start_waitList (c : ClientTcp) : c.start.waitList = c.waitList := by
  simp only [start]
  split
  · rfl
  · exact c.reconfigureAndStart_fields.1

/-- Only a registration call of the id changes its entry. -/
theorem find_step_of_not_names (hn : ¬ a.Names id) :
    (step c a).waitList.find id = c.waitList.find id := by
  cases a with
  | configure suspended options trackingMs => rfl
  | start => exact congrArg (OrderedMap.find · id) c.quiet.start_waitList
  | restart => exact congrArg (OrderedMap.find · id) c.quiet.reconfigureAndStart_fields.1
  | stop => rfl
  | regIo k itf =>
    have hk : id ≠ k := fun h => hn h.symm
    show (c.quiet.regIo k itf).waitList.find id = _
    simp only [regIo]
    split
    · rfl
    · split
      · rfl
      · show (c.waitList.assign k itf).find id = _
        rw [OrderedMap.find_assign, if_neg hk]
  | unregIo k =>
    have hk : id ≠ k := fun h => hn h.symm
    show (c.quiet.unregIo k).waitList.find id = _
    simp only [unregIo]
    split
    · rfl
    · show (c.waitList.erase k).find id = _
      rw [OrderedMap.find_erase, if_neg hk]
  | performIo d k handler snd =>
    show (c.quiet.performIo d k handler snd).waitList.find id = _
    simp only [performIo]
    split
    · cases handler <;> rfl
    · rfl
  | event e =>
    show (if e.isEvent then _ else c.quiet).waitList.find id = _
    split <;> rfl

/-- `unreg_io` erases the entry, unless the object is running. -/
theorem find_unregIo : (step c (.unregIo id)).waitList.find id =
    if c.clientStarted then c.waitList.find id else none := by
  show (c.quiet.unregIo id).waitList.find id = _
  simp only [unregIo]
  have hstarted : c.quiet.clientStarted = c.clientStarted := rfl
  rw [hstarted]
  split
  · rfl
  · show (c.waitList.erase id).find id = none
    rw [OrderedMap.find_erase, if_pos rfl]

/-- What a start registers in the map: the wait list, if it opens the object. -/
theorem replayed_iff (hstart : a = .start ∨ a = .restart) {itf : Option Source} :
    .regIo id itf ∈ (step c a).mapCalls ↔ Opens c a ∧ c.waitList.find id = some itf := by
  have hreplay : ClientTcpMap.Act.regIo id itf ∈ c.quiet.reconfigureAndStart_.mapCalls ↔
      (c.suspended = false ∧ c.clientStarted = false) ∧ c.waitList.find id = some itf := by
    rw [c.quiet.reconfigureAndStart_fields.2, OrderedMap.find_eq_some_iff]
    show ClientTcpMap.Act.regIo id itf ∈ [] ++ _ :: (if c.clientStarted || c.suspended then []
      else c.waitList.entries.map _) ↔ _
    cases c.clientStarted <;> cases c.suspended <;> simp
  obtain rfl | rfl := hstart
  · show ClientTcpMap.Act.regIo id itf ∈ (if !c.suspended && c.options.addr == ""
      then c.quiet.emit .addrNotSet else c.quiet.reconfigureAndStart_).mapCalls ↔ _
    unfold Opens
    by_cases hrefuse : (!c.suspended && c.options.addr == "") = true
    · have hnone : ClientTcpMap.Act.regIo id itf ∉ (c.quiet.emit .addrNotSet).mapCalls :=
        List.not_mem_nil
      rw [if_pos hrefuse]
      refine iff_of_false hnone ?_
      simp only [Bool.and_eq_true, beq_iff_eq] at hrefuse
      rintro ⟨⟨_, _, h | ⟨_, h⟩⟩, _⟩
      · cases h
      · exact h hrefuse.2
    · rw [if_neg hrefuse, hreplay]
      simp only [Bool.and_eq_true, beq_iff_eq, Bool.not_eq_true', not_and] at hrefuse
      constructor
      · rintro ⟨⟨hsusp, hstarted⟩, hfind⟩
        exact ⟨⟨hsusp, hstarted, Or.inr ⟨rfl, hrefuse hsusp⟩⟩, hfind⟩
      · rintro ⟨⟨hsusp, hstarted, _⟩, hfind⟩
        exact ⟨⟨hsusp, hstarted⟩, hfind⟩
  · refine hreplay.trans ?_
    unfold Opens
    constructor
    · rintro ⟨⟨hsusp, hstarted⟩, hfind⟩
      exact ⟨⟨hsusp, hstarted, Or.inl rfl⟩, hfind⟩
    · rintro ⟨⟨hsusp, hstarted, _⟩, hfind⟩
      exact ⟨⟨hsusp, hstarted⟩, hfind⟩

/-! ### The wait list of a run -/

theorem Current.append (h : Current id acts) (hn : ¬ a.Names id) : Current id (acts ++ [a]) := by
  obtain ⟨pre, itf, post, rfl, hpost⟩ := h
  refine ⟨pre, itf, post ++ [a], by simp, fun b hb => ?_⟩
  obtain hb | hb := List.mem_append.mp hb
  · exact hpost b hb
  · rw [List.mem_singleton.mp hb]
    exact hn

theorem Stale.append (h : Stale c id acts) (hn : ¬ a.Names id) : Stale c id (acts ++ [a]) := by
  obtain ⟨pre, post, rfl, hpost, hstate⟩ := h
  refine ⟨pre, post ++ [a], by simp, fun b hb => ?_, hstate⟩
  obtain hb | hb := List.mem_append.mp hb
  · exact hpost b hb
  · rw [List.mem_singleton.mp hb]
    exact hn

theorem not_current_of_stale (h : Stale c id acts) : ¬ Current id acts := by
  obtain ⟨pre, post, rfl, hpost, _⟩ := h
  rintro ⟨pre', itf, post', heq, hpost'⟩
  obtain ⟨_, hact, _⟩ := last_unique (N := Act.Names id) heq rfl rfl hpost hpost'
  cases hact

/-- A stale id stays in the wait list. -/
theorem waiting_of_stale (h : Stale c id acts) : (run step c acts).waitList.find id ≠ none := by
  obtain ⟨pre, post, rfl, hpost, hstarted, hfind⟩ := h
  have hkeep : ∀ (c : ClientTcp) (as : List Act), (∀ a ∈ as, ¬ a.Names id) →
      (run step c as).waitList.find id = c.waitList.find id := by
    intro c as has
    induction as generalizing c with
    | nil => rfl
    | cons a as ih =>
      rw [run_cons, ih _ fun b hb => has b (List.mem_cons_of_mem a hb)]
      exact find_step_of_not_names (has a List.mem_cons_self)
  rw [run_append, run_cons, hkeep _ _ hpost, find_unregIo, if_pos hstarted]
  exact hfind

theorem current_or_stale (hempty : ∀ id, c.waitList.find id = none)
    (h : (run step c acts).waitList.find id ≠ none) : Current id acts ∨ Stale c id acts := by
  refine run_history (P := fun acts (c' : ClientTcp) => c'.waitList.find id ≠ none →
    Current id acts ∨ Stale c id acts) (fun h => absurd (hempty id) h) ?_ acts h
  intro acts a ih h
  by_cases hn : a.Names id
  · cases a with
    | regIo k itf =>
      obtain rfl : k = id := hn
      exact Or.inl ⟨acts, itf, [], rfl, fun _ hb => by cases hb⟩
    | unregIo k =>
      obtain rfl : k = id := hn
      rw [find_unregIo] at h
      split at h
      · next hstarted => exact Or.inr ⟨acts, [], rfl, fun _ hb => (by cases hb), hstarted, h⟩
      · exact absurd rfl h
    | _ => exact hn.elim
  · rw [find_step_of_not_names hn] at h
    exact (ih h).imp (fun hc => hc.append hn) fun hs => hs.append hn

/-- **What a start registers.** A start after any run registers ids only whose last
    registration call was `reg_io`, exactly if it does not open the object or no id is
    stale. -/
theorem replays_current_iff (refuses : ℕ → Bool) (statistics : Bool) (acts : List Act) (a : Act)
    (hstart : a = .start ∨ a = .restart) :
    ReplaysCurrent (initialized refuses statistics) acts a ↔
      ¬ Opens (run step (initialized refuses statistics) acts) a ∨
        ∀ id, ¬ Stale (initialized refuses statistics) id acts := by
  constructor
  · intro hcurrent
    by_cases hopens : Opens (run step (initialized refuses statistics) acts) a
    · refine Or.inr fun id hstale => not_current_of_stale hstale ?_
      obtain ⟨itf, hfind⟩ := Option.ne_none_iff_exists'.mp (waiting_of_stale hstale)
      exact hcurrent id itf ((replayed_iff hstart).mpr ⟨hopens, hfind⟩)
    · exact Or.inl hopens
  · intro h id itf hmem
    obtain ⟨hopens, hfind⟩ := (replayed_iff hstart).mp hmem
    have hwaiting :
        (run step (initialized refuses statistics) acts).waitList.find id ≠ none := by
      rw [hfind]
      exact Option.some_ne_none itf
    obtain hc | hs := current_or_stale (fun _ => rfl) hwaiting
    · exact hc
    · obtain h | h := h
      · exact absurd hopens h
      · exact absurd hs (h id)

/-- An id that registers before the first start. -/
theorem replays_current_seven :
    ReplaysCurrent (initialized (fun _ => false) false)
      [.configure false { addr := "server" } 0, .regIo 7 (some 5)] .start :=
  (replays_current_iff _ _ _ .start (Or.inl rfl)).mpr (Or.inr fun id ⟨pre, post, h, _⟩ => by
    have hmem : Act.unregIo id ∈ pre ++ .unregIo id :: post := by simp
    rw [← h] at hmem
    simp at hmem)

/-- An id that unregisters between two starts is registered again by the second. -/
theorem replays_stale :
    ¬ ∀ (refuses : ℕ → Bool) (statistics : Bool) (acts : List Act) (a : Act),
      (∀ opt t, .configure true opt t ∉ acts) → (a = .start ∨ a = .restart) →
      ReplaysCurrent (initialized refuses statistics) acts a := by
  intro hall
  have h := hall (fun _ => false) false [.configure false { addr := "server" } 0,
    .regIo 7 (some 5), .start, .unregIo 7, .stop] .start (by simp) (Or.inl rfl) 7 (some 5)
    (by decide)
  refine not_current_of_stale (c := initialized (fun _ => false) false) ?_ h
  exact ⟨[.configure false { addr := "server" } 0, .regIo 7 (some 5), .start], [.stop], rfl,
    by simp [Act.Names], by decide, by decide⟩

end ClientTcp

end WfcIo

import WfcIo.Client.WaitList
import WfcIo.Foundation.History

/-!
# Which options an adapter runs with

`start` and `restart` pass the options of the object to `reconfigure_and_start` of the map,
which starts all its adapters with them and later every adapter it builds on demand.
`reg_io` and `unreg_io` keep away from the map until then, `perform_io` does not: before
the first start it has an adapter built with the options a map is constructed with.

An adapter has been started with `opt` if that is what `start` has left in `_options`; no
other operation writes the field.

## Main definitions

- `ClientTcp.inForce` — the options last passed to `reconfigure_and_start` of the map
- `ClientTcp.StartsInForce` — a call starts adapters with the options in force only
- `ClientTcp.Configured` — the adapters of a state run with the options in force
- `ClientTcp.Premature` — a `perform_io` reaches the map before it has been configured

## Main results

- `ClientTcp.configured_iff` — only a premature `perform_io` starts other adapters
-/

namespace WfcIo

open Foundation

/-! ### The map -/

namespace ClientTcpMap

/-- The options that a call of the map puts into force. -/
def Act.newOptions : Act → Option ClientTcpConfig
  | .reconfigureAndStart opt => some opt
  | _ => none

variable {m : ClientTcpMap} {x : ℕ}

theorem call_options {f : ClientTcpAdapter → Io → ClientTcpAdapter × Io}
    (hf : ClientTcpAdapter.Tame f) (cli : ℕ) :
    ((m.call cli f).adapters x).options = (m.adapters x).options := by
  simp only [call, Function.update_apply]
  split
  · next hx => rw [hf.options, hx]
  · rfl

theorem event_options {f : ClientTcpAdapter → Io → ClientTcpAdapter × Io}
    (hf : ClientTcpAdapter.Tame f) (cli : ℕ) :
    ((m.event cli f).adapters x).options = (m.adapters x).options := by
  simp only [event]
  split
  · exact call_options hf cli
  · rfl

/-- An adapter started on demand is started with the options of the map. -/
theorem upsert_options {opt : ClientTcpConfig} (id : IoId)
    (h : ((m.upsert_ id).1.adapters x).options = some opt) :
    (m.adapters x).options = some opt ∨ opt = m.opt := by
  cases hfind : m.find id with
  | some cli =>
    simp only [upsert_, hfind] at h
    exact Or.inl h
  | none =>
    simp only [upsert_, hfind, createAndInsert] at h
    obtain ⟨_, hadapters⟩ | ⟨_, hadapters⟩ := m.create_adapters
    · rw [hadapters] at h
      exact Or.inl h
    · rw [hadapters, Function.update_apply] at h
      split at h
      · exact Or.inr (Option.some.inj h).symm
      · exact Or.inl h

/-- Apart from `reconfigure_and_start`, only a call of a running map that serves an id
    starts an adapter, and it does so with the options of the map. -/
theorem exec_options {opt : ClientTcpConfig} {a : Act} (ha : a.newOptions = none)
    (h : ((m.exec a).adapters x).options = some opt) :
    (m.adapters x).options = some opt ∨
      opt = m.opt ∧ m.stopFlag = false ∧ ∃ id, a.Serves id := by
  cases a with
  | reconfigureAndStart opt => cases ha
  | stop =>
    obtain ⟨io, _, heq⟩ := m.stop_spec
    simp only [exec, heq] at h
    split at h
    · exact Or.inl h
    · exact Or.inl h
  | regIo id itf =>
    cases hstop : m.stopFlag with
    | true =>
      simp only [exec, regIo, hstop, if_true] at h
      exact Or.inl h
    | false =>
      simp only [exec, regIo_of_running hstop, call_options (.regIo id itf)] at h
      exact (upsert_options id h).imp_right fun heq => ⟨heq, rfl, id, rfl⟩
  | unregIo id =>
    obtain ⟨_, heq⟩ | ⟨cli, _, _, hu⟩ := m.unregIo_spec id
    · simp only [exec, heq] at h
      exact Or.inl h
    · by_cases hx : x = cli
      · subst hx
        have hkeep : ((m.unregIo id).adapters x).options = (m.adapters x).options := by
          obtain ⟨_, _, hcli⟩ | ⟨_, _, hcli⟩ := hu.recycled
          · rw [hcli]
            exact (ClientTcpAdapter.Tame.unregIo id).options _ m.io
          · rw [hcli]
            exact (ClientTcpAdapter.Tame.unregIo id).options _ m.io
        exact Or.inl (hkeep.symm.trans h)
      · exact Or.inl ((congrArg ClientTcpAdapter.options (hu.adapters x hx)).symm.trans h)
  | performIo d id handler snd =>
    cases hstop : m.stopFlag with
    | true =>
      simp only [exec, performIo_eq, hstop, if_true] at h
      exact Or.inl h
    | false =>
      simp only [exec, performIo_of_running hstop, call_options (.performIo id d handler snd)] at h
      exact (upsert_options id h).imp_right fun heq => ⟨heq, rfl, id, rfl⟩
  | release s => exact Or.inl h
  | input cli d out => exact Or.inl ((event_options (.observe _) cli).symm.trans h)
  | connected cli => exact Or.inl ((event_options (.observe _) cli).symm.trans h)
  | closed cli => exact Or.inl ((event_options (.observe _) cli).symm.trans h)
  | runTask n => exact Or.inl h
  | counterReply cli d snd => exact Or.inl ((event_options (.counterReply d snd) cli).symm.trans h)

/-- The options and the startup flag change in `reconfigure_and_start` only. -/
theorem exec_keeps (m : ClientTcpMap) {a : Act} (ha : a.newOptions = none) :
    (m.exec a).opt = m.opt ∧ (m.exec a).startupFlag = m.startupFlag := by
  obtain ⟨opt, rfl⟩ | rfl | hsteady := m.exec_cases a
  · cases ha
  · obtain ⟨io, _, heq⟩ := m.stop_spec
    simp only [exec, heq, and_self]
  · exact ⟨hsteady.opt, hsteady.startupFlag⟩

/-- The map, given the options it was last configured with, if any. -/
structure Fits (m : ClientTcpMap) (opt : Option ClientTcpConfig) : Prop where
  unset : opt = none → m.startupFlag = true
  unstarted : opt = none → ∀ x, (m.adapters x).options = none
  set : ∀ o, opt = some o → m.opt = o ∧ m.startupFlag = false

/-- A call of a map that has not been configured may serve an id only if the map is
    stopped. -/
theorem Fits.exec {opt : Option ClientTcpConfig} (h : m.Fits opt) {a : Act}
    (ha : a.newOptions = none) (hserve : opt = none → ∀ id, a.Serves id → m.stopFlag = true) :
    (m.exec a).Fits opt ∧ ∀ x o, ((m.exec a).adapters x).options = some o →
      (m.adapters x).options = some o ∨ opt = some o := by
  obtain ⟨hopt, hflag⟩ := m.exec_keeps ha
  have hstarts : ∀ x o, ((m.exec a).adapters x).options = some o →
      (m.adapters x).options = some o ∨ opt = some o := by
    intro x o hx
    obtain hold | ⟨rfl, hstop, id, hid⟩ := exec_options ha hx
    · exact Or.inl hold
    · right
      cases hopt' : opt with
      | none =>
        have hstopped := hserve hopt' id hid
        rw [hstop] at hstopped
        cases hstopped
      | some o => rw [(h.set o hopt').1]
  refine ⟨⟨fun hnone => hflag.trans (h.unset hnone), fun hnone x => ?_, fun o ho => ?_⟩, hstarts⟩
  · cases hx : ((m.exec a).adapters x).options with
    | none => rfl
    | some o =>
      obtain hold | hnew := hstarts x o hx
      · rw [h.unstarted hnone x] at hold
        cases hold
      · rw [hnone] at hnew
        cases hnew
  · rw [hopt, hflag]
    exact h.set o ho

/-- Before the first `reconfigure_and_start` a `perform_io` of an unknown id builds an
    adapter with the options the map was constructed with. -/
theorem performIo_builds {id : IoId} (hstop : m.stopFlag = false) (hfind : m.find id = none)
    (hb : m.builds) (d : DataPtr) (handler : Option Handler) (snd : Sending) :
    ((m.performIo d id handler snd).adapters m.nextId).options = some m.opt := by
  rw [performIo_of_running hstop, call_options (.performIo id d handler snd)]
  simp only [upsert_, hfind, createAndInsert, create_adapters_nextId hb]
  rfl

end ClientTcpMap

namespace ClientTcp

/-- The options the object has last passed to `reconfigure_and_start` of its map. -/
def inForce (c : ClientTcp) (acts : List Act) : Option ClientTcpConfig :=
  latest ClientTcpMap.Act.newOptions (trace step mapCalls c acts)

/-- Every adapter that the call `a` starts after the calls `acts` is started with the
    options that are in force then. -/
def StartsInForce (c : ClientTcp) (acts : List Act) (a : Act) : Prop :=
  ∀ x opt, ((step (run step c acts) a).clientMap.adapters x).options = some opt →
    ((run step c acts).clientMap.adapters x).options = some opt ∨
      inForce c (acts ++ [a]) = some opt

/-- After the calls `acts` no adapter has been started if no options are in force, and
    otherwise everything the map owns runs with them. -/
structure Configured (c : ClientTcp) (acts : List Act) : Prop where
  unstarted : inForce c acts = none →
    ∀ x, ((run step c acts).clientMap.adapters x).options = none
  held : ∀ opt, inForce c acts = some opt → ∀ x ∈ (run step c acts).clientMap.clientList,
    ((run step c acts).clientMap.adapters x).options = some opt

/-- The call passes data on to a map that has never been configured, nor stopped. -/
def Premature (c : ClientTcp) (a : Act) : Prop :=
  (∃ d id handler snd, a = .performIo d id handler snd) ∧ c.suspended = false ∧
    c.clientMap.startupFlag = true ∧ c.clientMap.stopFlag = false

/-! ### One step -/

theorem inForce_concat (c : ClientTcp) (acts : List Act) (a : Act) :
    inForce c (acts ++ [a]) =
      (latest ClientTcpMap.Act.newOptions (step (run step c acts) a).mapCalls).or
        (inForce c acts) := by
  simp only [inForce, trace_concat, latest_append]

/-- A start of the object puts its options into force, and starts everything with them. -/
theorem fits_reconfigureAndStart (c : ClientTcp) :
    c.reconfigureAndStart_.clientMap.Fits (some c.mapOptions) ∧
      ∀ x o, (c.reconfigureAndStart_.clientMap.adapters x).options = some o →
        (c.clientMap.adapters x).options = some o ∨ some c.mapOptions = some o := by
  have hr := c.clientMap.reconfigureAndStart_spec c.mapOptions
  apply reconfigureAndStart_induction (I := fun m => m.Fits (some c.mapOptions) ∧
    ∀ x o, (m.adapters x).options = some o →
      (c.clientMap.adapters x).options = some o ∨ some c.mapOptions = some o)
  · rintro m id itf ⟨hfits, hstarts⟩
    obtain ⟨hfits', hstarts'⟩ :=
      hfits.exec (a := .regIo id itf) rfl (fun hnone => by cases hnone)
    refine ⟨hfits', fun x o hx => ?_⟩
    obtain hold | hnew := hstarts' x o hx
    · exact hstarts x o hold
    · exact Or.inr hnew
  · refine ⟨⟨fun hnone => (by cases hnone), fun hnone => (by cases hnone), fun o ho => ?_⟩,
      fun x o hx => ?_⟩
    · cases ho
      exact ⟨hr.opt, hr.startupFlag⟩
    · rw [hr.adapters] at hx
      split at hx
      · exact Or.inr hx
      · split at hx
        · exact Or.inl hx
        · exact Or.inl hx

theorem fits_with_io {m : ClientTcpMap} {opt : Option ClientTcpConfig} (h : m.Fits opt)
    (io : Io) : ClientTcpMap.Fits { m with io } opt := ⟨h.unset, h.unstarted, h.set⟩

/-- What the state of the object has to do with the options in force. -/
structure Fits (c : ClientTcp) (opt : Option ClientTcpConfig) : Prop where
  map : c.clientMap.Fits opt
  started : c.clientStarted = true → opt ≠ none

/-- What a step from `c` to `c'` is to achieve. -/
def Kept (c c' : ClientTcp) (opt : Option ClientTcpConfig) : Prop :=
  Fits c' ((latest ClientTcpMap.Act.newOptions c'.mapCalls).or opt) ∧
    ∀ x o, (c'.clientMap.adapters x).options = some o →
      (c.clientMap.adapters x).options = some o ∨
        (latest ClientTcpMap.Act.newOptions c'.mapCalls).or opt = some o

section Step

variable {c c' : ClientTcp} {opt : Option ClientTcpConfig}

/-- A step that does not call the map. -/
theorem Fits.same (h : Fits c opt) {io : Io} (hmap : c'.clientMap = { c.clientMap with io })
    (hcalls : c'.mapCalls = []) (hstarted : c'.clientStarted = c.clientStarted) :
    Kept c c' opt := by
  simp only [Kept, hcalls, latest_nil, Option.none_or, hmap]
  refine ⟨⟨?_, fun hs => h.started (hstarted ▸ hs)⟩, fun x o hx => Or.inl hx⟩
  rw [hmap]
  exact fits_with_io h.map io

/-- A step that makes one call of the map. -/
theorem Fits.mapCall (h : Fits c opt) {e : ClientTcpMap.Act} (he : e.newOptions = none)
    (hmap : c'.clientMap = c.clientMap.quiet.exec e)
    (hcalls : ∀ e' ∈ c'.mapCalls, e' = e)
    (hstarted : c'.clientStarted = true → c.clientStarted = true)
    (hserve : opt = none → ∀ id, e.Serves id → c.clientMap.stopFlag = true) :
    Kept c c' opt := by
  have hsilent : latest ClientTcpMap.Act.newOptions c'.mapCalls = none :=
    latest_eq_none_iff.mpr fun e' he' => hcalls e' he' ▸ he
  simp only [Kept, hsilent, Option.none_or]
  have hquiet : c.clientMap.quiet.Fits opt := fits_with_io h.map _
  obtain ⟨hfits, hstarts⟩ := hquiet.exec he hserve
  rw [← hmap] at hfits hstarts
  exact ⟨⟨hfits, fun hs => h.started (hstarted hs)⟩, hstarts⟩

/-- A step that starts the object. -/
theorem kept_reconfigureAndStart (c : ClientTcp) (opt : Option ClientTcpConfig) :
    Kept c c.quiet.reconfigureAndStart_ opt := by
  have hcalls : latest ClientTcpMap.Act.newOptions c.quiet.reconfigureAndStart_.mapCalls =
      some c.mapOptions := by
    rw [c.quiet.reconfigureAndStart_fields.2]
    apply latest_eq_some_iff.mpr
    refine ⟨[], _, _, rfl, rfl, fun e he => ?_⟩
    split at he
    · cases he
    · obtain ⟨item, _, rfl⟩ := List.mem_map.mp he
      rfl
  obtain ⟨hfits, hstarts⟩ := c.quiet.fits_reconfigureAndStart
  simp only [Kept, hcalls, Option.some_or]
  exact ⟨⟨hfits, fun _ hnone => by cases hnone⟩, hstarts⟩

/-- **Step**: a call that is not premature keeps the fit, and starts adapters with the
    options in force only. -/
theorem Fits.step (h : Fits c opt) {a : Act} (hpre : ¬ Premature c a) :
    Kept c (step c a) opt := by
  cases a with
  | configure suspended options trackingMs => exact h.same rfl rfl rfl
  | start =>
    simp only [ClientTcp.step, exec, start]
    split
    · exact h.same rfl rfl rfl
    · exact kept_reconfigureAndStart c opt
  | restart => exact kept_reconfigureAndStart c opt
  | stop =>
    refine h.mapCall (e := .stop) rfl rfl (fun e' => List.mem_singleton.mp) (fun hs => ?_)
      fun _ id hid => hid.elim
    cases hs
  | regIo id itf =>
    simp only [ClientTcp.step, exec, regIo]
    split
    · exact h.same rfl rfl rfl
    · split
      · next hstarted =>
        exact h.mapCall (e := .regIo id itf) rfl rfl (fun e' => List.mem_singleton.mp)
          (fun hs => hs) fun hnone => absurd hnone (h.started hstarted)
      · exact h.same rfl rfl rfl
  | unregIo id =>
    simp only [ClientTcp.step, exec, unregIo]
    split
    · exact h.mapCall (e := .unregIo id) rfl rfl (fun e' => List.mem_singleton.mp)
        (fun hs => hs) fun _ k hk => hk.elim
    · exact h.same rfl rfl rfl
  | performIo d id handler snd =>
    simp only [ClientTcp.step, exec, performIo]
    split
    · cases handler with
      | some f => exact h.same rfl rfl rfl
      | none => exact h.same rfl rfl rfl
    · next hsusp =>
      refine h.mapCall (e := .performIo d id handler snd) rfl rfl
        (fun e' => List.mem_singleton.mp) (fun hs => hs) ?_
      intro hnone _ _
      by_contra hstop
      exact hpre ⟨⟨d, id, handler, snd, rfl⟩, Bool.not_eq_true _ ▸ hsusp, h.map.unset hnone,
        Bool.not_eq_true _ ▸ hstop⟩
  | event e =>
    simp only [ClientTcp.step, exec]
    split
    · next hevent =>
      have hnew : e.newOptions = none := by
        cases e with
        | reconfigureAndStart opt => cases hevent
        | _ => rfl
      refine h.mapCall hnew rfl (fun _ he' => by cases he') (fun hs => hs) ?_
      intro _ id hid
      cases e with
      | regIo k itf => cases hevent
      | performIo d k handler snd => cases hevent
      | _ => exact hid.elim
    · exact h.same rfl rfl rfl

end Step

/-! ### Whole runs -/

/-- **Run**: along calls none of which is premature the object fits its options. -/
theorem fits_run (refuses : ℕ → Bool) (statistics : Bool) {acts : List Act}
    (halong : Along step (fun c a => ¬ Premature c a) (initialized refuses statistics) acts) :
    Fits (run step (initialized refuses statistics) acts)
      (inForce (initialized refuses statistics) acts) := by
  refine run_history (P := fun acts c =>
    Along step (fun c a => ¬ Premature c a) (initialized refuses statistics) acts →
      Fits c (inForce (initialized refuses statistics) acts)) ?_ ?_ acts halong
  · exact fun _ => ⟨⟨fun _ => rfl, fun _ _ => rfl, fun o ho => by cases ho⟩, fun hs => by cases hs⟩
  · intro hist a ih h
    obtain ⟨hhist, ha⟩ := (along_concat _ _ _).mp h
    rw [inForce_concat]
    exact ((ih hhist).step ha).1

/-- A premature call starts an adapter while no options are in force. -/
theorem not_startsInForce_of_premature {c₀ c : ClientTcp} {acts : List Act} {a : Act}
    (hc : run step c₀ acts = c) (hinv : c.clientMap.Inv) (hfits : Fits c (inForce c₀ acts))
    (hpre : Premature c a) : ¬ StartsInForce c₀ acts a := by
  obtain ⟨⟨d, id, handler, snd, rfl⟩, hsusp, hflag, hstop⟩ := hpre
  intro hstarts
  have hnone : inForce c₀ acts = none := by
    cases h : inForce c₀ acts with
    | none => rfl
    | some o =>
      have hdown := (hfits.map.set o h).2
      rw [hflag] at hdown
      cases hdown
  -- nothing has been started, so the map owns nothing
  have hempty : ∀ x, ¬ c.clientMap.ledger.Held x := by
    intro x hx
    have hopt := hinv.configured x hx
    rw [hfits.map.unstarted hnone x] at hopt
    cases hopt
  have hfind : c.clientMap.quiet.find id = none := by
    by_contra h
    obtain ⟨cli, hcli⟩ := Option.ne_none_iff_exists'.mp h
    exact hempty cli (Or.inl ⟨id, hcli⟩)
  have hbuilds : c.clientMap.quiet.builds := by
    have hpool : ∀ x, x ∉ c.clientMap.clientList := fun x hx =>
      hempty x (ClientTcpMap.mem_clientList_iff.mp hx)
    refine ⟨List.eq_nil_iff_forall_not_mem.mpr fun x hx => hpool x ?_,
      List.eq_nil_iff_forall_not_mem.mpr fun x hx => hpool x ?_⟩
    · exact List.mem_append_right _ hx
    · exact List.mem_append_left _ (List.mem_append_right _ hx)
  have hstep : step c (.performIo d id handler snd) =
      c.quiet.mapCall (.performIo d id handler snd) := by
    have hquiet : c.quiet.suspended = false := hsusp
    simp only [step, exec, performIo, hquiet, Bool.false_eq_true, if_false]
  have hbuilt := ClientTcpMap.performIo_builds (m := c.clientMap.quiet) hstop hfind hbuilds d
    handler snd
  have hcase := hstarts c.clientMap.nextId c.clientMap.opt
  rw [inForce_concat, hc, hstep, hnone] at hcase
  obtain hold | hnew := hcase hbuilt
  · rw [hfits.map.unstarted hnone] at hold
    cases hold
  · cases hnew

/-- **Adapters run with the options in force.** In a run of the object, every call starts
    adapters with the options last passed to `reconfigure_and_start` of the map only, none
    is started before the first of these, and all that the map owns run with them, exactly
    if no `perform_io` reaches the map before it has been configured. -/
theorem configured_iff (refuses : ℕ → Bool) (statistics : Bool) (acts : List Act) :
    (∀ pre a post, acts = pre ++ a :: post →
      StartsInForce (initialized refuses statistics) pre a ∧
        Configured (initialized refuses statistics) (pre ++ [a])) ↔
    Along step (fun c a => ¬ Premature c a) (initialized refuses statistics) acts := by
  rw [along_iff_atEach]
  apply atEach_congr
  intro pre a _ hpre
  have hfits := fits_run refuses statistics (along_iff_atEach.mpr hpre)
  have hinv := run_inv refuses statistics pre
  constructor
  · rintro ⟨hstarts, _⟩ hpremature
    exact not_startsInForce_of_premature rfl hinv hfits hpremature hstarts
  · intro ha
    obtain ⟨hfits, hstarts⟩ := hfits.step ha
    have hinv := step_inv hinv a
    refine ⟨fun x opt hx => ?_, ⟨fun hnone x => ?_, fun opt hopt x hx => ?_⟩⟩
    · rw [inForce_concat]
      exact hstarts x opt hx
    · rw [inForce_concat] at hnone
      rw [run_append]
      exact hfits.map.unstarted hnone x
    · rw [inForce_concat] at hopt
      rw [run_append] at hx ⊢
      rw [← (hfits.map.set opt hopt).1]
      exact hinv.configured x (ClientTcpMap.mem_clientList_iff.mp hx)

/-- A `perform_io` of an object that has not been started. -/
theorem not_configured :
    ¬ ∀ (refuses : ℕ → Bool) (statistics : Bool) (acts : List Act),
      (∀ opt t, .configure true opt t ∉ acts) → ∀ pre a post, acts = pre ++ a :: post →
      StartsInForce (initialized refuses statistics) pre a ∧
        Configured (initialized refuses statistics) (pre ++ [a]) := by
  intro hall
  have hstarts := (hall (fun _ => false) false [.performIo none 7 none .rejected] (by simp) [] _ []
    rfl).1
  obtain hold | hnew := hstarts 1 {} (by decide)
  · exact absurd hold (by decide)
  · exact absurd hnew (by decide)

end ClientTcp

end WfcIo

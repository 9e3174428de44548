import Mathlib
import WfcIo.Foundation.History
import WfcIo.Tank.Check
import WfcIo.Tank.Counter

/-!
# The variables of a request

The text of a request may have variables. `make_request_` lists what they are replaced by:
`$TANK{ID}` by the id of the call, and `$TANK{COUNT…}` by the value of the counter of that name.
The counters are made at the first request, in the order of the text, and they are advanced at
the beginning of each later one. An occurrence with options makes the counter anew.

Here the counters are behind pointers, as in the class, and the messages of `COMMON_LOG_FATAL`
are kept. What a request does with the expected response is in `Tank.makeRequest_`, and when
`next` overflows is in `TankCounter.nextLong_eq_some_iff`.

## Main definitions

- `TankIo`, `TankIo.makeRequest_` — the fields that variables concern, and a request
- `TankIo.Points` — the pointers of a `TankIo` and the counters of a `Tank`
- `TankIo.configured` — the counter that the occurrences of a name make
- `TankIo.RightlyCounted` — a request has replaced each counter by the value of its turn
- `TankIo.InOrder` — the occurrence with options is the first, or makes no difference
- `TankIo.Stage` — the tank after so many requests

## Main results

- `TankIo.makeRequest_points` — a request with pointers is `Tank.makeRequest_`
- `TankIo.Stage.first`, `TankIo.Stage.later` — what a request leaves of the counters, and when its
  values are right
- `TankIo.firstAgrees_iff` — when the values of the first request are right
- `TankIo.rightlyCounted_iff` — when all requests are rightly counted
-/

namespace WfcIo

open Foundation

/-- What a variable is replaced by: the prefix, the name and the value. -/
abbrev Replacement := String × String × String

/-- The counter of an occurrence with options. -/
def TankEnv.counter (env : TankEnv) (cv : Var) : TankCounter :=
  .start (env.getOpt cv "from" 1) (env.getOpt cv "to" 100) (env.getOpt cv "step" 1)

/-- `$TANK{COUNT…}`. -/
def Var.counts (cv : Var) : Bool := cv.varPrefix = "TANK" ∧ cv.name.startsWith "COUNT"

/-- The fields of `tank_io` that variables concern. `callId` is the static `_call_id`, `rplsList`
    is what the last request has replaced, and `fatals` are the messages of `COMMON_LOG_FATAL`. -/
structure TankIo where
  callId : ℤ := 0
  initialMake : Bool := false
  counters : OrderedMap String (Option TankCounter) := .empty
  rplsList : List Replacement := []
  fatals : List String := []

namespace TankIo

/-! ### Requests -/

/-- `configure`. -/
def configure (t : TankIo) : TankIo := { t with initialMake := true }

/-- The text with the variables: the request, or the call that it is put into. -/
def text (env : TankEnv) (opt : TankOptions) (req : Data) (callId : ℤ) : Data :=
  if opt.jsonrpc then env.serialize (opt.jsonrpcMethod.getD "") req callId else req

/-- The loop over the counters. -/
def advance (t : TankIo) : TankIo :=
  { t with
    counters := (t.counters.mapAccum (fun u p => (u, p.map TankCounter.next)) ()).2
    fatals := t.fatals ++ t.counters.entries.filterMap fun cv =>
      if cv.2.isNone then some ("TANK_IO COUNT cv.first=" ++ cv.1) else none }

/-- The counter of the variable at the first request. -/
def initCounter (env : TankEnv) (cv : Var) (t : TankIo) : TankIo :=
  if cv.options ≠ [] then
    { t with counters := t.counters.assign cv.name (some (env.counter cv)) }
  else { t with counters := t.counters.insert cv.name (some {}) }

/-- One turn of the loop over the variables. -/
def replaceVar (env : TankEnv) (t : TankIo) (cv : Var) : TankIo :=
  if cv.varPrefix = "TANK" then
    if cv.name = "ID" then { t with rplsList := t.rplsList ++ [("TANK", "ID", toString t.callId)] }
    else if cv.name.startsWith "COUNT" then
      let t' := if t.initialMake then initCounter env cv t else t
      match t'.counters.find cv.name with
      | some (some c) =>
        { t' with rplsList := t'.rplsList ++ [("TANK", cv.name, toString c.current)] }
      | _ => { t' with fatals := t'.fatals ++ ["TANK_IO COUNT name=" ++ cv.name] }
    else t
  else t

/-- The id of the request, before anything is replaced. -/
def begin_ (opt : TankOptions) (t : TankIo) : TankIo :=
  { t with
    callId := if opt.jsonrpc then Tank.increment t.callId else t.callId
    rplsList := [] }

/-- The part of `make_request_` about variables. -/
def substitute (env : TankEnv) (req : Data) (t : TankIo) : Data × TankIo :=
  let t' := if t.initialMake then t else t.advance
  let t'' := (env.searchVars req).foldl (replaceVar env) t'
  (env.replaceVars t''.rplsList req, t'')

/-- `make_request_`, with the request that is sent. -/
def makeRequest_ (env : TankEnv) (opt : TankOptions) (req : Data) (t : TankIo) : Data × TankIo :=
  let t' := t.begin_ opt
  let req' := text env opt req t'.callId
  let r := if opt.enableVars then t'.substitute env req' else (req', t')
  (r.1, { r.2 with initialMake := false })

/-- What happens: a request from the template, or the other tanks take ids. The check of a
    response concerns none of the fields. -/
inductive Act
  | makeRequest_
  | others (callId : ℤ)
  deriving DecidableEq

def step (env : TankEnv) (opt : TankOptions) (req : Data) (t : TankIo) : Act → TankIo
  | .makeRequest_ => (t.makeRequest_ env opt req).2
  | .others callId => { t with callId }

/-- The number of requests. -/
def requests (as : List Act) : ℕ := as.count .makeRequest_

/-! ### What is promised -/

/-- The counter that an occurrence with options makes for the name. -/
def carried (env : TankEnv) (name : String) (cv : Var) : Option TankCounter :=
  if cv.counts ∧ cv.name = name ∧ cv.options ≠ [] then some (env.counter cv) else none

/-- The counter of a name: that of the occurrence with options, if there is one. -/
def configured (env : TankEnv) (vars : List Var) (name : String) : TankCounter :=
  (latest (carried env name) vars).getD {}

/-- The counter stands in the text. -/
def Mentioned (vars : List Var) (name : String) : Prop := ∃ cv ∈ vars, cv.counts ∧ cv.name = name

/-- At most one occurrence of each name has options. -/
def SingleOptions (vars : List Var) : Prop :=
  vars.Pairwise fun cv cv' =>
    cv.counts → cv'.counts → cv.name = cv'.name → cv.options = [] ∨ cv'.options = []

/-- The counters are replaced by these values. -/
def Valued (value : String → ℤ) (rplsList : List Replacement) : Prop :=
  ∀ r ∈ rplsList, r.1 = "TANK" → r.2.1.startsWith "COUNT" → r.2.2 = toString (value r.2.1)

/-- The request after `k` others has replaced every counter by its start, advanced `k` times, and
    there has been no fatal message. -/
def RightlyCounted (env : TankEnv) (vars : List Var) (k : ℕ) (t : TankIo) : Prop :=
  Valued (fun name => (TankCounter.next^[k] (configured env vars name)).current) t.rplsList ∧
    t.fatals = []

/-- Before the occurrence with options there is none of its name, or its counter starts at 0 like
    one without options. -/
def InOrder (env : TankEnv) (vars : List Var) : Prop :=
  AtEach (fun pre cv => cv.counts → cv.options ≠ [] → Mentioned pre cv.name →
    env.getOpt cv "from" 1 = 0) vars

instance (vars : List Var) (name : String) : Decidable (Mentioned vars name) :=
  inferInstanceAs (Decidable (∃ cv ∈ vars, cv.counts ∧ cv.name = name))

/-! ### The pointers -/

/-- The pointers lead to the counters. -/
structure Points (t : Tank) (p : TankIo) : Prop where
  callId : p.callId = t.callId
  initialMake : p.initialMake = t.initialMake
  counters : ∀ name, p.counters.find name = (t.counters.find name).map some

variable (env : TankEnv) {opt : TankOptions} {req res : Data} {t : Tank} {p : TankIo}

theorem Points.assign (h : Points t p) (name : String) (c : TankCounter) :
    Points { t with counters := t.counters.assign name c }
      { p with counters := p.counters.assign name (some c) } := by
  refine ⟨h.callId, h.initialMake, fun name' => ?_⟩
  rw [OrderedMap.find_assign, OrderedMap.find_assign, h.counters]
  split
  · rfl
  · rfl

theorem Points.insert (h : Points t p) (name : String) (c : TankCounter) :
    Points { t with counters := t.counters.insert name c }
      { p with counters := p.counters.insert name (some c) } := by
  cases hfind : t.counters.find name with
  | none =>
    rw [OrderedMap.insert_of_find_eq_none c hfind,
      OrderedMap.insert_of_find_eq_none (some c) (by rw [h.counters, hfind, Option.map_none])]
    exact h.assign name c
  | some c' =>
    rw [OrderedMap.insert_of_find_eq_some c hfind, OrderedMap.insert_of_find_eq_some (some c)
      (show p.counters.find name = some (some c') by rw [h.counters, hfind, Option.map_some])]
    exact h

theorem Points.initCounter (h : Points t p) (cv : Var) :
    Points (Tank.initCounter env cv t) (initCounter env cv p) := by
  simp only [Tank.initCounter, TankIo.initCounter]
  split
  · exact h.assign cv.name (env.counter cv)
  · exact h.insert cv.name {}

/-- Only the counters are touched. -/
theorem initCounter_spec (cv : Var) (p : TankIo) :
    ∃ counters, initCounter env cv p = { p with counters } := by
  simp only [initCounter]
  split
  · exact ⟨_, rfl⟩
  · exact ⟨_, rfl⟩

theorem Points.replaceVar (h : Points t p) (cv : Var) :
    Points (Tank.replaceVar env (t, p.rplsList) cv).1 (TankIo.replaceVar env p cv) ∧
      (TankIo.replaceVar env p cv).rplsList = (Tank.replaceVar env (t, p.rplsList) cv).2 := by
  simp only [Tank.replaceVar, TankIo.replaceVar]
  split
  · split
    · exact ⟨⟨h.callId, h.initialMake, h.counters⟩, by rw [h.callId]⟩
    · split
      · have hinit : Points (if t.initialMake then Tank.initCounter env cv t else t)
            (if p.initialMake then TankIo.initCounter env cv p else p) := by
          rw [h.initialMake]
          split
          · exact h.initCounter env cv
          · exact h
        have hlist : (if p.initialMake then TankIo.initCounter env cv p else p).rplsList =
            p.rplsList := by
          obtain ⟨counters, hspec⟩ := initCounter_spec env cv p
          rw [hspec]
          split
          · rfl
          · rfl
        rw [hinit.counters]
        cases (if t.initialMake then Tank.initCounter env cv t else t).counters.find cv.name with
        | none => exact ⟨⟨hinit.callId, hinit.initialMake, hinit.counters⟩, hlist⟩
        | some c =>
          exact ⟨⟨hinit.callId, hinit.initialMake, hinit.counters⟩,
            congrArg (· ++ [("TANK", cv.name, toString c.current)]) hlist⟩
      · exact ⟨h, rfl⟩
  · exact ⟨h, rfl⟩

theorem Points.foldl (h : Points t p) (vars : List Var) :
    Points (vars.foldl (Tank.replaceVar env) (t, p.rplsList)).1
        (vars.foldl (TankIo.replaceVar env) p) ∧
      (vars.foldl (TankIo.replaceVar env) p).rplsList =
        (vars.foldl (Tank.replaceVar env) (t, p.rplsList)).2 := by
  induction vars generalizing t p with
  | nil => exact ⟨h, rfl⟩
  | cons cv vars ih =>
    obtain ⟨hpoints, hlist⟩ := h.replaceVar env cv
    have hrest := ih hpoints
    rw [hlist] at hrest
    exact hrest

theorem Points.advance (h : Points t p) :
    Points { t with counters := (t.counters.mapAccum (fun u c => (u, c.next)) ()).2 }
      p.advance := by
  refine ⟨h.callId, h.initialMake, fun name => ?_⟩
  rw [TankIo.advance, OrderedMap.find_mapAccum_image, OrderedMap.find_mapAccum_image, h.counters,
    Option.map_map, Option.map_map]
  rfl

theorem Points.substitute (h : Points t p) (req : Data) (hnil : p.rplsList = []) :
    (p.substitute env req).1 = (t.substitute env req).1 ∧
      Points (t.substitute env req).2 (p.substitute env req).2 := by
  have hlist : (if p.initialMake then p else p.advance).rplsList = [] := by
    split
    · exact hnil
    · exact hnil
  have hinit : Points
      (if t.initialMake then t
      else { t with counters := (t.counters.mapAccum (fun u c => (u, c.next)) ()).2 })
      (if p.initialMake then p else p.advance) := by
    rw [h.initialMake]
    split
    · exact h
    · exact h.advance
  obtain ⟨hfold, hrpls⟩ := hinit.foldl env (env.searchVars req)
  rw [hlist] at hfold hrpls
  exact ⟨congrArg (env.replaceVars · req) hrpls, hfold⟩

/-- **A request** with pointers sends what `Tank.makeRequest_` sends, and the pointers lead to
    its counters again. -/
theorem makeRequest_points (h : Points t p) :
    (p.makeRequest_ env opt req).1 = (t.makeRequest_ env opt req res).1 ∧
      Points (t.makeRequest_ env opt req res).2 (p.makeRequest_ env opt req).2 := by
  have hexpect : (t.expect env opt req res).1 = text env opt req (p.begin_ opt).callId ∧
      Points (t.expect env opt req res).2 (p.begin_ opt) := by
    simp only [Tank.expect, text, begin_, h.callId]
    split
    · exact ⟨rfl, rfl, h.initialMake, h.counters⟩
    · exact ⟨rfl, rfl, h.initialMake, h.counters⟩
  obtain ⟨htext, hpoints⟩ := hexpect
  simp only [Tank.makeRequest_, makeRequest_, ← htext]
  split
  · obtain ⟨hsent, hsubstitute⟩ := hpoints.substitute env (t.expect env opt req res).1 rfl
    exact ⟨hsent, hsubstitute.callId, rfl, hsubstitute.counters⟩
  · exact ⟨rfl, hpoints.callId, rfl, hpoints.counters⟩

/-! ### The counters of a text -/

variable {env} {vars : List Var} {name : String} {cv : Var}

theorem mentioned_concat :
    Mentioned (vars ++ [cv]) name ↔ Mentioned vars name ∨ cv.counts ∧ cv.name = name := by
  simp only [Mentioned, List.mem_append, List.mem_singleton, or_and_right, exists_or,
    exists_eq_left]

theorem configured_concat :
    configured env (vars ++ [cv]) name =
      if cv.counts ∧ cv.name = name ∧ cv.options ≠ [] then env.counter cv
      else configured env vars name := by
  rw [configured, latest_concat, carried]
  split
  · rw [Option.some_or, Option.getD_some]
  · rw [Option.none_or, configured]

theorem carried_eq_none (h : ¬ (cv.counts ∧ cv.name = name)) : carried env name cv = none :=
  if_neg fun ⟨hcounts, hname, _⟩ => h ⟨hcounts, hname⟩

theorem configured_of_not_mentioned (h : ¬ Mentioned vars name) :
    configured env vars name = {} := by
  have hnone : latest (carried env name) vars = none :=
    latest_eq_none_iff.mpr fun cv hcv => carried_eq_none fun hcv' => h ⟨cv, hcv, hcv'⟩
  rw [configured, hnone, Option.getD_none]

theorem configured_of_single (env : TankEnv) {pre post : List Var} (hsingle : SingleOptions vars)
    (hvars : vars = pre ++ cv :: post) (hcounts : cv.counts) (hoptions : cv.options ≠ []) :
    configured env vars cv.name = env.counter cv ∧
      ∀ cv' ∈ pre, carried env cv.name cv' = none := by
  rw [SingleOptions, hvars, List.pairwise_append, List.pairwise_cons] at hsingle
  obtain ⟨_, ⟨hpost, _⟩, hpre⟩ := hsingle
  constructor
  · have hcarried : carried env cv.name cv = some (env.counter cv) :=
      if_pos ⟨hcounts, rfl, hoptions⟩
    have hlatest : latest (carried env cv.name) vars = some (env.counter cv) := by
      refine latest_eq_some_iff.mpr ⟨pre, cv, post, hvars, hcarried, fun cv' hcv' => if_neg ?_⟩
      rintro ⟨hcounts', hname, hoptions'⟩
      obtain hnil | hnil := hpost cv' hcv' hcounts hcounts' hname.symm
      · exact hoptions hnil
      · exact hoptions' hnil
    rw [configured, hlatest, Option.getD_some]
  · refine fun cv' hcv' => if_neg ?_
    rintro ⟨hcounts', hname, hoptions'⟩
    obtain hnil | hnil := hpre cv' hcv' cv List.mem_cons_self hcounts' hcounts hname
    · exact hoptions' hnil
    · exact hoptions hnil

/-- The counters of the text are these. -/
def Holds (counter : String → TankCounter) (vars : List Var) (t : TankIo) : Prop :=
  ∀ name, t.counters.find name = if Mentioned vars name then some (some (counter name)) else none

/-! ### One turn of the loop -/

theorem valued_concat {value : String → ℤ} {l : List Replacement} {r : Replacement} :
    Valued value (l ++ [r]) ↔ Valued value l ∧
      (r.1 = "TANK" → r.2.1.startsWith "COUNT" → r.2.2 = toString (value r.2.1)) := by
  simp only [Valued, List.mem_append, List.mem_singleton, or_imp, forall_and, forall_eq]

/-- What is not a counter is left alone, or replaced by the id. -/
theorem replaceVar_of_not_counts (env : TankEnv) (t : TankIo) (h : ¬ cv.counts) :
    ∃ l, replaceVar env t cv = { t with rplsList := l } ∧
      ∀ value, Valued value l ↔ Valued value t.rplsList := by
  simp only [replaceVar]
  split
  · next htank =>
    split
    · refine ⟨_, rfl, fun value => ?_⟩
      rw [valued_concat]
      refine and_iff_left fun _ hid => ?_
      simp at hid
    · split
      · next hcount => exact absurd (decide_eq_true ⟨htank, hcount⟩) h
      · exact ⟨t.rplsList, rfl, fun _ => Iff.rfl⟩
  · exact ⟨t.rplsList, rfl, fun _ => Iff.rfl⟩

/-- A counter that is there is replaced by its value. -/
theorem replaceVar_of_counts {t t' : TankIo} {c : TankCounter} (h : cv.counts)
    (hinit : (if t.initialMake then initCounter env cv t else t) = t')
    (hfind : t'.counters.find cv.name = some (some c)) :
    replaceVar env t cv =
      { t' with rplsList := t.rplsList ++ [("TANK", cv.name, toString c.current)] } := by
  obtain ⟨htank, hcount⟩ := of_decide_eq_true h
  have hname : cv.name ≠ "ID" := by
    intro hid
    rw [hid] at hcount
    simp at hcount
  have hlist : t'.rplsList = t.rplsList := by
    rw [← hinit]
    obtain ⟨counters, hspec⟩ := initCounter_spec env cv t
    rw [hspec]
    split
    · rfl
    · rfl
  simp only [replaceVar, if_pos htank, if_neg hname, if_pos hcount, hinit, hfind, hlist]

/-! ### The first request -/

theorem initCounter_holds {t : TankIo} (h : Holds (configured env vars) vars t)
    (hcounts : cv.counts) :
    Holds (configured env (vars ++ [cv])) (vars ++ [cv]) (initCounter env cv t) := by
  intro name
  simp only [initCounter, configured_concat, mentioned_concat, hcounts, true_and]
  split
  · next hoptions =>
    rw [OrderedMap.find_assign, h]
    by_cases hname : name = cv.name
    · rw [if_pos hname, if_pos (Or.inr hname.symm), if_pos ⟨hname.symm, hoptions⟩]
    · have hname' : cv.name ≠ name := fun heq => hname heq.symm
      simp only [if_neg hname, hname', false_and, or_false, if_false]
  · next hoptions =>
    simp only [hoptions, and_false, if_false]
    by_cases hmentioned : Mentioned vars cv.name
    · have hfind := h cv.name
      rw [if_pos hmentioned] at hfind
      rw [OrderedMap.insert_of_find_eq_some _ hfind, h]
      have hiff : Mentioned vars name ∨ cv.name = name ↔ Mentioned vars name :=
        or_iff_left_of_imp fun hname => hname ▸ hmentioned
      simp only [hiff]
    · have hfind := h cv.name
      rw [if_neg hmentioned] at hfind
      rw [OrderedMap.insert_of_find_eq_none _ hfind, OrderedMap.find_assign, h]
      by_cases hname : name = cv.name
      · rw [if_pos hname, if_pos (Or.inr hname.symm), hname, configured_of_not_mentioned hmentioned]
      · have hname' : cv.name ≠ name := fun heq => hname heq.symm
        simp only [if_neg hname, hname', or_false]

/-- What the loop of the first request has made of the occurrences so far: each has been replaced
    by the value of the counter that it and those before it make. -/
structure Made (env : TankEnv) (vars : List Var) (t : TankIo) : Prop where
  initialMake : t.initialMake = true
  fatals : t.fatals = []
  holds : Holds (configured env vars) vars t
  valued : ∀ value, Valued value t.rplsList ↔
    AtEach (fun pre cv => cv.counts → (configured env (pre ++ [cv]) cv.name).current =
      value cv.name) vars

theorem Made.replaceVar {t : TankIo} (h : Made env vars t) (cv : Var) :
    Made env (vars ++ [cv]) (TankIo.replaceVar env t cv) := by
  by_cases hcounts : cv.counts
  · have hholds := initCounter_holds h.holds hcounts
    have hfind := hholds cv.name
    rw [if_pos (mentioned_concat.mpr (Or.inr ⟨hcounts, rfl⟩))] at hfind
    obtain ⟨counters, hspec⟩ := initCounter_spec env cv t
    rw [replaceVar_of_counts hcounts (if_pos h.initialMake) hfind]
    rw [hspec] at hholds ⊢
    refine ⟨h.initialMake, h.fatals, hholds, fun value => ?_⟩
    rw [valued_concat, atEach_concat_iff, h.valued]
    have hcount : cv.name.startsWith "COUNT" := (of_decide_eq_true hcounts).2
    refine and_congr_right fun _ => ⟨fun hvalue _ => ?_, fun hvalue _ _ => ?_⟩
    · exact Int.repr_injective (hvalue rfl hcount)
    · rw [hvalue hcounts]
  · obtain ⟨l, hturn, hl⟩ := replaceVar_of_not_counts env t hcounts
    rw [hturn]
    refine ⟨h.initialMake, h.fatals, fun name => ?_, fun value => ?_⟩
    · have hnot : ¬ (cv.counts ∧ cv.name = name) := fun hcv => hcounts hcv.1
      have hnot' : ¬ (cv.counts ∧ cv.name = name ∧ cv.options ≠ []) := fun hcv => hcounts hcv.1
      simp only [h.holds name, mentioned_concat, configured_concat, if_neg hnot', hnot, or_false]
    · rw [hl, h.valued, atEach_concat_iff]
      exact (and_iff_left fun hcv => absurd hcv hcounts).symm

theorem made_foldl {t : TankIo} (h : Made env [] t) (vars : List Var) :
    Made env vars (vars.foldl (TankIo.replaceVar env) t) := by
  induction vars using List.reverseRecOn with
  | nil => exact h
  | append_singleton vars cv ih =>
    rw [List.foldl_concat]
    exact ih.replaceVar cv

/-! ### The later requests -/

/-- Later, the counters are only read. -/
theorem foldl_of_holds (env : TankEnv) {counter : String → TankCounter} {t : TankIo}
    (h : Holds counter vars t) (hinitial : t.initialMake = false) (l : List Var) (hl : l ⊆ vars) :
    ∃ l', l.foldl (replaceVar env) t = { t with rplsList := l' } ∧
      (Valued (fun name => (counter name).current) t.rplsList →
        Valued (fun name => (counter name).current) l') := by
  induction l using List.reverseRecOn with
  | nil => exact ⟨t.rplsList, rfl, id⟩
  | append_singleton l cv ih =>
    obtain ⟨hl, hcv⟩ := List.append_subset.mp hl
    obtain ⟨l', hfold, hvalued⟩ := ih hl
    rw [List.foldl_concat, hfold]
    by_cases hcounts : cv.counts
    · have hfind := h cv.name
      rw [if_pos ⟨cv, hcv List.mem_cons_self, hcounts, rfl⟩] at hfind
      have hlater : ¬ ({ t with rplsList := l' } : TankIo).initialMake = true :=
        Bool.eq_false_iff.mp hinitial
      rw [replaceVar_of_counts hcounts (if_neg hlater) hfind]
      exact ⟨_, rfl, fun hvalue => valued_concat.mpr ⟨hvalued hvalue, fun _ _ => rfl⟩⟩
    · obtain ⟨l'', hturn, hl''⟩ := replaceVar_of_not_counts env { t with rplsList := l' } hcounts
      exact ⟨l'', hturn, fun hvalue => (hl'' _).mpr (hvalued hvalue)⟩

/-- All counters go on, and none of the pointers is null. -/
theorem Holds.advance {counter : String → TankCounter} {t : TankIo} (h : Holds counter vars t) :
    Holds (fun name => (counter name).next) vars t.advance ∧ t.advance.fatals = t.fatals := by
  constructor
  · intro name
    rw [TankIo.advance, OrderedMap.find_mapAccum_image, h name]
    split
    · rfl
    · rfl
  · have hnone : (t.counters.entries.filterMap fun cv =>
        if cv.2.isNone then some ("TANK_IO COUNT cv.first=" ++ cv.1) else none) = [] := by
      refine List.filterMap_eq_nil_iff.mpr fun cv hcv => if_neg fun hnull => ?_
      have hfind : t.counters.find cv.1 = some none := by
        rw [OrderedMap.find_eq_some_iff, ← Option.isNone_iff_eq_none.mp hnull]
        exact hcv
      rw [h cv.1] at hfind
      split at hfind
      · cases hfind
      · cases hfind
    rw [TankIo.advance, hnone, List.append_nil]

/-! ### All requests -/

/-- The tank after so many requests. -/
def Stage (env : TankEnv) (vars : List Var) : ℕ → TankIo → Prop
  | 0, t => t.initialMake = true ∧ t.counters = .empty ∧ t.fatals = []
  | k + 1, t =>
    t.initialMake = false ∧
      Holds (fun name => TankCounter.next^[k] (configured env vars name)) vars t ∧ t.fatals = []

/-- In the first request every occurrence has the value that the counter of its name begins
    with. -/
def FirstAgrees (env : TankEnv) (vars : List Var) : Prop :=
  AtEach (fun pre cv => cv.counts → (configured env (pre ++ [cv]) cv.name).current =
    (configured env vars cv.name).current) vars

section Requests

variable {vars : List Var} (hopt : opt.enableVars = true)
  (hvars : ∀ id, env.searchVars (text env opt req id) = vars) {t : TankIo} {k : ℕ}
include hopt hvars

/-- The values of the first request are right exactly if they agree. -/
theorem Stage.first (h : Stage env vars 0 t) :
    Stage env vars 1 (t.makeRequest_ env opt req).2 ∧
      (RightlyCounted env vars 0 (t.makeRequest_ env opt req).2 ↔ FirstAgrees env vars) := by
  obtain ⟨hinitial, hcounters, hfatals⟩ := h
  have hbegin : Made env [] (t.begin_ opt) := by
    refine ⟨hinitial, hfatals, fun name => ?_, fun value => ?_⟩
    · rw [if_neg (by rintro ⟨_, ⟨⟩, _⟩), begin_, hcounters]
      rfl
    · exact iff_of_true (fun _ hr => absurd hr List.not_mem_nil) atEach_nil
  have hmade := made_foldl hbegin vars
  have hinitial' : (t.begin_ opt).initialMake = true := hinitial
  simp only [makeRequest_, if_pos hopt, substitute, hvars, if_pos hinitial']
  refine ⟨⟨rfl, hmade.holds, hmade.fatals⟩, ?_⟩
  rw [RightlyCounted, and_iff_left hmade.fatals, FirstAgrees]
  exact hmade.valued _

/-- The values of a later request are right. -/
theorem Stage.later (h : Stage env vars (k + 1) t) :
    Stage env vars (k + 2) (t.makeRequest_ env opt req).2 ∧
      RightlyCounted env vars (k + 1) (t.makeRequest_ env opt req).2 := by
  obtain ⟨hinitial, hholds, hfatals⟩ := h
  have hbegin : Holds (fun name => TankCounter.next^[k] (configured env vars name)) vars
      (t.begin_ opt) := hholds
  obtain ⟨hadvanced, hkept⟩ := hbegin.advance
  simp only [← Function.iterate_succ_apply'] at hadvanced
  obtain ⟨l, hfold, hvalued⟩ :=
    foldl_of_holds env hadvanced hinitial vars (List.Subset.refl vars)
  have hlater : ¬ (t.begin_ opt).initialMake = true := Bool.eq_false_iff.mp hinitial
  simp only [makeRequest_, if_pos hopt, substitute, hvars, if_neg hlater, hfold]
  have hfatals' : (t.begin_ opt).advance.fatals = [] := hkept.trans hfatals
  exact ⟨⟨rfl, hadvanced, hfatals'⟩, hvalued fun _ hr => absurd hr List.not_mem_nil, hfatals'⟩

end Requests

/-! ### The order of the text -/

theorem carried_eq_some_iff {c : TankCounter} : carried env name cv = some c ↔
    (cv.counts ∧ cv.name = name ∧ cv.options ≠ []) ∧ env.counter cv = c := by
  rw [carried]
  split
  · next h => simp only [h, ne_eq, not_false_eq_true, and_self, true_and, Option.some.injEq]
  · next h => exact iff_of_false (fun hnone => nomatch hnone) fun hsome => h hsome.1

/-- The occurrences of a name have its value, except those before the one with options. -/
theorem firstAgrees_iff (hsingle : SingleOptions vars) :
    FirstAgrees env vars ↔ InOrder env vars := by
  constructor
  · rintro h pre cv post hvars hcounts hoptions ⟨cv', hcv', hcounts', hname⟩
    obtain ⟨hconfigured, hbefore⟩ := configured_of_single env hsingle hvars hcounts hoptions
    obtain ⟨pre₁, pre₂, rfl⟩ := List.append_of_mem hcv'
    rw [List.append_assoc, List.cons_append] at hvars
    have hagrees := h pre₁ cv' (pre₂ ++ cv :: post) hvars hcounts'
    -- so far there are no options, and the counter is the one without
    have hdefault : latest (carried env cv.name) (pre₁ ++ [cv']) = none := by
      refine latest_eq_none_iff.mpr fun x hx => hbefore x ?_
      obtain hx | hx := List.mem_append.mp hx
      · exact List.mem_append_left _ hx
      · exact List.mem_append_right _ (List.mem_singleton.mp hx ▸ List.mem_cons_self)
    rw [hname, hconfigured, configured, hdefault] at hagrees
    exact hagrees.symm
  · intro h pre cv post hvars hcounts
    cases hsofar : latest (carried env cv.name) (pre ++ [cv]) with
    | some c =>
      obtain ⟨pre₁, x, post₁, hsplit, hx, _⟩ := latest_eq_some_iff.mp hsofar
      obtain ⟨⟨hcounts', hname, hoptions⟩, rfl⟩ := carried_eq_some_iff.mp hx
      have hvars' : vars = pre₁ ++ x :: (post₁ ++ post) := by
        rw [hvars, List.append_cons, hsplit, List.append_assoc, List.cons_append]
      obtain ⟨hconfigured, _⟩ := configured_of_single env hsingle hvars' hcounts' hoptions
      rw [← hname, hconfigured, configured, hname, hsofar, Option.getD_some]
    | none =>
      rw [configured, hsofar, configured]
      cases hall : latest (carried env cv.name) vars with
      | none => rfl
      | some c =>
        obtain ⟨pre₁, x, post₁, hsplit, hx, _⟩ := latest_eq_some_iff.mp hall
        obtain ⟨⟨hcounts', hname, hoptions⟩, rfl⟩ := carried_eq_some_iff.mp hx
        have hnot : x ∉ pre ++ [cv] := fun hmem => by
          rw [latest_eq_none_iff.mp hsofar x hmem] at hx
          cases hx
        have hlater : cv ∈ pre₁ := by
          have hboth := hsplit.symm.trans (hvars.trans (List.append_cons pre cv post))
          obtain ⟨l, hl, hx'⟩ | ⟨l, hl, _⟩ := List.append_eq_append_iff.mp hboth
          · cases l with
            | nil =>
              rw [List.append_nil] at hl
              exact hl ▸ List.mem_concat_self
            | cons y l =>
              cases hx'
              exact absurd (hl ▸ List.mem_append_right _ List.mem_cons_self) hnot
          · exact hl ▸ List.mem_append_left _ List.mem_concat_self
        have hzero := h pre₁ x post₁ hsplit hcounts' hoptions ⟨cv, hlater, hcounts, hname.symm⟩
        exact hzero.symm

section Runs

variable {vars : List Var} (hopt : opt.enableVars = true)
  (hvars : ∀ id, env.searchVars (text env opt req id) = vars) {t : TankIo} {k : ℕ}
include hopt hvars

theorem Stage.step (h : Stage env vars k t) (a : Act) :
    Stage env vars (k + requests [a]) (step env opt req t a) := by
  cases a with
  | makeRequest_ =>
    cases k with
    | zero => exact (h.first hopt hvars).1
    | succ k => exact (h.later hopt hvars).1
  | others callId =>
    cases k with
    | zero => exact h
    | succ k => exact h

theorem stage_run (as : List Act) :
    Stage env vars (requests as) (run (TankIo.step env opt req) (configure {}) as) := by
  induction as using List.reverseRecOn with
  | nil => exact ⟨rfl, rfl, rfl⟩
  | append_singleton as a ih =>
    rw [run_concat, requests, List.count_append]
    exact ih.step hopt hvars a

end Runs

/-- The number that the digits of an option make. -/
def decimal (digits : String) : ℤ := digits.toList.foldl (fun n c => 10 * n + (c.toNat - 48)) 0

/-- One text with two variables, and `=` between them. -/
def pairEnv (template : Data) (vars : List Var) : TankEnv where
  serialize _ req _ := req
  searchVars text := if text = template then vars else []
  replaceVars rplsList text :=
    if text = template then [61].intercalate (rplsList.map fun r => r.2.2.toUTF8.toList) else text
  getOpt cv name n := ((cv.options.lookup name).map decimal).getD n
  parser := Tank.digitParser

/-- `COUNT1`, from 10 up to 20 by 2. -/
def countOptions : Var := ⟨"TANK", "COUNT1", [("from", "10"), ("to", "20"), ("step", "2")]⟩

/-- `COUNT1` without options. -/
def countPlain : Var := ⟨"TANK", "COUNT1", []⟩

/-- The text with the options first. -/
def optionsFirst : Data :=
  "$TANK\x7bCOUNT1[from=10, to=20, step=2]\x7d=$TANK\x7bCOUNT1\x7d".toUTF8.toList

/-- The text with the options last. -/
def optionsLast : Data :=
  "$TANK\x7bCOUNT1\x7d=$TANK\x7bCOUNT1[from=10, to=20, step=2]\x7d".toUTF8.toList

end TankIo

end WfcIo

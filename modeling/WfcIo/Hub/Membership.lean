import WfcIo.Hub.Hub

/-!
# The peers of a suspended hub

`reg_io` and `unreg_io` return at once while the hub is suspended: a connection that comes
or goes then is never noticed. So the peers are those of the calls that the hub has heard,
and not those of all calls.

## Main definitions

- `Hub.heard` — the calls of a run that were made while the hub was not suspended
- `Hub.Member` — the last call about an id is a registration with a living interface
- `Hub.reached` — the peers that a step has delivered a message to

## Main results

- `Hub.run_find` — the map holds what the last call heard about an id has said
- `Hub.mem_reached_iff` — the peers of an unsuspended hub that a message is delivered to
-/

namespace WfcIo

open Foundation

namespace Hub

/-- The calls of a run that were made while the hub was not suspended. -/
def heard (h : Hub) (acts : List Act) : List Act := taken step (fun h _ => !h.suspended) h acts

/-- What a call says about the interface of `k`: the one registered, or none any more. -/
def Act.interface (k : IoId) : Act → Option (Option Source)
  | .regIo id itf => if id = k then some itf else none
  | .unregIo id => if id = k then some none else none
  | _ => none

/-- The last of the calls about `k` is `reg_io`, with an interface that is not among the
    sources that are gone. -/
def Member (gone : List Source) (calls : List Act) (k : IoId) : Prop :=
  ∃ p, latest (Act.interface k) calls = some (some p) ∧ p ∉ gone

/-- The ids of the peers that the last step has delivered something to. -/
def reached (h : Hub) : List IoId :=
  h.outcalls.filterMap fun
    | .peer k _ _ _ _ => some k
    | _ => none

variable {h : Hub} {a : Act} {acts : List Act} {k : IoId}

/-! ### The map -/

/-- What a step does to the interface of `k`. -/
theorem step_find (h : Hub) (a : Act) (k : IoId) :
    ((step h a).map.find k).join =
      if h.suspended then (h.map.find k).join
      else (a.interface k).getD (h.map.find k).join := by
  rw [step_map]
  split
  · rfl
  · cases a with
    | regIo id itf =>
      simp only [Act.change, OrderedMap.find_assign, Act.interface, eq_comm (a := k)]
      split <;> rfl
    | unregIo id =>
      simp only [Act.change, OrderedMap.find_erase, Act.interface, eq_comm (a := k)]
      split <;> rfl
    | _ => rfl

theorem heard_concat (h : Hub) (acts : List Act) (a : Act) :
    heard h (acts ++ [a]) = heard h acts ++ if !(run step h acts).suspended then [a] else [] :=
  taken_concat h acts a

/-- The map holds what the last call heard about an id has said. -/
theorem run_find (id : IoId) (target : Option Target) (acts : List Act) (k : IoId) :
    ((run step (initialized id target) acts).map.find k).join =
      (latest (Act.interface k) (heard (initialized id target) acts)).join := by
  generalize hh : initialized id target = h
  induction acts using List.reverseRecOn with
  | nil =>
    rw [← hh]
    rfl
  | append_singleton acts a ih =>
    rw [run_concat, step_find, ih, heard_concat, latest_append]
    cases hs : (run step h acts).suspended with
    | true => rfl
    | false =>
      simp only [Bool.not_false, if_true, latest_singleton]
      cases Act.interface k a with
      | none => rfl
      | some itf => rfl

/-! ### Deliveries -/

theorem mem_reached {h : Hub} :
    k ∈ h.reached ↔ ∃ p d id handler, .peer k p d id handler ∈ h.outcalls := by
  simp only [reached, List.mem_filterMap]
  constructor
  · rintro ⟨o, ho, hk⟩
    cases o with
    | peer k' p d id handler =>
      cases hk
      exact ⟨p, d, id, handler, ho⟩
    | target t c => cases hk
    | nullData => cases hk
  · rintro ⟨p, d, id, handler, ho⟩
    exact ⟨_, ho, rfl⟩

/-- The turn of the loop that delivers to `k`. -/
theorem delivery_eq_peer_iff {ptr : DataPtr} {d : Data} {id id' : IoId} {p : Source}
    {handler : Option Handler} {item : IoId × Option Source} :
    h.delivery ptr id item = some (.peer k p d id' handler) ↔
      ptr = some d ∧ item = (k, some p) ∧ k ≠ id ∧ p ∉ h.gone ∧ id' = h.id ∧ handler = none := by
  obtain ⟨j, w⟩ := item
  simp only [delivery]
  split
  · rename_i hj
    constructor
    · intro hnone
      cases hnone
    · rintro ⟨_, heq, hne, _⟩
      cases heq
      exact absurd hj hne
  · rename_i hj
    rw [Option.map_eq_some_iff]
    constructor
    · rintro ⟨q, hq, heq⟩
      obtain ⟨rfl, hgone⟩ := lock_eq_some_iff.mp hq
      cases ptr with
      | none => cases heq
      | some data =>
        cases heq
        exact ⟨rfl, rfl, hj, hgone, rfl, rfl⟩
    · rintro ⟨rfl, heq, _, hq, rfl, rfl⟩
      cases heq
      exact ⟨p, lock_eq_some_iff.mpr ⟨rfl, hq⟩, rfl⟩

/-- A message of `id` goes to everybody else in the map whose interface is alive; a null
    pointer goes nowhere. -/
theorem mem_reached_performIo (hs : h.suspended = false) (d : DataPtr) (id : IoId)
    (handler : Option Handler) :
    k ∈ (step h (.performIo d id handler)).reached ↔
      d ≠ none ∧ k ≠ id ∧ ∃ p, h.map.find k = some (some p) ∧ p ∉ h.gone := by
  have hforward : ∀ k p d' id' f, .peer k p d' id' f ∉ (h.forward d id handler).toList := by
    intro k p d' id' f hmem
    simp only [forward] at hmem
    split at hmem
    · cases hmem
    · obtain ⟨t, _, ht⟩ := Option.map_eq_some_iff.mp (Option.mem_toList.mp hmem)
      cases ht
  simp only [mem_reached, step_performIo_outcalls hs, List.mem_append, List.mem_filterMap]
  constructor
  · rintro ⟨p, data, id', f, ⟨item, hitem, hd⟩ | hf⟩
    · obtain ⟨rfl, rfl, hne, hp, _⟩ := delivery_eq_peer_iff.mp hd
      exact ⟨Option.some_ne_none data, hne, p, OrderedMap.find_eq_some_iff.mpr hitem, hp⟩
    · exact absurd hf (hforward _ _ _ _ _)
  · rintro ⟨hd, hne, p, hfind, hp⟩
    obtain ⟨data, rfl⟩ := Option.ne_none_iff_exists'.mp hd
    refine ⟨p, data, h.id, none, Or.inl ⟨(k, some p), ?_, ?_⟩⟩
    · exact OrderedMap.find_eq_some_iff.mp hfind
    · exact delivery_eq_peer_iff.mpr ⟨rfl, rfl, hne, hp, rfl, rfl⟩

/-- **Membership.** A message that an unsuspended hub gets in a run goes to the peers, other
    than its sender, whose last call while the hub was not suspended was a registration, and
    whose interface is alive. -/
theorem mem_reached_iff (id : IoId) (target : Option Target) (acts : List Act)
    (hs : (run step (initialized id target) acts).suspended = false) (d : DataPtr)
    (sender : IoId) (handler : Option Handler) (k : IoId) :
    k ∈ (step (run step (initialized id target) acts) (.performIo d sender handler)).reached ↔
      d ≠ none ∧ k ≠ sender ∧
        Member (run step (initialized id target) acts).gone
          (heard (initialized id target) acts) k := by
  rw [mem_reached_performIo hs]
  simp only [Member, ← Option.join_eq_some_iff, run_find]

/-- Calls before, during and after a suspension of the hub. -/
def comeAndStay : List Act :=
  [.regIo 7 (some 5), .regIo 6 (some 2), .suspend true, .unregIo 7, .regIo 9 (some 3),
    .suspend false, .regIo 4 (some 1), .unregIo 6]

/-- The peers 7 and 4 get the message: that 7 left was not heard. Neither 9, who came while the hub
    was suspended, nor 6, who left after that, gets it. -/
theorem mem_reached_seven :
    let s := step (run step (initialized 1 none) comeAndStay) (.performIo (some [1]) 8 none)
    7 ∈ s.reached ∧ 4 ∈ s.reached ∧ 9 ∉ s.reached ∧ 6 ∉ s.reached := by
  have hreached := mem_reached_iff 1 none comeAndStay rfl (some [1]) 8 none
  refine ⟨(hreached 7).mpr ⟨by decide, by decide, 5, by decide, by decide⟩,
    (hreached 4).mpr ⟨by decide, by decide, 1, by decide, by decide⟩, fun h9 => ?_, fun h6 => ?_⟩
  · obtain ⟨_, _, p, hp, _⟩ := (hreached 9).mp h9
    have hnone : latest (Act.interface 9) (heard (initialized 1 none) comeAndStay) = none := by
      decide
    rw [hnone] at hp
    cases hp
  · obtain ⟨_, _, p, hp, _⟩ := (hreached 6).mp h6
    have hgone : latest (Act.interface 6) (heard (initialized 1 none) comeAndStay) =
        some none := by
      decide
    rw [hgone] at hp
    cases hp

/-- A peer that comes while the hub is suspended gets nothing after that. -/
theorem not_reached :
    ¬ ∀ (id : IoId) (target : Option Target) (acts : List Act),
      (run step (initialized id target) acts).suspended = false → ∀ d sender handler k,
      (k ∈ (step (run step (initialized id target) acts)
        (.performIo d sender handler)).reached ↔
        k ≠ sender ∧ Member (run step (initialized id target) acts).gone acts k) := by
  intro hall
  have h := hall 1 none [.suspend true, .regIo 7 (some 5), .suspend false] rfl (some [1]) 8 none 7
  exact absurd (h.mpr ⟨by decide, 5, by decide, by decide⟩) (by decide)

end Hub

end WfcIo

import WfcIo.Pipeline.Tree
import WfcIo.Foundation.Flood

/-!
# Messages in a tree of hubs

A hub passes a message on to its peers, the relays of other hubs among them, and to its target, but
not back to where it has come from. So a message floods the tree, as far as the hubs are not
suspended and know one another: every peer that can be reached gets it, once, whatever restarts and
registrations there have been.

## Main definitions

- `HubTree.up`, `HubTree.down` — the hubs that a hub passes messages on to
- `HubTree.Leads` — a message that comes to one hub comes to another
- `HubTree.message` — what comes to a hub from above, from below, or from outside

## Main results

- `HubTree.next_eq` — the calls of a hub are those of a flood
- `HubTree.flooded` — what a message leads to
-/

namespace WfcIo

open Foundation

namespace HubTree

/-! ### Ways -/

/-- The object that a hub passes messages on to as its target. -/
def up (T : HubTree) (n : ℕ) : Option ℕ :=
  (T.node n).bind fun h => if h.suspended then none else h.lockTarget

/-- The hub that an entry of the map leads to, through its relay. -/
def child (relays : Source → Option Relay) (h : Hub) (item : IoId × Option Source) : Option ℕ :=
  (h.lock item.2).bind fun p => (relays p).map Relay.owner

/-- The hubs that a hub passes messages on to through their relays. -/
def down (T : HubTree) (n : ℕ) : List ℕ :=
  (T.node n).elim [] fun h =>
    if h.suspended then [] else h.map.entries.filterMap (child T.relays h)

/-- Up from `n`, and down from there to `m`. -/
def Leads (T : HubTree) (n m : ℕ) : Prop :=
  ∃ r, Relation.ReflTransGen (fun a b => T.up a = some b) n r ∧
    Relation.ReflTransGen (fun a b => b ∈ T.down a) r m

/-- A hub that has a target has been restarted. -/
def Started (T : HubTree) : Prop :=
  ∀ n h, T.node n = some h → h.lockTarget ≠ none → h.targetHandler ≠ none

def handlerId (T : HubTree) (n : ℕ) : IoId := (T.node n).elim 0 Hub.handlerId

/-- What comes to the hub `v` when the peer `s` of one hub has sent `data`. -/
def message (T : HubTree) (data : Data) (s : IoId) (handler : Option Handler) :
    ℕ × Origin ℕ → ℕ × Message
  | (v, .outside) => (v, ⟨some data, s, handler⟩)
  | (v, .below c) => (v, ⟨some data, T.handlerId c, handler⟩)
  | (v, .above) => (v, ⟨some data, T.handlerId v, none⟩)

variable {config : ℕ → Option (IoId × Option Target)} {acts past : List Act} {T : HubTree}

/-! ### What the wiring says -/

/-- Two restarts do not take the same id. -/
theorem restart_unique (hfresh : Fresh acts) {n n' : ℕ} {newId : IoId} {p p' : Source}
    (h : .restart n newId p ∈ acts) (h' : .restart n' newId p' ∈ acts) : n = n' ∧ p = p' := by
  let R : Act → Act → Prop := fun a b => ∀ i, a.newId = some i → ∀ j, b.newId = some j → i ≠ j
  have hpair : acts.Pairwise R := List.pairwise_filterMap.mp hfresh.ids_nodup
  have hsymm : Std.Symm R := ⟨fun a b hab i hi j hj => (hab j hj i hi).symm⟩
  by_contra hne
  have hacts : Act.restart n newId p ≠ .restart n' newId p' := by
    rintro ⟨⟩
    exact hne ⟨rfl, rfl⟩
  exact hpair.forall h h' hacts newId rfl newId rfl rfl

/-- A relay has a new id, and it is no object from outside. -/
theorem Wired.relay_mem (hW : Wired config acts past T) (hpast : ∀ a ∈ past, a ∈ acts)
    {p : Source} {r : Relay} (hr : T.relays p = some r) :
    r.handler.id ∈ ids acts ∧ p ∈ made acts := by
  have hrestart := hpast _ (hW.relay p r hr)
  exact ⟨List.mem_filterMap.mpr ⟨_, hrestart, rfl⟩, List.mem_filterMap.mpr ⟨_, hrestart, rfl⟩⟩

/-- A hub that an entry of `n` leads to has the id of the entry, and `n` as its target. -/
theorem Wired.child_spec (hW : Wired config acts past T) (hpast : ∀ a ∈ past, a ∈ acts) {n c : ℕ}
    {h : Hub} (hn : T.node n = some h) {item : IoId × Option Source}
    (hitem : item ∈ h.map.entries) (hc : child T.relays h item = some c) :
    ∃ p r k, h.lock item.2 = some p ∧ T.relays p = some r ∧ r.owner = c ∧
      item.1 = r.handler.id ∧ T.node c = some k ∧ k.handlerId = item.1 ∧ k.wtarget = some n := by
  obtain ⟨p, hp, howner⟩ := Option.bind_eq_some_iff.mp hc
  obtain ⟨r, hr, rfl⟩ := Option.map_eq_some_iff.mp howner
  obtain ⟨hsome, halive⟩ := Hub.lock_eq_some_iff.mp hp
  obtain ⟨i, w⟩ := item
  obtain rfl : w = some p := hsome
  have hfind : h.map.find i = some (some p) := OrderedMap.find_eq_some_iff.mpr hitem
  obtain ⟨r', k, hr', hid, hk, htarget⟩ | ⟨_, hout⟩ := hW.entry n h hn i p hfind
  · obtain rfl : r = r' := Option.some.inj (hr.symm.trans hr')
    obtain ⟨_, k', hk', hid'⟩ | hgone := hW.current p r hr
    · obtain rfl : k = k' := Option.some.inj (hk.symm.trans hk')
      exact ⟨p, r, k, hp, hr, rfl, hid, hk, hid'.trans hid.symm, htarget⟩
    · exact absurd (hgone n h hn) halive
  · exact absurd (hW.relay_mem hpast hr).2 hout

theorem Wired.wtarget_eq (hW : Wired config acts past T) {n : ℕ} {h : Hub}
    (hn : T.node n = some h) : h.wtarget = (config n).bind Prod.snd := by
  have hconfig := hW.targets n
  rw [hn] at hconfig
  cases hc : config n with
  | none =>
    rw [hc] at hconfig
    cases hconfig
  | some c =>
    rw [hc] at hconfig
    exact Option.some.inj hconfig

theorem up_eq_some_iff {n t : ℕ} :
    T.up n = some t ↔ ∃ h, T.node n = some h ∧ h.suspended = false ∧ h.lockTarget = some t := by
  simp only [up, Option.bind_eq_some_iff]
  refine exists_congr fun h => and_congr_right fun _ => ?_
  cases h.suspended with
  | true => simp
  | false => simp

theorem mem_down_iff {n c : ℕ} :
    c ∈ T.down n ↔ ∃ h, T.node n = some h ∧ h.suspended = false ∧
      ∃ item ∈ h.map.entries, child T.relays h item = some c := by
  cases hn : T.node n with
  | none => simp [down, hn]
  | some h => cases hs : h.suspended <;> simp [down, hn, hs]

/-- No two entries lead to one hub. -/
theorem Wired.nodup_down (hW : Wired config acts past T) (hpast : ∀ a ∈ past, a ∈ acts) (n : ℕ) :
    (T.down n).Nodup := by
  cases hn : T.node n with
  | none => simp [down, hn]
  | some h =>
    cases hs : h.suspended with
    | true => simp [down, hn, hs]
    | false =>
      have hkeys : h.map.entries.Pairwise fun a b => a.1 ≠ b.1 :=
        List.pairwise_map.mp h.map.keys_nodup
      simp only [down, hn, hs, Option.elim_some, Bool.false_eq_true, if_false]
      refine List.pairwise_filterMap.mpr (hkeys.imp_of_mem fun ha hb hab => ?_)
      rintro c hc _ hc' rfl
      obtain ⟨_, _, k, _, _, _, _, hk, hid, _⟩ := hW.child_spec hpast hn ha hc
      obtain ⟨_, _, k', _, _, _, _, hk', hid', _⟩ := hW.child_spec hpast hn hb hc'
      obtain rfl : k = k' := Option.some.inj (hk.symm.trans hk')
      exact hab (hid.symm.trans hid')

/-- The ways of the tree. -/
def ways (hW : Wired config acts past T) (hpast : ∀ a ∈ past, a ∈ acts) : Ways ℕ where
  parent n := (config n).bind Prod.snd
  up := T.up
  down := T.down
  up_parent := by
    intro n t ht
    obtain ⟨h, hn, _, ht⟩ := up_eq_some_iff.mp ht
    rw [← hW.wtarget_eq hn]
    exact (Option.filter_eq_some_iff.mp ht).1
  down_parent := by
    intro n c hc
    obtain ⟨h, hn, _, item, hitem, hc⟩ := mem_down_iff.mp hc
    obtain ⟨_, _, k, _, _, _, _, hk, _, htarget⟩ := hW.child_spec hpast hn hitem hc
    rw [← hW.wtarget_eq hk]
    exact htarget
  nodup_down := hW.nodup_down hpast

/-! ### The calls of one hub -/

/-- What an object passes on when it gets a message. -/
def passes (relays : Source → Option Relay) (x : Option Hub) (m : Message) : List (ℕ × Message) :=
  (performIo relays 0 m x).sends

/-- What it shows. -/
def marks (relays : Source → Option Relay) (n : ℕ) (x : Option Hub) (m : Message) : List Event :=
  (performIo relays n m x).shows

theorem marked (relays : Source → Option Relay) :
    Marked (performIo relays) id (passes relays) (marks relays) some := by
  -- the calls of the step before are forgotten
  have hstate : ∀ n m h, ∃ outcalls,
      (performIo relays n m (some h)).state = some { h with outcalls } := by
    intro n m h
    obtain ⟨outcalls, heq⟩ := Hub.performIo_spec m.d m.id m.handler h.quiet
    exact ⟨outcalls, congrArg some heq⟩
  refine ⟨fun n m x => ?_, fun n m x => ?_, fun n m x => ?_, fun i n m x => ?_⟩
  · rw [Prod.map_id, List.map_id]
    cases x with
    | none => rfl
    | some h => rfl
  · rw [List.filterMap_some]
    rfl
  · cases x with
    | none => rfl
    | some h =>
      obtain ⟨outcalls, heq⟩ := hstate n m h
      rw [heq]
      rfl
  · cases x with
    | none => rfl
    | some h =>
      obtain ⟨outcalls, heq⟩ := hstate n m h
      rw [heq]
      rfl

variable {relays : Source → Option Relay} {h : Hub} {data : Data} {s id : IoId}
  {handler : Option Handler}

/-- The message for the relay that an entry leads to. -/
def toRelay (relays : Source → Option Relay) (h : Hub) (data : Data) (id : IoId)
    (item : IoId × Option Source) : Option (ℕ × Message) :=
  if item.1 = id then none
  else
    (h.lock item.2).bind fun p =>
      (relays p).map fun r => (r.owner, ⟨some data, r.handler.id, none⟩)

theorem passes_eq (hs : h.suspended = false) :
    passes relays (some h) ⟨some data, id, handler⟩ =
      h.map.entries.filterMap (toRelay relays h data id) ++
        if h.handlerId = id then []
        else h.lockTarget.toList.map fun t => (t, ⟨some data, h.handlerId, handler⟩) := by
  simp only [passes, performIo, Hub.step_performIo_outcalls hs, List.filterMap_append,
    List.filterMap_filterMap]
  congr 1
  · refine List.filterMap_congr fun item _ => ?_
    simp only [Hub.delivery, toRelay]
    split
    · rfl
    · cases h.lock item.2 with
      | none => rfl
      | some p => rfl
  · simp only [Hub.forward]
    split
    · rfl
    · cases h.lockTarget with
      | none => rfl
      | some t => rfl

theorem passes_of_suspended (hs : h.suspended = true) (m : Message) :
    passes relays (some h) m = [] := by
  have hs' : h.quiet.suspended = true := hs
  simp only [passes, performIo, Hub.step, Hub.exec, Hub.performIo_eq, hs', if_true]
  rfl

/-! ### Floods -/

/-- What came from above came through the relay of `v`, and what came from below came up. -/
def Possible (T : HubTree) : ℕ × Origin ℕ → Prop
  | (v, .above) => ∃ p k, T.relays p = some ⟨v, ⟨k.handlerId⟩⟩ ∧ T.node v = some k
  | (v, .below c) => T.up c = some v
  | (_, .outside) => True

variable {rank : ℕ → ℕ}

theorem ascends (hrank : ∀ n t, (config n).bind Prod.snd = some t → rank t < rank n)
    (hW : Wired config acts past T) (hpast : ∀ a ∈ past, a ∈ acts) :
    (ways hW hpast).Ascends rank := hrank

/-- A hub does not lead to itself. -/
theorem Wired.ne_of_child (hrank : ∀ n t, (config n).bind Prod.snd = some t → rank t < rank n)
    (hW : Wired config acts past T) {n c : ℕ} {k : Hub} (hk : T.node c = some k)
    (htarget : k.wtarget = some n) : n ≠ c := by
  rintro rfl
  rw [hW.wtarget_eq hk] at htarget
  exact Nat.lt_irrefl _ (hrank n n htarget)

/-- A hub that passes messages up has the id of a relay. -/
theorem Wired.relay_of_up (hW : Wired config acts past T) (hstarted : T.Started) {n t : ℕ} {h : Hub}
    (hn : T.node n = some h) (ht : h.lockTarget = some t) :
    ∃ p, T.relays p = some ⟨n, ⟨h.handlerId⟩⟩ := by
  refine hW.taken n h hn (hstarted n h hn ?_)
  rw [ht]
  exact Option.some_ne_none t

/-- Two hubs with relays do not have the same id. -/
theorem Wired.owner_unique (hW : Wired config acts past T) (hfresh : Fresh acts)
    (hpast : ∀ a ∈ past, a ∈ acts) {p p' : Source} {r r' : Relay} (hr : T.relays p = some r)
    (hr' : T.relays p' = some r') (hid : r.handler.id = r'.handler.id) : r.owner = r'.owner := by
  have hrestart := hpast _ (hW.relay p r hr)
  rw [hid] at hrestart
  exact (restart_unique hfresh hrestart (hpast _ (hW.relay p' r' hr'))).1

/-- A message is kept from the relay of the hub that it has come from, and from no other. -/
theorem sender_iff (data : Data) (handler : Option Handler) (hW : Wired config acts past T)
    (hfresh : Fresh acts) (hpast : ∀ a ∈ past, a ∈ acts) (hstarted : T.Started)
    (hrank : ∀ n t, (config n).bind Prod.snd = some t → rank t < rank n) (hs : s ∉ ids acts)
    {v c : ℕ} {o : Origin ℕ} (hpossible : T.Possible (v, o)) {p : Source} {r : Relay} {k : Hub}
    (hr : T.relays p = some r) (hc : r.owner = c) (hk : T.node c = some k)
    (hid : k.handlerId = r.handler.id) (htarget : k.wtarget = some v) :
    r.handler.id = (T.message data s handler (v, o)).2.id ↔ o = .below c := by
  cases o with
  | outside =>
    refine iff_of_false (fun heq => hs ?_) (fun heq => by cases heq)
    rw [show s = r.handler.id from heq.symm]
    exact (hW.relay_mem hpast hr).1
  | below c' =>
    obtain ⟨k', hk', _, ht⟩ := up_eq_some_iff.mp hpossible
    obtain ⟨p', hp'⟩ := hW.relay_of_up hstarted hk' ht
    have hid' : (T.message data s handler (v, .below c')).2.id = k'.handlerId := by
      simp only [message, handlerId, hk', Option.elim_some]
    rw [hid']
    constructor
    · intro heq
      rw [← hc, hW.owner_unique hfresh hpast hr hp' heq]
    · rintro ⟨⟩
      obtain rfl : k = k' := Option.some.inj (hk.symm.trans hk')
      exact hid.symm
  | above =>
    obtain ⟨p', k', hp', hk'⟩ := hpossible
    refine iff_of_false (fun heq => ?_) (fun heq => by cases heq)
    have hid' : (T.message data s handler (v, .above)).2.id = k'.handlerId := by
      simp only [message, handlerId, hk', Option.elim_some]
    rw [hid'] at heq
    have howner := hW.owner_unique hfresh hpast hr hp' heq
    exact hW.ne_of_child hrank hk htarget (howner.symm.trans hc)

/-- What goes through the relays is what goes down. -/
theorem toRelay_eq (hW : Wired config acts past T) (hfresh : Fresh acts)
    (hpast : ∀ a ∈ past, a ∈ acts) (hstarted : T.Started)
    (hrank : ∀ n t, (config n).bind Prod.snd = some t → rank t < rank n) (hs : s ∉ ids acts)
    {v : ℕ} {o : Origin ℕ} (hpossible : T.Possible (v, o)) (hv : T.node v = some h) :
    h.map.entries.filterMap (toRelay T.relays h data (T.message data s handler (v, o)).2.id) =
      ((h.map.entries.filterMap (child T.relays h)).filter (.below · ≠ o)).map
        fun c => T.message data s handler (c, .above) := by
  rw [List.filter_filterMap, List.map_filterMap]
  refine List.filterMap_congr fun item hitem => ?_
  cases hchild : child T.relays h item with
  | none =>
    have hnone : toRelay T.relays h data (T.message data s handler (v, o)).2.id item = none := by
      simp only [child, Option.bind_eq_none_iff, Option.map_eq_none_iff] at hchild
      simp only [toRelay]
      split
      · rfl
      · exact Option.bind_eq_none_iff.mpr fun p hp => Option.map_eq_none_iff.mpr (hchild p hp)
    rw [hnone]
    rfl
  | some c =>
    obtain ⟨p, r, k, hp, hr, hc, hitemid, hk, hid, htarget⟩ := hW.child_spec hpast hv hitem hchild
    have hsender := sender_iff data handler hW hfresh hpast hstarted hrank hs hpossible hr hc hk
      (hid.trans hitemid) htarget
    have hmessage :
        T.message data s handler (c, .above) = (c, ⟨some data, r.handler.id, none⟩) := by
      simp only [message, handlerId, hk, Option.elim_some, hid, hitemid]
    simp only [toRelay, hp, hr, hc, hitemid, hsender, Option.bind_some, Option.map_some]
    by_cases ho : o = .below c
    · simp [ho]
    · have hkept : Origin.below c ≠ o := Ne.symm ho
      simp [ho, hkept, hmessage]

/-- A message that has not come from above does not have the id of the hub. -/
theorem handlerId_ne (data : Data) (handler : Option Handler) (hW : Wired config acts past T)
    (hfresh : Fresh acts) (hpast : ∀ a ∈ past, a ∈ acts) (hstarted : T.Started)
    (hrank : ∀ n t, (config n).bind Prod.snd = some t → rank t < rank n) (hs : s ∉ ids acts)
    {v t : ℕ} {o : Origin ℕ} (hpossible : T.Possible (v, o)) (ho : o ≠ .above)
    (hv : T.node v = some h) (ht : h.lockTarget = some t) :
    h.handlerId ≠ (T.message data s handler (v, o)).2.id := by
  obtain ⟨p, hp⟩ := hW.relay_of_up hstarted hv ht
  cases o with
  | above => exact absurd rfl ho
  | outside =>
    intro heq
    have hself : h.handlerId = s := heq
    exact hs (hself ▸ (hW.relay_mem hpast hp).1)
  | below c =>
    obtain ⟨k, hk, _, htarget⟩ := up_eq_some_iff.mp hpossible
    obtain ⟨p', hp'⟩ := hW.relay_of_up hstarted hk htarget
    have hid : (T.message data s handler (v, .below c)).2.id = k.handlerId := by
      simp only [message, handlerId, hk, Option.elim_some]
    rw [hid]
    intro heq
    have howner := hW.owner_unique hfresh hpast hp hp' heq
    exact hW.ne_of_child hrank hk (Option.filter_eq_some_iff.mp htarget).1 howner

/-- What goes to the target is what goes up. -/
theorem toTarget_eq (hW : Wired config acts past T) (hfresh : Fresh acts)
    (hpast : ∀ a ∈ past, a ∈ acts) (hstarted : T.Started)
    (hrank : ∀ n t, (config n).bind Prod.snd = some t → rank t < rank n) (hs : s ∉ ids acts)
    {v : ℕ} {o : Origin ℕ} (hpossible : T.Possible (v, o)) (hv : T.node v = some h) :
    (if h.handlerId = (T.message data s handler (v, o)).2.id then []
      else h.lockTarget.toList.map fun t =>
        (t, (⟨some data, h.handlerId, (T.message data s handler (v, o)).2.handler⟩ : Message))) =
      if o = .above then []
      else h.lockTarget.toList.map fun t => T.message data s handler (t, .below v) := by
  have hid : T.handlerId v = h.handlerId := by
    simp only [handlerId, hv, Option.elim_some]
  by_cases ho : o = .above
  · subst ho
    have hself : h.handlerId = (T.message data s handler (v, .above)).2.id := hid.symm
    rw [if_pos hself, if_pos rfl]
  · have hhandler : (T.message data s handler (v, o)).2.handler = handler := by
      cases o with
      | above => exact absurd rfl ho
      | _ => rfl
    rw [if_neg ho, hhandler]
    cases ht : h.lockTarget with
    | none => exact ite_self _
    | some t =>
      rw [if_neg (handlerId_ne data handler hW hfresh hpast hstarted hrank hs hpossible ho hv ht),
        ← hid]
      rfl

/-- **The calls of a hub** are those of a flood. -/
theorem next_eq (data : Data) (handler : Option Handler) (hW : Wired config acts past T)
    (hfresh : Fresh acts) (hpast : ∀ a ∈ past, a ∈ acts) (hstarted : T.Started)
    (hrank : ∀ n t, (config n).bind Prod.snd = some t → rank t < rank n) (hs : s ∉ ids acts)
    (x : ℕ × Origin ℕ) (hx : T.Possible x) :
    nextCalls (passes T.relays) T.node (T.message data s handler x) =
      ((ways hW hpast).next x).map (T.message data s handler) := by
  obtain ⟨v, o⟩ := x
  have hplace : (T.message data s handler (v, o)).1 = v := by
    cases o <;> rfl
  have hdata : (T.message data s handler (v, o)).2 =
      ⟨some data, (T.message data s handler (v, o)).2.id,
        (T.message data s handler (v, o)).2.handler⟩ := by
    cases o <;> rfl
  have hnext : (ways hW hpast).next (v, o) =
      ((T.down v).filter (.below · ≠ o)).map (·, .above) ++
        if o = .above then [] else (T.up v).toList.map (·, .below v) := by
    by_cases ho : o = .above
    · subst ho
      simp [Ways.next, ways]
    · rw [Ways.next_of_ne ho, if_neg ho]
      rfl
  rw [nextCalls, hplace, hnext, List.map_append, List.map_map]
  cases hv : T.node v with
  | none => simp [passes, performIo, down, up, hv]
  | some h =>
    cases hsus : h.suspended with
    | true => simp [passes_of_suspended hsus, down, up, hv, hsus]
    | false =>
      rw [hdata, passes_eq hsus, toRelay_eq hW hfresh hpast hstarted hrank hs hx hv,
        toTarget_eq hW hfresh hpast hstarted hrank hs hx hv, apply_ite (List.map _)]
      simp [down, up, hv, hsus, Function.comp_def]

theorem Possible.next (hW : Wired config acts past T) (hpast : ∀ a ∈ past, a ∈ acts)
    {x y : ℕ × Origin ℕ} (hy : y ∈ (ways hW hpast).next x) : T.Possible y := by
  obtain ⟨v, o⟩ := x
  have hdown : ∀ c ∈ T.down v, T.Possible (c, .above) := by
    intro c hc
    obtain ⟨h, hv, _, item, hitem, hc⟩ := mem_down_iff.mp hc
    obtain ⟨p, ⟨owner, ⟨id⟩⟩, k, _, hr, rfl, hitemid, hk, hid, _⟩ :=
      hW.child_spec hpast hv hitem hc
    obtain rfl : k.handlerId = id := hid.trans hitemid
    exact ⟨p, k, hr, hk⟩
  by_cases ho : o = .above
  · subst ho
    obtain ⟨c, hc, rfl⟩ := List.mem_map.mp hy
    exact hdown c hc
  · rw [Ways.next_of_ne ho, List.mem_append, List.mem_map, List.mem_map] at hy
    obtain ⟨c, hc, rfl⟩ | ⟨t, ht, rfl⟩ := hy
    · exact hdown c (List.mem_of_mem_filter hc)
    · exact Option.mem_toList.mp ht

/-- What has not come from outside has the id of a relay. -/
theorem id_mem_of_possible (data : Data) (handler : Option Handler) (hW : Wired config acts past T)
    (hpast : ∀ a ∈ past, a ∈ acts) (hstarted : T.Started) {x : ℕ × Origin ℕ} (hx : T.Possible x)
    (ho : x.2 ≠ .outside) : (T.message data s handler x).2.id ∈ ids acts := by
  obtain ⟨v, o⟩ := x
  cases o with
  | outside => exact absurd rfl ho
  | below c =>
    obtain ⟨k, hk, _, ht⟩ := up_eq_some_iff.mp hx
    obtain ⟨p, hp⟩ := hW.relay_of_up hstarted hk ht
    simpa only [message, handlerId, hk, Option.elim_some] using (hW.relay_mem hpast hp).1
  | above =>
    obtain ⟨p, k, hp, hk⟩ := hx
    simpa only [message, handlerId, hk, Option.elim_some] using (hW.relay_mem hpast hp).1

/-! ### What a message leads to -/

/-- The hub `m` calls the peer that is registered under `k`. -/
def Event.toPeer (m : ℕ) (k : IoId) : Event → Bool
  | .peer n i _ _ => n = m ∧ i = k
  | _ => false

/-- The object `t`, which is no hub, is called. -/
def Event.toOutside (t : ℕ) : Event → Bool
  | .outside t' _ => t' = t
  | _ => false

/-- The call of the peer that is registered at the hub under `k`. -/
def delivery (m : ℕ) (h : Hub) (data : Data) (k : IoId) : Option Event :=
  ((h.map.find k).join.filter (· ∉ h.gone)).map fun p => .peer m k p ⟨some data, h.id, none⟩

/-- Only the hub `m` calls its peers. -/
theorem marks_toPeer_of_ne {n m : ℕ} (hn : n ≠ m) (k : IoId) (x : Option Hub) (msg : Message) :
    (marks relays n x msg).filter (Event.toPeer m k) = [] := by
  refine List.filter_eq_nil_iff.mpr fun e he => ?_
  cases x with
  | none =>
    obtain rfl := List.mem_singleton.mp he
    simp [Event.toPeer]
  | some h =>
    obtain ⟨o, _, ho⟩ := List.mem_filterMap.mp he
    cases o with
    | target t c => cases ho
    | nullData =>
      cases ho
      simp [Event.toPeer]
    | peer i p d id' hd =>
      simp only [leaves] at ho
      split at ho
      · cases ho
        simp [Event.toPeer, hn]
      · cases ho

/-- Only the object `t` itself shows that it is called. -/
theorem marks_toOutside_of_ne {n t : ℕ} (hn : n ≠ t) (x : Option Hub) (msg : Message) :
    (marks relays n x msg).filter (Event.toOutside t) = [] := by
  refine List.filter_eq_nil_iff.mpr fun e he => ?_
  cases x with
  | none =>
    obtain rfl := List.mem_singleton.mp he
    simpa [Event.toOutside] using hn
  | some h =>
    obtain ⟨o, _, ho⟩ := List.mem_filterMap.mp he
    cases o with
    | target t c => cases ho
    | nullData =>
      cases ho
      simp [Event.toOutside]
    | peer i p d id' hd =>
      simp only [leaves] at ho
      split at ho
      · cases ho
        simp [Event.toOutside]
      · cases ho

/-- What a turn of the loop calls under the id `k`. -/
def turn (relays : Source → Option Relay) (m : ℕ) (h : Hub) (data : Data) (id k : IoId)
    (item : IoId × Option Source) : Option Event :=
  ((h.delivery (some data) id item).bind (leaves relays m)).filter (Event.toPeer m k)

theorem turn_of_ne {m : ℕ} {item : IoId × Option Source} (hitem : item.1 ≠ k) :
    turn relays m h data id k item = none := by
  simp only [turn, Hub.delivery]
  split
  · rfl
  · cases h.lock item.2 with
    | none => rfl
    | some p =>
      refine Option.filter_eq_none_iff.mpr fun e he => ?_
      simp only [Option.map_some, Option.bind_some, leaves] at he
      split at he
      · cases he
        simp [Event.toPeer, hitem]
      · cases he

/-- The turn of `k`, if what is registered under `k` is no relay. -/
theorem turn_self {m : ℕ} {w : Option Source} (hw : h.map.find k = some w)
    (hnone : ∀ p, w = some p → relays p = none) :
    turn relays m h data id k (k, w) = if k = id then none else delivery m h data k := by
  simp only [turn, Hub.delivery, delivery, hw, Option.join_some]
  split
  · rfl
  · cases hlock : h.lock w with
    | none =>
      rw [Hub.lock] at hlock
      rw [hlock]
      rfl
    | some p =>
      obtain ⟨rfl, _⟩ := Hub.lock_eq_some_iff.mp hlock
      rw [Hub.lock] at hlock
      rw [hlock]
      simp [leaves, hnone p rfl, Event.toPeer]

/-- What goes to the target leaves no mark. -/
theorem forward_leaves (m : ℕ) (h : Hub) (d : DataPtr) (id : IoId) (handler : Option Handler) :
    (h.forward d id handler).toList.filterMap (leaves relays m) = [] := by
  simp only [Hub.forward]
  split
  · rfl
  · cases h.lockTarget with
    | none => rfl
    | some t => rfl

/-- What a hub calls under the id of a peer from outside. -/
theorem marks_toPeer (hW : Wired config acts past T) (hpast : ∀ a ∈ past, a ∈ acts) {m : ℕ}
    (hm : T.node m = some h) (data : Data) (handler : Option Handler) (hk : k ∉ ids acts) :
    (marks T.relays m (some h) ⟨some data, id, handler⟩).filter (Event.toPeer m k) =
      if h.suspended = true ∨ k = id then [] else (delivery m h data k).toList := by
  cases hs : h.suspended with
  | true =>
    have hs' : h.quiet.suspended = true := hs
    simp only [marks, performIo, Hub.step, Hub.exec, Hub.performIo_eq, hs', if_true, true_or]
    rfl
  | false =>
    have hshows : marks T.relays m (some h) ⟨some data, id, handler⟩ =
        (h.map.entries.filterMap (h.delivery (some data) id)).filterMap (leaves T.relays m) ++
          (h.forward (some data) id handler).toList.filterMap (leaves T.relays m) := by
      simp only [marks, performIo, Hub.step_performIo_outcalls hs, List.filterMap_append]
    rw [hshows, forward_leaves, List.append_nil, List.filterMap_filterMap, List.filter_filterMap]
    refine (h.map.filterMap_entries k fun item hitem => turn_of_ne hitem).trans ?_
    cases hw : h.map.find k with
    | none => simp [delivery, hw]
    | some w =>
      -- what is registered under `k` is no relay
      have hnone : ∀ p, w = some p → T.relays p = none := by
        rintro p rfl
        obtain ⟨r, _, hr, rfl, _⟩ | ⟨_, hout⟩ := hW.entry m h hm k p hw
        · exact absurd (hW.relay_mem hpast hr).1 hk
        · by_contra hsome
          obtain ⟨r, hr⟩ := Option.ne_none_iff_exists'.mp hsome
          exact hout (hW.relay_mem hpast hr).2
      rw [Option.bind_some, turn_self hw hnone]
      by_cases hid : k = id
      · simp [hid]
      · simp [hid]

/-- The events of a message are what the visits of the flood show. -/
theorem shown_eq (data : Data) (handler : Option Handler) (hW : Wired config acts past T)
    (hfresh : Fresh acts) (hpast : ∀ a ∈ past, a ∈ acts) (hstarted : T.Started)
    (hrank : ∀ n t, (config n).bind Prod.snd = some t → rank t < rank n) (hs : s ∉ ids acts)
    (fuel n : ℕ) :
    (step fuel T (.enter n (.performIo (some data) s handler))).shown =
      (walk (ways hW hpast).next fuel (n, .outside)).flatMap fun x =>
        marks T.relays x.1 (T.node x.1) (T.message data s handler x).2 := by
  have hmarks := (cascade_marks (marked T.relays) fuel (T.message data s handler (n, .outside))
    ⟨T.node, []⟩).2
  rw [List.filterMap_some, List.filterMap_nil, List.nil_append] at hmarks
  have hwalk := walk_map (I := T.Possible)
    (next_eq data handler hW hfresh hpast hstarted hrank hs)
    (fun x _ y hy => Possible.next hW hpast hy) (b := (n, .outside)) trivial (f := fuel)
  have hshown : (step fuel T (.enter n (.performIo (some data) s handler))).shown =
      (walk (nextCalls (passes T.relays) T.node) fuel
        (T.message data s handler (n, .outside))).flatMap
        (markCall (marks T.relays) T.node) := hmarks
  rw [hshown, hwalk, List.flatMap_map]
  refine List.flatMap_congr fun x _ => ?_
  have hplace : (T.message data s handler x).1 = x.1 := by
    obtain ⟨v, o⟩ := x
    cases o <;> rfl
  rw [markCall, hplace]

theorem meets_outside_iff (hW : Wired config acts past T) (hpast : ∀ a ∈ past, a ∈ acts)
    {n m : ℕ} : (ways hW hpast).Meets n .outside m ↔ T.Leads n m :=
  ⟨fun h => h.1, fun h => ⟨h, fun c hc => by cases hc⟩⟩

/-- What one object shows of a message, it shows of the one visit, if the message leads to it. -/
theorem filter_shown (data : Data) (handler : Option Handler) (hW : Wired config acts past T)
    (hfresh : Fresh acts) (hpast : ∀ a ∈ past, a ∈ acts) (hstarted : T.Started)
    (hrank : ∀ n t, (config n).bind Prod.snd = some t → rank t < rank n) {M : ℕ}
    (hM : ∀ n, rank n ≤ M) {fuel : ℕ} (hfuel : 2 * M + 1 < fuel) (hs : s ∉ ids acts) (n : ℕ)
    {m : ℕ} {P : Event → Bool}
    (hP : ∀ j, j ≠ m → ∀ x msg, (marks T.relays j x msg).filter P = []) :
    (¬ T.Leads n m →
      (step fuel T (.enter n (.performIo (some data) s handler))).shown.filter P = []) ∧
    (T.Leads n m → ∃ o, T.Possible (m, o) ∧ (o = .outside ↔ m = n) ∧
      (step fuel T (.enter n (.performIo (some data) s handler))).shown.filter P =
        (marks T.relays m (T.node m) (T.message data s handler (m, o)).2).filter P) := by
  have hdepth : Ways.depth rank M (n, .outside) < fuel := by
    have hn := hM n
    simp only [Ways.depth]
    omega
  have hcount := Ways.count_walk (ascends hrank hW hpast) hM m (v := n) (o := .outside)
    (fun h => by cases h) (fun c hc => by cases hc) hdepth
  have hother : ∀ x : ℕ × Origin ℕ, x.1 ≠ m →
      (marks T.relays x.1 (T.node x.1) (T.message data s handler x).2).filter P = [] :=
    fun x hx => hP x.1 hx _ _
  rw [shown_eq data handler hW hfresh hpast hstarted hrank hs, List.filter_flatMap]
  constructor
  · intro hleads
    rw [if_neg (mt (meets_outside_iff hW hpast).mp hleads)] at hcount
    exact Ways.flatMap_of_visits_eq_zero hother hcount
  · intro hleads
    rw [if_pos ((meets_outside_iff hW hpast).mpr hleads)] at hcount
    cases fuel with
    | zero => omega
    | succ f =>
      by_cases hmn : m = n
      · subst hmn
        exact ⟨.outside, trivial, iff_of_true rfl rfl,
          Ways.flatMap_of_visits_eq_one hother hcount List.mem_cons_self rfl⟩
      · obtain ⟨⟨v, o⟩, hx, hxm⟩ : ∃ x ∈ walk (ways hW hpast).next (f + 1) (n, .outside),
            x.1 = m := by
          have hpos := List.countP_pos_iff.mp (hcount.symm ▸ Nat.one_pos)
          simpa using hpos
        obtain rfl : v = m := hxm
        have hstart : T.Possible (n, .outside) := trivial
        have hpossible : T.Possible (v, o) := walk_invariant (I := T.Possible)
          (fun x y hy _ => Possible.next hW hpast hy) hstart hx
        have htail := (List.mem_cons.mp hx).resolve_left fun heq => hmn (congrArg Prod.fst heq)
        exact ⟨o, hpossible, iff_of_false (Ways.origin_ne_outside htail) hmn,
          Ways.flatMap_of_visits_eq_one hother hcount hx rfl⟩

open Classical in
/-- **Trees of hubs.** After any run of restarts, registrations, messages, and hubs that are
    suspended and resumed, a message that comes to the hub `n` from its peer `s` leads each hub
    that it can come to, by a way up and then down over hubs that are not suspended, to call every
    living peer that is registered there, once each, and not the sender; and each object above that
    is no hub is called once. No hub calls its peers twice. -/
theorem flooded (fuel : ℕ) (config : ℕ → Option (IoId × Option Target)) (acts : List Act)
    (rank : ℕ → ℕ) (M : ℕ) (hfresh : Fresh acts)
    (hrank : ∀ n t, (config n).bind Prod.snd = some t → rank t < rank n)
    (hM : ∀ n, rank n ≤ M) (hfuel : 2 * M + 1 < fuel) :
    let T := run (step fuel) (initialized config) acts
    T.Started → ∀ (n : ℕ) (data : Data) (s : IoId) (handler : Option Handler), s ∉ ids acts →
      let shown := (step fuel T (.enter n (.performIo (some data) s handler))).shown
      (∀ m h k, T.node m = some h → k ∉ ids acts →
        shown.filter (Event.toPeer m k) =
          if T.Leads n m ∧ h.suspended = false ∧ ¬ (m = n ∧ k = s) then
            (delivery m h data k).toList
          else []) ∧
      ∀ t, T.node t = none →
        (shown.filter (Event.toOutside t)).length = if T.Leads n t then 1 else 0 := by
  intro T hstarted n data s handler hs shown
  have hW : Wired config acts acts T := wired_run fuel hfresh (List.prefix_refl acts)
  constructor
  · intro m h k hm hk
    obtain ⟨hnot, hleads⟩ := filter_shown data handler hW hfresh (fun a ha => ha) hstarted hrank
      hM hfuel hs n (fun j hj => marks_toPeer_of_ne hj k)
    by_cases hl : T.Leads n m
    · obtain ⟨o, hpossible, ho, hshown⟩ := hleads hl
      have hself : k = (T.message data s handler (m, o)).2.id ↔ m = n ∧ k = s := by
        by_cases hmn : m = n
        · rw [ho.mpr hmn]
          exact ⟨fun heq => ⟨hmn, heq⟩, fun heq => heq.2⟩
        · refine iff_of_false (fun heq => hk (heq ▸ ?_)) (fun heq => hmn heq.1)
          exact id_mem_of_possible data handler hW (fun a ha => ha) hstarted hpossible
            fun heq => hmn (ho.mp heq)
      have hmessage : (T.message data s handler (m, o)).2 =
          ⟨some data, (T.message data s handler (m, o)).2.id,
            (T.message data s handler (m, o)).2.handler⟩ := by
        cases o <;> rfl
      rw [hshown, hm, hmessage, marks_toPeer hW (fun a ha => ha) hm data _ hk]
      simp only [hself]
      cases h.suspended with
      | true => simp
      | false => by_cases hmn : m = n ∧ k = s <;> simp [hl, hmn]
    · rw [hnot hl, if_neg fun hall => hl hall.1]
  · intro t ht
    obtain ⟨hnot, hleads⟩ := filter_shown data handler hW hfresh (fun a ha => ha) hstarted hrank
      hM hfuel hs n (fun j hj => marks_toOutside_of_ne hj)
    by_cases hl : T.Leads n t
    · obtain ⟨o, _, _, hshown⟩ := hleads hl
      rw [hshown, ht, if_pos hl]
      simp [marks, performIo, Event.toOutside]
    · rw [hnot hl, if_neg hl]
      rfl

/-- Two hubs, 2 and 3, with the hub 1 as their target, and that one with an object that is none. -/
def twoBelowOne : ℕ → Option (IoId × Option Target)
  | 1 => some (101, some 0)
  | 2 => some (102, some 1)
  | 3 => some (103, some 1)
  | _ => none

/-- Each hub gets a peer, and the hub 3 is restarted again. -/
def threePeers : List Act :=
  [.restart 1 201 11, .restart 2 202 12, .restart 3 203 13, .enter 1 (.regIo 7 (some 21)),
    .enter 2 (.regIo 8 (some 22)), .enter 3 (.regIo 9 (some 23)), .restart 3 204 14]

def rankBelowOne (n : ℕ) : ℕ := if n = 1 then 1 else if n = 2 ∨ n = 3 then 2 else 0

theorem fresh_threePeers : Fresh threePeers :=
  ⟨by decide, by decide, by decide, by decide⟩

theorem rank_twoBelowOne (n t : ℕ) (ht : (twoBelowOne n).bind Prod.snd = some t) :
    rankBelowOne t < rankBelowOne n := by
  match n with
  | 0 => cases ht
  | 1 =>
    cases ht
    decide
  | 2 =>
    cases ht
    decide
  | 3 =>
    cases ht
    decide
  | n + 4 => cases ht

theorem rankBelowOne_le (n : ℕ) : rankBelowOne n ≤ 2 := by
  simp only [rankBelowOne]
  split
  · omega
  · split <;> omega

theorem started_threePeers : (run (step 6) (initialized twoBelowOne) threePeers).Started := by
  intro n h hn _
  match n with
  | 0 => cases hn
  | 1 =>
    cases hn
    exact Option.some_ne_none _
  | 2 =>
    cases hn
    exact Option.some_ne_none _
  | 3 =>
    cases hn
    exact Option.some_ne_none _
  | n + 4 => cases hn

/-- The message of the peer of hub 2 comes to the other two peers, and to the object above. -/
theorem flooded_threePeers :
    (let T := run (step 6) (initialized twoBelowOne) threePeers
    let shown := (step 6 T (.enter 2 (.performIo (some [1]) 8 (some 5)))).shown
    ∀ t, T.node t = none → (shown.filter (Event.toOutside t)).length ≤ 1) ∧
      (step 6 (run (step 6) (initialized twoBelowOne) threePeers)
        (.enter 2 (.performIo (some [1]) 8 (some 5)))).shown =
        [.peer 1 7 21 ⟨some [1], 101, none⟩, .peer 3 9 23 ⟨some [1], 103, none⟩,
          .outside 0 (.performIo (some [1]) 201 (some 5))] := by
  refine ⟨fun t ht => ?_, by decide⟩
  have hall := flooded 6 twoBelowOne threePeers rankBelowOne 2 fresh_threePeers rank_twoBelowOne
    rankBelowOne_le (by decide) started_threePeers 2 [1] 8 (some 5) (by decide)
  rw [hall.2 t ht]
  split <;> omega

end HubTree

end WfcIo

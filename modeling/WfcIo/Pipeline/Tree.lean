import WfcIo.Hub.Broadcast
import WfcIo.Pipeline.Component
import WfcIo.Foundation.Walk

/-!
# Trees of hubs

A hub may be the target of other hubs. A hub registers at its target under an id of its own, with
a relay that leads back to it, so messages go from hub to hub both up and down. A restart makes a
new relay and destroys the one before; its entry at the target stays, and points to nothing.

`unreg_io` is passed on to the target by every hub that is not suspended. `reg_io` is not.

## Main definitions

- `HubTree` — the hubs, and the relays that have been made
- `HubTree.Act`, `HubTree.step` — a restart, a call of a hub or of its relay, or an event outside
- `HubTree.Wired` — what the maps of the hubs point to

## Main results

- `HubTree.wired_run` — the wiring holds in every run whose ids and relays are new
-/

namespace WfcIo

open Foundation

/-- A relay with the hub that it leads to. -/
structure Relay where
  owner : ℕ
  handler : TargetHandler
  deriving DecidableEq

namespace HubTree

/-- What leaves the hubs: the hub `n` calls the peer `p` under `k`, an object that is no hub is
    called, or the hub `n` dereferences a null pointer. -/
inductive Event
  | peer (n : ℕ) (k : IoId) (p : Source) (m : Message)
  | outside (t : ℕ) (c : SourceCall)
  | nullData (n : ℕ)
  deriving DecidableEq

/-- A restart of the hub `n`, where `create_id` gives `newId` and the new relay is the object `p`,
    a call of the hub `n` by one of its peers, a call of its relay by its target, the hub is
    suspended or resumed, or a peer is gone. -/
inductive Act
  | restart (n : ℕ) (newId : IoId) (p : Source)
  | enter (n : ℕ) (c : SourceCall)
  | relay (n : ℕ) (d : DataPtr) (id : IoId) (cb : Option Handler)
  | suspend (n : ℕ) (flag : Bool)
  | leave (p : Source)
  deriving DecidableEq

end HubTree

/-- The hubs by number, where a number without a hub is an object that is none. `owned` is the
    relay that a hub has now. -/
structure HubTree extends Network ℕ (Option Hub) HubTree.Event where
  relays : Source → Option Relay := fun _ => none
  owned : ℕ → Option Source := fun _ => none

namespace HubTree

/-! ### Calls between hubs -/

section Reactions

variable (relays : Source → Option Relay) (n : ℕ)

/-- The message that a hub sends to another one, maybe through its relay, which puts its own id in
    the place of the id. -/
def send : Hub.Outcall → Option (ℕ × Message)
  | .target t (.performIo d id handler) => some (t, ⟨d, id, handler⟩)
  | .peer _ p d _ handler => (relays p).map fun r => (r.owner, ⟨some d, r.handler.id, handler⟩)
  | _ => none

/-- What a hub does outside. -/
def leaves : Hub.Outcall → Option Event
  | .peer k p d id handler =>
    if relays p = none then some (.peer n k p ⟨some d, id, handler⟩) else none
  | .target _ _ => none
  | .nullData => some (.nullData n)

/-- The object `n` is called by `perform_io`. -/
def performIo (m : Message) : Option Hub → Reaction ℕ (Option Hub) Message Event
  | some h =>
    let h' := Hub.step h (.performIo m.d m.id m.handler)
    { state := some h'
      sends := h'.outcalls.filterMap (send relays)
      shows := h'.outcalls.filterMap (leaves relays n) }
  | none => { state := none, sends := [], shows := [.outside n (.performIo m.d m.id m.handler)] }

/-- The end of a registration that a hub passes on. -/
def sendUnreg : Hub.Outcall → Option (ℕ × IoId)
  | .target t (.unregIo id) => some (t, id)
  | _ => none

/-- The object `n` is called by `unreg_io`. -/
def unregIo (id : IoId) : Option Hub → Reaction ℕ (Option Hub) IoId Event
  | some h =>
    let h' := Hub.step h (.unregIo id)
    { state := some h', sends := h'.outcalls.filterMap sendUnreg, shows := [] }
  | none => { state := none, sends := [], shows := [.outside n (.unregIo id)] }

end Reactions

/-! ### Steps -/

/-- The hub `n` does `a`. -/
def hub (n : ℕ) (a : Hub.Act) (T : HubTree) : HubTree :=
  { T with node := Function.update T.node n ((T.node n).map (Hub.step · a)) }

/-- All hubs do `a`. -/
def all (a : Hub.Act) (T : HubTree) : HubTree :=
  { T with node := fun n => (T.node n).map (Hub.step · a) }

/-- The object `t` is told that the relay `p` is registered under `id`. -/
def tell (t : ℕ) (id : IoId) (p : Source) (T : HubTree) : HubTree :=
  match T.node t with
  | some _ => T.hub t (.regIo id (some p))
  | none => { T with shown := T.shown ++ [.outside t (.regIo id (some p))] }

/-- The hub `n` has the relay `p` with the id `newId`, and the one before is destroyed. -/
def own (n : ℕ) (newId : IoId) (p : Source) (T : HubTree) : HubTree :=
  let T' := (T.owned n).elim T fun q => T.all (.leave q)
  { T' with
    relays := Function.update T'.relays p (some ⟨n, ⟨newId⟩⟩)
    owned := Function.update T'.owned n (some p) }

variable (fuel : ℕ)

def exec (T : HubTree) : Act → HubTree
  | .restart n newId p =>
    match (T.node n).bind Hub.lockTarget with
    | some t => (own n newId p (T.hub n (.restart newId))).tell t newId p
    -- without a target nothing is made
    | none => T.hub n (.restart newId)
  | .enter n (.regIo id itf) => T.hub n (.regIo id itf)
  | .enter n (.unregIo id) => { T with toNetwork := cascade unregIo fuel (n, id) T.toNetwork }
  | .enter n (.performIo d id handler) =>
    { T with toNetwork := cascade (performIo T.relays) fuel (n, ⟨d, id, handler⟩) T.toNetwork }
  | .relay n d _ cb =>
    match (T.node n).bind Hub.targetHandler with
    | some r =>
      { T with toNetwork := cascade (performIo T.relays) fuel (n, ⟨d, r.id, cb⟩) T.toNetwork }
    | none => T
  | .suspend n flag => T.hub n (.suspend flag)
  | .leave p => T.all (.leave p)

def step (T : HubTree) (a : Act) : HubTree := exec fuel { T with shown := [] } a

/-- The hubs after `initialize`, each with what `get_id` and `get_target` give. -/
def initialized (config : ℕ → Option (IoId × Option Target)) : HubTree where
  node n := (config n).map fun c => Hub.initialized c.1 c.2

/-! ### New ids and relays -/

/-- The id that a restart takes. -/
def Act.newId : Act → Option IoId
  | .restart _ newId _ => some newId
  | _ => none

/-- The relay that a restart makes. -/
def Act.newRelay : Act → Option Source
  | .restart _ _ p => some p
  | _ => none

/-- What comes from outside uses none of the ids and of the relays. -/
def Act.Outside (ids : List IoId) (relays : List Source) : Act → Prop
  | .enter _ (.regIo id itf) => id ∉ ids ∧ ∀ p ∈ itf, p ∉ relays
  | .enter _ c => c.id ∉ ids
  | .leave p => p ∉ relays
  | _ => True

instance (ids : List IoId) (relays : List Source) : DecidablePred (Act.Outside ids relays)
  | .enter _ (.regIo id itf) => inferInstanceAs (Decidable (id ∉ ids ∧ ∀ p ∈ itf, p ∉ relays))
  | .enter _ (.unregIo id) => inferInstanceAs (Decidable (id ∉ ids))
  | .enter _ (.performIo _ id _) => inferInstanceAs (Decidable (id ∉ ids))
  | .leave p => inferInstanceAs (Decidable (p ∉ relays))
  | .restart _ _ _ => .isTrue trivial
  | .relay _ _ _ _ => .isTrue trivial
  | .suspend _ _ => .isTrue trivial

/-- The ids that the restarts of a run take. -/
def ids (acts : List Act) : List IoId := acts.filterMap Act.newId

/-- The relays that they make. -/
def made (acts : List Act) : List Source := acts.filterMap Act.newRelay

/-- `create_id` never gives an id twice, nor zero, nor one that is in use outside; and every relay
    is an object of its own. -/
structure Fresh (acts : List Act) : Prop where
  ids_nodup : (ids acts).Nodup
  made_nodup : (made acts).Nodup
  nonzero : 0 ∉ ids acts
  outside : ∀ a ∈ acts, a.Outside (ids acts) (made acts)

/-- What an entry of the map of `n` may point to: to the relay of a hub whose target is `n`, under
    the id of the relay, or to a peer from outside. -/
def Points (acts : List Act) (T : HubTree) (n : ℕ) (k : IoId) (p : Source) : Prop :=
  (∃ r h, T.relays p = some r ∧ k = r.handler.id ∧ T.node r.owner = some h ∧ h.wtarget = some n) ∨
    k ∉ ids acts ∧ p ∉ made acts

/-- What the hubs and their maps point to, after `past`, in a run of `acts`: a relay has the id
    that the restart gave it that made it; it is the one that its hub has now, or it is gone; and
    a hub that has a relay has the id of one. -/
structure Wired (config : ℕ → Option (IoId × Option Target)) (acts past : List Act) (T : HubTree) :
    Prop where
  targets : ∀ n, (T.node n).map Hub.wtarget = (config n).map Prod.snd
  relay : ∀ p r, T.relays p = some r → .restart r.owner r.handler.id p ∈ past
  current : ∀ p r, T.relays p = some r →
    (T.owned r.owner = some p ∧ ∃ h, T.node r.owner = some h ∧ h.handlerId = r.handler.id) ∨
      ∀ n h, T.node n = some h → p ∈ h.gone
  taken : ∀ n h, T.node n = some h → h.targetHandler ≠ none →
    ∃ p, T.relays p = some ⟨n, ⟨h.handlerId⟩⟩
  entry : ∀ n h, T.node n = some h → ∀ k p, h.map.find k = some (some p) → Points acts T n k p

/-- A hub after something that leaves its id alone, with entries that it had, or such as `ok`. -/
structure Follows (ok : IoId → Source → Prop) (h h' : Hub) : Prop where
  handlerId : h'.handlerId = h.handlerId
  targetHandler : h'.targetHandler = h.targetHandler
  wtarget : h'.wtarget = h.wtarget
  gone : ∀ p ∈ h.gone, p ∈ h'.gone
  entry : ∀ k p, h'.map.find k = some (some p) → h.map.find k = some (some p) ∨ ok k p

namespace Follows

variable {ok : IoId → Source → Prop} {h h' h'' : Hub}

theorem refl (h : Hub) : Follows ok h h := ⟨rfl, rfl, rfl, fun _ hp => hp, fun _ _ hk => Or.inl hk⟩

theorem trans (hf : Follows ok h h') (hf' : Follows ok h' h'') : Follows ok h h'' where
  handlerId := hf'.handlerId.trans hf.handlerId
  targetHandler := hf'.targetHandler.trans hf.targetHandler
  wtarget := hf'.wtarget.trans hf.wtarget
  gone p hp := hf'.gone p (hf.gone p hp)
  entry k p hk := by
    obtain hk | hk := hf'.entry k p hk
    · exact hf.entry k p hk
    · exact Or.inr hk

/-- A message changes nothing of the hub. -/
theorem of_outcalls {outcalls : List Hub.Outcall} (heq : h' = { h with outcalls }) :
    Follows ok h h' := by
  subst heq
  exact ⟨rfl, rfl, rfl, fun _ hp => hp, fun _ _ hk => Or.inl hk⟩

theorem performIo (d : DataPtr) (id : IoId) (handler : Option Handler) (h : Hub) :
    Follows ok h (Hub.step h (.performIo d id handler)) := by
  obtain ⟨outcalls, heq⟩ := Hub.performIo_spec d id handler h.quiet
  exact of_outcalls heq

theorem unregIo (id : IoId) (h : Hub) : Follows ok h (Hub.step h (.unregIo id)) := by
  have hmap : ∀ k p, (Hub.step h (.unregIo id)).map.find k = some (some p) →
      h.map.find k = some (some p) := by
    intro k p hk
    rw [Hub.step_map] at hk
    split at hk
    · exact hk
    · rw [Hub.Act.change, OrderedMap.find_erase] at hk
      split at hk
      · cases hk
      · exact hk
  simp only [Hub.step, Hub.exec, Hub.unregIo_eq] at hmap ⊢
  split
  · exact ⟨rfl, rfl, rfl, fun _ hp => hp, fun _ _ hk => Or.inl hk⟩
  · next hs =>
    rw [if_neg hs] at hmap
    exact ⟨rfl, rfl, rfl, fun _ hp => hp, fun k p hk => Or.inl (hmap k p hk)⟩

theorem regIo {id : IoId} {itf : Option Source} (hok : ∀ p ∈ itf, ok id p) (h : Hub) :
    Follows ok h (Hub.step h (.regIo id itf)) := by
  simp only [Hub.step, Hub.exec, Hub.regIo]
  split
  · exact ⟨rfl, rfl, rfl, fun _ hp => hp, fun _ _ hk => Or.inl hk⟩
  · refine ⟨rfl, rfl, rfl, fun _ hp => hp, fun k p hk => ?_⟩
    rw [OrderedMap.find_assign] at hk
    split at hk
    · next heq =>
      obtain rfl := heq
      exact Or.inr (hok p (Option.some.inj hk))
    · exact Or.inl hk

theorem suspend (flag : Bool) (h : Hub) : Follows ok h (Hub.step h (.suspend flag)) :=
  ⟨rfl, rfl, rfl, fun _ hp => hp, fun _ _ hk => Or.inl hk⟩

theorem leave (p : Source) (h : Hub) : Follows ok h (Hub.step h (.leave p)) :=
  ⟨rfl, rfl, rfl, fun _ hq => List.mem_append_left _ hq, fun _ _ hk => Or.inl hk⟩

end Follows

section Rel

variable {r : Hub → Hub → Prop} {x y : Option Hub}

theorem exists_of_rel_left (h : Option.Rel r x y) {k : Hub} (hx : x = some k) :
    ∃ k', y = some k' ∧ r k k' := by
  cases h with
  | none => cases hx
  | some hr =>
    cases hx
    exact ⟨_, rfl, hr⟩

theorem exists_of_rel_right (h : Option.Rel r x y) {k' : Hub} (hy : y = some k') :
    ∃ k, x = some k ∧ r k k' := by
  cases h with
  | none => cases hy
  | some hr =>
    cases hy
    exact ⟨_, rfl, hr⟩

theorem map_eq_of_rel {β : Type} {f : Hub → β} (h : Option.Rel r x y)
    (hf : ∀ k k', r k k' → f k' = f k) : y.map f = x.map f := by
  cases h with
  | none => rfl
  | some hr => exact congrArg some (hf _ _ hr)

end Rel

/-- All hubs of `T'` follow those of `T`. -/
def Goes (ok : ℕ → IoId → Source → Prop) (node node' : ℕ → Option Hub) : Prop :=
  ∀ n, Option.Rel (Follows (ok n)) (node n) (node' n)

variable {config : ℕ → Option (IoId × Option Target)} {acts past : List Act} {T T' : HubTree}
  {ok : ℕ → IoId → Source → Prop}
  {node node' node'' : ℕ → Option Hub}

namespace Goes

theorem refl (node : ℕ → Option Hub) : Goes ok node node := by
  intro n
  cases node n with
  | none => exact .none
  | some h => exact .some (.refl h)

theorem trans (h : Goes ok node node') (h' : Goes ok node' node'') : Goes ok node node'' := by
  intro n
  have hn := h n
  have hn' := h' n
  generalize node n = x at hn
  generalize node' n = y at hn hn'
  generalize node'' n = z at hn'
  cases hn with
  | none =>
    cases hn'
    exact .none
  | some hxy =>
    cases hn' with
    | some hyz => exact .some (hxy.trans hyz)

/-- One hub goes on. -/
theorem update {n : ℕ} {f : Hub → Hub} (hf : ∀ h, node n = some h → Follows (ok n) h (f h)) :
    Goes ok node (Function.update node n ((node n).map f)) := by
  intro m
  by_cases hm : m = n
  · subst hm
    rw [Function.update_self]
    cases hx : node m with
    | none => exact .none
    | some h => exact .some (hf h hx)
  · rw [Function.update_of_ne hm]
    exact refl node m

/-- All hubs go on. -/
theorem map {f : Hub → Hub} (hf : ∀ n h, Follows (ok n) h (f h)) :
    Goes ok node (fun n => (node n).map f) := by
  intro n
  simp only
  cases node n with
  | none => exact .none
  | some h => exact .some (hf n h)

/-- Where a hub is now, there was one. -/
theorem exists_before (h : Goes ok node node') {n : ℕ} {k' : Hub} (hn : node' n = some k') :
    ∃ k, node n = some k ∧ Follows (ok n) k k' := exists_of_rel_right (h n) hn

theorem exists_after (h : Goes ok node node') {n : ℕ} {k : Hub} (hn : node n = some k) :
    ∃ k', node' n = some k' ∧ Follows (ok n) k k' := exists_of_rel_left (h n) hn

end Goes

/-- Entries point to the same things where the hubs follow. -/
theorem Points.goes {n : ℕ} {k : IoId} {p : Source} (h : Points acts T n k p)
    (hrelays : T'.relays = T.relays) (hgoes : Goes ok T.node T'.node) : Points acts T' n k p := by
  obtain ⟨r, h, hr, hk, hnode, htarget⟩ | hout := h
  · obtain ⟨h', hnode', hfollows⟩ := hgoes.exists_after hnode
    exact Or.inl ⟨r, h', hrelays ▸ hr, hk, hnode', hfollows.wtarget.trans htarget⟩
  · exact Or.inr hout

/-- **The wiring stays** where the hubs follow, with new entries that point to what they may. -/
theorem Wired.goes (h : Wired config acts past T) (hrelays : T'.relays = T.relays)
    (howned : T'.owned = T.owned) (hgoes : Goes (Points acts T) T.node T'.node) :
    Wired config acts past T' where
  targets n := (map_eq_of_rel (hgoes n) fun _ _ hfollows => hfollows.wtarget).trans (h.targets n)
  relay p r hr := h.relay p r (hrelays ▸ hr)
  current p r hr := by
    rw [hrelays] at hr
    obtain ⟨hown, k, hk, hid⟩ | hgone := h.current p r hr
    · obtain ⟨k', hk', hfollows⟩ := hgoes.exists_after hk
      exact Or.inl ⟨howned ▸ hown, k', hk', hfollows.handlerId.trans hid⟩
    · refine Or.inr fun n k' hk' => ?_
      obtain ⟨k, hk, hfollows⟩ := hgoes.exists_before hk'
      exact hfollows.gone p (hgone n k hk)
  taken n k' hk' hrelay := by
    obtain ⟨k, hk, hfollows⟩ := hgoes.exists_before hk'
    rw [hfollows.targetHandler] at hrelay
    rw [hfollows.handlerId, hrelays]
    exact h.taken n k hk hrelay
  entry n k' hk' i p hi := by
    obtain ⟨k, hk, hfollows⟩ := hgoes.exists_before hk'
    obtain hi | hpoints := hfollows.entry i p hi
    · exact (h.entry n k hk i p hi).goes hrelays hgoes
    · exact hpoints.goes hrelays hgoes

/-! ### One step -/

/-- Calls from hub to hub, each of which a hub follows. -/
theorem cascade_goes {μ : Type} {react : ℕ → μ → Option Hub → Reaction ℕ (Option Hub) μ Event}
    (hreact : ∀ n m x, Option.Rel (Follows (ok n)) x (react n m x).state) (f : ℕ) (c : ℕ × μ)
    (N : Network ℕ (Option Hub) Event) : Goes ok N.node (cascade react f c N).node := by
  refine cascade_invariant (Q := fun N' => Goes ok N.node N'.node) (I := fun _ => True)
    (fun c' N' _ hN' => ⟨?_, fun _ _ => trivial⟩) trivial (.refl N.node)
  refine hN'.trans fun m => ?_
  simp only [Network.deliver]
  by_cases hm : m = c'.1
  · subst hm
    rw [Function.update_self]
    exact hreact _ _ _
  · rw [Function.update_of_ne hm]
    exact (Goes.refl N'.node : Goes ok N'.node N'.node) m

theorem performIo_goes (relays : Source → Option Relay) (n : ℕ) (m : Message) (x : Option Hub) :
    Option.Rel (Follows (ok n)) x (performIo relays n m x).state := by
  cases x with
  | none => exact .none
  | some h => exact .some (.performIo m.d m.id m.handler h)

theorem unregIo_goes (n : ℕ) (id : IoId) (x : Option Hub) :
    Option.Rel (Follows (ok n)) x (unregIo n id x).state := by
  cases x with
  | none => exact .none
  | some h => exact .some (.unregIo id h)

theorem Wired.mono {past' : List Act} (h : Wired config acts past T)
    (hpast : ∀ a ∈ past, a ∈ past') :
    Wired config acts past' T :=
  ⟨h.targets, fun p r hr => hpast _ (h.relay p r hr), h.current, h.taken, h.entry⟩

/-- A new relay was not there before. -/
theorem Wired.ne_of_new {p q : Source} {r : Relay} (h : Wired config acts past T)
    (hnew : p ∉ made past) (hr : T.relays q = some r) : q ≠ p := by
  rintro rfl
  exact hnew (List.mem_filterMap.mpr ⟨_, h.relay q r hr, rfl⟩)

/-- The relays are those from before, and a new one. -/
theorem Wired.relays_of_update {p : Source} {r : Relay} (h : Wired config acts past T)
    (hnew : p ∉ made past) (hrelays : T'.relays = Function.update T.relays p (some r)) :
    (∀ q r', T.relays q = some r' → T'.relays q = some r') ∧
      ∀ q r', T'.relays q = some r' → q = p ∧ r' = r ∨ T.relays q = some r' := by
  refine ⟨fun q r' hr' => ?_, fun q r' hr' => ?_⟩
  · rw [hrelays, Function.update_of_ne (h.ne_of_new hnew hr')]
    exact hr'
  · rw [hrelays] at hr'
    by_cases hq : q = p
    · rw [hq, Function.update_self] at hr'
      exact Or.inl ⟨hq, (Option.some.inj hr').symm⟩
    · rw [Function.update_of_ne hq] at hr'
      exact Or.inr hr'

/-- What a restart with a target makes of the hub. -/
theorem restart_eq {h : Hub} {t : Target} (ht : h.lockTarget = some t) (newId : IoId) :
    ∃ outcalls, Hub.step h (.restart newId) =
      { h with handlerId := newId, targetHandler := some ⟨newId⟩, outcalls } := by
  have ht' : h.quiet.lockTarget = some t := ht
  simp only [Hub.step, Hub.exec, Hub.restart, ht']
  exact ⟨_, rfl⟩

theorem restart_of_none {h : Hub} (ht : h.lockTarget = none) (newId : IoId) :
    Hub.step h (.restart newId) = h.quiet := by
  have ht' : h.quiet.lockTarget = none := ht
  simp only [Hub.step, Hub.exec, Hub.restart, ht']

/-- The other hubs follow when the hub `n` gets a new relay, and all lose the one before. -/
theorem own_node (ok : ℕ → IoId → Source → Prop) (n : ℕ) (newId : IoId) (p : Source)
    (T : HubTree) :
    Goes ok T.node (own n newId p T).node ∧
      ∀ q ∈ T.owned n, ∀ m h, (own n newId p T).node m = some h → q ∈ h.gone := by
  simp only [own]
  cases T.owned n with
  | none => exact ⟨.refl T.node, fun q hq => (by cases hq)⟩
  | some q =>
    refine ⟨.map fun _ h => .leave q h, ?_⟩
    rintro _ ⟨⟩ m h hm
    obtain ⟨k, _, rfl⟩ := Option.map_eq_some_iff.mp hm
    exact List.mem_append_right _ List.mem_cons_self

theorem own_relays (n : ℕ) (newId : IoId) (p : Source) (T : HubTree) :
    (own n newId p T).relays = Function.update T.relays p (some ⟨n, ⟨newId⟩⟩) ∧
      (own n newId p T).owned = Function.update T.owned n (some p) := by
  simp only [own]
  cases T.owned n with
  | none => exact ⟨rfl, rfl⟩
  | some q => exact ⟨rfl, rfl⟩

/-- Apart from the id of `n`, a hub is as it was before `n` got a new relay. -/
structure Renamed (n m : ℕ) (newId : IoId) (h h' : Hub) : Prop where
  wtarget : h'.wtarget = h.wtarget
  gone : ∀ q ∈ h.gone, q ∈ h'.gone
  entry : ∀ k q, h'.map.find k = some (some q) → h.map.find k = some (some q)
  other : m ≠ n → h'.handlerId = h.handlerId ∧ h'.targetHandler = h.targetHandler
  self : m = n → h'.handlerId = newId

theorem own_renamed {n : ℕ} (newId : IoId) (p : Source) {h : Hub} {t : Target}
    (hn : T.node n = some h) (ht : h.lockTarget = some t) (m : ℕ) :
    Option.Rel (Renamed n m newId) (T.node m)
      ((own n newId p (T.hub n (.restart newId))).node m) := by
  obtain ⟨outcalls, hrestart⟩ := restart_eq ht newId
  obtain ⟨hgoes, _⟩ := own_node (fun _ _ _ => False) n newId p (T.hub n (.restart newId))
  have hrel := hgoes m
  generalize (own n newId p (T.hub n (.restart newId))).node m = y at hrel
  by_cases hm : m = n
  · subst hm
    simp only [hub, Function.update_self, hn, Option.map_some, hrestart] at hrel
    rw [hn]
    cases hrel with
    | some hf =>
      exact .some ⟨hf.wtarget, hf.gone, fun k q hk => (hf.entry k q hk).resolve_right id,
        fun hne => absurd rfl hne, fun _ => hf.handlerId⟩
  · simp only [hub, Function.update_of_ne hm] at hrel
    generalize T.node m = x at hrel
    cases hrel with
    | none => exact .none
    | some hf =>
      exact .some ⟨hf.wtarget, hf.gone, fun k q hk => (hf.entry k q hk).resolve_right id,
        fun _ => ⟨hf.handlerId, hf.targetHandler⟩, fun heq => absurd heq hm⟩

/-- **A new relay.** The hub `n` has taken the id `newId`, and has a new relay with it. -/
theorem Wired.own {n : ℕ} (newId : IoId) {p : Source} {h : Hub} {t : Target}
    (hW : Wired config acts past T) (hn : T.node n = some h) (ht : h.lockTarget = some t)
    (hnew : p ∉ made past) :
    Wired config acts (past ++ [.restart n newId p])
      (own n newId p (T.hub n (.restart newId))) := by
  obtain ⟨hrelays, howned⟩ := own_relays n newId p (T.hub n (.restart newId))
  obtain ⟨_, hlost⟩ := own_node (fun _ _ _ => False) n newId p (T.hub n (.restart newId))
  have hbefore := own_renamed newId p hn ht
  generalize HubTree.own n newId p (T.hub n (.restart newId)) = T' at hrelays howned hlost hbefore
  obtain ⟨hkeep, hold⟩ := hW.relays_of_update hnew hrelays
  have hlast : ∀ m k', T'.node m = some k' → ∃ k, T.node m = some k ∧ Renamed n m newId k k' :=
    fun m _ hk' => exists_of_rel_right (hbefore m) hk'
  have hnext : ∀ m k, T.node m = some k → ∃ k', T'.node m = some k' ∧ Renamed n m newId k k' :=
    fun m _ hk => exists_of_rel_left (hbefore m) hk
  have hgone : ∀ q, (∀ m k, T.node m = some k → q ∈ k.gone) →
      ∀ m k', T'.node m = some k' → q ∈ k'.gone := by
    intro q hq m k' hk'
    obtain ⟨k, hk, hren⟩ := hlast m k' hk'
    exact hren.gone q (hq m k hk)
  refine ⟨fun m => ?_, fun q r hr => ?_, fun q r hr => ?_, fun m k' hk' hrelay => ?_,
    fun m k' hk' i q hi => ?_⟩
  · exact (map_eq_of_rel (hbefore m) fun _ _ hren => hren.wtarget).trans (hW.targets m)
  · obtain ⟨rfl, rfl⟩ | hr := hold q r hr
    · exact List.mem_append_right _ List.mem_cons_self
    · exact List.mem_append_left _ (hW.relay q r hr)
  · obtain ⟨rfl, rfl⟩ | hr := hold q r hr
    · obtain ⟨h', hh', hren⟩ := hnext n h hn
      exact Or.inl ⟨by rw [howned, Function.update_self], h', hh', hren.self rfl⟩
    · obtain ⟨hown, k, hk, hid⟩ | hlost' := hW.current q r hr
      · by_cases hr' : r.owner = n
        · -- the relay that `n` had is destroyed
          rw [hr'] at hown
          exact Or.inr (hlost q hown)
        · obtain ⟨k', hk', hren⟩ := hnext r.owner k hk
          refine Or.inl ⟨?_, k', hk', (hren.other hr').1.trans hid⟩
          rw [howned, Function.update_of_ne hr']
          exact hown
      · exact Or.inr (hgone q hlost')
  · obtain ⟨k, hk, hren⟩ := hlast m k' hk'
    by_cases hm : m = n
    · refine ⟨p, ?_⟩
      rw [hrelays, Function.update_self, hren.self hm, hm]
    · obtain ⟨hid, hhandler⟩ := hren.other hm
      rw [hhandler] at hrelay
      obtain ⟨q, hq⟩ := hW.taken m k hk hrelay
      exact ⟨q, hid ▸ hkeep q _ hq⟩
  · obtain ⟨k, hk, hren⟩ := hlast m k' hk'
    obtain ⟨r, j, hr, hir, hj, htarget⟩ | hout := hW.entry m k hk i q (hren.entry i q hi)
    · obtain ⟨j', hj', hren'⟩ := hnext r.owner j hj
      exact Or.inl ⟨r, j', hkeep q r hr, hir, hj', hren'.wtarget.trans htarget⟩
    · exact Or.inr hout

/-- The new relay is one that the target may have under the new id. -/
theorem points_own {n : ℕ} (newId : IoId) (p : Source) {h : Hub} {t : Target}
    (hn : T.node n = some h) (ht : h.lockTarget = some t) :
    Points acts (own n newId p (T.hub n (.restart newId))) t newId p := by
  obtain ⟨hrelays, _⟩ := own_relays n newId p (T.hub n (.restart newId))
  have hrel := own_renamed newId p hn ht n
  rw [hn] at hrel
  cases hnode : (own n newId p (T.hub n (.restart newId))).node n with
  | none =>
    rw [hnode] at hrel
    cases hrel
  | some h' =>
    rw [hnode] at hrel
    cases hrel with
    | some hren =>
      have htarget : h.wtarget = some t := (Option.filter_eq_some_iff.mp ht).1
      refine Or.inl ⟨⟨n, ⟨newId⟩⟩, h', ?_, rfl, hnode, hren.wtarget.trans htarget⟩
      rw [hrelays, Function.update_self]

/-- The target of a hub is told of its new relay. -/
theorem Wired.tell {t : ℕ} {newId : IoId} {p : Source} (hW : Wired config acts past T)
    (hpoints : Points acts T t newId p) : Wired config acts past (T.tell t newId p) := by
  simp only [HubTree.tell]
  split
  · refine hW.goes rfl rfl (Goes.update fun h _ => Follows.regIo (fun q hq => ?_) h)
    cases hq
    exact hpoints
  · exact hW.goes rfl rfl (.refl T.node)

/-- What a call from outside registers is from outside. -/
theorem points_of_outside {n : ℕ} {id : IoId} {itf : Option Source}
    (hout : (Act.enter n (.regIo id itf)).Outside (ids acts) (made acts)) (p : Source)
    (hp : p ∈ itf) : Points acts T n id p := Or.inr ⟨hout.1, hout.2 p hp⟩

/-- **The wiring of a step.** -/
theorem Wired.step (fuel : ℕ) {a : Act} (hW : Wired config acts past T)
    (hout : a.Outside (ids acts) (made acts))
    (hnew : ∀ p ∈ a.newRelay, p ∉ made past) :
    Wired config acts (past ++ [a]) (T.step fuel a) := by
  have hpast : ∀ b ∈ past, b ∈ past ++ [a] := fun b hb => List.mem_append_left _ hb
  have hgoes : ∀ T' : HubTree, T'.relays = T.relays → T'.owned = T.owned →
      Goes (Points acts T) T.node T'.node → Wired config acts (past ++ [a]) T' :=
    fun T' hrelays howned h => (hW.goes hrelays howned h).mono hpast
  cases a with
  | restart n newId p =>
    have hW' : Wired config acts past { T with shown := [] } := hW.goes rfl rfl (.refl T.node)
    simp only [HubTree.step, exec]
    split
    · next t ht =>
      obtain ⟨h, hn, ht⟩ := Option.bind_eq_some_iff.mp ht
      exact (hW'.own newId hn ht (hnew p rfl)).tell (points_own newId p hn ht)
    · next hnone =>
      refine hgoes _ rfl rfl (.update fun h hn => ?_)
      have ht : h.lockTarget = none := Option.bind_eq_none_iff.mp hnone h hn
      rw [restart_of_none ht]
      exact .of_outcalls rfl
  | enter n c =>
    cases c with
    | regIo id itf =>
      exact hgoes _ rfl rfl (.update fun h _ => .regIo (points_of_outside hout) h)
    | unregIo id => exact hgoes _ rfl rfl (cascade_goes unregIo_goes fuel (n, id) ⟨T.node, []⟩)
    | performIo d id handler =>
      exact hgoes _ rfl rfl
        (cascade_goes (performIo_goes T.relays) fuel (n, ⟨d, id, handler⟩) ⟨T.node, []⟩)
  | relay n d id cb =>
    simp only [HubTree.step, exec]
    split
    · next r _ =>
      exact hgoes _ rfl rfl
        (cascade_goes (performIo_goes T.relays) fuel (n, ⟨d, r.id, cb⟩) ⟨T.node, []⟩)
    · exact hgoes _ rfl rfl (.refl T.node)
  | suspend n flag => exact hgoes _ rfl rfl (.update fun h _ => .suspend flag h)
  | leave p => exact hgoes _ rfl rfl (.map fun _ h => .leave p h)

/-! ### Runs -/

theorem wired_initialized (acts : List Act) (config : ℕ → Option (IoId × Option Target)) :
    Wired config acts [] (initialized config) := by
  refine ⟨fun n => ?_, fun p r hr => ?_, fun p r hr => ?_, fun n h hn hrelay => ?_,
    fun n h hn k p hk => ?_⟩
  · simp only [initialized, Option.map_map]
    rfl
  · cases hr
  · cases hr
  · obtain ⟨c, _, rfl⟩ := Option.map_eq_some_iff.mp hn
    exact absurd rfl hrelay
  · obtain ⟨c, _, rfl⟩ := Option.map_eq_some_iff.mp hn
    cases hk

/-- **The wiring of a run.** -/
theorem wired_run (fuel : ℕ) (hfresh : Fresh acts) (hpast : past <+: acts) :
    Wired config acts past (run (step fuel) (initialized config) past) := by
  induction past using List.reverseRecOn with
  | nil => exact wired_initialized acts config
  | append_singleton past a ih =>
    have hmem : a ∈ acts := hpast.subset (List.mem_append_right _ List.mem_cons_self)
    rw [run_concat]
    refine (ih ((List.prefix_append past [a]).trans hpast)).step fuel (hfresh.outside a hmem) ?_
    intro p hp hmade
    have hnodup : (made (past ++ [a])).Nodup := by
      obtain ⟨post, rfl⟩ := hpast
      have hall := hfresh.made_nodup
      rw [made, List.filterMap_append] at hall
      exact (List.nodup_append.mp hall).1
    rw [made, List.filterMap_append] at hnodup
    refine (List.nodup_append.mp hnodup).2.2 p hmade p ?_ rfl
    exact List.mem_filterMap.mpr ⟨a, List.mem_singleton_self a, hp⟩

end HubTree

end WfcIo

import WfcIo.Pipeline.Gateway
import WfcIo.Pipeline.Order
import WfcIo.Client.Tenants

/-!
# Data of one connection

Whatever a line does with calls, each call that comes out of it has come in at its entry, with the
same source, id and data, and with a handler that leads to the one it had there. In a gateway whose
client keeps no secondary pool an adapter serves one connection in its life. So the data that come
in from a connection are sent by adapters of this connection only, and what comes in at an adapter
goes to its connection only.

## Main definitions

- `stamp` — what of a call stays the same on its way
- `Line.From` — where everything in a line has come from
- `Gateway.Confined` — the data are those of one connection

## Main results

- `Line.events_from` — the calls of a line have come in at its entry
- `Gateway.confined` — no data of a connection get to another
-/

namespace WfcIo

open Foundation

/-- The call, with where its handler leads in place of the handler. -/
def stamp (root : Option Handler → Option Handler) : SourceCall → SourceCall
  | .regIo id itf => .regIo id itf
  | .unregIo id => .unregIo id
  | .performIo d id handler => .performIo d id (root handler)

/-- The message as a call. -/
def stampMessage (root : Option Handler → Option Handler) (m : Message) : SourceCall :=
  .performIo m.d m.id (root m.handler)

variable {root : Option Handler → Option Handler} {names : Names} {O : SourceCall → Prop}

/-- The goods of a call say all that is kept of a message. -/
theorem stamp_of_goods {c : SourceCall} {m : Message} (huses : c.uses ≠ none)
    (h : goods root (fun _ => true) c ⊆ [parcel root m]) : stamp root c = stampMessage root m := by
  cases c with
  | regIo id itf => exact absurd rfl huses
  | unregIo id => exact absurd rfl huses
  | performIo d id handler =>
    have hmem := List.mem_singleton.mp (h (List.mem_singleton_self _))
    simp only [parcel, Prod.mk.injEq] at hmem
    obtain ⟨rfl, rfl, hroot⟩ := hmem
    rw [stamp, hroot, stampMessage]

namespace Stage

variable {n : ℕ} {c : SourceCall} {k : Stage}

/-- A word about a registration goes to the target of the statistics as it is. -/
theorem statistics_told {s : Statistics} (hc : c.uses = none) :
    (s.call c).outcalls.filterMap (statisticsSend names n) =
      s.lockTarget.toList.map fun t => (t, c) := by
  cases c with
  | performIo d id handler => cases hc
  | regIo id itf =>
    rw [Statistics.call, Statistics.regIo, callTarget_outcalls]
    cases s.lockTarget <;> rfl
  | unregIo id =>
    rw [Statistics.call, Statistics.unregIo, callTarget_outcalls]
    cases s.lockTarget <;> rfl

/-- A word about a registration is passed on as it is. -/
theorem eq_of_mem_sends (hc : c.uses = none) {c' : ℕ × SourceCall}
    (h : c' ∈ (call names n c k).sends) : c'.2 = c := by
  cases k with
  | broker b =>
    have hmem : c' ∈ (Broker.step b (.call c)).calls := h
    rw [Broker.step_call_calls] at hmem
    obtain ⟨t, _, rfl⟩ := List.mem_map.mp hmem
    rfl
  | statistics s =>
    have hmem : c' ∈ (s.call c).outcalls.filterMap (statisticsSend names n) := h
    rw [statistics_told hc] at hmem
    obtain ⟨t, _, rfl⟩ := List.mem_map.mp hmem
    rfl
  | queue q =>
    have hno : ∀ d id handler, c ≠ .performIo d id handler := by
      rintro d id handler rfl
      cases hc
    have hmem : c' ∈ (Queue.step q (.ofCall c)).calls ++
      (Queue.step q (.ofCall c)).outcomes.filterMap (queueSend names n) := h
    rw [(queue_told c q hno).1, (queue_told c q hno).2, List.filterMap_nil,
      List.append_nil] at hmem
    obtain ⟨t, _, rfl⟩ := List.mem_map.mp hmem
    rfl
  | leaf => cases h

/-- What is passed on is the same call, but for its handler. -/
theorem stamp_of_mem_sends (hrooted : Rooted names root) {c' : ℕ × SourceCall}
    (h : c' ∈ (call names n c k).sends) : stamp root c'.2 = stamp root c := by
  cases huses : c.uses with
  | none => rw [eq_of_mem_sends huses h]
  | some id =>
    have huses' : c'.2.uses ≠ none := by
      rw [← uses_sketch, (mem_sends h).2, uses_sketch, huses]
      exact Option.some_ne_none id
    cases c with
    | regIo id itf => cases huses
    | unregIo id => cases huses
    | performIo d id handler =>
      have hgoods := goods_of_mem_sends (P := fun _ => true) hrooted h
      refine stamp_of_goods (m := ⟨d, id, handler⟩) huses' fun x hx => ?_
      rw [hgoods] at hx
      exact hx

/-- The call that is shown is the one that is made. -/
theorem eq_of_called {j : ℕ} {c' : SourceCall} (h : .called j c' ∈ (call names n c k).shows) :
    c' = c := by
  have hunsent : ∀ sends, Event.called j c' ∉ unsent n sends c := by
    intro sends hmem
    cases c with
    | performIo d id handler =>
      simp only [unsent] at hmem
      split at hmem
      · cases List.mem_singleton.mp hmem
      · cases hmem
    | regIo id itf => cases hmem
    | unregIo id => cases hmem
  have hatOnce : ∀ q, Event.called j c' ∉ atOnce n q c := by
    intro q hmem
    cases c with
    | performIo d id handler =>
      simp only [atOnce] at hmem
      split at hmem
      · obtain ⟨e, _, he⟩ := List.mem_map.mp hmem
        cases he
      · cases List.mem_singleton.mp hmem
    | regIo id itf => cases hmem
    | unregIo id => cases hmem
  have htaken : Event.called j c' ∉ taken n c := by
    intro hmem
    cases c with
    | performIo d id handler => cases List.mem_singleton.mp hmem
    | regIo id itf => cases hmem
    | unregIo id => cases hmem
  have hhead : ∀ l, Event.called j c' ∉ l → Event.called j c' ∈ Event.called n c :: l → c' = c := by
    intro l hl hmem
    obtain heq | hmem := List.mem_cons.mp hmem
    · cases heq
      rfl
    · exact absurd hmem hl
  cases k with
  | broker b => exact hhead _ (hunsent _) h
  | statistics s => exact hhead _ (hunsent _) h
  | queue q => exact hhead _ (hatOnce q) h
  | leaf => exact hhead _ htaken h

/-- What waits after a call has waited before, or is the message of the call. -/
theorem post_call (root : Option Handler → Option Handler) {i : ℕ} {post : Queue.Task}
    (h : (call names n c k).state.post i = some post) :
    (∃ j, k.post j = some post) ∨ stamp root c = stampMessage root post.request := by
  cases k with
  | queue q =>
    have hmem : post ∈ (Queue.step q (.ofCall c)).pending := List.mem_of_getElem? h
    have hold : post ∈ q.pending → ∃ j, Stage.post j (.queue q) = some post :=
      fun hmem => List.mem_iff_getElem?.mp hmem
    cases huses : c.uses with
    | none =>
      rw [queue_held_of_uses huses] at hmem
      exact Or.inl (hold hmem)
    | some id =>
      cases c with
      | regIo id itf => cases huses
      | unregIo id => cases huses
      | performIo d id handler =>
        obtain ⟨hpending, _⟩ | ⟨_, hpending, _⟩ := queue_makes_wait names n ⟨d, id, handler⟩ q
        · exact Or.inl (hold (hpending ▸ hmem))
        · have hmem' : post ∈ q.pending ++ [⟨q.given, ⟨d, id, handler⟩⟩] := hpending ▸ hmem
          obtain hmem' | hmem' := List.mem_append.mp hmem'
          · exact Or.inl (hold hmem')
          · rw [List.mem_singleton.mp hmem']
            exact Or.inr rfl
  | broker b => cases h
  | statistics s => cases h
  | leaf => cases h

end Stage

namespace Line

variable {rank : ℕ → ℕ} {p : Line} {a : Act}

/-- Everything that waits in a queue has come from `O`, and so has every call that is shown. -/
structure From (root : Option Handler → Option Handler) (O : SourceCall → Prop) (p : Line) :
    Prop where
  waits : ∀ {n i post}, (p.node n).post i = some post → O (stampMessage root post.request)
  called : ∀ {n c}, .called n c ∈ p.shown → O (stamp root c)

/-- A stage gets another state, with no more waiting. -/
theorem From.update (h : From root O p) {n : ℕ} {k : Stage}
    (hk : ∀ {i post}, k.post i = some post → ∃ j, (p.node n).post j = some post)
    {shown : List Event} (hshown : ∀ {j c}, .called j c ∈ shown → .called j c ∈ p.shown) :
    From root O { node := Function.update p.node n k, shown } := by
  refine ⟨fun {j i post} hpost => ?_, fun hc => h.called (hshown hc)⟩
  have hpost' : (Function.update p.node n k j).post i = some post := hpost
  by_cases hj : j = n
  · rw [hj, Function.update_self] at hpost'
    obtain ⟨i', hi'⟩ := hk hpost'
    exact h.waits hi'
  · rw [Function.update_of_ne hj] at hpost'
    exact h.waits hpost'

/-- **One call.** What comes from a call has come from where the call has. -/
theorem From.call (hrooted : Rooted names root) (h : From root O p) {c : ℕ × SourceCall}
    (hc : O (stamp root c.2)) : From root O (p.call names rank c) := by
  refine cascade_invariant (Q := From root O) (I := fun c => O (stamp root c.2))
    (fun c N hc hN => ⟨⟨fun {j i post} hpost => ?_, fun {j c'} hc' => ?_⟩, fun c' hc' => ?_⟩) hc h
  · have hpost' : (Function.update N.node c.1
        (Stage.call names c.1 c.2 (N.node c.1)).state j).post i = some post := hpost
    by_cases hj : j = c.1
    · rw [hj, Function.update_self] at hpost'
      obtain ⟨i', hi'⟩ | hnew := Stage.post_call root hpost'
      · exact hN.waits hi'
      · rw [← hnew]
        exact hc
    · rw [Function.update_of_ne hj] at hpost'
      exact hN.waits hpost'
  · obtain hc' | hc' := List.mem_append.mp hc'
    · exact hN.called hc'
    · rw [Stage.eq_of_called hc']
      exact hc
  · rw [Stage.stamp_of_mem_sends hrooted hc']
    exact hc

/-- A post that is settled waits no longer. -/
theorem From.settle (h : From root O p) (n k : ℕ) {b : Queue.Act} (hb : b = .run k ∨ b = .drop k) :
    From root O (p.settle n k b) := by
  simp only [Line.settle]
  split
  · next q hq =>
    split
    · next post hpost =>
      refine h.update (fun {i post'} hpost' => ?_) (fun {j c} hc => ?_)
      · have hmem : post' ∈ (Queue.step q b).pending := List.mem_of_getElem? hpost'
        have hpending : (Queue.step q b).pending = q.pending.eraseIdx k := by
          have hget : q.quiet.pending[k]? = some post := hpost
          obtain rfl | rfl := hb
          all_goals
            simp only [Queue.step, Queue.exec, hget]
            rfl
        rw [hpending] at hmem
        rw [hq]
        exact List.mem_iff_getElem?.mp (List.mem_of_mem_eraseIdx hmem)
      · obtain hc | hc := List.mem_append.mp hc
        · exact hc
        · obtain ⟨e, _, he⟩ := List.mem_map.mp hc
          cases he
    · exact h
  · exact h

/-- What the task of a post hands on is its message. -/
theorem handed_stamp (hrooted : Rooted names root) {n k : ℕ} {c : ℕ × SourceCall}
    (hc : c ∈ p.handed names n k) :
    ∃ post, (p.node n).post k = some post ∧ stamp root c.2 = stampMessage root post.request := by
  cases hpost : (p.node n).post k with
  | none =>
    rw [handed_of_post hpost] at hc
    cases hc
  | some post =>
    obtain ⟨q, hq, hget⟩ := Stage.post_eq_some_iff.mp hpost
    have huses : c.2.uses ≠ none := by
      have hmem := mem_posted_of_handed hc
      simp only [posted, hq, hget] at hmem
      split at hmem
      · obtain ⟨t, _, ht⟩ := List.mem_map.mp hmem
        rw [← uses_sketch, ← (Prod.mk.inj ht).2]
        exact Option.some_ne_none _
      · cases hmem
    refine ⟨post, rfl, stamp_of_goods huses fun x hx => ?_⟩
    have hgoods := (handed_goods (P := fun _ => true) hrooted hq hget).1
    exact hgoods.subset (List.mem_flatMap.mpr ⟨c, hc, hx⟩)

/-- **One step.** -/
theorem From.step (hrooted : Rooted names root) (h : From root O p)
    (ha : ∀ n c, a = .enter n c → O (stamp root c)) : From root O (step names rank p a) := by
  have hquiet : From root O { p with shown := [] } := ⟨h.waits, fun hc => by cases hc⟩
  have hkin : ∀ (n : ℕ) (k : Stage), (∀ i, k.post i = (p.node n).post i) →
      From root O { node := Function.update p.node n k, shown := [] } := fun n k hk =>
    hquiet.update (fun {i post} hpost => ⟨i, (hk i).symm.trans hpost⟩) fun hc => hc
  cases a with
  | enter n c => exact hquiet.call hrooted (ha n c rfl)
  | run n k =>
    refine List.foldlRecOn (motive := From root O) _ _ (hquiet.settle n k (Or.inl rfl))
      fun N hN c hc => ?_
    obtain ⟨post, hpost, hstamp⟩ := handed_stamp hrooted hc
    refine hN.call hrooted ?_
    rw [hstamp]
    exact h.waits hpost
  | drop n k => exact hquiet.settle n k (Or.inr rfl)
  | track n id => exact hkin n _ fun i => by cases p.node n <;> rfl
  | suspend n flag => exact hkin n _ fun i => by cases p.node n <;> rfl
  | expire t =>
    have hsame : ∀ n i, ((exec names rank { p with shown := [] } (.expire t)).node n).post i =
        (p.node n).post i := by
      intro n i
      simp only [exec]
      cases hnode : p.node n with
      | _ =>
        split
        · rfl
        · rfl
    exact ⟨fun hpost => h.waits ((hsame _ _).symm.trans hpost), fun hc => by cases hc⟩

/-- **Where calls come from.** Every call of a run has come in, but for its handler, and that leads
    to where the handler leads that has come in. -/
theorem events_from (hrooted : Rooted names root) {acts : List Act}
    (hempty : ∀ n k, (p.node n).post k = none) {n : ℕ} {c : SourceCall}
    (h : .called n c ∈ p.events names rank acts) :
    ∃ n' c', .enter n' c' ∈ acts ∧ stamp root c' = stamp root c := by
  have hfrom : ∀ l : List Act, l <+: acts →
      (∀ {n i post}, ((run (step names rank) p l).node n).post i = some post →
        ∃ n' c', .enter n' c' ∈ acts ∧ stamp root c' = stampMessage root post.request) ∧
      ∀ {n c}, .called n c ∈ p.events names rank l →
        ∃ n' c', .enter n' c' ∈ acts ∧ stamp root c' = stamp root c := by
    intro l
    induction l using List.reverseRecOn with
    | nil =>
      refine fun _ => ⟨fun {n i post} hpost => ?_, fun hc => by cases hc⟩
      have hnone : (p.node n).post i = none := hempty n i
      rw [run_nil, hnone] at hpost
      cases hpost
    | append_singleton l a ih =>
      intro hprefix
      obtain ⟨hwaits, hcalled⟩ := ih ((List.prefix_append l [a]).trans hprefix)
      have hentered : ∀ n c, a = .enter n c →
          ∃ n' c', .enter n' c' ∈ acts ∧ stamp root c' = stamp root c := by
        rintro n c rfl
        exact ⟨n, c, hprefix.subset (List.mem_append_right _ List.mem_cons_self), rfl⟩
      have hbefore : From root (fun z => ∃ n' c', .enter n' c' ∈ acts ∧ stamp root c' = z)
          { run (step names rank) p l with shown := [] } :=
        ⟨hwaits, fun hc => by cases hc⟩
      have hstep : From root _ (step names rank { run (step names rank) p l with shown := [] } a) :=
        hbefore.step hrooted hentered
      rw [run_concat, events_concat]
      refine ⟨hstep.waits, fun {n c} hc => ?_⟩
      obtain hc | hc := List.mem_append.mp hc
      · exact hcalled hc
      · exact hstep.called hc
  exact (hfrom acts (List.prefix_refl acts)).2 h

end Line

namespace ServerTcp

variable {o : TcpConnectionOptions} {keepAlive : Bool} {events : List ConnectionEvent}

/-- The event of a connection that makes the server call its target. -/
def CausedBy (keepAlive : Bool) (events : List ConnectionEvent) : IoCall IoId ServerReply → Prop
  | .regIo id conn => .startup id ∈ events ∧ conn = id
  | .unregIo id => .shutdown id ∈ events
  | .performIo d id reply =>
    ∃ cb, .input d id cb ∈ events ∧ reply = if keepAlive then .plain cb else .closing cb

theorem CausedBy.mono {l : List ConnectionEvent} {c : IoCall IoId ServerReply}
    (h : CausedBy keepAlive events c) (hsub : ∀ e ∈ events, e ∈ l) : CausedBy keepAlive l c := by
  cases c with
  | regIo id conn => exact ⟨hsub _ h.1, h.2⟩
  | unregIo id => exact hsub _ h
  | performIo d id reply =>
    obtain ⟨cb, hcb, hreply⟩ := h
    exact ⟨cb, hsub _ hcb, hreply⟩

/-- Nothing else makes the server call its target. -/
theorem causedBy_of_mem {c : IoCall IoId ServerReply} (h : c ∈ targetCalls o keepAlive events) :
    CausedBy keepAlive events c := by
  induction events using List.reverseRecOn with
  | nil => cases h
  | append_singleton events e ih =>
    rw [targetCalls_concat] at h
    have hlast : e ∈ events ++ [e] := List.mem_append_right _ List.mem_cons_self
    obtain h | h := List.mem_append.mp h
    · exact (ih h).mono fun _ he => List.mem_append_left _ he
    · cases e with
      | startup id =>
        dsimp only at h
        split at h
        · cases h
        · rw [List.mem_singleton.mp h]
          exact ⟨hlast, rfl⟩
      | input d id cb =>
        rw [List.mem_singleton.mp h]
        exact ⟨cb, hlast, rfl⟩
      | shutdown id =>
        dsimp only at h
        split at h
        · cases h
        · rw [List.mem_singleton.mp h]
          exact hlast

end ServerTcp

namespace Gateway

variable {g : Gateway}

/-- What the client is called with comes from the server. -/
theorem client_from (r : g.Run) (hrooted : Rooted g.names root) {a : ClientTcpMap.Act}
    (ha : a ∈ r.client) {c : SourceCall} (hc : a.sourceCall = some c) :
    ∃ c' ∈ ServerTcp.targetCalls g.options g.keepAlive r.server,
      stamp root (relabel g.source g.reply c') = stamp root c := by
  have hcall : c ∈ r.client.filterMap ClientTcpMap.Act.sourceCall :=
    List.mem_filterMap.mpr ⟨a, ha, hc⟩
  rw [r.calls] at hcall
  obtain ⟨e, he, hto⟩ := List.mem_filterMap.mp hcall
  cases e with
  | ended j m e => cases hto
  | called j c₀ =>
    simp only [Line.callTo] at hto
    split_ifs at hto
    cases hto
    obtain ⟨n, c', hc', hstamp⟩ := Line.events_from hrooted g.empty he
    have henter : c' ∈ r.acts.filterMap Line.Act.sourceCall :=
      List.mem_filterMap.mpr ⟨_, hc', rfl⟩
    rw [r.enters] at henter
    obtain ⟨c'', hc'', rfl⟩ := List.mem_map.mp henter
    exact ⟨c'', hc'', hstamp⟩

/-- A source that is registered at the client is a connection that has been established. -/
theorem source_from (r : g.Run) (hrooted : Rooted g.names root) {id : IoId} {itf : Option Source}
    (ha : .regIo id itf ∈ r.client) : .startup id ∈ r.server ∧ itf = some (g.source id) := by
  obtain ⟨c', hc', hstamp⟩ := client_from r hrooted ha (c := .regIo id itf) rfl
  have horigin := ServerTcp.causedBy_of_mem hc'
  cases c' with
  | regIo j conn =>
    obtain ⟨hstartup, rfl⟩ := horigin
    cases hstamp
    exact ⟨hstartup, rfl⟩
  | unregIo j => cases hstamp
  | performIo d j reply => cases hstamp

/-- Data that are performed at the client have come in from the connection, and the handler leads to
    the one that has come in with them. -/
theorem input_from (r : g.Run) (hrooted : Rooted g.names root) {d : DataPtr} {id : IoId}
    {handler : Option Handler} {snd : Sending} (ha : .performIo d id handler snd ∈ r.client) :
    ∃ cb, .input d id cb ∈ r.server ∧
      root handler = root (g.reply (if g.keepAlive then .plain cb else .closing cb)) := by
  obtain ⟨c', hc', hstamp⟩ := client_from r hrooted ha (c := .performIo d id handler) rfl
  have horigin := ServerTcp.causedBy_of_mem hc'
  cases c' with
  | regIo j conn => cases hstamp
  | unregIo j => cases hstamp
  | performIo d' j reply =>
    obtain ⟨cb, hinput, rfl⟩ := horigin
    simp only [relabel, stamp, IoCall.performIo.injEq] at hstamp
    obtain ⟨rfl, rfl, hroot⟩ := hstamp
    exact ⟨cb, hinput, hroot.symm⟩

/-- What an adapter sends has come in from its connection, or is an answer that the source gives
    through it; what comes in at the adapter goes to the connection, or to a handler that leads to
    one of the connection. A request that no connection takes is refused to its own handler. -/
def Confined (r : g.Run) (root : Option Handler → Option Handler) (owner : ℕ → IoId)
    (a : ClientTcpMap.Act) : Outcall → Prop
  | .send cli _ d =>
    (∃ cb, .input d (owner cli) cb ∈ r.server) ∨ ∃ snd, a = .counterReply cli d snd
  | .performIo h d cli _ =>
    (∃ out, a = .input cli d out) ∧ h = g.source (owner cli) ∧ .startup (owner cli) ∈ r.server
  | .handler f d =>
    (∃ cli out, a = .input cli d out ∧ ∃ d' cb, .input d' (owner cli) cb ∈ r.server ∧
      root (some f) = root (g.reply (if g.keepAlive then .plain cb else .closing cb))) ∨
    d = none ∧ ∃ d' id snd, a = .performIo d' id (some f) snd
  | _ => True

/-- **Isolation.** In a gateway whose client keeps no secondary pool there is for each adapter a
    connection such that the adapter is mapped for no other one, it sends data of this connection
    only, and what comes in at the adapter goes to this connection only: whatever is suspended,
    tracked, stopped or lost, however long messages wait, and whichever connections are opened and
    closed. -/
theorem confined (g : Gateway) (r : g.Run) (root : Option Handler → Option Handler)
    (hrooted : Rooted g.names root) (hpool : ∀ a ∈ r.client, a.Unpooled) :
    ∃ owner : ℕ → IoId,
      (∀ pre, pre <+: r.client → ∀ id cli,
        (run ClientTcpMap.step (ClientTcpMap.init g.refuses) pre).find id = some cli →
          owner cli = id) ∧
      AtEach (fun pre a =>
        ∀ o ∈ ((run ClientTcpMap.step (ClientTcpMap.init g.refuses) pre).step a).io.outcalls,
          Confined r root owner a o) r.client := by
  obtain ⟨owner, hmapped, howner⟩ := ClientTcpMap.confined_run g.refuses hpool
  refine ⟨owner, hmapped, fun pre a post hsplit o ho => ?_⟩
  have ha : a ∈ r.client := hsplit ▸ List.mem_append_right _ List.mem_cons_self
  have hpre : ∀ b ∈ pre, b ∈ r.client := fun b hb => hsplit ▸ List.mem_append_left _ hb
  have hconfined := howner pre a post hsplit o ho
  cases o with
  | send cli conn d =>
    obtain ⟨handler, snd, rfl⟩ | hcounter := hconfined
    · obtain ⟨cb, hinput, _⟩ := input_from r hrooted ha
      exact Or.inl ⟨cb, hinput⟩
    · exact Or.inr hcounter
  | performIo h d cli reply =>
    obtain ⟨hinput, hreg⟩ := hconfined
    obtain ⟨hstartup, hsource⟩ := source_from r hrooted (hpre _ hreg)
    exact ⟨hinput, Option.some.inj hsource, hstartup⟩
  | handler f d =>
    obtain ⟨cli, out, rfl, d', snd, hperform⟩ | hrejected := hconfined
    · obtain ⟨cb, hinput, hroot⟩ := input_from r hrooted (hpre _ hperform)
      exact Or.inl ⟨cli, out, rfl, d', cb, hinput, hroot⟩
    · exact Or.inr hrejected
  | _ => trivial

/-- Two connections send a message each, and the second one is answered. -/
def twoMessages : queued.Run where
  server := [.startup 7, .startup 8, .input (some [1]) 7 none, .input (some [2]) 8 none]
  acts := [.enter 0 (.regIo 7 (some 7)), .enter 0 (.regIo 8 (some 8)),
    .enter 0 (.performIo (some [1]) 7 none), .enter 0 (.performIo (some [2]) 8 none), .run 1 0,
    .run 1 0]
  client := [.reconfigureAndStart {}, .regIo 7 (some 7), .regIo 8 (some 8),
    .performIo (some [1]) 7 none (.accepted 3), .performIo (some [2]) 8 none (.accepted 3),
    .input 2 (some [9]) none]
  contract := by decide
  enters := rfl
  entry n c h := by
    show n = 0
    simp at h
    tauto
  calls := by decide

/-- The answer goes to the second connection. -/
theorem confined_twoMessages :
    (∃ owner : ℕ → IoId,
      (∀ pre, pre <+: twoMessages.client → ∀ id cli,
        (run ClientTcpMap.step (ClientTcpMap.init queued.refuses) pre).find id = some cli →
          owner cli = id) ∧
      AtEach (fun pre a =>
        ∀ o ∈ ((run ClientTcpMap.step (ClientTcpMap.init queued.refuses) pre).step a).io.outcalls,
          Confined twoMessages (fun _ => none) owner a o) twoMessages.client) ∧
      (run ClientTcpMap.step (ClientTcpMap.init queued.refuses) twoMessages.client).io.outcalls =
        [.performIo 8 (some [9]) 2 (.connection none)] :=
  ⟨confined queued twoMessages (fun _ => none) ⟨fun _ _ _ => rfl, fun _ _ => rfl⟩ (by decide),
    by decide⟩

end Gateway

end WfcIo

import WfcIo.Pipeline.Accounts
import WfcIo.Foundation.Order

/-!
# Messages that go the same way

A workflow runs the posts of a queue from the first to the last. So messages that enter at one
object and go the same way come out in the order they have entered, whatever else goes through the
same queues: a queue that is not suspended makes all of them wait, and one that is suspended none.
A queue must not be suspended while some of them wait, for the next one would overtake them.

## Main definitions

- `Stage.way` — the pointer that a message goes along
- `goods`, `Event.delivery`, `Stage.waiting` — the messages of a kind, in lists
- `Stage.Leads` — where the messages of a kind go
- `Line.Act.InTurn` — what must not happen if they are to keep their order

## Main results

- `Stage.orderly` — no stage lets a message overtake another
- `Line.in_order` — in a run, what has come out and what still waits is in order
-/

namespace WfcIo

open Foundation

variable (root : Option Handler → Option Handler) (P : Parcel → Bool)

/-- The message of a call, if it is of the kind. -/
def goods : SourceCall → List Parcel
  | .performIo d id handler => [parcel root ⟨d, id, handler⟩].filter P
  | _ => []

/-- The message that an object outside gets, if it is of the kind. -/
def Event.delivery : Event → List Parcel
  | .ended _ m .taken => [parcel root m].filter P
  | _ => []

namespace Stage

/-- The messages of the kind that wait in a queue. -/
def waiting : Stage → List Parcel
  | .queue q => (q.pending.map fun post => parcel root post.request).filter P
  | _ => []

/-- The pointer that a message goes along, to an object that may be gone. -/
def way : Stage → DataPtr → Option ℕ
  | .broker b, none => b.target
  | .broker b, some data =>
    if b.suspended then b.target
    else
      match b.rules.find? fun r => r.matcher data with
      | some r => r.target
      | none => b.target
  | .statistics s, _ => s.target
  | .queue q, _ => q.target
  | .leaf, _ => none

/-- A queue that passes messages on at once has none of the kind waiting. -/
def Ready : Stage → Prop
  | .queue q => q.suspended = true → waiting root P (.queue q) = []
  | _ => True

/-- The messages of the kind go to `t`, or to no object. -/
def Leads (k : Stage) (t : ℕ) : Prop :=
  k ≠ .leaf ∧ k.Ready root P ∧ ∀ x, P x = true → ∀ t' ∈ k.way x.1, t' = t

/-- An object outside. -/
def Ends (k : Stage) : Prop := k = .leaf

/-- No message of the kind takes another way, or overtakes one that waits, if the stage is
    suspended or resumed. -/
def Switches (flag : Bool) : Stage → Prop
  | .broker _ => False
  | .queue q => flag = true → waiting root P (.queue q) = []
  | _ => True

instance (flag : Bool) : ∀ k : Stage, Decidable (Switches root P flag k)
  | .broker _ => .isFalse fun h => h
  | .statistics _ => .isTrue trivial
  | .queue q => inferInstanceAs (Decidable (flag = true → waiting root P (.queue q) = []))
  | .leaf => .isTrue trivial

variable {root P} {names : Names}

/-! ### One call -/

theorem broker_destination (d : DataPtr) (b : Broker) :
    b.destination d = b.lock (way (.broker b) d) := by
  cases d with
  | none => rfl
  | some data =>
    simp only [Broker.destination, way]
    split
    · rfl
    · cases b.rules.find? fun r => r.matcher data <;> rfl

/-- What a stage passes a message on to is at the end of the pointer. -/
theorem way_of_mem_receivers {k : Stage} {d : DataPtr} {id : IoId} {t : ℕ}
    (h : t ∈ k.receivers (.performIo d id ())) : t ∈ k.way d := by
  have hfilter : ∀ {w : Option ℕ} {p : ℕ → Bool}, t ∈ (w.filter p).toList → w = some t :=
    fun h => (Option.filter_eq_some_iff.mp (Option.mem_toList.mp h)).1
  cases k with
  | broker b =>
    rw [receivers, broker_destination] at h
    exact hfilter h
  | statistics s => exact hfilter h
  | queue q =>
    simp only [receivers] at h
    split at h
    · exact hfilter h
    · cases h
  | leaf => cases h

theorem goods_of_uses {c : SourceCall} (hc : c.uses = none) : goods root P c = [] := by
  cases c with
  | performIo d id handler => cases hc
  | regIo id itf => rfl
  | unregIo id => rfl

/-- The call that a queue makes at once is that of the source. -/
theorem queue_passes (n : ℕ) (m : Message) (q : Queue) {c : ℕ × SourceCall}
    (hc : c ∈ (Queue.step q (.performIo m)).outcomes.filterMap (queueSend names n)) :
    c.2 = .performIo m.d m.id m.handler := by
  rw [Component.queue_outcomes] at hc
  split at hc
  · cases ho : q.atOnce m with
    | none =>
      rw [ho] at hc
      cases hc
    | some o =>
      rw [ho] at hc
      simp only [Queue.atOnce] at ho
      split at ho
      · split at ho
        · cases ho
          cases hc
        · split at ho
          · cases ho
            cases hc
          · cases ho
      · split at ho
        · cases ho
          cases hc with
          | head => rfl
          | tail _ h => cases h
        · cases ho
  · cases hc

/-- What is passed on is the same message. -/
theorem goods_of_mem_sends (hrooted : Rooted names root) {n : ℕ} {c : SourceCall} {k : Stage}
    {c' : ℕ × SourceCall} (h : c' ∈ (call names n c k).sends) :
    goods root P c'.2 = goods root P c := by
  cases huses : c.uses with
  | none =>
    have huses' : c'.2.uses = none := by
      rw [← uses_sketch, (mem_sends h).2, uses_sketch, huses]
    rw [goods_of_uses huses, goods_of_uses huses']
  | some id =>
    cases c with
    | regIo id itf => cases huses
    | unregIo id => cases huses
    | performIo d id handler =>
      let m : Message := ⟨d, id, handler⟩
      cases k with
      | broker b =>
        have hcalls := Component.broker_calls m b
        have hmem : c' ∈ (Broker.step b (.call (.performIo m.d m.id m.handler))).calls := h
        rw [hcalls] at hmem
        obtain ⟨t, _, rfl⟩ := List.mem_map.mp hmem
        rfl
      | statistics s =>
        have hmem : c' ∈ (s.call (.performIo m.d m.id m.handler)).outcalls.filterMap
          (statisticsSend names n) := h
        rw [statistics_sends_performIo] at hmem
        obtain ⟨t, _, rfl⟩ := List.mem_map.mp hmem
        show [(m.d, m.id, root (names.handed n (s.handed m.d m.handler)))].filter P =
          [(m.d, m.id, root m.handler)].filter P
        rw [root_handed hrooted]
      | queue q =>
        have hmem : c' ∈ (Queue.step q (.performIo m)).calls ++
          (Queue.step q (.performIo m)).outcomes.filterMap (queueSend names n) := h
        rw [queue_performIo_calls, List.nil_append] at hmem
        rw [queue_passes n m q hmem]
      | leaf => cases h

/-- A message is passed on to one object at most. -/
theorem goods_sends (hrooted : Rooted names root) (n : ℕ) (c : SourceCall) (k : Stage) :
    List.Sublist ((call names n c k).sends.flatMap fun c => goods root P c.2)
      (goods root P c) := by
  cases huses : c.uses with
  | none =>
    have hnone : ((call names n c k).sends.flatMap fun c => goods root P c.2) = [] :=
      List.flatMap_eq_nil_iff.mpr fun c' hc' => by
        rw [goods_of_mem_sends hrooted hc', goods_of_uses huses]
    rw [hnone]
    exact List.nil_sublist _
  | some id =>
    have hlength : (call names n c k).sends.length ≤ 1 :=
      length_sends_le (huses ▸ Option.some_ne_none id) names n k
    cases hsends : (call names n c k).sends with
    | nil => exact List.nil_sublist _
    | cons c' rest =>
      rw [hsends, List.length_cons] at hlength
      obtain rfl : rest = [] := List.eq_nil_of_length_eq_zero (by omega)
      rw [List.flatMap_singleton, goods_of_mem_sends hrooted (hsends ▸ List.mem_singleton_self c')]

/-- A stage shows no delivery. -/
theorem delivery_of_ne_leaf {k : Stage} (hk : k ≠ .leaf) (n : ℕ) (c : SourceCall) :
    (call names n c k).shows.flatMap (Event.delivery root P) = [] := by
  have hunsent : ∀ sends, (unsent n sends c).flatMap (Event.delivery root P) = [] := by
    intro sends
    cases c with
    | performIo d id handler =>
      rw [unsent]
      split <;> rfl
    | regIo id itf => rfl
    | unregIo id => rfl
  cases k with
  | broker b => exact hunsent _
  | statistics s => exact hunsent _
  | queue q =>
    cases c with
    | performIo d id handler =>
      simp only [call, List.flatMap_cons, Event.delivery, List.nil_append, atOnce]
      split
      · cases q.atOnce ⟨d, id, handler⟩ with
        | none => rfl
        | some o => cases o <;> rfl
      · rfl
    | regIo id itf => rfl
    | unregIo id => rfl
  | leaf => exact absurd rfl hk

/-- What waits after a call: what has waited, or also the message of the call, and then it is not
    passed on. A suspended queue makes no message wait. -/
theorem waiting_call (root : Option Handler → Option Handler) (P : Parcel → Bool)
    (names : Names) (n : ℕ) (c : SourceCall) (k : Stage) :
    (waiting root P (call names n c k).state = waiting root P k ∧
        (k.Ready root P → waiting root P k = [] ∨
          ((call names n c k).sends.flatMap fun c => goods root P c.2) = [])) ∨
      (∃ q, k = .queue q ∧ q.suspended = false) ∧
        waiting root P (call names n c k).state = waiting root P k ++ goods root P c ∧
        ((call names n c k).sends.flatMap fun c => goods root P c.2) = [] := by
  cases k with
  | broker b => exact Or.inl ⟨rfl, fun _ => Or.inl rfl⟩
  | statistics s => exact Or.inl ⟨rfl, fun _ => Or.inl rfl⟩
  | leaf => exact Or.inl ⟨rfl, fun _ => Or.inl rfl⟩
  | queue q =>
    cases huses : c.uses with
    | none =>
      refine Or.inl ⟨?_, fun _ => Or.inr (List.flatMap_eq_nil_iff.mpr fun c' hc' => ?_)⟩
      · simp only [call, waiting, queue_held_of_uses huses]
      · refine goods_of_uses ?_
        rw [← uses_sketch, (mem_sends hc').2, uses_sketch, huses]
    | some id =>
      cases c with
      | regIo id itf => cases huses
      | unregIo id => cases huses
      | performIo d id handler =>
        let m : Message := ⟨d, id, handler⟩
        have hsends : (call names n (.performIo d id handler) (.queue q)).sends =
            (Queue.step q (.performIo m)).outcomes.filterMap (queueSend names n) := by
          show (Queue.step q (.performIo m)).calls ++ _ = _
          rw [queue_performIo_calls]
          rfl
        rw [hsends]
        obtain ⟨hpending, hwhen⟩ | ⟨hsuspended, hpending, hnone⟩ := queue_makes_wait names n m q
        · refine Or.inl ⟨?_, fun hready => ?_⟩
          · show waiting root P (.queue (Queue.step q (.performIo m))) = _
            simp only [waiting, hpending]
          · obtain hsuspended | hnone := hwhen
            · exact Or.inl (hready hsuspended)
            · exact Or.inr (by rw [hnone]; rfl)
        · refine Or.inr ⟨⟨q, rfl, hsuspended⟩, ?_, by rw [hnone]; rfl⟩
          show waiting root P (.queue (Queue.step q (.performIo m))) = _
          simp only [waiting, hpending, List.map_append, List.filter_append]
          rfl

/-- A call changes no pointer, and not whether a stage is suspended. -/
theorem way_call (n : ℕ) (c : SourceCall) (k : Stage) : way (call names n c k).state = way k := by
  cases k with
  | broker b =>
    obtain ⟨calls, logs, hstate⟩ := broker_state c b
    simp only [call, hstate]
    exact funext fun d => by cases d <;> rfl
  | statistics s =>
    obtain ⟨meters, outcalls, hstate⟩ := statistics_state c s
    simp only [call, hstate]
    rfl
  | queue q =>
    obtain ⟨given, pending, untracked, outcomes, calls, hstate⟩ := queue_state c q
    simp only [call, hstate]
    rfl
  | leaf => rfl

theorem ready_call (n : ℕ) (c : SourceCall) {k : Stage} (hk : k.Ready root P) :
    (call names n c k).state.Ready root P := by
  cases k with
  | broker b => trivial
  | statistics s => trivial
  | leaf => trivial
  | queue q =>
    intro hsuspended
    have hkept : (Queue.step q (.ofCall c)).suspended = q.suspended := by
      obtain ⟨given, pending, untracked, outcomes, calls, hstate⟩ := queue_state c q
      rw [hstate]
    have hq : q.suspended = true := hkept ▸ hsuspended
    obtain ⟨hwaiting, _⟩ | ⟨⟨q', hq', hnot⟩, _⟩ :=
      waiting_call root P names n c (.queue q)
    · exact hwaiting.trans (hk hq)
    · cases hq'
      rw [hq] at hnot
      cases hnot

theorem call_ne_leaf (n : ℕ) (c : SourceCall) {k : Stage} (hk : k ≠ .leaf) :
    (call names n c k).state ≠ .leaf := by
  cases k with
  | leaf => exact absurd rfl hk
  | _ => exact fun h => by cases h

/-- **Stages.** No stage lets a message overtake another of the kind. -/
theorem orderly (hrooted : Rooted names root) :
    Orderly (call names) (goods root P) (Event.delivery root P) (waiting root P) (Leads root P)
      Ends where
  idle n c k hc := by
    refine ⟨fun c' hc' => (goods_of_mem_sends hrooted hc').trans hc, ?_, ?_⟩
    · by_cases hk : k = .leaf
      · subst hk
        cases c with
        | performIo d id handler => exact (List.append_nil _).trans hc
        | regIo id itf => rfl
        | unregIo id => rfl
      · exact delivery_of_ne_leaf hk n c
    · obtain ⟨hwaiting, _⟩ | ⟨_, hwaiting, _⟩ := waiting_call root P names n c k
      · exact hwaiting
      · rw [hwaiting, hc, List.append_nil]
  sends n c k t hk c' hc' := by
    obtain ⟨_, _, hway⟩ := hk
    obtain ⟨hreceiver, _⟩ := mem_sends hc'
    by_cases hgoods : goods root P c = []
    · exact Or.inl ((goods_of_mem_sends hrooted hc').trans hgoods)
    · cases c with
      | regIo id itf => exact absurd rfl hgoods
      | unregIo id => exact absurd rfl hgoods
      | performIo d id handler =>
        obtain ⟨x, hx⟩ := List.exists_mem_of_ne_nil _ hgoods
        obtain ⟨hmem, hP⟩ := List.mem_filter.mp hx
        obtain rfl := List.mem_singleton.mp hmem
        exact Or.inr (hway _ hP c'.1 (way_of_mem_receivers hreceiver))
  shows n c k t hk := delivery_of_ne_leaf hk.1 n c
  stops n c k hk c' hc' := by
    cases hk
    cases hc'
  order n c k hk := by
    obtain ⟨t, hne, hready, _⟩ | hleaf := hk
    · rw [delivery_of_ne_leaf hne, List.nil_append]
      obtain ⟨hwaiting, hwhen⟩ | ⟨_, hwaiting, hnone⟩ :=
        waiting_call root P names n c k
      · rw [hwaiting]
        obtain hempty | hnone := hwhen hready
        · rw [hempty, List.append_nil, List.nil_append]
          exact goods_sends hrooted n c k
        · rw [hnone, List.nil_append]
          exact List.sublist_append_left _ _
      · rw [hnone, hwaiting, List.nil_append]
    · cases hleaf
      cases c with
      | performIo d id handler =>
        have hsame : (call names n (.performIo d id handler) .leaf).shows.flatMap
            (Event.delivery root P) = goods root P (.performIo d id handler) := List.append_nil _
        rw [hsame]
        simp [call, waiting]
      | regIo id itf => exact List.nil_sublist _
      | unregIo id => exact List.nil_sublist _
  same_leads n c k t hk := by
    obtain ⟨hne, hready, hway⟩ := hk
    refine ⟨call_ne_leaf n c hne, ready_call n c hready, fun x hx t' ht' => ?_⟩
    rw [way_call] at ht'
    exact hway x hx t' ht'
  same_ends n c k hk := by
    cases hk
    rfl

/-! ### Events outside -/

/-- Two states of a stage with the same pointers and the same messages, the second of which is
    suspended only if the first is. -/
structure Unmoved (root : Option Handler → Option Handler) (P : Parcel → Bool) (k k' : Stage) :
    Prop where
  outside : k' = .leaf ↔ k = .leaf
  way : k'.way = k.way
  waiting : k'.waiting root P = k.waiting root P
  ready : k.Ready root P → k'.Ready root P

theorem Unmoved.refl (k : Stage) : Unmoved root P k k := ⟨Iff.rfl, rfl, rfl, fun h => h⟩

theorem Unmoved.ends {k k' : Stage} (h : Unmoved root P k k') (hk : k.Ends) : k'.Ends :=
  h.outside.mpr hk

theorem Unmoved.leads {k k' : Stage} (h : Unmoved root P k k') {t : ℕ} (hk : k.Leads root P t) :
    k'.Leads root P t :=
  ⟨fun h' => hk.1 (h.outside.mp h'), h.ready hk.2.1, h.way ▸ hk.2.2⟩

theorem track_unmoved (id : IoId) (k : Stage) : Unmoved root P k (k.track id) := by
  cases k with
  | queue q => exact ⟨⟨nofun, nofun⟩, rfl, rfl, fun h => h⟩
  | _ => exact .refl _

theorem expire_unmoved (root : Option Handler → Option Handler) (P : Parcel → Bool) (t : ℕ)
    (k : Stage) :
    Unmoved root P k (k.expire t) ∧ Unmoved root P k (k.expire t).destroy := by
  cases k with
  | broker b =>
    have hway : way (.broker { b with expired := b.expired ++ [t] }) = way (.broker b) :=
      funext fun d => by cases d <;> rfl
    exact ⟨⟨⟨nofun, nofun⟩, hway, rfl, fun h => h⟩, ⟨⟨nofun, nofun⟩, hway, rfl, fun h => h⟩⟩
  | statistics s =>
    exact ⟨⟨⟨nofun, nofun⟩, rfl, rfl, fun h => h⟩, ⟨⟨nofun, nofun⟩, rfl, rfl, fun h => h⟩⟩
  | queue q =>
    exact ⟨⟨⟨nofun, nofun⟩, rfl, rfl, fun h => h⟩, ⟨⟨nofun, nofun⟩, rfl, rfl, fun h => h⟩⟩
  | leaf => exact ⟨.refl _, .refl _⟩

theorem suspend_waiting (flag : Bool) (k : Stage) :
    (k.suspend flag).waiting root P = k.waiting root P := by
  cases k <;> rfl

end Stage

namespace Line

/-! ### Whole runs -/

/-- The message of the kind that enters. -/
def Act.goods : Act → List Parcel
  | .enter _ c => WfcIo.goods root P c
  | _ => []

/-- A message of the kind enters at the beginning of the way `r`, and the workflows of the queues
    on the way run the first post. No broker on the way is suspended or resumed, and no queue is
    suspended while a message of the kind waits. -/
def Act.InTurn (r : List ℕ) (p : Line) : Act → Prop
  | .enter n c => WfcIo.goods root P c = [] ∨ r.head? = some n
  | .run n k => n ∈ r → k = 0
  | .suspend n flag => n ∈ r → (p.node n).Switches root P flag
  | _ => True

instance (r : List ℕ) (p : Line) : DecidablePred (Act.InTurn root P r p)
  | .enter n c => inferInstanceAs (Decidable (WfcIo.goods root P c = [] ∨ r.head? = some n))
  | .run n k => inferInstanceAs (Decidable (n ∈ r → k = 0))
  | .suspend n flag => inferInstanceAs (Decidable (n ∈ r → (p.node n).Switches root P flag))
  | .drop _ _ => .isTrue trivial
  | .track _ _ => .isTrue trivial
  | .expire _ => .isTrue trivial

/-- The messages of the kind go along the way `r`, and wait there only. -/
structure OnWay (r : List ℕ) (p : Line) : Prop where
  lane : Lane (Stage.Leads root P) Stage.Ends p.node r
  nowhere : ∀ n ∉ r, (p.node n).waiting root P = []

/-- What has come out, and what waits, the oldest first. -/
abbrev lined (r : List ℕ) (p : Line) : List Parcel :=
  p.shown.flatMap (Event.delivery root P) ++ backlogs (Stage.waiting root P) p.node r

variable {root P} {names : Names} {rank : ℕ → ℕ} {r : List ℕ} {p p' : Line} {a : Act}

/-- The goods `l` have gone in at the beginning of `r`. -/
abbrev Advances (root : Option Handler → Option Handler) (P : Parcel → Bool) (r : List ℕ)
    (l : List Parcel) (p p' : Line) : Prop :=
  Advance (Event.delivery root P) (Stage.waiting root P) (Stage.Leads root P) Stage.Ends r l p p'

theorem OnWay.of_advance {l : List Parcel} (h : OnWay root P r p) (hp : Advances root P r l p p') :
    OnWay root P r p' :=
  ⟨hp.standing.lane h.lane, fun n hn => (hp.others n hn).trans (h.nowhere n hn)⟩

/-- The stages keep their pointers and their messages. -/
theorem advances_of_unmoved (h : ∀ n, (p.node n).Unmoved root P (p'.node n))
    (hshown : p'.shown = p.shown) : Advances root P r [] p p' :=
  .of_same (fun n => ⟨fun _ => (h n).leads, (h n).ends⟩) (fun n => (h n).waiting) (by rw [hshown])

/-- One of the objects keeps less. -/
theorem backlogs_update_sublist {n : ℕ} {k : Stage} (node : ℕ → Stage)
    (hk : List.Sublist (k.waiting root P) ((node n).waiting root P)) :
    List.Sublist (backlogs (Stage.waiting root P) (Function.update node n k) r)
      (backlogs (Stage.waiting root P) node r) := by
  induction r with
  | nil => exact List.Sublist.refl _
  | cons j r ih =>
    rw [backlogs_cons, backlogs_cons]
    refine ih.append ?_
    by_cases hj : j = n
    · subst hj
      rwa [Function.update_self]
    · rw [Function.update_of_ne hj]

/-- A post is run or dropped: it no longer waits, and no object outside has got it yet. -/
theorem settle_post (root : Option Handler → Option Handler) (P : Parcel → Bool) {n k : ℕ}
    {b : Queue.Act} (hb : b = .run k ∨ b = .drop k) {q : Queue} (hq : p.node n = .queue q)
    {post : Queue.Task} (hpost : q.pending[k]? = some post) :
    ∃ q', (p.settle n k b).node = Function.update p.node n (.queue q') ∧
      (p.settle n k b).shown.flatMap (Event.delivery root P) =
        p.shown.flatMap (Event.delivery root P) ∧
      q'.pending = q.pending.eraseIdx k ∧ q'.suspended = q.suspended ∧ q'.target = q.target := by
  have hshown : ∀ o : Option Queue.Outcome,
      (p.shown ++ (ending o).toList.map (Event.ended n post.request)).flatMap
          (Event.delivery root P) =
        p.shown.flatMap (Event.delivery root P) := by
    intro o
    rw [List.flatMap_append]
    match o with
    | none => exact List.append_nil _
    | some (.target _ _ _ _) => exact List.append_nil _
    | some (.handler _ _) => exact List.append_nil _
    | some (.dropped _) => exact List.append_nil _
    | some .nullTarget => exact List.append_nil _
  have hpending : q.quiet.pending[k]? = some post := hpost
  simp only [settle, hq, hpost]
  refine ⟨Queue.step q b, rfl, hshown _, ?_⟩
  obtain rfl | rfl := hb
  · simp only [Queue.step, Queue.exec, hpending]
    exact ⟨rfl, rfl, rfl⟩
  · simp only [Queue.step, Queue.exec, hpending]
    exact ⟨rfl, rfl, rfl⟩

/-- A queue in which less waits leads to where it has led. -/
theorem leads_of_sublist {q q' : Queue} {t : ℕ}
    (hwaiting : List.Sublist ((Stage.queue q').waiting root P) ((Stage.queue q).waiting root P))
    (hsuspended : q'.suspended = q.suspended) (htarget : q'.target = q.target)
    (h : (Stage.queue q).Leads root P t) : (Stage.queue q').Leads root P t := by
  obtain ⟨_, hready, hway⟩ := h
  refine ⟨nofun, fun hs => ?_, fun x hx t' ht' => hway x hx t' ?_⟩
  · exact List.eq_nil_of_sublist_nil (hready (hsuspended ▸ hs) ▸ hwaiting)
  · rwa [Stage.way, ← htarget]

/-- What the task of a post hands on is its message, to the target of the queue. -/
theorem handed_goods (hrooted : Rooted names root) {n k : ℕ} {q : Queue}
    (hq : p.node n = .queue q) {post : Queue.Task} (hpost : q.pending[k]? = some post) :
    List.Sublist ((p.handed names n k).flatMap fun c => goods root P c.2)
        ([parcel root post.request].filter P) ∧
      ∀ c ∈ p.handed names n k, goods root P c.2 = [] ∨
        P (parcel root post.request) = true ∧ q.target = some c.1 := by
  have hpending : q.quiet.pending = q.pending := rfl
  have htask : q.quiet.task post.request = q.task post.request := rfl
  simp only [handed, hq, Queue.step, Queue.exec, hpending, hpost, htask]
  cases ho : q.task post.request with
  | none => exact ⟨List.nil_sublist _, fun c hc => by cases hc⟩
  | some o =>
    have hsingle : (q.quiet.settle k post (some o)).outcomes = [(post.number, o)] := rfl
    rw [hsingle, Stage.queueSend_singleton]
    cases o with
    | handler f d => exact ⟨List.nil_sublist _, fun c hc => by cases hc⟩
    | dropped id => exact ⟨List.nil_sublist _, fun c hc => by cases hc⟩
    | nullTarget => exact ⟨List.nil_sublist _, fun c hc => by cases hc⟩
    | target t d id reply =>
      obtain ⟨hlock, rfl, rfl, rfl⟩ := Stage.task_target ho
      have hgoods : goods root P (.performIo post.request.d post.request.id
          (names.reply n (q.makeHandler_ post.request.handler))) =
          [parcel root post.request].filter P := by
        simp only [goods, parcel, Stage.root_reply hrooted]
      refine ⟨?_, fun c hc => ?_⟩
      · rw [List.flatMap_singleton, hgoods]
      · obtain rfl := List.mem_singleton.mp hc
        rw [hgoods]
        cases hP : P (parcel root post.request) with
        | false => exact Or.inl (by rw [List.filter_cons_of_neg (by simp [hP]), List.filter_nil])
        | true => exact Or.inr ⟨rfl, (Option.filter_eq_some_iff.mp hlock).1⟩

/-- The end of the way begins with a queue. -/
theorem exists_split {n : ℕ} {q : Queue} (hn : n ∈ r) (hq : p.node n = .queue q)
    (hlane : Lane (Stage.Leads root P) Stage.Ends p.node r) :
    ∃ pre t ns, r = pre ++ n :: t :: ns ∧ (p.node n).Leads root P t ∧
      Lane (Stage.Leads root P) Stage.Ends p.node (t :: ns) := by
  obtain ⟨pre, ns, rfl⟩ := List.append_of_mem hn
  have hlane' := hlane.of_append
  cases ns with
  | nil =>
    have hends : p.node n = .leaf := hlane'
    rw [hq] at hends
    cases hends
  | cons t ns => exact ⟨pre, t, ns, rfl, hlane'⟩

/-- A post that is settled, with `q'` the queue after it. -/
theorem standing_settle {n : ℕ} {q q' : Queue} (hq : p.node n = .queue q)
    (hnode : p'.node = Function.update p.node n (.queue q'))
    (hwaiting : List.Sublist ((Stage.queue q').waiting root P) ((Stage.queue q).waiting root P))
    (hsuspended : q'.suspended = q.suspended) (htarget : q'.target = q.target) :
    Standing (Stage.Leads root P) Stage.Ends p p' := by
  intro j
  rw [hnode]
  by_cases hj : j = n
  · subst hj
    rw [Function.update_self, hq]
    exact ⟨fun t => leads_of_sublist hwaiting hsuspended htarget, fun h => by cases h⟩
  · rw [Function.update_of_ne hj]
    exact ⟨fun _ h => h, fun h => h⟩

theorem waiting_eraseIdx (root : Option Handler → Option Handler) (P : Parcel → Bool)
    {q q' : Queue} {k : ℕ} (hpending : q'.pending = q.pending.eraseIdx k) :
    List.Sublist ((Stage.queue q').waiting root P) ((Stage.queue q).waiting root P) := by
  simp only [Stage.waiting, hpending]
  exact ((List.eraseIdx_sublist _ _).map _).filter _

/-- A post that is dropped: what is behind it moves up. -/
theorem drop_lined (hway : OnWay root P r p) (n k : ℕ) :
    OnWay root P r (p.settle n k (.drop k)) ∧
      List.Sublist (lined root P r (p.settle n k (.drop k))) (lined root P r p) := by
  cases hpost : (p.node n).post k with
  | none =>
    rw [settle_of_post hpost]
    exact ⟨hway, List.Sublist.refl _⟩
  | some post =>
    obtain ⟨q, hq, hget⟩ := Stage.post_eq_some_iff.mp hpost
    obtain ⟨q', hnode, hshown, hpending, hsuspended, htarget⟩ :=
      settle_post root P (Or.inr rfl) hq hget
    have hwaiting := waiting_eraseIdx root P hpending
    have hstanding := standing_settle hq hnode hwaiting hsuspended htarget
    refine ⟨⟨hstanding.lane hway.lane, fun j hj => ?_⟩, ?_⟩
    · have hempty := hway.nowhere j hj
      rw [hnode]
      by_cases hjn : j = n
      · subst hjn
        rw [Function.update_self]
        rw [hq] at hempty
        exact List.eq_nil_of_sublist_nil (hempty ▸ hwaiting)
      · rwa [Function.update_of_ne hjn]
    · rw [lined, lined, hshown, hnode]
      exact (backlogs_update_sublist p.node (hq ▸ hwaiting)).append_left _

/-- The first post of a queue, and those behind it. -/
theorem waiting_head (root : Option Handler → Option Handler) (P : Parcel → Bool) {q q' : Queue}
    {post : Queue.Task} (hpost : q.pending[0]? = some post)
    (hpending : q'.pending = q.pending.eraseIdx 0) :
    (Stage.queue q).waiting root P =
      [parcel root post.request].filter P ++ (Stage.queue q').waiting root P := by
  cases hlist : q.pending with
  | nil =>
    rw [hlist] at hpost
    cases hpost
  | cons first rest =>
    rw [hlist] at hpost
    cases hpost
    simp only [Stage.waiting, hpending, hlist, List.map_cons, List.eraseIdx_zero, List.tail_cons]
    rw [← List.filter_append, List.singleton_append]

/-- What the task of a post hands on goes from the next object along the way. -/
theorem handed_advance (names : Names) (rank : ℕ → ℕ) (hrooted : Rooted names root) {n k t : ℕ}
    {ns : List ℕ} (hnodup : (t :: ns).Nodup) {q : Queue} (hq : p.node n = .queue q)
    {post : Queue.Task} (hpost : q.pending[k]? = some post) (hleads : (p.node n).Leads root P t)
    (hlane : Lane (Stage.Leads root P) Stage.Ends p'.node (t :: ns)) :
    Advances root P (t :: ns) ((p.handed names n k).flatMap fun c => goods root P c.2) p'
      ((p.handed names n k).foldl (fun p c => p.call names rank c) p') := by
  refine calls_advance _ fun c hc N hN => ?_
  obtain hnone | ⟨hP, hc'⟩ := (handed_goods hrooted hq hpost).2 c hc
  · rw [hnone]
    exact cascade_advance_of_load_eq_nil (Stage.orderly hrooted) hnone N
  · obtain ⟨j, c⟩ := c
    obtain rfl : j = t := by
      rw [hq] at hleads
      exact hleads.2.2 _ hP j hc'
    exact cascade_advance (Stage.orderly hrooted) (c := (j, c)) (hN.lane hlane) hnodup

/-- The first post of a queue on the way is run: its message is handed on along the way. -/
theorem run_on_way (names : Names) (rank : ℕ → ℕ) (hrooted : Rooted names root)
    (hnodup : r.Nodup) (hway : OnWay root P r p) {n : ℕ} (hn : n ∈ r) {q : Queue}
    (hq : p.node n = .queue q) {post : Queue.Task} (hpost : q.pending[0]? = some post) :
    let p' := (p.handed names n 0).foldl (fun p c => p.call names rank c) (p.settle n 0 (.run 0))
    OnWay root P r p' ∧ List.Sublist (lined root P r p') (lined root P r p) := by
  intro p'
  obtain ⟨q', hnode, hshown, hpending, hsuspended, htarget⟩ :=
    settle_post root P (Or.inl rfl) hq hpost
  have hwaiting := waiting_eraseIdx root P hpending
  have hsettled : Standing (Stage.Leads root P) Stage.Ends p (p.settle n 0 (.run 0)) :=
    standing_settle hq hnode hwaiting hsuspended htarget
  obtain ⟨pre, t, ns, rfl, hleads, hlane⟩ := exists_split hn hq hway.lane
  have hgoods := (handed_goods (P := P) hrooted hq hpost).1
  have hparts := List.nodup_append.mp hnodup
  have hnot : n ∉ t :: ns := (List.nodup_cons.mp hparts.2.1).1
  have hadvance : Advances root P (t :: ns) ((p.handed names n 0).flatMap fun c => goods root P c.2)
      (p.settle n 0 (.run 0)) p' :=
    handed_advance names rank hrooted (List.nodup_cons.mp hparts.2.1).2 hq hpost hleads
      (hsettled.lane hlane)
  -- the objects before the next one are as the workflow has left them
  have hkept : ∀ j ∉ t :: ns, (p'.node j).waiting root P =
      (Function.update p.node n (.queue q') j).waiting root P := fun j hj => by
    rw [hadvance.others j hj, hnode]
  have hpre : ∀ j ∈ pre, (p'.node j).waiting root P = (p.node j).waiting root P := by
    intro j hj
    have hne : j ≠ n := hparts.2.2 j hj n List.mem_cons_self
    rw [hkept j fun h => hparts.2.2 j hj j (List.mem_cons_of_mem n h) rfl,
      Function.update_of_ne hne]
  refine ⟨⟨(hsettled.trans hadvance.standing).lane hway.lane, fun j hj => ?_⟩, ?_⟩
  · have hne : j ≠ n := fun h => hj (h ▸ hn)
    rw [hkept j fun h => hj (List.mem_append_right _ (List.mem_cons_of_mem n h)),
      Function.update_of_ne hne]
    exact hway.nowhere j hj
  · have hnext : backlogs (Stage.waiting root P) (p.settle n 0 (.run 0)).node (t :: ns) =
        backlogs (Stage.waiting root P) p.node (t :: ns) := by
      refine backlogs_congr fun j hj => ?_
      rw [hnode, Function.update_of_ne fun h : j = n => hnot (h ▸ hj)]
    have horder := hadvance.order
    rw [hnext, hshown] at horder
    have hself := hkept n hnot
    rw [Function.update_self] at hself
    have hcons : ∀ node : ℕ → Stage, backlogs (Stage.waiting root P) node (pre ++ n :: t :: ns) =
        backlogs (Stage.waiting root P) node (t :: ns) ++ (node n).waiting root P ++
          backlogs (Stage.waiting root P) node pre := by
      intro node
      rw [backlogs_append, backlogs_cons]
    have hmoved := (horder.trans (hgoods.append_left _)).append_right
      ((Stage.queue q').waiting root P ++ backlogs (Stage.waiting root P) p.node pre)
    rw [lined, lined, hcons, hcons, hself, hq, waiting_head root P hpost hpending,
      backlogs_congr hpre]
    simpa only [List.append_assoc] using hmoved

/-- A post that is run elsewhere has no message of the kind. -/
theorem run_off_way (names : Names) (rank : ℕ → ℕ) (hrooted : Rooted names root)
    (hway : OnWay root P r p) {n : ℕ} (hn : n ∉ r) (k : ℕ) {q : Queue}
    (hq : p.node n = .queue q) {post : Queue.Task} (hpost : q.pending[k]? = some post) :
    Advances root P r [] p
      ((p.handed names n k).foldl (fun p c => p.call names rank c) (p.settle n k (.run k))) := by
  have hnone : (Stage.queue q).waiting root P = [] := hq ▸ hway.nowhere n hn
  obtain ⟨q', hnode, hshown, hpending, hsuspended, htarget⟩ :=
    settle_post root P (Or.inl rfl) hq hpost
  have hwaiting := waiting_eraseIdx root P hpending
  have hparcel : P (parcel root post.request) = false := by
    have hmem := List.mem_map_of_mem (f := fun post : Queue.Task => parcel root post.request)
      (List.mem_of_getElem? hpost)
    exact eq_false_of_ne_true (List.filter_eq_nil_iff.mp hnone _ hmem)
  obtain ⟨hgoods, _⟩ := handed_goods (p := p) hrooted hq hpost
  have hempty : [parcel root post.request].filter P = [] := by
    rw [List.filter_cons_of_neg (by simp [hparcel]), List.filter_nil]
  have hcalls : ((p.handed names n k).flatMap fun c => goods root P c.2) = [] :=
    List.eq_nil_of_sublist_nil (hempty ▸ hgoods)
  have hsettled : Advances root P r [] p (p.settle n k (.run k)) := by
    refine .of_same (standing_settle hq hnode hwaiting hsuspended htarget) (fun j => ?_) hshown
    rw [hnode]
    by_cases hj : j = n
    · subst hj
      rw [Function.update_self, hq, hnone]
      exact List.eq_nil_of_sublist_nil (hnone ▸ hwaiting)
    · rw [Function.update_of_ne hj]
  refine hsettled.trans ?_
  rw [← hcalls]
  refine calls_advance _ fun c hc N _ => ?_
  rw [List.flatMap_eq_nil_iff.mp hcalls c hc]
  exact cascade_advance_of_load_eq_nil (Stage.orderly hrooted)
    (List.flatMap_eq_nil_iff.mp hcalls c hc) N

/-- Nothing moves if no call goes in. -/
theorem OnWay.of_same (hway : OnWay root P r p) (hp : Advances root P r [] p p') :
    OnWay root P r p' ∧ List.Sublist (lined root P r p') (lined root P r p ++ []) :=
  ⟨hway.of_advance hp, hp.order⟩

/-- Suspending and resuming moves nothing, and what has led on the way still does. -/
theorem suspend_on_way (hway : OnWay root P r p) {n : ℕ} {flag : Bool}
    (ha : (Act.suspend n flag).InTurn root P r p) (shown : List Event) :
    let p' : Line := { node := Function.update p.node n ((p.node n).suspend flag), shown }
    OnWay root P r p' ∧
      backlogs (Stage.waiting root P) p'.node r = backlogs (Stage.waiting root P) p.node r := by
  intro p'
  have hwaiting : ∀ j, (p'.node j).waiting root P = (p.node j).waiting root P := by
    intro j
    show (Function.update p.node n _ j).waiting root P = _
    by_cases hj : j = n
    · subst hj
      rw [Function.update_self, Stage.suspend_waiting]
    · rw [Function.update_of_ne hj]
  refine ⟨⟨hway.lane.mono fun j hj => ?_, fun j hj => ?_⟩, backlogs_congr fun j _ => hwaiting j⟩
  · show (∀ t, _ → (Function.update p.node n _ j).Leads root P t) ∧
      (_ → (Function.update p.node n _ j).Ends)
    by_cases hjn : j = n
    · subst hjn
      rw [Function.update_self]
      have hswitch := ha hj
      cases hnode : p.node j with
      | broker b =>
        rw [hnode] at hswitch
        exact hswitch.elim
      | statistics s => exact ⟨fun t h => ⟨nofun, h.2.1, h.2.2⟩, fun h => by cases h⟩
      | queue q =>
        rw [hnode] at hswitch
        exact ⟨fun t h => ⟨nofun, hswitch, h.2.2⟩, fun h => by cases h⟩
      | leaf => exact ⟨fun t h => h, fun h => h⟩
    · rw [Function.update_of_ne hjn]
      exact ⟨fun _ h => h, fun h => h⟩
  · rw [hwaiting]
    exact hway.nowhere j hj

/-- **One step.** What goes in comes after what is there. -/
theorem step_in_order (names : Names) (rank : ℕ → ℕ) (hrooted : Rooted names root)
    (hnodup : r.Nodup) (hway : OnWay root P r p) (ha : a.InTurn root P r p) :
    OnWay root P r (step names rank p a) ∧
      List.Sublist (lined root P r (step names rank p a))
        (backlogs (Stage.waiting root P) p.node r ++ a.goods root P) := by
  have hway' : OnWay root P r { p with shown := [] } := ⟨hway.lane, hway.nowhere⟩
  have hstill : ∀ {l : List Parcel}, l ++ [] = l := List.append_nil _
  cases a with
  | enter n c =>
    have horderly := Stage.orderly (P := P) hrooted
    by_cases hgoods : goods root P c = []
    · have hadvance : Advances root P r [] { p with shown := [] }
          (step names rank p (.enter n c)) :=
        cascade_advance_of_load_eq_nil horderly (c := (n, c)) hgoods _
      rw [Act.goods, hgoods]
      exact hway'.of_same hadvance
    · obtain ⟨r', rfl⟩ := List.head?_eq_some_iff.mp (ha.resolve_left hgoods)
      have hadvance : Advances root P (n :: r') (goods root P c) { p with shown := [] }
          (step names rank p (.enter n c)) :=
        cascade_advance horderly (c := (n, c)) hway'.lane hnodup
      exact ⟨hway'.of_advance hadvance, hadvance.order⟩
  | run n k =>
    show _ ∧ List.Sublist _ (_ ++ [])
    rw [hstill]
    cases hpost : (p.node n).post k with
    | none =>
      have hsettle : settle n k (.run k) { p with shown := [] } = { p with shown := [] } :=
        settle_of_post hpost
      have hposted : handed names n k { p with shown := [] } = [] := handed_of_post hpost
      simp only [step, exec, hsettle, hposted]
      exact ⟨hway', List.Sublist.refl _⟩
    | some post =>
      obtain ⟨q, hq, hget⟩ := Stage.post_eq_some_iff.mp hpost
      by_cases hn : n ∈ r
      · obtain rfl := ha hn
        exact run_on_way names rank hrooted hnodup hway' hn hq hget
      · have hadvance := run_off_way names rank hrooted hway' hn k hq hget
        have horder := hway'.of_same hadvance
        rwa [List.append_nil] at horder
  | drop n k =>
    show _ ∧ List.Sublist _ (_ ++ [])
    rw [hstill]
    exact drop_lined hway' n k
  | track n id =>
    refine hway'.of_same (advances_of_unmoved (fun j => ?_) rfl)
    show Stage.Unmoved root P (p.node j) (Function.update p.node n ((p.node n).track id) j)
    by_cases hj : j = n
    · subst hj
      rw [Function.update_self]
      exact Stage.track_unmoved id _
    · rw [Function.update_of_ne hj]
      exact .refl _
  | suspend n flag =>
    show _ ∧ List.Sublist _ (_ ++ [])
    obtain ⟨hway', hsame⟩ := suspend_on_way hway ha []
    rw [hstill, ← hsame]
    exact ⟨hway', List.Sublist.refl _⟩
  | expire t =>
    refine hway'.of_same (advances_of_unmoved (fun n => ?_) rfl)
    obtain ⟨hother, hself⟩ := Stage.expire_unmoved root P t (p.node n)
    show Stage.Unmoved root P (p.node n)
      (if n = t then ((p.node n).expire t).destroy else (p.node n).expire t)
    split
    · exact hself
    · exact hother

/-- **Messages that go the same way.** Messages of a kind enter at the first object of a way, the
    pointers of which all of them follow, and wait at first on the way only. If the workflows run
    the posts of the queues on the way in turn, and no queue there is suspended while some of them
    wait, then in every run what the object at the end has got, and after it what still waits, from
    the last queue to the first, is in the order in which it has entered, whatever else goes
    through the line, is tracked, dropped, or lost. -/
theorem in_order (names : Names) (root : Option Handler → Option Handler) (P : Parcel → Bool)
    (rank : ℕ → ℕ) (r : List ℕ) (p : Line) (acts : List Act) (hrooted : Rooted names root)
    (hnodup : r.Nodup) (hway : OnWay root P r p)
    (hacts : Along (step names rank) (fun p a => a.InTurn root P r p) p acts) :
    List.Sublist
      ((p.events names rank acts).flatMap (Event.delivery root P) ++
        backlogs (Stage.waiting root P) (run (step names rank) p acts).node r)
      (backlogs (Stage.waiting root P) p.node r ++ acts.flatMap (Act.goods root P)) := by
  have hrun : OnWay root P r (run (step names rank) p acts) ∧ List.Sublist
      ((p.events names rank acts).flatMap (Event.delivery root P) ++
        backlogs (Stage.waiting root P) (run (step names rank) p acts).node r)
      (backlogs (Stage.waiting root P) p.node r ++ acts.flatMap (Act.goods root P)) := by
    induction acts using List.reverseRecOn with
    | nil => exact ⟨hway, by simp [events]⟩
    | append_singleton acts a ih =>
      obtain ⟨hacts, ha⟩ := (along_concat p acts a).mp hacts
      obtain ⟨hway', hih⟩ := ih hacts
      obtain ⟨hstep, horder⟩ := step_in_order names rank hrooted hnodup hway' ha
      rw [run_concat, events_concat, List.flatMap_append, List.flatMap_append,
        List.flatMap_singleton]
      refine ⟨hstep, ?_⟩
      have hbefore := hih.append_right (a.goods root P)
      rw [List.append_assoc] at hbefore
      have hmoved := (horder.append_left ((p.events names rank acts).flatMap
        (Event.delivery root P))).trans hbefore
      simpa only [lined, List.append_assoc] using hmoved
  exact hrun.2

/-- The messages of the source 7. -/
def ofSeven (x : Parcel) : Bool := x.2.1 = 7

/-- The source 8 sends in between, the first message of 7 is dropped, and the queue is suspended
    when the others have gone. -/
def mixedRun : List Act :=
  [.enter 0 (.performIo (some [1]) 7 none), .enter 0 (.performIo (some [2]) 7 (some 5)),
    .enter 2 (.performIo (some [9]) 8 none), .enter 0 (.performIo (some [3]) 7 (some 6)),
    .drop 2 0, .run 2 0, .run 2 0, .run 2 0, .suspend 2 true,
    .enter 0 (.performIo (some [4]) 7 none), .suspend 2 false,
    .enter 0 (.performIo (some [5]) 7 none)]

theorem onWay_threeStages : OnWay lastDigits ofSeven [0, 1, 2, 3] threeStages where
  lane := by
    refine ⟨⟨nofun, trivial, fun x _ t ht => ?_⟩, ⟨nofun, trivial, fun x _ t ht => ?_⟩,
      ⟨nofun, fun _ => rfl, fun x _ t ht => ?_⟩, rfl⟩
    · obtain ⟨d, _⟩ := x
      cases d with
      | none => exact (Option.some.inj ht).symm
      | some data => exact (Option.some.inj ht).symm
    · exact (Option.some.inj ht).symm
    · exact (Option.some.inj ht).symm
  nowhere n _ := by
    match n with
    | 0 => rfl
    | 1 => rfl
    | 2 => rfl
    | n + 3 => rfl

/-- The object outside has got the messages 2, 3 and 4 of the source, and 5 waits. -/
theorem in_order_mixedRun :
    List.Sublist
      ((threeStages.events digits (3 - ·) mixedRun).flatMap
          (Event.delivery lastDigits ofSeven) ++
        backlogs (Stage.waiting lastDigits ofSeven)
          (run (step digits (3 - ·)) threeStages mixedRun).node [0, 1, 2, 3])
      (backlogs (Stage.waiting lastDigits ofSeven) threeStages.node [0, 1, 2, 3] ++
        mixedRun.flatMap (Act.goods lastDigits ofSeven)) ∧
      (threeStages.events digits (3 - ·) mixedRun).flatMap (Event.delivery lastDigits ofSeven) =
        [(some [2], 7, some 5), (some [3], 7, some 6), (some [4], 7, none)] :=
  ⟨in_order digits lastDigits ofSeven (3 - ·) [0, 1, 2, 3] threeStages mixedRun rooted_digits
    (by decide) onWay_threeStages (by decide), by decide⟩

end Line

end WfcIo

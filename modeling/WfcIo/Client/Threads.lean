import WfcIo.Client.Upsert

/-!
# Concurrent calls of the client map

The calls `reg_io`, `perform_io` and `unreg_io` of several threads, each in its atomic
sections. Between two sections a call works on the adapter pointer it has found, which
the map's lock does not protect: `unreg_io` can put the adapter into the pool while
another call still has it.

## Main definitions

- `Call` — the local states of the calls, and `Call.sections`
- `Call.inHand` — the id a call works for and the adapter it has found
- `Call.Exclusive` — a call about to use an adapter is the only one that may use it
- `Call.Unshared` — no adapter goes to the pool while another call has it

## Main results

- `Call.serial_eq` — a call that is not interrupted is the atomic call
- `Call.calls_exclusive` — in an interleaving without shared adapters the use is exclusive
-/

namespace WfcIo

open Foundation

/-- The local state of a call. `regIo` and `performIo` with a returned `upsert_` (or
    `find`) are about to call the adapter. -/
inductive Call
  /-- About to read `_stop_flag`. -/
  | beginRegIo (id : IoId) (itf : Option Source)
  | beginUnregIo (id : IoId)
  | beginPerformIo (d : DataPtr) (id : IoId) (handler : Option Handler) (snd : Sending)
  | regIo (itf : Option Source) (u : Upsert)
  /-- About to execute `find`. -/
  | findPerformIo (d : DataPtr) (id : IoId) (handler : Option Handler) (snd : Sending)
  | performIo (d : DataPtr) (handler : Option Handler) (snd : Sending) (u : Upsert)
  /-- About to execute `find`. -/
  | findUnregIo (id : IoId)
  /-- About to call `unreg_io` of the adapter. -/
  | unregIo (id : IoId) (cli : ℕ)
  /-- About to erase the id and pool the adapter. -/
  | eraseAndPool (id : IoId) (cli : ℕ)
  /-- About to stop an adapter that was not pooled. -/
  | discard (cli : ℕ)
  | done
  deriving DecidableEq

namespace Call

/-- The calls. -/
inductive Op
  | regIo (id : IoId) (itf : Option Source)
  | unregIo (id : IoId)
  | performIo (d : DataPtr) (id : IoId) (handler : Option Handler) (snd : Sending)
  deriving DecidableEq

def enter : Op → Call
  | .regIo id itf => beginRegIo id itf
  | .unregIo id => beginUnregIo id
  | .performIo d id handler snd => beginPerformIo d id handler snd

/-- The next section of a call. (The last pointer to an adapter that is discarded may be
    in the hands of another call; the adapter is then destroyed later, which calls its
    holder and changes nothing in the map.) -/
def step (m : ClientTcpMap) : Call → ClientTcpMap × Call
  | beginRegIo id itf => (m, if m.stopFlag then done else regIo itf (.lookup id))
  | beginUnregIo id => (m, if m.stopFlag then done else findUnregIo id)
  | beginPerformIo d id handler snd =>
    (m, if m.stopFlag then done else findPerformIo d id handler snd)
  | regIo itf (.returned id cli) => (m.call cli (ClientTcpAdapter.regIo id itf), done)
  | regIo itf u =>
    let r := u.step m
    (r.1, regIo itf r.2)
  | findPerformIo d id handler snd =>
    match m.find id with
    | some cli => (m, performIo d handler snd (.returned id cli))
    | none => (m, performIo d handler snd (.lookup id))
  | performIo d handler snd (.returned id cli) =>
    (m.call cli (ClientTcpAdapter.performIo d id handler snd), done)
  | performIo d handler snd u =>
    let r := u.step m
    (r.1, performIo d handler snd r.2)
  | findUnregIo id =>
    match m.find id with
    | some cli => (m, unregIo id cli)
    | none => (m, done)
  | unregIo id cli => (m.unregClient id cli, eraseAndPool id cli)
  | eraseAndPool id cli =>
    let r := m.eraseAndPool id cli
    (r.1, if r.2 then done else discard cli)
  | discard cli => (m.discard cli, done)
  | done => (m, done)

def sections : Sections ClientTcpMap Op Call := ⟨enter, step⟩

def Op.act : Op → ClientTcpMap.Act
  | .regIo id itf => .regIo id itf
  | .unregIo id => .unregIo id
  | .performIo d id handler snd => .performIo d id handler snd

/-- A call that is not interrupted is the atomic call. -/
theorem alone_eq (m : ClientTcpMap) (op : Op) :
    (sections.alone 5 m (enter op)).1 = m.exec op.act := by
  cases op with
  | regIo id itf =>
    simp only [ClientTcpMap.exec, Op.act, ClientTcpMap.regIo, ClientTcpMap.upsert_]
    cases hstop : m.stopFlag <;> cases hfind : m.find id <;>
      simp [Sections.alone, sections, enter, step, Upsert.step, hstop, hfind]
  | unregIo id =>
    simp only [ClientTcpMap.exec, Op.act, ClientTcpMap.unregIo]
    cases hstop : m.stopFlag <;> cases hfind : m.find id with
    | none => simp [Sections.alone, sections, enter, step, hstop, hfind]
    | some cli =>
      cases hpool : ((m.unregClient id cli).eraseAndPool id cli).2 <;>
        simp [Sections.alone, sections, enter, step, hstop, hfind, hpool]
  | performIo d id handler snd =>
    simp only [ClientTcpMap.exec, Op.act, ClientTcpMap.performIo, ClientTcpMap.create,
      ClientTcpMap.upsert_]
    cases hstop : m.stopFlag <;> cases hfind : m.find id <;>
      simp [Sections.alone, sections, enter, step, Upsert.step, hstop, hfind]

/-- Calls that do not overlap do to the map what the atomic calls do. -/
theorem serial_eq {c : Config ClientTcpMap Call} {i : ℕ} (hi : c.calls i = none) (op : Op) :
    (run sections.next c (.enter i op :: List.replicate 5 (.resume i))).shared =
      c.shared.exec op.act := by
  rw [sections.run_alone 5 hi op]
  exact alone_eq c.shared op

/-- The id a call works for and the adapter it has found, until it is through with it. -/
def inHand : Call → Option (IoId × ℕ)
  | regIo _ (.returned id cli) => some (id, cli)
  | performIo _ _ _ (.returned id cli) => some (id, cli)
  | unregIo id cli => some (id, cli)
  | eraseAndPool id cli => some (id, cli)
  | _ => none

/-- A call about to call `reg_io` or `perform_io` of an adapter for an id finds it in no
    pool and mapped under no other id. -/
def Exclusive (m : ClientTcpMap) : Call → Prop
  | regIo _ (.returned id cli) | performIo _ _ _ (.returned id cli) =>
    cli ∉ m.startupPool ++ m.secondaryPool ++ m.primaryPool ∧ ∀ k, m.find k = some cli → k = id
  | _ => True

/-- If the move puts an adapter into the secondary pool, no other call has it. -/
def Unshared (c : Config ClientTcpMap Call) (a : Move Op) : Prop :=
  ∀ i id cli, a = .resume i → c.calls i = some (eraseAndPool id cli) →
    c.shared.secondaryPool.length < c.shared.opt.secondaryPool →
    ∀ j t k, j ≠ i → c.calls j = some t → t.inHand ≠ some (k, cli)

/-! ### What a section does to the ledger -/

/-- A section leaves the ledger alone and has what it had or has found, or it is the
    second section of `upsert_`, or that of `unreg_io` that takes the id out. -/
theorem step_cases (m : ClientTcpMap) (t : Call) :
    ((step m t).1.ledger = m.ledger ∧ (step m t).1.nextId = m.nextId ∧
      ∀ id x, (step m t).2.inHand = some (id, x) → t.inHand = some (id, x) ∨ m.find id = some x) ∨
    (∃ id, (step m t).1 = (m.createAndInsert id).1 ∧
      (step m t).2.inHand = some (id, (m.createAndInsert id).2)) ∨
    (∃ id cli, t = eraseAndPool id cli ∧ (step m t).1 = (m.eraseAndPool id cli).1 ∧
      (step m t).2.inHand = none) := by
  -- a section that only reads, and goes on to `u`
  have hread : ∀ {t u}, step m t = (m, u) → (∀ id x, u.inHand = some (id, x) →
      t.inHand = some (id, x) ∨ m.find id = some x) →
      (step m t).1.ledger = m.ledger ∧ (step m t).1.nextId = m.nextId ∧
        ∀ id x, (step m t).2.inHand = some (id, x) →
          t.inHand = some (id, x) ∨ m.find id = some x := by
    intro t u ht hu
    rw [ht]
    exact ⟨rfl, rfl, hu⟩
  -- a section that looks for the adapter of `id`, and goes on to `u` if there is one
  have hfound : ∀ {t} (id : IoId) (u : ℕ → Call) (v : Call),
      (∀ cli, m.find id = some cli → step m t = (m, u cli)) →
      (m.find id = none → step m t = (m, v)) →
      (∀ cli, (u cli).inHand = some (id, cli)) → v.inHand = none →
      (step m t).1.ledger = m.ledger ∧ (step m t).1.nextId = m.nextId ∧
        ∀ id x, (step m t).2.inHand = some (id, x) →
          t.inHand = some (id, x) ∨ m.find id = some x := by
    intro t id u v hsome hnone hu hv
    cases hfind : m.find id with
    | some cli =>
      refine hread (hsome cli hfind) fun k x h => Or.inr ?_
      cases (hu cli).symm.trans h
      exact hfind
    | none =>
      refine hread (hnone hfind) fun k x h => ?_
      cases hv.symm.trans h
  cases t with
  | beginRegIo id itf =>
    refine Or.inl (hread rfl fun k x h => ?_)
    split at h <;> cases h
  | beginUnregIo id =>
    refine Or.inl (hread rfl fun k x h => ?_)
    split at h <;> cases h
  | beginPerformIo d id handler snd =>
    refine Or.inl (hread rfl fun k x h => ?_)
    split at h <;> cases h
  | regIo itf u =>
    cases u with
    | lookup id =>
      left
      refine hfound id (fun cli => regIo itf (.returned id cli)) (regIo itf (.create id))
        (fun cli h => ?_) (fun h => ?_) (fun _ => rfl) rfl
      · simp only [step, Upsert.step, h]
      · simp only [step, Upsert.step, h]
    | create id => exact Or.inr (Or.inl ⟨id, rfl, rfl⟩)
    | returned id cli => exact Or.inl ⟨rfl, rfl, fun k x h => by cases h⟩
  | findPerformIo d id handler snd =>
    left
    refine hfound id (fun cli => performIo d handler snd (.returned id cli))
      (performIo d handler snd (.lookup id)) (fun cli h => ?_) (fun h => ?_) (fun _ => rfl) rfl
    · simp only [step, h]
    · simp only [step, h]
  | performIo d handler snd u =>
    cases u with
    | lookup id =>
      left
      refine hfound id (fun cli => performIo d handler snd (.returned id cli))
        (performIo d handler snd (.create id)) (fun cli h => ?_) (fun h => ?_) (fun _ => rfl) rfl
      · simp only [step, Upsert.step, h]
      · simp only [step, Upsert.step, h]
    | create id => exact Or.inr (Or.inl ⟨id, rfl, rfl⟩)
    | returned id cli => exact Or.inl ⟨rfl, rfl, fun k x h => by cases h⟩
  | findUnregIo id =>
    left
    refine hfound id (fun cli => unregIo id cli) done (fun cli h => ?_) (fun h => ?_)
      (fun _ => rfl) rfl
    · simp only [step, h]
    · simp only [step, h]
  | unregIo id cli => exact Or.inl ⟨rfl, rfl, fun k x h => Or.inl h⟩
  | eraseAndPool id cli =>
    refine Or.inr (Or.inr ⟨id, cli, rfl, rfl, ?_⟩)
    simp only [step]
    split <;> rfl
  | discard cli => exact Or.inl ⟨rfl, rfl, fun k x h => by cases h⟩
  | done => exact Or.inl ⟨rfl, rfl, fun k x h => by cases h⟩

/-! ### Exclusive use -/

/-- What a call relies on: nobody else may be using the adapter it has. -/
def Own (m : ClientTcpMap) (t : Call) : Prop :=
  ∀ id x, t.inHand = some (id, x) → m.ledger.ReservedFor id x ∧ x < m.nextId

theorem sound : sections.Sound Unshared ClientTcpMap.Owned Own where
  enter := by
    intro m op _ id x h
    cases op <;> cases h
  section_ := by
    intro c i t hi hG hI hOwn
    show (step c.shared t).1.Owned ∧ Own (step c.shared t).1 (step c.shared t).2
    obtain ⟨hL, hn, hhand⟩ | ⟨id, heq, hhand⟩ |
        ⟨id, cli, rfl, heq, hhand⟩ := step_cases c.shared t
    · refine ⟨⟨hL ▸ hI.exclusive, fun x hx => hn ▸ hI.allocated x (hL ▸ hx)⟩, fun id x h => ?_⟩
      rw [hL, hn]
      obtain h | hfind := hhand id x h
      · exact hOwn id x h
      · exact ⟨hI.exclusive.reservedFor hfind, hI.allocated x (Or.inl ⟨id, hfind⟩)⟩
    · rw [heq]
      refine ⟨hI.createAndInsert id, fun k x h => ?_⟩
      rw [hhand] at h
      cases h
      exact hI.reserved_created id
    · rw [heq]
      obtain ⟨hres, hlt⟩ := hOwn id cli rfl
      refine ⟨hI.eraseAndPool hres hlt, fun k x h => ?_⟩
      rw [hhand] at h
      cases h
  stable := by
    intro c i t j u hi hj hu hG hI hOwn hOther k x h
    obtain ⟨hres, hlt⟩ := hOther k x h
    show (step c.shared t).1.ledger.ReservedFor k x ∧ x < (step c.shared t).1.nextId
    obtain ⟨hL, hn, _⟩ | ⟨id, heq, _⟩ | ⟨id, cli, rfl, heq, _⟩ := step_cases c.shared t
    · rw [hL, hn]
      exact ⟨hres, hlt⟩
    · rw [heq]
      exact ⟨ClientTcpMap.reserved_createAndInsert hres hlt id,
        hlt.trans_le (ClientTcpMap.Steady.createAndInsert c.shared id).nextId⟩
    · rw [heq]
      refine ⟨?_, (c.shared.eraseAndPool_nextId id cli).symm ▸ hlt⟩
      obtain ⟨hroom, hL⟩ | ⟨_, hL⟩ := c.shared.eraseAndPool_ledger id cli
      · -- the other call does not have the adapter that goes to the pool
        have hne : x ≠ cli := fun heq => hG i id cli rfl hi hroom j u k hj hu (heq ▸ h)
        rw [hL]
        exact (hres.drop id).park hne
      · rw [hL]
        exact hres.drop id

/-- **Exclusive use.** From every state the map can reach, in an interleaving in which no
    adapter goes to the pool while another call has it, a call that is about to call
    `reg_io` or `perform_io` of an adapter finds it in no pool and mapped under no other
    id, and no adapter is in the secondary pool twice. -/
theorem calls_exclusive (refuses : ℕ → Bool) (acts : List ClientTcpMap.Act) (as : List (Move Op))
    (has : Along sections.next Unshared
      (Config.idle (run ClientTcpMap.step (ClientTcpMap.init refuses) acts)) as) :
    let c := run sections.next
      (Config.idle (run ClientTcpMap.step (ClientTcpMap.init refuses) acts)) as
    (∀ i t, c.calls i = some t → Exclusive c.shared t) ∧ c.shared.secondaryPool.Nodup := by
  intro c
  have hgood : Sections.Good ClientTcpMap.Owned Own c :=
    sound.run_good (.idle (ClientTcpMap.run_inv refuses acts).toOwned) has
  refine ⟨fun i t hi => ?_, ?_⟩
  · have hOwn := hgood.calls i t hi
    have hexcl : ∀ id x, t.inHand = some (id, x) →
        x ∉ c.shared.startupPool ++ c.shared.secondaryPool ++ c.shared.primaryPool ∧
          ∀ k, c.shared.find k = some x → k = id := by
      intro id x h
      obtain ⟨⟨hidle, hleased⟩, _⟩ := hOwn id x h
      exact ⟨fun hx => hidle (Multiset.mem_coe.mpr hx), hleased⟩
    cases t with
    | regIo itf u =>
      cases u with
      | returned id cli => exact hexcl id cli rfl
      | _ => trivial
    | performIo d handler snd u =>
      cases u with
      | returned id cli => exact hexcl id cli rfl
      | _ => trivial
    | _ => trivial
  · have hidle : c.shared.pooled.Nodup := Multiset.coe_nodup.mp hgood.shared.exclusive.idle_nodup
    have hsub : c.shared.secondaryPool.Sublist c.shared.pooled :=
      (List.sublist_append_right _ _).trans (List.sublist_append_left _ _)
    exact hidle.sublist hsub

/-- The adapter that a call is about to pool. -/
def aboutToPool : Call → Option ℕ
  | eraseAndPool _ cli => some cli
  | _ => none

section Unshared

variable {c : Config ClientTcpMap Call} {i : ℕ}

theorem unshared_enter (op : Op) : Unshared c (.enter i op) := by
  intro j id cli ha
  cases ha

theorem unshared_of_aboutToPool_eq_none (h : (c.calls i).bind aboutToPool = none) :
    Unshared c (.resume i) := by
  rintro j id cli ⟨⟩ hi
  rw [hi] at h
  cases h

/-- It is enough to look at the slots that are in use. -/
theorem unshared_of_slots {x : ℕ} (slots : List ℕ) (hslots : ∀ j t, c.calls j = some t → j ∈ slots)
    (hi : (c.calls i).bind aboutToPool = some x)
    (h : ∀ j ∈ slots, j ≠ i → ((c.calls j).bind inHand).map Prod.snd ≠ some x) :
    Unshared c (.resume i) := by
  rintro i' id cli ⟨⟩ hcall _ j t k hj ht hhand
  rw [hcall] at hi
  cases hi
  refine h j (hslots j t ht) hj ?_
  rw [ht, Option.bind_some, hhand]
  rfl

end Unshared

/-- The map with the secondary pool in use. -/
def pooling : ClientTcpMap :=
  run ClientTcpMap.step (ClientTcpMap.init fun _ => false)
    [.reconfigureAndStart { secondaryPool := 1 }]

/-- 7 is registered with the adapter of the startup pool, and unregistered while the call for 8
    finds an adapter of its own. -/
def registerAndPool : List (Move Op) :=
  [.enter 0 (.regIo 7 (some 5)), .resume 0, .resume 0, .resume 0, .resume 0,
    .enter 1 (.regIo 8 (some 6)), .resume 1, .resume 1, .enter 2 (.unregIo 7), .resume 2,
    .resume 2, .resume 1, .resume 2]

/-- The adapter goes to the pool, and the call for 9 takes it from there. -/
def poolAndReuse : List (Move Op) :=
  [.resume 2, .enter 3 (.performIo none 9 none (.accepted 0)), .resume 3, .resume 3, .resume 3,
    .resume 3]

/-- At the end the calls for 8 and for 9 are about to use adapters, and the one for 9 has that of
    7. -/
theorem calls_exclusive_reused :
    let c := run sections.next (Config.idle pooling) (registerAndPool ++ poolAndReuse)
    ((∀ i t, c.calls i = some t → Exclusive c.shared t) ∧ c.shared.secondaryPool.Nodup) ∧
      c.calls 1 = some (regIo (some 6) (.returned 8 2)) ∧
      c.calls 3 = some (performIo none none (.accepted 0) (.returned 9 1)) := by
  refine ⟨calls_exclusive (fun _ => false) [.reconfigureAndStart { secondaryPool := 1 }] _
    ((along_append _ registerAndPool poolAndReuse).mpr ⟨?_, ?_⟩), by decide, by decide⟩
  · refine ⟨unshared_enter _, ?_, ?_, ?_, ?_, unshared_enter _, ?_, ?_, unshared_enter _, ?_, ?_,
      ?_, ?_, trivial⟩
    all_goals exact unshared_of_aboutToPool_eq_none (by decide)
  · refine ⟨?_, unshared_enter _, ?_, ?_, ?_, ?_, trivial⟩
    · -- the call for 8 has another adapter
      refine unshared_of_slots (x := 1) [0, 1, 2] (fun j t hj => ?_) (by decide) (by decide)
      have hentered : j ∈ Sections.entered registerAndPool := sections.mem_entered hj
      exact hentered
    all_goals exact unshared_of_aboutToPool_eq_none (by decide)

/-- An unregistration pools the adapter that a `perform_io` of the same id has found. -/
theorem calls_not_exclusive :
    ¬ ∀ (refuses : ℕ → Bool) (acts : List ClientTcpMap.Act) (as : List (Move Op)),
      let c := run sections.next
        (Config.idle (run ClientTcpMap.step (ClientTcpMap.init refuses) acts)) as
      (∀ i t, c.calls i = some t → Exclusive c.shared t) ∧ c.shared.secondaryPool.Nodup := by
  intro hall
  have h := hall (fun _ => false)
    [.reconfigureAndStart { secondaryPool := 1 }, .regIo 7 (some 5)]
    [.enter 0 (.unregIo 7), .enter 1 (.performIo none 7 none .rejected), .resume 0, .resume 0,
      .resume 1, .resume 1, .resume 0, .resume 0]
  have hcall := h.1 1 (.performIo none none .rejected (.returned 7 1)) (by decide)
  exact absurd hcall.1 (by decide)

end Call

end WfcIo

import WfcIo.Tank.Check
import WfcIo.Foundation.Simulation
import WfcIo.Foundation.Tickets

/-!
# Ids of calls that are made at once

All tanks increment and read one `_call_id`, from several threads. `make_request_` increments
it and then reads it again wherever it needs the id: for the call, for the key of the expected
result, and for each `$TANK{ID}` in the text. Each of these accesses is atomic, and between two
of them other calls go on.

## Main definitions

- `Tank.Call`, `Tank.Making` — a call of `make_request_`, and how far it has come
- `Tank.requests` — its accesses to `_call_id`, one at a time
- `Tank.Undisturbed` — no id is taken while another call has yet to read its own
- `Tank.Consistent` — a call uses one id, and no two calls the same

## Main results

- `Tank.alone_makeRequest` — a call that runs alone is `Tank.makeRequest_`
- `Tank.consistent_iff` — which runs are consistent
-/

namespace WfcIo.Tank

open Foundation

/-- A call of `make_request_` of the tank `object`, with a method. -/
structure Call where
  object : ℕ
  opt : TankOptions
  req : Data
  res : Data
  jsonrpc : opt.jsonrpc = true

/-- What comes next: the increment, the id of the call, the key of the expected result, or one
    of the `left` replacements. -/
inductive Place
  | increment
  | serialize
  | store
  | substitute (left : ℕ)
  deriving DecidableEq

/-- A call in progress: the text so far, the id in the call, the key of the expected result, and
    what `$TANK{ID}` has been replaced by. -/
structure Making where
  call : Call
  place : Place := .increment
  req : Data
  id : Option ℤ := none
  key : Option ℤ := none
  substituted : List ℤ := []

/-- Everything that the call has used as its id. -/
def Making.ids (m : Making) : List ℤ := m.id.toList ++ m.key.toList ++ m.substituted

/-- The static `_call_id`, and the `_call_map` of each tank. -/
structure Tanks where
  callId : ℤ := 0
  callMap : ℕ → OrderedMap ℤ Data := fun _ => .empty

/-- The number of times that `$TANK{ID}` stands in the text, if it is replaced. -/
def idCount (env : TankEnv) (opt : TankOptions) (req : Data) : ℕ :=
  if opt.enableVars then
    (env.searchVars req).countP fun cv => cv.varPrefix = "TANK" ∧ cv.name = "ID"
  else 0

/-- The call with the id, as text. -/
def Call.text (env : TankEnv) (call : Call) (id : ℤ) : Data :=
  env.serialize (call.opt.jsonrpcMethod.getD "") call.req id

/-- `make_request_`, one access to `_call_id` at a time. -/
def requests (env : TankEnv) : Sections Tanks Call Making where
  enter call := { call, req := call.req }
  step s m :=
    match m.place with
    | .increment => ({ s with callId := increment s.callId }, { m with place := .serialize })
    | .serialize =>
      (s, { m with req := m.call.text env s.callId, id := some s.callId, place := .store })
    | .store =>
      ({ s with
          callMap := Function.update s.callMap m.call.object
            ((s.callMap m.call.object).assign s.callId m.call.res) },
        { m with key := some s.callId, place := .substitute (idCount env m.call.opt m.req) })
    | .substitute 0 => (s, m)
    | .substitute (left + 1) =>
      (s, { m with substituted := m.substituted ++ [s.callId], place := .substitute left })

/-- An id is taken while no other call is between its own increment and its last reading. -/
def Undisturbed (c : Config Tanks Making) : Move Call → Prop
  | .enter _ _ => True
  | .resume i => ∀ m, c.calls i = some m → m.place = .increment →
    ∀ j m', c.calls j = some m' → m'.place = .increment ∨ m'.place = .substitute 0

/-- All calls have come to an end. -/
def AllMade (c : Config Tanks Making) : Prop :=
  ∀ i m, c.calls i = some m → m.place = .substitute 0

/-- A call uses one id for everything, and no two calls use the same. -/
structure Consistent (c : Config Tanks Making) : Prop where
  equal : ∀ i m, c.calls i = some m → ∀ x ∈ m.ids, ∀ y ∈ m.ids, x = y
  unique : ∀ i j m m', i ≠ j → c.calls i = some m → c.calls j = some m' →
    ∀ x ∈ m.ids, ∀ y ∈ m'.ids, x ≠ y

variable {env : TankEnv} {c₀ : ℤ}

/-! ### A call that runs alone -/

theorem alone_substitute (n : ℕ) (s : Tanks) (m : Making) (h : m.place = .substitute n) :
    ((requests env).alone n s m).1 = s ∧
      ((requests env).alone n s m).2 =
        { m with substituted := m.substituted ++ List.replicate n s.callId
                 place := .substitute 0 } := by
  induction n generalizing m with
  | zero =>
    refine ⟨rfl, ?_⟩
    rw [Sections.alone, List.replicate_zero, List.append_nil, ← h]
  | succ n ih =>
    have hstep : (requests env).step s m = (s, { m with
        substituted := m.substituted ++ [s.callId], place := .substitute n }) := by
      simp only [requests, h]
    obtain ⟨hs, hm⟩ := ih { m with
        substituted := m.substituted ++ [s.callId], place := .substitute n } rfl
    rw [Sections.alone, hstep]
    refine ⟨hs, hm.trans ?_⟩
    rw [List.append_assoc, List.singleton_append, List.replicate_succ]

/-- **A call that runs alone** does to `_call_id` and to the `_call_map` of its tank what
    `make_request_` does, and uses the next id for everything. -/
theorem alone_makeRequest (call : Call) (s : Tanks) (t : Tank) (hid : t.callId = s.callId)
    (hmap : t.callMap = s.callMap call.object) :
    let text := call.text env (increment s.callId)
    let n := idCount env call.opt text
    let r := (requests env).alone (n + 3) s ((requests env).enter call)
    let t' := (t.makeRequest_ env call.opt call.req call.res).2
    r.1.callId = t'.callId ∧ r.1.callMap call.object = t'.callMap ∧
      r.2 = { call, place := .substitute 0, req := text, id := some (increment s.callId)
              key := some (increment s.callId)
              substituted := List.replicate n (increment s.callId) } := by
  intro text n r t'
  obtain ⟨counters, hspec⟩ := makeRequest_spec env call.opt call.req call.res t
  rw [call.jsonrpc, if_pos rfl, hid, hmap] at hspec
  -- three sections on, all that is left is to substitute
  let s' : Tanks :=
    { callId := increment s.callId
      callMap := Function.update s.callMap call.object
        ((s.callMap call.object).assign (increment s.callId) call.res) }
  let m : Making :=
    { call, req := text, id := some (increment s.callId), key := some (increment s.callId)
      place := .substitute n }
  have hthree : r = (requests env).alone n s' m := rfl
  obtain ⟨hs, hm⟩ := @alone_substitute env n s' m rfl
  rw [hthree, hs, hm]
  refine ⟨?_, ?_, rfl⟩
  · rw [show t' = _ from hspec]
  · rw [show t' = _ from hspec]
    exact Function.update_self _ _ _

/-! ### The calls as calls of a ticket counter -/

/-- Whether a call that has read these values of the counter, as numbers of increments, has
    more to read. -/
def more (env : TankEnv) (c₀ : ℤ) (call : Call) : List ℕ → Bool
  | [] => true
  | [_] => true
  | x :: _ :: seen => seen.length < idCount env call.opt (call.text env (increment^[x] c₀))

/-- A call in progress, and what the counter knows of it. -/
inductive Follows (env : TankEnv) (c₀ : ℤ) : Making → Tickets.Taker Call → Prop
  | increment (call : Call) : Follows env c₀ { call, req := call.req } { op := call }
  | serialize (call : Call) (n : ℕ) :
      Follows env c₀ { call, req := call.req, place := .serialize } { op := call, number := some n }
  | store (call : Call) (n x : ℕ) :
      Follows env c₀
        { call, req := call.text env (increment^[x] c₀), id := some (increment^[x] c₀)
          place := .store }
        { op := call, number := some n, seen := [x] }
  | substitute (call : Call) (n x y : ℕ) (seen : List ℕ) (left : ℕ)
      (h : seen.length + left = idCount env call.opt (call.text env (increment^[x] c₀))) :
      Follows env c₀
        { call, req := call.text env (increment^[x] c₀), id := some (increment^[x] c₀)
          key := some (increment^[y] c₀), substituted := seen.map fun z => increment^[z] c₀
          place := .substitute left }
        { op := call, number := some n, seen := x :: y :: seen }

/-- The counter has been incremented `n` times. -/
def Counts (c₀ : ℤ) (s : Tanks) (n : ℕ) : Prop := s.callId = increment^[n] c₀

theorem follows_step (s : Tanks) (n : ℕ) (m : Making) (t : Tickets.Taker Call)
    (hs : Counts c₀ s n) (hm : Follows env c₀ m t) :
    Counts c₀ ((requests env).step s m).1 ((Tickets.takers (more env c₀)).step n t).1 ∧
      Follows env c₀ ((requests env).step s m).2 ((Tickets.takers (more env c₀)).step n t).2 := by
  obtain ⟨callId, callMap⟩ := s
  obtain rfl : callId = increment^[n] c₀ := hs
  cases hm with
  | increment call =>
    exact ⟨(Function.iterate_succ_apply' Tank.increment n c₀).symm, .serialize call (n + 1)⟩
  | serialize call k => exact ⟨rfl, .store call k n⟩
  | store call k x =>
    refine ⟨rfl, .substitute call k x n [] _ ?_⟩
    rw [List.length_nil, zero_add]
  | substitute call k x y seen left h =>
    cases left with
    | zero =>
      have hdone : more env c₀ call (x :: y :: seen) = false := by
        rw [more, ← h, add_zero, decide_eq_false (lt_irrefl _)]
      simp only [requests, Tickets.takers, hdone, Bool.false_eq_true, if_false]
      exact ⟨rfl, .substitute call k x y seen 0 h⟩
    | succ left =>
      have hmore : more env c₀ call (x :: y :: seen) = true := by
        rw [more, ← h, decide_eq_true (by omega)]
      have hlength : (seen ++ [n]).length + left =
          idCount env call.opt (call.text env (increment^[x] c₀)) := by
        rw [← h, List.length_append, List.length_singleton]
        omega
      simp only [requests, Tickets.takers, hmore, if_true]
      refine ⟨rfl, ?_⟩
      have hnext := @Follows.substitute env c₀ call k x y (seen ++ [n]) left hlength
      rwa [List.map_append, List.map_singleton] at hnext

/-- What the calls have used as ids is what they have read from the counter. -/
theorem Follows.ids {m : Making} {t : Tickets.Taker Call} (h : Follows env c₀ m t) :
    m.ids = t.seen.map fun z => Tank.increment^[z] c₀ := by
  cases h <;> rfl

/-- A call that has taken its id has more to read until it has come to an end. -/
theorem Follows.place_iff {m : Making} {t : Tickets.Taker Call} (h : Follows env c₀ m t) :
    (m.place = .increment ↔ t.number = none) ∧
      (m.place = .substitute 0 ↔ t.number ≠ none ∧ more env c₀ t.op t.seen = false) := by
  cases h with
  | increment call => simp
  | serialize call n => simp [more]
  | store call n x => simp [more]
  | substitute call n x y seen left h =>
    simp [more, ← h]

/-! ### Runs -/

/-- The interleaving, and that of the ticket counter. -/
def Agrees (env : TankEnv) (c₀ : ℤ) : Config Tanks Making → Config ℕ (Tickets.Taker Call) → Prop :=
  Config.Related (Counts c₀) (Follows env c₀)

theorem agrees_next (env : TankEnv) (c₀ : ℤ) (c : Config Tanks Making)
    (c' : Config ℕ (Tickets.Taker Call)) (a : Move Call) (h : Agrees env c₀ c c') :
    Agrees env c₀ ((requests env).next c a) ((Tickets.takers (more env c₀)).next c' a) :=
  Sections.related_next .increment follows_step a h

theorem undisturbed_iff {c : Config Tanks Making} {c' : Config ℕ (Tickets.Taker Call)}
    (h : Agrees env c₀ c c') (a : Move Call) :
    Undisturbed c a ↔ Tickets.Undisturbed (more env c₀) c' a := by
  cases a with
  | enter i op => exact Iff.rfl
  | resume i =>
    constructor
    · intro hc t hi ht j u hj hu
      obtain ⟨m, hm, hmt⟩ := h.right hi
      obtain ⟨m', hm', hmu⟩ := h.right hj
      obtain hplace | hplace := hc m hm (hmt.place_iff.1.mpr ht) j m' hm'
      · exact absurd (hmu.place_iff.1.mp hplace) hu
      · exact (hmu.place_iff.2.mp hplace).2
    · intro hc m hi hm j m' hj
      obtain ⟨t, ht, hmt⟩ := h.left hi
      obtain ⟨u, hu, hmu⟩ := h.left hj
      by_cases hnumber : u.number = none
      · exact Or.inl (hmu.place_iff.1.mpr hnumber)
      · have hdone := hc t ht (hmt.place_iff.1.mp hm) j u hu hnumber
        exact Or.inr (hmu.place_iff.2.mpr ⟨hnumber, hdone⟩)

theorem finished_of_allMade {c : Config Tanks Making} {c' : Config ℕ (Tickets.Taker Call)}
    (h : Agrees env c₀ c c') (hc : AllMade c) : Tickets.Finished (more env c₀) c' := by
  intro i t hi
  obtain ⟨m, hm, hmt⟩ := h.right hi
  exact hmt.place_iff.2.mp (hc i m hm)

/-- While the counter has not gone all the way round, different readings are different ids. -/
theorem consistent_iff_separate {c : Config Tanks Making} {c' : Config ℕ (Tickets.Taker Call)}
    (h : Agrees env c₀ c c') (hseen : ∀ i t, c'.calls i = some t → ∀ x ∈ t.seen, x < 2 ^ 32) :
    Consistent c ↔ Tickets.Separate c' := by
  constructor
  · intro hc
    constructor
    · intro i t hi x hx y hy
      obtain ⟨m, hm, hmt⟩ := h.right hi
      have hids := hc.equal i m hm
      rw [hmt.ids] at hids
      exact (increment_iterate_inj (hseen i t hi x hx) (hseen i t hi y hy)).mp
        (hids _ (List.mem_map_of_mem hx) _ (List.mem_map_of_mem hy))
    · intro i j t u hne hi hj x hx y hy hxy
      obtain ⟨m, hm, hmt⟩ := h.right hi
      obtain ⟨m', hm', hmu⟩ := h.right hj
      have hids := hc.unique i j m m' hne hm hm'
      rw [hmt.ids, hmu.ids] at hids
      exact hids _ (List.mem_map_of_mem hx) _ (List.mem_map_of_mem hy) (by rw [hxy])
  · intro hc
    constructor
    · intro i m hi x hx y hy
      obtain ⟨t, ht, hmt⟩ := h.left hi
      rw [hmt.ids] at hx hy
      obtain ⟨k, hk, rfl⟩ := List.mem_map.mp hx
      obtain ⟨l, hl, rfl⟩ := List.mem_map.mp hy
      rw [hc.agree i t ht k hk l hl]
    · intro i j m m' hne hi hj x hx y hy hxy
      obtain ⟨t, ht, hmt⟩ := h.left hi
      obtain ⟨u, hu, hmu⟩ := h.left hj
      rw [hmt.ids] at hx
      rw [hmu.ids] at hy
      obtain ⟨k, hk, rfl⟩ := List.mem_map.mp hx
      obtain ⟨l, hl, rfl⟩ := List.mem_map.mp hy
      exact hc.distinct i j t u hne ht hu k hk l hl
        ((increment_iterate_inj (hseen i t ht k hk) (hseen j u hu l hl)).mp hxy)

/-- **Ids.** With fewer than `2 ^ 32` calls, the ids are right in every run in which no call takes
    its id while another has yet to read; and if all calls have come to an end, only then. -/
theorem consistent_iff (env : TankEnv) (s : Tanks) (as : List (Move Call))
    (hfew : (Sections.entered as).length < 2 ^ 32) :
    (Along (requests env).next Undisturbed (Config.idle s) as →
      Consistent (run (requests env).next (Config.idle s) as)) ∧
    (AllMade (run (requests env).next (Config.idle s) as) →
      Consistent (run (requests env).next (Config.idle s) as) →
      Along (requests env).next Undisturbed (Config.idle s) as) := by
  have hstart : Agrees env s.callId (Config.idle s) (Config.idle 0) := Config.Related.idle rfl
  have hrun := related_run (agrees_next env s.callId) hstart as
  have halong := related_along (agrees_next env s.callId)
    (fun _ _ a h => undisturbed_iff h a) hstart as
  have hnumbered := Tickets.numbered_run (more env s.callId) as
  have hshared := Tickets.shared_le_entered (more env s.callId) as
  have hseparate := consistent_iff_separate hrun (by
    intro i t hi x hx
    cases hnumber : t.number with
    | none =>
      rw [hnumbered.unread i t hi hnumber] at hx
      cases hx
    | some n => exact ((hnumbered.late i t n hi hnumber x hx).2.trans hshared).trans_lt hfew)
  rw [halong, hseparate]
  refine ⟨Tickets.separate_of_undisturbed, fun hmade => ?_⟩
  have hmore : ∀ call, more env s.callId call [] = true := fun _ => rfl
  exact Tickets.undisturbed_of_separate hmore (finished_of_allMade hrun hmade)

/-- A call of the tank `object` without variables. -/
def plainCall (object : ℕ) : Call :=
  { object, opt := { jsonrpcMethod := some "get" }, req := [120], res := [53]
    jsonrpc := by decide }

/-- Two calls, one after the other. -/
theorem consistent_two :
    Consistent (run (requests digitEnv).next (Config.idle {})
      [.enter 0 (plainCall 0), .resume 0, .resume 0, .resume 0,
       .enter 1 (plainCall 1), .resume 1, .resume 1, .resume 1]) := by
  refine (consistent_iff digitEnv {} _ (by decide)).1 ?_
  refine ⟨trivial, fun m hm _ j m' hj => ?_, fun m hm hplace => ?_, fun m hm hplace => ?_,
    trivial, fun m hm _ j m' hj => ?_, fun m hm hplace => ?_, fun m hm hplace => ?_, trivial⟩
  · match j with
    | 0 =>
      cases hj
      exact Or.inl rfl
    | j + 1 => cases hj
  · cases hm
    cases hplace
  · cases hm
    cases hplace
  · match j with
    | 0 =>
      cases hj
      exact Or.inr rfl
    | 1 =>
      cases hj
      exact Or.inl rfl
    | j + 2 => cases hj
  · cases hm
    cases hplace
  · cases hm
    cases hplace

/-- Two calls that take their ids before they read them: both use the second. -/
theorem not_consistent :
    ¬ ∀ (env : TankEnv) (s : Tanks) (as : List (Move Call)),
      (Sections.entered as).length < 2 ^ 32 →
      Consistent (run (requests env).next (Config.idle s) as) := by
  intro hall
  have hconsistent := hall digitEnv {}
    [.enter 0 (plainCall 0), .enter 1 (plainCall 1), .resume 0, .resume 1, .resume 0, .resume 1]
    (by decide)
  exact hconsistent.unique 0 1 _ _ Nat.zero_ne_one rfl rfl 2 (by decide) 2 (by decide) rfl

end WfcIo.Tank

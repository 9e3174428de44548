import WfcIo.Server.Server

/-!
# Servers on one endpoint

A restart on the same endpoint stops the old `impl` first. A restart on another endpoint posts
the stop, so the old one lives on for a while; a further restart that comes back to its
endpoint in that time compares only with the endpoint in between, and starts a second `impl`
beside it.

## Main definitions

- `Server.Start.Clashes` — an `impl` is started on the endpoint of a live one
- `Server.Inv` — a live `impl` is the current one, or its stop is posted
- `Server.Free` — no restart comes back to an endpoint while the stop of an `impl` is posted
  that is live on it

## Main results

- `Server.restart_spec` — what a restart does
- `Server.starts_iff` — one step starts a clashing `impl` exactly if it is such a restart
- `Server.no_clash_iff` — the same for whole runs
-/

namespace WfcIo

open Foundation

namespace Server

/-- An `impl` is started on the endpoint of one that is live. -/
def Start.Clashes (st : Start) : Prop := ∃ j ∈ st.live, j.opt.endpoint = st.impl.opt.endpoint

instance (st : Start) : Decidable st.Clashes := inferInstanceAs (Decidable (∃ j ∈ st.live, _))

/-- The server before its `start`. -/
def configured (options : ServerConfig) (trackingMs : ℕ) (global statistics : Bool) : Server :=
  { options, trackingMs, global, statistics }

/-- What may follow the `start`, up to a `stop`. -/
def Act.isLater : Act → Bool
  | .start | .stop => false
  | _ => true

/-- If the action is a restart that makes an `impl`, then no live `impl` with a posted stop
    has the endpoint of the options. -/
def Free (kind : Kind) (s : Server) (a : Act) : Prop :=
  a = .restart → opens kind s = true →
    ∀ j ∈ s.live, some j.id ∈ s.posted → j.opt.endpoint ≠ s.options.endpoint

instance (kind : Kind) (s : Server) (a : Act) : Decidable (Free kind s a) :=
  inferInstanceAs (Decidable (_ → _ → _))

/-- The invariant of a server that is restarted: a live `impl` is the current one, with the
    remembered endpoint, or its stop is posted. -/
structure Inv (s : Server) : Prop where
  live_lt : ∀ j ∈ s.live, j.id < s.nextImpl
  posted_lt : ∀ i, some i ∈ s.posted → i < s.nextImpl
  impl_lt : ∀ i, s.impl = some i → i < s.nextImpl
  not_posted : ∀ i, s.impl = some i → some i ∉ s.posted
  endpoint : ∀ j ∈ s.live, s.impl = some j.id → j.opt.endpoint = (s.addr, s.port)
  covered : ∀ j ∈ s.live, s.impl = some j.id ∨ some j.id ∈ s.posted

variable {kind : Kind} {s s' : Server} {a : Act} {acts : List Act}

/-! ### One restart -/

/-- The options have another endpoint than the current `impl`. -/
def Moved (s : Server) : Prop := s.port ≠ s.options.port ∨ s.addr ≠ s.options.addr

instance (s : Server) : Decidable (Moved s) := inferInstanceAs (Decidable (_ ∨ _))

theorem not_moved_iff : ¬ s.Moved ↔ (s.addr, s.port) = s.options.endpoint := by
  simp only [Moved, ServerConfig.endpoint, Prod.mk.injEq]
  tauto

/-- The state in which `restart` calls `run_`. -/
def retire (s : Server) : Server :=
  if s.Moved then { s with impl := none, posted := s.posted ++ [s.impl] }
  else { s with impl := none }.stopImpl s.impl

theorem restart_eq (kind : Kind) (s : Server) : s.restart kind = s.retire.run_ kind := by
  by_cases hmoved : s.Moved
  · rw [retire, if_pos hmoved]
    exact if_pos hmoved
  · rw [retire, if_neg hmoved]
    exact if_neg hmoved

theorem retire_fields (s : Server) :
    s.retire.options = s.options ∧ s.retire.nextImpl = s.nextImpl ∧ s.retire.impl = none ∧
      s.retire.starts = s.starts ∧ s.retire.global = s.global := by
  simp only [retire]
  split
  · exact ⟨rfl, rfl, rfl, rfl, rfl⟩
  · cases s.impl <;> exact ⟨rfl, rfl, rfl, rfl, rfl⟩

theorem opens_congr (kind : Kind) (h : s'.global = s.global) : opens kind s' = opens kind s := by
  cases kind with
  | tcp => rfl
  | udp => exact h

theorem mem_live_retire {j : Impl} :
    j ∈ s.retire.live ↔ j ∈ s.live ∧ (s.Moved ∨ s.impl ≠ some j.id) := by
  simp only [retire]
  split
  · rename_i hmoved
    simp only [hmoved, true_or, and_true]
  · rename_i hmoved
    simp only [hmoved, false_or]
    cases himpl : s.impl with
    | none => simp [stopImpl]
    | some i => simp [stopImpl, eq_comm (a := i)]

theorem mem_posted_retire {i : ℕ} :
    some i ∈ s.retire.posted ↔ some i ∈ s.posted ∨ (s.Moved ∧ s.impl = some i) := by
  simp only [retire]
  split
  · rename_i hmoved
    simp only [List.mem_append, List.mem_singleton, hmoved, true_and, eq_comm (a := some i)]
  · rename_i hmoved
    simp only [hmoved, false_and, or_false]
    cases s.impl <;> rfl

/-- What a restart does, given what is live when it calls `run_`. -/
theorem restart_spec (kind : Kind) (s : Server) :
    RunSpec (opens kind s) s.retire (s.restart kind) := by
  rw [restart_eq, ← opens_congr kind (retire_fields s).2.2.2.2]
  exact run_spec kind s.retire

/-- Coming back to an endpoint where a stop is posted. -/
theorem live_retire_iff (h : Inv s) :
    (∀ j ∈ s.retire.live, j.opt.endpoint ≠ s.options.endpoint) ↔
      ∀ j ∈ s.live, some j.id ∈ s.posted → j.opt.endpoint ≠ s.options.endpoint := by
  constructor
  · intro hall j hj hposted
    apply hall j
    apply mem_live_retire.mpr
    -- its stop is posted, so it is not the current one, which alone may be stopped here
    exact ⟨hj, Or.inr fun himpl => h.not_posted j.id himpl hposted⟩
  · intro hall j hj
    obtain ⟨hlive, hkept⟩ := mem_live_retire.mp hj
    obtain himpl | hposted := h.covered j hlive
    · -- the current one is left only if the endpoint changes
      have hmoved : s.Moved := hkept.resolve_right fun hne => hne himpl
      rw [h.endpoint j hlive himpl]
      exact fun heq => not_moved_iff.mpr heq hmoved
    · exact hall j hlive hposted

/-! ### Steps -/

theorem Inv.run_ (h : Inv s) (hnone : s.impl = none) {opens : Bool} (hs : RunSpec opens s s') :
    Inv s' := by
  have hnew : ∀ j ∈ s'.live, j ∈ s.live ∨
      (opens = true ∧ j = ⟨s.nextImpl, implOptions s.options⟩) := by
    intro j hj
    rw [hs.live] at hj
    obtain hj | hj := List.mem_append.mp hj
    · exact Or.inl hj
    · cases opens with
      | true => exact Or.inr ⟨rfl, List.mem_singleton.mp hj⟩
      | false => cases hj
  have hle : s.nextImpl ≤ s'.nextImpl := by
    rw [hs.nextImpl]
    split <;> omega
  have himpl : ∀ i, s'.impl = some i → opens = true ∧ i = s.nextImpl := by
    intro i hi
    rw [hs.impl, hnone] at hi
    cases opens with
    | true => exact ⟨rfl, (Option.some.inj hi).symm⟩
    | false => cases hi
  have hnext : opens = true → s'.nextImpl = s.nextImpl + 1 := by
    rintro rfl
    exact hs.nextImpl
  constructor
  · intro j hj
    obtain hj | ⟨hopens, rfl⟩ := hnew j hj
    · exact Nat.lt_of_lt_of_le (h.live_lt j hj) hle
    · rw [hnext hopens]
      exact Nat.lt_succ_self _
  · intro i hi
    rw [hs.posted] at hi
    exact Nat.lt_of_lt_of_le (h.posted_lt i hi) hle
  · intro i hi
    obtain ⟨hopens, rfl⟩ := himpl i hi
    rw [hnext hopens]
    exact Nat.lt_succ_self _
  · intro i hi hposted
    obtain ⟨_, rfl⟩ := himpl i hi
    rw [hs.posted] at hposted
    exact Nat.lt_irrefl _ (h.posted_lt _ hposted)
  · intro j hj hcur
    obtain ⟨_, hid⟩ := himpl j.id hcur
    rw [hs.endpoint]
    obtain hj | ⟨_, rfl⟩ := hnew j hj
    · have hlt := h.live_lt j hj
      omega
    · exact implOptions_endpoint s.options
  · intro j hj
    rw [hs.posted]
    obtain hj | ⟨rfl, rfl⟩ := hnew j hj
    · right
      exact (h.covered j hj).resolve_left fun hcur => by rw [hnone] at hcur; cases hcur
    · left
      exact hs.impl

theorem Inv.retire (h : Inv s) : Inv s.retire := by
  obtain ⟨_, hnext, hnone, _, _⟩ := retire_fields s
  have hno : ∀ i, s.retire.impl = some i → False := by
    intro i hi
    rw [hnone] at hi
    cases hi
  constructor
  · intro j hj
    rw [hnext]
    exact h.live_lt j (mem_live_retire.mp hj).1
  · intro i hi
    rw [hnext]
    obtain hi | ⟨_, hi⟩ := mem_posted_retire.mp hi
    · exact h.posted_lt i hi
    · exact h.impl_lt i hi
  · exact fun i hi => (hno i hi).elim
  · exact fun i hi => (hno i hi).elim
  · exact fun j _ hi => (hno j.id hi).elim
  · intro j hj
    right
    obtain ⟨hlive, hkept⟩ := mem_live_retire.mp hj
    apply mem_posted_retire.mpr
    obtain hcur | hposted := h.covered j hlive
    · exact Or.inr ⟨hkept.resolve_right fun hne => hne hcur, hcur⟩
    · exact Or.inl hposted

/-- A stopped `impl` is not live. -/
theorem mem_live_stopImpl {p : Option ℕ} {j : Impl} :
    j ∈ (s.stopImpl p).live ↔ j ∈ s.live ∧ p ≠ some j.id := by
  cases p with
  | none => simp [stopImpl]
  | some i => simp [stopImpl, eq_comm (a := i)]

theorem Inv.runPosted (h : Inv s) {n : ℕ} {p : Option ℕ} (hp : s.posted[n]? = some p) :
    Inv ({ s with posted := s.posted.eraseIdx n }.stopImpl p) := by
  have hsame : ∀ s' : Server, (s'.stopImpl p).impl = s'.impl ∧
      (s'.stopImpl p).nextImpl = s'.nextImpl ∧ (s'.stopImpl p).posted = s'.posted ∧
      (s'.stopImpl p).addr = s'.addr ∧ (s'.stopImpl p).port = s'.port := by
    intro s'
    cases p <;> exact ⟨rfl, rfl, rfl, rfl, rfl⟩
  obtain ⟨himpl, hnext, hposted, haddr, hport⟩ :=
    hsame { s with posted := s.posted.eraseIdx n }
  constructor
  · intro j hj
    rw [hnext]
    exact h.live_lt j (mem_live_stopImpl.mp hj).1
  · intro i hi
    rw [hposted] at hi
    rw [hnext]
    exact h.posted_lt i (List.mem_of_mem_eraseIdx hi)
  · intro i hi
    rw [himpl] at hi
    rw [hnext]
    exact h.impl_lt i hi
  · intro i hi hmem
    rw [himpl] at hi
    rw [hposted] at hmem
    exact h.not_posted i hi (List.mem_of_mem_eraseIdx hmem)
  · intro j hj hcur
    rw [himpl] at hcur
    rw [haddr, hport]
    exact h.endpoint j (mem_live_stopImpl.mp hj).1 hcur
  · intro j hj
    obtain ⟨hlive, hne⟩ := mem_live_stopImpl.mp hj
    rw [himpl, hposted]
    obtain hcur | hmem := h.covered j hlive
    · exact Or.inl hcur
    · right
      -- the task that has run is not the one that stops `j`
      obtain ⟨i, hi⟩ := List.getElem?_of_mem hmem
      have hin : i ≠ n := by
        rintro rfl
        rw [hp] at hi
        exact hne (Option.some.inj hi)
      exact List.mem_eraseIdx_iff_getElem?.mpr ⟨i, hin, hi⟩

theorem Inv.step (h : Inv s) (ha : a.isLater = true) : Inv (Server.step kind s a) := by
  have hquiet : Inv s.quiet :=
    ⟨h.live_lt, h.posted_lt, h.impl_lt, h.not_posted, h.endpoint, h.covered⟩
  cases a with
  | configure options trackingMs =>
    exact ⟨h.live_lt, h.posted_lt, h.impl_lt, h.not_posted, h.endpoint, h.covered⟩
  | start => cases ha
  | restart =>
    exact hquiet.retire.run_ (retire_fields s.quiet).2.2.1 (restart_spec kind s.quiet)
  | stop => cases ha
  | runPosted n =>
    have hget : s.quiet.posted[n]? = s.posted[n]? := rfl
    simp only [Server.step, exec, hget]
    cases hp : s.posted[n]? with
    | none => exact hquiet
    | some p => exact hquiet.runPosted hp
  | setGlobal flag =>
    exact ⟨h.live_lt, h.posted_lt, h.impl_lt, h.not_posted, h.endpoint, h.covered⟩

/-- A step starts a clashing `impl` exactly if it is a restart that is not free. -/
theorem starts_iff (h : Inv s) (ha : a.isLater = true) :
    (∀ st ∈ (step kind s a).starts, ¬ st.Clashes) ↔ Free kind s a := by
  by_cases hrestart : a = .restart
  · subst hrestart
    have hsame : opens kind s.quiet = opens kind s := opens_congr kind rfl
    have hspec : RunSpec (opens kind s) s.quiet.retire (step kind s .restart) :=
      hsame ▸ restart_spec kind s.quiet
    obtain ⟨hoptions, _, _, hstarts, _⟩ := retire_fields s.quiet
    have hnone : s.quiet.retire.starts = [] := hstarts
    have hquiet : Inv s.quiet :=
      ⟨h.live_lt, h.posted_lt, h.impl_lt, h.not_posted, h.endpoint, h.covered⟩
    rw [hspec.starts, hnone, List.nil_append]
    cases hopens : opens kind s with
    | false =>
      refine iff_of_true (fun st hst => (by cases hst)) (fun _ hcontra => ?_)
      rw [hopens] at hcontra
      cases hcontra
    | true =>
      simp only [if_true, List.mem_singleton, forall_eq, Start.Clashes, implOptions_endpoint,
        hoptions, not_exists, not_and]
      exact (live_retire_iff hquiet).trans
        ⟨fun hall _ _ => hall, fun hfree => hfree rfl hopens⟩
  · have hnone : (step kind s a).starts = [] := by
      cases a with
      | restart => exact absurd rfl hrestart
      | start => cases ha
      | stop => cases ha
      | runPosted n =>
        simp only [step, exec]
        cases s.quiet.posted[n]? with
        | none => rfl
        | some p => cases p <;> rfl
      | _ => rfl
    rw [hnone]
    exact iff_of_true (fun st hst => (by cases hst)) (fun heq => absurd heq hrestart)

/-! ### Whole runs -/

theorem trace_starts_iff (h : Inv s) (hacts : ∀ a ∈ acts, a.isLater = true) :
    (∀ st ∈ trace (step kind) Server.starts s acts, ¬ st.Clashes) ↔
      Along (step kind) (Free kind) s acts := by
  induction acts generalizing s with
  | nil => exact iff_of_true (fun st hst => (by cases hst)) trivial
  | cons a acts ih =>
    have ha : a.isLater = true := hacts a List.mem_cons_self
    rw [trace_cons, along_cons, ← starts_iff h ha,
      ← ih (h.step ha) fun b hb => hacts b (List.mem_cons_of_mem a hb)]
    simp only [List.mem_append, or_imp, forall_and]

/-- The first `impl` is alone. -/
theorem inv_start (kind : Kind) (options : ServerConfig) (trackingMs : ℕ)
    (global statistics : Bool) :
    Inv (step kind (configured options trackingMs global statistics) .start) ∧
      ∀ st ∈ (step kind (configured options trackingMs global statistics) .start).starts,
        ¬ st.Clashes := by
  have hempty : Inv (configured options trackingMs global statistics).quiet :=
    ⟨fun j hj => (by cases hj), fun i hi => (by cases hi), fun i hi => (by cases hi),
      fun i hi => (by cases hi), fun j hj => (by cases hj), fun j hj => (by cases hj)⟩
  have hspec := run_spec kind (configured options trackingMs global statistics).quiet
  refine ⟨hempty.run_ rfl hspec, fun st hst => ?_⟩
  have hstarts : (step kind (configured options trackingMs global statistics) .start).starts =
      _ := hspec.starts
  rw [hstarts] at hst
  split at hst
  · obtain rfl := List.mem_singleton.mp hst
    rintro ⟨j, hj, _⟩
    cases hj
  · cases hst

/-- **Endpoints.** A server of either class is started, and then configured and restarted any
    number of times, while posted stops run at any time. No `impl` is started on the endpoint
    of one that is live, exactly if no restart comes back to an endpoint where the stop of a
    live `impl` is posted. -/
theorem no_clash_iff (kind : Kind) (options : ServerConfig) (trackingMs : ℕ)
    (global statistics : Bool) (acts : List Act) (hacts : ∀ a ∈ acts, a.isLater = true) :
    (∀ st ∈ trace (step kind) Server.starts
        (configured options trackingMs global statistics) (.start :: acts), ¬ st.Clashes) ↔
      Along (step kind) (Free kind) (configured options trackingMs global statistics)
        (.start :: acts) := by
  obtain ⟨hinv, hfirst⟩ := inv_start kind options trackingMs global statistics
  rw [trace_cons, along_cons, ← trace_starts_iff hinv hacts]
  simp only [List.mem_append, or_imp, forall_and]
  apply and_congr
  · exact iff_of_true hfirst (fun heq => (by cases heq))
  · rfl

/-- Options for a port of all addresses. -/
def onPort (port : String) : ServerConfig :=
  { addr := "0.0.0.0", port, rn := false, nonblocking := false }

/-- The server moves to another port, the stop of the first `impl` runs, and it moves back. -/
theorem no_clash_back : ¬ Start.Clashes ⟨⟨2, onPort "1"⟩, [⟨1, onPort "2"⟩]⟩ :=
  (no_clash_iff .tcp (onPort "1") 1000 true false
    [.configure (onPort "2") 1000, .restart, .runPosted 0, .configure (onPort "1") 1000, .restart]
    (by decide)).mpr (by decide) _ (by decide)

/-- The server moves to another port and back before the stop of the first `impl` has run. -/
theorem clash :
    ¬ ∀ (kind : Kind) (options : ServerConfig) (trackingMs : ℕ) (global statistics : Bool)
      (acts : List Act), (∀ a ∈ acts, a.isLater = true) →
      ∀ st ∈ trace (step kind) Server.starts
        (configured options trackingMs global statistics) (.start :: acts), ¬ st.Clashes := by
  intro hall
  have h := hall .tcp (onPort "1") 1000 true false
    [.configure (onPort "2") 1000, .restart, .configure (onPort "1") 1000, .restart] (by decide)
  exact absurd h (by decide)

end Server

end WfcIo

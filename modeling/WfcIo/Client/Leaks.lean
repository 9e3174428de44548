import WfcIo.Client.Isolation

/-!
# Calls that are not clean

The condition under which all answers are isolated cannot be weakened: after a call that
is not clean the server only has to answer the open requests in their order, and one of
the answers reaches a stranger.

## Main definitions

- `Net.Exposed` — an open request whose adapter is bound to a stranger

## Main results

- `Net.Exposed.leaks` — the answer to an exposed request can reach the stranger
- `Net.isolated_iff_clean` — isolation under every timing of the answers
-/

namespace WfcIo

open Foundation

namespace ClientTcpAdapter

variable (a : ClientTcpAdapter) (io : Io) (d : DataPtr) (ioId : IoId) (handler : Option Handler)
  (snd : Sending)

/-- The wrapper of a `perform_io` is the holder afterwards. -/
theorem getHolder_performIo_of_wraps (h : a.wraps ioId handler io = true) :
    (a.performIo d ioId handler snd io).1.getHolder io =
      some (.perform (a.makePerformHolder handler)) := by
  obtain ⟨b, hb⟩ := a.performIo_fst io ioId d handler snd
  rw [hb, bind_fst, if_pos h]
  refine Option.filter_eq_some_iff.mpr ⟨rfl, ?_⟩
  simp [alive, wrap]

theorem getHolder_performIo_of_not_wraps (h : ¬ a.wraps ioId handler io = true) :
    (a.performIo d ioId handler snd io).1.getHolder io = a.getHolder io := by
  obtain ⟨b, hb⟩ := a.performIo_fst io ioId d handler snd
  rw [hb, bind_fst, if_neg h]
  rfl

/-- Data that is not rejected is sent. -/
theorem send_mem_performIo (h : snd ≠ .rejected) :
    ∃ conn, .send a.id conn d ∈ (a.performIo d ioId handler snd io).2.outcalls := by
  simp only [performIo, transmit]
  cases snd with
  | accepted conn => exact ⟨conn, by simp⟩
  | acceptedByRequest conn => exact ⟨conn, by simp⟩
  | rejected => exact absurd rfl h

end ClientTcpAdapter

namespace ClientTcpMap

variable {m : ClientTcpMap} {id : IoId} {f : ClientTcpAdapter → Io → ClientTcpAdapter × Io}

/-- The adapter that serves an id is owned by the map. -/
theorem upsert_mem_clientList (m : ClientTcpMap) (id : IoId) :
    (m.upsert_ id).2 ∈ (m.upsert_ id).1.clientList :=
  mem_clientList_iff.mpr (Or.inl ⟨id, m.find_upsert id⟩)

/-- The holder of another adapter is the one before. -/
theorem getHolder_call_of_ne {P : Outcall → Prop} (hlogs : ∀ a io, Io.Logs P io (f a io).2) {x : ℕ}
    (hx : x < m.nextId) (hne : x ≠ (m.upsert_ id).2) :
    let m' := (m.upsert_ id).1.call (m.upsert_ id).2 f
    (m'.adapters x).getHolder m'.io = (m.adapters x).getHolder m.io := by
  simp only [call, Function.update_of_ne hne, ClientTcpAdapter.getHolder_of_logs (hlogs _ _),
    upsert_adapters hx, ClientTcpAdapter.getHolder_of_logs (m.upsert_logs id)]

/-- A source that is bound to an adapter that the map keeps stays bound when its id is
    unregistered. -/
theorem getHolder_unregIo_of_source {x : ℕ} {h : Source} (howned : m.Owned)
    (hkept : x ∈ (m.unregIo id).clientList)
    (hget : (m.adapters x).getHolder m.io = some (.source h)) :
    ((m.unregIo id).adapters x).getHolder (m.unregIo id).io = some (.source h) := by
  obtain ⟨_, heq⟩ | ⟨cli, _, hfind, hu⟩ := m.unregIo_spec id
  · rwa [heq]
  · rw [ClientTcpAdapter.getHolder_of_logs hu.io]
    by_cases hx : x = cli
    · subst hx
      obtain ⟨_, hcli⟩ | ⟨hheld, _⟩ := hu.held_cases howned hfind
      · rw [hcli]
        obtain ⟨hholder, halive⟩ := ClientTcpAdapter.getHolder_eq_source_iff.mp hget
        exact ClientTcpAdapter.getHolder_eq_source_iff.mpr
          ⟨(ClientTcpAdapter.unregIo_holder _ _).trans hholder, halive⟩
      · exact absurd rfl ((hheld x).mp (mem_clientList_iff.mp hkept)).2
    · rwa [hu.adapters x hx]

/-- The holder of the adapter that serves an id after a call of it. -/
theorem getHolder_call_upsert {P : Outcall → Prop} (hlogs : ∀ a io, Io.Logs P io (f a io).2) :
    let m' := (m.upsert_ id).1.call (m.upsert_ id).2 f
    (m'.adapters (m.upsert_ id).2).getHolder m'.io =
      (f ((m.upsert_ id).1.adapters (m.upsert_ id).2) (m.upsert_ id).1.io).1.getHolder
        (m.upsert_ id).1.io := by
  simp only [call, Function.update_self, ClientTcpAdapter.getHolder_of_logs (hlogs _ _)]

end ClientTcpMap

namespace Net

variable {n : Net} {id : IoId} {k : Holder} {r : Request}

/-! ### An exposed request -/

def Act.IsAnswer : Act → Prop
  | .answer _ _ _ _ => True
  | _ => False

/-- An open request whose adapter is bound to a holder that is not the sender's. -/
structure Exposed (n : Net) (r : Request) : Prop where
  inv : n.map.Inv
  inputHandler : n.map.opt.inputHandler = none
  owned : r.cli ∈ n.map.clientList
  inflight : r ∈ n.inflight
  stranger : ∃ k, (n.map.adapters r.cli).getHolder n.map.io = some k ∧ ¬ n.Allowed r.owner k

/-- What comes in for an adapter goes to its holder, allowed or not. -/
theorem exists_not_admissible {a : ClientTcpAdapter} {io : Io} {opt : ClientTcpConfig}
    (hopt : a.options = some opt) (hinput : opt.inputHandler = none)
    (hget : a.getHolder io = some k) (hnot : ¬ n.Allowed id k) (d : DataPtr) (out : Option Conn) :
    ∃ o ∈ (a.input d out io).outcalls, ¬ n.Admissible id o := by
  have hdeliver : ∀ reply io', ∃ o ∈ (k.performIo d a.id reply io').outcalls,
      ¬ n.Admissible id o := by
    intro reply io'
    cases k with
    | source h =>
      refine ⟨.performIo h d a.id reply, ?_, hnot⟩
      cases reply <;> simp [Holder.performIo]
    | perform p =>
      cases hp : p.handler with
      | none =>
        -- a wrapper around no handler is nobody's
        refine absurd (fun f hf => ?_) hnot
        rw [hp] at hf
        cases hf
      | some f =>
        refine ⟨.handler f d, by simp [Holder.performIo, hp], fun hadm => hnot fun g hg => ?_⟩
        rw [hp] at hg
        cases hg
        exact hadm
  simp only [ClientTcpAdapter.input]
  simp only [hopt, hinput, hget]
  split
  · exact hdeliver _ _
  · exact hdeliver _ _

/-- **An exposed request leaks**: once the requests before it on its connection have been
    answered, its own answer reaches the stranger. -/
theorem Exposed.leaks (h : n.Exposed r) :
    ∃ answers : List Act, (∀ a ∈ answers, a.IsAnswer) ∧ ¬ Along step Isolated n answers := by
  obtain ⟨len, hlen⟩ : ∃ len, n.inflight.length = len := ⟨_, rfl⟩
  induction len generalizing n with
  | zero =>
    have hnil := List.length_eq_zero_iff.mp hlen
    exact absurd (hnil ▸ h.inflight) List.not_mem_nil
  | succ len ih =>
    obtain ⟨k, hk, hnot⟩ := h.stranger
    obtain ⟨first, hold⟩ : ∃ first, n.oldest r.cli r.conn = some first := by
      rw [← Option.isSome_iff_exists, oldest, List.find?_isSome]
      exact ⟨r, h.inflight, by simp⟩
    have hfirst : first ∈ n.inflight := List.mem_of_find?_eq_some hold
    have hstep := step_answer hold none none
    by_cases hr : first = r
    · -- the answer is the one to `r`
      rw [hr] at hold hstep
      refine ⟨[.answer r.cli r.conn none none], by simp [Act.IsAnswer], fun halong => ?_⟩
      have hopt := h.inv.configured _ (ClientTcpMap.mem_clientList_iff.mp h.owned)
      have hk' : (n.map.adapters r.cli).getHolder n.map.quiet.io = some k := hk
      obtain ⟨o, ho, hadm⟩ := exists_not_admissible hopt h.inputHandler hk' hnot none none
      refine hadm (halong.1 r hold o ?_)
      rw [hstep]
      show o ∈ (n.map.quiet.event r.cli _).io.outcalls
      have howned : r.cli ∈ n.map.quiet.clientList := h.owned
      simp only [ClientTcpMap.event]
      rw [if_pos howned]
      exact ho
    · -- another request is answered, which changes no binding
      have hnext : Exposed (n.step (.answer r.cli r.conn none none)) r := by
        rw [hstep]
        refine ⟨ClientTcpMap.step_inv h.inv (.input r.cli none none), ?_, ?_, ?_, k, ?_, hnot⟩
        · have hsteady := ClientTcpMap.Steady.event (m := n.map.quiet) r.cli
            (fun a io => (a, a.input none none io))
          exact (congrArg ClientTcpConfig.inputHandler hsteady.opt).trans h.inputHandler
        · show r.cli ∈ (n.map.quiet.event r.cli _).clientList
          rw [ClientTcpMap.event_clientList]
          exact h.owned
        · exact (List.mem_erase_of_ne (Ne.symm hr)).mpr h.inflight
        · exact ClientTcpMap.input_getHolder.trans hk
      have hshort : (n.step (.answer r.cli r.conn none none)).inflight.length = len := by
        rw [hstep]
        show (n.inflight.erase first).length = len
        rw [List.length_erase_of_mem hfirst, hlen]
        rfl
      obtain ⟨answers, hanswers, hleak⟩ := ih hnext hshort
      refine ⟨.answer r.cli r.conn none none :: answers, ?_, fun halong => hleak halong.2⟩
      intro a ha
      obtain rfl | ha := List.mem_cons.mp ha
      · trivial
      · exact hanswers a ha

/-! ### A call that is not clean exposes a request -/

/-- A call that serves `id` leaves the request `r` open on the adapter it has called, and
    that adapter bound to a stranger. -/
theorem exposed_of_call {act : Act} (hinv : (n.step act).map.Inv)
    (hinput : n.map.opt.inputHandler = none)
    {f : ClientTcpAdapter → Io → ClientTcpAdapter × Io} {P : Outcall → Prop}
    (hlogs : ∀ a io, Io.Logs P io (f a io).2)
    (hmap : (n.step act).map =
      (n.map.quiet.upsert_ id).1.call (n.map.quiet.upsert_ id).2 f)
    (hr : r ∈ (n.step act).inflight) (hcli : r.cli = (n.map.quiet.upsert_ id).2)
    (hk : (f ((n.map.quiet.upsert_ id).1.adapters (n.map.quiet.upsert_ id).2)
      (n.map.quiet.upsert_ id).1.io).1.getHolder (n.map.quiet.upsert_ id).1.io = some k)
    (hnot : ¬ (n.step act).Allowed r.owner k) : (n.step act).Exposed r := by
  refine ⟨hinv, ?_, ?_, hr, k, ?_, hnot⟩
  · have hopt : (n.map.quiet.upsert_ id).1.opt = n.map.opt :=
      (ClientTcpMap.Steady.upsert n.map.quiet id).opt
    rw [hmap]
    exact (congrArg ClientTcpConfig.inputHandler hopt).trans hinput
  · rw [hmap, hcli]
    exact n.map.quiet.upsert_mem_clientList id
  · rw [hmap, hcli, ClientTcpMap.getHolder_call_upsert hlogs]
    exact hk

theorem exposed_of_regIo {itf : Option Source} (h : n.Clear)
    (hinput : n.map.opt.inputHandler = none) (hunclean : ¬ n.Clean (.regIo id itf)) :
    ∃ r, (n.step (.regIo id itf)).Exposed r := by
  have hrun : n.map.quiet.stopFlag = false := h.running
  have hmap : (n.step (.regIo id itf)).map = (n.map.quiet.upsert_ id).1.call
      (n.map.quiet.upsert_ id).2 (ClientTcpAdapter.regIo id itf) :=
    ClientTcpMap.regIo_of_running hrun
  have hlogs : ∀ (a : ClientTcpAdapter) io,
      Io.Logs (fun _ => True) io (a.regIo id itf io).2 := fun a io =>
    (a.regIo_logs io id itf).mono fun _ _ => trivial
  have hinv := ClientTcpMap.step_inv h.inv (.regIo id itf)
  have hopen : ∀ r ∈ n.inflight, r ∈ (n.step (.regIo id itf)).inflight := fun r hr =>
    (n.note_inflight (.regIo id itf)).symm ▸ hr
  obtain hbound | hspares := not_and_or.mp hunclean
  · -- the holder is bound over the open requests of others
    push Not at hbound
    obtain ⟨s, hs, halive, r, hr, hcli, hnot⟩ := hbound
    obtain rfl : itf = some s := hs
    refine ⟨r, exposed_of_call hinv hinput hlogs hmap (hopen r hr) hcli
      (ClientTcpAdapter.getHolder_eq_source_iff.mpr ⟨rfl, ?_⟩) hnot⟩
    rw [ClientTcpAdapter.sourceAlive_of_logs (n.map.quiet.upsert_logs id)]
    exact halive
  · -- the holder that the id was registered with has another adapter
    simp only [Spares] at hspares
    push Not at hspares
    obtain ⟨r, hr, howner, hkept, k, hk, hnot⟩ := hspares
    obtain ⟨hown, hne⟩ := List.mem_filter.mp hkept
    have hlt : r.cli < n.map.quiet.nextId := h.allocated r hr
    refine ⟨r, hinv, ?_, ?_, hopen r hr, k, ?_, howner ▸ hnot⟩
    · rw [hmap]
      have hopt := (ClientTcpMap.Steady.upsert n.map.quiet id).opt
      exact (congrArg ClientTcpConfig.inputHandler hopt).trans hinput
    · rw [hmap]
      exact (ClientTcpMap.mem_clientList_upsert (h.inv.with_io _).toOwned hlt).mpr hown
    · rw [hmap, ClientTcpMap.getHolder_call_of_ne hlogs hlt (of_decide_eq_true hne)]
      exact hk

theorem exposed_of_performIo {d : DataPtr} {handler : Option Handler} {snd : Sending}
    (h : n.Clear) (hinput : n.map.opt.inputHandler = none)
    (hunclean : ¬ n.Clean (.performIo d id handler snd)) :
    ∃ r, (n.step (.performIo d id handler snd)).Exposed r := by
  have hinv := h.inv
  have hrun : n.map.quiet.stopFlag = false := h.running
  have hmap : (n.step (.performIo d id handler snd)).map = (n.map.quiet.upsert_ id).1.call
      (n.map.quiet.upsert_ id).2 (ClientTcpAdapter.performIo d id handler snd) :=
    ClientTcpMap.performIo_of_running hrun
  have hlogs : ∀ (a : ClientTcpAdapter) io,
      Io.Logs Outcall.Plain io (a.performIo d id handler snd io).2 :=
    fun a io => a.performIo_logs io d id handler snd
  have hsinv := ClientTcpMap.step_inv hinv (.performIo d id handler snd)
  unfold Clean at hunclean
  dsimp only at hunclean
  split at hunclean
  · next hwraps =>
    -- the wrapper is bound over the open requests of others
    push Not at hunclean
    obtain ⟨r, hr, hcli, hnot⟩ := hunclean
    have hk := ClientTcpAdapter.getHolder_performIo_of_wraps _ _ d id handler snd hwraps
    exact ⟨r, exposed_of_call hsinv hinput hlogs hmap (List.mem_append_left _ hr) hcli hk hnot⟩
  · next hwraps =>
    -- the request itself is sent over an adapter that is bound to somebody else
    push Not at hunclean
    obtain ⟨hsent, k, hk, hnot⟩ := hunclean
    obtain ⟨conn, hsend⟩ := ClientTcpAdapter.send_mem_performIo
      ((n.map.quiet.upsert_ id).1.adapters (n.map.quiet.upsert_ id).2)
      (n.map.quiet.upsert_ id).1.io d id handler snd hsent
    have hserved : (n.map.quiet.upsert_ id).1.Inv :=
      ClientTcpMap.Inv.upsert (hinv.with_io _) hrun id
    rw [hserved.ident] at hsend
    have hopen : ⟨(n.map.quiet.upsert_ id).2, conn, id⟩ ∈
        (n.step (.performIo d id handler snd)).inflight := by
      refine List.mem_append_right _ (mem_requests.mpr ⟨rfl, d, ?_⟩)
      show Outcall.send _ _ _ ∈ (n.step (.performIo d id handler snd)).map.io.outcalls
      rw [hmap]
      exact hsend
    refine ⟨_, exposed_of_call hsinv hinput hlogs hmap hopen rfl ?_ hnot⟩
    rw [ClientTcpAdapter.getHolder_performIo_of_not_wraps _ _ d id handler snd hwraps]
    exact hk

/-- The source that loses its registration stays bound to the adapter. -/
theorem exposed_of_unregIo (h : n.Clear) (hinput : n.map.opt.inputHandler = none)
    (hunclean : ¬ n.Clean (.unregIo id)) : ∃ r, (n.step (.unregIo id)).Exposed r := by
  have hrun : n.map.quiet.stopFlag = false := h.running
  have howned : n.map.quiet.Owned := (h.inv.with_io _).toOwned
  simp only [Clean, Spares] at hunclean
  push Not at hunclean
  obtain ⟨r, hr, howner, hkept, k, hk, hnot⟩ := hunclean
  have hown : r.cli ∈ (n.map.quiet.unregIo id).clientList :=
    (ClientTcpMap.mem_keptBy_iff howned hrun).mp hkept
  have hopt := (ClientTcpMap.Steady.of_quiet (.unregIo id) : ClientTcpMap.Steady n.map
    (n.map.quiet.unregIo id)).opt
  refine ⟨r, ClientTcpMap.step_inv h.inv (.unregIo id),
    (congrArg ClientTcpConfig.inputHandler hopt).trans hinput, hown,
    (n.note_inflight (.unregIo id)).symm ▸ hr, k, ?_, howner ▸ hnot⟩
  cases k with
  | source s => exact ClientTcpMap.getHolder_unregIo_of_source howned hown hk
  | perform p =>
    -- a wrapper does not depend on the registration
    have hbefore := h.allowed r hr (ClientTcpMap.mem_of_mem_keptBy hkept) _ hk
    rw [howner] at hbefore
    exact absurd (allowed_note_perform (.unregIo id) hbefore) hnot

theorem exposed_of_unclean {act : Act} (h : n.Clear) (hinput : n.map.opt.inputHandler = none)
    (hunclean : ¬ n.Clean act) : ∃ r, (n.step act).Exposed r := by
  cases act with
  | regIo id itf => exact exposed_of_regIo h hinput hunclean
  | performIo d id handler snd => exact exposed_of_performIo h hinput hunclean
  | unregIo id => exact exposed_of_unregIo h hinput hunclean
  | _ => exact absurd trivial hunclean

/-! ### Runs -/

/-- The calls and answers of a run are steady for the map. -/
theorem steady_step (n : Net) (act : Act) : ClientTcpMap.Steady n.map (n.step act).map := by
  cases act with
  | regIo id itf => exact .of_quiet (.regIo id itf)
  | unregIo id => exact .of_quiet (.unregIo id)
  | performIo d id handler snd => exact .of_quiet (.performIo d id handler snd)
  | release h => exact ⟨rfl, rfl, rfl, le_rfl, le_rfl⟩
  | answer cli conn d out =>
    unfold step
    dsimp only
    split
    · exact ⟨rfl, rfl, rfl, le_rfl, le_rfl⟩
    · exact .of_quiet (.event cli _)

/-- The options stay what they are. -/
theorem run_opt (refuses : ℕ → Bool) (opt : ClientTcpConfig) (acts : List Act) :
    (run step (start refuses opt) acts).map.opt = opt := by
  have hr := ClientTcpMap.reconfigureAndStart_spec opt (ClientTcpMap.init refuses).quiet
  exact run_invariant (I := fun n : Net => n.map.opt = opt)
    (fun n act hopt => (n.steady_step act).opt.trans hopt) hr.opt acts

/-- **Clean is exact.** Unless the options bring an input handler of their own, the steps
    of a run are clean exactly if, whatever the server answers after any part of the run,
    all answers are isolated. -/
theorem isolated_iff_clean (refuses : ℕ → Bool) (opt : ClientTcpConfig)
    (hinput : opt.inputHandler = none) (acts : List Act) :
    Along step Clean (start refuses opt) acts ↔
      ∀ pre answers, pre <+: acts → (∀ a ∈ answers, a.IsAnswer) →
        Along step Isolated (start refuses opt) (pre ++ answers) := by
  constructor
  · rintro hclean pre answers ⟨post, rfl⟩ hanswers
    have hpre := ((along_append _ pre post).mp hclean).1
    refine along_of_invariant (I := Clear) (fun _ _ hact h => h.step hact)
      (fun _ act h => h.isolated act) (clear_start refuses opt)
      ((along_append _ pre answers).mpr ⟨hpre, ?_⟩)
    -- an answer is clean in every state
    generalize run step (start refuses opt) pre = n
    induction answers generalizing n with
    | nil => trivial
    | cons a answers ih =>
      refine ⟨?_, ih (fun b hb => hanswers b (List.mem_cons_of_mem a hb)) _⟩
      have ha := hanswers a List.mem_cons_self
      cases a with
      | answer cli conn d out => trivial
      | _ => exact ha.elim
  · intro hall
    by_contra hnot
    obtain ⟨pre, a, post, rfl, hclean, hunclean⟩ := exists_first_of_not_along hnot
    have hclear : (run step (start refuses opt) pre).Clear :=
      run_invariant_along (fun _ _ hact h => h.step hact) (clear_start refuses opt) hclean
    have hinput' :=
      (congrArg ClientTcpConfig.inputHandler (run_opt refuses opt pre)).trans hinput
    obtain ⟨r, hexposed⟩ := exposed_of_unclean hclear hinput' hunclean
    obtain ⟨answers, hanswers, hleak⟩ := hexposed.leaks
    have halong := hall (pre ++ [a]) answers ⟨post, by simp⟩ hanswers
    rw [along_append, run_append, run_cons, run_nil] at halong
    exact hleak halong.2

end Net

end WfcIo

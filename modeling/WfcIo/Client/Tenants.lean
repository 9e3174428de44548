import WfcIo.Client.Isolation
import WfcIo.Foundation.History
import WfcIo.Foundation.Tenancy

/-!
# One id for each adapter

With `secondary_pool` 0 `unreg_io` drops the adapter of the id, and `reconfigure_and_start` makes
new adapters for the ids in the map. So an adapter serves one id in its life, whatever calls and
events there are: what it sends are requests of this id, and what comes in goes to a holder that
this id has registered, or to a handler that it has passed.

## Main definitions

- `Act.Unpooled` — a configuration leaves the secondary pool empty
- `Act.Binds` — the holder that a call gives to the adapter of an id
- `Hands` — what a step hands on, and from where
- `Confined` — for whom it is handed on

## Main results

- `step_oneWay` — without a secondary pool no adapter comes back
- `step_hands` — everything a step hands on
- `confined_run` — each adapter hands on what is of its own id
-/

namespace WfcIo

open Foundation

/-- The call hands no data on. -/
def Outcall.Dataless : Outcall → Prop
  | .send _ _ _ => False
  | .performIo _ _ _ _ => False
  | .handler _ _ => False
  | _ => True

theorem Outcall.Lifecycle.dataless {o : Outcall} (h : o.Lifecycle) : o.Dataless := by
  cases o with
  | send cli conn d => exact h
  | performIo h' d cli reply => exact h
  | handler f d => exact h
  | _ => trivial

/-- What `perform_io` hands on: the data, by the adapter `cli`, or a null pointer to the handler. -/
def Outcall.Requests (cli : ℕ) (d : DataPtr) (handler : Option Handler) : Outcall → Prop
  | .send x _ d' => x = cli ∧ d' = d
  | .performIo _ _ _ _ => False
  | .handler f d' => handler = some f ∧ d' = none
  | _ => True

/-- The holder does something with the data that it gets. -/
def Holder.Real : Holder → Prop
  | .source _ => True
  | .perform p => p.handler ≠ none

namespace ClientTcpAdapter

variable (a : ClientTcpAdapter) (io : Io)

theorem regIo_dataless (ioId : IoId) (itf : Option Source) :
    Io.Logs Outcall.Dataless io (a.regIo ioId itf io).2 := by
  have hcheck : Io.Logs Outcall.Dataless io
      (if 0 < a.holderId ∧ a.holderId ≠ ioId then io.emit (.severalSources a.holderId ioId)
        else io) := by
    split
    · exact .emit trivial io
    · exact .refl _ io
  unfold regIo
  dsimp only
  generalize (if 0 < a.holderId ∧ a.holderId ≠ ioId then
    io.emit (.severalSources a.holderId ioId) else io) = io' at hcheck ⊢
  refine hcheck.trans ?_
  split
  · next holder _ =>
    cases holder with
    | source h => exact .emit trivial io'
    | perform p => exact .refl _ io'
  · exact .refl _ io'

theorem performIo_requests (d : DataPtr) (ioId : IoId) (handler : Option Handler) (snd : Sending) :
    Io.Logs (Outcall.Requests a.id d handler) io (a.performIo d ioId handler snd io).2 := by
  have hbind : Io.Logs (Outcall.Requests a.id d handler) io (a.bind ioId handler io).2 := by
    simp only [bind]
    split
    · exact .emit trivial io
    · exact .refl _ io
  have hid : (a.bind ioId handler io).1.id = a.id := a.bind_id io ioId handler
  refine hbind.trans ?_
  rw [performIo]
  generalize a.bind ioId handler io = r at hid ⊢
  obtain ⟨b, io'⟩ := r
  cases snd with
  | accepted conn => exact .emit ⟨hid, rfl⟩ io'
  | acceptedByRequest conn => exact .emit ⟨hid, rfl⟩ io'
  | rejected =>
    have herror : Io.Logs (Outcall.Requests a.id d handler) io'
        (if b.errorFlag then io' else io'.emit (.noSuitableClient d)) := by
      split
      · exact .refl _ io'
      · exact .emit trivial io'
    cases handler with
    | none => exact herror
    | some f => exact herror.trans (.emit ⟨rfl, rfl⟩ _)

/-- Notices of connections carry no data. -/
theorem connected_dataless : Io.Logs Outcall.Dataless io (a.connected io) := by
  have hholder : ∀ holder : Holder, Io.Logs Outcall.Dataless io (holder.regIo a.id io) := by
    intro holder
    cases holder with
    | source h => exact .emit trivial io
    | perform p => exact .refl _ io
  simp only [connected]
  cases a.options with
  | none => exact .refl _ io
  | some opt =>
    dsimp only
    cases a.getHolder io with
    | none =>
      cases opt.connectHandler with
      | some f => exact .emit trivial io
      | none => exact .refl _ io
    | some holder =>
      cases opt.connectHandler with
      | some f => exact (hholder holder).trans (.emit trivial _)
      | none => exact hholder holder

theorem closed_dataless : ∃ io', (io' = io ∨ ∃ t, io' = io.post t) ∧
    Io.Logs Outcall.Dataless io' (a.closed io) := by
  simp only [closed]
  cases a.options with
  | none => exact ⟨io, Or.inl rfl, .refl _ io⟩
  | some opt =>
    dsimp only
    cases a.getHolder io with
    | none =>
      refine ⟨io, Or.inl rfl, ?_⟩
      cases opt.shutdownHandler with
      | some f => exact .emit trivial io
      | none => exact .refl _ io
    | some holder =>
      refine ⟨io.post ⟨holder, a.id⟩, Or.inr ⟨_, rfl⟩, ?_⟩
      cases opt.shutdownHandler with
      | some f => exact .emit trivial _
      | none => exact .refl _ _

end ClientTcpAdapter

namespace ClientTcpMap

variable {m : ClientTcpMap} {a : Act} {id : IoId} {x : ℕ} {k : Holder}

/-! ### Adapters that do not come back -/

/-- The secondary pool stays empty. -/
def Act.Unpooled : Act → Prop
  | .reconfigureAndStart opt => opt.secondaryPool = 0
  | _ => True

instance : DecidablePred Act.Unpooled
  | .reconfigureAndStart opt => inferInstanceAs (Decidable (opt.secondaryPool = 0))
  | .stop | .regIo _ _ | .unregIo _ | .performIo _ _ _ _ | .release _ | .input _ _ _
  | .connected _ | .closed _ | .runTask _ | .counterReply _ _ _ => .isTrue trivial

theorem step_secondaryPool (h : m.opt.secondaryPool = 0) (ha : a.Unpooled) :
    (m.step a).opt.secondaryPool = 0 := by
  obtain ⟨opt, rfl⟩ | rfl | hsteady := m.quiet.exec_cases a
  · exact (congrArg ClientTcpConfig.secondaryPool
      (m.quiet.reconfigureAndStart_spec opt).opt).trans ha
  · obtain ⟨io, _, heq⟩ := m.quiet.stop_spec
    show m.quiet.stop.opt.secondaryPool = 0
    rw [heq]
    exact h
  · exact (congrArg ClientTcpConfig.secondaryPool hsteady.opt).trans h

theorem upsert_oneWay (m : ClientTcpMap) (id : IoId) :
    Ledger.OneWay m.nextId m.ledger (m.upsert_ id).1.ledger := by
  simp only [upsert_]
  cases hfind : m.find id with
  | some cli => exact .refl _ _
  | none =>
    refine ⟨fun {j y} hy => ?_, fun {y} hy => ?_⟩
    · have hy' : (m.createAndInsert id).1.find j = some y := hy
      rw [find_createAndInsert hfind] at hy'
      split_ifs at hy' with hj
      · cases hy'
        exact Or.inr (m.create_mem_idle.imp_right fun h => h.2.ge)
      · exact Or.inl hy'
    · exact (mem_idle_of_create hy).imp_right fun h => h.2.ge

/-- There is no room for the adapter of an id that is unregistered. -/
theorem unregIo_oneWay (hpool : m.opt.secondaryPool = 0) (id : IoId) :
    Ledger.OneWay m.nextId m.ledger (m.unregIo id).ledger := by
  obtain ⟨_, heq⟩ | ⟨cli, _, _, hu⟩ := m.unregIo_spec id
  · rw [heq]
    exact .refl _ _
  · refine ⟨fun {j y} hy => ?_, fun {y} hy => Or.inl ?_⟩
    · have hy' : (m.unregIo id).find j = some y := hy
      rw [hu.find] at hy'
      split_ifs at hy'
      exact Or.inl hy'
    · have hpooled : (m.unregIo id).pooled = m.pooled := by
        obtain ⟨hroom, _⟩ | ⟨_, hsecondary, _⟩ := hu.recycled
        · omega
        · simp only [pooled]
          rw [hu.startupPool, hu.primaryPool, hsecondary]
      exact Multiset.mem_coe.mpr (hpooled ▸ Multiset.mem_coe.mp hy)

theorem event_oneWay (m : ClientTcpMap) (cli : ℕ)
    (f : ClientTcpAdapter → Io → ClientTcpAdapter × Io) :
    Ledger.OneWay m.nextId m.ledger (m.event cli f).ledger := by
  simp only [event]
  split
  · exact .refl _ m.ledger
  · exact .refl _ _

/-- **One way.** Without a secondary pool an adapter that has served an id is not used again. -/
theorem step_oneWay (hpool : m.opt.secondaryPool = 0) (a : Act) :
    Ledger.OneWay m.nextId m.ledger (m.step a).ledger := by
  cases a with
  | reconfigureAndStart opt =>
    have hr := m.quiet.reconfigureAndStart_spec opt
    refine .of_new fun y hy => ?_
    rw [← mem_clientList_iff] at hy
    have hy' : y ∈ (m.quiet.reconfigureAndStart opt).clientList := hy
    rw [hr.clientList, List.mem_range'_1] at hy'
    exact hy'.1
  | stop =>
    obtain ⟨io, _, heq⟩ := m.quiet.stop_spec
    refine .of_new fun y hy => ?_
    have hy' : m.quiet.stop.ledger.Held y := hy
    rw [heq] at hy'
    obtain ⟨j, hj⟩ | hidle := hy'
    · cases hj
    · cases hidle
  | regIo id itf =>
    show Ledger.OneWay m.nextId m.ledger (m.quiet.regIo id itf).ledger
    simp only [regIo]
    split
    · exact .refl _ m.ledger
    · exact m.quiet.upsert_oneWay id
  | unregIo id => exact unregIo_oneWay (m := m.quiet) hpool id
  | performIo d id handler snd =>
    show Ledger.OneWay m.nextId m.ledger (m.quiet.performIo d id handler snd).ledger
    rw [performIo_eq]
    split
    · exact .refl _ m.ledger
    · exact m.quiet.upsert_oneWay id
  | release h => exact .refl _ m.ledger
  | input cli d out => exact m.quiet.event_oneWay cli _
  | connected cli => exact m.quiet.event_oneWay cli _
  | closed cli => exact m.quiet.event_oneWay cli _
  | runTask n => exact .refl _ m.ledger
  | counterReply cli d snd => exact m.quiet.event_oneWay cli _

/-! ### Who binds a holder to an adapter -/

/-- The call gives the adapter of `id` the holder. -/
def Act.Binds (id : IoId) : Act → Holder → Prop
  | .regIo j itf, .source h => j = id ∧ itf = some h
  | .performIo _ j handler _, .perform p => j = id ∧ p.handler = handler
  | _, _ => False

/-- Serving an id binds nothing. -/
theorem upsert_holder (h : ((m.upsert_ id).1.adapters x).holder = some k) :
    (m.adapters x).holder = some k := by
  simp only [upsert_] at h
  cases hfind : m.find id with
  | some cli =>
    rw [hfind] at h
    exact h
  | none =>
    rw [hfind] at h
    have hcreate : (m.create_.1.adapters x).holder = some k := h
    obtain ⟨_, heq⟩ | ⟨_, heq⟩ := m.create_adapters
    · rwa [heq] at hcreate
    · rw [heq, Function.update_apply] at hcreate
      split_ifs at hcreate
      · cases hcreate
      · exact hcreate

/-- An event writes one adapter at most. -/
theorem event_holder {cli : ℕ} {f : ClientTcpAdapter → Io → ClientTcpAdapter × Io}
    (hf : ∀ a io, (f a io).1.holder = some k → a.holder = some k)
    (h : ((m.event cli f).adapters x).holder = some k) : (m.adapters x).holder = some k := by
  simp only [event] at h
  split at h
  · simp only [call, Function.update_apply] at h
    split_ifs at h with hx
    · rw [hx]
      exact hf _ _ h
    · exact h
  · exact h

/-- A call of the adapter that serves `id`. -/
theorem call_upsert_holder {f : ClientTcpAdapter → Io → ClientTcpAdapter × Io}
    (h : (((m.upsert_ id).1.call (m.upsert_ id).2 f).adapters x).holder = some k) :
    (m.adapters x).holder = some k ∨ ((m.upsert_ id).1.find id = some x ∧
      (f ((m.upsert_ id).1.adapters x) (m.upsert_ id).1.io).1.holder = some k) := by
  simp only [call, Function.update_apply] at h
  split_ifs at h with hx
  · subst hx
    exact Or.inr ⟨m.find_upsert id, h⟩
  · exact Or.inl (upsert_holder h)

theorem stopped_holder {l : List ℕ}
    (h : (if x ∈ l then (m.adapters x).stop else m.adapters x).holder = some k) :
    (m.adapters x).holder = some k := by
  split_ifs at h
  · exact h
  · exact h

/-- **Bindings.** A holder that does something with data was there before, or has been registered
    or passed for the id that the adapter serves. -/
theorem step_holder (hreal : k.Real) (h : ((m.step a).adapters x).holder = some k) :
    (m.adapters x).holder = some k ∨ ∃ id, (m.step a).find id = some x ∧ a.Binds id k := by
  cases a with
  | reconfigureAndStart opt =>
    have hr := m.quiet.reconfigureAndStart_spec opt
    have h' : ((m.quiet.reconfigureAndStart opt).adapters x).holder = some k := h
    rw [hr.adapters] at h'
    split_ifs at h'
    · cases h'
    · exact Or.inl h'
    · exact Or.inl h'
  | stop =>
    obtain ⟨io, _, heq⟩ := m.quiet.stop_spec
    have h' : (m.quiet.stop.adapters x).holder = some k := h
    rw [heq] at h'
    exact Or.inl (stopped_holder (m := m) h')
  | regIo id itf =>
    have h' : ((m.quiet.regIo id itf).adapters x).holder = some k := h
    show _ ∨ ∃ j, (m.quiet.regIo id itf).find j = some x ∧ _
    simp only [regIo] at h' ⊢
    split at h'
    · exact Or.inl h'
    · next hstop =>
      rw [if_neg hstop]
      obtain hold | ⟨hfind, hnew⟩ := call_upsert_holder h'
      · exact Or.inl hold
      · obtain ⟨s, hs, rfl⟩ := Option.map_eq_some_iff.mp hnew
        exact Or.inr ⟨id, hfind, rfl, hs⟩
  | unregIo id =>
    obtain ⟨_, heq⟩ | ⟨cli, _, _, hu⟩ := m.quiet.unregIo_spec id
    · have h' : ((m.quiet.unregIo id).adapters x).holder = some k := h
      rw [heq] at h'
      exact Or.inl h'
    · have h' : ((m.quiet.unregIo id).adapters x).holder = some k := h
      by_cases hx : x = cli
      · subst hx
        obtain ⟨_, _, hcli⟩ | ⟨_, _, hcli⟩ := hu.recycled
        · rw [hcli, ClientTcpAdapter.unregIo_holder] at h'
          exact Or.inl h'
        · rw [hcli] at h'
          have h'' : ((m.quiet.adapters x).unregIo id).holder = some k := h'
          rw [ClientTcpAdapter.unregIo_holder] at h''
          exact Or.inl h''
      · rw [hu.adapters x hx] at h'
        exact Or.inl h'
  | performIo d id handler snd =>
    have h' : ((m.quiet.performIo d id handler snd).adapters x).holder = some k := h
    show _ ∨ ∃ j, (m.quiet.performIo d id handler snd).find j = some x ∧ _
    rw [performIo_eq] at h' ⊢
    split at h'
    · exact Or.inl h'
    · next hstop =>
      rw [if_neg hstop]
      obtain hold | ⟨hfind, hnew⟩ := call_upsert_holder h'
      · exact Or.inl hold
      · rw [ClientTcpAdapter.performIo_holder] at hnew
        split_ifs at hnew
        · cases hnew
          exact Or.inr ⟨id, hfind, rfl, rfl⟩
        · exact Or.inl (upsert_holder (m := m.quiet) hnew)
  | counterReply cli d snd =>
    refine Or.inl (event_holder (m := m.quiet) (fun b io hb => ?_) h)
    obtain heq | ⟨_, heq⟩ := b.counterReply_cases io d snd
    · rwa [heq] at hb
    · rw [heq, ClientTcpAdapter.performIo_holder] at hb
      split_ifs at hb
      · -- there is no handler to wrap
        cases hb
        exact absurd rfl hreal
      · exact hb
  | input cli d out => exact Or.inl (event_holder (m := m.quiet) (fun _ _ hb => hb) h)
  | connected cli => exact Or.inl (event_holder (m := m.quiet) (fun _ _ hb => hb) h)
  | closed cli => exact Or.inl (event_holder (m := m.quiet) (fun _ _ hb => hb) h)
  | release s => exact Or.inl h
  | runTask n => exact Or.inl h

/-! ### What a step hands on -/

/-- Data are sent by the adapter of the id that performs them, or of the source that answers
    through it; data that come in go to the holder of the adapter. A null pointer goes to the
    handler of a request that no connection takes. -/
def Hands (m : ClientTcpMap) (a : Act) : Outcall → Prop
  | .send cli _ d =>
    (∃ id handler snd, a = .performIo d id handler snd ∧ (m.step a).find id = some cli) ∨
      ∃ snd, a = .counterReply cli d snd
  | .performIo h d cli _ =>
    (∃ out, a = .input cli d out) ∧ (m.adapters cli).holder = some (.source h)
  | .handler f d =>
    (∃ cli out p, a = .input cli d out ∧ (m.adapters cli).holder = some (.perform p) ∧
      p.handler = some f) ∨
    d = none ∧ ∃ d' id snd, a = .performIo d' id (some f) snd
  | _ => True

theorem hands_of_dataless {o : Outcall} (h : o.Dataless) : Hands m a o := by
  cases o with
  | send cli conn d => exact h.elim
  | performIo h' d cli reply => exact h.elim
  | handler f d => exact h.elim
  | _ => trivial

theorem hands_of_logs {P : Outcall → Prop} {io' : Io} (h : Io.Logs P m.quiet.io io')
    (hP : ∀ o, P o → Hands m a o) {o : Outcall} (ho : o ∈ io'.outcalls) : Hands m a o := by
  obtain ho | ho := h.mem_outcalls ho
  · cases ho
  · exact hP o ho

theorem hands_of_event {cli : ℕ} {f : ClientTcpAdapter → Io → ClientTcpAdapter × Io}
    (hf : ∀ o ∈ (f (m.adapters cli) m.quiet.io).2.outcalls, Hands m a o) {o : Outcall}
    (ho : o ∈ (m.quiet.event cli f).io.outcalls) : Hands m a o := by
  simp only [event] at ho
  split at ho
  · exact hf o ho
  · cases ho

/-- **What a step hands on**, and from where. -/
theorem step_hands (hinv : m.Inv) (a : Act) {o : Outcall} (ho : o ∈ (m.step a).io.outcalls) :
    Hands m a o := by
  have hlifecycle : ∀ o, Outcall.Lifecycle o → Hands m a o := fun o ho =>
    hands_of_dataless ho.dataless
  cases a with
  | reconfigureAndStart opt =>
    exact hands_of_logs (m.quiet.reconfigureAndStart_spec opt).io hlifecycle ho
  | stop =>
    obtain ⟨io, hio, heq⟩ := m.quiet.stop_spec
    have ho' : o ∈ m.quiet.stop.io.outcalls := ho
    rw [heq] at ho'
    exact hands_of_logs hio hlifecycle ho'
  | regIo id itf =>
    have ho' : o ∈ (m.quiet.regIo id itf).io.outcalls := ho
    simp only [regIo] at ho'
    split at ho'
    · cases ho'
    · have hserved : Io.Logs Outcall.Dataless m.quiet.io (m.quiet.upsert_ id).1.io :=
        (m.quiet.upsert_logs id).mono fun _ h => h.dataless
      exact hands_of_logs (hserved.trans (ClientTcpAdapter.regIo_dataless _ _ id itf))
        (fun o ho => hands_of_dataless ho) ho'
  | unregIo id =>
    have ho' : o ∈ (m.quiet.unregIo id).io.outcalls := ho
    obtain ⟨_, heq⟩ | ⟨cli, _, _, hu⟩ := m.quiet.unregIo_spec id
    · rw [heq] at ho'
      cases ho'
    · exact hands_of_logs hu.io hlifecycle ho'
  | performIo d id handler snd =>
    have hfind : (m.quiet.performIo d id handler snd) = m.step (.performIo d id handler snd) := rfl
    have ho' : o ∈ (m.quiet.performIo d id handler snd).io.outcalls := ho
    rw [performIo_eq] at ho' hfind
    split at ho'
    · cases ho'
    · next hstop =>
      rw [if_neg hstop] at hfind
      have hserved : (m.quiet.upsert_ id).1.Inv :=
        Inv.upsert (hinv.with_io _) (Bool.not_eq_true _ ▸ hstop) id
      have hrequests : ∀ o, Outcall.Requests (m.quiet.upsert_ id).2 d handler o →
          Hands m (.performIo d id handler snd) o := by
        intro o ho
        cases o with
        | send cli conn d' =>
          obtain ⟨rfl, rfl⟩ := ho
          exact Or.inl ⟨id, handler, snd, rfl, hfind ▸ m.quiet.find_upsert id⟩
        | performIo h' d' cli reply => exact ho.elim
        | handler f d' =>
          obtain ⟨rfl, rfl⟩ := ho
          exact Or.inr ⟨rfl, d, id, snd, rfl⟩
        | _ => trivial
      have hlogs := ClientTcpAdapter.performIo_requests
        ((m.quiet.upsert_ id).1.adapters (m.quiet.upsert_ id).2) (m.quiet.upsert_ id).1.io
        d id handler snd
      rw [hserved.ident] at hlogs
      obtain ho' | ho' := hlogs.mem_outcalls ho'
      · exact hands_of_logs (m.quiet.upsert_logs id) hlifecycle ho'
      · exact hrequests o ho'
  | release h => cases ho
  | input cli d out =>
    refine hands_of_event (fun o ho => ?_) ho
    have hident : (m.adapters cli).id = cli := hinv.ident cli
    have hholder : ∀ k, (m.adapters cli).getHolder m.quiet.io = some k →
        (m.adapters cli).holder = some k := fun k hk => (Option.filter_eq_some_iff.mp hk).1
    refine hands_of_logs (ClientTcpAdapter.input_delivers _ _ d out ?_ ?_ trivial
      (fun _ => trivial) fun _ => trivial) (fun o ho => ho) ho
    · intro h reply hh
      rw [hident]
      exact ⟨⟨out, rfl⟩, hholder _ hh⟩
    · exact fun p f hp hf => Or.inl ⟨cli, out, p, rfl, hholder _ hp, hf⟩
  | connected cli =>
    exact hands_of_event (fun o ho => hands_of_logs ((m.adapters cli).connected_dataless m.quiet.io)
      (fun o ho => hands_of_dataless ho) ho) ho
  | closed cli =>
    refine hands_of_event (fun o ho => ?_) ho
    obtain ⟨io', hio', hlogs⟩ := (m.adapters cli).closed_dataless m.quiet.io
    obtain ho | ho := hlogs.mem_outcalls ho
    · obtain rfl | ⟨t, rfl⟩ := hio'
      · cases ho
      · rw [List.mem_singleton.mp ho]
        trivial
    · exact hands_of_dataless ho
  | runTask n =>
    have ho' : o ∈ (m.quiet.io.runTask n).outcalls := ho
    simp only [Io.runTask] at ho'
    split at ho'
    · cases ho'
    · next t _ =>
      obtain ho' | ho' := (t.holder.unregIo_logs _ t.cli).mem_outcalls ho'
      · cases ho'
      · exact hlifecycle o ho'
  | counterReply cli d snd =>
    refine hands_of_event (fun o ho => ?_) ho
    have hident : (m.adapters cli).id = cli := hinv.ident cli
    obtain heq | ⟨_, heq⟩ := (m.adapters cli).counterReply_cases m.quiet.io d snd
    · rw [heq] at ho
      cases ho
    · rw [heq] at ho
      have hlogs := (m.adapters cli).performIo_requests m.quiet.io d (m.adapters cli).holderId
        none snd
      rw [hident] at hlogs
      refine hands_of_logs hlogs (fun o ho => ?_) ho
      cases o with
      | send cli' conn d' =>
        obtain ⟨rfl, rfl⟩ := ho
        exact Or.inr ⟨snd, rfl⟩
      | performIo h' d' cli' reply => exact ho.elim
      | handler f d' => cases ho.1
      | _ => trivial

/-! ### Whole runs -/

/-- The id that an adapter has served. -/
abbrev Serves (refuses : ℕ → Bool) (acts : List Act) : ℕ → IoId → Prop :=
  Tenant step ledger (init refuses) acts

/-- What is handed on is of the id that the adapter serves: its requests, and data for a holder or
    a handler that it has registered or passed before. -/
def Confined (owner : ℕ → IoId) (pre : List Act) (a : Act) : Outcall → Prop
  | .send cli _ d =>
    (∃ handler snd, a = .performIo d (owner cli) handler snd) ∨ ∃ snd, a = .counterReply cli d snd
  | .performIo h d cli _ =>
    (∃ out, a = .input cli d out) ∧ .regIo (owner cli) (some h) ∈ pre
  | .handler f d =>
    (∃ cli out, a = .input cli d out ∧ ∃ d' snd, .performIo d' (owner cli) (some f) snd ∈ pre) ∨
    d = none ∧ ∃ d' id snd, a = .performIo d' id (some f) snd
  | _ => True

/-- Without a secondary pool no adapter serves a second id. -/
theorem run_settled (refuses : ℕ → Bool) {acts : List Act} (hacts : ∀ a ∈ acts, a.Unpooled) :
    Settled step ledger nextId (init refuses) acts := by
  refine settled_run (fun as => (run_inv refuses as).exclusive)
    (fun as x => (run_inv refuses as).allocated x) nextId_le_step ?_
  exact along_of_invariant (I := fun m : ClientTcpMap => m.opt.secondaryPool = 0)
    (fun m a ha hm => step_secondaryPool hm ha) (fun m a hm => step_oneWay hm a) rfl
    (along_of_forall hacts)

/-- A holder that does something with data has been given to the adapter for an id it serves. -/
theorem run_holder (refuses : ℕ → Bool) (acts : List Act) (hreal : k.Real)
    (h : ((run step (init refuses) acts).adapters x).holder = some k) :
    ∃ id, Serves refuses acts x id ∧ ∃ a ∈ acts, a.Binds id k := by
  induction acts using List.reverseRecOn with
  | nil => cases h
  | append_singleton acts a ih =>
    rw [run_concat] at h
    obtain hold | ⟨id, hfind, hbinds⟩ := step_holder hreal h
    · obtain ⟨id, hid, b, hb, hbinds⟩ := ih hold
      exact ⟨id, tenant_concat.mpr (Or.inl hid), b, List.mem_append_left _ hb, hbinds⟩
    · have hrun : run step (init refuses) (acts ++ [a]) = (run step (init refuses) acts).step a :=
        run_concat (init refuses) acts a
      rw [← hrun] at hfind
      exact ⟨id, tenant_of_leased hfind, a, List.mem_append_right _ List.mem_cons_self, hbinds⟩

/-- **One id for each adapter.** In a run without a secondary pool there is for each adapter an id
    such that the adapter serves no other id, sends the requests of this id, and hands what comes in
    to holders and handlers of this id. -/
theorem confined_run (refuses : ℕ → Bool) {acts : List Act} (hacts : ∀ a ∈ acts, a.Unpooled) :
    ∃ owner : ℕ → IoId,
      (∀ pre, pre <+: acts → ∀ id cli, (run step (init refuses) pre).find id = some cli →
        owner cli = id) ∧
      AtEach (fun pre a =>
        ∀ o ∈ ((run step (init refuses) pre).step a).io.outcalls, Confined owner pre a o) acts := by
  classical
  have hsettled := run_settled refuses hacts
  let owner : ℕ → IoId := fun x =>
    if h : ∃ id, Serves refuses acts x id then h.choose else 0
  have howner : ∀ {pre x id}, pre <+: acts → Serves refuses pre x id → owner x = id := by
    rintro pre x id hpre ⟨pre', hpre', hid⟩
    have hx : Serves refuses acts x id := ⟨pre', hpre'.trans hpre, hid⟩
    have hex : ∃ id, Serves refuses acts x id := ⟨id, hx⟩
    show (if h : ∃ id, Serves refuses acts x id then h.choose else 0) = id
    rw [dif_pos hex]
    exact hsettled.sole hex.choose_spec hx
  refine ⟨owner, fun pre hpre id cli hfind => howner hpre (tenant_of_leased hfind),
    fun pre a post hsplit o ho => ?_⟩
  have hpre : pre <+: acts := hsplit ▸ List.prefix_append pre (a :: post)
  have hpre' : pre ++ [a] <+: acts := ⟨post, by rw [hsplit, List.append_assoc]; rfl⟩
  have hhands := step_hands (run_inv refuses pre) a ho
  cases o with
  | send cli conn d =>
    obtain ⟨id, handler, snd, rfl, hfind⟩ | hcounter := hhands
    · have hrun : run step (init refuses) (pre ++ [.performIo d id handler snd]) =
          (run step (init refuses) pre).step (.performIo d id handler snd) :=
        run_concat (init refuses) pre _
      rw [← hrun] at hfind
      have hid : owner cli = id := howner hpre' (tenant_of_leased hfind)
      exact Or.inl ⟨handler, snd, by rw [hid]⟩
    · exact Or.inr hcounter
  | performIo h d cli reply =>
    obtain ⟨hinput, hholder⟩ := hhands
    obtain ⟨id, hid, b, hb, hbinds⟩ := run_holder refuses pre (k := .source h) trivial hholder
    refine ⟨hinput, ?_⟩
    rw [howner hpre hid]
    cases b with
    | regIo j itf =>
      obtain ⟨rfl, rfl⟩ := hbinds
      exact hb
    | _ => exact hbinds.elim
  | handler f d =>
    obtain ⟨cli, out, p, rfl, hholder, hf⟩ | hrejected := hhands
    · have hreal : Holder.Real (.perform p) := by
        intro hnone
        rw [hf] at hnone
        cases hnone
      obtain ⟨id, hid, b, hb, hbinds⟩ := run_holder refuses pre hreal hholder
      refine Or.inl ⟨cli, out, rfl, ?_⟩
      rw [howner hpre hid]
      cases b with
      | performIo d' j handler snd =>
        obtain ⟨rfl, hhandler⟩ := hbinds
        rw [hf] at hhandler
        exact ⟨d', snd, hhandler ▸ hb⟩
      | _ => exact hbinds.elim
    · exact Or.inr hrejected
  | _ => trivial

end ClientTcpMap

end WfcIo

import WfcIo.Client.Map
import WfcIo.Foundation.Ledger

/-!
# Who owns the adapters

The map and its pools as a `Ledger`: the adapter in `_clients` under an id is leased to
the id, the adapters in the three pools are idle. The sections under the lock are moves
of this ledger, so exclusive ownership follows from the rules for the moves.

## Main definitions

- `ClientTcpMap.ledger` — the ledger of a map
- `ClientTcpMap.Owned` — no adapter is in two places, and all have been made
- `ClientTcpMap.builds` — the next `create_` builds a new adapter
-/

namespace WfcIo

open Foundation

namespace ClientTcpMap

/-- The adapters in the pools, in the order `create_` looks for them. -/
def pooled (m : ClientTcpMap) : List ℕ := m.startupPool ++ m.secondaryPool ++ m.primaryPool

def ledger (m : ClientTcpMap) : Ledger IoId ℕ where
  leased := m.find
  idle := m.pooled

/-- No adapter is in two places, and all of them have been made. -/
structure Owned (m : ClientTcpMap) : Prop where
  exclusive : m.ledger.Exclusive
  allocated : ∀ x, m.ledger.Held x → x < m.nextId

theorem mem_clientList_iff {m : ClientTcpMap} {x : ℕ} :
    x ∈ m.clientList ↔ m.ledger.Held x := by
  simp only [clientList, Ledger.Held, ledger, pooled, find, List.mem_append,
    OrderedMap.mem_values_iff, Multiset.mem_coe]
  tauto

/-- Nobody shares an adapter exactly when no adapter is collected twice. -/
theorem exclusive_iff {m : ClientTcpMap} : m.ledger.Exclusive ↔ m.clientList.Nodup := by
  have hperm : m.clientList.Perm (m.clients.values ++ m.pooled) := by
    have hrot : (m.primaryPool ++ m.secondaryPool ++ m.startupPool).Perm
        (m.startupPool ++ (m.secondaryPool ++ m.primaryPool)) :=
      (List.perm_append_comm.append_right _).trans List.perm_append_comm
    simpa only [clientList, pooled, List.append_assoc] using hrot.append_left m.clients.values
  rw [hperm.nodup_iff, List.nodup_append', OrderedMap.values_nodup_iff]
  constructor
  · intro h
    refine ⟨fun _ _ _ hk hk' => h.leased_inj hk hk', Multiset.coe_nodup.mp h.idle_nodup, ?_⟩
    intro x hx hp
    obtain ⟨id, hid⟩ := OrderedMap.mem_values_iff.mp hx
    exact h.not_idle hid (Multiset.mem_coe.mpr hp)
  · rintro ⟨hvalues, hpooled, hdisj⟩
    refine ⟨fun hk hk' => hvalues _ _ _ hk hk', Multiset.coe_nodup.mpr hpooled, ?_⟩
    intro id x hid hx
    exact hdisj (OrderedMap.mem_values_iff.mpr ⟨id, hid⟩) (Multiset.mem_coe.mp hx)

/-! ### A new adapter -/

/-- The adapter as `start` leaves a new one. -/
def started (m : ClientTcpMap) : ClientTcpAdapter :=
  { id := m.nextId, keepAlive := m.opt.keepAlive, options := some m.opt, startCalled := true }

theorem buildClient_adapters (m : ClientTcpMap) :
    m.buildClient.1.adapters = Function.update m.adapters m.nextId m.started := by
  simp [buildClient, makeClient, startClient, call, ClientTcpAdapter.start, started]

/-! ### `create_` -/

/-- `create_` finds the startup and the secondary pool empty and builds an adapter. -/
def builds (m : ClientTcpMap) : Prop := m.startupPool = [] ∧ m.secondaryPool = []

/-- Everything `create_` can do. -/
theorem create_cases (m : ClientTcpMap) :
    (∃ cli rest, m.startupPool = cli :: rest ∧
      m.create_ = ({ m with startupPool := rest }, cli)) ∨
    (∃ cli rest, m.startupPool = [] ∧ m.secondaryPool = cli :: rest ∧
      m.create_ = ({ m with secondaryPool := rest }, cli)) ∨
    (∃ cli rest, m.builds ∧ m.primaryPool = cli :: rest ∧
      m.create_ = ({ m.buildClient.1 with primaryPool := rest ++ [m.nextId] }, cli)) ∨
    (m.builds ∧ m.primaryPool = [] ∧ m.create_ = (m.buildClient.1, m.nextId)) := by
  obtain ⟨io, adapters, nextId, opt, clients, startup, primary, secondary, _, _⟩ := m
  cases startup with
  | cons cli rest => exact Or.inl ⟨cli, rest, rfl, rfl⟩
  | nil =>
    refine Or.inr ?_
    cases secondary with
    | cons cli rest => exact Or.inl ⟨cli, rest, rfl, rfl, rfl⟩
    | nil =>
      refine Or.inr ?_
      cases primary with
      | cons cli rest => exact Or.inl ⟨cli, rest, ⟨rfl, rfl⟩, rfl, rfl⟩
      | nil => exact Or.inr ⟨⟨rfl, rfl⟩, rfl, rfl⟩

@[simp] theorem create_clients (m : ClientTcpMap) : m.create_.1.clients = m.clients := by
  obtain ⟨_, _, _, h⟩ | ⟨_, _, _, _, h⟩ | ⟨_, _, _, _, h⟩ | ⟨_, _, h⟩ := m.create_cases <;>
    rw [h] <;> rfl

@[simp] theorem create_opt (m : ClientTcpMap) : m.create_.1.opt = m.opt := by
  obtain ⟨_, _, _, h⟩ | ⟨_, _, _, _, h⟩ | ⟨_, _, _, _, h⟩ | ⟨_, _, h⟩ := m.create_cases <;>
    rw [h] <;> rfl

@[simp] theorem create_flags (m : ClientTcpMap) :
    m.create_.1.startupFlag = m.startupFlag ∧ m.create_.1.stopFlag = m.stopFlag := by
  obtain ⟨_, _, _, h⟩ | ⟨_, _, _, _, h⟩ | ⟨_, _, _, _, h⟩ | ⟨_, _, h⟩ := m.create_cases <;>
    rw [h] <;> exact ⟨rfl, rfl⟩

/-- `create_` writes no adapter but a new one. -/
theorem create_adapters (m : ClientTcpMap) :
    (¬ m.builds ∧ m.create_.1.adapters = m.adapters) ∨
    (m.builds ∧ m.create_.1.adapters = Function.update m.adapters m.nextId m.started) := by
  obtain ⟨cli, rest, hs, h⟩ | ⟨cli, rest, _, hsec, h⟩ |
      ⟨cli, rest, hb, _, h⟩ | ⟨hb, _, h⟩ := m.create_cases
  · exact Or.inl ⟨fun hb => by simp [builds, hs] at hb, by rw [h]⟩
  · exact Or.inl ⟨fun hb => by simp [builds, hsec] at hb, by rw [h]⟩
  · exact Or.inr ⟨hb, by rw [h]; exact m.buildClient_adapters⟩
  · exact Or.inr ⟨hb, by rw [h]; exact m.buildClient_adapters⟩

theorem create_adapters_of_lt {m : ClientTcpMap} {x : ℕ} (hx : x < m.nextId) :
    m.create_.1.adapters x = m.adapters x := by
  obtain ⟨_, heq⟩ | ⟨_, heq⟩ := m.create_adapters
  · rw [heq]
  · rw [heq, Function.update_of_ne (ne_of_lt hx)]

theorem create_adapters_nextId {m : ClientTcpMap} (hb : m.builds) :
    m.create_.1.adapters m.nextId = m.started := by
  obtain ⟨hnb, _⟩ | ⟨_, heq⟩ := m.create_adapters
  · exact absurd hb hnb
  · rw [heq, Function.update_self]

/-- `create_` keeps the primary pool full and takes from the other two. -/
theorem create_pools (m : ClientTcpMap) :
    m.create_.1.primaryPool.length = m.primaryPool.length ∧
    m.create_.1.secondaryPool.length ≤ m.secondaryPool.length ∧
    m.create_.1.startupPool.length ≤ m.startupPool.length := by
  obtain ⟨cli, rest, hs, h⟩ | ⟨cli, rest, hs, hsec, h⟩ |
      ⟨cli, rest, hb, hp, h⟩ | ⟨hb, hp, h⟩ := m.create_cases
  · rw [h, hs]
    exact ⟨rfl, le_rfl, Nat.le_succ _⟩
  · rw [h, hsec]
    exact ⟨rfl, Nat.le_succ _, le_rfl⟩
  · rw [h, hp]
    exact ⟨by simp, le_rfl, le_rfl⟩
  · rw [h]
    exact ⟨rfl, le_rfl, le_rfl⟩

/-- `create_` as moves of the ledger: it takes an idle adapter, and parks a new one if
    that came from the primary pool; or it hands out a new one. -/
theorem create_moves (m : ClientTcpMap) :
    (m.create_.2 ∈ m.ledger.idle ∧ ¬ m.builds ∧ m.create_.1.nextId = m.nextId ∧
      m.create_.1.ledger = m.ledger.take m.create_.2) ∨
    (m.create_.2 ∈ m.ledger.idle ∧ m.builds ∧ m.create_.1.nextId = m.nextId + 1 ∧
      m.create_.1.ledger = (m.ledger.take m.create_.2).park m.nextId) ∨
    (m.create_.2 = m.nextId ∧ m.builds ∧ m.create_.1.nextId = m.nextId + 1 ∧
      m.create_.1.ledger = m.ledger) := by
  obtain ⟨cli, rest, hs, h⟩ | ⟨cli, rest, hs, hsec, h⟩ |
      ⟨cli, rest, hb, hp, h⟩ | ⟨hb, hp, h⟩ := m.create_cases
  · left
    rw [h]
    refine ⟨by simp [ledger, pooled, hs], fun hb => by simp [builds, hs] at hb, rfl, ?_⟩
    exact Ledger.ext rfl (by simp [ledger, pooled, Ledger.take, hs])
  · left
    rw [h]
    refine ⟨by simp [ledger, pooled, hs, hsec], fun hb => by simp [builds, hsec] at hb, rfl, ?_⟩
    exact Ledger.ext rfl (by simp [ledger, pooled, Ledger.take, hs, hsec])
  · right; left
    rw [h]
    refine ⟨by simp [ledger, pooled, hb.1, hb.2, hp], hb, rfl, ?_⟩
    have hempty : m.buildClient.1.startupPool = [] ∧ m.buildClient.1.secondaryPool = [] := hb
    refine Ledger.ext rfl ?_
    simp [ledger, pooled, Ledger.take, Ledger.park, hb.1, hb.2, hp, hempty.1, hempty.2]
  · right; right
    rw [h]
    exact ⟨rfl, hb, rfl, rfl⟩

/-- What `create_` hands out was idle, or is new. -/
theorem create_mem_idle (m : ClientTcpMap) :
    m.create_.2 ∈ m.ledger.idle ∨ m.builds ∧ m.create_.2 = m.nextId := by
  obtain ⟨hidle, _⟩ | ⟨hidle, _⟩ | ⟨heq, hb, _⟩ := m.create_moves
  · exact Or.inl hidle
  · exact Or.inl hidle
  · exact Or.inr ⟨hb, heq⟩

/-- What is idle after `create_` was so before, or is new. -/
theorem mem_idle_of_create {m : ClientTcpMap} {x : ℕ} (hx : x ∈ m.create_.1.ledger.idle) :
    x ∈ m.ledger.idle ∨ m.builds ∧ x = m.nextId := by
  obtain ⟨_, _, _, hL⟩ | ⟨_, hb, _, hL⟩ | ⟨_, hb, _, hL⟩ := m.create_moves
  · rw [hL] at hx
    exact Or.inl (Multiset.mem_of_mem_erase hx)
  · rw [hL] at hx
    have hcons : x ∈ m.nextId ::ₘ (m.ledger.take m.create_.2).idle := hx
    obtain rfl | hx := Multiset.mem_cons.mp hcons
    · exact Or.inr ⟨hb, rfl⟩
    · exact Or.inl (Multiset.mem_of_mem_erase hx)
  · rw [hL] at hx
    exact Or.inl hx

/-- `create_` never hands out an adapter that somebody holds in reserve. -/
theorem reserved_create {m : ClientTcpMap} {id : IoId} {x : ℕ} (hx : m.ledger.ReservedFor id x)
    (hlt : x < m.nextId) : m.create_.1.ledger.ReservedFor id x ∧ x ≠ m.create_.2 := by
  have hne : x ≠ m.nextId := ne_of_lt hlt
  obtain ⟨hidle, _, _, hL⟩ | ⟨hidle, _, _, hL⟩ | ⟨hcli, _, _, hL⟩ := m.create_moves
  · exact ⟨hL ▸ hx.take _, fun heq => hx.1 (heq ▸ hidle)⟩
  · exact ⟨hL ▸ (hx.take _).park hne, fun heq => hx.1 (heq ▸ hidle)⟩
  · exact ⟨hL ▸ hx, fun heq => hne (heq.trans hcli)⟩

namespace Owned

variable {m : ClientTcpMap}

theorem not_held_nextId (h : m.Owned) : ¬ m.ledger.Held m.nextId :=
  fun hx => lt_irrefl _ (h.allocated _ hx)

/-- After `create_` all adapters but the one handed out are in one place, and that one
    is in none. -/
theorem create (h : m.Owned) : m.create_.1.Owned ∧ ¬ m.create_.1.ledger.Held m.create_.2 := by
  obtain ⟨hidle, _, hn, hL⟩ | ⟨hidle, _, hn, hL⟩ | ⟨hcli, _, hn, hL⟩ := m.create_moves
  · have hout : ¬ (m.ledger.take m.create_.2).Held m.create_.2 := h.exclusive.not_held_take hidle
    refine ⟨⟨hL ▸ h.exclusive.take _, fun x hx => ?_⟩, hL ▸ hout⟩
    rw [hL, Ledger.held_take h.exclusive hidle] at hx
    rw [hn]
    exact h.allocated x hx.1
  · have hout : ¬ (m.ledger.take m.create_.2).Held m.create_.2 := h.exclusive.not_held_take hidle
    have hnew : ¬ (m.ledger.take m.create_.2).Held m.nextId := fun hx =>
      h.not_held_nextId ((Ledger.held_take h.exclusive hidle).mp hx).1
    have hne : m.create_.2 ≠ m.nextId := fun heq => h.not_held_nextId (heq ▸ Or.inr hidle)
    refine ⟨⟨hL ▸ (h.exclusive.take _).park hnew, fun x hx => ?_⟩, ?_⟩
    · rw [hL, Ledger.held_park, Ledger.held_take h.exclusive hidle] at hx
      rw [hn]
      obtain rfl | hx := hx
      · exact Nat.lt_succ_self _
      · exact Nat.lt_succ_of_lt (h.allocated x hx.1)
    · rw [hL, Ledger.held_park]
      exact fun hx => hx.elim hne hout
  · refine ⟨⟨hL ▸ h.exclusive, fun x hx => ?_⟩, ?_⟩
    · rw [hL] at hx
      rw [hn]
      exact Nat.lt_succ_of_lt (h.allocated x hx)
    · rw [hL, hcli]
      exact h.not_held_nextId

/-- Which adapters are held after `create_`. -/
theorem held_create (h : m.Owned) (x : ℕ) :
    m.create_.1.ledger.Held x ↔
      (m.ledger.Held x ∨ m.builds ∧ x = m.nextId) ∧ x ≠ m.create_.2 := by
  obtain ⟨hidle, hb, _, hL⟩ | ⟨hidle, hb, _, hL⟩ | ⟨hcli, hb, _, hL⟩ := m.create_moves
  · rw [hL, Ledger.held_take h.exclusive hidle]
    simp [hb]
  · have hne : m.nextId ≠ m.create_.2 := fun heq => h.not_held_nextId (heq ▸ Or.inr hidle)
    rw [hL, Ledger.held_park, Ledger.held_take h.exclusive hidle]
    constructor
    · rintro (rfl | hx)
      · exact ⟨Or.inr ⟨hb, rfl⟩, hne⟩
      · exact ⟨Or.inl hx.1, hx.2⟩
    · rintro ⟨hx | ⟨_, rfl⟩, hxne⟩
      · exact Or.inr ⟨hx, hxne⟩
      · exact Or.inl rfl
  · rw [hL, hcli]
    constructor
    · exact fun hx => ⟨Or.inl hx, fun heq => h.not_held_nextId (heq ▸ hx)⟩
    · rintro ⟨hx | ⟨_, hx⟩, hne⟩
      · exact hx
      · exact absurd hx hne

theorem create_lt (h : m.Owned) : m.create_.2 < m.create_.1.nextId := by
  have hidle : m.create_.2 ∈ m.ledger.idle → m.create_.2 < m.nextId := fun hx =>
    h.allocated _ (Or.inr hx)
  obtain ⟨hx, _, hn, _⟩ | ⟨hx, _, hn, _⟩ | ⟨hcli, _, hn, _⟩ := m.create_moves
  · have hlt := hidle hx
    omega
  · have hlt := hidle hx
    omega
  · omega

end Owned

/-! ### `createAndInsert` and `upsert_` -/

section Sections

variable {m : ClientTcpMap} {id : IoId} {cli : ℕ}

theorem createAndInsert_ledger (hfind : m.find id = none) :
    (m.createAndInsert id).1.ledger = m.create_.1.ledger.assign id m.create_.2 := by
  have hclients : m.create_.1.clients.find id = none := by rw [create_clients]; exact hfind
  refine Ledger.ext ?_ rfl
  funext k
  simp only [ledger, find, createAndInsert, Ledger.assign, Function.update_apply,
    OrderedMap.insert_of_find_eq_none _ hclients, OrderedMap.find_assign]

/-- An id that is in the map already keeps its adapter; the new one is nowhere. -/
theorem createAndInsert_of_mapped {y : ℕ} (hfind : m.find id = some y) :
    (m.createAndInsert id).1 = m.create_.1 := by
  have hclients : m.create_.1.clients.find id = some y := by rw [create_clients]; exact hfind
  show { m.create_.1 with clients := m.create_.1.clients.insert id m.create_.2 } = m.create_.1
  rw [OrderedMap.insert_of_find_eq_some _ hclients]

theorem find_createAndInsert (hfind : m.find id = none) (k : IoId) :
    (m.createAndInsert id).1.find k = if k = id then some m.create_.2 else m.find k := by
  simp only [find, createAndInsert, create_clients, OrderedMap.insert_of_find_eq_none _ hfind,
    OrderedMap.find_assign]

theorem Owned.createAndInsert (h : m.Owned) (id : IoId) : (m.createAndInsert id).1.Owned := by
  obtain ⟨hown, hout⟩ := h.create
  cases hfind : m.find id with
  | some y => rw [createAndInsert_of_mapped hfind]; exact hown
  | none =>
    have hk : m.create_.1.ledger.leased id = none := by
      show m.create_.1.clients.find id = none
      rw [create_clients]
      exact hfind
    have hL := createAndInsert_ledger hfind
    refine ⟨hL ▸ hown.exclusive.assign (Ledger.reservedFor_of_not_held hout id), fun x hx => ?_⟩
    rw [hL, Ledger.held_assign hk] at hx
    obtain rfl | hx := hx
    · exact h.create_lt
    · exact hown.allocated x hx

/-- Serving an id that is not in the map loses no adapter, and adds one only if it had
    to be built. -/
theorem Owned.held_createAndInsert (h : m.Owned) (hfind : m.find id = none) (x : ℕ) :
    (m.createAndInsert id).1.ledger.Held x ↔ m.ledger.Held x ∨ m.builds ∧ x = m.nextId := by
  have hk : m.create_.1.ledger.leased id = none := by
    show m.create_.1.clients.find id = none
    rw [create_clients]
    exact hfind
  rw [createAndInsert_ledger hfind, Ledger.held_assign hk, h.held_create x]
  constructor
  · rintro (rfl | hx)
    · exact m.create_mem_idle.imp_left Or.inr
    · exact hx.1
  · intro hx
    by_cases hcli : x = m.create_.2
    · exact Or.inl hcli
    · exact Or.inr ⟨hx, hcli⟩

/-- The adapter `createAndInsert` returns is used for nothing but its id. -/
theorem Owned.reserved_created (h : m.Owned) (id : IoId) :
    (m.createAndInsert id).1.ledger.ReservedFor id (m.createAndInsert id).2 ∧
      (m.createAndInsert id).2 < (m.createAndInsert id).1.nextId := by
  obtain ⟨_, hout⟩ := h.create
  refine ⟨?_, h.create_lt⟩
  show (m.createAndInsert id).1.ledger.ReservedFor id m.create_.2
  have hres := Ledger.reservedFor_of_not_held hout id
  cases hfind : m.find id with
  | some y => rw [createAndInsert_of_mapped hfind]; exact hres
  | none =>
    rw [createAndInsert_ledger hfind]
    refine ⟨hres.1, fun k hk => ?_⟩
    simp only [Ledger.assign, Function.update_apply] at hk
    split_ifs at hk with hkid
    · exact hkid
    · exact hres.2 k hk

theorem reserved_createAndInsert {x : ℕ} {k : IoId} (hx : m.ledger.ReservedFor k x)
    (hlt : x < m.nextId) (id : IoId) : (m.createAndInsert id).1.ledger.ReservedFor k x := by
  obtain ⟨hres, hne⟩ := reserved_create hx hlt
  cases hfind : m.find id with
  | some y => rw [createAndInsert_of_mapped hfind]; exact hres
  | none => rw [createAndInsert_ledger hfind]; exact hres.assign hne id

theorem find_upsert (m : ClientTcpMap) (id : IoId) :
    (m.upsert_ id).1.find id = some (m.upsert_ id).2 := by
  simp only [upsert_]
  cases hfind : m.find id with
  | some cli => exact hfind
  | none => exact (find_createAndInsert hfind id).trans (if_pos rfl)

theorem Owned.upsert (h : m.Owned) (id : IoId) : (m.upsert_ id).1.Owned := by
  simp only [upsert_]
  cases m.find id with
  | some cli => exact h
  | none => exact h.createAndInsert id

/-- `perform_io` is `upsert_` and a call of the adapter it returns. -/
theorem performIo_eq (m : ClientTcpMap) (d : DataPtr) (id : IoId) (handler : Option Handler)
    (snd : Sending) : m.performIo d id handler snd =
      if m.stopFlag then m
      else
        (m.upsert_ id).1.call (m.upsert_ id).2
          (ClientTcpAdapter.performIo d id handler snd) := by
  simp only [performIo, create, upsert_]
  cases m.find id <;> rfl

theorem regIo_of_running {itf : Option Source} (hstop : m.stopFlag = false) :
    m.regIo id itf =
      (m.upsert_ id).1.call (m.upsert_ id).2 (ClientTcpAdapter.regIo id itf) := by
  simp only [regIo]
  rw [hstop]
  rfl

theorem performIo_of_running {d : DataPtr} {handler : Option Handler} {snd : Sending}
    (hstop : m.stopFlag = false) : m.performIo d id handler snd =
      (m.upsert_ id).1.call (m.upsert_ id).2
        (ClientTcpAdapter.performIo d id handler snd) := by
  rw [performIo_eq, hstop]
  rfl

/-! ### `eraseAndPool` -/

theorem eraseAndPool_nextId (m : ClientTcpMap) (id : IoId) (cli : ℕ) :
    (m.eraseAndPool id cli).1.nextId = m.nextId := by
  simp only [eraseAndPool]
  split <;> rfl

/-- `eraseAndPool` ends the lease, and parks the adapter if there is room. -/
theorem eraseAndPool_ledger (m : ClientTcpMap) (id : IoId) (cli : ℕ) :
    (m.secondaryPool.length < m.opt.secondaryPool ∧
      (m.eraseAndPool id cli).1.ledger = (m.ledger.drop id).park cli) ∨
    (m.opt.secondaryPool ≤ m.secondaryPool.length ∧
      (m.eraseAndPool id cli).1.ledger = m.ledger.drop id) := by
  have hleased : (fun k => (m.clients.erase id).find k) = Function.update m.find id none := by
    funext k
    simp only [OrderedMap.find_erase, Function.update_apply]
    rfl
  simp only [eraseAndPool]
  split
  · next hroom =>
    refine Or.inl ⟨hroom, Ledger.ext hleased ?_⟩
    have hperm : (m.startupPool ++ (m.secondaryPool ++ [cli]) ++ m.primaryPool).Perm
        (cli :: (m.startupPool ++ m.secondaryPool ++ m.primaryPool)) := by
      simp only [List.append_assoc, List.singleton_append]
      rw [← List.append_assoc, ← List.append_assoc]
      exact List.perm_middle
    exact Multiset.coe_eq_coe.mpr hperm
  · next hfull => exact Or.inr ⟨not_lt.mp hfull, Ledger.ext hleased rfl⟩

/-- Pooling an adapter that only the caller can be using keeps the adapters apart. -/
theorem Owned.eraseAndPool (h : m.Owned) (hres : m.ledger.ReservedFor id cli)
    (hlt : cli < m.nextId) : (m.eraseAndPool id cli).1.Owned := by
  have hn := m.eraseAndPool_nextId id cli
  obtain ⟨_, hL⟩ | ⟨_, hL⟩ := m.eraseAndPool_ledger id cli
  · refine ⟨hL ▸ (h.exclusive.drop id).park hres.not_held_drop, fun x hx => ?_⟩
    rw [hL, Ledger.held_park] at hx
    rw [hn]
    obtain rfl | hx := hx
    · exact hlt
    · exact h.allocated x (Ledger.held_of_held_drop hx)
  · refine ⟨hL ▸ h.exclusive.drop id, fun x hx => ?_⟩
    rw [hL] at hx
    rw [hn]
    exact h.allocated x (Ledger.held_of_held_drop hx)

end Sections

end ClientTcpMap

end WfcIo

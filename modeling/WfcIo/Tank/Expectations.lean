import WfcIo.Tank.Check
import WfcIo.Foundation.History

/-!
# How many results are expected

Each request leaves an expected result behind. A response that is checked takes one away, but
only if the check comes as far as the stored result: what belongs to an error response, or to a
response that cannot be read, stays for good, and without `check_response` everything does.

## Main definitions

- `Tank.Load` — a tank, the requests that are not answered yet, and the calls so far
- `Tank.Answering` — a response is one message that answers an outstanding request
- `Tank.Settles` — the check of this response comes as far as the expected result
- `Tank.Bounded` — no more results are expected than requests are outstanding

## Main results

- `Tank.checkResponse_of_settles`, `Tank.checkResponse_of_not_settles` — what a check takes away
- `Tank.bounded_iff` — which runs are bounded
-/

namespace WfcIo.Tank

open Foundation

/-- The calls of a load test: a request, a response to the request with the id `id`, and a
    request of another tank. -/
inductive Act
  | makeRequest_ (req res : Data)
  | checkResponse_ (id : ℤ) (res2 : Data)
  | other
  deriving DecidableEq

/-- The call may take an id. -/
def Act.takes : Act → Bool
  | .checkResponse_ _ _ => false
  | _ => true

/-- A tank under load. A request that is not answered yet goes by the value of `_call_id` after
    it, which is its id if there is a method. -/
structure Load where
  tank : Tank
  outstanding : List ℤ := []
  made : ℕ := 0
  checked : ℕ := 0

def Load.start (callId : ℤ) : Load := { tank := { callId } }

def Load.step (env : TankEnv) (opt : TankOptions) (l : Load) : Act → Load
  | .makeRequest_ req res =>
    let t := (l.tank.makeRequest_ env opt req res).2
    { l with tank := t, outstanding := t.callId :: l.outstanding, made := l.made + 1 }
  | .checkResponse_ id res2 =>
    { l with
      tank := (l.tank.checkResponse_ env opt res2).2
      outstanding := l.outstanding.erase id
      checked := l.checked + 1 }
  | .other => { l with tank := { l.tank with callId := increment l.tank.callId } }

/-- The payload cannot be parsed, or it is one message, whose id is `id` if it can be read. -/
def Carries (P : IncomingParser) (id : ℤ) (res2 : Data) : Prop :=
  ∀ m rest, P.parse res2 = some (m, rest) → rest = none ∧ ∀ id', m.id = some id' → id' = id

/-- A response answers a request that is outstanding. -/
def Answering (env : TankEnv) (opt : TankOptions) (l : Load) : Act → Prop
  | .checkResponse_ id res2 =>
    id ∈ l.outstanding ∧ (opt.jsonrpc = true → Carries env.parser id res2)
  | _ => True

/-- Responses are checked, and with a method this one is a response with a result, right or
    wrong. -/
def Settles (env : TankEnv) (opt : TankOptions) : Act → Prop
  | .checkResponse_ id res2 =>
    opt.checkResponse = true ∧ (opt.jsonrpc = true →
      ∃ text, env.parser.parse res2 = some (⟨true, some id, some (some text)⟩, none))
  | _ => True

/-- The number of expected results. -/
def Load.stored (l : Load) : ℕ := l.tank.callMap.size + l.tank.ioQueue.length

/-- No more results are expected than responses are. -/
def Bounded (l : Load) : Prop := l.stored + l.checked ≤ l.made

variable {env : TankEnv} {opt : TankOptions} {l : Load} {t : Tank} {id : ℤ} {res2 : Data}

/-! ### What a check takes away -/

/-- A message takes away what is expected under its id exactly if it has a result. -/
theorem checkMessage_callMap (m : Incoming) (callMap : OrderedMap ℤ Data) :
    (checkMessage m callMap).callMap =
      match m with
      | ⟨true, some id, some (some _)⟩ => callMap.erase id
      | _ => callMap := by
  obtain ⟨isResponse, id, result⟩ := m
  match isResponse, id, result with
  | false, _, _ => rfl
  | true, none, _ => rfl
  | true, some _, none => rfl
  | true, some _, some none => rfl
  | true, some id, some (some text) =>
    simp only [checkMessage, if_true]
    split
    · rfl
    · next hnone => rw [OrderedMap.erase_of_find_eq_none hnone]

theorem checkResponse_of_settles (h : Settles env opt (.checkResponse_ id res2)) :
    (t.checkResponse_ env opt res2).2 =
      if opt.jsonrpc then { t with callMap := t.callMap.erase id }
      else { t with ioQueue := t.ioQueue.tail } := by
  obtain ⟨hcheck, hparse⟩ := h
  cases hjson : opt.jsonrpc with
  | true =>
    obtain ⟨text, hparse⟩ := hparse hjson
    rw [checkResponse_eq hcheck hjson hparse, checkLoop_none, checkMessage_callMap, if_pos rfl]
  | false =>
    simp only [checkResponse_, hcheck, hjson, if_true, Bool.false_eq_true, if_false]
    split
    · next hnil => rw [hnil, List.tail_nil, ← hnil]
    · next hcons => rw [hcons, List.tail_cons]

/-- Otherwise everything stays. -/
theorem checkResponse_of_not_settles (hcarries : opt.jsonrpc = true → Carries env.parser id res2)
    (h : ¬ Settles env opt (.checkResponse_ id res2)) :
    (t.checkResponse_ env opt res2).2 = t := by
  cases hcheck : opt.checkResponse with
  | false => simp only [checkResponse_, hcheck, Bool.false_eq_true, if_false]
  | true =>
    cases hjson : opt.jsonrpc with
    | false => exact absurd ⟨hcheck, fun h => (by rw [hjson] at h; cases h)⟩ h
    | true =>
      cases hparse : env.parser.parse res2 with
      | none => simp only [checkResponse_, hcheck, hjson, hparse, if_true]
      | some p =>
        obtain ⟨m, rest⟩ := p
        obtain ⟨rfl, hid⟩ := hcarries hjson m rest hparse
        rw [checkResponse_eq hcheck hjson hparse, checkLoop_none, checkMessage_callMap]
        split
        · next id' text =>
          obtain rfl := hid id' rfl
          exact absurd ⟨hcheck, fun _ => ⟨text, hparse⟩⟩ h
        · rfl

/-! ### Runs in which every check settles -/

/-- What is expected belongs to requests that are outstanding. -/
structure Covered (opt : TankOptions) (l : Load) : Prop where
  balance : l.outstanding.length + l.checked = l.made
  json : opt.jsonrpc = true → l.tank.ioQueue = [] ∧
    ∀ k, l.tank.callMap.find k ≠ none → k ∈ l.outstanding
  raw : opt.jsonrpc = false → l.tank.callMap = .empty ∧
    l.tank.ioQueue.length = l.outstanding.length

/-- The ids of the outstanding requests are different, and under each a result is expected. -/
def Complete (opt : TankOptions) (l : Load) : Prop :=
  opt.jsonrpc = true → l.outstanding.Nodup ∧ ∀ k ∈ l.outstanding, l.tank.callMap.find k ≠ none

/-- The next id is not that of an outstanding request. -/
def Fresh (l : Load) : Act → Prop
  | .makeRequest_ _ _ => increment l.tank.callId ∉ l.outstanding
  | _ => True

theorem Covered.step (a : Act) (hsettles : Settles env opt a) (hanswering : Answering env opt l a)
    (h : Covered opt l) : Covered opt (l.step env opt a) := by
  cases a with
  | makeRequest_ req res =>
    obtain ⟨counters, hspec⟩ := makeRequest_spec env opt req res l.tank
    refine ⟨?_, fun hjson => ?_, fun hraw => ?_⟩
    · simp only [Load.step, List.length_cons, ← h.balance]
      omega
    · obtain ⟨hqueue, hkeys⟩ := h.json hjson
      simp only [Load.step, hspec, hjson, if_true, OrderedMap.find_assign]
      refine ⟨hqueue, fun k hk => ?_⟩
      split at hk
      · next heq => exact heq ▸ List.mem_cons_self
      · exact List.mem_cons_of_mem _ (hkeys k hk)
    · obtain ⟨hmap, hqueue⟩ := h.raw hraw
      simp only [Load.step, hspec, hraw, Bool.false_eq_true, if_false, List.length_append,
        List.length_cons, List.length_nil, hqueue]
      exact ⟨hmap, trivial⟩
  | checkResponse_ id res2 =>
    obtain ⟨hid, _⟩ := hanswering
    have hlength := List.length_erase_add_one hid
    refine ⟨?_, fun hjson => ?_, fun hraw => ?_⟩
    · simp only [Load.step, ← h.balance]
      omega
    · obtain ⟨hqueue, hkeys⟩ := h.json hjson
      simp only [Load.step, checkResponse_of_settles hsettles, hjson, if_true,
        OrderedMap.find_erase]
      refine ⟨hqueue, fun k hk => ?_⟩
      split at hk
      · exact absurd rfl hk
      · next hne => exact (List.mem_erase_of_ne hne).mpr (hkeys k hk)
    · obtain ⟨hmap, hqueue⟩ := h.raw hraw
      simp only [Load.step, checkResponse_of_settles hsettles, hraw, Bool.false_eq_true, if_false,
        List.length_tail]
      exact ⟨hmap, by omega⟩
  | other => exact ⟨h.balance, h.json, h.raw⟩

theorem Complete.step (a : Act) (hsettles : Settles env opt a) (hfresh : Fresh l a)
    (h : Complete opt l) : Complete opt (l.step env opt a) := by
  intro hjson
  obtain ⟨hnodup, hfind⟩ := h hjson
  cases a with
  | makeRequest_ req res =>
    obtain ⟨counters, hspec⟩ := makeRequest_spec env opt req res l.tank
    simp only [Load.step, hspec, hjson, if_true, OrderedMap.find_assign, List.nodup_cons]
    refine ⟨⟨hfresh, hnodup⟩, fun k hk => ?_⟩
    split
    · exact Option.some_ne_none res
    · next hne => exact hfind k ((List.mem_cons.mp hk).resolve_left hne)
  | checkResponse_ id res2 =>
    simp only [Load.step, checkResponse_of_settles hsettles, hjson, if_true,
      OrderedMap.find_erase]
    refine ⟨hnodup.erase id, fun k hk => ?_⟩
    obtain ⟨hne, hmem⟩ := hnodup.mem_erase_iff.mp hk
    rw [if_neg hne]
    exact hfind k hmem
  | other => exact ⟨hnodup, hfind⟩

/-- If the results belong to outstanding requests, they are no more than these. -/
theorem Covered.bounded (h : Covered opt l) : Bounded l := by
  have hstored : l.stored ≤ l.outstanding.length := by
    rw [Load.stored]
    cases hjson : opt.jsonrpc with
    | true =>
      obtain ⟨hqueue, hkeys⟩ := h.json hjson
      rw [hqueue, List.length_nil, add_zero]
      exact OrderedMap.size_le_of_subset hkeys
    | false =>
      obtain ⟨hmap, hqueue⟩ := h.raw hjson
      rw [hmap, hqueue]
      exact (zero_add _).le
  have hbalance := h.balance
  rw [Bounded]
  omega

/-- If each outstanding request has its result, they are no fewer. -/
theorem Covered.made_le (h : Covered opt l) (hcomplete : Complete opt l) :
    l.made ≤ l.stored + l.checked := by
  have hstored : l.outstanding.length ≤ l.stored := by
    rw [Load.stored]
    cases hjson : opt.jsonrpc with
    | true =>
      obtain ⟨hnodup, hfind⟩ := hcomplete hjson
      exact le_add_right (OrderedMap.length_le_size hnodup hfind)
    | false =>
      obtain ⟨_, hqueue⟩ := h.raw hjson
      exact le_add_left hqueue.ge
  have hbalance := h.balance
  omega

/-! ### Ids -/

/-- The counter has been incremented `n` times since it was `c`, and the outstanding requests
    took their ids on the way. -/
def Taken (c : ℤ) (n : ℕ) (l : Load) : Prop :=
  l.tank.callId = increment^[n] c ∧ ∀ id ∈ l.outstanding, ∃ m ≤ n, id = increment^[m] c

theorem checkResponse_callId : (t.checkResponse_ env opt res2).2.callId = t.callId := by
  simp only [checkResponse_]
  split
  · split
    · split <;> rfl
    · split <;> rfl
  · rfl

theorem Taken.step {c : ℤ} {n : ℕ} (a : Act) (h : Taken c n l) :
    ∃ n' ≤ n + [a].countP Act.takes, Taken c n' (l.step env opt a) := by
  obtain ⟨hcall, hall⟩ := h
  have hnext : increment l.tank.callId = increment^[n + 1] c := by
    rw [hcall, Function.iterate_succ_apply']
  have hweak : ∀ id ∈ l.outstanding, ∃ m ≤ n + 1, id = increment^[m] c := by
    intro id hid
    obtain ⟨m, hm, heq⟩ := hall id hid
    exact ⟨m, hm.trans (Nat.le_succ n), heq⟩
  cases a with
  | makeRequest_ req res =>
    obtain ⟨counters, hspec⟩ := makeRequest_spec env opt req res l.tank
    simp only [Load.step, hspec]
    split
    · refine ⟨n + 1, le_rfl, hnext, fun id hid => ?_⟩
      obtain rfl | hid := List.mem_cons.mp hid
      · exact ⟨n + 1, le_rfl, hnext⟩
      · exact hweak id hid
    · refine ⟨n, Nat.le_succ n, hcall, fun id hid => ?_⟩
      obtain rfl | hid := List.mem_cons.mp hid
      · exact ⟨n, le_rfl, hcall⟩
      · exact hall id hid
  | checkResponse_ id res2 =>
    exact ⟨n, le_rfl, checkResponse_callId.trans hcall,
      fun id' hid' => hall id' (List.mem_of_mem_erase hid')⟩
  | other => exact ⟨n + 1, le_rfl, hnext, hweak⟩

theorem taken_run (env : TankEnv) (opt : TankOptions) (c : ℤ) (as : List Act) :
    ∃ n ≤ as.countP Act.takes, Taken c n (run (Load.step env opt) (Load.start c) as) := by
  induction as using List.reverseRecOn with
  | nil => exact ⟨0, le_rfl, rfl, fun id hid => absurd hid List.not_mem_nil⟩
  | append_singleton as a ih =>
    obtain ⟨n, hn, htaken⟩ := ih
    obtain ⟨n', hn', htaken'⟩ := @Taken.step env opt _ c n a htaken
    rw [run_concat, List.countP_append]
    exact ⟨n', hn'.trans (Nat.add_le_add_right hn _), htaken'⟩

/-- As long as not all ids are taken, the next one is new. -/
theorem fresh_of_few {c : ℤ} {as : List Act} (h : as.countP Act.takes < 2 ^ 32) :
    Along (Load.step env opt) Fresh (Load.start c) as := by
  rw [along_iff_atEach]
  rintro pre a post rfl
  cases a with
  | makeRequest_ req res =>
    obtain ⟨n, hn, hcall, hall⟩ := taken_run env opt c pre
    intro hmem
    obtain ⟨m, hm, heq⟩ := hall _ hmem
    rw [hcall, ← Function.iterate_succ_apply' increment] at heq
    rw [List.countP_append, List.countP_cons_of_pos rfl] at h
    exact increment_iterate_ne (Nat.lt_succ_of_le hm) (by omega) heq.symm
  | checkResponse_ id res2 => trivial
  | other => trivial

/-! ### Runs -/

variable {c : ℤ} {as : List Act}

theorem covered_start : Covered opt (Load.start c) :=
  ⟨rfl, fun _ => ⟨rfl, fun _ hk => absurd rfl hk⟩, fun _ => ⟨rfl, rfl⟩⟩

theorem complete_start : Complete opt (Load.start c) :=
  fun _ => ⟨List.nodup_nil, fun _ hk => absurd hk List.not_mem_nil⟩

/-- The results stay with the outstanding requests as long as every check settles. -/
theorem covered_run
    (hanswering : Along (Load.step env opt) (Answering env opt) (Load.start c) as)
    (hsettles : ∀ a ∈ as, Settles env opt a) :
    Covered opt (run (Load.step env opt) (Load.start c) as) := by
  have hsteps := hanswering.and (along_of_forall hsettles)
  exact run_invariant_along (I := Covered opt) (fun _ a ha h => h.step a ha.2 ha.1) covered_start
    hsteps

theorem complete_run (hfresh : Along (Load.step env opt) Fresh (Load.start c) as)
    (hsettles : ∀ a ∈ as, Settles env opt a) :
    Complete opt (run (Load.step env opt) (Load.start c) as) := by
  have hsteps := hfresh.and (along_of_forall hsettles)
  exact run_invariant_along (I := Complete opt) (fun _ a ha h => h.step a ha.2 ha.1)
    complete_start hsteps

/-- The first check that does not settle leaves one result too many. -/
theorem not_bounded_of_not_settles {a : Act} (hcovered : Covered opt l)
    (hcomplete : Complete opt l) (hanswering : Answering env opt l a)
    (hsettles : ¬ Settles env opt a) : ¬ Bounded (l.step env opt a) := by
  cases a with
  | makeRequest_ req res => exact absurd trivial hsettles
  | checkResponse_ id res2 =>
    have hsame := checkResponse_of_not_settles (t := l.tank) hanswering.2 hsettles
    have hmade := hcovered.made_le hcomplete
    intro hbounded
    rw [Bounded, Load.stored, Load.step, hsame] at hbounded
    rw [Load.stored] at hmade
    dsimp only at hbounded
    omega
  | other => exact absurd trivial hsettles

/-- **Expectations.** A run in which every check settles never has more results expected than
    requests outstanding; and as long as not all ids are taken, only such runs do. -/
theorem bounded_iff (env : TankEnv) (opt : TankOptions) (c : ℤ) (as : List Act)
    (hanswering : Along (Load.step env opt) (Answering env opt) (Load.start c) as) :
    ((∀ a ∈ as, Settles env opt a) →
      ∀ pre, pre <+: as → Bounded (run (Load.step env opt) (Load.start c) pre)) ∧
    (as.countP Act.takes < 2 ^ 32 →
      (∀ pre, pre <+: as → Bounded (run (Load.step env opt) (Load.start c) pre)) →
      ∀ a ∈ as, Settles env opt a) := by
  constructor
  · intro hsettles pre hpre
    have hall : ∀ a ∈ pre, Settles env opt a := fun a ha => hsettles a (hpre.subset ha)
    exact (covered_run (hanswering.of_prefix hpre) hall).bounded
  · intro hfew hbounded
    have hfresh := @fresh_of_few env opt c as hfew
    induction as using List.reverseRecOn with
    | nil => exact fun a ha => absurd ha List.not_mem_nil
    | append_singleton as a ih =>
      have hlast := hbounded _ (List.prefix_refl _)
      rw [along_concat] at hanswering hfresh
      rw [run_concat] at hlast
      rw [List.countP_append] at hfew
      have has : ∀ b ∈ as, Settles env opt b :=
        ih hanswering.1 ((Nat.le_add_right _ _).trans_lt hfew)
          (fun pre hpre => hbounded pre (hpre.trans (List.prefix_append as [a]))) hfresh.1
      have ha : Settles env opt a := by
        by_contra hnot
        exact not_bounded_of_not_settles (covered_run hanswering.1 has)
          (complete_run hfresh.1 has) hanswering.2 hnot hlast
      intro b hb
      obtain hb | hb := List.mem_append.mp hb
      · exact has b hb
      · exact List.mem_singleton.mp hb ▸ ha

/-- A request, and the right response. -/
theorem bounded_one :
    Bounded (run (Load.step digitEnv { checkResponse := true, jsonrpcMethod := some "get" })
      (Load.start 0) [.makeRequest_ [120] [53], .checkResponse_ 1 (digitResponse 49 53)]) := by
  have hparse : digitParser.parse (digitResponse 49 53) =
      some (⟨true, some 1, some (some [53])⟩, none) := by decide
  refine (bounded_iff digitEnv { checkResponse := true, jsonrpcMethod := some "get" } 0
    [.makeRequest_ [120] [53], .checkResponse_ 1 (digitResponse 49 53)] ?_).1 ?_ _
    (List.prefix_refl _)
  · refine ⟨trivial, ⟨List.mem_cons_self, fun _ m rest hm => ?_⟩, trivial⟩
    obtain ⟨rfl, rfl⟩ := Prod.mk.inj (Option.some.inj (hparse.symm.trans hm))
    exact ⟨rfl, fun id' hid' => (Option.some.inj hid').symm⟩
  · refine List.forall_mem_cons.mpr ⟨trivial, List.forall_mem_singleton.mpr ?_⟩
    exact ⟨rfl, fun _ => ⟨[53], hparse⟩⟩

/-- A request, and a response that cannot be read: its result is expected for good. -/
theorem not_bounded :
    ¬ ∀ (env : TankEnv) (opt : TankOptions) (c : ℤ) (as : List Act),
      Along (Load.step env opt) (Answering env opt) (Load.start c) as →
      ∀ pre, pre <+: as → Bounded (run (Load.step env opt) (Load.start c) pre) := by
  intro hall
  have hbounded := hall digitEnv { checkResponse := true, jsonrpcMethod := some "get" } 0
    [.makeRequest_ [120] [53], .checkResponse_ 1 []] ?_ _ (List.prefix_refl _)
  · exact absurd hbounded (by unfold Bounded; decide)
  · refine ⟨trivial, ⟨List.mem_cons_self, fun _ m rest hparse => ?_⟩, trivial⟩
    cases hparse

end WfcIo.Tank

import WfcIo.Tank.Tank
import Mathlib.Data.List.Forall2

/-!
# Which responses pass the check

A response is a number of messages, one after the other. The loop of `check_response_` parses
the next message at the end of each turn and then asks whether anything remains behind it, so
it ends with the last message parsed and not checked, unless that is the only one.

## Main definitions

- `Splits` — the bytes are these messages, at least one
- `Tank.Answered` — the messages answer different expected requests
- `Tank.RightlyChecked` — the check passes exactly such responses, and removes what they answer

## Main results

- `Tank.checkLoop_spec` — the loop checks all messages but the last
- `Tank.rightlyChecked_iff` — when a response is rightly checked
-/

namespace WfcIo

open Foundation

/-- The bytes are a concatenation of these messages. -/
inductive Splits (P : IncomingParser) : Data → List Incoming → Prop
  | last {d : Data} {m : Incoming} : P.parse d = some (m, none) → Splits P d [m]
  | more {d d' : Data} {m : Incoming} {ms : List Incoming} :
      P.parse d = some (m, some d') → Splits P d' ms → Splits P d (m :: ms)

theorem Splits.ne_nil {P : IncomingParser} {d : Data} {ms : List Incoming} (h : Splits P d ms) :
    ms ≠ [] := by
  cases h <;> exact List.cons_ne_nil _ _

namespace Tank

/-- Each message is a response with the expected result, under an id of its own from `ids`. -/
def Answered (callMap : OrderedMap ℤ Data) (ms : List Incoming) (ids : List ℤ) : Prop :=
  ids.Nodup ∧ List.Forall₂ (Answers callMap) ms ids

/-- The response, which is the messages `ms`, passes the check exactly if each of them answers
    a request of its own, and if it passes, what they answer is no longer expected, and
    nothing else has changed. -/
def RightlyChecked (env : TankEnv) (opt : TankOptions) (t : Tank) (res2 : Data)
    (ms : List Incoming) : Prop :=
  ((t.checkResponse_ env opt res2).1 = true ↔ ∃ ids, Answered t.callMap ms ids) ∧
    ((t.checkResponse_ env opt res2).1 = true → ∀ ids, Answered t.callMap ms ids →
      (t.checkResponse_ env opt res2).2.callMap = ids.foldl OrderedMap.erase t.callMap)

variable {P : IncomingParser} {callMap : OrderedMap ℤ Data} {m : Incoming} {ms : List Incoming}
  {ids : List ℤ} {id : ℤ} {d : Data} {ok : Bool}

/-! ### Messages that answer -/

theorem answered_nil : Answered callMap [] ids ↔ ids = [] := by
  rw [Answered, List.forall₂_nil_left_iff]
  exact ⟨fun h => h.2, fun h => ⟨h ▸ List.nodup_nil, h⟩⟩

theorem answers_erase {id' : ℤ} :
    Answers (callMap.erase id) m id' ↔ id' ≠ id ∧ Answers callMap m id' := by
  simp only [Answers, OrderedMap.find_erase]
  by_cases hid : id' = id
  · simp [hid]
  · simp [hid]

theorem forall₂_answers_erase :
    List.Forall₂ (Answers (callMap.erase id)) ms ids ↔
      id ∉ ids ∧ List.Forall₂ (Answers callMap) ms ids := by
  induction ms generalizing ids with
  | nil =>
    rw [List.forall₂_nil_left_iff, List.forall₂_nil_left_iff]
    exact ⟨fun h => ⟨h ▸ List.not_mem_nil, h⟩, fun h => h.2⟩
  | cons m ms ih =>
    cases ids with
    | nil => simp
    | cons id' ids =>
      rw [List.forall₂_cons, List.forall₂_cons, answers_erase, ih, List.mem_cons, not_or,
        ne_comm]
      tauto

/-- The first message answers, and the others answer what is still expected after it. -/
theorem answered_cons : Answered callMap (m :: ms) ids ↔
    ∃ id ids', ids = id :: ids' ∧ Answers callMap m id ∧
      Answered (callMap.erase id) ms ids' := by
  cases ids with
  | nil =>
    refine iff_of_false (fun h => ?_) fun ⟨id, ids', h, _⟩ => (by cases h)
    cases h.2
  | cons id ids' =>
    rw [Answered, List.nodup_cons, List.forall₂_cons]
    constructor
    · rintro ⟨⟨hid, hnodup⟩, hm, hms⟩
      exact ⟨id, ids', rfl, hm, hnodup, forall₂_answers_erase.mpr ⟨hid, hms⟩⟩
    · rintro ⟨_, _, heq, hm, hnodup, hms⟩
      cases heq
      obtain ⟨hid, hms⟩ := forall₂_answers_erase.mp hms
      exact ⟨⟨hid, hnodup⟩, hm, hms⟩

/-- What the first message answers is known. -/
theorem answered_cons_of_answers (h : Answers callMap m id) : Answered callMap (m :: ms) ids ↔
    ∃ ids', ids = id :: ids' ∧ Answered (callMap.erase id) ms ids' := by
  rw [answered_cons]
  constructor
  · rintro ⟨id', ids', rfl, hid', hrest⟩
    obtain rfl : id' = id := Option.some.inj (hid'.2.1.symm.trans h.2.1)
    exact ⟨ids', rfl, hrest⟩
  · rintro ⟨ids', rfl, hrest⟩
    exact ⟨id, ids', rfl, h, hrest⟩

theorem not_answered_of_not_ok (h : (checkMessage m callMap).ok = false) (ids : List ℤ) :
    ¬ Answered callMap (m :: ms) ids := by
  intro hids
  obtain ⟨id, _, _, hm, _⟩ := answered_cons.mp hids
  rw [checkMessage_eq_true_iff.mpr ⟨id, hm⟩] at h
  cases h

/-- If the messages answer, all but the last do, and the last answers something else. -/
theorem answered_concat (h : Answered callMap (ms ++ [m]) ids) :
    ∃ ids' id, ids = ids' ++ [id] ∧ Answered callMap ms ids' ∧ id ∉ ids' ∧
      callMap.find id ≠ none := by
  obtain ⟨hnodup, hall⟩ := h
  have hreverse := List.forall₂_reverse_iff.mpr hall
  rw [List.reverse_append, List.reverse_singleton, List.singleton_append,
    List.forall₂_cons_left_iff] at hreverse
  obtain ⟨id, ids', ⟨_, _, text, _, hfind⟩, hrest, hids⟩ := hreverse
  have hids' : ids = ids'.reverse ++ [id] := by
    rw [← List.reverse_reverse ids, hids, List.reverse_cons]
  rw [hids', List.nodup_append'] at hnodup
  refine ⟨ids'.reverse, id, hids', ⟨hnodup.1, ?_⟩, ?_, ?_⟩
  · rw [← List.forall₂_reverse_iff, List.reverse_reverse]
    exact hrest
  · exact fun hmem => hnodup.2.2 hmem List.mem_cons_self
  · rw [hfind]
    exact Option.some_ne_none text

/-! ### The loop -/

theorem checkLoop_none : checkLoop P m none ok callMap =
    { checkMessage m callMap with ok := ok && (checkMessage m callMap).ok } := by
  rw [checkLoop]

/-- The next message is parsed and nothing remains after it: it is not checked. -/
theorem checkLoop_last {m' : Incoming} (h : P.parse d = some (m', none)) :
    checkLoop P m (some d) ok callMap =
      { checkMessage m callMap with
        ok := ok && (checkMessage m callMap).ok
        error := (checkMessage m callMap).error && !P.clears } := by
  rw [checkLoop]
  dsimp only
  split
  · rename_i hnone
    rw [h] at hnone
    cases hnone
  · rename_i heq
    rw [h] at heq
    cases heq
    rfl

theorem checkLoop_more {m' : Incoming} {d' : Data} (h : P.parse d = some (m', some d')) :
    checkLoop P m (some d) ok callMap =
      if (checkMessage m callMap).error && !P.clears then
        { checkMessage m callMap with
          ok := ok && (checkMessage m callMap).ok
          error := (checkMessage m callMap).error && !P.clears }
      else
        checkLoop P m' (some d') (ok && (checkMessage m callMap).ok)
          (checkMessage m callMap).callMap := by
  rw [checkLoop]
  dsimp only
  split
  · rename_i hnone
    rw [h] at hnone
    cases hnone
  · rename_i heq
    rw [h] at heq
    cases heq
    rfl

/-- The loop passes a response. -/
def Verdict.passed (v : Verdict) : Bool := v.ok && !v.error

/-- A first message that does not answer decides. -/
theorem not_passed_of_not_ok (h : Splits P d ms) :
    (checkLoop P m (some d) false callMap).passed = false := by
  induction h generalizing m callMap with
  | last hparse =>
    rw [checkLoop_last hparse]
    rfl
  | more hparse _ ih =>
    rw [checkLoop_more hparse]
    split
    · rfl
    · rw [Bool.false_and]
      exact ih

/-- One message, checked. The error variable may have been cleared since. -/
theorem checkMessage_passed {e : Bool} (he : e = true → (checkMessage m callMap).error = true) :
    (((checkMessage m callMap).ok && !e) = true ↔ ∃ ids, Answered callMap [m] ids) ∧
      ∀ ids, Answered callMap [m] ids →
        (checkMessage m callMap).callMap = ids.foldl OrderedMap.erase callMap := by
  cases hok : (checkMessage m callMap).ok with
  | false =>
    have hnot := @not_answered_of_not_ok callMap m [] hok
    exact ⟨iff_of_false (fun heq => by cases heq) fun ⟨ids, hids⟩ => hnot ids hids,
      fun ids hids => absurd hids (hnot ids)⟩
  | true =>
    obtain ⟨id, hid⟩ := checkMessage_eq_true_iff.mp hok
    simp only [answered_cons_of_answers hid, answered_nil]
    rw [checkMessage_of_answers hid] at he ⊢
    refine ⟨iff_of_true ?_ ⟨[id], [], rfl, rfl⟩, ?_⟩
    · rw [Bool.true_and, Bool.not_eq_true']
      exact Bool.eq_false_iff.mpr fun heq => by cases he heq
    · rintro _ ⟨_, rfl, rfl⟩
      rfl

/-- **The loop.** With the current message `m` and the messages `ms` after it, the loop passes
    exactly if `m` and all of `ms` but the last answer, and removes what they answer. -/
theorem checkLoop_spec (h : Splits P d ms) :
    ((checkLoop P m (some d) true callMap).passed = true ↔
        ∃ ids, Answered callMap (m :: ms.dropLast) ids) ∧
      ∀ ids, Answered callMap (m :: ms.dropLast) ids →
        (checkLoop P m (some d) true callMap).callMap = ids.foldl OrderedMap.erase callMap := by
  induction h generalizing m callMap with
  | last hparse =>
    rw [checkLoop_last hparse, List.dropLast_singleton]
    exact checkMessage_passed fun he => (Bool.and_eq_true_iff.mp he).1
  | @more d d' m' ms hparse hms ih =>
    rw [checkLoop_more hparse, List.dropLast_cons_of_ne_nil hms.ne_nil]
    cases hok : (checkMessage m callMap).ok with
    | false =>
      refine ⟨iff_of_false ?_ fun ⟨ids, hids⟩ => not_answered_of_not_ok hok ids hids,
        fun ids hids => absurd hids (not_answered_of_not_ok hok ids)⟩
      split
      · exact fun heq => by cases heq
      · rw [Bool.and_false, not_passed_of_not_ok hms]
        exact fun heq => by cases heq
    | true =>
      obtain ⟨id, hid⟩ := checkMessage_eq_true_iff.mp hok
      obtain ⟨hpassed, hmap⟩ := @ih (callMap.erase id) m'
      simp only [answered_cons_of_answers hid]
      rw [checkMessage_of_answers hid, Bool.and_true, Bool.false_and, if_neg Bool.false_ne_true]
      constructor
      · rw [hpassed]
        constructor
        · rintro ⟨ids', hids'⟩
          exact ⟨id :: ids', ids', rfl, hids'⟩
        · rintro ⟨_, ids', _, hids'⟩
          exact ⟨ids', hids'⟩
      · rintro _ ⟨ids', rfl, hids'⟩
        rw [hmap ids' hids', List.foldl_cons]

/-! ### The check -/

variable {env : TankEnv} {opt : TankOptions} {t : Tank} {res2 : Data} {rest : DataPtr}

/-- With a method, the response is checked by the loop. -/
theorem checkResponse_eq (hcheck : opt.checkResponse = true) (hjson : opt.jsonrpc = true)
    (hparse : env.parser.parse res2 = some (m, rest)) :
    t.checkResponse_ env opt res2 =
      ((checkLoop env.parser m rest true t.callMap).passed,
        { t with callMap := (checkLoop env.parser m rest true t.callMap).callMap }) := by
  simp only [checkResponse_, hcheck, hjson, hparse, if_true]
  rfl

/-- **The check.** A response is rightly checked exactly if it is one message only, or one of
    its messages before the last does not answer. -/
theorem rightlyChecked_iff (env : TankEnv) (opt : TankOptions) (t : Tank) (res2 : Data)
    (ms : List Incoming) (hcheck : opt.checkResponse = true) (hjson : opt.jsonrpc = true)
    (hsplit : Splits env.parser res2 ms) :
    RightlyChecked env opt t res2 ms ↔
      ms.length = 1 ∨ ¬ ∃ ids, Answered t.callMap ms.dropLast ids := by
  cases hsplit with
  | @last _ m hparse =>
    refine iff_of_true ?_ (Or.inl rfl)
    rw [RightlyChecked, checkResponse_eq hcheck hjson hparse, checkLoop_none]
    obtain ⟨hpassed, hmap⟩ := checkMessage_passed (fun he => he)
    exact ⟨hpassed, fun _ => hmap⟩
  | @more _ d' m ms hparse hms =>
    obtain ⟨hpassed, hmap⟩ := @checkLoop_spec _ t.callMap m _ _ hms
    have hlength : (m :: ms).length ≠ 1 := by
      rw [List.length_cons]
      exact fun heq => hms.ne_nil (List.length_eq_zero_iff.mp (Nat.succ_inj.mp heq))
    have hconcat : m :: ms = m :: ms.dropLast ++ [ms.getLast hms.ne_nil] := by
      rw [List.cons_append, List.dropLast_concat_getLast]
    rw [RightlyChecked, checkResponse_eq hcheck hjson hparse,
      List.dropLast_cons_of_ne_nil hms.ne_nil, hpassed]
    constructor
    · rintro ⟨hall, hremoved⟩
      right
      intro hbut
      -- the last message is not looked at: what it answers is still expected
      obtain ⟨ids, hids⟩ := hall.mp hbut
      have hids' := hids
      rw [hconcat] at hids'
      obtain ⟨ids', id, rfl, hids', hid, hfind⟩ := answered_concat hids'
      have heq := (hremoved hbut _ hids).symm.trans (hmap ids' hids')
      have hlast := congrArg (fun callMap => OrderedMap.find callMap id) heq
      simp only [OrderedMap.find_foldl_erase, List.mem_append, List.mem_singleton, or_true,
        if_true, if_neg hid] at hlast
      exact hfind hlast.symm
    · rintro (heq | hnot)
      · exact absurd heq hlength
      · refine ⟨iff_of_false hnot ?_, fun hbut => absurd hbut hnot⟩
        rintro ⟨ids, hids⟩
        rw [hconcat] at hids
        obtain ⟨ids', _, _, hids', _⟩ := answered_concat hids
        exact hnot ⟨ids', hids'⟩

/-- The text of a response with one digit as id and one as result. -/
def digitResponse (id result : UInt8) : Data :=
  [123, 34, 105, 100, 34, 58, id, 44, 34, 114, 101, 115, 117, 108, 116, 34, 58, result, 125]

/-- A parser of such responses: `{"id":1,"result":5}`. -/
def digitParser : IncomingParser where
  parse d :=
    if 19 ≤ d.length then
      some (⟨true, some ((d.getD 6 0).toNat - 48 : ℤ), some (some [d.getD 17 0])⟩,
        if d.length = 19 then none else some (d.drop 19))
    else none
  clears := false
  shorter := by
    intro d m rest h
    split at h
    · rename_i hlength
      rw [Option.some.injEq, Prod.mk.injEq] at h
      obtain ⟨_, h⟩ := h
      split at h
      · cases h
      · cases h
        rw [List.length_drop]
        omega
    · cases h

/-- Nothing but the parser. -/
def digitEnv : TankEnv where
  serialize _ req _ := req
  searchVars _ := []
  replaceVars _ req := req
  getOpt _ _ n := n
  parser := digitParser

/-- A response of one message. -/
theorem rightlyChecked_one :
    RightlyChecked digitEnv { checkResponse := true, jsonrpcMethod := some "get" }
      { callMap := OrderedMap.empty.assign 1 [53] } (digitResponse 49 53)
      [⟨true, some 1, some (some [53])⟩] :=
  (rightlyChecked_iff digitEnv { checkResponse := true, jsonrpcMethod := some "get" }
    { callMap := OrderedMap.empty.assign 1 [53] } (digitResponse 49 53)
    [⟨true, some 1, some (some [53])⟩] rfl (by decide) (.last (by decide))).mpr (Or.inl rfl)

/-- A response of two messages, where the second has a wrong result. -/
theorem not_rightlyChecked :
    ¬ ∀ (env : TankEnv) (opt : TankOptions) (t : Tank) (res2 : Data) (ms : List Incoming),
      opt.checkResponse = true → opt.jsonrpc = true → Splits env.parser res2 ms →
      RightlyChecked env opt t res2 ms := by
  intro hall
  have hparse : digitParser.parse (digitResponse 49 53 ++ digitResponse 50 56) =
      some (⟨true, some 1, some (some [53])⟩, some (digitResponse 50 56)) := by decide
  have hparse' : digitParser.parse (digitResponse 50 56) =
      some (⟨true, some 2, some (some [56])⟩, none) := by decide
  obtain ⟨hiff, _⟩ := hall digitEnv { checkResponse := true, jsonrpcMethod := some "get" }
    { callMap := (OrderedMap.empty.assign 1 [53]).assign 2 [55] }
    (digitResponse 49 53 ++ digitResponse 50 56) _ rfl (by decide) (.more hparse (.last hparse'))
  rw [checkResponse_eq rfl (by decide) hparse] at hiff
  have hpassed : (checkLoop digitParser ⟨true, some 1, some (some [53])⟩
      (some (digitResponse 50 56)) true ((OrderedMap.empty.assign 1 [53]).assign 2 [55])).passed =
        true := by
    rw [checkLoop_last hparse']
    decide
  obtain ⟨ids, hids⟩ := hiff.mp hpassed
  obtain ⟨_, ids', _, _, hrest⟩ := answered_cons.mp hids
  obtain ⟨id, _, _, ⟨_, hid, text, htext, hfind⟩, _⟩ := answered_cons.mp hrest
  cases hid
  cases htext
  rw [OrderedMap.find_erase] at hfind
  split at hfind
  · cases hfind
  · exact absurd hfind (by decide)

end Tank

end WfcIo

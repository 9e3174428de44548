import WfcIo.Foundation.Cursor
import WfcIo.Hub.Broadcast

/-!
# Peers that call the hub back

The loop of `perform_io` walks the map itself, without the lock and without a copy. A peer may
call `reg_io` or `unreg_io` of the hub before its `perform_io` returns: a connection that finds
out, while it writes, that the other side is gone unregisters itself. The element that the
cursor of the loop is on is erased then, and the loop goes on from it. A new id may also make the
`std::unordered_map` rehash, which leaves no iterator valid.

The order of the map, where it puts a new element, and whether it rehashes for it, is left open.

## Main definitions

- `Hub.Reentry` — a call of the hub by a peer that has not returned yet
- `Hub.Loop`, `Loop.turn` — the loop with its cursor, one turn of it
- `Loop.after` — the loop after so many turns, with given peers
- `Loop.Survives` — the cursor is never lost, the loop ends, and who stays gets the message
- `Loop.SelfErasing`, `Loop.Rehashes`, `Loop.Adds` — what a peer can do to the loop

## Main results

- `Loop.quiet_loop` — without calls of the peers it is the loop of `Hub.performIo`
- `Loop.survives_iff` — when the loop survives
-/

namespace WfcIo

open Foundation

namespace Hub

/-- A call of the hub by a peer that has not returned from its `perform_io` yet. For a new id,
    `place` is where the map puts it, or that it rehashes. -/
inductive Reentry
  | regIo (id : IoId) (itf : Option Source) (place : Place)
  | unregIo (id : IoId)
  deriving DecidableEq

/-- The loop of `perform_io`. `reentries` are the calls that have come back from the peers. -/
structure Loop where
  hub : Hub
  cursor : Cursor IoId
  reentries : List Reentry := []

/-- The peer `k`, if it is to get a message of `sender`. -/
def receiver (sender k : IoId) (h : Hub) : Option Source :=
  if k = sender then none else h.lock (h.map.find k).join

namespace Loop

/-! ### The loop -/

/-- A call comes while the loop waits for a peer. -/
def reenter (l : Loop) (c : Reentry) : Loop :=
  match c with
  | .regIo id itf place =>
    { hub := l.hub.regIo id itf
      cursor := l.cursor.insert id place
      reentries := l.reentries ++ [c] }
  | .unregIo id =>
    { hub := l.hub.unregIo id
      cursor := l.cursor.erase id
      reentries := l.reentries ++ [c] }

/-- One turn: the element of the cursor gets the message, unless it is the sender or gone, and
    then makes the calls in `script`. -/
def turn (data : Data) (sender : IoId) (l : Loop) (script : List Reentry) : Loop :=
  match l.cursor.spot with
  | .on k =>
    match l.hub.receiver sender k with
    | some p =>
      let waiting : Loop := { l with hub := l.hub.emit (.peer k p data l.hub.id none) }
      let l' := script.foldl reenter waiting
      { l' with cursor := l'.cursor.advance }
    | none => { l with cursor := l.cursor.advance }
  | _ => l

/-- The loop begins; `order` is the order of the map. -/
def start (h : Hub) (order : List IoId) : Loop := { hub := h.quiet, cursor := .start order }

/-- The loop after `n` turns, where `behave i` are the calls of the peer in turn `i`. -/
def after (h : Hub) (order : List IoId) (data : Data) (sender : IoId)
    (behave : ℕ → List Reentry) (n : ℕ) : Loop :=
  run (turn data sender) (start h order) ((List.range n).map behave)

/-- The call leaves `k` registered, and with an interface that is alive. -/
def Keeps (gone : List Source) (k : IoId) : Reentry → Prop
  | .regIo id itf _ => id = k → ∃ p, itf = some p ∧ p ∉ gone
  | .unregIo id => id ≠ k

/-- The peer `k` of the hub `h` is alive, is not the sender, and stays registered. -/
structure Stays (h : Hub) (sender k : IoId) (l : Loop) : Prop where
  other : k ≠ sender
  registered : ∃ p, h.map.find k = some (some p) ∧ p ∉ h.gone
  kept : ∀ c ∈ l.reentries, Keeps h.gone k c

/-- The calls that have gone to the peer `k`. -/
def sent (l : Loop) (k : IoId) : List Outcall := l.hub.outcalls.filter (Outcall.toPeer k)

/-- The loop never goes on from an iterator that is not valid any more, because its element has been
    erased or the map has rehashed; it ends; and every living peer that stays
    registered, other than the sender, gets the message exactly once. -/
structure Survives (h : Hub) (order : List IoId) (data : Data) (sender : IoId)
    (behave : ℕ → List Reentry) : Prop where
  neverLost : ∀ n, (after h order data sender behave n).cursor.spot ≠ .lost
  ends : ∃ n, (after h order data sender behave n).cursor.spot = .done
  delivered : ∀ n, (after h order data sender behave n).cursor.spot = .done →
    ∀ k, Stays h sender k (after h order data sender behave n) →
      ∃ p, (after h order data sender behave n).sent k = [.peer k p data h.id none]

/-- The peer at the cursor gets the message, and unregisters itself before it returns. -/
def SelfErasing (sender : IoId) (l : Loop) (script : List Reentry) : Prop :=
  ∃ k, l.cursor.spot = .on k ∧ l.hub.receiver sender k ≠ none ∧ .unregIo k ∈ script

/-- The loop while the peer `p` under `k` has been called and has not returned. -/
def calling (data : Data) (k : IoId) (p : Source) (l : Loop) : Loop :=
  { l with hub := l.hub.emit (.peer k p data l.hub.id none) }

/-- The call registers an id that is not registered. -/
def New (l : Loop) : Reentry → Prop
  | .regIo id _ _ => l.hub.map.find id = none
  | .unregIo _ => False

/-- The map rehashes, should the id be new. -/
def WithRehash : Reentry → Prop
  | .regIo _ _ place => place = .rebuilt
  | .unregIo _ => False

/-- The peer at the cursor gets the message, and registers a new id for which the map rehashes. -/
def Rehashes (data : Data) (sender : IoId) (l : Loop) (script : List Reentry) : Prop :=
  ∃ k p, l.cursor.spot = .on k ∧ l.hub.receiver sender k = some p ∧
    ∃ pre c post, script = pre ++ c :: post ∧ New (pre.foldl reenter (l.calling data k p)) c ∧
      WithRehash c

/-- The peer at the cursor gets the message, and registers an id that is new when it does. -/
def Adds (data : Data) (sender : IoId) (l : Loop) (script : List Reentry) : Prop :=
  ∃ k p, l.cursor.spot = .on k ∧ l.hub.receiver sender k = some p ∧
    ∃ pre c post, script = pre ++ c :: post ∧ New (pre.foldl reenter (l.calling data k p)) c

variable {h : Hub} {order : List IoId} {data : Data} {sender : IoId} {l : Loop}
  {script : List Reentry} {behave : ℕ → List Reentry} {k : IoId} {c : Reentry} {n : ℕ}

/-! ### What a call does -/

/-- The hub that the loop runs in: not suspended, its map has the keys of the cursor. -/
structure Good (h : Hub) (l : Loop) : Prop where
  suspended : l.hub.suspended = false
  gone : l.hub.gone = h.gone
  id : l.hub.id = h.id
  nodup : l.cursor.keys.Nodup
  keys : ∀ k, k ∈ l.cursor.keys ↔ l.hub.map.find k ≠ none

theorem reenter_regIo (hs : l.hub.suspended = false) (id : IoId) (itf : Option Source)
    (place : Place) : l.reenter (.regIo id itf place) =
      { hub := { l.hub with map := l.hub.map.assign id itf }
        cursor := l.cursor.insert id place
        reentries := l.reentries ++ [.regIo id itf place] } := by
  simp only [reenter, Hub.regIo, hs, Bool.false_eq_true, if_false]

theorem reenter_unregIo (hs : l.hub.suspended = false) (id : IoId) : l.reenter (.unregIo id) =
    { hub :=
        { l.hub with
          map := l.hub.map.erase id
          outcalls := l.hub.outcalls ++
            (l.hub.lockTarget.map fun t => Outcall.target t (.unregIo id)).toList }
      cursor := l.cursor.erase id
      reentries := l.reentries ++ [.unregIo id] } := by
  simp only [reenter, unregIo_eq, hs, Bool.false_eq_true, if_false]

theorem good_reenter (hl : Good h l) (c : Reentry) : Good h (l.reenter c) := by
  cases c with
  | regIo id itf place =>
    rw [reenter_regIo hl.suspended]
    refine ⟨hl.suspended, hl.gone, hl.id, Cursor.nodup_insert hl.nodup, fun k => ?_⟩
    rw [Cursor.mem_keys_insert, hl.keys, OrderedMap.find_assign]
    split
    · rename_i hk
      exact iff_of_true (Or.inl hk) (Option.some_ne_none _)
    · rename_i hk
      exact or_iff_right hk
  | unregIo id =>
    rw [reenter_unregIo hl.suspended]
    refine ⟨hl.suspended, hl.gone, hl.id, Cursor.nodup_erase hl.nodup, fun k => ?_⟩
    rw [Cursor.mem_keys_erase hl.nodup, hl.keys, OrderedMap.find_erase]
    split
    · rename_i hk
      exact iff_of_false (fun hne => hne.1 hk) fun hne => hne rfl
    · rename_i hk
      exact and_iff_right hk

theorem good_foldl (hl : Good h l) (script : List Reentry) : Good h (script.foldl reenter l) := by
  induction script generalizing l with
  | nil => exact hl
  | cons c script ih => exact ih (good_reenter hl c)

theorem reenter_reentries (l : Loop) (c : Reentry) :
    (l.reenter c).reentries = l.reentries ++ [c] := by
  cases c <;> rfl

theorem foldl_reentries (script : List Reentry) (l : Loop) :
    (script.foldl reenter l).reentries = l.reentries ++ script := by
  induction script generalizing l with
  | nil => rw [List.foldl_nil, List.append_nil]
  | cons c script ih =>
    rw [List.foldl_cons, ih, reenter_reentries, List.append_assoc, List.singleton_append]

/-- The calls of the peers send no message. -/
theorem reenter_sent (hs : l.hub.suspended = false) (c : Reentry) (k : IoId) :
    (l.reenter c).sent k = l.sent k := by
  cases c with
  | regIo id itf place =>
    rw [reenter_regIo hs]
    rfl
  | unregIo id =>
    rw [reenter_unregIo hs]
    simp only [sent, List.filter_append]
    cases l.hub.lockTarget <;> simp [Outcall.toPeer]

theorem foldl_sent (hl : Good h l) (script : List Reentry) (k : IoId) :
    (script.foldl reenter l).sent k = l.sent k := by
  induction script generalizing l with
  | nil => rfl
  | cons c script ih =>
    rw [List.foldl_cons, ih (good_reenter hl c), reenter_sent hl.suspended]

/-- The cursor stays on its element until that is erased, and then where it was. -/
theorem foldl_spot (script : List Reentry) (hk : l.cursor.spot = .on k) :
    (script.foldl reenter l).cursor.spot =
      if .unregIo k ∈ script then .erased k else .on k := by
  have herased : ∀ (script : List Reentry) (l : Loop), l.cursor.spot = .erased k →
      (script.foldl reenter l).cursor.spot = .erased k := by
    intro script
    induction script with
    | nil => exact fun l hl => hl
    | cons c script ih =>
      intro l hl
      refine ih _ ?_
      cases c with
      | regIo id itf place => exact Cursor.insert_spot.trans hl
      | unregIo id =>
        refine (Cursor.erase_spot_of_ne fun hon => ?_).trans hl
        rw [hl] at hon
        cases hon
  induction script generalizing l with
  | nil => exact hk
  | cons c script ih =>
    rw [List.foldl_cons]
    cases c with
    | regIo id itf place =>
      rw [ih (Cursor.insert_spot.trans hk)]
      simp only [List.mem_cons, reduceCtorEq, false_or]
    | unregIo id =>
      by_cases hid : id = k
      · subst hid
        rw [herased script _ (Cursor.erase_spot_self hk), if_pos List.mem_cons_self]
      · have hon : l.cursor.spot ≠ .on id := fun hon => by
          rw [hk] at hon
          cases hon
          exact hid rfl
        rw [ih ((Cursor.erase_spot_of_ne hon).trans hk)]
        simp only [List.mem_cons, Reentry.unregIo.injEq, Ne.symm hid, false_or]

/-- The cursor stays valid until a new id makes the map rehash. -/
theorem foldl_valid (hl : Good h l) (hvalid : l.cursor.valid = true) (script : List Reentry) :
    (script.foldl reenter l).cursor.valid = true ↔
      ¬ ∃ pre c post, script = pre ++ c :: post ∧ New (pre.foldl reenter l) c ∧ WithRehash c := by
  induction script using List.reverseRecOn with
  | nil => exact iff_of_true hvalid fun ⟨pre, c, post, heq, _⟩ => (by simp at heq)
  | append_singleton script c ih =>
    have hlast : ((script ++ [c]).foldl reenter l).cursor.valid = true ↔
        (script.foldl reenter l).cursor.valid = true ∧
          ¬ (New (script.foldl reenter l) c ∧ WithRehash c) := by
      rw [List.foldl_append, List.foldl_cons, List.foldl_nil]
      cases c with
      | regIo id itf place =>
        have hkeys := (good_foldl hl script).keys id
        refine Cursor.insert_valid.trans (and_congr_right fun _ => not_congr ?_)
        rw [hkeys, not_ne_iff]
        rfl
      | unregIo id => exact (and_iff_left fun hnew => hnew.1).symm
    rw [hlast, ih, ← not_or, not_iff_not]
    constructor
    · rintro (⟨pre, c', post, rfl, hc⟩ | hc)
      · exact ⟨pre, c', post ++ [c], by simp, hc⟩
      · exact ⟨script, c, [], rfl, hc⟩
    · rintro ⟨pre, c', post, heq, hc⟩
      obtain rfl | ⟨post', c'', rfl⟩ := List.eq_nil_or_concat post
      · obtain ⟨rfl, hcc⟩ := List.append_inj' heq rfl
        cases hcc
        exact Or.inr hc
      · rw [List.concat_eq_append, ← List.cons_append, ← List.append_assoc] at heq
        obtain ⟨rfl, _⟩ := List.append_inj' heq rfl
        exact Or.inl ⟨pre, c', post', rfl, hc⟩

/-- A peer that is kept stays where it is. -/
theorem foldl_kept (hl : Good h l) (hfind : ∃ p, l.hub.map.find k = some (some p) ∧ p ∉ h.gone)
    (hkept : ∀ c ∈ script, Keeps h.gone k c) :
    (∃ p, (script.foldl reenter l).hub.map.find k = some (some p) ∧ p ∉ h.gone) ∧
      (k ∈ (script.foldl reenter l).cursor.passed ↔ k ∈ l.cursor.passed) := by
  induction script generalizing l with
  | nil => exact ⟨hfind, Iff.rfl⟩
  | cons c script ih =>
    have hc := hkept c List.mem_cons_self
    have hmem : k ∈ l.cursor.keys := by
      obtain ⟨p, hp, _⟩ := hfind
      rw [hl.keys, hp]
      exact Option.some_ne_none _
    have hstep : (∃ p, (l.reenter c).hub.map.find k = some (some p) ∧ p ∉ h.gone) ∧
        (k ∈ (l.reenter c).cursor.passed ↔ k ∈ l.cursor.passed) := by
      cases c with
      | regIo id itf place =>
        rw [reenter_regIo hl.suspended]
        refine ⟨?_, Cursor.mem_passed_insert hmem⟩
        simp only [OrderedMap.find_assign]
        split
        · rename_i hk
          obtain ⟨p, rfl, hp⟩ := hc hk.symm
          exact ⟨p, rfl, hp⟩
        · exact hfind
      | unregIo id =>
        rw [reenter_unregIo hl.suspended]
        refine ⟨?_, Cursor.mem_passed_erase (Ne.symm hc)⟩
        simp only [OrderedMap.find_erase, if_neg (Ne.symm hc)]
        exact hfind
    obtain ⟨hfind', hpassed⟩ := ih (good_reenter hl c) hstep.1 fun c' hc' =>
      hkept c' (List.mem_cons_of_mem _ hc')
    exact ⟨hfind', hpassed.trans hstep.2⟩

/-- Without a new id the keys that are left do not grow. -/
theorem foldl_left (hl : Good h l)
    (hold : ∀ pre c post, script = pre ++ c :: post → ¬ New (pre.foldl reenter l) c) :
    (script.foldl reenter l).cursor.left ≤ l.cursor.left := by
  induction script generalizing l with
  | nil => exact Nat.le_refl _
  | cons c script ih =>
    have hc : ¬ New l c := hold [] c script rfl
    have hrest := ih (good_reenter hl c) fun pre c' post heq =>
      hold (c :: pre) c' post (by rw [heq, List.cons_append])
    refine Nat.le_trans hrest ?_
    cases c with
    | regIo id itf place => exact Nat.le_of_eq (Cursor.left_insert ((hl.keys id).mpr hc))
    | unregIo id => exact Cursor.left_erase

/-! ### What a turn does -/

theorem turn_cases (data : Data) (sender : IoId) (l : Loop) (script : List Reentry) :
    ((∀ k, l.cursor.spot ≠ .on k) ∧ l.turn data sender script = l) ∨
    ∃ k, l.cursor.spot = .on k ∧
      (l.hub.receiver sender k = none ∧
          l.turn data sender script = { l with cursor := l.cursor.advance } ∨
        ∃ p, l.hub.receiver sender k = some p ∧
          l.turn data sender script =
            { script.foldl reenter (l.calling data k p) with
              cursor := (script.foldl reenter (l.calling data k p)).cursor.advance }) := by
  cases hspot : l.cursor.spot with
  | on k =>
    refine Or.inr ⟨k, rfl, ?_⟩
    cases hreceiver : l.hub.receiver sender k with
    | none => exact Or.inl ⟨rfl, by simp only [turn, hspot, hreceiver]⟩
    | some p => exact Or.inr ⟨p, rfl, by simp only [turn, hspot, hreceiver, calling]⟩
  | _ => exact Or.inl ⟨fun k hk => (by cases hk), by simp only [turn, hspot]⟩

theorem good_calling (hl : Good h l) (data : Data) (k : IoId) (p : Source) :
    Good h (l.calling data k p) :=
  ⟨hl.suspended, hl.gone, hl.id, hl.nodup, hl.keys⟩

theorem good_advance (hl : Good h l) : Good h { l with cursor := l.cursor.advance } := by
  refine ⟨hl.suspended, hl.gone, hl.id, ?_, fun k => ?_⟩
  · rw [Cursor.keys_advance]
    exact hl.nodup
  · rw [Cursor.keys_advance]
    exact hl.keys k

theorem good_turn (hl : Good h l) (script : List Reentry) :
    Good h (l.turn data sender script) := by
  obtain ⟨_, heq⟩ | ⟨k, _, ⟨_, heq⟩ | ⟨p, _, heq⟩⟩ := turn_cases data sender l script
  · rwa [heq]
  · rw [heq]
    exact good_advance hl
  · rw [heq]
    exact good_advance (good_foldl (good_calling hl data k p) script)

/-- Between two turns the cursor is on no erased key, it is valid where it is, and at the end
    nothing is ahead. -/
structure Between (l : Loop) : Prop where
  erased : ∀ k, l.cursor.spot ≠ .erased k
  valid : ∀ k, l.cursor.spot = .on k → l.cursor.valid = true
  done : l.cursor.spot = .done → l.cursor.ahead = []

theorem between_of_lost (h : l.cursor.spot = .lost) : Between l :=
  ⟨fun k heq => (by cases h.symm.trans heq), fun k heq => (by cases h.symm.trans heq),
    fun heq => (by cases h.symm.trans heq)⟩

theorem between_advance (hk : l.cursor.spot = .on k ∨ l.cursor.spot = .erased k) :
    Between { l with cursor := l.cursor.advance } := by
  obtain hk | hk := hk
  · cases hvalid : l.cursor.valid with
    | false => exact between_of_lost (Cursor.advance_spot_of_not_valid hk hvalid)
    | true =>
      have hon : ∀ k, l.cursor.advance.spot = .on k → l.cursor.advance.valid = true := fun _ =>
        Cursor.advance_valid
      obtain ⟨k', hk'⟩ | ⟨hdone, hahead⟩ := Cursor.advance_spot_of_on hk hvalid
      · exact ⟨fun k heq => (by cases hk'.symm.trans heq), hon,
          fun heq => (by cases hk'.symm.trans heq)⟩
      · exact ⟨fun k heq => (by cases hdone.symm.trans heq), hon, fun _ => hahead⟩
  · exact between_of_lost (Cursor.advance_spot_erased hk)

theorem between_turn (hb : Between l) (script : List Reentry) :
    Between (l.turn data sender script) := by
  obtain ⟨_, heq⟩ | ⟨k, hk, ⟨_, heq⟩ | ⟨p, _, heq⟩⟩ := turn_cases data sender l script
  · rwa [heq]
  · rw [heq]
    exact between_advance (Or.inl hk)
  · have hcalling : (l.calling data k p).cursor.spot = .on k := hk
    have hfold := foldl_spot script hcalling
    rw [heq]
    refine between_advance (k := k) ?_
    split at hfold
    · exact Or.inr hfold
    · exact Or.inl hfold

/-- After a turn the cursor is lost if the peer has unregistered itself or made the map rehash, and
    on the next key or behind the last one otherwise. -/
theorem turn_lost_iff (hl : Good h l) (hb : Between l) :
    (l.turn data sender script).cursor.spot = .lost ↔
      l.cursor.spot = .lost ∨ SelfErasing sender l script ∨ Rehashes data sender l script := by
  obtain ⟨hnone, heq⟩ | ⟨k, hk, hcases⟩ := turn_cases data sender l script
  · rw [heq]
    refine (or_iff_left ?_).symm
    rintro (⟨k, hk, _⟩ | ⟨k, p, hk, _⟩)
    · exact hnone k hk
    · exact hnone k hk
  · have hnot : l.cursor.spot ≠ .lost := fun hlost => (by cases hk.symm.trans hlost)
    rw [or_iff_right hnot]
    obtain ⟨hreceiver, heq⟩ | ⟨p, hreceiver, heq⟩ := hcases
    · -- nobody is called
      rw [heq]
      refine iff_of_false ?_ ?_
      · rw [Cursor.advance_lost_iff hk, hb.valid k hk]
        exact fun heq => (by cases heq)
      · rintro (⟨k', hk', hsome, _⟩ | ⟨k', p, hk', hsome, _⟩)
        · cases hk.symm.trans hk'
          exact hsome hreceiver
        · cases hk.symm.trans hk'
          cases hreceiver.symm.trans hsome
    · have hcalling : (l.calling data k p).cursor.spot = .on k := hk
      have hfold := foldl_spot script hcalling
      have hvalid := foldl_valid (good_calling hl data k p) (hb.valid k hk) script
      have hself : SelfErasing sender l script ↔ .unregIo k ∈ script := by
        constructor
        · rintro ⟨k', hk', _, hmem⟩
          cases hk.symm.trans hk'
          exact hmem
        · exact fun hmem => ⟨k, hk, by rw [hreceiver]; exact Option.some_ne_none p, hmem⟩
      have hrehash : Rehashes data sender l script ↔
          (script.foldl reenter (l.calling data k p)).cursor.valid = false := by
        rw [← Bool.not_eq_true, hvalid, not_not]
        constructor
        · rintro ⟨k', p', hk', hp', hmore⟩
          cases hk.symm.trans hk'
          cases hreceiver.symm.trans hp'
          exact hmore
        · exact fun hmore => ⟨k, p, hk, hreceiver, hmore⟩
      rw [heq, hself, hrehash]
      by_cases hmem : .unregIo k ∈ script
      · rw [if_pos hmem] at hfold
        exact iff_of_true (Cursor.advance_spot_erased hfold) (Or.inl hmem)
      · rw [if_neg hmem] at hfold
        exact (Cursor.advance_lost_iff hfold).trans (or_iff_right hmem).symm

theorem turn_reentries (data : Data) (sender : IoId) (l : Loop) (script : List Reentry) :
    ∃ more, (l.turn data sender script).reentries = l.reentries ++ more ∧
      ∀ k p, l.cursor.spot = .on k → l.hub.receiver sender k = some p → more = script := by
  obtain ⟨hnone, heq⟩ | ⟨k, hk, ⟨hreceiver, heq⟩ | ⟨p, _, heq⟩⟩ := turn_cases data sender l script
  · rw [heq]
    exact ⟨[], (List.append_nil _).symm, fun k p hk => absurd hk (hnone k)⟩
  · rw [heq]
    refine ⟨[], (List.append_nil _).symm, fun k' p hk' hsome => ?_⟩
    rw [hk] at hk'
    cases hk'
    rw [hreceiver] at hsome
    cases hsome
  · rw [heq]
    exact ⟨script, foldl_reentries script _, fun _ _ _ _ => rfl⟩

/-- A turn that neither erases its own element nor adds a key leaves less to do. -/
theorem turn_left (hl : Good h l) (hk : l.cursor.spot = .on k)
    (hself : ¬ SelfErasing sender l script) (hadds : ¬ Adds data sender l script) :
    (l.turn data sender script).cursor.left < l.cursor.left := by
  obtain ⟨hnone, _⟩ | ⟨k', hk', ⟨_, heq⟩ | ⟨p, hreceiver, heq⟩⟩ := turn_cases data sender l script
  · exact absurd hk (hnone k)
  · rw [heq]
    exact Nat.lt_of_succ_le (Nat.le_of_eq (Cursor.left_advance hk'))
  · have hcalling : (l.calling data k' p).cursor.spot = .on k' := hk'
    have hfold := foldl_spot script hcalling
    have hmem : .unregIo k' ∉ script := fun hmem =>
      hself ⟨k', hk', by rw [hreceiver]; exact Option.some_ne_none p, hmem⟩
    rw [if_neg hmem] at hfold
    have hleft := foldl_left (good_calling hl data k' p) fun pre c post hscript hnew =>
      hadds ⟨k', p, hk', hreceiver, pre, c, post, hscript, hnew⟩
    have hadvance := Cursor.left_advance hfold
    have hsame : (l.calling data k' p).cursor.left = l.cursor.left := rfl
    rw [heq]
    dsimp only
    omega

/-! ### A peer that stays -/

/-- Where the loop is with the peer `k`, which is registered and alive: it has passed it, and
    sent it the message once, or it has done neither. -/
structure Tracks (h : Hub) (data : Data) (k : IoId) (l : Loop) : Prop where
  find : ∃ p, l.hub.map.find k = some (some p) ∧ p ∉ h.gone
  sent : (k ∈ l.cursor.passed ∧ ∃ p, l.sent k = [.peer k p data h.id none]) ∨
    k ∉ l.cursor.passed ∧ l.sent k = []

theorem sent_calling (k : IoId) (p : Source) (j : IoId) (l : Loop) :
    (l.calling data k p).sent j =
      l.sent j ++ if k = j then [.peer k p data l.hub.id none] else [] := by
  simp only [sent, calling, emit, List.filter_append]
  congr 1
  by_cases hkj : k = j
  · simp [hkj, Outcall.toPeer]
  · simp [hkj, Outcall.toPeer]

/-- A living peer that is registered gets the message in its turn, unless it is the sender. -/
theorem receiver_ne_none (hl : Good h l) (ht : Tracks h data k l) (hne : k ≠ sender) :
    l.hub.receiver sender k ≠ none := by
  obtain ⟨p, hp, halive⟩ := ht.find
  have hlock : l.hub.lock (some p) = some p :=
    lock_eq_some_iff.mpr ⟨rfl, by rw [hl.gone]; exact halive⟩
  rw [receiver, if_neg hne, hp, Option.join_some, hlock]
  exact Option.some_ne_none p

theorem tracks_turn (hl : Good h l) (ht : Tracks h data k l) (hne : k ≠ sender)
    (hkept : ∀ c ∈ (l.turn data sender script).reentries, Keeps h.gone k c) :
    Tracks h data k (l.turn data sender script) := by
  obtain ⟨more, hmore, hscript⟩ := turn_reentries data sender l script
  obtain ⟨_, heq⟩ | ⟨j, hj, ⟨hreceiver, heq⟩ | ⟨p, hreceiver, heq⟩⟩ :=
    turn_cases data sender l script
  · rwa [heq]
  · -- the cursor is not on `k`, which would get the message
    have hjk : j ≠ k := by
      rintro rfl
      exact receiver_ne_none hl ht hne hreceiver
    have hpassed : k ∈ l.cursor.advance.passed ↔ k ∈ l.cursor.passed := by
      rw [Cursor.mem_passed_advance, hj, Spot.on.injEq]
      exact or_iff_left hjk
    rw [heq]
    exact ⟨ht.find, by rw [hpassed]; exact ht.sent⟩
  · have hgood := good_calling hl data j p
    have hkeeps : ∀ c ∈ script, Keeps h.gone k c := by
      intro c hc
      apply hkept c
      rw [hmore, hscript j p hj hreceiver]
      exact List.mem_append_right _ hc
    obtain ⟨hfind, hpassed⟩ := foldl_kept hgood ht.find hkeeps
    have hsent := (foldl_sent hgood script k).trans (sent_calling j p k l)
    have hspot := foldl_spot (l := l.calling data j p) script hj
    rw [heq]
    refine ⟨hfind, ?_⟩
    by_cases hjk : j = k
    · -- the turn of `k` itself
      subst hjk
      have hnot : .unregIo j ∉ script := fun hmem => hkeeps _ hmem rfl
      have hbefore : j ∉ l.cursor.passed := Cursor.notMem_passed_of_on hl.nodup hj
      rw [if_neg hnot] at hspot
      obtain ⟨habsurd, _⟩ | ⟨_, hnil⟩ := ht.sent
      · exact absurd habsurd hbefore
      · refine Or.inl ⟨Cursor.mem_passed_advance.mpr (Or.inr hspot), p, ?_⟩
        rw [if_pos rfl, hnil, hl.id] at hsent
        exact hsent
    · have hspot' : (script.foldl reenter (l.calling data j p)).cursor.spot ≠ .on k := by
        rw [hspot]
        split
        · exact fun heq => by cases heq
        · exact fun heq => hjk (by cases heq; rfl)
      have hpassed' :
          k ∈ (script.foldl reenter (l.calling data j p)).cursor.advance.passed ↔
            k ∈ l.cursor.passed := by
        rw [Cursor.mem_passed_advance]
        exact (or_iff_left hspot').trans hpassed
      rw [if_neg hjk, List.append_nil] at hsent
      have hsent' : Loop.sent { script.foldl reenter (l.calling data j p) with
          cursor := (script.foldl reenter (l.calling data j p)).cursor.advance } k =
            l.sent k := hsent
      rw [hpassed', hsent']
      exact ht.sent

/-! ### The loop turn after turn -/

theorem after_succ (n : ℕ) : after h order data sender behave (n + 1) =
    (after h order data sender behave n).turn data sender (behave n) := by
  rw [after, List.range_succ, List.map_append, List.map_singleton, run_concat]
  rfl

theorem good_start (hs : h.suspended = false) (horder : order.Perm h.map.keys) :
    Good h (start h order) := by
  refine ⟨hs, rfl, rfl, ?_, fun k => ?_⟩
  · rw [start, Cursor.keys_start]
    exact horder.nodup_iff.mpr h.map.keys_nodup
  · rw [start, Cursor.keys_start, horder.mem_iff, ne_eq, OrderedMap.find_eq_none_iff, not_not]
    rfl

theorem good_after (hs : h.suspended = false) (horder : order.Perm h.map.keys) (n : ℕ) :
    Good h (after h order data sender behave n) :=
  run_invariant (I := Good h) (fun _ script hl => good_turn hl script) (good_start hs horder) _

theorem between_after (n : ℕ) : Between (after h order data sender behave n) := by
  have hstart : Between (start h order) := by
    cases order with
    | nil => exact ⟨fun k heq => (by cases heq), fun k heq => (by cases heq), fun _ => rfl⟩
    | cons k l => exact ⟨fun k heq => (by cases heq), fun _ _ => rfl, fun heq => (by cases heq)⟩
  exact run_invariant (I := Between) (fun _ script hb => between_turn hb script) hstart _

/-- A loop that has ended stays so. -/
theorem after_done (hn : (after h order data sender behave n).cursor.spot = .done) {m : ℕ}
    (hnm : n ≤ m) : (after h order data sender behave m).cursor.spot = .done := by
  induction m, hnm using Nat.le_induction with
  | base => exact hn
  | succ m _ ih =>
    rw [after_succ]
    obtain ⟨_, heq⟩ | ⟨k, hk, _⟩ :=
      turn_cases data sender (after h order data sender behave m) (behave m)
    · rwa [heq]
    · cases ih.symm.trans hk

theorem tracks_after (hs : h.suspended = false) (horder : order.Perm h.map.keys)
    (hstays : Stays h sender k (after h order data sender behave n)) :
    Tracks h data k (after h order data sender behave n) := by
  obtain ⟨hne, hfind, hkept⟩ := hstays
  induction n with
  | zero =>
    refine ⟨hfind, Or.inr ⟨?_, rfl⟩⟩
    cases order <;> exact List.not_mem_nil
  | succ n ih =>
    rw [after_succ] at hkept ⊢
    refine tracks_turn (good_after hs horder n) (ih fun c hc => hkept c ?_) hne hkept
    obtain ⟨more, hmore, _⟩ := turn_reentries data sender
      (after h order data sender behave n) (behave n)
    rw [hmore]
    exact List.mem_append_left _ hc

/-- Who stays has got the message when the loop has ended. -/
theorem delivered_of_done (hs : h.suspended = false) (horder : order.Perm h.map.keys)
    (hdone : (after h order data sender behave n).cursor.spot = .done)
    (hstays : Stays h sender k (after h order data sender behave n)) :
    ∃ p, (after h order data sender behave n).sent k = [.peer k p data h.id none] := by
  have ht := tracks_after hs horder hstays
  have hmem : k ∈ (after h order data sender behave n).cursor.keys := by
    obtain ⟨p, hp, _⟩ := ht.find
    rw [(good_after hs horder n).keys, hp]
    exact Option.some_ne_none _
  rw [Cursor.mem_keys, hdone, (between_after n).done hdone] at hmem
  have hpassed : k ∈ (after h order data sender behave n).cursor.passed := by
    simpa using hmem
  obtain ⟨_, hsent⟩ | ⟨hnot, _⟩ := ht.sent
  · exact hsent
  · exact absurd hpassed hnot

/-- The loop ends if from some turn on nobody adds a key, and nobody erases its own. -/
theorem ends_of_not_adds (hs : h.suspended = false) (horder : order.Perm h.map.keys)
    (hself : ∀ n, ¬ SelfErasing sender (after h order data sender behave n) (behave n))
    (hlost : ∀ n, (after h order data sender behave n).cursor.spot ≠ .lost)
    (hadds : ∀ m, n ≤ m → ¬ Adds data sender (after h order data sender behave m) (behave m)) :
    ∃ m, (after h order data sender behave m).cursor.spot = .done := by
  have hspots : ∀ m, (∃ k, (after h order data sender behave m).cursor.spot = .on k) ∨
      (after h order data sender behave m).cursor.spot = .done := by
    intro m
    cases hspot : (after h order data sender behave m).cursor.spot with
    | on k => exact Or.inl ⟨k, rfl⟩
    | erased k => exact absurd hspot ((between_after m).erased k)
    | done => exact Or.inr rfl
    | lost => exact absurd hspot (hlost m)
  -- by induction on a bound for the keys that are left
  have hbound : ∀ r m, n ≤ m → (after h order data sender behave m).cursor.left ≤ r →
      ∃ m', (after h order data sender behave m').cursor.spot = .done := by
    intro r
    induction r with
    | zero =>
      intro m _ hleft
      obtain ⟨k, hspot⟩ | hdone := hspots m
      · exact absurd hspot (Cursor.spot_ne_of_left (Nat.le_zero.mp hleft))
      · exact ⟨m, hdone⟩
    | succ r ih =>
      intro m hm hleft
      obtain ⟨k, hspot⟩ | hdone := hspots m
      · have hturn := turn_left (good_after hs horder m) hspot (hself m) (hadds m hm)
        refine ih (m + 1) (Nat.le_succ_of_le hm) ?_
        rw [after_succ]
        omega
      · exact ⟨m, hdone⟩
  exact hbound _ n (Nat.le_refl n) (Nat.le_refl _)

/-! ### Without calls of the peers -/

theorem turn_nil (hk : l.cursor.spot = .on k) {w : Option Source}
    (hw : l.hub.map.find k = some w) :
    l.turn data sender [] =
      { l with
        hub := l.hub.deliver (some data) sender (k, w)
        cursor := l.cursor.advance } := by
  have hreceiver : l.hub.receiver sender k = if k = sender then none else l.hub.lock w := by
    rw [receiver, hw, Option.join_some]
  by_cases hsender : k = sender
  · simp only [turn, hk, hreceiver, deliver, if_pos hsender]
  · cases hlock : l.hub.lock w with
    | none => simp only [turn, hk, hreceiver, deliver, if_neg hsender, hlock]
    | some p => simp only [turn, hk, hreceiver, deliver, if_neg hsender, hlock, List.foldl_nil]

/-- The rest of a loop in which no peer calls back. -/
theorem run_quiet (data : Data) (sender : IoId) (items : List (IoId × Option Source))
    (pre : List IoId) (l : Loop)
    (hcursor : l.cursor = .resume pre (items.map Prod.fst))
    (hmap : ∀ item ∈ items, l.hub.map.find item.1 = some item.2) :
    run (turn data sender) l (List.replicate items.length []) =
      { l with
        hub := items.foldl (deliver (some data) sender) l.hub
        cursor := .resume (pre ++ items.map Prod.fst) [] } := by
  induction items generalizing pre l with
  | nil =>
    rw [List.map_nil, List.append_nil]
    rw [List.map_nil] at hcursor
    rw [← hcursor]
    rfl
  | cons item items ih =>
    have hk : l.cursor.spot = .on item.1 := by
      rw [hcursor]
      rfl
    have hadvance : l.cursor.advance = .resume (pre ++ [item.1]) (items.map Prod.fst) := by
      rw [hcursor]
      rfl
    rw [List.length_cons, List.replicate_succ, run_cons,
      turn_nil hk (hmap item List.mem_cons_self), ih (pre ++ [item.1])]
    · rw [List.map_cons, List.append_assoc, List.singleton_append, List.foldl_cons]
    · exact hadvance
    · intro item' hitem'
      rw [← hmap item' (List.mem_cons_of_mem _ hitem')]
      dsimp only
      rw [deliver_eq]

/-- If no peer calls the hub, the loop over the elements of the map, and then the call of the
    target, are the `perform_io` of the hub. -/
theorem quiet_loop (h : Hub) (hs : h.suspended = false) (data : Data) (sender : IoId)
    (handler : Option Handler) :
    let l := after h h.map.keys data sender (fun _ => []) h.map.size
    l.cursor.spot = .done ∧
      { l.hub with
        outcalls := l.hub.outcalls ++ (l.hub.forward (some data) sender handler).toList } =
        step h (.performIo (some data) sender handler) := by
  intro l
  have hscripts : (List.range h.map.size).map (fun _ => ([] : List Reentry)) =
      List.replicate h.map.entries.length [] := by
    rw [List.map_const', List.length_range]
    rfl
  have hrun := run_quiet data sender h.map.entries [] (start h h.map.keys)
    rfl fun item hitem => OrderedMap.find_eq_some_iff.mpr hitem
  rw [← hscripts] at hrun
  have hl : l = _ := hrun
  have hs' : ¬ h.quiet.suspended = true := ne_true_of_eq_false hs
  refine ⟨by rw [hl]; rfl, ?_⟩
  rw [hl, step, exec, performIo_eq, if_neg hs']
  dsimp only [start]
  rw [foldl_deliver]
  rfl

/-- **Calls from within.** The loop of an unsuspended hub, whatever its peers do, survives
    exactly if no peer that gets the message unregisters itself before it returns, no registration
    of a new id within the loop makes the map rehash, and from some turn on no peer registers a new
    id. -/
theorem survives_iff (h : Hub) (hs : h.suspended = false) (order : List IoId)
    (horder : order.Perm h.map.keys) (data : Data) (sender : IoId)
    (behave : ℕ → List Reentry) :
    Survives h order data sender behave ↔
      (∀ n, ¬ SelfErasing sender (after h order data sender behave n) (behave n)) ∧
      (∀ n, ¬ Rehashes data sender (after h order data sender behave n) (behave n)) ∧
      ∃ n, ∀ m, n ≤ m → ¬ Adds data sender (after h order data sender behave m) (behave m) := by
  have hturn : ∀ n, (after h order data sender behave (n + 1)).cursor.spot = .lost ↔
      (after h order data sender behave n).cursor.spot = .lost ∨
        SelfErasing sender (after h order data sender behave n) (behave n) ∨
        Rehashes data sender (after h order data sender behave n) (behave n) := by
    intro n
    rw [after_succ]
    exact turn_lost_iff (good_after hs horder n) (between_after n)
  have hlost : (∀ n, (after h order data sender behave n).cursor.spot ≠ .lost) ↔
      (∀ n, ¬ SelfErasing sender (after h order data sender behave n) (behave n)) ∧
      ∀ n, ¬ Rehashes data sender (after h order data sender behave n) (behave n) := by
    constructor
    · exact fun hall => ⟨fun n hself => hall (n + 1) ((hturn n).mpr (Or.inr (Or.inl hself))),
        fun n hrehash => hall (n + 1) ((hturn n).mpr (Or.inr (Or.inr hrehash)))⟩
    · rintro ⟨hself, hrehash⟩ n
      induction n with
      | zero => cases order <;> exact fun heq => by cases heq
      | succ n ih =>
        rw [ne_eq, hturn]
        rintro (hlost | hself' | hrehash')
        · exact ih hlost
        · exact hself n hself'
        · exact hrehash n hrehash'
  constructor
  · rintro ⟨hnever, ⟨n, hn⟩, _⟩
    obtain ⟨hself, hrehash⟩ := hlost.mp hnever
    refine ⟨hself, hrehash, n, fun m hm => ?_⟩
    rintro ⟨k, _, hk, _⟩
    cases (after_done hn hm).symm.trans hk
  · rintro ⟨hself, hrehash, n, hadds⟩
    have hnever := hlost.mpr ⟨hself, hrehash⟩
    exact ⟨hnever, ends_of_not_adds hs horder hself hnever hadds, fun n hdone k hstays =>
      delivered_of_done hs horder hdone hstays⟩

/-- A hub with three peers. -/
def threePeers : Hub :=
  { initialized 1 none with
    map := ((OrderedMap.empty.assign 3 (some 30)).assign 5 (some 50)).assign 7 (some 70) }

/-- The first peer to get the message registers a new one, ahead of the cursor, and unregisters
    another; the second, which is the new one, unregisters the first and registers itself again. -/
def comeAndGo : ℕ → List Reentry
  | 0 => [.regIo 9 (some 90) (.ahead 0), .unregIo 3]
  | 1 => [.unregIo 5, .regIo 9 (some 91) (.ahead 0)]
  | _ => []

/-- The peer that is still to come and the new one get the message; the one that is unregistered
    before its turn does not. -/
theorem survives_comeAndGo :
    Survives threePeers [5, 7, 3] [1] 8 comeAndGo ∧
      (after threePeers [5, 7, 3] [1] 8 comeAndGo 3).cursor.spot = .done ∧
      (after threePeers [5, 7, 3] [1] 8 comeAndGo 3).hub.outcalls =
        [.peer 5 50 [1] 1 none, .peer 9 90 [1] 1 none, .peer 7 70 [1] 1 none] := by
  refine ⟨(survives_iff threePeers rfl [5, 7, 3] (by decide) [1] 8 comeAndGo).mpr ⟨?_, ?_, 2, ?_⟩,
    by decide, by decide⟩
  · rintro n ⟨k, hk, _, hmem⟩
    match n with
    | 0 =>
      obtain rfl : k = 3 := by simpa [comeAndGo] using hmem
      exact absurd hk (by decide)
    | 1 =>
      obtain rfl : k = 5 := by simpa [comeAndGo] using hmem
      exact absurd hk (by decide)
    | n + 2 => cases hmem
  · rintro n ⟨_, _, _, _, pre, c, post, hscript, _, hrehash⟩
    have hmem : c ∈ comeAndGo n := hscript ▸ List.mem_append_right pre List.mem_cons_self
    match n with
    | 0 =>
      obtain rfl | rfl : c = .regIo 9 (some 90) (.ahead 0) ∨ c = .unregIo 3 := by
        simpa [comeAndGo] using hmem
      · cases hrehash
      · exact hrehash
    | 1 =>
      obtain rfl | rfl : c = .unregIo 5 ∨ c = .regIo 9 (some 91) (.ahead 0) := by
        simpa [comeAndGo] using hmem
      · exact hrehash
      · cases hrehash
    | n + 2 => cases hmem
  · rintro m hm ⟨k, p, _, _, pre, c, post, hscript, _⟩
    obtain ⟨n, rfl⟩ := Nat.exists_eq_add_of_le' hm
    have hlength : ([] : List Reentry).length = (pre ++ c :: post).length := congrArg _ hscript
    simp at hlength

/-- A peer unregisters itself while it gets the message. -/
theorem not_survives :
    ¬ ∀ (h : Hub), h.suspended = false → ∀ (order : List IoId), order.Perm h.map.keys →
      ∀ (data : Data) (sender : IoId) (behave : ℕ → List Reentry),
      Survives h order data sender behave := by
  intro hall
  have hsurvives := hall { initialized 1 none with map := OrderedMap.empty.assign 7 (some 5) } rfl
    [7] (List.Perm.refl _) [1] 8 (fun _ => [.unregIo 7])
  exact hsurvives.neverLost 1 (by decide)

end Loop

end Hub

end WfcIo

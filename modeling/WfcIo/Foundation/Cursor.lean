import Mathlib.Data.List.Basic
import Mathlib.Data.List.Nodup

/-!
# A cursor in a container that changes

A traversal of a container of keys while keys come and go. The order of the keys is that of
the container, and where it puts a new key is left open. The container may also be rebuilt for
a new key. The cursor is on a key, and it can be advanced as long as that key has not been
erased and the container has not been rebuilt.

## Main definitions

- `Cursor` — the keys that are passed, where the cursor is, the keys that are ahead
- `Place` — where a new key is put, or that the container is rebuilt for it
- `Cursor.insert`, `Cursor.erase` — the container changes
- `Cursor.advance` — the traversal goes on
- `Cursor.left` — how many keys the traversal has still to meet

## Main results

- `Cursor.mem_keys_insert`, `Cursor.mem_keys_erase`, `Cursor.mem_keys_advance` — the keys
- `Cursor.left_insert`, `Cursor.left_erase`, `Cursor.left_advance` — the measure
-/

namespace WfcIo.Foundation

universe u

/-- Where a cursor is: on a key, on one that has been erased, behind the last key, or it has
    been advanced when it was not valid any more and is nowhere. -/
inductive Spot (κ : Type u)
  | on (k : κ)
  | erased (k : κ)
  | done
  | lost
  deriving DecidableEq

/-- A traversal under way. `valid` tells that the container has not been rebuilt since the
    cursor has come to its key. -/
structure Cursor (κ : Type u) where
  passed : List κ
  spot : Spot κ
  ahead : List κ
  valid : Bool := true

/-- Where the container puts a new key: at a position behind the cursor or ahead of it, or all
    keys are put anew. -/
inductive Place
  | behind (n : ℕ)
  | ahead (n : ℕ)
  | rebuilt
  deriving DecidableEq

namespace Cursor

variable {κ : Type u}

/-- The cursor with these keys behind it, and those of the list still to be met. -/
def resume (passed : List κ) : List κ → Cursor κ
  | [] => { passed, spot := .done, ahead := [] }
  | k :: l => { passed, spot := .on k, ahead := l }

/-- The cursor at the beginning of a container with the given order. -/
def start (order : List κ) : Cursor κ := resume [] order

/-- The key that the cursor is on, if it is there. -/
def current (c : Cursor κ) : List κ :=
  match c.spot with
  | .on k => [k]
  | _ => []

/-- The keys of the container, in its order. -/
def keys (c : Cursor κ) : List κ := c.passed ++ (c.current ++ c.ahead)

/-- Put a key at a position of a list. -/
def putAt (n : ℕ) (k : κ) (l : List κ) : List κ := l.take n ++ k :: l.drop n

/-- Go on to the next key. -/
def advance (c : Cursor κ) : Cursor κ :=
  match c.spot with
  | .on k =>
    if c.valid then resume (c.passed ++ [k]) c.ahead
    else { c with passed := c.passed ++ [k], spot := .lost }
  | .erased _ => { c with spot := .lost }
  | .done => c
  | .lost => c

/-- The keys that the traversal has still to meet. -/
def left (c : Cursor κ) : ℕ := c.current.length + c.ahead.length

variable [DecidableEq κ]

/-- A key comes into the container, if it is not there already. -/
def insert (k : κ) (place : Place) (c : Cursor κ) : Cursor κ :=
  if k ∈ c.keys then c
  else
    match place with
    | .behind n => { c with passed := putAt n k c.passed }
    | .ahead n => { c with ahead := putAt n k c.ahead }
    -- the order of the keys is of no use to a cursor that is not valid
    | .rebuilt => { c with ahead := k :: c.ahead, valid := false }

/-- A key goes. If the cursor is on it, it stays there. -/
def erase (k : κ) (c : Cursor κ) : Cursor κ where
  passed := c.passed.erase k
  spot := if c.spot = .on k then .erased k else c.spot
  ahead := c.ahead.erase k
  valid := c.valid

variable {c : Cursor κ} {j k : κ} {place : Place}

/-! ### The keys -/

omit [DecidableEq κ] in
theorem mem_putAt {n : ℕ} {l : List κ} : j ∈ putAt n k l ↔ j = k ∨ j ∈ l := by
  have hsplit : j ∈ l ↔ j ∈ l.take n ∨ j ∈ l.drop n := by
    rw [← List.mem_append, List.take_append_drop]
  rw [putAt, List.mem_append, List.mem_cons, hsplit]
  tauto

omit [DecidableEq κ] in
theorem perm_putAt (n : ℕ) (k : κ) (l : List κ) : (putAt n k l).Perm (k :: l) := by
  have hperm : (l.take n ++ k :: l.drop n).Perm (k :: (l.take n ++ l.drop n)) :=
    List.perm_middle
  rwa [List.take_append_drop] at hperm

omit [DecidableEq κ] in
theorem mem_keys : j ∈ c.keys ↔ j ∈ c.passed ∨ c.spot = .on j ∨ j ∈ c.ahead := by
  rw [keys, List.mem_append, List.mem_append, current]
  cases c.spot with
  | on k => rw [List.mem_singleton, Spot.on.injEq, eq_comm]
  | _ => simp

omit [DecidableEq κ] in
theorem keys_start (l : List κ) : (start l).keys = l := by
  cases l <;> rfl

theorem insert_of_mem (hk : k ∈ c.keys) : c.insert k place = c := if_pos hk

theorem insert_of_notMem (hk : k ∉ c.keys) : c.insert k place =
    match place with
    | .behind n => { c with passed := putAt n k c.passed }
    | .ahead n => { c with ahead := putAt n k c.ahead }
    | .rebuilt => { c with ahead := k :: c.ahead, valid := false } :=
  if_neg hk

omit [DecidableEq κ] in
theorem keys_put_ahead {l : List κ} (h : l.Perm (k :: c.ahead)) :
    (c.passed ++ (c.current ++ l)).Perm (k :: c.keys) := by
  refine ((h.append_left c.current).append_left c.passed).trans ?_
  rw [keys, ← List.append_assoc, ← List.append_assoc]
  exact List.perm_middle

/-- The keys after a change, up to their order. -/
theorem keys_insert (hk : k ∉ c.keys) : (c.insert k place).keys.Perm (k :: c.keys) := by
  rw [insert_of_notMem hk]
  cases place with
  | behind n => exact (perm_putAt n k c.passed).append_right _
  | ahead n => exact keys_put_ahead (perm_putAt n k c.ahead)
  | rebuilt => exact keys_put_ahead (c := c) (List.Perm.refl _)

theorem mem_keys_insert : j ∈ (c.insert k place).keys ↔ j = k ∨ j ∈ c.keys := by
  by_cases hk : k ∈ c.keys
  · rw [insert_of_mem hk]
    exact ⟨Or.inr, fun hj => hj.elim (fun heq => heq ▸ hk) fun h => h⟩
  · rw [(keys_insert hk).mem_iff, List.mem_cons]

theorem nodup_insert (h : c.keys.Nodup) : (c.insert k place).keys.Nodup := by
  by_cases hk : k ∈ c.keys
  · rwa [insert_of_mem hk]
  · exact (keys_insert hk).nodup_iff.mpr (List.nodup_cons.mpr ⟨hk, h⟩)

theorem erase_spot_of_ne (h : c.spot ≠ .on k) : (c.erase k).spot = c.spot := if_neg h

theorem erase_spot_self (h : c.spot = .on k) : (c.erase k).spot = .erased k := if_pos h

theorem current_erase : (c.erase k).current = if c.spot = .on k then [] else c.current := by
  by_cases hon : c.spot = .on k
  · simp only [current, erase_spot_self hon, hon, if_true]
  · simp only [current, erase_spot_of_ne hon, if_neg hon]

theorem keys_erase_sublist : (c.erase k).keys.Sublist c.keys := by
  have hcurrent : (c.erase k).current.Sublist c.current := by
    rw [current_erase]
    split
    · exact List.nil_sublist _
    · exact List.Sublist.refl _
  exact (List.erase_sublist).append (hcurrent.append List.erase_sublist)

theorem nodup_erase (h : c.keys.Nodup) : (c.erase k).keys.Nodup := h.sublist keys_erase_sublist

theorem mem_keys_erase (h : c.keys.Nodup) : j ∈ (c.erase k).keys ↔ j ≠ k ∧ j ∈ c.keys := by
  have hpassed : c.passed.Nodup := h.sublist (List.sublist_append_left _ _)
  have hahead : c.ahead.Nodup :=
    h.sublist ((List.sublist_append_right _ _).trans (List.sublist_append_right _ _))
  have hspot : (c.erase k).spot = .on j ↔ j ≠ k ∧ c.spot = .on j := by
    simp only [erase]
    split
    · rename_i hon
      rw [hon, Spot.on.injEq]
      exact iff_of_false (fun heq => by cases heq) fun ⟨hne, heq⟩ => hne heq.symm
    · rename_i hon
      exact ⟨fun heq => ⟨fun hjk => hon (hjk ▸ heq), heq⟩, fun hj => hj.2⟩
  rw [mem_keys, mem_keys, hspot]
  simp only [erase, hpassed.mem_erase_iff, hahead.mem_erase_iff]
  tauto

omit [DecidableEq κ] in
/-- Advancing changes no key. -/
theorem keys_advance : c.advance.keys = c.keys := by
  obtain ⟨passed, spot, ahead, valid⟩ := c
  cases spot with
  | on k => cases valid <;> cases ahead <;> simp [advance, resume, keys, current]
  | erased k => rfl
  | done => rfl
  | lost => rfl

/-! ### A key that stays -/

theorem insert_spot : (c.insert k place).spot = c.spot := by
  simp only [insert]
  split
  · rfl
  · cases place <;> rfl

/-- A new key may cost the cursor its validity. -/
theorem insert_valid : (c.insert k place).valid = true ↔
    c.valid = true ∧ ¬ (k ∉ c.keys ∧ place = .rebuilt) := by
  by_cases hk : k ∈ c.keys
  · rw [insert_of_mem hk]
    exact (and_iff_left fun h => h.1 hk).symm
  · rw [insert_of_notMem hk]
    cases place with
    | rebuilt => exact iff_of_false Bool.false_ne_true fun h => h.2 ⟨hk, rfl⟩
    | _ => exact (and_iff_left fun h => (by cases h.2)).symm

/-- A change does not move the other keys: what is passed stays passed. -/
theorem mem_passed_insert (hj : j ∈ c.keys) :
    j ∈ (c.insert k place).passed ↔ j ∈ c.passed := by
  simp only [insert]
  split
  · rfl
  · rename_i hk
    have hne : j ≠ k := fun heq => hk (heq ▸ hj)
    cases place with
    | behind n => exact mem_putAt.trans (or_iff_right hne)
    | ahead n => rfl
    | rebuilt => rfl

theorem mem_passed_erase (hne : j ≠ k) : j ∈ (c.erase k).passed ↔ j ∈ c.passed :=
  List.mem_erase_of_ne hne

omit [DecidableEq κ] in
/-- Advancing passes the key that the cursor is on, and no other. -/
theorem mem_passed_advance : j ∈ c.advance.passed ↔ j ∈ c.passed ∨ c.spot = .on j := by
  obtain ⟨passed, spot, ahead, valid⟩ := c
  cases spot with
  | on k => cases valid <;> cases ahead <;> simp [advance, resume, eq_comm]
  | _ => simp [advance]

omit [DecidableEq κ] in
theorem advance_spot_erased (h : c.spot = .erased k) : c.advance.spot = .lost := by
  simp only [advance, h]

omit [DecidableEq κ] in
theorem advance_spot_of_not_valid (h : c.spot = .on k) (hvalid : c.valid = false) :
    c.advance.spot = .lost := by
  simp only [advance, h, hvalid, Bool.false_eq_true, if_false]

omit [DecidableEq κ] in
/-- From a key that is there a valid cursor comes to the next key or to the end. -/
theorem advance_spot_of_on (h : c.spot = .on k) (hvalid : c.valid = true) :
    (∃ k', c.advance.spot = .on k') ∨ c.advance.spot = .done ∧ c.advance.ahead = [] := by
  obtain ⟨passed, spot, ahead, valid⟩ := c
  obtain rfl : spot = .on k := h
  obtain rfl : valid = true := hvalid
  cases ahead with
  | nil => exact Or.inr ⟨rfl, rfl⟩
  | cons k' l => exact Or.inl ⟨k', rfl⟩

omit [DecidableEq κ] in
/-- A cursor that has come to a key is valid there. -/
theorem advance_valid (h : c.advance.spot = .on k) : c.advance.valid = true := by
  obtain ⟨passed, spot, ahead, valid⟩ := c
  cases spot with
  | on k =>
    cases valid with
    | true => cases ahead <;> rfl
    | false => cases h
  | _ => cases h

omit [DecidableEq κ] in
theorem advance_lost_iff (h : c.spot = .on k) : c.advance.spot = .lost ↔ c.valid = false := by
  cases hvalid : c.valid with
  | true =>
    refine iff_of_false (fun hlost => ?_) fun htrue => (by cases htrue)
    obtain ⟨k', hk'⟩ | ⟨hdone, _⟩ := advance_spot_of_on h hvalid
    · cases hk'.symm.trans hlost
    · cases hdone.symm.trans hlost
  | false => exact iff_of_true (advance_spot_of_not_valid h hvalid) rfl

omit [DecidableEq κ] in
/-- The key that the cursor is on has not been passed. -/
theorem notMem_passed_of_on (hnodup : c.keys.Nodup) (h : c.spot = .on k) : k ∉ c.passed := by
  intro hk
  have hcurrent : k ∈ c.current ++ c.ahead := by
    simp only [current, h]
    exact List.mem_cons_self
  exact (List.nodup_append'.mp hnodup).2.2 hk hcurrent

/-! ### How many keys are left -/

theorem left_insert (hk : k ∈ c.keys) : (c.insert k place).left = c.left := by
  rw [insert_of_mem hk]

theorem left_erase : (c.erase k).left ≤ c.left := by
  have hahead : (c.ahead.erase k).length ≤ c.ahead.length := List.erase_sublist.length_le
  have hcurrent : (c.erase k).current.length ≤ c.current.length := by
    rw [current_erase]
    split
    · exact Nat.zero_le _
    · exact Nat.le_refl _
  exact Nat.add_le_add hcurrent hahead

omit [DecidableEq κ] in
/-- Every advance from a key leaves one key less. -/
theorem left_advance (h : c.spot = .on k) : c.advance.left + 1 = c.left := by
  obtain ⟨passed, spot, ahead, valid⟩ := c
  obtain rfl : spot = .on k := h
  cases valid with
  | true =>
    cases ahead with
    | nil => rfl
    | cons k' l =>
      simp only [advance, resume, left, current, List.length_cons, List.length_nil, if_true]
      omega
  | false =>
    simp only [advance, left, current, List.length_cons, List.length_nil, Bool.false_eq_true,
      if_false]
    omega

omit [DecidableEq κ] in
/-- A cursor with nothing left is not on a key. -/
theorem spot_ne_of_left (h : c.left = 0) : c.spot ≠ .on k := by
  intro hon
  rw [← left_advance hon] at h
  exact Nat.succ_ne_zero _ h

end Cursor

end WfcIo.Foundation

import WfcIo.Foundation.History

/-!
# Bracketed openings and closings

A log of openings and closings of keys. It is well bracketed if every closing closes a
key that is open at that moment.

## Main definitions

- `Notice` — the opening or the closing of a key
- `openKeys` — the keys that are open after a log
- `Bracketed` — every closing of a log matches an opening
- `Alternating` — openings and closings take turns, so that one key at most is open

## Main results

- `Alternating.openKeys_eq` — the open key is the one of the last notice
-/

namespace WfcIo.Foundation

universe u

inductive Notice (κ : Type u)
  | opened (k : κ)
  | closed (k : κ)
  deriving DecidableEq

variable {κ : Type u} [DecidableEq κ]

/-- The open keys after one more notice. A key opened twice is open twice. -/
def Notice.apply (keys : List κ) : Notice κ → List κ
  | .opened k => k :: keys
  | .closed k => keys.erase k

/-- The keys that a log has opened and not closed. -/
def openKeys (l : List (Notice κ)) : List κ := l.foldl Notice.apply []

@[simp] theorem openKeys_nil : openKeys ([] : List (Notice κ)) = [] := rfl

@[simp] theorem openKeys_concat (l : List (Notice κ)) (n : Notice κ) :
    openKeys (l ++ [n]) = n.apply (openKeys l) := List.foldl_concat _ _ _ _

/-- Every closing in the log closes a key that is open then. -/
def Bracketed (l : List (Notice κ)) : Prop :=
  AtEach (fun pre n => ∀ k, n = .closed k → k ∈ openKeys pre) l

theorem bracketed_nil : Bracketed ([] : List (Notice κ)) := atEach_nil

/-- One more notice: an opening is free, a closing has to match. -/
theorem bracketed_concat_iff {l : List (Notice κ)} {n : Notice κ} :
    Bracketed (l ++ [n]) ↔ Bracketed l ∧ ∀ k, n = .closed k → k ∈ openKeys l :=
  atEach_concat_iff

/-! ### One key at a time -/

/-- An opening does not follow an opening, a closing follows the opening of its key. -/
def InTurn (pre : List (Notice κ)) : Notice κ → Prop
  | .opened _ => ∀ k, pre.getLast? ≠ some (.opened k)
  | .closed k => pre.getLast? = some (.opened k)

/-- Openings and closings take turns, the opening of a key before its closing. -/
def Alternating (l : List (Notice κ)) : Prop := AtEach InTurn l

section Alternating

variable {l : List (Notice κ)} {n : Notice κ} {k : κ}

omit [DecidableEq κ] in
theorem alternating_concat_iff : Alternating (l ++ [n]) ↔ Alternating l ∧ InTurn l n :=
  atEach_concat_iff

/-- The key a notice leaves open, if it comes in its turn. -/
def Notice.left : Notice κ → List κ
  | .opened k => [k]
  | .closed _ => []

theorem Alternating.openKeys_eq (h : Alternating l) :
    openKeys l = (l.getLast?.map Notice.left).getD [] := by
  induction l using List.reverseRecOn with
  | nil => rfl
  | append_singleton l n ih =>
    obtain ⟨hl, hn⟩ := alternating_concat_iff.mp h
    rw [openKeys_concat, ih hl, List.getLast?_concat]
    cases n with
    | opened k =>
      cases hlast : l.getLast? with
      | none => rfl
      | some m =>
        cases m with
        | opened j => exact absurd hlast (hn j)
        | closed j => rfl
    | closed k =>
      have hlast : l.getLast? = some (.opened k) := hn
      rw [hlast]
      simp [Notice.apply, Notice.left]

/-- An opening comes in its turn if it leaves no other key open. -/
theorem Alternating.inTurn_opened_iff (h : Alternating l) :
    InTurn l (.opened k) ↔ openKeys (l ++ [.opened k]) = [k] := by
  rw [openKeys_concat, h.openKeys_eq, InTurn]
  cases hlast : l.getLast? with
  | none => simp [Notice.apply]
  | some m => cases m <;> simp [Notice.left, Notice.apply]

/-- A closing comes in its turn if its key is open. -/
theorem Alternating.inTurn_closed_iff (h : Alternating l) :
    InTurn l (.closed k) ↔ k ∈ openKeys l := by
  rw [h.openKeys_eq, InTurn]
  cases hlast : l.getLast? with
  | none => simp
  | some m => cases m <;> simp [Notice.left, eq_comm]

end Alternating

end WfcIo.Foundation

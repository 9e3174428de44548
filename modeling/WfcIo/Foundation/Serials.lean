import WfcIo.Foundation.OrderedMap
import Mathlib.Data.List.Nodup

/-!
# Serial numbers that wrap around

Entries get the numbers 1, 2, 3 and so on, and are taken out again in any order. A map keeps them
under short numbers, which come again after a while. As long as no entry stays until its short
number comes again, the map is as good as the numbers themselves.

## Main definitions

- `Serials` — the entries under their numbers
- `Windowed` — short numbers that differ within a window
- `Serials.Young` — all numbers are in the window
- `Serials.Stored` — a map keeps the entries under short numbers

## Main results

- `Serials.Stored.issue`, `Serials.Stored.settle` — the map keeps up
- `Serials.Stored.size` — it has an entry for each number
-/

namespace WfcIo.Foundation

universe u v

/-- The numbers given out so far, and the entries that are still there, the oldest first. -/
structure Serials (α : Type u) where
  count : ℕ := 0
  pending : List (ℕ × α) := []

/-- Numbers less than `N` apart have different short numbers. -/
def Windowed {κ : Type v} (short : ℕ → κ) (N : ℕ) : Prop :=
  ∀ m n, m < n → n < m + N → short m ≠ short n

namespace Serials

variable {α : Type u} {κ : Type v}

/-- A new entry gets the next number. -/
def issue (v : α) (s : Serials α) : Serials α :=
  { count := s.count + 1, pending := s.pending ++ [(s.count + 1, v)] }

/-- The next number is given out elsewhere. -/
def skip (s : Serials α) : Serials α := { s with count := s.count + 1 }

/-- The entries with this short number are taken out. -/
def settle [DecidableEq κ] (short : ℕ → κ) (k : κ) (s : Serials α) : Serials α :=
  { s with pending := s.pending.filter fun x => short x.1 ≠ k }

/-- The last `N` numbers are those of all the entries. -/
def Young (N : ℕ) (s : Serials α) : Prop := ∀ x ∈ s.pending, s.count < x.1 + N

/-- The numbers have been given out, and the entries have different short numbers. -/
structure Apart (short : ℕ → κ) (s : Serials α) : Prop where
  given : ∀ x ∈ s.pending, x.1 ≤ s.count
  apart : (s.pending.map fun x => short x.1).Nodup

/-- The map keeps each entry under its short number. -/
def Stored [LinearOrder κ] (short : ℕ → κ) (s : Serials α) (map : OrderedMap κ α) : Prop :=
  ∀ k v, map.find k = some v ↔ ∃ n, short n = k ∧ (n, v) ∈ s.pending

variable {short : ℕ → κ} {N : ℕ} {s : Serials α} {v : α}

/-! ### Numbers -/

/-- A young new number is the only one with its short number. -/
theorem fresh_of_young (hshort : Windowed short N) (h : Apart short s)
    (hyoung : (s.issue v).Young N) : ∀ x ∈ s.pending, short x.1 ≠ short (s.count + 1) := by
  intro x hx
  exact hshort x.1 (s.count + 1) (Nat.lt_succ_of_le (h.given x hx))
    (hyoung x (List.mem_append_left _ hx))

theorem Apart.issue (h : Apart short s)
    (hfresh : ∀ x ∈ s.pending, short x.1 ≠ short (s.count + 1)) : Apart short (s.issue v) where
  given x hx := by
    obtain hx | hx := List.mem_append.mp hx
    · exact (h.given x hx).trans (Nat.le_succ _)
    · exact (List.mem_singleton.mp hx).symm ▸ le_rfl
  apart := by
    rw [Serials.issue, List.map_append, List.nodup_append]
    refine ⟨h.apart, List.nodup_singleton _, fun i hi j hj => ?_⟩
    obtain ⟨x, hx, rfl⟩ := List.mem_map.mp hi
    exact List.mem_singleton.mp hj ▸ hfresh x hx

theorem Apart.skip (h : Apart short s) : Apart short s.skip :=
  ⟨fun x hx => (h.given x hx).trans (Nat.le_succ _), h.apart⟩

theorem Apart.settle [DecidableEq κ] (h : Apart short s) (k : κ) : Apart short (s.settle short k) :=
  ⟨fun x hx => h.given x (List.mem_of_mem_filter hx),
    h.apart.sublist (List.filter_sublist.map _)⟩

/-! ### The map -/

namespace Stored

variable [LinearOrder κ] {map : OrderedMap κ α}

theorem empty : Stored short ({} : Serials α) .empty :=
  fun _ _ => iff_of_false (fun h => by cases h) fun ⟨_, _, h⟩ => by cases h

/-- The new entry is assigned. -/
theorem issue (h : Stored short s map)
    (hfresh : ∀ x ∈ s.pending, short x.1 ≠ short (s.count + 1)) :
    Stored short (s.issue v) (map.assign (short (s.count + 1)) v) := by
  intro k w
  rw [OrderedMap.find_assign]
  simp only [Serials.issue, List.mem_append, List.mem_singleton, Prod.mk.injEq]
  split
  · next hk =>
    constructor
    · rintro ⟨⟩
      exact ⟨s.count + 1, hk.symm, Or.inr ⟨rfl, rfl⟩⟩
    · rintro ⟨n, hn, hmem | ⟨_, rfl⟩⟩
      · exact absurd (hn.trans hk) (hfresh _ hmem)
      · rfl
  · next hk =>
    rw [h k w]
    refine exists_congr fun n => and_congr_right fun hn => (or_iff_left ?_).symm
    rintro ⟨rfl, _⟩
    exact hk hn.symm

theorem skip (h : Stored short s map) : Stored short s.skip map := h

/-- What is taken out is erased. -/
theorem settle (h : Stored short s map) (k : κ) :
    Stored short (s.settle short k) (map.erase k) := by
  intro j w
  rw [OrderedMap.find_erase]
  simp only [Serials.settle, List.mem_filter, decide_eq_true_eq]
  split
  · next hj =>
    refine iff_of_false (fun h => by cases h) ?_
    rintro ⟨n, hn, _, hne⟩
    exact hne (hn.trans hj)
  · next hj =>
    rw [h j w]
    refine exists_congr fun n => and_congr_right fun hn => (and_iff_left ?_).symm
    exact fun heq => hj (hn.symm.trans heq)

/-- The map has an entry for each number. -/
theorem size (h : Stored short s map) (hapart : Apart short s) :
    map.size = s.pending.length := by
  have hkeys : ∀ k, map.find k ≠ none ↔ k ∈ s.pending.map fun x => short x.1 := by
    intro k
    rw [Option.ne_none_iff_exists', List.mem_map]
    constructor
    · rintro ⟨v, hv⟩
      obtain ⟨n, hn, hmem⟩ := (h k v).mp hv
      exact ⟨(n, v), hmem, hn⟩
    · rintro ⟨⟨n, v⟩, hmem, hn⟩
      exact ⟨v, (h k v).mpr ⟨n, hn, hmem⟩⟩
  have hlength : (s.pending.map fun x => short x.1).length = s.pending.length :=
    List.length_map _
  rw [← hlength]
  exact le_antisymm (OrderedMap.size_le_of_subset fun k hk => (hkeys k).mp hk)
    (OrderedMap.length_le_size hapart.apart fun k hk => (hkeys k).mpr hk)

end Stored

end Serials

end WfcIo.Foundation

import Mathlib.Data.Multiset.UnionInter
import Mathlib.Logic.Function.Basic

/-!
# Exclusive leases of resources

An abstract account of who uses which resource: every key leases at most one
resource, the rest are idle. It is exclusive when no resource is leased to two keys,
is leased and idle at once, or lies idle twice.

Four moves generate everything a pool of resources does: a resource is taken out of
the idle ones, assigned to a key, dropped by its key, or parked among the idle ones.
Between `take` and `assign` (or between `drop` and `park`) the resource is in the
hands of whoever makes the move; `ReservedFor` is what that party relies on.

## Main definitions

- `Ledger` — the leases and the idle resources; `take`, `assign`, `drop`, `park`
- `Ledger.Exclusive` — no resource is in two places
- `Ledger.Held` — the resource is leased or idle
- `Ledger.ReservedFor` — nobody but `k` may be using the resource
-/

namespace WfcIo.Foundation

universe u v

/-- The resources leased to the keys and those kept idle. -/
@[ext] structure Ledger (κ : Type u) (ρ : Type v) where
  leased : κ → Option ρ
  idle : Multiset ρ

namespace Ledger

variable {κ : Type u} {ρ : Type v}

/-- No resource is in two places. -/
structure Exclusive (L : Ledger κ ρ) : Prop where
  leased_inj : ∀ {k k' r}, L.leased k = some r → L.leased k' = some r → k = k'
  idle_nodup : L.idle.Nodup
  not_idle : ∀ {k r}, L.leased k = some r → r ∉ L.idle

/-- The resource is leased to a key or idle. -/
def Held (L : Ledger κ ρ) (r : ρ) : Prop := (∃ k, L.leased k = some r) ∨ r ∈ L.idle

/-- The resource is not idle and leased to no key other than `k`. -/
def ReservedFor (L : Ledger κ ρ) (k : κ) (r : ρ) : Prop :=
  r ∉ L.idle ∧ ∀ k', L.leased k' = some r → k' = k

theorem Exclusive.reservedFor {L : Ledger κ ρ} (h : L.Exclusive) {k : κ} {r : ρ}
    (hk : L.leased k = some r) : L.ReservedFor k r :=
  ⟨h.not_idle hk, fun _ hk' => h.leased_inj hk' hk⟩

theorem reservedFor_of_not_held {L : Ledger κ ρ} {r : ρ} (h : ¬ L.Held r) (k : κ) :
    L.ReservedFor k r :=
  ⟨fun hr => h (Or.inr hr), fun k' hk' => absurd (Or.inl ⟨k', hk'⟩) h⟩

/-- Take a resource out of the idle ones. -/
def take [DecidableEq ρ] (L : Ledger κ ρ) (r : ρ) : Ledger κ ρ :=
  { L with idle := L.idle.erase r }

/-- Lease a resource to a key. -/
def assign [DecidableEq κ] (L : Ledger κ ρ) (k : κ) (r : ρ) : Ledger κ ρ :=
  { L with leased := Function.update L.leased k (some r) }

/-- End the lease of a key. -/
def drop [DecidableEq κ] (L : Ledger κ ρ) (k : κ) : Ledger κ ρ :=
  { L with leased := Function.update L.leased k none }

/-- Put a resource among the idle ones. -/
def park (L : Ledger κ ρ) (r : ρ) : Ledger κ ρ := { L with idle := r ::ₘ L.idle }

variable {L : Ledger κ ρ} {k k' : κ} {r x : ρ}

/-! ### The moves keep the resources exclusive -/

theorem Exclusive.take [DecidableEq ρ] (h : L.Exclusive) (r : ρ) : (L.take r).Exclusive where
  leased_inj := h.leased_inj
  idle_nodup := Multiset.nodup_of_le (Multiset.erase_le r L.idle) h.idle_nodup
  not_idle := fun hk hr => h.not_idle hk (Multiset.mem_of_mem_erase hr)

theorem Exclusive.park (h : L.Exclusive) (hr : ¬ L.Held r) : (L.park r).Exclusive where
  leased_inj := h.leased_inj
  idle_nodup := Multiset.nodup_cons.mpr ⟨fun hm => hr (Or.inr hm), h.idle_nodup⟩
  not_idle := by
    intro k x hk hx
    obtain rfl | hx := Multiset.mem_cons.mp hx
    · exact hr (Or.inl ⟨k, hk⟩)
    · exact h.not_idle hk hx

theorem Exclusive.assign [DecidableEq κ] (h : L.Exclusive) (hr : L.ReservedFor k r) :
    (L.assign k r).Exclusive where
  leased_inj := by
    intro a b x ha hb
    simp only [Ledger.assign, Function.update_apply] at ha hb
    split_ifs at ha hb with hak hbk hbk
    · exact hak.trans hbk.symm
    · cases ha
      exact hak.trans (hr.2 b hb).symm
    · cases hb
      exact (hr.2 a ha).trans hbk.symm
    · exact h.leased_inj ha hb
  idle_nodup := h.idle_nodup
  not_idle := by
    intro a x ha
    simp only [Ledger.assign, Function.update_apply] at ha
    split_ifs at ha with hak
    · cases ha
      exact hr.1
    · exact h.not_idle ha

theorem Exclusive.drop [DecidableEq κ] (h : L.Exclusive) (k : κ) : (L.drop k).Exclusive where
  leased_inj := by
    intro a b x ha hb
    simp only [Ledger.drop, Function.update_apply] at ha hb
    split_ifs at ha hb
    exact h.leased_inj ha hb
  idle_nodup := h.idle_nodup
  not_idle := by
    intro a x ha
    simp only [Ledger.drop, Function.update_apply] at ha
    split_ifs at ha
    exact h.not_idle ha

/-! ### Which resources are held after a move -/

theorem held_take [DecidableEq ρ] (h : L.Exclusive) (hr : r ∈ L.idle) :
    (L.take r).Held x ↔ L.Held x ∧ x ≠ r := by
  have hmem : x ∈ L.idle.erase r ↔ x ≠ r ∧ x ∈ L.idle := h.idle_nodup.mem_erase_iff
  constructor
  · rintro (⟨k, hk⟩ | hx)
    · exact ⟨Or.inl ⟨k, hk⟩, fun hxr => h.not_idle hk (hxr ▸ hr)⟩
    · exact ⟨Or.inr (hmem.mp hx).2, (hmem.mp hx).1⟩
  · rintro ⟨⟨k, hk⟩ | hx, hne⟩
    · exact Or.inl ⟨k, hk⟩
    · exact Or.inr (hmem.mpr ⟨hne, hx⟩)

theorem held_park : (L.park r).Held x ↔ x = r ∨ L.Held x := by
  simp only [Held, park, Multiset.mem_cons, or_left_comm]

/-- Leasing to a key that leases nothing adds the resource to the held ones. -/
theorem held_assign [DecidableEq κ] (hk : L.leased k = none) :
    (L.assign k r).Held x ↔ x = r ∨ L.Held x := by
  constructor
  · rintro (⟨a, ha⟩ | hx)
    · simp only [assign, Function.update_apply] at ha
      split_ifs at ha with hak
      · exact Or.inl (Option.some.inj ha).symm
      · exact Or.inr (Or.inl ⟨a, ha⟩)
    · exact Or.inr (Or.inr hx)
  · rintro (rfl | ⟨a, ha⟩ | hx)
    · exact Or.inl ⟨k, Function.update_self k _ _⟩
    · have hak : a ≠ k := by
        rintro rfl
        rw [hk] at ha
        cases ha
      exact Or.inl ⟨a, (Function.update_of_ne hak _ _).trans ha⟩
    · exact Or.inr hx

theorem held_drop [DecidableEq κ] (h : L.Exclusive) (hk : L.leased k = some r) :
    (L.drop k).Held x ↔ L.Held x ∧ x ≠ r := by
  constructor
  · rintro (⟨a, ha⟩ | hx)
    · simp only [drop, Function.update_apply] at ha
      split_ifs at ha with hak
      exact ⟨Or.inl ⟨a, ha⟩, fun hxr => hak (h.leased_inj (hxr ▸ ha) hk)⟩
    · exact ⟨Or.inr hx, fun hxr => h.not_idle hk (hxr ▸ hx)⟩
  · rintro ⟨⟨a, ha⟩ | hx, hne⟩
    · have hak : a ≠ k := by
        rintro rfl
        rw [hk] at ha
        exact hne (Option.some.inj ha).symm
      exact Or.inl ⟨a, (Function.update_of_ne hak _ _).trans ha⟩
    · exact Or.inr hx

theorem held_of_held_drop [DecidableEq κ] (h : (L.drop k).Held x) : L.Held x := by
  obtain ⟨a, ha⟩ | hx := h
  · simp only [drop, Function.update_apply] at ha
    split_ifs at ha
    exact Or.inl ⟨a, ha⟩
  · exact Or.inr hx

/-- What only `k` may be using is held by nobody once `k` has dropped its lease. -/
theorem ReservedFor.not_held_drop [DecidableEq κ] (h : L.ReservedFor k r) :
    ¬ (L.drop k).Held r := by
  rintro (⟨a, ha⟩ | hr)
  · simp only [Ledger.drop, Function.update_apply] at ha
    split_ifs at ha with hak
    exact hak (h.2 a ha)
  · exact h.1 hr

/-! ### A reservation survives the moves of others -/

theorem ReservedFor.take [DecidableEq ρ] (h : L.ReservedFor k x) (r : ρ) :
    (L.take r).ReservedFor k x :=
  ⟨fun hx => h.1 (Multiset.mem_of_mem_erase hx), h.2⟩

theorem ReservedFor.park (h : L.ReservedFor k x) (hne : x ≠ r) : (L.park r).ReservedFor k x :=
  ⟨fun hx => (Multiset.mem_cons.mp hx).elim hne h.1, h.2⟩

theorem ReservedFor.assign [DecidableEq κ] (h : L.ReservedFor k x) (hne : x ≠ r) (k' : κ) :
    (L.assign k' r).ReservedFor k x := by
  refine ⟨h.1, fun a ha => ?_⟩
  simp only [Ledger.assign, Function.update_apply] at ha
  split_ifs at ha with hak
  · exact absurd (Option.some.inj ha).symm hne
  · exact h.2 a ha

theorem ReservedFor.drop [DecidableEq κ] (h : L.ReservedFor k x) (k' : κ) :
    (L.drop k').ReservedFor k x := by
  refine ⟨h.1, fun a ha => ?_⟩
  simp only [Ledger.drop, Function.update_apply] at ha
  split_ifs at ha
  exact h.2 a ha

/-- What has just been taken is in nobody's hands but the taker's. -/
theorem Exclusive.not_held_take [DecidableEq ρ] (h : L.Exclusive) (hr : r ∈ L.idle) :
    ¬ (L.take r).Held r :=
  fun hx => ((held_take h hr).mp hx).2 rfl

end Ledger

end WfcIo.Foundation

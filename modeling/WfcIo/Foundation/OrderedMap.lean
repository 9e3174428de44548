import Mathlib.Order.Lattice
import Mathlib.Data.List.Basic
import Mathlib.Data.List.Pairwise
import Mathlib.Data.List.Nodup
import Mathlib.Data.List.Perm.Subperm

/-!
# Finite maps in key order

A finite map kept as the list of its entries in increasing key order, which is the
order a traversal visits them in. The order, and with it the uniqueness of the keys,
is a field of the structure, so every value of the type is a map.

## Main definitions

- `OrderedMap` — the map; `find`, `assign`, `insert`, `erase`, `keys`, `values`
- `OrderedMap.mapAccum` — replace every value, in key order, threading a state
-/

namespace WfcIo.Foundation

universe u v w

/-- A finite map from `κ` to `ν`: its entries by strictly increasing key. -/
@[ext] structure OrderedMap (κ : Type u) (ν : Type v) [LinearOrder κ] where
  entries : List (κ × ν)
  sorted : (entries.map Prod.fst).Pairwise (· < ·)

namespace OrderedMap

variable {κ : Type u} {ν : Type v} [LinearOrder κ]

instance [DecidableEq ν] : DecidableEq (OrderedMap κ ν) := fun m m' =>
  decidable_of_iff (m.entries = m'.entries) OrderedMap.ext_iff.symm

def empty : OrderedMap κ ν := ⟨[], by simp⟩

def keys (m : OrderedMap κ ν) : List κ := m.entries.map Prod.fst

def values (m : OrderedMap κ ν) : List ν := m.entries.map Prod.snd

def size (m : OrderedMap κ ν) : ℕ := m.entries.length

/-- The value stored under `k`. -/
def find (m : OrderedMap κ ν) (k : κ) : Option ν :=
  (m.entries.find? (fun p => p.1 = k)).map Prod.snd

/-! ### Lookup and membership -/

theorem keys_nodup (m : OrderedMap κ ν) : m.keys.Nodup :=
  m.sorted.imp ne_of_lt

/-- Two entries with one key are one entry. -/
theorem entry_unique (m : OrderedMap κ ν) {p q : κ × ν} (hp : p ∈ m.entries)
    (hq : q ∈ m.entries) (h : p.1 = q.1) : p = q :=
  List.inj_on_of_nodup_map m.keys_nodup hp hq h

theorem find_eq_some_iff {m : OrderedMap κ ν} {k : κ} {v : ν} :
    m.find k = some v ↔ (k, v) ∈ m.entries := by
  constructor
  · intro h
    obtain ⟨p, hp, rfl⟩ := Option.map_eq_some_iff.mp h
    have hk : p.1 = k := by simpa using List.find?_some hp
    have hmem : p ∈ m.entries := List.mem_of_find?_eq_some hp
    rwa [← hk]
  · intro h
    cases hf : m.entries.find? (fun p => p.1 = k) with
    | none => simpa using List.find?_eq_none.mp hf _ h
    | some p =>
      have hk : p.1 = k := by simpa using List.find?_some hf
      have hpv : p = (k, v) := m.entry_unique (List.mem_of_find?_eq_some hf) h hk
      simp [find, hf, hpv]

theorem find_eq_none_iff {m : OrderedMap κ ν} {k : κ} : m.find k = none ↔ k ∉ m.keys := by
  rw [Option.eq_none_iff_forall_ne_some]
  simp only [ne_eq, find_eq_some_iff, keys, List.mem_map, Prod.exists, exists_and_right,
    exists_eq_right, not_exists]

theorem mem_keys_iff {m : OrderedMap κ ν} {k : κ} : k ∈ m.keys ↔ m.find k ≠ none := by
  rw [ne_eq, find_eq_none_iff, not_not]

/-- A map is no larger than a list that its keys are in. -/
theorem size_le_of_subset {m : OrderedMap κ ν} {l : List κ} (h : ∀ k, m.find k ≠ none → k ∈ l) :
    m.size ≤ l.length := by
  have hsub : m.keys ⊆ l := fun k hk => h k (mem_keys_iff.mp hk)
  have hlength := (m.keys_nodup.subperm hsub).length_le
  rwa [keys, List.length_map] at hlength

theorem length_le_size {m : OrderedMap κ ν} {l : List κ} (hl : l.Nodup)
    (h : ∀ k ∈ l, m.find k ≠ none) : l.length ≤ m.size := by
  have hsub : l ⊆ m.keys := fun k hk => mem_keys_iff.mpr (h k hk)
  have hlength := (hl.subperm hsub).length_le
  rwa [keys, List.length_map] at hlength

theorem mem_values_iff {m : OrderedMap κ ν} {v : ν} : v ∈ m.values ↔ ∃ k, m.find k = some v := by
  simp [values, find_eq_some_iff]

/-- No value is stored twice exactly when no value has two keys. -/
theorem values_nodup_iff {m : OrderedMap κ ν} :
    m.values.Nodup ↔ ∀ k k' v, m.find k = some v → m.find k' = some v → k = k' := by
  constructor
  · intro h k k' v hk hk'
    have hentry := List.inj_on_of_nodup_map h (find_eq_some_iff.mp hk)
      (find_eq_some_iff.mp hk') rfl
    exact congrArg Prod.fst hentry
  · intro h
    have hentries : m.entries.Nodup := List.Nodup.of_map _ m.keys_nodup
    refine (List.nodup_map_iff_inj_on hentries).mpr ?_
    rintro ⟨k, v⟩ hp ⟨k', v'⟩ hq (rfl : v = v')
    rw [h k k' v (find_eq_some_iff.mpr hp) (find_eq_some_iff.mpr hq)]

/-! ### Updates -/

/-- Store `v` under `k` in an entry list, over the value that was there. -/
def assignEntries (k : κ) (v : ν) : List (κ × ν) → List (κ × ν)
  | [] => [(k, v)]
  | p :: l =>
    if k < p.1 then (k, v) :: p :: l
    else if k = p.1 then (k, v) :: l
    else p :: assignEntries k v l

theorem mem_keys_assignEntries {k x : κ} {v : ν} {l : List (κ × ν)}
    (h : x ∈ (assignEntries k v l).map Prod.fst) : x = k ∨ x ∈ l.map Prod.fst := by
  induction l with
  | nil => simpa [assignEntries] using h
  | cons p l ih =>
    simp only [assignEntries] at h
    split at h
    · simpa using h
    · split at h
      · obtain h | h := List.mem_cons.mp h
        · exact Or.inl h
        · exact Or.inr (List.mem_cons_of_mem _ h)
      · obtain h | h := List.mem_cons.mp h
        · exact Or.inr (h ▸ List.mem_cons_self)
        · exact (ih h).imp_right (List.mem_cons_of_mem _)

theorem sorted_assignEntries {k : κ} {v : ν} {l : List (κ × ν)}
    (h : (l.map Prod.fst).Pairwise (· < ·)) :
    ((assignEntries k v l).map Prod.fst).Pairwise (· < ·) := by
  induction l with
  | nil => simp [assignEntries]
  | cons p l ih =>
    obtain ⟨hp, hl⟩ := List.pairwise_cons.mp h
    simp only [assignEntries]
    split
    · next hlt =>
      refine List.pairwise_cons.mpr ⟨fun x hx => ?_, h⟩
      obtain rfl | hx := List.mem_cons.mp hx
      · exact hlt
      · exact hlt.trans (hp x hx)
    · next hnlt =>
      split
      · next heq => exact List.pairwise_cons.mpr ⟨fun x hx => heq ▸ hp x hx, hl⟩
      · next hne =>
        refine List.pairwise_cons.mpr ⟨fun x hx => ?_, ih hl⟩
        obtain rfl | hx := mem_keys_assignEntries hx
        · exact lt_of_le_of_ne (not_lt.mp hnlt) (Ne.symm hne)
        · exact hp x hx

/-- `m[k] = v`. -/
def assign (m : OrderedMap κ ν) (k : κ) (v : ν) : OrderedMap κ ν :=
  ⟨assignEntries k v m.entries, sorted_assignEntries m.sorted⟩

/-- Store `v` under `k` unless the key is there already: the old value then stays. -/
def insert (m : OrderedMap κ ν) (k : κ) (v : ν) : OrderedMap κ ν :=
  match m.find k with
  | some _ => m
  | none => m.assign k v

def erase (m : OrderedMap κ ν) (k : κ) : OrderedMap κ ν where
  entries := m.entries.filter (fun p => p.1 ≠ k)
  sorted := m.sorted.sublist (List.filter_sublist.map Prod.fst)

theorem find_assign_self (m : OrderedMap κ ν) (k : κ) (v : ν) :
    (m.assign k v).find k = some v := by
  rw [find_eq_some_iff]
  show (k, v) ∈ assignEntries k v m.entries
  induction m.entries with
  | nil => simp [assignEntries]
  | cons p l ih => unfold assignEntries; split_ifs <;> simp [ih]

theorem find_assign_of_ne (m : OrderedMap κ ν) {k k' : κ} (v : ν) (h : k' ≠ k) :
    (m.assign k v).find k' = m.find k' := by
  show Option.map _ ((assignEntries k v m.entries).find? _) = Option.map _ (m.entries.find? _)
  congr 1
  induction m.entries with
  | nil => simp [assignEntries, h.symm]
  | cons p l ih =>
    simp only [assignEntries]
    split
    · simp [h.symm]
    · split
      · next heq =>
        have hp : p.1 ≠ k' := heq ▸ h.symm
        simp [h.symm, hp]
      · simp only [List.find?_cons, ih]

@[simp] theorem find_assign (m : OrderedMap κ ν) (k k' : κ) (v : ν) :
    (m.assign k v).find k' = if k' = k then some v else m.find k' := by
  split
  · next h => rw [h]; exact m.find_assign_self k v
  · next h => exact m.find_assign_of_ne v h

theorem insert_of_find_eq_none {m : OrderedMap κ ν} {k : κ} (v : ν) (h : m.find k = none) :
    m.insert k v = m.assign k v := by
  simp only [insert]
  rw [h]

theorem insert_of_find_eq_some {m : OrderedMap κ ν} {k : κ} {v₀ : ν} (v : ν)
    (h : m.find k = some v₀) : m.insert k v = m := by
  simp only [insert]
  rw [h]

@[simp] theorem find_erase (m : OrderedMap κ ν) (k k' : κ) :
    (m.erase k).find k' = if k' = k then none else m.find k' := by
  apply Option.ext
  intro v
  split
  · next h => subst h; simp [find_eq_some_iff, erase]
  · next h => simp [find_eq_some_iff, erase, h]

theorem erase_of_find_eq_none {m : OrderedMap κ ν} {k : κ} (h : m.find k = none) :
    m.erase k = m := by
  apply OrderedMap.ext
  refine List.filter_eq_self.mpr fun p hp => decide_eq_true fun hk => ?_
  exact find_eq_none_iff.mp h (hk ▸ List.mem_map_of_mem hp)

theorem find_foldl_erase (ks : List κ) (m : OrderedMap κ ν) (k : κ) :
    (ks.foldl erase m).find k = if k ∈ ks then none else m.find k := by
  induction ks generalizing m with
  | nil => simp
  | cons k' ks ih =>
    rw [List.foldl_cons, ih, find_erase]
    by_cases hk : k = k'
    · simp [hk]
    · simp [hk, List.mem_cons]

/-- A traversal that does something for one key only finds it once or not at all. -/
theorem filterMap_entries {β : Type*} (m : OrderedMap κ ν) (k : κ) {f : κ × ν → Option β}
    (hf : ∀ p, p.1 ≠ k → f p = none) :
    m.entries.filterMap f = ((m.find k).bind fun v => f (k, v)).toList := by
  have hnone : ∀ l : List (κ × ν), k ∉ l.map Prod.fst → l.filterMap f = [] := by
    intro l hl
    refine List.filterMap_eq_nil_iff.mpr fun p hp => hf p fun hk => ?_
    exact hl (hk ▸ List.mem_map_of_mem hp)
  cases hfind : m.find k with
  | none => rw [hnone m.entries (find_eq_none_iff.mp hfind), Option.bind_none, Option.toList_none]
  | some v =>
    obtain ⟨l, l', hl⟩ := List.append_of_mem (find_eq_some_iff.mp hfind)
    have hnodup := m.keys_nodup
    rw [keys, hl, List.map_append, List.map_cons, List.nodup_append'] at hnodup
    obtain ⟨_, hl', hdisjoint⟩ := hnodup
    have hbefore : k ∉ l.map Prod.fst := fun hk => hdisjoint hk List.mem_cons_self
    have hafter : k ∉ l'.map Prod.fst := (List.nodup_cons.mp hl').1
    rw [hl, List.filterMap_append, List.filterMap_cons, hnone l hbefore, hnone l' hafter,
      Option.bind_some, List.nil_append]
    cases f (k, v) with
    | none => rfl
    | some b => rfl

/-! ### Replacing all values -/

variable {ν' : Type w} {σ : Type*}

/-- Replace the values of an entry list from left to right, threading a state. -/
def mapAccumEntries (f : σ → ν → σ × ν') : σ → List (κ × ν) → σ × List (κ × ν')
  | s, [] => (s, [])
  | s, p :: l =>
    let r := f s p.2
    let t := mapAccumEntries f r.1 l
    (t.1, (p.1, r.2) :: t.2)

omit [LinearOrder κ] in
theorem keys_mapAccumEntries (f : σ → ν → σ × ν') (s : σ) (l : List (κ × ν)) :
    (mapAccumEntries f s l).2.map Prod.fst = l.map Prod.fst := by
  induction l generalizing s with
  | nil => rfl
  | cons p l ih => simp [mapAccumEntries, ih]

/-- Replace every value, in key order, threading a state. -/
def mapAccum (f : σ → ν → σ × ν') (s : σ) (m : OrderedMap κ ν) : σ × OrderedMap κ ν' :=
  let r := mapAccumEntries f s m.entries
  (r.1, ⟨r.2, by rw [keys_mapAccumEntries]; exact m.sorted⟩)

@[simp] theorem keys_mapAccum (f : σ → ν → σ × ν') (s : σ) (m : OrderedMap κ ν) :
    (m.mapAccum f s).2.keys = m.keys :=
  keys_mapAccumEntries f s m.entries

/-- Where the state does not matter, a value is replaced by its image. -/
theorem find_mapAccum_image (g : ν → ν') (s : σ) (m : OrderedMap κ ν) (k : κ) :
    (m.mapAccum (fun s v => (s, g v)) s).2.find k = (m.find k).map g := by
  have hentries : ∀ l : List (κ × ν), (mapAccumEntries (fun s v => (s, g v)) s l).2 =
      l.map fun p => (p.1, g p.2) := by
    intro l
    induction l with
    | nil => rfl
    | cons p l ih => rw [mapAccumEntries, ih, List.map_cons]
  simp only [find]
  dsimp only [mapAccum]
  rw [hentries, List.find?_map, Option.map_map, Option.map_map]
  rfl

end OrderedMap

end WfcIo.Foundation

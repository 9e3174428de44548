import WfcIo.Foundation.Ledger
import WfcIo.Foundation.Run

/-!
# Tenants

Resources that are numbered in the order they are made, and leased to keys. Where a step leases
only what is idle or new, and nothing that has been leased becomes idle again, no resource is ever
leased to a second key, however many keys come and go.

## Main definitions

- `Ledger.OneWay` — nothing comes back
- `Tenant` — the keys that a resource has been leased to in a run
- `Settled` — what is known of the tenants at the end of a run

## Main results

- `settled_run` — every resource has one tenant at most
-/

namespace WfcIo.Foundation

universe u v w

variable {σ : Type u} {α : Type v} {κ : Type w}

/-- What is leased to a key that it was not leased to before was idle or is new, that is, its
    number is `n` or more; and so was, or is, everything that is idle. -/
structure Ledger.OneWay (n : ℕ) (L L' : Ledger κ ℕ) : Prop where
  leased : ∀ {k x}, L'.leased k = some x → L.leased k = some x ∨ x ∈ L.idle ∨ n ≤ x
  idle : ∀ {x}, x ∈ L'.idle → x ∈ L.idle ∨ n ≤ x

namespace Ledger.OneWay

variable {n : ℕ} {L L' : Ledger κ ℕ}

theorem refl (n : ℕ) (L : Ledger κ ℕ) : OneWay n L L := ⟨Or.inl, Or.inl⟩

/-- Everything is new. -/
theorem of_new (h : ∀ x, L'.Held x → n ≤ x) : OneWay n L L' :=
  ⟨fun hx => Or.inr (Or.inr (h _ (Or.inl ⟨_, hx⟩))), fun hx => Or.inr (h _ (Or.inr hx))⟩

end Ledger.OneWay

/-- In the run `as` the resource `x` has been leased to `k`. -/
def Tenant (step : σ → α → σ) (ledger : σ → Ledger κ ℕ) (s : σ) (as : List α) (x : ℕ) (k : κ) :
    Prop :=
  ∃ pre, pre <+: as ∧ (ledger (run step s pre)).leased k = some x

/-- No resource has had two tenants, what is idle has had none, and what is new has had none. -/
structure Settled (step : σ → α → σ) (ledger : σ → Ledger κ ℕ) (next : σ → ℕ) (s : σ)
    (as : List α) : Prop where
  sole : ∀ {x k k'}, Tenant step ledger s as x k → Tenant step ledger s as x k' → k = k'
  idle : ∀ {x k}, Tenant step ledger s as x k → x ∉ (ledger (run step s as)).idle
  made : ∀ {x k}, Tenant step ledger s as x k → x < next (run step s as)

variable {step : σ → α → σ} {ledger : σ → Ledger κ ℕ} {next : σ → ℕ} {s : σ} {as : List α}
  {a : α} {x : ℕ} {k : κ}

/-- A lease that is running. -/
theorem tenant_of_leased (h : (ledger (run step s as)).leased k = some x) :
    Tenant step ledger s as x k :=
  ⟨as, List.prefix_refl as, h⟩

theorem tenant_concat : Tenant step ledger s (as ++ [a]) x k ↔
    Tenant step ledger s as x k ∨ (ledger (run step s (as ++ [a]))).leased k = some x := by
  constructor
  · rintro ⟨pre, hpre, hx⟩
    obtain rfl | hpre := List.prefix_concat_iff.mp hpre
    · exact Or.inr hx
    · exact Or.inl ⟨pre, hpre, hx⟩
  · rintro (⟨pre, hpre, hx⟩ | hx)
    · exact ⟨pre, hpre.trans (List.prefix_append as [a]), hx⟩
    · exact tenant_of_leased hx

/-- **One step.** -/
theorem Settled.concat (h : Settled step ledger next s as)
    (hexclusive : (ledger (run step s (as ++ [a]))).Exclusive)
    (hmade : ∀ x, (ledger (run step s (as ++ [a]))).Held x → x < next (run step s (as ++ [a])))
    (hnext : next (run step s as) ≤ next (run step s (as ++ [a])))
    (hstep : Ledger.OneWay (next (run step s as)) (ledger (run step s as))
      (ledger (run step s (as ++ [a])))) : Settled step ledger next s (as ++ [a]) := by
  -- a tenant of old keeps others out
  have hold : ∀ {x k k'}, Tenant step ledger s as x k →
      (ledger (run step s (as ++ [a]))).leased k' = some x → k = k' := by
    intro x k k' hk hk'
    obtain hleased | hidle | hnew := hstep.leased hk'
    · exact h.sole hk (tenant_of_leased hleased)
    · exact absurd hidle (h.idle hk)
    · exact absurd (h.made hk) (not_lt.mpr hnew)
  refine ⟨fun {x k k'} hk hk' => ?_, fun {x k} hk hidle => ?_, fun {x k} hk => ?_⟩
  · obtain hk | hk := tenant_concat.mp hk
    · obtain hk' | hk' := tenant_concat.mp hk'
      · exact h.sole hk hk'
      · exact hold hk hk'
    · obtain hk' | hk' := tenant_concat.mp hk'
      · exact (hold hk' hk).symm
      · exact hexclusive.leased_inj hk hk'
  · obtain hk | hk := tenant_concat.mp hk
    · obtain hidle | hnew := hstep.idle hidle
      · exact h.idle hk hidle
      · exact absurd (h.made hk) (not_lt.mpr hnew)
    · exact hexclusive.not_idle hk hidle
  · obtain hk | hk := tenant_concat.mp hk
    · exact (h.made hk).trans_le hnext
    · exact hmade x (Or.inl ⟨k, hk⟩)

/-- **One tenant.** If in every state of a run no resource is in two places and all have been made,
    and nothing comes back, then every resource has one tenant at most in the whole run. -/
theorem settled_run (hexclusive : ∀ as, (ledger (run step s as)).Exclusive)
    (hmade : ∀ as x, (ledger (run step s as)).Held x → x < next (run step s as))
    (hnext : ∀ s a, next s ≤ next (step s a))
    (has : Along step (fun s a => Ledger.OneWay (next s) (ledger s) (ledger (step s a))) s as) :
    Settled step ledger next s as := by
  induction as using List.reverseRecOn with
  | nil =>
    have htenant : ∀ {x k}, Tenant step ledger s [] x k → (ledger s).leased k = some x := by
      rintro x k ⟨pre, hpre, hx⟩
      obtain rfl := List.prefix_nil.mp hpre
      exact hx
    exact ⟨fun hk hk' => (hexclusive []).leased_inj (htenant hk) (htenant hk'),
      fun hk => (hexclusive []).not_idle (htenant hk),
      fun hk => hmade [] _ (Or.inl ⟨_, htenant hk⟩)⟩
  | append_singleton as a ih =>
    obtain ⟨has, hstep⟩ := (along_concat s as a).mp has
    have hrun : run step s (as ++ [a]) = step (run step s as) a := run_concat s as a
    have hmono : next (run step s as) ≤ next (run step s (as ++ [a])) := by
      rw [hrun]
      exact hnext _ a
    rw [← hrun] at hstep
    exact (ih has).concat (hexclusive _) (hmade _) hmono hstep

end WfcIo.Foundation

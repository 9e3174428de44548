import WfcIo.Foundation.History

/-!
# Sessions

A log in which keys are announced and withdrawn, and used in between. It is in session if every
use of a key comes while the last word about the key is that it is announced.

## Main definitions

- `InSession` — no key is used that is not announced

## Main results

- `inSession_append_silent`, `inSession_append_unused` — a log grows by uses, or by words
- `inSession_filterMap` — a part of a log that has all words and all uses
-/

namespace WfcIo.Foundation

universe u v w

variable {α : Type u} {κ : Type v} {γ : Type w}

/-- Every element that uses a key comes while the last word about it is `true`. -/
def InSession (word : κ → α → Option Bool) (use : α → Option κ) (l : List α) : Prop :=
  AtEach (fun pre a => ∀ k, use a = some k → latest (word k) pre = some true) l

variable {word : κ → α → Option Bool} {use : α → Option κ} {l l' : List α}

theorem inSession_nil : InSession word use [] := atEach_nil

theorem inSession_concat_iff {a : α} : InSession word use (l ++ [a]) ↔
    InSession word use l ∧ ∀ k, use a = some k → latest (word k) l = some true :=
  atEach_concat_iff

/-- A log that grows by elements without words. -/
theorem inSession_append_silent (h : ∀ a ∈ l', ∀ k, word k a = none) :
    InSession word use (l ++ l') ↔
      InSession word use l ∧ ∀ a ∈ l', ∀ k, use a = some k → latest (word k) l = some true := by
  induction l' using List.reverseRecOn with
  | nil => simp
  | append_singleton l' a ih =>
    have hl' : ∀ b ∈ l', ∀ k, word k b = none := fun b hb => h b (List.mem_append_left _ hb)
    have hlatest : ∀ k, latest (word k) (l ++ l') = latest (word k) l :=
      fun k => latest_append_of_silent fun b hb => hl' b hb k
    rw [← List.append_assoc, inSession_concat_iff, ih hl', and_assoc]
    simp only [hlatest, List.mem_append, List.mem_singleton, or_imp, forall_and, forall_eq]

/-- A log that grows by elements that use nothing. -/
theorem inSession_append_unused (h : ∀ a ∈ l', use a = none) :
    InSession word use (l ++ l') ↔ InSession word use l := by
  induction l' using List.reverseRecOn with
  | nil => simp
  | append_singleton l' a ih =>
    have ha : use a = none := h a (List.mem_append_right _ List.mem_cons_self)
    rw [← List.append_assoc, inSession_concat_iff,
      ih fun b hb => h b (List.mem_append_left _ hb)]
    simp [ha]

/-- The last word in a part of a log, where the words of the log are those of the part. -/
theorem latest_filterMap {β : Type*} (f : α → Option γ) (g : γ → Option β) (l : List α) :
    latest g (l.filterMap f) = latest (fun a => (f a).bind g) l := by
  induction l using List.reverseRecOn with
  | nil => rfl
  | append_singleton l a ih =>
    rw [List.filterMap_append, latest_append, latest_concat, ih]
    cases hf : f a with
    | none => simp [hf]
    | some b => simp [hf]

/-- **Parts of a log.** What is left out says nothing and uses nothing. -/
theorem inSession_filterMap {f : α → Option γ} {word : κ → γ → Option Bool}
    {use : γ → Option κ} : InSession word use (l.filterMap f) ↔
      InSession (fun k a => (f a).bind (word k)) (fun a => (f a).bind use) l := by
  induction l using List.reverseRecOn with
  | nil => exact iff_of_true inSession_nil inSession_nil
  | append_singleton l a ih =>
    rw [List.filterMap_append, inSession_concat_iff, ← ih]
    cases hf : f a with
    | none => simp [hf]
    | some b =>
      have hsingle : [a].filterMap f = [b] := by simp [hf]
      rw [hsingle, inSession_concat_iff]
      simp only [latest_filterMap, Option.bind_some]

/-- Other names for the keys. -/
theorem InSession.rename {κ' : Type*} {word' : κ' → α → Option Bool} {use' : α → Option κ'}
    (h : InSession word use l) (g : κ' → κ) (hword : ∀ k a, word' k a = word (g k) a)
    (huse : ∀ a k, use' a = some k → use a = some (g k)) : InSession word' use' l := by
  intro pre a post hl k hk
  have hlatest := h pre a post hl (g k) (huse a k hk)
  have heq : word' k = word (g k) := funext (hword k)
  rwa [heq]

end WfcIo.Foundation

import WfcIo.Pipeline.Replies
import WfcIo.Foundation.Order

/-!
# Answers that come back the same way

An answer waits at each queue on its way back. If the workflow of each of these queues runs or
drops its posts in turn, the answers to one handler of a source come to it in the order in which
they are given, although the workflows do not know of one another: none overtakes another, and one
whose post is dropped comes as `nullptr` in its place.

## Main definitions

- `Book.wayBack` — the queues on the way back from a handler
- `Dialogue.arriving` — what has come to a handler of a source and what is on its way
- `Dialogue.Fate`, `Dialogue.Explain` — what has become of each answer
- `Dialogue.Act.InTurn` — a workflow takes its first post

## Main results

- `Dialogue.settle_arriving` — a post that is run or dropped keeps its place
- `Dialogue.returned` — the answers come in order
-/

namespace WfcIo

open Foundation

namespace Book

variable {names : Names} (book : Book names)

/-- The queues whose lambdas an answer through `f` comes by. The fuel bounds the number of
    lambdas. -/
def wayBackAt : ℕ → Handler → List ℕ
  | 0, _ => []
  | k + 1, f =>
    match book.made f with
    | .source => []
    | .metered _ handler _ => handler.elim [] (wayBackAt k)
    | .queued n g => n :: wayBackAt k g

/-- The queues on the way back. -/
def wayBack (f : Handler) : List ℕ := book.wayBackAt (f + 1) f

variable {book}

/-- More fuel makes no difference. -/
theorem wayBackAt_eq {k k' f : ℕ} (hk : f < k) (hk' : f < k') :
    book.wayBackAt k f = book.wayBackAt k' f := by
  induction k generalizing k' f with
  | zero => omega
  | succ k ih =>
    cases k' with
    | zero => omega
    | succ k' =>
      simp only [wayBackAt]
      cases hmade : book.made f with
      | source => rfl
      | metered n handler meter =>
        cases handler with
        | none => rfl
        | some g =>
          have hlt := book.lt_metered f n g meter hmade
          exact ih (by omega) (by omega)
      | queued n g =>
        have hlt := book.lt_queued f n g hmade
        exact congrArg (n :: ·) (ih (by omega) (by omega))

theorem wayBack_of_source {f : Handler} (h : book.made f = .source) : book.wayBack f = [] := by
  simp only [wayBack, wayBackAt, h]

theorem wayBack_of_metered {f : Handler} {n g meter : ℕ}
    (h : book.made f = .metered n (some g) meter) : book.wayBack f = book.wayBack g := by
  have hlt := book.lt_metered f n g meter h
  simp only [wayBack, wayBackAt, h, Option.elim_some]
  exact wayBackAt_eq hlt (Nat.lt_succ_self g)

theorem wayBack_of_queued {f : Handler} {n : ℕ} {g : Handler} (h : book.made f = .queued n g) :
    book.wayBack f = n :: book.wayBack g := by
  have hlt := book.lt_queued f n g h
  simp only [wayBack, wayBackAt, h]
  exact congrArg (n :: ·) (wayBackAt_eq hlt (Nat.lt_succ_self g))

end Book

namespace Dialogue

variable {names : Names} (book : Book names) (rank : ℕ → ℕ) (h : Handler) (σ : List ℕ)

/-- What the handler of the source has been called with. -/
def callsOf (s : Dialogue) : List DataPtr := (s.calls.filter fun c => c.1 = some h).map Prod.snd

/-- The answers for the handler, as they have been given. -/
def answersOf (s : Dialogue) : List DataPtr :=
  (s.answers.filter fun a => book.root (some a.1) = some h).map Prod.snd

/-- The answers for the handler that wait at the queue `n`. -/
def waits (posted : List Post) (n : ℕ) : List DataPtr :=
  (posted.filter fun p => p.queue = n ∧ book.root (some p.handler) = some h).map Post.d

/-- What has come to the handler, and what is on the way back along `σ`, the oldest first. -/
def arriving (s : Dialogue) : List DataPtr :=
  callsOf h s ++ backlogs (waits book h s.posted) id σ

/-- A workflow takes the first post of its queue that is for the handler. -/
def Act.InTurn (s : Dialogue) : Act → Prop
  | .run i | .drop i => ∀ p ∈ s.posted[i]?, book.root (some p.handler) = some h →
    ∀ q ∈ s.posted.take i, q.queue = p.queue → book.root (some q.handler) ≠ some h
  | _ => True

instance (s : Dialogue) : DecidablePred (Act.InTurn book h s)
  | .line _ => .isTrue trivial
  | .answer _ _ => .isTrue trivial
  | .run i => inferInstanceAs (Decidable (∀ p ∈ s.posted[i]?, _ → ∀ q ∈ s.posted.take i, _ → _))
  | .drop i => inferInstanceAs (Decidable (∀ p ∈ s.posted[i]?, _ → ∀ q ∈ s.posted.take i, _ → _))

/-- The queues of `σ` are there, and have workflows for answers. -/
def Staffed (s : Dialogue) : Prop := ∀ n ∈ σ, s.workflow n = true

instance (s : Dialogue) : Decidable (Staffed σ s) :=
  inferInstanceAs (Decidable (∀ n ∈ σ, s.workflow n = true))

/-- What waits for the handler waits on the way back, and has the rest of it before it. -/
def Placed (s : Dialogue) : Prop :=
  ∀ p ∈ s.posted, book.root (some p.handler) = some h →
    ∃ pre, σ = pre ++ p.queue :: book.wayBack p.handler

/-- The posts for the handler that have been dropped. -/
def droppedOf (s : Dialogue) : List Post :=
  s.dropped.filter fun p => book.root (some p.handler) = some h

/-- What has become of an answer: the data it was given with, and those of its posts that have been
    dropped, in this order. -/
structure Fate where
  d : DataPtr
  dropped : List Post := []

/-- What the answer is on its way, and comes as. -/
def Fate.comes (x : Fate) : DataPtr := if x.dropped.isEmpty then x.d else none

/-- The fates are those of the answers `given`, these come as `comes`, and the posts `dropped` are
    theirs: the first one of an answer that is dropped holds its data. -/
structure Explain (fates : List Fate) (given comes : List DataPtr) (dropped : List Post) :
    Prop where
  given : fates.map Fate.d = given
  comes : fates.map Fate.comes = comes
  dropped : (fates.flatMap Fate.dropped).Perm dropped
  first : ∀ x ∈ fates, ∀ p ∈ x.dropped.head?, p.d = x.d

variable {book rank h σ} {s : Dialogue} {posted : List Post} {p : Post} {d : DataPtr}

/-! ### Fates -/

section Fates

variable {fates : List Fate} {given comes l l' : List DataPtr} {dropped : List Post}

/-- An answer is given. -/
theorem Explain.answer (he : Explain fates given comes dropped) (d : DataPtr) :
    Explain (fates ++ [⟨d, []⟩]) (given ++ [d]) (comes ++ [d]) dropped where
  given := by
    rw [List.map_append, he.given]
    rfl
  comes := by
    rw [List.map_append, he.comes]
    rfl
  dropped := by
    rw [List.flatMap_append, List.flatMap_singleton, List.append_nil]
    exact he.dropped
  first := by
    intro x hx q hq
    obtain hx | hx := List.mem_append.mp hx
    · exact he.first x hx q hq
    · rw [List.mem_singleton.mp hx] at hq
      cases hq

/-- A post is dropped: `nullptr` comes in the place of what it held. -/
theorem Explain.drop (he : Explain fates given (l ++ p.d :: l') dropped) :
    ∃ fates', Explain fates' given (l ++ none :: l') (dropped ++ [p]) := by
  obtain ⟨hgiven, hcomes, hdropped, hfirst⟩ := he
  obtain ⟨before, rest, rfl, hbefore, hrest⟩ := List.map_eq_append_iff.mp hcomes
  obtain ⟨x, after, rfl, hx, hafter⟩ := List.map_eq_cons_iff.mp hrest
  refine ⟨before ++ { x with dropped := x.dropped ++ [p] } :: after, ?_, ?_, ?_, ?_⟩
  · rw [← hgiven]
    simp only [List.map_append, List.map_cons]
  · have hnone : Fate.comes { x with dropped := x.dropped ++ [p] } = none := by
      simp [Fate.comes]
    rw [List.map_append, List.map_cons, hbefore, hafter, hnone]
  · refine List.Perm.trans ?_ (hdropped.append_right [p])
    simp only [List.flatMap_append, List.flatMap_cons, List.append_assoc]
    refine List.Perm.append_left _ (List.Perm.append_left _ ?_)
    exact List.perm_append_comm
  · intro y hy q hq
    obtain hy | hy := List.mem_append.mp hy
    · exact hfirst y (List.mem_append_left _ hy) q hq
    · obtain rfl | hy := List.mem_cons.mp hy
      · have hx' := hfirst x (List.mem_append_right _ List.mem_cons_self)
        cases hposts : x.dropped with
        | nil =>
          -- the first post that is dropped held the data as they were given
          simp only [hposts, List.nil_append, List.head?_cons, Option.mem_some_iff] at hq
          simp only [Fate.comes, hposts, List.isEmpty_nil, if_true] at hx
          exact hq ▸ hx.symm
        | cons r posts =>
          simp only [hposts, List.cons_append, List.head?_cons, Option.mem_some_iff] at hq
          exact hx' q (by rw [hposts]; exact congrArg some hq)
      · exact hfirst y (List.mem_append_right _ (List.mem_cons_of_mem _ hy)) q hq

/-- Where nothing is dropped, the answers come as they were given. -/
theorem Explain.comes_eq (he : Explain fates given comes []) : comes = given := by
  rw [← he.given, ← he.comes]
  refine List.map_congr_left fun x hx => ?_
  have hnil : x.dropped = [] := List.flatMap_eq_nil_iff.mp he.dropped.eq_nil x hx
  rw [Fate.comes, hnil]
  rfl

end Fates

/-! ### Posts -/

theorem waits_append (l : List Post) (n : ℕ) :
    waits book h (posted ++ l) n = waits book h posted n ++ waits book h l n := by
  simp only [waits, List.filter_append, List.map_append]

theorem waits_of_other {l : List Post} (hl : ∀ p ∈ l, book.root (some p.handler) ≠ some h)
    (n : ℕ) : waits book h l n = [] := by
  rw [waits, List.map_eq_nil_iff, List.filter_eq_nil_iff]
  exact fun p hp hmem => hl p hp (of_decide_eq_true hmem).2

theorem waits_singleton (hp : book.root (some p.handler) = some h) (n : ℕ) :
    waits book h [p] n = if p.queue = n then [p.d] else [] := by
  by_cases hn : p.queue = n
  · simp [waits, hn, hp]
  · simp [waits, hn]

/-- The posts before and after the `i`-th. -/
theorem posted_split {i : ℕ} (hp : posted[i]? = some p) :
    posted = posted.take i ++ p :: posted.drop (i + 1) ∧
      posted.eraseIdx i = posted.take i ++ posted.drop (i + 1) := by
  obtain ⟨hlt, hget⟩ := List.getElem?_eq_some_iff.mp hp
  refine ⟨?_, List.eraseIdx_eq_take_drop_succ posted i⟩
  rw [← hget, ← List.drop_eq_getElem_cons hlt, List.take_append_drop]

/-- The first post of a queue for the handler is taken away. -/
theorem waits_eraseIdx_self {i : ℕ} (hp : posted[i]? = some p)
    (hroot : book.root (some p.handler) = some h)
    (hfirst : ∀ q ∈ posted.take i, q.queue = p.queue → book.root (some q.handler) ≠ some h) :
    waits book h posted p.queue = p.d :: waits book h (posted.eraseIdx i) p.queue := by
  obtain ⟨hposted, herase⟩ := posted_split hp
  have hbefore : waits book h (posted.take i) p.queue = [] := by
    rw [waits, List.map_eq_nil_iff, List.filter_eq_nil_iff]
    intro q hq hmem
    obtain ⟨hqueue, hq'⟩ := of_decide_eq_true hmem
    exact hfirst q hq hqueue hq'
  rw [herase, waits_append, hbefore]
  conv_lhs => rw [hposted, ← List.singleton_append, waits_append, waits_append, hbefore,
    waits_singleton hroot, if_pos rfl]
  rfl

/-- Other queues, and other handlers, do not notice. -/
theorem waits_eraseIdx_other {i n : ℕ} (hp : posted[i]? = some p)
    (hother : p.queue ≠ n ∨ book.root (some p.handler) ≠ some h) :
    waits book h (posted.eraseIdx i) n = waits book h posted n := by
  obtain ⟨hposted, herase⟩ := posted_split hp
  have hnone : waits book h [p] n = [] := by
    rw [waits, List.map_eq_nil_iff, List.filter_eq_nil_iff]
    intro q hq hmem
    obtain rfl := List.mem_singleton.mp hq
    obtain ⟨hqueue, hroot⟩ := of_decide_eq_true hmem
    exact hother.elim (fun hne => hne hqueue) fun hne => hne hroot
  rw [herase, waits_append]
  conv_rhs => rw [hposted, ← List.singleton_append, waits_append, waits_append, hnone]
  rfl

/-! ### Handlers -/

/-- A handler that leads elsewhere. -/
theorem follow_other {k f : ℕ} (hk : f < k) (hroot : book.root (some f) ≠ some h)
    (s : Dialogue) :
    callsOf h (follow book k f d s) = callsOf h s ∧
      ∃ l, (follow book k f d s).posted = s.posted ++ l ∧
        ∀ p ∈ l, book.root (some p.handler) ≠ some h := by
  induction k generalizing f s with
  | zero => omega
  | succ k ih =>
    simp only [follow]
    cases hmade : book.made f with
    | source =>
      rw [Book.root_of_source hmade] at hroot
      refine ⟨?_, [], (List.append_nil _).symm, fun _ hp => by cases hp⟩
      simp [callsOf, callSource, List.filter_append, hroot]
    | metered n handler meter =>
      rw [Book.root_of_metered hmade] at hroot
      cases handler with
      | none =>
        refine ⟨?_, [], (List.append_nil _).symm, fun _ hp => by cases hp⟩
        simp [callsOf, callSource, measure, List.filter_append]
      | some g =>
        have hlt := book.lt_metered f n g meter hmade
        exact ih (by omega) hroot (s.measure n meter d)
    | queued n g =>
      rw [Book.root_of_queued hmade] at hroot
      simp only
      split
      · refine ⟨rfl, [⟨n, g, d⟩], rfl, fun p hp => ?_⟩
        rw [List.mem_singleton.mp hp]
        exact hroot
      · have hlt := book.lt_queued f n g hmade
        exact ih (by omega) hroot s

/-- A handler that leads to the handler of the source: it is called, or the answer is posted by
    the first queue on the way back. -/
theorem follow_own {k f : ℕ} (hk : f < k) (hroot : book.root (some f) = some h) (s : Dialogue)
    (hstaffed : ∀ n ∈ book.wayBack f, s.workflow n = true) :
    (book.wayBack f = [] ∧ callsOf h (follow book k f d s) = callsOf h s ++ [d] ∧
        (follow book k f d s).posted = s.posted) ∨
      ∃ n g, book.wayBack f = n :: book.wayBack g ∧ book.root (some g) = some h ∧
        (follow book k f d s).posted = s.posted ++ [⟨n, g, d⟩] ∧
        callsOf h (follow book k f d s) = callsOf h s := by
  induction k generalizing f s with
  | zero => omega
  | succ k ih =>
    simp only [follow]
    cases hmade : book.made f with
    | source =>
      rw [Book.root_of_source hmade] at hroot
      refine Or.inl ⟨Book.wayBack_of_source hmade, ?_, rfl⟩
      simp [callsOf, callSource, List.filter_append, hroot]
    | metered n handler meter =>
      rw [Book.root_of_metered hmade] at hroot
      cases handler with
      | none => cases hroot
      | some g =>
        have hlt := book.lt_metered f n g meter hmade
        rw [Book.wayBack_of_metered hmade] at hstaffed ⊢
        exact ih (by omega) hroot (s.measure n meter d) hstaffed
    | queued n g =>
      rw [Book.root_of_queued hmade] at hroot
      rw [Book.wayBack_of_queued hmade] at hstaffed ⊢
      simp only [hstaffed n List.mem_cons_self, if_true]
      exact Or.inr ⟨n, g, rfl, hroot, rfl, rfl⟩

/-- A handler that is called: what it carries comes after all that is on the way before it. -/
theorem follow_arriving {f : Handler} (hroot : book.root (some f) = some h)
    (hnodup : (book.wayBack f).Nodup) (d : DataPtr) (s : Dialogue)
    (hstaffed : ∀ n ∈ book.wayBack f, s.workflow n = true) :
    let s' := follow book (f + 1) f d s
    arriving book h (book.wayBack f) s' =
        arriving book h (book.wayBack f) s ++ [d] ∧
      (∀ n ∉ book.wayBack f, waits book h s'.posted n = waits book h s.posted n) ∧
      ∀ q ∈ s'.posted, q ∈ s.posted ∨
        book.wayBack f = q.queue :: book.wayBack q.handler := by
  intro s'
  obtain ⟨hempty, hcalls, hposted⟩ | ⟨n, g, hway, hg, hposted, hcalls⟩ :=
    follow_own (Nat.lt_succ_self f) hroot s hstaffed
  · refine ⟨?_, fun n _ => by rw [hposted], fun q hq => Or.inl (hposted ▸ hq)⟩
    simp only [arriving, hempty, backlogs_nil, List.append_nil]
    exact hcalls
  · have hwaits : ∀ m, waits book h s'.posted m =
        waits book h s.posted m ++ if n = m then [d] else [] := by
      intro m
      rw [hposted, waits_append, waits_singleton hg]
    rw [hway] at hnodup ⊢
    refine ⟨?_, fun m hm => ?_, fun q hq => ?_⟩
    · have hrest : backlogs (waits book h s'.posted) id (book.wayBack g) =
          backlogs (waits book h s.posted) id (book.wayBack g) := by
        refine List.flatMap_congr fun m hm => ?_
        have hne : n ≠ m := fun heq =>
          (List.nodup_cons.mp hnodup).1 (heq ▸ List.mem_reverse.mp hm)
        rw [id_eq, hwaits, if_neg hne, List.append_nil]
      have hcalls' : callsOf h s' = callsOf h s := hcalls
      simp only [arriving, backlogs_cons, hrest, hcalls', id_eq, hwaits, if_true,
        List.append_assoc]
    · have hne : n ≠ m := fun heq => hm (heq ▸ List.mem_cons_self)
      rw [hwaits, if_neg hne, List.append_nil]
    · rw [hposted] at hq
      obtain hq | hq := List.mem_append.mp hq
      · exact Or.inl hq
      · rw [List.mem_singleton.mp hq]
        exact Or.inr rfl

/-- **One post.** A post for the handler that is run or dropped, the first one of its queue: what
    it is called with has its place. -/
theorem settle_arriving (hnodup : σ.Nodup) {i : ℕ} (hplaced : Placed book h σ s)
    (hp : s.posted[i]? = some p) (hroot : book.root (some p.handler) = some h)
    (hfirst : ∀ q ∈ s.posted.take i, q.queue = p.queue → book.root (some q.handler) ≠ some h)
    (hstaffed : Staffed σ s) (d : DataPtr) (dropped : List Post) :
    let s' := follow book (p.handler + 1) p.handler d
      { s with posted := s.posted.eraseIdx i, dropped }
    (∃ l l', arriving book h σ s = l ++ p.d :: l' ∧ arriving book h σ s' = l ++ d :: l') ∧
      Placed book h σ s' := by
  intro s'
  obtain ⟨pre, rfl⟩ := hplaced p (List.mem_of_getElem? hp) hroot
  have hparts := List.nodup_append.mp hnodup
  obtain ⟨hnot, hnodup'⟩ := List.nodup_cons.mp hparts.2.1
  let rest : Dialogue := { s with posted := s.posted.eraseIdx i, dropped }
  obtain ⟨harriving, hothers, hposts⟩ := follow_arriving hroot hnodup' d rest fun n hn =>
    hstaffed n (List.mem_append_right _ (List.mem_cons_of_mem _ hn))
  have hself := waits_eraseIdx_self hp hroot hfirst
  have hother : ∀ n, n ≠ p.queue → waits book h rest.posted n = waits book h s.posted n :=
    fun n hn => waits_eraseIdx_other hp (Or.inl hn.symm)
  have hbefore : backlogs (waits book h rest.posted) id (book.wayBack p.handler) =
      backlogs (waits book h s.posted) id (book.wayBack p.handler) :=
    List.flatMap_congr fun n hn => hother n fun heq => hnot (heq ▸ List.mem_reverse.mp hn)
  have hpre : backlogs (waits book h s'.posted) id pre =
      backlogs (waits book h s.posted) id pre := by
    refine List.flatMap_congr fun n hn => ?_
    have hn' := List.mem_reverse.mp hn
    have hne : n ≠ p.queue := hparts.2.2 n hn' _ List.mem_cons_self
    have hnot' : n ∉ book.wayBack p.handler := fun h' =>
      hparts.2.2 n hn' n (List.mem_cons_of_mem _ h') rfl
    rw [id_eq, hothers n hnot', hother n hne]
  refine ⟨⟨callsOf h s ++ backlogs (waits book h s.posted) id (book.wayBack p.handler),
    waits book h rest.posted p.queue ++ backlogs (waits book h s.posted) id pre, ?_, ?_⟩,
    fun q hq hroot' => ?_⟩
  · simp only [arriving, backlogs_append, backlogs_cons, id_eq, hself, List.append_assoc,
      List.cons_append]
    rfl
  · have hmoved : callsOf h s' ++ backlogs (waits book h s'.posted) id (book.wayBack p.handler) =
        callsOf h s ++ backlogs (waits book h s.posted) id (book.wayBack p.handler) ++ [d] := by
      rw [← hbefore]
      exact harriving
    have hqueue : waits book h s'.posted p.queue = waits book h rest.posted p.queue :=
      hothers _ hnot
    calc arriving book h (pre ++ p.queue :: book.wayBack p.handler) s'
        = callsOf h s' ++ backlogs (waits book h s'.posted) id (book.wayBack p.handler) ++
            (waits book h s'.posted p.queue ++ backlogs (waits book h s'.posted) id pre) := by
          simp only [arriving, backlogs_append, backlogs_cons, id_eq, List.append_assoc]
      _ = _ := by
          rw [hmoved, hqueue, hpre]
          simp only [List.append_assoc, List.singleton_append]
  · obtain hq | hway := hposts q hq
    · exact hplaced q (List.eraseIdx_subset hq) hroot'
    · exact ⟨pre ++ [p.queue], by rw [hway, List.append_assoc, List.singleton_append]⟩

/-- A post for another handler. -/
theorem settle_other {i : ℕ} (hplaced : Placed book h σ s) (hp : s.posted[i]? = some p)
    (hroot : book.root (some p.handler) ≠ some h) (d : DataPtr) (dropped : List Post) :
    let s' := follow book (p.handler + 1) p.handler d
      { s with posted := s.posted.eraseIdx i, dropped }
    arriving book h σ s' = arriving book h σ s ∧ Placed book h σ s' := by
  intro s'
  obtain ⟨hcalls, l, hposted, hl⟩ := follow_other (d := d) (Nat.lt_succ_self p.handler) hroot
    { s with posted := s.posted.eraseIdx i, dropped }
  have hcalls' : callsOf h s' = callsOf h s := hcalls
  have hwaits : waits book h s'.posted = waits book h s.posted := by
    funext n
    rw [hposted, waits_append, waits_of_other hl, List.append_nil]
    exact waits_eraseIdx_other hp (Or.inr hroot)
  refine ⟨by rw [arriving, arriving, hcalls', hwaits], fun q hq hroot' => ?_⟩
  rw [hposted] at hq
  obtain hq | hq := List.mem_append.mp hq
  · exact hplaced q (List.eraseIdx_subset hq) hroot'
  · exact absurd hroot' (hl q hq)

/-! ### Runs -/

/-- The answers for the handler are in order on the way back. -/
structure Returned (book : Book names) (h : Handler) (σ : List ℕ) (s : Dialogue) : Prop where
  placed : Placed book h σ s
  explained : ∃ fates,
    Explain fates (answersOf book h s) (arriving book h σ s) (droppedOf book h s)

/-- An answer that is given comes after all others. -/
theorem answer_returned (hnodup : σ.Nodup) {f : Handler} (hs : Returned book h σ s)
    (hstaffed : Staffed σ s) (hway : book.root (some f) = some h → book.wayBack f = σ) :
    Returned book h σ (s.answer book f d) := by
  have hanswers : answersOf book h (s.answer book f d) =
      answersOf book h s ++ if book.root (some f) = some h then [d] else [] := by
    simp only [answersOf, (answer_eq book f d s).1, List.filter_append, List.map_append]
    by_cases hroot : book.root (some f) = some h
    · simp [hroot]
    · simp [hroot]
  have hdropped : droppedOf book h (s.answer book f d) = droppedOf book h s := by
    rw [droppedOf, (answer_eq book f d s).2.1]
    rfl
  obtain ⟨fates, hfates⟩ := hs.explained
  by_cases hroot : book.root (some f) = some h
  · obtain rfl := hway hroot
    obtain ⟨harriving, _, hposts⟩ := follow_arriving hroot hnodup d
      { s with answers := s.answers ++ [(f, d)] } hstaffed
    refine ⟨fun q hq hroot' => ?_, ?_⟩
    · obtain hq | hq := hposts q hq
      · exact hs.placed q hq hroot'
      · exact ⟨[], hq⟩
    · have hlast : arriving book h (book.wayBack f) (s.answer book f d) =
          arriving book h (book.wayBack f) s ++ [d] := harriving
      rw [hlast, hanswers, if_pos hroot, hdropped]
      exact ⟨_, hfates.answer d⟩
  · obtain ⟨hcalls, l, hposted, hl⟩ := follow_other (d := d) (Nat.lt_succ_self f) hroot
      { s with answers := s.answers ++ [(f, d)] }
    have hposted' : (s.answer book f d).posted = s.posted ++ l := hposted
    have hcalls' : callsOf h (s.answer book f d) = callsOf h s := hcalls
    have hwaits : waits book h (s.answer book f d).posted = waits book h s.posted := by
      funext n
      rw [hposted', waits_append, waits_of_other hl, List.append_nil]
    refine ⟨fun q hq hroot' => ?_, ?_⟩
    · rw [hposted'] at hq
      obtain hq | hq := List.mem_append.mp hq
      · exact hs.placed q hq hroot'
      · exact absurd hroot' (hl q hq)
    · rw [arriving, hcalls', hwaits, hanswers, if_neg hroot, List.append_nil, hdropped]
      exact ⟨fates, hfates⟩

/-- A post that is run with what it holds, or dropped with `nullptr`. -/
theorem settle_returned (hnodup : σ.Nodup) {i : ℕ} (hs : Returned book h σ s)
    (hstaffed : Staffed σ s) (hp : s.posted[i]? = some p)
    (hfirst : book.root (some p.handler) = some h →
      ∀ q ∈ s.posted.take i, q.queue = p.queue → book.root (some q.handler) ≠ some h)
    {dropped : List Post}
    (hd : d = p.d ∧ dropped = s.dropped ∨ d = none ∧ dropped = s.dropped ++ [p]) :
    Returned book h σ (follow book (p.handler + 1) p.handler d
      { s with posted := s.posted.eraseIdx i, dropped }) := by
  obtain ⟨calls, posted, sizes, heq, _⟩ := follow_spec book (Nat.lt_succ_self p.handler) d
    { s with posted := s.posted.eraseIdx i, dropped }
  have hanswers : answersOf book h (follow book (p.handler + 1) p.handler d
      { s with posted := s.posted.eraseIdx i, dropped }) = answersOf book h s := by
    rw [heq]
    rfl
  have hdropped : droppedOf book h (follow book (p.handler + 1) p.handler d
      { s with posted := s.posted.eraseIdx i, dropped }) =
        dropped.filter fun p => book.root (some p.handler) = some h := by
    rw [heq]
    rfl
  obtain ⟨fates, hfates⟩ := hs.explained
  by_cases hroot : book.root (some p.handler) = some h
  · obtain ⟨⟨l, l', hbefore, hafter⟩, hplaced⟩ := settle_arriving hnodup hs.placed hp hroot
      (hfirst hroot) hstaffed d dropped
    refine ⟨hplaced, ?_⟩
    rw [hbefore] at hfates
    rw [hafter, hanswers, hdropped]
    obtain ⟨rfl, rfl⟩ | ⟨rfl, rfl⟩ := hd
    · exact ⟨fates, hfates⟩
    · have hone : (s.dropped ++ [p]).filter (fun p => book.root (some p.handler) = some h) =
          droppedOf book h s ++ [p] := by
        rw [List.filter_append]
        simp [droppedOf, hroot]
      rw [hone]
      exact hfates.drop
  · obtain ⟨hsame, hplaced⟩ := settle_other hs.placed hp hroot d dropped
    refine ⟨hplaced, fates, ?_⟩
    have hnone : dropped.filter (fun p => book.root (some p.handler) = some h) =
        droppedOf book h s := by
      obtain ⟨_, rfl⟩ | ⟨_, rfl⟩ := hd
      · rfl
      · rw [List.filter_append]
        simp [droppedOf, hroot]
    rw [hsame, hanswers, hdropped, hnone]
    exact hfates

/-- The events of the line: what is refused is answered. -/
theorem hears_returned (hnodup : σ.Nodup) (events : List Event) (s : Dialogue)
    (hs : Returned book h σ s) (hstaffed : Staffed σ s)
    (hall : ∀ x ∈ (events.foldl (hear book) s).answers,
      book.root (some x.1) = some h → book.wayBack x.1 = σ) :
    Returned book h σ (events.foldl (hear book) s) := by
  induction events generalizing s with
  | nil => exact hs
  | cons e events ih =>
    have hstaffed' : Staffed σ (s.hear book e) := by
      intro n hn
      rw [workflow, (hear_eq book e s).2.2]
      exact hstaffed n hn
    have hs' : Returned book h σ (s.hear book e) := by
      cases e with
      | called n c => exact hs
      | ended n m k =>
        cases k with
        | refused f =>
          refine answer_returned hnodup hs hstaffed fun hroot => ?_
          refine hall (f, none) ?_ hroot
          rw [List.foldl_cons, (hears_eq book events _).1, (hear_eq book _ s).1]
          exact List.mem_append_left _ (List.mem_append_right _ List.mem_cons_self)
        | _ => exact ⟨hs.placed, hs.explained⟩
    exact ih _ hs' hstaffed' hall

/-- **One step** keeps the answers in order. -/
theorem step_returned (hnodup : σ.Nodup) {a : Act} (hs : Returned book h σ s)
    (hstaffed : Staffed σ s) (hstaffed' : Staffed σ (step book rank s a))
    (hturn : a.InTurn book h s)
    (hall : ∀ x ∈ (step book rank s a).answers,
      book.root (some x.1) = some h → book.wayBack x.1 = σ) :
    Returned book h σ (step book rank s a) := by
  cases a with
  | line a =>
    refine hears_returned hnodup _ { s with line := Line.step names rank s.line a }
      ⟨hs.placed, hs.explained⟩ (fun n hn => ?_) hall
    have hthere := hstaffed' n hn
    rw [workflow] at hthere ⊢
    rwa [step, (hears_eq book _ _).2.2] at hthere
  | answer i d =>
    simp only [step] at hall ⊢
    split at hall
    · next f hf =>
      refine answer_returned hnodup hs hstaffed fun hroot => hall (f, d) ?_ hroot
      rw [(answer_eq book f d s).1]
      exact List.mem_append_right _ List.mem_cons_self
    · exact hs
  | run i =>
    simp only [step]
    split
    · next post hpost =>
      exact settle_returned hnodup hs hstaffed hpost (hturn post hpost)
        (Or.inl ⟨rfl, rfl⟩)
    · exact hs
  | drop i =>
    simp only [step]
    split
    · next post hpost =>
      exact settle_returned hnodup hs hstaffed hpost (hturn post hpost)
        (Or.inr ⟨rfl, rfl⟩)
    · exact hs

/-- Nothing has been answered before the first step. -/
theorem returned_start (p : Line) : Returned book h σ { line := p } where
  placed := fun _ hp => absurd hp List.not_mem_nil
  explained := by
    have harriving : arriving book h σ { line := p } = [] := by
      simp [arriving, callsOf, backlogs, waits]
    rw [harriving]
    exact ⟨[], rfl, rfl, List.Perm.refl _, fun _ hx => absurd hx List.not_mem_nil⟩

/-- **A run** keeps the answers in order. -/
theorem run_returned (hnodup : σ.Nodup) (p : Line) (acts : List Act)
    (hstart : Staffed σ { line := p })
    (hturn : Along (step book rank)
      (fun s a => a.InTurn book h s ∧ Staffed σ (step book rank s a)) { line := p } acts)
    (hway : ∀ x ∈ (run (step book rank) { line := p } acts).answers,
      book.root (some x.1) = some h → book.wayBack x.1 = σ) :
    Returned book h σ (run (step book rank) { line := p } acts) ∧
      Staffed σ (run (step book rank) { line := p } acts) := by
  induction acts using List.reverseRecOn with
  | nil => exact ⟨returned_start p, hstart⟩
  | append_singleton acts a ih =>
    obtain ⟨hacts, ha, hstaffed'⟩ := (along_concat _ acts a).mp hturn
    rw [run_concat] at hway ⊢
    obtain ⟨hs, hstaffed⟩ := ih hacts fun x hx => hway x <| by
      rw [(step_noted rank _ a).1]
      exact List.mem_append_left _ hx
    exact ⟨step_returned hnodup hs hstaffed hstaffed' ha hway, hstaffed'⟩

/-- **Answers that come back the same way.** Let all answers for a handler of a source be given
    through lambdas that lead by the same queues, which have workflows for them all the time and
    take their posts in turn, each its own. Then in every run what the handler has been called with,
    and after it what still waits, from the last queue on the way back to the first, are the answers
    one for one and in the order in which they have been given: with their data, or `nullptr` if a
    post of theirs was dropped. The posts that were dropped are those of these answers; so without
    any, all answers come as they were given. These answers are all that the actions of the run
    give, and these posts all that they drop. -/
theorem returned (names : Names) (book : Book names) (rank : ℕ → ℕ) (h : Handler) (σ : List ℕ)
    (p : Line) (acts : List Act) (hnodup : σ.Nodup) (hstart : Staffed σ { line := p })
    (hturn : Along (step book rank)
      (fun s a => a.InTurn book h s ∧ Staffed σ (step book rank s a)) { line := p } acts)
    (hway : ∀ x ∈ (run (step book rank) { line := p } acts).answers,
      book.root (some x.1) = some h → book.wayBack x.1 = σ) :
    (∃ fates, Explain fates (answersOf book h (run (step book rank) { line := p } acts))
      (arriving book h σ (run (step book rank) { line := p } acts))
      (droppedOf book h (run (step book rank) { line := p } acts))) ∧
      (droppedOf book h (run (step book rank) { line := p } acts) = [] →
        arriving book h σ (run (step book rank) { line := p } acts) =
          answersOf book h (run (step book rank) { line := p } acts)) ∧
      Noted book rank p acts := by
  have hrun := (run_returned hnodup p acts hstart hturn hway).1
  obtain ⟨fates, hfates⟩ := hrun.explained
  refine ⟨⟨fates, hfates⟩, fun hnone => ?_, run_noted rank p acts⟩
  rw [hnone] at hfates
  exact hfates.comes_eq

/-- Two queues in front of an object outside. -/
def twoQueues : Line where
  node
    | 0 => .queue { target := some 1, callbackWorkflow := true }
    | 1 => .queue { target := some 2, callbackWorkflow := true }
    | _ => .leaf

/-- Three answers, the second of which is dropped by the first queue on the way back. -/
def threeAnswers : List Act :=
  [.line (.enter 0 (.performIo (some [1]) 7 (some 6))), .line (.run 0 0), .line (.run 1 0),
    .answer 0 (some [9]), .answer 0 (some [8]), .answer 0 (some [7]), .run 0, .run 2, .drop 0,
    .run 0]

/-- The first answer has come, and `nullptr` is before the third one; before the drop the three are
    as they were given. -/
theorem returned_threeAnswers :
    let s := run (step lambdaBook (2 - ·)) { line := twoQueues } threeAnswers
    let s' := run (step lambdaBook (2 - ·)) { line := twoQueues } (threeAnswers.take 8)
    (∃ fates, Explain fates (answersOf lambdaBook 6 s) (arriving lambdaBook 6 [1, 0] s)
        (droppedOf lambdaBook 6 s)) ∧
      arriving lambdaBook 6 [1, 0] s = [some [9], none, some [7]] ∧
      answersOf lambdaBook 6 s = [some [9], some [8], some [7]] ∧
      (droppedOf lambdaBook 6 s).map Post.d = [some [8]] ∧
      arriving lambdaBook 6 [1, 0] s' = answersOf lambdaBook 6 s' ∧
      Noted lambdaBook (2 - ·) twoQueues threeAnswers :=
  have hreturned := returned lambdas lambdaBook (2 - ·) 6 [1, 0] twoQueues threeAnswers (by decide)
    (by decide) (by decide +kernel) (by decide +kernel)
  have hbefore := returned lambdas lambdaBook (2 - ·) 6 [1, 0] twoQueues (threeAnswers.take 8)
    (by decide) (by decide) (by decide +kernel) (by decide +kernel)
  ⟨hreturned.1, by decide +kernel, by decide +kernel, by decide +kernel,
    hbefore.2.1 (by decide +kernel), hreturned.2.2⟩

end Dialogue

end WfcIo

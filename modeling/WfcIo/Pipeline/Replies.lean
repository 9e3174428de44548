import Mathlib.Data.Nat.Pairing
import WfcIo.Pipeline.Accounts

/-!
# Answers in a line

An object outside answers through the handler that it has been given, as often as it likes. The
handler may be a lambda of statistics or of a queue. That of statistics notes the size and calls
the handler it holds; that of a queue posts the call to the workflow of the answers, if there is
one, and calls the handler itself if not. So an answer goes back from lambda to lambda, and may
wait at every queue on the way. A workflow that drops a post calls the handler with `nullptr`, and
this answer goes on too.

A component that refuses a message calls its handler with `nullptr`, which is an answer like others.

## Main definitions

- `Book` — what the handlers are that components make
- `Dialogue` — a line, and the answers on their way back
- `Dialogue.follow` — a handler is called
- `Dialogue.gives`, `Dialogue.drops`, `Dialogue.Noted` — the answers that the actions give, and the
  posts that they drop
- `Dialogue.Balanced` — where the answers are

## Main results

- `Dialogue.balanced_run` — no answer is lost or given twice
- `Dialogue.answered` — and none comes to a handler that no message had
-/

namespace WfcIo

open Foundation

/-- A handler: one of a source, the lambda of the statistics `n`, or that of the queue `n`. -/
inductive Made
  | source
  | metered (n : ℕ) (handler : Option Handler) (meter : ℕ)
  | queued (n : ℕ) (handler : Handler)
  deriving DecidableEq

/-- What the numbers of handlers mean. A lambda is made after the handler that it holds. -/
structure Book (names : Names) where
  made : Handler → Made
  metered : ∀ n handler meter, made (names.metered n handler meter) = .metered n handler meter
  queued : ∀ n f, made (names.queued n f) = .queued n f
  lt_metered : ∀ f n g meter : ℕ, made f = .metered n (some g) meter → g < f
  lt_queued : ∀ f n g : ℕ, made f = .queued n g → g < f

namespace Book

variable {names : Names} (book : Book names)

/-- The handler of a source that `f` leads to, or an empty one. The fuel bounds the number of
    lambdas. -/
def rootAt : ℕ → Handler → Option Handler
  | 0, _ => none
  | k + 1, f =>
    match book.made f with
    | .source => some f
    | .metered _ handler _ => handler.bind (rootAt k)
    | .queued _ g => rootAt k g

/-- The handler of a source that a handler leads to. -/
def root (handler : Option Handler) : Option Handler :=
  handler.bind fun f => book.rootAt (f + 1) f

variable {book}

/-- More fuel makes no difference. -/
theorem rootAt_eq {k k' f : ℕ} (hk : f < k) (hk' : f < k') :
    book.rootAt k f = book.rootAt k' f := by
  induction k generalizing k' f with
  | zero => omega
  | succ k ih =>
    cases k' with
    | zero => omega
    | succ k' =>
      simp only [rootAt]
      cases hmade : book.made f with
      | source => rfl
      | metered n handler meter =>
        cases handler with
        | none => rfl
        | some g =>
          have hlt := book.lt_metered f n g meter hmade
          exact ih (by omega) (by omega)
      | queued n g =>
        have hlt := book.lt_queued f n g hmade
        exact ih (by omega) (by omega)

theorem rootAt_eq_root {k f : ℕ} (hk : f < k) :
    book.rootAt k f = book.root (some f) := rootAt_eq hk (Nat.lt_succ_self f)

theorem root_of_source {f : Handler} (h : book.made f = .source) :
    book.root (some f) = some f := by
  simp only [root, Option.bind_some, rootAt, h]

theorem root_of_metered {f : Handler} {n meter : ℕ} {handler : Option Handler}
    (h : book.made f = .metered n handler meter) : book.root (some f) = book.root handler := by
  simp only [root, Option.bind_some, rootAt, h]
  cases handler with
  | none => rfl
  | some g => exact rootAt_eq_root (book.lt_metered f n g meter h)

theorem root_of_queued {f : Handler} {n : ℕ} {g : Handler} (h : book.made f = .queued n g) :
    book.root (some f) = book.root (some g) := by
  simp only [root, Option.bind_some, rootAt, h]
  exact rootAt_eq_root (book.lt_queued f n g h)

/-- The lambdas lead to where the handlers lead that they hold. -/
theorem rooted (book : Book names) : Rooted names book.root where
  metered n handler meter := root_of_metered (book.metered n handler meter)
  queued n f := root_of_queued (book.queued n f)

end Book

namespace Dialogue

/-- What the two callables of the post of an answer hold, and the queue that has posted it. -/
structure Post where
  queue : ℕ
  handler : Handler
  d : DataPtr
  deriving DecidableEq

/-- The line does something, an object outside answers through the `i`-th of the handlers that it
    has been given, or a workflow of answers runs or drops the `i`-th pending post. -/
inductive Act
  | line (a : Line.Act)
  | answer (i : ℕ) (d : DataPtr)
  | run (i : ℕ)
  | drop (i : ℕ)
  deriving DecidableEq

end Dialogue

/-- A line with the answers. `given` are the handlers that objects outside have been given,
    `answers` the handlers that they, or components that refuse a message, have called, `calls` the
    calls of handlers of sources, or of empty ones, `dropped` the posts that have been dropped, and
    `sizes` what the meters of statistics have been told. -/
structure Dialogue where
  line : Line
  given : List (Option Handler) := []
  answers : List (Handler × DataPtr) := []
  posted : List Dialogue.Post := []
  dropped : List Dialogue.Post := []
  calls : List (Option Handler × DataPtr) := []
  sizes : List ((ℕ × ℕ) × ℕ) := []

namespace Dialogue

variable {names : Names} (book : Book names) (rank : ℕ → ℕ)

/-! ### Answers -/

/-- The queue `n` is there, and has a workflow for answers. -/
def workflow (n : ℕ) (s : Dialogue) : Bool :=
  match s.line.node n with
  | .queue q => q.alive && q.callbackWorkflow
  | _ => false

def callSource (handler : Option Handler) (d : DataPtr) (s : Dialogue) : Dialogue :=
  { s with calls := s.calls ++ [(handler, d)] }

def post (n : ℕ) (f : Handler) (d : DataPtr) (s : Dialogue) : Dialogue :=
  { s with posted := s.posted ++ [⟨n, f, d⟩] }

/-- The lambda of the statistics `n` tells its meter the size of the answer. -/
def measure (n meter : ℕ) (d : DataPtr) (s : Dialogue) : Dialogue :=
  { s with sizes := s.sizes ++ (d.map fun data => ((n, meter), data.length)).toList }

/-- The handler `f` is called. The fuel bounds the number of lambdas on the way. -/
def follow : ℕ → Handler → DataPtr → Dialogue → Dialogue
  | 0, _, _, s => s
  | k + 1, f, d, s =>
    match book.made f with
    | .source => s.callSource (some f) d
    | .metered n (some g) meter => follow k g d (s.measure n meter d)
    -- the lambda does not look whether it holds an empty handler
    | .metered n none meter => (s.measure n meter d).callSource none d
    | .queued n g => if s.workflow n then s.post n g d else follow k g d s

/-- Someone answers through the handler `f`. -/
def answer (f : Handler) (d : DataPtr) (s : Dialogue) : Dialogue :=
  follow book (f + 1) f d { s with answers := s.answers ++ [(f, d)] }

/-- What an event of the line means for the answers. -/
def hear (s : Dialogue) : Event → Dialogue
  | .ended _ m .taken => { s with given := s.given ++ [m.handler] }
  | .ended _ _ (.refused f) => s.answer book f none
  | _ => s

/-! ### Steps -/

def step (s : Dialogue) : Act → Dialogue
  | .line a =>
    let p := Line.step names rank s.line a
    p.shown.foldl (hear book) { s with line := p }
  | .answer i d =>
    match s.given[i]? with
    | some (some f) => s.answer book f d
    | _ => s
  | .run i =>
    match s.posted[i]? with
    | some post =>
      follow book (post.handler + 1) post.handler post.d
        { s with posted := s.posted.eraseIdx i }
    | none => s
  | .drop i =>
    match s.posted[i]? with
    | some post =>
      follow book (post.handler + 1) post.handler none
        { s with posted := s.posted.eraseIdx i, dropped := s.dropped ++ [post] }
    | none => s

/-! ### What the actions give and drop -/

/-- The answer of a component that refuses a message. -/
def refusal : Event → Option (Handler × DataPtr)
  | .ended _ _ (.refused f) => some (f, none)
  | _ => none

/-- The answers that an action gives: those of components that refuse a message, and those through
    handlers that objects outside have been given. What becomes of them is not asked here. -/
def gives (names : Names) (rank : ℕ → ℕ) (s : Dialogue) : Act → List (Handler × DataPtr)
  | .line a => (Line.step names rank s.line a).shown.filterMap refusal
  | .answer i d => (s.given[i]?.join.map (·, d)).toList
  | _ => []

/-- The post that an action drops. -/
def drops (s : Dialogue) : Act → List Post
  | .drop i => s.posted[i]?.toList
  | _ => []

/-- The answers of a run are those that its actions give, and the dropped posts those that they
    drop. -/
structure Noted (p : Line) (acts : List Act) : Prop where
  answers : (run (step book rank) { line := p } acts).answers =
    collected (step book rank) (gives names rank) { line := p } acts
  dropped : (run (step book rank) { line := p } acts).dropped =
    collected (step book rank) drops { line := p } acts

/-! ### Where the answers are -/

/-- An answer by the handler of the source that it is for. -/
abbrev Reply := Option Handler × DataPtr

/-- A post as the answer that it is. -/
def Post.reply (p : Post) : Reply := (book.root (some p.handler), p.d)

/-- The answers that have come to a handler of a source, and those that wait. -/
def arrived (s : Dialogue) : Multiset Reply :=
  ↑s.calls + ↑(s.posted.map (Post.reply book))

/-- The answers that have been given. -/
def replies (s : Dialogue) : Multiset Reply :=
  ↑(s.answers.map fun a => (book.root (some a.1), a.2))

/-- The answers are where they belong, but for those whose post was dropped: in their place there
    are answers with `nullptr`. -/
def Balanced (s : Dialogue) : Prop :=
  s.arrived book + ↑(s.dropped.map (Post.reply book)) =
    s.replies book + ↑(s.dropped.map fun p => ((book.root (some p.handler), none) : Reply))

variable {book} {s : Dialogue}

/-- A handler that is called: the answer has arrived, or waits. -/
theorem follow_spec (book : Book names) {k f : ℕ} (hk : f < k) (d : DataPtr) (s : Dialogue) :
    ∃ calls posted sizes, follow book k f d s = { s with calls, posted, sizes } ∧
      (follow book k f d s).arrived book = s.arrived book + {(book.root (some f), d)} := by
  induction k generalizing f s with
  | zero => omega
  | succ k ih =>
    have hcall : ∀ (handler : Option Handler) (s : Dialogue),
        (s.callSource handler d).arrived book = s.arrived book + {(handler, d)} := by
      intro handler s
      simp only [arrived, callSource, ← Multiset.coe_add, Multiset.coe_singleton]
      abel
    have hpost : ∀ (n : ℕ) (g : Handler),
        (s.post n g d).arrived book = s.arrived book + {(book.root (some g), d)} := by
      intro n g
      simp only [arrived, post, List.map_append, ← Multiset.coe_add, List.map_singleton,
        Multiset.coe_singleton, Post.reply]
      abel
    simp only [follow]
    cases hmade : book.made f with
    | source => exact ⟨_, _, _, rfl, by rw [Book.root_of_source hmade]; exact hcall _ s⟩
    | metered n handler meter =>
      rw [Book.root_of_metered hmade]
      cases handler with
      | none => exact ⟨_, _, _, rfl, hcall none _⟩
      | some g =>
        have hlt := book.lt_metered f n g meter hmade
        obtain ⟨calls, posted, sizes, heq, harrived⟩ :=
          ih (f := g) (by omega) (s.measure n meter d)
        exact ⟨calls, posted, sizes, heq, harrived⟩
    | queued n g =>
      rw [Book.root_of_queued hmade]
      simp only
      split
      · exact ⟨_, _, _, rfl, hpost n g⟩
      · have hlt := book.lt_queued f n g hmade
        exact ih (by omega) s

/-- An answer that is given arrives, or waits. -/
theorem answer_balanced (f : ℕ) (d : DataPtr) (h : s.Balanced book) :
    (s.answer book f d).Balanced book := by
  obtain ⟨calls, posted, sizes, heq, harrived⟩ := follow_spec book (Nat.lt_succ_self f) d
    { s with answers := s.answers ++ [(f, d)] }
  have hdropped : (s.answer book f d).dropped = s.dropped := by
    rw [answer, heq]
  have hreplies :
      (s.answer book f d).replies book = s.replies book + {(book.root (some f), d)} := by
    rw [answer, heq]
    simp only [replies, List.map_append, ← Multiset.coe_add, List.map_singleton,
      Multiset.coe_singleton]
  have hbefore : arrived book { s with answers := s.answers ++ [(f, d)] } = s.arrived book := rfl
  rw [Balanced, hdropped, hreplies, answer, harrived, hbefore]
  rw [Balanced] at h
  calc s.arrived book + {(book.root (some f), d)} + ↑(s.dropped.map (Post.reply book))
      = s.arrived book + ↑(s.dropped.map (Post.reply book)) + {(book.root (some f), d)} := by abel
    _ = _ := by
      rw [h]
      abel

/-! ### What is noted -/

/-- A handler that is called notes nothing down. -/
theorem follow_eq (book : Book names) (f : Handler) (d : DataPtr) (s : Dialogue) :
    (follow book (f + 1) f d s).answers = s.answers ∧
      (follow book (f + 1) f d s).dropped = s.dropped ∧
      (follow book (f + 1) f d s).line = s.line := by
  obtain ⟨calls, posted, sizes, heq, _⟩ := follow_spec book (Nat.lt_succ_self f) d s
  rw [heq]
  exact ⟨rfl, rfl, rfl⟩

theorem answer_eq (book : Book names) (f : Handler) (d : DataPtr) (s : Dialogue) :
    (s.answer book f d).answers = s.answers ++ [(f, d)] ∧
      (s.answer book f d).dropped = s.dropped ∧ (s.answer book f d).line = s.line :=
  follow_eq book f d { s with answers := s.answers ++ [(f, d)] }

theorem hear_eq (book : Book names) (e : Event) (s : Dialogue) :
    (s.hear book e).answers = s.answers ++ (refusal e).toList ∧
      (s.hear book e).dropped = s.dropped ∧ (s.hear book e).line = s.line := by
  cases e with
  | called n c => exact ⟨(List.append_nil _).symm, rfl, rfl⟩
  | ended n m k =>
    cases k with
    | refused f => exact answer_eq book f none s
    | _ => exact ⟨(List.append_nil _).symm, rfl, rfl⟩

theorem hears_eq (book : Book names) (events : List Event) (s : Dialogue) :
    (events.foldl (hear book) s).answers = s.answers ++ events.filterMap refusal ∧
      (events.foldl (hear book) s).dropped = s.dropped ∧
      (events.foldl (hear book) s).line = s.line := by
  induction events generalizing s with
  | nil => exact ⟨(List.append_nil _).symm, rfl, rfl⟩
  | cons e events ih =>
    obtain ⟨hanswers, hdropped, hline⟩ := hear_eq book e s
    obtain ⟨hanswers', hdropped', hline'⟩ := ih (s.hear book e)
    refine ⟨?_, hdropped'.trans hdropped, hline'.trans hline⟩
    rw [List.foldl_cons, hanswers', hanswers, List.append_assoc, List.filterMap_cons]
    cases refusal e <;> rfl

/-- **One step** notes what its action gives and drops. -/
theorem step_noted (s : Dialogue) (a : Act) :
    (step book rank s a).answers = s.answers ++ gives names rank s a ∧
      (step book rank s a).dropped = s.dropped ++ drops s a := by
  cases a with
  | line a =>
    obtain ⟨hanswers, hdropped, _⟩ := hears_eq book
      (Line.step names rank s.line a).shown { s with line := Line.step names rank s.line a }
    exact ⟨hanswers, hdropped.trans (List.append_nil _).symm⟩
  | answer i d =>
    simp only [step, gives]
    match s.given[i]? with
    | none => exact ⟨(List.append_nil _).symm, (List.append_nil _).symm⟩
    | some none => exact ⟨(List.append_nil _).symm, (List.append_nil _).symm⟩
    | some (some f) =>
      obtain ⟨hanswers, hdropped, _⟩ := answer_eq book f d s
      exact ⟨hanswers, hdropped.trans (List.append_nil _).symm⟩
  | run i =>
    simp only [step]
    cases s.posted[i]? with
    | none => exact ⟨(List.append_nil _).symm, (List.append_nil _).symm⟩
    | some post =>
      obtain ⟨hanswers, hdropped, _⟩ := follow_eq book post.handler post.d
        { s with posted := s.posted.eraseIdx i }
      exact ⟨hanswers.trans (List.append_nil _).symm, hdropped.trans (List.append_nil _).symm⟩
  | drop i =>
    simp only [step, drops]
    cases s.posted[i]? with
    | none => exact ⟨(List.append_nil _).symm, (List.append_nil _).symm⟩
    | some post =>
      obtain ⟨hanswers, hdropped, _⟩ := follow_eq book post.handler none
        { s with posted := s.posted.eraseIdx i, dropped := s.dropped ++ [post] }
      exact ⟨hanswers.trans (List.append_nil _).symm, hdropped⟩

theorem run_noted (p : Line) (acts : List Act) : Noted book rank p acts where
  answers := run_collected (fun s a => (step_noted rank s a).1) { line := p } acts
  dropped := run_collected (fun s a => (step_noted rank s a).2) { line := p } acts

/-! ### No answer is lost -/

/-- A post that is taken from those that wait. -/
theorem arrived_eraseIdx (book : Book names) {i : ℕ} {post : Post} (h : s.posted[i]? = some post) :
    arrived book { s with posted := s.posted.eraseIdx i } + {post.reply book} =
      s.arrived book := by
  obtain ⟨hlt, hget⟩ := List.getElem?_eq_some_iff.mp h
  have hperm := (List.getElem_cons_eraseIdx_perm hlt).map (Post.reply book)
  rw [hget, List.map_cons] at hperm
  have hcoe :
      ({post.reply book} + ↑((s.posted.eraseIdx i).map (Post.reply book)) : Multiset Reply) =
        ↑(s.posted.map (Post.reply book)) := Multiset.coe_eq_coe.mpr hperm
  simp only [arrived]
  rw [← hcoe]
  abel

theorem hear_balanced (e : Event) (h : s.Balanced book) : (s.hear book e).Balanced book := by
  cases e with
  | called n c => exact h
  | ended n m k =>
    cases k with
    | refused f => exact answer_balanced f none h
    | _ => exact h

/-- **One step** loses no answer, and gives none twice. -/
theorem step_balanced (a : Act) (h : s.Balanced book) : (step book rank s a).Balanced book := by
  cases a with
  | line a =>
    exact List.foldlRecOn (motive := Balanced book) _ _ h fun _ hs e _ => hear_balanced e hs
  | answer i d =>
    simp only [step]
    split
    · next f _ => exact answer_balanced f d h
    · exact h
  | run i =>
    simp only [step]
    split
    · next post hpost =>
      obtain ⟨calls, posted, sizes, heq, harrived⟩ := follow_spec book
        (Nat.lt_succ_self post.handler) post.d { s with posted := s.posted.eraseIdx i }
      have hsame : (follow book (post.handler + 1) post.handler post.d
          { s with posted := s.posted.eraseIdx i }).arrived book = s.arrived book := by
        rw [harrived]
        exact arrived_eraseIdx book hpost
      rw [heq] at hsame ⊢
      rw [Balanced, hsame]
      exact h
    · exact h
  | drop i =>
    simp only [step]
    split
    · next post hpost =>
      let rest : Dialogue :=
        { s with posted := s.posted.eraseIdx i, dropped := s.dropped ++ [post] }
      obtain ⟨calls, posted, sizes, heq, harrived⟩ :=
        follow_spec book (Nat.lt_succ_self post.handler) none rest
      have hrest : rest.arrived book + {post.reply book} = s.arrived book :=
        arrived_eraseIdx book hpost
      have hsame : (follow book (post.handler + 1) post.handler none rest).dropped = rest.dropped ∧
          (follow book (post.handler + 1) post.handler none rest).replies book =
            s.replies book := by
        rw [heq]
        exact ⟨rfl, rfl⟩
      rw [Balanced, hsame.1, hsame.2, harrived]
      simp only [rest, List.map_append, ← Multiset.coe_add, List.map_singleton,
        Multiset.coe_singleton]
      rw [Balanced, ← hrest] at h
      calc rest.arrived book + {(book.root (some post.handler), none)} +
            (↑(s.dropped.map (Post.reply book)) + {post.reply book})
          = rest.arrived book + {post.reply book} + ↑(s.dropped.map (Post.reply book)) +
              {(book.root (some post.handler), none)} := by abel
        _ = _ := by
          rw [h]
          abel
    · exact h

/-- **No answer is lost or given twice**, whatever the line does, and whatever the workflows do with
    the posts. -/
theorem balanced_run (p : Line) (acts : List Act) :
    (run (step book rank) { line := p } acts).Balanced book :=
  run_invariant (I := Balanced book) (fun _ a h => step_balanced rank a h)
    (show Balanced book { line := p } from rfl) acts

/-! ### Whom the answers are for -/

/-- What the line does in a run. -/
def Act.inLine : Act → Option Line.Act
  | .line a => some a
  | _ => none

/-- The answers that have arrived or wait, and those that may still be given, are for `R`. -/
structure Known (book : Book names) (R : Option Handler → Prop) (s : Dialogue) : Prop where
  given : ∀ h ∈ s.given, R (book.root h)
  arrived : ∀ r ∈ s.arrived book, R r.1

/-- What is refused is refused through the handler of the message. -/
def Honest : Event → Prop
  | .ended _ m (.refused f) => m.handler = some f
  | _ => True

variable {R : Option Handler → Prop}

theorem follow_known {f : ℕ} {d : DataPtr} (h : Known book R s) (hf : R (book.root (some f))) :
    Known book R (follow book (f + 1) f d s) := by
  obtain ⟨calls, posted, sizes, heq, harrived⟩ :=
    follow_spec book (Nat.lt_succ_self f) d s
  refine ⟨?_, fun r hr => ?_⟩
  · rw [heq]
    exact h.given
  · rw [harrived, Multiset.mem_add, Multiset.mem_singleton] at hr
    obtain hr | rfl := hr
    · exact h.arrived r hr
    · exact hf

/-- What is posted is known. -/
theorem Known.of_posted (h : Known book R s) {i : ℕ} {post : Post}
    (hpost : s.posted[i]? = some post) :
    Known book R { s with posted := s.posted.eraseIdx i } ∧ R (book.root (some post.handler)) := by
  have harrived := arrived_eraseIdx book hpost
  refine ⟨⟨h.given, fun r hr => h.arrived r ?_⟩, h.arrived (post.reply book) ?_⟩
  · rw [← harrived]
    exact Multiset.mem_add.mpr (Or.inl hr)
  · rw [← harrived]
    exact Multiset.mem_add.mpr (Or.inr (Multiset.mem_singleton_self _))

theorem hear_known {e : Event} (h : Known book R s) (hhonest : Honest e)
    (he : ∀ n m k, e = .ended n m k → R (book.root m.handler)) : Known book R (s.hear book e) := by
  cases e with
  | called n c => exact h
  | ended n m k =>
    have hm := he n m k rfl
    cases k with
    | taken =>
      refine ⟨fun x hx => ?_, h.arrived⟩
      obtain hx | hx := List.mem_append.mp hx
      · exact h.given x hx
      · rw [List.mem_singleton.mp hx]
        exact hm
    | refused f =>
      have hf : m.handler = some f := hhonest
      rw [hf] at hm
      exact follow_known ⟨h.given, h.arrived⟩ hm
    | _ => exact h

theorem hear_all_known {events : List Event} (h : Known book R s)
    (he : ∀ e ∈ events, Honest e ∧ ∀ n m k, e = .ended n m k → R (book.root m.handler)) :
    Known book R (events.foldl (hear book) s) :=
  List.foldlRecOn (motive := Known book R) _ _ h fun _ hs e hmem =>
    hear_known hs (he e hmem).1 (he e hmem).2

/-- What the line shows of an action: a message is refused through its own handler. -/
theorem honest_line (p : Line) (a : Line.Act) :
    ∀ e ∈ (Line.step names rank p a).shown, Honest e := by
  intro e he
  have hexcused := Line.excused names rank p a e he
  cases e with
  | called n c => trivial
  | ended n m k =>
    cases k with
    | refused f =>
      obtain hends | ⟨q, i, post, _, _, _, ⟨_, hruns⟩ | ⟨_, hdrops⟩⟩ := hexcused
      · exact Stage.handler_of_refused hends
      · exact hruns.1
      · exact hdrops
    | _ => trivial

/-- A message that has entered, as a parcel. -/
theorem mem_entered {root : Option Handler → Option Handler} {x : Parcel} {acts : List Line.Act}
    (hx : x ∈ Line.entered root acts) :
    ∃ n d id h, .enter n (.performIo d id h) ∈ acts ∧ x = (d, id, root h) := by
  induction acts with
  | nil => exact absurd hx (Multiset.notMem_zero x)
  | cons a acts ih =>
    rw [Line.entered, List.map_cons, List.sum_cons, Multiset.mem_add] at hx
    obtain hx | hx := hx
    · cases a with
      | enter n c =>
        cases c with
        | performIo d id h =>
          exact ⟨n, d, id, h, List.mem_cons_self, Multiset.mem_singleton.mp hx⟩
        | regIo id itf => exact absurd hx (Multiset.notMem_zero x)
        | unregIo id => exact absurd hx (Multiset.notMem_zero x)
      | _ => exact absurd hx (Multiset.notMem_zero x)
    · obtain ⟨n, d, id, h, hmem, heq⟩ := ih hx
      exact ⟨n, d, id, h, List.mem_cons_of_mem _ hmem, heq⟩

/-- A message that has come to an end, as a parcel. -/
theorem mem_ended {root : Option Handler → Option Handler} {n : ℕ} {m : Message} {k : Ending}
    {events : List Event} (h : .ended n m k ∈ events) : parcel root m ∈ Line.ended root events := by
  induction events with
  | nil => cases h
  | cons e events ih =>
    rw [Line.ended, List.map_cons, List.sum_cons, Multiset.mem_add]
    obtain rfl | h := List.mem_cons.mp h
    · exact Or.inl (Multiset.mem_singleton_self _)
    · exact Or.inr (ih h)

/-- The line does what the actions say that are about it. -/
theorem run_line (book : Book names) (p : Line) (acts : List Act) :
    (run (step book rank) { line := p } acts).line =
      run (Line.step names rank) p (acts.filterMap Act.inLine) := by
  have hfollow : ∀ (f : ℕ) (d : DataPtr) (s : Dialogue),
      (follow book (f + 1) f d s).line = s.line := by
    intro f d s
    obtain ⟨_, _, _, heq, _⟩ := follow_spec book (Nat.lt_succ_self f) d s
    rw [heq]
  have hhear : ∀ (e : Event) (s : Dialogue), (hear book s e).line = s.line := by
    intro e s
    cases e with
    | called n c => rfl
    | ended n m k =>
      cases k with
      | refused f => exact hfollow f none _
      | _ => rfl
  induction acts using List.reverseRecOn with
  | nil => rfl
  | append_singleton acts a ih =>
    rw [run_concat, List.filterMap_append]
    cases a with
    | line b =>
      rw [List.filterMap_cons_some (by rfl), List.filterMap_nil, run_concat, ← ih]
      exact List.foldlRecOn (motive := fun s' : Dialogue => s'.line = _) _ _ rfl
        fun s' hs' e _ => (hhear e s').trans hs'
    | answer i d =>
      rw [List.filterMap_cons_none rfl, List.filterMap_nil, List.append_nil, ← ih]
      simp only [step]
      split
      · exact hfollow _ d _
      · rfl
    | run i =>
      rw [List.filterMap_cons_none rfl, List.filterMap_nil, List.append_nil, ← ih]
      simp only [step]
      split
      · exact hfollow _ _ _
      · rfl
    | drop i =>
      rw [List.filterMap_cons_none rfl, List.filterMap_nil, List.append_nil, ← ih]
      simp only [step]
      split
      · exact hfollow _ none _
      · rfl

/-- A message has entered the line with a handler that leads to `handler`. -/
def Entered (book : Book names) (acts : List Act) (handler : Option Handler) : Prop :=
  ∃ n d id h, .line (.enter n (.performIo d id h)) ∈ acts ∧ book.root h = handler

/-- What comes to an end in the line has entered it. -/
theorem entered_of_ended {rank : ℕ → ℕ} {nodes : Finset ℕ} {p : Line} {acts : List Act}
    (hacyclic : p.Acyclic rank) (hclosed : Closed Stage.links nodes p)
    (hempty : p.held book.root nodes = 0)
    (hacts : ∀ a ∈ acts.filterMap Act.inLine, a.Within nodes) {n : ℕ} {m : Message} {k : Ending}
    (h : .ended n m k ∈ p.events names rank (acts.filterMap Act.inLine)) :
    Entered book acts (book.root m.handler) := by
  have haccount := Line.run_accounted names book.rooted hacyclic hclosed _ hacts
  rw [hempty, zero_add] at haccount
  have hmem : parcel book.root m ∈ Line.entered book.root (acts.filterMap Act.inLine) := by
    rw [← haccount]
    exact Multiset.mem_add.mpr (Or.inr (mem_ended h))
  obtain ⟨n, d, id, h, henter, heq⟩ := mem_entered hmem
  obtain ⟨a, ha, hline⟩ := List.mem_filterMap.mp henter
  cases a with
  | line b =>
    obtain rfl := Option.some.inj hline
    exact ⟨n, d, id, h, ha, (congrArg (fun x : Parcel => x.2.2) heq).symm⟩
  | _ => cases hline

theorem Entered.mono {acts acts' : List Act} {handler : Option Handler}
    (h : Entered book acts handler) (hacts : ∀ a ∈ acts, a ∈ acts') :
    Entered book acts' handler := by
  obtain ⟨n, d, id, h, hmem, heq⟩ := h
  exact ⟨n, d, id, h, hacts _ hmem, heq⟩

/-- What comes to an end in a step of the line has entered it. -/
theorem entered_of_step {rank : ℕ → ℕ} {nodes : Finset ℕ} {p : Line} {pre : List Act}
    {b : Line.Act} (hacyclic : p.Acyclic rank) (hclosed : Closed Stage.links nodes p)
    (hempty : p.held book.root nodes = 0)
    (hacts : ∀ a ∈ (pre ++ [Act.line b]).filterMap Act.inLine, a.Within nodes) {n : ℕ} {m : Message}
    {k : Ending}
    (h : .ended n m k ∈
      (Line.step names rank (run (step book rank) { line := p } pre).line b).shown) :
    Entered book (pre ++ [Act.line b]) (book.root m.handler) := by
  refine entered_of_ended hacyclic hclosed hempty hacts (k := k) (n := n) ?_
  have hevents : p.events names rank ((pre ++ [Act.line b]).filterMap Act.inLine) =
      p.events names rank (pre.filterMap Act.inLine) ++
        (Line.step names rank (run (step book rank) { line := p } pre).line b).shown := by
    rw [run_line, List.filterMap_append]
    exact Line.events_concat p _ b
  rw [hevents]
  exact List.mem_append_right _ h

/-- **Answers.** In every run of a line with the answers on their way back, where objects outside
    answer through the handlers they have been given as often as they like, and workflows run and
    drop posts in any order: each answer has led to one call of the handler of a source, or waits,
    and is for the handler that it leads to; if no post is dropped it comes with the data that it
    was given with, and with `nullptr` otherwise. And these handlers are those of messages. The
    answers are all that the actions of the run give, and the posts all that they drop. -/
theorem answered (names : Names) (book : Book names) (rank : ℕ → ℕ) (nodes : Finset ℕ) (p : Line)
    (acts : List Act) (hacyclic : p.Acyclic rank) (hclosed : Closed Stage.links nodes p)
    (hempty : p.held book.root nodes = 0)
    (hacts : ∀ a ∈ acts.filterMap Act.inLine, a.Within nodes) :
    (run (step book rank) { line := p } acts).Balanced book ∧
      (∀ r ∈ (run (step book rank) { line := p } acts).arrived book, Entered book acts r.1) ∧
      Noted book rank p acts := by
  refine ⟨balanced_run rank p acts, ?_, run_noted rank p acts⟩
  suffices hknown : ∀ pre, pre <+: acts →
      Known book (Entered book acts) (run (step book rank) { line := p } pre) from
    (hknown acts (List.prefix_refl acts)).arrived
  intro pre hpre
  induction pre using List.reverseRecOn with
  | nil => exact ⟨fun h hh => (by cases hh), fun r hr => absurd hr (Multiset.notMem_zero r)⟩
  | append_singleton pre a ih =>
    have hih := ih ((List.prefix_append pre [a]).trans hpre)
    rw [run_concat]
    cases a with
    | line b =>
      have hprefix : pre ++ [Act.line b] <+: acts := hpre
      have hwithin : ∀ a ∈ (pre ++ [Act.line b]).filterMap Act.inLine, a.Within nodes := by
        intro a ha
        obtain ⟨c, hc, hca⟩ := List.mem_filterMap.mp ha
        exact hacts a (List.mem_filterMap.mpr ⟨c, hprefix.subset hc, hca⟩)
      refine hear_all_known ⟨hih.given, hih.arrived⟩ fun e he => ⟨honest_line rank _ b e he, ?_⟩
      rintro n m k rfl
      exact (entered_of_step hacyclic hclosed hempty hwithin he).mono
        fun a ha => hprefix.subset ha
    | answer i d =>
      simp only [step]
      split
      · next f hf =>
        refine follow_known ⟨hih.given, hih.arrived⟩ (hih.given (some f) ?_)
        exact List.mem_of_getElem? hf
      · exact hih
    | run i =>
      simp only [step]
      split
      · next post hpost =>
        obtain ⟨hknown, hroot⟩ := hih.of_posted hpost
        exact follow_known hknown hroot
      · exact hih
    | drop i =>
      simp only [step]
      split
      · next post hpost =>
        obtain ⟨hknown, hroot⟩ := hih.of_posted hpost
        exact follow_known ⟨hknown.given, hknown.arrived⟩ hroot
      · exact hih

/-- Numbers for lambdas: what they hold, paired, and the kind of the handler in the remainder. -/
def lambdas : Names :=
  ⟨fun n handler meter => 3 * Nat.pair n (Nat.pair meter (handler.elim 0 Nat.succ)) + 1,
    fun n f => 3 * Nat.pair n f + 2⟩

/-- What a number means. -/
def lambdaMade (f : ℕ) : Made :=
  let held := Nat.unpair (Nat.unpair (f / 3)).2
  if f % 3 = 0 then .source
  else if f % 3 = 1 then
    .metered (Nat.unpair (f / 3)).1 (if held.2 = 0 then none else some (held.2 - 1)) held.1
  else .queued (Nat.unpair (f / 3)).1 (Nat.unpair (f / 3)).2

theorem lambdaMade_metered (n : ℕ) (handler : Option Handler) (meter : ℕ) :
    lambdaMade (lambdas.metered n handler meter) = .metered n handler meter := by
  have hmod : ∀ i : ℕ, (3 * i + 1) % 3 = 1 := by omega
  have hdiv : ∀ i : ℕ, (3 * i + 1) / 3 = i := by omega
  simp only [lambdaMade, lambdas, hmod, hdiv, Nat.unpair_pair]
  cases handler <;> rfl

theorem lambdaMade_queued (n f : ℕ) : lambdaMade (lambdas.queued n f) = .queued n f := by
  have hmod : ∀ i : ℕ, (3 * i + 2) % 3 = 2 := by omega
  have hdiv : ∀ i : ℕ, (3 * i + 2) / 3 = i := by omega
  simp only [lambdaMade, lambdas, hmod, hdiv, Nat.unpair_pair]
  rfl

def lambdaBook : Book lambdas where
  made := lambdaMade
  metered := lambdaMade_metered
  queued := lambdaMade_queued
  lt_metered f n g meter h := by
    have hle := Nat.unpair_right_le (Nat.unpair (f / 3)).2
    have hle' := Nat.unpair_right_le (f / 3)
    simp only [lambdaMade] at h
    split at h
    · cases h
    · split at h
      · split at h
        · cases h
        · cases h
          omega
      · cases h
  lt_queued f n g h := by
    have hle := Nat.unpair_right_le (f / 3)
    simp only [lambdaMade] at h
    split at h
    · cases h
    · split at h
      · cases h
      · cases h
        omega

/-- The leaf answers twice, and one of the answers is dropped. -/
def twoAnswers : List Act :=
  [.line (.enter 0 (.performIo (some [1]) 7 (some 6))), .line (.run 2 0), .answer 0 (some [9]),
    .answer 0 (some [8]), .run 0, .drop 0]

theorem answered_twoAnswers :
    (run (step lambdaBook (3 - ·)) { line := Line.threeStages } twoAnswers).Balanced lambdaBook ∧
      Noted lambdaBook (3 - ·) Line.threeStages twoAnswers ∧
      (run (step lambdaBook (3 - ·)) { line := Line.threeStages } twoAnswers).calls =
        [(some 6, some [9]), (some 6, none)] :=
  have hanswered := answered lambdas lambdaBook (3 - ·) (Finset.range 4) Line.threeStages twoAnswers
    Line.acyclic_threeStages Line.closed_threeStages (by decide) (by decide)
  ⟨hanswered.1, hanswered.2.2, by decide +kernel⟩

end Dialogue

end WfcIo

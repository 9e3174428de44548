import WfcIo.Pipeline.Accounts

/-!
# Lines come to rest

A message that waits in a queue may wait again in each object below, but nowhere twice. So a line
has a bounded number of posts to settle, and with every message that enters it gets no more of them
than there are objects on the way down from its entry. Whatever the workflows choose to run or drop,
and in whatever order, a line that gets no more messages comes to rest.

## Main definitions

- `cost` — how many posts a call may lead to
- `Line.work` — how many posts a line has to settle at most
- `Line.settles` — an action settles a post

## Main results

- `Stage.pays` — no stage makes more work than a call is worth
- `Line.drained` — in a run, the posts that are settled and those that are left
-/

namespace WfcIo

open Foundation

/-- How many posts a call may lead to: a message one in every object on its way down. -/
def cost (rank : ℕ → ℕ) : ℕ × SourceCall → ℕ
  | (n, .performIo _ _ _) => rank n + 1
  | _ => 0

namespace Stage

/-- The posts that wait. -/
def posts : Stage → ℕ
  | .queue q => q.pending.length
  | _ => 0

/-- The posts that those of the object `n` may lead to, themselves among them. -/
def work (rank : ℕ → ℕ) (n : ℕ) (k : Stage) : ℕ := k.posts * (rank n + 1)

variable {rank : ℕ → ℕ} {n : ℕ}

/-- Calls of objects further down, one at most, cost less than a call of the object. -/
theorem sum_cost_le {sends : List (ℕ × SourceCall)} (hlength : sends.length ≤ 1)
    (hlower : ∀ c ∈ sends, rank c.1 < rank n) : (sends.map (cost rank)).sum ≤ rank n := by
  cases sends with
  | nil => exact Nat.zero_le _
  | cons c rest =>
    obtain rfl : rest = [] := List.eq_nil_of_length_eq_zero (by simpa using hlength)
    have hlt := hlower c List.mem_cons_self
    obtain ⟨j, c⟩ := c
    rw [List.map_singleton, List.sum_singleton]
    cases c with
    | performIo d id handler => exact hlt
    | regIo id itf => exact Nat.zero_le _
    | unregIo id => exact Nat.zero_le _

/-- A word about a registration costs nothing. -/
theorem sum_cost_of_uses (names : Names) (n : ℕ) {c : SourceCall} (hc : c.uses = none)
    (k : Stage) : ((call names n c k).sends.map (cost rank)).sum = 0 := by
  refine List.sum_eq_zero fun x hx => ?_
  obtain ⟨c', hc', rfl⟩ := List.mem_map.mp hx
  have huses : c'.2.uses = none := by
    rw [← uses_sketch, (mem_sends hc').2, uses_sketch, hc]
  obtain ⟨j, c'⟩ := c'
  cases c' with
  | performIo d id handler => cases huses
  | regIo id itf => rfl
  | unregIo id => rfl

/-- **Stages.** The posts that a stage makes and those that it may lead to are no more than the
    call is worth. -/
theorem pays (names : Names) (rank : ℕ → ℕ) :
    Pays (call names) links rank (work rank) (cost rank) := by
  intro n c k hlinks
  have hsends : ∀ c' ∈ (call names n c k).sends, rank c'.1 < rank n := fun c' hc' =>
    hlinks c'.1 (mem_receivers (mem_sends hc').1)
  cases huses : c.uses with
  | none =>
    have hposts : (call names n c k).state.posts = k.posts := by
      cases k with
      | queue q => simp only [call, posts, queue_held_of_uses huses]
      | _ => rfl
    rw [sum_cost_of_uses names n huses, work, hposts, add_zero]
    exact Nat.le_add_right _ _
  | some id =>
    have hsum := sum_cost_le (length_sends_le (huses ▸ Option.some_ne_none id) names n k) hsends
    have hpassed : (call names n c k).state.posts = k.posts →
        work rank n (call names n c k).state + ((call names n c k).sends.map (cost rank)).sum ≤
          work rank n k + (rank n + 1) := by
      intro hposts
      rw [work, hposts]
      exact Nat.add_le_add_left (hsum.trans (Nat.le_succ _)) _
    cases c with
    | regIo id itf => cases huses
    | unregIo id => cases huses
    | performIo d id handler =>
      cases k with
      | broker b => exact hpassed rfl
      | statistics s => exact hpassed rfl
      | leaf => exact hpassed rfl
      | queue q =>
        have hcalls : (Queue.step q (.performIo ⟨d, id, handler⟩)).calls = [] :=
          queue_performIo_calls q ⟨d, id, handler⟩
        obtain ⟨hpending, _⟩ | ⟨_, hpending, hnone⟩ :=
          queue_makes_wait names n ⟨d, id, handler⟩ q
        · exact hpassed (congrArg List.length hpending)
        · -- one post more, and nothing is passed on
          have hsends : (call names n (.performIo d id handler) (.queue q)).sends = [] := by
            show (Queue.step q (.performIo ⟨d, id, handler⟩)).calls ++ _ = []
            rw [hcalls]
            exact hnone
          have hposts : (call names n (.performIo d id handler) (.queue q)).state.posts =
              q.pending.length + 1 := by
            show (Queue.step q (.performIo ⟨d, id, handler⟩)).pending.length = _
            rw [hpending, List.length_append, List.length_singleton]
          rw [hsends, work, hposts, List.map_nil, List.sum_nil, add_zero, Nat.succ_mul]
          exact le_rfl

/-- No post waits if there is no work. -/
theorem work_eq_zero_iff {k : Stage} : work rank n k = 0 ↔ ∀ i, k.post i = none := by
  rw [work, Nat.mul_eq_zero, or_iff_left (Nat.succ_ne_zero _)]
  cases k with
  | queue q =>
    rw [posts, List.length_eq_zero_iff]
    refine ⟨fun h i => by rw [post, h, List.getElem?_nil], fun h => ?_⟩
    exact List.eq_nil_iff_forall_not_mem.mpr fun post hpost => by
      obtain ⟨i, hi⟩ := List.mem_iff_getElem?.mp hpost
      exact Option.some_ne_none post (hi.symm.trans (h i))
  | _ => exact ⟨fun _ _ => rfl, fun _ => rfl⟩

end Stage

namespace Line

/-- How many posts the line has to settle at most, at the objects of `s`. -/
def work (rank : ℕ → ℕ) (s : Finset ℕ) (p : Line) : ℕ := potential (Stage.work rank) s p

/-- How many posts the call may lead to that enters. -/
def Act.cost (rank : ℕ → ℕ) : Act → ℕ
  | .enter n c => WfcIo.cost rank (n, c)
  | _ => 0

/-- The workflow runs or drops a post that is there. -/
def settles (p : Line) : Act → Bool
  | .run n k => ((p.node n).post k).isSome
  | .drop n k => ((p.node n).post k).isSome
  | _ => false

variable {names : Names} {rank : ℕ → ℕ} {s : Finset ℕ} {p : Line} {a : Act}

theorem work_congr {p' : Line} (h : ∀ n, (p'.node n).posts = (p.node n).posts) :
    work rank s p' = work rank s p :=
  Finset.sum_congr rfl fun n _ => by rw [Stage.work, Stage.work, h n]

theorem work_eq_zero_iff :
    work rank s p = 0 ↔ ∀ n ∈ s, ∀ k, (p.node n).post k = none := by
  rw [work, potential, Finset.sum_eq_zero_iff]
  exact forall₂_congr fun n _ => Stage.work_eq_zero_iff

/-- The state of one stage changes, but not what waits in it. -/
theorem work_update {n : ℕ} {k : Stage} (hk : k.posts = (p.node n).posts) (shown : List Event) :
    work rank s { node := Function.update p.node n k, shown } = work rank s p := by
  refine work_congr fun j => ?_
  show (Function.update p.node n k j).posts = (p.node j).posts
  by_cases hj : j = n
  · subst hj
    rw [Function.update_self, hk]
  · rw [Function.update_of_ne hj]

/-- A post that is settled, and all that it might have led to. -/
theorem settle_work (rank : ℕ → ℕ) {n k : ℕ} (hn : n ∈ s) {a : Queue.Act}
    (ha : a = .run k ∨ a = .drop k) {post : Queue.Task}
    (hpost : (p.node n).post k = some post) :
    work rank s (p.settle n k a) + (rank n + 1) = work rank s p := by
  obtain ⟨q, hq, hget⟩ := Stage.post_eq_some_iff.mp hpost
  have hpending : (Queue.step q a).pending = q.pending.eraseIdx k := by
    have hquiet : q.quiet.pending[k]? = some post := hget
    obtain rfl | rfl := ha
    all_goals
      simp only [Queue.step, Queue.exec, hquiet]
      rfl
  obtain ⟨hlt, _⟩ := List.getElem?_eq_some_iff.mp hget
  have hlength : (Queue.step q a).pending.length + 1 = q.pending.length := by
    rw [hpending, List.length_eraseIdx_of_lt hlt]
    omega
  have hstage : Stage.work rank n (.queue (Queue.step q a)) + (rank n + 1) =
      Stage.work rank n (.queue q) := by
    rw [Stage.work, Stage.work, Stage.posts, Stage.posts, ← hlength, Nat.succ_mul]
  simp only [settle, hq, hget]
  have hupdate := potential_update (Stage.work rank) p hn (.queue (Queue.step q a))
    (p.shown ++ (ending ((Queue.step q a).outcomes.map Prod.snd).head?).toList.map
      (.ended n post.request))
  rw [hq] at hupdate
  rw [work, work]
  omega

/-- What the task of a post hands on is worth no more than the objects below. -/
theorem sum_cost_handed (names : Names) (hacyclic : Acyclic rank p) (n k : ℕ) :
    ((p.handed names n k).map (cost rank)).sum ≤ rank n := by
  refine Stage.sum_cost_le ?_ fun c hc =>
    hacyclic n c.1 (mem_posted_links (mem_posted_of_handed hc))
  have hlength := congrArg List.length (handed_eq names n k p)
  rw [List.length_map] at hlength
  rw [hlength]
  simp only [posted]
  split
  · split
    · split
      · rw [List.length_map]
        exact Option.length_toList_le
      · exact Nat.zero_le 1
    · exact Nat.zero_le 1
  · exact Nat.zero_le 1

/-- Calls one after the other make no more work than they are worth. -/
theorem calls_work (names : Names) (hacyclic : Acyclic rank p) (hclosed : Closed Stage.links s p)
    (calls : List (ℕ × SourceCall)) (hcalls : ∀ c ∈ calls, c.1 ∈ s) :
    work rank s (calls.foldl (fun p c => p.call names rank c) p) ≤
      work rank s p + (calls.map (cost rank)).sum :=
  calls_measure additive_le (work rank s) (cost rank)
    (fun _ _ hrank hc => potential_deliver (Stage.pays names rank) hrank hc) hacyclic hclosed
    calls hcalls

/-- A post that is run. -/
theorem run_work (names : Names) (hacyclic : Acyclic rank p) (hclosed : Closed Stage.links s p)
    {n k : ℕ} (hn : n ∈ s) {post : Queue.Task} (hpost : (p.node n).post k = some post) :
    work rank s ((p.handed names n k).foldl (fun p c => p.call names rank c)
        (p.settle n k (.run k))) + 1 ≤ work rank s p := by
  have hsteady : Steady p (p.settle n k (.run k)) := (settle_steady (Or.inl rfl) n).1
  have hwork := calls_work names (hsteady.acyclic hacyclic) (hsteady.closed hclosed)
    (p.handed names n k) (handed_mem hclosed hn)
  have hsum := sum_cost_handed names hacyclic n k
  have hsettle := settle_work rank hn (Or.inl (rfl : Queue.Act.run k = .run k)) hpost
  omega

/-- **One step.** A post that is settled is one less to settle, and a call that enters brings no
    more than it is worth. -/
theorem step_work (names : Names) (hacyclic : Acyclic rank p) (hclosed : Closed Stage.links s p)
    (ha : a.Within s) :
    work rank s (step names rank p a) + (if p.settles a then 1 else 0) ≤
      work rank s p + a.cost rank := by
  have hquiet : ∀ p' : Line, work rank s p' = work rank s p →
      work rank s p' + 0 ≤ work rank s p + 0 := fun p' h => h.le
  cases a with
  | enter n c =>
    have hn : ∀ d ∈ [(n, c)], d.1 ∈ s := fun d hd => by
      obtain rfl := List.mem_singleton.mp hd
      exact ha
    have hcall := calls_work names (p := { p with shown := [] }) hacyclic hclosed
      [(n, c)] hn
    rw [List.map_singleton, List.sum_singleton] at hcall
    exact hcall
  | run n k =>
    cases hpost : (p.node n).post k with
    | none =>
      have hsettle : settle n k (.run k) { p with shown := [] } = { p with shown := [] } :=
        settle_of_post hpost
      have hhanded : handed names n k { p with shown := [] } = [] := handed_of_post hpost
      simp only [step, exec, hsettle, hhanded, settles, hpost]
      exact hquiet _ rfl
    | some post =>
      simp only [settles, hpost]
      exact run_work names (p := { p with shown := [] }) hacyclic hclosed ha hpost
  | drop n k =>
    cases hpost : (p.node n).post k with
    | none =>
      have hsettle : settle n k (.drop k) { p with shown := [] } = { p with shown := [] } :=
        settle_of_post hpost
      simp only [step, exec, hsettle, settles, hpost]
      exact hquiet _ rfl
    | some post =>
      have hsettle := settle_work rank (p := { p with shown := [] }) ha
        (Or.inr (rfl : Queue.Act.drop k = .drop k)) hpost
      have hwork : work rank s { p with shown := [] } = work rank s p := rfl
      simp only [step, exec, settles, hpost, Option.isSome_some, if_true, Act.cost]
      omega
  | track n id =>
    refine hquiet _ (work_update ?_ _)
    cases p.node n with
    | _ => rfl
  | suspend n flag =>
    refine hquiet _ (work_update ?_ _)
    cases p.node n with
    | _ => rfl
  | expire t =>
    refine hquiet _ (work_congr fun n => ?_)
    simp only [step, exec]
    cases hnode : p.node n with
    | _ =>
      split
      · rfl
      · rfl

/-- **Lines come to rest.** In every run, whatever is suspended, tracked, or lost in it, the posts
    that have been settled and those that are left to settle are no more than there were at first,
    and for each message that has entered one in every object on its way down. And nothing is left
    to settle only if no post waits. -/
theorem drained (names : Names) (rank : ℕ → ℕ) (s : Finset ℕ) (p : Line) (acts : List Act)
    (hacyclic : Acyclic rank p) (hclosed : Closed Stage.links s p)
    (hacts : ∀ a ∈ acts, a.Within s) :
    (taken (step names rank) settles p acts).length +
        work rank s (run (step names rank) p acts) ≤
      work rank s p + (acts.map (Act.cost rank)).sum ∧
    (work rank s (run (step names rank) p acts) = 0 ↔
      ∀ n ∈ s, ∀ k, ((run (step names rank) p acts).node n).post k = none) := by
  refine ⟨?_, work_eq_zero_iff⟩
  induction acts using List.reverseRecOn with
  | nil => simp
  | append_singleton acts a ih =>
    have hacts' : ∀ b ∈ acts, b.Within s := fun b hb => hacts b (List.mem_append_left _ hb)
    have hstep := step_work names (run_acyclic names hacyclic acts)
      (run_closed names rank hclosed acts) (hacts a (List.mem_append_right _ List.mem_cons_self))
    have hcount : (if settles (run (step names rank) p acts) a then [a] else []).length =
        if settles (run (step names rank) p acts) a then 1 else 0 := by
      split <;> rfl
    rw [run_concat, taken_concat, List.length_append, hcount, List.map_append, List.sum_append,
      List.map_singleton, List.sum_singleton]
    have hbefore := ih hacts'
    omega

/-- Three posts are settled of the twelve that three messages might have led to, and none is
    left. -/
theorem drained_lossyRun :
    ((taken (step digits (3 - ·)) settles threeStages lossyRun).length +
        work (3 - ·) (Finset.range 4) (run (step digits (3 - ·)) threeStages lossyRun) ≤
      work (3 - ·) (Finset.range 4) threeStages + (lossyRun.map (Act.cost (3 - ·))).sum ∧
    (work (3 - ·) (Finset.range 4) (run (step digits (3 - ·)) threeStages lossyRun) = 0 ↔
      ∀ n ∈ Finset.range 4, ∀ k,
        ((run (step digits (3 - ·)) threeStages lossyRun).node n).post k = none)) ∧
      (taken (step digits (3 - ·)) settles threeStages lossyRun).length = 3 ∧
      work (3 - ·) (Finset.range 4) (run (step digits (3 - ·)) threeStages lossyRun) = 0 :=
  ⟨drained digits (3 - ·) (Finset.range 4) threeStages lossyRun acyclic_threeStages
    closed_threeStages (by decide), by decide, by decide⟩

end Line

end WfcIo

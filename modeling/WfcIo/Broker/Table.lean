import WfcIo.Broker.Routing

/-!
# The table of the broker and its configuration

`restart` builds the rules in local variables, in the order of the configuration, and assigns
them after the loop. The constructor of a regular expression may throw in the middle of it:
then nothing has been assigned. So the broker always routes by one configuration as a whole,
the last one that was good.

## Main definitions

- `Broker.Draft` — the local variables of `restart`
- `BrokerConfig.address` — where a configuration sends a message
- `Broker.RoutesBy` — the broker routes by a configuration until the next restart

## Main results

- `Broker.restart_eq_loop` — `restart` is the loop over the rules, and then the assignments
- `Broker.restart_routes` — a restart leaves the table as it was, or the broker routes by the
  new configuration
-/

namespace WfcIo

open Foundation

/-- The expression of the rule is valid and matches the whole message. -/
def BrokerRule.accepts (env : Broker.Lookup) (data : Data) (r : BrokerRule) : Bool :=
  (env.regexMatch r.regex).any fun matcher => matcher data

/-- Where the configuration sends a message: to the target of the first rule that matches, to
    the default target if none does, if the broker is suspended or if there is no data. -/
def BrokerConfig.address (env : Broker.Lookup) (suspended : Bool) (opt : BrokerConfig) :
    DataPtr → Option Target
  | none => env.getTarget opt.target
  | some data =>
    if suspended then env.getTarget opt.target
    else
      match opt.rules.find? (BrokerRule.accepts env data) with
      | some r => env.getTarget r.target
      | none => env.getTarget opt.target

namespace Broker

/-! ### The loop of `restart` -/

/-- The local variables of `restart`. -/
structure Draft where
  targets : List (Option Target) := []
  rules : List RuleTarget := []

/-- One turn of the loop. The constructor of `regex_match` is called last, when both lists
    have been extended. -/
def Draft.add (env : Lookup) (dr : Draft) (r : BrokerRule) : Option Draft :=
  let targets := dr.targets ++ [env.getTarget r.target]
  (env.regexMatch r.regex).map fun matcher =>
    { targets, rules := dr.rules ++ [⟨env.getTarget r.target, r.log, matcher⟩] }

/-- The loop goes on from any draft, or throws if one of the rules does. -/
theorem foldlM_add (env : Lookup) (rules : List BrokerRule) (dr : Draft) :
    rules.foldlM (Draft.add env) dr =
      (rules.mapM (makeRule env)).map fun tbl =>
        { targets := dr.targets ++ rules.map fun r => env.getTarget r.target
          rules := dr.rules ++ tbl } := by
  induction rules generalizing dr with
  | nil => simp
  | cons r rules ih =>
    rw [List.foldlM_cons, List.mapM_cons]
    cases hr : env.regexMatch r.regex with
    | none => simp [Draft.add, makeRule, hr]
    | some matcher =>
      have hadd : dr.add env r = some
          { targets := dr.targets ++ [env.getTarget r.target]
            rules := dr.rules ++ [⟨env.getTarget r.target, r.log, matcher⟩] } := by
        simp [Draft.add, hr]
      have hmake : makeRule env r = some ⟨env.getTarget r.target, r.log, matcher⟩ := by
        simp [makeRule, hr]
      rw [hadd, hmake, Option.bind_eq_bind, Option.bind_some, ih]
      cases rules.mapM (makeRule env) with
      | none => rfl
      | some tbl => simp

/-- `restart` is the loop over the rules, and after it the assignments. -/
theorem restart_eq_loop (env : Lookup) (opt : BrokerConfig) (b : Broker) :
    b.restart env opt =
      (opt.rules.foldlM (Draft.add env) {}).map fun dr =>
        { b with
          targets := dr.targets
          rules := dr.rules
          targetLog := opt.log
          target := env.getTarget opt.target } := by
  rw [foldlM_add, Option.map_map]
  rfl

/-! ### The table -/

/-- The broker routes by the configuration until the next restart: it hands each message over
    once, as it is, to the target that the configuration names, if that is alive. -/
def RoutesBy (env : Lookup) (opt : BrokerConfig) (b : Broker) : Prop :=
  ∀ acts : List Act, (∀ a ∈ acts, a.isRestart = false) → ∀ d id handler,
    (step (run step b acts) (.call (.performIo d id handler))).calls =
      ((opt.address env (run step b acts).suspended d).filter
        (· ∉ (run step b acts).expired)).toList.map fun t => (t, .performIo d id handler)

/-- The fields that a restart assigns. -/
structure SameTable (b b' : Broker) : Prop where
  rules : b'.rules = b.rules
  targets : b'.targets = b.targets
  target : b'.target = b.target
  targetLog : b'.targetLog = b.targetLog

theorem SameTable.refl (b : Broker) : SameTable b b := ⟨rfl, rfl, rfl, rfl⟩

theorem SameTable.trans {b b' b'' : Broker} (h : SameTable b b') (h' : SameTable b' b'') :
    SameTable b b'' :=
  ⟨h'.rules.trans h.rules, h'.targets.trans h.targets, h'.target.trans h.target,
    h'.targetLog.trans h.targetLog⟩

/-- Only a restart writes the table. -/
theorem sameTable_step {a : Act} (ha : a.isRestart = false) (b : Broker) :
    SameTable b (step b a) := by
  cases a with
  | call c =>
    rw [step, exec, call_eq]
    exact ⟨rfl, rfl, rfl, rfl⟩
  | restart env opt => cases ha
  | suspend flag => exact ⟨rfl, rfl, rfl, rfl⟩
  | expire t => exact ⟨rfl, rfl, rfl, rfl⟩

theorem sameTable_run {acts : List Act} (hacts : ∀ a ∈ acts, a.isRestart = false) (b : Broker) :
    SameTable b (run step b acts) := by
  induction acts generalizing b with
  | nil => exact .refl b
  | cons a acts ih =>
    have ha := sameTable_step (hacts a List.mem_cons_self) b
    exact ha.trans (ih (fun a' ha' => hacts a' (List.mem_cons_of_mem _ ha')) (step b a))

/-! ### Looking up a rule -/

variable {env : Lookup} {opt : BrokerConfig}

theorem makeRule_eq_some_iff {r : BrokerRule} {x : RuleTarget} :
    makeRule env r = some x ↔
      ∃ matcher, env.regexMatch r.regex = some matcher ∧
        ⟨env.getTarget r.target, r.log, matcher⟩ = x :=
  Option.map_eq_some_iff

/-- The first entry of the table that matches is that of the first rule that does. -/
theorem find_makeRule {rules : List BrokerRule} {tbl : List RuleTarget}
    (h : rules.mapM (makeRule env) = some tbl) (data : Data) :
    (tbl.find? fun x => x.matcher data).map RuleTarget.target =
      (rules.find? (BrokerRule.accepts env data)).map fun r => env.getTarget r.target := by
  induction rules generalizing tbl with
  | nil =>
    cases h
    rfl
  | cons r rules ih =>
    rw [List.mapM_cons] at h
    obtain ⟨x, hx, h⟩ := Option.bind_eq_some_iff.mp h
    obtain ⟨tbl', htbl, h⟩ := Option.bind_eq_some_iff.mp h
    cases h
    obtain ⟨matcher, hmatcher, rfl⟩ := makeRule_eq_some_iff.mp hx
    have haccepts : r.accepts env data = matcher data := by
      simp only [BrokerRule.accepts, hmatcher, Option.any_some]
    rw [List.find?_cons, List.find?_cons, haccepts]
    dsimp only
    cases matcher data with
    | true => rfl
    | false => exact ih htbl

/-- The table of a good configuration sends a message where the configuration does. -/
theorem destination_eq_address {b : Broker} {tbl : List RuleTarget}
    (h : opt.rules.mapM (makeRule env) = some tbl) (hrules : b.rules = tbl)
    (htarget : b.target = env.getTarget opt.target) (d : DataPtr) :
    b.destination d = (opt.address env b.suspended d).filter (· ∉ b.expired) := by
  cases d with
  | none => simp only [destination, BrokerConfig.address, htarget, lock]
  | some data =>
    have hfind := find_makeRule h data
    rw [← hrules] at hfind
    simp only [destination, BrokerConfig.address, htarget, lock]
    split
    · rfl
    · cases hb : b.rules.find? fun x => x.matcher data with
      | none =>
        rw [hb, Option.map_none, eq_comm, Option.map_eq_none_iff] at hfind
        rw [hfind]
      | some x =>
        rw [hb, Option.map_some, eq_comm, Option.map_eq_some_iff] at hfind
        obtain ⟨r, hr, htarget'⟩ := hfind
        rw [hr]
        dsimp only
        rw [htarget']

/-- The loop throws exactly if the constructor does for one of the rules. -/
theorem restart_eq_none_iff {b : Broker} :
    b.restart env opt = none ↔ ∃ r ∈ opt.rules, env.regexMatch r.regex = none := by
  rw [restart, Option.map_eq_none_iff]
  induction opt.rules with
  | nil => simp
  | cons r rules ih =>
    rw [List.mapM_cons, List.exists_mem_cons_iff, ← ih]
    cases hr : env.regexMatch r.regex with
    | none => simp [makeRule, hr]
    | some matcher =>
      have hmake : makeRule env r = some ⟨env.getTarget r.target, r.log, matcher⟩ := by
        simp [makeRule, hr]
      rw [hmake, Option.bind_eq_bind, Option.bind_some]
      cases rules.mapM (makeRule env) with
      | none => simp
      | some tbl => simp

/-- **Routing.** A restart throws exactly if an expression of the configuration is not valid.
    It leaves the table as it was then; otherwise the broker routes by the configuration. -/
theorem restart_routes (b : Broker) (env : Lookup) (opt : BrokerConfig) :
    (b.restart env opt = none ↔ ∃ r ∈ opt.rules, env.regexMatch r.regex = none) ∧
      (b.restart env opt = none → SameTable b (step b (.restart env opt))) ∧
      (b.restart env opt ≠ none → RoutesBy env opt (step b (.restart env opt))) := by
  refine ⟨restart_eq_none_iff, fun hnone => ?_, fun hsome acts hacts d id handler => ?_⟩
  · have hnone' : b.quiet.restart env opt = none :=
      restart_eq_none_iff.mpr (restart_eq_none_iff.mp hnone)
    simp only [step, exec, hnone', Option.getD_none]
    exact ⟨rfl, rfl, rfl, rfl⟩
  · have hsome' : b.quiet.restart env opt ≠ none := fun hnone =>
      hsome (restart_eq_none_iff.mpr (restart_eq_none_iff.mp hnone))
    obtain ⟨b', hb'⟩ := Option.ne_none_iff_exists'.mp hsome'
    obtain ⟨tbl, htbl, hfields⟩ := Option.map_eq_some_iff.mp hb'
    have hstep : step b (.restart env opt) = b' := by
      rw [step, exec, hb', Option.getD_some]
    rw [hstep]
    -- the calls that follow find the table of the restart
    have hsame := sameTable_run hacts b'
    have hrules : (run step b' acts).rules = tbl := by
      rw [hsame.rules, ← hfields]
    have htarget : (run step b' acts).target = env.getTarget opt.target := by
      rw [hsame.target, ← hfields]
    rw [step_call_calls, receivers, destination_eq_address htbl hrules htarget]

end Broker

end WfcIo

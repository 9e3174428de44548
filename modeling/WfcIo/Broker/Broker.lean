import WfcIo.Interface
import WfcIo.Foundation.History

/-!
# The broker

`broker` hands every message to one of its targets: to the target of the first rule whose
regular expression matches the whole message, or to the default target if no rule matches,
if the broker is suspended or if there is no data. Registrations are passed on to the
targets of the rules.

The targets are held by weak pointers, looked up by name at each `restart`. The regular
expressions are parameters of `restart`, as is the lookup.

## Main definitions

- `BrokerConfig` — the options
- `Broker` — the fields of the class and what is outside it
- `Broker.restart`, `Broker.passOn`, `Broker.performIo` — the operations
- `Broker.Act`, `Broker.step` — a call, a restart or an event outside

## Main results

- `Broker.call_eq` — whom a call is passed on to
-/

namespace WfcIo

open Foundation

/-- `broker_config::rule`. -/
structure BrokerRule where
  target : String := ""
  log : String := ""
  regex : String := ""
  deriving DecidableEq

/-- `broker_config`. -/
structure BrokerConfig where
  target : String := ""
  log : String := ""
  rules : List BrokerRule := []
  deriving DecidableEq

namespace Broker

/-- What a restart asks for outside: `get_target` by name (`none` for a null pointer), and
    the constructor of `regex_match`, which throws (`none`) or gives `match`. -/
structure Lookup where
  getTarget : String → Option Target
  regexMatch : String → Option (Data → Bool)

/-- `rule_target`. -/
structure RuleTarget where
  target : Option Target
  log : String
  matcher : Data → Bool

end Broker

/-- `broker`. `expired` are the objects whose last owners have let them go, `calls` and
    `logs` what the last step has called and logged. -/
structure Broker where
  suspended : Bool := false
  target : Option Target := none
  targetLog : String := ""
  targets : List (Option Target) := []
  rules : List Broker.RuleTarget := []
  expired : List Target := []
  calls : List (Target × SourceCall) := []
  logs : List (String × Data) := []

namespace Broker

/-! ### Operations -/

/-- `lock` of a weak pointer. -/
def lock (b : Broker) (w : Option Target) : Option Target := w.filter (· ∉ b.expired)

/-- Call a target, if it is still there. -/
def callTarget (c : SourceCall) (b : Broker) (w : Option Target) : Broker :=
  match b.lock w with
  | some t => { b with calls := b.calls ++ [(t, c)] }
  | none => b

/-- `BROKER_LOG`. -/
def brokerLog (name : String) (d : Data) (b : Broker) : Broker :=
  if name = "" then b else { b with logs := b.logs ++ [(name, d)] }

/-- One turn of the loop over the rules of the options. -/
def makeRule (env : Lookup) (r : BrokerRule) : Option RuleTarget :=
  (env.regexMatch r.regex).map fun matcher => ⟨env.getTarget r.target, r.log, matcher⟩

/-- `restart`; nothing is assigned if a regular expression throws. -/
def restart (env : Lookup) (opt : BrokerConfig) (b : Broker) : Option Broker :=
  (opt.rules.mapM (makeRule env)).map fun rules =>
    { b with
      -- the default target is not among them
      targets := opt.rules.map fun r => env.getTarget r.target
      rules
      targetLog := opt.log
      target := env.getTarget opt.target }

/-- The loop of `reg_io` and of `unreg_io`. -/
def passOn (c : SourceCall) (b : Broker) : Broker := b.targets.foldl (callTarget c) b

/-- `reg_io`. -/
def regIo (id : IoId) (itf : Option Source) (b : Broker) : Broker := b.passOn (.regIo id itf)

/-- `unreg_io`. -/
def unregIo (id : IoId) (b : Broker) : Broker := b.passOn (.unregIo id)

/-- `perform_io`. -/
def performIo (d : DataPtr) (id : IoId) (handler : Option Handler) (b : Broker) : Broker :=
  match d with
  | none => b.callTarget (.performIo d id handler) b.target
  | some data =>
    if b.suspended then b.callTarget (.performIo d id handler) b.target
    else
      match b.rules.find? (fun r => r.matcher data) with
      -- the first match decides, also if its target is gone
      | some r => (b.brokerLog r.log data).callTarget (.performIo d id handler) r.target
      | none =>
        (b.brokerLog b.targetLog data).callTarget (.performIo d id handler) b.target

/-! ### Steps -/

/-- A call of a source, a restart with new options, the suspend flag changes, or the last
    owner of an object lets it go. -/
inductive Act
  | call (c : SourceCall)
  | restart (env : Lookup) (opt : BrokerConfig)
  | suspend (flag : Bool)
  | expire (t : Target)

/-- A call of the interface. -/
def call (b : Broker) : SourceCall → Broker
  | .regIo id itf => b.regIo id itf
  | .unregIo id => b.unregIo id
  | .performIo d id handler => b.performIo d id handler

def exec (b : Broker) : Act → Broker
  | .call c => b.call c
  | .restart env opt => (b.restart env opt).getD b
  | .suspend flag => { b with suspended := flag }
  | .expire t => { b with expired := b.expired ++ [t] }

/-- Forget what the previous step has done outside. -/
def quiet (b : Broker) : Broker := { b with calls := [], logs := [] }

def step (b : Broker) (a : Act) : Broker := b.quiet.exec a

/-! ### What the operations call -/

variable {b : Broker} {t : Target} {id : IoId}

theorem lock_eq_some_iff {w : Option Target} : b.lock w = some t ↔ w = some t ∧ t ∉ b.expired := by
  simp only [lock, Option.filter_eq_some_iff, decide_eq_true_eq]

theorem callTarget_eq (c : SourceCall) (b : Broker) (w : Option Target) :
    b.callTarget c w = { b with calls := b.calls ++ (b.lock w).toList.map fun t => (t, c) } := by
  simp only [callTarget]
  cases b.lock w with
  | none => simp
  | some t => rfl

/-- `reg_io` and `unreg_io` pass the call on to every living target of a rule. -/
theorem passOn_calls (c : SourceCall) (b : Broker) :
    b.passOn c =
      { b with calls := b.calls ++ (b.targets.filterMap b.lock).map fun t => (t, c) } := by
  -- a call does not change who is alive, so the loop is a map over the living targets
  have hfold : ∀ (l : List (Option Target)) (b : Broker), l.foldl (callTarget c) b =
      { b with calls := b.calls ++ (l.filterMap b.lock).map fun t => (t, c) } := by
    intro l
    induction l with
    | nil => simp
    | cons w l ih =>
      intro b
      have hlock : (b.callTarget c w).lock = b.lock := by
        funext w'
        rw [callTarget_eq]
        rfl
      rw [List.foldl_cons, ih, hlock, callTarget_eq]
      cases hw : b.lock w with
      | none => simp [hw]
      | some t => simp [hw]
  exact hfold b.targets b

/-- Where `perform_io` hands a message to. -/
def destination (d : DataPtr) (b : Broker) : Option Target :=
  match d with
  | none => b.lock b.target
  | some data =>
    if b.suspended then b.lock b.target
    else
      match b.rules.find? (fun r => r.matcher data) with
      | some r => b.lock r.target
      | none => b.lock b.target

/-- Whom the broker passes a call on to. -/
def receivers (b : Broker) : SourceCall → List Target
  | .performIo d _ _ => (b.destination d).toList
  | _ => b.targets.filterMap b.lock

theorem brokerLog_eq (name : String) (d : Data) (b : Broker) :
    b.brokerLog name d = { b with logs := (b.brokerLog name d).logs } := by
  simp only [brokerLog]
  split <;> rfl

theorem performIo_eq (d : DataPtr) (id : IoId) (handler : Option Handler) (b : Broker) :
    b.performIo d id handler =
      { b with
        calls := b.calls ++ (b.destination d).toList.map fun t => (t, .performIo d id handler)
        logs := (b.performIo d id handler).logs } := by
  have hlog : ∀ name data w c, (b.brokerLog name data).callTarget c w =
      { b with
        calls := b.calls ++ (b.lock w).toList.map fun t => (t, c)
        logs := ((b.brokerLog name data).callTarget c w).logs } := by
    intro name data w c
    rw [callTarget_eq, brokerLog_eq]
    rfl
  cases d with
  | none =>
    simp only [performIo, destination, callTarget_eq]
  | some data =>
    simp only [performIo, destination]
    split
    · rw [callTarget_eq]
    · split
      · exact hlog _ _ _ _
      · exact hlog _ _ _ _

/-- A call goes to its receivers as it is, and changes nothing else but the logs. -/
theorem call_eq (c : SourceCall) (b : Broker) :
    b.call c =
      { b with
        calls := b.calls ++ (b.receivers c).map fun t => (t, c)
        logs := (b.call c).logs } := by
  cases c with
  | regIo id itf =>
    rw [call, regIo, passOn_calls]
    rfl
  | unregIo id =>
    rw [call, unregIo, passOn_calls]
    rfl
  | performIo d id handler => exact performIo_eq d id handler b

/-- A successful restart puts the targets of the rules, in their order, in the list. -/
theorem restart_fields {b' : Broker} {env : Lookup} {opt : BrokerConfig}
    (h : b.restart env opt = some b') :
    b'.targets = opt.rules.map (fun r => env.getTarget r.target) ∧
      b'.expired = b.expired ∧ b'.calls = b.calls := by
  obtain ⟨rules, _, rfl⟩ := Option.map_eq_some_iff.mp h
  exact ⟨rfl, rfl, rfl⟩

end Broker

end WfcIo

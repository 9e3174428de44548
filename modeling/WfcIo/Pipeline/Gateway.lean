import WfcIo.Pipeline.Sessions
import WfcIo.Client.Registrations
import WfcIo.Server.Connection

/-!
# Gateways

A TCP server in front of a line of brokers, statistics and queues, and a TCP client at one of its
leaves: the usual way to wire the package. The client keeps an adapter for each source it knows. In
a gateway these are the connections of the server that are open, no more and no less, however long
messages have waited on the way.

## Main definitions

- `ClientTcpMap.Act.sourceCall` — the calls among the actions of a client map
- `Gateway`, `Gateway.Run` — the parts of a gateway, and what happens in them
- `Gateway.Tells` — the client is told of every connection
- `Gateway.Kept` — nothing is lost, stopped or tracked out of turn

## Main results

- `ClientTcpMap.mapped_iff_registered` — a client map whose sources are in session
- `Gateway.mapped_iff_open` — the adapters of a gateway
-/

namespace WfcIo

open Foundation

namespace ClientTcpMap

/-- The call that an action is. -/
def Act.sourceCall : Act → Option SourceCall
  | .regIo id itf => some (.regIo id itf)
  | .unregIo id => some (.unregIo id)
  | .performIo d id handler _ => some (.performIo d id handler)
  | _ => none

/-- **Mapped is registered.** In a map that is not stopped and whose sources send messages only
    while they are registered, the ids that are mapped are those that are registered. -/
theorem mapped_iff_registered (refuses : ℕ → Bool) {acts : List Act} (hstop : .stop ∉ acts)
    (hsession : InSession IoCall.word IoCall.uses (acts.filterMap Act.sourceCall)) (id : IoId) :
    (run step (init refuses) acts).find id ≠ none ↔
      latest (IoCall.word id) (acts.filterMap Act.sourceCall) = some true := by
  rw [inSession_filterMap] at hsession
  rw [latest_filterMap]
  induction acts using List.reverseRecOn with
  | nil => exact iff_of_false (fun h => h rfl) fun h => by cases h
  | append_singleton acts a ih =>
    obtain ⟨hacts, ha⟩ := inSession_concat_iff.mp hsession
    have hstop' : .stop ∉ acts := fun h => hstop (List.mem_append_left _ h)
    have hrunning : (run step (init refuses) acts).stopFlag = false :=
      run_stopFlag rfl (fun h => hstop' h)
    rw [run_concat, mapped_step (run_inv refuses acts), latest_concat, hrunning,
      ih hstop' hacts]
    cases a with
    | regIo k itf =>
      simp only [Act.Serves, Act.Removes, Act.sourceCall, Option.bind_some, IoCall.word]
      by_cases hk : k = id
      · simp [hk]
      · simp [hk]
    | unregIo k =>
      simp only [Act.Serves, Act.Removes, Act.sourceCall, Option.bind_some, IoCall.word]
      by_cases hk : k = id
      · simp [hk]
      · simp [hk]
    | performIo d k handler snd =>
      have hk := ha k rfl
      simp only [Act.Serves, Act.Removes, Act.sourceCall, Option.bind_some, IoCall.word,
        Option.none_or]
      constructor
      · rintro (⟨rfl, _⟩ | ⟨hlatest, _⟩)
        · exact hk
        · exact hlatest
      · exact fun hlatest => Or.inr ⟨hlatest, fun h => h⟩
    | stop => exact absurd (List.mem_append_right _ List.mem_cons_self) hstop
    | _ => simp [Act.Serves, Act.Removes, Act.sourceCall]

end ClientTcpMap

/-- The call that enters the line. -/
def Line.Act.sourceCall : Line.Act → Option SourceCall
  | .enter _ c => some c
  | _ => none

theorem Line.Act.word_eq (id : IoId) (a : Line.Act) :
    a.word id = a.sourceCall.bind (IoCall.word id) := by
  cases a <;> rfl

/-- A call of a connection as the line sees it: the connection is the object `source id`, and the
    line knows the handler under a number. -/
def relabel (source : IoId → Source) (reply : ServerReply → Option Handler) :
    IoCall IoId ServerReply → SourceCall
  | .regIo id conn => .regIo id (some (source conn))
  | .unregIo id => .unregIo id
  | .performIo d id r => .performIo d id (reply r)

/-- A TCP server that calls the object `entry` of a line, and a TCP client in place of its leaf
    `leaf`. The queues are empty at first. The `winterface` of the server hands every call on, as it
    does while the server is not suspended. -/
structure Gateway where
  names : Names
  rank : ℕ → ℕ
  line : Line
  entry : ℕ
  leaf : ℕ
  options : TcpConnectionOptions
  keepAlive : Bool
  source : IoId → Source
  reply : ServerReply → Option Handler
  refuses : ℕ → Bool
  acyclic : line.Acyclic rank
  empty : ∀ n k, (line.node n).post k = none

namespace Gateway

/-- What happens at the server, in the line and in the client. The connections are the only
    sources, and the client is called by the line only. -/
structure Run (g : Gateway) where
  server : List ServerTcp.ConnectionEvent
  acts : List Line.Act
  client : List ClientTcpMap.Act
  contract : AtEach ServerTcp.Contract server
  enters : acts.filterMap Line.Act.sourceCall =
    (ServerTcp.targetCalls g.options g.keepAlive server).map (relabel g.source g.reply)
  entry : ∀ n c, .enter n c ∈ acts → n = g.entry
  calls : client.filterMap ClientTcpMap.Act.sourceCall =
    (g.line.events g.names g.rank acts).filterMap (Line.callTo g.leaf)

/-- Registrations get to the client: the server makes them, as it does when it is not in direct
    mode, they are passed on from its target to the client, and the brokers tell everyone to whom
    they may hand a message. -/
structure Tells (g : Gateway) : Prop where
  registers : g.options.directMode = false
  wired : g.line.Told g.entry g.leaf
  covers : ∀ n b, g.line.node n = .broker b → b.Covers

/-- No object is lost, a queue tracks an id again only while its connection is open, and the client
    is not stopped. -/
structure Kept {g : Gateway} (r : g.Run) : Prop where
  objects : ∀ t, .expire t ∉ r.acts
  tracked : AtEach (fun pre a => ∀ n id, a = .track n id → Line.Registered pre id) r.acts
  running : .stop ∉ r.client

variable {g : Gateway}

/-- The line sees the connections as the server does. -/
theorem in_session_relabel (source : IoId → Source) (reply : ServerReply → Option Handler)
    {l : List (IoCall IoId ServerReply)} (h : InSession IoCall.word IoCall.uses l) :
    InSession IoCall.word IoCall.uses (l.map (relabel source reply)) := by
  rw [← List.filterMap_eq_map, inSession_filterMap]
  refine h.rename id (fun k c => ?_) (fun c k huses => ?_)
  · cases c <;> rfl
  · cases c with
    | performIo d j r => exact huses
    | regIo j conn => cases huses
    | unregIo j => cases huses

theorem registered_iff_open (hg : g.Tells) (r : g.Run) (id : IoId) :
    Line.Registered r.acts id ↔ ServerTcp.Open r.server id := by
  have hrelabel : ∀ l : List (IoCall IoId ServerReply),
      latest (IoCall.word id) (l.map (relabel g.source g.reply)) = latest (IoCall.word id) l := by
    intro l
    rw [← List.filterMap_eq_map, latest_filterMap]
    refine congrArg (fun f => latest f l) (funext fun c => ?_)
    cases c <;> rfl
  have hacts : latest (Line.Act.word id) r.acts =
      latest (IoCall.word id) (r.acts.filterMap Line.Act.sourceCall) := by
    rw [latest_filterMap]
    exact congrArg (fun f => latest f r.acts) (funext (Line.Act.word_eq id))
  rw [Line.Registered, hacts, r.enters, hrelabel, ServerTcp.targetCalls_word, hg.registers]
  rfl

/-- The connections keep to the order. -/
theorem disciplined (hg : g.Tells) {r : g.Run} (hr : Kept r) :
    AtEach (Line.Disciplined fun _ => g.entry) r.acts := by
  have hserver : InSession IoCall.word IoCall.uses
      (ServerTcp.targetCalls g.options g.keepAlive r.server) :=
    (ServerTcp.in_session_iff r.contract).mpr fun hdirect =>
      absurd hdirect (hg.registers ▸ Bool.false_ne_true)
  have hsession := in_session_relabel g.source g.reply hserver
  rw [← r.enters, inSession_filterMap] at hsession
  intro pre a post hacts
  cases a with
  | enter n c =>
    refine ⟨r.entry n c (hacts ▸ List.mem_append_right _ List.mem_cons_self), fun id huses => ?_⟩
    have hlatest := hsession pre (.enter n c) post hacts id huses
    rw [Line.Registered]
    exact (congrArg (fun f => latest f pre) (funext (Line.Act.word_eq id))).trans hlatest
  | track n id => exact hr.tracked pre _ post hacts n id rfl
  | expire t => exact hr.objects t (hacts ▸ List.mem_append_right _ List.mem_cons_self)
  | _ => trivial

/-- A server in front of a broker and a queue. -/
def queued : Gateway where
  names := Pipeline.noNames
  rank := Pipeline.depth
  line := Line.brokerAndQueue
  entry := 0
  leaf := 2
  options := {}
  keepAlive := true
  source id := id
  reply _ := none
  refuses _ := false
  acyclic := Line.acyclic_brokerAndQueue
  empty := Line.empty_brokerAndQueue

theorem tells_queued : queued.Tells :=
  ⟨rfl, .tail (.single (show 1 ∈ _ by decide)) (show 2 ∈ _ by decide), Line.covers_brokerAndQueue⟩

/-- Of two connections one is closed, while a message of it waits in the queue. -/
def twoConnections : queued.Run where
  server := [.startup 7, .startup 8, .input (some [1]) 7 none, .shutdown 7]
  acts := [.enter 0 (.regIo 7 (some 7)), .enter 0 (.regIo 8 (some 8)),
    .enter 0 (.performIo (some [1]) 7 none), .enter 0 (.unregIo 7), .run 1 0]
  client := [.regIo 7 (some 7), .regIo 8 (some 8), .unregIo 7]
  contract := by decide
  enters := rfl
  entry n c h := by
    show n = 0
    simp at h
    tauto
  calls := by decide

theorem kept_twoConnections : Kept twoConnections := by
  refine ⟨fun t h => ?_, fun pre a post hacts n id ha => ?_, by decide⟩
  · simp [twoConnections] at h
  · subst ha
    have hmem := hacts ▸ List.mem_append_right pre (List.mem_cons_self (l := post))
    simp [twoConnections] at hmem

end Gateway

end WfcIo

import Lsmdb.RaftNode.Runtime

namespace Lsmdb.RaftNode

open Lsmdb.Raft Lsmdb.RaftStore

/-!
# Raft runtime — handling events

The cases of `Runtime.run`, with `proposeBatch`, `stepAppends` and `acknowledgeRead`, and the
runs of a runtime.
-/

variable {σ : Type}

/-- What `stepAppends` merges of an update that changes neither hard state, snapshot, role nor
    existing entries. -/
def mergeAppend (merged u : Update) : Update :=
  { merged with
    entries := merged.entries ++ u.entries
    messages := merged.messages ++ u.messages
    committed := merged.committed ++ u.committed }

/-- The updates `stepAppends` merges. -/
def mergeable (u : Update) : Bool :=
  u.hardState.isNone && decide (u.truncateFrom = 0) && u.snapshot.isNone && !u.roleChanged

/-- A proposal waits at its index, or is answered at once when it was too large to append. -/
def Runtime.register (r : Runtime σ) (p : Proposal) (index : ℕ) : Runtime σ :=
  if index = 0 then
    r.emit [.proposal p.result { err := some (.raft .entryTooLarge) } none]
  else
    { r with pending := (index, p.result) :: without r.pending index }.emit
      [.accept p.result { index := index, term := r.node.term, data := p.data }]

/-- The registration loop of `proposeBatch`. -/
def Runtime.registerAll : Runtime σ → List Proposal → List ℕ → Runtime σ
  | r, p :: batch, index :: indexes => Runtime.registerAll (r.register p index) batch indexes
  | r, _, _ => r

/-- `Runtime.acknowledgeRead`. -/
def Runtime.acknowledgeRead (env : Env σ) (m : Message) (r : Runtime σ) : Runtime σ :=
  match r.pendingReads.lookup m.context with
  | none => r
  | some read =>
    if r.node.role ≠ .leader ∨ m.term ≠ r.node.term then r
    else
      let read := { read with acks := m.fromID :: read.acks }
      let applied := env.machine.appliedIndex r.machine
      if r.node.hasQuorum read.acks = false ∨ applied < r.node.commit then
        { r with pendingReads := (m.context, read) :: without r.pendingReads m.context }
      else
        { r with pendingReads := without r.pendingReads m.context }.emit
          (read.complete { index := r.node.commit } applied)

section Codec
variable [MembershipJson]

/-- `Runtime.proposeBatch`. -/
def Runtime.proposeBatch (env : Env σ) (batch : List Proposal) (r : Runtime σ) : Outcome σ :=
  match r.node.proposeBatch (batch.map Proposal.data) with
  | (node, .error e) =>
    ({ r with node := node }.emit
      (batch.map (fun p : Proposal => .proposal p.result { err := some (.raft e) } none)), none)
  | (node, .ok (indexes, u)) =>
    let r1 := ({ r with node := node } : Runtime σ).registerAll batch indexes
    if u.entries.length = 0 then (r1, none) else r1.processUpdate env u

/-- The `flush` of `stepAppends`; every RPC it covers gets its error. -/
def Runtime.flush (env : Env σ) (merged : Update) (waiting : List ℕ) (r : Runtime σ) :
    Outcome σ :=
  if waiting = [] then (r, none)
  else
    let o := r.processUpdate env merged
    (o.1.emit (waiting.map (fun result => Output.step result o.2)), o.2)

/-- The `failRest` of `stepAppends`. -/
def Runtime.failRest (r : Runtime σ) (rest : List Inbound) (e : RuntimeError) : Outcome σ :=
  (r.emit (rest.map (fun event => Output.step event.result (some e))), some e)

/-- `Runtime.stepAppends`: the node steps ahead of the store while updates are merged. -/
def Runtime.stepAppends (env : Env σ) : Update → List ℕ → List Inbound → Runtime σ → Outcome σ
  | merged, waiting, [], r => r.flush env merged waiting
  | merged, waiting, event :: rest, r =>
    let s := r.node.stepWith env.nextTerm event.message
    let r1 := { r with node := s.1 }
    if mergeable s.2 then
      Runtime.stepAppends env (mergeAppend merged s.2) (waiting ++ [event.result]) rest r1
    else
      let f := r1.flush env merged waiting
      match f.2 with
      | some e => f.1.failRest (event :: rest) e
      | none =>
        let o := f.1.processUpdate env s.2
        let r2 := o.1.emit [.step event.result o.2]
        match o.2 with
        | some e => r2.failRest rest e
        | none => Runtime.stepAppends env {} [] rest r2

/-- The `messageEvent` case for a message that is not merged with others. -/
def Runtime.stepMessage (env : Env σ) (event : Inbound) (r : Runtime σ) : Outcome σ :=
  let m := event.message
  let s := r.node.stepWith env.nextTerm m
  let o := ({ r with node := s.1 } : Runtime σ).processUpdateWithSnapshot env s.2
    event.snapshotData
  let r1 := if o.2 = none ∧ m.type = .appendResponse ∧ m.reject = false ∧ m.context ≠ 0 then
    o.1.acknowledgeRead env m else o.1
  (r1.emit [.step event.result o.2], o.2)

/-- The `membershipEvent` case. -/
def Runtime.changeMembership (env : Env σ) (voters : List ℕ) (result : ℕ) (r : Runtime σ) :
    Outcome σ :=
  match r.node.proposeMembership voters with
  | (node, .error e) =>
    ({ r with node := node }.emit [.membership result { err := some (.raft e) }], none)
  | (node, .ok (index, u)) =>
    if index ≤ node.commit then
      ({ r with node := node }.emit [.membership result { index := index }], none)
    else
      { r with node := node, membership := some ⟨voters, result⟩ }.processUpdate env u

/-- The `readEvent` case, its reads collected. -/
def Runtime.probeReads (env : Env σ) (results : List ℕ) (r : Runtime σ) : Outcome σ :=
  let read : PendingRead := { results := results, acks := [r.node.cfg.id] }
  let contextID := r.nextReadContext + 1
  let r1 := { r with nextReadContext := contextID }
  match r1.node.readProbe contextID with
  | (node, .error e) =>
    ({ r1 with node := node }.emit (read.complete { err := some (.raft e) } 0), none)
  | (node, .ok u) =>
    let r2 := { r1 with
      node := node
      pendingReads := (contextID, read) :: without r1.pendingReads contextID }
    (r2.processUpdate env u).andThen fun r3 =>
      if r3.node.hasQuorum read.acks then
        ({ r3 with pendingReads := without r3.pendingReads contextID }.emit
          (read.complete { index := r3.node.commit } (env.machine.appliedIndex r3.machine)), none)
      else (r3, none)

/-- The `switch` of `Runtime.run`, its event already taken. -/
def Runtime.handle (env : Env σ) (r : Runtime σ) : Event → Outcome σ
  | .proposal p =>
    if r.deferred = [] then
      let d := drainProposals env.queueSize p r.events
      { r with deferred := d.others, events := d.left }.proposeBatch env d.gathered
    else r.proposeBatch env [p]
  | .membership voters result => r.changeMembership env voters result
  | .message event =>
    if event.message.type = .append ∧ event.snapshotData.isNone ∧ r.deferred = [] then
      let d := drainAppends env.queueSize event r.events
      { r with deferred := d.others, events := d.left }.stepAppends env {} [] d.gathered
    else r.stepMessage env event
  | .status result => (r.emit [.status result r.node.status], none)
  | .read result =>
    let d := collectReads env.queueSize result r.deferred r.events
    { r with deferred := d.others, events := d.left }.probeReads env d.gathered
  | .stop result =>
    ({ r with stopped := true }.emit [.stop result (env.machine.close r.machine)], none)

/-- An error ends the loop. -/
def Outcome.settle (o : Outcome σ) : Runtime σ :=
  match o.2 with
  | none => o.1
  | some e => o.1.fail e

/-- What happens next to a runtime. -/
inductive Action where
  | enqueue (event : Event)
  | tick
  | next

/-- The `ticker` case of `Runtime.run`. -/
def Runtime.onTick (env : Env σ) (r : Runtime σ) : Outcome σ :=
  let s := r.node.tickWith env.nextTerm
  ({ r with node := s.1 } : Runtime σ).processUpdate env s.2

/-- One turn of `Runtime.run`, or the arrival of an event.  Deferred events come first, and
    a stopped runtime does nothing. -/
def Runtime.act (env : Env σ) (r : Runtime σ) : Action → Runtime σ
  | .enqueue event => { r with events := r.events ++ [event] }
  | .tick => if r.stopped ∨ r.deferred ≠ [] then r else (r.onTick env).settle
  | .next =>
    if r.stopped then r
    else
      match r.deferred, r.events with
      | event :: deferred, _ => ({ r with deferred := deferred }.handle env event).settle
      | [], event :: events => ({ r with events := events }.handle env event).settle
      | [], [] => r

/-- A run of a runtime. -/
def Runtime.run (env : Env σ) (r : Runtime σ) (actions : List Action) : Runtime σ :=
  actions.foldl (Runtime.act env) r

/-- `Start`, on a node restored from the store with the machine's applied index. -/
structure Boots (env : Env σ) (cfg : Config) (r : Runtime σ) : Prop where
  node : Node.new cfg r.store.hard r.store.entries (some r.store.snapshot) = .ok r.node
  metadata : r.store.snapshot.data = []
  applied : cfg.appliedIndex = env.machine.appliedIndex r.machine
  events : r.events = []
  deferred : r.deferred = []
  pending : r.pending = []
  pendingReads : r.pendingReads = []
  membership : r.membership = none
  nextReadContext : r.nextReadContext = 0
  trace : r.trace = []
  stopped : r.stopped = false

/-- A disk that fails no store call. -/
def Env.Reliable (env : Env σ) : Prop := ∀ trace, env.disk trace = none

/-- `Start`, on a reliable disk. -/
structure Starts (env : Env σ) (cfg : Config) (r : Runtime σ) : Prop extends Boots env cfg r where
  reliable : env.Reliable

end Codec

end Lsmdb.RaftNode

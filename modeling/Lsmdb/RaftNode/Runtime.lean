import Lsmdb.RaftStore.Compaction

namespace Lsmdb.RaftNode

open Lsmdb.Raft Lsmdb.RaftStore

/-!
# Raft runtime — the event loop

`internal/raftnode/runtime.go`: one loop owns the Raft node, persists every update, sends its
messages, applies what it commits and answers the callers that wait.

* Result channels are numbers; what the loop does to the outside (store calls, messages,
  answers) is appended to `trace`.
* The state machine is an interface in the source; here it is a record of functions with the
  two facts about `AppliedIndex` that the interface documents.
* `Runtime.act` is one step of the system: a caller enqueues an event, the ticker fires, or
  the loop takes its next event.  An event drained while the loop builds a batch counts as
  enqueued before the step; the bound on the queue is left out, except that it limits how
  many events one drain reads.

Some trace entries carry more than the source passes on, for later statements: `send` the
store at that moment, `proposal` the committed entry it answers for, `read` the applied index,
and `accept` records what `ProposeBatch` appended for a proposal.
-/

/-! ### Data -/

/-- The errors a runtime passes on. -/
inductive RuntimeError where
  | raft (e : RaftError)
  | failed (reason : String)
  deriving DecidableEq, Repr

/-- `proposalResult`. -/
structure ProposalResult where
  index : ℕ := 0
  term : ℕ := 0
  err : Option RuntimeError := none
  deriving DecidableEq, Repr

/-- `readResult`. -/
structure ReadResult where
  index : ℕ := 0
  err : Option RuntimeError := none
  deriving DecidableEq, Repr

/-- `proposalEvent`. -/
structure Proposal where
  data : Bytes
  result : ℕ
  deriving DecidableEq, Repr

/-- `messageEvent`.  `snapshotData` is what reading the stream yields. -/
structure Inbound where
  message : Message
  snapshotData : Option (Except String Bytes) := none
  result : ℕ

/-- The events of the loop. -/
inductive Event where
  | proposal (p : Proposal)
  | membership (voters : List ℕ) (result : ℕ)
  | message (m : Inbound)
  | status (result : ℕ)
  | read (result : ℕ)
  | stop (result : ℕ)

/-- `pendingMembership`. -/
structure PendingMembership where
  voters : List ℕ
  result : ℕ

/-- `pendingRead`. -/
structure PendingRead where
  results : List ℕ
  acks : List ℕ

/-- What the loop does to the outside. -/
inductive Output where
  /-- `Persist`, or `PersistSnapshot` with a writer, and the error it returned. -/
  | persist (u : Update) (writeData : Option (Except String Bytes)) (err : Option String)
  /-- A message placed on `outgoing`. -/
  | send (m : Message) (store : Stable)
  /-- `ProposeBatch` appended `entry` for a proposal. -/
  | accept (result : ℕ) (entry : Entry)
  | proposal (result : ℕ) (answer : ProposalResult) (committed : Option Entry)
  | membership (result : ℕ) (answer : ProposalResult)
  | step (result : ℕ) (err : Option RuntimeError)
  | status (result : ℕ) (status : Status)
  | read (result : ℕ) (answer : ReadResult) (applied : ℕ)
  | stop (result : ℕ) (err : Option String)

/-- `StateMachine`: applies committed entries in strict index order. -/
structure StateMachine (σ : Type) where
  appliedIndex : σ → ℕ
  apply : σ → ℕ → Bytes → Except String σ
  writeSnapshot : σ → Except String (ℕ × Bytes)
  restoreSnapshot : σ → ℕ → Bytes → Except String σ
  close : σ → Option String
  apply_index : ∀ {s s' : σ} {index : ℕ} {command : Bytes}, index = appliedIndex s + 1 →
    apply s index command = .ok s' → appliedIndex s' = index
  restore_index : ∀ {s s' : σ} {index : ℕ} {data : Bytes},
    restoreSnapshot s index data = .ok s' → appliedIndex s' = index

/-- What a runtime is started with.  `nextTerm` is the node's `term + 1`; `disk` is the error
    with which the files fail the next store call, given what the loop did before. -/
structure Env (σ : Type) where
  machine : StateMachine σ
  queueSize : ℕ := 256
  snapshotThreshold : ℕ := 0
  nextTerm : ℕ → ℕ
  disk : List Output → Option String := fun _ => none

/-- `Runtime`, with the local variables of its loop. -/
structure Runtime (σ : Type) where
  node : Node
  store : Stable
  machine : σ
  events : List Event := []
  deferred : List Event := []
  pending : List (ℕ × ℕ) := []
  pendingReads : List (ℕ × PendingRead) := []
  nextReadContext : ℕ := 0
  membership : Option PendingMembership := none
  trace : List Output := []
  stopped : Bool := false

/-- A Go map with the key `k` removed. -/
def without {β : Type} (t : List (ℕ × β)) (k : ℕ) : List (ℕ × β) := t.filter (fun p => p.1 ≠ k)

variable {σ : Type}

/-- Append to the trace. -/
def Runtime.emit (r : Runtime σ) (os : List Output) : Runtime σ := { r with trace := r.trace ++ os }

/-- A step that may end the loop with an error. -/
abbrev Outcome (σ : Type) := Runtime σ × Option RuntimeError

/-- Go on unless there was an error. -/
def Outcome.andThen (o : Outcome σ) (f : Runtime σ → Outcome σ) : Outcome σ :=
  match o.2 with
  | none => f o.1
  | some _ => o

/-! ### Answering callers -/

/-- `pendingRead.complete`. -/
def PendingRead.complete (read : PendingRead) (answer : ReadResult) (applied : ℕ) : List Output :=
  read.results.map (fun result => Output.read result answer applied)

/-- Answer everyone who waits with `cause`. -/
def Runtime.dropWaiters (r : Runtime σ) (cause : RuntimeError) : Runtime σ :=
  let changes := r.membership.toList.map
    (fun m => Output.membership m.result { err := some cause })
  let proposals := r.pending.map
    (fun p => Output.proposal p.2 { index := p.1, err := some cause } none)
  let reads := r.pendingReads.flatMap (fun p => p.2.complete { err := some cause } 0)
  { r with membership := none, pending := [], pendingReads := [] }.emit
    (changes ++ proposals ++ reads)

/-- `Runtime.fail`. -/
def Runtime.fail (r : Runtime σ) (cause : RuntimeError) : Runtime σ :=
  { r.dropWaiters cause with stopped := true }

/-- Answer the proposal that waits at a committed entry's index. -/
def Runtime.complete (r : Runtime σ) (entry : Entry) : Runtime σ :=
  match r.pending.lookup entry.index with
  | none => r
  | some result =>
      { r with pending := without r.pending entry.index }.emit
        [.proposal result { index := entry.index, term := entry.term } (some entry)]

/-- `sameVoters`. -/
def sameVoters (a b : List ℕ) : Bool :=
  a.length == b.length && a.insertionSort (· ≤ ·) == b.insertionSort (· ≤ ·)

/-- `Runtime.resolveMembership`. -/
def Runtime.resolveMembership (env : Env σ) (r : Runtime σ) : Runtime σ :=
  match r.membership with
  | none => r
  | some m =>
    let current := r.node.membership
    if current.jointVoters.length ≠ 0 ∨ env.machine.appliedIndex r.machine < current.index
        ∨ sameVoters current.voters m.voters = false then r
    else { r with membership := none }.emit [.membership m.result { index := current.index }]

/-- The end of `processUpdate`: a node that lost its leadership answers everyone. -/
def Runtime.cleanup (r : Runtime σ) (u : Update) : Runtime σ :=
  if u.roleChanged ∧ r.node.role ≠ .leader then r.dropWaiters (.raft .notLeader) else r

/-! ### Processing an update -/

/-- A store call that returns `p` unless the files fail it.  What it then leaves in the files
    is found by the next recovery; the loop ends. -/
def Runtime.stored (env : Env σ) (r : Runtime σ) (p : Stable × Option String) :
    Stable × Option String :=
  match env.disk r.trace with
  | none => p
  | some e => (r.store, some e)

/-- The persist step of `processUpdateWithSnapshot`. -/
def Runtime.persistUpdate (env : Env σ) (r : Runtime σ) (u : Update)
    (snapshotData : Option (Except String Bytes)) : Outcome σ :=
  let writeData := if u.snapshot.isSome then snapshotData else none
  let p := r.stored env (match writeData with
    | some w => r.store.persistSnapshot u w
    | none => r.store.persist u none)
  ({ r with store := p.1 }.emit [.persist u writeData p.2],
    p.2.map (fun e => .failed s!"persist raft update: {e}"))

/-- `Store.OpenSnapshot`, reduced to what reading it yields. -/
def openSnapshot (s : Stable) (index : ℕ) : Except String Bytes :=
  if index = 0 ∨ index ≠ s.snapshot.index then .error s!"raft snapshot {index} is not durable"
  else .ok s.data

/-- A new snapshot replaces the state of a machine behind it. -/
def Runtime.restoreMachine (env : Env σ) (u : Update) (r : Runtime σ) : Outcome σ :=
  match u.snapshot with
  | none => (r, none)
  | some snapshot =>
    if env.machine.appliedIndex r.machine < snapshot.index then
      match openSnapshot r.store snapshot.index with
      | .error e => (r, some (.failed s!"open state snapshot {snapshot.index}: {e}"))
      | .ok data =>
        match env.machine.restoreSnapshot r.machine snapshot.index data with
        | .error e => (r, some (.failed s!"restore state snapshot {snapshot.index}: {e}"))
        | .ok machine => ({ r with machine := machine }, none)
    else (r, none)

/-- Place messages on `outgoing`. -/
def Runtime.sendMessages (u : Update) (r : Runtime σ) : Outcome σ :=
  (r.emit (u.messages.map (fun m => .send m r.store)), none)

section Codec
variable [MembershipJson]

/-- One turn of the loop over `update.Committed`. -/
def Runtime.applyEntry (env : Env σ) (entry : Entry) (r : Runtime σ) : Outcome σ :=
  let applied := env.machine.appliedIndex r.machine
  if entry.index ≤ applied then (r.complete entry, none)
  else if entry.index ≠ applied + 1 then
    (r, some (.failed s!"commit apply gap: got {entry.index}, want {applied + 1}"))
  else
    match isMembershipEntry entry.data with
    | .error e => (r, some (.failed s!"decode committed entry {entry.index}: {e}"))
    | .ok membership =>
      match env.machine.apply r.machine entry.index (if membership then [] else entry.data) with
      | .error e => (r, some (.failed s!"apply committed entry {entry.index}: {e}"))
      | .ok machine => ({ r with machine := machine }.complete entry, none)

/-- The loop over `update.Committed`. -/
def Runtime.applyCommitted (env : Env σ) : List Entry → Runtime σ → Outcome σ
  | [], r => (r, none)
  | entry :: rest, r => (r.applyEntry env entry).andThen (Runtime.applyCommitted env rest)

/-- The writer that streams the machine's state into a snapshot at `index`. -/
def snapshotWriter (machine : StateMachine σ) (s : σ) (index : ℕ) : Except String Bytes :=
  match machine.writeSnapshot s with
  | .error e => .error e
  | .ok (writtenIndex, data) =>
    if writtenIndex ≠ index then
      .error s!"state snapshot index changed from {index} to {writtenIndex}"
    else .ok data

/-- Compact the log once enough entries are applied. -/
def Runtime.compactLog (env : Env σ) (r : Runtime σ) : Outcome σ :=
  let applied := env.machine.appliedIndex r.machine
  if 0 < env.snapshotThreshold ∧ r.node.snapshot.index < applied
      ∧ env.snapshotThreshold ≤ applied - r.node.snapshot.index then
    match r.node.createSnapshot applied [] with
    | (node, .error e) => ({ r with node := node }, some (.failed s!"compact raft log: {e}"))
    | (node, .ok u) =>
      let w := snapshotWriter env.machine r.machine applied
      let p := r.stored env (r.store.persistSnapshot u w)
      ({ r with node := node, store := p.1 }.emit [.persist u (some w) p.2],
        p.2.map (fun e => .failed s!"persist raft snapshot: {e}"))
  else (r, none)

/-- `Runtime.processUpdateWithSnapshot`. -/
def Runtime.processUpdateWithSnapshot (env : Env σ) (u : Update)
    (snapshotData : Option (Except String Bytes)) (r : Runtime σ) : Outcome σ :=
  (r.persistUpdate env u snapshotData).andThen fun r =>
  (r.restoreMachine env u).andThen fun r =>
  (r.sendMessages u).andThen fun r =>
  (r.applyCommitted env u.committed).andThen fun r =>
  (r.compactLog env).andThen fun r =>
  ((r.resolveMembership env).cleanup u, none)

/-- `Runtime.processUpdate`. -/
def Runtime.processUpdate (env : Env σ) (u : Update) (r : Runtime σ) : Outcome σ :=
  r.processUpdateWithSnapshot env u none

/-! ### Batches -/

/-- `maxBatchEntries`. -/
def maxBatchEntries : ℕ := 256

/-- `maxBatchBytes`. -/
def maxBatchBytes : ℕ := 2 ^ 20

/-- `proposalBytes`. -/
def proposalBytes (p : Proposal) : ℕ :=
  if maxEntryBytes < p.data.length then 0 else p.data.length + entryOverheadBytes

/-- What a drain read from the queue: what it gathered, the other events in arrival order, and
    what it left. -/
structure Drained (α : Type) where
  gathered : List α
  others : List Event
  left : List Event

/-- The loop of `drainProposals`; `budget` counts the events it may still read. -/
def drainProposalsFrom : ℕ → List Proposal → ℕ → List Event → List Event → Drained Proposal
  | 0, batch, _, others, queue => ⟨batch, others, queue⟩
  | _, batch, _, others, [] => ⟨batch, others, []⟩
  | budget + 1, batch, size, others, raw :: queue =>
      if batch.length < maxBatchEntries ∧ size < maxBatchBytes then
        match raw with
        | .proposal next =>
          if maxBatchBytes < size + proposalBytes next then ⟨batch, others ++ [raw], queue⟩
          else drainProposalsFrom budget (batch ++ [next]) (size + proposalBytes next) others queue
        | _ => drainProposalsFrom budget batch size (others ++ [raw]) queue
      else ⟨batch, others, raw :: queue⟩

/-- `Runtime.drainProposals`. -/
def drainProposals (queueSize : ℕ) (first : Proposal) (queue : List Event) : Drained Proposal :=
  drainProposalsFrom queueSize [first] (proposalBytes first) [] queue

/-- `appendLoad`. -/
def appendLoad (m : Message) : ℕ × ℕ :=
  (m.entries.length, (m.entries.map (fun e => e.data.length + entryOverheadBytes)).sum)

/-- The loop of `drainAppends`. -/
def drainAppendsFrom (sender : ℕ) :
    ℕ → List Inbound → ℕ → ℕ → List Event → List Event → Drained Inbound
  | 0, group, _, _, others, queue => ⟨group, others, queue⟩
  | _, group, _, _, others, [] => ⟨group, others, []⟩
  | budget + 1, group, entries, size, others, raw :: queue =>
      if entries < maxBatchEntries ∧ size < maxBatchBytes then
        match raw with
        | .message next =>
          if next.snapshotData.isSome ∨ next.message.type ≠ .append
              ∨ next.message.fromID ≠ sender then
            drainAppendsFrom sender budget group entries size (others ++ [raw]) queue
          else
            let load := appendLoad next.message
            if maxBatchEntries < entries + load.1 ∨ maxBatchBytes < size + load.2 then
              ⟨group, others ++ [raw], queue⟩
            else
              drainAppendsFrom sender budget (group ++ [next]) (entries + load.1)
                (size + load.2) others queue
        | _ => drainAppendsFrom sender budget group entries size (others ++ [raw]) queue
      else ⟨group, others, raw :: queue⟩

/-- `Runtime.drainAppends`. -/
def drainAppends (queueSize : ℕ) (first : Inbound) (queue : List Event) : Drained Inbound :=
  drainAppendsFrom first.message.fromID queueSize [first] (appendLoad first.message).1
    (appendLoad first.message).2 [] queue

/-- The part of `collectReads` that takes reads from the head of `deferred`. -/
def takeReads : List ℕ → List Event → List ℕ × List Event
  | reads, .read result :: deferred => takeReads (reads ++ [result]) deferred
  | reads, deferred => (reads, deferred)

/-- The part of `collectReads` that reads the queue. -/
def drainReadsFrom : ℕ → List ℕ → List Event → List Event → Drained ℕ
  | 0, reads, others, queue => ⟨reads, others, queue⟩
  | _, reads, others, [] => ⟨reads, others, []⟩
  | budget + 1, reads, others, raw :: queue =>
      match raw with
      | .read result => drainReadsFrom budget (reads ++ [result]) others queue
      | _ => drainReadsFrom budget reads (others ++ [raw]) queue

/-- `Runtime.collectReads`: the reads that share the probe of `first`. -/
def collectReads (queueSize first : ℕ) (deferred queue : List Event) : Drained ℕ :=
  if deferred = [] then drainReadsFrom queueSize [first] [] queue
  else
    let t := takeReads [first] deferred
    ⟨t.1, t.2, queue⟩

end Codec

end Lsmdb.RaftNode

import Mathlib.Data.List.Basic
import Mathlib.Tactic.Ring

namespace Lsmdb.Raft

/-!
# Raft core — data types

The records exchanged between the deterministic Raft core, its stable store and its
runtime (`internal/raft/types.go`, and `Membership` from `internal/raft/membership.go`).

Conventions of the embedding:

* `uint64` indexes, terms and node identifiers are `ℕ`; only the pseudo-random state of
  the election timer wraps explicitly;
* byte slices are `List UInt8`, a nil slice being `[]`; the defensive copies the source
  makes (`cloneEntry`, `cloneSnapshot`, `cloneMembership`) are identities;
* a nil pointer is `none`, an empty reason string is `none`.
-/

/-- A byte slice. -/
abbrev Bytes := List UInt8

/-- The election role of a node. -/
inductive Role where
  | follower
  | preCandidate
  | candidate
  | leader
  deriving DecidableEq, Repr

/-- The kind of one Raft protocol message. -/
inductive MessageType where
  | preVote
  | preVoteResponse
  | vote
  | voteResponse
  | append
  | appendResponse
  | snapshot
  | snapshotResponse
  deriving DecidableEq, Repr

/-- One replicated log entry.  Indexes begin at one and are contiguous. -/
structure Entry where
  index : ℕ
  term : ℕ
  data : Bytes := []
  deriving DecidableEq, Repr

/-- The term and vote that must survive restart. -/
structure HardState where
  term : ℕ := 0
  votedFor : ℕ := 0
  deriving DecidableEq, Repr

/-- The replicated voter configuration at a log position.  `jointVoters` is non-empty
    only while both voter sets must reach quorum. -/
structure Membership where
  voters : List ℕ := []
  jointVoters : List ℕ := []
  index : ℕ := 0
  deriving DecidableEq, Repr

/-- A durable state-machine image at one committed log position. -/
structure Snapshot where
  index : ℕ := 0
  term : ℕ := 0
  data : Bytes := []
  membership : Membership := {}
  deriving DecidableEq, Repr

/-- The code path that emitted an append; consensus logic never reads it. -/
inductive MessageOrigin where
  | other
  | heartbeat
  | proposal
  | commitAdvance
  | ackResend
  deriving DecidableEq, Repr

/-- The fields shared by vote, append and snapshot RPCs. -/
structure Message where
  type : MessageType
  fromID : ℕ := 0
  toID : ℕ := 0
  term : ℕ := 0
  logIndex : ℕ := 0
  logTerm : ℕ := 0
  entries : List Entry := []
  leaderCommit : ℕ := 0
  reject : Bool := false
  rejectHint : ℕ := 0
  context : ℕ := 0
  snapshot : Option Snapshot := none
  origin : MessageOrigin := .other
  deriving DecidableEq, Repr

/-- The effects produced by one deterministic state transition.  Runtimes persist
    `hardState`, `snapshot`, `truncateFrom` and `entries` before sending `messages`. -/
@[ext] structure Update where
  hardState : Option HardState := none
  truncateFrom : ℕ := 0
  entries : List Entry := []
  messages : List Message := []
  committed : List Entry := []
  roleChanged : Bool := false
  snapshot : Option Snapshot := none
  droppedAppend : Option String := none
  deriving DecidableEq, Repr

/-- `Update.merge`: `other` happened after `u` within the same transition. -/
def Update.merge (u other : Update) : Update where
  hardState := other.hardState.or u.hardState
  truncateFrom := if other.truncateFrom ≠ 0 then other.truncateFrom else u.truncateFrom
  entries := u.entries ++ other.entries
  messages := u.messages ++ other.messages
  committed := u.committed ++ other.committed
  roleChanged := u.roleChanged || other.roleChanged
  snapshot := other.snapshot.or u.snapshot
  droppedAppend := other.droppedAppend.or u.droppedAppend

/-- `append(update.Messages, ms...)`. -/
def Update.send (u : Update) (ms : List Message) : Update :=
  { u with messages := u.messages ++ ms }

/-- Logical tick timing and the immutable bootstrap voter set.  `id` may be absent from
    `peers` when the node starts as a non-voting learner. -/
structure Config where
  id : ℕ
  peers : List ℕ
  electionTickMin : ℕ
  electionTickMax : ℕ
  heartbeatTicks : ℕ
  checkQuorumTicks : ℕ
  randomSeed : ℕ := 0
  appliedIndex : ℕ := 0
  maxAppendBytes : ℕ := 0
  inflightResendTicks : ℕ := 0
  deriving DecidableEq, Repr

/-- The peer loop of `Config.validate`: every identifier is non-zero and new. -/
def validatePeers : List ℕ → List ℕ → Except String Unit
  | _, [] => .ok ()
  | seen, peer :: rest =>
      if peer = 0 then .error "raft peer ID must be non-zero"
      else if peer ∈ seen then .error s!"duplicate raft peer {peer}"
      else validatePeers (peer :: seen) rest

/-- `Config.validate`. -/
def Config.validate (c : Config) : Except String Unit :=
  if c.id = 0 then .error "raft ID must be non-zero"
  else if c.peers.length = 0 then .error "raft peers must not be empty"
  else
    match validatePeers [] c.peers with
    | .error e => .error e
    | .ok () =>
      if c.electionTickMin = 0 ∨ c.electionTickMax ≤ c.electionTickMin then
        .error "invalid election tick range"
      else if c.heartbeatTicks = 0 ∨ c.electionTickMin ≤ c.heartbeatTicks then
        .error "heartbeat ticks must be positive and below election minimum"
      else if c.checkQuorumTicks = 0 ∨ c.electionTickMin < c.checkQuorumTicks then
        .error "check quorum ticks must be positive and at most election minimum"
      else .ok ()

/-- The errors the core returns to its runtime. -/
inductive RaftError where
  | notLeader
  | readNotReady
  | membershipChangeInProgress
  | entryTooLarge
  | invalid (reason : String)
  deriving DecidableEq, Repr

/-- `MaxEntryBytes` bounds one entry's data. -/
def maxEntryBytes : ℕ := 4 * 2 ^ 20 + 32 * 2 ^ 10

/-- `EntryOverheadBytes` bounds one entry's framing inside an append message. -/
def entryOverheadBytes : ℕ := 32

/-- `defaultMaxAppendBytes` caps the accounted entry bytes in one append. -/
def defaultMaxAppendBytes : ℕ := 2 ^ 20

/-- `defaultInflightResendTicks`: leader ticks an entry-carrying append stays
    outstanding without a response before it is sent again. -/
def defaultInflightResendTicks : ℕ := 5

/-! ### Merging updates -/

@[simp] theorem Update.merge_hardState (u v : Update) :
    (u.merge v).hardState = v.hardState.or u.hardState := rfl
@[simp] theorem Update.merge_entries (u v : Update) :
    (u.merge v).entries = u.entries ++ v.entries := rfl
@[simp] theorem Update.merge_messages (u v : Update) :
    (u.merge v).messages = u.messages ++ v.messages := rfl
@[simp] theorem Update.merge_committed (u v : Update) :
    (u.merge v).committed = u.committed ++ v.committed := rfl
@[simp] theorem Update.merge_roleChanged (u v : Update) :
    (u.merge v).roleChanged = (u.roleChanged || v.roleChanged) := rfl
@[simp] theorem Update.merge_snapshot (u v : Update) :
    (u.merge v).snapshot = v.snapshot.or u.snapshot := rfl
@[simp] theorem Update.merge_truncateFrom (u v : Update) :
    (u.merge v).truncateFrom
      = if v.truncateFrom ≠ 0 then v.truncateFrom else u.truncateFrom := rfl

/-- Merging into the empty update changes nothing, so the source's
    `update.merge(f())` on a fresh `update` is just `f()`. -/
@[simp] theorem Update.empty_merge (u : Update) : ({} : Update).merge u = u := by
  cases u with
  | mk hs tf es ms cs rc sn da =>
    simp only [Update.merge, List.nil_append, Bool.false_or, Option.or_none, ne_eq,
      ite_not, Update.mk.injEq, true_and]
    by_cases h : tf = 0 <;> simp [h]

@[simp] theorem Update.merge_empty (u : Update) : u.merge {} = u := by
  ext <;> simp [Update.merge]

theorem Update.merge_assoc (u v w : Update) : (u.merge v).merge w = u.merge (v.merge w) := by
  ext1 <;> simp only [Update.merge, List.append_assoc, Option.or_assoc, Bool.or_assoc]
  by_cases h : w.truncateFrom = 0 <;> simp [h]

/-- Sending is merging an update that carries messages only. -/
theorem Update.send_eq_merge (u : Update) (ms : List Message) :
    u.send ms = u.merge { messages := ms } := by
  ext <;> simp [Update.merge, Update.send]

end Lsmdb.Raft

import Lsmdb.Binary.Protobuf
import Lsmdb.Raft.Chunks

namespace Lsmdb.RaftGrpc

open Lsmdb.Raft Lsmdb.Binary

/-!
# Raft over gRPC — messages on the wire

`internal/raftgrpc/transport.go` turns a core message into the protobuf `RaftMessage` of
`api/lsmdb/v1/lsmdb.proto` and back.  The core accounts `EntryOverheadBytes` for each entry
of an append and `MessageEnvelopeBytes` for the rest without knowing protobuf; here both are
checked against the encoding, for every value of the numeric fields.

A `*LogEntry` or `*RaftMessage` that may be nil is an `Option`.  Snapshots travel on a stream
of their own, so neither direction carries them.
-/

/-- `lsmdbv1.LogEntry`. -/
structure LogEntry where
  index : UInt64
  term : UInt64
  data : Bytes
  deriving DecidableEq

/-- `lsmdbv1.RaftMessage`. -/
structure RaftMessage where
  type : UInt32
  fromID : UInt64
  toID : UInt64
  term : UInt64
  logIndex : UInt64
  logTerm : UInt64
  entries : List (Option LogEntry)
  leaderCommit : UInt64
  reject : Bool
  rejectHint : UInt64
  context : UInt64
  deriving DecidableEq

/-- `raft.MessageType(message.Type)`, defined up to `MsgSnapshotResponse`. -/
def typeOfCode (code : UInt32) : Option MessageType :=
  [MessageType.preVote, .preVoteResponse, .vote, .voteResponse, .append, .appendResponse,
    .snapshot, .snapshotResponse][code.toNat]?

/-- The loop of `FromProto`. -/
def entriesFromProto : List (Option LogEntry) → Except String (List Entry)
  | [] => .ok []
  | none :: _ => .error "nil raft log entry"
  | some entry :: rest =>
      match entriesFromProto rest with
      | .error e => .error e
      | .ok entries =>
        .ok ({ index := entry.index.toNat, term := entry.term.toNat, data := entry.data }
          :: entries)

/-- `FromProto`. -/
def fromProto (message : Option RaftMessage) : Except String Message :=
  match message with
  | none => .error "invalid raft message type"
  | some message =>
    match typeOfCode message.type with
    | none => .error "invalid raft message type"
    | some type =>
      match entriesFromProto message.entries with
      | .error e => .error e
      | .ok entries =>
        .ok { type := type, fromID := message.fromID.toNat, toID := message.toID.toNat,
              term := message.term.toNat, logIndex := message.logIndex.toNat,
              logTerm := message.logTerm.toNat, entries := entries,
              leaderCommit := message.leaderCommit.toNat, reject := message.reject,
              rejectHint := message.rejectHint.toNat, context := message.context.toNat }

/-! ### The encoding -/

/-- `proto.Marshal` of a `LogEntry`; a nil element of a repeated field is an empty message. -/
def marshalEntry : Option LogEntry → Bytes
  | none => []
  | some entry =>
      uintField 1 entry.index.toNat ++ (uintField 2 entry.term.toNat ++ bytesField 3 entry.data)

/-- `proto.Marshal` of a `RaftMessage`, fields in the order of their numbers. -/
def RaftMessage.marshal (m : RaftMessage) : Bytes :=
  uintField 1 m.type.toNat ++ (uintField 2 m.fromID.toNat ++ (uintField 3 m.toID.toNat ++
  (uintField 4 m.term.toNat ++ (uintField 5 m.logIndex.toNat ++ (uintField 6 m.logTerm.toNat ++
  (m.entries.flatMap (fun entry => messageField 7 (marshalEntry entry)) ++
  (uintField 8 m.leaderCommit.toNat ++ (uintField 9 m.reject.toNat ++
  (uintField 10 m.rejectHint.toNat ++ uintField 11 m.context.toNat)))))))))

end Lsmdb.RaftGrpc

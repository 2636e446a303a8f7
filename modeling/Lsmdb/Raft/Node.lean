import Lsmdb.Raft.Membership
import Mathlib.Logic.Function.Basic

namespace Lsmdb.Raft

/-!
# Raft core — the deterministic node

The state machine of `internal/raft/node.go`.  It performs no I/O; callers drive it with
`tick`, `step`, `proposeBatch`, `proposeMembership`, `createSnapshot` and `readProbe`,
and every transition returns the next node together with the `Update` describing its
effects.

The functions that compute `term + 1` take it as an argument `next`.  With `nextTerm64` they
are the source's on every 64-bit term; with the successor they are its functions for as
long as no term reaches the end of its range, which is how the protocol is studied.

The fields of the source's `Node` are split in two.  `Core` holds what safety depends
on: term, vote, log, snapshot, commit index, configuration, collected votes and match
indexes.  `Node` adds the timers and the replication progress.  A transition that only
touches the second group is recognised by its `toCore` being unchanged.

Maps are total functions with the value a Go map read returns for an absent key; `votes`
keeps presence (`none`), because `voteLost` distinguishes an absent vote from a rejection.
-/

/-- The part of a node that the consensus argument reads. -/
structure Core where
  cfg : Config
  role : Role := .follower
  term : ℕ
  votedFor : ℕ
  snapshot : Snapshot
  log : List Entry
  commit : ℕ
  initialMembership : Membership
  membership : Membership
  votes : ℕ → Option Bool := fun _ => none
  matchIndex : ℕ → ℕ := fun _ => 0

/-- `Node`: a deterministic Raft state machine. -/
structure Node extends Core where
  leaderID : ℕ := 0
  electionElapsed : ℕ := 0
  electionTimeout : ℕ := 0
  heartbeatElapsed : ℕ := 0
  quorumElapsed : ℕ := 0
  random : ℕ := 0
  nextIndex : ℕ → ℕ := fun _ => 0
  recentActive : ℕ → Bool := fun _ => false
  outstanding : ℕ → ℕ := fun _ => 0
  outstandingAge : ℕ → ℕ := fun _ => 0
  malformedAppendsDropped : ℕ := 0
  votesIgnoredInLease : ℕ := 0

/-- A Go map assignment `f[k] = v`. -/
abbrev setAt {β : Type} (f : ℕ → β) (k : ℕ) (v : β) : ℕ → β := Function.update f k v

/-! ### Reading the log -/

/-- `Node.lastIndex`. -/
def Core.lastIndex (n : Core) : ℕ := n.snapshot.index + n.log.length

/-- `Node.termAt`: zero for index zero and for indexes the node does not hold. -/
def Core.termAt (n : Core) (index : ℕ) : ℕ :=
  if index = 0 then 0
  else if index = n.snapshot.index then n.snapshot.term
  else if index ≤ n.snapshot.index ∨ n.lastIndex < index then 0
  else (n.log[index - n.snapshot.index - 1]?).elim 0 Entry.term

/-- `Node.entriesBetween`: the retained entries with index in `[lo, hi)`. -/
def Core.entriesBetween (n : Core) (lo hi : ℕ) : List Entry :=
  if hi ≤ lo ∨ lo ≤ n.snapshot.index ∨ n.lastIndex < lo then []
  else (n.log.drop (lo - n.snapshot.index - 1)).take (min hi (n.lastIndex + 1) - lo)

/-- `Node.isUpToDate`: is a log ending in `(index, term)` at least as new as this one? -/
def Core.isUpToDate (n : Core) (index term : ℕ) : Bool :=
  let localTerm := n.termAt n.lastIndex
  decide (localTerm < term ∨ (term = localTerm ∧ n.lastIndex ≤ index))

/-- `Node.hardState`. -/
def Core.hardState (n : Core) : HardState := { term := n.term, votedFor := n.votedFor }

/-- The configuration the log suffix is folded onto. -/
def Core.baseMembership (n : Core) : Membership :=
  if n.snapshot.index > 0 ∧ n.snapshot.membership.voters.length > 0 then
    n.snapshot.membership
  else n.initialMembership

section Codec
variable [MembershipJson]

/-- `Node.rebuildMembership`. -/
def Core.rebuildMembership (n : Core) : Except String Core :=
  match foldMembership n.baseMembership n.log with
  | .error (index, e) => .error s!"membership entry {index}: {e}"
  | .ok m => .ok { n with membership := m }

/-- `Node.membershipAt`. -/
def Core.membershipAt (n : Core) (index : ℕ) : Except String Membership :=
  match foldMembership n.baseMembership (n.log.takeWhile (fun e => decide (e.index ≤ index))) with
  | .error (_, e) => .error e
  | .ok m => .ok m

/-- `Node.peers`. -/
def Core.peers (n : Core) : List ℕ := unionVoters n.membership

/-- `Node.isVoter`. -/
def Core.isVoter (n : Core) (id : ℕ) : Bool := containsVoter n.peers id

/-- `Node.replicationPeers`: an uncommitted final configuration still replicates to the
    voters of the joint configuration before it. -/
def Core.replicationPeers (n : Core) : List ℕ :=
  if n.membership.jointVoters.length = 0 ∧ n.commit < n.membership.index then
    match n.membershipAt (n.membership.index - 1) with
    | .ok prior => if prior.jointVoters.length > 0 then unionVoters prior else n.peers
    | .error _ => n.peers
  else n.peers

/-- `Node.isCommunicationPeer`. -/
def Core.isCommunicationPeer (n : Core) (id : ℕ) : Bool := containsVoter n.replicationPeers id

/-- `Node.compactLog`: the suffix survives only if the entry at the boundary agrees. -/
def Core.compactLog (n : Core) (snapshot : Snapshot) : Core :=
  { n with
    snapshot := snapshot
    log :=
      if snapshot.index < n.lastIndex ∧ n.termAt snapshot.index = snapshot.term then
        n.entriesBetween (snapshot.index + 1) (n.lastIndex + 1)
      else [] }

/-- `Node.HasQuorum` on a set of identifiers. -/
def Core.hasQuorum (n : Core) (ids : List ℕ) : Bool :=
  n.membership.hasQuorum (fun id => decide (id ∈ ids))

/-! ### Sending appends -/

/-- How many entries of `entries` fit the append cap; the first always does. -/
def cappedCount (limit : ℕ) : ℕ → Bool → List Entry → ℕ
  | _, _, [] => 0
  | size, first, entry :: rest =>
      let entrySize := entry.data.length + entryOverheadBytes
      if !first && decide (limit < size + entrySize) then 0
      else cappedCount limit (size + entrySize) false rest + 1

/-- `Node.cappedEntries`. -/
def Core.cappedEntries (n : Core) (lo : ℕ) : List Entry :=
  if lo ≤ n.snapshot.index ∨ n.lastIndex < lo then []
  else
    let limit := if n.cfg.maxAppendBytes = 0 then defaultMaxAppendBytes else n.cfg.maxAppendBytes
    n.entriesBetween lo
      (lo + cappedCount limit 0 true (n.log.drop (lo - n.snapshot.index - 1)))

/-- `Node.appendMessage`: the next append to `peer`, or the snapshot when the entries it
    needs are compacted away.  An append that carries entries becomes the outstanding one. -/
def Node.appendMessage (n : Node) (peer context : ℕ) (origin : MessageOrigin) :
    Node × Message :=
  let next := if n.nextIndex peer = 0 then n.lastIndex + 1 else n.nextIndex peer
  if next ≤ n.snapshot.index then
    (n, { type := .snapshot, fromID := n.cfg.id, toID := peer, term := n.term,
          snapshot := some n.snapshot, origin := origin })
  else
    let message : Message :=
      { type := .append, fromID := n.cfg.id, toID := peer, term := n.term,
        logIndex := next - 1, logTerm := n.termAt (next - 1),
        leaderCommit := n.commit, context := context, origin := origin }
    if n.outstanding peer ≠ 0 then (n, message)
    else
      let entries := n.cappedEntries next
      match entries.getLast? with
      | none => (n, message)
      | some last =>
        ({ n with
            outstanding := setAt n.outstanding peer last.index
            outstandingAge := setAt n.outstandingAge peer 0 },
          { message with entries := entries })

/-- `appendMessage` to each of `peers` in turn. -/
def Node.appendMessages (context : ℕ) (origin : MessageOrigin) :
    Node → List ℕ → Node × List Message
  | n, [] => (n, [])
  | n, peer :: rest =>
      let r := n.appendMessage peer context origin
      let s := Node.appendMessages context origin r.1 rest
      (s.1, r.2 :: s.2)

/-- The loop of `Node.broadcastAppend`: a new proposal waits for the append in flight. -/
def Node.broadcastLoop (origin : MessageOrigin) : Node → List ℕ → Node × List Message
  | n, [] => (n, [])
  | n, peer :: rest =>
      if peer = n.cfg.id then Node.broadcastLoop origin n rest
      else if origin = .proposal ∧ n.outstanding peer ≠ 0 then Node.broadcastLoop origin n rest
      else
        let r := n.appendMessage peer 0 origin
        let s := Node.broadcastLoop origin r.1 rest
        (s.1, r.2 :: s.2)

/-- `Node.broadcastAppend`. -/
def Node.broadcastAppend (n : Node) (origin : MessageOrigin) : Node × List Message :=
  Node.broadcastLoop origin n n.replicationPeers

/-- `Node.settleOutstanding`. -/
def Node.settleOutstanding (n : Node) (peer : ℕ) : Node :=
  if n.outstanding peer ≠ 0 ∧ n.outstanding peer ≤ n.matchIndex peer then
    { n with outstanding := setAt n.outstanding peer 0 }
  else n

/-- The loop of `Node.expireOutstanding`, returning the expired peers in order. -/
def Node.expireLoop (limit : ℕ) : Node → List ℕ → Node × List ℕ
  | n, [] => (n, [])
  | n, peer :: rest =>
      if n.outstanding peer = 0 then Node.expireLoop limit n rest
      else
        let age := n.outstandingAge peer + 1
        let n1 := { n with outstandingAge := setAt n.outstandingAge peer age }
        if limit ≤ age then
          let r := Node.expireLoop limit
            { n1 with outstanding := setAt n1.outstanding peer 0 } rest
          (r.1, peer :: r.2)
        else Node.expireLoop limit n1 rest

/-- `Node.expireOutstanding`. -/
def Node.expireOutstanding (n : Node) : Node × List ℕ :=
  let limit :=
    if n.cfg.inflightResendTicks = 0 then defaultInflightResendTicks
    else n.cfg.inflightResendTicks
  Node.expireLoop limit n n.replicationPeers

/-! ### Roles -/

/-- `Node.resetElectionTimer`; the generator wraps at 64 bits. -/
def Node.resetElectionTimer (n : Node) : Node :=
  let random := (n.random * 6364136223846793005 + 1442695040888963407) % 2 ^ 64
  let span := n.cfg.electionTickMax - n.cfg.electionTickMin
  { n with
    electionElapsed := 0
    random := random
    electionTimeout := n.cfg.electionTickMin + random % span }

/-- `Node.becomeFollower`. -/
def Node.becomeFollower (n : Node) (term leader : ℕ) : Node × Update :=
  let changed := decide (n.role ≠ .follower ∨ n.term ≠ term)
  let hardChanged := decide (term ≠ n.term ∨ (n.term < term ∧ n.votedFor ≠ 0))
  let n1 : Node := if n.term < term then { n with term := term, votedFor := 0 } else n
  let n2 := ({ n1 with role := .follower, leaderID := leader, votes := fun _ => none } :
    Node).resetElectionTimer
  (n2, { roleChanged := changed,
         hardState := if hardChanged then some n2.hardState else none })

/-- The scan of `maybeCommit`: the highest index above `commit` that has the current term
    and a quorum of match indexes. -/
def Core.commitCandidate (n : Core) : ℕ → ℕ
  | 0 => 0
  | candidate + 1 =>
      if n.commit < candidate + 1 then
        if n.termAt (candidate + 1) = n.term
            ∧ n.membership.hasQuorum (fun id => decide (candidate + 1 ≤ n.matchIndex id)) then
          candidate + 1
        else n.commitCandidate candidate
      else candidate + 1

/-- The leader counts its own log as matched up to `index`. -/
def Node.markOwn (n : Node) (index : ℕ) : Node :=
  { n with
    matchIndex := setAt n.matchIndex n.cfg.id index
    nextIndex := setAt n.nextIndex n.cfg.id (index + 1) }

/-- The part of `maybeCommit` that completes a committed joint configuration.  Where
    `rebuildMembership` fails the source panics; that branch is never taken. -/
def Node.appendFinal (n : Node) : Node × List Entry :=
  if n.membership.jointVoters.length > 0 ∧ n.membership.index ≤ n.commit then
    let final : Entry :=
      { index := n.lastIndex + 1, term := n.term,
        data := encodeMembership { phase := .final, new := n.membership.jointVoters } }
    match ({ n with log := n.log ++ [final] } : Node).rebuildMembership with
    | .error _ => (n, [])
    | .ok core => (({ n with toCore := core } : Node).markOwn final.index, [final])
  else (n, [])

/-- `Node.maybeCommit`. -/
def Node.maybeCommit (n : Node) : Node × Update :=
  let candidate := n.commitCandidate n.lastIndex
  if candidate ≤ n.commit then (n, {})
  else
    let n1 : Node := { n with commit := candidate }
    let committed := n1.entriesBetween (n.commit + 1) (candidate + 1)
    let f := n1.appendFinal
    let b := f.1.broadcastAppend .commitAdvance
    let u : Update := { committed := committed, entries := f.2, messages := b.2 }
    -- A leader whose removal is committed steps down.
    if b.1.membership.index ≤ b.1.commit ∧ !b.1.isVoter b.1.cfg.id then
      let d := b.1.becomeFollower b.1.term 0
      (d.1, u.merge d.2)
    else (b.1, u)

/-- `Node.becomeLeader`. -/
def Node.becomeLeader (n : Node) : Node × Update :=
  let last := n.lastIndex
  let noop : Entry := { index := last + 1, term := n.term }
  let n1 : Node :=
    { n with
      role := .leader
      leaderID := n.cfg.id
      heartbeatElapsed := 0
      quorumElapsed := 0
      nextIndex := fun id => if id ∈ n.peers then last + 1 else 0
      matchIndex := fun id => if id = n.cfg.id then last else 0
      recentActive := fun _ => false
      outstanding := fun _ => 0
      outstandingAge := fun _ => 0 }
  let n2 := ({ n1 with log := n1.log ++ [noop] } : Node).markOwn noop.index
  let b := n2.broadcastAppend .other
  let c := b.1.maybeCommit
  (c.1, ({ entries := [noop], roleChanged := true, messages := b.2 } : Update).merge c.2)

/-- The vote or pre-vote requests of a campaign at `term`. -/
def Core.campaignMessages (n : Core) (type : MessageType) (term : ℕ) : List Message :=
  (n.peers.filter (fun peer => peer ≠ n.cfg.id)).map (fun peer =>
    { type := type, fromID := n.cfg.id, toID := peer, term := term,
      logIndex := n.lastIndex, logTerm := n.termAt n.lastIndex })

/-- `n.term + 1` on the source's 64-bit terms. -/
def nextTerm64 (term : ℕ) : ℕ := (term + 1) % 2 ^ 64

/-- `Node.startElection`.  `next` is what `n.term++` computes: `nextTerm64`, or the successor
    for as long as the term does not overflow. -/
def Node.startElectionWith (next : ℕ → ℕ) (n : Node) : Node × Update :=
  let n1 := ({ n with
    role := .candidate
    term := next n.term
    votedFor := n.cfg.id
    leaderID := 0
    votes := setAt (fun _ => none) n.cfg.id (some true) } : Node).resetElectionTimer
  let u : Update := { hardState := some n1.hardState, roleChanged := true }
  if n1.hasQuorum [n1.cfg.id] then
    let l := n1.becomeLeader
    (l.1, u.merge l.2)
  else (n1, u.send (n1.campaignMessages .vote n1.term))

/-- `Node.startPreVote`. -/
def Node.startPreVoteWith (next : ℕ → ℕ) (n : Node) : Node × Update :=
  let changed := decide (n.role ≠ .preCandidate)
  let n1 := ({ n with
    role := .preCandidate
    leaderID := 0
    votes := setAt (fun _ => none) n.cfg.id (some true) } : Node).resetElectionTimer
  if n1.hasQuorum [n1.cfg.id] then n1.startElectionWith next
  else (n1, { roleChanged := changed, messages := n1.campaignMessages .preVote (next n1.term) })

/-- `Node.inLease`. -/
def Node.inLease (n : Node) : Bool :=
  decide (n.role = .leader ∨ (n.leaderID ≠ 0 ∧ n.electionElapsed < n.cfg.electionTickMin))

/-! ### Ticks -/

/-- The `active` set of the check-quorum window. -/
def Node.isActive (n : Node) (id : ℕ) : Bool :=
  (id == n.cfg.id && n.isVoter n.cfg.id)
    || (decide (id ∈ n.peers) && id != n.cfg.id && n.recentActive id)

/-- The check-quorum part of a leader's `Tick`. -/
def Node.checkQuorum (n : Node) : Node × Update :=
  if n.quorumElapsed < n.cfg.checkQuorumTicks then (n, {})
  else
    let n1 : Node :=
      { n with
        quorumElapsed := 0
        recentActive := fun id => if id ∈ n.peers then false else n.recentActive id }
    if n.membership.hasQuorum n.isActive then (n1, {})
    else n1.becomeFollower n1.term 0

/-- `Node.Tick`. -/
def Node.tickWith (next : ℕ → ℕ) (n : Node) : Node × Update :=
  if n.role = .leader then
    let n1 : Node :=
      { n with heartbeatElapsed := n.heartbeatElapsed + 1, quorumElapsed := n.quorumElapsed + 1 }
    let e := n1.expireOutstanding
    let b :=
      if e.1.heartbeatElapsed ≥ e.1.cfg.heartbeatTicks then
        ({ e.1 with heartbeatElapsed := 0 } : Node).broadcastAppend .heartbeat
      else Node.appendMessages 0 .heartbeat e.1 e.2
    let q := b.1.checkQuorum
    (q.1, ({ messages := b.2 } : Update).merge q.2)
  else if !n.isVoter n.cfg.id then (n, {})
  else
    let n1 : Node := { n with electionElapsed := n.electionElapsed + 1 }
    if n1.electionElapsed ≥ n1.electionTimeout then n1.startPreVoteWith next else (n1, {})

/-! ### Votes -/

/-- `Node.handlePreVote`.  A grant echoes the proposed term; a rejection reports this
    node's own. -/
def Node.handlePreVoteWith (next : ℕ → ℕ) (n : Node) (m : Message) : Message :=
  let leaderIsRecent := decide (n.leaderID ≠ 0 ∧ n.electionElapsed < n.electionTimeout)
  let grant := n.isVoter n.cfg.id && decide (next n.term ≤ m.term) && !leaderIsRecent
    && n.isUpToDate m.logIndex m.logTerm
  { type := .preVoteResponse, fromID := n.cfg.id, toID := m.fromID,
    term := if grant then m.term else n.term, reject := !grant }

/-- The votes counted as granted. -/
def Core.granted (n : Core) (id : ℕ) : Bool := n.votes id == some true

/-- The votes counted as rejected. -/
def Core.rejected (n : Core) (id : ℕ) : Bool := n.votes id == some false

/-- `Node.handlePreVoteResponse`. -/
def Node.handlePreVoteResponseWith (next : ℕ → ℕ) (n : Node) (m : Message) : Node × Update :=
  if m.reject ∧ n.term < m.term then n.becomeFollower m.term 0
  else
    let granted := !m.reject && decide (m.term = next n.term)
    let rejected := m.reject && decide (m.term ≤ n.term)
    if n.role ≠ .preCandidate ∨ (!granted && !rejected) then (n, {})
    else
      let n1 : Node := { n with votes := setAt n.votes m.fromID (some granted) }
      if n1.membership.hasQuorum n1.granted then n1.startElectionWith next
      else if n1.membership.voteLost n1.rejected then n1.becomeFollower n1.term 0
      else (n1, {})

/-- `Node.handleVote`. -/
def Node.handleVote (n : Node) (m : Message) : Node × Update :=
  let canVote := decide (n.votedFor = 0 ∨ n.votedFor = m.fromID)
  let grant := n.isVoter n.cfg.id && canVote && n.isUpToDate m.logIndex m.logTerm
  let response : Message :=
    { type := .voteResponse, fromID := n.cfg.id, toID := m.fromID, term := n.term,
      reject := !grant }
  if grant then
    let n1 := ({ n with votedFor := m.fromID, leaderID := 0 } : Node).resetElectionTimer
    (n1, { hardState := some n1.hardState, messages := [response] })
  else (n, { messages := [response] })

/-- `Node.handleVoteResponse`. -/
def Node.handleVoteResponse (n : Node) (m : Message) : Node × Update :=
  if n.role ≠ .candidate ∨ m.term ≠ n.term then (n, {})
  else
    let n1 : Node := { n with votes := setAt n.votes m.fromID (some (!m.reject)) }
    if n1.membership.hasQuorum n1.granted then n1.becomeLeader
    else if n1.membership.voteLost n1.rejected then n1.becomeFollower n1.term 0
    else (n1, {})

/-! ### Appends -/

/-- The loop of `malformedAppend` from entry `i` on; `previous` is the term before it. -/
def malformedFrom (m : Message) (i previous : ℕ) : List Entry → Option String
  | [] => none
  | entry :: rest =>
      let want := m.logIndex + i + 1
      if entry.index ≠ want then
        some s!"entry {i} has index {entry.index}, want {want}"
      else if entry.term = 0 then some s!"entry {i} (index {entry.index}) has term 0"
      else if maxEntryBytes < entry.data.length then
        some s!"entry {i} (index {entry.index}) has {entry.data.length} bytes, over {maxEntryBytes}"
      else if m.term < entry.term then
        some s!"entry {i} (index {entry.index}) has term {entry.term}, above the message term {m.term}"
      else if i = 0 ∧ entry.term < previous then
        some s!"entry 0 (index {entry.index}) has term {entry.term}, below LogTerm {previous}"
      else if entry.term < previous then
        some (s!"entry {i} (index {entry.index}) has term {entry.term}, below the previous " ++
          s!"entry's {previous}")
      else malformedFrom m (i + 1) entry.term rest

/-- `malformedAppend`: why an append's entries cannot have come from a correct leader. -/
def malformedAppend (m : Message) : Option String := malformedFrom m 0 m.logTerm m.entries

/-- The hint loop of `handleAppend`: walk down while the entry below has the
    conflicting term. -/
def Core.conflictHint (n : Core) (conflictTerm : ℕ) : ℕ → ℕ
  | 0 => 0
  | hint + 1 =>
      if n.snapshot.index + 1 < hint + 1 ∧ n.termAt hint = conflictTerm then
        n.conflictHint conflictTerm hint
      else hint + 1

/-- A negative answer of type `type` to message `m`. -/
def Core.rejection (n : Core) (m : Message) (type : MessageType) (hint : ℕ) : Message :=
  { type := type, fromID := n.cfg.id, toID := m.fromID, term := n.term, reject := true,
    rejectHint := hint }

/-- What the entry loop of `handleAppend` finds. -/
inductive Splice where
  /-- Every entry is already held with the same term. -/
  | held
  /-- The first entry that disagrees is at or below the commit index. -/
  | committedConflict
  /-- Keep `keep` retained entries, then append `entries`; `truncateFrom` is zero unless
      that cuts entries off. -/
  | replace (keep truncateFrom : ℕ) (entries : List Entry)
  deriving DecidableEq

/-- The entry loop of `handleAppend`: skip held entries up to the first that is new or
    disagrees. -/
def Core.splice (n : Core) : List Entry → Splice
  | [] => .held
  | entry :: rest =>
      if entry.index ≤ n.lastIndex then
        if n.termAt entry.index = entry.term then n.splice rest
        else if entry.index ≤ n.commit then .committedConflict
        else .replace (entry.index - n.snapshot.index - 1) entry.index (entry :: rest)
      else .replace n.log.length 0 (entry :: rest)

/-- The log rewrite of `handleAppend`: the new core, or `none` when rebuilding the
    configuration fails and the old log is restored. -/
def Core.applySplice (n : Core) (keep truncateFrom : ℕ) (entries : List Entry) :
    Option Core :=
  let n1 := { n with log := n.log.take keep ++ entries }
  if truncateFrom ≠ 0 ∨ entries.any (fun e => hasMembershipPrefix e.data) then
    n1.rebuildMembership.toOption
  else some n1

/-- The end of `handleAppend`: advance the commit index to what this message proved and
    acknowledge it. -/
def Node.acceptAppend (n : Node) (m : Message) (u : Update) : Node × Update :=
  let lastNew := min (m.logIndex + m.entries.length) n.lastIndex
  let commit := min m.leaderCommit lastNew
  let response : Message :=
    { type := .appendResponse, fromID := n.cfg.id, toID := m.fromID, term := n.term,
      logIndex := lastNew, context := m.context }
  if n.commit < commit then
    let n1 : Node := { n with commit := commit }
    (n1, { u with
      committed := u.committed ++ n1.entriesBetween (n.commit + 1) (commit + 1)
      messages := u.messages ++ [response] })
  else (n, u.send [response])

/-- The opening of `handleAppend` and `handleSnapshot`: follow the sender. -/
def Node.followSender (n : Node) (sender : ℕ) : Node × Update :=
  let r := if n.role ≠ .follower ∨ n.leaderID ≠ sender then n.becomeFollower n.term sender
    else (n, {})
  (({ r.1 with leaderID := sender } : Node).resetElectionTimer, r.2)

/-- `Node.handleAppend`. -/
def Node.handleAppend (n : Node) (m : Message) : Node × Update :=
  let r := n.followSender m.fromID
  let n := r.1
  if n.lastIndex < m.logIndex ∨ n.termAt m.logIndex ≠ m.logTerm then
    let hint := if m.logIndex ≤ n.lastIndex then n.conflictHint (n.termAt m.logIndex) m.logIndex
      else n.lastIndex + 1
    (n, r.2.send [n.rejection m .appendResponse hint])
  else
    match n.splice m.entries with
    | .held => n.acceptAppend m r.2
    | .committedConflict => (n, r.2.send [n.rejection m .appendResponse (n.commit + 1)])
    | .replace keep truncateFrom entries =>
      match n.applySplice keep truncateFrom entries with
      | none => (n, r.2.send [n.rejection m .appendResponse (n.lastIndex + 1)])
      | some core =>
        ({ n with toCore := core } : Node).acceptAppend m
          { r.2 with truncateFrom := truncateFrom, entries := r.2.entries ++ entries }

/-- `Node.handleAppendResponse`. -/
def Node.handleAppendResponse (n : Node) (m : Message) : Node × Update :=
  if n.role ≠ .leader ∨ m.term ≠ n.term then (n, {})
  else
    let n1 : Node := { n with recentActive := setAt n.recentActive m.fromID true }
    if m.reject then
      let cur := n1.nextIndex m.fromID
      let next := if 0 < m.rejectHint ∧ m.rejectHint < cur then m.rejectHint
        else if 1 < cur then cur - 1 else cur
      let n2 : Node :=
        { n1 with
          nextIndex := setAt n1.nextIndex m.fromID
            (max (max 1 next) (n1.matchIndex m.fromID + 1))
          outstanding := setAt n1.outstanding m.fromID 0 }
      let a := n2.appendMessage m.fromID m.context .ackResend
      (a.1, { messages := [a.2] })
    else
      let old := n1.matchIndex m.fromID
      let matched := min m.logIndex n1.lastIndex
      let n2 : Node :=
        if old < m.logIndex then
          { n1 with
            matchIndex := setAt n1.matchIndex m.fromID matched
            nextIndex := setAt n1.nextIndex m.fromID (matched + 1) }
        else n1
      let c := (n2.settleOutstanding m.fromID).maybeCommit
      if (old < m.logIndex ∧ old < matched) ∧ c.1.outstanding m.fromID = 0
          ∧ c.1.nextIndex m.fromID ≤ c.1.lastIndex then
        let a := c.1.appendMessage m.fromID m.context .ackResend
        (a.1, c.2.send [a.2])
      else c

/-! ### Snapshots -/

/-- `Node.handleSnapshot`. -/
def Node.handleSnapshot (n : Node) (m : Message) : Node × Update :=
  match m.snapshot with
  | none => (n, { messages := [n.rejection m .snapshotResponse (n.lastIndex + 1)] })
  | some sent =>
    if sent.index = 0 ∨ sent.term = 0 then
      (n, { messages := [n.rejection m .snapshotResponse (n.lastIndex + 1)] })
    else
      let r := n.followSender m.fromID
      let n := r.1
      let refuse : Node × Update :=
        (n, r.2.send [n.rejection m .snapshotResponse (n.lastIndex + 1)])
      let accept (n : Node) (snapshot : Snapshot) (u : Update) : Node × Update :=
        (n, u.send [{ type := .snapshotResponse, fromID := n.cfg.id, toID := m.fromID,
                      term := n.term, logIndex := max snapshot.index n.snapshot.index }])
      let snapshot := if sent.membership.voters.length = 0 then
        { sent with membership := n.initialMembership } else sent
      match validateMembership snapshot.membership with
      | .error _ => refuse
      | .ok () =>
        if snapshot.index < snapshot.membership.index then refuse
        else if n.snapshot.index < snapshot.index then
          if snapshot.index ≤ n.commit ∧ n.termAt snapshot.index ≠ snapshot.term then refuse
          else
            match (n.compactLog snapshot).rebuildMembership with
            | .error _ => refuse
            | .ok core =>
              accept { n with toCore := { core with commit := max core.commit snapshot.index } }
                snapshot { r.2 with snapshot := some snapshot }
        else accept n snapshot r.2

/-- `Node.handleSnapshotResponse`. -/
def Node.handleSnapshotResponse (n : Node) (m : Message) : Node × Update :=
  if n.role ≠ .leader ∨ m.term ≠ n.term then (n, {})
  else
    let n1 : Node := { n with recentActive := setAt n.recentActive m.fromID true }
    if m.reject then
      let a := ({ n1 with outstanding := setAt n1.outstanding m.fromID 0 } : Node).appendMessage
        m.fromID 0 .other
      (a.1, { messages := [a.2] })
    else
      let matched := min m.logIndex n1.lastIndex
      let n2 : Node :=
        if n1.matchIndex m.fromID < matched then
          { n1 with
            matchIndex := setAt n1.matchIndex m.fromID matched
            nextIndex := setAt n1.nextIndex m.fromID (matched + 1) }
        else n1
      let c := (n2.settleOutstanding m.fromID).maybeCommit
      if c.1.nextIndex m.fromID ≤ c.1.lastIndex then
        let a := c.1.appendMessage m.fromID 0 .other
        (a.1, c.2.send [a.2])
      else c

/-! ### Stepping a message -/

/-- `Node.rejectStale`. -/
def Core.rejectStale (n : Core) (m : Message) : Message :=
  match m.type with
  | .vote => n.rejection m .voteResponse 0
  | .append => n.rejection m .appendResponse (n.lastIndex + 1)
  | .snapshot => n.rejection m .snapshotResponse 0
  | type => n.rejection m type 0

/-- The switch at the end of `Step`. -/
def Node.dispatchWith (next : ℕ → ℕ) (n : Node) (m : Message) : Node × Update :=
  match m.type with
  | .preVote => (n, { messages := [n.handlePreVoteWith next m] })
  | .preVoteResponse => n.handlePreVoteResponseWith next m
  | .vote => n.handleVote m
  | .voteResponse => n.handleVoteResponse m
  | .append => n.handleAppend m
  | .appendResponse => n.handleAppendResponse m
  | .snapshot => n.handleSnapshot m
  | .snapshotResponse => n.handleSnapshotResponse m

/-- `Step` after the checks that drop a message: adopt a higher term, answer a stale one. -/
def Node.stepTermWith (next : ℕ → ℕ) (n : Node) (m : Message) : Node × Update :=
  if m.type ≠ .preVote ∧ m.type ≠ .preVoteResponse then
    if n.term < m.term then
      let f := n.becomeFollower m.term 0
      let d := f.1.dispatchWith next m
      (d.1, f.2.merge d.2)
    else if m.term < n.term then (n, { messages := [n.rejectStale m] })
    else n.dispatchWith next m
  else n.dispatchWith next m

/-- `Node.Step`. -/
def Node.stepWith (next : ℕ → ℕ) (n : Node) (m : Message) : Node × Update :=
  if m.toID ≠ 0 ∧ m.toID ≠ n.cfg.id then (n, {})
  else if !n.isCommunicationPeer m.fromID ∨ m.fromID = n.cfg.id then (n, {})
  else
    match if m.type = .append then malformedAppend m else none with
    | some reason =>
      ({ n with malformedAppendsDropped := n.malformedAppendsDropped + 1 },
        { droppedAppend := some s!"from {m.fromID} at term {m.term}: {reason}" })
    | none =>
      if m.type = .vote ∧ n.term < m.term ∧ n.inLease then
        ({ n with votesIgnoredInLease := n.votesIgnoredInLease + 1 }, {})
      else n.stepTermWith next m

/-- `Tick` while the term does not overflow. -/
def Node.tick (n : Node) : Node × Update := n.tickWith (· + 1)

/-- `Step` while the term does not overflow. -/
def Node.step (n : Node) (m : Message) : Node × Update := n.stepWith (· + 1) m

/-! ### Proposals, reads and local snapshots -/

/-- The append loop of `ProposeBatch`: oversize commands get index zero. -/
def Core.appendCommands (n : Core) : List Bytes → Core × List ℕ × List Entry
  | [] => (n, [], [])
  | command :: rest =>
      if maxEntryBytes < command.length then
        let r := n.appendCommands rest
        (r.1, 0 :: r.2.1, r.2.2)
      else
        let entry : Entry := { index := n.lastIndex + 1, term := n.term, data := command }
        let r := ({ n with log := n.log ++ [entry] } : Core).appendCommands rest
        (r.1, entry.index :: r.2.1, entry :: r.2.2)

/-- `Node.ProposeBatch`: the index of each command, and the update. -/
def Node.proposeBatch (n : Node) (data : List Bytes) :
    Node × Except RaftError (List ℕ × Update) :=
  if n.role ≠ .leader then (n, .error .notLeader)
  else
    let r := n.appendCommands data
    if r.2.2.length = 0 then (n, .ok (r.2.1, {}))
    else
      let n1 := ({ n with toCore := r.1 } : Node).markOwn r.1.lastIndex
      let b := n1.broadcastAppend .proposal
      let c := b.1.maybeCommit
      (c.1, .ok (r.2.1, ({ entries := r.2.2, messages := b.2 } : Update).merge c.2))

/-- `Node.Propose`. -/
def Node.propose (n : Node) (data : Bytes) : Node × Except RaftError (ℕ × Update) :=
  if maxEntryBytes < data.length then (n, .error .entryTooLarge)
  else
    match n.proposeBatch [data] with
    | (n1, .error e) => (n1, .error e)
    | (n1, .ok (indexes, update)) => (n1, .ok (indexes.headD 0, update))

/-- `Node.ProposeMembership`.  The index returned is the one the final entry would get. -/
def Node.proposeMembership (n : Node) (voters : List ℕ) :
    Node × Except RaftError (ℕ × Update) :=
  if n.role ≠ .leader then (n, .error .notLeader)
  else if n.membership.jointVoters.length > 0 ∨ n.commit < n.membership.index then
    (n, .error .membershipChangeInProgress)
  else
    match normalizeVoters voters with
    | .error e => (n, .error (.invalid e))
    | .ok newVoters =>
      if equalVoters newVoters n.membership.voters then (n, .ok (n.membership.index, {}))
      else
        let entry : Entry :=
          { index := n.lastIndex + 1, term := n.term,
            data := encodeMembership
              { phase := .joint, old := n.membership.voters, new := newVoters } }
        let n1 : Node := { n with log := n.log ++ [entry] }
        match n1.rebuildMembership with
        | .error e => (n1, .error (.invalid e))
        | .ok core =>
          let n2 : Node :=
            { n1 with
              toCore := core
              nextIndex := fun peer =>
                if peer ∈ core.peers ∧ n1.nextIndex peer = 0 then entry.index
                else n1.nextIndex peer }
          let b := (n2.markOwn entry.index).broadcastAppend .other
          let c := b.1.maybeCommit
          (c.1, .ok (entry.index + 1,
            ({ entries := [entry], messages := b.2 } : Update).merge c.2))

/-- `Node.ReadProbe`: contextual heartbeats that confirm current leadership. -/
def Node.readProbe (n : Node) (context : ℕ) : Node × Except RaftError Update :=
  if n.role ≠ .leader then (n, .error .notLeader)
  else if n.commit = 0 ∨ n.termAt n.commit ≠ n.term then (n, .error .readNotReady)
  else
    let r := Node.appendMessages context .other n (n.peers.filter (fun peer => peer ≠ n.cfg.id))
    (r.1, .ok { messages := r.2 })

/-- `Node.Compact`. -/
def Node.compact (n : Node) (snapshot : Snapshot) : Node × Except String Update :=
  if snapshot.index ≤ n.snapshot.index then (n, .ok {})
  else if n.commit < snapshot.index ∨ snapshot.term = 0
      ∨ n.termAt snapshot.index ≠ snapshot.term then
    (n, .error s!"invalid snapshot boundary {snapshot.index}/{snapshot.term} at commit {n.commit}")
  else
    match n.membershipAt snapshot.index with
    | .error e => (n, .error e)
    | .ok expected =>
      let snapshot := if snapshot.membership.voters.length = 0 then
        { snapshot with membership := expected } else snapshot
      if snapshot.index < snapshot.membership.index then
        (n, .error "snapshot membership index exceeds snapshot index")
      else if !equalVoters snapshot.membership.voters expected.voters
          || !equalVoters snapshot.membership.jointVoters expected.jointVoters
          || snapshot.membership.index != expected.index then
        (n, .error "snapshot membership does not match its log index")
      else
        let n1 : Node := { n with toCore := n.compactLog snapshot }
        match n1.rebuildMembership with
        | .error e => (n1, .error e)
        | .ok core => ({ n1 with toCore := core }, .ok { snapshot := some snapshot })

/-- `Node.CreateSnapshot`. -/
def Node.createSnapshot (n : Node) (index : ℕ) (data : Bytes) : Node × Except String Update :=
  match n.membershipAt index with
  | .error e => (n, .error e)
  | .ok membership =>
    n.compact { index := index, term := n.termAt index, data := data, membership := membership }

/-- `Status`. -/
structure Status where
  id : ℕ
  role : Role
  term : ℕ
  leaderID : ℕ
  commitIndex : ℕ
  lastLogIndex : ℕ
  snapshotIndex : ℕ
  retainedLogEntries : ℕ
  votedFor : ℕ
  matchIndex : Option (ℕ → ℕ)
  membership : Membership
  malformedAppendsDropped : ℕ
  votesIgnoredInLease : ℕ

/-- `Node.Status`; only a leader reports match indexes. -/
def Node.status (n : Node) : Status where
  id := n.cfg.id
  role := n.role
  term := n.term
  leaderID := n.leaderID
  commitIndex := n.commit
  lastLogIndex := n.lastIndex
  snapshotIndex := n.snapshot.index
  retainedLogEntries := n.log.length
  votedFor := n.votedFor
  matchIndex := if n.role = .leader then some n.matchIndex else none
  membership := n.membership
  malformedAppendsDropped := n.malformedAppendsDropped
  votesIgnoredInLease := n.votesIgnoredInLease

/-! ### Construction from durable state -/

/-- The contiguity check of `New` from position `i` on. -/
def checkContiguous (snapshotIndex : ℕ) : ℕ → List Entry → Except String Unit
  | _, [] => .ok ()
  | i, entry :: rest =>
      if entry.index ≠ snapshotIndex + i + 1 ∨ entry.term = 0 then
        .error s!"raft log is not contiguous at position {i}"
      else checkContiguous snapshotIndex (i + 1) rest

/-- The check `New` makes on the restored snapshot. -/
def checkRestored (snapshot : Snapshot) : Except String Unit :=
  if decide (snapshot.index = 0) ≠ decide (snapshot.term = 0)
      ∨ (snapshot.index = 0 ∧ snapshot.data.length ≠ 0) then
    .error "restored snapshot requires positive index and term"
  else if snapshot.index < snapshot.membership.index then
    .error "snapshot membership index exceeds snapshot index"
  else .ok ()

/-- The check `New` makes on the configuration of the restored snapshot. -/
def checkSnapshotMembership (snapshot : Snapshot) : Except String Unit :=
  if snapshot.index > 0 ∧ snapshot.membership.voters.length > 0 then
    match validateMembership snapshot.membership with
    | .error e => .error s!"restored snapshot membership: {e}"
    | .ok () => .ok ()
  else .ok ()

/-- The check `New` makes on the applied index. -/
def checkApplied (applied lo hi : ℕ) : Except String Unit :=
  if applied < lo ∨ hi < applied then
    .error s!"applied index {applied} is outside snapshot/log range [{lo},{hi}]"
  else .ok ()

/-- `New`: a node from durable hard state, log entries and snapshot. -/
def Node.new (cfg : Config) (hard : HardState) (entries : List Entry)
    (restored : Option Snapshot) : Except String Node := do
  cfg.validate
  let snapshot := restored.getD {}
  checkRestored snapshot
  checkContiguous snapshot.index 0 entries
  let peers ← normalizeVoters cfg.peers
  checkSnapshotMembership snapshot
  let core ← ({ cfg := { cfg with peers := peers }, term := hard.term,
                votedFor := hard.votedFor, snapshot := snapshot, log := entries,
                commit := cfg.appliedIndex, initialMembership := { voters := peers },
                membership := { voters := peers } } : Core).rebuildMembership
  checkApplied cfg.appliedIndex snapshot.index core.lastIndex
  let random := if cfg.randomSeed = 0 then
    (cfg.id * 6364136223846793005 + 1442695040888963407) % 2 ^ 64 else cfg.randomSeed
  return ({ toCore := core, random := random } : Node).resetElectionTimer

end Codec

end Lsmdb.Raft

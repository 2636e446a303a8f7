import Lsmdb.Raft.Eligibility

namespace Lsmdb.Raft

open Node

/-!
# Raft core — what a node knows of its leader

A node in its vote lease either leads or has a leader it heard from recently.  `Node.Hears`
sorts the outcomes of an operation by what it leaves of that knowledge: the node forgets its
leader, keeps it, leads itself, or follows the sender of an append or a snapshot.  A node that
is in lease before and after an operation keeps its term unless it is the last
(`Node.Hears.term`): every other way to a higher term ends the lease.
-/

section Codec
variable [MembershipJson] {n n' : Node} {op : Op}

/-! ### Outcomes -/

/-- The node has no leader, and is none. -/
def Node.Forgets (n : Node) : Prop := n.role ≠ .leader ∧ n.leaderID = 0

/-- Role, leader and term are the same. -/
def Node.Keeps (n n' : Node) : Prop :=
  n'.role = n.role ∧ n'.leaderID = n.leaderID ∧ n'.term = n.term

/-- **What an operation leaves of the knowledge of the leader.** -/
inductive Node.Hears (n : Node) (op : Op) (n' : Node) : Prop
  | forgets (h : n'.Forgets)
  | keeps (h : n.Keeps n')
  | leads (hr : n'.role = .leader)
      (hold : (n.role = .leader ∧ n'.term = n.term) ∨ n.role = .candidate
        ∨ n.role = .preCandidate
        ∨ (op = .tick ∧ n.role ≠ .leader ∧ n.hasQuorum [n.cfg.id] = true))
  | follows (m : Message) (hm : op = .step m) (htype : m.type = .append ∨ m.type = .snapshot)
      (hpeer : n.isCommunicationPeer m.fromID = true) (hfrom : m.fromID ≠ n.cfg.id)
      (hr : n'.role = .follower) (hl : n'.leaderID = m.fromID)
      (ht : n'.term = n.term ∨ n'.term = m.term)

omit [MembershipJson] in
theorem Node.becomeFollower_forgets (n : Node) (t : ℕ) : (n.becomeFollower t 0).1.Forgets :=
  ⟨by simp [becomeFollower, resetElectionTimer], rfl⟩

/-! ### Sending does not touch the leader -/

section
omit [MembershipJson]

@[simp] theorem Node.appendMessage_leaderID (n : Node) (peer context : ℕ)
    (origin : MessageOrigin) :
    (n.appendMessage peer context origin).1.leaderID = n.leaderID := by
  unfold appendMessage
  dsimp only
  generalize (if n.nextIndex peer = 0 then n.lastIndex + 1 else n.nextIndex peer) = next
  split
  · rfl
  · split
    · rfl
    · split <;> rfl

@[simp] theorem Node.appendMessages_leaderID (context : ℕ) (origin : MessageOrigin)
    (peers : List ℕ) :
    ∀ n : Node, (Node.appendMessages context origin n peers).1.leaderID = n.leaderID := by
  induction peers with
  | nil => exact fun _ => rfl
  | cons peer rest ih =>
    intro n
    exact (ih _).trans (n.appendMessage_leaderID peer context origin)

theorem Node.broadcastLoop_leaderID (origin : MessageOrigin) (peers : List ℕ) :
    ∀ n : Node, (Node.broadcastLoop origin n peers).1.leaderID = n.leaderID := by
  induction peers with
  | nil => exact fun _ => rfl
  | cons peer rest ih =>
    intro n
    unfold broadcastLoop
    split
    · exact ih n
    · split
      · exact ih n
      · exact (ih _).trans (n.appendMessage_leaderID peer 0 origin)

end

@[simp] theorem Node.broadcastAppend_leaderID (n : Node) (origin : MessageOrigin) :
    (n.broadcastAppend origin).1.leaderID = n.leaderID :=
  broadcastLoop_leaderID origin n.replicationPeers n

omit [MembershipJson] in
theorem Node.expireLoop_leaderID (limit : ℕ) (peers : List ℕ) :
    ∀ n : Node, (Node.expireLoop limit n peers).1.leaderID = n.leaderID := by
  induction peers with
  | nil => exact fun _ => rfl
  | cons peer rest ih =>
    intro n
    unfold expireLoop
    split
    · exact ih n
    · dsimp only
      split
      · exact ih _
      · exact ih _

theorem Node.appendFinal_leaderID (n : Node) : n.appendFinal.1.leaderID = n.leaderID := by
  unfold appendFinal
  split
  · dsimp only
    split <;> rfl
  · rfl

theorem Node.appendFinal_term (n : Node) : n.appendFinal.1.term = n.term := by
  unfold appendFinal
  split
  · dsimp only
    split
    · rfl
    · rename_i core hcore
      obtain ⟨mem, _, rfl⟩ := Core.rebuildMembership_eq hcore
      rfl
  · rfl

/-- A commit keeps the leader, or ends in stepping down. -/
theorem Node.maybeCommit_leader (n : Node) : n.Keeps n.maybeCommit.1 ∨ n.maybeCommit.1.Forgets := by
  unfold maybeCommit
  dsimp only
  split
  · exact .inl ⟨rfl, rfl, rfl⟩
  split
  · exact .inr (becomeFollower_forgets _ _)
  left
  refine ⟨?_, ?_, ?_⟩
  · rw [broadcastAppend, broadcastLoop_core, appendFinal_role]
  · rw [broadcastAppend_leaderID, appendFinal_leaderID]
  · rw [broadcastAppend, broadcastLoop_core, appendFinal_term]

/-- A commit of a leader after its log or its progress has changed. -/
private theorem Node.Hears.committed {n1 : Node} (hr : n.role = .leader)
    (h1 : n1.role = .leader) (ht : n1.term = n.term) : n.Hears op n1.maybeCommit.1 := by
  rcases n1.maybeCommit_leader with ⟨hr', _, ht'⟩ | hf
  · exact .leads (hr'.trans h1) (.inl ⟨hr, ht'.trans ht⟩)
  · exact .forgets hf

/-! ### Elections -/

/-- A node that wins leads, unless committing its no-op removes it. -/
theorem Node.becomeLeader_leads (n : Node) :
    n.becomeLeader.1.role = .leader ∨ n.becomeLeader.1.Forgets := by
  unfold becomeLeader
  dsimp only
  generalize hn2 : (markOwn _ _ : Node) = n2
  have hr2 : n2.role = .leader := by subst hn2; rfl
  rcases (n2.broadcastAppend .other).1.maybeCommit_leader with ⟨hr, _⟩ | hf
  · left
    rw [hr, broadcastAppend, broadcastLoop_core, hr2]
  · exact .inr hf

theorem Node.startElectionWith_leads (next : ℕ → ℕ) (n : Node) :
    ((n.startElectionWith next).1.role = .leader ∧ n.hasQuorum [n.cfg.id] = true)
      ∨ (n.startElectionWith next).1.Forgets := by
  unfold startElectionWith
  dsimp only
  split
  · rename_i hq
    exact (becomeLeader_leads _).imp (fun hr => ⟨hr, hq⟩) id
  · exact .inr ⟨by simp [resetElectionTimer], rfl⟩

theorem Node.tickWith_hears (next : ℕ → ℕ) (n : Node) : n.Hears .tick (n.tickWith next).1 := by
  unfold tickWith
  split
  · dsimp only
    generalize hn1 : ({ n with
      heartbeatElapsed := n.heartbeatElapsed + 1
      quorumElapsed := n.quorumElapsed + 1 } : Node) = n1
    have hk1 : n.Keeps n1 := by subst hn1; exact ⟨rfl, rfl, rfl⟩
    have hce : n1.expireOutstanding.1.toCore = n1.toCore := (expireLoop_spec _ _ n1).1
    have hle : n1.expireOutstanding.1.leaderID = n1.leaderID :=
      expireLoop_leaderID _ _ n1
    generalize n1.expireOutstanding = e at *
    generalize hb : (if e.1.heartbeatElapsed ≥ e.1.cfg.heartbeatTicks then _ else _ :
      Node × List Message) = b
    have hkb : n.Keeps b.1 := by
      subst hb
      split
      · refine ⟨?_, ?_, ?_⟩
        · rw [broadcastAppend, broadcastLoop_core]
          show e.1.role = _
          rw [hce]; exact hk1.1
        · rw [broadcastAppend_leaderID]
          exact hle.trans hk1.2.1
        · rw [broadcastAppend, broadcastLoop_core]
          show e.1.term = _
          rw [hce]; exact hk1.2.2
      · refine ⟨?_, ?_, ?_⟩
        · rw [appendMessages_core, hce]; exact hk1.1
        · rw [appendMessages_leaderID]; exact hle.trans hk1.2.1
        · rw [appendMessages_core, hce]; exact hk1.2.2
    unfold checkQuorum
    split
    · exact .keeps hkb
    · dsimp only
      split
      · exact .keeps hkb
      · exact .forgets (becomeFollower_forgets _ _)
  · rename_i hlead
    split
    · exact .keeps ⟨rfl, rfl, rfl⟩
    dsimp only
    split
    · unfold startPreVoteWith
      dsimp only
      split
      · rename_i hq
        rcases startElectionWith_leads next _ with ⟨hr, _⟩ | hf
        · exact .leads hr (.inr (.inr (.inr ⟨rfl, hlead, hq⟩)))
        · exact .forgets hf
      · exact .forgets ⟨by simp [resetElectionTimer], rfl⟩
    · exact .keeps ⟨rfl, rfl, rfl⟩

/-! ### Messages -/

theorem Node.handlePreVoteResponseWith_hears (next : ℕ → ℕ) (n : Node) (m : Message) :
    n.Hears op (n.handlePreVoteResponseWith next m).1 := by
  unfold handlePreVoteResponseWith
  split
  · exact .forgets (becomeFollower_forgets _ _)
  dsimp only
  split
  · exact .keeps ⟨rfl, rfl, rfl⟩
  rename_i hcond
  have hr : n.role = .preCandidate := by
    by_contra hne; exact hcond (.inl hne)
  split
  · rcases startElectionWith_leads next _ with ⟨hr', _⟩ | hf
    · exact .leads hr' (.inr (.inr (.inl hr)))
    · exact .forgets hf
  · split
    · exact .forgets (becomeFollower_forgets _ _)
    · exact .keeps ⟨rfl, rfl, rfl⟩

theorem Node.handleVote_hears (n : Node) (m : Message) : n.Hears op (n.handleVote m).1 := by
  unfold handleVote
  dsimp only
  split
  · by_cases hr : n.role = .leader
    · exact .leads hr (.inl ⟨hr, rfl⟩)
    · exact .forgets ⟨hr, rfl⟩
  · exact .keeps ⟨rfl, rfl, rfl⟩

theorem Node.handleVoteResponse_hears (n : Node) (m : Message) :
    n.Hears op (n.handleVoteResponse m).1 := by
  unfold handleVoteResponse
  split
  · exact .keeps ⟨rfl, rfl, rfl⟩
  rename_i hcond
  have hr : n.role = .candidate := by
    by_contra hne; exact hcond (.inl hne)
  dsimp only
  split
  · rcases becomeLeader_leads _ with hr' | hf
    · exact .leads hr' (.inr (.inl hr))
    · exact .forgets hf
  · split
    · exact .forgets (becomeFollower_forgets _ _)
    · exact .keeps ⟨rfl, rfl, rfl⟩

private theorem Node.Hears.appendMessage {n1 : Node} (h : n.Hears op n1) (peer context : ℕ)
    (origin : MessageOrigin) : n.Hears op (n1.appendMessage peer context origin).1 := by
  have hcore := (n1.appendMessage_core peer context origin).1
  have hl := n1.appendMessage_leaderID peer context origin
  cases h with
  | forgets h => exact .forgets ⟨by rw [hcore]; exact h.1, hl.trans h.2⟩
  | keeps h =>
    exact .keeps ⟨by rw [hcore]; exact h.1, hl.trans h.2.1, by rw [hcore]; exact h.2.2⟩
  | leads hr hold =>
    refine .leads (by rw [hcore]; exact hr) ?_
    rw [hcore]
    exact hold
  | follows m hm htype hpeer hfrom hr hlead ht =>
    refine .follows m hm htype hpeer hfrom (by rw [hcore]; exact hr) (hl.trans hlead) ?_
    rw [hcore]
    exact ht

theorem Node.handleAppendResponse_hears (n : Node) (m : Message) :
    n.Hears op (n.handleAppendResponse m).1 := by
  unfold handleAppendResponse
  split
  · exact .keeps ⟨rfl, rfl, rfl⟩
  rename_i hcond
  have hr : n.role = .leader := by
    by_contra hne; exact hcond (.inl hne)
  dsimp only
  split
  · refine Hears.appendMessage ?_ _ _ _
    exact .keeps ⟨rfl, rfl, rfl⟩
  generalize hn2 : (if _ < m.logIndex then _ else _ : Node) = n2
  have h2 : n2.role = .leader ∧ n2.term = n.term := by
    subst hn2
    split <;> exact ⟨hr, rfl⟩
  have hcore := (n2.settleOutstanding_spec m.fromID).1
  have hc : n.Hears op (n2.settleOutstanding m.fromID).maybeCommit.1 :=
    .committed hr (by rw [hcore]; exact h2.1) (by rw [hcore]; exact h2.2)
  split
  · exact hc.appendMessage _ _ _
  · exact hc

theorem Node.handleSnapshotResponse_hears (n : Node) (m : Message) :
    n.Hears op (n.handleSnapshotResponse m).1 := by
  unfold handleSnapshotResponse
  split
  · exact .keeps ⟨rfl, rfl, rfl⟩
  rename_i hcond
  have hr : n.role = .leader := by
    by_contra hne; exact hcond (.inl hne)
  dsimp only
  split
  · refine Hears.appendMessage ?_ _ _ _
    exact .keeps ⟨rfl, rfl, rfl⟩
  generalize hn2 : (if n.matchIndex m.fromID < _ then _ else _ : Node) = n2
  have h2 : n2.role = .leader ∧ n2.term = n.term := by
    subst hn2
    split <;> exact ⟨hr, rfl⟩
  have hcore := (n2.settleOutstanding_spec m.fromID).1
  have hc : n.Hears op (n2.settleOutstanding m.fromID).maybeCommit.1 :=
    .committed hr (by rw [hcore]; exact h2.1) (by rw [hcore]; exact h2.2)
  split
  · exact hc.appendMessage _ _ _
  · exact hc

/-- The node follows `sender` in its current term. -/
def Node.FollowsSender (n : Node) (sender : ℕ) (n' : Node) : Prop :=
  n'.role = .follower ∧ n'.leaderID = sender ∧ n'.term = n.term

omit [MembershipJson] in
theorem Node.followSender_sender (n : Node) (sender : ℕ) :
    n.FollowsSender sender (n.followSender sender).1 := by
  unfold followSender
  dsimp only
  refine ⟨?_, rfl, ?_⟩
  · show (if n.role ≠ .follower ∨ n.leaderID ≠ sender then n.becomeFollower n.term sender
      else (n, {})).1.role = .follower
    split
    · rfl
    · rename_i h
      by_contra hr
      exact h (.inl hr)
  · show (if n.role ≠ .follower ∨ n.leaderID ≠ sender then n.becomeFollower n.term sender
      else (n, {})).1.term = n.term
    split
    · simp [becomeFollower, resetElectionTimer]
    · rfl

omit [MembershipJson] in
theorem Node.acceptAppend_sender {k : Node} {sender : ℕ} (h : n.FollowsSender sender k)
    (m : Message) (u : Update) : n.FollowsSender sender (k.acceptAppend m u).1 := by
  unfold acceptAppend
  dsimp only
  split <;> exact h

theorem Node.handleAppend_sender (n : Node) (m : Message) :
    n.FollowsSender m.fromID (n.handleAppend m).1 := by
  have hf := n.followSender_sender m.fromID
  unfold handleAppend
  dsimp only
  split
  · exact hf
  split
  · exact acceptAppend_sender hf m _
  · exact hf
  · split
    · exact hf
    · rename_i core hcore
      obtain ⟨mem, rfl, _⟩ := Core.applySplice_eq hcore
      exact acceptAppend_sender (k := { (n.followSender m.fromID).1 with
        toCore := { (n.followSender m.fromID).1.toCore with log := _, membership := mem } })
        ⟨hf.1, hf.2.1, hf.2.2⟩ m _

theorem Node.handleSnapshot_sender (n : Node) (m : Message) :
    (n.handleSnapshot m).1 = n ∨ n.FollowsSender m.fromID (n.handleSnapshot m).1 := by
  have hf := n.followSender_sender m.fromID
  unfold handleSnapshot
  split
  · exact .inl rfl
  split
  · exact .inl rfl
  rename_i sent _ _
  right
  dsimp only
  generalize (if sent.membership.voters.length = 0 then
    { sent with membership := (n.followSender m.fromID).1.initialMembership } else sent :
      Snapshot) = snapshot
  split
  · exact hf
  split
  · exact hf
  split
  · split
    · exact hf
    · split
      · exact hf
      · rename_i core hcore
        obtain ⟨mem, _, rfl⟩ := Core.rebuildMembership_eq hcore
        exact ⟨hf.1, hf.2.1, hf.2.2⟩
  · exact hf

/-- The switch of `Step`, at the node's term or after it adopted the message's. -/
private theorem Node.dispatchWith_hears (next : ℕ → ℕ) {n1 : Node} {m : Message}
    (h1 : n1 = n ∨ n1 = (n.becomeFollower m.term 0).1)
    (hpeer : n.isCommunicationPeer m.fromID = true) (hfrom : m.fromID ≠ n.cfg.id) :
    n.Hears (.step m) (n1.dispatchWith next m).1 := by
  have hterm : n1.term = n.term ∨ n1.term = m.term := by
    rcases h1 with rfl | rfl
    · exact .inl rfl
    unfold becomeFollower
    dsimp only
    split
    · exact .inr rfl
    · exact .inl rfl
  have follows : ∀ {n2 : Node}, m.type = .append ∨ m.type = .snapshot →
      n1.FollowsSender m.fromID n2 → n.Hears (.step m) n2 := by
    intro n2 htype hf
    refine .follows m rfl htype hpeer hfrom hf.1 hf.2.1 ?_
    rw [hf.2.2]
    exact hterm
  -- a node that adopted a term has no leader until it follows a sender
  have lift : ∀ {n2 : Node}, n1.Hears (.step m) n2 → n.Hears (.step m) n2 := by
    intro n2 h
    rcases h1 with rfl | rfl
    · exact h
    cases h with
    | forgets hf => exact .forgets hf
    | keeps hk =>
      exact .forgets ⟨by rw [hk.1]; exact (n.becomeFollower_forgets m.term).1, hk.2.1⟩
    | leads hr hold =>
      rcases hold with ⟨hl, _⟩ | hc | hp | ⟨htick, _⟩
      · cases hl
      · cases hc
      · cases hp
      · cases htick
    | follows m' hm htype hpeer' hfrom' hr hl ht =>
      obtain rfl : m = m' := by injection hm
      exact .follows m rfl htype hpeer hfrom hr hl (ht.elim (fun h => h ▸ hterm) .inr)
  unfold dispatchWith
  split
  · exact lift (.keeps ⟨rfl, rfl, rfl⟩)
  · exact lift (handlePreVoteResponseWith_hears next n1 m)
  · exact lift (handleVote_hears n1 m)
  · exact lift (handleVoteResponse_hears n1 m)
  · rename_i ht
    exact follows (.inl ht) (n1.handleAppend_sender m)
  · exact lift (handleAppendResponse_hears n1 m)
  · rename_i ht
    rcases n1.handleSnapshot_sender m with heq | hf
    · rw [heq]
      exact lift (.keeps ⟨rfl, rfl, rfl⟩)
    · exact follows (.inr ht) hf
  · exact lift (handleSnapshotResponse_hears n1 m)

theorem Node.stepWith_hears (next : ℕ → ℕ) (n : Node) (m : Message) :
    n.Hears (.step m) (n.stepWith next m).1 := by
  unfold stepWith
  split
  · exact .keeps ⟨rfl, rfl, rfl⟩
  split
  · exact .keeps ⟨rfl, rfl, rfl⟩
  rename_i hpeer
  simp only [Bool.not_eq_true', not_or, Bool.not_eq_false] at hpeer
  split
  · exact .keeps ⟨rfl, rfl, rfl⟩
  split
  · exact .keeps ⟨rfl, rfl, rfl⟩
  unfold stepTermWith
  split
  · split
    · exact dispatchWith_hears next (.inr rfl) hpeer.1 hpeer.2
    · split
      · exact .keeps ⟨rfl, rfl, rfl⟩
      · exact dispatchWith_hears next (.inl rfl) hpeer.1 hpeer.2
  · exact dispatchWith_hears next (.inl rfl) hpeer.1 hpeer.2

/-! ### Proposals and compactions -/

theorem Node.proposeBatch_hears (op : Op) (n : Node) (data : List Bytes) :
    n.Hears op (n.proposeBatch data).1 := by
  unfold proposeBatch
  split
  · exact .keeps ⟨rfl, rfl, rfl⟩
  rename_i hr
  have hr' : n.role = .leader := by simpa using hr
  dsimp only
  split
  · exact .keeps ⟨rfl, rfl, rfl⟩
  have hcore := n.appendCommands_core data
  refine .committed hr' ?_ ?_
  · rw [broadcastAppend, broadcastLoop_core]
    show (n.appendCommands data).1.role = _
    rw [hcore]
    exact hr'
  · rw [broadcastAppend, broadcastLoop_core]
    show (n.appendCommands data).1.term = _
    rw [hcore]

theorem Node.proposeMembership_hears (n : Node) (voters : List ℕ) :
    n.Hears op (n.proposeMembership voters).1 := by
  unfold proposeMembership
  split
  · exact .keeps ⟨rfl, rfl, rfl⟩
  rename_i hr
  have hr' : n.role = .leader := by simpa using hr
  split
  · exact .keeps ⟨rfl, rfl, rfl⟩
  split
  · exact .keeps ⟨rfl, rfl, rfl⟩
  split
  · exact .keeps ⟨rfl, rfl, rfl⟩
  dsimp only
  split
  · exact .keeps ⟨rfl, rfl, rfl⟩
  rename_i core hcore
  obtain ⟨mem, _, rfl⟩ := Core.rebuildMembership_eq hcore
  refine .committed hr' ?_ ?_
  · rw [broadcastAppend, broadcastLoop_core]
    exact hr'
  · rw [broadcastAppend, broadcastLoop_core]
    rfl

theorem Node.compact_hears (n : Node) (snapshot : Snapshot) :
    n.Hears op (n.compact snapshot).1 := by
  rcases n.compact_cases snapshot with heq | ⟨s, mem, hcut⟩
  · rw [heq]
    exact .keeps ⟨rfl, rfl, rfl⟩
  · rw [hcut.node]
    exact .keeps ⟨rfl, rfl, rfl⟩

/-- **One operation** leaves one of the four outcomes. -/
theorem Node.operate_hears (next : ℕ → ℕ) (n : Node) (op : Op) :
    n.Hears op (n.operate next op).1 := by
  cases op with
  | tick => exact tickWith_hears next n
  | step m => exact stepWith_hears next n m
  | proposeBatch data => exact proposeBatch_hears _ n data
  | proposeMembership voters => exact proposeMembership_hears n voters
  | createSnapshot index data =>
    show n.Hears _ (n.createSnapshot index data).1
    unfold createSnapshot
    split
    · exact .keeps ⟨rfl, rfl, rfl⟩
    · exact compact_hears n _
  | compact snapshot => exact compact_hears n snapshot

omit [MembershipJson] in
theorem Node.readProbe_keeps (n : Node) (context : ℕ) : n.Keeps (n.readProbe context).1 := by
  unfold readProbe
  split
  · exact ⟨rfl, rfl, rfl⟩
  split
  · exact ⟨rfl, rfl, rfl⟩
  · dsimp only
    refine ⟨?_, appendMessages_leaderID _ _ _ _, ?_⟩
    · rw [appendMessages_core]
    · rw [appendMessages_core]

/-! ### The lease -/

/-- What a node knows: it leads, or follows another voter. -/
def Node.Knows (n : Node) : Prop :=
  n.leaderID ≠ 0 → n.role = .leader
    ∨ (n.role = .follower ∧ n.leaderID ≠ n.cfg.id ∧ n.isVoter n.leaderID = true)

/-- **Knowledge is kept** while the configuration stands. -/
theorem Node.Hears.knows (h : n.Hears op n') (hk : n.Knows) (hcfg : n'.cfg = n.cfg)
    (hm : n'.membership = n.membership) (hidx : n.membership.index ≤ n.commit) : n'.Knows := by
  have hvoter : ∀ id, n'.isVoter id = n.isVoter id := by
    intro id
    unfold Core.isVoter Core.peers
    rw [hm]
  intro hl
  cases h with
  | forgets hf => exact absurd hf.2 hl
  | keeps hkeep =>
    obtain ⟨hr, hlead, _⟩ := hkeep
    rw [hr, hlead, hcfg, hvoter]
    exact hk (by rw [← hlead]; exact hl)
  | leads hr _ => exact .inl hr
  | follows m _ _ hpeer hfrom hr hlead _ =>
    right
    rw [hlead, hcfg, hvoter]
    refine ⟨hr, hfrom, ?_⟩
    -- a committed configuration replicates to its own voters
    unfold Core.isCommunicationPeer Core.replicationPeers at hpeer
    rw [if_neg (by omega)] at hpeer
    exact hpeer

section
omit [MembershipJson]

theorem Node.inLease_iff :
    n.inLease = true
      ↔ n.role = .leader ∨ (n.leaderID ≠ 0 ∧ n.electionElapsed < n.cfg.electionTickMin) := by
  simp [inLease]

theorem Node.Forgets.inLease (h : n.Forgets) : n.inLease = false := by
  rw [← Bool.not_eq_true, inLease_iff]
  rintro (hr | ⟨hl, _⟩)
  · exact h.1 hr
  · exact hl h.2

/-- A node that follows another voter is no quorum of its own. -/
theorem Node.Knows.not_alone (h : n.Knows) (hv : n.membership.Normal) (hl : n.leaderID ≠ 0)
    (hr : n.role ≠ .leader) : n.hasQuorum [n.cfg.id] ≠ true := by
  intro hq
  obtain ⟨_, hne, hvoter⟩ := (h hl).resolve_left hr
  have hq' : n.membership.hasQuorum (fun id => decide (id = n.cfg.id)) = true := by
    simpa [Core.hasQuorum] using hq
  obtain ⟨hold, hnew⟩ := (Membership.hasQuorum_iff _ _).mp hq'
  have hmem := (containsVoter_iff (unionVoters_sorted _) _).mp hvoter
  rw [mem_unionVoters, hv.voters.eq_singleton hold] at hmem
  rcases hmem with hmem | hmem
  · exact hne (List.mem_singleton.mp hmem)
  rcases hnew with hnil | hnew
  · rw [hnil] at hmem
    simp at hmem
  · have hj : n.membership.jointVoters ≠ [] := List.ne_nil_of_mem hmem
    rw [(hv.joint.resolve_left hj).eq_singleton hnew] at hmem
    exact hne (List.mem_singleton.mp hmem)

end

/-- **In lease, a term is only raised by the leader's own messages.**  A node that is in lease
    before and after an operation keeps its term, or takes that of an append or snapshot. -/
theorem Node.Hears.term (h : n.Hears op n') (hk : n.Knows) (hv : n.membership.Normal)
    (hl : n.inLease = true) (hl' : n'.inLease = true) :
    n'.term = n.term
      ∨ ∃ m, op = .step m ∧ (m.type = .append ∨ m.type = .snapshot) ∧ n'.term = m.term := by
  cases h with
  | forgets hf =>
    rw [hf.inLease] at hl'
    cases hl'
  | keeps hkeep => exact .inl hkeep.2.2
  | leads hr hold =>
    rcases hold with ⟨_, ht⟩ | hwin
    · exact .inl ht
    -- a node in lease has no campaign to win
    have hheard : n.role ≠ .leader → n.leaderID ≠ 0 := fun hr' =>
      ((inLease_iff.mp hl).resolve_left hr').1
    exfalso
    rcases hwin with hc | hp | ⟨_, hr', hq⟩
    · rcases hk (hheard (by simp [hc])) with hr' | ⟨hr', _⟩ <;> rw [hc] at hr' <;> cases hr'
    · rcases hk (hheard (by simp [hp])) with hr' | ⟨hr', _⟩ <;> rw [hp] at hr' <;> cases hr'
    · exact hk.not_alone hv (hheard hr') hr' hq
  | follows m hm htype _ _ _ _ ht =>
    rcases ht with ht | ht
    · exact .inl ht
    · exact .inr ⟨m, hm, htype, ht⟩

end Codec

end Lsmdb.Raft

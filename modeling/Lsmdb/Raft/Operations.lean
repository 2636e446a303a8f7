import Lsmdb.Raft.Transition

namespace Lsmdb.Raft

open Node Core List Update

/-!
# Raft core — every operation follows a path

One lemma per function of `node.go`: from a node whose progress bookkeeping is in
bounds, the function follows a path of elementary transitions and keeps the bounds.
Callers cite these lemmas and never unfold the functions below them.
-/

section Codec
variable [MembershipJson] (inp : Input) {n : Node}

/-- The operation `n ↦ r` follows a path and keeps the progress bounds. -/
structure Node.Follows (inp : Input) (n : Node) (r : Node × Update) : Prop where
  path : Path inp n.toCore r.2 r.1.toCore
  ok : r.1.Ok

/-- The operation `n ↦ r` follows a path that leaves hard state, snapshot and existing
    entries alone, and keeps the progress bounds. -/
structure Node.FollowsQuietly (inp : Input) (n : Node) (r : Node × Update) : Prop extends
    Node.Follows inp n r where
  quiet : r.2.Quiet

theorem Node.Follows.refl (hok : n.Ok) : Node.Follows inp n (n, {}) := ⟨.nil _, hok⟩

/-! ### Roles -/

omit [MembershipJson] in
theorem Node.becomeFollower_adopt {t : ℕ} (leader : ℕ) (h : n.term < t) :
    (n.becomeFollower t leader).2 = { hardState := some { term := t }, roleChanged := true }
      ∧ (n.becomeFollower t leader).1.toCore
        = { n.toCore with term := t, votedFor := 0, role := .follower, votes := fun _ => none } := by
  have hne : t ≠ n.term := by omega
  simp [Node.becomeFollower, h, hne, hne.symm, Core.hardState]

omit [MembershipJson] in
theorem Node.becomeFollower_stepDown (n : Node) (leader : ℕ) :
    (n.becomeFollower n.term leader).2 = { roleChanged := decide (n.role ≠ .follower) }
      ∧ (n.becomeFollower n.term leader).1.toCore
        = { n.toCore with role := .follower, votes := fun _ => none } := by
  simp [Node.becomeFollower]

theorem Node.becomeFollower_follows_adopt (hok : n.Ok) {t : ℕ} (leader : ℕ) (h : n.term < t) :
    Node.Follows inp n (n.becomeFollower t leader) := by
  obtain ⟨h1, h2⟩ := becomeFollower_adopt leader h
  refine ⟨?_, Ok.of_role_ne ?_ ?_⟩
  · rw [h1, h2]; exact .single (.adopt _ t h)
  · rw [h2]; exact hok.snap_le
  · rw [h2]; simp

theorem Node.becomeFollower_follows (hok : n.Ok) (leader : ℕ) :
    Node.FollowsQuietly inp n (n.becomeFollower n.term leader) := by
  obtain ⟨h1, h2⟩ := n.becomeFollower_stepDown leader
  refine ⟨⟨?_, Ok.of_role_ne ?_ ?_⟩, ?_⟩
  · rw [h1, h2]; exact .single (.stepDown _)
  · rw [h2]; exact hok.snap_le
  · rw [h2]; simp
  · rw [h1]; exact ⟨rfl, rfl, rfl⟩

/-! ### Committing as leader -/

omit [MembershipJson] in
/-- The scan finds an index above the commit index only if it may be committed. -/
theorem Core.commitCandidate_spec (c : Core) (last : ℕ) (h : c.commit < c.commitCandidate last) :
    c.commitCandidate last ≤ last ∧ c.termAt (c.commitCandidate last) = c.term
      ∧ c.membership.hasQuorum
        (fun id => decide (c.commitCandidate last ≤ c.matchIndex id)) = true := by
  induction last with
  | zero => simp [commitCandidate] at h
  | succ k ih =>
    unfold commitCandidate at h ⊢
    split at h
    · rename_i hlt
      rw [if_pos hlt]
      split at h
      · rename_i hq
        rw [if_pos hq]
        exact ⟨Nat.le_refl _, hq.1, hq.2⟩
      · rename_i hq
        rw [if_neg hq]
        obtain ⟨h1, h2⟩ := ih h
        exact ⟨by omega, h2⟩
    · rename_i hlt
      exact absurd h hlt

omit [MembershipJson] in
/-- Extending the leader's own log and matching it keeps the progress bounds. -/
theorem Node.Ok.extend {n n' : Node} {v : ℕ} (hok : n.Ok) (es : List Entry)
    (hr : n.role = .leader) (hs : n'.snapshot = n.snapshot) (hl : n'.log = n.log ++ es)
    (hc : n'.commit = n.commit)
    (hm : n'.matchIndex = setAt n.matchIndex n.cfg.id v)
    (hn : n'.nextIndex = setAt n.nextIndex n.cfg.id (v + 1)) (hv : n'.lastIndex = v) :
    n'.Ok := by
  subst hv
  have hle : n.lastIndex ≤ n'.lastIndex := by
    simp only [lastIndex, hs, hl, length_append]; omega
  have h1 := hok.next_le hr
  have h2 := hok.match_le hr
  have h3 := hok.match_next hr
  constructor
  · rw [hs, hc]; exact hok.snap_le
  · intro _ p
    rw [hn]
    by_cases hp : p = n.cfg.id
    · subst hp; simp
    · simp only [setAt, Function.update_of_ne hp]
      have := h1 p
      omega
  · intro _ p
    rw [hm]
    by_cases hp : p = n.cfg.id
    · subst hp; simp
    · simp only [setAt, Function.update_of_ne hp]
      have := h2 p
      omega
  · intro _ p
    rw [hm, hn]
    by_cases hp : p = n.cfg.id
    · subst hp; simp
    · simp only [setAt, Function.update_of_ne hp]
      exact h3 p

/-- `appendFinal` completes a committed joint configuration. -/
theorem Node.appendFinal_follows (hok : n.Ok) (hr : n.role = .leader) :
    Path inp n.toCore { entries := n.appendFinal.2 } n.appendFinal.1.toCore
      ∧ n.appendFinal.1.Ok ∧ n.appendFinal.1.role = .leader := by
  unfold appendFinal
  split
  · rename_i hcond
    dsimp only
    split
    · exact ⟨.nil _, hok, hr⟩
    rename_i core hcore
    obtain ⟨m, _, rfl⟩ := rebuildMembership_eq hcore
    have hne : n.membership.jointVoters ≠ [] := by
      intro h; rw [h] at hcond; simp at hcond
    refine ⟨?_, ?_, hr⟩
    · exact .single (.reconfigure n.toCore _ _ hr (.final hne hcond.2) hcore)
    · exact hok.extend _ hr rfl rfl rfl rfl rfl (by simp [markOwn, lastIndex]; omega)
  · exact ⟨.nil _, hok, hr⟩

/-- **`maybeCommit`** advances the commit index and completes a joint configuration as
    leader, and only then steps down if its own removal is committed. -/
theorem Node.maybeCommit_spec (hok : n.Ok) (hr : n.role = .leader) :
    ∃ r : Node × Update, Node.FollowsQuietly inp n r ∧ r.1.role = .leader
      ∧ (n.maybeCommit = r
        ∨ n.maybeCommit = ((r.1.becomeFollower r.1.term 0).1,
            r.2.merge (r.1.becomeFollower r.1.term 0).2)) := by
  unfold maybeCommit
  simp only
  split
  · exact ⟨(n, {}), ⟨.refl inp hok, ⟨rfl, rfl, rfl⟩⟩, hr, .inl rfl⟩
  rename_i hlt
  obtain ⟨h1, h2, h3⟩ := n.commitCandidate_spec n.lastIndex (by omega)
  generalize n.commitCandidate n.lastIndex = k at *
  have hok1 : ({ n with commit := k } : Node).Ok :=
    ⟨by have := hok.snap_le; show n.snapshot.index ≤ k; omega,
      hok.next_le, hok.match_le, hok.match_next⟩
  have hp1 : Path inp n.toCore { committed := n.entriesBetween (n.commit + 1) (k + 1) }
      { n.toCore with commit := k } := .single (.commit n.toCore k hr (by omega) h1 h2 h3)
  obtain ⟨hp2, hok2, hr2⟩ := appendFinal_follows inp hok1 hr
  generalize ({ n with commit := k } : Node).appendFinal = f at *
  obtain ⟨hb1, hb2, hb3⟩ := broadcastAppend_spec inp hok2 hr2 .commitAdvance
  generalize f.1.broadcastAppend .commitAdvance = b at *
  have hpath : Path inp n.toCore
      { committed := n.entriesBetween (n.commit + 1) (k + 1), entries := f.2, messages := b.2 }
      b.1.toCore := by
    have := (hp1.quiet_trans hp2 ⟨rfl, rfl, rfl⟩).send b.2 hb3
    rw [hb1]
    simpa [Update.merge, Update.send] using this
  refine ⟨(b.1, _), ⟨⟨hpath, hok2.congr hb1 hb2⟩, ⟨rfl, rfl, rfl⟩⟩, by rw [hb1]; exact hr2, ?_⟩
  split
  · exact .inr rfl
  · exact .inl rfl

/-- `maybeCommit` as one step, for callers that do nothing after it. -/
theorem Node.maybeCommit_follows (hok : n.Ok) (hr : n.role = .leader) :
    Node.FollowsQuietly inp n n.maybeCommit := by
  obtain ⟨r, hf, _, h | h⟩ := maybeCommit_spec inp hok hr
  · rw [h]; exact hf
  · have hd := becomeFollower_follows inp hf.ok 0
    rw [h]
    exact ⟨⟨hf.path.quiet_trans hd.path hd.quiet, hd.ok⟩, hf.quiet.merge hd.quiet⟩

/-- `maybeCommit` followed by one more append to a peer.  The append goes out before the
    step-down, if there is one: its content does not depend on the role. -/
theorem Node.maybeCommit_appendMessage_follows (hok : n.Ok) (hr : n.role = .leader)
    (peer context : ℕ) (origin : MessageOrigin) (hc : context = 0 ∨ context = inp.context) :
    Node.FollowsQuietly inp n
      ((n.maybeCommit.1.appendMessage peer context origin).1,
        n.maybeCommit.2.send [(n.maybeCommit.1.appendMessage peer context origin).2]) := by
  obtain ⟨r, hf, hr1, h | h⟩ := maybeCommit_spec inp hok hr
  · rw [h]
    obtain ⟨h1, h2, h3⟩ := appendMessage_spec inp hf.ok hr1 peer context origin hc
    refine ⟨⟨?_, hf.ok.congr h1 h2⟩, hf.quiet.send _⟩
    rw [h1]
    exact hf.path.send _ (by simpa using h3)
  · rw [h]
    obtain ⟨h1, h2, h3⟩ := appendMessage_spec inp hf.ok hr1 peer context origin hc
    obtain ⟨hd1, hd2⟩ := r.1.becomeFollower_stepDown 0
    -- stepping down changes none of the fields the append is built from
    have hmsg : ((r.1.becomeFollower r.1.term 0).1.appendMessage peer context origin).2
        = (r.1.appendMessage peer context origin).2 :=
      appendMessage_congr hd2 (by simp [Node.becomeFollower])
        (by simp [Node.becomeFollower, resetElectionTimer]) _ _ _
    have hcore : ((r.1.becomeFollower r.1.term 0).1.appendMessage peer context origin).1.toCore
        = { r.1.toCore with role := .follower, votes := fun _ => none } :=
      (appendMessage_core _ _ _ _).1.trans hd2
    have hd : Path inp r.1.toCore (r.1.becomeFollower r.1.term 0).2
        { r.1.toCore with role := .follower, votes := fun _ => none } := by
      rw [hd1]; exact .single (.stepDown _)
    have hq : (r.1.becomeFollower r.1.term 0).2.Quiet := by rw [hd1]; exact ⟨rfl, rfl, rfl⟩
    have hpath := (hf.path.send [(r.1.appendMessage peer context origin).2]
      (by simpa using h3)).quiet_trans hd hq
    refine ⟨⟨?_, Ok.of_role_ne ?_ ?_⟩, ?_⟩
    · dsimp only
      rw [hcore, hmsg]
      have heq : (r.2.merge (r.1.becomeFollower r.1.term 0).2).send
            [(r.1.appendMessage peer context origin).2]
          = (r.2.send [(r.1.appendMessage peer context origin).2]).merge
            (r.1.becomeFollower r.1.term 0).2 := by
        rw [hd1]; ext <;> simp [Update.merge, Update.send]
      rw [heq]
      exact hpath
    · rw [hcore]; exact hf.ok.snap_le
    · rw [hcore]; simp
    · exact (hf.quiet.merge hq).send _

/-! ### Elections -/

/-- **`becomeLeader`**: a candidate with a quorum takes over and appends its no-op. -/
theorem Node.becomeLeader_follows (hok : n.Ok) (hr : n.role = .candidate)
    (hq : n.membership.hasQuorum n.granted = true) :
    Node.FollowsQuietly inp n n.becomeLeader := by
  unfold becomeLeader
  dsimp only
  generalize hn2 : markOwn _ _ = n2
  have hcore : n2.toCore = { n.toCore with
      role := .leader
      log := n.log ++ [{ index := n.lastIndex + 1, term := n.term }]
      matchIndex := setAt (fun id => if id = n.cfg.id then n.lastIndex else 0) n.cfg.id
        (n.lastIndex + 1) } := by
    subst hn2; rfl
  have hnext : n2.nextIndex
      = setAt (fun id => if id ∈ n.peers then n.lastIndex + 1 else 0) n.cfg.id
        (n.lastIndex + 1 + 1) := by
    subst hn2; rfl
  have hr2 : n2.role = .leader := by rw [hcore]
  have hlast : n2.lastIndex = n.lastIndex + 1 := by
    rw [hcore]; simp [lastIndex]; omega
  have hok2 : n2.Ok := by
    constructor
    · rw [hcore]; exact hok.snap_le
    · intro _ p
      rw [hnext, hlast]
      by_cases hp : p = n.cfg.id
      · subst hp; simp
      · simp only [setAt, Function.update_of_ne hp]; split <;> omega
    · intro _ p
      rw [hlast, hcore]
      by_cases hp : p = n.cfg.id
      · subst hp; simp
      · simp [setAt, hp]
    · intro _ p
      rw [hnext, hcore]
      by_cases hp : p = n.cfg.id
      · subst hp; simp
      · simp only [setAt, Function.update_of_ne hp, if_neg hp]
        by_cases hmem : p ∈ n.peers <;> simp [hmem]
  have hp2 : Path inp n.toCore
      { roleChanged := true, entries := [{ index := n.lastIndex + 1, term := n.term }] }
      n2.toCore := by
    have h1 : Path inp n.toCore { roleChanged := true } _ := .single (.win n.toCore hr hq)
    have h2 := h1.quiet_trans
      (.single (.propose _ [] rfl (.inl rfl) (Nat.zero_le _))) ⟨rfl, rfl, rfl⟩
    rw [hcore]
    exact h2
  obtain ⟨hb1, hb2, hb3⟩ := broadcastAppend_spec inp hok2 hr2 .other
  have hc := maybeCommit_follows inp (hok2.congr hb1 hb2) (by rw [hb1]; exact hr2)
  generalize n2.broadcastAppend .other = b at *
  refine ⟨⟨?_, hc.ok⟩, Quiet.merge ⟨rfl, rfl, rfl⟩ hc.quiet⟩
  have h3 := (hp2.send b.2 hb3).quiet_trans (hb1 ▸ hc.path) hc.quiet
  exact h3

omit [MembershipJson] in
/-- Right after a campaign starts the only granted vote is the candidate's own. -/
theorem hasQuorum_self_eq (m : Membership) (id : ℕ) :
    m.hasQuorum (fun x => decide (x ∈ [id]))
      = m.hasQuorum (fun x => setAt (fun _ => none) id (some true) x == some true) := by
  congr 1
  funext x
  by_cases h : x = id
  · subst h; simp
  · simp [setAt, h]

omit [MembershipJson] in
theorem Core.campaignMessages_spec (c : Core) (type : MessageType) (term : ℕ)
    (h : ∀ peer, Emits inp c
      { type := type, fromID := c.cfg.id, toID := peer, term := term,
        logIndex := c.lastIndex, logTerm := c.termAt c.lastIndex }) :
    ∀ m ∈ c.campaignMessages type term, Emits inp c m := by
  intro m hm
  simp only [campaignMessages, mem_map] at hm
  obtain ⟨peer, _, rfl⟩ := hm
  exact h peer

section Campaign
variable {next : ℕ → ℕ}

/-- **`startElection`** raises the term and votes for itself, and wins at once if its own
    vote is a quorum. -/
theorem Node.startElection_follows (hn : next n.term = n.term + 1) (hok : n.Ok) :
    Node.Follows inp n (n.startElectionWith next) := by
  unfold startElectionWith
  rw [hn]
  dsimp only
  generalize hn1 : resetElectionTimer _ = n1
  have hcore : n1.toCore = { n.toCore with
      role := .candidate
      term := n.term + 1
      votedFor := n.cfg.id
      votes := setAt (fun _ => none) n.cfg.id (some true) } := by
    subst hn1; rfl
  have hp1 : Path inp n.toCore { hardState := some n1.hardState, roleChanged := true }
      n1.toCore := by
    rw [hcore]; exact .single (.campaign n.toCore)
  have hok1 : n1.Ok := Ok.of_role_ne (by rw [hcore]; exact hok.snap_le) (by rw [hcore]; simp)
  split
  · rename_i hq
    have hq' : n1.membership.hasQuorum n1.granted = true := by
      rw [hasQuorum, hasQuorum_self_eq] at hq
      rw [hcore] at hq ⊢
      exact hq
    have hl := becomeLeader_follows inp (n := n1) hok1 (by rw [hcore]) hq'
    exact ⟨hp1.quiet_trans hl.path hl.quiet, hl.ok⟩
  · refine ⟨hp1.send _ ?_, hok1⟩
    exact campaignMessages_spec inp _ _ _ (fun peer => .vote peer (by rw [hcore]))

/-- `startElection` right after a role change that is merged into it. -/
theorem Path.startElection {c : Core} {u : Update} (hn : next n.term = n.term + 1) (hok : n.Ok)
    (hp : Path inp c u n.toCore) (hc : Compatible u (n.startElectionWith next).2)
    (hu : u.merge (n.startElectionWith next).2 = (n.startElectionWith next).2) :
    Path inp c (n.startElectionWith next).2 (n.startElectionWith next).1.toCore := by
  have := hp.trans (startElection_follows inp hn hok).path hc
  rwa [hu] at this

theorem Node.startElection_roleChanged (n : Node) :
    (n.startElectionWith next).2.roleChanged = true := by
  unfold startElectionWith
  dsimp only
  split <;> simp [Update.merge, Update.send]

theorem Node.startPreVote_follows (hn : next n.term = n.term + 1) (hok : n.Ok) :
    Node.Follows inp n (n.startPreVoteWith next) := by
  unfold startPreVoteWith
  dsimp only
  generalize hn1 : resetElectionTimer _ = n1
  have hcore : n1.toCore = { n.toCore with
      role := .preCandidate
      votes := setAt (fun _ => none) n.cfg.id (some true) } := by
    subst hn1; rfl
  have hp1 : Path inp n.toCore { roleChanged := decide (n.role ≠ .preCandidate) } n1.toCore := by
    rw [hcore]; exact .single (.preCampaign n.toCore)
  have hok1 : n1.Ok := Ok.of_role_ne (by rw [hcore]; exact hok.snap_le) (by rw [hcore]; simp)
  have hn1 : next n1.term = n1.term + 1 := by rw [hcore]; exact hn
  split
  · refine ⟨Path.startElection inp hn1 hok1 hp1 ⟨.inr ⟨rfl, rfl, rfl⟩, .inl rfl⟩ ?_,
      (startElection_follows inp hn1 hok1).ok⟩
    have := @Node.startElection_roleChanged _ next n1
    ext <;> simp [Update.merge, this]
    omega
  · refine ⟨hp1.send _ ?_, hok1⟩
    rw [hn1]
    exact campaignMessages_spec inp _ _ _ (fun peer => .preVote peer)

end Campaign

/-! ### Ticks -/

theorem Node.checkQuorum_follows (hok : n.Ok) : Node.FollowsQuietly inp n n.checkQuorum := by
  unfold checkQuorum
  dsimp only
  split
  · exact ⟨.refl inp hok, ⟨rfl, rfl, rfl⟩⟩
  split
  · exact ⟨⟨.nil _, hok.congr rfl rfl⟩, ⟨rfl, rfl, rfl⟩⟩
  have h := becomeFollower_follows inp
    (n := { n with
      quorumElapsed := 0
      recentActive := fun id => if id ∈ n.peers then false else n.recentActive id })
    (hok.congr rfl rfl) 0
  exact ⟨⟨h.path, h.ok⟩, h.quiet⟩

/-- **`Tick`** follows a path, unless the term overflows. -/
theorem Node.tickWith_follows {next : ℕ → ℕ}
    (hn : n.role ≠ .leader → next n.term = n.term + 1) (hok : n.Ok) :
    Node.Follows inp n (n.tickWith next) := by
  unfold tickWith
  split
  · rename_i hr
    dsimp only
    generalize hn1 : ({ n with
      heartbeatElapsed := n.heartbeatElapsed + 1
      quorumElapsed := n.quorumElapsed + 1 } : Node) = n1
    have hc1 : n1.toCore = n.toCore ∧ n1.nextIndex = n.nextIndex := by subst hn1; exact ⟨rfl, rfl⟩
    obtain ⟨he1, he2⟩ : n1.expireOutstanding.1.toCore = n1.toCore
        ∧ n1.expireOutstanding.1.nextIndex = n1.nextIndex := expireLoop_spec _ _ n1
    generalize n1.expireOutstanding = e at *
    have hok2 : e.1.Ok := hok.congr (he1.trans hc1.1) (he2.trans hc1.2)
    have hr2 : e.1.role = .leader := by rw [he1, hc1.1]; exact hr
    -- the heartbeat, or the expired appends
    have hb : ∀ b : Node × List Message,
        b = (if e.1.heartbeatElapsed ≥ e.1.cfg.heartbeatTicks then
          ({ e.1 with heartbeatElapsed := 0 } : Node).broadcastAppend .heartbeat
        else appendMessages 0 .heartbeat e.1 e.2) →
        b.1.toCore = n.toCore ∧ b.1.Ok ∧ ∀ m ∈ b.2, Emits inp n.toCore m := by
      intro b hb
      split at hb
      · obtain ⟨h1, h2, h3⟩ := broadcastAppend_spec inp
          (n := { e.1 with heartbeatElapsed := 0 }) (hok2.congr rfl rfl) hr2 .heartbeat
        rw [hb]
        refine ⟨h1.trans (he1.trans hc1.1), hok2.congr h1 h2, fun m hm => ?_⟩
        have := h3 m hm
        rwa [show ({ e.1 with heartbeatElapsed := 0 } : Node).toCore = n.toCore from
          he1.trans hc1.1] at this
      · obtain ⟨h1, h2, h3⟩ := appendMessages_spec inp 0 .heartbeat (.inl rfl) e.2 hok2 hr2
        rw [hb]
        refine ⟨h1.trans (he1.trans hc1.1), hok2.congr h1 h2, fun m hm => ?_⟩
        have := h3 m hm
        rwa [show e.1.toCore = n.toCore from he1.trans hc1.1] at this
    obtain ⟨hb1, hb2, hb3⟩ := hb _ rfl
    generalize (if e.1.heartbeatElapsed ≥ e.1.cfg.heartbeatTicks then
          ({ e.1 with heartbeatElapsed := 0 } : Node).broadcastAppend .heartbeat
        else appendMessages 0 .heartbeat e.1 e.2) = b at *
    have hq := checkQuorum_follows inp hb2
    have hp : Path inp n.toCore { messages := b.2 } b.1.toCore := by
      rw [hb1]; exact .single (.send _ _ hb3)
    exact ⟨hp.quiet_trans hq.path hq.quiet, hq.ok⟩
  · rename_i hr
    split
    · exact .refl inp hok
    dsimp only
    split
    · have h := startPreVote_follows inp
        (n := { n with electionElapsed := n.electionElapsed + 1 }) (hn hr) (hok.congr rfl rfl)
      exact ⟨h.path, h.ok⟩
    · exact ⟨.nil _, hok.congr rfl rfl⟩

theorem Node.tick_follows (hok : n.Ok) : Node.Follows inp n n.tick :=
  tickWith_follows inp (fun _ => rfl) hok

/-! ### Votes -/

omit [MembershipJson] in
theorem Node.handlePreVote_emits {next : ℕ → ℕ} (hn : next n.term = n.term + 1) (m : Message)
    (hm : inp = .message m) : Emits inp n.toCore (n.handlePreVoteWith next m) := by
  unfold handlePreVoteWith
  rw [hn]
  dsimp only
  generalize hg : (n.isVoter n.cfg.id && decide (n.term + 1 ≤ m.term)
    && !decide (n.leaderID ≠ 0 ∧ n.electionElapsed < n.electionTimeout)
    && n.isUpToDate m.logIndex m.logTerm) = grant
  cases grant with
  | true =>
    have ht : n.term < m.term := by
      simp only [Bool.and_eq_true, decide_eq_true_eq] at hg
      omega
    exact .preVoteGrant m hm ht
  | false => exact .reject .preVoteResponse m.fromID 0 (.inl rfl)

theorem Node.handlePreVoteResponse_follows {next : ℕ → ℕ} (hn : next n.term = n.term + 1)
    (hok : n.Ok) (m : Message) : Node.Follows inp n (n.handlePreVoteResponseWith next m) := by
  unfold handlePreVoteResponseWith
  split
  · rename_i h
    exact becomeFollower_follows_adopt inp hok 0 h.2
  dsimp only
  split
  · exact .refl inp hok
  rename_i hcond
  have hr : n.role = .preCandidate := by
    by_contra hne; exact hcond (.inl hne)
  generalize (!m.reject && decide (m.term = next n.term)) = granted
  have hp1 : Path inp n.toCore {}
      { n.toCore with votes := setAt n.votes m.fromID (some granted) } :=
    .single (.countPreVote n.toCore m.fromID granted hr)
  have hok1 : ({ n with votes := setAt n.votes m.fromID (some granted) } : Node).Ok :=
    Ok.of_role_ne hok.snap_le (by simp [hr])
  split
  · have he : Follows inp _ (startElectionWith next
        ({ n with votes := setAt n.votes m.fromID (some granted) } : Node)) :=
      startElection_follows inp (by exact hn) hok1
    exact ⟨Path.startElection inp (by exact hn) hok1 hp1 (Compatible.empty_left _)
      (empty_merge _), he.ok⟩
  · split
    · have hd := becomeFollower_follows inp hok1 0
      have := hp1.quiet_trans hd.path hd.quiet
      rw [empty_merge] at this
      exact ⟨this, hd.ok⟩
    · exact ⟨hp1, hok1⟩

theorem Node.handleVote_follows (hok : n.Ok) {m : Message} (hm : Receives inp n.toCore .vote m) :
    Node.Follows inp n (n.handleVote m) := by
  unfold handleVote
  dsimp only
  generalize hg : (n.isVoter n.cfg.id && decide (n.votedFor = 0 ∨ n.votedFor = m.fromID)
    && n.isUpToDate m.logIndex m.logTerm) = grant
  cases grant with
  | true =>
    simp only [Bool.and_eq_true, decide_eq_true_eq] at hg
    have hp : Path inp n.toCore
        { hardState := some { term := n.term, votedFor := m.fromID } }
        { n.toCore with votedFor := m.fromID } := .single (.grant n.toCore m hm hg.1.2 hg.2)
    have hm' : Receives inp { n.toCore with votedFor := m.fromID } .vote m :=
      ⟨hm.input, hm.type_eq, hm.to_ok, hm.from_ne, hm.term_eq⟩
    refine ⟨hp.send _ ?_, ?_⟩
    · intro x hx
      rw [mem_singleton.mp hx]
      exact .voteGrant m hm' rfl
    · exact ⟨hok.snap_le, hok.next_le, hok.match_le, hok.match_next⟩
  | false =>
    refine ⟨.single (.send _ _ ?_), hok⟩
    intro x hx
    rw [mem_singleton.mp hx]
    exact .reject .voteResponse m.fromID 0 (.inr (.inl rfl))

theorem Node.handleVoteResponse_follows (hok : n.Ok) {m : Message}
    (hm : Receives inp n.toCore .voteResponse m) : Node.Follows inp n (n.handleVoteResponse m) := by
  unfold handleVoteResponse
  split
  · exact .refl inp hok
  rename_i hcond
  have hr : n.role = .candidate := by
    by_contra hne; exact hcond (.inl hne)
  dsimp only
  have hp1 : Path inp n.toCore {}
      { n.toCore with votes := setAt n.votes m.fromID (some (!m.reject)) } :=
    .single (.countVote n.toCore m hm hr)
  have hok1 : ({ n with votes := setAt n.votes m.fromID (some (!m.reject)) } : Node).Ok :=
    Ok.of_role_ne hok.snap_le (by simp [hr])
  split
  · rename_i hq
    have hl := becomeLeader_follows inp hok1 hr hq
    have := hp1.quiet_trans hl.path hl.quiet
    rw [empty_merge] at this
    exact ⟨this, hl.ok⟩
  · split
    · have hd := becomeFollower_follows inp hok1 0
      have := hp1.quiet_trans hd.path hd.quiet
      rw [empty_merge] at this
      exact ⟨this, hd.ok⟩
    · exact ⟨hp1, hok1⟩

/-! ### Appends -/

/-- Following the sender changes the role and the collected votes at most. -/
theorem Node.followSender_spec (n : Node) (sender : ℕ) :
    ∃ (v : ℕ → Option Bool) (b : Bool),
      (n.followSender sender).1.toCore = { n.toCore with role := .follower, votes := v }
        ∧ (n.followSender sender).2 = { roleChanged := b }
        ∧ Path inp n.toCore (n.followSender sender).2 (n.followSender sender).1.toCore := by
  unfold followSender
  by_cases h : n.role ≠ .follower ∨ n.leaderID ≠ sender
  · obtain ⟨h1, h2⟩ := n.becomeFollower_stepDown sender
    refine ⟨fun _ => none, decide (n.role ≠ .follower), ?_, ?_, ?_⟩
    · rw [if_pos h]; exact h2
    · rw [if_pos h]; exact h1
    · rw [if_pos h]
      show Path inp n.toCore (n.becomeFollower n.term sender).2
        (n.becomeFollower n.term sender).1.toCore
      rw [h1, h2]
      exact .single (.stepDown _)
  · have hr : n.role = .follower := by
      by_contra hne; exact h (.inl hne)
    refine ⟨n.votes, false, ?_, ?_, ?_⟩
    · rw [if_neg h, ← hr]; rfl
    · rw [if_neg h]
    · rw [if_neg h]; exact .nil _

/-- The end of `handleAppend` on a log that holds the message. -/
theorem Node.acceptAppend_follows {c : Core} {u : Update} {m : Message}
    (hs : n.snapshot.index ≤ n.commit) (hr : n.role = .follower)
    (hm : Receives inp n.toCore .append m) (hwf : malformedAppend m = none)
    (hh : n.Holds m) (hp : Path inp c u n.toCore) :
    Path inp c (n.acceptAppend m u).2 (n.acceptAppend m u).1.toCore
      ∧ (n.acceptAppend m u).1.Ok := by
  have hlast : min (m.logIndex + m.entries.length) n.lastIndex
      = m.logIndex + m.entries.length := Nat.min_eq_left hh.last
  unfold acceptAppend
  dsimp only
  rw [hlast]
  split
  · rename_i hlt
    have ht : Trans inp n.toCore _ _ := .learn n.toCore m _ hm hr hwf hh rfl hlt
    have hp1 := (hp.quiet_trans (.single ht) ⟨rfl, rfl, rfl⟩).send
      [{ type := .appendResponse, fromID := n.cfg.id, toID := m.fromID, term := n.term,
         logIndex := m.logIndex + m.entries.length, context := m.context }] (by
      intro x hx
      rw [mem_singleton.mp hx]
      exact .appended m ⟨hm.input, hm.type_eq, hm.to_ok, hm.from_ne, hm.term_eq⟩ hr
        (hh.congr rfl rfl))
    refine ⟨?_, Ok.of_role_ne (by
      show n.snapshot.index ≤ min m.leaderCommit (m.logIndex + m.entries.length)
      omega) (by simp [hr])⟩
    convert hp1 using 1
    ext <;> simp [Update.merge, Update.send]
    rfl
  · refine ⟨hp.send _ ?_, Ok.of_role_ne hs (by simp [hr])⟩
    intro x hx
    rw [mem_singleton.mp hx]
    exact .appended m hm hr hh

theorem Node.handleAppend_follows (hok : n.Ok) {m : Message}
    (hm : Receives inp n.toCore .append m) (hwf : malformedAppend m = none) :
    Node.Follows inp n (n.handleAppend m) := by
  obtain ⟨v, b, hcore, hu, hp⟩ := n.followSender_spec inp m.fromID
  unfold handleAppend
  dsimp only
  generalize n.followSender m.fromID = r at *
  have hr : r.1.role = .follower := by rw [hcore]
  have hm' : Receives inp r.1.toCore .append m := by
    rw [hcore]; exact ⟨hm.input, hm.type_eq, hm.to_ok, hm.from_ne, hm.term_eq⟩
  have hs : r.1.snapshot.index ≤ r.1.commit := by rw [hcore]; exact hok.snap_le
  have hok1 : r.1.Ok := Ok.of_role_ne hs (by simp [hr])
  -- every refusal is one rejection from an otherwise unchanged node
  have hrej : ∀ hint, Follows inp n (r.1, r.2.send [r.1.rejection m .appendResponse hint]) := by
    intro hint
    refine ⟨hp.send _ ?_, hok1⟩
    intro x hx
    rw [mem_singleton.mp hx]
    exact .reject .appendResponse m.fromID hint (.inr (.inr (.inl rfl)))
  split
  · exact hrej _
  rename_i hcond
  have hle : m.logIndex ≤ r.1.lastIndex := by
    by_contra h; exact hcond (.inl (by omega))
  have ht : r.1.termAt m.logIndex = m.logTerm := by
    by_contra h; exact hcond (.inr h)
  split
  · rename_i hheld
    obtain ⟨h1, h2⟩ := acceptAppend_follows inp hs hr hm' hwf
      (holds_of_held hwf hle ht hheld) hp
    exact ⟨h1, h2⟩
  · exact hrej _
  · rename_i keep tf es hsp
    split
    · exact hrej _
    rename_i core happ
    have hat := spliceAt hs hwf hle hsp
    obtain ⟨mem, hceq, _⟩ := applySplice_eq happ
    have hholds : core.Holds m := hat.holds ht (by rw [hceq]) (by rw [hceq])
    have htrans : Trans inp r.1.toCore { truncateFrom := tf, entries := es } core :=
      .splice r.1.toCore core m keep tf es hm' hr hwf hle ht hsp happ
    have hcompat : Compatible r.2 { truncateFrom := tf, entries := es } := by
      rw [hu]; exact ⟨.inr ⟨rfl, rfl, rfl⟩, .inl rfl⟩
    have hp1 := hp.trans (.single htrans) hcompat
    have heq : r.2.merge { truncateFrom := tf, entries := es }
        = { r.2 with truncateFrom := tf, entries := r.2.entries ++ es } := by
      rw [hu]; ext <;> simp [Update.merge]
      omega
    rw [heq] at hp1
    obtain ⟨h1, h2⟩ := acceptAppend_follows inp (n := { r.1 with toCore := core })
      (by show core.snapshot.index ≤ core.commit; rw [hceq]; exact hs)
      (by show core.role = _; rw [hceq]; exact hr)
      (by show Receives inp core .append m; rw [hceq]
          exact ⟨hm'.input, hm'.type_eq, hm'.to_ok, hm'.from_ne, hm'.term_eq⟩) hwf hholds hp1
    exact ⟨h1, h2⟩

omit [MembershipJson] in
/-- Recording a peer's progress keeps the progress bounds. -/
theorem Node.Ok.progress {n n' : Node} {peer k next : ℕ} (hok : n.Ok) (hr : n.role = .leader)
    (hc : n'.toCore = { n.toCore with matchIndex := setAt n.matchIndex peer k })
    (hn : n'.nextIndex = setAt n.nextIndex peer next) (hk : k < next)
    (hle : next ≤ n.lastIndex + 1) : n'.Ok := by
  have hlast : n'.lastIndex = n.lastIndex := by rw [hc]; rfl
  have h1 := hok.next_le hr
  have h2 := hok.match_le hr
  have h3 := hok.match_next hr
  constructor
  · rw [hc]; exact hok.snap_le
  · intro _ p
    rw [hlast, hn]
    by_cases hp : p = peer
    · subst hp; simpa using hle
    · simpa [setAt, hp] using h1 p
  · intro _ p
    rw [hlast, hc]
    by_cases hp : p = peer
    · subst hp; simp; omega
    · simpa [setAt, hp] using h2 p
  · intro _ p
    rw [hn, hc]
    by_cases hp : p = peer
    · subst hp; left; simpa using hk
    · simpa [setAt, hp] using h3 p

/-- The leader's reaction to a positive answer, from the recorded progress on: settle,
    commit, and possibly send the next append. -/
theorem Node.afterAck_follows (n' : Node) (hok : n'.Ok) (hr : n'.role = .leader)
    (hp : Path inp n.toCore {} n'.toCore) (peer context : ℕ) (origin : MessageOrigin)
    (hc : context = 0 ∨ context = inp.context) (p : Prop) [Decidable p] :
    Node.Follows inp n
      (if p then
        (((n'.settleOutstanding peer).maybeCommit.1.appendMessage peer context origin).1,
          (n'.settleOutstanding peer).maybeCommit.2.send
            [((n'.settleOutstanding peer).maybeCommit.1.appendMessage peer context origin).2])
      else (n'.settleOutstanding peer).maybeCommit) := by
  obtain ⟨h1, h2⟩ := n'.settleOutstanding_spec peer
  have hok1 : (n'.settleOutstanding peer).Ok := hok.congr h1 h2
  have hr1 : (n'.settleOutstanding peer).role = .leader := by rw [h1]; exact hr
  rw [← h1] at hp
  split
  · have hf := maybeCommit_appendMessage_follows inp hok1 hr1 peer context origin hc
    have := hp.quiet_trans hf.path hf.quiet
    rw [empty_merge] at this
    exact ⟨this, hf.ok⟩
  · have hf := maybeCommit_follows inp hok1 hr1
    have := hp.quiet_trans hf.path hf.quiet
    rw [empty_merge] at this
    exact ⟨this, hf.ok⟩

theorem Node.handleAppendResponse_follows (hok : n.Ok) {m : Message}
    (hm : Receives inp n.toCore .appendResponse m) :
    Node.Follows inp n (n.handleAppendResponse m) := by
  have hctx : m.context = 0 ∨ m.context = inp.context := by rw [hm.input]; exact .inr rfl
  unfold handleAppendResponse
  split
  · exact .refl inp hok
  rename_i hcond
  have hr : n.role = .leader := by
    by_contra hne; exact hcond (.inl hne)
  dsimp only
  split
  · -- a rejection moves `nextIndex` and probes again
    have hmle := hok.match_le hr m.fromID
    have hnle := hok.next_le hr m.fromID
    generalize hnext : (max (max 1 (if 0 < m.rejectHint ∧ m.rejectHint < n.nextIndex m.fromID
        then m.rejectHint else if 1 < n.nextIndex m.fromID then n.nextIndex m.fromID - 1
        else n.nextIndex m.fromID)) (n.matchIndex m.fromID + 1)) = next
    have hle : next ≤ n.lastIndex + 1 := by
      subst hnext
      split
      · omega
      · split <;> omega
    have hlt : n.matchIndex m.fromID < next := by subst hnext; omega
    have hok2 : ({ n with
        recentActive := setAt n.recentActive m.fromID true
        nextIndex := setAt n.nextIndex m.fromID next
        outstanding := setAt n.outstanding m.fromID 0 } : Node).Ok :=
      hok.progress (k := n.matchIndex m.fromID) hr (by simp [setAt]) rfl hlt hle
    obtain ⟨h1, h2, h3⟩ := appendMessage_spec inp hok2 hr m.fromID m.context .ackResend hctx
    refine ⟨?_, hok2.congr h1 h2⟩
    rw [h1]
    exact .single (.send _ _ (by simpa using h3))
  · rename_i hrej
    have hrej' : m.reject = false := by simpa using hrej
    by_cases hlt : n.matchIndex m.fromID < m.logIndex
    · rw [if_pos hlt]
      refine afterAck_follows inp { n with
          recentActive := setAt n.recentActive m.fromID true
          matchIndex := setAt n.matchIndex m.fromID (min m.logIndex n.lastIndex)
          nextIndex := setAt n.nextIndex m.fromID (min m.logIndex n.lastIndex + 1) }
        ?_ hr ?_ m.fromID m.context .ackResend hctx _
      · exact hok.progress hr rfl rfl (Nat.lt_succ_self _)
          (Nat.succ_le_succ (Nat.min_le_right _ _))
      · exact .single (.acknowledge n.toCore .appendResponse m hm (.inl rfl) hr hrej' hlt)
    · rw [if_neg hlt]
      refine afterAck_follows inp
        { n with recentActive := setAt n.recentActive m.fromID true }
        ?_ hr ?_ m.fromID m.context .ackResend hctx _
      · exact hok.congr rfl rfl
      · exact .nil _

/-! ### Snapshots -/

theorem Node.handleSnapshot_follows (hok : n.Ok) {m : Message}
    (hm : Receives inp n.toCore .snapshot m) : Node.Follows inp n (n.handleSnapshot m) := by
  have hrej0 : ∀ hint, Follows inp n (n, { messages := [n.rejection m .snapshotResponse hint] }) := by
    intro hint
    refine ⟨.single (.send _ _ ?_), hok⟩
    intro x hx
    rw [mem_singleton.mp hx]
    exact .reject .snapshotResponse m.fromID hint (.inr (.inr (.inr rfl)))
  unfold handleSnapshot
  split
  · exact hrej0 _
  rename_i sent hsent
  split
  · exact hrej0 _
  rename_i hpos
  obtain ⟨v, b, hcore, hu, hp⟩ := n.followSender_spec inp m.fromID
  dsimp only
  generalize n.followSender m.fromID = r at *
  have hr : r.1.role = .follower := by rw [hcore]
  have hm' : Receives inp r.1.toCore .snapshot m := by
    rw [hcore]; exact ⟨hm.input, hm.type_eq, hm.to_ok, hm.from_ne, hm.term_eq⟩
  have hs : r.1.snapshot.index ≤ r.1.commit := by rw [hcore]; exact hok.snap_le
  have hok1 : r.1.Ok := Ok.of_role_ne hs (by simp [hr])
  have hrej : Follows inp n
      (r.1, r.2.send [r.1.rejection m .snapshotResponse (r.1.lastIndex + 1)]) := by
    refine ⟨hp.send _ ?_, hok1⟩
    intro x hx
    rw [mem_singleton.mp hx]
    exact .reject .snapshotResponse m.fromID _ (.inr (.inr (.inr rfl)))
  have hrecv : (if sent.membership.voters.length = 0 then
      { sent with membership := r.1.initialMembership } else sent) = r.1.received sent := rfl
  rw [hrecv]
  generalize hsn : r.1.received sent = s at *
  have hidx : s.index = sent.index ∧ s.term = sent.term := by
    subst hsn; unfold received; split <;> exact ⟨rfl, rfl⟩
  split
  · exact hrej
  rename_i hval
  split
  · exact hrej
  rename_i hmi
  split
  · rename_i hlt
    split
    · exact hrej
    rename_i hcommit
    split
    · exact hrej
    rename_i core hb
    have hcommit' : s.index ≤ r.1.commit → r.1.termAt s.index = s.term := by
      intro h
      by_contra hne
      exact hcommit ⟨h, hne⟩
    have htrans : Trans inp r.1.toCore { snapshot := some s }
        { core with commit := max core.commit s.index } := by
      subst hsn
      exact .install r.1.toCore core m sent hm' hr hsent (by omega) (by omega) hval
        (by omega) hlt hcommit' hb
    have hcompat : Compatible r.2 { snapshot := some s } := by
      rw [hu]; exact ⟨.inr ⟨rfl, rfl, rfl⟩, .inl rfl⟩
    have hp1 := hp.trans (.single htrans) hcompat
    have heq : r.2.merge { snapshot := some s } = { r.2 with snapshot := some s } := by
      rw [hu]; ext <;> simp [Update.merge]
    rw [heq] at hp1
    obtain ⟨mem, _, hce⟩ := rebuildMembership_eq hb
    have hsnap : core.snapshot = s := by rw [hce]; rfl
    have hcr : core.role = .follower := by rw [hce]; exact hr
    have hmax : max s.index core.snapshot.index = core.snapshot.index := by
      rw [hsnap]; exact Nat.max_self _
    have hm2 : Receives inp { core with commit := max core.commit s.index } .snapshot m := by
      rw [hce]; exact ⟨hm'.input, hm'.type_eq, hm'.to_ok, hm'.from_ne, hm'.term_eq⟩
    refine ⟨hp1.send _ ?_, Ok.of_role_ne ?_ (by simp [hcr])⟩
    · intro x hx
      rw [mem_singleton.mp hx]
      rw [hmax]
      exact .installed m hm2 hcr
    · show core.snapshot.index ≤ max core.commit s.index
      rw [hsnap]; exact Nat.le_max_right _ _
  · rename_i hge
    refine ⟨hp.send _ ?_, hok1⟩
    intro x hx
    rw [mem_singleton.mp hx]
    rw [Nat.max_eq_right (by omega)]
    exact .installed m hm' hr

theorem Node.handleSnapshotResponse_follows (hok : n.Ok) {m : Message}
    (hm : Receives inp n.toCore .snapshotResponse m) :
    Node.Follows inp n (n.handleSnapshotResponse m) := by
  unfold handleSnapshotResponse
  split
  · exact .refl inp hok
  rename_i hcond
  have hr : n.role = .leader := by
    by_contra hne; exact hcond (.inl hne)
  dsimp only
  split
  · have hok2 : ({ n with
        recentActive := setAt n.recentActive m.fromID true
        outstanding := setAt n.outstanding m.fromID 0 } : Node).Ok := hok.congr rfl rfl
    obtain ⟨h1, h2, h3⟩ := appendMessage_spec inp hok2 hr m.fromID 0 .other (.inl rfl)
    refine ⟨?_, hok2.congr h1 h2⟩
    rw [h1]
    exact .single (.send _ _ (by simpa using h3))
  · rename_i hrej
    have hrej' : m.reject = false := by simpa using hrej
    by_cases hlt : n.matchIndex m.fromID < min m.logIndex n.lastIndex
    · rw [if_pos hlt]
      refine afterAck_follows inp { n with
          recentActive := setAt n.recentActive m.fromID true
          matchIndex := setAt n.matchIndex m.fromID (min m.logIndex n.lastIndex)
          nextIndex := setAt n.nextIndex m.fromID (min m.logIndex n.lastIndex + 1) }
        ?_ hr ?_ m.fromID 0 .other (.inl rfl) _
      · exact hok.progress hr rfl rfl (Nat.lt_succ_self _)
          (Nat.succ_le_succ (Nat.min_le_right _ _))
      · exact .single (.acknowledge n.toCore .snapshotResponse m hm (.inr rfl) hr hrej'
          (by omega))
    · rw [if_neg hlt]
      refine afterAck_follows inp
        { n with recentActive := setAt n.recentActive m.fromID true }
        ?_ hr ?_ m.fromID 0 .other (.inl rfl) _
      · exact hok.congr rfl rfl
      · exact .nil _

/-! ### Stepping a message -/

omit [MembershipJson] in
theorem Core.rejectStale_emits (c : Core) (m : Message)
    (hm : m.type ≠ .preVote ∧ m.type ≠ .preVoteResponse) : Emits inp c (c.rejectStale m) := by
  obtain ⟨h1, h2⟩ := hm
  unfold rejectStale
  cases ht : m.type with
  | preVote => exact absurd ht h1
  | preVoteResponse => exact absurd ht h2
  | vote => exact .reject .voteResponse m.fromID 0 (.inr (.inl rfl))
  | voteResponse => exact .reject .voteResponse m.fromID 0 (.inr (.inl rfl))
  | append => exact .reject .appendResponse m.fromID _ (.inr (.inr (.inl rfl)))
  | appendResponse => exact .reject .appendResponse m.fromID 0 (.inr (.inr (.inl rfl)))
  | snapshot => exact .reject .snapshotResponse m.fromID 0 (.inr (.inr (.inr rfl)))
  | snapshotResponse => exact .reject .snapshotResponse m.fromID 0 (.inr (.inr (.inr rfl)))

/-- The switch of `Step`, on a message of the node's own term unless it is a pre-vote. -/
theorem Node.dispatch_follows {next : ℕ → ℕ} (hok : n.Ok) {m : Message} (hi : inp = .message m)
    (hn : m.type = .preVote ∨ m.type = .preVoteResponse → next n.term = n.term + 1)
    (hto : m.toID = 0 ∨ m.toID = n.cfg.id) (hfrom : m.fromID ≠ n.cfg.id)
    (hterm : m.type ≠ .preVote → m.type ≠ .preVoteResponse → m.term = n.term)
    (hwf : m.type = .append → malformedAppend m = none) :
    Node.Follows inp n (n.dispatchWith next m) := by
  unfold dispatchWith
  cases ht : m.type with
  | preVote =>
    refine ⟨.single (.send _ _ ?_), hok⟩
    intro x hx
    rw [mem_singleton.mp hx]
    exact handlePreVote_emits inp (hn (.inl ht)) m hi
  | preVoteResponse => exact handlePreVoteResponse_follows inp (hn (.inr ht)) hok m
  | vote => exact handleVote_follows inp hok ⟨hi, ht, hto, hfrom, hterm (by simp [ht]) (by simp [ht])⟩
  | voteResponse =>
    exact handleVoteResponse_follows inp hok
      ⟨hi, ht, hto, hfrom, hterm (by simp [ht]) (by simp [ht])⟩
  | append =>
    exact handleAppend_follows inp hok
      ⟨hi, ht, hto, hfrom, hterm (by simp [ht]) (by simp [ht])⟩ (hwf ht)
  | appendResponse =>
    exact handleAppendResponse_follows inp hok
      ⟨hi, ht, hto, hfrom, hterm (by simp [ht]) (by simp [ht])⟩
  | snapshot =>
    exact handleSnapshot_follows inp hok
      ⟨hi, ht, hto, hfrom, hterm (by simp [ht]) (by simp [ht])⟩
  | snapshotResponse =>
    exact handleSnapshotResponse_follows inp hok
      ⟨hi, ht, hto, hfrom, hterm (by simp [ht]) (by simp [ht])⟩

theorem Node.stepTerm_follows {next : ℕ → ℕ} {m : Message}
    (hn : m.type = .preVote ∨ m.type = .preVoteResponse → next n.term = n.term + 1)
    (hok : n.Ok) (hi : inp = .message m)
    (hto : m.toID = 0 ∨ m.toID = n.cfg.id) (hfrom : m.fromID ≠ n.cfg.id)
    (hwf : m.type = .append → malformedAppend m = none) :
    Node.Follows inp n (n.stepTermWith next m) := by
  unfold stepTermWith
  split
  · rename_i htype
    split
    · rename_i hlt
      dsimp only
      obtain ⟨hu, hcore⟩ := n.becomeFollower_adopt 0 hlt
      have hf := becomeFollower_follows_adopt inp hok 0 hlt
      -- a pre-vote never gets here: its term is not adopted
      have hd := @Node.dispatch_follows _ inp _ next hf.ok m hi
        (fun h => absurd h (by simp [htype.1, htype.2])) (by rw [hcore]; exact hto)
        (by rw [hcore]; exact hfrom) (fun _ _ => by rw [hcore]) hwf
      refine ⟨hf.path.trans hd.path ?_, hd.ok⟩
      rw [hu]
      exact ⟨.inr ⟨rfl, rfl, rfl⟩, .inl rfl⟩
    · split
      · refine ⟨.single (.send _ _ ?_), hok⟩
        intro x hx
        rw [mem_singleton.mp hx]
        exact rejectStale_emits inp _ m htype
      · exact dispatch_follows inp hok hi hn hto hfrom (fun _ _ => by omega) hwf
  · rename_i htype
    exact dispatch_follows inp hok hi hn hto hfrom
      (fun h1 h2 => absurd ⟨h1, h2⟩ htype) hwf

/-- **`Step`** follows a path, whatever the message, unless the term overflows. -/
theorem Node.stepWith_follows {next : ℕ → ℕ} {m : Message}
    (hn : m.type = .preVote ∨ m.type = .preVoteResponse → next n.term = n.term + 1)
    (hok : n.Ok) : Node.Follows (.message m) n (n.stepWith next m) := by
  unfold stepWith
  split
  · exact .refl _ hok
  rename_i hto
  split
  · exact .refl _ hok
  rename_i hfrom
  have hto' : m.toID = 0 ∨ m.toID = n.cfg.id := by
    by_contra h
    exact hto ⟨fun h' => h (.inl h'), fun h' => h (.inr h')⟩
  have hfrom' : m.fromID ≠ n.cfg.id := fun h => hfrom (.inr h)
  split
  · exact ⟨.single (.drop _ _), hok.congr rfl rfl⟩
  rename_i hmal
  split
  · exact ⟨.nil _, hok.congr rfl rfl⟩
  · refine stepTerm_follows _ hn hok rfl hto' hfrom' ?_
    intro ht
    rwa [if_pos ht] at hmal

theorem Node.step_follows (hok : n.Ok) (m : Message) :
    Node.Follows (.message m) n (n.step m) :=
  stepWith_follows (fun _ => rfl) hok

/-! ### Proposals, reads and local snapshots -/

omit [MembershipJson] in
theorem Core.appendCommands_core (data : List Bytes) :
    ∀ c : Core, (c.appendCommands data).1
      = { c with log := c.log ++ (c.appendCommands data).2.2 } := by
  induction data with
  | nil => intro c; simp [appendCommands]
  | cons command rest ih =>
    intro c
    unfold appendCommands
    split
    · exact ih c
    · dsimp only
      rw [ih]
      simp

/-- The batch as a path: one `propose` per command that fits. -/
theorem Core.appendCommands_path {commands data : List Bytes} (hi : inp = .commands commands)
    (hsub : ∀ d ∈ data, d ∈ commands) :
    ∀ (c : Core) (mi : ℕ → ℕ), c.role = .leader → (c.appendCommands data).2.2 ≠ [] →
      Path inp { c with matchIndex := mi } { entries := (c.appendCommands data).2.2 }
        { (c.appendCommands data).1 with
          matchIndex := setAt mi c.cfg.id (c.appendCommands data).1.lastIndex } := by
  induction data with
  | nil => intro c mi _ hne; simp [appendCommands] at hne
  | cons command rest ih =>
    intro c mi hr hne
    have ih' := ih (fun d hd => hsub d (mem_cons_of_mem _ hd))
    unfold appendCommands at hne ⊢
    split
    · rename_i hbig
      rw [if_pos hbig] at hne
      exact ih' c mi hr hne
    rename_i hfit
    dsimp only
    -- the first entry, then the rest from the extended log
    have h1 : Path inp { c with matchIndex := mi }
        { entries := [{ index := c.lastIndex + 1, term := c.term, data := command }] }
        { c with
          log := c.log ++ [{ index := c.lastIndex + 1, term := c.term, data := command }]
          matchIndex := setAt mi c.cfg.id (c.lastIndex + 1) } :=
      .single (.propose { c with matchIndex := mi } command hr
        (.inr ⟨commands, hi, hsub command (by simp)⟩) (by omega))
    generalize hc1 : ({ c with
      log := c.log ++ [{ index := c.lastIndex + 1, term := c.term, data := command }] } : Core)
      = c1 at *
    have hid : c1.cfg.id = c.cfg.id := by rw [← hc1]
    have hlast : c1.lastIndex = c.lastIndex + 1 := by
      rw [← hc1]; simp [lastIndex]; omega
    have h1' : Path inp { c with matchIndex := mi }
        { entries := [{ index := c.lastIndex + 1, term := c.term, data := command }] }
        { c1 with matchIndex := setAt mi c.cfg.id (c.lastIndex + 1) } := by
      rw [← hc1]; exact h1
    by_cases hrest : (c1.appendCommands rest).2.2 = []
    · have hcore := c1.appendCommands_core rest
      rw [hrest, append_nil] at hcore
      rw [hrest, hcore]
      show Path inp _ _ { c1 with matchIndex := setAt mi c.cfg.id c1.lastIndex }
      rw [hlast]
      exact h1'
    · have h2 := ih' c1 (setAt mi c.cfg.id (c.lastIndex + 1)) (by rw [← hc1]; exact hr) hrest
      rw [hid] at h2
      have h3 := h1'.quiet_trans h2 ⟨rfl, rfl, rfl⟩
      simpa [setAt, Update.merge] using h3

theorem Node.proposeBatch_nothing {data : List Bytes} {n' : Node} {indexes : List ℕ} {u : Update}
    (h : n.proposeBatch data = (n', .ok (indexes, u))) (hu : u.entries.length = 0) : n' = n := by
  unfold proposeBatch at h
  split at h
  · simp at h
  dsimp only at h
  split at h
  · simp only [Prod.mk.injEq, Except.ok.injEq] at h
    exact h.1.symm
  rename_i hne
  simp only [Prod.mk.injEq, Except.ok.injEq] at h
  obtain ⟨_, _, rfl⟩ := h
  simp only [merge_entries, length_append] at hu
  omega

/-- **`ProposeBatch`** follows a path on a leader and changes nothing otherwise. -/
theorem Node.proposeBatch_follows (hok : n.Ok) (data : List Bytes) :
    (∃ e, n.proposeBatch data = (n, .error e))
      ∨ ∃ n' indexes u, n.proposeBatch data = (n', .ok (indexes, u))
        ∧ Node.FollowsQuietly (.commands data) n (n', u) := by
  unfold proposeBatch
  split
  · exact .inl ⟨_, rfl⟩
  rename_i hr
  have hr' : n.role = .leader := by simpa using hr
  right
  dsimp only
  split
  · exact ⟨n, _, {}, rfl, .refl _ hok, ⟨rfl, rfl, rfl⟩⟩
  rename_i hne
  have hne' : (n.appendCommands data).2.2 ≠ [] := by
    intro h; rw [h] at hne; simp at hne
  have hp := appendCommands_path (.commands data) rfl (fun d hd => hd) n.toCore
    n.matchIndex hr' hne'
  have hcore := n.appendCommands_core data
  generalize n.appendCommands data = r at *
  have hok1 : (({ n with toCore := r.1 } : Node).markOwn r.1.lastIndex).Ok :=
    hok.extend r.2.2 hr' (by rw [hcore]; rfl) (by rw [hcore]; rfl) (by rw [hcore]; rfl)
      (by rw [hcore]; rfl) (by rw [hcore]; rfl) rfl
  have hr1 : (({ n with toCore := r.1 } : Node).markOwn r.1.lastIndex).role = .leader := by
    rw [hcore]; exact hr'
  obtain ⟨hb1, hb2, hb3⟩ := broadcastAppend_spec (.commands data) hok1 hr1 .proposal
  have hp1 : Path (.commands data) n.toCore { entries := r.2.2 }
      (({ n with toCore := r.1 } : Node).markOwn r.1.lastIndex).toCore := by
    have hid : r.1.cfg.id = n.cfg.id := by rw [hcore]
    have hmi : r.1.matchIndex = n.matchIndex := by rw [hcore]
    simp only [markOwn, hmi, hid]
    exact hp
  generalize ({ n with toCore := r.1 } : Node).markOwn r.1.lastIndex = n1 at *
  have hc := maybeCommit_follows (.commands data) (hok1.congr hb1 hb2)
    (by rw [hb1]; exact hr1)
  generalize n1.broadcastAppend .proposal = b at *
  refine ⟨_, _, _, rfl, ⟨?_, hc.ok⟩, Quiet.merge ⟨rfl, rfl, rfl⟩ hc.quiet⟩
  exact (hp1.send b.2 hb3).quiet_trans (hb1 ▸ hc.path) hc.quiet

/-- **`ProposeMembership`** follows a path; only a failing rebuild leaves an entry behind. -/
theorem Node.proposeMembership_follows (hok : n.Ok) (voters : List ℕ) :
    (∃ n' e, n.proposeMembership voters = (n', .error e)
        ∧ Node.FollowsQuietly (.voters voters) n (n', {}))
      ∨ ∃ n' index u, n.proposeMembership voters = (n', .ok (index, u))
        ∧ Node.FollowsQuietly (.voters voters) n (n', u) := by
  have hrefl : FollowsQuietly (.voters voters) n (n, {}) :=
    ⟨.refl _ hok, ⟨rfl, rfl, rfl⟩⟩
  unfold proposeMembership
  split
  · exact .inl ⟨n, _, rfl, hrefl⟩
  rename_i hr
  have hr' : n.role = .leader := by simpa using hr
  split
  · exact .inl ⟨n, _, rfl, hrefl⟩
  rename_i hstable
  split
  · exact .inl ⟨n, _, rfl, hrefl⟩
  rename_i new hnew
  split
  · exact .inr ⟨n, _, {}, rfl, hrefl⟩
  have hj : n.membership.jointVoters = [] := by
    by_contra h
    exact hstable (.inl (length_pos_iff.mpr h))
  have hc : n.membership.index ≤ n.commit := by
    by_contra h
    exact hstable (.inr (by omega))
  have hrec : Reconfigures (.voters voters) n.toCore
      { phase := .joint, old := n.membership.voters, new := new } :=
    .joint voters new rfl hnew hj hc
  dsimp only
  split
  · rename_i e he
    refine .inl ⟨_, _, rfl, ⟨.single (.orphan n.toCore _ e hr' hrec he), ?_⟩,
      ⟨rfl, rfl, rfl⟩⟩
    refine ⟨hok.snap_le, fun _ p => ?_, fun _ p => ?_, fun _ p => hok.match_next hr' p⟩
    · have := hok.next_le hr' p
      simp only [lastIndex, length_append] at this ⊢
      omega
    · have := hok.match_le hr' p
      simp only [lastIndex, length_append] at this ⊢
      omega
  · rename_i core hcore
    right
    obtain ⟨mem, _, hceq⟩ := rebuildMembership_eq hcore
    generalize hn2 : markOwn _ (n.lastIndex + 1) = n2
    have hn2core : n2.toCore
        = { core with matchIndex := setAt n.matchIndex n.cfg.id (n.lastIndex + 1) } := by
      rw [← hn2, hceq]; rfl
    have hn2next : n2.nextIndex = setAt (fun peer =>
        if peer ∈ core.peers ∧ n.nextIndex peer = 0 then n.lastIndex + 1
        else n.nextIndex peer) n.cfg.id (n.lastIndex + 1 + 1) := by
      rw [← hn2, hceq]; rfl
    have hlast : n2.lastIndex = n.lastIndex + 1 := by
      rw [hn2core, hceq]; simp [lastIndex]; omega
    have hr2 : n2.role = .leader := by rw [hn2core, hceq]; exact hr'
    have hok2 : n2.Ok := by
      refine ⟨by rw [hn2core, hceq]; exact hok.snap_le, fun _ p => ?_, fun _ p => ?_,
        fun _ p => ?_⟩
      · have := hok.next_le hr' p
        rw [hn2next, hlast]
        by_cases hp : p = n.cfg.id
        · subst hp; simp
        · simp only [setAt, Function.update_of_ne hp]
          split <;> omega
      · have := hok.match_le hr' p
        rw [hlast, hn2core]
        by_cases hp : p = n.cfg.id
        · subst hp; simp
        · simp only [setAt, Function.update_of_ne hp]
          omega
      · have := hok.match_next hr' p
        rw [hn2core, hn2next]
        by_cases hp : p = n.cfg.id
        · subst hp; simp
        · simp only [setAt, Function.update_of_ne hp]
          split
          · left; omega
          · exact this
    have hp1 : Path (.voters voters) n.toCore
        { entries := [{ index := n.lastIndex + 1, term := n.term,
                        data := encodeMembership
                          { phase := .joint, old := n.membership.voters, new := new } }] }
        n2.toCore := by
      rw [hn2core]
      exact .single (.reconfigure n.toCore core _ hr' hrec hcore)
    obtain ⟨hb1, hb2, hb3⟩ := broadcastAppend_spec (.voters voters) hok2 hr2 .other
    have hcm := maybeCommit_follows (.voters voters) (hok2.congr hb1 hb2)
      (by rw [hb1]; exact hr2)
    generalize n2.broadcastAppend .other = b at *
    refine ⟨_, _, _, rfl, ⟨?_, hcm.ok⟩, Quiet.merge ⟨rfl, rfl, rfl⟩ hcm.quiet⟩
    exact (hp1.send b.2 hb3).quiet_trans (hb1 ▸ hcm.path) hcm.quiet

/-- **`ReadProbe`** sends appends only. -/
theorem Node.readProbe_follows (hok : n.Ok) (context : ℕ) :
    (∃ e, n.readProbe context = (n, .error e))
      ∨ ∃ n' u, n.readProbe context = (n', .ok u)
        ∧ Node.FollowsQuietly (.probe context) n (n', u) ∧ n'.toCore = n.toCore := by
  unfold readProbe
  split
  · exact .inl ⟨_, rfl⟩
  rename_i hr
  have hr' : n.role = .leader := by simpa using hr
  split
  · exact .inl ⟨_, rfl⟩
  right
  obtain ⟨h1, h2, h3⟩ := appendMessages_spec (.probe context) context .other (.inr rfl)
    (n.peers.filter (fun peer => peer ≠ n.cfg.id)) hok hr'
  refine ⟨_, _, rfl, ⟨⟨?_, hok.congr h1 h2⟩, ⟨rfl, rfl, rfl⟩⟩, h1⟩
  rw [h1]
  exact .single (.send _ _ h3)

omit [MembershipJson] in
/-- Compacting the log keeps the progress bounds, since its end stays. -/
theorem Node.Ok.compacted (hok : n.Ok) {s : Snapshot} (mem : Membership)
    (hlt : n.snapshot.index < s.index) (hle : s.index ≤ n.commit) (ht0 : s.term ≠ 0)
    (ht : n.termAt s.index = s.term) :
    ({ n with toCore := { n.compactLog s with membership := mem } } : Node).Ok := by
  have hlast : (n.compactLog s).lastIndex = n.lastIndex :=
    compactLog_lastIndex hlt (le_lastIndex_of_termAt (by rw [ht]; exact ht0)) ht
  refine ⟨hle, fun hr p => ?_, fun hr p => ?_, fun hr p => hok.match_next hr p⟩
  · show n.nextIndex p ≤ (n.compactLog s).lastIndex + 1
    rw [hlast]
    exact hok.next_le hr p
  · show n.matchIndex p ≤ (n.compactLog s).lastIndex
    rw [hlast]
    exact hok.match_le hr p

/-- **`Compact`** fails, finds nothing new, or compacts the log. -/
theorem Node.compact_spec (hok : n.Ok) (snapshot : Snapshot) :
    (∃ n' e, n.compact snapshot = (n', .error e)
        ∧ Node.Follows (.snapshot snapshot.index snapshot.data) n (n', {}))
      ∨ (n.compact snapshot = (n, .ok {}) ∧ snapshot.index ≤ n.snapshot.index)
      ∨ ∃ n' s, n.compact snapshot = (n', .ok { snapshot := some s }) ∧ s.index = snapshot.index
        ∧ Trans (.snapshot snapshot.index snapshot.data) n.toCore { snapshot := some s } n'.toCore
        ∧ n'.Ok := by
  unfold compact
  split
  · rename_i hle
    exact .inr (.inl ⟨rfl, hle⟩)
  rename_i hlt
  split
  · exact .inl ⟨n, _, rfl, .refl _ hok⟩
  rename_i hcond
  simp only [not_or, Nat.not_lt, ne_eq, not_not] at hcond
  obtain ⟨hle, hterm0, hterm⟩ := hcond
  split
  · exact .inl ⟨n, _, rfl, .refl _ hok⟩
  rename_i expected hmem
  dsimp only
  generalize hs : (if snapshot.membership.voters.length = 0 then
    { snapshot with membership := expected } else snapshot) = s
  have hsi : s.index = snapshot.index := by rw [← hs]; split <;> rfl
  have hst : s.term = snapshot.term := by rw [← hs]; split <;> rfl
  have hsd : s.data = snapshot.data := by rw [← hs]; split <;> rfl
  split
  · exact .inl ⟨n, _, rfl, .refl _ hok⟩
  rename_i hmi
  split
  · exact .inl ⟨n, _, rfl, .refl _ hok⟩
  rename_i hsame
  have hsm : s.membership = expected := by
    simp only [Bool.or_eq_true, Bool.not_eq_true', not_or, Bool.not_eq_false,
      bne_iff_ne, ne_eq, not_not] at hsame
    exact equalVoters_membership hsame.1.1 hsame.1.2 hsame.2
  have hst0 : s.term ≠ 0 := by rw [hst]; exact hterm0
  have hterm' : n.termAt s.index = s.term := by rw [hsi, hst]; exact hterm
  split
  · rename_i e he
    refine .inl ⟨_, _, rfl, .single ?_,
      hok.compacted n.membership (by omega) (by omega) hst0 hterm'⟩
    exact .halfCompact n.toCore s expected snapshot.data e (by rw [hsi]) hsd (by omega)
      (by omega) hst0 hterm' (by rw [hsi]; exact hmem) hsm (by rw [← hsm]; omega) he
  · rename_i core hcore
    have ht : Trans (.snapshot snapshot.index snapshot.data) n.toCore
        { snapshot := some s } core :=
      .compact n.toCore core s expected snapshot.data (by rw [hsi]) hsd (by omega)
        (by omega) hst0 hterm' (by rw [hsi]; exact hmem) hsm (by rw [← hsm]; omega) hcore
    obtain ⟨mm, _, hceq⟩ := rebuildMembership_eq hcore
    refine .inr (.inr ⟨_, s, rfl, hsi, ht, ?_⟩)
    subst hceq
    exact hok.compacted mm (by omega) (by omega) hst0 hterm'

/-- **`CreateSnapshot`** fails, finds nothing new, or compacts the log. -/
theorem Node.createSnapshot_spec (hok : n.Ok) (index : ℕ) (data : Bytes) :
    (∃ n' e, n.createSnapshot index data = (n', .error e)
        ∧ Node.Follows (.snapshot index data) n (n', {}))
      ∨ (n.createSnapshot index data = (n, .ok {}) ∧ index ≤ n.snapshot.index)
      ∨ ∃ n' s, n.createSnapshot index data = (n', .ok { snapshot := some s }) ∧ s.index = index
        ∧ Trans (.snapshot index data) n.toCore { snapshot := some s } n'.toCore ∧ n'.Ok := by
  unfold createSnapshot
  split
  · exact .inl ⟨n, _, rfl, .refl _ hok⟩
  · rename_i membership _
    exact compact_spec hok
      { index := index, term := n.termAt index, data := data, membership := membership }

theorem Node.createSnapshot_follows (hok : n.Ok) (index : ℕ) (data : Bytes) :
    (∃ n' e, n.createSnapshot index data = (n', .error e)
        ∧ Node.Follows (.snapshot index data) n (n', {}))
      ∨ ∃ n' u, n.createSnapshot index data = (n', .ok u)
        ∧ Node.Follows (.snapshot index data) n (n', u) := by
  rcases createSnapshot_spec hok index data with h | ⟨h, _⟩ | ⟨n', s, h, _, ht, hok'⟩
  · exact .inl h
  · exact .inr ⟨n, {}, h, .refl _ hok⟩
  · exact .inr ⟨n', _, h, .single ht, hok'⟩

/-! ### A configuration change that is already in force -/

omit [MembershipJson] in
theorem Node.broadcastLoop_core (origin : MessageOrigin) (peers : List ℕ) :
    ∀ n : Node, (Node.broadcastLoop origin n peers).1.toCore = n.toCore := by
  induction peers with
  | nil => intro n; rfl
  | cons peer rest ih =>
    intro n
    unfold broadcastLoop
    split
    · exact ih n
    · split
      · exact ih n
      · exact (ih _).trans (n.appendMessage_core peer 0 origin).1

private theorem Node.appendFinal_commit (n : Node) : n.appendFinal.1.commit = n.commit := by
  unfold appendFinal
  split
  · dsimp only
    split
    · rfl
    · rename_i core hcore
      obtain ⟨mem, _, rfl⟩ := rebuildMembership_eq hcore
      rfl
  · rfl

omit [MembershipJson] in
private theorem Node.becomeFollower_commit (n : Node) (t leader : ℕ) :
    (n.becomeFollower t leader).1.commit = n.commit := by
  unfold Node.becomeFollower resetElectionTimer
  dsimp only
  split <;> rfl

private theorem Node.maybeCommit_commit (n : Node) :
    n.maybeCommit.1.commit ≤ max n.commit n.lastIndex := by
  unfold maybeCommit
  dsimp only
  split
  · exact Nat.le_max_left _ _
  rename_i hlt
  have hle := (commitCandidate_spec n.toCore n.lastIndex (by omega)).1
  have hcore : ∀ k : Node, (k.broadcastAppend .commitAdvance).1.toCore = k.toCore :=
    fun k => broadcastLoop_core _ _ k
  have hfin : (({ n with commit := n.commitCandidate n.lastIndex } : Node).appendFinal.1.broadcastAppend
      .commitAdvance).1.commit = n.commitCandidate n.lastIndex := by
    rw [hcore, appendFinal_commit]
  split
  · show (Node.becomeFollower _ _ _).1.commit ≤ _
    rw [becomeFollower_commit, hfin]
    exact hle.trans (Nat.le_max_right _ _)
  · show commit _ ≤ _
    rw [hfin]
    exact hle.trans (Nat.le_max_right _ _)

/-- A change whose index is already committed was no change: the entry of a new one lies
    beyond what this call can commit. -/
theorem Node.proposeMembership_committed {voters : List ℕ} {n' : Node} {index : ℕ} {u : Update}
    (hc : n.commit ≤ n.lastIndex) (h : n.proposeMembership voters = (n', .ok (index, u)))
    (hle : index ≤ n'.commit) : n' = n ∧ u = {} := by
  unfold proposeMembership at h
  split at h
  · simp at h
  split at h
  · simp at h
  split at h
  · simp at h
  split at h
  · simp only [Prod.mk.injEq, Except.ok.injEq] at h
    exact ⟨h.1.symm, h.2.2.symm⟩
  dsimp only at h
  split at h
  · simp at h
  rename_i core hcore
  obtain ⟨mem, _, rfl⟩ := rebuildMembership_eq hcore
  simp only [Prod.mk.injEq, Except.ok.injEq] at h
  obtain ⟨rfl, rfl, rfl⟩ := h
  -- the new entry is the last one when the commit index is computed
  have hbound := hle.trans (maybeCommit_commit _)
  have hcore' : ∀ k : Node, (k.broadcastAppend .other).1.toCore = k.toCore :=
    fun k => broadcastLoop_core _ _ k
  rw [hcore'] at hbound
  simp only [markOwn, lastIndex, length_append, length_singleton]
    at hbound
  simp only [lastIndex] at hc
  omega

/-! ### The answers to an append -/

/-- An update that answers appends and installs nothing. -/
structure Update.OnlyReplies (u : Update) : Prop where
  snapshot : u.snapshot = none
  messages : ∀ x ∈ u.messages, x.type = .appendResponse ∧ x.entries = [] ∧ x.snapshot = none

section
omit [MembershipJson]

private theorem Update.OnlyReplies.reply {u : Update} (h : u.OnlyReplies) {x : Message}
    (hx : x.type = .appendResponse ∧ x.entries = [] ∧ x.snapshot = none) :
    (u.send [x]).OnlyReplies := by
  refine ⟨h.snapshot, fun y hy => ?_⟩
  rcases mem_append.mp hy with hy | hy
  · exact h.messages y hy
  · rw [mem_singleton.mp hy]
    exact hx

private theorem Node.becomeFollower_onlyReplies (n : Node) (t leader : ℕ) :
    (n.becomeFollower t leader).2.OnlyReplies :=
  ⟨rfl, by simp [Node.becomeFollower]⟩

private theorem Node.followSender_onlyReplies (n : Node) (sender : ℕ) :
    (n.followSender sender).2.OnlyReplies := by
  unfold followSender
  dsimp only
  split
  · exact n.becomeFollower_onlyReplies _ _
  · exact ⟨rfl, by simp⟩

private theorem Node.acceptAppend_onlyReplies (n : Node) (m : Message) {u : Update}
    (hu : u.OnlyReplies) : (n.acceptAppend m u).2.OnlyReplies := by
  unfold acceptAppend
  dsimp only
  split
  · refine ⟨hu.snapshot, fun y hy => ?_⟩
    rcases mem_append.mp hy with hy | hy
    · exact hu.messages y hy
    · rw [mem_singleton.mp hy]
      exact ⟨rfl, rfl, rfl⟩
  · exact hu.reply ⟨rfl, rfl, rfl⟩

end

theorem Node.handleAppend_onlyReplies (n : Node) (m : Message) :
    (n.handleAppend m).2.OnlyReplies := by
  have hf := n.followSender_onlyReplies m.fromID
  unfold handleAppend
  dsimp only
  split
  · exact hf.reply ⟨rfl, rfl, rfl⟩
  split
  · exact acceptAppend_onlyReplies _ m hf
  · exact hf.reply ⟨rfl, rfl, rfl⟩
  · split
    · exact hf.reply ⟨rfl, rfl, rfl⟩
    · exact acceptAppend_onlyReplies _ m ⟨hf.snapshot, hf.messages⟩

/-- **Stepping an append** sends answers only and installs no snapshot. -/
theorem Node.stepWith_onlyReplies (next : ℕ → ℕ) {m : Message} (hm : m.type = .append) :
    (n.stepWith next m).2.OnlyReplies := by
  have hempty : ({} : Update).OnlyReplies := ⟨rfl, by simp⟩
  have hd : ∀ k : Node, (k.dispatchWith next m).2.OnlyReplies := by
    intro k
    unfold dispatchWith
    rw [hm]
    exact k.handleAppend_onlyReplies m
  unfold stepWith
  split
  · exact hempty
  split
  · exact hempty
  split
  · exact ⟨rfl, by simp⟩
  split
  · exact hempty
  unfold stepTermWith
  rw [if_pos (by simp [hm])]
  split
  · have hb := n.becomeFollower_onlyReplies m.term 0
    refine ⟨?_, fun x hx => ?_⟩
    · rw [merge_snapshot, (hd _).snapshot, hb.snapshot]
      rfl
    · rcases mem_append.mp hx with hx | hx
      · exact hb.messages x hx
      · exact (hd _).messages x hx
  · split
    · refine ⟨rfl, fun x hx => ?_⟩
      rw [mem_singleton.mp hx]
      simp [rejectStale, hm, rejection]
    · exact hd n

end Codec

end Lsmdb.Raft

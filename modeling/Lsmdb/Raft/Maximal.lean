import Lsmdb.Raft.Eligibility

namespace Lsmdb.Raft

open Node Core

/-!
# Raft core — how far a leader commits

`maybeCommit` raises the commit index as far as the acknowledgements it has seen allow.  When
that commits a joint configuration it goes on to append the final one, which changes the quorum
it has just counted, and does not count again.  So a leader's commit index is maximal
(`Core.Settled`) as long as no acknowledgement completes a joint configuration whose new voters
have already acknowledged more (`Core.LeavesBehind`).
-/

section Codec
variable [MembershipJson] {n : Node} {op : Op} {c c' : Core}

/-! ### Committable indexes -/

/-- The entry at `i` is not committed, is of the current term, and a quorum of the current
    configuration has acknowledged it. -/
def Core.Committable (c : Core) (i : ℕ) : Prop :=
  c.commit < i ∧ i ≤ c.lastIndex ∧ c.termAt i = c.term
    ∧ c.membership.hasQuorum (fun id => decide (i ≤ c.matchIndex id)) = true

/-- A leader counts its whole log as acknowledged by itself, and no committable index waits. -/
def Core.Settled (c : Core) : Prop :=
  c.role = .leader → c.matchIndex c.cfg.id = c.lastIndex ∧ ∀ i, ¬c.Committable i

/-- Committing now would complete a joint configuration: the highest committable index `k`
    commits the joint entry, and a majority of the new voters, the leader counted with any
    index, has acknowledged more than `k`. -/
def Core.LeavesBehind (c : Core) : Prop :=
  c.membership.jointVoters ≠ [] ∧ ∃ k, c.Committable k ∧ (∀ i, k < i → ¬c.Committable i)
    ∧ c.membership.index ≤ k
    ∧ hasSetQuorum c.membership.jointVoters
        (fun id => decide (id = c.cfg.id ∨ k < c.matchIndex id)) = true

/-- The node alone is a quorum of a joint configuration. -/
def Core.AloneInJoint (c : Core) : Prop :=
  c.membership.jointVoters ≠ []
    ∧ c.membership.hasQuorum (fun id => decide (id = c.cfg.id)) = true

section
omit [MembershipJson]

theorem Core.Settled.of_follower (h : c.role = .follower) : c.Settled := by
  intro hr
  rw [h] at hr
  cases hr

theorem Core.Settled.congr (h : c.Settled) (hr : c'.role = c.role) (hcfg : c'.cfg = c.cfg)
    (ht : c'.term = c.term) (hs : c'.snapshot = c.snapshot) (hl : c'.log = c.log)
    (hc : c'.commit = c.commit) (hm : c'.membership = c.membership)
    (hi : c'.matchIndex = c.matchIndex) : c'.Settled := by
  unfold Settled Committable lastIndex at h ⊢
  simp only [termAt_congr hs hl]
  rw [hr, hcfg, ht, hs, hl, hc, hm, hi]
  exact h

theorem Core.not_committable_above {i : ℕ} (h : c.commitCandidate c.lastIndex < i) :
    ¬c.Committable i := by
  rintro ⟨hc, hle, ht, hq⟩
  -- the scan passes `i` on its way down only if `i` may not be committed
  have key : ∀ last, i ≤ last → c.commitCandidate last < i → False := by
    intro last
    induction last with
    | zero => omega
    | succ k ih =>
      intro hik hlt
      unfold commitCandidate at hlt
      rw [if_pos (by omega)] at hlt
      split at hlt
      · omega
      rename_i hno
      rcases Nat.lt_or_ge k i with hki | hki
      · have hik' : k + 1 = i := by omega
        rw [hik'] at hno
        exact hno ⟨ht, hq⟩
      · exact ih hki hlt
  exact key _ hle h

theorem Core.commitCandidate_committable (h : c.commit < c.commitCandidate c.lastIndex) :
    c.Committable (c.commitCandidate c.lastIndex) := by
  obtain ⟨hle, ht, hq⟩ := c.commitCandidate_spec c.lastIndex h
  exact ⟨h, hle, ht, hq⟩

end

/-! ### Committing -/

/-- **The final configuration**: the new voters alone decide, and the leader has acknowledged
    the entry that says so. -/
theorem Node.appendFinal_core (h : n.Folded) (hj : n.membership.jointVoters ≠ [])
    (hc : n.membership.index ≤ n.commit) :
    ∃ final : Entry, n.appendFinal.1.toCore =
      { n.toCore with
        log := n.log ++ [final]
        membership := { voters := n.membership.jointVoters, index := n.lastIndex + 1 }
        matchIndex := setAt n.matchIndex n.cfg.id (n.lastIndex + 1) } := by
  have hrec : Reconfigures .tick n.toCore { phase := .final, new := n.membership.jointVoters } :=
    .final hj hc
  obtain ⟨m, hfold, happly⟩ := h.rebuild_ok (n.lastIndex + 1) n.term hrec
  have hm := applyMembership_final happly
  refine ⟨{ index := n.lastIndex + 1, term := n.term,
            data := encodeMembership { phase := .final, new := n.membership.jointVoters } }, ?_⟩
  unfold appendFinal
  rw [if_pos ⟨List.length_pos_iff.mpr hj, hc⟩]
  dsimp only
  unfold rebuildMembership
  rw [show ∀ l, ({ n.toCore with log := l } : Core).baseMembership = n.baseMembership from
    fun _ => rfl, hfold, hm]
  rfl

/-- A commit keeps the configuration, or completes a joint one. -/
theorem Node.maybeCommit_membership (hf : n.Folded) :
    n.maybeCommit.1.membership = n.membership
      ∨ ∃ k, n.maybeCommit.1.membership = { voters := n.membership.jointVoters, index := k } := by
  unfold maybeCommit
  dsimp only
  split
  · exact .inl rfl
  rename_i hlt
  have hle := (commitCandidate_spec n.toCore n.lastIndex (by omega)).1
  generalize n.commitCandidate n.lastIndex = k at hlt hle ⊢
  have hf1 : ({ n with commit := k } : Node).Folded :=
    { hf with
      commit_lo := hf.commit_lo.trans (Nat.le_of_not_le hlt)
      commit_hi := hle }
  have hfin : ({ n with commit := k } : Node).appendFinal.1.membership = n.membership
      ∨ ∃ j, ({ n with commit := k } : Node).appendFinal.1.membership
        = { voters := n.membership.jointVoters, index := j } := by
    by_cases hcond : n.membership.jointVoters ≠ [] ∧ n.membership.index ≤ k
    · obtain ⟨final, hcore⟩ := appendFinal_core hf1 hcond.1 hcond.2
      exact .inr ⟨_, by rw [hcore]⟩
    · left
      unfold appendFinal
      rw [if_neg (fun h => hcond ⟨List.length_pos_iff.mp h.1, h.2⟩)]
  have hb : ∀ m : Node, (m.broadcastAppend .commitAdvance).1.membership = m.membership := by
    intro m
    rw [broadcastAppend, broadcastLoop_core]
  split
  · rw [← hb] at hfin
    generalize (({ n with commit := k } : Node).appendFinal.1.broadcastAppend
      .commitAdvance).1 = b at hfin ⊢
    rw [(becomeFollower_stepDown b 0).2]
    exact hfin
  · rw [hb]
    exact hfin

/-- **A commit settles the leader** unless it leaves the final configuration behind. -/
theorem Node.maybeCommit_settled (hf : n.Folded) (hown : n.matchIndex n.cfg.id = n.lastIndex)
    (hl : ¬n.LeavesBehind) : n.maybeCommit.1.Settled := by
  unfold maybeCommit
  dsimp only
  generalize hk : n.commitCandidate n.lastIndex = k
  have habove : ∀ i, k < i → ¬n.Committable i := by
    intro i hi
    exact not_committable_above (hk ▸ hi)
  split
  · rename_i hle
    intro _
    exact ⟨hown, fun i hi => habove i (lt_of_le_of_lt hle hi.1) hi⟩
  rename_i hlt
  have hcom : n.Committable k := hk ▸ commitCandidate_committable (by omega)
  have hf1 : ({ n with commit := k } : Node).Folded :=
    { hf with
      commit_lo := hf.commit_lo.trans (Nat.le_of_not_le hlt)
      commit_hi := hcom.2.1 }
  split
  · exact .of_follower rfl
  intro _
  rw [broadcastAppend, broadcastLoop_core]
  by_cases hfin : n.membership.jointVoters ≠ [] ∧ n.membership.index ≤ k
  · obtain ⟨final, hcore⟩ := appendFinal_core hf1 hfin.1 hfin.2
    rw [hcore]
    refine ⟨?_, ?_⟩
    · simp [lastIndex, Nat.add_assoc]
    · rintro i ⟨hi, hlast, _, hq⟩
      refine hl ⟨hfin.1, k, hcom, habove, hfin.2, ?_⟩
      refine hasSetQuorum_mono ?_ ((Membership.hasQuorum_iff _ _).mp hq).1
      intro x _ hx
      have hx' : i ≤ setAt n.matchIndex n.cfg.id (n.lastIndex + 1) x := of_decide_eq_true hx
      by_cases hself : x = n.cfg.id
      · exact decide_eq_true (.inl hself)
      · rw [setAt, Function.update_of_ne hself] at hx'
        exact decide_eq_true (.inr (lt_of_lt_of_le hi hx'))
  · have hsame : ({ n with commit := k } : Node).appendFinal.1 = { n with commit := k } := by
      unfold appendFinal
      rw [if_neg (fun h => hfin ⟨List.length_pos_iff.mp h.1, h.2⟩)]
    rw [hsame]
    exact ⟨hown, fun i hi => habove i hi.1 ⟨lt_trans hcom.1 hi.1, hi.2⟩⟩

omit [MembershipJson] in
/-- A quorum that no other node is in makes the node alone one. -/
theorem Core.AloneInJoint.of_quorum {f : ℕ → Bool} (hj : c.membership.jointVoters ≠ [])
    (hq : c.membership.hasQuorum f = true) (hf : ∀ id, f id = true → id = c.cfg.id) :
    c.AloneInJoint :=
  ⟨hj, Membership.hasQuorum_mono (fun id h => decide_eq_true (hf id h)) hq⟩

/-- **A new leader** is settled: it has acknowledgements from no one else. -/
theorem Node.becomeLeader_settled (hf : n.Folded) (ha : ¬n.AloneInJoint) :
    n.becomeLeader.1.Settled := by
  unfold becomeLeader
  have hnoop := hf.snoc (show hasMembershipPrefix [] = false by decide) (Nat.zero_le _)
  refine maybeCommit_settled ?_ ?_ ?_
  · rw [broadcastAppend, broadcastLoop_core]
    exact hnoop.congr rfl rfl rfl rfl rfl rfl
  · rw [broadcastAppend, broadcastLoop_core]
    simp [markOwn, lastIndex, Nat.add_assoc]
  · rw [broadcastAppend, broadcastLoop_core]
    rintro ⟨hj, k, ⟨hk, _, _, hq⟩, -⟩
    refine ha (.of_quorum hj hq ?_)
    intro id hid
    by_contra hne
    have hid' : k ≤ setAt (fun id => if id = n.cfg.id then n.lastIndex else 0) n.cfg.id
        (n.lastIndex + 1) id := of_decide_eq_true hid
    rw [setAt, Function.update_of_ne hne, if_neg hne] at hid'
    omega

/-! ### Ticks and messages -/

theorem Node.startElectionWith_settled (next : ℕ → ℕ) (hf : n.Folded) (ha : ¬n.AloneInJoint) :
    (n.startElectionWith next).1.Settled := by
  unfold startElectionWith
  dsimp only
  split
  · exact becomeLeader_settled (hf.congr rfl rfl rfl rfl rfl rfl) ha
  · intro hr
    cases hr

omit [MembershipJson] in
theorem Node.checkQuorum_settled (h : n.Settled) : n.checkQuorum.1.Settled := by
  unfold checkQuorum
  split
  · exact h
  · dsimp only
    split
    · exact h
    · exact .of_follower rfl

theorem Node.tickWith_settled (next : ℕ → ℕ) (h : n.Settled) (hf : n.Folded)
    (ha : ¬n.AloneInJoint) : (n.tickWith next).1.Settled := by
  unfold tickWith
  split
  · dsimp only
    refine checkQuorum_settled ?_
    generalize hn1 : ({ n with
      heartbeatElapsed := n.heartbeatElapsed + 1
      quorumElapsed := n.quorumElapsed + 1 } : Node) = n1
    have hc1 : n1.toCore = n.toCore := by subst hn1; rfl
    have he : n1.expireOutstanding.1.toCore = n1.toCore := (expireLoop_spec _ _ n1).1
    generalize n1.expireOutstanding = e at *
    split
    · rw [broadcastAppend, broadcastLoop_core]
      show Settled e.1.toCore
      rw [he, hc1]
      exact h
    · rw [appendMessages_core, he, hc1]
      exact h
  · split
    · exact h
    · dsimp only
      split
      · unfold startPreVoteWith
        dsimp only
        split
        · exact startElectionWith_settled next (hf.congr rfl rfl rfl rfl rfl rfl) ha
        · intro hr
          cases hr
      · exact h

theorem Node.handlePreVoteResponseWith_settled (next : ℕ → ℕ) (h : n.Settled) (hf : n.Folded)
    (ha : ¬n.AloneInJoint) (m : Message) : (n.handlePreVoteResponseWith next m).1.Settled := by
  unfold handlePreVoteResponseWith
  split
  · exact .of_follower rfl
  dsimp only
  split
  · exact h
  split
  · exact startElectionWith_settled next (hf.congr rfl rfl rfl rfl rfl rfl) ha
  · split
    · exact .of_follower rfl
    · exact h.congr rfl rfl rfl rfl rfl rfl rfl rfl

omit [MembershipJson] in
theorem Node.handleVote_settled (h : n.Settled) (m : Message) : (n.handleVote m).1.Settled := by
  unfold handleVote
  dsimp only
  split
  · exact h.congr rfl rfl rfl rfl rfl rfl rfl rfl
  · exact h

theorem Node.handleVoteResponse_settled (h : n.Settled) (hf : n.Folded) (ha : ¬n.AloneInJoint)
    (m : Message) : (n.handleVoteResponse m).1.Settled := by
  unfold handleVoteResponse
  split
  · exact h
  dsimp only
  split
  · exact becomeLeader_settled (hf.congr rfl rfl rfl rfl rfl rfl) ha
  · split
    · exact .of_follower rfl
    · exact h.congr rfl rfl rfl rfl rfl rfl rfl rfl

/-! ### Acknowledgements -/

/-- The core with the progress that an acknowledgement reports. -/
def Core.acknowledged (c : Core) (m : Message) : Core :=
  { c with
    matchIndex := setAt c.matchIndex m.fromID
      (max (c.matchIndex m.fromID) (min m.logIndex c.lastIndex)) }

/-- The message is an acknowledgement that completes a joint configuration whose new voters
    have acknowledged more. -/
def Core.StalledBy (c : Core) (m : Message) : Prop :=
  (m.type = .appendResponse ∨ m.type = .snapshotResponse) ∧ m.reject = false
    ∧ c.role = .leader ∧ m.term = c.term ∧ (c.acknowledged m).LeavesBehind

section
omit [MembershipJson]

theorem Core.acknowledged_raised {m : Message}
    (h : c.matchIndex m.fromID ≤ min m.logIndex c.lastIndex) :
    c.acknowledged m
      = { c with matchIndex := setAt c.matchIndex m.fromID (min m.logIndex c.lastIndex) } := by
  unfold acknowledged
  rw [max_eq_right h]

theorem Core.acknowledged_stale {m : Message}
    (h : min m.logIndex c.lastIndex ≤ c.matchIndex m.fromID) : c.acknowledged m = c := by
  unfold acknowledged
  rw [max_eq_left h, setAt, Function.update_eq_self]

theorem Core.acknowledged_own {m : Message} (h : c.matchIndex c.cfg.id = c.lastIndex) :
    (c.acknowledged m).matchIndex c.cfg.id = c.lastIndex := by
  show setAt c.matchIndex m.fromID _ c.cfg.id = _
  by_cases hself : c.cfg.id = m.fromID
  · rw [← hself, setAt, Function.update_self, h]
    omega
  · rw [setAt, Function.update_of_ne hself, h]

end

private theorem Node.afterAck_settled {n1 : Node} {m : Message} (hr : n.role = .leader)
    (h : n.Settled) (hf : n.Folded) (hcore : n1.toCore = n.acknowledged m)
    (hl : ¬(n.acknowledged m).LeavesBehind) :
    ((n1.settleOutstanding m.fromID).maybeCommit).1.Settled := by
  refine maybeCommit_settled ?_ ?_ ?_
  · rw [(n1.settleOutstanding_spec m.fromID).1, hcore]
    exact hf.congr rfl rfl rfl rfl rfl rfl
  · rw [(n1.settleOutstanding_spec m.fromID).1, hcore]
    exact acknowledged_own (h hr).1
  · rw [(n1.settleOutstanding_spec m.fromID).1, hcore]
    exact hl

theorem Node.handleAppendResponse_settled (h : n.Settled) (hc : n.Configured) {m : Message}
    (hm : m.type = .appendResponse) (hl : ¬n.StalledBy m) :
    (n.handleAppendResponse m).1.Settled := by
  unfold handleAppendResponse
  split
  · exact h
  rename_i hcond
  simp only [ne_eq, not_or, not_not] at hcond
  obtain ⟨hr, ht⟩ := hcond
  dsimp only
  split
  · rw [(appendMessage_core _ _ _ _).1]
    exact h
  rename_i hrej
  have hle := hc.ok.match_le hr m.fromID
  generalize hn2 : (if _ < m.logIndex then _ else _ : Node) = n2
  have hcore : n2.toCore = n.acknowledged m := by
    subst hn2
    split
    · rw [acknowledged_raised (by omega)]
    · rw [acknowledged_stale (by omega)]
  have hs := afterAck_settled hr h hc.folded hcore
    (fun hb => hl ⟨.inl hm, by simpa using hrej, hr, ht, hb⟩)
  split
  · rw [(appendMessage_core _ _ _ _).1]
    exact hs
  · exact hs

theorem Node.handleSnapshotResponse_settled (h : n.Settled) (hc : n.Configured) {m : Message}
    (hm : m.type = .snapshotResponse) (hl : ¬n.StalledBy m) :
    (n.handleSnapshotResponse m).1.Settled := by
  unfold handleSnapshotResponse
  split
  · exact h
  rename_i hcond
  simp only [ne_eq, not_or, not_not] at hcond
  obtain ⟨hr, ht⟩ := hcond
  dsimp only
  split
  · rw [(appendMessage_core _ _ _ _).1]
    exact h
  rename_i hrej
  generalize hn2 : (if n.matchIndex m.fromID < _ then _ else _ : Node) = n2
  have hcore : n2.toCore = n.acknowledged m := by
    subst hn2
    split
    · rename_i hlt
      rw [acknowledged_raised (Nat.le_of_lt hlt)]
    · rename_i hge
      rw [acknowledged_stale (Nat.le_of_not_lt hge)]
  have hs := afterAck_settled hr h hc.folded hcore
    (fun hb => hl ⟨.inr hm, by simpa using hrej, hr, ht, hb⟩)
  split
  · rw [(appendMessage_core _ _ _ _).1]
    exact hs
  · exact hs

theorem Node.dispatchWith_settled (next : ℕ → ℕ) (h : n.Settled) (hc : n.Configured)
    (ha : ¬n.AloneInJoint) {m : Message} (hl : ¬n.StalledBy m) :
    (n.dispatchWith next m).1.Settled := by
  unfold dispatchWith
  split
  · exact h
  · exact handlePreVoteResponseWith_settled next h hc.folded ha m
  · exact handleVote_settled h m
  · exact handleVoteResponse_settled h hc.folded ha m
  · exact .of_follower (n.handleAppend_learns m).1
  · rename_i ht
    exact handleAppendResponse_settled h hc ht hl
  · rcases (n.handleSnapshot_silent m).2 with hr | hcore
    · exact .of_follower hr
    · rw [hcore]
      exact h
  · rename_i ht
    exact handleSnapshotResponse_settled h hc ht hl

theorem Node.stepWith_settled (next : ℕ → ℕ) (h : n.Settled) (hc : n.Configured)
    (ha : ¬n.AloneInJoint) {m : Message} (hl : ¬n.StalledBy m) :
    (n.stepWith next m).1.Settled := by
  rcases n.stepWith_cases next m with ⟨_, hu⟩ | ⟨_, hlt, _, _, heq⟩ | ⟨_, heq⟩
  · rw [hu.core]
    exact h
  · rw [heq]
    have hcore := (becomeFollower_adopt (n := n) 0 hlt).2
    refine dispatchWith_settled next (.of_follower rfl) ⟨?_, ?_⟩ ?_ ?_
    · rw [hcore]
      exact hc.folded.congr rfl rfl rfl rfl rfl rfl
    · refine Ok.of_role_ne ?_ (by simp [becomeFollower, resetElectionTimer])
      rw [hcore]
      exact hc.ok.snap_le
    · rw [hcore]
      exact ha
    · rintro ⟨-, -, hr, -⟩
      cases hr
  · rw [heq]
    exact dispatchWith_settled next h hc ha hl

/-! ### Proposals -/

omit [MembershipJson] in
theorem Core.termAt_extend (c : Core) (es : List Entry) {i : ℕ} (h : i ≤ c.lastIndex) :
    ({ c with log := c.log ++ es } : Core).termAt i = c.termAt i := by
  have := c.termAt_take_append es (Nat.le_refl _) h
  rwa [List.take_length] at this

omit [MembershipJson] in
/-- **New entries at the end of a settled leader's log** are acknowledged by the leader alone. -/
theorem Core.Settled.extended (h : c.Settled) (hr : c.role = .leader)
    (hle : ∀ id, c.matchIndex id ≤ c.lastIndex) {es : List Entry} {last i : ℕ}
    {mem : Membership} (hmem : ∀ f, mem.hasQuorum f = true → c.membership.hasQuorum f = true)
    (hi : ({ c with log := c.log ++ es, membership := mem,
                    matchIndex := setAt c.matchIndex c.cfg.id last } : Core).Committable i) :
    mem.hasQuorum (fun id => decide (id = c.cfg.id)) = true := by
  obtain ⟨hcommit, hlast, hterm, hq⟩ := hi
  have hack : ∀ id, id ≠ c.cfg.id →
      setAt c.matchIndex c.cfg.id last id = c.matchIndex id := by
    intro id hne
    rw [setAt, Function.update_of_ne hne]
  rcases Nat.lt_or_ge c.lastIndex i with hnew | hold
  · refine Membership.hasQuorum_mono ?_ hq
    intro id hid
    by_contra hne
    have hid' : i ≤ setAt c.matchIndex c.cfg.id last id := of_decide_eq_true hid
    rw [hack id (by simpa using hne)] at hid'
    exact absurd (hle id) (by omega)
  · -- an older entry was committable before
    refine absurd ?_ ((h hr).2 i)
    refine ⟨hcommit, hold, ?_, hmem _ (Membership.hasQuorum_mono ?_ hq)⟩
    · rw [← c.termAt_extend es hold]
      exact hterm
    · intro id hid
      have hid' : i ≤ setAt c.matchIndex c.cfg.id last id := of_decide_eq_true hid
      by_cases hself : id = c.cfg.id
      · rw [hself, (h hr).1]
        exact decide_eq_true hold
      · rw [hack id hself] at hid'
        exact decide_eq_true hid'

/-- The commit after a settled leader has appended to its log: it moves the commit index only
    if the leader alone is a quorum. -/
private theorem Node.afterAppend_settled {n1 : Node} (h : n.Settled) (hc : n.Configured)
    (hr : n.role = .leader) (origin : MessageOrigin) (es : List Entry) {mem : Membership}
    (hmem : ∀ f, mem.hasQuorum f = true → n.membership.hasQuorum f = true)
    (hcore : n1.toCore = { n.toCore with
      log := n.log ++ es
      membership := mem
      matchIndex := setAt n.matchIndex n.cfg.id (n.lastIndex + es.length) })
    (hf : n1.Folded) (ha : ¬n1.AloneInJoint) :
    (n1.broadcastAppend origin).1.maybeCommit.1.Settled := by
  have hb : (n1.broadcastAppend origin).1.toCore = n1.toCore := broadcastLoop_core _ _ n1
  refine maybeCommit_settled (by rw [hb]; exact hf) ?_ ?_
  · rw [hb, hcore]
    simp [lastIndex, Nat.add_assoc]
  · rw [hb]
    rintro ⟨hj, k, hk, -⟩
    rw [hcore] at hk
    refine ha ⟨hj, ?_⟩
    rw [hcore]
    exact h.extended hr (hc.ok.match_le hr) hmem hk

theorem Node.proposeBatch_settled (h : n.Settled) (hc : n.Configured) (ha : ¬n.AloneInJoint)
    {data : List Bytes} (hp : (Op.proposeBatch data).Plain) :
    (n.proposeBatch data).1.Settled := by
  unfold proposeBatch
  split
  · exact h
  rename_i hr
  have hr' : n.role = .leader := by simpa using hr
  dsimp only
  split
  · exact h
  rename_i hne
  have hpath := appendCommands_path (.commands data) rfl (fun d hd => hd)
    n.toCore n.matchIndex hr' (by simpa using hne)
  have hfold := hpath.folded hp.input hc.folded
  have hcore := n.appendCommands_core data
  generalize n.appendCommands data = r at *
  obtain ⟨core, indexes, es⟩ := r
  dsimp only at hcore hfold ⊢
  subst hcore
  refine afterAppend_settled h hc hr' .proposal es (fun _ hq => hq) ?_
    (hfold.congr rfl rfl rfl rfl rfl rfl) ha
  simp [markOwn, lastIndex, Nat.add_assoc]

/-- **The ways of a requested change**: it is refused, or in force already, or a joint
    configuration of other voters is appended and the leader tries to commit. -/
theorem Node.proposeMembership_cases (hf : n.Folded) (voters : List ℕ) :
    (∃ e, n.proposeMembership voters = (n, .error e))
      ∨ (n.proposeMembership voters = (n, .ok (n.membership.index, {}))
        ∧ n.membership.index ≤ n.commit)
      ∨ ∃ (new : List ℕ) (entry : Entry) (n1 : Node) (u : Update), n.role = .leader
        ∧ n.membership.jointVoters = [] ∧ n.membership.index ≤ n.commit
        ∧ normalizeVoters voters = .ok new ∧ new ≠ n.membership.voters
        ∧ n1.Folded
        ∧ n1.toCore = { n.toCore with
            log := n.log ++ [entry]
            membership := { voters := n.membership.voters, jointVoters := new,
                            index := n.lastIndex + 1 }
            matchIndex := setAt n.matchIndex n.cfg.id (n.lastIndex + 1) }
        ∧ n.proposeMembership voters
          = ((n1.broadcastAppend .other).1.maybeCommit.1, .ok (n.lastIndex + 1 + 1, u)) := by
  unfold proposeMembership
  split
  · exact .inl ⟨_, rfl⟩
  rename_i hr
  have hr' : n.role = .leader := by simpa using hr
  split
  · exact .inl ⟨_, rfl⟩
  rename_i hidle
  split
  · exact .inl ⟨_, rfl⟩
  rename_i new hnew
  split
  · exact .inr (.inl ⟨rfl, by omega⟩)
  rename_i hne
  have hjoint : n.membership.jointVoters = [] :=
    List.length_eq_zero_iff.mp (by omega)
  have hrec : Reconfigures (.voters voters) n.toCore
      { phase := .joint, old := n.membership.voters, new := new } :=
    .joint voters new rfl hnew hjoint (by omega)
  dsimp only
  split
  · rename_i e he
    obtain ⟨core, hok, _⟩ := hf.rebuilds hrec
    rw [hok] at he
    simp at he
  · rename_i core hcore
    have ht := Trans.reconfigure n.toCore core _ hr' hrec hcore
    have hf' := ht.folded (fun _ heq => by cases heq) hf
    obtain ⟨m, happly, rfl⟩ := hf.rebuilt hrec hcore
    obtain rfl := applyMembership_joint happly
    refine .inr <| .inr ⟨new,
      { index := n.lastIndex + 1, term := n.term,
        data := encodeMembership
          { phase := .joint, old := n.membership.voters, new := new } },
      _, _, hr', hjoint, by omega, hnew, ?_, ?_, ?_, rfl⟩
    · intro heq
      exact hne (by rw [equalVoters, beq_iff_eq]; exact heq)
    · exact hf'.congr rfl rfl rfl rfl rfl rfl
    · rfl

theorem Node.proposeMembership_settled (h : n.Settled) (hc : n.Configured) (voters : List ℕ) :
    (n.proposeMembership voters).1.Settled := by
  rcases proposeMembership_cases hc.folded voters with
    ⟨_, heq⟩ | ⟨heq, _⟩ | ⟨new, entry, n1, u, hr, hjoint, _, hnew, hne, hf, hcore, heq⟩
  · rw [heq]
    exact h
  · rw [heq]
    exact h
  · rw [heq]
    refine afterAppend_settled h hc hr .other [entry] ?_ hcore hf ?_
    · -- a quorum of the joint configuration is one of the old voters
      intro f hq
      rw [Membership.hasQuorum_iff] at hq
      exact (Membership.hasQuorum_iff _ _).mpr ⟨hq.1, .inl hjoint⟩
    · -- a node that is a quorum of both configurations proposes no change
      rw [hcore]
      rintro ⟨hj, hq⟩
      obtain ⟨hold, hboth⟩ := (Membership.hasQuorum_iff _ _).mp hq
      have hold' : n.membership.voters = [n.cfg.id] :=
        hc.folded.membership_normal.voters.eq_singleton hold
      have hnew' : new = [n.cfg.id] :=
        (normalizeVoters_normal hnew).eq_singleton (hboth.resolve_left hj)
      exact hne (hnew'.trans hold'.symm)

/-! ### Compactions -/

omit [MembershipJson] in
/-- The terms above the boundary of a compaction are kept. -/
theorem Core.compactLog_termAt {s : Snapshot} (hlt : c.snapshot.index < s.index)
    (hle : s.index ≤ c.lastIndex) (ht : c.termAt s.index = s.term) {i : ℕ} (hi : s.index < i) :
    (c.compactLog s).termAt i = c.termAt i := by
  have hlast := compactLog_lastIndex hlt hle ht
  rcases Nat.lt_or_ge c.lastIndex i with hbeyond | hin
  · have hzero : ∀ d : Core, d.snapshot.index < i → d.lastIndex < i → d.termAt i = 0 := by
      intro d h1 h2
      unfold termAt
      rw [if_neg (by omega), if_neg (by omega), if_pos (.inr h2)]
    rw [hzero c (by omega) hbeyond, hzero _ hi (by rw [hlast]; exact hbeyond)]
  · obtain ⟨e, he, hte⟩ := c.exists_of_termAt (j := i) (by omega) hin
    rw [hte]
    have hget : (c.compactLog s).log[i - s.index - 1]? = some e := by
      rw [compactLog_log hlt ht, List.getElem?_drop, ← he]
      congr 1
      omega
    have := termAt_log _ hget
    rwa [show (c.compactLog s).snapshot.index + (i - s.index - 1) + 1 = i by
      show s.index + _ + 1 = i
      omega] at this

theorem Node.compact_settled (h : n.Settled) (hf : n.Folded) (snapshot : Snapshot) :
    (n.compact snapshot).1.Settled := by
  rcases n.compact_cases snapshot with heq | ⟨s, mem, hcut⟩
  · rw [heq]
    exact h
  rw [hcut.node]
  obtain rfl := hcut.membership hf
  have hle : s.index ≤ n.lastIndex := hcut.le.trans hf.commit_hi
  have hlast := compactLog_lastIndex hcut.lt hle hcut.term
  intro hr
  refine ⟨(h hr).1.trans hlast.symm, ?_⟩
  rintro i ⟨hi, hin, ht, hq⟩
  have hi' : n.commit < i := hi
  refine (h hr).2 i ⟨hi', hin.trans_eq hlast, ?_, hq⟩
  rw [← compactLog_termAt hcut.lt hle hcut.term (lt_of_le_of_lt hcut.le hi')]
  exact ht

/-! ### Runs -/

/-- **What an operation must meet** for the leader to commit all it may: the node alone is no
    quorum of a joint configuration, proposed data is not a configuration entry, and no
    acknowledgement completes a joint configuration whose new voters have acknowledged more.
    Configuration changes and compactions need nothing. -/
def Op.Settles (n : Node) : Op → Prop
  | .tick => ¬n.AloneInJoint
  | .step m => ¬n.AloneInJoint ∧ ¬n.StalledBy m
  | .proposeBatch data => ¬n.AloneInJoint ∧ ∀ d ∈ data, hasMembershipPrefix d = false
  | .proposeMembership _ => True
  | .createSnapshot _ _ => True
  | .compact _ => True

omit [MembershipJson] in
theorem Op.Settles.plain (h : op.Settles n) : op.Plain := by
  cases op with
  | proposeBatch data => exact h.2
  | _ => trivial

/-- **One operation** that meets the condition keeps the leader settled. -/
theorem Node.operate_settled (next : ℕ → ℕ) (h : n.Settled) (hc : n.Configured)
    (hop : op.Settles n) : (n.operate next op).1.Settled := by
  cases op with
  | tick => exact tickWith_settled next h hc.folded hop
  | step m => exact stepWith_settled next h hc hop.1 hop.2
  | proposeBatch data => exact proposeBatch_settled h hc hop.1 hop.2
  | proposeMembership voters => exact proposeMembership_settled h hc voters
  | createSnapshot index data =>
    show (n.createSnapshot index data).1.Settled
    unfold createSnapshot
    split
    · exact h
    · exact compact_settled h hc.folded _
  | compact snapshot => exact compact_settled h hc.folded snapshot

/-- Every operation of a run meets its condition in the state it is applied to. -/
def Node.Settles (next : ℕ → ℕ) (n : Node) : List Op → Prop
  | [] => True
  | op :: rest => op.Settles n ∧ (n.operate next op).1.Settles next rest

theorem Node.operateAll_settled (next : ℕ → ℕ) (ops : List Op) :
    ∀ {n : Node}, n.Configured → n.Settled → n.Settles next ops →
      (n.operateAll next ops).Settled := by
  induction ops with
  | nil => exact fun _ h _ => h
  | cons op rest ih =>
    intro n hc h hops
    exact ih (operate_configured next hc hops.1.plain)
      (operate_settled next h hc hops.1) hops.2

/-- **A leader has committed all it may** after every run of operations, from a node that `New`
    built and however its term advances, in which no operation leaves a final configuration
    behind. -/
theorem commit_maximal {cfg : Config} {hard : HardState} {entries : List Entry}
    {restored : Option Snapshot} (h : Node.new cfg hard entries restored = .ok n)
    (next : ℕ → ℕ) (ops : List Op) (hops : n.Settles next ops)
    (hr : (n.operateAll next ops).role = .leader) :
    ∀ i, ¬(n.operateAll next ops).Committable i := by
  obtain ⟨p, m, hrest, hcore⟩ := new_spec h
  have hwf := hrest.wf hard
  rw [← hcore] at hwf
  have hrole : n.role = .follower := by rw [hcore]; rfl
  exact (operateAll_settled next ops ⟨hwf.toFolded, (new_sane h).ok⟩
    (.of_follower hrole) hops hr).2

section
omit [MembershipJson]

/-- Node 1 of two wins the election of term 1 and commits its no-op. -/
def electedOps : List Op :=
  [.tick, .tick,
   .step { type := .preVoteResponse, fromID := 2, toID := 1, term := 1 },
   .step { type := .voteResponse, fromID := 2, toID := 1, term := 1 },
   .step { type := .appendResponse, fromID := 2, toID := 1, term := 1, logIndex := 1 }]

/-- The leader adds a voter; node 2 acknowledges the joint and then the final entry. -/
def growOps : List Op :=
  electedOps ++ [.proposeMembership [1, 2, 3],
    .step { type := .appendResponse, fromID := 2, toID := 1, term := 1, logIndex := 2 },
    .step { type := .appendResponse, fromID := 2, toID := 1, term := 1, logIndex := 3 }]

/-- The acknowledgement of the joint entry leaves nothing behind: no majority of the three new
    voters has acknowledged more. -/
private theorem grow_not_stalled :
    ¬(@Node.operateAll tallyJson nextTerm64 pairNode (growOps.take 6)).StalledBy
      { type := .appendResponse, fromID := 2, toID := 1, term := 1, logIndex := 2 } := by
  rintro ⟨-, -, -, -, -, k, ⟨hlo, hhi, -⟩, -, -, hq⟩
  have hlo' : 1 < k := hlo
  have hhi' : k ≤ 2 := hhi
  obtain rfl : k = 2 := by omega
  exact absurd hq (by decide)

/-- Growing to three voters commits the final configuration with its acknowledgement. -/
theorem commit_maximal_grow :
    (@Node.operateAll tallyJson nextTerm64 pairNode growOps).role = .leader
      ∧ (@Node.operateAll tallyJson nextTerm64 pairNode growOps).commit = 3
      ∧ ∀ i, ¬(@Node.operateAll tallyJson nextTerm64 pairNode growOps).Committable i :=
  ⟨by rfl, by rfl,
    @commit_maximal tallyJson pairNode pairConfig {} [] none rfl nextTerm64 growOps
      ⟨fun h => h.1 rfl, fun h => h.1 rfl,
        ⟨fun h => h.1 rfl, fun h => h.2.2.2.2.1 rfl⟩,
        ⟨fun h => h.1 rfl, fun h => h.2.2.2.2.1 rfl⟩,
        ⟨fun h => h.1 rfl, fun h => h.2.2.2.2.1 rfl⟩, trivial,
        ⟨fun h => absurd h.2 (by decide), grow_not_stalled⟩,
        ⟨fun h => h.1 rfl, fun h => h.2.2.2.2.1 rfl⟩, trivial⟩ rfl⟩

/-- The leader removes the other voter, which acknowledges the joint entry. -/
def shrinkOps : List Op :=
  electedOps ++ [.proposeMembership [1],
    .step { type := .appendResponse, fromID := 2, toID := 1, term := 1, logIndex := 2 }]

/-- **The final entry waits**: shrinking to the leader alone commits the joint entry and appends
    the final one, which the leader alone may commit at once, and does not commit it. -/
theorem final_entry_waits :
    @Node.new tallyJson pairConfig {} [] none = .ok pairNode
      ∧ (@Node.operateAll tallyJson nextTerm64 pairNode shrinkOps).role = .leader
      ∧ (@Node.operateAll tallyJson nextTerm64 pairNode shrinkOps).commit = 2
      ∧ (@Node.operateAll tallyJson nextTerm64 pairNode shrinkOps).membership.voters = [1]
      ∧ (@Node.operateAll tallyJson nextTerm64 pairNode shrinkOps).Committable 3 :=
  ⟨by rfl, by rfl, by rfl, by rfl, by decide, by decide, by rfl, by decide⟩

end

end Codec

end Lsmdb.Raft

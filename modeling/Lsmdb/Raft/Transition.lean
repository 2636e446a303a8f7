import Lsmdb.Raft.Log

namespace Lsmdb.Raft

/-!
# Raft core — what a transition can do

Every public operation of a node is a *path* of elementary transitions of its core.
`Trans` lists them once, each with its guard, its effect on the core and the part of the
`Update` it contributes; `Path` composes them, and `Emits` says what a message may claim
about the core that sends it.  The lemmas of this module show that `tick`, `step`,
`proposeBatch`, `proposeMembership`, `readProbe` and `createSnapshot` follow such paths.
Every later invariant — well-formedness, the mirror in the stable store, the simulation
of the consensus protocol — is then proved for the elementary transitions alone.
-/

/-- What drives an operation. -/
inductive Input where
  | tick
  | message (m : Message)
  | commands (data : List Bytes)
  | voters (voters : List ℕ)
  | probe (context : ℕ)
  | snapshot (index : ℕ) (data : Bytes)

/-- The read context an operation may pass on. -/
def Input.context : Input → ℕ
  | .message m => m.context
  | .probe context => context
  | _ => 0

/-- The operation is the receipt of `m`, a message of the given type at the node's term. -/
structure Receives (inp : Input) (c : Core) (type : MessageType) (m : Message) : Prop where
  input : inp = .message m
  type_eq : m.type = type
  to_ok : m.toID = 0 ∨ m.toID = c.cfg.id
  from_ne : m.fromID ≠ c.cfg.id
  term_eq : m.term = c.term

/-- **What a node may send**, in terms of its core at that moment. -/
inductive Emits (inp : Input) (c : Core) : Message → Prop
  | preVote (peer : ℕ) :
      Emits inp c { type := .preVote, fromID := c.cfg.id, toID := peer, term := c.term + 1,
                    logIndex := c.lastIndex, logTerm := c.termAt c.lastIndex }
  | preVoteGrant (m : Message) (hm : inp = .message m) (ht : c.term < m.term) :
      Emits inp c { type := .preVoteResponse, fromID := c.cfg.id, toID := m.fromID,
                    term := m.term }
  | vote (peer : ℕ) (hr : c.role = .candidate) :
      Emits inp c { type := .vote, fromID := c.cfg.id, toID := peer, term := c.term,
                    logIndex := c.lastIndex, logTerm := c.termAt c.lastIndex }
  | voteGrant (m : Message) (hm : Receives inp c .vote m) (hv : c.votedFor = m.fromID) :
      Emits inp c { type := .voteResponse, fromID := c.cfg.id, toID := m.fromID,
                    term := c.term }
  | append (peer prev context : ℕ) (origin : MessageOrigin) (entries : List Entry)
      (hr : c.role = .leader) (hlo : c.snapshot.index ≤ prev) (hhi : prev ≤ c.lastIndex)
      (he : entries <+: c.log.drop (prev - c.snapshot.index))
      (hc : context = 0 ∨ context = inp.context) :
      Emits inp c { type := .append, fromID := c.cfg.id, toID := peer, term := c.term,
                    logIndex := prev, logTerm := c.termAt prev, entries := entries,
                    leaderCommit := c.commit, context := context, origin := origin }
  | appended (m : Message) (hm : Receives inp c .append m) (hr : c.role = .follower)
      (hh : c.Holds m) :
      Emits inp c { type := .appendResponse, fromID := c.cfg.id, toID := m.fromID,
                    term := c.term, logIndex := m.logIndex + m.entries.length,
                    context := m.context }
  | snapshot (peer : ℕ) (origin : MessageOrigin) (hr : c.role = .leader)
      (h0 : 0 < c.snapshot.index) :
      Emits inp c { type := .snapshot, fromID := c.cfg.id, toID := peer, term := c.term,
                    snapshot := some c.snapshot, origin := origin }
  | installed (m : Message) (hm : Receives inp c .snapshot m) (hr : c.role = .follower) :
      Emits inp c { type := .snapshotResponse, fromID := c.cfg.id, toID := m.fromID,
                    term := c.term, logIndex := c.snapshot.index }
  | reject (type : MessageType) (peer hint : ℕ)
      (ht : type = .preVoteResponse ∨ type = .voteResponse ∨ type = .appendResponse
        ∨ type = .snapshotResponse) :
      Emits inp c { type := type, fromID := c.cfg.id, toID := peer, term := c.term,
                    reject := true, rejectHint := hint }

/-! ### Merging effects -/

/-- When the effects of `u` and then `v` may be merged into one update: the store handles
    hard state, snapshot, truncation and entries in this order, and messages are sent
    only after all of them. -/
structure Compatible (u v : Update) : Prop where
  log : (v.snapshot = none ∧ v.truncateFrom = 0)
    ∨ (u.snapshot = none ∧ u.truncateFrom = 0 ∧ u.entries = [])
  sent : u.messages = [] ∨ (v.hardState = none ∧ v.snapshot = none ∧ v.truncateFrom = 0)

section Merge
variable {u v w : Update}

theorem Compatible.empty_left (v : Update) : Compatible {} v :=
  ⟨.inr ⟨rfl, rfl, rfl⟩, .inl rfl⟩

private theorem truncateFrom_merge_eq_zero :
    (u.merge v).truncateFrom = 0 ↔ u.truncateFrom = 0 ∧ v.truncateFrom = 0 := by
  simp only [Update.merge_truncateFrom]
  by_cases h : v.truncateFrom = 0 <;> simp [h]

private theorem option_or_eq_none {α : Type} (a b : Option α) :
    a.or b = none ↔ a = none ∧ b = none := by
  cases a <;> cases b <;> simp

/-- Compatibility with a merged update splits along the merge. -/
private theorem Compatible.merge_left (huv : Compatible u (v.merge w)) (hvw : Compatible v w) :
    Compatible u v ∧ Compatible (u.merge v) w := by
  obtain ⟨h1, h2⟩ := huv
  obtain ⟨h3, h4⟩ := hvw
  simp only [Update.merge_snapshot, Update.merge_hardState, truncateFrom_merge_eq_zero,
    option_or_eq_none] at h1 h2
  refine ⟨⟨?_, ?_⟩, ⟨?_, ?_⟩⟩
  · rcases h1 with ⟨⟨_, h⟩, h', _⟩ | h
    · exact .inl ⟨h, h'⟩
    · exact .inr h
  · rcases h2 with h | ⟨⟨_, h⟩, ⟨_, h'⟩, h'', _⟩
    · exact .inl h
    · exact .inr ⟨h, h', h''⟩
  · rcases h1 with ⟨⟨h, _⟩, _, h'⟩ | ⟨ha, hb, hc⟩
    · exact .inl ⟨h, h'⟩
    · rcases h3 with h | ⟨ha', hb', hc'⟩
      · exact .inl h
      · refine .inr ⟨?_, truncateFrom_merge_eq_zero.mpr ⟨hb, hb'⟩, ?_⟩
        · rw [Update.merge_snapshot, ha, ha']; rfl
        · rw [Update.merge_entries, hc, hc']; rfl
  · rcases h2 with h | ⟨⟨h, _⟩, ⟨h', _⟩, _, h''⟩
    · rcases h4 with h' | h'
      · left; rw [Update.merge_messages, h, h']; rfl
      · exact .inr h'
    · exact .inr ⟨h, h', h''⟩

/-- An update that touches neither hard state nor snapshot nor existing entries may
    follow any other. -/
structure Update.Quiet (u : Update) : Prop where
  hard : u.hardState = none
  snapshot : u.snapshot = none
  truncate : u.truncateFrom = 0

theorem Update.Quiet.compatible (u : Update) (hv : v.Quiet) : Compatible u v :=
  ⟨.inl ⟨hv.snapshot, hv.truncate⟩, .inr ⟨hv.hard, hv.snapshot, hv.truncate⟩⟩

theorem Update.Quiet.send (hu : u.Quiet) (ms : List Message) : (u.send ms).Quiet :=
  ⟨hu.hard, hu.snapshot, hu.truncate⟩

theorem Update.Quiet.merge (hu : u.Quiet) (hv : v.Quiet) : (u.merge v).Quiet :=
  ⟨by rw [Update.merge_hardState, hu.hard, hv.hard]; rfl,
   by rw [Update.merge_snapshot, hu.snapshot, hv.snapshot]; rfl,
   truncateFrom_merge_eq_zero.mpr ⟨hu.truncate, hv.truncate⟩⟩

end Merge

/-! ### Progress bookkeeping -/

/-- A snapshot covers committed entries only, and a leader keeps its peers' progress in
    bounds. -/
structure Node.Ok (n : Node) : Prop where
  snap_le : n.snapshot.index ≤ n.commit
  next_le : n.role = .leader → ∀ p, n.nextIndex p ≤ n.lastIndex + 1
  match_le : n.role = .leader → ∀ p, n.matchIndex p ≤ n.lastIndex
  match_next : n.role = .leader → ∀ p,
    n.matchIndex p < n.nextIndex p ∨ (n.nextIndex p = 0 ∧ n.matchIndex p = 0)

theorem Node.Ok.of_role_ne {n : Node} (hs : n.snapshot.index ≤ n.commit)
    (h : n.role ≠ .leader) : n.Ok :=
  ⟨hs, fun h' => absurd h' h, fun h' => absurd h' h, fun h' => absurd h' h⟩

/-- The bounds only read the core and `nextIndex`. -/
theorem Node.Ok.congr {n n' : Node} (h : n.Ok) (hc : n'.toCore = n.toCore)
    (hn : n'.nextIndex = n.nextIndex) : n'.Ok := by
  obtain ⟨h0, h1, h2, h3⟩ := h
  constructor
  · rw [hc]; exact h0
  · rw [hc, hn]; exact h1
  · rw [hc]; exact h2
  · rw [hc, hn]; exact h3

@[simp] theorem Node.resetElectionTimer_toCore (n : Node) :
    n.resetElectionTimer.toCore = n.toCore := rfl

@[simp] theorem Node.resetElectionTimer_nextIndex (n : Node) :
    n.resetElectionTimer.nextIndex = n.nextIndex := rfl

/-! ### Elementary transitions -/

section Codec
variable [MembershipJson]

/-- A configuration command a leader may append: a joint one on request when the last
    configuration is stable and committed, the final one when a joint one is committed. -/
inductive Reconfigures (inp : Input) (c : Core) : MembershipCommand → Prop
  | joint (voters new : List ℕ) (hi : inp = .voters voters)
      (hn : normalizeVoters voters = .ok new) (hj : c.membership.jointVoters = [])
      (hc : c.membership.index ≤ c.commit) :
      Reconfigures inp c { phase := .joint, old := c.membership.voters, new := new }
  | final (hj : c.membership.jointVoters ≠ []) (hc : c.membership.index ≤ c.commit) :
      Reconfigures inp c { phase := .final, new := c.membership.jointVoters }

/-- The snapshot `handleSnapshot` would install for a received message. -/
def Core.received (c : Core) (sent : Snapshot) : Snapshot :=
  if sent.membership.voters.length = 0 then { sent with membership := c.initialMembership }
  else sent

/-- **The elementary transitions** of a core, with their contribution to the update.
    `orphan` and `halfCompact` are the two error returns that leave the node changed; a
    well-formed core takes neither. -/
inductive Trans (inp : Input) : Core → Update → Core → Prop
  | adopt (c : Core) (t : ℕ) (ht : c.term < t) :
      Trans inp c { hardState := some { term := t }, roleChanged := true }
        { c with term := t, votedFor := 0, role := .follower, votes := fun _ => none }
  | stepDown (c : Core) :
      Trans inp c { roleChanged := decide (c.role ≠ .follower) }
        { c with role := .follower, votes := fun _ => none }
  | preCampaign (c : Core) :
      Trans inp c { roleChanged := decide (c.role ≠ .preCandidate) }
        { c with role := .preCandidate, votes := setAt (fun _ => none) c.cfg.id (some true) }
  | countPreVote (c : Core) (peer : ℕ) (granted : Bool) (hr : c.role = .preCandidate) :
      Trans inp c {} { c with votes := setAt c.votes peer (some granted) }
  | campaign (c : Core) :
      Trans inp c
        { hardState := some { term := c.term + 1, votedFor := c.cfg.id }, roleChanged := true }
        { c with role := .candidate, term := c.term + 1, votedFor := c.cfg.id,
                 votes := setAt (fun _ => none) c.cfg.id (some true) }
  | countVote (c : Core) (m : Message) (hm : Receives inp c .voteResponse m)
      (hr : c.role = .candidate) :
      Trans inp c {} { c with votes := setAt c.votes m.fromID (some (!m.reject)) }
  | win (c : Core) (hr : c.role = .candidate) (hq : c.membership.hasQuorum c.granted = true) :
      Trans inp c { roleChanged := true }
        { c with role := .leader
                 matchIndex := fun id => if id = c.cfg.id then c.lastIndex else 0 }
  | grant (c : Core) (m : Message) (hm : Receives inp c .vote m)
      (hv : c.votedFor = 0 ∨ c.votedFor = m.fromID)
      (hup : c.isUpToDate m.logIndex m.logTerm = true) :
      Trans inp c { hardState := some { term := c.term, votedFor := m.fromID } }
        { c with votedFor := m.fromID }
  | propose (c : Core) (data : Bytes) (hr : c.role = .leader)
      (hd : data = [] ∨ ∃ commands, inp = .commands commands ∧ data ∈ commands)
      (hlen : data.length ≤ maxEntryBytes) :
      Trans inp c { entries := [{ index := c.lastIndex + 1, term := c.term, data := data }] }
        { c with log := c.log ++ [{ index := c.lastIndex + 1, term := c.term, data := data }]
                 matchIndex := setAt c.matchIndex c.cfg.id (c.lastIndex + 1) }
  | reconfigure (c core : Core) (command : MembershipCommand) (hr : c.role = .leader)
      (hc : Reconfigures inp c command)
      (hm : ({ c with log := c.log ++ [{ index := c.lastIndex + 1, term := c.term,
                                         data := encodeMembership command }] } :
        Core).rebuildMembership = .ok core) :
      Trans inp c
        { entries := [{ index := c.lastIndex + 1, term := c.term,
                        data := encodeMembership command }] }
        { core with matchIndex := setAt c.matchIndex c.cfg.id (c.lastIndex + 1) }
  | orphan (c : Core) (command : MembershipCommand) (e : String) (hr : c.role = .leader)
      (hc : Reconfigures inp c command)
      (hm : ({ c with log := c.log ++ [{ index := c.lastIndex + 1, term := c.term,
                                         data := encodeMembership command }] } :
        Core).rebuildMembership = .error e) :
      Trans inp c {}
        { c with log := c.log ++ [{ index := c.lastIndex + 1, term := c.term,
                                    data := encodeMembership command }] }
  | acknowledge (c : Core) (type : MessageType) (m : Message) (hm : Receives inp c type m)
      (ht : type = .appendResponse ∨ type = .snapshotResponse) (hr : c.role = .leader)
      (hrej : m.reject = false) (hlt : c.matchIndex m.fromID < m.logIndex) :
      Trans inp c {}
        { c with matchIndex := setAt c.matchIndex m.fromID (min m.logIndex c.lastIndex) }
  | commit (c : Core) (k : ℕ) (hr : c.role = .leader) (hk : c.commit < k)
      (hle : k ≤ c.lastIndex) (ht : c.termAt k = c.term)
      (hq : c.membership.hasQuorum (fun id => decide (k ≤ c.matchIndex id)) = true) :
      Trans inp c { committed := c.entriesBetween (c.commit + 1) (k + 1) }
        { c with commit := k }
  | splice (c core : Core) (m : Message) (keep truncateFrom : ℕ) (entries : List Entry)
      (hm : Receives inp c .append m) (hr : c.role = .follower)
      (hwf : malformedAppend m = none) (hle : m.logIndex ≤ c.lastIndex)
      (ht : c.termAt m.logIndex = m.logTerm)
      (hs : c.splice m.entries = .replace keep truncateFrom entries)
      (ha : c.applySplice keep truncateFrom entries = some core) :
      Trans inp c { truncateFrom := truncateFrom, entries := entries } core
  | learn (c : Core) (m : Message) (k : ℕ) (hm : Receives inp c .append m)
      (hr : c.role = .follower) (hwf : malformedAppend m = none) (hh : c.Holds m)
      (hk : k = min m.leaderCommit (m.logIndex + m.entries.length)) (hlt : c.commit < k) :
      Trans inp c { committed := c.entriesBetween (c.commit + 1) (k + 1) }
        { c with commit := k }
  | install (c core : Core) (m : Message) (sent : Snapshot)
      (hm : Receives inp c .snapshot m) (hr : c.role = .follower)
      (hs : m.snapshot = some sent) (hi : sent.index ≠ 0) (ht : sent.term ≠ 0)
      (hv : validateMembership (c.received sent).membership = .ok ())
      (hmi : (c.received sent).membership.index ≤ (c.received sent).index)
      (hlt : c.snapshot.index < (c.received sent).index)
      (hcommit : (c.received sent).index ≤ c.commit →
        c.termAt (c.received sent).index = (c.received sent).term)
      (hb : (c.compactLog (c.received sent)).rebuildMembership = .ok core) :
      Trans inp c { snapshot := some (c.received sent) }
        { core with commit := max core.commit (c.received sent).index }
  | compact (c core : Core) (s : Snapshot) (m : Membership) (data : Bytes)
      (hi : inp = .snapshot s.index data) (hd : s.data = data)
      (hlt : c.snapshot.index < s.index) (hle : s.index ≤ c.commit) (ht : s.term ≠ 0)
      (hterm : c.termAt s.index = s.term) (hat : c.membershipAt s.index = .ok m)
      (hm : s.membership = m) (hmi : m.index ≤ s.index)
      (hb : (c.compactLog s).rebuildMembership = .ok core) :
      Trans inp c { snapshot := some s } core
  | halfCompact (c : Core) (s : Snapshot) (m : Membership) (data : Bytes) (e : String)
      (hi : inp = .snapshot s.index data) (hd : s.data = data)
      (hlt : c.snapshot.index < s.index) (hle : s.index ≤ c.commit) (ht : s.term ≠ 0)
      (hterm : c.termAt s.index = s.term) (hat : c.membershipAt s.index = .ok m)
      (hm : s.membership = m) (hmi : m.index ≤ s.index)
      (hb : (c.compactLog s).rebuildMembership = .error e) :
      Trans inp c {} (c.compactLog s)
  | send (c : Core) (ms : List Message) (h : ∀ m ∈ ms, Emits inp c m) :
      Trans inp c { messages := ms } c
  | drop (c : Core) (reason : String) : Trans inp c { droppedAppend := some reason } c

/-- **Paths**: sequences of elementary transitions whose effects merge into one update. -/
inductive Path (inp : Input) : Core → Update → Core → Prop
  | nil (c : Core) : Path inp c {} c
  | snoc {c c₁ c₂ : Core} {u v : Update} (hp : Path inp c u c₁) (ht : Trans inp c₁ v c₂)
      (hc : Compatible u v) : Path inp c (u.merge v) c₂

variable {inp : Input} {c c₁ c₂ : Core} {u v : Update}

theorem Path.single (h : Trans inp c u c₁) : Path inp c u c₁ := by
  have := Path.snoc (Path.nil c) h (Compatible.empty_left u)
  rwa [Update.empty_merge] at this

theorem Path.trans (h₁ : Path inp c u c₁) (h₂ : Path inp c₁ v c₂) (hc : Compatible u v) :
    Path inp c (u.merge v) c₂ := by
  induction h₂ with
  | nil => rw [Update.merge_empty]; exact h₁
  | snoc hp ht hcv ih =>
    obtain ⟨hl, hr⟩ := hc.merge_left hcv
    rw [← Update.merge_assoc]
    exact .snoc (ih hl) ht hr

/-! ### Composing paths -/

theorem Path.quiet_trans (h₁ : Path inp c u c₁) (h₂ : Path inp c₁ v c₂) (hv : v.Quiet) :
    Path inp c (u.merge v) c₂ :=
  h₁.trans h₂ (hv.compatible u)

theorem Path.send (h : Path inp c u c₁) (ms : List Message) (hm : ∀ m ∈ ms, Emits inp c₁ m) :
    Path inp c (u.send ms) c₁ := by
  rw [Update.send_eq_merge]
  exact h.quiet_trans (.single (.send c₁ ms hm)) ⟨rfl, rfl, rfl⟩

/-! ### Sending appends -/

section
omit [MembershipJson]

theorem Core.entriesBetween_prefix (c : Core) (lo hi : ℕ) :
    c.entriesBetween lo hi <+: c.log.drop (lo - c.snapshot.index - 1) := by
  unfold Core.entriesBetween
  split
  · exact List.nil_prefix
  · exact List.take_prefix _ _

theorem Node.appendMessage_core (n : Node) (peer context : ℕ) (origin : MessageOrigin) :
    (n.appendMessage peer context origin).1.toCore = n.toCore
      ∧ (n.appendMessage peer context origin).1.nextIndex = n.nextIndex := by
  unfold Node.appendMessage
  dsimp only
  generalize (if n.nextIndex peer = 0 then n.lastIndex + 1 else n.nextIndex peer) = next
  split
  · exact ⟨rfl, rfl⟩
  · split
    · exact ⟨rfl, rfl⟩
    · split <;> exact ⟨rfl, rfl⟩

/-- The append to a peer does not depend on the sender's role or votes. -/
theorem Node.appendMessage_congr {n n' : Node} {r : Role} {v : ℕ → Option Bool}
    (hc : n'.toCore = { n.toCore with role := r, votes := v }) (hn : n'.nextIndex = n.nextIndex)
    (ho : n'.outstanding = n.outstanding) (peer context : ℕ) (origin : MessageOrigin) :
    (n'.appendMessage peer context origin).2 = (n.appendMessage peer context origin).2 := by
  unfold Node.appendMessage
  simp only [hc, hn, ho]
  have h1 : ∀ k, ({ n.toCore with role := r, votes := v } : Core).termAt k = n.termAt k :=
    fun _ => rfl
  have h2 : ∀ k, ({ n.toCore with role := r, votes := v } : Core).cappedEntries k
      = n.cappedEntries k := fun _ => rfl
  have h3 : ({ n.toCore with role := r, votes := v } : Core).lastIndex = n.lastIndex := rfl
  simp only [h1, h2, h3]
  generalize (if n.nextIndex peer = 0 then n.lastIndex + 1 else n.nextIndex peer) = next
  split
  · rfl
  · split
    · rfl
    · split <;> rfl

/-- `appendMessage` changes no core field; what it sends describes the leader's log. -/
theorem Node.appendMessage_spec (inp : Input) {n : Node} (hok : n.Ok) (hr : n.role = .leader)
    (peer context : ℕ) (origin : MessageOrigin) (hc : context = 0 ∨ context = inp.context) :
    (n.appendMessage peer context origin).1.toCore = n.toCore
      ∧ (n.appendMessage peer context origin).1.nextIndex = n.nextIndex
      ∧ Emits inp n.toCore (n.appendMessage peer context origin).2 := by
  have hnext : (if n.nextIndex peer = 0 then n.lastIndex + 1 else n.nextIndex peer)
      ≤ n.lastIndex + 1 := by
    split
    · exact Nat.le_refl _
    · exact hok.next_le hr peer
  have hpos : 0 < (if n.nextIndex peer = 0 then n.lastIndex + 1 else n.nextIndex peer) := by
    split <;> omega
  unfold Node.appendMessage
  generalize (if n.nextIndex peer = 0 then n.lastIndex + 1 else n.nextIndex peer) = next at *
  simp only
  split
  · rename_i hle
    exact ⟨rfl, rfl, Emits.snapshot peer origin hr (by omega)⟩
  rename_i hgt
  have hlo : n.snapshot.index ≤ next - 1 := by omega
  have hhi : next - 1 ≤ n.lastIndex := by omega
  split
  · exact ⟨rfl, rfl, Emits.append peer (next - 1) context origin [] hr hlo hhi
      List.nil_prefix hc⟩
  -- the capped entries are a prefix of what the peer lacks
  have hent : n.cappedEntries next <+: n.log.drop (next - 1 - n.snapshot.index) := by
    have heq : next - n.snapshot.index - 1 = next - 1 - n.snapshot.index := by omega
    unfold Core.cappedEntries
    split
    · exact List.nil_prefix
    · rw [← heq]; exact n.entriesBetween_prefix _ _
  split
  · exact ⟨rfl, rfl, Emits.append peer (next - 1) context origin [] hr hlo hhi
      List.nil_prefix hc⟩
  · exact ⟨rfl, rfl, Emits.append peer (next - 1) context origin _ hr hlo hhi hent hc⟩

theorem Node.appendMessages_spec (inp : Input) (context : ℕ) (origin : MessageOrigin)
    (hc : context = 0 ∨ context = inp.context) (peers : List ℕ) :
    ∀ {n : Node}, n.Ok → n.role = .leader →
      (Node.appendMessages context origin n peers).1.toCore = n.toCore
        ∧ (Node.appendMessages context origin n peers).1.nextIndex = n.nextIndex
        ∧ ∀ m ∈ (Node.appendMessages context origin n peers).2, Emits inp n.toCore m := by
  induction peers with
  | nil => intro n _ _; exact ⟨rfl, rfl, by simp [Node.appendMessages]⟩
  | cons peer rest ih =>
    intro n hok hr
    obtain ⟨h1, h2, h3⟩ := Node.appendMessage_spec inp hok hr peer context origin hc
    obtain ⟨h4, h5, h6⟩ := ih (n := (n.appendMessage peer context origin).1)
      (hok.congr h1 h2) (by rw [h1]; exact hr)
    refine ⟨h4.trans h1, h5.trans h2, ?_⟩
    intro m hm
    simp only [Node.appendMessages, List.mem_cons] at hm
    rcases hm with rfl | hm
    · exact h3
    · have := h6 m hm
      rwa [h1] at this

theorem Node.broadcastLoop_spec (inp : Input) (origin : MessageOrigin) (peers : List ℕ) :
    ∀ {n : Node}, n.Ok → n.role = .leader →
      (Node.broadcastLoop origin n peers).1.toCore = n.toCore
        ∧ (Node.broadcastLoop origin n peers).1.nextIndex = n.nextIndex
        ∧ ∀ m ∈ (Node.broadcastLoop origin n peers).2, Emits inp n.toCore m := by
  induction peers with
  | nil => intro n _ _; exact ⟨rfl, rfl, by simp [Node.broadcastLoop]⟩
  | cons peer rest ih =>
    intro n hok hr
    unfold Node.broadcastLoop
    split
    · exact ih hok hr
    split
    · exact ih hok hr
    obtain ⟨h1, h2, h3⟩ := Node.appendMessage_spec inp hok hr peer 0 origin (.inl rfl)
    obtain ⟨h4, h5, h6⟩ := ih (n := (n.appendMessage peer 0 origin).1)
      (hok.congr h1 h2) (by rw [h1]; exact hr)
    refine ⟨h4.trans h1, h5.trans h2, ?_⟩
    intro m hm
    rcases List.mem_cons.mp hm with rfl | hm
    · exact h3
    · have := h6 m hm
      rwa [h1] at this

end

theorem Node.broadcastAppend_spec (inp : Input) {n : Node} (hok : n.Ok) (hr : n.role = .leader)
    (origin : MessageOrigin) :
    (n.broadcastAppend origin).1.toCore = n.toCore
      ∧ (n.broadcastAppend origin).1.nextIndex = n.nextIndex
      ∧ ∀ m ∈ (n.broadcastAppend origin).2, Emits inp n.toCore m :=
  Node.broadcastLoop_spec inp origin _ hok hr

omit [MembershipJson] in
theorem Node.settleOutstanding_spec (n : Node) (peer : ℕ) :
    (n.settleOutstanding peer).toCore = n.toCore
      ∧ (n.settleOutstanding peer).nextIndex = n.nextIndex := by
  unfold Node.settleOutstanding
  split <;> exact ⟨rfl, rfl⟩

omit [MembershipJson] in
theorem Node.expireLoop_spec (limit : ℕ) (peers : List ℕ) :
    ∀ n : Node, (Node.expireLoop limit n peers).1.toCore = n.toCore
      ∧ (Node.expireLoop limit n peers).1.nextIndex = n.nextIndex := by
  induction peers with
  | nil => intro n; exact ⟨rfl, rfl⟩
  | cons peer rest ih =>
    intro n
    unfold Node.expireLoop
    split
    · exact ih n
    · simp only
      split <;> exact ih _

end Codec

end Lsmdb.Raft

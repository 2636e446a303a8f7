import Lsmdb.Raft.FixedVoters
import Lsmdb.Raft.Lease
import Lsmdb.Raft.Chunks

namespace Lsmdb.Raft

open Node

/-!
# Raft core — a leader at work

What one call does to the books a leader keeps about its peers: `nextIndex`, `matchIndex`,
`recentActive`, the outstanding appends and their ages, and the two elapsed counters.

`Event` is every call a runtime makes: the operations of `Op`, `Propose` and `ReadProbe`.
`Node.stepWith_leading` says once how a leader reacts to a message: it leaves the books
alone, or it stops leading, or the message is an answer at its own term and goes to one of
the two response handlers.  Sending touches the outstanding appends only (`Node.Sent`).
-/

variable [MembershipJson]

/-! ### Events -/

section
omit [MembershipJson]

/-- The calls a runtime makes on a node. -/
inductive Event where
  | op (op : Op)
  | propose (data : Bytes)
  | readProbe (context : ℕ)

/-- The event is a call of `Tick`. -/
def Event.isTick : Event → Bool
  | .op .tick => true
  | _ => false

theorem Event.eq_tick {e : Event} (h : e.isTick = true) : e = .op .tick := by
  cases e with
  | op op => cases op <;> first | rfl | cases h
  | propose data => cases h
  | readProbe context => cases h

/-- The number of ticks of a run. -/
def ticks (es : List Event) : ℕ := es.countP Event.isTick

end

/-- One call and the update it returns. -/
def Node.handle (next : ℕ → ℕ) (n : Node) : Event → Node × Update
  | .op op => n.operate next op
  | .propose data =>
      let r := n.propose data
      (r.1, updateOf Prod.snd r.2)
  | .readProbe context =>
      let r := n.readProbe context
      (r.1, updateOf id r.2)

/-- The node after a run. -/
def Node.handleAll (next : ℕ → ℕ) (n : Node) : List Event → Node
  | [] => n
  | e :: rest => (n.handle next e).1.handleAll next rest

/-- A property that every call in `Q` keeps holds after every run of such calls. -/
theorem Node.handleAll_induct {P : Node → Prop} {Q : Event → Prop} (next : ℕ → ℕ)
    (hstep : ∀ n e, Q e → P n → P (n.handle next e).1) (es : List Event) (hes : ∀ e ∈ es, Q e) :
    ∀ n, P n → P (n.handleAll next es) := by
  induction es with
  | nil => exact fun _ h => h
  | cons e rest ih =>
    intro n h
    exact ih (fun x hx => hes x (List.mem_cons_of_mem _ hx)) _
      (hstep n e (hes e List.mem_cons_self) h)

/-- `Propose` fails and changes nothing, or is a batch of one command. -/
theorem Node.handle_propose (next : ℕ → ℕ) (n : Node) (data : Bytes) :
    n.handle next (.propose data) = (n, {})
      ∨ n.handle next (.propose data) = n.handle next (.op (.proposeBatch [data])) := by
  show (_, _) = _ ∨ (_, _) = (_, _)
  unfold propose
  split
  · exact .inl rfl
  right
  cases hb : n.proposeBatch [data] with
  | mk n1 r =>
    cases r with
    | error e => rfl
    | ok a => rfl

/-! ### Sending -/

omit [MembershipJson] in
/-- From `n` to `n'` only outstanding appends and their ages differ. -/
def Node.Sent (n n' : Node) : Prop :=
  ∃ o a, n' = { n with outstanding := o, outstandingAge := a }

section Sent
variable {n n₁ n₂ : Node}

section
omit [MembershipJson]

theorem Node.Sent.refl (n : Node) : n.Sent n := ⟨n.outstanding, n.outstandingAge, rfl⟩

theorem Node.Sent.trans (h₁ : n.Sent n₁) (h₂ : n₁.Sent n₂) : n.Sent n₂ := by
  obtain ⟨o₁, a₁, rfl⟩ := h₁
  obtain ⟨o₂, a₂, rfl⟩ := h₂
  exact ⟨o₂, a₂, rfl⟩

theorem Node.Sent.core (h : n.Sent n₁) : n₁.toCore = n.toCore := by
  obtain ⟨o, a, rfl⟩ := h
  rfl

theorem Node.Sent.nextIndex (h : n.Sent n₁) : n₁.nextIndex = n.nextIndex := by
  obtain ⟨o, a, rfl⟩ := h
  rfl

theorem Node.appendMessage_sent (n : Node) (peer context : ℕ) (origin : MessageOrigin) :
    n.Sent (n.appendMessage peer context origin).1 := by
  unfold appendMessage
  dsimp only
  generalize (if n.nextIndex peer = 0 then n.lastIndex + 1 else n.nextIndex peer) = next
  split
  · exact .refl n
  split
  · exact .refl n
  cases (n.cappedEntries next).getLast? with
  | none => exact .refl n
  | some last => exact ⟨_, _, rfl⟩

theorem Node.appendMessages_sent (context : ℕ) (origin : MessageOrigin) (peers : List ℕ) :
    ∀ n : Node, n.Sent (Node.appendMessages context origin n peers).1 := by
  induction peers with
  | nil => exact fun n => .refl n
  | cons peer rest ih =>
    intro n
    exact (n.appendMessage_sent peer context origin).trans (ih _)

theorem Node.broadcastLoop_sent (origin : MessageOrigin) (peers : List ℕ) :
    ∀ n : Node, n.Sent (Node.broadcastLoop origin n peers).1 := by
  induction peers with
  | nil => exact fun n => .refl n
  | cons peer rest ih =>
    intro n
    unfold broadcastLoop
    split
    · exact ih n
    split
    · exact ih n
    · exact (n.appendMessage_sent peer 0 origin).trans (ih _)

end

theorem Node.broadcastAppend_sent (n : Node) (origin : MessageOrigin) :
    n.Sent (n.broadcastAppend origin).1 :=
  broadcastLoop_sent origin n.replicationPeers n

omit [MembershipJson] in
theorem Node.settleOutstanding_sent (n : Node) (peer : ℕ) : n.Sent (n.settleOutstanding peer) := by
  unfold settleOutstanding
  split
  · exact ⟨_, _, rfl⟩
  · exact .refl n

omit [MembershipJson] in
theorem Node.expireLoop_sent (limit : ℕ) (peers : List ℕ) :
    ∀ n : Node, n.Sent (Node.expireLoop limit n peers).1 := by
  induction peers with
  | nil => exact fun n => .refl n
  | cons peer rest ih =>
    intro n
    have haged (a : ℕ → ℕ) : n.Sent { n with outstandingAge := a } := ⟨_, _, rfl⟩
    have hended (o a : ℕ → ℕ) : n.Sent { n with outstanding := o, outstandingAge := a } :=
      ⟨_, _, rfl⟩
    unfold expireLoop
    split
    · exact ih n
    dsimp only
    split
    · exact (hended _ _).trans (ih _)
    · exact (haged _).trans (ih _)

theorem Node.expireOutstanding_sent (n : Node) : n.Sent n.expireOutstanding.1 :=
  expireLoop_sent _ _ n

end Sent

/-! ### The watch -/

omit [MembershipJson] in
/-- What the check-quorum window and the heartbeat look at. -/
def Node.watch (n : Node) : (ℕ → Bool) × ℕ × ℕ :=
  (n.recentActive, n.quorumElapsed, n.heartbeatElapsed)

section Watch
variable {n n' : Node}

section
omit [MembershipJson]

theorem Node.Sent.watch (h : n.Sent n') : n'.watch = n.watch := by
  obtain ⟨o, a, rfl⟩ := h
  rfl

theorem Node.becomeFollower_watch (n : Node) (term leader : ℕ) :
    (n.becomeFollower term leader).1.watch = n.watch := by
  unfold becomeFollower
  dsimp only
  split <;> rfl

theorem Node.becomeFollower_recentActive (n : Node) (term leader : ℕ) :
    (n.becomeFollower term leader).1.recentActive = n.recentActive :=
  congrArg Prod.fst (n.becomeFollower_watch term leader)

theorem Node.becomeFollower_quorumElapsed (n : Node) (term leader : ℕ) :
    (n.becomeFollower term leader).1.quorumElapsed = n.quorumElapsed :=
  congrArg (fun w => w.2.1) (n.becomeFollower_watch term leader)

end

theorem Node.appendFinal_watch (n : Node) : n.appendFinal.1.watch = n.watch := by
  unfold appendFinal
  split
  · dsimp only
    split <;> rfl
  · rfl

theorem Node.maybeCommit_watch (n : Node) : n.maybeCommit.1.watch = n.watch := by
  have hcommit (k : ℕ) :
      (({ n with commit := k } : Node).appendFinal.1.broadcastAppend .commitAdvance).1.watch
        = n.watch :=
    (broadcastAppend_sent _ _).watch.trans (appendFinal_watch _)
  unfold maybeCommit
  dsimp only
  split
  · rfl
  split
  · exact (becomeFollower_watch _ _ _).trans (hcommit _)
  · exact hcommit _

theorem Node.proposeBatch_watch (n : Node) (data : List Bytes) :
    (n.proposeBatch data).1.watch = n.watch := by
  unfold proposeBatch
  dsimp only
  split
  · rfl
  split
  · rfl
  · exact (maybeCommit_watch _).trans (broadcastAppend_sent _ _).watch

theorem Node.proposeMembership_watch (n : Node) (voters : List ℕ) :
    (n.proposeMembership voters).1.watch = n.watch := by
  unfold proposeMembership
  dsimp only
  split
  · rfl
  split
  · rfl
  split
  · rfl
  split
  · rfl
  split
  · rfl
  · exact (maybeCommit_watch _).trans (broadcastAppend_sent _ _).watch

theorem Node.compact_watch (n : Node) (snapshot : Snapshot) :
    (n.compact snapshot).1.watch = n.watch := by
  rcases n.compact_cases snapshot with heq | ⟨s, mem, hcut⟩
  · rw [heq]
  · rw [hcut.node]
    rfl

theorem Node.createSnapshot_watch (n : Node) (index : ℕ) (data : Bytes) :
    (n.createSnapshot index data).1.watch = n.watch := by
  unfold createSnapshot
  split
  · rfl
  · exact n.compact_watch _

omit [MembershipJson] in
theorem Node.readProbe_sent (n : Node) (context : ℕ) : n.Sent (n.readProbe context).1 := by
  unfold readProbe
  split
  · exact .refl n
  split
  · exact .refl n
  · exact appendMessages_sent _ _ _ n

theorem Node.handle_local_watch (next : ℕ → ℕ) (n : Node) {op : Op} (hop : op.Local) :
    (n.operate next op).1.watch = n.watch := by
  cases op with
  | tick => exact hop.elim
  | step m => exact hop.elim
  | proposeBatch data => exact n.proposeBatch_watch data
  | proposeMembership voters => exact n.proposeMembership_watch voters
  | createSnapshot index data => exact n.createSnapshot_watch index data
  | compact snapshot => exact n.compact_watch snapshot

end Watch

/-! ### Ticks of a leader -/

/-- A leader's `Tick` up to the check of its window: count, expire, send. -/
def Node.beat (n : Node) : Node × List Message :=
  let n1 : Node :=
    { n with heartbeatElapsed := n.heartbeatElapsed + 1, quorumElapsed := n.quorumElapsed + 1 }
  let e := n1.expireOutstanding
  if e.1.heartbeatElapsed ≥ e.1.cfg.heartbeatTicks then
    ({ e.1 with heartbeatElapsed := 0 } : Node).broadcastAppend .heartbeat
  else Node.appendMessages 0 .heartbeat e.1 e.2

theorem Node.tickWith_leader (next : ℕ → ℕ) {n : Node} (hr : n.role = .leader) :
    n.tickWith next = (n.beat.1.checkQuorum.1,
      ({ messages := n.beat.2 } : Update).merge n.beat.1.checkQuorum.2) := by
  unfold tickWith
  rw [if_pos hr]
  rfl

/-- Up to the check only counters and outstanding appends change. -/
theorem Node.beat_node (n : Node) : ∃ h o a, n.beat.1 = { n with
    heartbeatElapsed := h
    quorumElapsed := n.quorumElapsed + 1
    outstanding := o
    outstandingAge := a } := by
  have hexpire := expireOutstanding_sent
    { n with heartbeatElapsed := n.heartbeatElapsed + 1, quorumElapsed := n.quorumElapsed + 1 }
  unfold beat
  dsimp only
  generalize expireOutstanding _ = e at hexpire ⊢
  obtain ⟨o, a, heq⟩ := hexpire
  split
  · obtain ⟨o', a', heq'⟩ :=
      broadcastAppend_sent ({ e.1 with heartbeatElapsed := 0 } : Node) .heartbeat
    rw [heq', heq]
    exact ⟨_, _, _, rfl⟩
  · obtain ⟨o', a', heq'⟩ := appendMessages_sent 0 .heartbeat e.2 e.1
    rw [heq', heq]
    exact ⟨_, _, _, rfl⟩

omit [MembershipJson] in
/-- The check of the window: not yet, or the flags are cleared and a quorum decides. -/
theorem Node.checkQuorum_cases (n : Node) :
    (n.quorumElapsed < n.cfg.checkQuorumTicks ∧ n.checkQuorum = (n, {}))
      ∨ (n.checkQuorum.1.quorumElapsed = 0
        ∧ (∀ id ∈ n.peers, n.checkQuorum.1.recentActive id = false)
        ∧ (n.checkQuorum.1.role = .leader → n.membership.hasQuorum n.isActive = true)) := by
  unfold checkQuorum
  split
  · rename_i hlt
    exact .inl ⟨hlt, rfl⟩
  right
  dsimp only
  split
  · rename_i hq
    exact ⟨rfl, fun id hid => if_pos hid, fun _ => hq⟩
  refine ⟨?_, fun id hid => ?_, fun hl => ?_⟩
  · rw [becomeFollower_quorumElapsed]
  · rw [becomeFollower_recentActive]
    exact if_pos hid
  · cases hl

/-! ### Every call keeps a node sane -/

section Sane
variable {n n' : Node}

omit [MembershipJson] in
theorem Node.Sent.sane (h : n.Sent n') (hs : n.Sane) : n'.Sane :=
  ⟨by rw [h.core]; exact hs.framed, hs.ok.congr h.core h.nextIndex⟩

theorem Node.Follows.sane_cfg {inp : Input} {r : Node × Update} (h : n.Sane)
    (hf : Node.Follows inp n r) : r.1.Sane ∧ r.1.cfg = n.cfg :=
  ⟨hf.sane h, hf.path.cfg_eq⟩

theorem Node.cfg_kept : Node.Kept Node.Sane (fun n r => r.1.cfg = n.cfg) where
  ok h := h.ok
  follows _ h hf := hf.sane_cfg h
  stands h hs _ := ⟨h.stands hs, hs.cfg⟩
  trans h h' := h'.trans h
  untouched h hu := ⟨h.untouched hu, by rw [hu.core]⟩

theorem Node.operate_sane (next : ℕ → ℕ) (h : n.Sane) (op : Op) :
    (n.operate next op).1.Sane ∧ (n.operate next op).1.cfg = n.cfg := by
  cases op with
  | tick => exact cfg_kept.tickWith next h
  | step m => exact cfg_kept.stepWith next h m
  | _ => exact Follows.sane_cfg h (operate_local next h.ok trivial)

theorem Node.handle_sane (next : ℕ → ℕ) (h : n.Sane) (e : Event) :
    (n.handle next e).1.Sane ∧ (n.handle next e).1.cfg = n.cfg := by
  cases e with
  | op op => exact operate_sane next h op
  | propose data =>
    rcases n.handle_propose next data with heq | heq
    · rw [heq]
      exact ⟨h, rfl⟩
    · rw [heq]
      exact operate_sane next h _
  | readProbe context =>
    have hsent := n.readProbe_sent context
    exact ⟨hsent.sane h, congrArg Core.cfg hsent.core⟩

theorem Node.handleAll_sane (next : ℕ → ℕ) (h : n.Sane) (es : List Event) :
    (n.handleAll next es).Sane ∧ (n.handleAll next es).cfg = n.cfg := by
  refine handleAll_induct (P := fun k => k.Sane ∧ k.cfg = n.cfg) next ?_ es
    (fun _ _ => trivial) n ⟨h, rfl⟩
  intro k e _ hk
  obtain ⟨hsane, hcfg⟩ := handle_sane next hk.1 e
  exact ⟨hsane, hcfg.trans hk.2⟩

end Sane

/-! ### Updates without appends -/

omit [MembershipJson] in
/-- The update sends no append. -/
def Update.NoAppend (u : Update) : Prop := ∀ m ∈ u.messages, m.type ≠ .append

section NoAppend
variable {u v : Update}

section
omit [MembershipJson]

theorem Update.NoAppend.of_nil (h : u.messages = []) : u.NoAppend := by
  intro m hm
  rw [h] at hm
  cases hm

theorem Update.NoAppend.of_single {answer : Message} (h : u.messages = [answer])
    (ht : answer.type ≠ .append) : u.NoAppend := by
  intro m hm
  rw [h, List.mem_singleton] at hm
  rw [hm]
  exact ht

theorem Update.NoAppend.merge (hu : u.NoAppend) (hv : v.NoAppend) : (u.merge v).NoAppend := by
  intro m hm
  rcases List.mem_append.mp hm with hm | hm
  · exact hu m hm
  · exact hv m hm

theorem Update.OnlyReplies.noAppend (h : u.OnlyReplies) : u.NoAppend := by
  intro m hm
  rw [(h.messages m hm).1]
  decide

theorem Core.rejectStale_type (n : Core) (m : Message) : (n.rejectStale m).type ≠ .append := by
  unfold Core.rejectStale
  split
  · exact (by decide : MessageType.voteResponse ≠ .append)
  · exact (by decide : MessageType.appendResponse ≠ .append)
  · exact (by decide : MessageType.snapshotResponse ≠ .append)
  · rename_i hna _
    exact hna

end

theorem Node.handleSnapshot_noAppend (n : Node) (m : Message) :
    (n.handleSnapshot m).2.NoAppend := by
  have hnil : (n.followSender m.fromID).2.messages = [] := by
    unfold followSender
    dsimp only
    split <;> rfl
  have hsend (v : Update) (answer : Message) (hv : v.messages = [])
      (ht : answer.type = .snapshotResponse) : (v.send [answer]).NoAppend := by
    have hone : (v.send [answer]).messages = [answer] := by
      show v.messages ++ [answer] = [answer]
      rw [hv]
      rfl
    apply Update.NoAppend.of_single hone
    rw [ht]
    decide
  unfold handleSnapshot
  cases m.snapshot with
  | none => exact hsend {} _ rfl rfl
  | some sent =>
    dsimp only
    split
    · exact hsend {} _ rfl rfl
    generalize (if sent.membership.voters.length = 0 then
      ({ sent with membership := (n.followSender m.fromID).1.initialMembership } : Snapshot)
      else sent) = snapshot
    cases validateMembership snapshot.membership with
    | error e => exact hsend _ _ hnil rfl
    | ok _ =>
      dsimp only
      split
      · exact hsend _ _ hnil rfl
      split
      · split
        · exact hsend _ _ hnil rfl
        cases ((n.followSender m.fromID).1.compactLog snapshot).rebuildMembership with
        | error e => exact hsend _ _ hnil rfl
        | ok core => exact hsend _ _ hnil rfl
      · exact hsend _ _ hnil rfl

end NoAppend

/-! ### A leader and a message -/

omit [MembershipJson] in
/-- Everything a leader sends by is the same. -/
structure Node.SameBooks (n n' : Node) : Prop where
  cfg : n'.cfg = n.cfg
  role : n'.role = n.role
  term : n'.term = n.term
  snapshot : n'.snapshot = n.snapshot
  log : n'.log = n.log
  commit : n'.commit = n.commit
  initialMembership : n'.initialMembership = n.initialMembership
  membership : n'.membership = n.membership
  matchIndex : n'.matchIndex = n.matchIndex
  nextIndex : n'.nextIndex = n.nextIndex
  outstanding : n'.outstanding = n.outstanding
  outstandingAge : n'.outstandingAge = n.outstandingAge
  watch : n'.watch = n.watch

omit [MembershipJson] in
theorem Node.SameBooks.refl (n : Node) : n.SameBooks n :=
  ⟨rfl, rfl, rfl, rfl, rfl, rfl, rfl, rfl, rfl, rfl, rfl, rfl, rfl⟩

/-- The node processes `m` at its own term: it is addressed, the sender is a peer, and the
    term is the node's. -/
structure Node.Processes (n : Node) (m : Message) : Prop where
  addressed : m.toID = 0 ∨ m.toID = n.cfg.id
  peer : n.isCommunicationPeer m.fromID = true
  other : m.fromID ≠ n.cfg.id
  term : m.term = n.term

omit [MembershipJson] in
/-- The sender of a rejection is probed again: its outstanding append is over, and its
    `nextIndex` may have moved. -/
structure Node.Rewinds (n : Node) (m : Message) (k : Node) : Prop where
  node : ∃ nx, k = { n with
    recentActive := setAt n.recentActive m.fromID true
    nextIndex := nx
    outstanding := setAt n.outstanding m.fromID 0 }
  next_ne : ∀ p, n.nextIndex p ≠ 0 → k.nextIndex p ≠ 0
  ok : n.role = .leader → n.Ok → k.Ok

omit [MembershipJson] in
/-- The progress of the sender of a positive answer is taken down. -/
structure Node.Records (n : Node) (m : Message) (k : Node) : Prop where
  node : ∃ mi nx, k = { n with
    recentActive := setAt n.recentActive m.fromID true
    matchIndex := mi
    nextIndex := nx }
  match_eq : ∀ p, p ≠ m.fromID → k.matchIndex p = n.matchIndex p
  next_ne : ∀ p, n.nextIndex p ≠ 0 → k.nextIndex p ≠ 0
  ok : n.role = .leader → n.Ok → k.Ok

/-- **What a leader makes of an answer**: after a rejection it probes again; after a positive
    answer it settles, tries to commit, and may send what comes next. -/
inductive Node.Answered (n : Node) (m : Message) (r : Node × Update) : Prop
  | rejected (k : Node) (hk : n.Rewinds m k) (hrej : m.reject = true) (context : ℕ)
      (origin : MessageOrigin)
      (heq : r = ((k.appendMessage m.fromID context origin).1,
        { messages := [(k.appendMessage m.fromID context origin).2] }))
  | accepted (k : Node) (hk : n.Records m k) (hacc : m.reject = false)
      (heq : r = (k.settleOutstanding m.fromID).maybeCommit)
  | resent (k : Node) (hk : n.Records m k) (hacc : m.reject = false) (context : ℕ)
      (origin : MessageOrigin)
      (heq : r = (((k.settleOutstanding m.fromID).maybeCommit.1.appendMessage
          m.fromID context origin).1,
        (k.settleOutstanding m.fromID).maybeCommit.2.send
          [((k.settleOutstanding m.fromID).maybeCommit.1.appendMessage
            m.fromID context origin).2]))

/-- **How a leader reacts to a message.** -/
inductive Node.Reacts (n : Node) (m : Message) (r : Node × Update) : Prop
  | idle (hbooks : n.SameBooks r.1) (hquiet : r.2.NoAppend)
  | ends (hrole : r.1.role ≠ .leader) (hquiet : r.2.NoAppend)
  | answered (hm : n.Processes m)
      (htype : m.type = .appendResponse ∨ m.type = .snapshotResponse) (h : n.Answered m r)

section Reacts
variable {n : Node} {m : Message}

section
omit [MembershipJson]

private theorem setAt_ne_zero {f : ℕ → ℕ} {k v : ℕ} (hv : v ≠ 0) (p : ℕ) (hp : f p ≠ 0) :
    setAt f k v p ≠ 0 := by
  by_cases h : p = k
  · subst h
    simpa [setAt] using hv
  · rwa [setAt, Function.update_of_ne h]

/-- Recording `matched` for the sender, as both response handlers do when it is progress. -/
theorem Node.records_progress (n : Node) (m : Message) :
    n.Records m { n with
      recentActive := setAt n.recentActive m.fromID true
      matchIndex := setAt n.matchIndex m.fromID (min m.logIndex n.lastIndex)
      nextIndex := setAt n.nextIndex m.fromID (min m.logIndex n.lastIndex + 1) } where
  node := ⟨_, _, rfl⟩
  match_eq _ hp := Function.update_of_ne hp _ _
  next_ne p hp := setAt_ne_zero (Nat.succ_ne_zero _) p hp
  ok hr hok := hok.progress hr rfl rfl (Nat.lt_succ_self _)
    (Nat.succ_le_succ (Nat.min_le_right _ _))

/-- An answer without progress only marks its sender as active. -/
theorem Node.records_active (n : Node) (m : Message) :
    n.Records m { n with recentActive := setAt n.recentActive m.fromID true } where
  node := ⟨n.matchIndex, n.nextIndex, rfl⟩
  match_eq _ _ := rfl
  next_ne _ hp := hp
  ok _ hok := hok.congr rfl rfl

end

theorem Node.handleAppendResponse_answered (hr : n.role = .leader) (ht : m.term = n.term) :
    n.Answered m (n.handleAppendResponse m) := by
  have hlead : ¬ (n.role ≠ .leader ∨ m.term ≠ n.term) := by simp [hr, ht]
  unfold handleAppendResponse
  rw [if_neg hlead]
  dsimp only
  by_cases hrej : m.reject = true
  · rw [if_pos hrej]
    refine .rejected _ ⟨⟨_, rfl⟩, ?_, ?_⟩ hrej m.context .ackResend rfl
    · exact setAt_ne_zero (by omega)
    · intro _ hok
      have hmle := hok.match_le hr m.fromID
      have hnle := hok.next_le hr m.fromID
      refine hok.progress (k := n.matchIndex m.fromID) hr (by simp [setAt]) rfl (by omega) ?_
      split
      · omega
      · split <;> omega
  rw [if_neg hrej]
  have hacc : m.reject = false := by simpa using hrej
  by_cases hlt : n.matchIndex m.fromID < m.logIndex
  · simp only [if_pos hlt]
    split
    · exact .resent _ (n.records_progress m) hacc m.context .ackResend rfl
    · exact .accepted _ (n.records_progress m) hacc rfl
  · simp only [if_neg hlt]
    split
    · exact .resent _ (n.records_active m) hacc m.context .ackResend rfl
    · exact .accepted _ (n.records_active m) hacc rfl

theorem Node.handleSnapshotResponse_answered (hr : n.role = .leader) (ht : m.term = n.term) :
    n.Answered m (n.handleSnapshotResponse m) := by
  have hlead : ¬ (n.role ≠ .leader ∨ m.term ≠ n.term) := by simp [hr, ht]
  unfold handleSnapshotResponse
  rw [if_neg hlead]
  dsimp only
  by_cases hrej : m.reject = true
  · rw [if_pos hrej]
    exact .rejected _ ⟨⟨n.nextIndex, rfl⟩, fun _ hp => hp, fun _ hok => hok.congr rfl rfl⟩ hrej 0
      .other rfl
  rw [if_neg hrej]
  have hacc : m.reject = false := by simpa using hrej
  by_cases hlt : n.matchIndex m.fromID < min m.logIndex n.lastIndex
  · simp only [if_pos hlt]
    split
    · exact .resent _ (n.records_progress m) hacc 0 .other rfl
    · exact .accepted _ (n.records_progress m) hacc rfl
  · simp only [if_neg hlt]
    split
    · exact .resent _ (n.records_active m) hacc 0 .other rfl
    · exact .accepted _ (n.records_active m) hacc rfl

omit [MembershipJson] in
theorem Node.handleVote_sameBooks (n : Node) (m : Message) :
    n.SameBooks (n.handleVote m).1 ∧ (n.handleVote m).2.NoAppend := by
  unfold handleVote
  dsimp only
  split
  · exact ⟨⟨rfl, rfl, rfl, rfl, rfl, rfl, rfl, rfl, rfl, rfl, rfl, rfl, rfl⟩,
      .of_single rfl (by decide : MessageType.voteResponse ≠ .append)⟩
  · exact ⟨.refl n, .of_single rfl (by decide : MessageType.voteResponse ≠ .append)⟩

/-- After adopting a term a node is a follower, and stays one. -/
theorem Node.dispatchWith_follower (next : ℕ → ℕ) (hr : n.role = .follower)
    (h1 : m.type ≠ .preVote) (h2 : m.type ≠ .preVoteResponse) :
    (n.dispatchWith next m).1.role ≠ .leader ∧ (n.dispatchWith next m).2.NoAppend := by
  have hsame : n.role ≠ .leader ∧ ({} : Update).NoAppend := ⟨by simp [hr], .of_nil rfl⟩
  unfold dispatchWith
  cases ht : m.type with
  | preVote => exact absurd ht h1
  | preVoteResponse => exact absurd ht h2
  | vote =>
    obtain ⟨hbooks, hquiet⟩ := n.handleVote_sameBooks m
    exact ⟨by rw [hbooks.role]; exact hsame.1, hquiet⟩
  | voteResponse =>
    simp only [handleVoteResponse]
    rw [if_pos (.inl (by simp [hr]))]
    exact hsame
  | append =>
    refine ⟨?_, (n.handleAppend_onlyReplies m).noAppend⟩
    rw [(n.handleAppend_sender m).1]
    decide
  | appendResponse =>
    simp only [handleAppendResponse]
    rw [if_pos (.inl hsame.1)]
    exact hsame
  | snapshot =>
    refine ⟨?_, n.handleSnapshot_noAppend m⟩
    rcases n.handleSnapshot_sender m with heq | hf
    · simp only
      rw [heq]
      exact hsame.1
    · simp only
      rw [hf.1]
      decide
  | snapshotResponse =>
    simp only [handleSnapshotResponse]
    rw [if_pos (.inl hsame.1)]
    exact hsame

theorem Node.dispatchWith_leading (next : ℕ → ℕ) (hr : n.role = .leader) (hm : n.Processes m) :
    n.Reacts m (n.dispatchWith next m) := by
  unfold dispatchWith
  cases ht : m.type with
  | preVote =>
    apply Reacts.idle (.refl n)
    exact .of_single rfl (by decide : MessageType.preVoteResponse ≠ .append)
  | preVoteResponse =>
    simp only
    rcases n.handlePreVoteResponse_leader next hr m with heq | ⟨hlt, -⟩
    · rw [heq]
      exact .idle (.refl n) (.of_nil rfl)
    · exact absurd hm.term (by omega)
  | vote =>
    obtain ⟨hbooks, hquiet⟩ := n.handleVote_sameBooks m
    exact .idle hbooks hquiet
  | voteResponse =>
    simp only [handleVoteResponse]
    rw [if_pos (.inl (by simp [hr]))]
    exact .idle (.refl n) (.of_nil rfl)
  | append =>
    apply Reacts.ends _ (n.handleAppend_onlyReplies m).noAppend
    rw [(n.handleAppend_sender m).1]
    decide
  | appendResponse =>
    exact .answered hm (.inl ht) (handleAppendResponse_answered hr hm.term)
  | snapshot =>
    simp only
    rcases n.handleSnapshot_sender m with heq | hf
    · apply Reacts.idle _ (n.handleSnapshot_noAppend m)
      rw [heq]
      exact .refl n
    · apply Reacts.ends _ (n.handleSnapshot_noAppend m)
      rw [hf.1]
      decide
  | snapshotResponse =>
    exact .answered hm (.inr ht) (handleSnapshotResponse_answered hr hm.term)

theorem Node.stepWith_leading (next : ℕ → ℕ) (hr : n.role = .leader) (m : Message) :
    n.Reacts m (n.stepWith next m) := by
  have hidle : n.Reacts m (n, {}) := .idle (.refl n) (.of_nil rfl)
  unfold stepWith
  split
  · exact hidle
  rename_i hto
  split
  · exact hidle
  rename_i hpeer
  cases (if m.type = .append then malformedAppend m else none) with
  | some reason =>
    exact .idle ⟨rfl, rfl, rfl, rfl, rfl, rfl, rfl, rfl, rfl, rfl, rfl, rfl, rfl⟩ (.of_nil rfl)
  | none =>
    dsimp only
    split
    · exact .idle ⟨rfl, rfl, rfl, rfl, rfl, rfl, rfl, rfl, rfl, rfl, rfl, rfl, rfl⟩ (.of_nil rfl)
    have hown (ht : m.term = n.term) : n.Processes m := by
      simp only [Bool.not_eq_true', not_or, Bool.not_eq_false] at hpeer
      exact ⟨by omega, hpeer.1, hpeer.2, ht⟩
    unfold stepTermWith
    split
    · rename_i htype
      split
      · -- The higher term makes the node a follower before it looks at the message.
        obtain ⟨hrole, hquiet⟩ := dispatchWith_follower next
          (n := (n.becomeFollower m.term 0).1) rfl htype.1 htype.2
        exact .ends hrole (.merge (.of_nil rfl) hquiet)
      split
      · exact .idle (.refl n) (.of_single rfl (n.rejectStale_type m))
      · exact dispatchWith_leading next hr (hown (by omega))
    · -- A pre-vote or its answer carries a proposed term.
      rename_i htype
      have hpre : m.type = .preVote ∨ m.type = .preVoteResponse := by
        by_contra h
        rw [not_or] at h
        exact htype h
      unfold dispatchWith
      rcases hpre with ht | ht
      · rw [ht]
        apply Reacts.idle (.refl n)
        exact .of_single rfl (by decide : MessageType.preVoteResponse ≠ .append)
      rw [ht]
      simp only
      rcases n.handlePreVoteResponse_leader next hr m with heq | ⟨-, heq⟩
      · rw [heq]
        exact hidle
      · rw [heq]
        exact .ends (by decide : Role.follower ≠ .leader) (.of_nil rfl)

end Reacts

/-! ### A node that does not lead -/

/-- **How a node that does not lead reacts to a call**: it sends no append and still does not
    lead, or it wins an election. -/
inductive Node.Campaigns (n : Node) (r : Node × Update) : Prop
  | quiet (hrole : r.1.role ≠ .leader) (hquiet : r.2.NoAppend)
  | won (k : Node) (hk : n.Stands k) (node : r.1 = k.becomeLeader.1)
      (messages : r.2.messages = k.becomeLeader.2.messages)

section Campaigns
variable {n n₁ n₂ : Node}

omit [MembershipJson] in
theorem Node.Stands.trans (h₁ : n.Stands n₁) (h₂ : n₁.Stands n₂) : n.Stands n₂ :=
  ⟨h₂.role, h₂.cfg.trans h₁.cfg, h₂.snapshot.trans h₁.snapshot, h₂.log.trans h₁.log,
    h₂.commit.trans h₁.commit, h₂.initial.trans h₁.initial, h₂.membership.trans h₁.membership⟩

theorem Node.Campaigns.after {r : Node × Update} (hs : n.Stands n₁) (h : n₁.Campaigns r) :
    n.Campaigns r := by
  cases h with
  | quiet hrole hquiet => exact .quiet hrole hquiet
  | won k hk node messages => exact .won k (hs.trans hk) node messages

end Campaigns

omit [MembershipJson] in
/-- Node 1 of two wins the election of term 1. -/
def electionEvents : List Event :=
  [.op .tick, .op .tick,
   .op (.step { type := .preVoteResponse, fromID := 2, toID := 1, term := 1 }),
   .op (.step { type := .voteResponse, fromID := 2, toID := 1, term := 1 })]

end Lsmdb.Raft

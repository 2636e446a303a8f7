import Lsmdb.Raft.Leading

namespace Lsmdb.Raft

/-!
# Raft core — a leader without contact

A leader checks every `CheckQuorumTicks` ticks whether it has heard from a quorum since the
check before, and steps down if not.  The flags it looks at are set by append and snapshot
responses at its own term, rejections included, and cleared by a check only.

A stretch of `2 * CheckQuorumTicks` ticks contains two checks at the distance of one window,
wherever the window stood when it began.  What the second check finds are responses from
inside the stretch, so a leader that survives it has had contact with a quorum.
-/

variable [MembershipJson]

/-! ### Contacts -/

/-- The event is an append or snapshot response of `id` that the node processes at its term. -/
def Node.contact (n : Node) (e : Event) (id : ℕ) : Bool :=
  match e with
  | .op (.step m) =>
      decide (m.type = .appendResponse ∨ m.type = .snapshotResponse) && decide (m.fromID = id)
        && decide (m.term = n.term) && decide (m.toID = 0 ∨ m.toID = n.cfg.id)
        && n.isCommunicationPeer m.fromID && decide (m.fromID ≠ n.cfg.id)
  | _ => false

/-- The nodes a run from `n` has had contact with. -/
def Node.contacts (next : ℕ → ℕ) (n : Node) : List Event → ℕ → Bool
  | [], _ => false
  | e :: rest, id => n.contact e id || (n.handle next e).1.contacts next rest id

/-- Node `n` and every node its run goes through lead in `term` with configuration `mem`. -/
def Node.Reigns (next : ℕ → ℕ) (term : ℕ) (mem : Membership) (n : Node) : List Event → Prop
  | [] => n.role = .leader ∧ n.term = term ∧ n.membership = mem
  | e :: rest =>
      (n.role = .leader ∧ n.term = term ∧ n.membership = mem)
        ∧ (n.handle next e).1.Reigns next term mem rest

section Window
variable {n : Node} {next : ℕ → ℕ} {term : ℕ} {mem : Membership}

theorem Node.Reigns.head {es : List Event} (h : n.Reigns next term mem es) :
    n.role = .leader ∧ n.term = term ∧ n.membership = mem := by
  cases es with
  | nil => exact h
  | cons e rest => exact h.1

theorem Node.Processes.contact {m : Message} (h : n.Processes m)
    (htype : m.type = .appendResponse ∨ m.type = .snapshotResponse) :
    n.contact (.op (.step m)) m.fromID = true := by
  obtain ⟨hto, hpeer, hother, hterm⟩ := h
  simp [Node.contact, htype, hterm, hto, hpeer, hother]

/-! ### One call -/

/-- An answer marks its sender as active and leaves the counters alone. -/
theorem Node.Answered.watch {m : Message} {r : Node × Update} (h : n.Answered m r) :
    r.1.watch = (setAt n.recentActive m.fromID true, n.quorumElapsed, n.heartbeatElapsed) := by
  have hcommit (k : Node) (hk : n.Records m k) :
      (k.settleOutstanding m.fromID).maybeCommit.1.watch
        = (setAt n.recentActive m.fromID true, n.quorumElapsed, n.heartbeatElapsed) := by
    obtain ⟨mi, nx, hnode⟩ := hk.node
    rw [Node.maybeCommit_watch, (k.settleOutstanding_sent m.fromID).watch, hnode]
    rfl
  cases h with
  | rejected k hk hrej context origin heq =>
    obtain ⟨nx, hnode⟩ := hk.node
    rw [heq, (k.appendMessage_sent m.fromID context origin).watch, hnode]
    rfl
  | accepted k hk hacc heq =>
    rw [heq]
    exact hcommit k hk
  | resent k hk hacc context origin heq =>
    rw [heq]
    exact (Node.appendMessage_sent _ _ _ _).watch.trans (hcommit k hk)

/-- A leader that stays one: a call other than `Tick` leaves the window's counter alone and
    sets a flag only for a contact. -/
theorem Node.handle_flags (hr : n.role = .leader) {e : Event} (he : e.isTick = false)
    (hr' : (n.handle next e).1.role = .leader) :
    (n.handle next e).1.quorumElapsed = n.quorumElapsed
      ∧ ∀ id, (n.handle next e).1.recentActive id = true →
          n.recentActive id = true ∨ n.contact e id = true := by
  have hsame (k : Node) (hk : k.watch = n.watch) : k.quorumElapsed = n.quorumElapsed
      ∧ ∀ id, k.recentActive id = true → n.recentActive id = true ∨ n.contact e id = true := by
    simp only [Node.watch, Prod.mk.injEq] at hk
    exact ⟨hk.2.1, fun id hid => .inl (hk.1 ▸ hid)⟩
  cases e with
  | propose data =>
    rcases n.handle_propose next data with heq | heq
    · rw [heq]
      exact hsame n rfl
    · rw [heq]
      have hlocal : (Op.proposeBatch [data]).Local := trivial
      exact hsame _ (n.handle_local_watch next hlocal)
  | readProbe context => exact hsame _ (n.readProbe_sent context).watch
  | op op =>
    cases op with
    | tick => cases he
    | step m =>
      cases n.stepWith_leading next hr m with
      | idle hbooks hquiet => exact hsame _ hbooks.watch
      | ends hrole hquiet => exact absurd hr' hrole
      | answered hm htype h =>
        have hw := h.watch
        simp only [Node.watch, Prod.mk.injEq] at hw
        refine ⟨hw.2.1, fun id hid => ?_⟩
        change (n.stepWith next m).1.recentActive id = true at hid
        rw [hw.1] at hid
        by_cases heq : id = m.fromID
        · right
          rw [heq]
          exact hm.contact htype
        · left
          rwa [setAt, Function.update_of_ne heq] at hid
    | _ => exact hsame _ (n.handle_local_watch next trivial)

/-- A tick of a leader: it counts, or it checks the window. -/
theorem Node.tick_check (next : ℕ → ℕ) (hr : n.role = .leader) :
    (n.quorumElapsed + 1 < n.cfg.checkQuorumTicks
        ∧ (n.tickWith next).1.quorumElapsed = n.quorumElapsed + 1
        ∧ (n.tickWith next).1.recentActive = n.recentActive)
      ∨ ((n.tickWith next).1.quorumElapsed = 0
        ∧ (∀ id ∈ n.peers, (n.tickWith next).1.recentActive id = false)
        ∧ ((n.tickWith next).1.role = .leader → n.membership.hasQuorum n.isActive = true)) := by
  rw [Node.tickWith_leader next hr]
  -- What is sent before the check changes neither the flags nor the configuration.
  obtain ⟨h, o, a, hbeat⟩ := n.beat_node
  have hactive : n.beat.1.isActive = n.isActive := by rw [hbeat]; rfl
  rcases n.beat.1.checkQuorum_cases with ⟨hlt, heq⟩ | ⟨hzero, hcleared, hquorum⟩
  · left
    rw [heq]
    refine ⟨?_, ?_, ?_⟩
    · rw [hbeat] at hlt
      exact hlt
    · rw [hbeat]
    · rw [hbeat]
  · right
    refine ⟨hzero, ?_, ?_⟩
    · intro id hid
      apply hcleared
      rw [hbeat]
      exact hid
    · intro hl
      have hq := hquorum hl
      rw [hactive, hbeat] at hq
      exact hq

/-! ### A window -/

/-- The node itself, if it is a voter, and the nodes of `f`. -/
def withSelf (self : ℕ) (mem : Membership) (f : ℕ → Bool) (id : ℕ) : Bool :=
  (id == self && containsVoter (unionVoters mem) self) || f id

theorem Node.contacts_append (pre post : List Event) (id : ℕ) :
    ∀ n : Node, n.contacts next (pre ++ post) id
      = (n.contacts next pre id || (n.handleAll next pre).contacts next post id) := by
  induction pre with
  | nil => exact fun n => (Bool.false_or _).symm
  | cons e rest ih =>
    intro n
    show (_ || _) = ((_ || _) || _)
    rw [Bool.or_assoc]
    exact congrArg _ (ih _)

/-- **The check at the end of a window**: the flags set now are among `seen`, and a check is
    due within the run. -/
theorem Node.Reigns.quorum_of_check (es : List Event) :
    ∀ {n : Node} (seen : ℕ → Bool), n.Reigns next term mem es → n.Sane →
      (∀ id ∈ n.peers, n.recentActive id = true → seen id = true) →
      0 < ticks es → n.cfg.checkQuorumTicks ≤ n.quorumElapsed + ticks es →
      mem.hasQuorum (withSelf n.cfg.id mem (fun id => seen id || n.contacts next es id)) = true := by
  induction es with
  | nil => exact fun _ _ _ _ h0 => absurd h0 (Nat.lt_irrefl 0)
  | cons e rest ih =>
    intro n seen hreign hsane hseen hpos hdue
    obtain ⟨⟨hr, hterm, hmem⟩, hrest⟩ := hreign
    obtain ⟨hsane', hcfg⟩ := Node.handle_sane next hsane e
    obtain ⟨hr', -, hmem'⟩ := hrest.head
    have hpeers : (n.handle next e).1.peers = n.peers := by
      unfold Core.peers
      rw [hmem', hmem]
    cases he : e.isTick with
    | false =>
      have hcount : ticks (e :: rest) = ticks rest := by simp [ticks, he]
      obtain ⟨hq, hflags⟩ := Node.handle_flags hr he hr'
      have hwin := ih (fun id => seen id || n.contact e id) hrest hsane' ?_
        (hcount ▸ hpos) (by rw [hcfg, hq, ← hcount]; exact hdue)
      · rw [hcfg] at hwin
        simpa only [Node.contacts, Bool.or_assoc] using hwin
      · intro id hid hact
        rw [hpeers] at hid
        rcases hflags id hact with h | h
        · simp [hseen id hid h]
        · simp [h]
    | true =>
      obtain rfl := Event.eq_tick he
      have hcount : ticks (.op .tick :: rest) = ticks rest + 1 := by simp [ticks, he]
      rcases Node.tick_check next hr with ⟨hlt, hq, hflags⟩ | ⟨-, -, hquorum⟩
      · -- No check yet: the window goes on with the same flags.
        have hwin := ih (n := (n.tickWith next).1) seen hrest hsane' ?_ (by omega) ?_
        · have hcfg' : (n.tickWith next).1.cfg = n.cfg := hcfg
          rw [hcfg'] at hwin
          simp only [Node.contacts, Node.contact, Bool.false_or]
          exact hwin
        · intro id hid hact
          rw [hflags] at hact
          exact hseen id (by rw [← hpeers]; exact hid) hact
        · have hcfg' : (n.tickWith next).1.cfg = n.cfg := hcfg
          rw [hcfg', hq]
          omega
      · -- The check finds a quorum among the flags.
        have hq := hquorum hr'
        rw [hmem] at hq
        refine Membership.hasQuorum_mono ?_ hq
        intro id hid
        unfold Node.isActive at hid
        simp only [Bool.or_eq_true, Bool.and_eq_true, beq_iff_eq, decide_eq_true_eq] at hid
        rcases hid with ⟨hself, hvoter⟩ | ⟨⟨hpeer, -⟩, hact⟩
        · simp only [withSelf, hself, beq_self_eq_true, Bool.true_and]
          rw [← hmem]
          simp only [Core.isVoter, Core.peers] at hvoter
          rw [hvoter]
          rfl
        · simp [withSelf, hseen id hpeer hact]

/-- **Two windows contain a whole one**: behind the first check the flags are clear, and
    enough ticks are left for a second. -/
theorem Node.Reigns.quorum_of_windows (es : List Event) :
    ∀ {n : Node}, n.Reigns next term mem es → n.Sane → 0 < n.cfg.checkQuorumTicks →
      n.cfg.checkQuorumTicks + 1 ≤ ticks es →
      2 * n.cfg.checkQuorumTicks ≤ n.quorumElapsed + ticks es →
      mem.hasQuorum (withSelf n.cfg.id mem (n.contacts next es)) = true := by
  induction es with
  | nil => exact fun _ _ _ hle => absurd hle (Nat.not_succ_le_zero _)
  | cons e rest ih =>
    intro n hreign hsane hpos hone htwo
    obtain ⟨⟨hr, hterm, hmem⟩, hrest⟩ := hreign
    obtain ⟨hsane', hcfg⟩ := Node.handle_sane next hsane e
    obtain ⟨hr', -, hmem'⟩ := hrest.head
    -- What the rest of the run has had contact with, the whole run has.
    have hwiden (h : mem.hasQuorum (withSelf n.cfg.id mem ((n.handle next e).1.contacts next rest))
        = true) : mem.hasQuorum (withSelf n.cfg.id mem (n.contacts next (e :: rest))) = true := by
      refine Membership.hasQuorum_mono ?_ h
      intro id hid
      simp only [withSelf, Node.contacts, Bool.or_eq_true] at hid ⊢
      exact hid.imp_right .inr
    cases he : e.isTick with
    | false =>
      have hcount : ticks (e :: rest) = ticks rest := by simp [ticks, he]
      obtain ⟨hq, -⟩ := Node.handle_flags hr he hr'
      apply hwiden
      have hwin := ih hrest hsane' (hcfg ▸ hpos) (by rw [hcfg, ← hcount]; exact hone)
        (by rw [hcfg, hq, ← hcount]; exact htwo)
      rwa [hcfg] at hwin
    | true =>
      obtain rfl := Event.eq_tick he
      have hcount : ticks (.op .tick :: rest) = ticks rest + 1 := by simp [ticks, he]
      have hcfg' : (n.tickWith next).1.cfg = n.cfg := hcfg
      apply hwiden
      rcases Node.tick_check next hr with ⟨hlt, hq, -⟩ | ⟨hzero, hcleared, -⟩
      · have hwin := ih (n := (n.tickWith next).1) hrest hsane' (hcfg'.symm ▸ hpos)
          (by rw [hcfg']; omega) (by rw [hcfg', hq]; omega)
        rwa [hcfg'] at hwin
      -- The first check: nothing is flagged any more.
      have hwin := Node.Reigns.quorum_of_check rest (n := (n.tickWith next).1)
        (fun _ => false) hrest hsane' ?_ (by omega) (by rw [hcfg', hzero]; omega)
      · rw [hcfg'] at hwin
        simp only [Bool.false_or] at hwin
        exact hwin
      · intro id hid hact
        have hid' : id ∈ n.peers := by
          unfold Core.peers at hid ⊢
          rwa [show (n.tickWith next).1.membership = mem from hmem', ← hmem] at hid
        rw [hcleared id hid'] at hact
        cases hact

end Window

/-- **A leader without contact never survives two windows.**  In every run of a node built by
    `New`: if it stays leader of one term with one configuration from before a tick to after
    the `2 * CheckQuorumTicks`-th tick from that one, then the voters whose append or snapshot
    responses at that term it processed between these two ticks, together with itself if it is
    a voter, form a quorum of the configuration. -/
theorem leader_keeps_contact {cfg : Config} {hard : HardState} {entries : List Entry}
    {restored : Option Snapshot} {n₀ : Node} (hnew : Node.new cfg hard entries restored = .ok n₀)
    (next : ℕ → ℕ) (before between : List Event)
    (hticks : ticks between + 2 = 2 * cfg.checkQuorumTicks) (term : ℕ) (mem : Membership)
    (hreign : (n₀.handleAll next before).Reigns next term mem
      (.op .tick :: (between ++ [.op .tick]))) :
    mem.hasQuorum (withSelf cfg.id mem
      (((n₀.handleAll next before).handle next (.op .tick)).1.contacts next between)) = true := by
  obtain ⟨p, m, -, hcore⟩ := Node.new_spec hnew
  obtain ⟨hsane, hcfg⟩ := Node.handleAll_sane next (Node.new_sane hnew) before
  have hcfg₀ : n₀.cfg = { cfg with peers := p } := by rw [hcore]; rfl
  rw [hcfg₀] at hcfg
  generalize n₀.handleAll next before = n at hreign hsane hcfg ⊢
  have hid : n.cfg.id = cfg.id := by rw [hcfg]
  have hwindow : n.cfg.checkQuorumTicks = cfg.checkQuorumTicks := by rw [hcfg]
  have hcount : ticks (.op .tick :: (between ++ [.op .tick])) = 2 * cfg.checkQuorumTicks := by
    rw [← hticks]
    simp [ticks, List.countP_cons, Event.isTick]
  have hquorum := hreign.quorum_of_windows _ hsane (by omega) (by omega) (by omega)
  have hcontacts : n.contacts next (.op .tick :: (between ++ [.op .tick]))
      = (n.handle next (.op .tick)).1.contacts next between := by
    ext id
    simp [Node.contacts, Node.contact, Node.contacts_append]
  rwa [hid, hcontacts] at hquorum

omit [MembershipJson] in
/-- Two windows of two ticks less the first and the last: node 2 rejects an append in the
    first and acknowledges one in the second. -/
def contactEvents : List Event :=
  [.op (.step { type := .appendResponse, fromID := 2, toID := 1, term := 1, reject := true,
                rejectHint := 1 }),
   .op .tick,
   .op (.step { type := .appendResponse, fromID := 2, toID := 1, term := 1, logIndex := 1 }),
   .op .tick]

omit [MembershipJson] in
theorem leader_keeps_contact_pair :
    (@Node.handleAll tallyJson nextTerm64 pairNode
        (electionEvents ++ .op .tick :: (contactEvents ++ [.op .tick]))).role = .leader
      ∧ ({ voters := [1, 2] } : Membership).hasQuorum (withSelf 1 { voters := [1, 2] }
        (@Node.contacts tallyJson nextTerm64
          (@Node.handle tallyJson nextTerm64
            (@Node.handleAll tallyJson nextTerm64 pairNode electionEvents) (.op .tick)).1
          contactEvents)) = true :=
  ⟨by rfl, @leader_keeps_contact tallyJson pairConfig {} [] none pairNode rfl nextTerm64
    electionEvents contactEvents rfl 1 { voters := [1, 2] }
    ⟨⟨rfl, rfl, rfl⟩, ⟨rfl, rfl, rfl⟩, ⟨rfl, rfl, rfl⟩, ⟨rfl, rfl, rfl⟩, ⟨rfl, rfl, rfl⟩,
      ⟨rfl, rfl, rfl⟩, rfl, rfl, rfl⟩⟩

end Lsmdb.Raft

import Lsmdb.RaftNode.Mirror
import Lsmdb.RaftNode.Queues

namespace Lsmdb.RaftNode

open Lsmdb.Raft Lsmdb.RaftStore RaftNode.Runtime

/-!
# Raft runtime — durability over whole runs

Every event keeps the store a mirror of the node, as long as the node's 64-bit term does not
overflow; `store_mirrors_node` states it for runs.  Where it does overflow the runtime stops:
the first entry of the new leader has term zero and the store refuses it
(`term_overflow_refused`).
-/

variable {σ : Type} [MembershipJson] {env : Env σ} {r : Runtime σ}

/-! ### Handlers -/

/-- Everything the loop keeps between two events. -/
structure Runtime.Good (env : Env σ) (r : Runtime σ) : Prop where
  reliable : env.Reliable
  sound : r.TraceSound
  synced : Synced env r.node r.store r.machine

/-- An operation on a mirrored node, then its update. -/
theorem Runtime.operate_synced {inp : Input} {u : Update} {n : Node} (hd : env.Reliable)
    (hp : inp.Plain) (h : Synced env r.node r.store r.machine) (hf : Node.Follows inp r.node (n, u))
    (d : Option (Except String Bytes)) (r' : Runtime σ) (ht : r'.TraceSound) (hn : r'.node = n)
    (hs : r'.store = r.store) (hm : r'.machine = r.machine) :
    (r'.processUpdateWithSnapshot env u d).Ensures (Synced env) := by
  refine processUpdate_synced hd ht ?_ ?_ ?_ ?_
  · rw [hs, hn]
    exact Leads.of_path hp h.wf h.mirrors hf.path
  · rw [hn]; exact hf.path.wf hp h.wf
  · rw [hn]; exact hf.ok
  · rw [hm, hn]
    exact h.applied.trans (Path.effect hp h.wf hf.path).commit

omit [MembershipJson] in
theorem plain_message (m : Message) : (Input.message m).Plain := by
  intro commands h
  simp at h

theorem Synced.idle {inp : Input} {n : Node} {s : Stable} {m : σ} {n' : Node} (hp : inp.Plain)
    (h : Synced env n s m) (hf : Node.Follows inp n (n', {})) : Synced env n' s m :=
  ⟨(Leads.of_path hp h.wf h.mirrors hf.path).mirrors_empty, hf.path.wf hp h.wf, hf.ok,
    h.applied.trans (Path.effect hp h.wf hf.path).commit⟩

omit [MembershipJson] in
theorem plain_batch {batch : List Proposal}
    (h : ∀ p ∈ batch, hasMembershipPrefix p.data = false) :
    (Input.commands (batch.map Proposal.data)).Plain := by
  intro commands hc x hx
  simp only [Input.commands.injEq] at hc
  rw [← hc] at hx
  obtain ⟨p, hpm, rfl⟩ := List.mem_map.mp hx
  exact h p hpm

theorem Runtime.proposeBatch_synced {batch : List Proposal} (h : r.Good env)
    (hplain : ∀ p ∈ batch, hasMembershipPrefix p.data = false) :
    (r.proposeBatch env batch).Ensures (Synced env) := by
  have hp := plain_batch hplain
  unfold proposeBatch
  rcases Node.proposeBatch_follows h.synced.ok (batch.map Proposal.data) with
    ⟨e, heq⟩ | ⟨n', indexes, u, heq, hf⟩
  · rw [heq]
    refine ⟨h.sound.emit (fun o ho => ?_), fun _ => h.synced⟩
    obtain ⟨p, _, rfl⟩ := List.mem_map.mp ho
    trivial
  · rw [heq]
    dsimp only
    have haside := ({ r with node := n' } : Runtime σ).registerAll_aside batch indexes
    have hok : ({ r with node := n' } : Runtime σ).TraceSound := h.sound
    split
    · rename_i hlen
      -- nothing was appended, so the store has nothing to learn
      refine ⟨haside.sound hok, fun _ => ?_⟩
      show Synced env (registerAll _ _ _).node _ _
      rw [haside.node, haside.store, haside.machine]
      rw [Node.proposeBatch_nothing heq hlen]
      exact h.synced
    · exact operate_synced h.reliable hp h.synced hf.toFollows none _ (haside.sound hok) haside.node
        haside.store haside.machine

theorem Runtime.changeMembership_synced (voters : List ℕ) (result : ℕ) (h : r.Good env) :
    (r.changeMembership env voters result).Ensures (Synced env) := by
  have hp : (Input.voters voters).Plain := by
    intro commands hc
    simp at hc
  have hsound : ∀ (n : Node) (a : ProposalResult),
      (({ r with node := n } : Runtime σ).emit [.membership result a]).TraceSound := fun n a =>
    TraceSound.emit (r := { r with node := n }) h.sound (by simp [Output.Sound])
  unfold changeMembership
  rcases Node.proposeMembership_follows h.synced.ok voters with
    ⟨n', e, heq, hf⟩ | ⟨n', index, u, heq, hf⟩
  · rw [heq]
    exact ⟨hsound n' _, fun _ => h.synced.idle hp hf.toFollows⟩
  rw [heq]
  dsimp only
  split
  · rename_i hle
    obtain ⟨rfl, rfl⟩ := Node.proposeMembership_committed h.synced.wf.commit_hi heq hle
    exact ⟨hsound r.node _, fun _ => h.synced⟩
  · exact operate_synced h.reliable hp h.synced hf.toFollows none
      { r with node := n', membership := some ⟨voters, result⟩ } h.sound rfl rfl rfl

theorem Runtime.stepMessage_synced (event : Inbound) (h : r.Good env)
    (hterm : event.message.type = .preVote ∨ event.message.type = .preVoteResponse →
      env.nextTerm r.node.term = r.node.term + 1) :
    (r.stepMessage env event).Ensures (Synced env) := by
  have hf := Node.stepWith_follows hterm h.synced.ok
  have ho := operate_synced h.reliable (plain_message event.message) h.synced hf event.snapshotData
    { r with node := (r.node.stepWith env.nextTerm event.message).1 } h.sound rfl rfl rfl
  unfold stepMessage
  dsimp only
  split
  · have ha := acknowledgeRead_aside env event.message
      (processUpdateWithSnapshot env (r.node.stepWith env.nextTerm event.message).2
        event.snapshotData { r with node := (r.node.stepWith env.nextTerm event.message).1 }).1
    exact ho.aside (ha.trans (.answer rfl rfl rfl rfl (by simp [Output.Sound]))) id
  · exact ho.aside (.answer rfl rfl rfl rfl (by simp [Output.Sound])) id

theorem Runtime.probeReads_synced (results : List ℕ) (h : r.Good env) :
    (r.probeReads env results).Ensures (Synced env) := by
  have hp : (Input.probe (r.nextReadContext + 1)).Plain := by
    intro commands hc
    simp at hc
  unfold probeReads
  dsimp only
  rcases Node.readProbe_follows h.synced.ok (r.nextReadContext + 1) with
    ⟨e, heq⟩ | ⟨n', u, heq, hf, _⟩
  · rw [heq]
    exact ⟨TraceSound.emit h.sound (PendingRead.complete_sound _ _ _), fun _ => h.synced⟩
  rw [heq]
  refine (operate_synced h.reliable hp h.synced hf.toFollows none
    { r with
      nextReadContext := r.nextReadContext + 1
      node := n'
      pendingReads := (r.nextReadContext + 1, ⟨results, [r.node.cfg.id]⟩)
        :: without r.pendingReads (r.nextReadContext + 1) } h.sound rfl rfl rfl).andThen ?_
  intro r3 ht3 h3
  split
  · exact ⟨TraceSound.emit ht3 (PendingRead.complete_sound _ _ _), fun _ => h3⟩
  · exact ⟨ht3, fun _ => h3⟩

theorem Runtime.onTick_synced (h : r.Good env)
    (hterm : r.node.role ≠ .leader → env.nextTerm r.node.term = r.node.term + 1) :
    (r.onTick env).Ensures (Synced env) := by
  have hp : Input.tick.Plain := by
    intro commands hc
    simp at hc
  exact operate_synced h.reliable hp h.synced (Node.tickWith_follows .tick hterm h.synced.ok) none
    { r with node := (r.node.tickWith env.nextTerm).1 } h.sound rfl rfl rfl

/-! ### Groups of appends -/

/-- **Flushing while the node is ahead.**  The node has already taken `v`; after the flush `v`
    leads the store to the node, also when the flush compacted both. -/
theorem Runtime.flush_ahead (hd : env.Reliable) (r : Runtime σ) {merged v : Update} {waiting : List ℕ} {c : Core}
    {m : Message} (ht : r.TraceSound) (hl : Leads r.store merged none c) (hwf : c.WF)
    (ha : env.machine.appliedIndex r.machine ≤ c.commit)
    (hempty : waiting = [] → merged = {})
    (hpath : Path (.message m) c v r.node.toCore) (hv : v.OnlyReplies) (hok : r.node.Ok) :
    (r.flush env merged waiting).Ensures (fun n s machine => Leads s v none n.toCore
      ∧ n.toCore.WF ∧ n.Ok ∧ env.machine.appliedIndex machine ≤ n.commit) := by
  have hpl := plain_message m
  have hnwf := hpath.wf hpl hwf
  have hcm := (Path.effect hpl hwf hpath).commit
  unfold flush
  split
  · rename_i hw
    rw [hempty hw] at hl
    exact ⟨ht, fun _ => ⟨Leads.of_path hpl hwf hl.mirrors_empty hpath, hnwf, hok, ha.trans hcm⟩⟩
  refine Outcome.Ensures.aside (o := r.processUpdate env merged)
    (processUpdate_ensures hd ht ?_ ha ?_) (.answer rfl rfl rfl rfl ?_) id
  · rw [streamed_none]
    exact hl
  · -- the compaction, at a position the store has already committed
    intro r1 ht1 hn hm ha1
    unfold compactLog
    dsimp only
    have hok1 : r1.node.Ok := by rw [hn]; exact hok
    split
    · rename_i hcond
      rcases Node.createSnapshot_spec hok1 (env.machine.appliedIndex r1.machine) [] with
        ⟨n', e, heq, _⟩ | ⟨_, hle⟩ | ⟨n', snap, heq, hsi, htr, hok'⟩
      · rw [heq]
        exact ⟨ht1, by simp⟩
      · omega
      · rw [heq]
        dsimp only
        rw [stored_reliable hd, persistSnapshot_eq]
        rw [hn] at htr
        have hlead : ∀ bytes : Bytes, r1.store.Boundary snap
            ∧ Leads (r1.store.compacted snap bytes) v none n'.toCore := fun bytes =>
          Leads.compacted hpl hwf hm hpath hv htr (by rw [hsi]; exact ha1)
        have hb := (hlead []).1
        -- the store refuses only a writer that fails
        generalize hw : snapshotWriter env.machine r1.machine
          (env.machine.appliedIndex r1.machine) = w
        have hpers : ∀ bytes, w = .ok bytes → bytes.length ≤ maxSnapshotData →
            r1.store.persist { snapshot := some snap } (some w)
              = (r1.store.compacted snap bytes, none) := by
          intro bytes hwb hsz
          simp only [Stable.persist, Stable.persistHard, Stable.persistLog,
            Stable.persistInstall, Option.getD_some, hwb,
            Stable.installSnapshot_boundary hb hsz]
          simp [Stable.persistTruncate, Stable.append]
        have hcases : Excused { snapshot := some snap } (some w)
            ∨ ∃ bytes, w = .ok bytes ∧ bytes.length ≤ maxSnapshotData := by
          cases w with
          | error e => exact .inl (.inr ⟨snap, _, rfl, rfl⟩)
          | ok bytes =>
            by_cases hsz : bytes.length ≤ maxSnapshotData
            · exact .inr ⟨bytes, rfl, hsz⟩
            · exact .inl (.inr ⟨snap, _, rfl, if_pos (by omega)⟩)
        constructor
        · refine TraceSound.emit ht1 (fun o ho => ?_)
          rw [List.mem_singleton.mp ho]
          rcases hcases with hex | ⟨bytes, hwb, hsz⟩
          · cases (r1.store.persist { snapshot := some snap } (some w)).2 with
            | none => trivial
            | some e => exact hex
          · rw [hpers bytes hwb hsz]
            trivial
        · intro hnone
          simp only [Option.map_eq_none_iff] at hnone
          have hfit := Stable.persist_fits (u := { snapshot := some snap })
            (Prod.ext rfl hnone) (by
              intro sn hsn
              simp only [Option.some.injEq] at hsn
              rw [← hsn]
              exact hb.lo)
          obtain ⟨bytes, hwb, hsz⟩ := hfit.snapshot snap rfl
          simp only [Option.getD_some] at hwb
          have hpath2 := Path.single htr
          refine ⟨?_, hpath2.wf (plain_snapshot _ _) hnwf, hok', ?_⟩
          · show Leads (r1.store.persist { snapshot := some snap } (some w)).1 v none n'.toCore
            rw [hpers bytes hwb hsz]
            exact (hlead bytes).2
          · exact (ha1.trans hcm).trans (Path.effect (plain_snapshot _ _) hnwf hpath2).commit
    · refine ⟨ht1, fun _ => ?_⟩
      rw [hn]
      exact ⟨Leads.of_path hpl hwf hm hpath, hnwf, hok, ha1.trans hcm⟩
  · intro o ho
    obtain ⟨c, _, rfl⟩ := List.mem_map.mp ho
    trivial

/-- **A group of appends.**  The induction is on the group; what has been merged leads the
    store to the node, and an update that is not merged finds the store caught up. -/
theorem Runtime.stepAppends_synced (hd : env.Reliable) (group : List Inbound) :
    ∀ (merged : Update) (waiting : List ℕ) (r : Runtime σ), (∀ m ∈ group, m.IsAppend) →
      r.TraceSound → merged.Quiet → (waiting = [] → merged = {}) →
      Leads r.store merged none r.node.toCore → r.node.toCore.WF → r.node.Ok →
      env.machine.appliedIndex r.machine ≤ r.node.commit →
      (r.stepAppends env merged waiting group).Ensures (Synced env) := by
  induction group with
  | nil =>
    intro merged waiting r _ ht hq hempty hl hwf hok ha
    unfold stepAppends flush
    split
    · rename_i hw
      rw [hempty hw] at hl
      exact ⟨ht, fun _ => ⟨hl.mirrors_empty, hwf, hok, ha⟩⟩
    refine Outcome.Ensures.aside (o := r.processUpdate env merged)
      (processUpdate_synced hd ht ?_ hwf hok ha) (.answer rfl rfl rfl rfl ?_) id
    · rw [streamed_none]
      exact hl
    · intro o ho
      obtain ⟨c, _, rfl⟩ := List.mem_map.mp ho
      trivial
  | cons event rest ih =>
    intro merged waiting r hg ht hq hempty hl hwf hok ha
    have happ := (hg event (by simp)).1
    have hrest : ∀ m ∈ rest, m.IsAppend := fun m hm => hg m (by simp [hm])
    have hpl := plain_message event.message
    have hf : Node.Follows (.message event.message) r.node
        (r.node.stepWith env.nextTerm event.message) :=
      Node.stepWith_follows (fun h => by rcases h with h | h <;> rw [happ] at h <;> simp at h) hok
    have hrep := Node.stepWith_onlyReplies (n := r.node) env.nextTerm happ
    have hcm := (Path.effect hpl hwf hf.path).commit
    unfold stepAppends
    dsimp only
    split
    · rename_i hmerge
      have hv := (mergeable_quiet hmerge).1
      exact ih _ _ { r with node := (r.node.stepWith env.nextTerm event.message).1 } hrest ht
        (mergeAppend_quiet hq _) (fun h => absurd h (by simp)) (hl.merge hq hwf hpl hf.path hv)
        (hf.path.wf hpl hwf) hf.ok (ha.trans hcm)
    · have hfl := flush_ahead hd
        { r with node := (r.node.stepWith env.nextTerm event.message).1 } ht hl hwf ha hempty
        hf.path hrep hf.ok
      have hanswers : ∀ (l : List Inbound) (e : Option RuntimeError),
          ∀ o ∈ l.map (fun event => Output.step event.result e), o.Sound := by
        intro l e o ho
        obtain ⟨c, _, rfl⟩ := List.mem_map.mp ho
        trivial
      generalize hs : r.node.stepWith env.nextTerm event.message = s at *
      generalize flush env merged waiting { r with node := s.1 } = f at *
      split
      · exact ⟨hfl.sound.emit (hanswers _ _), by simp [failRest]⟩
      rename_i hnone
      obtain ⟨hl1, hwf1, hok1, ha1⟩ := hfl.holds hnone
      have hpu : (f.1.processUpdate env s.2).Ensures (Synced env) :=
        processUpdate_synced hd hfl.sound (by rw [streamed_none]; exact hl1) hwf1 hok1 ha1
      generalize f.1.processUpdate env s.2 = o at *
      have hsound : (o.1.emit [.step event.result o.2]).TraceSound :=
        hpu.sound.emit (by simp [Output.Sound])
      split
      · exact ⟨hsound.emit (hanswers _ _), by simp [failRest]⟩
      · rename_i hnone2
        have hsy := hpu.holds hnone2
        exact ih {} [] _ hrest hsound ⟨rfl, rfl, rfl⟩ (fun _ => rfl) (.refl hsy.mirrors)
          hsy.wf hsy.ok hsy.applied

/-! ### Runs -/

section
omit [MembershipJson]

/-- The client data that waits does not carry the configuration prefix. -/
def Runtime.PlainQueues (r : Runtime σ) : Prop :=
  ∀ p, Event.proposal p ∈ r.deferred ++ r.events → hasMembershipPrefix p.data = false

/-- **No term overflow**: a tick of a node that may campaign, or a pre-vote message, is handled
    before the last 64-bit term. -/
def Runtime.NoOverflow (r : Runtime σ) : Action → Prop
  | .enqueue _ => True
  | .tick => r.node.role ≠ .leader → r.node.term + 1 < 2 ^ 64
  | .next => ∀ event, (r.deferred ++ r.events).head? = some (.message event) →
      event.message.type = .preVote ∨ event.message.type = .preVoteResponse →
      r.node.term + 1 < 2 ^ 64

theorem nextTerm64_of_lt {t : ℕ} (h : t + 1 < 2 ^ 64) : nextTerm64 t = t + 1 :=
  Nat.mod_eq_of_lt h

end

/-- **Handling an event** keeps the mirror. -/
theorem Runtime.handle_synced {event : Event} (henv : env.nextTerm = nextTerm64)
    (h : r.Good env) (hq : r.PlainQueues)
    (hp : ∀ p, event = .proposal p → hasMembershipPrefix p.data = false)
    (hterm : ∀ m, event = .message m →
      m.message.type = .preVote ∨ m.message.type = .preVoteResponse → r.node.term + 1 < 2 ^ 64) :
    (r.handle env event).Ensures (Synced env) := by
  refine handle_cases env (C := fun o => o.Ensures (Synced env)) ?_ ?_ ?_ ?_ ?_ ?_ ?_
  · intro batch deferred events hperm
    exact proposeBatch_synced (r := { r with deferred := deferred, events := events })
      ⟨h.reliable, h.sound, h.synced⟩ (forall_mem_batch hperm hp hq)
  · exact fun voters result _ => changeMembership_synced voters result h
  · intro group deferred events happ _
    exact stepAppends_synced h.reliable _ {} [] { r with deferred := deferred, events := events }
      happ h.sound ⟨rfl, rfl, rfl⟩ (fun _ => rfl) (.refl h.synced.mirrors) h.synced.wf h.synced.ok
      h.synced.applied
  · intro m hm
    refine stepMessage_synced m h (fun ht => ?_)
    rw [henv]
    exact nextTerm64_of_lt (hterm m hm ht)
  · exact fun _ _ => ⟨h.sound.emit (by simp [Output.Sound]), fun _ => h.synced⟩
  · intro results deferred events _
    exact probeReads_synced _ (r := { r with deferred := deferred, events := events })
      ⟨h.reliable, h.sound, h.synced⟩
  · exact fun _ _ =>
      ⟨TraceSound.emit h.sound (by simp [Output.Sound]), fun _ => h.synced⟩

/-- What holds of a runtime between two actions. -/
structure Runtime.Steady (env : Env σ) (r : Runtime σ) : Prop where
  reliable : env.Reliable
  plain : r.PlainQueues
  sound : r.TraceSound
  synced : r.stopped = false → Synced env r.node r.store r.machine

/-- An error ends the loop with a sound trace. -/
private theorem Outcome.Ensures.steady {o : Outcome σ} (hd : env.Reliable)
    (h : o.Ensures (Synced env)) (hq : ∀ p, Event.proposal p ∈ o.1.deferred ++ o.1.events → hasMembershipPrefix p.data = false) :
    o.settle.Steady env := by
  unfold Outcome.settle
  split
  · rename_i hnone
    exact ⟨hd, hq, h.sound, fun _ => h.holds hnone⟩
  · rename_i e _
    exact ⟨hd, hq, (o.1.dropWaiters_aside e).sound h.sound, fun hs => by simp [fail] at hs⟩

/-- **One action** keeps the runtime steady. -/
theorem Runtime.Steady.act (henv : env.nextTerm = nextTerm64) (h : r.Steady env) {a : Action}
    (hp : ∀ p, a = .enqueue (.proposal p) → hasMembershipPrefix p.data = false)
    (hterm : r.NoOverflow a) : (r.act env a).Steady env := by
  refine act_cases env h ?_ ?_ ?_
  · rintro event rfl
    refine ⟨h.reliable, fun p hm => ?_, h.sound, h.synced⟩
    rcases List.mem_append.mp hm with hm | hm
    · exact h.plain p (List.mem_append_left _ hm)
    · rcases List.mem_append.mp hm with hm | hm
      · exact h.plain p (List.mem_append_right _ hm)
      · exact hp p (by rw [List.mem_singleton.mp hm])
  · rintro rfl hrun
    have hsame := processUpdate_sameQueues env (r.node.tickWith env.nextTerm).2 none
      { r with node := (r.node.tickWith env.nextTerm).1 }
    refine Outcome.Ensures.steady h.reliable
      (onTick_synced ⟨h.reliable, h.sound, h.synced hrun⟩ (fun hr => ?_)) (fun p hm => ?_)
    · rw [henv]
      exact nextTerm64_of_lt (hterm hr)
    · rw [show (r.onTick env).1.deferred = r.deferred from hsame.deferred,
        show (r.onTick env).1.events = r.events from hsame.events] at hm
      exact h.plain p hm
  · rintro rfl hrun event r₁ hpop
    have hmem : event ∈ r.deferred ++ r.events := List.mem_of_mem_head? (pop_head hpop)
    have hgood : r₁.Good env := by
      rw [(pop_spec hpop).2]
      exact ⟨h.reliable, h.sound, h.synced hrun⟩
    refine Outcome.Ensures.steady h.reliable (handle_synced henv hgood
      (fun p hp => h.plain p (pop_sub hpop _ hp)) (fun p hpe => h.plain p (hpe ▸ hmem))
      (fun m hme ht => ?_)) (fun p hpe => ?_)
    · rw [(pop_spec hpop).2]
      exact hterm m (hme ▸ pop_head hpop) ht
    · exact h.plain p (pop_waiting env hpop _ hpe)

theorem Boots.synced {cfg : Config} (h : Boots env cfg r) :
    Synced env r.node r.store r.machine := by
  obtain ⟨p, m, hr, hcore⟩ := Node.new_spec h.node
  simp only [Option.getD_some] at hr hcore
  have hwf := hr.wf r.store.hard
  rw [← hcore] at hwf
  refine ⟨⟨?_, ?_, ?_⟩, hwf, ?_, ?_⟩
  · rw [hcore]
    rfl
  · rw [hcore]
    show r.store.snapshot = { r.store.snapshot with data := [] }
    rw [← h.metadata]
  · rw [hcore]
    rfl
  · exact .of_role_ne hwf.commit_lo (by rw [hcore]; simp [restoredCore])
  · rw [hcore, ← h.applied]
    exact Nat.le_refl _

theorem Boots.plain {cfg : Config} (h : Boots env cfg r) : r.PlainQueues := by
  intro p hm
  rw [h.deferred, h.events] at hm
  simp at hm

theorem Starts.steady {cfg : Config} (h : Starts env cfg r) : r.Steady env := by
  refine ⟨h.reliable, h.plain, fun o ho => ?_, fun _ => h.synced⟩
  rw [h.trace] at ho
  simp at ho

theorem Runtime.Steady.run (henv : env.nextTerm = nextTerm64) (h : r.Steady env)
    (actions : List Action)
    (hp : ∀ p, Action.enqueue (.proposal p) ∈ actions → hasMembershipPrefix p.data = false)
    (hterm : ∀ k a, actions[k]? = some a → (r.run env (actions.take k)).NoOverflow a) :
    (r.run env actions).Steady env := by
  refine run_induct env (C := fun r a => r.NoOverflow a
    ∧ ∀ p, a = .enqueue (.proposal p) → hasMembershipPrefix p.data = false)
    (fun r a hr hc => Steady.act henv hr hc.2 hc.1) h actions (fun k a hk => ?_)
  refine ⟨hterm k a hk, fun p he => hp p ?_⟩
  rw [← he]
  exact List.mem_of_getElem? hk

/-! ### Durability -/

/-- **The store can stand in for the node**: no update was refused, every message reflected
    what the store held when it was sent, and until the runtime stops the store mirrors the
    node and rebuilds it at any applied index it may have. -/
structure Runtime.Durable (r : Runtime σ) : Prop where
  accepted : ∀ u d e, Output.persist u d (some e) ∈ r.trace → Excused u d
  backed : ∀ m s, Output.send m s ∈ r.trace → s.Backs m
  mirrors : r.stopped = false → Mirrors r.store r.node.toCore
  restores : r.stopped = false → ∀ cfg : Config, cfg.validate = .ok () →
    normalizeVoters cfg.peers = .ok r.node.cfg.peers →
    r.store.snapshot.index ≤ cfg.appliedIndex → cfg.appliedIndex ≤ r.node.commit →
    ∃ n, Node.new cfg r.store.hard r.store.entries (some r.store.snapshot) = .ok n
      ∧ n.term = r.node.term ∧ n.votedFor = r.node.votedFor ∧ n.log = r.node.log
      ∧ n.snapshot = { r.node.snapshot with data := [] } ∧ n.membership = r.node.membership

theorem Runtime.Steady.durable (h : r.Steady env) : r.Durable := by
  refine ⟨fun u d e hm => h.sound _ hm, fun m s hm => h.sound _ hm,
    fun hs => (h.synced hs).mirrors, fun hs cfg hv hpeers hlo hhi => ?_⟩
  obtain ⟨hmir, hwf, _, _⟩ := h.synced hs
  have hsi : r.store.snapshot.index = r.node.snapshot.index := by rw [hmir.snapshot]
  have hres := hwf.restores hv hpeers (by rw [← hsi]; exact hlo) hhi hsi
    (by rw [hmir.snapshot]) (by rw [hmir.snapshot]) (fun _ => by rw [hmir.snapshot])
  rw [← hmir.entries] at hres
  obtain ⟨n, hn, hcore⟩ :=
    @Node.new_ok _ cfg r.store.hard r.store.entries (some r.store.snapshot) _ _ hres
  refine ⟨n, hn, ?_, ?_, ?_, ?_, ?_⟩
  · rw [hcore, hmir.hard]; rfl
  · rw [hcore, hmir.hard]; rfl
  · rw [hcore]; exact hmir.entries
  · rw [hcore]; exact hmir.snapshot
  · rw [hcore]; rfl

/-- **The durable store mirrors the Raft core** over every run of a runtime in which no term
    overflows. -/
theorem store_mirrors_node {cfg : Config} (henv : env.nextTerm = nextTerm64)
    (hstart : Starts env cfg r) (actions : List Action)
    (hplain : ∀ p, Action.enqueue (.proposal p) ∈ actions → hasMembershipPrefix p.data = false)
    (hterm : ∀ k a, actions[k]? = some a → (r.run env (actions.take k)).NoOverflow a) :
    (r.run env actions).Durable :=
  (hstart.steady.run henv actions hplain hterm).durable

/-! A runtime that elects itself and commits a proposal, and one whose term overflows. -/

/-- A machine that keeps its applied index. -/
def tally : StateMachine ℕ where
  appliedIndex := id
  apply _ index _ := .ok index
  writeSnapshot s := .ok (s, [])
  restoreSnapshot _ index _ := .ok index
  close _ := none
  apply_index := by
    intro s s' index command _ h
    exact (Except.ok.inj h).symm
  restore_index := by
    intro s s' index data h
    exact (Except.ok.inj h).symm

/-- Compacts after every second entry, on 64-bit terms. -/
def tallyEnv : Env ℕ :=
  { machine := tally, snapshotThreshold := 2, nextTerm := nextTerm64 }

/-- Node 1 among the given voters. -/
def firstConfig (voters : List ℕ) : Config :=
  { id := 1, peers := voters, electionTickMin := 2, electionTickMax := 3, heartbeatTicks := 1,
    checkQuorumTicks := 2 }

/-- The runtime of node 1 on an empty store. -/
def firstRuntime (voters : List ℕ) (h : (@Node.new unaryJson (firstConfig voters) {} []
    (some {})).toOption.isSome) : Runtime ℕ :=
  { node := (@Node.new unaryJson (firstConfig voters) {} [] (some {})).toOption.get h
    store := {}
    machine := 0 }

omit [MembershipJson] in
private theorem eq_ok_get {ε α : Type} (x : Except ε α) (h : x.toOption.isSome) :
    x = .ok (x.toOption.get h) := by
  cases x with
  | error e => simp [Except.toOption] at h
  | ok a => rfl

omit [MembershipJson] in
theorem firstRuntime_starts (voters : List ℕ)
    (h : (@Node.new unaryJson (firstConfig voters) {} [] (some {})).toOption.isSome) :
    @Starts ℕ unaryJson tallyEnv (firstConfig voters) (firstRuntime voters h) := by
  refine @Starts.mk ℕ unaryJson tallyEnv (firstConfig voters) _
    (@Boots.mk ℕ unaryJson tallyEnv (firstConfig voters) _ ?_ rfl rfl rfl rfl rfl rfl rfl rfl
      rfl rfl) (fun _ => rfl)
  exact eq_ok_get (@Node.new unaryJson (firstConfig voters) {} [] (some {})) h

/-- Two ticks make the only voter leader; then it takes a proposal. -/
def proposeActions : List Action :=
  [.tick, .tick, .enqueue (.proposal ⟨[7], 0⟩), .next]

omit [MembershipJson] in
/-- The only voter commits the proposal, compacts, and its store mirrors it throughout. -/
theorem store_mirrors_node_solo :
    (@Runtime.run ℕ unaryJson tallyEnv (firstRuntime [1] rfl) proposeActions).store.snapshot.index
        = 2
      ∧ @Runtime.Durable ℕ unaryJson
        (@Runtime.run ℕ unaryJson tallyEnv (firstRuntime [1] rfl) proposeActions) := by
  refine ⟨by rfl, ?_⟩
  refine @store_mirrors_node ℕ unaryJson tallyEnv _ (firstConfig [1]) rfl
    (firstRuntime_starts [1] rfl) proposeActions ?_ ?_
  · intro p hp
    simp only [proposeActions, List.mem_cons, reduceCtorEq, Action.enqueue.injEq,
      Event.proposal.injEq, List.not_mem_nil, or_false, false_or] at hp
    rw [hp]
    decide
  · intro k a hk
    match k with
    | 0 => rw [← Option.some.inj hk]; exact fun _ => by decide
    | 1 => rw [← Option.some.inj hk]; exact fun _ => by decide
    | 2 => rw [← Option.some.inj hk]; trivial
    | 3 =>
      rw [← Option.some.inj hk]
      -- the queue holds a proposal, so neither way of receiving a message applies
      rintro event (hev | ⟨_, hev⟩)
    | k + 4 => simp [proposeActions] at hk

/-- A vote request at the last term, two ticks, and answers at the term after it. -/
def overflowActions : List Action :=
  [.enqueue (.message { message := { type := .vote, fromID := 2, toID := 1, term := 2 ^ 64 - 1 }
                        result := 0 }), .next, .tick, .tick,
   .enqueue (.message { message := { type := .preVoteResponse, fromID := 2, toID := 1, term := 0 }
                        result := 1 }), .next,
   .enqueue (.message { message := { type := .voteResponse, fromID := 2, toID := 1, term := 0 }
                        result := 2 }), .next]

omit [MembershipJson] in
/-- **A term overflow stops the runtime**: the leader of term zero appends an entry that the
    store refuses. -/
theorem term_overflow_refused :
    (∀ p, Action.enqueue (.proposal p) ∉ overflowActions)
      ∧ (∀ event, Action.enqueue (.message event) ∈ overflowActions →
        event.message.logIndex = 0 ∧ event.message.entries = [] ∧ event.message.snapshot = none)
      ∧ ¬ @Runtime.Durable ℕ unaryJson
        (@Runtime.run ℕ unaryJson tallyEnv (firstRuntime [1, 2] rfl) overflowActions) := by
  refine ⟨?_, ?_, fun h => ?_⟩
  · intro p hp
    simp [overflowActions] at hp
  · intro event he
    simp only [overflowActions, List.mem_cons, reduceCtorEq, Action.enqueue.injEq,
      Event.message.injEq, List.not_mem_nil, or_false, false_or] at he
    rcases he with rfl | rfl | rfl <;> exact ⟨rfl, rfl, rfl⟩
  · -- the last persist carries the entry of term zero
    obtain ⟨u, e, hm, hentries, hsnap⟩ : ∃ u e, Output.persist u none (some e)
        ∈ (@Runtime.run ℕ unaryJson tallyEnv (firstRuntime [1, 2] rfl) overflowActions).trace
        ∧ u.entries = [{ index := 1, term := 0 }] ∧ u.snapshot = none :=
      ⟨_, _, List.mem_of_getElem? (i := 9) rfl, rfl, rfl⟩
    rcases @Runtime.Durable.accepted ℕ unaryJson _ h u none e hm with
      ⟨x, hx, hpre, _⟩ | ⟨s, _, hs, _⟩
    · rw [hentries, List.mem_singleton] at hx
      rw [hx] at hpre
      exact absurd hpre (by decide)
    · rw [hsnap] at hs
      exact absurd hs (by simp)

end Lsmdb.RaftNode

import Lsmdb.RaftNode.Leads

namespace Lsmdb.RaftNode

open Lsmdb.Raft Lsmdb.RaftStore RaftNode.Runtime

/-!
# Raft runtime — the store mirrors the node

Every handler of the loop keeps `Synced`, the store mirrors the node, and
`Runtime.TraceSound`, no persist was refused without an excuse and every message was backed
by the store.  The stages of `processUpdate` are chained by `Outcome.Ensures`, which keeps the
trace in any case and its other claim unless the loop ends.
-/

variable {σ : Type}

/-! ### Sound traces -/

/-- What a trace entry must satisfy. -/
def Output.Sound : Output → Prop
  | .persist u d (some _) => Excused u d
  | .send m s => s.Backs m
  | _ => True

/-- Every entry of the trace is sound. -/
def Runtime.TraceSound (r : Runtime σ) : Prop := ∀ o ∈ r.trace, o.Sound

theorem Runtime.TraceSound.emit {r : Runtime σ} (h : r.TraceSound) {os : List Output}
    (hos : ∀ o ∈ os, o.Sound) : (r.emit os).TraceSound := by
  intro o ho
  rcases List.mem_append.mp ho with ho | ho
  · exact h o ho
  · exact hos o ho

/-- `r'` differs from `r` in what callers are told and in the queues only. -/
structure Runtime.Aside (r r' : Runtime σ) : Prop where
  node : r'.node = r.node
  store : r'.store = r.store
  machine : r'.machine = r.machine
  sound : r.TraceSound → r'.TraceSound

theorem Runtime.Aside.refl (r : Runtime σ) : r.Aside r := ⟨rfl, rfl, rfl, id⟩

theorem Runtime.Aside.trans {r r' r'' : Runtime σ} (h : r.Aside r') (h' : r'.Aside r'') :
    r.Aside r'' :=
  ⟨h'.node.trans h.node, h'.store.trans h.store, h'.machine.trans h.machine,
    fun hs => h'.sound (h.sound hs)⟩

/-- Answering callers, with changed tables of who waits. -/
theorem Runtime.Aside.answer {r r' : Runtime σ} {os : List Output} (hn : r'.node = r.node)
    (hs : r'.store = r.store) (hm : r'.machine = r.machine) (ht : r'.trace = r.trace)
    (hos : ∀ o ∈ os, o.Sound) : r.Aside (r'.emit os) := by
  refine ⟨hn, hs, hm, fun h => TraceSound.emit ?_ hos⟩
  unfold TraceSound
  rw [ht]
  exact h

theorem PendingRead.complete_sound (read : PendingRead) (answer : ReadResult) (applied : ℕ) :
    ∀ o ∈ read.complete answer applied, o.Sound := by
  intro o ho
  obtain ⟨c, _, rfl⟩ := List.mem_map.mp ho
  trivial

theorem Runtime.dropWaiters_aside (r : Runtime σ) (cause : RuntimeError) :
    r.Aside (r.dropWaiters cause) := by
  unfold dropWaiters
  refine Aside.answer rfl rfl rfl rfl (fun o ho => ?_)
  rcases List.mem_append.mp ho with ho | ho
  · rcases List.mem_append.mp ho with ho | ho
    · obtain ⟨m, _, rfl⟩ := List.mem_map.mp ho
      trivial
    · obtain ⟨p, _, rfl⟩ := List.mem_map.mp ho
      trivial
  · obtain ⟨p, _, ho⟩ := List.mem_flatMap.mp ho
    exact p.2.complete_sound _ _ o ho

theorem Runtime.complete_aside (r : Runtime σ) (entry : Entry) : r.Aside (r.complete entry) := by
  unfold complete
  split
  · exact .refl r
  · exact Aside.answer rfl rfl rfl rfl (by simp [Output.Sound])

theorem Runtime.resolveMembership_aside (env : Env σ) (r : Runtime σ) :
    r.Aside (r.resolveMembership env) := by
  unfold resolveMembership
  split
  · exact .refl r
  · dsimp only
    split
    · exact .refl r
    · exact Aside.answer rfl rfl rfl rfl (by simp [Output.Sound])

theorem Runtime.cleanup_aside (r : Runtime σ) (u : Update) : r.Aside (r.cleanup u) := by
  unfold cleanup
  split
  · exact r.dropWaiters_aside _
  · exact .refl r

theorem Runtime.registerAll_aside (batch : List Proposal) :
    ∀ (r : Runtime σ) (indexes : List ℕ), r.Aside (r.registerAll batch indexes) := by
  induction batch with
  | nil => intro r indexes; exact .refl r
  | cons p batch ih =>
    intro r indexes
    cases indexes with
    | nil => exact .refl r
    | cons index indexes =>
      have hreg : r.Aside (r.register p index) := by
        unfold register
        split <;> exact Aside.answer rfl rfl rfl rfl (by simp [Output.Sound])
      exact hreg.trans (ih _ indexes)

theorem Runtime.acknowledgeRead_aside (env : Env σ) (m : Message) (r : Runtime σ) :
    r.Aside (r.acknowledgeRead env m) := by
  unfold acknowledgeRead
  split
  · exact .refl r
  split
  · exact .refl r
  · dsimp only
    split
    · exact ⟨rfl, rfl, rfl, id⟩
    · exact Aside.answer rfl rfl rfl rfl (PendingRead.complete_sound _ _ _)

/-! ### Chaining the stages of an update -/

/-- The trace is sound, and `P` holds of node, store and machine unless the loop ends. -/
structure Outcome.Ensures (o : Outcome σ) (P : Node → Stable → σ → Prop) : Prop where
  sound : o.1.TraceSound
  holds : o.2 = none → P o.1.node o.1.store o.1.machine

variable {P Q : Node → Stable → σ → Prop} {o : Outcome σ}

theorem Outcome.Ensures.andThen (h : o.Ensures P) {f : Runtime σ → Outcome σ}
    (hf : ∀ r : Runtime σ, r.TraceSound → P r.node r.store r.machine → (f r).Ensures Q) :
    (o.andThen f).Ensures Q := by
  unfold Outcome.andThen
  cases he : o.2 with
  | none => exact hf o.1 h.sound (h.holds he)
  | some e => exact ⟨h.sound, fun hn => by rw [he] at hn; simp at hn⟩

theorem Outcome.Ensures.aside (h : o.Ensures P) {r : Runtime σ} {e : Option RuntimeError}
    (ha : o.1.Aside r) (he : e = none → o.2 = none) : Outcome.Ensures (r, e) P := by
  refine ⟨ha.sound h.sound, fun hn => ?_⟩
  show P r.node r.store r.machine
  rw [ha.node, ha.store, ha.machine]
  exact h.holds (he hn)

variable {env : Env σ} {r : Runtime σ} {u : Update} {d : Option (Except String Bytes)} {c : Core}

/-- The stream reaches the store only with a snapshot. -/
def streamed (u : Update) (d : Option (Except String Bytes)) : Option (Except String Bytes) :=
  if u.snapshot.isSome then d else none

theorem streamed_none (u : Update) : streamed u none = none := by
  unfold streamed
  split <;> rfl

/-- A call that succeeded did what the store does. -/
theorem Runtime.stored_ok {p : Stable × Option String} (h : (r.stored env p).2 = none) :
    r.stored env p = p := by
  unfold stored at h ⊢
  split
  · rfl
  · rename_i e he
    rw [he] at h
    simp at h

theorem Runtime.stored_reliable (hd : env.Reliable) (p : Stable × Option String) :
    r.stored env p = p := by
  unfold stored
  rw [hd]

theorem Runtime.persistUpdate_eq (env : Env σ) (r : Runtime σ) (u : Update)
    (d : Option (Except String Bytes)) :
    r.persistUpdate env u d
      = ({ r with store := (r.stored env (r.store.persist u (streamed u d))).1 }.emit
          [.persist u (streamed u d) (r.stored env (r.store.persist u (streamed u d))).2],
        (r.stored env (r.store.persist u (streamed u d))).2.map
          (fun e => .failed s!"persist raft update: {e}")) := by
  have hsnapshot : ∀ w, streamed u d = some w →
      r.store.persistSnapshot u w = r.store.persist u (some w) := by
    intro w hw
    unfold Stable.persistSnapshot
    rw [if_neg]
    intro hnone
    simp [streamed, hnone] at hw
  unfold persistUpdate
  cases hs : streamed u d with
  | none =>
    rw [streamed] at hs
    rw [hs]
  | some w =>
    rw [← hsnapshot w hs]
    rw [streamed] at hs
    rw [hs]

/-- **Persisting** an update that leads to `c`. -/
theorem Runtime.persistUpdate_ensures (hd : env.Reliable) (ht : r.TraceSound)
    (hl : Leads r.store u (streamed u d) c) :
    (r.persistUpdate env u d).Ensures (fun n s m => n = r.node ∧ Mirrors s c ∧ m = r.machine) := by
  rw [persistUpdate_eq, stored_reliable hd]
  constructor
  · refine TraceSound.emit ht (fun o ho => ?_)
    rw [List.mem_singleton.mp ho]
    cases he : (r.store.persist u (streamed u d)).2 with
    | none => trivial
    | some e => exact hl.refused he
  · intro hn
    simp only [Option.map_eq_none_iff] at hn
    exact ⟨rfl, hl.mirrors (Prod.ext rfl hn), rfl⟩

/-- **Restoring** the machine from a new snapshot. -/
theorem Runtime.restoreMachine_ensures (ht : r.TraceSound)
    (ha : env.machine.appliedIndex r.machine ≤ c.commit)
    (hs : ∀ snap, u.snapshot = some snap → snap.index ≤ c.commit) :
    (r.restoreMachine env u).Ensures (fun n s m => n = r.node ∧ s = r.store
      ∧ env.machine.appliedIndex m ≤ c.commit) := by
  unfold restoreMachine
  cases hsn : u.snapshot with
  | none => exact ⟨ht, fun _ => ⟨rfl, rfl, ha⟩⟩
  | some snap =>
    dsimp only
    split
    · split
      · exact ⟨ht, by simp⟩
      · split
        · exact ⟨ht, by simp⟩
        · rename_i machine hr
          refine ⟨ht, fun _ => ⟨rfl, rfl, ?_⟩⟩
          show env.machine.appliedIndex machine ≤ c.commit
          rw [env.machine.restore_index hr]
          exact hs snap hsn
    · exact ⟨ht, fun _ => ⟨rfl, rfl, ha⟩⟩

section Codec
variable [MembershipJson]

theorem Runtime.applyEntry_ensures {entry : Entry} (ht : r.TraceSound)
    (ha : env.machine.appliedIndex r.machine ≤ c.commit) (he : entry.index ≤ c.commit) :
    (r.applyEntry env entry).Ensures (fun n s m => n = r.node ∧ s = r.store
      ∧ env.machine.appliedIndex m ≤ c.commit) := by
  unfold applyEntry
  dsimp only
  split
  · have hc := r.complete_aside entry
    refine ⟨hc.sound ht, fun _ => ⟨hc.node, hc.store, ?_⟩⟩
    show env.machine.appliedIndex (r.complete entry).machine ≤ c.commit
    rw [hc.machine]
    exact ha
  · split
    · exact ⟨ht, by simp⟩
    · rename_i hidx
      split
      · exact ⟨ht, by simp⟩
      split
      · exact ⟨ht, by simp⟩
      rename_i machine hap
      have hc := ({ r with machine := machine } : Runtime σ).complete_aside entry
      refine ⟨hc.sound ht, fun _ => ⟨hc.node, hc.store, ?_⟩⟩
      show env.machine.appliedIndex (complete { r with machine := machine } entry).machine
        ≤ c.commit
      rw [hc.machine]
      show env.machine.appliedIndex machine ≤ c.commit
      rw [env.machine.apply_index (by simpa using hidx) hap]
      exact he

theorem Runtime.applyCommitted_ensures (entries : List Entry) (he : ∀ e ∈ entries, e.index ≤ c.commit) :
    ∀ r : Runtime σ, r.TraceSound → env.machine.appliedIndex r.machine ≤ c.commit →
      (r.applyCommitted env entries).Ensures (fun n s m => n = r.node ∧ s = r.store
        ∧ env.machine.appliedIndex m ≤ c.commit) := by
  induction entries with
  | nil => intro r ht ha; exact ⟨ht, fun _ => ⟨rfl, rfl, ha⟩⟩
  | cons entry rest ih =>
    intro r ht ha
    refine (applyEntry_ensures ht ha (he entry (by simp))).andThen ?_
    rintro r1 ht1 ⟨hn, hs, ha1⟩
    obtain ⟨h1, h2⟩ := ih (fun e hm => he e (by simp [hm])) r1 ht1 ha1
    refine ⟨h1, fun hnone => ?_⟩
    obtain ⟨h3, h4, h5⟩ := h2 hnone
    exact ⟨h3.trans hn, h4.trans hs, h5⟩

/-- **Processing an update** that leads to `c`: what the compaction at the end makes of the
    mirror is left to the caller, because the node may already be ahead of `c`. -/
theorem Runtime.processUpdate_ensures (hd : env.Reliable) (ht : r.TraceSound)
    (hl : Leads r.store u (streamed u d) c) (ha : env.machine.appliedIndex r.machine ≤ c.commit)
    (hcompact : ∀ r1 : Runtime σ, r1.TraceSound → r1.node = r.node → Mirrors r1.store c →
      env.machine.appliedIndex r1.machine ≤ c.commit → (r1.compactLog env).Ensures P) :
    (r.processUpdateWithSnapshot env u d).Ensures P := by
  unfold processUpdateWithSnapshot
  refine (persistUpdate_ensures hd ht hl).andThen ?_
  rintro r1 ht1 ⟨hn1, hm1, hmach1⟩
  refine (restoreMachine_ensures ht1 (by rw [hmach1]; exact ha) hl.snapshot).andThen ?_
  rintro r2 ht2 ⟨hn2, hs2, ha2⟩
  -- messages go out after the store holds what they reflect
  have hm2 : Mirrors r2.store c := by rw [hs2]; exact hm1
  have hsend : (r2.sendMessages u).Ensures (fun n s m => n = r2.node ∧ s = r2.store
      ∧ m = r2.machine) := by
    refine ⟨ht2.emit (fun o ho => ?_), fun _ => ⟨rfl, rfl, rfl⟩⟩
    obtain ⟨m, hm, rfl⟩ := List.mem_map.mp ho
    exact hm2.backs (hl.backs m hm)
  refine hsend.andThen ?_
  rintro r3 ht3 ⟨hn3, hs3, hmach3⟩
  refine (applyCommitted_ensures u.committed hl.committed r3 ht3
    (by rw [hmach3]; exact ha2)).andThen ?_
  rintro r4 ht4 ⟨hn4, hs4, ha4⟩
  refine (hcompact r4 ht4 (by rw [hn4, hn3, hn2, hn1]) (by rw [hs4, hs3]; exact hm2) ha4).andThen ?_
  intro r5 ht5 hp5
  have haside := (r5.resolveMembership_aside env).trans (cleanup_aside _ u)
  refine ⟨haside.sound ht5, fun _ => ?_⟩
  show P (cleanup _ u).node _ _
  rw [haside.node, haside.store, haside.machine]
  exact hp5

/-! ### Compaction -/

/-- **The store mirrors the node**, and the machine is not ahead of it. -/
structure Synced (env : Env σ) (n : Node) (s : Stable) (m : σ) : Prop where
  mirrors : Mirrors s n.toCore
  wf : n.toCore.WF
  ok : n.Ok
  applied : env.machine.appliedIndex m ≤ n.commit

omit [MembershipJson] in
theorem plain_snapshot (index : ℕ) (data : Bytes) : (Input.snapshot index data).Plain := by
  intro commands h
  simp at h

omit [MembershipJson] in
theorem persistSnapshot_eq (s : Stable) (snap : Snapshot) (w : Except String Bytes) :
    s.persistSnapshot { snapshot := some snap } w
      = s.persist { snapshot := some snap } (some w) := by
  unfold Stable.persistSnapshot
  rw [if_neg (by simp)]

/-- **Compacting** a node that the store mirrors. -/
theorem Runtime.compactLog_synced (hd : env.Reliable) (ht : r.TraceSound)
    (h : Synced env r.node r.store r.machine) :
    (r.compactLog env).Ensures (Synced env) := by
  unfold compactLog
  dsimp only
  split
  · rename_i hcond
    rcases Node.createSnapshot_spec h.ok (env.machine.appliedIndex r.machine) [] with
      ⟨n', e, heq, _⟩ | ⟨_, hle⟩ | ⟨n', snap, heq, hsi, htr, hok⟩
    · rw [heq]
      exact ⟨ht, by simp⟩
    · omega
    · rw [heq]
      dsimp only
      rw [stored_reliable hd, persistSnapshot_eq]
      have hpath := Path.single htr
      have hl : Leads r.store { snapshot := some snap }
          (some (snapshotWriter env.machine r.machine (env.machine.appliedIndex r.machine)))
          n'.toCore := Leads.of_path (plain_snapshot _ _) h.wf h.mirrors hpath
      constructor
      · refine TraceSound.emit ht (fun o ho => ?_)
        rw [List.mem_singleton.mp ho]
        cases he : (r.store.persist { snapshot := some snap } _).2 with
        | none => trivial
        | some e => exact hl.refused he
      · intro hn
        simp only [Option.map_eq_none_iff] at hn
        refine ⟨hl.mirrors (Prod.ext rfl hn), hpath.wf (plain_snapshot _ _) h.wf, hok, ?_⟩
        exact h.applied.trans (Path.effect (plain_snapshot _ _) h.wf hpath).commit
  · exact ⟨ht, fun _ => h⟩

/-- **Processing** the update that leads the store to the node. -/
theorem Runtime.processUpdate_synced (hd : env.Reliable) (ht : r.TraceSound)
    (hl : Leads r.store u (streamed u d) r.node.toCore) (hwf : r.node.toCore.WF) (hok : r.node.Ok)
    (ha : env.machine.appliedIndex r.machine ≤ r.node.commit) :
    (r.processUpdateWithSnapshot env u d).Ensures (Synced env) := by
  refine processUpdate_ensures hd ht hl ha (fun r1 ht1 hn hm ha1 => ?_)
  exact compactLog_synced hd ht1 (by rw [hn]; exact ⟨hm, hwf, hok, ha1⟩)

end Codec

end Lsmdb.RaftNode

import Lsmdb.Queue.Drain
import Lsmdb.RaftNode.Loop

namespace Lsmdb.RaftNode

open Lsmdb.Queue Lsmdb.Raft Lsmdb.RaftStore RaftNode.Runtime List

/-!
# Raft runtime — the event queue

What the drains gather and leave, and that nothing but a drain touches the queues: after a
step every event still waiting was waiting before it (`Runtime.pop_waiting`).  The three drains
are instances of one loop, so what they gather and set aside keeps the order of the queue
(`drainProposals_inOrder`, `drainAppends_inOrder`, `collectReads_inOrder`).
-/

variable {σ : Type}

/-! ### Drains -/

/-- A drain's result, for the library. -/
def Drained.haul {α : Type} (d : Drained α) : Haul Event α := ⟨d.gathered, d.others, d.left⟩

/-- What `drainProposals` gathers. -/
def Event.proposal? : Event → Option Proposal
  | .proposal p => some p
  | _ => none

/-- What `drainAppends` gathers behind an append of `sender`. -/
def Event.append? (sender : ℕ) : Event → Option Inbound
  | .message m =>
    if m.snapshotData.isSome ∨ m.message.type ≠ .append ∨ m.message.fromID ≠ sender then none
    else some m
  | _ => none

/-- What `collectReads` gathers. -/
def Event.read? : Event → Option ℕ
  | .read result => some result
  | _ => none

theorem Event.proposal?_eq_some {event : Event} {p : Proposal} :
    event.proposal? = some p ↔ .proposal p = event := by
  cases event <;> simp [Event.proposal?, eq_comm]

theorem Event.read?_eq_some {event : Event} {result : ℕ} :
    event.read? = some result ↔ .read result = event := by
  cases event <;> simp [Event.read?, eq_comm]

/-- What `stepAppends` is given. -/
def Inbound.IsAppend (event : Inbound) : Prop :=
  event.message.type = .append ∧ event.snapshotData = none

theorem Event.append?_eq_some {sender : ℕ} {event : Event} {m : Inbound} :
    event.append? sender = some m ↔
      .message m = event ∧ m.IsAppend ∧ m.message.fromID = sender := by
  cases event with
  | message m' =>
    simp only [Event.append?, ite_eq_iff, reduceCtorEq, and_false, false_or, Option.some.injEq,
      Event.message.injEq, not_or, ne_eq, not_not, Option.not_isSome_iff_eq_none]
    constructor
    · rintro ⟨⟨hdata, htype, hfrom⟩, rfl⟩
      exact ⟨rfl, ⟨htype, hdata⟩, hfrom⟩
    · rintro ⟨rfl, ⟨htype, hdata⟩, hfrom⟩
      exact ⟨⟨hdata, htype, hfrom⟩, rfl⟩
  | _ => simp [Event.append?]

/-- `drainProposals`: the load is the number of proposals and the bytes they account for. -/
def proposalDrain : Drain Event Proposal (ℕ × ℕ) where
  select := Event.proposal?
  wants load := decide (load.1 < maxBatchEntries ∧ load.2 < maxBatchBytes)
  fits load p := decide (load.2 + proposalBytes p ≤ maxBatchBytes)
  add load p := (load.1 + 1, load.2 + proposalBytes p)

/-- `drainAppends`: the load is the entries of the group and their bytes. -/
def appendDrain (sender : ℕ) : Drain Event Inbound (ℕ × ℕ) where
  select := Event.append? sender
  wants load := decide (load.1 < maxBatchEntries ∧ load.2 < maxBatchBytes)
  fits load m := decide (load.1 + (appendLoad m.message).1 ≤ maxBatchEntries
    ∧ load.2 + (appendLoad m.message).2 ≤ maxBatchBytes)
  add load m := (load.1 + (appendLoad m.message).1, load.2 + (appendLoad m.message).2)

/-- `collectReads`, on the queue. -/
def readDrain : Drain Event ℕ Unit where
  select := Event.read?
  wants _ := true
  fits _ _ := true
  add _ _ := ()

private theorem drainProposalsFrom_eq (budget : ℕ) :
    ∀ (batch : List Proposal) (size : ℕ) (others queue : List Event),
      (drainProposalsFrom budget batch size others queue).haul
        = proposalDrain.run budget (batch.length, size) batch others queue := by
  induction budget with
  | zero => intro batch size others queue; rfl
  | succ budget ih =>
    intro batch size others queue
    cases queue with
    | nil => rfl
    | cons raw queue =>
      unfold drainProposalsFrom
      split
      · rename_i hroom
        have hwants : proposalDrain.wants (batch.length, size) = true := decide_eq_true hroom
        split
        · rename_i next
          split
          · rename_i hover
            rw [Drain.run_overflow _ _ _ _ hwants rfl (decide_eq_false (Nat.not_le.mpr hover))]
            rfl
          · rename_i hfits
            rw [Drain.run_take _ _ _ _ hwants rfl (decide_eq_true (Nat.not_lt.mp hfits)), ih,
              length_append]
            rfl
        · rename_i hother
          have hnone : proposalDrain.select raw = none :=
            Option.eq_none_iff_forall_ne_some.mpr fun p hp =>
              hother p (Event.proposal?_eq_some.mp hp).symm
          rw [Drain.run_skip _ _ _ _ hwants hnone, ih]
      · rename_i hfull
        rw [Drain.run_full _ _ _ _ (decide_eq_false hfull)]
        rfl

private theorem drainAppendsFrom_eq (sender budget : ℕ) :
    ∀ (group : List Inbound) (entries size : ℕ) (others queue : List Event),
      (drainAppendsFrom sender budget group entries size others queue).haul
        = (appendDrain sender).run budget (entries, size) group others queue := by
  induction budget with
  | zero => intro group entries size others queue; rfl
  | succ budget ih =>
    intro group entries size others queue
    cases queue with
    | nil => rfl
    | cons raw queue =>
      unfold drainAppendsFrom
      split
      · rename_i hroom
        have hwants : (appendDrain sender).wants (entries, size) = true := decide_eq_true hroom
        split
        · rename_i next
          split
          · rename_i hother
            have hnone : (appendDrain sender).select (.message next) = none := if_pos hother
            rw [Drain.run_skip _ _ _ _ hwants hnone, ih]
          rename_i happend
          have hselect : (appendDrain sender).select (.message next) = some next :=
            if_neg happend
          dsimp only
          split
          · rename_i hover
            rw [Drain.run_overflow _ _ _ _ hwants hselect (decide_eq_false (by omega))]
            rfl
          · rename_i hfits
            rw [Drain.run_take _ _ _ _ hwants hselect (decide_eq_true (by omega)), ih]
            rfl
        · rename_i hother
          have hnone : (appendDrain sender).select raw = none :=
            Option.eq_none_iff_forall_ne_some.mpr fun m hm =>
              hother m (Event.append?_eq_some.mp hm).1.symm
          rw [Drain.run_skip _ _ _ _ hwants hnone, ih]
      · rename_i hfull
        rw [Drain.run_full _ _ _ _ (decide_eq_false hfull)]
        rfl

theorem drainReadsFrom_eq (budget : ℕ) :
    ∀ (reads : List ℕ) (others queue : List Event),
      (drainReadsFrom budget reads others queue).haul
        = readDrain.run budget () reads others queue := by
  induction budget with
  | zero => intro reads others queue; rfl
  | succ budget ih =>
    intro reads others queue
    cases queue with
    | nil => rfl
    | cons raw queue =>
      unfold drainReadsFrom
      split
      · rw [Drain.run_take _ _ _ _ rfl rfl rfl, ih]
      rename_i hother
      have hnone : readDrain.select raw = none :=
        Option.eq_none_iff_forall_ne_some.mpr fun result hr =>
          hother result (Event.read?_eq_some.mp hr).symm
      rw [Drain.run_skip _ _ _ _ rfl hnone, ih]

theorem drainProposals_eq (queueSize : ℕ) (first : Proposal) (queue : List Event) :
    (drainProposals queueSize first queue).haul
      = proposalDrain.run queueSize (1, proposalBytes first) [first] [] queue :=
  drainProposalsFrom_eq queueSize [first] _ [] queue

theorem drainAppends_eq (queueSize : ℕ) (first : Inbound) (queue : List Event) :
    (drainAppends queueSize first queue).haul
      = (appendDrain first.message.fromID).run queueSize (appendLoad first.message) [first] []
        queue :=
  drainAppendsFrom_eq _ queueSize [first] _ _ [] queue

/-- **`drainProposals`** gathers queued proposals behind the first. -/
theorem drainProposals_inOrder (queueSize : ℕ) (first : Proposal) (queue : List Event) :
    (drainProposals queueSize first queue).haul.InOrder Event.proposal? [first] [] queue := by
  rw [drainProposals_eq]
  exact Drain.run_inOrder _ _ _ _ _ _

/-- **`drainAppends`** gathers queued appends of the same sender behind the first. -/
theorem drainAppends_inOrder (queueSize : ℕ) (first : Inbound) (queue : List Event) :
    (drainAppends queueSize first queue).haul.InOrder (Event.append? first.message.fromID)
      [first] [] queue := by
  rw [drainAppends_eq]
  exact Drain.run_inOrder _ _ _ _ _ _

/-- The reads at the head of `deferred`, and what follows them. -/
private theorem takeReads_eq (deferred : List Event) :
    ∀ (reads : List ℕ), ∃ body, (takeReads reads deferred).1 = reads ++ body.filterMap Event.read?
      ∧ body.filter (fun e => e.read?.isNone) = []
      ∧ deferred = body ++ (takeReads reads deferred).2 := by
  induction deferred with
  | nil => exact fun reads => ⟨[], by simp [takeReads]⟩
  | cons raw rest ih =>
    intro reads
    cases raw with
    | read result =>
      obtain ⟨body, hreads, hall, hrest⟩ := ih (reads ++ [result])
      refine ⟨.read result :: body, ?_, ?_, ?_⟩
      · rw [takeReads, hreads, append_assoc]
        rfl
      · rw [filter_cons_of_neg (by simp [Event.read?]), hall]
      · rw [takeReads, cons_append, ← hrest]
    | _ => exact ⟨[], by simp [takeReads]⟩

/-- **`collectReads`** gathers waiting reads behind the first. -/
theorem collectReads_inOrder (queueSize first : ℕ) (deferred queue : List Event) :
    (collectReads queueSize first deferred queue).haul.InOrder Event.read? [first] []
      (deferred ++ queue) := by
  unfold collectReads
  split
  · rename_i hdef
    rw [hdef, drainReadsFrom_eq]
    exact Drain.run_inOrder _ _ _ _ _ _
  obtain ⟨body, hreads, hall, hrest⟩ := takeReads_eq deferred [first]
  refine ⟨body, (takeReads [first] deferred).2, ?_, hreads, ?_⟩
  · rw [← hrest]
    rfl
  · rw [hall]
    rfl

/-- **A drain loses nothing**: what it gathered behind `batch`, what it set aside and what it
    left are the events of `queue`. -/
def Drained.Splits {α : Type} (wrap : α → Event) (batch : List α) (d : Drained α)
    (queue : List Event) : Prop :=
  ∃ more, d.gathered = batch ++ more ∧ (more.map wrap ++ d.others ++ d.left).Perm queue

theorem Drained.Splits.gathered {α : Type} {wrap : α → Event} {batch : List α} {d : Drained α}
    {queue : List Event} (h : d.Splits wrap batch queue) :
    ∀ x ∈ d.gathered, x ∈ batch ∨ wrap x ∈ queue := by
  obtain ⟨more, hg, hp⟩ := h
  intro x hx
  rw [hg] at hx
  rcases mem_append.mp hx with hx | hx
  · exact .inl hx
  · refine .inr (hp.subset ?_)
    rw [append_assoc]
    exact mem_append_left _ (mem_map_of_mem hx)

theorem drainProposals_splits (queueSize : ℕ) (first : Proposal) (queue : List Event) :
    (drainProposals queueSize first queue).Splits .proposal [first] queue :=
  (drainProposals_inOrder queueSize first queue).perm fun _ _ => Event.proposal?_eq_some.mp

theorem drainAppends_splits (queueSize : ℕ) (first : Inbound) (hf : first.IsAppend)
    (queue : List Event) :
    (∀ m ∈ (drainAppends queueSize first queue).gathered, m.IsAppend)
      ∧ (drainAppends queueSize first queue).Splits .message [first] queue := by
  have hdrain := drainAppends_inOrder queueSize first queue
  refine ⟨?_, hdrain.perm fun _ _ h => (Event.append?_eq_some.mp h).1⟩
  obtain ⟨body, _, _, hgathered, _⟩ := hdrain
  intro m hm
  rw [show (drainAppends queueSize first queue).gathered = _ from hgathered] at hm
  rcases mem_append.mp hm with hm | hm
  · rw [mem_singleton.mp hm]
    exact hf
  · obtain ⟨event, _, hevent⟩ := mem_filterMap.mp hm
    exact (Event.append?_eq_some.mp hevent).2.1

theorem collectReads_splits (queueSize first : ℕ) (deferred queue : List Event) :
    (collectReads queueSize first deferred queue).Splits .read [first] (deferred ++ queue) :=
  (collectReads_inOrder queueSize first deferred queue).perm fun _ _ => Event.read?_eq_some.mp

/-! ### Steps leave the queues alone -/

/-- The queues are the same. -/
structure Runtime.SameQueues (r r' : Runtime σ) : Prop where
  events : r'.events = r.events
  deferred : r'.deferred = r.deferred

theorem Runtime.SameQueues.refl (r : Runtime σ) : r.SameQueues r := ⟨rfl, rfl⟩

theorem Runtime.SameQueues.trans {r r' r'' : Runtime σ} (h : r.SameQueues r')
    (h' : r'.SameQueues r'') : r.SameQueues r'' :=
  ⟨h'.events.trans h.events, h'.deferred.trans h.deferred⟩

theorem Outcome.sameQueues_andThen {r : Runtime σ} {o : Outcome σ} {f : Runtime σ → Outcome σ}
    (h : r.SameQueues o.1) (hf : ∀ r1 : Runtime σ, r1.SameQueues (f r1).1) :
    r.SameQueues (o.andThen f).1 := by
  unfold Outcome.andThen
  split
  · exact h.trans (hf o.1)
  · exact h

theorem Runtime.complete_sameQueues (r : Runtime σ) (entry : Entry) :
    r.SameQueues (r.complete entry) := by
  unfold complete
  split <;> exact ⟨rfl, rfl⟩

theorem Runtime.registerAll_sameQueues (batch : List Proposal) :
    ∀ (r : Runtime σ) (indexes : List ℕ), r.SameQueues (r.registerAll batch indexes) := by
  induction batch with
  | nil => intro r indexes; exact .refl r
  | cons p batch ih =>
    intro r indexes
    cases indexes with
    | nil => exact .refl r
    | cons index indexes =>
      have hreg : r.SameQueues (r.register p index) := by
        unfold register
        split <;> exact ⟨rfl, rfl⟩
      exact hreg.trans (ih _ indexes)

theorem Runtime.acknowledgeRead_sameQueues (env : Env σ) (m : Message) (r : Runtime σ) :
    r.SameQueues (r.acknowledgeRead env m) := by
  unfold acknowledgeRead
  split
  · exact .refl r
  · split
    · exact .refl r
    · dsimp only
      split <;> exact ⟨rfl, rfl⟩

section Codec
variable [MembershipJson] (env : Env σ)

theorem Runtime.applyCommitted_sameQueues (entries : List Entry) :
    ∀ r : Runtime σ, r.SameQueues (r.applyCommitted env entries).1 := by
  induction entries with
  | nil => intro r; exact .refl r
  | cons entry rest ih =>
    intro r
    refine Outcome.sameQueues_andThen ?_ ih
    unfold applyEntry
    dsimp only
    split
    · exact r.complete_sameQueues entry
    split
    · exact .refl r
    split
    · exact .refl r
    split
    · exact .refl r
    · rename_i machine _
      have h := ({ r with machine := machine } : Runtime σ).complete_sameQueues entry
      exact ⟨h.events, h.deferred⟩

/-- **Processing an update** leaves the queues alone. -/
theorem Runtime.processUpdate_sameQueues (u : Update) (d : Option (Except String Bytes))
    (r : Runtime σ) : r.SameQueues (r.processUpdateWithSnapshot env u d).1 := by
  unfold processUpdateWithSnapshot
  refine Outcome.sameQueues_andThen ⟨rfl, rfl⟩ (fun r1 => ?_)
  refine Outcome.sameQueues_andThen ?_ (fun r2 => ?_)
  · unfold restoreMachine
    split
    · exact .refl r1
    split
    · split
      · exact .refl r1
      · split <;> exact ⟨rfl, rfl⟩
    · exact .refl r1
  refine Outcome.sameQueues_andThen ⟨rfl, rfl⟩ (fun r3 => ?_)
  refine Outcome.sameQueues_andThen (applyCommitted_sameQueues env _ r3) (fun r4 => ?_)
  refine Outcome.sameQueues_andThen ?_ (fun r5 => ?_)
  · unfold compactLog
    dsimp only
    split
    · split <;> exact ⟨rfl, rfl⟩
    · exact .refl r4
  · have hres : r5.SameQueues (r5.resolveMembership env) := by
      unfold resolveMembership
      split
      · exact .refl r5
      · dsimp only
        split <;> exact ⟨rfl, rfl⟩
    refine hres.trans ?_
    show SameQueues _ (cleanup _ u)
    unfold cleanup
    split <;> exact ⟨rfl, rfl⟩

theorem Runtime.proposeBatch_sameQueues (batch : List Proposal) (r : Runtime σ) :
    r.SameQueues (r.proposeBatch env batch).1 := by
  unfold proposeBatch
  split
  · exact ⟨rfl, rfl⟩
  rename_i node indexes u _
  have hreg := ({ r with node := node } : Runtime σ).registerAll_sameQueues batch indexes
  have h1 : r.SameQueues (({ r with node := node } : Runtime σ).registerAll batch indexes) :=
    ⟨hreg.events, hreg.deferred⟩
  dsimp only
  split
  · exact h1
  · exact h1.trans (processUpdate_sameQueues env u none _)

theorem Runtime.flush_sameQueues (merged : Update) (waiting : List ℕ) (r : Runtime σ) :
    r.SameQueues (r.flush env merged waiting).1 := by
  unfold flush
  split
  · exact .refl r
  · have h := processUpdate_sameQueues env merged none r
    exact ⟨h.events, h.deferred⟩

theorem Runtime.stepAppends_sameQueues (group : List Inbound) :
    ∀ (merged : Update) (waiting : List ℕ) (r : Runtime σ),
      r.SameQueues (r.stepAppends env merged waiting group).1 := by
  induction group with
  | nil => intro merged waiting r; exact r.flush_sameQueues env merged waiting
  | cons event rest ih =>
    intro merged waiting r
    unfold stepAppends
    dsimp only
    have h1 : r.SameQueues { r with node := (r.node.stepWith env.nextTerm event.message).1 } :=
      ⟨rfl, rfl⟩
    split
    · exact h1.trans (ih _ _ _)
    have hf := h1.trans (flush_sameQueues env merged waiting
      { r with node := (r.node.stepWith env.nextTerm event.message).1 })
    split
    · exact ⟨hf.events, hf.deferred⟩
    have ho := hf.trans (processUpdate_sameQueues env
      (r.node.stepWith env.nextTerm event.message).2 none _)
    split
    · exact ⟨ho.events, ho.deferred⟩
    have := ih {} [] ((processUpdate env
      (r.node.stepWith env.nextTerm event.message).2
      (flush env merged waiting
        { r with node := (r.node.stepWith env.nextTerm event.message).1 }).1).1.emit
      [.step event.result (processUpdate env
        (r.node.stepWith env.nextTerm event.message).2
        (flush env merged waiting
          { r with node := (r.node.stepWith env.nextTerm event.message).1 }).1).2])
    exact ⟨this.events.trans ho.events, this.deferred.trans ho.deferred⟩

theorem Runtime.stepMessage_sameQueues (event : Inbound) (r : Runtime σ) :
    r.SameQueues (r.stepMessage env event).1 := by
  unfold stepMessage
  dsimp only
  have h := processUpdate_sameQueues env (r.node.stepWith env.nextTerm event.message).2
    event.snapshotData { r with node := (r.node.stepWith env.nextTerm event.message).1 }
  split
  · have ha := acknowledgeRead_sameQueues env event.message
      (processUpdateWithSnapshot env (r.node.stepWith env.nextTerm event.message).2
        event.snapshotData { r with node := (r.node.stepWith env.nextTerm event.message).1 }).1
    exact ⟨ha.events.trans h.events, ha.deferred.trans h.deferred⟩
  · exact ⟨h.events, h.deferred⟩

theorem Runtime.changeMembership_sameQueues (voters : List ℕ) (result : ℕ) (r : Runtime σ) :
    r.SameQueues (r.changeMembership env voters result).1 := by
  unfold changeMembership
  split
  · exact ⟨rfl, rfl⟩
  rename_i node index u _
  split
  · exact ⟨rfl, rfl⟩
  · have h := processUpdate_sameQueues env u none
      { r with node := node, membership := some ⟨voters, result⟩ }
    exact ⟨h.events, h.deferred⟩

theorem Runtime.probeReads_sameQueues (results : List ℕ) (r : Runtime σ) :
    r.SameQueues (r.probeReads env results).1 := by
  unfold probeReads
  dsimp only
  split
  · exact ⟨rfl, rfl⟩
  rename_i node u _
  refine Outcome.sameQueues_andThen ?_ (fun r3 => ?_)
  · have h := processUpdate_sameQueues env u none
      { r with
        nextReadContext := r.nextReadContext + 1
        node := node
        pendingReads := (r.nextReadContext + 1, ⟨results, [r.node.cfg.id]⟩)
          :: without r.pendingReads (r.nextReadContext + 1) }
    exact ⟨h.events, h.deferred⟩
  · split <;> exact ⟨rfl, rfl⟩

/-- **The ways of an event**: what each handler is called with.  A batch, a group or the reads
    of one probe, with the events that still wait, are the event and all that waited. -/
theorem Runtime.handle_cases {C : Outcome σ → Prop} {r : Runtime σ} {event : Event}
    (proposals : ∀ batch deferred events,
      (batch.map Event.proposal ++ deferred ++ events).Perm (event :: (r.deferred ++ r.events)) →
      C (Runtime.proposeBatch env batch { r with deferred := deferred, events := events }))
    (membership : ∀ voters result, event = .membership voters result →
      C (r.changeMembership env voters result))
    (appends : ∀ group deferred events, (∀ m ∈ group, m.IsAppend) →
      (group.map Event.message ++ deferred ++ events).Perm (event :: (r.deferred ++ r.events)) →
      C (Runtime.stepAppends env {} [] group { r with deferred := deferred, events := events }))
    (message : ∀ m, event = .message m → C (r.stepMessage env m))
    (status : ∀ result, event = .status result →
      C (r.emit [.status result r.node.status], none))
    (reads : ∀ results deferred events,
      (results.map Event.read ++ deferred ++ events).Perm (event :: (r.deferred ++ r.events)) →
      C (Runtime.probeReads env results { r with deferred := deferred, events := events }))
    (stop : ∀ result, event = .stop result →
      C (({ r with stopped := true } : Runtime σ).emit
        [.stop result (env.machine.close r.machine)], none)) :
    C (r.handle env event) := by
  unfold handle
  split
  · rename_i p
    split
    · rename_i hdef
      obtain ⟨more, hg, hp⟩ := drainProposals_splits env.queueSize p r.events
      refine proposals _ _ _ ?_
      rw [hg, hdef]
      exact Perm.cons _ hp
    · refine proposals [p] r.deferred r.events ?_
      simp
  · exact membership _ _ rfl
  · rename_i m
    split
    · rename_i hcond
      obtain ⟨happ, more, hg, hp⟩ := drainAppends_splits env.queueSize m
        ⟨hcond.1, Option.isNone_iff_eq_none.mp hcond.2.1⟩ r.events
      refine appends _ _ _ happ ?_
      rw [hg, hcond.2.2]
      exact Perm.cons _ hp
    · exact message m rfl
  · exact status _ rfl
  · rename_i result
    obtain ⟨more, hg, hp⟩ := collectReads_splits env.queueSize result r.deferred r.events
    refine reads _ _ _ ?_
    rw [hg]
    exact Perm.cons _ hp
  · exact stop _ rfl

omit [MembershipJson] in
/-- What holds of every proposal that waits holds of a batch. -/
theorem forall_mem_batch {P : Proposal → Prop} {batch : List Proposal} {event : Event}
    {deferred events waiting : List Event}
    (hp : (batch.map Event.proposal ++ deferred ++ events).Perm (event :: waiting))
    (hevent : ∀ p, event = .proposal p → P p) (hwaiting : ∀ p, Event.proposal p ∈ waiting → P p) :
    ∀ p ∈ batch, P p := by
  intro p hmem
  have hin : Event.proposal p ∈ event :: waiting := by
    refine hp.subset ?_
    rw [append_assoc]
    exact mem_append_left _ (mem_map_of_mem hmem)
  rcases mem_cons.mp hin with heq | hin
  · exact hevent p heq.symm
  · exact hwaiting p hin

/-- **Handling an event** leaves only events that were waiting. -/
theorem Runtime.handle_waiting (r : Runtime σ) (event : Event) :
    ∀ e ∈ (r.handle env event).1.deferred ++ (r.handle env event).1.events,
      e = event ∨ e ∈ r.deferred ++ r.events := by
  have hsame : ∀ {o : Outcome σ}, r.SameQueues o.1 →
      ∀ e ∈ o.1.deferred ++ o.1.events, e = event ∨ e ∈ r.deferred ++ r.events := by
    intro o h e he
    rw [h.events, h.deferred] at he
    exact .inr he
  have hdrain : ∀ {o : Outcome σ} {taken deferred events : List Event},
      (taken ++ deferred ++ events).Perm (event :: (r.deferred ++ r.events)) →
      SameQueues { r with deferred := deferred, events := events } o.1 →
      ∀ e ∈ o.1.deferred ++ o.1.events, e = event ∨ e ∈ r.deferred ++ r.events := by
    intro o taken deferred events hp hs e he
    rw [hs.events, hs.deferred] at he
    refine mem_cons.mp (hp.subset ?_)
    rw [append_assoc]
    exact mem_append_right _ he
  refine handle_cases env
    (C := fun o => ∀ e ∈ o.1.deferred ++ o.1.events, e = event ∨ e ∈ r.deferred ++ r.events)
    ?_ ?_ ?_ ?_ ?_ ?_ ?_
  · exact fun batch _ _ hp => hdrain hp (proposeBatch_sameQueues env batch _)
  · exact fun voters result _ => hsame (changeMembership_sameQueues env voters result r)
  · exact fun group _ _ _ hp => hdrain hp (stepAppends_sameQueues env group _ _ _)
  · exact fun m _ => hsame (stepMessage_sameQueues env m r)
  · exact fun _ _ => hsame ⟨rfl, rfl⟩
  · exact fun results _ _ hp => hdrain hp (probeReads_sameQueues env results _)
  · exact fun _ _ => hsame ⟨rfl, rfl⟩

/-! ### Invariants of runs -/

/-- The event the loop takes next, and the runtime without it. -/
def Runtime.pop (r : Runtime σ) : Option (Event × Runtime σ) :=
  match r.deferred, r.events with
  | event :: deferred, _ => some (event, { r with deferred := deferred })
  | [], event :: events => some (event, { r with events := events })
  | [], [] => none

section
omit [MembershipJson]

theorem Runtime.pop_spec {r r₁ : Runtime σ} {event : Event} (h : r.pop = some (event, r₁)) :
    r.deferred ++ r.events = event :: (r₁.deferred ++ r₁.events)
      ∧ r₁ = { r with deferred := r₁.deferred, events := r₁.events } := by
  unfold pop at h
  split at h
  · rename_i hdef
    simp only [Option.some.injEq, Prod.mk.injEq] at h
    obtain ⟨rfl, rfl⟩ := h
    rw [hdef]
    exact ⟨rfl, rfl⟩
  · rename_i hdef hev
    simp only [Option.some.injEq, Prod.mk.injEq] at h
    obtain ⟨rfl, rfl⟩ := h
    rw [hdef, hev]
    exact ⟨rfl, rfl⟩
  · simp at h

theorem Runtime.pop_head {r r₁ : Runtime σ} {event : Event} (h : r.pop = some (event, r₁)) :
    (r.deferred ++ r.events).head? = some event := by
  rw [(pop_spec h).1]
  rfl

theorem Runtime.pop_sub {r r₁ : Runtime σ} {event : Event} (h : r.pop = some (event, r₁)) :
    ∀ e ∈ r₁.deferred ++ r₁.events, e ∈ r.deferred ++ r.events := by
  intro e he
  rw [(pop_spec h).1]
  exact mem_cons_of_mem _ he

end

/-- After the next event is handled, only events wait that waited before it was taken. -/
theorem Runtime.pop_waiting {r r₁ : Runtime σ} {event : Event} (h : r.pop = some (event, r₁)) :
    ∀ e ∈ (r₁.handle env event).1.deferred ++ (r₁.handle env event).1.events,
      e ∈ r.deferred ++ r.events := by
  intro e he
  rw [(pop_spec h).1]
  exact mem_cons.mpr (handle_waiting env r₁ event e he)

/-- **The ways of an action**: an event arrives, the ticker fires, the head of the queues is
    handled, or nothing happens. -/
theorem Runtime.act_cases {I : Runtime σ → Prop} {r : Runtime σ} {a : Action} (h : I r)
    (henqueue : ∀ event, a = .enqueue event → I { r with events := r.events ++ [event] })
    (htick : a = .tick → r.stopped = false → I (r.onTick env).settle)
    (hnext : a = .next → r.stopped = false → ∀ event r₁, r.pop = some (event, r₁) →
      I (r₁.handle env event).settle) : I (r.act env a) := by
  cases a with
  | enqueue event => exact henqueue event rfl
  | tick =>
    show I (if r.stopped ∨ r.deferred ≠ [] then r else (r.onTick env).settle)
    split
    · exact h
    · rename_i hcond
      simp only [not_or, Bool.not_eq_true] at hcond
      exact htick rfl hcond.1
  | next =>
    show I (if r.stopped then r else _)
    split
    · exact h
    rename_i hstop
    have hrun := hnext rfl (by simpa using hstop)
    unfold pop at hrun
    cases hdef : r.deferred with
    | cons event deferred => exact hrun event { r with deferred := deferred } (by rw [hdef])
    | nil =>
      cases hev : r.events with
      | cons event events =>
        have := hrun event { r with events := events } (by rw [hdef, hev])
        rwa [hdef] at this
      | nil => exact h

/-- **Runs**: what every allowed action keeps, every run of allowed actions keeps. -/
theorem Runtime.run_induct {I : Runtime σ → Prop} {C : Runtime σ → Action → Prop}
    {r : Runtime σ} (hstep : ∀ r a, I r → C r a → I (r.act env a)) (h : I r)
    (actions : List Action)
    (hC : ∀ k a, actions[k]? = some a → C (r.run env (actions.take k)) a) :
    I (r.run env actions) := by
  induction actions using reverseRecOn with
  | nil => exact h
  | append_singleton actions a ih =>
    have hrun : r.run env (actions ++ [a]) = (r.run env actions).act env a := by
      simp [run, foldl_append]
    rw [hrun]
    refine hstep _ a (ih fun k b hk => ?_) ?_
    · have hlt := (List.getElem?_eq_some_iff.mp hk).1
      have := hC k b (by rw [getElem?_append_left hlt]; exact hk)
      rwa [take_append_of_le_length (Nat.le_of_lt hlt)] at this
    · have := hC actions.length a (by simp)
      rwa [take_left] at this

end Codec

end Lsmdb.RaftNode

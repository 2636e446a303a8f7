import Lsmdb.RaftNode.Queues

namespace Lsmdb.RaftNode

open Lsmdb.Queue Lsmdb.Raft Lsmdb.RaftStore RaftNode.Runtime List

/-!
# Raft runtime — the order of events

A batch takes events out of their place in the queue, so the loop as a whole does not handle
events in the order they arrived.  It does for every `Flow`: the proposals, the appends of one
sender, the reads.

* `Runtime.collect` and `Job.perform` cut `Runtime.handle` in two: the events the loop takes,
  and what it does with them (`Runtime.handle_eq`).
* `Runtime.collect_ordered` — of a flow, what a turn takes and what then waits are what waited
  before it, in the same order.
* `Runtime.run_ordered` — of a flow, what a run has handed to the core is the start of what
  waited or arrived, and while the loop runs the rest still waits.

An append that brings a snapshot stream belongs to no flow: `StepSnapshot` enqueues snapshots.
-/

variable {σ : Type}

/-! ### Arrivals during a drain -/

/-- `Runtime.drainProposals`, with the events that arrive before each read. -/
def drainProposalsAmid (queueSize : ℕ) (first : Proposal) (queue : List Event)
    (arrivals : List (List Event)) : Haul Event Proposal :=
  proposalDrain.amid queueSize (1, proposalBytes first) [first] [] queue arrivals

/-- `Runtime.drainAppends`, with the events that arrive before each read. -/
def drainAppendsAmid (queueSize : ℕ) (first : Inbound) (queue : List Event)
    (arrivals : List (List Event)) : Haul Event Inbound :=
  (appendDrain first.message.fromID).amid queueSize (appendLoad first.message) [first] [] queue
    arrivals

/-- `Runtime.collectReads`, with the events that arrive before each read of the queue. -/
def collectReadsAmid (queueSize first : ℕ) (deferred queue : List Event)
    (arrivals : List (List Event)) : Haul Event ℕ :=
  if deferred = [] then readDrain.amid queueSize () [first] [] queue arrivals
  else (collectReads queueSize first deferred queue).haul

theorem drainProposalsAmid_eq (queueSize : ℕ) (first : Proposal) (queue : List Event)
    (arrivals : List (List Event)) :
    ∃ k, drainProposalsAmid queueSize first queue arrivals
      = (drainProposals queueSize first (queue ++ (arrivals.take k).flatten)).haul := by
  obtain ⟨k, hk⟩ := proposalDrain.amid_eq_run queueSize (1, proposalBytes first) [first] [] queue
    arrivals
  exact ⟨k, hk.trans (drainProposals_eq queueSize first _).symm⟩

theorem drainAppendsAmid_eq (queueSize : ℕ) (first : Inbound) (queue : List Event)
    (arrivals : List (List Event)) :
    ∃ k, drainAppendsAmid queueSize first queue arrivals
      = (drainAppends queueSize first (queue ++ (arrivals.take k).flatten)).haul := by
  obtain ⟨k, hk⟩ := (appendDrain first.message.fromID).amid_eq_run queueSize
    (appendLoad first.message) [first] [] queue arrivals
  exact ⟨k, hk.trans (drainAppends_eq queueSize first _).symm⟩

theorem collectReadsAmid_eq (queueSize first : ℕ) (deferred queue : List Event)
    (arrivals : List (List Event)) :
    ∃ k, collectReadsAmid queueSize first deferred queue arrivals
      = (collectReads queueSize first deferred (queue ++ (arrivals.take k).flatten)).haul := by
  unfold collectReadsAmid
  split
  · rename_i hdef
    obtain ⟨k, hk⟩ := readDrain.amid_eq_run queueSize () [first] [] queue arrivals
    refine ⟨k, ?_⟩
    rw [hk, collectReads, if_pos hdef, drainReadsFrom_eq]
  · refine ⟨0, ?_⟩
    rw [take_zero, flatten_nil, append_nil]

/-! ### The caps of a batch -/

/-- **The caps of a batch**: at most `maxBatchEntries` proposals, and at most `maxBatchBytes`
    accounted bytes unless the batch is a single proposal. -/
theorem drainProposals_caps (queueSize : ℕ) (first : Proposal) (queue : List Event) :
    (drainProposals queueSize first queue).gathered.length ≤ maxBatchEntries
      ∧ ((drainProposals queueSize first queue).gathered.length = 1
        ∨ ((drainProposals queueSize first queue).gathered.map proposalBytes).sum
          ≤ maxBatchBytes) := by
  -- The load the loop carries is that of its batch, and a batch that grew was within both caps.
  let Within := fun (load : ℕ × ℕ) (batch : List Proposal) =>
    load = (batch.length, (batch.map proposalBytes).sum) ∧ batch.length ≤ maxBatchEntries
      ∧ (batch.length = 1 ∨ (batch.map proposalBytes).sum ≤ maxBatchBytes)
  have hadd : ∀ load batch p, Within load batch → proposalDrain.wants load = true →
      proposalDrain.fits load p = true → Within (proposalDrain.add load p) (batch ++ [p]) := by
    rintro load batch p ⟨rfl, -, -⟩ hwants hfits
    have hroom := of_decide_eq_true hwants
    have hbytes := of_decide_eq_true hfits
    have hlength : (batch ++ [p]).length = batch.length + 1 := by simp
    have hsum : ((batch ++ [p]).map proposalBytes).sum
        = (batch.map proposalBytes).sum + proposalBytes p := by simp
    refine ⟨?_, ?_, .inr ?_⟩
    · rw [hlength, hsum]
      rfl
    · rw [hlength]
      exact hroom.1
    · rw [hsum]
      exact hbytes
  have hfirst : Within (1, proposalBytes first) [first] := by
    refine ⟨by simp, ?_, .inl rfl⟩
    show 1 ≤ maxBatchEntries
    decide
  obtain ⟨load, -, hlength, hsum⟩ :=
    proposalDrain.run_gathered hadd queueSize _ [first] [] queue hfirst
  rw [← drainProposals_eq] at hlength hsum
  exact ⟨hlength, hsum⟩

/-! ### Taking events, and what is done with them -/

/-- What the loop does next, with the events it takes for it. -/
inductive Job where
  | propose (batch : List Proposal)
  | change (voters : List ℕ) (result : ℕ)
  | stepGroup (group : List Inbound)
  | step (event : Inbound)
  | status (result : ℕ)
  | probe (results : List ℕ)
  | stop (result : ℕ)

/-- The events of a job. -/
def Job.events : Job → List Event
  | .propose batch => batch.map .proposal
  | .change voters result => [.membership voters result]
  | .stepGroup group => group.map .message
  | .step event => [.message event]
  | .status result => [.status result]
  | .probe results => results.map .read
  | .stop result => [.stop result]

/-- The events the `switch` of `Runtime.run` takes behind an event. -/
def Runtime.collect (env : Env σ) (r : Runtime σ) : Event → Job × Runtime σ
  | .proposal p =>
    if r.deferred = [] then
      let d := drainProposals env.queueSize p r.events
      (.propose d.gathered, { r with deferred := d.others, events := d.left })
    else (.propose [p], r)
  | .membership voters result => (.change voters result, r)
  | .message event =>
    if event.message.type = .append ∧ event.snapshotData.isNone ∧ r.deferred = [] then
      let d := drainAppends env.queueSize event r.events
      (.stepGroup d.gathered, { r with deferred := d.others, events := d.left })
    else (.step event, r)
  | .status result => (.status result, r)
  | .read result =>
    let d := collectReads env.queueSize result r.deferred r.events
    (.probe d.gathered, { r with deferred := d.others, events := d.left })
  | .stop result => (.stop result, r)

section Codec
variable [MembershipJson] (env : Env σ)

/-- What the `switch` of `Runtime.run` does with the events of a job. -/
def Job.perform (r : Runtime σ) : Job → Outcome σ
  | .propose batch => r.proposeBatch env batch
  | .change voters result => r.changeMembership env voters result
  | .stepGroup group => r.stepAppends env {} [] group
  | .step event => r.stepMessage env event
  | .status result => (r.emit [.status result r.node.status], none)
  | .probe results => r.probeReads env results
  | .stop result =>
    ({ r with stopped := true }.emit [.stop result (env.machine.close r.machine)], none)

/-- **Handling an event** is taking events and performing the job. -/
theorem Runtime.handle_eq (r : Runtime σ) (event : Event) :
    r.handle env event = (r.collect env event).1.perform env (r.collect env event).2 := by
  cases event with
  | proposal p =>
    rw [handle, collect]
    by_cases hdef : r.deferred = []
    · rw [if_pos hdef, if_pos hdef]
      rfl
    · rw [if_neg hdef, if_neg hdef]
      rfl
  | message m =>
    rw [handle, collect]
    by_cases hcond : m.message.type = .append ∧ m.snapshotData.isNone ∧ r.deferred = []
    · rw [if_pos hcond, if_pos hcond]
      rfl
    · rw [if_neg hcond, if_neg hcond]
      rfl
  | _ => rfl

theorem Job.perform_sameQueues (job : Job) (r : Runtime σ) :
    r.SameQueues (job.perform env r).1 := by
  cases job with
  | propose batch => exact r.proposeBatch_sameQueues env batch
  | change voters result => exact r.changeMembership_sameQueues env voters result
  | stepGroup group => exact r.stepAppends_sameQueues env group {} []
  | step event => exact r.stepMessage_sameQueues env event
  | probe results => exact r.probeReads_sameQueues env results
  | _ => exact ⟨rfl, rfl⟩

end Codec

/-! ### Flows -/

/-- The events whose order the loop keeps. -/
inductive Flow where
  | proposals
  | appends (sender : ℕ)
  | reads
  deriving DecidableEq

/-- The events of a flow. -/
def Flow.has : Flow → Event → Bool
  | .proposals, event => event.proposal?.isSome
  | .appends sender, event => (event.append? sender).isSome
  | .reads, event => event.read?.isSome

theorem Flow.whole_proposals (flow : Flow) : Whole Event.proposal? flow.has := by
  cases flow with
  | proposals => exact .inl fun _ h => h
  | appends sender =>
    refine .inr fun event h => ?_
    cases event <;> simp_all [Flow.has, Event.append?, Event.proposal?]
  | reads =>
    refine .inr fun event h => ?_
    cases event <;> simp_all [Flow.has, Event.read?, Event.proposal?]

theorem Flow.whole_reads (flow : Flow) : Whole Event.read? flow.has := by
  cases flow with
  | proposals =>
    refine .inr fun event h => ?_
    cases event <;> simp_all [Flow.has, Event.read?, Event.proposal?]
  | appends sender =>
    refine .inr fun event h => ?_
    cases event <;> simp_all [Flow.has, Event.append?, Event.read?]
  | reads => exact .inl fun _ h => h

theorem Flow.whole_appends (flow : Flow) (sender : ℕ) :
    Whole (Event.append? sender) flow.has := by
  cases flow with
  | proposals =>
    refine .inr fun event h => ?_
    cases event <;> simp_all [Flow.has, Event.append?, Event.proposal?]
  | appends sender' =>
    by_cases hsender : sender' = sender
    · subst hsender
      exact .inl fun _ h => h
    -- Appends of another sender are all set aside.
    refine .inr fun event h => Option.eq_none_iff_forall_ne_some.mpr fun m hm => hsender ?_
    obtain ⟨m', hm'⟩ := Option.isSome_iff_exists.mp h
    obtain ⟨hevent, -, hfrom⟩ := Event.append?_eq_some.mp hm
    obtain ⟨hevent', -, hfrom'⟩ := Event.append?_eq_some.mp hm'
    rw [← hevent, Event.message.injEq] at hevent'
    rw [← hfrom, ← hfrom', hevent']
  | reads =>
    refine .inr fun event h => ?_
    cases event <;> simp_all [Flow.has, Event.append?, Event.read?]

/-- **Taking events keeps the order of a flow**: what a turn takes and what then waits are the
    event and what waited. -/
theorem Runtime.collect_ordered (env : Env σ) (flow : Flow) (r : Runtime σ) (event : Event) :
    ((r.collect env event).1.events
        ++ ((r.collect env event).2.deferred ++ (r.collect env event).2.events)).filter flow.has
      = (event :: (r.deferred ++ r.events)).filter flow.has := by
  cases event with
  | proposal p =>
    rw [collect]
    by_cases hdef : r.deferred = []
    · rw [if_pos hdef, hdef]
      exact (drainProposals_inOrder env.queueSize p r.events).filter_eq
        (fun _ _ => Event.proposal?_eq_some.mp) flow.whole_proposals
    · rw [if_neg hdef]
      rfl
  | message m =>
    rw [collect]
    by_cases hcond : m.message.type = .append ∧ m.snapshotData.isNone ∧ r.deferred = []
    · rw [if_pos hcond, hcond.2.2]
      exact (drainAppends_inOrder env.queueSize m r.events).filter_eq
        (fun _ _ h => (Event.append?_eq_some.mp h).1) (flow.whole_appends _)
    · rw [if_neg hcond]
      rfl
  | read result =>
    exact (collectReads_inOrder env.queueSize result r.deferred r.events).filter_eq
      (fun _ _ => Event.read?_eq_some.mp) flow.whole_reads
  | _ => rfl

theorem Runtime.collect_caps (env : Env σ) (r : Runtime σ) (event : Event)
    {batch : List Proposal} (h : (r.collect env event).1 = .propose batch) :
    batch.length ≤ maxBatchEntries
      ∧ (batch.length = 1 ∨ (batch.map proposalBytes).sum ≤ maxBatchBytes) := by
  cases event with
  | proposal p =>
    rw [collect] at h
    by_cases hdef : r.deferred = []
    · rw [if_pos hdef] at h
      rw [← Job.propose.inj h]
      exact drainProposals_caps env.queueSize p r.events
    rw [if_neg hdef] at h
    rw [← Job.propose.inj h]
    refine ⟨?_, .inl rfl⟩
    show 1 ≤ maxBatchEntries
    decide
  | message m =>
    rw [collect] at h
    split at h <;> cases h
  | _ => cases h

/-! ### What reaches the core -/

section Codec
variable [MembershipJson] (env : Env σ)

/-- The appends of a group that `stepAppends` steps: an error ends it. -/
def Runtime.stepped (env : Env σ) : Update → List ℕ → List Inbound → Runtime σ → List Inbound
  | _, _, [], _ => []
  | merged, waiting, event :: rest, r =>
    let s := r.node.stepWith env.nextTerm event.message
    let r1 := { r with node := s.1 }
    if mergeable s.2 then
      event :: Runtime.stepped env (mergeAppend merged s.2) (waiting ++ [event.result]) rest r1
    else
      let f := r1.flush env merged waiting
      match f.2 with
      | some _ => [event]
      | none =>
        let o := f.1.processUpdate env s.2
        match o.2 with
        | some _ => [event]
        | none => event :: Runtime.stepped env {} [] rest (o.1.emit [.step event.result o.2])

/-- The core sees a group from its start, and all of it unless there is an error. -/
theorem Runtime.stepped_spec (group : List Inbound) :
    ∀ (merged : Update) (waiting : List ℕ) (r : Runtime σ),
      r.stepped env merged waiting group <+: group
        ∧ ((r.stepAppends env merged waiting group).2 = none →
          r.stepped env merged waiting group = group) := by
  induction group with
  | nil => exact fun merged waiting r => ⟨prefix_refl [], fun _ => rfl⟩
  | cons event rest ih =>
    intro merged waiting r
    unfold stepped stepAppends
    dsimp only
    split
    · obtain ⟨hpre, hall⟩ := ih (mergeAppend merged _) (waiting ++ [event.result]) _
      exact ⟨(prefix_cons_inj event).mpr hpre, fun h => by rw [hall h]⟩
    have hone : [event] <+: event :: rest := ⟨rest, rfl⟩
    generalize flush env merged waiting _ = f
    rcases f with ⟨r₂, _ | e⟩
    swap
    · exact ⟨hone, fun h => by cases h⟩
    dsimp only
    generalize processUpdate env _ r₂ = o
    rcases o with ⟨r₃, _ | e⟩
    swap
    · exact ⟨hone, fun h => by cases h⟩
    · dsimp only
      obtain ⟨hpre, hall⟩ := ih {} [] _
      exact ⟨(prefix_cons_inj event).mpr hpre, fun h => by rw [hall h]⟩

/-- The events of a job that reach the core. -/
def Job.handed (r : Runtime σ) : Job → List Event
  | .stepGroup group => (r.stepped env {} [] group).map .message
  | job => job.events

theorem Job.handed_spec (job : Job) (r : Runtime σ) :
    job.handed env r <+: job.events
      ∧ ((job.perform env r).2 = none → job.handed env r = job.events) := by
  cases job with
  | stepGroup group =>
    obtain ⟨hpre, hall⟩ := stepped_spec env group {} [] r
    exact ⟨hpre.map _, fun h => congrArg (map Event.message) (hall h)⟩
  | _ => exact ⟨prefix_refl _, fun _ => rfl⟩

/-- What an action hands to the core. -/
def Runtime.handed (r : Runtime σ) : Action → List Event
  | .next =>
    if r.stopped then []
    else
      match r.pop with
      | some (event, r₁) => (r₁.collect env event).1.handed env (r₁.collect env event).2
      | none => []
  | _ => []

/-- What a run hands to the core, in order. -/
def Runtime.handedOver : Runtime σ → List Action → List Event
  | _, [] => []
  | r, a :: actions => r.handed env a ++ Runtime.handedOver (r.act env a) actions

omit [MembershipJson] in
/-- Ending the loop leaves the queues, and stops it if there was an error. -/
theorem Outcome.settle_queues (o : Outcome σ) :
    o.1.SameQueues o.settle ∧ (o.settle.stopped = false → o.2 = none) := by
  unfold Outcome.settle
  split
  · rename_i hok
    exact ⟨.refl o.1, fun _ => hok⟩
  · exact ⟨⟨rfl, rfl⟩, fun h => by cases h⟩

/-- **A turn keeps the order of a flow.** -/
theorem Runtime.turn_ordered (flow : Flow) {r r₁ : Runtime σ} {event : Event}
    (h : r.pop = some (event, r₁)) :
    ((r₁.collect env event).1.handed env (r₁.collect env event).2).filter flow.has
        <+: (r.deferred ++ r.events).filter flow.has
      ∧ ((r₁.handle env event).settle.stopped = false →
        ((r₁.collect env event).1.handed env (r₁.collect env event).2
          ++ ((r₁.handle env event).settle.deferred ++ (r₁.handle env event).settle.events)).filter
            flow.has
        = (r.deferred ++ r.events).filter flow.has) := by
  have horder := r₁.collect_ordered env flow event
  rw [← (pop_spec h).1] at horder
  rw [r₁.handle_eq env event]
  obtain ⟨hpre, hall⟩ := (r₁.collect env event).1.handed_spec env (r₁.collect env event).2
  constructor
  · rw [← horder, filter_append]
    exact (hpre.filter _).trans (prefix_append _ _)
  · intro hrun
    obtain ⟨hsame, herr⟩ :=
      ((r₁.collect env event).1.perform env (r₁.collect env event).2).settle_queues
    have hqueues := ((r₁.collect env event).1.perform_sameQueues env
      (r₁.collect env event).2).trans hsame
    rw [hqueues.deferred, hqueues.events, hall (herr hrun)]
    exact horder

theorem Runtime.next_of_pop {r r₁ : Runtime σ} {event : Event} (hstop : r.stopped = false)
    (h : r.pop = some (event, r₁)) :
    r.act env .next = (r₁.handle env event).settle
      ∧ r.handed env .next
        = (r₁.collect env event).1.handed env (r₁.collect env event).2 := by
  constructor
  · rcases hdef : r.deferred with _ | ⟨first, deferred⟩
    · rcases hev : r.events with _ | ⟨first, events⟩
      · simp [pop, hdef, hev] at h
      · simp only [pop, hdef, hev, Option.some.injEq, Prod.mk.injEq] at h
        obtain ⟨rfl, rfl⟩ := h
        simp [act, hstop, hdef, hev]
    · simp only [pop, hdef, Option.some.injEq, Prod.mk.injEq] at h
      obtain ⟨rfl, rfl⟩ := h
      simp [act, hstop, hdef]
  · rw [handed, hstop, h]
    rfl

theorem Runtime.next_idle {r : Runtime σ} (h : r.stopped = true ∨ r.pop = none) :
    r.act env .next = r ∧ r.handed env .next = [] := by
  rcases h with hstop | hpop
  · exact ⟨if_pos hstop, if_pos hstop⟩
  constructor
  · rcases hdef : r.deferred with _ | ⟨first, deferred⟩
    · rcases hev : r.events with _ | ⟨first, events⟩
      · simp [act, hdef, hev]
      · simp [pop, hdef, hev] at hpop
    · simp [pop, hdef] at hpop
  · rw [handed, hpop]
    exact ite_self []

/-- What an action adds to the queue. -/
def Action.arrived : Action → List Event
  | .enqueue event => [event]
  | _ => []

/-- **An action keeps the order of a flow**: what it hands to the core comes first of what
    waited or arrives, and unless it ends the loop the rest waits. -/
theorem Runtime.act_ordered (flow : Flow) (r : Runtime σ) (a : Action) :
    (r.handed env a).filter flow.has <+: (r.deferred ++ r.events ++ a.arrived).filter flow.has
      ∧ ((r.act env a).stopped = false →
        (r.handed env a ++ ((r.act env a).deferred ++ (r.act env a).events)).filter flow.has
          = (r.deferred ++ r.events ++ a.arrived).filter flow.has) := by
  cases a with
  | enqueue event =>
    refine ⟨List.nil_prefix, fun _ => ?_⟩
    show (r.deferred ++ (r.events ++ [event])).filter flow.has = _
    rw [← append_assoc]
    rfl
  | tick =>
    refine ⟨List.nil_prefix, fun _ => ?_⟩
    have hsame : r.SameQueues (r.act env .tick) := by
      refine act_cases env (I := fun r' => r.SameQueues r') (.refl r)
        (fun _ h => by cases h) (fun _ _ => ?_) (fun h => by cases h)
      have htick := processUpdate_sameQueues env (r.node.tickWith env.nextTerm).2 none
        { r with node := (r.node.tickWith env.nextTerm).1 }
      have hsettle := (r.onTick env).settle_queues.1
      exact ⟨hsettle.events.trans htick.events, hsettle.deferred.trans htick.deferred⟩
    show (filter flow.has ((r.act env .tick).deferred ++ (r.act env .tick).events)) = _
    rw [hsame.deferred, hsame.events]
    exact congrArg _ (append_nil _).symm
  | next =>
    rw [show Action.next.arrived = [] from rfl, append_nil]
    by_cases hidle : r.stopped = true ∨ r.pop = none
    · obtain ⟨hact, hnone⟩ := next_idle env hidle
      rw [hact, hnone]
      exact ⟨List.nil_prefix, fun _ => rfl⟩
    obtain ⟨hstop, hpop⟩ := not_or.mp hidle
    obtain ⟨⟨event, r₁⟩, hsome⟩ := Option.ne_none_iff_exists'.mp hpop
    obtain ⟨hact, hhanded⟩ := next_of_pop env (Bool.not_eq_true _ ▸ hstop) hsome
    rw [hact, hhanded]
    exact turn_ordered env flow hsome

/-! ### Runs -/

theorem Runtime.act_stopped {r : Runtime σ} (h : r.stopped = true) (a : Action) :
    (r.act env a).stopped = true := by
  cases a with
  | enqueue event => exact h
  | tick => rw [show r.act env .tick = r from if_pos (.inl h)]; exact h
  | next => rw [(next_idle env (.inl h)).1]; exact h

theorem Runtime.handedOver_stopped (actions : List Action) :
    ∀ {r : Runtime σ}, r.stopped = true → r.handedOver env actions = [] := by
  induction actions with
  | nil => intro r _; rfl
  | cons a actions ih =>
    intro r h
    have hnone : r.handed env a = [] := by
      cases a with
      | next => exact (next_idle env (.inl h)).2
      | _ => rfl
    rw [handedOver, hnone, ih (r.act_stopped env h a)]
    rfl

/-- **A run keeps the order of a flow**: what reaches the core is the start of what waited and
    then arrived, and while the loop runs the rest still waits. -/
theorem Runtime.run_ordered (flow : Flow) (actions : List Action) :
    ∀ r : Runtime σ,
      (r.handedOver env actions).filter flow.has
          <+: (r.deferred ++ r.events ++ actions.flatMap Action.arrived).filter flow.has
        ∧ ((r.run env actions).stopped = false →
          (r.handedOver env actions
            ++ ((r.run env actions).deferred ++ (r.run env actions).events)).filter flow.has
          = (r.deferred ++ r.events ++ actions.flatMap Action.arrived).filter flow.has) := by
  induction actions with
  | nil =>
    intro r
    refine ⟨List.nil_prefix, fun _ => ?_⟩
    exact congrArg _ (append_nil _).symm
  | cons a actions ih =>
    intro r
    obtain ⟨hstart, hrest⟩ := r.act_ordered env flow a
    obtain ⟨hpre, hall⟩ := ih (r.act env a)
    -- What arrives with `a` comes before what arrives later.
    have harrived : (r.deferred ++ r.events ++ (a :: actions).flatMap Action.arrived).filter
        flow.has = (r.deferred ++ r.events ++ a.arrived).filter flow.has
          ++ (actions.flatMap Action.arrived).filter flow.has := by
      rw [flatMap_cons, ← append_assoc, filter_append]
    have hrun : r.run env (a :: actions) = (r.act env a).run env actions := rfl
    rw [handedOver, harrived, hrun]
    by_cases hstop : (r.act env a).stopped = true
    · rw [handedOver_stopped env actions hstop, append_nil]
      refine ⟨hstart.trans (prefix_append _ _), fun hgoes => ?_⟩
      have hstopped : ((r.act env a).run env actions).stopped = true :=
        run_induct env (C := fun _ _ => True) (fun r a h _ => r.act_stopped env h a) hstop
          actions (fun _ _ _ => trivial)
      rw [hstopped] at hgoes
      cases hgoes
    · have hwaits := hrest (Bool.not_eq_true _ ▸ hstop)
      rw [filter_append] at hpre hwaits
      rw [← hwaits]
      constructor
      · rw [filter_append, append_assoc]
        exact (prefix_append_right_inj _).mpr hpre
      · intro hgoes
        rw [append_assoc, filter_append, hall hgoes, filter_append,
          append_assoc]

/-- **Batches lose nothing and keep every flow in order.**  Each drain, whatever arrives while it
    reads, returns what it takes once, gathered or set aside in arrival order, and the events
    that arrive might as well have waited before it.  Of each flow, a run hands to the core the
    start of what waited and then arrived, in that order, and the rest waits while the loop runs.
    Every batch of proposals is within its caps. -/
theorem arrival_order (env : Env σ) :
    ((∀ (first : Proposal) (queue : List Event) (arrivals : List (List Event)),
        ∃ k, drainProposalsAmid env.queueSize first queue arrivals
            = (drainProposals env.queueSize first (queue ++ (arrivals.take k).flatten)).haul
          ∧ (drainProposalsAmid env.queueSize first queue arrivals).InOrder Event.proposal?
            [first] [] (queue ++ (arrivals.take k).flatten))
      ∧ (∀ (first : Inbound) (queue : List Event) (arrivals : List (List Event)),
        ∃ k, drainAppendsAmid env.queueSize first queue arrivals
            = (drainAppends env.queueSize first (queue ++ (arrivals.take k).flatten)).haul
          ∧ (drainAppendsAmid env.queueSize first queue arrivals).InOrder
            (Event.append? first.message.fromID) [first] []
            (queue ++ (arrivals.take k).flatten))
      ∧ ∀ (first : ℕ) (deferred queue : List Event) (arrivals : List (List Event)),
        ∃ k, collectReadsAmid env.queueSize first deferred queue arrivals
            = (collectReads env.queueSize first deferred
                (queue ++ (arrivals.take k).flatten)).haul
          ∧ (collectReadsAmid env.queueSize first deferred queue arrivals).InOrder Event.read?
            [first] [] (deferred ++ (queue ++ (arrivals.take k).flatten)))
    ∧ (∀ (flow : Flow) (r : Runtime σ) (actions : List Action),
      (r.handedOver env actions).filter flow.has
          <+: (r.deferred ++ r.events ++ actions.flatMap Action.arrived).filter flow.has
        ∧ ((r.run env actions).stopped = false →
          (r.handedOver env actions
            ++ ((r.run env actions).deferred ++ (r.run env actions).events)).filter flow.has
          = (r.deferred ++ r.events ++ actions.flatMap Action.arrived).filter flow.has))
    ∧ (∀ (r : Runtime σ) (event : Event) (batch : List Proposal),
      (r.collect env event).1 = .propose batch →
        batch.length ≤ maxBatchEntries
          ∧ (batch.length = 1 ∨ (batch.map proposalBytes).sum ≤ maxBatchBytes))
    ∧ ∀ p : Proposal, maxEntryBytes < p.data.length → proposalBytes p = 0 := by
  refine ⟨⟨?_, ?_, ?_⟩, ?_, ?_, ?_⟩
  · intro first queue arrivals
    obtain ⟨k, hk⟩ := drainProposalsAmid_eq env.queueSize first queue arrivals
    refine ⟨k, hk, ?_⟩
    rw [hk]
    exact drainProposals_inOrder env.queueSize first _
  · intro first queue arrivals
    obtain ⟨k, hk⟩ := drainAppendsAmid_eq env.queueSize first queue arrivals
    refine ⟨k, hk, ?_⟩
    rw [hk]
    exact drainAppends_inOrder env.queueSize first _
  · intro first deferred queue arrivals
    obtain ⟨k, hk⟩ := collectReadsAmid_eq env.queueSize first deferred queue arrivals
    refine ⟨k, hk, ?_⟩
    rw [hk]
    exact collectReads_inOrder env.queueSize first deferred _
  · intro flow r actions
    exact run_ordered env flow actions r
  · intro r event batch h
    exact collect_caps env r event h
  · intro p h
    exact if_pos h

end Codec

end Lsmdb.RaftNode

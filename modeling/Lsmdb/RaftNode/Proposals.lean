import Lsmdb.Raft.Retention
import Lsmdb.RaftNode.Durability

namespace Lsmdb.RaftNode

open Lsmdb.Raft Lsmdb.RaftStore RaftNode.Runtime List Node Output

/-!
# Raft runtime — answers to proposals

A caller whose proposal is answered with success should find its own entry committed at the
index it is told.  Waiters are kept by index only, so this rests on what the node does to a
waiting entry (`Node.Retains`):

* while it leads, the node keeps every entry that waits, and commits no other at its index;
* when it steps down, the waiters are answered with an error, but only after the entries of
  the same update are completed.  An append that makes the node step down, replaces a waiting
  entry and commits the replacement is answered with success (`replaced_entry_succeeds`).

`success_is_own_entry` says that this is the only way.
-/

variable {σ : Type} {r r' : Runtime σ}

/-! ### The trace -/

/-- What an output may say, given everything said so far: a success reports the entry that was
    accepted for the caller, and an accepted entry carries the data of a proposal in `P`. -/
def Output.Fair (P : Proposal → Prop) (trace : List Output) : Output → Prop
  | .proposal result answer committed => answer.err = none → ∃ e, committed = some e
      ∧ answer.index = e.index ∧ answer.term = e.term ∧ Output.accept result e ∈ trace
  | .accept result e => ∃ p, P p ∧ p.result = result ∧ p.data = e.data
  | _ => True

/-- Every output is fair. -/
def Runtime.Fair (P : Proposal → Prop) (r : Runtime σ) : Prop := ∀ o ∈ r.trace, o.Fair P r.trace

variable {P : Proposal → Prop}

theorem Output.Fair.mono {o : Output} {t t' : List Output} (h : o.Fair P t) (ht : t ⊆ t') :
    o.Fair P t' := by
  cases o with
  | proposal result answer committed =>
    intro herr
    obtain ⟨e, h1, h2, h3, h4⟩ := h herr
    exact ⟨e, h1, h2, h3, ht h4⟩
  | accept result e => exact h
  | _ => trivial

theorem Runtime.Fair.emit (h : r.Fair P) (os : List Output)
    (hos : ∀ o ∈ os, o.Fair P (r.trace ++ os)) (hr : r'.trace = r.trace ++ os) : r'.Fair P := by
  intro o ho
  rw [hr] at ho ⊢
  rcases mem_append.mp ho with ho | ho
  · exact (h o ho).mono (subset_append_left _ _)
  · exact hos o ho

/-- An output that neither accepts a proposal nor reports a success. -/
def Output.Silent : Output → Prop
  | .proposal _ answer _ => answer.err ≠ none
  | .accept _ _ => False
  | _ => True

theorem Output.Silent.fair {o : Output} (h : o.Silent) (t : List Output) : o.Fair P t := by
  cases o with
  | proposal result answer committed => exact fun herr => absurd herr h
  | accept result e => exact h.elim
  | _ => trivial

/-! ### Waiters -/

/-- **What the waiters may expect** while the entries in `committed` are still to be
    completed: each waits for an accepted entry, nothing else is completed at its index, and
    the entry is completed or satisfies `keep`. -/
def Runtime.Expects (r : Runtime σ) (committed : List Entry) (keep : Entry → Prop) : Prop :=
  ∀ p ∈ r.pending, ∃ e, e.index = p.1 ∧ Output.accept p.2 e ∈ r.trace
    ∧ (∀ x ∈ committed, x.index = e.index → x = e) ∧ (keep e ∨ e ∈ committed)

/-- `r'` differs from `r` in nothing the waiters see. -/
structure Runtime.Passes (r r' : Runtime σ) : Prop where
  node : r'.node = r.node
  pending : r'.pending = r.pending
  trace : ∃ os, r'.trace = r.trace ++ os ∧ ∀ o ∈ os, o.Silent

theorem Runtime.Passes.refl (r : Runtime σ) : r.Passes r := ⟨rfl, rfl, [], by simp⟩

theorem Runtime.Passes.emit (r : Runtime σ) {os : List Output} (h : ∀ o ∈ os, o.Silent) :
    r.Passes (r.emit os) := ⟨rfl, rfl, os, rfl, h⟩

theorem Runtime.Passes.fair (h : r.Passes r') (hf : r.Fair P) : r'.Fair P := by
  obtain ⟨os, hos, hs⟩ := h.trace
  exact hf.emit os (fun o ho => (hs o ho).fair _) hos

theorem Runtime.Expects.mono {committed : List Entry} {keep keep' : Entry → Prop}
    (h : r.Expects committed keep) (hp : r'.pending ⊆ r.pending) (ht : r.trace ⊆ r'.trace)
    (hk : ∀ e, keep e → keep' e) : r'.Expects committed keep' := by
  intro p hmem
  obtain ⟨e, h1, h2, h3, h4⟩ := h p (hp hmem)
  exact ⟨e, h1, ht h2, h3, h4.imp (hk e) id⟩

theorem Runtime.Passes.expects {committed : List Entry} {keep : Entry → Prop} (h : r.Passes r')
    (he : r.Expects committed keep) : r'.Expects committed keep := by
  obtain ⟨os, hos, _⟩ := h.trace
  exact he.mono (by rw [h.pending]; exact Subset.refl _)
    (by rw [hos]; exact subset_append_left _ _) (fun _ hk => hk)

/-- Nobody waits, so anything may be expected. -/
theorem Runtime.Expects.of_empty (h : r.pending = []) (committed : List Entry)
    (keep : Entry → Prop) : r.Expects committed keep := by
  intro p hp
  rw [h] at hp
  simp at hp

/-! ### Processing an update -/

/-- The trace stays fair, and without an error `Q` holds. -/
structure Outcome.Fairly (P : Proposal → Prop) (Q : Runtime σ → Prop) (o : Outcome σ) : Prop where
  fair : o.1.Fair P
  holds : o.2 = none → Q o.1

variable {Q Q' : Runtime σ → Prop} {o : Outcome σ}

theorem Outcome.Fairly.andThen (h : o.Fairly P Q) {f : Runtime σ → Outcome σ}
    (hf : ∀ r : Runtime σ, r.Fair P → Q r → (f r).Fairly P Q') :
    (o.andThen f).Fairly P Q' := by
  unfold Outcome.andThen
  split
  · rename_i hnone
    exact hf o.1 h.fair (h.holds hnone)
  · rename_i e herr
    exact ⟨h.fair, fun hnone => by rw [herr] at hnone; simp at hnone⟩

theorem Outcome.Fairly.imp (h : o.Fairly P Q) (hq : ∀ r, Q r → Q' r) : o.Fairly P Q' :=
  ⟨h.fair, fun hnone => hq _ (h.holds hnone)⟩

private theorem mem_of_lookup {t : List (ℕ × ℕ)} {k v : ℕ} (h : t.lookup k = some v) :
    (k, v) ∈ t := by
  obtain ⟨l₁, l₂, rfl, _⟩ := lookup_eq_some_iff.mp h
  simp

/-- **Completing an entry** answers its waiter with the entry that was accepted for it. -/
theorem Runtime.complete_expects {x : Entry} {rest : List Entry} {keep : Entry → Prop}
    (hf : r.Fair P) (h : r.Expects (x :: rest) keep) :
    (r.complete x).Fair P ∧ (r.complete x).Expects rest keep
      ∧ (r.pending = [] → (r.complete x).pending = []) ∧ (r.complete x).node = r.node := by
  -- only a waiter at another index is left
  have hother : ∀ p ∈ r.pending, p.1 ≠ x.index → ∃ e, e.index = p.1
      ∧ accept p.2 e ∈ r.trace ∧ (∀ y ∈ rest, y.index = e.index → y = e)
      ∧ (keep e ∨ e ∈ rest) := by
    intro p hp hne
    obtain ⟨e, h1, h2, h3, h4⟩ := h p hp
    refine ⟨e, h1, h2, fun y hy => h3 y (mem_cons_of_mem _ hy), ?_⟩
    rcases h4 with h4 | h4
    · exact .inl h4
    · rcases mem_cons.mp h4 with rfl | h4
      · exact absurd h1.symm hne
      · exact .inr h4
  unfold complete
  split
  · rename_i hnone
    refine ⟨hf, fun p hp => hother p hp ?_, id, rfl⟩
    intro hk
    rw [lookup_eq_none_iff] at hnone
    have := hnone p hp
    simp [hk] at this
  · rename_i result hsome
    have hmem : (x.index, result) ∈ r.pending := mem_of_lookup hsome
    obtain ⟨e, h1, h2, h3, _⟩ := h _ hmem
    have hx : x = e := h3 x mem_cons_self h1.symm
    refine ⟨?_, fun p hp => ?_, fun hnil => by rw [hnil] at hmem; simp at hmem, rfl⟩
    · refine hf.emit [.proposal result { index := x.index, term := x.term } (some x)]
        (fun o ho => ?_) rfl
      rw [mem_singleton.mp ho]
      intro _
      exact ⟨x, rfl, rfl, rfl, mem_append_left _ (by rw [hx]; exact h2)⟩
    · have hp' : p ∈ r.pending ∧ p.1 ≠ x.index := by
        have := mem_filter.mp hp
        simpa using this
      obtain ⟨e', k1, k2, k3, k4⟩ := hother p hp'.1 hp'.2
      exact ⟨e', k1, mem_append_left _ k2, k3, k4⟩

theorem Runtime.dropWaiters_fair (hf : r.Fair P) (cause : RuntimeError) :
    (r.dropWaiters cause).Fair P := by
  refine hf.emit _ (fun o ho => Silent.fair ?_ _) rfl
  simp only [mem_append, mem_map, mem_flatMap, PendingRead.complete] at ho
  rcases ho with (⟨m, _, rfl⟩ | ⟨p, _, rfl⟩) | ⟨q, _, result, _, rfl⟩
  · trivial
  · simp [Silent]
  · trivial

/-- What processing an update keeps: the node, and the waiters' expectations. -/
structure Runtime.Serves (n : Node) (idle : Prop) (committed : List Entry) (keep : Entry → Prop)
    (r : Runtime σ) : Prop where
  node : r.node = n
  expects : r.Expects committed keep
  idle : idle → r.pending = []

variable {n : Node} {idle : Prop} {keep : Entry → Prop}

theorem Runtime.Serves.passes {committed : List Entry} (h : r.Serves n idle committed keep)
    (hp : r.Passes r') : r'.Serves n idle committed keep :=
  ⟨hp.node.trans h.node, hp.expects h.expects, fun hi => hp.pending.trans (h.idle hi)⟩

theorem Runtime.Serves.complete {x : Entry} {rest : List Entry} (hf : r.Fair P)
    (h : r.Serves n idle (x :: rest) keep) :
    (r.complete x).Fair P ∧ (r.complete x).Serves n idle rest keep := by
  obtain ⟨h1, h2, h3, h4⟩ := complete_expects hf h.expects
  exact ⟨h1, h4.trans h.node, h2, fun hi => h3 (h.idle hi)⟩

theorem Runtime.persistUpdate_passes (env : Env σ) (r : Runtime σ) (u : Update)
    (d : Option (Except String Bytes)) : r.Passes (r.persistUpdate env u d).1 :=
  ⟨rfl, rfl, _, rfl, by simp [Silent]⟩

theorem Runtime.restoreMachine_passes (env : Env σ) (u : Update) (r : Runtime σ) :
    r.Passes (r.restoreMachine env u).1 := by
  unfold restoreMachine
  split
  · exact .refl r
  split
  · split
    · exact .refl r
    · split
      · exact .refl r
      · exact ⟨rfl, rfl, [], by simp⟩
  · exact .refl r

theorem Runtime.sendMessages_passes (u : Update) (r : Runtime σ) :
    r.Passes (r.sendMessages u).1 := by
  refine .emit r fun o ho => ?_
  obtain ⟨m, _, rfl⟩ := mem_map.mp ho
  trivial

theorem Runtime.resolveMembership_passes (env : Env σ) (r : Runtime σ) :
    r.Passes (r.resolveMembership env) := by
  unfold resolveMembership
  split
  · exact .refl r
  · dsimp only
    split
    · exact .refl r
    · exact ⟨rfl, rfl, _, rfl, by simp [Silent]⟩

section Codec
variable [MembershipJson] {env : Env σ} {u : Update} {d : Option (Except String Bytes)}

theorem Runtime.applyEntry_serves {x : Entry} {rest : List Entry} (hf : r.Fair P)
    (h : r.Serves n idle (x :: rest) keep) :
    (r.applyEntry env x).Fairly P (Runtime.Serves n idle rest keep) := by
  unfold applyEntry
  dsimp only
  split
  · obtain ⟨h1, h2⟩ := h.complete hf
    exact ⟨h1, fun _ => h2⟩
  split
  · exact ⟨hf, by simp⟩
  split
  · exact ⟨hf, by simp⟩
  split
  · exact ⟨hf, by simp⟩
  rename_i machine _
  have h' : Serves n idle (x :: rest) keep { r with machine := machine } :=
    h.passes ⟨rfl, rfl, [], by simp⟩
  have hf' : Fair P { r with machine := machine } := hf
  obtain ⟨h1, h2⟩ := h'.complete hf'
  exact ⟨h1, fun _ => h2⟩

/-- The loop over the committed entries leaves no waiter at any of them. -/
theorem Runtime.applyCommitted_serves (entries : List Entry) :
    ∀ r : Runtime σ, r.Fair P → r.Serves n idle entries keep →
      (r.applyCommitted env entries).Fairly P (Runtime.Serves n idle [] keep) := by
  induction entries with
  | nil => exact fun r hf h => ⟨hf, fun _ => h⟩
  | cons x rest ih =>
    intro r hf h
    exact (applyEntry_serves hf h).andThen ih

/-- Compacting changes the node only, and only below its commit index. -/
theorem Runtime.compactLog_serves (hf : r.Fair P) (hs : n.Sane) (h : r.Serves n idle [] keep) :
    (r.compactLog env).Fairly P
      (fun r' => n.Compacts r'.node ∧ r'.Serves r'.node idle [] keep) := by
  have hcut := createSnapshot_compacts hs (env.machine.appliedIndex r.machine) []
  unfold compactLog
  dsimp only
  split
  · rw [h.node]
    split
    · exact ⟨hf, by simp⟩
    rename_i node u heq
    rw [heq] at hcut
    refine ⟨hf.emit _ (fun o ho => ?_) rfl, fun _ => ⟨hcut, rfl, ?_, h.idle⟩⟩
    · rw [mem_singleton.mp ho]
      trivial
    · exact h.expects.mono (fun _ hp => hp) (subset_append_left _ _) (fun _ hk => hk)
  · exact ⟨hf, fun _ => ⟨by rw [h.node]; exact .refl n, by rw [h.node]; exact h⟩⟩

/-- **Processing an update** completes its committed entries and then, if the node lost its
    leadership with it, answers everyone else. -/
theorem Runtime.processUpdate_serves (hf : r.Fair P) (hs : r.node.Sane)
    (h : r.Expects u.committed keep) :
    (r.processUpdateWithSnapshot env u d).Fairly P (fun r' => r.node.Compacts r'.node
      ∧ r'.Expects [] keep ∧ (r.pending = [] → r'.pending = [])
      ∧ (u.roleChanged = true → r'.node.role ≠ .leader → r'.pending = [])) := by
  have h0 : r.Serves r.node (r.pending = []) u.committed keep := ⟨rfl, h, id⟩
  unfold processUpdateWithSnapshot
  refine Outcome.Fairly.andThen (Q := Serves r.node (r.pending = []) u.committed keep)
    ⟨(r.persistUpdate_passes env u d).fair hf,
      fun _ => h0.passes (r.persistUpdate_passes env u d)⟩ ?_
  intro r1 hf1 h1
  refine Outcome.Fairly.andThen (Q := Serves r.node (r.pending = []) u.committed keep)
    ⟨(r1.restoreMachine_passes env u).fair hf1, fun _ => h1.passes (r1.restoreMachine_passes env u)⟩ ?_
  intro r2 hf2 h2
  refine Outcome.Fairly.andThen (Q := Serves r.node (r.pending = []) u.committed keep)
    ⟨(r2.sendMessages_passes u).fair hf2, fun _ => h2.passes (r2.sendMessages_passes u)⟩ ?_
  intro r3 hf3 h3
  refine (applyCommitted_serves u.committed r3 hf3 h3).andThen ?_
  intro r4 hf4 h4
  refine (compactLog_serves hf4 hs h4).andThen ?_
  rintro r5 hf5 ⟨hcut, h5⟩
  have hp := r5.resolveMembership_passes env
  have hf6 := hp.fair hf5
  have h6 := h5.passes hp
  generalize r5.resolveMembership env = r6 at *
  unfold cleanup
  split
  · rename_i hcond
    refine ⟨dropWaiters_fair hf6 _, fun _ => ⟨?_, .of_empty rfl _ _, fun _ => rfl, fun _ _ => rfl⟩⟩
    show r.node.Compacts r6.node
    rw [h6.node]
    exact hcut
  · rename_i hcond
    refine ⟨hf6, fun _ => ⟨by rw [h6.node]; exact hcut, h6.expects, h6.idle, fun hc hr => ?_⟩⟩
    exact absurd ⟨hc, hr⟩ hcond

/-! ### Operations of the node -/

omit [MembershipJson] in
/-- **Between two events** every waiter waits for an accepted entry of the leader's log that is
    not committed yet. -/
def Runtime.Waits (r : Runtime σ) : Prop :=
  ∀ p ∈ r.pending, ∃ e, e.index = p.1 ∧ Output.accept p.2 e ∈ r.trace
    ∧ r.node.role = .leader ∧ e ∈ r.node.log ∧ r.node.commit < e.index

omit [MembershipJson] in
/-- What the loop keeps between two events. -/
structure Runtime.Ready (r : Runtime σ) : Prop where
  sane : r.node.Sane
  waits : r.Waits

/-- After an update the waiters left are those of a node that still leads. -/
theorem Runtime.processUpdate_ready (hf : r.Fair P) (hs : r.node.Sane)
    (h : r.Expects u.committed r.node.Holding)
    (hdem : r.pending ≠ [] → r.node.role ≠ .leader → u.roleChanged = true) :
    (r.processUpdateWithSnapshot env u d).Fairly P Runtime.Ready := by
  refine (processUpdate_serves hf hs h).imp ?_
  rintro r' ⟨hcut, hexp, hidle, hlost⟩
  refine ⟨hcut.sane hs, fun p hp => ?_⟩
  have hrole : r'.node.role = .leader := by
    by_contra hr
    have hne : r.pending ≠ [] := fun h0 => by rw [hidle h0] at hp; simp at hp
    rw [hlost (hdem hne (by rw [← hcut.role]; exact hr)) hr] at hp
    simp at hp
  obtain ⟨e, h1, h2, _, h4 | h4⟩ := hexp p hp
  · obtain ⟨k1, k2⟩ := h4 (by rw [← hcut.role]; exact hrole)
    exact ⟨e, h1, h2, hrole, hcut.log e k1 k2, by rw [hcut.commit]; exact k2⟩
  · simp at h4

/-- **An operation and its update**: enough that it retains the entries somebody waits for. -/
theorem Runtime.operate_ready {n' : Node} (hf : r.Fair P) (h : r.Waits) (hs : n'.Sane)
    (hret : r.node.role = .leader → ∀ p ∈ r.pending, ∀ e ∈ r.node.log, e.index = p.1 →
      r.node.commit < e.index → Node.Retains (n', u) e)
    (hdem : r.node.role = .leader → n'.role ≠ .leader → u.roleChanged = true) :
    (({ r with node := n' } : Runtime σ).processUpdateWithSnapshot env u d).Fairly P
      Runtime.Ready := by
  have hf' : Fair P { r with node := n' } := hf
  refine processUpdate_ready hf' hs ?_ ?_
  · intro p hp
    obtain ⟨e, h1, h2, hr, h3, h4⟩ := h p hp
    have hk := hret hr p hp e h3 h1 h4
    exact ⟨e, h1, h2, hk.committed, hk.holding⟩
  · intro hne
    obtain ⟨p, hp⟩ := exists_mem_of_ne_nil _ hne
    obtain ⟨_, _, _, hr, _⟩ := h p hp
    exact hdem hr

/-! ### Accepting proposals -/

omit [MembershipJson] in
/-- Registering a batch adds waiters for accepted entries only. -/
theorem Runtime.registerAll_spec (batch : List Proposal) :
    ∀ (indexes : List ℕ) (r : Runtime σ), r.Fair P → (∀ p ∈ batch, P p) →
      (r.registerAll batch indexes).Fair P
      ∧ (r.registerAll batch indexes).node = r.node
      ∧ r.trace ⊆ (r.registerAll batch indexes).trace
      ∧ ∀ w ∈ (r.registerAll batch indexes).pending, w ∈ r.pending
        ∨ ∃ (k index : ℕ) (p : Proposal), batch[k]? = some p ∧ indexes[k]? = some index
          ∧ index ≠ 0 ∧ w = (index, p.result)
          ∧ Output.accept p.result { index := index, term := r.node.term, data := p.data }
            ∈ (r.registerAll batch indexes).trace := by
  induction batch with
  | nil => intro indexes r hf _; cases indexes <;> exact ⟨hf, rfl, fun _ h => h, fun w hw => .inl hw⟩
  | cons p batch ih =>
    intro indexes r hf hP
    cases indexes with
    | nil => exact ⟨hf, rfl, fun _ h => h, fun w hw => .inl hw⟩
    | cons index indexes =>
      -- one registration
      have hreg : (r.register p index).Fair P ∧ (r.register p index).node = r.node
          ∧ r.trace ⊆ (r.register p index).trace
          ∧ ∀ w ∈ (r.register p index).pending, w ∈ r.pending ∨ (index ≠ 0
            ∧ w = (index, p.result) ∧ accept p.result
              { index := index, term := r.node.term, data := p.data } ∈ (r.register p index).trace) := by
        unfold register
        split
        · refine ⟨hf.emit _ (fun o ho => Silent.fair ?_ _) rfl, rfl,
            subset_append_left _ _, fun w hw => .inl hw⟩
          rw [mem_singleton.mp ho]
          simp [Silent]
        · rename_i hne
          refine ⟨hf.emit _ (fun o ho => ?_) rfl, rfl, subset_append_left _ _, fun w hw => ?_⟩
          · rw [mem_singleton.mp ho]
            exact ⟨p, hP p mem_cons_self, rfl, rfl⟩
          · rcases mem_cons.mp hw with hw | hw
            · exact .inr ⟨hne, hw, mem_append_right _ (by simp)⟩
            · exact .inl (mem_filter.mp hw).1
      obtain ⟨h1, h2, h3, h4⟩ := hreg
      obtain ⟨k1, k2, k3, k4⟩ := ih indexes (r.register p index) h1
        (fun q hq => hP q (mem_cons_of_mem _ hq))
      refine ⟨k1, k2.trans h2, fun o ho => k3 (h3 ho), fun w hw => ?_⟩
      rcases k4 w hw with hw | ⟨k, i, q, hq, hi, hne, hweq, hacc⟩
      · rcases h4 w hw with hw | ⟨hne, hweq, hacc⟩
        · exact .inl hw
        · exact .inr ⟨0, index, p, rfl, rfl, hne, hweq, k3 hacc⟩
      · rw [h2] at hacc
        exact .inr ⟨k + 1, i, q, by simpa using hq, by simpa using hi, hne, hweq, hacc⟩

theorem Runtime.proposeBatch_ready (batch : List Proposal) (hb : ∀ p ∈ batch, P p)
    (hf : r.Fair P) (h : r.Ready) : (r.proposeBatch env batch).Fairly P Runtime.Ready := by
  unfold proposeBatch
  split
  · -- nothing was appended and everyone is told so
    rename_i node e heq
    have hnode : node = r.node := by
      rcases proposeBatch_follows h.sane.ok (batch.map Proposal.data) with ⟨_, h'⟩ | ⟨_, _, _, h', _⟩
      · rw [h'] at heq
        exact (Prod.mk.inj heq).1.symm
      · rw [h'] at heq
        simp at heq
    subst hnode
    have hp : r.Passes (r.emit (batch.map
        (fun p : Proposal => .proposal p.result { err := some (.raft e) } none))) := by
      refine .emit r fun o ho => ?_
      obtain ⟨p, _, rfl⟩ := mem_map.mp ho
      simp [Silent]
    refine ⟨hp.fair hf, fun _ => ⟨h.sane, fun p hp' => ?_⟩⟩
    obtain ⟨e', h1, h2, h3⟩ := h.waits p hp'
    exact ⟨e', h1, mem_append_left _ h2, h3⟩
  · rename_i node indexes u heq
    obtain ⟨hfol, hterm, hacc⟩ := proposeBatch_accepts h.sane heq
    have hl : (Input.commands (batch.map Proposal.data)).Local := ⟨by simp, by simp⟩
    have hsane : node.Sane := hfol.sane h.sane
    have hf' : Fair P { r with node := node } := hf
    obtain ⟨k1, k2, k3, k4⟩ := registerAll_spec batch indexes { r with node := node } hf' hb
    dsimp only at k2 k3 k4 ⊢
    -- what every waiter, old or new, may expect
    have hexp : ∀ w ∈ (registerAll { r with node := node } batch indexes).pending,
        ∃ e, e.index = w.1
          ∧ accept w.2 e ∈ (registerAll { r with node := node } batch indexes).trace
          ∧ e ∈ node.log ∧ r.node.commit < e.index := by
      intro w hw
      rcases k4 w hw with hw | ⟨k, index, p, hp, hi, hne, rfl, hin⟩
      · obtain ⟨e, h1, h2, _, h4, h5⟩ := h.waits w hw
        exact ⟨e, h1, k3 h2, (hfol.extends hl h.sane.framed).log h4, h5⟩
      · obtain ⟨_, hmem, hlt⟩ := hacc k index p.data (by rw [getElem?_map, hp]; rfl) hi hne
        rw [hterm] at hin
        exact ⟨_, rfl, hin, hmem, hlt⟩
    have hlead : r.node.role = .leader := by
      by_contra hr
      rw [Node.proposeBatch, if_pos hr] at heq
      simp at heq
    split
    · -- every command was too large
      rename_i hlen
      have hnode : node = r.node := by
        unfold Node.proposeBatch at heq
        rw [if_neg (by simp [hlead])] at heq
        dsimp only at heq
        split at heq
        · exact (Prod.mk.inj heq).1.symm
        · rename_i hne
          simp only [Prod.mk.injEq, Except.ok.injEq] at heq
          rw [← heq.2.2, Update.merge_entries, length_append] at hlen
          exact absurd (Nat.eq_zero_of_add_eq_zero_right hlen) hne
      subst hnode
      refine ⟨k1, fun _ => ⟨by rw [k2]; exact hsane, fun w hw => ?_⟩⟩
      obtain ⟨e, h1, h2, h3, h4⟩ := hexp w hw
      dsimp only
      rw [k2]
      exact ⟨e, h1, h2, hlead, h3, h4⟩
    · refine processUpdate_ready k1 (by rw [k2]; exact hsane) (fun w hw => ?_) ?_
      · obtain ⟨e, h1, h2, h3, h4⟩ := hexp w hw
        have hret := hfol.retains hl h.sane.framed h3 h4
        rw [k2]
        exact ⟨e, h1, h2, hret.committed, hret.holding⟩
      · intro _ hr
        rw [k2] at hr
        exact hfol.path.demoted hlead hr

/-! ### Handlers -/

section
omit [MembershipJson]

theorem Runtime.Ready.passes (h : r.Ready) (hp : r.Passes r') : r'.Ready := by
  obtain ⟨os, hos, _⟩ := hp.trace
  refine ⟨by rw [hp.node]; exact h.sane, fun p hmem => ?_⟩
  rw [hp.pending] at hmem
  obtain ⟨e, h1, h2, h3⟩ := h.waits p hmem
  rw [hp.node, hos]
  exact ⟨e, h1, mem_append_left _ h2, h3⟩

theorem Outcome.Fairly.passes (h : o.Fairly P Runtime.Ready) (hp : o.1.Passes r') :
    Outcome.Fairly P Runtime.Ready (r', o.2) :=
  ⟨hp.fair h.fair, fun hnone => (h.holds hnone).passes hp⟩

theorem PendingRead.complete_silent (read : PendingRead) (answer : ReadResult) (applied : ℕ) :
    ∀ o ∈ read.complete answer applied, o.Silent := by
  intro o ho
  obtain ⟨result, _, rfl⟩ := mem_map.mp ho
  trivial

theorem Runtime.acknowledgeRead_passes (env : Env σ) (m : Message) (r : Runtime σ) :
    r.Passes (r.acknowledgeRead env m) := by
  unfold acknowledgeRead
  split
  · exact .refl r
  split
  · exact .refl r
  · dsimp only
    split
    · exact ⟨rfl, rfl, [], by simp⟩
    · exact ⟨rfl, rfl, _, rfl, PendingRead.complete_silent _ _ _⟩

end

/-- **An append that answers a waiter for another's entry**: it overtakes an entry somebody
    waits for. -/
def Runtime.Overtaken (r : Runtime σ) (m : Message) : Prop :=
  ∃ p ∈ r.pending, ∃ e ∈ r.node.log, e.index = p.1 ∧ r.node.Overtakes m e

theorem Runtime.stepMessage_ready (event : Inbound) (hf : r.Fair P) (h : r.Ready)
    (hno : ¬ r.Overtaken event.message) :
    (r.stepMessage env event).Fairly P Runtime.Ready := by
  have ho : ((({ r with node := (r.node.stepWith env.nextTerm event.message).1 } :
      Runtime σ).processUpdateWithSnapshot env (r.node.stepWith env.nextTerm event.message).2
      event.snapshotData)).Fairly P Ready := by
    refine operate_ready hf h.waits (stepWith_sane _ h.sane _) ?_ ?_
    · intro hr p hp e he hi hlt
      refine (stepWith_retains _ hr h.sane.framed h.sane.ok _).1 e he hlt (fun hover => ?_)
      exact hno ⟨p, hp, e, he, hi, hover⟩
    · exact fun hr => (stepWith_retains _ hr h.sane.framed h.sane.ok _).2
  unfold stepMessage
  dsimp only
  generalize processUpdateWithSnapshot _ _ _ _ = o at *
  split
  · exact (ho.passes (acknowledgeRead_passes _ _ _)).passes
      (.emit _ (by simp [Silent]))
  · exact ho.passes (.emit _ (by simp [Silent]))

theorem Runtime.changeMembership_ready (voters : List ℕ) (result : ℕ) (hf : r.Fair P)
    (h : r.Ready) : (r.changeMembership env voters result).Fairly P Runtime.Ready := by
  have hl : (Input.voters voters).Local := ⟨by simp, by simp⟩
  have hfol := proposeMembership_follows h.sane.ok voters
  unfold changeMembership
  split
  · -- a refused change may leave an entry at the end of the log
    rename_i node e heq
    obtain ⟨n', e', heq', hq⟩ | ⟨n', _, _, heq', _⟩ := hfol
    · rw [heq] at heq'
      obtain ⟨rfl, _⟩ := Prod.mk.inj heq'
      have hx := hq.toFollows.extends hl h.sane.framed
      have hr : r.node.role = .leader → node.role = .leader := by
        intro hlead
        by_contra hne
        exact absurd (hq.path.demoted hlead hne) (by simp)
      refine ⟨hf.emit _ (fun o ho => ?_) rfl, fun _ => ⟨hq.toFollows.sane h.sane, fun p hp => ?_⟩⟩
      · rw [mem_singleton.mp ho]
        trivial
      · obtain ⟨e₁, h1, h2, h3, h4, h5⟩ := h.waits p hp
        have hlt : node.commit < e₁.index := by simpa using hx.waits e₁ (hx.log h4) h5
        exact ⟨e₁, h1, mem_append_left _ h2, hr h3, hx.log h4, hlt⟩
    · rw [heq] at heq'
      simp at heq'
  · rename_i node index u heq
    obtain ⟨n', _, heq', _⟩ | ⟨n', i', u', heq', hq⟩ := hfol
    · rw [heq] at heq'
      simp at heq'
    rw [heq] at heq'
    simp only [Prod.mk.injEq, Except.ok.injEq] at heq'
    obtain ⟨rfl, rfl, rfl⟩ := heq'
    split
    · rename_i hle
      obtain ⟨rfl, _⟩ := proposeMembership_committed h.sane.framed.commit_hi heq hle
      refine ⟨hf.emit _ (fun o ho => ?_) rfl, fun _ => h.passes (.emit r (by simp [Silent]))⟩
      rw [mem_singleton.mp ho]
      trivial
    · refine operate_ready (r := { r with membership := some ⟨voters, result⟩ }) hf
        h.waits (hq.toFollows.sane h.sane) ?_ (fun hr => hq.path.demoted hr)
      intro _ p _ e he _ hlt
      exact hq.toFollows.retains hl h.sane.framed
        ((hq.toFollows.extends hl h.sane.framed).log he) hlt

theorem Runtime.probeReads_ready (results : List ℕ) (hf : r.Fair P) (h : r.Ready) :
    (r.probeReads env results).Fairly P Runtime.Ready := by
  have hl : ∀ context, (Input.probe context).Local := fun _ => ⟨by simp, by simp⟩
  have hfol := readProbe_follows h.sane.ok (r.nextReadContext + 1)
  unfold probeReads
  dsimp only
  split
  · rename_i node e heq
    obtain ⟨_, heq'⟩ | ⟨_, _, heq', _, _⟩ := hfol
    · rw [heq] at heq'
      obtain ⟨rfl, _⟩ := Prod.mk.inj heq'
      refine ⟨hf.emit _ (fun o ho => (PendingRead.complete_silent _ _ _ o ho).fair _) rfl,
        fun _ => h.passes ⟨rfl, rfl, _, rfl, PendingRead.complete_silent _ _ _⟩⟩
    · rw [heq] at heq'
      simp at heq'
  · rename_i node u heq
    obtain ⟨_, heq'⟩ | ⟨n', u', heq', hq, _⟩ := hfol
    · rw [heq] at heq'
      simp at heq'
    rw [heq] at heq'
    simp only [Prod.mk.injEq, Except.ok.injEq] at heq'
    obtain ⟨rfl, rfl⟩ := heq'
    have hk := hq.toFollows
    refine Outcome.Fairly.andThen (Q := Ready)
      (operate_ready (r := { r with
        nextReadContext := r.nextReadContext + 1
        pendingReads := (r.nextReadContext + 1, ⟨results, [r.node.cfg.id]⟩)
          :: without r.pendingReads (r.nextReadContext + 1) })
        hf h.waits (hk.sane h.sane) (fun _ p _ e he _ hlt => hk.retains (hl _) h.sane.framed
          ((hk.extends (hl _) h.sane.framed).log he) hlt) (fun hr => hk.path.demoted hr))
      (fun r3 hf3 h3 => ?_)
    split
    · refine ⟨hf3.emit _ (fun o ho => (PendingRead.complete_silent _ _ _ o ho).fair _) rfl,
        fun _ => h3.passes ⟨rfl, rfl, _, rfl, PendingRead.complete_silent _ _ _⟩⟩
    · exact ⟨hf3, fun _ => h3⟩

theorem Runtime.onTick_ready (hf : r.Fair P) (h : r.Ready) :
    (r.onTick env).Fairly P Runtime.Ready := by
  have hl : Input.tick.Local := ⟨by simp, by simp⟩
  have hfol : r.node.role = .leader → Follows .tick r.node (r.node.tickWith env.nextTerm) :=
    fun hr => tickWith_follows .tick (fun h' => absurd hr h') h.sane.ok
  refine operate_ready hf h.waits (tickWith_sane _ h.sane) ?_ ?_
  · intro hr p _ e he _ hlt
    exact (hfol hr).retains hl h.sane.framed (((hfol hr).extends hl h.sane.framed).log he) hlt
  · exact fun hr => (hfol hr).path.demoted hr

/-! ### Coalesced appends -/

/-- The first append of a group that the node does not ignore is no threat to a waiter. -/
def Runtime.Spared (r : Runtime σ) (group : List Inbound) : Prop :=
  ∀ x, group.find? (fun x => !r.node.ignores x.message) = some x → ¬ r.Overtaken x.message

omit [MembershipJson] in
private theorem steps_silent (results : List ℕ) (err : Option RuntimeError) :
    ∀ o ∈ results.map (fun result => Output.step result err), o.Silent := by
  intro o ho
  obtain ⟨result, _, rfl⟩ := mem_map.mp ho
  trivial

/-- Flushing merged updates while the node may be ahead of them. -/
theorem Runtime.flush_serves (merged : Update) (waiting : List ℕ) (hf : r.Fair P)
    (hs : r.node.Sane) (h : r.Expects merged.committed keep)
    (hw : waiting = [] → merged.committed = []) :
    (r.flush env merged waiting).Fairly P (fun r' => r.node.Compacts r'.node
      ∧ r'.Expects [] keep ∧ (r.pending = [] → r'.pending = [])) := by
  unfold flush
  split
  · rename_i hnil
    rw [hw hnil] at h
    exact ⟨hf, fun _ => ⟨.refl _, h, id⟩⟩
  have ho : (r.processUpdate env merged).Fairly P (fun r' => r.node.Compacts r'.node
      ∧ r'.Expects [] keep ∧ (r.pending = [] → r'.pending = [])
      ∧ (merged.roleChanged = true → r'.node.role ≠ .leader → r'.pending = [])) :=
    processUpdate_serves hf hs h
  dsimp only
  have hp := Passes.emit (r.processUpdate env merged).1
    (steps_silent waiting (r.processUpdate env merged).2)
  refine ⟨hp.fair ho.fair, fun hnone => ?_⟩
  obtain ⟨h1, h2, h3, _⟩ := ho.holds hnone
  exact ⟨h1, hp.expects h2, h3⟩

omit [MembershipJson] in
private theorem Runtime.failRest_fairly (rest : List Inbound) (e : RuntimeError) (hf : r.Fair P) :
    (r.failRest rest e).Fairly P Q := by
  have hp : r.Passes (r.emit (rest.map (fun event => step event.result (some e)))) := by
    refine .emit r fun o ho => ?_
    obtain ⟨event, _, rfl⟩ := mem_map.mp ho
    trivial
  exact ⟨hp.fair hf, by simp [failRest]⟩

/-- **Stepping a group of appends.**  As long as somebody waits the node leads and the appends
    so far were ignored; the first one that is not makes it a follower, after which nobody
    waits. -/
theorem Runtime.stepAppends_ready (group : List Inbound) :
    ∀ (merged : Update) (waiting : List ℕ) (r : Runtime σ),
      (∀ x ∈ group, x.message.type = .append) → r.Fair P → r.node.Sane →
      (waiting = [] → merged.committed = []) →
      (r.pending = [] ∨ (r.Waits ∧ merged.committed = [] ∧ r.Spared group)) →
      (r.stepAppends env merged waiting group).Fairly P Runtime.Ready := by
  induction group with
  | nil =>
    intro merged waiting r _ hf hs hw hstate
    show (r.flush env merged waiting).Fairly P Ready
    have hexp : r.Expects merged.committed r.node.Holding := by
      rcases hstate with h0 | ⟨hwait, hnone, _⟩
      · exact .of_empty h0 _ _
      · intro p hp
        obtain ⟨e, h1, h2, hr, h3, h4⟩ := hwait p hp
        exact ⟨e, h1, h2, by simp [hnone], .inl fun _ => ⟨h3, h4⟩⟩
    refine (flush_serves merged waiting hf hs hexp hw).imp ?_
    rintro r' ⟨hcut, hexp', hidle⟩
    refine ⟨hcut.sane hs, fun p hp => ?_⟩
    rcases hstate with h0 | ⟨hwait, _, _⟩
    · rw [hidle h0] at hp
      simp at hp
    have hlead : r.node.role = .leader := by
      have hne : r.pending ≠ [] := fun h0 => by rw [hidle h0] at hp; simp at hp
      obtain ⟨q, hq⟩ := exists_mem_of_ne_nil _ hne
      exact (hwait q hq).choose_spec.2.2.1
    obtain ⟨e, h1, h2, _, h4 | h4⟩ := hexp' p hp
    · obtain ⟨k1, k2⟩ := h4 hlead
      exact ⟨e, h1, h2, by rw [hcut.role]; exact hlead, hcut.log e k1 k2,
        by rw [hcut.commit]; exact k2⟩
    · simp at h4
  | cons event rest ih =>
    intro merged waiting r happ hf hs hw hstate
    have hm : event.message.type = .append := happ event mem_cons_self
    have happ' : ∀ x ∈ rest, x.message.type = .append := fun x hx => happ x (mem_cons_of_mem _ hx)
    have hs1 := stepWith_sane env.nextTerm hs event.message
    -- while somebody waits, an append that is merged was ignored
    have hmerge : r.Waits → r.pending ≠ [] →
        mergeable (r.node.stepWith env.nextTerm event.message).2 = true →
        r.node.ignores event.message = true := by
      intro hwait hne hmg
      obtain ⟨q, hq⟩ := exists_mem_of_ne_nil _ hne
      have hlead : r.node.role = .leader := (hwait q hq).choose_spec.2.2.1
      by_contra hig
      have hrole := (stepWith_append env.nextTerm hm hs.framed hs.ok (by simpa using hig)).1
      have hchg := (stepWith_retains env.nextTerm hlead hs.framed hs.ok event.message).2
        (by rw [hrole]; simp)
      rw [(mergeable_quiet hmg).2] at hchg
      simp at hchg
    unfold stepAppends
    dsimp only
    split
    · rename_i hmg
      refine ih _ _ _ happ' hf hs1 (by simp) ?_
      rcases hstate with h0 | ⟨hwait, hnone, hsp⟩
      · exact .inl h0
      by_cases hne : r.pending = []
      · exact .inl hne
      have hig := hmerge hwait hne hmg
      have hu := stepWith_ignored env.nextTerm hm hig
      refine .inr ⟨fun p hp => ?_, by simp [mergeAppend, hnone, hu.committed], fun x hx => ?_⟩
      · obtain ⟨e, h1, h2, h3⟩ := hwait p hp
        refine ⟨e, h1, h2, ?_⟩
        rw [hu.core]
        exact h3
      · -- the node still ignores the same appends
        have hsame : ∀ m, (r.node.stepWith env.nextTerm event.message).1.ignores m
            = r.node.ignores m := by
          intro m
          unfold ignores Core.isCommunicationPeer
          rw [hu.core]
        simp only [hsame] at hx
        rintro ⟨p, hp, e, he, hi, hover⟩
        rw [hu.core] at he
        refine hsp x (by rw [find?_cons_of_neg (by simp [hig])]; exact hx)
          ⟨p, hp, e, he, hi, ?_⟩
        unfold Overtakes at hover ⊢
        rw [hsame, hu.core] at hover
        exact hover
    · rename_i hmg
      -- somebody waits only if this append ends the leadership without overtaking anyone
      have hend : r.pending ≠ [] → r.Waits ∧ merged.committed = []
          ∧ (r.node.stepWith env.nextTerm event.message).1.role = .follower
          ∧ (r.node.stepWith env.nextTerm event.message).2.roleChanged = true
          ∧ ∀ p ∈ r.pending, ∀ e ∈ r.node.log, e.index = p.1 → r.node.commit < e.index →
            Retains (r.node.stepWith env.nextTerm event.message) e := by
        intro hne
        rcases hstate with h0 | ⟨hwait, hnone, hsp⟩
        · exact absurd h0 hne
        obtain ⟨q, hq⟩ := exists_mem_of_ne_nil _ hne
        have hlead : r.node.role = .leader := (hwait q hq).choose_spec.2.2.1
        have hig : r.node.ignores event.message = false := by
          by_contra hig
          have hu := stepWith_ignored env.nextTerm hm (by simpa using hig)
          refine hmg ?_
          simp [mergeable, hu.quiet.hard, hu.quiet.snapshot, hu.quiet.truncate, hu.roleChanged]
        have hrole := (stepWith_append env.nextTerm hm hs.framed hs.ok hig).1
        have hret := stepWith_retains env.nextTerm hlead hs.framed hs.ok event.message
        refine ⟨hwait, hnone, hrole, hret.2 (by rw [hrole]; simp), fun p hp e he hi hlt => ?_⟩
        refine hret.1 e he hlt (fun hover => ?_)
        exact hsp event (find?_cons_of_pos (by simp [hig])) ⟨p, hp, e, he, hi, hover⟩
      generalize r.node.stepWith env.nextTerm event.message = step at *
      have hexp : Expects { r with node := step.1 } merged.committed
          (fun e => ∀ x ∈ step.2.committed, x.index = e.index → x = e) := by
        intro p hp
        obtain ⟨hwait, hnone, _, _, hret⟩ := hend (fun h0 => by rw [h0] at hp; simp at hp)
        obtain ⟨e, h1, h2, _, h3, h4⟩ := hwait p hp
        exact ⟨e, h1, h2, by simp [hnone], .inl (hret p hp e h3 h1 h4).committed⟩
      have hf1 : Fair P { r with node := step.1 } := hf
      have hflush : (flush env merged waiting { r with node := step.1 }).Fairly P
          (fun r' => step.1.Compacts r'.node
            ∧ r'.Expects [] (fun e => ∀ x ∈ step.2.committed, x.index = e.index → x = e)
            ∧ (r.pending = [] → r'.pending = [])) :=
        flush_serves merged waiting hf1 hs1 hexp hw
      generalize flush env merged waiting { r with node := step.1 } = f at *
      split
      · exact failRest_fairly _ _ hflush.fair
      rename_i hnone
      obtain ⟨hcut, hexp', hidle⟩ := hflush.holds hnone
      have hdone : (f.1.processUpdate env step.2).Fairly P (fun r' => f.1.node.Compacts r'.node
          ∧ r'.Expects [] (fun _ => True) ∧ (f.1.pending = [] → r'.pending = [])
          ∧ (step.2.roleChanged = true → r'.node.role ≠ .leader → r'.pending = [])) := by
        refine processUpdate_serves hflush.fair (hcut.sane hs1) fun p hp => ?_
        obtain ⟨e, h1, h2, _, h4 | h4⟩ := hexp' p hp
        · exact ⟨e, h1, h2, h4, .inl trivial⟩
        · simp at h4
      generalize f.1.processUpdate env step.2 = o at *
      have hp : o.1.Passes (o.1.emit [.step event.result o.2]) := .emit _ (by simp [Silent])
      split
      · exact failRest_fairly _ _ (hp.fair hdone.fair)
      rename_i hok
      obtain ⟨hcut', _, hidle', hlost⟩ := hdone.holds hok
      have hs2 : o.1.node.Sane := hcut'.sane (hcut.sane hs1)
      refine ih {} [] _ happ' (hp.fair hdone.fair) hs2 (fun _ => rfl) (.inl ?_)
      show o.1.pending = []
      by_cases hne : r.pending = []
      · exact hidle' (hidle hne)
      · obtain ⟨_, _, hrole, hchg, _⟩ := hend hne
        refine hlost hchg ?_
        rw [hcut'.role, hcut.role, hrole]
        simp

/-! ### Runs -/

/-- The messages that handling `event` steps. -/
def Runtime.gathers (env : Env σ) (r : Runtime σ) : Event → List Inbound
  | .message event =>
    if event.message.type = .append ∧ event.snapshotData.isNone ∧ r.deferred = [] then
      (drainAppends env.queueSize event r.events).gathered
    else [event]
  | _ => []

/-- **No waiter is overtaken**: the next turn of the loop does not accept an append that brings
    another entry for an index somebody waits at and commits through it. -/
def Runtime.NoOvertake (env : Env σ) (r : Runtime σ) : Action → Prop
  | .next => ∀ event r₁, r.pop = some (event, r₁) → r.Spared (r₁.gathers env event)
  | _ => True

theorem Runtime.handle_ready {event : Event} (hf : r.Fair P) (h : r.Ready)
    (hq : ∀ p, Event.proposal p ∈ r.deferred ++ r.events → P p)
    (hp : ∀ p, event = .proposal p → P p) (hsp : r.Spared (r.gathers env event)) :
    (r.handle env event).Fairly P Runtime.Ready := by
  unfold handle
  split
  · rename_i p
    split
    · refine proposeBatch_ready (r := { r with
        deferred := (drainProposals env.queueSize p r.events).others
        events := (drainProposals env.queueSize p r.events).left }) _ (fun q hmem => ?_) hf
        ⟨h.sane, h.waits⟩
      rcases (drainProposals_splits env.queueSize p r.events).gathered q hmem with hmem | hmem
      · exact hp _ (by rw [mem_singleton.mp hmem])
      · exact hq q (mem_append_right _ hmem)
    · refine proposeBatch_ready [p] (fun q hmem => ?_) hf h
      rw [mem_singleton.mp hmem]
      exact hp p rfl
  · exact changeMembership_ready _ _ hf h
  · rename_i m
    unfold gathers at hsp
    dsimp only at hsp
    split
    · rename_i hcond
      rw [if_pos hcond] at hsp
      have hall := (drainAppends_splits env.queueSize m
        ⟨hcond.1, Option.isNone_iff_eq_none.mp hcond.2.1⟩ r.events).1
      exact stepAppends_ready _ {} [] { r with
        deferred := (drainAppends env.queueSize m r.events).others
        events := (drainAppends env.queueSize m r.events).left }
        (fun x hx => (hall x hx).1) hf h.sane (fun _ => rfl) (.inr ⟨h.waits, rfl, hsp⟩)
    · rename_i hcond
      rw [if_neg hcond] at hsp
      refine stepMessage_ready m hf h (fun hover => ?_)
      -- an append that overtakes somebody is not ignored
      have hig : r.node.ignores m.message = false := by
        obtain ⟨_, _, _, _, _, hover⟩ := hover
        exact hover.2.1
      exact hsp m (find?_cons_of_pos (by simp [hig])) hover
  · exact ⟨(Passes.emit r (by simp [Silent])).fair hf,
      fun _ => h.passes (.emit r (by simp [Silent]))⟩
  · rename_i result
    exact probeReads_ready (r := { r with
      deferred := (collectReads env.queueSize result r.deferred r.events).others
      events := (collectReads env.queueSize result r.deferred r.events).left }) _ hf
      ⟨h.sane, h.waits⟩
  · have hpass : ∀ result, r.Passes
        (({ r with stopped := true } : Runtime σ).emit [.stop result (env.machine.close r.machine)]) :=
      fun result => ⟨rfl, rfl, _, rfl, by simp [Silent]⟩
    exact ⟨(hpass _).fair hf, fun _ => h.passes (hpass _)⟩

/-- What holds of a runtime between two actions. -/
structure Runtime.Honest (P : Proposal → Prop) (r : Runtime σ) : Prop where
  queued : ∀ p, Event.proposal p ∈ r.deferred ++ r.events → P p
  fair : r.Fair P
  ready : r.stopped = false → r.Ready

omit [MembershipJson] in
private theorem Outcome.Fairly.honest (h : o.Fairly P Runtime.Ready)
    (hq : ∀ p, Event.proposal p ∈ o.1.deferred ++ o.1.events → P p) : o.settle.Honest P := by
  unfold Outcome.settle
  split
  · rename_i hnone
    exact ⟨hq, h.fair, fun _ => h.holds hnone⟩
  · exact ⟨hq, dropWaiters_fair h.fair _, fun hs => by simp [fail] at hs⟩

/-- **One action** keeps the runtime honest. -/
theorem Runtime.Honest.act (h : r.Honest P) {a : Action}
    (hp : ∀ p, a = .enqueue (.proposal p) → P p) (hno : r.NoOvertake env a) :
    (r.act env a).Honest P := by
  refine act_cases env h ?_ ?_ ?_
  · rintro event rfl
    refine ⟨fun p hm => ?_, h.fair, fun hs => ⟨(h.ready hs).sane, (h.ready hs).waits⟩⟩
    rcases mem_append.mp hm with hm | hm
    · exact h.queued p (mem_append_left _ hm)
    · rcases mem_append.mp hm with hm | hm
      · exact h.queued p (mem_append_right _ hm)
      · exact hp p (by rw [mem_singleton.mp hm])
  · rintro rfl hrun
    have hsame := processUpdate_sameQueues env (r.node.tickWith env.nextTerm).2 none
      { r with node := (r.node.tickWith env.nextTerm).1 }
    refine (onTick_ready h.fair (h.ready hrun)).honest fun p hm => ?_
    rw [show (r.onTick env).1.deferred = r.deferred from hsame.deferred,
      show (r.onTick env).1.events = r.events from hsame.events] at hm
    exact h.queued p hm
  · rintro rfl hrun event r₁ hpop
    have hready := h.ready hrun
    have hsp := hno event r₁ hpop
    have heq := (pop_spec hpop).2
    have hmem : event ∈ r.deferred ++ r.events := mem_of_mem_head? (pop_head hpop)
    refine Outcome.Fairly.honest (handle_ready ?_ ?_
      (fun p hp => h.queued p (pop_sub hpop _ hp))
      (fun p hpe => h.queued p (hpe ▸ hmem)) ?_) (fun p hpe =>
        h.queued p (pop_waiting env hpop _ hpe))
    · rw [heq]
      exact h.fair
    · rw [heq]
      exact ⟨hready.sane, hready.waits⟩
    · have hsame : ∀ group, r.Spared group → r₁.Spared group := by
        intro group hg
        rw [heq]
        exact hg
      exact hsame _ hsp

theorem Starts.honest {cfg : Config} (h : Starts env cfg r) : r.Honest P := by
  obtain ⟨p, m, hr, hcore⟩ := new_spec h.node
  simp only [Option.getD_some] at hr hcore
  have hwf := hr.wf r.store.hard
  rw [← hcore] at hwf
  refine ⟨fun p hm => ?_, fun o ho => ?_, fun _ => ⟨⟨hwf.toFramed, ?_⟩, fun p hp => ?_⟩⟩
  · rw [h.deferred, h.events] at hm
    simp at hm
  · rw [h.trace] at ho
    simp at ho
  · exact .of_role_ne hwf.commit_lo (by rw [hcore]; simp [restoredCore])
  · rw [h.pending] at hp
    simp at hp

end Codec

end Lsmdb.RaftNode

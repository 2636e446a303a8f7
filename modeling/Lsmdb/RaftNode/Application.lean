import Lsmdb.Raft.Ledger
import Lsmdb.RaftNode.Durability

namespace Lsmdb.RaftNode

open Lsmdb.Raft Lsmdb.RaftStore RaftNode.Runtime List

/-!
# Raft runtime — the state machine follows the commit index

Between two events the machine has applied exactly what the node has committed (`Current`), and
on the way from one to the next it is called in index order (`InOrder`).  Neither depends on
what the node is told or on how its term advances: an update accounts for the node's change, so
`Due u hi` — the machine can be brought to `hi` by what `u` carries — holds of every update when
it is processed, also while a group of appends has taken the node ahead of it.

The runtime ends with an error only where the store or the machine returned one (`Faults`); the
checks for a gap, for an entry that cannot be decoded and for a compaction that fails never fire.
All this needs that no client proposes data with the configuration prefix: such data reaches the
log unchecked, and a leader that commits it alone stops at it (`forged_entry_stops`).
-/

/-! ### Calls in order -/

/-- A successful call of the state machine. -/
inductive Call where
  | apply (index : ℕ)
  | restore (index : ℕ)
  deriving DecidableEq, Repr

/-- The index a call leaves the machine at. -/
def Call.index : Call → ℕ
  | .apply index => index
  | .restore index => index

/-- **Calls in order**, from an applied index on: an application moves it by one, and a restored
    snapshot beyond it. -/
def InOrder : ℕ → List Call → Prop
  | _, [] => True
  | applied, .apply index :: rest => index = applied + 1 ∧ InOrder index rest
  | applied, .restore index :: rest => applied < index ∧ InOrder index rest

/-- The applied index after the calls. -/
def reached (applied : ℕ) (calls : List Call) : ℕ := (calls.getLast?.map Call.index).getD applied

theorem reached_cons (applied : ℕ) (call : Call) (rest : List Call) :
    reached applied (call :: rest) = reached call.index rest := by
  cases rest with
  | nil => rfl
  | cons next rest => rfl

theorem InOrder.snoc {calls : List Call} {call : Call} :
    ∀ {applied : ℕ}, InOrder applied calls → InOrder (reached applied calls) [call] →
      InOrder applied (calls ++ [call]) := by
  induction calls with
  | nil => exact fun _ h => h
  | cons first rest ih =>
    intro applied h hlast
    rw [reached_cons] at hlast
    cases first with
    | apply index => exact ⟨h.1, ih h.2 hlast⟩
    | restore index => exact ⟨h.1, ih h.2 hlast⟩

variable {σ : Type}

/-- The machine that also keeps the calls made so far. -/
def StateMachine.recorded (m : StateMachine σ) : StateMachine (σ × List Call) where
  appliedIndex s := m.appliedIndex s.1
  apply s index command := (m.apply s.1 index command).map (fun t => (t, s.2 ++ [.apply index]))
  writeSnapshot s := m.writeSnapshot s.1
  restoreSnapshot s index data :=
    (m.restoreSnapshot s.1 index data).map (fun t => (t, s.2 ++ [.restore index]))
  close s := m.close s.1
  apply_index := by
    intro s s' index command hi h
    cases hm : m.apply s.1 index command with
    | error e => rw [hm] at h; simp [Except.map] at h
    | ok t =>
      rw [hm] at h
      rw [← Except.ok.inj h]
      exact m.apply_index hi hm
  restore_index := by
    intro s s' index data h
    cases hm : m.restoreSnapshot s.1 index data with
    | error e => rw [hm] at h; simp [Except.map] at h
    | ok t =>
      rw [hm] at h
      rw [← Except.ok.inj h]
      exact m.restore_index hm

/-- **What a machine keeps** when it is called in order. -/
structure StateMachine.Upholds (m : StateMachine σ) (J : σ → Prop) : Prop where
  apply : ∀ {s s' : σ} {index : ℕ} {command : Bytes}, J s → index = m.appliedIndex s + 1 →
    m.apply s index command = .ok s' → J s'
  restore : ∀ {s s' : σ} {index : ℕ} {data : Bytes}, J s → m.appliedIndex s < index →
    m.restoreSnapshot s index data = .ok s' → J s'

/-- A recorded machine keeps its calls in order. -/
theorem StateMachine.recorded_upholds (m : StateMachine σ) (start : ℕ) :
    m.recorded.Upholds (fun s => InOrder start s.2 ∧ reached start s.2 = m.appliedIndex s.1) where
  apply := by
    rintro s s' index command ⟨ho, hr⟩ hi h
    have hi' := m.recorded.apply_index hi h
    cases hm : m.apply s.1 index command with
    | error e => simp [StateMachine.recorded, hm, Except.map] at h
    | ok t =>
      simp only [StateMachine.recorded, hm, Except.map, Except.ok.injEq] at h
      subst h
      refine ⟨ho.snoc ⟨?_, trivial⟩, ?_⟩
      · rw [hr]
        exact hi
      · rw [show m.appliedIndex t = index from hi']
        simp [reached, Call.index]
  restore := by
    rintro s s' index data ⟨ho, hr⟩ hi h
    have hi' := m.recorded.restore_index h
    cases hm : m.restoreSnapshot s.1 index data with
    | error e => simp [StateMachine.recorded, hm, Except.map] at h
    | ok t =>
      simp only [StateMachine.recorded, hm, Except.map, Except.ok.injEq] at h
      subst h
      refine ⟨ho.snoc ⟨?_, trivial⟩, ?_⟩
      · rw [hr]
        exact hi
      · rw [show m.appliedIndex t = index from hi']
        simp [reached, Call.index]

/-! ### How the loop may end -/

/-- **The errors of the store and of the machine**, the only ones that end the loop. -/
inductive Faults (env : Env σ) (trace : List Output) : RuntimeError → Prop
  | persist {u : Update} {d : Option (Except String Bytes)} {e : String}
      (h : Output.persist u d (some e) ∈ trace) :
      Faults env trace (.failed s!"persist raft update: {e}")
  | persistSnapshot {u : Update} {d : Option (Except String Bytes)} {e : String}
      (h : Output.persist u d (some e) ∈ trace) :
      Faults env trace (.failed s!"persist raft snapshot: {e}")
  | restore {s : σ} {index : ℕ} {data : Bytes} {e : String}
      (h : env.machine.restoreSnapshot s index data = .error e) :
      Faults env trace (.failed s!"restore state snapshot {index}: {e}")
  | apply {s : σ} {index : ℕ} {command : Bytes} {e : String}
      (h : env.machine.apply s index command = .error e) :
      Faults env trace (.failed s!"apply committed entry {index}: {e}")

variable {env : Env σ} {J : σ → Prop} {P Q : Node → Stable → σ → Prop} {o : Outcome σ}
  {r : Runtime σ} {u : Update} {d : Option (Except String Bytes)} {hi : ℕ}

theorem Faults.mono {trace trace' : List Output} {e : RuntimeError} (h : Faults env trace e)
    (ht : trace ⊆ trace') : Faults env trace' e := by
  cases h with
  | persist h => exact .persist (ht h)
  | persistSnapshot h => exact .persistSnapshot (ht h)
  | restore h => exact .restore h
  | apply h => exact .apply h

/-- **An orderly outcome**: the machine was called in order, an error is one of the store or of
    the machine, and without one `P` holds. -/
structure Outcome.Orderly (env : Env σ) (J : σ → Prop) (P : Node → Stable → σ → Prop)
    (o : Outcome σ) : Prop where
  kept : J o.1.machine
  fault : ∀ e, o.2 = some e → Faults env o.1.trace e
  holds : o.2 = none → P o.1.node o.1.store o.1.machine

theorem Outcome.Orderly.done (hj : J r.machine) (h : P r.node r.store r.machine) :
    Outcome.Orderly env J P (r, none) :=
  ⟨hj, by simp, fun _ => h⟩

theorem Outcome.Orderly.failed (hj : J r.machine) {e : RuntimeError}
    (h : Faults env r.trace e) : Outcome.Orderly env J P (r, some e) :=
  ⟨hj, fun e' he => by rw [← Option.some.inj he]; exact h, by simp⟩

theorem Outcome.Orderly.andThen (h : o.Orderly env J P) {f : Runtime σ → Outcome σ}
    (hf : ∀ r : Runtime σ, J r.machine → P r.node r.store r.machine → (f r).Orderly env J Q) :
    (o.andThen f).Orderly env J Q := by
  unfold Outcome.andThen
  cases he : o.2 with
  | none => exact hf o.1 h.kept (h.holds he)
  | some e => exact ⟨h.kept, h.fault, fun hn => by rw [he] at hn; simp at hn⟩

theorem Outcome.Orderly.emit (h : o.Orderly env J P) (os : List Output) :
    Outcome.Orderly env J P (o.1.emit os, o.2) :=
  ⟨h.kept, fun e he => (h.fault e he).mono (subset_append_left _ _), h.holds⟩

private theorem Outcome.Orderly.persisted (hj : J r.machine) (p : Stable × Option String)
    {mk : String → RuntimeError}
    (hmk : ∀ e trace, Output.persist u d (some e) ∈ trace → Faults env trace (mk e))
    (h : p.2 = none → P r.node p.1 r.machine) :
    Outcome.Orderly env J P
      ({ r with store := p.1 }.emit [.persist u d p.2], p.2.map mk) := by
  obtain ⟨s, err⟩ := p
  cases err with
  | none => exact .done hj (h rfl)
  | some e =>
    refine Outcome.Orderly.failed
      (r := ({ r with store := s } : Runtime σ).emit [.persist u d (some e)]) hj (hmk e _ ?_)
    exact mem_append_right _ (mem_singleton.mpr rfl)

/-! ### Feeding the machine -/

section Codec
variable [MembershipJson]

/-- **Entries that take the machine** from `applied` to `hi`: in index order, complete above
    `applied`, and decodable there. -/
structure Feeds (applied hi : ℕ) (entries : List Entry) : Prop where
  order : entries.Pairwise (fun x y => x.index < y.index)
  le : ∀ e ∈ entries, e.index ≤ hi
  complete : ∀ i, applied < i → i ≤ hi → ∃ e ∈ entries, e.index = i
  decodes : ∀ e ∈ entries, applied < e.index → ∃ b, isMembershipEntry e.data = .ok b

section Feeds
variable {applied : ℕ} {x : Entry} {rest : List Entry}

/-- The first entry above `applied` is the next one. -/
theorem Feeds.next (h : Feeds applied hi (x :: rest)) (hlt : applied < x.index) :
    x.index = applied + 1 := by
  have hx := h.le x mem_cons_self
  obtain ⟨e, he, hei⟩ := h.complete (applied + 1) (Nat.lt_succ_self _) (by omega)
  rcases mem_cons.mp he with rfl | he
  · exact hei
  · have := (pairwise_cons.mp h.order).1 e he
    omega

theorem Feeds.tail {applied' : ℕ} (h : Feeds applied hi (x :: rest)) (hle : applied ≤ applied')
    (hx : x.index ≤ applied') : Feeds applied' hi rest := by
  refine ⟨(pairwise_cons.mp h.order).2, fun e he => h.le e (mem_cons_of_mem _ he),
    fun i hlo hhi => ?_, fun e he hlt => h.decodes e (mem_cons_of_mem _ he) (by omega)⟩
  obtain ⟨e, he, hei⟩ := h.complete i (by omega) hhi
  rcases mem_cons.mp he with rfl | he
  · omega
  · exact ⟨e, he, hei⟩

end Feeds

/-- **Applying one committed entry.** -/
theorem Runtime.applyEntry_orderly {x : Entry} {rest : List Entry} (hk : env.machine.Upholds J)
    (hj : J r.machine) (ha : env.machine.appliedIndex r.machine ≤ hi)
    (h : Feeds (env.machine.appliedIndex r.machine) hi (x :: rest)) :
    (r.applyEntry env x).Orderly env J (fun n s m => n = r.node ∧ s = r.store
      ∧ env.machine.appliedIndex m ≤ hi ∧ Feeds (env.machine.appliedIndex m) hi rest) := by
  unfold applyEntry
  dsimp only
  split
  · rename_i hle
    have hc := r.complete_aside x
    refine .done (by rw [hc.machine]; exact hj) ⟨hc.node, hc.store, ?_⟩
    rw [hc.machine]
    exact ⟨ha, h.tail (Nat.le_refl _) hle⟩
  · rename_i hgt
    have hnext := h.next (Nat.lt_of_not_le hgt)
    rw [if_neg (by simpa using hnext)]
    obtain ⟨b, hb⟩ := h.decodes x mem_cons_self (Nat.lt_of_not_le hgt)
    rw [hb]
    dsimp only
    split
    · rename_i e he
      exact .failed hj (.apply he)
    rename_i machine hm
    have hc := ({ r with machine := machine } : Runtime σ).complete_aside x
    have hi' : env.machine.appliedIndex machine = x.index := env.machine.apply_index hnext hm
    have hmach : (complete { r with machine := machine } x).machine = machine :=
      hc.machine
    refine .done ?_ ⟨hc.node, hc.store, ?_⟩
    · rw [hmach]
      exact hk.apply hj hnext hm
    · rw [hmach, hi']
      exact ⟨h.le x mem_cons_self, h.tail (by omega) (Nat.le_refl _)⟩

/-- **Applying what an update committed** takes the machine to `hi`. -/
theorem Runtime.applyCommitted_orderly (hk : env.machine.Upholds J) (hi : ℕ)
    (entries : List Entry) :
    ∀ r : Runtime σ, J r.machine → env.machine.appliedIndex r.machine ≤ hi →
      Feeds (env.machine.appliedIndex r.machine) hi entries →
      (r.applyCommitted env entries).Orderly env J (fun n s m => n = r.node ∧ s = r.store
        ∧ env.machine.appliedIndex m = hi) := by
  induction entries with
  | nil =>
    intro r hj ha h
    refine .done hj ⟨rfl, rfl, ?_⟩
    -- nothing is missing above the applied index
    by_contra hne
    obtain ⟨e, he, _⟩ := h.complete hi (by omega) (Nat.le_refl _)
    simp at he
  | cons x rest ih =>
    intro r hj ha h
    refine (applyEntry_orderly hk hj ha h).andThen ?_
    rintro r1 hj1 ⟨hn1, hs1, ha1, h1⟩
    rw [← hn1, ← hs1]
    exact ih r1 hj1 ha1 h1

/-! ### Updates that are due -/

/-- **The update is due**: what it carries takes the machine to `hi`, and its entries and its
    snapshot are all the store lacks of the log up to `hi`. -/
structure Due (env : Env σ) (u : Update) (hi : ℕ) (n : Node) (s : Stable) (m : σ) : Prop where
  configured : n.Configured
  applied : env.machine.appliedIndex m ≤ hi
  reach : hi ≤ n.commit
  order : u.committed.Pairwise (fun x y => x.index < y.index)
  le : ∀ e ∈ u.committed, e.index ≤ hi
  complete : ∀ i, env.machine.appliedIndex m < i → i ≤ hi →
    (∃ e ∈ u.committed, e.index = i) ∨ u.Covers i
  decodes : ∀ e ∈ u.committed, n.snapshot.index < e.index →
    ∃ b, isMembershipEntry e.data = .ok b
  terms : ∀ e ∈ n.log, e.index ≤ hi → e.term ≠ 0 ∨ e ∈ u.entries
  same : u.snapshot = none → s.snapshot.index = n.snapshot.index
    ∧ n.snapshot.index ≤ env.machine.appliedIndex m
  newer : ∀ snap, u.snapshot = some snap → s.snapshot.index < snap.index
    ∧ n.snapshot.index = snap.index ∧ snap.index ≤ hi

/-- **The update is processed**: the machine is at `hi`, and the node may have been compacted
    there. -/
structure Done (env : Env σ) (u : Update) (hi : ℕ) (before n : Node) (s : Stable) (m : σ) :
    Prop where
  configured : n.Configured
  commit : n.commit = before.commit
  log : n.log ⊆ before.log
  applied : env.machine.appliedIndex m = hi
  snapshot : s.snapshot.index = n.snapshot.index
  covered : n.snapshot.index ≤ hi
  entries : ∀ e ∈ u.entries, e.term ≠ 0

/-- **Persisting** leaves the machine and tells that the entries have terms. -/
theorem Runtime.persistUpdate_orderly (hj : J r.machine)
    (h : Due env u hi r.node r.store r.machine) :
    (r.persistUpdate env u d).Orderly env J (fun n s m => n = r.node ∧ m = r.machine
      ∧ s.snapshot.index = n.snapshot.index ∧ ∀ e ∈ u.entries, e.term ≠ 0) := by
  rw [persistUpdate_eq]
  refine .persisted hj _ (fun e trace he => .persist he) (fun hp => ?_)
  have heq := stored_ok hp
  rw [heq] at hp ⊢
  have hok : r.store.persist u (streamed u d)
      = ((r.store.persist u (streamed u d)).1, none) := Prod.ext rfl hp
  refine ⟨rfl, rfl, ?_, Stable.persist_terms hok⟩
  rw [(Stable.persist_installs hok (fun snap hs => (h.newer snap hs).1)).1]
  cases hs : u.snapshot with
  | none => exact (h.same hs).1
  | some snap => exact (h.newer snap hs).2.1.symm

/-- **Restoring** the machine from a new snapshot: what is left is in the update. -/
theorem Runtime.restoreMachine_orderly (hk : env.machine.Upholds J) {s : Stable}
    (hj : J r.machine) (h : Due env u hi r.node s r.machine)
    (hs : r.store.snapshot.index = r.node.snapshot.index) :
    (r.restoreMachine env u).Orderly env J (fun n s m => n = r.node ∧ s = r.store
      ∧ r.node.snapshot.index ≤ env.machine.appliedIndex m
      ∧ env.machine.appliedIndex m ≤ hi ∧ Feeds (env.machine.appliedIndex m) hi u.committed) := by
  -- above the snapshot everything is listed
  have hfeeds : ∀ applied, env.machine.appliedIndex r.machine ≤ applied →
      r.node.snapshot.index ≤ applied → (∀ snap, u.snapshot = some snap → snap.index ≤ applied) →
      Feeds applied hi u.committed := by
    intro applied hlo hsn hcov
    refine ⟨h.order, h.le, fun i h1 h2 => ?_, fun e he hlt => h.decodes e he (by omega)⟩
    rcases h.complete i (by omega) h2 with hex | ⟨snap, hsnap, hle⟩
    · exact hex
    · have := hcov snap hsnap
      omega
  unfold restoreMachine
  cases hsn : u.snapshot with
  | none =>
    have hle := (h.same hsn).2
    exact .done hj ⟨rfl, rfl, hle, h.applied, hfeeds _ (Nat.le_refl _) hle (by simp [hsn])⟩
  | some snap =>
    obtain ⟨hnew, hidx, hhi⟩ := h.newer snap hsn
    dsimp only
    split
    · rename_i hlt
      have hopen : openSnapshot r.store snap.index = .ok r.store.data := by
        unfold openSnapshot
        rw [if_neg (by rw [hs, hidx]; simp; omega)]
      rw [hopen]
      dsimp only
      split
      · rename_i e he
        exact .failed hj (.restore he)
      rename_i machine hm
      have hap := env.machine.restore_index hm
      refine .done (r := { r with machine := machine }) (hk.restore hj hlt hm)
        ⟨rfl, rfl, ?_⟩
      show r.node.snapshot.index ≤ env.machine.appliedIndex machine ∧ _
      rw [hap]
      refine ⟨Nat.le_of_eq hidx, hhi, hfeeds _ (Nat.le_of_lt hlt) (Nat.le_of_eq hidx) ?_⟩
      intro snap' hsnap'
      rw [hsn] at hsnap'
      rw [Option.some.inj hsnap']
    · rename_i hge
      have hle : snap.index ≤ env.machine.appliedIndex r.machine := Nat.le_of_not_lt hge
      refine .done hj ⟨rfl, rfl, by rw [hidx]; exact hle, h.applied,
        hfeeds _ (Nat.le_refl _) (by rw [hidx]; exact hle) ?_⟩
      intro snap' hsnap'
      rw [hsn] at hsnap'
      rw [← Option.some.inj hsnap']
      exact hle

/-- **Compacting** at the applied index never fails. -/
theorem Runtime.compactLog_orderly (hj : J r.machine) (hc : r.node.Configured)
    (ha : env.machine.appliedIndex r.machine = hi) (hreach : hi ≤ r.node.commit)
    (hs : r.store.snapshot.index = r.node.snapshot.index) (hle : r.node.snapshot.index ≤ hi)
    (hterm : ∀ e ∈ r.node.log, e.index ≤ hi → e.term ≠ 0)
    (hentries : ∀ e ∈ u.entries, e.term ≠ 0) :
    (r.compactLog env).Orderly env J (Done env u hi r.node) := by
  unfold compactLog
  dsimp only
  split
  · rename_i hcond
    rw [ha] at hcond ⊢
    have hlt := hcond.2.1
    -- the entry at the applied index is in the log and has a term
    have hat : r.node.termAt hi ≠ 0 := by
      obtain ⟨e, he, ht⟩ := r.node.exists_of_termAt hlt
        (hreach.trans hc.folded.commit_hi)
      have hix := hc.folded.index _ e he
      rw [ht]
      exact hterm e (mem_of_getElem? he) (by omega)
    obtain ⟨n', snap, heq, hsi, hc', hcommit, hlog, hsnap⟩ :=
      Node.createSnapshot_ok hc [] hlt hreach hat
    rw [heq]
    dsimp only
    rw [persistSnapshot_eq]
    refine Outcome.Orderly.persisted (r := { r with node := n' }) hj _
      (fun e trace he => .persistSnapshot he) (fun hp => ?_)
    have hstored := stored_ok hp
    rw [hstored] at hp ⊢
    have hinst := (Stable.persist_installs (Prod.ext rfl hp) (by
      intro sn hsn
      rw [← Option.some.inj hsn, hsi, hs]
      exact hlt)).1
    refine ⟨hc', hcommit, hlog, ha, ?_, ?_, hentries⟩
    · rw [hinst, hsnap]
      rfl
    · rw [hsnap, hsi]
  · exact .done hj ⟨hc, rfl, fun _ he => he, ha, hs, hle, hentries⟩

/-- **Processing an update that is due.** -/
theorem Runtime.processUpdate_orderly (hk : env.machine.Upholds J) (hj : J r.machine)
    (h : Due env u hi r.node r.store r.machine) :
    (r.processUpdateWithSnapshot env u d).Orderly env J (Done env u hi r.node) := by
  unfold processUpdateWithSnapshot
  refine (persistUpdate_orderly hj h).andThen ?_
  rintro r1 hj1 ⟨hn1, hm1, hs1, hterms⟩
  rw [← hn1, ← hm1] at h
  rw [← hn1]
  refine (restoreMachine_orderly hk hj1 h hs1).andThen ?_
  rintro r2 hj2 ⟨hn2, hs2, hsn2, ha2, hf2⟩
  have hsend : (r2.sendMessages u).Orderly env J (fun n s m => n = r2.node ∧ s = r2.store
      ∧ m = r2.machine) := .done hj2 ⟨rfl, rfl, rfl⟩
  refine hsend.andThen ?_
  rintro r3 hj3 ⟨hn3, hs3, hm3⟩
  refine (applyCommitted_orderly hk hi u.committed r3 hj3 (by rw [hm3]; exact ha2)
    (by rw [hm3]; exact hf2)).andThen ?_
  rintro r4 hj4 ⟨hn4, hs4, ha4⟩
  have hn : r4.node = r1.node := by rw [hn4, hn3, hn2]
  have hs : r4.store = r1.store := by rw [hs4, hs3, hs2]
  rw [← hn] at h hs1 hsn2
  rw [← hn]
  rw [← hs] at hs1
  refine (compactLog_orderly hj4 h.configured ha4 h.reach hs1 (hsn2.trans ha2) ?_
    hterms).andThen ?_
  · intro e he hle
    rcases h.terms e he hle with ht | ht
    · exact ht
    · exact hterms e ht
  · intro r5 hj5 h5
    have haside := (r5.resolveMembership_aside env).trans (cleanup_aside _ u)
    refine .done (by rw [haside.machine]; exact hj5) ?_
    rw [haside.node, haside.store, haside.machine]
    exact h5

/-! ### Between events -/

/-- Store and machine are at the core `c`. -/
structure Trails (env : Env σ) (c : Core) (s : Stable) (m : σ) : Prop where
  lo : c.snapshot.index ≤ c.commit
  terms : ∀ e ∈ c.log, e.term ≠ 0
  applied : env.machine.appliedIndex m = c.commit
  snapshot : s.snapshot.index = c.snapshot.index

/-- **The machine has applied what the node has committed.** -/
structure Current (env : Env σ) (n : Node) (s : Stable) (m : σ) : Prop where
  configured : n.Configured
  trails : Trails env n.toCore s m

section Trails
variable {c : Core} {n n' : Node} {s s' : Stable} {m m' : σ}

/-- **An update that accounts for the node is due.** -/
theorem Trails.due (h : Trails env c s m) (hc : n.Configured) (ha : c.Accounts u n.toCore) :
    Due env u n.commit n s m where
  configured := hc
  applied := by rw [h.applied]; exact ha.serial.commit
  reach := Nat.le_refl _
  order := ha.serial.order
  le e he := (ha.serial.range e he).2.1
  complete i hlo hhi := ha.serial.complete i (by rw [← h.applied]; exact hlo) hhi
  decodes e he hlt := foldMembership_decodes hc.folded.folded e ((ha.serial.range e he).2.2 hlt)
  terms e he _ := (ha.brings.log e he).imp (h.terms e) id
  same hs := by
    have heq : n.snapshot = c.snapshot := by rw [ha.brings.snapshot, hs]; rfl
    rw [heq, h.applied]
    exact ⟨h.snapshot, h.lo⟩
  newer snap hs := by
    have heq : n.snapshot = snap := by rw [ha.brings.snapshot, hs]; rfl
    have hlo := hc.folded.commit_lo
    rw [h.snapshot]
    rw [heq] at hlo ⊢
    exact ⟨(ha.serial.newer snap hs).1, rfl, hlo⟩

theorem Done.current (h : Trails env c s m) (ha : c.Accounts u n.toCore)
    (hd : Done env u n.commit n n' s' m') : Current env n' s' m' := by
  refine ⟨hd.configured, ?_, fun e he => ?_, ?_, hd.snapshot⟩
  · rw [hd.commit]
    exact hd.covered
  · rcases ha.brings.log e (hd.log he) with he | he
    · exact h.terms e he
    · exact hd.entries e he
  · rw [hd.applied, hd.commit]

/-- An empty update accounts for nothing the machine would have to do. -/
theorem Trails.idle (h : Trails env c s m) (hc : n.Configured) (ha : c.Accounts {} n.toCore) :
    Current env n s m := by
  have hcommit : n.commit = c.commit := by
    by_contra hne
    have hle := ha.serial.commit
    rcases ha.serial.complete n.commit (by omega) (Nat.le_refl _) with
      ⟨e, he, _⟩ | ⟨snap, hs, _⟩
    · simp at he
    · simp at hs
  have hsnap : n.snapshot = c.snapshot := ha.brings.snapshot
  refine ⟨hc, hc.folded.commit_lo, fun e he => ?_, ?_, ?_⟩
  · rcases ha.brings.log e he with he | he
    · exact h.terms e he
    · simp at he
  · rw [h.applied, hcommit]
  · rw [h.snapshot, hsnap]

end Trails

omit [MembershipJson] in
theorem Outcome.Orderly.imp (h : o.Orderly env J P)
    (hq : ∀ n s m, P n s m → Q n s m) : o.Orderly env J Q :=
  ⟨h.kept, h.fault, fun hn => hq _ _ _ (h.holds hn)⟩

/-- **An operation and its update.** -/
theorem Runtime.operate_orderly {n : Node} (hk : env.machine.Upholds J) (hj : J r.machine)
    (h : Current env r.node r.store r.machine) (hc : n.Configured)
    (ha : r.node.Accounts u n.toCore) (d : Option (Except String Bytes)) (r' : Runtime σ)
    (hn : r'.node = n) (hs : r'.store = r.store) (hm : r'.machine = r.machine) :
    (r'.processUpdateWithSnapshot env u d).Orderly env J (Current env) := by
  subst hn
  refine (processUpdate_orderly hk (by rw [hm]; exact hj) ?_).imp
    (fun n s m hd => hd.current h.trails ha)
  rw [hs, hm]
  exact h.trails.due hc ha

/-! ### Events -/

theorem Runtime.proposeBatch_orderly {batch : List Proposal} (hk : env.machine.Upholds J)
    (hj : J r.machine) (h : Current env r.node r.store r.machine)
    (hplain : ∀ p ∈ batch, hasMembershipPrefix p.data = false) :
    (r.proposeBatch env batch).Orderly env J (Current env) := by
  have hp := plain_batch hplain
  unfold proposeBatch
  rcases Node.proposeBatch_follows h.configured.ok (batch.map Proposal.data) with
    ⟨e, heq⟩ | ⟨n', indexes, u, heq, hf⟩
  · rw [heq]
    exact .done hj h
  rw [heq]
  dsimp only
  have haside := ({ r with node := n' } : Runtime σ).registerAll_aside batch indexes
  split
  · rename_i hlen
    refine .done (by rw [haside.machine]; exact hj) ?_
    rw [haside.node, haside.store, haside.machine]
    show Current env n' r.store r.machine
    rw [Node.proposeBatch_nothing heq hlen]
    exact h
  · have hfol := hf.toFollows
    exact operate_orderly hk hj h ⟨hfol.path.folded hp h.configured.folded, hfol.ok⟩
      (hfol.accounts hp h.configured.folded) none _ haside.node haside.store haside.machine

theorem Runtime.changeMembership_orderly (voters : List ℕ) (result : ℕ)
    (hk : env.machine.Upholds J) (hj : J r.machine)
    (h : Current env r.node r.store r.machine) :
    (r.changeMembership env voters result).Orderly env J (Current env) := by
  have hp : (Input.voters voters).Plain := fun _ heq => by cases heq
  have hconf : ∀ {x : Node × Update}, Node.Follows (.voters voters) r.node x →
      x.1.Configured ∧ r.node.Accounts x.2 x.1.toCore := fun hf =>
    Node.accounts_kept.follows hp h.configured hf
  unfold changeMembership
  rcases Node.proposeMembership_follows h.configured.ok voters with
    ⟨n', e, heq, hf⟩ | ⟨n', index, u, heq, hf⟩
  · rw [heq]
    obtain ⟨hc, ha⟩ := hconf hf.toFollows
    exact .done (r := emit { r with node := n' } _) hj (h.trails.idle hc ha)
  rw [heq]
  dsimp only
  split
  · rename_i hle
    obtain ⟨rfl, rfl⟩ := Node.proposeMembership_committed h.configured.folded.commit_hi heq hle
    exact .done hj h
  · obtain ⟨hc, ha⟩ := hconf hf.toFollows
    exact operate_orderly hk hj h hc ha none
      { r with node := n', membership := some ⟨voters, result⟩ } rfl rfl rfl

theorem Runtime.stepMessage_orderly (event : Inbound) (hk : env.machine.Upholds J)
    (hj : J r.machine) (h : Current env r.node r.store r.machine) :
    (r.stepMessage env event).Orderly env J (Current env) := by
  obtain ⟨hc, ha⟩ := Node.accounts_kept.stepWith env.nextTerm h.configured event.message
  have ho := operate_orderly hk hj h hc ha event.snapshotData
    { r with node := (r.node.stepWith env.nextTerm event.message).1 } rfl rfl rfl
  unfold stepMessage
  dsimp only
  generalize processUpdateWithSnapshot _ _ _ _ = o at *
  split
  · rename_i hcond
    have hack := acknowledgeRead_aside env event.message o.1
    rw [hcond.1]
    have hacked : Outcome.Orderly env J (Current env)
        (acknowledgeRead env event.message o.1, none) := by
      refine .done (by rw [hack.machine]; exact ho.kept) ?_
      rw [hack.node, hack.store, hack.machine]
      exact ho.holds hcond.1
    exact hacked.emit _
  · exact ho.emit _

theorem Runtime.probeReads_orderly (results : List ℕ) (hk : env.machine.Upholds J)
    (hj : J r.machine) (h : Current env r.node r.store r.machine) :
    (r.probeReads env results).Orderly env J (Current env) := by
  unfold probeReads
  dsimp only
  rcases Node.readProbe_follows h.configured.ok (r.nextReadContext + 1) with
    ⟨e, heq⟩ | ⟨n', u, heq, hf, _⟩
  · rw [heq]
    exact .done hj h
  rw [heq]
  obtain ⟨hc, ha⟩ := Node.accounts_kept.follows (fun _ heq => by cases heq) h.configured
    hf.toFollows
  refine (operate_orderly hk hj h hc ha none
    { r with
      nextReadContext := r.nextReadContext + 1
      node := n'
      pendingReads := (r.nextReadContext + 1, ⟨results, [r.node.cfg.id]⟩)
        :: without r.pendingReads (r.nextReadContext + 1) } rfl rfl rfl).andThen ?_
  intro r3 hj3 h3
  split
  · exact .done hj3 h3
  · exact .done hj3 h3

theorem Runtime.onTick_orderly (hk : env.machine.Upholds J) (hj : J r.machine)
    (h : Current env r.node r.store r.machine) :
    (r.onTick env).Orderly env J (Current env) := by
  obtain ⟨hc, ha⟩ := Node.accounts_kept.tickWith env.nextTerm h.configured
  exact operate_orderly hk hj h hc ha none
    { r with node := (r.node.tickWith env.nextTerm).1 } rfl rfl rfl

/-! ### Groups of appends -/

/-- Flushing is processing what was merged, if anything was. -/
theorem Runtime.flush_orderly {merged : Update} (waiting : List ℕ) (hk : env.machine.Upholds J)
    (hj : J r.machine) (h : Due env merged hi r.node r.store r.machine)
    (hidle : waiting = [] → Done env merged hi r.node r.node r.store r.machine) :
    (r.flush env merged waiting).Orderly env J (Done env merged hi r.node) := by
  unfold flush
  split
  · rename_i hw
    exact .done hj (hidle hw)
  · exact (processUpdate_orderly hk hj h).emit _

section Ahead
variable {c : Core} {n n' : Node} {s : Stable} {m : σ} {v : Update}

/-- **Merged updates are due** while the node is one step ahead of them: that step leaves the
    committed entries alone. -/
theorem Trails.due_ahead (h : Trails env c s m) (hc : n.Configured)
    (ha : c.Accounts u n.toCore) (hu : u.snapshot = none) (hc' : n'.Configured)
    (ha' : n.Accounts v n'.toCore) (hv : v.snapshot = none) : Due env u n.commit n' s m := by
  have hdue := h.due hc ha
  have hsnap : n'.snapshot = n.snapshot := by rw [ha'.brings.snapshot, hv]; rfl
  refine { hdue with
    configured := hc'
    reach := ha'.serial.commit
    decodes := fun e he hlt => hdue.decodes e he (by rw [← hsnap]; exact hlt)
    terms := fun e he hle => ?_
    same := fun hs => by rw [hsnap]; exact hdue.same hs
    newer := fun snap hs => by rw [hu] at hs; simp at hs }
  -- the old log has an entry there, and it was kept
  have hlo : n.snapshot.index < e.index := by
    obtain ⟨k, hk⟩ := mem_iff_getElem?.mp he
    have := hc'.folded.index k e hk
    rw [← hsnap]
    omega
  obtain ⟨e₁, he₁, hi₁⟩ := hc.folded.exists_index hlo (hle.trans hc.folded.commit_hi)
  have hkept := ha'.serial.retained e₁ he₁ (by omega) (by rw [hsnap]; omega)
  have heq : e = e₁ := hc'.folded.toFramed.eq_of_index hkept he hi₁.symm
  rw [heq]
  exact hdue.terms e₁ he₁ (by omega)

/-- **The step that was ahead is due** once the merged updates are processed. -/
theorem Done.due_next {n₁ : Node} {s₁ : Stable} {m₁ : σ} (h : Trails env c s m)
    (ha : c.Accounts u n.toCore) (hlo : n.snapshot.index ≤ n.commit) (hc' : n'.Configured)
    (ha' : n.Accounts v n'.toCore) (hv : v.snapshot = none)
    (hd : Done env u n.commit n' n₁ s₁ m₁) : Due env v n'.commit n₁ s₁ m₁ where
  configured := hd.configured
  applied := by rw [hd.applied]; exact ha'.serial.commit
  reach := by rw [hd.commit]
  order := ha'.serial.order
  le e he := (ha'.serial.range e he).2.1
  complete i h1 h2 := ha'.serial.complete i (by rw [← hd.applied]; exact h1) h2
  decodes e he _ := by
    have hsnap : n'.snapshot = n.snapshot := by rw [ha'.brings.snapshot, hv]; rfl
    obtain ⟨hgt, _, hin⟩ := ha'.serial.range e he
    exact foldMembership_decodes hc'.folded.folded e (hin (by rw [hsnap]; omega))
  terms e he _ := by
    rcases ha'.brings.log e (hd.log he) with he | he
    · rcases ha.brings.log e he with he | he
      · exact .inl (h.terms e he)
      · exact .inl (hd.entries e he)
    · exact .inr he
  same _ := by
    rw [hd.applied]
    exact ⟨hd.snapshot, hd.covered⟩
  newer snap hs := by rw [hv] at hs; simp at hs

/-- After both, the machine is at the node's commit index. -/
theorem Done.current_next {n₁ n₂ : Node} {s₁ s₂ : Stable} {m₁ m₂ : σ} (h : Trails env c s m)
    (ha : c.Accounts u n.toCore) (ha' : n.Accounts v n'.toCore)
    (hd : Done env u n.commit n' n₁ s₁ m₁) (hd' : Done env v n'.commit n₁ n₂ s₂ m₂) :
    Current env n₂ s₂ m₂ := by
  refine ⟨hd'.configured, ?_, fun e he => ?_, ?_, hd'.snapshot⟩
  · rw [hd'.commit, hd.commit]
    exact hd'.covered
  · rcases ha'.brings.log e (hd.log (hd'.log he)) with he | he
    · rcases ha.brings.log e he with he | he
      · exact h.terms e he
      · exact hd.entries e he
    · exact hd'.entries e he
  · rw [hd'.applied, hd'.commit, hd.commit]

end Ahead

omit [MembershipJson] in
private theorem accounts_mergeAppend {a b c : Core} {u v : Update} (h : a.Accounts u b)
    (h' : b.Accounts v c) (hv : v.snapshot = none) : a.Accounts (mergeAppend u v) c := by
  have hm := h.trans h'
  have hs : (mergeAppend u v).snapshot = (u.merge v).snapshot := by
    rw [Update.merge_snapshot, hv]
    rfl
  have hcov : (mergeAppend u v).Covers = (u.merge v).Covers := by
    unfold Update.Covers
    rw [hs]
  refine ⟨⟨?_, fun snap => ?_⟩, hm.brings.log, ?_⟩
  · rw [hcov]
    exact hm.serial.toCommits
  · rw [hs]
    exact hm.serial.newer snap
  · rw [hs]
    exact hm.brings.snapshot

/-- **A group of appends.**  The induction is on the group; what has been merged accounts for
    the way from the core `c`, which store and machine are at, to the node. -/
theorem Runtime.stepAppends_orderly (hk : env.machine.Upholds J) (group : List Inbound) :
    ∀ (merged : Update) (waiting : List ℕ) (r : Runtime σ) (c : Core),
      (∀ x ∈ group, x.IsAppend) → J r.machine → merged.snapshot = none →
      (waiting = [] → merged = {}) → Trails env c r.store r.machine → r.node.Configured →
      c.Accounts merged r.node.toCore →
      (r.stepAppends env merged waiting group).Orderly env J (Current env) := by
  induction group with
  | nil =>
    intro merged waiting r c _ hj hsn hempty ht hc ha
    rw [stepAppends]
    refine (flush_orderly waiting hk hj (ht.due hc ha) (fun hw => ?_)).imp
      (fun n s m hd => hd.current ht ha)
    rw [hempty hw] at ha ⊢
    have hcur := ht.idle hc ha
    exact ⟨hc, rfl, fun _ he => he, hcur.trails.applied, hcur.trails.snapshot, hcur.trails.lo,
      by simp⟩
  | cons event rest ih =>
    intro merged waiting r c hg hj hsn hempty ht hc ha
    have hrest : ∀ x ∈ rest, x.IsAppend := fun x hx => hg x (mem_cons_of_mem _ hx)
    obtain ⟨hc', ha'⟩ := Node.accounts_kept.stepWith env.nextTerm hc event.message
    have hv := (Node.stepWith_onlyReplies (n := r.node) env.nextTerm
      (hg event mem_cons_self).1).snapshot
    rw [stepAppends]
    dsimp only
    generalize hstep : r.node.stepWith env.nextTerm event.message = x at *
    split
    · exact ih _ _ { r with node := x.1 } c hrest hj hsn (fun hw => absurd hw (by simp)) ht hc'
        (accounts_mergeAppend ha ha' hv)
    -- the merged part first, while the node is already ahead of it
    have hflush := flush_orderly (r := { r with node := x.1 }) waiting hk hj
      (ht.due_ahead hc ha hsn hc' ha' hv) (fun hw => by
        have hcur := ht.idle hc (by rw [hempty hw] at ha; exact ha)
        have hsnap : x.1.snapshot = r.node.snapshot := by rw [ha'.brings.snapshot, hv]; rfl
        refine ⟨hc', rfl, fun _ he => he, hcur.trails.applied, ?_, ?_, ?_⟩
        · rw [hsnap]; exact hcur.trails.snapshot
        · rw [hsnap]; exact hcur.trails.lo
        · rw [hempty hw]; simp)
    generalize flush env merged waiting { r with node := x.1 } = f at *
    split
    · rename_i e he
      refine ⟨hflush.kept, fun e' he' => ?_, by simp [failRest]⟩
      rw [← Option.some.inj he']
      exact (hflush.fault e he).mono (subset_append_left _ _)
    · rename_i hnone
      have hd := hflush.holds hnone
      have hnext := (processUpdate_orderly (d := none) hk hflush.kept
        (hd.due_next ht ha hc.folded.commit_lo hc' ha' hv)).imp
        (fun n s m hd' => hd.current_next ht ha ha' hd')
      have hnext := hnext.emit [.step event.result (f.1.processUpdate env x.2).2]
      change Outcome.Orderly env J (Current env)
        ((f.1.processUpdate env x.2).1.emit _, (f.1.processUpdate env x.2).2) at hnext
      generalize f.1.processUpdate env x.2 = o at *
      split
      · rename_i e he
        refine ⟨hnext.kept, fun e' he' => ?_, by simp [failRest]⟩
        rw [← Option.some.inj he']
        exact (hnext.fault e he).mono (subset_append_left _ _)
      · rename_i hnone2
        have hcur := hnext.holds hnone2
        exact ih {} [] _ _ hrest hnext.kept rfl (fun _ => rfl) hcur.trails hcur.configured
          (.refl _)

/-! ### Runs -/

theorem Runtime.handle_orderly {event : Event} (hk : env.machine.Upholds J) (hj : J r.machine)
    (h : Current env r.node r.store r.machine) (hq : r.PlainQueues)
    (hp : ∀ p, event = .proposal p → hasMembershipPrefix p.data = false) :
    (r.handle env event).Orderly env J (Current env) := by
  refine handle_cases env (C := fun o => o.Orderly env J (Current env))
    ?_ ?_ ?_ ?_ ?_ ?_ ?_
  · intro batch deferred events hperm
    exact proposeBatch_orderly (r := { r with deferred := deferred, events := events })
      hk hj h (forall_mem_batch hperm hp hq)
  · exact fun voters result _ => changeMembership_orderly voters result hk hj h
  · intro group deferred events happ _
    exact stepAppends_orderly hk _ {} [] { r with deferred := deferred, events := events }
      r.node.toCore happ hj rfl (fun _ => rfl) h.trails h.configured (.refl _)
  · exact fun m _ => stepMessage_orderly m hk hj h
  · exact fun _ _ => .done hj h
  · intro results deferred events _
    exact probeReads_orderly (r := { r with deferred := deferred, events := events })
      _ hk hj h
  · exact fun _ _ => .done hj h

/-- What an action returns, before an error ends the loop. -/
def Runtime.outcome (env : Env σ) (r : Runtime σ) : Action → Outcome σ
  | .enqueue event => ({ r with events := r.events ++ [event] }, none)
  | .tick => if r.stopped ∨ r.deferred ≠ [] then (r, none) else r.onTick env
  | .next =>
    if r.stopped then (r, none)
    else
      match r.pop with
      | some (event, r₁) => r₁.handle env event
      | none => (r, none)

theorem Runtime.act_eq (env : Env σ) (r : Runtime σ) (a : Action) :
    r.act env a = (r.outcome env a).settle := by
  cases a with
  | enqueue event => rfl
  | tick =>
    simp only [act, Runtime.outcome]
    split <;> rfl
  | next =>
    simp only [act, Runtime.outcome, pop]
    split
    · rfl
    · cases hdef : r.deferred with
      | cons event deferred => rfl
      | nil => cases hev : r.events <;> rfl

/-- What waits after an action waited before or was enqueued by it. -/
theorem Runtime.outcome_waiting (env : Env σ) (r : Runtime σ) (a : Action) :
    ∀ e ∈ (r.outcome env a).1.deferred ++ (r.outcome env a).1.events,
      e ∈ r.deferred ++ r.events ∨ a = .enqueue e := by
  intro e he
  cases a with
  | enqueue event =>
    change e ∈ r.deferred ++ (r.events ++ [event]) at he
    rw [← append_assoc] at he
    rcases mem_append.mp he with he | he
    · exact .inl he
    · exact .inr (by rw [mem_singleton.mp he])
  | tick =>
    simp only [Runtime.outcome] at he
    split at he
    · exact .inl he
    have hsame := processUpdate_sameQueues env (r.node.tickWith env.nextTerm).2 none
      { r with node := (r.node.tickWith env.nextTerm).1 }
    rw [show (r.onTick env).1.deferred = r.deferred from hsame.deferred,
      show (r.onTick env).1.events = r.events from hsame.events] at he
    exact .inl he
  | next =>
    simp only [Runtime.outcome] at he
    split at he
    · exact .inl he
    · split at he
      · rename_i event r₁ hpop
        exact .inl (pop_waiting env hpop _ he)
      · exact .inl he

/-- What holds of a runtime between two actions. -/
structure Runtime.InStep (env : Env σ) (J : σ → Prop) (r : Runtime σ) : Prop where
  plain : r.PlainQueues
  kept : J r.machine
  current : r.stopped = false → Current env r.node r.store r.machine

/-- **One action of a running runtime** is orderly. -/
theorem Runtime.InStep.outcome (hk : env.machine.Upholds J) (h : r.InStep env J)
    (hrun : r.stopped = false) (a : Action) : (r.outcome env a).Orderly env J (Current env) := by
  have hcur := h.current hrun
  cases a with
  | enqueue event => exact .done h.kept hcur
  | tick =>
    simp only [Runtime.outcome]
    split
    · exact .done h.kept hcur
    · exact onTick_orderly hk h.kept hcur
  | next =>
    simp only [Runtime.outcome]
    split
    · exact .done h.kept hcur
    split
    · rename_i event r₁ hpop
      have hmem : event ∈ r.deferred ++ r.events :=
        mem_of_mem_head? (pop_head hpop)
      obtain ⟨_, heq⟩ := pop_spec hpop
      refine handle_orderly hk ?_ ?_ (fun p hp => h.plain p (pop_sub hpop _ hp))
        (fun p hpe => h.plain p (hpe ▸ hmem))
      · rw [heq]
        exact h.kept
      · rw [heq]
        exact hcur
    · exact .done h.kept hcur

/-- **One action** keeps the runtime in step. -/
theorem Runtime.InStep.act (hk : env.machine.Upholds J) (h : r.InStep env J) {a : Action}
    (hp : ∀ p, a = .enqueue (.proposal p) → hasMembershipPrefix p.data = false) :
    (r.act env a).InStep env J := by
  have hplain : (r.outcome env a).1.PlainQueues := by
    intro p hm
    rcases outcome_waiting env r a _ hm with hm | hm
    · exact h.plain p hm
    · exact hp p hm
  by_cases hrun : r.stopped = false
  · have ho := h.outcome hk hrun a
    rw [act_eq]
    unfold Outcome.settle
    split
    · rename_i hnone
      exact ⟨hplain, ho.kept, fun _ => ho.holds hnone⟩
    · exact ⟨hplain, ho.kept, fun hs => by simp [fail] at hs⟩
  · -- a stopped runtime only takes in events
    have hstop : r.stopped = true := by simpa using hrun
    have hout : (r.outcome env a).2 = none ∧ (r.outcome env a).1.machine = r.machine
        ∧ (r.outcome env a).1.stopped = true := by
      cases a <;> simp [Runtime.outcome, hstop]
    rw [act_eq]
    unfold Outcome.settle
    rw [hout.1]
    refine ⟨hplain, by rw [hout.2.1]; exact h.kept, fun hs => ?_⟩
    rw [hout.2.2] at hs
    simp at hs

theorem Starts.inStep {cfg : Config} (h : Starts env cfg r) (hj : J r.machine) :
    r.InStep env J := by
  have hst := h.steady
  refine ⟨hst.plain, hj, fun hrun => ?_⟩
  obtain ⟨hmir, hwf, hok, _⟩ := hst.synced hrun
  obtain ⟨p, m, _, hcore⟩ := Node.new_spec h.node
  refine ⟨⟨hwf.toFolded, hok⟩, hwf.commit_lo, hwf.term, ?_, by rw [hmir.snapshot]⟩
  rw [hcore, ← h.applied]
  rfl

/-- The environment whose machine keeps its calls. -/
def Env.recorded (env : Env σ) : Env (σ × List Call) where
  machine := env.machine.recorded
  queueSize := env.queueSize
  snapshotThreshold := env.snapshotThreshold
  nextTerm := env.nextTerm
  disk := env.disk

/-- A runtime before its first event, with no call made. -/
def Runtime.recorded (r : Runtime σ) : Runtime (σ × List Call) :=
  { node := r.node, store := r.store, machine := (r.machine, []) }

theorem Starts.recorded {cfg : Config} (h : Starts env cfg r) :
    Starts env.recorded cfg r.recorded :=
  ⟨⟨h.node, h.metadata, h.applied, rfl, rfl, rfl, rfl, rfl, rfl, rfl, rfl⟩, h.reliable⟩

/-- **In-order application without gaps**, in every run whose proposals do not carry the
    configuration prefix, whatever messages arrive.  The machine is called with consecutive
    indexes but for what a restored snapshot jumps over, and never restored backwards; an action
    of a running loop ends it only with an error the store or the machine returned, and otherwise
    leaves the machine at the node's commit index.  As long as no term overflows, the store
    returns an error only for a configuration entry over its limit or for snapshot data that
    could not be written. -/
theorem applied_in_order {cfg : Config} (hstart : Starts env cfg r) (actions : List Action)
    (hplain : ∀ p, Action.enqueue (.proposal p) ∈ actions → hasMembershipPrefix p.data = false) :
    InOrder (env.machine.appliedIndex r.machine)
        (r.recorded.run env.recorded actions).machine.2
      ∧ ((r.recorded.run env.recorded actions).stopped = false → ∀ a : Action,
        (∀ e, ((r.recorded.run env.recorded actions).outcome env.recorded a).2 = some e →
          Faults env.recorded
            ((r.recorded.run env.recorded actions).outcome env.recorded a).1.trace e)
        ∧ (((r.recorded.run env.recorded actions).outcome env.recorded a).2 = none →
          env.machine.appliedIndex
              ((r.recorded.run env.recorded actions).outcome env.recorded a).1.machine.1
            = ((r.recorded.run env.recorded actions).outcome env.recorded a).1.node.commit))
      ∧ (env.nextTerm = nextTerm64 →
        (∀ k a, actions[k]? = some a →
          (r.recorded.run env.recorded (actions.take k)).NoOverflow a) →
        ∀ u d e, Output.persist u d (some e) ∈ (r.recorded.run env.recorded actions).trace →
          Excused u d) := by
  have hk := env.machine.recorded_upholds (env.machine.appliedIndex r.machine)
  have hrun : (r.recorded.run env.recorded actions).InStep env.recorded
      (fun s => InOrder (env.machine.appliedIndex r.machine) s.2
        ∧ reached (env.machine.appliedIndex r.machine) s.2 = env.machine.appliedIndex s.1) := by
    refine run_induct env.recorded
      (C := fun _ a => ∀ p, a = .enqueue (.proposal p) → hasMembershipPrefix p.data = false)
      (fun r a hr hc => hr.act hk hc) (hstart.recorded.inStep ⟨trivial, rfl⟩) actions
      (fun k a hget p he => hplain p ?_)
    rw [← he]
    exact mem_of_getElem? hget
  refine ⟨hrun.kept.1, fun hs a => ?_, fun hnext hterm u d e hm => ?_⟩
  · have ho := hrun.outcome hk hs a
    exact ⟨ho.fault, fun hn => (ho.holds hn).trails.applied⟩
  · have hnext' : env.recorded.nextTerm = nextTerm64 := hnext
    exact (hstart.recorded.steady.run hnext' actions hplain hterm).sound _ hm

omit [MembershipJson] in
/-- The only voter applies its first entry and a proposal, compacts, and has made two calls. -/
theorem applied_in_order_solo :
    (@Runtime.run _ unaryJson tallyEnv.recorded (firstRuntime [1] rfl).recorded
        proposeActions).machine = (2, [.apply 1, .apply 2])
      ∧ InOrder 0 (@Runtime.run _ unaryJson tallyEnv.recorded (firstRuntime [1] rfl).recorded
        proposeActions).machine.2 := by
  refine ⟨by rfl, ?_⟩
  refine (@applied_in_order ℕ tallyEnv (firstRuntime [1] rfl) unaryJson (firstConfig [1])
    (firstRuntime_starts [1] rfl) proposeActions ?_).1
  intro p hp
  simp only [proposeActions, mem_cons, reduceCtorEq, Action.enqueue.injEq,
    Event.proposal.injEq, not_mem_nil, or_false, false_or] at hp
  rw [hp]
  decide

omit [MembershipJson] in
/-- A codec that refuses the empty text, as `encoding/json` does. -/
@[reducible] def strictJson : MembershipJson where
  marshal command := 0 :: unaryJson.marshal command
  unmarshal
    | [] => .error "unexpected end of JSON input"
    | _ :: text => unaryJson.unmarshal text
  unmarshal_marshal command := unaryJson.unmarshal_marshal command

/-- Two ticks make the only voter leader; then a client proposes the configuration prefix. -/
def forgeActions : List Action :=
  [.tick, .tick, .enqueue (.proposal ⟨membershipPrefix, 0⟩)]

omit [MembershipJson] in
/-- **A proposal with the configuration prefix stops the runtime**: the entry is appended and
    committed unchecked, and then cannot be decoded. -/
theorem forged_entry_stops :
    @Starts ℕ strictJson tallyEnv (firstConfig [1]) (firstRuntime [1] rfl)
      ∧ (@Runtime.outcome _ strictJson tallyEnv.recorded
        (@Runtime.run _ strictJson tallyEnv.recorded (firstRuntime [1] rfl).recorded forgeActions)
        .next).2 = some (.failed
          "decode committed entry 2: decode membership entry: unexpected end of JSON input")
      ∧ (@Runtime.outcome _ strictJson tallyEnv.recorded
        (@Runtime.run _ strictJson tallyEnv.recorded (firstRuntime [1] rfl).recorded forgeActions)
        .next).1.node.commit = 2
      ∧ (@Runtime.outcome _ strictJson tallyEnv.recorded
        (@Runtime.run _ strictJson tallyEnv.recorded (firstRuntime [1] rfl).recorded forgeActions)
        .next).1.machine = (1, [.apply 1]) :=
  ⟨@Starts.mk ℕ strictJson tallyEnv (firstConfig [1]) _
    (@Boots.mk ℕ strictJson tallyEnv (firstConfig [1]) _ rfl rfl rfl rfl rfl rfl rfl rfl rfl rfl
      rfl) (fun _ => rfl), by rfl, by rfl, by rfl⟩

end Codec

end Lsmdb.RaftNode

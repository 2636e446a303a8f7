import Lsmdb.Raft.WellFormed

namespace Lsmdb.Raft

open Node List Core

/-!
# Raft core — what a leader keeps of its log

A caller that proposed a command waits for the leader to commit the entry it got.  This file
says what one operation does to such an entry `e` of a leader's log (`Node.Retains`): the
operation commits nothing else at its index, and a node that is still leader afterwards has
either committed `e` or still holds it.

The one operation that can do otherwise is the step of an append that the node accepts from
another leader, that brings a different entry for the index of `e` and that commits through it
(`Node.Overtakes`).

Nothing here depends on how terms advance, so `next` is arbitrary.
-/

/-! ### Positions -/

section Positions
variable {c : Core} {e x : Entry} {lo hi : ℕ}

theorem Core.mem_log_of_between (h : x ∈ c.entriesBetween lo hi) : x ∈ c.log :=
  mem_of_mem_drop ((c.entriesBetween_prefix lo hi).subset h)

theorem Core.Framed.eq_of_index (h : c.Framed) (he : e ∈ c.log) (hx : x ∈ c.log)
    (hi : x.index = e.index) : x = e := by
  obtain ⟨j, hj⟩ := mem_iff_getElem?.mp he
  obtain ⟨k, hk⟩ := mem_iff_getElem?.mp hx
  have h1 := h.index j e hj
  have h2 := h.index k x hk
  have hjk : k = j := by omega
  rw [hjk, hj] at hk
  exact (Option.some.inj hk).symm

theorem Core.Framed.index_between (h : c.Framed) (hlo : c.snapshot.index < lo)
    (hx : x ∈ c.entriesBetween lo hi) : x.index < hi := by
  unfold entriesBetween at hx
  split at hx
  · simp at hx
  rename_i hcond
  obtain ⟨k, hk⟩ := mem_iff_getElem?.mp hx
  have hlt : k < min hi (c.lastIndex + 1) - lo := by
    have := (List.getElem?_eq_some_iff.mp hk).1
    rw [length_take] at this
    omega
  rw [getElem?_take_of_lt hlt, getElem?_drop] at hk
  have := h.index _ x hk
  omega

theorem Core.Framed.le_index_between (h : c.Framed) (hlo : c.snapshot.index < lo)
    (hx : x ∈ c.entriesBetween lo hi) : lo ≤ x.index := by
  unfold entriesBetween at hx
  split at hx
  · simp at hx
  · obtain ⟨k, hk⟩ := mem_iff_getElem?.mp (mem_of_mem_take hx)
    rw [getElem?_drop] at hk
    have := h.index _ x hk
    omega

theorem Core.Framed.between_ordered (h : c.Framed) :
    (c.entriesBetween lo hi).Pairwise (fun x y => x.index < y.index) := by
  unfold entriesBetween
  split
  · exact .nil
  refine Pairwise.sublist (take_sublist _ _) (pairwise_iff_getElem.mpr ?_)
  intro i j hi hj hij
  have h1 := h.index _ _ (by rw [← getElem?_drop, getElem?_eq_getElem hi])
  have h2 := h.index _ _ (by rw [← getElem?_drop, getElem?_eq_getElem hj])
  omega

theorem Core.Framed.exists_index (h : c.Framed) {i : ℕ} (hlo : c.snapshot.index < i)
    (hhi : i ≤ c.lastIndex) : ∃ e ∈ c.log, e.index = i := by
  obtain ⟨e, he, _⟩ := c.exists_of_termAt hlo hhi
  have := h.index _ e he
  exact ⟨e, mem_of_getElem? he, by omega⟩

theorem Core.Framed.mem_between (h : c.Framed) (he : e ∈ c.log) (hlo : c.snapshot.index < lo)
    (hle : lo ≤ e.index) (hlt : e.index < hi) : e ∈ c.entriesBetween lo hi := by
  obtain ⟨k, hk⟩ := mem_iff_getElem?.mp he
  have hindex := h.index k e hk
  have hlen := (List.getElem?_eq_some_iff.mp hk).1
  have hlast : c.lastIndex = c.snapshot.index + c.log.length := rfl
  unfold entriesBetween
  rw [if_neg (by omega)]
  refine mem_iff_getElem?.mpr ⟨e.index - lo, ?_⟩
  rw [getElem?_take_of_lt (by omega), getElem?_drop, ← hk]
  congr 1
  omega

end Positions

section Codec
variable [MembershipJson] {inp : Input} {c c' : Core} {u : Update} {n : Node} {e : Entry}

/-! ### Losing the leadership -/

theorem Trans.demoted (ht : Trans inp c u c') (hr : c.role = .leader) (hr' : c'.role ≠ .leader) :
    u.roleChanged = true := by
  cases ht with
  | adopt t ht => rfl
  | stepDown => simp [hr]
  | preCampaign => simp [hr]
  | campaign => rfl
  | win _ _ => rfl
  | reconfigure core command _ hc hm =>
    obtain ⟨m, hf, rfl⟩ := rebuildMembership_eq hm
    exact absurd hr hr'
  | splice core m keep tf entries hm hf hwf hle ht hs ha =>
    rw [hr] at hf
    simp at hf
  | install core m sent hm hf hs hi ht hv hmi hlt hcommit hb =>
    rw [hr] at hf
    simp at hf
  | compact core s m data hi hd hlt hle ht hterm hat hm hmi hb =>
    obtain ⟨mem, hf, rfl⟩ := rebuildMembership_eq hb
    exact absurd hr hr'
  | _ => exact absurd hr hr'

theorem Path.demoted (hp : Path inp c u c') (hr : c.role = .leader) (hr' : c'.role ≠ .leader) :
    u.roleChanged = true := by
  induction hp with
  | nil => exact absurd hr hr'
  | @snoc c₁ _ _ _ hp ht _ ih =>
    rw [Update.merge_roleChanged, Bool.or_eq_true]
    by_cases h₁ : c₁.role = .leader
    · exact .inr (ht.demoted h₁ hr')
    · exact .inl (ih h₁)

theorem Trans.term_eq (ht : Trans inp c u c') (h : u.hardState = none) : c'.term = c.term := by
  cases ht with
  | adopt t ht => simp at h
  | campaign => simp at h
  | reconfigure core command _ hc hm =>
    obtain ⟨m, hf, rfl⟩ := rebuildMembership_eq hm
    rfl
  | splice core m keep tf entries hm hf hwf hle ht hs ha =>
    obtain ⟨mem, rfl, _⟩ := applySplice_eq ha
    rfl
  | install core m sent hm hf hs hi ht hv hmi hlt hcommit hb =>
    obtain ⟨mem, _, rfl⟩ := rebuildMembership_eq hb
    rfl
  | compact core s m data hi hd hlt hle ht hterm hat hm hmi hb =>
    obtain ⟨mem, hf, rfl⟩ := rebuildMembership_eq hb
    rfl
  | _ => rfl

theorem Path.term_eq (hp : Path inp c u c') (h : u.hardState = none) : c'.term = c.term := by
  induction hp with
  | nil => rfl
  | @snoc c₁ c₂ u v hp ht _ ih =>
    rw [Update.merge_hardState, Option.or_eq_none_iff] at h
    rw [ht.term_eq h.1, ih h.2]

/-! ### Keeping an entry -/

/-- **What an operation may do to an entry `e` that waits to be committed.** -/
structure Node.Retains (r : Node × Update) (e : Entry) : Prop where
  committed : ∀ x ∈ r.2.committed, x.index = e.index → x = e
  kept : r.1.role = .leader → e ∈ r.1.log ∧ (r.1.commit < e.index ∨ e ∈ r.2.committed)

/-- What a node keeps for a waiter, unless it lost its leadership. -/
def Node.Holding (n : Node) (e : Entry) : Prop :=
  n.role = .leader → e ∈ n.log ∧ n.commit < e.index

omit [MembershipJson] in
theorem Node.Retains.holding {n' : Node} (h : Node.Retains (n', u) e) :
    n'.Holding e ∨ e ∈ u.committed := by
  by_cases hr : n'.role = .leader
  · obtain ⟨h1, h2⟩ := h.kept hr
    exact h2.imp (fun hlt _ => ⟨h1, hlt⟩) id
  · exact .inl fun h' => absurd h' hr

/-- An operation that neither receives entries nor drops any. -/
def Input.Local (inp : Input) : Prop :=
  (∀ m, inp = .message m → m.type ≠ .append ∧ m.type ≠ .snapshot)
    ∧ ∀ index data, inp ≠ .snapshot index data

/-- **What such an operation does to the log**: it keeps every entry, adds some at the end, and
    commits entries it holds, all of them up to its new commit index. -/
structure Core.Extends (c : Core) (u : Update) (c' : Core) : Prop where
  log : c.log ⊆ c'.log
  entries : u.entries ⊆ c'.log
  committed : u.committed ⊆ c'.log
  commit : c.commit ≤ c'.commit
  fresh : ∀ e ∈ c'.log, e ∈ c.log ∨ c.commit < e.index
  waits : ∀ e ∈ c'.log, c.commit < e.index → c'.commit < e.index ∨ e ∈ u.committed

omit [MembershipJson] in
private theorem Core.Extends.same (hl : c'.log = c.log) (hc : c'.commit = c.commit)
    (he : u.entries = []) (hu : u.committed = []) : c.Extends u c' := by
  refine ⟨by simp [hl], by simp [he], by simp [hu], by rw [hc], fun e h' => ?_, fun e _ hlt => ?_⟩
  · rw [hl] at h'
    exact .inl h'
  · rw [hc]
    exact .inl hlt

omit [MembershipJson] in
private theorem Core.Extends.snoc (h : c.Framed) {x : Entry} (hx : x.index = c.lastIndex + 1)
    (hl : c'.log = c.log ++ [x]) (hc : c'.commit = c.commit) (he : u.entries ⊆ [x])
    (hu : u.committed = []) : c.Extends u c' := by
  have hlast := h.commit_hi
  refine ⟨by simp [hl], fun y hy => ?_, by simp [hu], by rw [hc], fun e h' => ?_, fun e _ hlt => ?_⟩
  · rw [hl]
    exact mem_append_right _ (he hy)
  · rw [hl] at h'
    rcases mem_append.mp h' with h' | h'
    · exact .inl h'
    · rw [mem_singleton.mp h']
      exact .inr (by omega)
  · rw [hc]
    exact .inl hlt

theorem Trans.extends (hl : inp.Local) (h : c.Framed) (ht : Trans inp c u c') :
    c.Extends u c' := by
  cases ht with
  | propose data hr hd hlen => exact .snoc h rfl rfl rfl (fun _ hx => hx) rfl
  | reconfigure core command hr hc hm =>
    obtain ⟨m, hf, rfl⟩ := rebuildMembership_eq hm
    exact .snoc h rfl rfl rfl (fun _ hx => hx) rfl
  | orphan command err hr hc hm => exact .snoc h rfl rfl rfl (by simp) rfl
  | commit k hr hk hle ht hq =>
    refine ⟨fun _ hx => hx, by simp, fun _ hx => mem_log_of_between hx, Nat.le_of_lt hk,
      fun _ hx => .inl hx, fun e he hlt => ?_⟩
    rcases Nat.lt_or_ge k e.index with hk' | hk'
    · exact .inl hk'
    · exact .inr (h.mem_between he (by have := h.commit_lo; omega) hlt (by omega))
  | splice core m keep tf entries hm hr hwf hle ht hs ha =>
    exact absurd hm.type_eq (hl.1 m hm.input).1
  | learn m k hm hr hwf hh hk hlt => exact absurd hm.type_eq (hl.1 m hm.input).1
  | install core m sent hm hr hs hi ht hv hmi hlt hcommit hb =>
    exact absurd hm.type_eq (hl.1 m hm.input).2
  | compact core s m data hi hd hlt hle ht hterm hat hm hmi hb => exact absurd hi (hl.2 _ _)
  | halfCompact s m data err hi hd hlt hle ht hterm hat hm hmi hb => exact absurd hi (hl.2 _ _)
  | _ => exact .same rfl rfl rfl rfl

theorem Path.extends (hl : inp.Local) (h : c.Framed) (hp : Path inp c u c') :
    c.Extends u c' := by
  induction hp with
  | nil => exact .same rfl rfl rfl rfl
  | @snoc c₁ c₂ u v hp ht _ ih =>
    have hx := ht.extends hl (hp.framed h)
    refine ⟨fun e he => hx.log (ih.log he), fun e he => ?_, fun e he => ?_,
      Nat.le_trans ih.commit hx.commit, fun e he => ?_, fun e he hlt => ?_⟩
    · rcases mem_append.mp he with he | he
      · exact hx.log (ih.entries he)
      · exact hx.entries he
    · rcases mem_append.mp he with he | he
      · exact hx.log (ih.committed he)
      · exact hx.committed he
    · rcases hx.fresh e he with he | he
      · exact ih.fresh e he
      · exact .inr (Nat.lt_of_le_of_lt ih.commit he)
    · rw [Update.merge_committed, mem_append]
      -- an entry the last transition added is above what was committed before it
      have hmid : c₁.commit < e.index ∨ e ∈ u.committed := by
        rcases hx.fresh e he with he | he
        · exact ih.waits e he hlt
        · exact .inl he
      rcases hmid with hmid | hmid
      · exact (hx.waits e he hmid).imp id .inr
      · exact .inr (.inl hmid)

theorem Node.Follows.extends {r : Node × Update} (hf : Node.Follows inp n r) (hl : inp.Local)
    (h : n.Framed) : n.Extends r.2 r.1.toCore :=
  hf.path.extends hl h

/-- The promise of an entry of the new log. -/
theorem Node.Follows.retains {r : Node × Update} (hf : Node.Follows inp n r) (hl : inp.Local)
    (h : n.Framed) (he : e ∈ r.1.log) (hlt : n.commit < e.index) : Node.Retains r e := by
  have hx := hf.extends hl h
  exact ⟨fun x hx' hi => (hf.path.framed h).eq_of_index he (hx.committed hx') hi,
    fun _ => ⟨he, hx.waits e he hlt⟩⟩

/-! ### What a step does -/

/-- A step that changes no core state: it answers, counts or drops the message. -/
structure Node.Untouched (n : Node) (r : Node × Update) : Prop where
  core : r.1.toCore = n.toCore
  nextIndex : r.1.nextIndex = n.nextIndex
  quiet : r.2.Quiet
  roleChanged : r.2.roleChanged = false
  committed : r.2.committed = []

omit [MembershipJson] in
theorem Node.Untouched.retains {r : Node × Update} (h : n.Untouched r) (he : e ∈ n.log)
    (hlt : n.commit < e.index) : Node.Retains r e := by
  refine ⟨by simp [h.committed], fun _ => ?_⟩
  rw [h.core]
  exact ⟨he, .inl hlt⟩

/-- The appends that `Step` answers or drops without following the sender. -/
def Node.ignores (n : Node) (m : Message) : Bool :=
  decide (m.toID ≠ 0 ∧ m.toID ≠ n.cfg.id) || !n.isCommunicationPeer m.fromID
    || decide (m.fromID = n.cfg.id) || (malformedAppend m).isSome || decide (m.term < n.term)

/-- **The ways of a step**: it leaves the core alone, or hands the message on, after adopting
    a higher term or at the node's own. -/
theorem Node.stepWith_cases (next : ℕ → ℕ) (n : Node) (m : Message) :
    ((m.type = .append → n.ignores m = true) ∧ n.Untouched (n.stepWith next m))
      ∨ ((m.type = .append → n.ignores m = false) ∧ n.term < m.term
        ∧ m.type ≠ .preVote ∧ m.type ≠ .preVoteResponse
        ∧ n.stepWith next m = (((n.becomeFollower m.term 0).1.dispatchWith next m).1,
          (n.becomeFollower m.term 0).2.merge ((n.becomeFollower m.term 0).1.dispatchWith next m).2))
      ∨ ((m.type = .append → n.ignores m = false) ∧ n.stepWith next m = n.dispatchWith next m) := by
  have hquiet : ({} : Update).Quiet := ⟨rfl, rfl, rfl⟩
  unfold stepWith
  split
  · rename_i hto
    exact .inl ⟨fun _ => by simp [ignores, hto], rfl, rfl, hquiet, rfl, rfl⟩
  rename_i hto
  split
  · rename_i hfrom
    refine .inl ⟨fun _ => ?_, rfl, rfl, hquiet, rfl, rfl⟩
    rcases hfrom with h' | h' <;> simp [ignores, h']
  rename_i hfrom
  split
  · rename_i reason hmal
    refine .inl ⟨fun ht => ?_, rfl, rfl, ⟨rfl, rfl, rfl⟩, rfl, rfl⟩
    rw [if_pos ht] at hmal
    simp [ignores, hmal]
  · rename_i hmal
    have hig : m.type = .append → ¬ m.term < n.term → n.ignores m = false := by
      intro ht hterm
      rw [if_pos ht] at hmal
      simp only [not_or] at hfrom
      simp [ignores, hmal, hterm, hfrom.1, hfrom.2]
      simpa using hto
    split
    · rename_i hlease
      exact .inl ⟨fun ht => by simp [ht] at hlease, rfl, rfl, hquiet, rfl, rfl⟩
    unfold stepTermWith
    split
    · rename_i htype
      split
      · rename_i hlt
        exact .inr (.inl ⟨fun ht => hig ht (by omega), hlt, htype.1, htype.2, rfl⟩)
      split
      · rename_i hlt
        exact .inl ⟨fun _ => by simp [ignores, hlt], rfl, rfl, ⟨rfl, rfl, rfl⟩, rfl, rfl⟩
      · rename_i hge
        exact .inr (.inr ⟨fun ht => hig ht hge, rfl⟩)
    · rename_i htype
      refine .inr (.inr ⟨fun ht => absurd ⟨?_, ?_⟩ htype, rfl⟩) <;> simp [ht]

theorem Node.stepWith_ignored (next : ℕ → ℕ) {m : Message} (hm : m.type = .append)
    (h : n.ignores m = true) : n.Untouched (n.stepWith next m) := by
  rcases n.stepWith_cases next m with ⟨_, hu⟩ | ⟨hi, _⟩ | ⟨hi, _⟩
  · exact hu
  · rw [hi hm] at h
    simp at h
  · rw [hi hm] at h
    simp at h

/-! ### Appends -/

/-- **An append that overtakes `e`**: the node accepts it, and it brings another entry for the
    index of `e` and commits through it. -/
def Node.Overtakes (n : Node) (m : Message) (e : Entry) : Prop :=
  m.type = .append ∧ n.ignores m = false ∧ m.logIndex ≤ n.lastIndex
    ∧ n.termAt m.logIndex = m.logTerm ∧ e.index ≤ m.leaderCommit
    ∧ ∃ x ∈ m.entries, x.index = e.index ∧ x ≠ e

/-- What `handleAppend` commits. -/
structure Core.Learns (c : Core) (m : Message) (c' : Core) (committed : List Entry) : Prop where
  le : m.logIndex ≤ c.lastIndex
  term : c.termAt m.logIndex = m.logTerm
  committed : committed = c'.entriesBetween (c.commit + 1) (c'.commit + 1)
  commit : c'.commit ≤ m.leaderCommit
  snapshot : c'.snapshot = c.snapshot
  log : ∀ x ∈ c'.log, x ∈ c.log ∨ x ∈ m.entries

omit [MembershipJson] in
private theorem Node.acceptAppend_learns {n n1 : Node} {m : Message} {u : Update}
    (hle : m.logIndex ≤ n.lastIndex) (hterm : n.termAt m.logIndex = m.logTerm)
    (hu : u.committed = []) (hs : n1.snapshot = n.snapshot) (hc : n1.commit = n.commit)
    (hl : ∀ x ∈ n1.log, x ∈ n.log ∨ x ∈ m.entries) :
    (n1.acceptAppend m u).2.committed = [] ∨ n.Learns m (n1.acceptAppend m u).1.toCore (n1.acceptAppend m u).2.committed := by
  unfold acceptAppend
  dsimp only
  split
  · right
    refine ⟨hle, hterm, ?_, Nat.min_le_left _ _, hs, hl⟩
    simp only [hu, nil_append, hc]
  · exact .inl hu

theorem Node.handleAppend_learns (n : Node) (m : Message) :
    (n.handleAppend m).1.role = .follower
      ∧ ((n.handleAppend m).2.committed = [] ∨ n.Learns m (n.handleAppend m).1.toCore (n.handleAppend m).2.committed) := by
  obtain ⟨v, b, hcore, hu, _⟩ := n.followSender_spec (.message m) m.fromID
  unfold handleAppend
  dsimp only
  generalize n.followSender m.fromID = r at *
  have hlog : r.1.log = n.log := by rw [hcore]
  have hsnap : r.1.snapshot = n.snapshot := by rw [hcore]
  have hcommit : r.1.commit = n.commit := by rw [hcore]
  have hlast : r.1.lastIndex = n.lastIndex := by unfold lastIndex; rw [hlog, hsnap]
  have hterm := termAt_congr hsnap hlog
  have hrole : r.1.role = .follower := by rw [hcore]
  have hnone : r.2.committed = [] := by rw [hu]
  split
  · exact ⟨hrole, .inl hnone⟩
  rename_i hcond
  rw [hlast, hterm] at hcond
  have hle : m.logIndex ≤ n.lastIndex := by
    by_contra h; exact hcond (.inl (by omega))
  have ht : n.termAt m.logIndex = m.logTerm := by
    by_contra h; exact hcond (.inr h)
  split
  · refine ⟨?_, acceptAppend_learns hle ht hnone hsnap hcommit ?_⟩
    · unfold acceptAppend
      dsimp only
      split <;> exact hrole
    · intro x hx
      rw [hlog] at hx
      exact .inl hx
  · exact ⟨hrole, .inl hnone⟩
  · rename_i keep tf es hsp
    split
    · exact ⟨hrole, .inl hnone⟩
    rename_i core happ
    obtain ⟨mem, hceq, _⟩ := applySplice_eq happ
    refine ⟨?_, acceptAppend_learns hle ht hnone ?_ ?_ ?_⟩
    · unfold acceptAppend
      dsimp only
      split
      · show core.role = _
        rw [hceq]; exact hrole
      · show core.role = _
        rw [hceq]; exact hrole
    · show core.snapshot = _
      rw [hceq]; exact hsnap
    · show core.commit = _
      rw [hceq]; exact hcommit
    · intro x hx
      change x ∈ core.log at hx
      rw [hceq] at hx
      rcases mem_append.mp hx with hx | hx
      · rw [← hlog]
        exact .inl (mem_of_mem_take hx)
      · exact .inr (splice_subset hsp hx)

/-- **Stepping an append that is not ignored** makes the node a follower, and keeps the
    promise of an entry it does not overtake. -/
theorem Node.stepWith_append (next : ℕ → ℕ) {m : Message} (hm : m.type = .append)
    (h : n.Framed) (hok : n.Ok) (hig : n.ignores m = false) :
    (n.stepWith next m).1.role = .follower
      ∧ ∀ e ∈ n.log, n.commit < e.index → ¬ n.Overtakes m e →
        Node.Retains (n.stepWith next m) e := by
  have hframed : (n.stepWith next m).1.Framed :=
    (stepWith_follows (by simp [hm]) hok).path.framed h
  -- what the handler learns is read off the log after the step
  have hlearn : ∀ r : Node × Update, r.1.Framed → r.1.role = .follower →
      r.2.committed = [] ∨ n.Learns m r.1.toCore r.2.committed → ∀ e ∈ n.log, n.commit < e.index →
      ¬ n.Overtakes m e → Retains r e := by
    intro r hr hrole hl e he hlt hno
    refine ⟨fun x hx hi => ?_, fun h' => by rw [hrole] at h'; simp at h'⟩
    rcases hl with hl | hl
    · simp [hl] at hx
    rw [hl.committed] at hx
    rcases hl.log x (mem_log_of_between hx) with hmem | hmem
    · exact h.eq_of_index he hmem hi
    · by_contra hne
      have hle := hr.index_between (by rw [hl.snapshot]; have := h.commit_lo; omega) hx
      have := hl.commit
      exact hno ⟨hm, hig, hl.le, hl.term, by omega, x, hmem, hi, hne⟩
  have hd : ∀ k : Node, k.dispatchWith next m = k.handleAppend m := by
    intro k
    unfold dispatchWith
    rw [hm]
  rcases n.stepWith_cases next m with ⟨hi, _⟩ | ⟨_, hlt, _, _, heq⟩ | ⟨_, heq⟩
  · rw [hi hm] at hig
    simp at hig
  · rw [hd] at heq
    rw [heq] at hframed ⊢
    obtain ⟨h1, h2⟩ := handleAppend_learns (n.becomeFollower m.term 0).1 m
    obtain ⟨hc, hb⟩ := becomeFollower_adopt (n := n) 0 hlt
    refine ⟨h1, hlearn _ hframed h1 ?_⟩
    have hnone : ((n.becomeFollower m.term 0).2.merge
        ((n.becomeFollower m.term 0).1.handleAppend m).2).committed
        = ((n.becomeFollower m.term 0).1.handleAppend m).2.committed := by
      rw [Update.merge_committed, hc]
      rfl
    rw [hnone]
    rw [hb] at h2
    exact h2.imp id (fun h2 => ⟨h2.le, h2.term, h2.committed, h2.commit, h2.snapshot, h2.log⟩)
  · rw [hd] at heq
    rw [heq] at hframed ⊢
    obtain ⟨h1, h2⟩ := n.handleAppend_learns m
    exact ⟨h1, hlearn _ hframed h1 h2⟩

/-! ### Other messages -/

/-- A snapshot message commits no entry; it leaves the core alone or makes a follower. -/
theorem Node.handleSnapshot_silent (n : Node) (m : Message) :
    (n.handleSnapshot m).2.committed = []
      ∧ ((n.handleSnapshot m).1.role = .follower ∨ (n.handleSnapshot m).1.toCore = n.toCore) := by
  obtain ⟨v, b, hcore, hu, _⟩ := n.followSender_spec (.message m) m.fromID
  unfold handleSnapshot
  split
  · exact ⟨rfl, .inr rfl⟩
  rename_i sent _
  split
  · exact ⟨rfl, .inr rfl⟩
  dsimp only
  generalize n.followSender m.fromID = r at *
  rw [show (if sent.membership.voters.length = 0 then
      { sent with membership := r.1.initialMembership } else sent) = r.1.received sent from rfl]
  generalize r.1.received sent = snapshot
  have hrole : r.1.role = .follower := by rw [hcore]
  have hnone : r.2.committed = [] := by rw [hu]
  split
  · exact ⟨hnone, .inl hrole⟩
  split
  · exact ⟨hnone, .inl hrole⟩
  split
  · split
    · exact ⟨hnone, .inl hrole⟩
    · split
      · exact ⟨hnone, .inl hrole⟩
      · rename_i core hb
        obtain ⟨mem, _, rfl⟩ := rebuildMembership_eq hb
        exact ⟨hnone, .inl hrole⟩
  · exact ⟨hnone, .inl hrole⟩

/-- A leader's reaction to a pre-vote response: it may adopt a higher term, nothing else. -/
theorem Node.handlePreVoteResponse_leader (next : ℕ → ℕ) (hr : n.role = .leader) (m : Message) :
    n.handlePreVoteResponseWith next m = (n, {})
      ∨ (n.term < m.term ∧ n.handlePreVoteResponseWith next m = n.becomeFollower m.term 0) := by
  unfold Node.handlePreVoteResponseWith
  split
  · rename_i h
    exact .inr ⟨h.2, rfl⟩
  · dsimp only
    rw [if_pos (.inl (by simp [hr]))]
    exact .inl rfl

/-- **A step of a leader keeps what waits to be committed**, unless it is an append that
    overtakes it; and a leader that steps down reports it. -/
theorem Node.stepWith_retains (next : ℕ → ℕ) (hr : n.role = .leader) (h : n.Framed) (hok : n.Ok)
    (m : Message) :
    (∀ e ∈ n.log, n.commit < e.index → ¬ n.Overtakes m e → Node.Retains (n.stepWith next m) e)
      ∧ ((n.stepWith next m).1.role ≠ .leader → (n.stepWith next m).2.roleChanged = true) := by
  by_cases hpv : m.type = .preVote ∨ m.type = .preVoteResponse
  · -- no path here, since the node's term may be the last one
    have hna : m.type ≠ .append := by rcases hpv with h' | h' <;> simp [h']
    rcases n.stepWith_cases next m with ⟨_, hu⟩ | ⟨_, _, h1, h2, _⟩ | ⟨_, heq⟩
    · exact ⟨fun e he hlt _ => hu.retains he hlt,
        fun h' => absurd (by rw [hu.core]; exact hr) h'⟩
    · rcases hpv with h' | h'
      · exact absurd h' h1
      · exact absurd h' h2
    · rw [heq]
      rcases hpv with h' | h'
      · have hd : n.dispatchWith next m = (n, { messages := [n.handlePreVoteWith next m] }) := by
          unfold dispatchWith
          rw [h']
        rw [hd]
        exact ⟨fun e he hlt _ => ⟨by simp, fun _ => ⟨he, .inl hlt⟩⟩, fun h'' => absurd hr h''⟩
      · have hd : n.dispatchWith next m = n.handlePreVoteResponseWith next m := by
          unfold dispatchWith
          rw [h']
        rw [hd]
        rcases n.handlePreVoteResponse_leader next hr m with heq' | ⟨hlt, heq'⟩
        · rw [heq']
          exact ⟨fun e he hlt _ => ⟨by simp, fun _ => ⟨he, .inl hlt⟩⟩, fun h'' => absurd hr h''⟩
        obtain ⟨hb1, hb2⟩ := becomeFollower_adopt (n := n) 0 hlt
        rw [heq']
        refine ⟨fun e he hlt _ => ⟨by simp [hb1], fun h'' => ?_⟩, fun _ => by simp [hb1]⟩
        rw [hb2] at h''
        simp at h''
  · have hf : Follows (.message m) n (n.stepWith next m) :=
      stepWith_follows (fun h' => absurd h' hpv) hok
    refine ⟨fun e he hlt hno => ?_, hf.path.demoted hr⟩
    by_cases happ : m.type = .append
    · cases hig : n.ignores m with
      | true => exact (stepWith_ignored next happ hig).retains he hlt
      | false => exact (stepWith_append next happ h hok hig).2 e he hlt hno
    by_cases hsnap : m.type = .snapshot
    · have hd : ∀ k : Node, k.dispatchWith next m = k.handleSnapshot m := by
        intro k
        unfold dispatchWith
        rw [hsnap]
      rcases n.stepWith_cases next m with ⟨_, hu⟩ | ⟨_, hterm, _, _, heq⟩ | ⟨_, heq⟩
      · exact hu.retains he hlt
      · -- the node follows first, so it is no leader afterwards
        obtain ⟨hb1, hb2⟩ := becomeFollower_adopt (n := n) 0 hterm
        obtain ⟨h1, h2⟩ := (n.becomeFollower m.term 0).1.handleSnapshot_silent m
        rw [heq, hd]
        refine ⟨by simp [h1, hb1], fun h' => ?_⟩
        change role _ = Role.leader at h'
        rcases h2 with h2 | h2
        · rw [h2] at h'
          simp at h'
        · rw [h2, hb2] at h'
          simp at h'
      · obtain ⟨h1, h2⟩ := n.handleSnapshot_silent m
        rw [heq, hd]
        refine ⟨by simp [h1], fun h' => ?_⟩
        rcases h2 with h2 | h2
        · change role _ = Role.leader at h'
          rw [h2] at h'
          simp at h'
        · rw [h2]
          exact ⟨he, .inl hlt⟩
    · have hl : (Input.message m).Local := by
        refine ⟨fun m' hm' => ?_, by simp⟩
        cases hm'
        exact ⟨happ, hsnap⟩
      exact hf.retains hl h ((hf.extends hl h).log he) hlt

/-! ### Steps at any term -/

/-- Standing for election changes role, term, vote and timers. -/
structure Node.Stands (n n1 : Node) : Prop where
  role : n1.role ≠ .leader
  cfg : n1.cfg = n.cfg
  snapshot : n1.snapshot = n.snapshot
  log : n1.log = n.log
  commit : n1.commit = n.commit
  initial : n1.initialMembership = n.initialMembership
  membership : n1.membership = n.membership

omit [MembershipJson] in
/-- The part of an update that standing for election may carry. -/
structure Update.Bare (u : Update) : Prop where
  snapshot : u.snapshot = none
  truncateFrom : u.truncateFrom = 0
  entries : u.entries = []
  committed : u.committed = []

/-- **A property that does not read the term**: an invariant `P` and a relation `R` between a
    node and the outcome of an operation, kept along paths and by standing for election, in
    whatever term that is. -/
structure Node.Kept (P : Node → Prop) (R : Node → Node × Update → Prop) : Prop where
  ok : ∀ {n : Node}, P n → n.Ok
  follows : ∀ {inp : Input} {n : Node} {r : Node × Update}, inp.Plain → P n →
    Node.Follows inp n r → P r.1 ∧ R n r
  stands : ∀ {n n1 : Node} {u : Update}, P n → n.Stands n1 → u.Bare → P n1 ∧ R n (n1, u)
  trans : ∀ {n n1 n2 : Node} {u v : Update}, R n (n1, u) → R n1 (n2, v) → R n (n2, u.merge v)
  untouched : ∀ {n : Node} {r : Node × Update}, P n → n.Untouched r → P r.1 ∧ R n r

omit [MembershipJson] in
theorem Input.plain_tick : Input.tick.Plain := fun _ h => by cases h

omit [MembershipJson] in
theorem Input.plain_message (m : Message) : (Input.message m).Plain := fun _ h => by cases h

section Kept
variable {P : Node → Prop} {R : Node → Node × Update → Prop} (hk : Node.Kept P R)
  (next : ℕ → ℕ)
include hk

/-- Standing for election first, and then anything else. -/
private theorem Node.Kept.after_stands {n1 : Node} {r : Node × Update} (h : P n)
    (hs : n.Stands n1) (hr : P n1 → P r.1 ∧ R n1 r) : P r.1 ∧ R n r := by
  obtain ⟨h1, hr1⟩ := hk.stands h hs (u := {}) ⟨rfl, rfl, rfl, rfl⟩
  obtain ⟨h2, hr2⟩ := hr h1
  have := hk.trans hr1 hr2
  rw [Update.empty_merge] at this
  exact ⟨h2, this⟩

theorem Node.Kept.startElectionWith (h : P n) :
    P (n.startElectionWith next).1 ∧ R n (n.startElectionWith next) := by
  unfold Node.startElectionWith
  dsimp only
  generalize hn1 : resetElectionTimer _ = n1
  have hcore : n1.toCore = { n.toCore with
      role := .candidate
      term := next n.term
      votedFor := n.cfg.id
      votes := setAt (fun _ => none) n.cfg.id (some true) } := by
    subst hn1; rfl
  have hs : n.Stands n1 :=
    ⟨by rw [hcore]; simp, by rw [hcore], by rw [hcore], by rw [hcore], by rw [hcore],
      by rw [hcore], by rw [hcore]⟩
  split
  · rename_i hq
    have hq' : n1.membership.hasQuorum n1.granted = true := by
      rw [hasQuorum, hasQuorum_self_eq] at hq
      rw [hcore] at hq ⊢
      exact hq
    obtain ⟨h1, hr1⟩ := hk.stands h hs
      (u := { hardState := some n1.hardState, roleChanged := true }) ⟨rfl, rfl, rfl, rfl⟩
    have hf := becomeLeader_follows .tick (hk.ok h1) (by rw [hcore]) hq'
    obtain ⟨h2, hr2⟩ := hk.follows Input.plain_tick h1 hf.toFollows
    exact ⟨h2, hk.trans hr1 hr2⟩
  · exact hk.stands h hs ⟨rfl, rfl, rfl, rfl⟩

theorem Node.Kept.startPreVoteWith (h : P n) :
    P (n.startPreVoteWith next).1 ∧ R n (n.startPreVoteWith next) := by
  unfold Node.startPreVoteWith
  dsimp only
  generalize hn1 : resetElectionTimer _ = n1
  have hcore : n1.toCore = { n.toCore with
      role := .preCandidate
      votes := setAt (fun _ => none) n.cfg.id (some true) } := by
    subst hn1; rfl
  have hs : n.Stands n1 :=
    ⟨by rw [hcore]; simp, by rw [hcore], by rw [hcore], by rw [hcore], by rw [hcore],
      by rw [hcore], by rw [hcore]⟩
  split
  · exact hk.after_stands h hs (fun h1 => hk.startElectionWith next h1)
  · exact hk.stands h hs ⟨rfl, rfl, rfl, rfl⟩

theorem Node.Kept.tickWith (h : P n) : P (n.tickWith next).1 ∧ R n (n.tickWith next) := by
  by_cases hr : n.role = .leader
  · exact hk.follows Input.plain_tick h
      (tickWith_follows .tick (fun h' => absurd hr h') (hk.ok h))
  unfold Node.tickWith
  rw [if_neg hr]
  split
  · exact hk.untouched h ⟨rfl, rfl, ⟨rfl, rfl, rfl⟩, rfl, rfl⟩
  have hs : n.Stands { n with electionElapsed := n.electionElapsed + 1 } :=
    ⟨hr, rfl, rfl, rfl, rfl, rfl, rfl⟩
  dsimp only
  split
  · exact hk.after_stands h hs (fun h1 => hk.startPreVoteWith next h1)
  · exact hk.stands h hs ⟨rfl, rfl, rfl, rfl⟩

theorem Node.Kept.handlePreVoteResponseWith (h : P n) (m : Message) :
    P (n.handlePreVoteResponseWith next m).1 ∧ R n (n.handlePreVoteResponseWith next m) := by
  unfold Node.handlePreVoteResponseWith
  split
  · rename_i hrej
    exact hk.follows (Input.plain_message m) h
      (becomeFollower_follows_adopt (.message m) (hk.ok h) 0 hrej.2)
  dsimp only
  split
  · exact hk.untouched h ⟨rfl, rfl, ⟨rfl, rfl, rfl⟩, rfl, rfl⟩
  rename_i hcond
  have hr : n.role = .preCandidate := by
    by_contra hne; exact hcond (.inl hne)
  generalize (!m.reject && decide (m.term = next n.term)) = granted
  have hs : n.Stands { n with votes := setAt n.votes m.fromID (some granted) } :=
    ⟨by simp [hr], rfl, rfl, rfl, rfl, rfl, rfl⟩
  split
  · exact hk.after_stands h hs (fun h1 => hk.startElectionWith next h1)
  · split
    · exact hk.after_stands h hs (fun h1 => hk.follows (Input.plain_message m) h1
        (becomeFollower_follows (.message m) (hk.ok h1) 0).toFollows)
    · exact hk.stands h hs ⟨rfl, rfl, rfl, rfl⟩

theorem Node.Kept.stepWith (h : P n) (m : Message) :
    P (n.stepWith next m).1 ∧ R n (n.stepWith next m) := by
  by_cases hpv : m.type = .preVote ∨ m.type = .preVoteResponse
  · rcases n.stepWith_cases next m with ⟨_, hu⟩ | ⟨_, _, h1, h2, _⟩ | ⟨_, heq⟩
    · exact hk.untouched h hu
    · rcases hpv with h' | h'
      · exact absurd h' h1
      · exact absurd h' h2
    · rw [heq]
      unfold dispatchWith
      rcases hpv with h' | h'
      · rw [h']
        exact hk.untouched h ⟨rfl, rfl, ⟨rfl, rfl, rfl⟩, rfl, rfl⟩
      · rw [h']
        exact hk.handlePreVoteResponseWith next h m
  · exact hk.follows (Input.plain_message m) h
      (stepWith_follows (fun h' => absurd h' hpv) (hk.ok h))

end Kept

/-- What every operation keeps, however terms advance. -/
structure Node.Sane (n : Node) : Prop where
  framed : n.Framed
  ok : n.Ok

theorem Node.Follows.sane {r : Node × Update} (h : n.Sane) (hf : Node.Follows inp n r) :
    r.1.Sane :=
  ⟨hf.path.framed h.framed, hf.ok⟩

omit [MembershipJson] in
/-- A node that is no leader only has its frame to keep. -/
theorem Node.Sane.stands {n1 : Node} (h : n.Sane) (hs : n.Stands n1) : n1.Sane := by
  refine ⟨⟨?_, ?_, ?_⟩, Ok.of_role_ne ?_ hs.role⟩
  · rw [hs.snapshot, hs.log]; exact h.framed.index
  · rw [hs.snapshot, hs.commit]; exact h.framed.commit_lo
  · simp only [lastIndex, hs.snapshot, hs.log, hs.commit]; exact h.framed.commit_hi
  · rw [hs.snapshot, hs.commit]; exact h.framed.commit_lo

omit [MembershipJson] in
theorem Node.Sane.untouched {r : Node × Update} (h : n.Sane) (hu : n.Untouched r) : r.1.Sane :=
  ⟨by rw [hu.core]; exact h.framed, h.ok.congr hu.core hu.nextIndex⟩

theorem Node.sane_kept : Node.Kept Node.Sane (fun _ _ => True) where
  ok h := h.ok
  follows _ h hf := ⟨hf.sane h, trivial⟩
  stands h hs _ := ⟨h.stands hs, trivial⟩
  trans _ _ := trivial
  untouched h hu := ⟨h.untouched hu, trivial⟩

theorem Node.tickWith_sane (next : ℕ → ℕ) (h : n.Sane) : (n.tickWith next).1.Sane :=
  (sane_kept.tickWith next h).1

theorem Node.stepWith_sane (next : ℕ → ℕ) (h : n.Sane) (m : Message) :
    (n.stepWith next m).1.Sane :=
  (sane_kept.stepWith next h m).1

/-! ### Compaction and proposals -/

/-- **What a compaction leaves alone**: everything but committed entries. -/
structure Node.Compacts (n n' : Node) : Prop where
  role : n'.role = n.role
  commit : n'.commit = n.commit
  sane : n.Sane → n'.Sane
  log : ∀ e ∈ n.log, n.commit < e.index → e ∈ n'.log

omit [MembershipJson] in
theorem Node.Compacts.refl (n : Node) : n.Compacts n := ⟨rfl, rfl, id, fun _ he _ => he⟩

omit [MembershipJson] in
theorem Core.mem_compactLog (h : c.Framed) {s : Snapshot} (hlt : c.snapshot.index < s.index)
    (ht : c.termAt s.index = s.term) (he : e ∈ c.log) (hgt : s.index < e.index) :
    e ∈ (c.compactLog s).log := by
  rw [compactLog_log hlt ht]
  obtain ⟨k, hk⟩ := mem_iff_getElem?.mp he
  have hi := h.index k e hk
  refine mem_iff_getElem?.mpr ⟨k - (s.index - c.snapshot.index), ?_⟩
  rw [getElem?_drop, ← hk]
  congr 1
  omega

/-- The cut of a compaction at a boundary the node agrees with. -/
structure Node.Cut (n n' : Node) (s : Snapshot) (mem : Membership) : Prop where
  node : n' = { n with toCore := { n.compactLog s with membership := mem } }
  lt : n.snapshot.index < s.index
  le : s.index ≤ n.commit
  term : n.termAt s.index = s.term
  at_index : n.membershipAt s.index = .ok s.membership
  folded : mem = n.membership
    ∨ foldMembership (n.compactLog s).baseMembership (n.compactLog s).log = .ok mem

/-- **The ways of a compaction**: it leaves the node alone or cuts its log. -/
theorem Node.compact_cases (n : Node) (snapshot : Snapshot) :
    (n.compact snapshot).1 = n ∨ ∃ s mem, n.Cut (n.compact snapshot).1 s mem := by
  unfold compact
  split
  · exact .inl rfl
  rename_i hlt
  split
  · exact .inl rfl
  rename_i hcond
  simp only [not_or, Nat.not_lt, ne_eq, not_not] at hcond
  split
  · exact .inl rfl
  rename_i expected hmem
  dsimp only
  generalize hs : (if snapshot.membership.voters.length = 0 then
    { snapshot with membership := expected } else snapshot) = s
  have hsi : s.index = snapshot.index := by rw [← hs]; split <;> rfl
  have hst : s.term = snapshot.term := by rw [← hs]; split <;> rfl
  split
  · exact .inl rfl
  split
  · exact .inl rfl
  rename_i hsame
  have hsm : s.membership = expected := by
    simp only [Bool.or_eq_true, Bool.not_eq_true', not_or, Bool.not_eq_false,
      bne_iff_ne, ne_eq, not_not] at hsame
    exact equalVoters_membership hsame.1.1 hsame.1.2 hsame.2
  right
  split
  · exact ⟨s, n.membership, rfl, by omega, by omega, by rw [hsi, hst]; exact hcond.2.2,
      by rw [hsi, hsm]; exact hmem, .inl rfl⟩
  · rename_i core hcore
    obtain ⟨mem, hf, rfl⟩ := rebuildMembership_eq hcore
    exact ⟨s, mem, rfl, by omega, by omega, by rw [hsi, hst]; exact hcond.2.2,
      by rw [hsi, hsm]; exact hmem, .inr hf⟩

theorem Node.compact_compacts (h : n.Sane) (snapshot : Snapshot) :
    n.Compacts (n.compact snapshot).1 := by
  have hsane : (n.compact snapshot).1.Sane := by
    rcases compact_spec h.ok snapshot with ⟨_, _, heq, hf⟩ | ⟨heq, _⟩ | ⟨_, _, heq, _, ht, hok⟩
    · rw [heq]
      exact hf.sane h
    · rw [heq]
      exact h
    · rw [heq]
      exact ⟨ht.framed h.framed, hok⟩
  rcases n.compact_cases snapshot with heq | ⟨s, mem, hcut⟩
  · rw [heq]
    exact .refl n
  · refine ⟨by rw [hcut.node]; rfl, by rw [hcut.node]; rfl, fun _ => hsane, fun e he hgt => ?_⟩
    rw [hcut.node]
    exact mem_compactLog h.framed hcut.lt hcut.term he (Nat.lt_of_le_of_lt hcut.le hgt)

theorem Node.createSnapshot_compacts (h : n.Sane) (index : ℕ) (data : Bytes) :
    n.Compacts (n.createSnapshot index data).1 := by
  unfold createSnapshot
  split
  · exact .refl n
  · exact compact_compacts h _

omit [MembershipJson] in
/-- The indexes `ProposeBatch` hands out are those of the entries it appended. -/
theorem Core.appendCommands_accepts (data : List Bytes) :
    ∀ (c : Core) (k index : ℕ) (command : Bytes), data[k]? = some command →
      (c.appendCommands data).2.1[k]? = some index → index ≠ 0 →
      ({ index := index, term := c.term, data := command } : Entry)
        ∈ (c.appendCommands data).2.2 := by
  induction data with
  | nil => intro c k index command hk; simp at hk
  | cons first rest ih =>
    intro c k index command hk hi hne
    unfold appendCommands at hi ⊢
    split
    · rename_i hbig
      rw [if_pos hbig] at hi
      cases k with
      | zero => exact absurd (by simpa using hi.symm) hne
      | succ k => exact ih c k index command (by simpa using hk) (by simpa using hi) hne
    · rename_i hfit
      rw [if_neg hfit] at hi
      dsimp only at hi ⊢
      cases k with
      | zero =>
        simp only [getElem?_cons_zero, Option.some.injEq] at hk hi
        rw [← hk, ← hi]
        exact mem_cons_self
      | succ k =>
        exact mem_cons_of_mem _
          (ih _ k index command (by simpa using hk) (by simpa using hi) hne)

omit [MembershipJson] in
private theorem Core.appendCommands_above (data : List Bytes) :
    ∀ (c : Core), ∀ x ∈ (c.appendCommands data).2.2, c.lastIndex < x.index := by
  induction data with
  | nil => intro c x hx; simp [appendCommands] at hx
  | cons first rest ih =>
    intro c x hx
    unfold appendCommands at hx
    split at hx
    · exact ih c x hx
    dsimp only at hx
    rcases mem_cons.mp hx with rfl | hx
    · exact Nat.lt_succ_self _
    · have := ih _ x hx
      simp only [lastIndex, length_append, length_singleton] at this ⊢
      omega

/-- **A successful `ProposeBatch`** has appended, for every index it returns, the command at
    that index in the node's term, and keeps all of them. -/
theorem Node.proposeBatch_accepts (h : n.Sane) {data : List Bytes} {n' : Node} {indexes : List ℕ}
    {u : Update} (hb : n.proposeBatch data = (n', .ok (indexes, u))) :
    Node.Follows (.commands data) n (n', u) ∧ n'.term = n.term
      ∧ ∀ (k index : ℕ) (command : Bytes), data[k]? = some command → indexes[k]? = some index →
        index ≠ 0 → u.entries.length ≠ 0
          ∧ ({ index := index, term := n.term, data := command } : Entry) ∈ n'.log
          ∧ n.commit < index := by
  have hf : FollowsQuietly (.commands data) n (n', u) := by
    rcases proposeBatch_follows h.ok data with ⟨_, heq⟩ | ⟨n₁, i₁, u₁, heq, hf⟩
    · rw [heq] at hb
      simp at hb
    · rw [heq] at hb
      simp only [Prod.mk.injEq, Except.ok.injEq] at hb
      obtain ⟨rfl, rfl, rfl⟩ := hb
      exact hf
  refine ⟨hf.toFollows, hf.path.term_eq hf.quiet.1, fun k index command hk hi hne => ?_⟩
  -- the returned indexes and the appended entries come from the same loop
  have hsame : indexes = (n.appendCommands data).2.1
      ∧ ((n.appendCommands data).2.2 ⊆ u.entries) := by
    unfold proposeBatch at hb
    split at hb
    · simp at hb
    dsimp only at hb
    split at hb
    · rename_i hlen
      simp only [Prod.mk.injEq, Except.ok.injEq] at hb
      obtain ⟨_, hb, _⟩ := hb
      exact ⟨hb.symm, by simp [length_eq_zero_iff.mp hlen]⟩
    · simp only [Prod.mk.injEq, Except.ok.injEq] at hb
      obtain ⟨_, hb, hu⟩ := hb
      refine ⟨hb.symm, fun x hx => ?_⟩
      rw [← hu, Update.merge_entries]
      exact mem_append_left _ hx
  rw [hsame.1] at hi
  have hmem := n.appendCommands_accepts data k index command hk hi hne
  have hl : (Input.commands data).Local := ⟨by simp, by simp⟩
  refine ⟨?_, (hf.toFollows.extends hl h.framed).entries (hsame.2 hmem), ?_⟩
  · exact fun h0 => by
      have := hsame.2 hmem
      rw [length_eq_zero_iff.mp h0] at this
      simp at this
  · have := n.appendCommands_above data _ hmem
    have := h.framed.commit_hi
    simp only at *
    omega

end Codec

end Lsmdb.Raft

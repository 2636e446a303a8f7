import Lsmdb.Raft.Leading

namespace Lsmdb.Raft

open Node List Function

/-!
# Raft core — one outstanding append per peer

A leader sends entries to a peer only while none of its appends to that peer is outstanding.
The marker is set by the send itself, in `appendMessage`, and taken back by an acknowledgement
that covers it, by a rejection, or by age.

Everything here looks at one peer `p`, its *lane*.  `Node.Lane` describes a stretch of sending:
either nothing with entries goes to `p` and the marker stays, or the marker was zero and one
append with entries goes out and sets it.  `Node.Releases` describes what a call does to the
lane before it sends anything.  Every call of a leader is the one followed by the other
(`Node.handle_lane`), and what a run does follows by induction.
-/

variable [MembershipJson]

/-! ### Lanes -/

section
omit [MembershipJson]

/-- The message is an append to `p` that carries entries. -/
def Message.carriesTo (p : ℕ) (m : Message) : Bool :=
  decide (m.type = .append) && decide (m.toID = p) && !m.entries.isEmpty

/-- The index of the last entry a message carries. -/
def Message.lastCarried (m : Message) : Option ℕ := m.entries.getLast?.map Entry.index

/-- One append with entries goes to `p`, whose lane was free. -/
structure Node.SendsOne (p : ℕ) (n : Node) (ms : List Message) (n' : Node) (m : Message)
    (last : ℕ) : Prop where
  other : p ≠ n.cfg.id
  free : n.outstanding p = 0
  one : ms.filter (Message.carriesTo p) = [m]
  carried : m.lastCarried = some last
  out : n'.outstanding p = last
  age : n'.outstandingAge p = 0
  above : n.matchIndex p < last
  le : last ≤ n'.lastIndex

/-- Nothing with entries goes to `p`. -/
structure Node.SendsNone (p : ℕ) (n : Node) (ms : List Message) (n' : Node) : Prop where
  none : ms.filter (Message.carriesTo p) = []
  out : n'.outstanding p = n.outstanding p
  age : n'.outstandingAge p = n.outstandingAge p

/-- **A stretch of sending**, as peer `p` sees it. -/
structure Node.Lane (p : ℕ) (n : Node) (ms : List Message) (n' : Node) : Prop where
  cfg : n'.cfg = n.cfg
  match_eq : p ≠ n.cfg.id → n'.matchIndex p = n.matchIndex p
  last_le : n.lastIndex ≤ n'.lastIndex
  log : n.log ⊆ n'.log
  held : ∀ m ∈ ms, m.type = .append → m.entries ⊆ n'.log
  sends : n.SendsNone p ms n' ∨ ∃ m last, n.SendsOne p ms n' m last

/-- What sending relies on: contiguous indexes, and `nextIndex` ahead of `matchIndex`. -/
structure Node.Paced (n : Node) : Prop where
  index : ∀ (i : ℕ) (e : Entry), n.log[i]? = some e → e.index = n.snapshot.index + 1 + i
  next : ∀ p, n.matchIndex p < n.nextIndex p ∨ n.nextIndex p = 0

end

section Lane
variable {p : ℕ} {n n₁ n₂ : Node} {ms ms₁ ms₂ : List Message}

section
omit [MembershipJson]

theorem Node.Sane.paced (h : n.Sane) (hr : n.role = .leader) : n.Paced where
  index i e he := by
    have := h.framed.index i e he
    omega
  next p := (h.ok.match_next hr p).imp_right And.left

theorem Node.Paced.congr (h : n.Paced) (hl : n₁.log = n.log) (hs : n₁.snapshot = n.snapshot)
    (hm : n₁.matchIndex = n.matchIndex) (hn : n₁.nextIndex = n.nextIndex) : n₁.Paced where
  index := by
    rw [hl, hs]
    exact h.index
  next := by
    rw [hm, hn]
    exact h.next

theorem Node.Sent.paced (h : n.Sent n₁) (hp : n.Paced) : n₁.Paced := by
  apply hp.congr _ _ _ h.nextIndex <;> rw [h.core]

theorem Node.Lane.refl (p : ℕ) (n : Node) : n.Lane p [] n :=
  ⟨rfl, fun _ => rfl, Nat.le_refl _, Subset.refl _, fun _ hm => absurd hm not_mem_nil,
    .inl ⟨rfl, rfl, rfl⟩⟩

/-- Sending and then sending more: after a carrying append the marker keeps the lane closed. -/
theorem Node.Lane.trans (h₁ : n.Lane p ms₁ n₁) (h₂ : n₁.Lane p ms₂ n₂) :
    n.Lane p (ms₁ ++ ms₂) n₂ := by
  have hmatch : p ≠ n.cfg.id → n₁.matchIndex p = n.matchIndex p := h₁.match_eq
  refine ⟨h₂.cfg.trans h₁.cfg, fun hp => ?_, h₁.last_le.trans h₂.last_le,
    Subset.trans h₁.log h₂.log, fun m hm ht => ?_, ?_⟩
  · rw [h₂.match_eq (by rw [h₁.cfg]; exact hp), hmatch hp]
  · rcases mem_append.mp hm with hm | hm
    · exact Subset.trans (h₁.held m hm ht) h₂.log
    · exact h₂.held m hm ht
  rcases h₁.sends with hnone | ⟨m, last, hone⟩
  · rcases h₂.sends with hnone' | ⟨m, last, hone'⟩
    · left
      refine ⟨?_, hnone'.out.trans hnone.out, hnone'.age.trans hnone.age⟩
      rw [filter_append, hnone.none, hnone'.none]
      rfl
    · right
      have hp : p ≠ n.cfg.id := by
        rw [← h₁.cfg]
        exact hone'.other
      refine ⟨m, last, hp, hnone.out ▸ hone'.free, ?_, hone'.carried, hone'.out, hone'.age, ?_,
        hone'.le⟩
      · rw [filter_append, hnone.none, hone'.one]
        rfl
      · rw [← hmatch hp]
        exact hone'.above
  · rcases h₂.sends with hnone' | ⟨m', last', hone'⟩
    · right
      refine ⟨m, last, hone.other, hone.free, ?_, hone.carried, hnone'.out.trans hone.out,
        hnone'.age.trans hone.age, hone.above, hone.le.trans h₂.last_le⟩
      rw [filter_append, hone.one, hnone'.none]
      rfl
    · -- The marker is the last index sent, which is not zero.
      have hfree := hone'.free
      rw [hone.out] at hfree
      exact absurd hone.above (by omega)

/-- A change that touches nothing the lane reads, and sends nothing. -/
theorem Node.Lane.of_eq (hc : n₁.cfg = n.cfg) (hm : p ≠ n.cfg.id → n₁.matchIndex p = n.matchIndex p)
    (hl : n.lastIndex ≤ n₁.lastIndex) (hlog : n.log ⊆ n₁.log)
    (ho : n₁.outstanding = n.outstanding) (ha : n₁.outstandingAge = n.outstandingAge) :
    n.Lane p [] n₁ :=
  ⟨hc, hm, hl, hlog, fun _ hm => absurd hm not_mem_nil, .inl ⟨rfl, by rw [ho], by rw [ha]⟩⟩

end

omit [MembershipJson] in
theorem Node.Paced.snoc (h : n.Paced) {e : Entry} (he : e.index = n.lastIndex + 1)
    (hl : n₁.log = n.log ++ [e]) (hs : n₁.snapshot = n.snapshot) (k : ℕ)
    (hm : n₁.matchIndex = setAt n.matchIndex n.cfg.id k)
    (hn : n₁.nextIndex = setAt n.nextIndex n.cfg.id (k + 1)) : n₁.Paced where
  index i x hx := by
    rw [hl] at hx
    rw [hs]
    rcases Nat.lt_trichotomy i n.log.length with hlt | heq | hgt
    · rw [getElem?_append_left hlt] at hx
      exact h.index i x hx
    · subst heq
      rw [getElem?_append_right (Nat.le_refl _), Nat.sub_self, getElem?_cons_zero,
        Option.some.injEq] at hx
      rw [← hx, he]
      unfold Core.lastIndex
      omega
    · rw [getElem?_eq_none (by rw [length_append, length_singleton]; omega)] at hx
      cases hx
  next q := by
    rw [hm, hn]
    by_cases hq : q = n.cfg.id
    · subst hq
      left
      simp [setAt]
    · simp only [setAt, update_of_ne hq]
      exact h.next q

omit [MembershipJson] in
theorem Node.Paced.becomeFollower (h : n.Paced) (term leader : ℕ) :
    (n.becomeFollower term leader).1.Paced := by
  unfold Node.becomeFollower
  dsimp only
  split <;> exact h.congr rfl rfl rfl rfl

end Lane

/-! ### Expiry -/

omit [MembershipJson] in
/-- The ticks an append stays outstanding before it is sent again. -/
def Config.resendTicks (c : Config) : ℕ :=
  if c.inflightResendTicks = 0 then defaultInflightResendTicks else c.inflightResendTicks

omit [MembershipJson] in
/-- **What one tick does to the age of a lane**: nothing, if it is free or not watched; else it
    grows by one and the append is over at `limit`. -/
inductive Node.Ages (limit p : ℕ) (peers : List ℕ) (n n' : Node) (expired : List ℕ) : Prop
  | skipped (h : p ∉ peers ∨ n.outstanding p = 0) (out : n'.outstanding p = n.outstanding p)
      (age : n'.outstandingAge p = n.outstandingAge p) (hex : p ∉ expired)
  | aged (hp : p ∈ peers) (hne : n.outstanding p ≠ 0) (young : n.outstandingAge p + 1 < limit)
      (out : n'.outstanding p = n.outstanding p)
      (age : n'.outstandingAge p = n.outstandingAge p + 1) (hex : p ∉ expired)
  | expired (hp : p ∈ peers) (hne : n.outstanding p ≠ 0)
      (old : limit ≤ n.outstandingAge p + 1) (out : n'.outstanding p = 0) (hex : p ∈ expired)

section Expiry
variable {p : ℕ} {n : Node}

/-- The first part of a leader's `Tick`: the counters grow and the outstanding appends age. -/
structure Node.Expires (n k : Node) (expired : List ℕ) : Prop where
  core : k.toCore = n.toCore
  nextIndex : k.nextIndex = n.nextIndex
  heartbeat : k.heartbeatElapsed = n.heartbeatElapsed + 1
  ages : ∀ q, n.Ages n.cfg.resendTicks q n.replicationPeers k expired

end Expiry

/-! ### Releases -/

/-- The event is an answer of `p` that the node processes at its term. -/
def Node.Answers (n : Node) (p : ℕ) (reject : Bool) (e : Event) : Prop :=
  ∃ m, e = .op (.step m) ∧ n.Processes m
    ∧ (m.type = .appendResponse ∨ m.type = .snapshotResponse) ∧ m.fromID = p ∧ m.reject = reject

/-- **What a call does to the lane before it sends**: the marker stays, or an answer or the
    age of the append takes it back. -/
inductive Node.Releases (p : ℕ) (n : Node) (e : Event) (k : Node) : Prop
  | kept (out : k.outstanding p = n.outstanding p)
      (age : k.outstandingAge p ≤ n.outstandingAge p + ticks [e])
      (above : k.outstanding p ≠ 0 → k.matchIndex p < k.outstanding p)
  | acked (answer : n.Answers p false e) (out : k.outstanding p = 0)
      (reached : n.outstanding p ≤ k.matchIndex p)
  | rejected (answer : n.Answers p true e) (out : k.outstanding p = 0)
  | expired (tick : e = .op .tick) (out : k.outstanding p = 0)
      (old : n.cfg.resendTicks ≤ n.outstandingAge p + 1)

/-- The first part of a call. -/
structure Node.Prepares (p : ℕ) (n : Node) (e : Event) (k : Node) : Prop where
  cfg : k.cfg = n.cfg
  last_le : n.lastIndex ≤ k.lastIndex
  releases : n.Releases p e k

omit [MembershipJson] in
/-- **The markers of a leader**: each lies above what the peer has and within the log. -/
def Node.Marked (n : Node) : Prop := n.role = .leader → ∀ p, n.outstanding p ≠ 0 →
  p ≠ n.cfg.id ∧ n.matchIndex p < n.outstanding p ∧ n.outstanding p ≤ n.lastIndex

section Releases
variable {p : ℕ} {n k : Node} {e : Event} {next : ℕ → ℕ}

omit [MembershipJson] in
/-- Messages without appends do not concern the lane. -/
theorem Node.Lane.quiet (n : Node) (p : ℕ) {u : Update} (h : u.NoAppend) :
    n.Lane p u.messages n := by
  refine ⟨rfl, fun _ => rfl, Nat.le_refl _, Subset.refl _,
    fun m hm ht => absurd ht (h m hm), .inl ⟨?_, rfl, rfl⟩⟩
  rw [filter_eq_nil_iff]
  intro m hm
  simp [Message.carriesTo, h m hm]

theorem Node.Prepares.of_eq (hr : n.role = .leader) (hm : n.Marked) (hc : k.cfg = n.cfg)
    (hl : n.lastIndex ≤ k.lastIndex) (ho : k.outstanding p = n.outstanding p)
    (ha : k.outstandingAge p ≤ n.outstandingAge p + ticks [e])
    (hmatch : p ≠ n.cfg.id → k.matchIndex p = n.matchIndex p) : n.Prepares p e k := by
  refine ⟨hc, hl, .kept ho ha ?_⟩
  rw [ho]
  intro hne
  obtain ⟨hother, hlt, -⟩ := hm hr p hne
  rw [hmatch hother]
  exact hlt

theorem Node.Prepares.refl (hr : n.role = .leader) (hm : n.Marked) : n.Prepares p e n :=
  .of_eq hr hm rfl (Nat.le_refl _) rfl (Nat.le_add_right _ _) (fun _ => rfl)

omit [MembershipJson] in
theorem Node.Rewinds.sane {m : Message} (hk : n.Rewinds m k) (hs : n.Sane)
    (hr : n.role = .leader) : k.Sane ∧ k.role = .leader := by
  have hok := hk.ok hr hs.ok
  obtain ⟨nx, rfl⟩ := hk.node
  exact ⟨⟨hs.framed, hok⟩, hr⟩

omit [MembershipJson] in
theorem Node.Records.sane {m : Message} (hk : n.Records m k) (hs : n.Sane)
    (hr : n.role = .leader) : k.Sane ∧ k.role = .leader := by
  have hok := hk.ok hr hs.ok
  obtain ⟨mi, nx, rfl⟩ := hk.node
  exact ⟨⟨⟨hs.framed.index, hs.framed.commit_lo, hs.framed.commit_hi⟩, hok⟩, hr⟩

end Releases

/-! ### Runs -/

/-- Some event of the run meets a node for which `P` holds. -/
def Node.Meets (next : ℕ → ℕ) (P : Node → Event → Prop) (n : Node) (es : List Event) : Prop :=
  ∃ pre e post, es = pre ++ e :: post ∧ P (n.handleAll next pre) e

section Runs
variable {p last limit : ℕ} {n k n' : Node} {ms : List Message} {next : ℕ → ℕ}

theorem Node.Meets.head {P : Node → Event → Prop} {e : Event} (h : P n e) (es : List Event) :
    n.Meets next P (e :: es) :=
  ⟨[], e, es, rfl, h⟩

theorem Node.Meets.cons {P : Node → Event → Prop} {e : Event} {es : List Event}
    (h : (n.handle next e).1.Meets next P es) : n.Meets next P (e :: es) := by
  obtain ⟨pre, x, post, rfl, h⟩ := h
  exact ⟨e :: pre, x, post, rfl, h⟩

omit [MembershipJson] in
/-- A lane that is sound before a stretch of sending is sound after it. -/
theorem Node.Lane.sound (h : k.Lane p ms n')
    (hk : k.outstanding p ≠ 0 →
      p ≠ k.cfg.id ∧ k.matchIndex p < k.outstanding p ∧ k.outstanding p ≤ k.lastIndex)
    (hne : n'.outstanding p ≠ 0) :
    p ≠ n'.cfg.id ∧ n'.matchIndex p < n'.outstanding p ∧ n'.outstanding p ≤ n'.lastIndex := by
  rw [h.cfg]
  rcases h.sends with hnone | ⟨m, l, hone⟩
  · rw [hnone.out] at hne ⊢
    obtain ⟨hp, hlt, hle⟩ := hk hne
    rw [h.match_eq hp]
    exact ⟨hp, hlt, hle.trans h.last_le⟩
  · rw [h.match_eq hone.other, hone.out]
    exact ⟨hone.other, hone.above, hone.le⟩

theorem Node.Prepares.sound {e : Event} (h : n.Prepares p e k) (hr : n.role = .leader)
    (hm : n.Marked) (hne : k.outstanding p ≠ 0) :
    p ≠ k.cfg.id ∧ k.matchIndex p < k.outstanding p ∧ k.outstanding p ≤ k.lastIndex := by
  cases h.releases with
  | kept out age above =>
    rw [out] at hne
    obtain ⟨hp, -, hle⟩ := hm hr p hne
    refine ⟨by rw [h.cfg]; exact hp, above (by rw [out]; exact hne), ?_⟩
    rw [out]
    exact hle.trans h.last_le
  | acked answer out reached => exact absurd out hne
  | rejected answer out => exact absurd out hne
  | expired tick out old => exact absurd out hne

omit [MembershipJson] in
/-- A message with entries to `p` is the one the lane tells of. -/
theorem Node.Lane.carried (h : k.Lane p ms n') {m : Message} (hm : m ∈ ms)
    (hc : m.carriesTo p = true) : ∃ l, k.SendsOne p ms n' m l := by
  have hmem : m ∈ ms.filter (Message.carriesTo p) := mem_filter.mpr ⟨hm, hc⟩
  rcases h.sends with hnone | ⟨m', l, hone⟩
  · rw [hnone.none] at hmem
    cases hmem
  · rw [hone.one, mem_singleton] at hmem
    subst hmem
    exact ⟨l, hone⟩

end Runs

end Lsmdb.Raft

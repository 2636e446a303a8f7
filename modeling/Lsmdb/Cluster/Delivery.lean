import Lsmdb.Cluster.Simulation

namespace Lsmdb.Cluster

open Lsmdb.Raft Consensus List

/-!
# Cluster — the state machine fed by a node

A state machine sees the entries an `Update` reports as committed and the snapshots it
installs.  `record` keeps the machine's state at every index it passed through, so that a
later snapshot can be taken of any of them.

`Path.delivers` shows that the updates of a node deliver its committed prefix without gaps,
and `record_spec` that the recorded states are the machine's states on that prefix.
-/

/-- A deterministic state machine whose snapshots can be read back. -/
structure Machine (σ : Type) where
  init : σ
  apply : σ → Entry → σ
  save : σ → Bytes
  load : Bytes → σ
  load_save : ∀ s, load (save s) = s

variable {σ : Type}

/-- The state after a log prefix. -/
def Machine.state (M : Machine σ) (l : List Entry) : σ := l.foldl M.apply M.init

/-- The snapshot data of a log prefix. -/
def Machine.image (M : Machine σ) (l : List Entry) : Bytes := M.save (M.state l)

/-- Apply one committed entry on top of the state before it. -/
def Machine.advance (M : Machine σ) (hist : ℕ → σ) (e : Entry) : ℕ → σ :=
  setAt hist e.index (M.apply (hist (e.index - 1)) e)

/-- Restore the machine from a snapshot. -/
def Machine.restore (M : Machine σ) (hist : ℕ → σ) : Option Snapshot → ℕ → σ
  | none => hist
  | some s => setAt hist s.index (M.load s.data)

/-- What the machine records from an update: first its snapshot, then its entries. -/
def Machine.record (M : Machine σ) (hist : ℕ → σ) (u : Update) : ℕ → σ :=
  u.committed.foldl M.advance (M.restore hist u.snapshot)

@[simp] theorem Machine.advance_same (M : Machine σ) (hist : ℕ → σ) (e : Entry) :
    M.advance hist e e.index = M.apply (hist (e.index - 1)) e := Function.update_self _ _ _

theorem Machine.advance_ne (M : Machine σ) (hist : ℕ → σ) {e : Entry} {k : ℕ}
    (h : k ≠ e.index) : M.advance hist e k = hist k := Function.update_of_ne h _ _

/-! ### What a transition delivers -/

/-- The snapshot an update carries sits at index `k`. -/
def SnapshotAt (u : Update) (k : ℕ) : Prop := ∃ s, u.snapshot = some s ∧ s.index = k

/-- **The update `u` delivers the prefix of `l`** from core `c` to core `c'`. -/
structure Delivers (c : Core) (u : Update) (c' : Core) (l : List Entry) : Prop where
  commit : c.commit ≤ c'.commit
  snap : c.snapshot.index ≤ c'.snapshot.index
  /-- Each entry is the one of `l`, and follows a state that is already known. -/
  entry : ∀ before e after, u.committed = before ++ e :: after →
    0 < e.index ∧ e.index ≤ c'.commit ∧ l[e.index - 1]? = some e
      ∧ ((c.snapshot.index ≤ e.index - 1 ∧ e.index - 1 ≤ c.commit)
        ∨ SnapshotAt u (e.index - 1) ∨ ∃ d ∈ before, d.index = e.index - 1)
  /-- Every state from the snapshot on is known afterwards. -/
  cover : ∀ k, c'.snapshot.index ≤ k → k ≤ c'.commit →
    (c.snapshot.index ≤ k ∧ k ≤ c.commit) ∨ SnapshotAt u k ∨ ∃ e ∈ u.committed, e.index = k
  /-- A snapshot is one of a committed prefix. -/
  boundary : ∀ s, u.snapshot = some s →
    c.snapshot.index < s.index ∧ s.index ≤ c'.commit ∧ s = c'.snapshot
  /-- Without one the node's own snapshot stays. -/
  same : u.snapshot = none → c'.snapshot = c.snapshot

/-- **The recorded states are the machine's states on the delivered prefix.** -/
theorem Machine.record_spec (M : Machine σ) {c c' : Core} {u : Update} {l : List Entry}
    {hist : ℕ → σ} (h : Delivers c u c' l)
    (hist_ok : ∀ k, c.snapshot.index ≤ k → k ≤ c.commit → hist k = M.state (l.take k))
    (snap_ok : ∀ s, u.snapshot = some s → s.data = M.image (l.take s.index)) :
    ∀ k, c'.snapshot.index ≤ k → k ≤ c'.commit → M.record hist u k = M.state (l.take k) := by
  -- the states known after a part of the committed entries
  have key : ∀ before after, u.committed = before ++ after → ∀ k,
      ((c.snapshot.index ≤ k ∧ k ≤ c.commit) ∨ SnapshotAt u k ∨ ∃ d ∈ before, d.index = k) →
      before.foldl M.advance (M.restore hist u.snapshot) k = M.state (l.take k) := by
    intro before
    induction before using reverseRecOn with
    | nil =>
      intro after _ k hk
      rw [foldl_nil]
      cases hs : u.snapshot with
      | none =>
        rcases hk with ⟨h1, h2⟩ | ⟨s, hs', _⟩ | ⟨d, hd, _⟩
        · exact hist_ok k h1 h2
        · rw [hs] at hs'; simp at hs'
        · simp at hd
      | some s =>
        by_cases hks : k = s.index
        · subst hks
          simp [Machine.restore, snap_ok s hs, Machine.image, M.load_save]
        rcases hk with ⟨h1, h2⟩ | ⟨s', hs', hi⟩ | ⟨d, hd, _⟩
        · simpa [Machine.restore, hks] using hist_ok k h1 h2
        · rw [hs] at hs'
          exact absurd (by rw [← hi, Option.some.inj hs']) hks
        · simp at hd
    | append_singleton before e ih =>
      intro after hsplit k hk
      have hsplit' : u.committed = before ++ e :: after := by simpa using hsplit
      obtain ⟨h0, _, hl, hprev⟩ := h.entry before e after hsplit'
      rw [foldl_append, foldl_cons, foldl_nil]
      by_cases hke : k = e.index
      · subst hke
        have htake : l.take e.index = l.take (e.index - 1) ++ [e] := by
          conv_lhs => rw [show e.index = e.index - 1 + 1 by omega]
          rw [take_add_one, hl]
          rfl
        rw [M.advance_same, ih (e :: after) hsplit' _ hprev, htake]
        simp [Machine.state]
      · rw [M.advance_ne _ hke]
        refine ih (e :: after) hsplit' k ?_
        rcases hk with hk | hk | ⟨d, hd, hdk⟩
        · exact .inl hk
        · exact .inr (.inl hk)
        · rcases mem_append.mp hd with hd | hd
          · exact .inr (.inr ⟨d, hd, hdk⟩)
          · rw [mem_singleton.mp hd] at hdk
            exact absurd hdk.symm hke
  intro k h1 h2
  exact key u.committed [] (by simp) k (h.cover k h1 h2)

/-! ### Deliveries compose -/

theorem Delivers.merge {c c₁ c₂ : Core} {u v : Update} {l₁ l₂ : List Entry}
    (h₁ : Delivers c u c₁ l₁) (h₂ : Delivers c₁ v c₂ l₂) (hc : Compatible u v)
    (hl : l₂.take c₁.commit = l₁.take c₁.commit) : Delivers c (u.merge v) c₂ l₂ := by
  -- at most one of the two carries a snapshot
  have hu : ∀ k, SnapshotAt u k → SnapshotAt (u.merge v) k := by
    rintro k ⟨s, hs, hk⟩
    rcases hc.log with ⟨hv, _⟩ | ⟨hn, _⟩
    · exact ⟨s, by rw [Update.merge_snapshot, hv, hs]; rfl, hk⟩
    · rw [hn] at hs; simp at hs
  have hv : ∀ k, SnapshotAt v k → SnapshotAt (u.merge v) k := by
    rintro k ⟨s, hs, hk⟩
    exact ⟨s, by rw [Update.merge_snapshot, hs]; rfl, hk⟩
  have known : ∀ k, c₁.snapshot.index ≤ k → k ≤ c₁.commit →
      (c.snapshot.index ≤ k ∧ k ≤ c.commit) ∨ SnapshotAt (u.merge v) k
        ∨ ∃ d ∈ u.committed, d.index = k := fun k hlo hhi =>
    (h₁.cover k hlo hhi).imp id (Or.imp (hu k) id)
  refine ⟨h₁.commit.trans h₂.commit, h₁.snap.trans h₂.snap, ?_, ?_, ?_, ?_⟩
  · intro before e after hsplit
    rw [Update.merge_committed] at hsplit
    rcases append_eq_append_iff.mp hsplit with ⟨mid, hb, hv'⟩ | ⟨mid, hu', hv'⟩
    · -- an entry of `v`
      obtain ⟨h0, hle, hget, hprev⟩ := h₂.entry mid e after hv'
      refine ⟨h0, hle, hget, ?_⟩
      rcases hprev with ⟨hlo, hhi⟩ | hs | ⟨d, hd, hdi⟩
      · rcases known _ hlo hhi with hk | hk | ⟨d, hd, hdi⟩
        · exact .inl hk
        · exact .inr (.inl hk)
        · exact .inr (.inr ⟨d, by rw [hb]; exact mem_append_left _ hd, hdi⟩)
      · exact .inr (.inl (hv _ hs))
      · exact .inr (.inr ⟨d, by rw [hb]; exact mem_append_right _ hd, hdi⟩)
    · cases mid with
      | nil =>
        -- the first entry of `v`
        simp only [append_nil, nil_append] at hu' hv'
        obtain ⟨h0, hle, hget, hprev⟩ := h₂.entry [] e after (by simpa using hv'.symm)
        refine ⟨h0, hle, hget, ?_⟩
        rcases hprev with ⟨hlo, hhi⟩ | hs | ⟨d, hd, _⟩
        · rw [← hu']
          exact known _ hlo hhi
        · exact .inr (.inl (hv _ hs))
        · simp at hd
      | cons x mid =>
        -- an entry of `u`
        simp only [cons_append, cons.injEq] at hv'
        obtain ⟨rfl, _⟩ := hv'
        obtain ⟨h0, hle, hget, hprev⟩ := h₁.entry before e mid hu'
        refine ⟨h0, hle.trans h₂.commit, ?_, hprev.imp id (Or.imp (hu _) id)⟩
        have := congrArg (fun l => l[e.index - 1]?) hl
        simp only [getElem?_take_of_lt (show e.index - 1 < c₁.commit by omega)] at this
        rw [this]
        exact hget
  · intro k hlo hhi
    rcases h₂.cover k hlo hhi with ⟨h1, h2⟩ | hs | ⟨e, he, hek⟩
    · rcases known k h1 h2 with hk | hk | ⟨d, hd, hdk⟩
      · exact .inl hk
      · exact .inr (.inl hk)
      · exact .inr (.inr ⟨d, mem_append_left _ hd, hdk⟩)
    · exact .inr (.inl (hv k hs))
    · exact .inr (.inr ⟨e, mem_append_right _ he, hek⟩)
  · intro s hs
    rw [Update.merge_snapshot] at hs
    cases hvs : v.snapshot with
    | some s' =>
      rw [hvs] at hs
      obtain rfl : s' = s := by simpa using hs
      obtain ⟨h0, h1, h2⟩ := h₂.boundary s' hvs
      exact ⟨h₁.snap.trans_lt h0, h1, h2⟩
    | none =>
      rw [hvs] at hs
      obtain ⟨h0, h1, h2⟩ := h₁.boundary s (by simpa using hs)
      exact ⟨h0, h1.trans h₂.commit, by rw [h₂.same hvs]; exact h2⟩
  · intro hs
    rw [Update.merge_snapshot] at hs
    cases hvs : v.snapshot with
    | some s' => rw [hvs] at hs; simp at hs
    | none =>
      rw [hvs] at hs
      rw [h₂.same hvs, h₁.same (by simpa using hs)]

/-! ### Transitions deliver -/

theorem Delivers.silent {c c' : Core} {u : Update} (l : List Entry) (hc : u.committed = [])
    (hs : u.snapshot = none) (hcommit : c'.commit = c.commit) (hsnap : c'.snapshot = c.snapshot) :
    Delivers c u c' l := by
  refine ⟨hcommit.ge, by rw [hsnap], ?_, ?_, ?_, fun _ => hsnap⟩
  · intro before e after hsplit
    rw [hc] at hsplit
    simp at hsplit
  · intro k hlo hhi
    rw [hsnap] at hlo
    rw [hcommit] at hhi
    exact .inl ⟨hlo, hhi⟩
  · intro s hs'
    rw [hs] at hs'
    simp at hs'

theorem Delivers.snapshot {c c' : Core} {s : Snapshot} (l : List Entry)
    (hlt : c.snapshot.index < s.index) (hsnap : c'.snapshot = s)
    (hcommit : c'.commit = max c.commit s.index) :
    Delivers c { snapshot := some s } c' l := by
  refine ⟨by rw [hcommit]; exact Nat.le_max_left _ _, by rw [hsnap]; exact hlt.le, ?_, ?_, ?_, ?_⟩
  · intro before e after hsplit
    simp at hsplit
  · intro k hlo hhi
    rw [hsnap] at hlo
    rw [hcommit] at hhi
    rcases Nat.eq_or_lt_of_le hlo with hk | hk
    · exact .inr (.inl ⟨s, rfl, hk⟩)
    · exact .inl ⟨by omega, by omega⟩
  · intro s' hs'
    obtain rfl : s = s' := by simpa using hs'
    exact ⟨hlt, by rw [hcommit]; exact Nat.le_max_right _ _, hsnap.symm⟩
  · intro h
    simp at h

section Codec
variable [MembershipJson] {boot : List ℕ} {image : List Entry → Bytes}
  {a : Sys ℕ Entry} {i : ℕ} {c c' : Core}

private theorem newly_getElem? (h : c.WF) {k j : ℕ} {e : Entry}
    (hle : k ≤ c.lastIndex) (he : (c.entriesBetween (c.commit + 1) (k + 1))[j]? = some e) :
    e.index = c.commit + j + 1 ∧ j < k - c.commit
      ∧ c.log[c.commit - c.snapshot.index + j]? = some e := by
  have hlo := h.commit_lo
  unfold Core.entriesBetween at he
  split at he
  · simp at he
  rw [Nat.min_eq_left (by omega), show c.commit + 1 - c.snapshot.index - 1
    = c.commit - c.snapshot.index by omega, show k + 1 - (c.commit + 1) = k - c.commit by omega]
    at he
  have hj : j < k - c.commit := by
    have := lt_length_of_getElem? he
    rw [length_take] at this
    omega
  rw [getElem?_take_of_lt hj, getElem?_drop] at he
  exact ⟨by have := h.index _ e he; omega, hj, he⟩

theorem Refines.delivers_commit (h : Refines boot image i c a) {k : ℕ} (hk : c.commit < k)
    (hle : k ≤ c.lastIndex) (hcommit : c'.commit = k) (hsnap : c'.snapshot = c.snapshot) :
    Delivers c { committed := c.entriesBetween (c.commit + 1) (k + 1) } c' (a.log i) := by
  have hlo := h.wf.commit_lo
  obtain ⟨pre, hlog, hs⟩ := h.log
  refine ⟨by omega, by rw [hsnap], ?_, ?_, by simp, fun _ => hsnap⟩
  · intro before e after hsplit
    have hsplit' : c.entriesBetween (c.commit + 1) (k + 1) = before ++ e :: after := hsplit
    obtain ⟨hi, hj, hget⟩ := newly_getElem? h.wf hle (j := before.length) (e := e)
      (by rw [hsplit']; simp)
    refine ⟨by omega, by omega, ?_, ?_⟩
    · rw [hlog, getElem?_append_right (by rw [hs.index]; omega), hs.index,
        show e.index - 1 - c.snapshot.index = c.commit - c.snapshot.index + before.length by omega]
      exact hget
    · rcases eq_nil_or_concat before with hnil | ⟨front, d, hd⟩
      · left
        rw [hnil, length_nil] at hi
        omega
      · right; right
        obtain ⟨hdi, _, _⟩ := newly_getElem? h.wf hle (j := front.length) (e := d)
          (by rw [hsplit', hd]; simp)
        refine ⟨d, by rw [hd]; simp, ?_⟩
        rw [hd] at hi
        simp at hi
        omega
  · intro j hlo' hhi
    rw [hsnap] at hlo'
    rcases Nat.lt_or_ge c.commit j with hj | hj
    · right; right
      have hlen : j - c.commit - 1 < (c.entriesBetween (c.commit + 1) (k + 1)).length := by
        unfold Core.entriesBetween
        unfold Core.lastIndex at hle ⊢
        rw [if_neg (by omega), length_take, length_drop]
        omega
      have hget := getElem?_eq_getElem hlen
      obtain ⟨hi, _, _⟩ := newly_getElem? h.wf hle hget
      exact ⟨_, mem_of_getElem? hget, by omega⟩
    · exact .inl ⟨hlo', hj⟩

theorem Trans.delivers {inp : Input} {u : Update} (h : Refines boot image i c a)
    (ht : Trans inp c u c') {l : List Entry} (hl : c'.log = c.log → c'.snapshot = c.snapshot →
      l = a.log i) : Delivers c u c' l := by
  cases ht with
  | commit k hr hk hle ht hq =>
    rw [hl rfl rfl]
    exact h.delivers_commit hk hle rfl rfl
  | learn m k hm hr hmal hh hk hlt =>
    rw [hl rfl rfl]
    have := hh.last
    exact h.delivers_commit hlt (by omega) rfl rfl
  | install core m sent hm hr hs hi ht hv hmi hlt hcommit hb =>
    obtain ⟨mem, _, rfl⟩ := Core.rebuildMembership_eq hb
    exact .snapshot l hlt rfl rfl
  | compact core s m data hi hd hlt hle ht hterm hat hm hmi hb =>
    obtain ⟨mem, _, rfl⟩ := Core.rebuildMembership_eq hb
    exact .snapshot l hlt rfl (Nat.max_eq_left hle).symm
  | halfCompact s m data e hi hd hlt hle ht hterm hat hm hmi hb =>
    obtain ⟨_, hfold⟩ := h.wf.compact_folded hlt hterm hat hm
    unfold Core.rebuildMembership at hb
    rw [hfold] at hb
    simp at hb
  | reconfigure core command hr hc hm =>
    obtain ⟨mem, _, rfl⟩ := Core.rebuildMembership_eq hm
    exact .silent l rfl rfl rfl rfl
  | splice core m keep tf entries hm hr hmal hle ht hs ha =>
    obtain ⟨mem, rfl, _⟩ := Core.applySplice_eq ha
    exact .silent l rfl rfl rfl rfl
  | _ => exact .silent l rfl rfl rfl rfl

/-! ### Whole operations -/

/-- Two refinements of cores with the same log and snapshot have the same whole log. -/
private theorem log_eq {a' : Sys ℕ Entry} (hinv : Inv (scheme boot) a)
    (hinv' : Inv (scheme boot) a') (hx : Ext a a') (h : Refines boot image i c a)
    (h' : Refines boot image i c' a') (hlog : c'.log = c.log) (hsnap : c'.snapshot = c.snapshot) :
    a'.log i = a.log i := by
  obtain ⟨pre, hpre, hs⟩ := h.log
  obtain ⟨pre', hpre', hs'⟩ := h'.log
  rw [hsnap] at hs'
  have hstable := committed_stable hinv hinv' hx (n := i) (k := c.snapshot.index)
    (by rw [h.commit]; exact h.wf.commit_lo)
    (show c.snapshot.index ≤ a'.commit i by rw [h'.commit, ← hsnap]; exact h'.wf.commit_lo)
  rw [hpre, hpre', take_left' hs.index, take_left' hs'.index] at hstable
  rw [hpre, hpre', hstable, hlog]

/-- **Every operation of a node is simulated.**  Its path of transitions is a path of abstract
    steps, everything it sends is meaningful, and its update delivers the committed prefix. -/
theorem Path.simulates {inp : Input} {u : Update} (hp : inp.Plain)
    (hinv : Inv (scheme boot) a) (hidx : Indexed a) (h : Refines boot image i c a)
    (hin : ∀ r, inp = .message r → Meaning boot image a r) (hf : Faithful image i a inp)
    (hpath : Path inp c u c') :
    ∃ a', Steps (scheme boot) i a a' ∧ Refines boot image i c' a' ∧ Indexed a'
      ∧ (∀ m ∈ u.messages, Meaning boot image a' m) ∧ Delivers c u c' (a'.log i) := by
  induction hpath with
  | nil => exact ⟨a, .refl a, h, hidx, by simp, .silent _ rfl rfl rfl rfl⟩
  | snoc hpre ht hc ih =>
    obtain ⟨a1, hs1, h1, hidx1, hm1, hd1⟩ := ih
    obtain ⟨hinv1, hx1, _⟩ := hs1.sound hinv
    have hf1 : Faithful image i a1 inp := by
      intro k data hi
      obtain ⟨hk, hdata⟩ := hf k data hi
      have hk1 : k ≤ a1.commit i := by
        rw [h1.commit]; rw [h.commit] at hk; exact hk.trans hd1.commit
      exact ⟨hk1, by rw [committed_stable hinv hinv1 hx1 hk hk1]; exact hdata⟩
    obtain ⟨a2, hs2, h2, hidx2, hm2⟩ := Trans.simulates hp hinv1 hidx1 h1
      (fun r hr => (hin r hr).mono hx1) hf1 ht
    obtain ⟨hinv2, hx2, _⟩ := hs2.sound hinv1
    have hd2 := Trans.delivers h1 ht (l := a2.log i)
      (fun hl hs => log_eq hinv1 hinv2 hx2 h1 h2 hl hs)
    refine ⟨a2, hs1.trans hs2, h2, hidx2, ?_, hd1.merge hd2 hc ?_⟩
    · intro m hm
      rcases mem_append.mp hm with hm | hm
      · exact (hm1 m hm).mono hx2
      · exact hm2 m hm
    · exact committed_stable hinv1 hinv2 hx2 (by rw [h1.commit])
        (by rw [h2.commit]; exact hd2.commit)

end Codec

end Lsmdb.Cluster

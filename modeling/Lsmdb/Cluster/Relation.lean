import Lsmdb.Cluster.Scheme

namespace Lsmdb.Cluster

open Lsmdb.Raft Consensus

/-!
# Cluster — how a node stands for a node of the abstract protocol

A node keeps a compacted log; the abstract node keeps all of it.  `Refines` relates the two
through the prefix `pre` that the snapshot summarises, and says which pieces of history the
role of the node vouches for.

`Meaning` says what a message claims, in terms of history only.  History never shrinks, so
a message stays meaningful however late and however often it is delivered
(`Meaning.mono`).

`image` is the snapshot data of a log prefix: what the state machine saves after applying
it.
-/

section Codec
variable [MembershipJson] (boot : List ℕ) (image : List Entry → Bytes)

/-- A snapshot summarises `pre`. -/
structure Summarises (s : Snapshot) (pre : List Entry) : Prop where
  index : pre.length = s.index
  term : (scheme boot).lastTerm pre = s.term
  membership : 0 < s.index → s.membership = confOf boot pre
  data : 0 < s.index → s.data = image pre

/-- **A core refines node `i` of the abstract protocol.** -/
structure Refines (i : ℕ) (c : Core) (a : Sys ℕ Entry) : Prop where
  wf : c.WF
  id : c.cfg.id = i
  id_ne : i ≠ 0
  peers : c.cfg.peers = boot
  term : a.term i = c.term
  log : ∃ pre, a.log i = pre ++ c.log ∧ Summarises boot image c.snapshot pre
  commit : a.commit i = c.commit
  vote : a.vote c.term i = if c.votedFor = 0 then none else some c.votedFor
  cand : c.role = .candidate →
    a.cand c.term i = some (a.log i) ∧ a.lead c.term ≠ some i
      ∧ ∀ j, c.votes j = some true → a.vote c.term j = some i
  lead : c.role = .leader →
    a.lead c.term = some i ∧ ∀ j, c.matchIndex j ≤ a.ack c.term j

/-- Entries of leader logs sit at their own index. -/
def Indexed (a : Sys ℕ Entry) : Prop :=
  ∀ (t k : ℕ) (e : Entry), (a.llog t)[k]? = some e → e.index = k + 1 ∧ e.term ≠ 0

/-- **What a message claims** about history. -/
def Meaning (a : Sys ℕ Entry) (m : Message) : Prop :=
  match m.type with
  | .vote => m.fromID ≠ 0 ∧ ∃ L, a.cand m.term m.fromID = some L ∧ L.length = m.logIndex
      ∧ (scheme boot).lastTerm L = m.logTerm
  | .voteResponse => m.reject = false → m.toID ≠ 0 ∧ a.vote m.term m.fromID = some m.toID
  | .append => a.lead m.term = some m.fromID
      ∧ m.logIndex + m.entries.length ≤ (a.llog m.term).length
      ∧ m.entries <+: (a.llog m.term).drop m.logIndex
      ∧ (scheme boot).lastTerm ((a.llog m.term).take m.logIndex) = m.logTerm
      ∧ m.leaderCommit ≤ (a.llog m.term).length
      ∧ (m.leaderCommit = 0
        ∨ a.Covers m.term ((a.llog m.term).take m.leaderCommit))
  | .appendResponse => m.reject = false → m.logIndex ≤ a.ack m.term m.fromID
  | .snapshot => a.lead m.term = some m.fromID
      ∧ ∃ s, m.snapshot = some s ∧ 0 < s.index ∧ s.index ≤ (a.llog m.term).length
        ∧ Summarises boot image s ((a.llog m.term).take s.index)
        ∧ a.Covers m.term ((a.llog m.term).take s.index)
  | .snapshotResponse => m.reject = false → m.logIndex ≤ a.ack m.term m.fromID
  | _ => True

variable {boot image} {a a' : Sys ℕ Entry} {i : ℕ} {c : Core}

/-! ### Messages stay meaningful -/

/-- **History only grows, so what a message claims stays true.** -/
theorem Meaning.mono (hx : Ext a a') {m : Message} (h : Meaning boot image a m) :
    Meaning boot image a' m := by
  unfold Meaning at h ⊢
  cases hm : m.type <;> simp only [hm] at h ⊢
  case vote =>
    obtain ⟨h0, L, hL, h1, h2⟩ := h
    exact ⟨h0, L, hx.cand _ _ _ hL, h1, h2⟩
  case voteResponse => exact fun hr => ⟨(h hr).1, hx.vote _ _ _ (h hr).2⟩
  case append =>
    obtain ⟨hl, hlen, hes, hterm, hle, hcov⟩ := h
    have hgrow := hx.llog m.term
    refine ⟨hx.lead _ _ hl, hlen.trans hgrow.length_le, hes.trans (hgrow.drop _), ?_,
      hle.trans hgrow.length_le, ?_⟩
    · rw [hx.take_llog (by omega)]
      exact hterm
    · rw [hx.take_llog hle]
      exact hcov.imp id hx.covers
  case appendResponse => exact fun hr => (h hr).trans (hx.ack _ _)
  case snapshot =>
    obtain ⟨hl, s, hs, h0, hle, hsum, hcov⟩ := h
    refine ⟨hx.lead _ _ hl, s, hs, h0, hle.trans (hx.llog _).length_le, ?_, ?_⟩
    · rw [hx.take_llog hle]; exact hsum
    · rw [hx.take_llog hle]; exact hx.covers hcov
  case snapshotResponse => exact fun hr => (h hr).trans (hx.ack _ _)

/-! ### Reading the whole log through the compacted one -/

theorem lastTerm_take (boot : List ℕ) {l : List Entry} {k : ℕ} {e : Entry} (he : l[k]? = some e) :
    (scheme boot).lastTerm (l.take (k + 1)) = e.term := by
  have hk := lt_length_of_getElem? he
  have hlast : (l.take (k + 1)).getLast? = some e := by
    rw [List.getLast?_eq_getElem?, List.length_take, Nat.min_eq_left (by omega),
      List.getElem?_take_of_lt (by omega)]
    exact he
  unfold Scheme.lastTerm
  rw [hlast]
  rfl

theorem Refines.length_log (h : Refines boot image i c a) : (a.log i).length = c.lastIndex := by
  obtain ⟨pre, hlog, hs⟩ := h.log
  rw [hlog, List.length_append, hs.index]
  rfl

/-- `termAt` is the term of the last entry of the prefix, from the snapshot on. -/
theorem Refines.lastTerm_take_log (h : Refines boot image i c a) {k : ℕ}
    (hlo : c.snapshot.index ≤ k) (hhi : k ≤ c.lastIndex) :
    (scheme boot).lastTerm ((a.log i).take k) = c.termAt k := by
  obtain ⟨pre, hlog, hs⟩ := h.log
  rcases Nat.eq_or_lt_of_le hlo with rfl | hlt
  · -- at the boundary the snapshot knows the term
    rw [hlog, List.take_left' hs.index, hs.term]
    unfold Core.termAt
    split
    · rename_i h0
      exact h.wf.snap_zero.mp h0
    · rw [if_pos rfl]
  · obtain ⟨e, he, ht⟩ := c.exists_of_termAt hlt hhi
    have hget : (a.log i)[k - 1]? = some e := by
      rw [hlog, List.getElem?_append_right (by rw [hs.index]; omega), hs.index,
        show k - 1 - c.snapshot.index = k - c.snapshot.index - 1 by omega]
      exact he
    have := lastTerm_take boot hget
    rwa [show k - 1 + 1 = k by omega, ← ht] at this

/-- The configuration below the retained log is that of the summarised prefix. -/
theorem Refines.base (h : Refines boot image i c a) {pre : List Entry}
    (hs : Summarises boot image c.snapshot pre) :
    c.baseMembership = confOf boot pre := by
  unfold Core.baseMembership
  split
  · rename_i hpos
    exact hs.membership hpos.1
  rename_i hneg
  rcases Nat.eq_zero_or_pos c.snapshot.index with h0 | hpos
  · have hnil : pre = [] := List.length_eq_zero_iff.mp (by rw [hs.index, h0])
    rw [h.wf.init, h.peers, hnil]
    rfl
  -- a folded configuration always has voters
  exfalso
  have hne : c.snapshot.membership.voters ≠ [] := by
    rw [hs.membership hpos]
    exact confOf_voters_ne (h.peers ▸ h.wf.peers) pre
  exact hneg ⟨hpos, List.length_pos_iff.mpr hne⟩

theorem Refines.conf (h : Refines boot image i c a) : c.membership = confOf boot (a.log i) := by
  obtain ⟨pre, hlog, hs⟩ := h.log
  rw [hlog, confOf_append, ← h.base hs]
  exact (foldl_stepConf_of_fold h.wf.folded).symm

end Codec

end Lsmdb.Cluster

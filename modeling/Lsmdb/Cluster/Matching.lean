import Lsmdb.Cluster.Safety

namespace Lsmdb.Cluster

open Lsmdb.Raft Lsmdb.RaftStore Consensus

/-!
# Cluster — log matching

Two nodes that hold an entry with the same index and term hold the same log up to it, as far as
both retain it.  The abstract logs of a run are well-formed at every moment, and well-formed
logs match (`Consensus.Sys.Wf.matching`); the compacted logs are their suffixes, and the
boundary of a snapshot stands for the last entry of what it summarises.
-/

section Codec
variable [MembershipJson] {σ : Type} {M : Machine σ} {boot : List ℕ} {run : ℕ → World σ}
  {image : List Entry → Bytes} {i : ℕ} {c : Core} {a : Sys ℕ Entry}

/-- The log holds an entry of that term at index `k`, or the snapshot ends in one. -/
def HoldsAt (c : Core) (k term : ℕ) : Prop :=
  (∃ e ∈ c.log, e.index = k ∧ e.term = term)
    ∨ (0 < k ∧ c.snapshot.index = k ∧ c.snapshot.term = term)

/-! ### Positions of the whole log -/

/-- A retained entry sits at its index in the whole log. -/
theorem Refines.getElem_log (h : Refines boot image i c a) {e : Entry} (he : e ∈ c.log) :
    (a.log i)[e.index - 1]? = some e ∧ 0 < e.index := by
  obtain ⟨pre, hlog, hs⟩ := h.log
  obtain ⟨k, hk⟩ := List.mem_iff_getElem?.mp he
  have hi := h.wf.index k e hk
  have hlen := hs.index
  rw [hlog, List.getElem?_append_right (by omega)]
  refine ⟨?_, by omega⟩
  rw [show e.index - 1 - pre.length = k by omega]
  exact hk

theorem Refines.holdsAt (h : Refines boot image i c a) {k term : ℕ} (hk : HoldsAt c k term) :
    ∃ e, (a.log i)[k - 1]? = some e ∧ e.term = term ∧ 0 < k := by
  rcases hk with ⟨e, he, rfl, rfl⟩ | ⟨h0, rfl, rfl⟩
  · obtain ⟨hget, hpos⟩ := h.getElem_log he
    exact ⟨e, hget, rfl, hpos⟩
  -- the boundary is the last entry of the summarised prefix
  obtain ⟨pre, hlog, hs⟩ := h.log
  have hlt : c.snapshot.index - 1 < (a.log i).length := by
    rw [hlog, List.length_append, hs.index]
    omega
  refine ⟨(a.log i)[c.snapshot.index - 1], List.getElem?_eq_getElem hlt, ?_, h0⟩
  have hpre : (a.log i).take c.snapshot.index = pre := by rw [hlog, List.take_left' hs.index]
  have hlast := lastTerm_take boot (List.getElem?_eq_getElem hlt)
  rw [Nat.sub_add_cancel h0, hpre, hs.term] at hlast
  exact hlast.symm

/-- The whole logs of two nodes, at any moments, agree up to an entry both hold. -/
private theorem take_eq_of_holdsAt {f : ℕ → Sys ℕ Entry} (hrel : ∀ t, Rel M boot (run t) (f t))
    (hext : ∀ t t', t ≤ t' → Ext (f t) (f t')) {t t' i j : ℕ} {n n' : Node}
    (hn : (run t).nodes i = some n) (hn' : (run t').nodes j = some n') {k term : ℕ}
    (hk : HoldsAt n.toCore k term) (hk' : HoldsAt n'.toCore k term) :
    ((f t).log i).take k = ((f t').log j).take k := by
  obtain ⟨e, he, hte, h0⟩ := ((hrel t).up i n hn).refines.holdsAt hk
  obtain ⟨e', he', hte', _⟩ := ((hrel t').up j n' hn').refines.holdsAt hk'
  -- both logs are well-formed in the history of the later moment
  have hw := (hext t (max t t') (Nat.le_max_left _ _)).wf ((hrel t).inv.log_wf i)
  have hw' := (hext t' (max t t') (Nat.le_max_right _ _)).wf ((hrel t').inv.log_wf j)
  have heq := hw.matching hw' he he' (hte.trans hte'.symm)
  rwa [Nat.sub_add_cancel h0] at heq

/-- **Log matching.**  In every run, whichever nodes and moments are compared: if both logs hold
    an entry with the same index and term, then they hold identical entries at that index and at
    every smaller index that both retain, and where both have a snapshot at or below it, the
    same term, configuration and data at the same boundary. -/
theorem log_matching (M : Machine σ) (boot : List ℕ) (run : ℕ → World σ)
    (hrun : IsRun M boot run) {t t' i j : ℕ} {n n' : Node} (hn : (run t).nodes i = some n)
    (hn' : (run t').nodes j = some n') {k term : ℕ} (hk : HoldsAt n.toCore k term)
    (hk' : HoldsAt n'.toCore k term) :
    (∀ e ∈ n.log, ∀ e' ∈ n'.log, e.index = e'.index → e.index ≤ k → e = e')
      ∧ (∀ l τ τ', l ≤ k → HoldsAt n.toCore l τ → HoldsAt n'.toCore l τ' → τ = τ')
      ∧ (n.snapshot.index = n'.snapshot.index → 0 < n.snapshot.index → n.snapshot.index ≤ k →
        n.snapshot.membership = n'.snapshot.membership
          ∧ n.snapshot.data = n'.snapshot.data) := by
  obtain ⟨f, hrel, hext⟩ := hrun.simulation
  have href := ((hrel t).up i n hn).refines
  have href' := ((hrel t').up j n' hn').refines
  have htake := take_eq_of_holdsAt hrel hext hn hn' hk hk'
  -- so the two logs have the same entry at every position below `k`
  have hget : ∀ p, p < k → ((f t).log i)[p]? = ((f t').log j)[p]? := by
    intro p hp
    have := congrArg (fun l => l[p]?) htake
    simpa only [List.getElem?_take_of_lt hp] using this
  refine ⟨fun e he e' he' hidx hle => ?_, fun l τ τ' hle hl hl' => ?_, fun hidx h0 hle => ?_⟩
  · obtain ⟨h1, hpos⟩ := href.getElem_log he
    obtain ⟨h2, _⟩ := href'.getElem_log he'
    rw [hget _ (by omega), hidx, h2] at h1
    exact (Option.some.inj h1).symm
  · obtain ⟨e, he, hte, hpos⟩ := href.holdsAt hl
    obtain ⟨e', he', hte', _⟩ := href'.holdsAt hl'
    rw [hget _ (by omega), he'] at he
    rw [← hte, ← hte', Option.some.inj he]
  · obtain ⟨pre, hlog, hs⟩ := href.log
    obtain ⟨pre', hlog', hs'⟩ := href'.log
    have hpre : pre = pre' := by
      have h1 : ((f t).log i).take n.snapshot.index = pre := by
        rw [hlog, List.take_left' hs.index]
      have h2 : ((f t').log j).take n.snapshot.index = pre' := by
        rw [hidx, hlog', List.take_left' hs'.index]
      rw [← h1, ← h2]
      have := congrArg (List.take n.snapshot.index) htake
      simpa only [List.take_take, Nat.min_eq_left hle] using this
    refine ⟨?_, ?_⟩
    · rw [hs.membership h0, hs'.membership (hidx ▸ h0), hpre]
    · rw [hs.data h0, hs'.data (hidx ▸ h0), hpre]

omit [MembershipJson] in
/-- The leader of the one-node run holds its no-op, and matches itself. -/
theorem log_matching_solo :
    ∃ n, (soloRun 3).nodes 1 = some n ∧ HoldsAt n.toCore 1 1
      ∧ ∀ e ∈ n.log, ∀ e' ∈ n.log, e.index = e'.index → e.index ≤ 1 → e = e' := by
  have hn : (soloRun 3).nodes 1 = some (((soloRun 3).nodes 1).get (by decide)) :=
    (Option.some_get _).symm
  have hk : HoldsAt (((soloRun 3).nodes 1).get (by decide)).toCore 1 1 :=
    .inl ⟨{ index := 1, term := 1 }, List.mem_singleton_self _, rfl, rfl⟩
  exact ⟨_, hn, hk,
    (@log_matching unaryJson ℕ counter [1] soloRun soloRun_isRun 3 3 1 1 _ _ hn hn 1 1 hk hk).1⟩

end Codec

end Lsmdb.Cluster

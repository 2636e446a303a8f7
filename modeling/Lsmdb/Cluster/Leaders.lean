import Lsmdb.Cluster.Matching

namespace Lsmdb.Cluster

open Lsmdb.Raft Consensus

/-!
# Cluster — what leaders hold

`leader_completeness` — leaders hold what was committed before them, and only append.  Whole logs
are compared in the history of the run, and the result is read off the compacted ones
(`Refines.carries`).  Voters may change during the run.
-/

/-- `c'` has what `c` has up to index `k`: its log reaches `k`, and the entries that its snapshot
    does not cover are there. -/
structure Carries (c c' : Core) (k : ℕ) : Prop where
  reaches : k ≤ c'.lastIndex
  entries : ∀ e ∈ c.log, e.index ≤ k → c'.snapshot.index < e.index → e ∈ c'.log

section Codec
variable [MembershipJson] {σ : Type} {boot : List ℕ} {image : List Entry → Bytes} {i j : ℕ}
  {c c' : Core} {a a' : Sys ℕ Entry}

/-- A prefix of one whole log that is a prefix of another is carried by the compacted ones. -/
theorem Refines.carries (h : Refines boot image i c a) (h' : Refines boot image j c' a') {k : ℕ}
    (hk : k ≤ c.lastIndex) (hpre : (a.log i).take k <+: a'.log j) : Carries c c' k := by
  constructor
  · have hlen := hpre.length_le
    rwa [List.length_take, h.length_log, h'.length_log, Nat.min_eq_left hk] at hlen
  · intro e he hle hretained
    obtain ⟨hget, hpos⟩ := h.getElem_log he
    obtain ⟨pre, hlog, hs⟩ := h'.log
    have hget' : (a'.log j)[e.index - 1]? = some e := by
      apply getElem?_extend hpre
      rwa [List.getElem?_take_of_lt (by omega)]
    rw [hlog, List.getElem?_append_right (by rw [hs.index]; omega)] at hget'
    exact List.mem_of_getElem? hget'

/-- **Leader completeness.**  In every run, a leader carries everything that any node has
    committed by then in the leader's term, and everything that any node commits, be it later,
    while still in an earlier term.  From one moment of a term to a later one, the leader carries
    its whole log. -/
theorem leader_completeness (M : Machine σ) (boot : List ℕ) (run : ℕ → World σ)
    (hrun : IsRun M boot run) :
    (∀ t t' i j n n', (run t).nodes i = some n → (run t').nodes j = some n' →
        n'.role = .leader → (n.term < n'.term ∨ n.term = n'.term ∧ t ≤ t') →
        Carries n.toCore n'.toCore n.commit)
      ∧ ∀ t t' i j n n', t ≤ t' → (run t).nodes i = some n → (run t').nodes j = some n' →
        n.role = .leader → n'.role = .leader → n.term = n'.term →
        Carries n.toCore n'.toCore n.lastIndex := by
  obtain ⟨f, hrel, hext⟩ := hrun.simulation
  -- the log of a leader is the one that history has for its term
  have hlog : ∀ t i n, (run t).nodes i = some n → n.role = .leader →
      (f t).lead n.term = some i ∧ (f t).log i = (f t).llog n.term := by
    intro t i n hn hr
    have href := ((hrel t).up i n hn).refines
    have hl := (href.lead hr).1
    exact ⟨hl, (hrel t).inv.lead_log _ _ hl href.term⟩
  constructor
  · intro t t' i j n n' hn hn' hlead hterm
    have href := ((hrel t).up i n hn).refines
    obtain ⟨hl, hlog'⟩ := hlog t' j n' hn' hlead
    have hne : (f t').lead n'.term ≠ none := by rw [hl]; simp
    refine href.carries ((hrel t').up j n' hn').refines href.wf.commit_hi ?_
    rcases (hrel t).inv.commit_ok i with h0 | hcov
    · rw [← href.commit, h0]
      exact List.nil_prefix
    rw [href.commit, href.term] at hcov
    rw [hlog']
    rcases hterm with hlt | ⟨heq, hle⟩
    · -- the log with which the leader was elected does not change any more
      have hx := hext t' (max t t') (Nat.le_max_right _ _)
      obtain ⟨u, k, m, hc, hu, hpre⟩ := (hext t (max t t') (Nat.le_max_left _ _)).covers hcov
      have helog := (hrel (max t t')).inv.leader_complete (n'.term + 1) n'.term u k m
        (Nat.lt_succ_self _) hc (hu.trans_lt hlt) (hx.lead_ne hne)
      rw [hx.elog _ hne] at helog
      exact hpre.trans (helog.trans ((hrel t').inv.elog_llog _ hne))
    · rw [heq] at hcov
      exact (hrel t').inv.covers_llog ((hext t t' hle).covers hcov) hne
  · intro t t' i j n n' hle hn hn' hlead hlead' hterm
    refine ((hrel t).up i n hn).refines.carries ((hrel t').up j n' hn').refines le_rfl
      ((List.take_prefix _ _).trans ?_)
    rw [(hlog t i n hn hlead).2, (hlog t' j n' hn' hlead').2, hterm]
    exact (hext t t' hle).llog _

omit [MembershipJson] in
/-- The leader of the one-node run carries its own committed entry. -/
theorem leader_completeness_solo :
    ∃ n, (soloRun 3).nodes 1 = some n ∧ n.commit = 1 ∧ Carries n.toCore n.toCore 1 := by
  have hn : (soloRun 3).nodes 1 = some (((soloRun 3).nodes 1).get (by decide)) :=
    (Option.some_get _).symm
  exact ⟨_, hn, rfl, (@leader_completeness unaryJson ℕ counter [1] soloRun soloRun_isRun).1
    3 3 1 1 _ _ hn hn rfl (.inr ⟨rfl, le_rfl⟩)⟩

end Codec

end Lsmdb.Cluster

import Lsmdb.Cluster.Run

namespace Lsmdb.Cluster

open Lsmdb.Raft Lsmdb.RaftStore Consensus

/-!
# Cluster — safety of whole runs

Along every run there is one growing history of the abstract protocol
(`IsRun.simulation`).  Two results are read off it:

* `stateMachine_safety` — one ledger of entries that every node's committed entries and
  snapshots agree with, at every moment of the run;
* `election_safety` — one leader per term, votes that never change within a term, and no two
  nodes supported by a quorum in the same term.
-/

section Codec
variable [MembershipJson] {σ : Type} {M : Machine σ} {boot : List ℕ} {run : ℕ → World σ}

/-- **A run has one history**, which only grows. -/
theorem IsRun.simulation (h : IsRun M boot run) :
    ∃ f : ℕ → Sys ℕ Entry, (∀ t, Rel M boot (run t) (f t))
      ∧ ∀ t t', t ≤ t' → Ext (f t) (f t') := by
  have step : ∀ t (a : { a : Sys ℕ Entry // Rel M boot (run t) a }),
      ∃ a' : { a' : Sys ℕ Entry // Rel M boot (run (t + 1)) a' }, Ext a.1 a'.1 := by
    rintro t ⟨a, ha⟩
    rcases h.succ t with heq | hs
    · exact ⟨⟨a, by rw [heq]; exact ha⟩, .refl a⟩
    · obtain ⟨a', ha', hx⟩ := World.Step.rel ha hs
      exact ⟨⟨a', ha'⟩, hx⟩
  choose next hnext using step
  let f : (t : ℕ) → { a : Sys ℕ Entry // Rel M boot (run t) a } := fun t =>
    Nat.rec ⟨Sys.init, by rw [h.zero]; exact Rel.init M boot⟩ next t
  refine ⟨fun t => (f t).1, fun t => (f t).2, ?_⟩
  intro t t' hle
  induction t', hle using Nat.le_induction with
  | base => exact .refl _
  | succ k _ ih => exact ih.trans (hnext k (f k))

/-! ### State-machine safety -/

/-- The first `k` entries of a ledger. -/
def ledgerPrefix (ledger : ℕ → Entry) (k : ℕ) : List Entry :=
  (List.range k).map (fun j => ledger (j + 1))

omit [MembershipJson] in
theorem ledgerPrefix_getElem? (ledger : ℕ → Entry) {j k : ℕ} (h : j < k) :
    (ledgerPrefix ledger k)[j]? = some (ledger (j + 1)) := by
  simp [ledgerPrefix, List.getElem?_range h]

/-- Decided prefixes agree, whichever nodes and moments they are read at. -/
private theorem take_eq {f : ℕ → Sys ℕ Entry} (hrel : ∀ t, Rel M boot (run t) (f t))
    (hext : ∀ t t', t ≤ t' → Ext (f t) (f t')) {t t' i j k : ℕ} (hi : k ≤ (f t).commit i)
    (hj : k ≤ (f t').commit j) : ((f t).log i).take k = ((f t').log j).take k := by
  rcases Nat.le_total t t' with hle | hle
  · exact (committed_stable (hrel t).inv (hrel t').inv (hext t t' hle) hi hj).symm
  · exact committed_stable (hrel t').inv (hrel t).inv (hext t' t hle) hj hi

/-- There is a ledger of which every decided prefix is a prefix. -/
private theorem exists_ledger {f : ℕ → Sys ℕ Entry} (hrel : ∀ t, Rel M boot (run t) (f t))
    (hext : ∀ t t', t ≤ t' → Ext (f t) (f t')) :
    ∃ ledger : ℕ → Entry, ∀ t i k, k ≤ (f t).commit i →
      ((f t).log i).take k = ledgerPrefix ledger k := by
  classical
  -- the entry at an index, wherever it was decided
  have pick : ∀ k, ∃ e : Entry, ∀ t i, k < (f t).commit i → ((f t).log i)[k]? = some e := by
    intro k
    by_cases hex : ∃ t i, k < (f t).commit i
    · obtain ⟨t, i, hk⟩ := hex
      have hlen : k < ((f t).log i).length := hk.trans_le ((hrel t).inv.commit_le i)
      refine ⟨((f t).log i)[k], fun t' i' hk' => ?_⟩
      have heq := congrArg (fun l => l[k]?) (take_eq hrel hext (k := k + 1) hk hk')
      simp only [List.getElem?_take_of_lt (Nat.lt_succ_self k)] at heq
      rw [← heq, List.getElem?_eq_getElem hlen]
    · exact ⟨{ index := 0, term := 0, data := [] },
        fun t i hk => absurd ⟨t, i, hk⟩ hex⟩
  choose entry hentry using pick
  refine ⟨fun k => entry (k - 1), fun t i k hk => ?_⟩
  have hlen : k ≤ ((f t).log i).length := hk.trans ((hrel t).inv.commit_le i)
  apply List.ext_getElem?
  intro j
  by_cases hj : j < k
  · rw [List.getElem?_take_of_lt hj, hentry j t i (by omega), ledgerPrefix_getElem? _ hj]
    rfl
  · rw [List.getElem?_eq_none (by rw [List.length_take]; omega),
      List.getElem?_eq_none (by simp [ledgerPrefix]; omega)]

/-- **State-machine safety.**  For every run there is one ledger such that at every moment
    every entry a node has committed is the ledger's entry at that index, and every snapshot
    summarises the ledger up to its index: the term there, the configuration its entries lead
    to, and the machine's image of them. -/
theorem stateMachine_safety (M : Machine σ) (boot : List ℕ) (run : ℕ → World σ)
    (hrun : IsRun M boot run) :
    ∃ ledger : ℕ → Entry, ∀ t i n, (run t).nodes i = some n →
      (∀ k e, n.log[k]? = some e → n.snapshot.index + k + 1 ≤ n.commit →
        e = ledger (n.snapshot.index + k + 1))
      ∧ (0 < n.snapshot.index →
        n.snapshot.term = (ledger n.snapshot.index).term
          ∧ n.snapshot.membership = confOf boot (ledgerPrefix ledger n.snapshot.index)
          ∧ n.snapshot.data = M.image (ledgerPrefix ledger n.snapshot.index)) := by
  obtain ⟨f, hrel, hext⟩ := hrun.simulation
  obtain ⟨ledger, hledger⟩ := exists_ledger hrel hext
  refine ⟨ledger, fun t i n hn => ?_⟩
  have hup := (hrel t).up i n hn
  have href := hup.refines
  obtain ⟨pre, hlog, hsum⟩ := href.log
  constructor
  · intro k e he hk
    have htake := hledger t i (n.snapshot.index + k + 1) (by rw [href.commit]; exact hk)
    have heq := congrArg (fun l => l[n.snapshot.index + k]?) htake
    simp only [List.getElem?_take_of_lt (Nat.lt_succ_self (n.snapshot.index + k))] at heq
    rw [hlog, List.getElem?_append_right (by rw [hsum.index]; omega), hsum.index,
      Nat.add_sub_cancel_left, he, ledgerPrefix_getElem? _ (Nat.lt_succ_self _)] at heq
    exact Option.some.inj heq
  · intro h0
    have hpre : pre = ledgerPrefix ledger n.snapshot.index := by
      rw [← hledger t i n.snapshot.index (by rw [href.commit]; exact href.wf.commit_lo), hlog,
        List.take_left' hsum.index]
    refine ⟨?_, by rw [← hpre]; exact hsum.membership h0, by rw [← hpre]; exact hsum.data h0⟩
    have hget : (ledgerPrefix ledger n.snapshot.index)[n.snapshot.index - 1]?
        = some (ledger n.snapshot.index) := by
      rw [ledgerPrefix_getElem? _ (by omega), Nat.sub_add_cancel h0]
    have := lastTerm_take boot hget
    rw [Nat.sub_add_cancel h0, List.take_of_length_le (by simp [ledgerPrefix]), ← hpre,
      hsum.term] at this
    exact this

/-! A one-node cluster that starts, times out twice, elects itself and commits an entry. -/

/-- A machine that counts entries. -/
def counter : Machine ℕ where
  init := 0
  apply n _ := n + 1
  save n := List.replicate n 0
  load data := data.length
  load_save n := by simp

/-- The configuration of the only node. -/
def soloConfig : Config :=
  { id := 1, peers := [1], electionTickMin := 2, electionTickMax := 3, heartbeatTicks := 1,
    checkQuorumTicks := 1 }

/-- Start the node, or tick it. -/
def soloStep (s : World ℕ) : World ℕ :=
  match s.nodes 1 with
  | none =>
    match @Node.new unaryJson soloConfig {} [] none with
    | .ok n => { s with nodes := Function.update s.nodes 1 (some n) }
    | .error _ => s
  | some n =>
    let r := @Node.tick unaryJson n
    s.put counter 1 r.1 ((s.disk 1).persist r.2 none).1 r.2

/-- Three steps, and nothing afterwards. -/
def soloRun : ℕ → World ℕ
  | 0 => World.init counter
  | 1 => soloStep (World.init counter)
  | 2 => soloStep (soloStep (World.init counter))
  | _ => soloStep (soloStep (soloStep (World.init counter)))

omit [MembershipJson] in
theorem soloRun_isRun : @IsRun unaryJson ℕ counter [1] soloRun := by
  refine @IsRun.mk unaryJson ℕ counter [1] soloRun rfl ?_
  intro t
  match t with
  | 0 => exact .inr (@World.Step.start unaryJson ℕ counter [1] _ 1 soloConfig _ rfl rfl rfl rfl)
  | 1 => exact .inr (@World.Step.tick unaryJson ℕ counter [1] _ 1 _ _ rfl rfl)
  | 2 => exact .inr (@World.Step.tick unaryJson ℕ counter [1] _ 1 _ _ rfl rfl)
  | t + 3 => exact .inl rfl

omit [MembershipJson] in
/-- The run above commits an entry, and it has a ledger. -/
theorem stateMachine_safety_solo :
    ((soloRun 3).nodes 1).map (fun n => n.commit) = some 1
      ∧ ∃ ledger : ℕ → Entry, ∀ t i n, (soloRun t).nodes i = some n →
        (∀ k e, n.log[k]? = some e → n.snapshot.index + k + 1 ≤ n.commit →
          e = ledger (n.snapshot.index + k + 1))
        ∧ (0 < n.snapshot.index →
          n.snapshot.term = (ledger n.snapshot.index).term
            ∧ n.snapshot.membership
              = @confOf unaryJson [1] (ledgerPrefix ledger n.snapshot.index)
            ∧ n.snapshot.data = counter.image (ledgerPrefix ledger n.snapshot.index)) :=
  ⟨by decide, @stateMachine_safety unaryJson ℕ counter [1] soloRun soloRun_isRun⟩

/-! ### Election safety -/

/-- Node `v` supports `i` in term `t`: it sent `i` a vote, or has voted for it. -/
def Supports (s : World σ) (v i t : ℕ) : Prop :=
  (∃ m ∈ s.net, m.type = .voteResponse ∧ m.reject = false ∧ m.term = t ∧ m.fromID = v
      ∧ m.toID = i)
    ∨ ∃ n, s.nodes v = some n ∧ n.term = t ∧ n.votedFor = i ∧ i ≠ 0

private theorem Rel.vote_of_supports {s : World σ} {a : Sys ℕ Entry} (h : Rel M boot s a)
    {v i t : ℕ} (hs : Supports s v i t) : a.vote t v = some i := by
  rcases hs with ⟨m, hm, htype, hrej, rfl, rfl, rfl⟩ | ⟨n, hn, rfl, rfl, h0⟩
  · have hmean := h.net m hm
    unfold Meaning at hmean
    rw [htype] at hmean
    exact (hmean hrej).2
  · rw [(h.up v n hn).refines.vote, if_neg h0]

/-- **Election safety.**  In every run, over all of its moments: a term has at most one
    leader; a node's vote, once cast in a term, stays as long as the node is in that term,
    restarts included; and no two nodes are supported by quorums of the bootstrap voters in
    the same term. -/
theorem election_safety (M : Machine σ) (boot : List ℕ) (run : ℕ → World σ)
    (hrun : IsRun M boot run) :
    (∀ t t' i j n n', (run t).nodes i = some n → (run t').nodes j = some n' →
        n.role = .leader → n'.role = .leader → n.term = n'.term → i = j)
      ∧ (∀ t t' i n n', t ≤ t' → (run t).nodes i = some n → (run t').nodes i = some n' →
        n.term = n'.term → n.votedFor ≠ 0 → n'.votedFor = n.votedFor)
      ∧ (∀ t t' i j term (f g : ℕ → Bool), hasSetQuorum boot f = true →
        hasSetQuorum boot g = true → (∀ v, f v = true → Supports (run t) v i term) →
        (∀ v, g v = true → Supports (run t') v j term) → i = j) := by
  obtain ⟨hist, hrel, hext⟩ := hrun.simulation
  refine ⟨?_, ?_, ?_⟩
  · intro t t' i j n n' hn hn' hr hr' hterm
    have h1 := (((hrel t).up i n hn).refines.lead hr).1
    have h2 := (((hrel t').up j n' hn').refines.lead hr').1
    rw [← hterm] at h2
    -- compare at the later of the two moments
    have e1 := (hext t (max t t') (Nat.le_max_left _ _)).lead _ _ h1
    have e2 := (hext t' (max t t') (Nat.le_max_right _ _)).lead _ _ h2
    exact Option.some.inj (e1.symm.trans e2)
  · intro t t' i n n' hle hn hn' hterm h0
    have h1 := ((hrel t).up i n hn).refines.vote
    have h2 := ((hrel t').up i n' hn').refines.vote
    rw [if_neg h0] at h1
    rw [← hterm, (hext t t' hle).vote _ _ _ h1] at h2
    split at h2
    · simp at h2
    · exact (Option.some.inj h2).symm
  · intro t t' i j term f g hf hg hsf hsg
    obtain ⟨v, _, hfv, hgv⟩ := hasSetQuorum_inter hf hg
    have h1 := (hrel t).vote_of_supports (hsf v hfv)
    have h2 := (hrel t').vote_of_supports (hsg v hgv)
    have e1 := (hext t (max t t') (Nat.le_max_left _ _)).vote _ _ _ h1
    have e2 := (hext t' (max t t') (Nat.le_max_right _ _)).vote _ _ _ h2
    exact Option.some.inj (e1.symm.trans e2)

omit [MembershipJson] in
/-- In the run above the node is elected, and no other node can be. -/
theorem election_safety_solo :
    ((soloRun 3).nodes 1).map (fun n => (n.role, n.term, n.votedFor)) = some (.leader, 1, 1)
      ∧ (∀ t t' i j n n', (soloRun t).nodes i = some n → (soloRun t').nodes j = some n' →
        n.role = .leader → n'.role = .leader → n.term = n'.term → i = j)
      ∧ (∀ t t' i n n', t ≤ t' → (soloRun t).nodes i = some n → (soloRun t').nodes i = some n' →
        n.term = n'.term → n.votedFor ≠ 0 → n'.votedFor = n.votedFor)
      ∧ (∀ t t' i j term (f g : ℕ → Bool), hasSetQuorum [1] f = true →
        hasSetQuorum [1] g = true → (∀ v, f v = true → Supports (soloRun t) v i term) →
        (∀ v, g v = true → Supports (soloRun t') v j term) → i = j) :=
  ⟨by decide, @election_safety unaryJson ℕ counter [1] soloRun soloRun_isRun⟩

end Codec

end Lsmdb.Cluster

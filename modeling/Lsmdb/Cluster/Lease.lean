import Lsmdb.Cluster.Safety
import Lsmdb.Raft.FixedVoters
import Lsmdb.Raft.Lease
import Lsmdb.Raft.Maximal

namespace Lsmdb.Cluster

open Lsmdb.Raft Lsmdb.RaftStore Consensus

/-!
# Cluster — leadership is sticky under the vote lease

A cluster whose voter set is fixed.  As long as a quorum of the voters is in lease, its terms
are raised by appends and snapshots only (`Node.Hears.term`), and those come from nodes that a
majority has voted for (`World.Fixed`).  Such a majority meets the quorum in a node that had
already reached the term, so no term beyond those the quorum started with is ever led
(`leadership_sticky`).
-/

section Codec
variable [MembershipJson] {σ : Type} {M : Machine σ} {boot : List ℕ} {s s' : World σ}
  {a : Sys ℕ Entry} {i : ℕ} {n n' : Node}

/-! ### Runs with a fixed voter set -/

/-- The vote of `j` for `i` in term `t` has been sent. -/
def Granted (s : World σ) (t j i : ℕ) : Prop :=
  ∃ m ∈ s.net, m.type = .voteResponse ∧ m.reject = false ∧ m.term = t ∧ m.fromID = j ∧ m.toID = i

/-- **Nothing but the bootstrap voters**: no node or message knows another configuration,
    leaders are elected by a majority of them, and a node knows whom it follows. -/
structure World.Fixed (boot : List ℕ) (s : World σ) : Prop where
  core : ∀ i n, s.nodes i = some n → n.toCore.Fixed boot
  backed : ∀ i n, s.nodes i = some n → n.toCore.Backed boot (Granted s)
  knows : ∀ i n, s.nodes i = some n → n.Knows
  net : ∀ m ∈ s.net, m.Fixed boot
  elected : ∀ m ∈ s.net, m.type = .append ∨ m.type = .snapshot →
    Elected boot (Granted s) m.term m.fromID

omit [MembershipJson] in
theorem World.Fixed.init (M : Machine σ) (boot : List ℕ) : (World.init M).Fixed boot where
  core := by intro i n hn; simp [World.init] at hn
  backed := by intro i n hn; simp [World.init] at hn
  knows := by intro i n hn; simp [World.init] at hn
  net := by intro m hm; simp [World.init] at hm
  elected := by intro m hm; simp [World.init] at hm

omit [MembershipJson] in
/-- **Changing one node.**  It is enough to say what holds of it and of what it sent. -/
theorem World.Fixed.change (h : s.Fixed boot) (ms : List Message)
    (hnodes : s'.nodes = Function.update s.nodes i (some n')) (hnet : s'.net = s.net ++ ms)
    (hcore : n'.toCore.Fixed boot) (hbacked : n'.toCore.Backed boot (Granted s))
    (hknows : n'.Knows) (hms : ∀ m ∈ ms, m.Fixed boot)
    (helected : ∀ m ∈ ms, m.type = .append ∨ m.type = .snapshot →
      Elected boot (Granted s) m.term m.fromID) : s'.Fixed boot := by
  have grow : ∀ t j i, Granted s t j i → Granted s' t j i := by
    rintro t j i ⟨m, hm, hrest⟩
    exact ⟨m, by rw [hnet]; exact List.mem_append_left _ hm, hrest⟩
  have split : ∀ j k, s'.nodes j = some k → (j = i ∧ k = n') ∨ s.nodes j = some k := by
    intro j k hk
    rw [hnodes] at hk
    by_cases hj : j = i
    · subst hj
      rw [Function.update_self] at hk
      exact .inl ⟨rfl, (Option.some.inj hk).symm⟩
    · rw [Function.update_of_ne hj] at hk
      exact .inr hk
  refine ⟨?_, ?_, ?_, ?_, ?_⟩
  · intro j k hk
    rcases split j k hk with ⟨_, rfl⟩ | hold
    · exact hcore
    · exact h.core j k hold
  · intro j k hk
    rcases split j k hk with ⟨_, rfl⟩ | hold
    · exact hbacked.mono grow
    · exact (h.backed j k hold).mono grow
  · intro j k hk
    rcases split j k hk with ⟨_, rfl⟩ | hold
    · exact hknows
    · exact h.knows j k hold
  · intro m hm
    rw [hnet] at hm
    rcases List.mem_append.mp hm with hm | hm
    · exact h.net m hm
    · exact hms m hm
  · intro m hm htype
    rw [hnet] at hm
    rcases List.mem_append.mp hm with hm | hm
    · exact (h.elected m hm htype).mono grow
    · exact (helected m hm htype).mono grow

/-- **An operation that requests no change** keeps the voter set fixed. -/
theorem World.Fixed.operate {inp : Input} {op : Op} {u : Update} (h : s.Fixed boot)
    (hrel : Rel M boot s a) (hn : s.nodes i = some n) (hin : inp.Fixed boot)
    (hmsg : ∀ r, inp = .message r → r ∈ s.net) (hpath : Path inp n.toCore u n'.toCore)
    (hear : n.Hears op n') (hnodes : s'.nodes = Function.update s.nodes i (some n'))
    (hnet : s'.net = s.net ++ u.messages) : s'.Fixed boot := by
  have hup := hrel.up i n hn
  have hfold := hup.refines.wf.toFolded
  have hcore := h.core i n hn
  -- a vote the node is handed was addressed to it
  have hrec : inp.Recorded (Granted s) n.cfg.id := by
    intro m hinp htype hrej hto
    have hm := hmsg m hinp
    have hmean := hrel.net m hm
    unfold Meaning at hmean
    rw [htype] at hmean
    exact ⟨m, hm, htype, hrej, rfl, rfl, hto.resolve_left (hmean hrej).1⟩
  obtain ⟨hcore', hms⟩ := hpath.fixed hin hfold hcore
  obtain ⟨hbacked', hel⟩ := hpath.backed hin hrec hfold hcore (h.backed i n hn)
  refine h.change _ hnodes hnet hcore' hbacked' ?_ hms hel
  refine hear.knows (h.knows i n hn) hpath.cfg_eq ?_ ?_
  · rw [hcore'.voters, hcore.voters]
  · rw [hcore.voters]
    exact Nat.zero_le _

/-- A node that `New` built from plain entries and a snapshot of the bootstrap voters. -/
private theorem new_fixed {cfg : Config} {hard : HardState} {entries : List Entry}
    {restored : Option Snapshot} (granted : ℕ → ℕ → ℕ → Prop)
    (hpeers : normalizeVoters cfg.peers = .ok boot)
    (hnew : Node.new cfg hard entries restored = .ok n)
    (hsnap : 0 < (restored.getD {}).index → (restored.getD {}).membership = { voters := boot })
    (hplain : ∀ e ∈ entries, hasMembershipPrefix e.data = false) :
    n.toCore.Fixed boot ∧ n.toCore.Backed boot granted ∧ n.Knows := by
  obtain ⟨p, m, hr, hcore⟩ := Node.new_spec hnew
  obtain rfl : p = boot := by
    have := hr.peers
    rw [hpeers] at this
    exact (Except.ok.inj this).symm
  have hm : m = { voters := p } := by
    have hf := hr.folded
    rw [foldMembership_plain _ hplain] at hf
    rw [← Except.ok.inj hf]
    split
    · rename_i hpos
      exact hsnap hpos.1
    · rfl
  rw [hcore]
  refine ⟨⟨hm, rfl, hsnap, hplain⟩, .of_idle (by simp [restoredCore]) (by simp [restoredCore]), ?_⟩
  intro hl
  exact absurd (Node.new_leaderID hnew) hl

/-- In a cluster whose voters are fixed, a requested change is none. -/
private theorem proposeMembership_none (voters : List ℕ) (hf : n.Folded)
    (hv : n.membership.voters = boot)
    (hv' : (n.proposeMembership voters).1.membership.voters = boot
      ∧ (n.proposeMembership voters).1.membership.jointVoters = []) :
    (n.proposeMembership voters).1 = n
      ∧ updateOf Prod.snd (n.proposeMembership voters).2 = {} := by
  rcases Node.proposeMembership_cases hf voters with
    ⟨_, heq⟩ | ⟨heq, _⟩ | ⟨new, entry, n1, u, _, _, _, hnew, hne, hf1, hcore, heq⟩
  · rw [heq]
    exact ⟨rfl, rfl⟩
  · rw [heq]
    exact ⟨rfl, rfl⟩
  · exfalso
    have hb : (n1.broadcastAppend .other).1.toCore = n1.toCore := Node.broadcastLoop_core _ _ n1
    rw [heq] at hv'
    rcases Node.maybeCommit_membership (n := (n1.broadcastAppend .other).1)
        (by rw [hb]; exact hf1) with hm | ⟨k, hm⟩
    · rw [hm, hb, hcore] at hv'
      exact (normalizeVoters_normal hnew).nonempty hv'.2
    · rw [hm, hb, hcore] at hv'
      exact hne (hv'.1.trans hv.symm)

/-! ### What a step of the cluster does to each node -/

/-- Every running node that is still running has had one of the outcomes of `Node.Hears`, and
    heard only what was sent. -/
def World.Hears (s s' : World σ) : Prop :=
  ∀ v n n', s.nodes v = some n → s'.nodes v = some n' →
    ∃ op, n.Hears op n' ∧ ∀ m, op = .step m → m ∈ s.net

theorem World.Hears.change (op : Op) (hn : ∀ n, s.nodes i = some n → n.Hears op n')
    (hop : ∀ m, op = .step m → m ∈ s.net)
    (hnodes : s'.nodes = Function.update s.nodes i (some n')) : s.Hears s' := by
  intro v k k' hk hk'
  rw [hnodes] at hk'
  by_cases hv : v = i
  · subst hv
    rw [Function.update_self] at hk'
    obtain rfl := Option.some.inj hk'
    exact ⟨op, hn k hk, hop⟩
  · rw [Function.update_of_ne hv, hk] at hk'
    obtain rfl := Option.some.inj hk'
    exact ⟨.tick, .keeps ⟨rfl, rfl, rfl⟩, fun m hm => by cases hm⟩

/-- **A step of a cluster with a fixed voter set.** -/
theorem World.Step.fixed (hrel : Rel M boot s a) (h : s.Fixed boot)
    (hs : World.Step M boot s s')
    (hv : ∀ i n, s'.nodes i = some n → n.membership.voters = boot
      ∧ n.membership.jointVoters = []) : s'.Fixed boot ∧ s.Hears s' := by
  have noStep : ∀ {op : Op}, (∀ m, op ≠ .step m) → ∀ m, op = .step m → m ∈ s.net :=
    fun hne m hm => absurd hm (hne m)
  -- an operation of one node, with the input its path is about
  have act : ∀ {i : ℕ} {n n' : Node} (inp : Input) (op : Op) {u : Update}, s.nodes i = some n →
      inp.Fixed boot → (∀ r, inp = .message r → r ∈ s.net) → Path inp n.toCore u n'.toCore →
      n.Hears op n' → (∀ m, op = .step m → m ∈ s.net) →
      s'.nodes = Function.update s.nodes i (some n') → s'.net = s.net ++ u.messages →
      s'.Fixed boot ∧ s.Hears s' := by
    intro i n n' inp op u hn hin hmsg hpath hear hop hnodes hnet
    refine ⟨h.operate hrel hn hin hmsg hpath hear hnodes hnet,
      World.Hears.change op (fun k hk => ?_) hop hnodes⟩
    rw [hn] at hk
    obtain rfl := Option.some.inj hk
    exact hear
  -- a call that changes nothing
  have idle : ∀ {i : ℕ} {n : Node}, s.nodes i = some n →
      s'.nodes = Function.update s.nodes i (some n) → s'.net = s.net →
      s'.Fixed boot ∧ s.Hears s' := by
    intro i n hn hnodes hnet
    exact act .tick .tick hn trivial (fun _ hc => by cases hc) (.nil _)
      (.keeps ⟨rfl, rfl, rfl⟩) (noStep (fun _ hc => by cases hc)) hnodes
      (by rw [hnet]; simp)
  cases hs with
  | start i cfg n hdown hid hpeers hnew =>
    obtain ⟨hc, hb, hk⟩ := new_fixed (Granted s) hpeers hnew
      (fun h0 => absurd h0 (by simp)) (by simp)
    refine ⟨h.change [] rfl (by simp) hc hb hk (by simp) (by simp),
      World.Hears.change .tick (fun k hk => ?_) (noStep (fun _ hc => by cases hc)) rfl⟩
    rw [hdown] at hk
    cases hk
  | restart i cfg old n hup hid hpeers happlied hnew =>
    have ho := hrel.up i old hup
    rw [ho.loadSnapshot, ho.mirrors.entries] at hnew
    have hold := h.core i old hup
    obtain ⟨hc, hb, hk⟩ := new_fixed (Granted s) hpeers hnew hold.snap hold.plain
    refine ⟨h.change [] rfl (by simp) hc hb hk (by simp) (by simp),
      World.Hears.change .tick (fun k _ => .forgets ⟨?_, Node.new_leaderID hnew⟩)
        (noStep (fun _ hc => by cases hc)) rfl⟩
    obtain ⟨p, m, _, hcore⟩ := Node.new_spec hnew
    rw [hcore]
    simp [restoredCore]
  | tick i n d hup hd =>
    exact act .tick .tick hup trivial (fun _ hc => by cases hc)
      (Node.tick_follows .tick (hrel.up i n hup).ok).path (Node.tickWith_hears _ n)
      (noStep (fun _ hc => by cases hc)) rfl rfl
  | deliver i n d m hup hm hd =>
    exact act (.message m) (.step m) hup (h.net m hm)
      (fun r hr => by rw [← Input.message.inj hr]; exact hm)
      (Node.step_follows (hrel.up i n hup).ok m).path (Node.stepWith_hears _ n m)
      (fun r hr => by rw [← Op.step.inj hr]; exact hm) rfl rfl
  | propose i n n' d data indexes u hup hplain hop hd =>
    have hear := Node.proposeBatch_hears (.proposeBatch data) n data
    rcases Node.proposeBatch_follows (hrel.up i n hup).ok data with
      ⟨e, he⟩ | ⟨n1, ix, u1, he, hf⟩
    · rw [he] at hop; simp at hop
    rw [hop] at hear
    rw [he] at hop
    simp only [Prod.mk.injEq, Except.ok.injEq] at hop
    obtain ⟨rfl, _, rfl⟩ := hop
    exact act (.commands data) (.proposeBatch data) hup hplain (fun _ hc => by cases hc)
      hf.toFollows.path hear (noStep (fun _ hc => by cases hc)) rfl rfl
  | reconfigure i n n' d voters index u hup hop hd =>
    have hv' := hv i n' (by simp [World.put])
    have hfold := (hrel.up i n hup).refines.wf.toFolded
    have hnone := proposeMembership_none voters hfold
      (show n.membership.voters = boot by rw [(h.core i n hup).voters]) (by rw [hop]; exact hv')
    rw [hop] at hnone
    obtain ⟨rfl, hu⟩ : n' = n ∧ u = {} := hnone
    subst hu
    exact idle hup rfl (by simp [World.put])
  | compact i n n' d k u hup hop hd =>
    have hear := Node.operate_hears (· + 1) n (.createSnapshot k (M.save (s.hist i k)))
    rcases Node.createSnapshot_follows (hrel.up i n hup).ok k (M.save (s.hist i k)) with
      ⟨n1, e, he, _⟩ | ⟨n1, u1, he, hf⟩
    · rw [he] at hop; simp at hop
    simp only [Node.operate, hop] at hear
    rw [he] at hop
    simp only [Prod.mk.injEq, Except.ok.injEq] at hop
    obtain ⟨rfl, rfl⟩ := hop
    exact act (.snapshot k _) _ hup trivial (fun _ hc => by cases hc) hf.path hear
      (noStep (fun _ hc => by cases hc)) rfl rfl
  | probe i n n' d context u hup hop hd =>
    have hear := n.readProbe_keeps context
    rcases Node.readProbe_follows (hrel.up i n hup).ok context with
      ⟨e, he⟩ | ⟨n1, u1, he, hf, _⟩
    · rw [he] at hop; simp at hop
    rw [hop] at hear
    rw [he] at hop
    simp only [Prod.mk.injEq, Except.ok.injEq] at hop
    obtain ⟨rfl, rfl⟩ := hop
    exact act (.probe context) .tick hup trivial (fun _ hc => by cases hc) hf.toFollows.path
      (.keeps hear) (noStep (fun _ hc => by cases hc)) rfl rfl
  | refused i n n' hup hop =>
    have hu := hrel.up i n hup
    rcases hop with ⟨data, e, hop⟩ | ⟨voters, e, hop⟩ | ⟨k, e, hop⟩
    · rcases Node.proposeBatch_follows hu.ok data with ⟨e', he⟩ | ⟨n1, ix, u1, he, _⟩
      · rw [he] at hop
        obtain rfl : n = n' := (Prod.mk.inj hop).1
        exact idle hup rfl rfl
      · rw [he] at hop; simp at hop
    · obtain ⟨rfl, _⟩ := Node.proposeMembership_error hu.refines.wf.toFolded hop
      exact idle hup rfl rfl
    · have hear := Node.operate_hears (· + 1) n (.createSnapshot k (M.save (s.hist i k)))
      rcases Node.createSnapshot_follows hu.ok k (M.save (s.hist i k)) with
        ⟨n1, e', he, hf⟩ | ⟨n1, u1, he, _⟩
      · simp only [Node.operate, hop] at hear
        rw [he] at hop
        obtain rfl : n1 = n' := (Prod.mk.inj hop).1
        exact act (.snapshot k _) _ hup trivial (fun _ hc => by cases hc) hf.path hear
          (noStep (fun _ hc => by cases hc)) rfl (by simp)
      · rw [he] at hop; simp at hop

/-! ### Sticky leadership -/

/-- **An election meets every quorum** in a node that has reached its term. -/
theorem Rel.elected_meets {t : ℕ} {q : ℕ → Bool} (h : Rel M boot s a)
    (he : Elected boot (Granted s) t i) (hlead : a.lead t = some i)
    (hq : hasSetQuorum boot q = true) :
    ∃ v ∈ boot, q v = true ∧ ∀ n, s.nodes v = some n → t ≤ n.term := by
  obtain ⟨f, hf, hvotes⟩ := he
  obtain ⟨v, hv, hfv, hqv⟩ := hasSetQuorum_inter hf hq
  refine ⟨v, hv, hqv, fun n hn => ?_⟩
  rw [← (h.up v n hn).refines.term]
  rcases hvotes v hfv with rfl | ⟨m, hm, htype, hrej, rfl, rfl, _⟩
  · exact (h.inv.cand_term _ _ _ (h.inv.lead_cand _ _ hlead)).1
  · have hmean := h.net m hm
    unfold Meaning at hmean
    rw [htype] at hmean
    exact h.inv.vote_term _ _ _ (hmean hrej).2

/-- Along a run with a fixed voter set nothing but the bootstrap voters is known. -/
theorem IsRun.fixed {run : ℕ → World σ} {f : ℕ → Sys ℕ Entry} {stop : ℕ} (h : IsRun M boot run)
    (hrel : ∀ t, Rel M boot (run t) (f t))
    (hfixed : ∀ t, t ≤ stop → ∀ i n, (run t).nodes i = some n →
      n.membership.voters = boot ∧ n.membership.jointVoters = []) :
    ∀ t, t ≤ stop → (run t).Fixed boot := by
  intro t
  induction t with
  | zero =>
    intro _
    rw [h.zero]
    exact .init M boot
  | succ t ih =>
    intro hle
    rcases h.succ t with heq | hs
    · rw [heq]
      exact ih (by omega)
    · exact (hs.fixed (hrel t) (ih (by omega)) (hfixed (t + 1) hle)).1

/-- **Leadership is sticky under the vote lease.**  In every run of a cluster with a fixed voter
    set and every segment of it during which all nodes of some quorum of the voters are in lease,
    no node leads in a term beyond all those the quorum held when the segment began. -/
theorem leadership_sticky (M : Machine σ) (boot : List ℕ) (run : ℕ → World σ)
    (hrun : IsRun M boot run) (start stop : ℕ)
    (hfixed : ∀ t, t ≤ stop → ∀ i n, (run t).nodes i = some n →
      n.membership.voters = boot ∧ n.membership.jointVoters = [])
    (q : ℕ → Bool) (hq : hasSetQuorum boot q = true)
    (hlease : ∀ t, start ≤ t → t ≤ stop → ∀ v ∈ boot, q v = true →
      ∃ n, (run t).nodes v = some n ∧ n.inLease = true)
    (term : ℕ)
    (hterm : ∀ v ∈ boot, q v = true → ∀ n, (run start).nodes v = some n → n.term < term) :
    ∀ t, start ≤ t → t ≤ stop → ∀ i n, (run t).nodes i = some n → n.role = .leader →
      n.term < term := by
  obtain ⟨f, hrel, _⟩ := hrun.simulation
  have hfix := hrun.fixed hrel hfixed
  -- the quorum never leaves the terms below `term`
  have hbelow : ∀ t, start ≤ t → t ≤ stop →
      ∀ v ∈ boot, q v = true → ∀ n, (run t).nodes v = some n → n.term < term := by
    intro t hlo
    induction t, hlo using Nat.le_induction with
    | base => exact fun _ => hterm
    | succ t hlo ih =>
      intro hhi v hv hqv n' hn'
      have hbelow := ih (by omega)
      obtain ⟨n, hn, hin⟩ := hlease t hlo (by omega) v hv hqv
      obtain ⟨k, hk, hin'⟩ := hlease (t + 1) (by omega) hhi v hv hqv
      obtain rfl := Option.some.inj (hk.symm.trans hn')
      rcases hrun.succ t with heq | hs
      · rw [heq] at hn'
        exact hbelow v hv hqv _ hn'
      have hf := hfix t (by omega)
      obtain ⟨op, hear, hsent⟩ :=
        (hs.fixed (hrel t) hf (hfixed (t + 1) hhi)).2 v n k hn hn'
      have hnormal := ((hrel t).up v n hn).refines.wf.membership_normal
      rcases hear.term (hf.knows v n hn) hnormal hin hin' with hsame | ⟨m, hm, htype, ht⟩
      · rw [hsame]
        exact hbelow v hv hqv n hn
      -- the leader behind the message was elected, so the quorum knows its term
      have hmem := hsent m hm
      have hlead : (f t).lead m.term = some m.fromID := by
        have hmean := (hrel t).net m hmem
        unfold Meaning at hmean
        rcases htype with htype | htype
        · rw [htype] at hmean
          exact hmean.1
        · rw [htype] at hmean
          exact hmean.1
      obtain ⟨w, hw, hqw, hreach⟩ :=
        (hrel t).elected_meets (hf.elected m hmem htype) hlead hq
      obtain ⟨nw, hnw, _⟩ := hlease t hlo (by omega) w hw hqw
      have h1 := hreach nw hnw
      have h2 := hbelow w hw hqw nw hnw
      omega
  intro t hlo hhi i n hn hr
  have hlead := (((hrel t).up i n hn).refines.lead hr).1
  have helected : Elected boot (Granted (run t)) n.term i := by
    have := ((hfix t hhi).backed i n hn).lead hr
    rwa [((hrel t).up i n hn).refines.id] at this
  obtain ⟨w, hw, hqw, hreach⟩ := (hrel t).elected_meets helected hlead hq
  obtain ⟨nw, hnw, _⟩ := hlease t hlo hhi w hw hqw
  exact lt_of_le_of_lt (hreach nw hnw) (hbelow t hlo hhi w hw hqw nw hnw)

omit [MembershipJson] in
/-- The states of the one-node run hold no node but the first, and its voters are fixed. -/
private theorem soloRun_nodes (t i : ℕ) (n : Node) (hn : (soloRun t).nodes i = some n) :
    i = 1 ∧ n.membership.voters = [1] ∧ n.membership.jointVoters = [] := by
  have hi : i = 1 := by
    by_contra hne
    have hnone : (soloRun t).nodes i = none := by
      match t with
      | 0 => rfl
      | 1 => exact Function.update_of_ne hne _ _
      | 2 => exact (Function.update_of_ne hne _ _).trans (Function.update_of_ne hne _ _)
      | t + 3 =>
        exact (Function.update_of_ne hne _ _).trans
          ((Function.update_of_ne hne _ _).trans (Function.update_of_ne hne _ _))
    rw [hnone] at hn
    cases hn
  subst hi
  match t with
  | 0 => cases hn
  | 1 => cases hn; exact ⟨rfl, rfl, rfl⟩
  | 2 => cases hn; exact ⟨rfl, rfl, rfl⟩
  | t + 3 => cases hn; exact ⟨rfl, rfl, rfl⟩

omit [MembershipJson] in
/-- Once elected in term 1, the only node never leads in term 2. -/
theorem leadership_sticky_solo :
    ((soloRun 3).nodes 1).map (fun n => (n.role, n.term)) = some (.leader, 1)
      ∧ ∀ t, 3 ≤ t → t ≤ 9 → ∀ i n, (soloRun t).nodes i = some n → n.role = .leader →
        n.term < 2 := by
  refine ⟨by decide, @leadership_sticky unaryJson ℕ counter [1] soloRun soloRun_isRun 3 9
    (fun t _ i n hn => (soloRun_nodes t i n hn).2) (fun _ => true) (by decide) ?_ 2 ?_⟩
  · intro t hlo _ v hv _
    obtain rfl := List.mem_singleton.mp hv
    obtain ⟨k, rfl⟩ := Nat.exists_eq_add_of_le hlo
    rw [Nat.add_comm]
    exact ⟨_, rfl, rfl⟩
  · intro v hv _ n hn
    obtain rfl := List.mem_singleton.mp hv
    cases hn
    decide

end Codec

end Lsmdb.Cluster

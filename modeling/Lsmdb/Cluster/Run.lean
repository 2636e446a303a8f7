import Lsmdb.Cluster.Delivery

namespace Lsmdb.Cluster

open Lsmdb.Raft Lsmdb.RaftStore Consensus

/-!
# Cluster — runs of nodes over a lossy network

Any number of nodes with the same bootstrap voters.  The network remembers every message
ever sent; delivering one does not remove it and nothing forces a delivery, so loss,
duplication, delay and reordering are all runs.

An operation of a node and the persisting of its update are one step: the runtime sends and
applies only after `Persist` returned, so an operation whose update did not reach the disk
before a crash has had no effect outside the node, and the run continues from the state
before it.  A restart rebuilds the node through `New` from what is on its disk.
-/

section Codec
variable [MembershipJson] {σ : Type}

/-- The state of a cluster.  `hist i k` is the state of node `i`'s machine at index `k`. -/
structure World (σ : Type) where
  nodes : ℕ → Option Node
  disk : ℕ → Stable
  net : List Message
  hist : ℕ → ℕ → σ

/-- Nothing has been started. -/
def World.init (M : Machine σ) : World σ where
  nodes _ := none
  disk _ := {}
  net := []
  hist _ _ := M.init

/-- Node `i` becomes `n` with effects `u`, which its disk takes in as `d`. -/
def World.put (M : Machine σ) (s : World σ) (i : ℕ) (n : Node) (d : Stable) (u : Update) :
    World σ where
  nodes := Function.update s.nodes i (some n)
  disk := Function.update s.disk i d
  net := s.net ++ u.messages
  hist := Function.update s.hist i (M.record (s.hist i) u)

/-- **The steps of a cluster.** -/
inductive World.Step (M : Machine σ) (boot : List ℕ) : World σ → World σ → Prop
  | start (s : World σ) (i : ℕ) (cfg : Config) (n : Node) (hdown : s.nodes i = none)
      (hid : cfg.id = i) (hpeers : normalizeVoters cfg.peers = .ok boot)
      (hnew : Node.new cfg {} [] none = .ok n) :
      Step M boot s { s with nodes := Function.update s.nodes i (some n) }
  | restart (s : World σ) (i : ℕ) (cfg : Config) (old n : Node) (hup : s.nodes i = some old)
      (hid : cfg.id = i) (hpeers : normalizeVoters cfg.peers = .ok boot)
      (happlied : cfg.appliedIndex ≤ old.commit)
      (hnew : Node.new cfg (s.disk i).hard (s.disk i).entries (some (s.disk i).loadSnapshot)
        = .ok n) :
      Step M boot s { s with nodes := Function.update s.nodes i (some n) }
  | tick (s : World σ) (i : ℕ) (n : Node) (d : Stable) (hup : s.nodes i = some n)
      (hd : (s.disk i).persist n.tick.2 none = (d, none)) :
      Step M boot s (s.put M i n.tick.1 d n.tick.2)
  | deliver (s : World σ) (i : ℕ) (n : Node) (d : Stable) (m : Message)
      (hup : s.nodes i = some n) (hm : m ∈ s.net)
      (hd : (s.disk i).persist (n.step m).2 none = (d, none)) :
      Step M boot s (s.put M i (n.step m).1 d (n.step m).2)
  | propose (s : World σ) (i : ℕ) (n n' : Node) (d : Stable) (data : List Bytes)
      (indexes : List ℕ) (u : Update) (hup : s.nodes i = some n)
      (hplain : ∀ x ∈ data, hasMembershipPrefix x = false)
      (hop : n.proposeBatch data = (n', .ok (indexes, u)))
      (hd : (s.disk i).persist u none = (d, none)) :
      Step M boot s (s.put M i n' d u)
  | reconfigure (s : World σ) (i : ℕ) (n n' : Node) (d : Stable) (voters : List ℕ)
      (index : ℕ) (u : Update) (hup : s.nodes i = some n)
      (hop : n.proposeMembership voters = (n', .ok (index, u)))
      (hd : (s.disk i).persist u none = (d, none)) :
      Step M boot s (s.put M i n' d u)
  | compact (s : World σ) (i : ℕ) (n n' : Node) (d : Stable) (k : ℕ) (u : Update)
      (hup : s.nodes i = some n)
      (hop : n.createSnapshot k (M.save (s.hist i k)) = (n', .ok u))
      (hd : (s.disk i).persist u none = (d, none)) :
      Step M boot s (s.put M i n' d u)
  | probe (s : World σ) (i : ℕ) (n n' : Node) (d : Stable) (context : ℕ) (u : Update)
      (hup : s.nodes i = some n) (hop : n.readProbe context = (n', .ok u))
      (hd : (s.disk i).persist u none = (d, none)) :
      Step M boot s (s.put M i n' d u)
  /-- A call that returns an error; it leaves behind whatever node it left. -/
  | refused (s : World σ) (i : ℕ) (n n' : Node) (hup : s.nodes i = some n)
      (hop : (∃ data e, n.proposeBatch data = (n', .error e))
        ∨ (∃ voters e, n.proposeMembership voters = (n', .error e))
        ∨ ∃ k e, n.createSnapshot k (M.save (s.hist i k)) = (n', .error e)) :
      Step M boot s { s with nodes := Function.update s.nodes i (some n') }

/-- A run: every state follows from the one before by a step, or nothing happens. -/
structure IsRun (M : Machine σ) (boot : List ℕ) (run : ℕ → World σ) : Prop where
  zero : run 0 = World.init M
  succ : ∀ t, run (t + 1) = run t ∨ World.Step M boot (run t) (run (t + 1))

/-! ### The invariant -/

/-- What holds of a running node. -/
structure Up (M : Machine σ) (boot : List ℕ) (s : World σ) (a : Sys ℕ Entry) (i : ℕ)
    (n : Node) : Prop where
  refines : Refines boot M.image i n.toCore a
  ok : n.Ok
  mirrors : Mirrors (s.disk i) n.toCore
  data : (s.disk i).data = n.snapshot.data
  hist : ∀ k, n.snapshot.index ≤ k → k ≤ n.commit → s.hist i k = M.state ((a.log i).take k)

/-- What holds of a node that was never started. -/
structure Down (s : World σ) (M : Machine σ) (a : Sys ℕ Entry) (i : ℕ) : Prop where
  disk : s.disk i = {}
  hist : s.hist i 0 = M.init
  term : a.term i = 0
  log : a.log i = []
  commit : a.commit i = 0
  vote : ∀ t, a.vote t i = none

/-- **The cluster is simulated by the abstract protocol.** -/
structure Rel (M : Machine σ) (boot : List ℕ) (s : World σ) (a : Sys ℕ Entry) : Prop where
  inv : Inv (scheme boot) a
  indexed : Indexed a
  up : ∀ i n, s.nodes i = some n → Up M boot s a i n
  down : ∀ i, s.nodes i = none → Down s M a i
  net : ∀ m ∈ s.net, Meaning boot M.image a m

variable {M : Machine σ} {boot : List ℕ} {s : World σ} {a a' : Sys ℕ Entry} {i : ℕ}

theorem Rel.init (M : Machine σ) (boot : List ℕ) :
    Rel M boot (World.init M) (Sys.init : Sys ℕ Entry) where
  inv := Inv.init _
  indexed := by intro t k e he; simp [Sys.init] at he
  up := by intro i n hn; simp [World.init] at hn
  down := fun i _ => ⟨rfl, rfl, rfl, rfl, rfl, fun _ => rfl⟩
  net := by intro m hm; simp [World.init] at hm

/-! ### Nodes that do not act -/

/-- Steps of node `i` do not disturb another node. -/
theorem Refines.frame {j : ℕ} {c : Core} {image : List Entry → Bytes} (hf : Frame i a a')
    (hx : Ext a a') (hj : j ≠ i) (h : Refines boot image j c a) : Refines boot image j c a' where
  wf := h.wf
  id := h.id
  id_ne := h.id_ne
  peers := h.peers
  term := (hf.term j hj).trans h.term
  log := by rw [hf.log j hj]; exact h.log
  commit := (hf.commit j hj).trans h.commit
  vote := (hf.vote c.term j hj).trans h.vote
  cand := by
    intro hr
    obtain ⟨h1, h2, h3⟩ := h.cand hr
    refine ⟨by rw [hf.cand c.term j hj, hf.log j hj]; exact h1, ?_, fun k hk => hx.vote _ _ _ (h3 k hk)⟩
    exact fun hl => h2 (hf.lead c.term j hj hl)
  lead := by
    intro hr
    obtain ⟨h1, h2⟩ := h.lead hr
    exact ⟨hx.lead _ _ h1, fun k => (h2 k).trans (hx.ack _ _)⟩

theorem Up.frame {j : ℕ} {n : Node} {s' : World σ} (hf : Frame i a a') (hx : Ext a a')
    (hj : j ≠ i) (hd : s'.disk j = s.disk j) (hh : s'.hist j = s.hist j)
    (h : Up M boot s a j n) : Up M boot s' a' j n where
  refines := h.refines.frame hf hx hj
  ok := h.ok
  mirrors := by rw [hd]; exact h.mirrors
  data := by rw [hd]; exact h.data
  hist := by rw [hh, hf.log j hj]; exact h.hist

omit [MembershipJson] in
theorem Down.frame {j : ℕ} {s' : World σ} (hf : Frame i a a') (hj : j ≠ i)
    (hd : s'.disk j = s.disk j) (hh : s'.hist j = s.hist j) (h : Down s M a j) :
    Down s' M a' j where
  disk := by rw [hd]; exact h.disk
  hist := by rw [hh]; exact h.hist
  term := (hf.term j hj).trans h.term
  log := (hf.log j hj).trans h.log
  commit := (hf.commit j hj).trans h.commit
  vote t := (hf.vote t j hj).trans (h.vote t)

/-- **Changing one node.**  It is enough to say what holds of that node afterwards. -/
theorem Rel.change {n : Node} {s' : World σ} (h : Rel M boot s a) (hs : Steps (scheme boot) i a a')
    (hidx : Indexed a') (hn : s'.nodes = Function.update s.nodes i (some n))
    (hd : ∀ j, j ≠ i → s'.disk j = s.disk j) (hh : ∀ j, j ≠ i → s'.hist j = s.hist j)
    (hup : Up M boot s' a' i n)
    (hnet : ∀ m ∈ s'.net, m ∈ s.net ∨ Meaning boot M.image a' m) :
    Rel M boot s' a' ∧ Ext a a' := by
  obtain ⟨hinv, hx, hf⟩ := hs.sound h.inv
  refine ⟨⟨hinv, hidx, ?_, ?_, ?_⟩, hx⟩
  · intro j n' hj
    by_cases hji : j = i
    · subst hji
      rw [hn, Function.update_self] at hj
      rw [← Option.some.inj hj]
      exact hup
    · rw [hn, Function.update_of_ne hji] at hj
      exact (h.up j n' hj).frame hf hx hji (hd j hji) (hh j hji)
  · intro j hj
    by_cases hji : j = i
    · subst hji
      rw [hn, Function.update_self] at hj
      simp at hj
    · rw [hn, Function.update_of_ne hji] at hj
      exact (h.down j hj).frame hf hji (hd j hji) (hh j hji)
  · intro m hm
    rcases hnet m hm with hold | hnew
    · exact (h.net m hold).mono hx
    · exact hnew

/-! ### Operations -/

/-- **An operation of a running node keeps the relation.** -/
theorem Rel.operate (inp : Input) {n n' : Node} {d : Stable} {u : Update} (h : Rel M boot s a)
    (hn : s.nodes i = some n) (hp : inp.Plain) (hfol : Node.Follows inp n (n', u))
    (hin : ∀ r, inp = .message r → r ∈ s.net) (hf : Faithful M.image i a inp)
    (hd : (s.disk i).persist u none = (d, none)) :
    ∃ a', Rel M boot (s.put M i n' d u) a' ∧ Ext a a' := by
  have hup := h.up i n hn
  obtain ⟨a', hs, href, hidx, hmean, hdel⟩ := Path.simulates hp h.inv h.indexed hup.refines
    (fun r hr => h.net r (hin r hr)) hf hfol.path
  obtain ⟨hinv', hx, _⟩ := hs.sound h.inv
  have hsi : (s.disk i).snapshot.index = n.snapshot.index := by rw [hup.mirrors.snapshot]
  have hnew : ∀ snap, u.snapshot = some snap → (s.disk i).snapshot.index < snap.index :=
    fun snap hsnap => by rw [hsi]; exact (hdel.boundary snap hsnap).1
  obtain ⟨d', hd', hmir⟩ := RaftStore.Path.persists hp hup.refines.wf hup.mirrors hfol.path
    (Stable.persist_fits hd hnew)
  obtain rfl : d' = d := by rw [hd] at hd'; exact (Prod.mk.inj hd').1.symm
  refine ⟨a', h.change hs hidx (n := n') rfl (fun j hj => Function.update_of_ne hj _ _)
    (fun j hj => Function.update_of_ne hj _ _) ?_ ?_⟩
  · refine ⟨href, hfol.ok, ?_, ?_, ?_⟩
    · simpa [World.put] using hmir
    · -- a new snapshot's data is stored, otherwise both stay
      have hdata := Stable.persist_data hd hnew
      simp only [World.put, Function.update_self]
      rw [hdata]
      cases hsnap : u.snapshot with
      | none =>
        rw [hdel.same hsnap]
        exact hup.data
      | some snap =>
        rw [← (hdel.boundary snap hsnap).2.2]
        rfl
    · intro k hlo hhi
      simp only [World.put, Function.update_self]
      refine M.record_spec hdel ?_ ?_ k hlo hhi
      · intro j hjlo hjhi
        rw [hup.hist j hjlo hjhi, committed_stable h.inv hinv' hx
          (by rw [hup.refines.commit]; exact hjhi)
          (by rw [href.commit]; exact hjhi.trans hdel.commit)]
      · intro snap hsnap
        obtain ⟨h0, hle, heq⟩ := hdel.boundary snap hsnap
        obtain ⟨pre, hlog, hsum⟩ := href.log
        rw [← heq] at hsum
        rw [hsum.data (by omega), hlog, List.take_left' hsum.index]
  · intro m hm
    rcases List.mem_append.mp hm with hm | hm
    · exact .inl hm
    · exact .inr (hmean m hm)

/-- A snapshot request outside the committed part above the snapshot changes nothing. -/
theorem createSnapshot_idle (n : Node) {k : ℕ} (data : Bytes)
    (hk : k ≤ n.snapshot.index ∨ n.commit < k) :
    (n.createSnapshot k data).1 = n
      ∧ ∀ u, (n.createSnapshot k data).2 = .ok u → u = {} := by
  unfold Node.createSnapshot
  split
  · exact ⟨rfl, fun u hu => by simp at hu⟩
  unfold Node.compact
  split
  · refine ⟨rfl, fun u hu => ?_⟩
    simpa using hu.symm
  · rename_i hgt
    rw [if_pos (.inl (hk.resolve_left hgt))]
    exact ⟨rfl, fun u hu => by simp at hu⟩

/-- The machine's recorded state makes a faithful snapshot. -/
theorem Up.faithful {n : Node} {k : ℕ} (h : Up M boot s a i n) (hlo : n.snapshot.index ≤ k)
    (hhi : k ≤ n.commit) : Faithful M.image i a (.snapshot k (M.save (s.hist i k))) := by
  intro k' data heq
  obtain ⟨rfl, rfl⟩ : k = k' ∧ M.save (s.hist i k) = data := by simpa using heq
  exact ⟨by rw [h.refines.commit]; exact hhi, by rw [h.hist k hlo hhi]; rfl⟩

omit [MembershipJson] in
theorem World.same {n : Node} (hn : s.nodes i = some n) :
    ({ s with nodes := Function.update s.nodes i (some n) } : World σ) = s := by
  have : Function.update s.nodes i (some n) = s.nodes := by
    rw [← hn]; exact Function.update_eq_self i s.nodes
  rw [this]

/-- A call that leaves no update behind keeps the relation. -/
theorem Rel.refuse {inp : Input} {n n' : Node} (h : Rel M boot s a) (hn : s.nodes i = some n)
    (hp : inp.Plain) (hok : n'.Ok) (hpath : Path inp n.toCore {} n'.toCore)
    (hin : ∀ r, inp = .message r → r ∈ s.net) (hf : Faithful M.image i a inp) :
    ∃ a', Rel M boot { s with nodes := Function.update s.nodes i (some n') } a' ∧ Ext a a' := by
  obtain ⟨a', hrel, hx⟩ := h.operate inp (d := s.disk i) (u := {}) hn hp ⟨hpath, hok⟩ hin hf
    (by simp [Stable.persist, Stable.persistHard, Stable.persistLog, Stable.persistInstall,
      Stable.persistTruncate, Stable.append])
  refine ⟨a', ?_, hx⟩
  have : s.put M i n' (s.disk i) {}
      = { s with nodes := Function.update s.nodes i (some n') } := by
    unfold World.put
    simp [Machine.record, Machine.restore]
  rwa [this] at hrel

/-! ### Starting and restarting -/

theorem Rel.start {cfg : Config} {n : Node} (h : Rel M boot s a) (hdown : s.nodes i = none)
    (hid : cfg.id = i) (hpeers : normalizeVoters cfg.peers = .ok boot)
    (hnew : Node.new cfg {} [] none = .ok n) :
    ∃ a', Rel M boot { s with nodes := Function.update s.nodes i (some n) } a' ∧ Ext a a' := by
  obtain ⟨p, m, hr, hcore⟩ := Node.new_spec hnew
  obtain rfl : p = boot := by have := hr.peers; rw [hpeers] at this; exact (Except.ok.inj this).symm
  have hd := h.down i hdown
  have happ : cfg.appliedIndex = 0 := by
    have := hr.hi
    simp at this
    exact this
  have hwf := hr.wf {}
  rw [← hcore] at hwf
  have hrole : n.role = .follower := by rw [hcore]; rfl
  refine ⟨a, h.change (.refl a) h.indexed (n := n) rfl (fun _ _ => rfl) (fun _ _ => rfl) ?_
    (fun m hm => .inl hm)⟩
  refine ⟨?_, .of_role_ne hwf.commit_lo (by rw [hrole]; simp), ?_, ?_, ?_⟩
  · exact {
      wf := hwf
      id := by rw [hcore]; exact hid
      id_ne := hid ▸ Config.id_ne_of_validate hr.valid
      peers := by rw [hcore]; rfl
      term := by rw [hcore]; exact hd.term
      log := ⟨[], by rw [hd.log, hcore]; rfl, by
        rw [hcore]
        exact ⟨rfl, rfl, fun h0 => absurd h0 (by simp [restoredCore]),
          fun h0 => absurd h0 (by simp [restoredCore])⟩⟩
      commit := by rw [hd.commit, hcore]; exact happ.symm
      vote := by rw [hcore]; exact hd.vote _
      cand := fun hc => by rw [hrole] at hc; simp at hc
      lead := fun hc => by rw [hrole] at hc; simp at hc }
  · show Mirrors (s.disk i) n.toCore
    rw [hd.disk, hcore]
    exact ⟨rfl, rfl, rfl⟩
  · show (s.disk i).data = n.snapshot.data
    rw [hd.disk, hcore]
    rfl
  · intro k _ hk
    have hk0 : k = 0 := by
      rw [hcore] at hk
      have : k ≤ cfg.appliedIndex := hk
      omega
    subst hk0
    show s.hist i 0 = _
    rw [hd.hist]
    rfl

theorem Up.loadSnapshot {n : Node} (h : Up M boot s a i n) :
    (s.disk i).loadSnapshot = n.snapshot := by
  have hm := h.mirrors.snapshot
  unfold Stable.loadSnapshot
  split
  · rename_i h0
    rw [hm] at h0 ⊢
    have := h.refines.wf.snap_data h0
    rw [← this]
  · rw [hm, h.data]

/-- Restarting a node: it forgets its role and how far it had committed. -/
theorem Rel.restart {cfg : Config} {old n : Node} (h : Rel M boot s a)
    (hup : s.nodes i = some old) (hid : cfg.id = i)
    (hpeers : normalizeVoters cfg.peers = .ok boot) (happlied : cfg.appliedIndex ≤ old.commit)
    (hnew : Node.new cfg (s.disk i).hard (s.disk i).entries (some (s.disk i).loadSnapshot)
      = .ok n) :
    ∃ a', Rel M boot { s with nodes := Function.update s.nodes i (some n) } a' ∧ Ext a a' := by
  have ho := h.up i old hup
  rw [ho.loadSnapshot, ho.mirrors.hard, ho.mirrors.entries] at hnew
  obtain ⟨p, m, hr, hcore⟩ := Node.new_spec hnew
  obtain rfl : p = boot := by have := hr.peers; rw [hpeers] at this; exact (Except.ok.inj this).symm
  have hwf := hr.wf old.hardState
  rw [← hcore] at hwf
  have hrole : n.role = .follower := by rw [hcore]; rfl
  have hcommit : n.commit = cfg.appliedIndex := by rw [hcore]; rfl
  have hsnap : n.snapshot = old.snapshot := by rw [hcore]; rfl
  have hstep := Step.learn (S := scheme p) (i := i) a cfg.appliedIndex
    (by rw [ho.refines.length_log]; exact happlied.trans ho.refines.wf.commit_hi)
    (by
      rcases h.inv.commit_ok i with h0 | hcov
      · rw [ho.refines.commit] at h0
        exact .inl (by omega)
      · rw [ho.refines.commit] at hcov
        exact .inr (hcov.mono (Nat.le_refl _) (take_prefix_take happlied)))
  refine ⟨_, h.change (.single hstep) h.indexed (n := n) rfl (fun _ _ => rfl) (fun _ _ => rfl) ?_
    (fun m hm => .inl hm)⟩
  refine ⟨?_, .of_role_ne hwf.commit_lo (by rw [hrole]; simp), ?_, ?_, ?_⟩
  · exact {
      wf := hwf
      id := by rw [hcore]; exact hid
      id_ne := ho.refines.id_ne
      peers := by rw [hcore]; rfl
      term := by rw [hcore]; exact ho.refines.term
      log := by rw [hcore]; exact ho.refines.log
      commit := by rw [hcommit]; exact Function.update_self i _ a.commit
      vote := by rw [hcore]; exact ho.refines.vote
      cand := fun hc => by rw [hrole] at hc; simp at hc
      lead := fun hc => by rw [hrole] at hc; simp at hc }
  · show Mirrors (s.disk i) n.toCore
    rw [hcore]
    exact ⟨ho.mirrors.hard, ho.mirrors.snapshot, ho.mirrors.entries⟩
  · show (s.disk i).data = n.snapshot.data
    rw [hsnap]
    exact ho.data
  · intro k hlo hhi
    rw [hsnap] at hlo
    rw [hcommit] at hhi
    exact ho.hist k hlo (hhi.trans happlied)

/-- **Every step of a cluster keeps the relation.** -/
theorem World.Step.rel {s' : World σ} (h : Rel M boot s a) (hs : World.Step M boot s s') :
    ∃ a', Rel M boot s' a' ∧ Ext a a' := by
  have notSnapshot : ∀ {i : ℕ} {inp : Input}, (∀ k d, inp ≠ .snapshot k d) →
      Faithful M.image i a inp := fun hne k d heq => absurd heq (hne k d)
  cases hs with
  | start i cfg n hdown hid hpeers hnew => exact h.start hdown hid hpeers hnew
  | restart i cfg old n hup hid hpeers happlied hnew =>
    exact h.restart hup hid hpeers happlied hnew
  | tick i n d hup hd =>
    exact h.operate .tick hup (fun _ hc => by simp at hc)
      (Node.tick_follows .tick (h.up i n hup).ok) (fun _ hc => by simp at hc)
      (notSnapshot (by simp)) hd
  | deliver i n d m hup hm hd =>
    exact h.operate (.message m) hup (fun _ hc => by simp at hc)
      (Node.step_follows (h.up i n hup).ok m)
      (fun r hr => by rw [← Input.message.inj hr]; exact hm) (notSnapshot (by simp)) hd
  | propose i n n' d data indexes u hup hplain hop hd =>
    rcases Node.proposeBatch_follows (h.up i n hup).ok data with ⟨e, he⟩ | ⟨n1, ix, u1, he, hf⟩
    · rw [he] at hop; simp at hop
    rw [he] at hop
    simp only [Prod.mk.injEq, Except.ok.injEq] at hop
    obtain ⟨rfl, _, rfl⟩ := hop
    exact h.operate (.commands data) hup (fun c hc x hx => hplain x (by rw [Input.commands.inj hc]; exact hx))
      hf.toFollows (fun _ hc => by simp at hc) (notSnapshot (by simp)) hd
  | reconfigure i n n' d voters index u hup hop hd =>
    rcases Node.proposeMembership_follows (h.up i n hup).ok voters with
      ⟨n1, e, he, _⟩ | ⟨n1, ix, u1, he, hf⟩
    · rw [he] at hop; simp at hop
    rw [he] at hop
    simp only [Prod.mk.injEq, Except.ok.injEq] at hop
    obtain ⟨rfl, _, rfl⟩ := hop
    exact h.operate (.voters voters) hup (fun _ hc => by simp at hc) hf.toFollows (fun _ hc => by simp at hc)
      (notSnapshot (by simp)) hd
  | compact i n n' d k u hup hop hd =>
    have hu := h.up i n hup
    by_cases hk : k ≤ n.snapshot.index ∨ n.commit < k
    · obtain ⟨h1, h2⟩ := createSnapshot_idle n (M.save (s.hist i k)) hk
      rw [hop] at h1 h2
      obtain rfl : n' = n := h1
      obtain rfl : u = {} := h2 u rfl
      exact h.operate .tick hup (fun _ hc => by simp at hc) (.refl .tick hu.ok)
        (fun _ hc => by simp at hc) (notSnapshot (by simp)) hd
    · rcases Node.createSnapshot_follows hu.ok k (M.save (s.hist i k)) with
        ⟨n1, e, he, _⟩ | ⟨n1, u1, he, hf⟩
      · rw [he] at hop; simp at hop
      · rw [he] at hop
        simp only [Prod.mk.injEq, Except.ok.injEq] at hop
        obtain ⟨rfl, rfl⟩ := hop
        exact h.operate (.snapshot k (M.save (s.hist i k))) hup (fun _ hc => by simp at hc) hf
          (fun _ hc => by simp at hc)
          (hu.faithful (by omega) (by omega)) hd
  | probe i n n' d context u hup hop hd =>
    rcases Node.readProbe_follows (h.up i n hup).ok context with ⟨e, he⟩ | ⟨n1, u1, he, hf, _⟩
    · rw [he] at hop; simp at hop
    rw [he] at hop
    simp only [Prod.mk.injEq, Except.ok.injEq] at hop
    obtain ⟨rfl, rfl⟩ := hop
    exact h.operate (.probe context) hup (fun _ hc => by simp at hc) hf.toFollows
      (fun _ hc => by simp at hc) (notSnapshot (by simp)) hd
  | refused i n n' hup hop =>
    have hu := h.up i n hup
    rcases hop with ⟨data, e, hop⟩ | ⟨voters, e, hop⟩ | ⟨k, e, hop⟩
    · rcases Node.proposeBatch_follows hu.ok data with ⟨e', he⟩ | ⟨n1, ix, u1, he, _⟩
      · rw [he] at hop
        obtain rfl : n = n' := (Prod.mk.inj hop).1
        rw [World.same hup]
        exact ⟨a, h, .refl a⟩
      · rw [he] at hop; simp at hop
    · rcases Node.proposeMembership_follows hu.ok voters with
        ⟨n1, e', he, hf⟩ | ⟨n1, ix, u1, he, _⟩
      · rw [he] at hop
        obtain rfl : n1 = n' := (Prod.mk.inj hop).1
        exact h.refuse hup (fun _ hc => by simp at hc) hf.ok hf.path (fun _ hc => by simp at hc)
          (notSnapshot (by simp))
      · rw [he] at hop; simp at hop
    · by_cases hk : k ≤ n.snapshot.index ∨ n.commit < k
      · have h1 := (createSnapshot_idle n (M.save (s.hist i k)) hk).1
        rw [hop] at h1
        obtain rfl : n' = n := h1
        rw [World.same hup]
        exact ⟨a, h, .refl a⟩
      · rcases Node.createSnapshot_follows hu.ok k (M.save (s.hist i k)) with
          ⟨n1, e', he, hf⟩ | ⟨n1, u1, he, _⟩
        · rw [he] at hop
          obtain rfl : n1 = n' := (Prod.mk.inj hop).1
          exact h.refuse hup (fun _ hc => by simp at hc) hf.ok hf.path
            (fun _ hc => by simp at hc) (hu.faithful (by omega) (by omega))
        · rw [he] at hop; simp at hop

end Codec

end Lsmdb.Cluster

import Lsmdb.Raft.Retention

namespace Lsmdb.Raft

open Node

/-!
# Raft core — what arbitrary input cannot do

One node under any sequence of operations, its messages forged, malformed, stale or reordered.
`Core.Moves a committed covered b` collects what holds between two states of such a run, where
`committed` is everything the updates in between reported as committed and `covered` holds of
the indexes that an installed snapshot jumped over:

* term, commit index and snapshot index do not decrease, and a vote is kept within its term;
* committed entries stay while they are retained;
* `committed` lists the entries from the old commit index to the new one, in order and once,
  but for the covered ones.

It is two facts with their own composition, `Core.Commits` on the committed entries and
`Core.Ages` on term and vote, each proved for one elementary transition and then read off paths,
operations and runs.  The one thing that breaks the second is a term at the end of the 64-bit
range (`term_overflow_decreases`); the first holds however terms advance.
-/

/-! ### Moves -/

/-- **What arbitrary input keeps** between two states of a node. -/
structure Core.Moves (a : Core) (committed : List Entry) (covered : ℕ → Prop) (b : Core) :
    Prop where
  term : a.term ≤ b.term
  commit : a.commit ≤ b.commit
  snapshot : a.snapshot.index ≤ b.snapshot.index
  vote : b.term = a.term → a.votedFor ≠ 0 → b.votedFor = a.votedFor
  retained : ∀ e ∈ a.log, e.index ≤ a.commit → b.snapshot.index < e.index → e ∈ b.log
  order : committed.Pairwise (fun x y => x.index < y.index)
  range : ∀ e ∈ committed, a.commit < e.index ∧ e.index ≤ b.commit
    ∧ (b.snapshot.index < e.index → e ∈ b.log)
  complete : ∀ i, a.commit < i → i ≤ b.commit → (∃ e ∈ committed, e.index = i) ∨ covered i

/-! ### What is committed -/

/-- The part of `Core.Moves` on the committed entries. -/
structure Core.Commits (a : Core) (committed : List Entry) (covered : ℕ → Prop) (b : Core) :
    Prop where
  commit : a.commit ≤ b.commit
  snapshot : a.snapshot.index ≤ b.snapshot.index
  retained : ∀ e ∈ a.log, e.index ≤ a.commit → b.snapshot.index < e.index → e ∈ b.log
  order : committed.Pairwise (fun x y => x.index < y.index)
  range : ∀ e ∈ committed, a.commit < e.index ∧ e.index ≤ b.commit
    ∧ (b.snapshot.index < e.index → e ∈ b.log)
  complete : ∀ i, a.commit < i → i ≤ b.commit → (∃ e ∈ committed, e.index = i) ∨ covered i

section Commits
variable {a b c : Core} {committed committed' : List Entry} {covered covered' K : ℕ → Prop}

theorem Core.Commits.refl (a : Core) (covered : ℕ → Prop) : a.Commits [] covered a :=
  ⟨Nat.le_refl _, Nat.le_refl _, fun _ he _ _ => he, .nil, by simp, fun i h1 h2 => by omega⟩

/-- **It composes.** -/
theorem Core.Commits.trans (h : a.Commits committed covered b)
    (h' : b.Commits committed' covered' c)
    (hk : ∀ i, a.commit < i → i ≤ b.commit → covered i → K i)
    (hk' : ∀ i, b.commit < i → covered' i → K i) : a.Commits (committed ++ committed') K c := by
  have hkeep : ∀ e ∈ b.log, e.index ≤ b.commit → c.snapshot.index < e.index → e ∈ c.log :=
    h'.retained
  refine ⟨h.commit.trans h'.commit, h.snapshot.trans h'.snapshot, fun e he hle hlt => ?_, ?_,
    fun e he => ?_, fun i hlo hhi => ?_⟩
  · have hs := h'.snapshot
    have hc := h.commit
    exact hkeep e (h.retained e he hle (by omega)) (by omega) hlt
  · refine List.pairwise_append.mpr ⟨h.order, h'.order, fun x hx y hy => ?_⟩
    exact Nat.lt_of_le_of_lt (h.range x hx).2.1 (h'.range y hy).1
  · rcases List.mem_append.mp he with he | he
    · obtain ⟨h1, h2, h3⟩ := h.range e he
      have hs := h'.snapshot
      exact ⟨h1, h2.trans h'.commit, fun hlt => hkeep e (h3 (by omega)) h2 hlt⟩
    · obtain ⟨h1, h2, h3⟩ := h'.range e he
      exact ⟨Nat.lt_of_le_of_lt h.commit h1, h2, h3⟩
  · rcases Nat.lt_or_ge b.commit i with hi | hi
    · rcases h'.complete i hi hhi with ⟨e, he, hei⟩ | hcov
      · exact .inl ⟨e, List.mem_append_right _ he, hei⟩
      · exact .inr (hk' i hi hcov)
    · rcases h.complete i hlo hi with ⟨e, he, hei⟩ | hcov
      · exact .inl ⟨e, List.mem_append_left _ he, hei⟩
      · exact .inr (hk i hlo hi hcov)

/-- The commit index and the snapshot stay, and the log keeps its entries. -/
theorem Core.Commits.still (hc : b.commit = a.commit) (hs : b.snapshot = a.snapshot)
    (hl : a.log ⊆ b.log) : a.Commits [] covered b :=
  ⟨by rw [hc], by rw [hs], fun e he _ _ => hl he, .nil, by simp, fun i h1 h2 => by omega⟩

private theorem Core.Commits.advance (h : a.Framed) {k : ℕ} (hk : a.commit < k)
    (hle : k ≤ a.lastIndex) :
    a.Commits (a.entriesBetween (a.commit + 1) (k + 1)) covered { a with commit := k } := by
  have hlo : a.snapshot.index < a.commit + 1 := Nat.lt_succ_of_le h.commit_lo
  refine ⟨Nat.le_of_lt hk, Nat.le_refl _, fun _ he _ _ => he, h.between_ordered,
    fun e he => ?_, fun i h1 h2 => .inl ?_⟩
  · have h1 := h.index_between hlo he
    have h2 := h.le_index_between hlo he
    exact ⟨h2, by show e.index ≤ k; omega, fun _ => Core.mem_log_of_between he⟩
  · change i ≤ k at h2
    obtain ⟨e, he, hi⟩ := h.exists_index (by omega : a.snapshot.index < i) (by omega)
    exact ⟨e, h.mem_between he hlo (by omega) (by omega), hi⟩

private theorem Core.Commits.cut (h : a.Framed) {s : Snapshot} (hlt : a.snapshot.index < s.index)
    (hterm : a.termAt s.index = s.term) (hc : b.commit = a.commit) (hs : b.snapshot = s)
    (hl : b.log = (a.compactLog s).log) : a.Commits [] covered b := by
  refine ⟨by rw [hc], by rw [hs]; omega, fun e he _ hgt => ?_, .nil, by simp,
    fun i h1 h2 => by omega⟩
  rw [hl]
  rw [hs] at hgt
  exact Core.mem_compactLog h hlt hterm he hgt

end Commits

/-! ### One update after another -/

/-- The indexes a snapshot in the update covers. -/
def Update.Covers (u : Update) (i : ℕ) : Prop := ∃ s, u.snapshot = some s ∧ i ≤ s.index

/-- **What an update commits**: `Core.Commits`, and a snapshot in it is newer than the one
    before it. -/
structure Core.Serial (a : Core) (u : Update) (b : Core) : Prop extends
    Core.Commits a u.committed u.Covers b where
  newer : ∀ s, u.snapshot = some s → a.snapshot.index < s.index ∧ s.index ≤ b.snapshot.index

section Serial
variable {a b c : Core} {u v : Update}

/-- Of two snapshots the later one reaches further. -/
theorem Core.Serial.trans (h : a.Serial u b) (h' : b.Serial v c) : a.Serial (u.merge v) c := by
  have hs := h.snapshot
  have hs' := h'.snapshot
  refine ⟨h.toCommits.trans h'.toCommits (fun i _ _ hcov => ?_) (fun i _ hcov => ?_),
    fun s hsn => ?_⟩
  · obtain ⟨s, hsn, hi⟩ := hcov
    have h1 := (h.newer s hsn).2
    cases hv : v.snapshot with
    | none => exact ⟨s, by rw [Update.merge_snapshot, hv, hsn]; rfl, hi⟩
    | some s' =>
      have h2 := (h'.newer s' hv).1
      exact ⟨s', by rw [Update.merge_snapshot, hv]; rfl, by omega⟩
  · obtain ⟨s, hsn, hi⟩ := hcov
    exact ⟨s, by rw [Update.merge_snapshot, hsn]; rfl, hi⟩
  · cases hv : v.snapshot with
    | none =>
      rw [Update.merge_snapshot, hv, Option.none_or] at hsn
      have h1 := h.newer s hsn
      omega
    | some s' =>
      rw [Update.merge_snapshot, hv, Option.some_or, Option.some.injEq] at hsn
      have h1 := h'.newer s' hv
      rw [← hsn]
      omega

theorem Core.Serial.bare (hc : b.commit = a.commit) (hs : b.snapshot = a.snapshot)
    (hl : a.log ⊆ b.log) (hu : u.committed = []) (hn : u.snapshot = none) : a.Serial u b :=
  ⟨by rw [hu]; exact .still hc hs hl, fun s h => by rw [hn] at h; simp at h⟩

end Serial

/-! ### Terms and votes -/

/-- The part of `Core.Moves` on term and vote. -/
structure Core.Ages (a b : Core) : Prop where
  term : a.term ≤ b.term
  vote : b.term = a.term → a.votedFor ≠ 0 → b.votedFor = a.votedFor

theorem Core.Ages.refl (a : Core) : a.Ages a := ⟨Nat.le_refl _, fun _ _ => rfl⟩

theorem Core.Ages.trans {a b c : Core} (h : a.Ages b) (h' : b.Ages c) : a.Ages c := by
  have h1 := h.term
  have h2 := h'.term
  refine ⟨h1.trans h2, fun ht hv => ?_⟩
  rw [h'.vote (by omega) (by rw [h.vote (by omega) hv]; exact hv), h.vote (by omega) hv]

theorem Core.Ages.same {a b : Core} (ht : b.term = a.term) (hv : b.votedFor = a.votedFor) :
    a.Ages b :=
  ⟨Nat.le_of_eq ht.symm, fun _ _ => hv⟩

theorem Core.Commits.moves {a b : Core} {committed : List Entry} {covered : ℕ → Prop}
    (h : a.Commits committed covered b) (h' : a.Ages b) : a.Moves committed covered b where
  term := h'.term
  commit := h.commit
  snapshot := h.snapshot
  vote := h'.vote
  retained := h.retained
  order := h.order
  range := h.range
  complete := h.complete

section Codec
variable [MembershipJson] {inp : Input} {c c' : Core} {u : Update}

/-! ### Paths -/

theorem Trans.serial (h : c.Framed) (ht : Trans inp c u c') : c.Serial u c' := by
  cases ht with
  | propose data hr hd hlen =>
    exact .bare rfl rfl (List.subset_append_left _ _) rfl rfl
  | reconfigure core command hr hc hm =>
    obtain ⟨m, hf, rfl⟩ := Core.rebuildMembership_eq hm
    exact .bare rfl rfl (List.subset_append_left _ _) rfl rfl
  | orphan command err hr hc hm =>
    exact .bare rfl rfl (List.subset_append_left _ _) rfl rfl
  | commit k hr hk hle ht hq => exact ⟨.advance h hk hle, by simp⟩
  | splice core m keep tf entries hm hr hwf hle ht hs ha =>
    -- what is cut lies above the commit index
    have hat := Core.spliceAt h.commit_lo hwf hle hs
    have hkeep := hat.commit_le h.commit_hi
    obtain ⟨mem, rfl, _⟩ := Core.applySplice_eq ha
    refine ⟨⟨Nat.le_refl _, Nat.le_refl _, fun e he hle' _ => ?_, .nil, by simp,
      fun i h1 h2 => by change i ≤ c.commit at h2; omega⟩, by simp⟩
    obtain ⟨k, hk⟩ := List.mem_iff_getElem?.mp he
    have hi := h.index k e hk
    refine List.mem_append_left _ (List.mem_iff_getElem?.mpr ⟨k, ?_⟩)
    rw [List.getElem?_take_of_lt (by omega)]
    exact hk
  | learn m k hm hr hwf hh hk hlt =>
    have hlast := hh.last
    exact ⟨.advance h hlt (by omega), by simp⟩
  | install core m sent hm hr hs hi ht hv hmi hlt hcommit hb =>
    obtain ⟨mem, _, rfl⟩ := Core.rebuildMembership_eq hb
    generalize c.received sent = s at *
    refine ⟨⟨Nat.le_max_left _ _, Nat.le_of_lt hlt, fun e he hle hgt => ?_, .nil, by simp,
      fun i h1 h2 => .inr ⟨s, rfl, ?_⟩⟩, fun s' hs' => ?_⟩
    · -- an entry above the snapshot that is committed here shows that the terms agree
      change s.index < e.index at hgt
      exact Core.mem_compactLog h hlt (hcommit (by omega)) he hgt
    · change i ≤ max c.commit s.index at h2
      omega
    · rw [← Option.some.inj hs']
      exact ⟨hlt, Nat.le_refl _⟩
  | compact core s m data hi hd hlt hle ht hterm hat hm hmi hb =>
    obtain ⟨mem, _, rfl⟩ := Core.rebuildMembership_eq hb
    refine ⟨.cut h hlt hterm rfl rfl rfl, fun s' hs' => ?_⟩
    rw [← Option.some.inj hs']
    exact ⟨hlt, Nat.le_refl _⟩
  | halfCompact s m data err hi hd hlt hle ht hterm hat hm hmi hb =>
    exact ⟨.cut h hlt hterm rfl rfl rfl, by simp⟩
  | _ => exact .bare rfl rfl (fun _ he => he) rfl rfl

theorem Path.serial (h : c.Framed) (hp : Path inp c u c') : c.Serial u c' := by
  induction hp with
  | nil => exact .bare rfl rfl (fun _ he => he) rfl rfl
  | snoc hp ht _ ih => exact ih.trans (ht.serial (hp.framed h))

theorem Trans.ages (ht : Trans inp c u c') : c.Ages c' := by
  cases ht with
  | adopt t ht => exact ⟨Nat.le_of_lt ht, fun heq => by change t = c.term at heq; omega⟩
  | campaign => exact ⟨Nat.le_succ _, fun heq => by change c.term + 1 = c.term at heq; omega⟩
  | grant m hm hv hup =>
    refine ⟨Nat.le_refl _, fun _ hne => ?_⟩
    rcases hv with hv | hv
    · exact absurd hv hne
    · exact hv.symm
  | reconfigure core command hr hc hm =>
    obtain ⟨m, hf, rfl⟩ := Core.rebuildMembership_eq hm
    exact .same rfl rfl
  | splice core m keep tf entries hm hr hwf hle ht hs ha =>
    obtain ⟨mem, rfl, _⟩ := Core.applySplice_eq ha
    exact .same rfl rfl
  | install core m sent hm hr hs hi ht hv hmi hlt hcommit hb =>
    obtain ⟨mem, _, rfl⟩ := Core.rebuildMembership_eq hb
    exact .same rfl rfl
  | compact core s m data hi hd hlt hle ht hterm hat hm hmi hb =>
    obtain ⟨mem, _, rfl⟩ := Core.rebuildMembership_eq hb
    exact .same rfl rfl
  | _ => exact .same rfl rfl

theorem Path.ages (hp : Path inp c u c') : c.Ages c' := by
  induction hp with
  | nil => exact .refl c
  | snoc _ ht _ ih => exact ih.trans ht.ages

/-! ### Operations -/

omit [MembershipJson] in
/-- The operations a caller may apply to a node. -/
inductive Op where
  | tick
  | step (m : Message)
  | proposeBatch (data : List Bytes)
  | proposeMembership (voters : List ℕ)
  | createSnapshot (index : ℕ) (data : Bytes)
  | compact (snapshot : Snapshot)

omit [MembershipJson] in
/-- The update an operation returns; with an error it is empty. -/
def updateOf {ε α : Type} (get : α → Update) : Except ε α → Update
  | .ok a => get a
  | .error _ => {}

/-- One operation. -/
def Node.operate (next : ℕ → ℕ) (n : Node) : Op → Node × Update
  | .tick => n.tickWith next
  | .step m => n.stepWith next m
  | .proposeBatch data =>
      let r := n.proposeBatch data
      (r.1, updateOf Prod.snd r.2)
  | .proposeMembership voters =>
      let r := n.proposeMembership voters
      (r.1, updateOf Prod.snd r.2)
  | .createSnapshot index data =>
      let r := n.createSnapshot index data
      (r.1, updateOf id r.2)
  | .compact snapshot =>
      let r := n.compact snapshot
      (r.1, updateOf id r.2)

/-- The input that an operation is to the elementary transitions. -/
def Op.input : Op → Input
  | .tick => .tick
  | .step m => .message m
  | .proposeBatch data => .commands data
  | .proposeMembership voters => .voters voters
  | .createSnapshot index data => .snapshot index data
  | .compact snapshot => .snapshot snapshot.index snapshot.data

omit [MembershipJson] in
/-- The operation cannot start an election at the last 64-bit term: only a tick of a node that
    does not lead and the answer to a pre-vote compute the term after the node's own. -/
def Op.Fits (n : Node) : Op → Prop
  | .tick => n.role ≠ .leader → n.term + 1 < 2 ^ 64
  | .step m => m.type = .preVoteResponse → n.term + 1 < 2 ^ 64
  | _ => True

variable {n : Node} {op : Op}

omit [MembershipJson] in
theorem nextTerm64_eq {t : ℕ} (h : t + 1 < 2 ^ 64) : nextTerm64 t = t + 1 :=
  Nat.mod_eq_of_lt h

/-- A pre-vote request only makes the node answer. -/
theorem Node.stepWith_preVote (next : ℕ → ℕ) (n : Node) {m : Message} (hm : m.type = .preVote) :
    n.Untouched (n.stepWith next m) := by
  rcases n.stepWith_cases next m with ⟨_, hu⟩ | ⟨_, _, hne, _⟩ | ⟨_, heq⟩
  · exact hu
  · exact absurd hm hne
  · rw [heq]
    simp only [dispatchWith, hm]
    exact ⟨rfl, rfl, ⟨rfl, rfl, rfl⟩, rfl, rfl⟩

omit [MembershipJson] in
/-- The operations that do not depend on how terms advance. -/
def Op.Local : Op → Prop
  | .tick => False
  | .step _ => False
  | _ => True

/-- A proposal or a compaction follows a path. -/
theorem Node.operate_local (next : ℕ → ℕ) (hok : n.Ok) (hop : op.Local) :
    Node.Follows op.input n (n.operate next op) := by
  cases op with
  | tick => exact hop.elim
  | step m => exact hop.elim
  | proposeBatch data =>
    rcases proposeBatch_follows hok data with ⟨e, heq⟩ | ⟨n', indexes, u, heq, hf⟩
    · simp only [operate, heq, updateOf]
      exact .refl _ hok
    · simp only [operate, heq, updateOf]
      exact hf.toFollows
  | proposeMembership voters =>
    rcases proposeMembership_follows hok voters with ⟨n', e, heq, hf⟩ | ⟨n', i, u, heq, hf⟩
    · simp only [operate, heq, updateOf]
      exact hf.toFollows
    · simp only [operate, heq, updateOf]
      exact hf.toFollows
  | createSnapshot index data =>
    rcases createSnapshot_follows hok index data with ⟨n', e, heq, hf⟩ | ⟨n', u, heq, hf⟩
    · simp only [operate, heq, updateOf]
      exact hf
    · simp only [operate, heq, updateOf]
      exact hf
  | compact snapshot =>
    rcases compact_spec hok snapshot with
      ⟨n', e, heq, hf⟩ | ⟨heq, _⟩ | ⟨n', s, heq, _, ht, hok'⟩
    · simp only [operate, heq, updateOf]
      exact hf
    · simp only [operate, heq, updateOf]
      exact .refl _ hok
    · simp only [operate, heq, updateOf]
      exact ⟨.single ht, hok'⟩

/-- **Every operation follows a path** or leaves the core alone. -/
theorem Node.operate_follows (hok : n.Ok) (hfit : op.Fits n) :
    Node.Follows op.input n (n.operate nextTerm64 op)
      ∨ n.Untouched (n.operate nextTerm64 op) := by
  cases op with
  | tick =>
    exact .inl (tickWith_follows .tick (fun h => nextTerm64_eq (hfit h)) hok)
  | step m =>
    by_cases hpv : m.type = .preVote
    · exact .inr (n.stepWith_preVote nextTerm64 hpv)
    · exact .inl (stepWith_follows (fun h => nextTerm64_eq (hfit (h.resolve_left hpv))) hok)
  | _ => exact .inl (operate_local nextTerm64 hok trivial)

omit [MembershipJson] in
theorem Node.Untouched.serial {r : Node × Update} (hu : n.Untouched r) :
    n.Serial r.2 r.1.toCore := by
  rw [hu.core]
  exact .bare rfl rfl (fun _ he => he) hu.committed hu.quiet.snapshot

theorem Node.Follows.serial {r : Node × Update} (h : n.Sane) (hf : Node.Follows inp n r) :
    r.1.Sane ∧ n.Serial r.2 r.1.toCore :=
  ⟨hf.sane h, hf.path.serial h.framed⟩

/-- What operations commit does not depend on how terms advance. -/
theorem Node.serial_kept : Node.Kept Node.Sane (fun n r => n.Serial r.2 r.1.toCore) where
  ok h := h.ok
  follows _ h hf := hf.serial h
  stands h hs hu := by
    refine ⟨h.stands hs, .bare hs.commit hs.snapshot ?_ hu.committed hu.snapshot⟩
    rw [hs.log]
    exact fun _ he => he
  trans h h' := h.trans h'
  untouched h hu := ⟨h.untouched hu, hu.serial⟩

/-- **One operation** commits serially and keeps the node sane. -/
theorem Node.operate_serial (next : ℕ → ℕ) (h : n.Sane) (op : Op) :
    (n.operate next op).1.Sane ∧ n.Serial (n.operate next op).2 (n.operate next op).1.toCore := by
  cases op with
  | tick => exact serial_kept.tickWith next h
  | step m => exact serial_kept.stepWith next h m
  | _ => exact Follows.serial h (operate_local next h.ok trivial)

/-- **One operation** does not take the term back. -/
theorem Node.operate_ages (hok : n.Ok) (hfit : op.Fits n) :
    n.Ages (n.operate nextTerm64 op).1.toCore := by
  rcases operate_follows hok hfit with hf | hu
  · exact hf.path.ages
  · rw [hu.core]
    exact .refl _

/-! ### Runs -/

/-- The node after the operations. -/
def Node.operateAll (next : ℕ → ℕ) (n : Node) : List Op → Node
  | [] => n
  | op :: rest => (n.operate next op).1.operateAll next rest

/-- The updates the operations return, each with the node it was applied to. -/
def Node.history (next : ℕ → ℕ) (n : Node) : List Op → List (Node × Update)
  | [] => []
  | op :: rest => (n, (n.operate next op).2) :: (n.operate next op).1.history next rest

/-- Every operation of the run meets its condition where it is applied. -/
def Node.Fits (n : Node) : List Op → Prop
  | [] => True
  | op :: rest => op.Fits n ∧ (n.operate nextTerm64 op).1.Fits rest

omit [MembershipJson] in
/-- The indexes from one commit index to the next that a snapshot of the run jumped over. -/
def Jumped (history : List (Node × Update)) (i : ℕ) : Prop :=
  ∃ p ∈ history, ∃ s, p.2.snapshot = some s ∧ p.1.commit < i ∧ i ≤ s.index

omit [MembershipJson] in
/-- Everything the run reported as committed. -/
def committedIn (history : List (Node × Update)) : List Entry :=
  history.flatMap (fun p => p.2.committed)

theorem Node.operateAll_commits (next : ℕ → ℕ) (ops : List Op) :
    ∀ {n : Node}, n.Sane →
      (n.operateAll next ops).Sane ∧ n.Commits (committedIn (n.history next ops))
        (Jumped (n.history next ops)) (n.operateAll next ops).toCore := by
  induction ops with
  | nil => exact fun h => ⟨h, .refl _ _⟩
  | cons op rest ih =>
    intro n h
    obtain ⟨hs, hm⟩ := operate_serial next h op
    obtain ⟨hs', hr⟩ := ih hs
    refine ⟨hs', hm.toCommits.trans hr (fun i hlo _ hcov => ?_) (fun i _ hj => ?_)⟩
    · obtain ⟨s, hsn, hi⟩ := hcov
      exact ⟨_, List.mem_cons_self, s, hsn, hlo, hi⟩
    · obtain ⟨p, hp, hrest⟩ := hj
      exact ⟨p, List.mem_cons_of_mem _ hp, hrest⟩

theorem Node.operateAll_ages (ops : List Op) :
    ∀ {n : Node}, n.Sane → n.Fits ops → n.Ages (n.operateAll nextTerm64 ops).toCore := by
  induction ops with
  | nil => exact fun _ _ => .refl _
  | cons op rest ih =>
    intro n h hfits
    exact (operate_ages h.ok hfits.1).trans
      (ih (operate_serial nextTerm64 h op).1 hfits.2)

theorem Node.operateAll_append (next : ℕ → ℕ) (pre post : List Op) :
    ∀ n : Node, n.operateAll next (pre ++ post) = (n.operateAll next pre).operateAll next post := by
  induction pre with
  | nil => exact fun _ => rfl
  | cons op rest ih => exact fun n => ih _

theorem Node.fits_append (pre post : List Op) :
    ∀ n : Node, n.Fits (pre ++ post) ↔ n.Fits pre ∧ (n.operateAll nextTerm64 pre).Fits post := by
  induction pre with
  | nil => simp [Fits, operateAll]
  | cons op rest ih =>
    intro n
    simp only [List.cons_append, Fits, operateAll, ih, and_assoc]

theorem Node.new_sane {cfg : Config} {hard : HardState} {entries : List Entry}
    {restored : Option Snapshot} (h : Node.new cfg hard entries restored = .ok n) : n.Sane := by
  obtain ⟨p, m, hr, hcore⟩ := new_spec h
  have hwf := hr.wf hard
  rw [← hcore] at hwf
  exact ⟨hwf.toFramed, .of_role_ne hwf.commit_lo (by rw [hcore]; simp [restoredCore])⟩

/-- **Committed state is immune to arbitrary input**, as long as no election starts at the last
    64-bit term.  Between any two points of a run of any operations, any messages stepped: term,
    commit and snapshot index do not decrease; a vote stays within its term; committed entries
    stay while they are retained; and the updates have reported exactly the entries committed in
    between, in order and once, but for those an installed snapshot jumped over. -/
theorem committed_immune {cfg : Config} {hard : HardState} {entries : List Entry}
    {restored : Option Snapshot} (h : Node.new cfg hard entries restored = .ok n)
    (pre post : List Op) (hfits : n.Fits (pre ++ post)) :
    (n.operateAll nextTerm64 pre).Moves
        (committedIn ((n.operateAll nextTerm64 pre).history nextTerm64 post))
        (Jumped ((n.operateAll nextTerm64 pre).history nextTerm64 post))
        (n.operateAll nextTerm64 (pre ++ post)).toCore
      ∧ (n.operateAll nextTerm64 (pre ++ post)).snapshot.index
        ≤ (n.operateAll nextTerm64 (pre ++ post)).commit
      ∧ (n.operateAll nextTerm64 (pre ++ post)).commit
        ≤ (n.operateAll nextTerm64 (pre ++ post)).lastIndex := by
  obtain ⟨_, hpost⟩ := (fits_append pre post n).mp hfits
  obtain ⟨hs, _⟩ := operateAll_commits nextTerm64 pre (new_sane h)
  obtain ⟨hs', hc⟩ := operateAll_commits nextTerm64 post hs
  rw [operateAll_append]
  exact ⟨hc.moves (operateAll_ages post hs hpost), hs'.framed.commit_lo,
    hs'.framed.commit_hi⟩

/-! ### A vote request at the last term -/

section
omit [MembershipJson]

/-- Node 1 of two. -/
def pairConfig : Config :=
  { id := 1, peers := [1, 2], electionTickMin := 2, electionTickMax := 3, heartbeatTicks := 1,
    checkQuorumTicks := 2 }

/-- Node 1 of two, started on an empty store. -/
def pairNode : Node := ((@Node.new unaryJson pairConfig {} [] none).toOption.get rfl)

/-- An append of two entries that commits one, a forged one that denies it, and a snapshot. -/
def forgedOps : List Op :=
  [.step { type := .append, fromID := 2, toID := 1, term := 1, leaderCommit := 1,
           entries := [{ index := 1, term := 1 }, { index := 2, term := 1 }] },
   .step { type := .append, fromID := 2, toID := 1, term := 7, leaderCommit := 9,
           entries := [{ index := 1, term := 7 }] },
   .step { type := .snapshot, fromID := 2, toID := 1, term := 7,
           snapshot := some { index := 5, term := 3 } }]

/-- The forged append moves nothing, the snapshot jumps over four indexes, and the updates have
    reported the one entry in between. -/
theorem committed_immune_forged :
    committedIn (@Node.history unaryJson nextTerm64 pairNode forgedOps) = [{ index := 1, term := 1 }]
      ∧ (@Node.operateAll unaryJson nextTerm64 pairNode forgedOps).commit = 5
      ∧ pairNode.Moves (committedIn (@Node.history unaryJson nextTerm64 pairNode forgedOps))
          (Jumped (@Node.history unaryJson nextTerm64 pairNode forgedOps))
          (@Node.operateAll unaryJson nextTerm64 pairNode forgedOps).toCore :=
  ⟨by rfl, by rfl,
    (@committed_immune unaryJson pairNode pairConfig {} [] none rfl [] forgedOps
      ⟨by rintro ⟨⟩, by rintro ⟨⟩, by rintro ⟨⟩, trivial⟩).1⟩

/-- Node 2 asks for a vote in the last term and then answers node 1's pre-vote. -/
def lastTermOps : List Op :=
  [.step { type := .vote, fromID := 2, toID := 1, term := 2 ^ 64 - 1 }, .tick, .tick,
   .step { type := .preVoteResponse, fromID := 2, toID := 1, term := 0 }]

/-- **A term overflow takes the term back**: the election that follows the last term is held in
    term zero. -/
theorem term_overflow_decreases :
    @Node.new unaryJson pairConfig {} [] none = .ok pairNode
      ∧ (@Node.operateAll unaryJson nextTerm64 pairNode (lastTermOps.take 1)).term = 2 ^ 64 - 1
      ∧ (@Node.operateAll unaryJson nextTerm64 pairNode lastTermOps).term = 0 :=
  ⟨by rfl, by rfl, by rfl⟩

end

end Codec

end Lsmdb.Raft

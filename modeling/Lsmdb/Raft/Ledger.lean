import Lsmdb.Raft.Eligibility
import Mathlib.Data.List.TakeWhile

namespace Lsmdb.Raft

/-!
# Raft core — what an update accounts for

The runtime learns of a node's change through the update alone.  `Core.Accounts` says that this
is enough: the update lists what was committed in between (`Core.Serial`), and nothing is in the
new log or snapshot that was not there before or in the update (`Core.Brings`).  It holds of
every step of a configured node, whatever it is fed and however its term advances.

A configured node can also be compacted at every committed index whose entry has a term
(`Node.createSnapshot_ok`).
-/

/-! ### Entries and snapshots -/

/-- Log and snapshot come from before, or with the update. -/
structure Core.Brings (a : Core) (u : Update) (b : Core) : Prop where
  log : ∀ e ∈ b.log, e ∈ a.log ∨ e ∈ u.entries
  snapshot : b.snapshot = u.snapshot.getD a.snapshot

section Brings
variable {a b c : Core} {u v : Update}

theorem Core.Brings.of_subset (hl : b.log ⊆ a.log) (hs : b.snapshot = u.snapshot.getD a.snapshot) :
    a.Brings u b :=
  ⟨fun _ he => .inl (hl he), hs⟩

theorem Core.Brings.trans (h : a.Brings u b) (h' : b.Brings v c) : a.Brings (u.merge v) c := by
  refine ⟨fun e he => ?_, ?_⟩
  · rw [Update.merge_entries, List.mem_append]
    rcases h'.log e he with he | he
    · rcases h.log e he with he | he
      · exact .inl he
      · exact .inr (.inl he)
    · exact .inr (.inr he)
  · rw [h'.snapshot, h.snapshot, Update.merge_snapshot]
    cases v.snapshot <;> rfl

private theorem Core.Brings.snoc {x : Entry} (hl : b.log = a.log ++ [x])
    (hs : b.snapshot = a.snapshot) : a.Brings { entries := [x] } b := by
  refine ⟨fun e he => ?_, hs⟩
  rw [hl] at he
  exact List.mem_append.mp he

/-- **An update accounts for the change** from `a` to `b`: it says what was committed, and it
    brings what is new. -/
structure Core.Accounts (a : Core) (u : Update) (b : Core) : Prop where
  serial : a.Serial u b
  brings : a.Brings u b

theorem Core.Accounts.trans (h : a.Accounts u b) (h' : b.Accounts v c) :
    a.Accounts (u.merge v) c :=
  ⟨h.serial.trans h'.serial, h.brings.trans h'.brings⟩

theorem Core.Accounts.refl (a : Core) : a.Accounts {} a :=
  ⟨.bare rfl rfl (fun _ he => he) rfl rfl, .of_subset (fun _ he => he) rfl⟩

end Brings

section Codec
variable [MembershipJson] {inp : Input} {n : Node} {c c' : Core} {u : Update}

omit [MembershipJson] in
private theorem Core.compactLog_subset {s : Snapshot} (hlt : c.snapshot.index < s.index) :
    (c.compactLog s).log ⊆ c.log := by
  intro e he
  rcases Core.compactLog_log_or hlt with hlog | hlog
  · rw [hlog] at he
    exact List.mem_of_mem_drop he
  · rw [hlog] at he
    simp at he

theorem Trans.brings (hp : inp.Plain) (h : c.Folded) (ht : Trans inp c u c') : c.Brings u c' := by
  have hfolded := ht.folded hp h
  cases ht with
  | propose data hr hd hlen => exact .snoc rfl rfl
  | reconfigure core command hr hc hm =>
    obtain ⟨m, hf, rfl⟩ := Core.rebuildMembership_eq hm
    exact .snoc rfl rfl
  | orphan command err hr hc hm =>
    -- a configuration entry of a leader always applies
    obtain ⟨core, hcore, _⟩ := h.rebuilds hc
    rw [hcore] at hm
    simp at hm
  | splice core m keep tf entries hm hr hwf hle ht hs ha =>
    obtain ⟨mem, rfl, _⟩ := Core.applySplice_eq ha
    refine ⟨fun e he => ?_, rfl⟩
    rcases List.mem_append.mp he with he | he
    · exact .inl (List.mem_of_mem_take he)
    · exact .inr he
  | install core m sent hm hr hs hi ht hv hmi hlt hcommit hb =>
    obtain ⟨mem, _, rfl⟩ := Core.rebuildMembership_eq hb
    exact .of_subset (Core.compactLog_subset hlt) rfl
  | compact core s m data hi hd hlt hle ht hterm hat hm hmi hb =>
    obtain ⟨mem, _, rfl⟩ := Core.rebuildMembership_eq hb
    exact .of_subset (Core.compactLog_subset hlt) rfl
  | halfCompact s m data err hi hd hlt hle ht hterm hat hm hmi hb =>
    -- folding the rest of a log that folds cannot fail
    obtain ⟨_, hfold⟩ := h.compact_folded hlt hterm hat hm
    unfold Core.rebuildMembership at hb
    rw [hfold] at hb
    simp at hb
  | _ => exact .of_subset (fun _ he => he) rfl

theorem Path.brings (hp : inp.Plain) (h : c.Folded) (hpath : Path inp c u c') :
    c.Brings u c' := by
  induction hpath with
  | nil => exact .of_subset (fun _ he => he) rfl
  | snoc hpath ht _ ih => exact ih.trans (ht.brings hp (hpath.folded hp h))

/-! ### Steps -/

theorem Node.Follows.accounts {r : Node × Update} (hp : inp.Plain) (h : n.Folded)
    (hf : Node.Follows inp n r) : n.Accounts r.2 r.1.toCore :=
  ⟨hf.path.serial h.toFramed, hf.path.brings hp h⟩

/-- **Every step accounts** for its change. -/
theorem Node.accounts_kept :
    Node.Kept Node.Configured (fun n r => n.Accounts r.2 r.1.toCore) where
  ok h := h.ok
  follows hp h hf := ⟨⟨hf.path.folded hp h.folded, hf.ok⟩, hf.accounts hp h.folded⟩
  stands {n n1 u} h hs hu := by
    have hl : n1.log ⊆ n.log ∧ n.log ⊆ n1.log := by
      rw [hs.log]
      exact ⟨fun _ he => he, fun _ he => he⟩
    refine ⟨h.stands hs, .bare hs.commit hs.snapshot hl.2 hu.committed hu.snapshot,
      .of_subset hl.1 ?_⟩
    rw [hu.snapshot]
    exact hs.snapshot
  trans h h' := h.trans h'
  untouched h hu := by
    refine ⟨h.untouched hu, hu.serial, .of_subset ?_ ?_⟩
    · rw [hu.core]
      exact fun _ he => he
    · rw [hu.core, hu.quiet.snapshot]
      rfl

/-! ### Configuration entries -/

theorem foldMembership_decodes {es : List Entry} :
    ∀ {m m' : Membership}, foldMembership m es = .ok m' →
      ∀ e ∈ es, ∃ b, isMembershipEntry e.data = .ok b := by
  induction es with
  | nil => intro m m' _ e he; simp at he
  | cons x rest ih =>
    intro m m' h e he
    rw [foldMembership] at h
    split at h
    · simp at h
    rename_i m₁ hm₁
    rcases List.mem_cons.mp he with rfl | he
    · unfold stepMembership at hm₁
      unfold isMembershipEntry
      cases hd : decodeMembership e.data with
      | error reason => rw [hd] at hm₁; simp at hm₁
      | ok command => exact ⟨_, rfl⟩
    · exact ih h e he

/-- The index of a folded configuration is where it was appended. -/
private theorem foldMembership_index_le {es : List Entry} {k : ℕ} (hes : ∀ e ∈ es, e.index ≤ k) :
    ∀ {m m' : Membership}, foldMembership m es = .ok m' → m.index ≤ k → m'.index ≤ k := by
  induction es with
  | nil =>
    intro m m' h hm
    simp only [foldMembership, Except.ok.injEq] at h
    exact h ▸ hm
  | cons x rest ih =>
    intro m m' h hm
    rw [foldMembership] at h
    split at h
    · simp at h
    rename_i m₁ hm₁
    refine ih (fun e he => hes e (List.mem_cons_of_mem _ he)) h ?_
    unfold stepMembership at hm₁
    split at hm₁
    · simp at hm₁
    · rw [← Except.ok.inj hm₁]
      exact hm
    · rw [applyMembership_index hm₁]
      exact hes x List.mem_cons_self

/-! ### Compaction -/

/-- The configuration at an index the snapshot does not cover. -/
theorem Core.Folded.membershipAt_ok (h : c.Folded) {index : ℕ} (hlo : c.snapshot.index ≤ index) :
    ∃ m, c.membershipAt index = .ok m ∧ m.Normal ∧ m.index ≤ index := by
  have hsplit := h.folded
  rw [← List.takeWhile_append_dropWhile (p := fun e : Entry => decide (e.index ≤ index))
    (l := c.log)] at hsplit
  obtain ⟨m, hm, _⟩ := foldMembership_prefix hsplit
  have hbase : c.baseMembership.index ≤ index := by
    unfold Core.baseMembership
    split
    · exact h.snap_mem_index.trans hlo
    · rw [h.init]
      exact Nat.zero_le _
  refine ⟨m, ?_, ?_, ?_⟩
  · unfold Core.membershipAt
    rw [hm]
  · exact foldMembership_normal (Core.baseMembership_normal h.peers h.init h.snap_mem) hm
  · refine foldMembership_index_le (fun e he => ?_) hm hbase
    simpa using List.mem_takeWhile_imp he

/-- **A committed index can be compacted** if its entry has a term. -/
theorem Node.createSnapshot_ok (h : n.Configured) {index : ℕ} (data : Bytes)
    (hlt : n.snapshot.index < index) (hle : index ≤ n.commit) (ht : n.termAt index ≠ 0) :
    ∃ n' s, n.createSnapshot index data = (n', .ok { snapshot := some s }) ∧ s.index = index
      ∧ n'.Configured ∧ n'.commit = n.commit ∧ n'.log ⊆ n.log ∧ n'.snapshot = s := by
  obtain ⟨m, hm, hn, hi⟩ := h.folded.membershipAt_ok (Nat.le_of_lt hlt)
  have hcompact : (n.createSnapshot index data).2
      = .ok { snapshot := some { index := index, term := n.termAt index, data := data,
                                 membership := m } } := by
    have hv : m.voters.length ≠ 0 := by simpa using hn.voters.nonempty
    obtain ⟨_, hfold⟩ := h.folded.compact_folded
      (s := { index := index, term := n.termAt index, data := data, membership := m })
      hlt rfl hm rfl
    unfold Node.createSnapshot
    rw [hm]
    dsimp only
    unfold Node.compact
    rw [if_neg (by simpa using hlt), if_neg (by simp [ht, hle]), hm]
    dsimp only
    rw [if_neg hv, if_neg (by simpa using hi), if_neg (by simp [equalVoters])]
    unfold Core.rebuildMembership
    rw [hfold]
  rcases Node.createSnapshot_spec h.ok index data with
    ⟨n', e, heq, _⟩ | ⟨_, hge⟩ | ⟨n', s, heq, hsi, htr, hok⟩
  · rw [heq] at hcompact
    simp at hcompact
  · omega
  · have hp : (Input.snapshot index data).Plain := fun _ heq => by cases heq
    have hbr := htr.brings hp h.folded
    refine ⟨n', s, heq, hsi, ⟨htr.folded hp h.folded, hok⟩, ?_, fun e he => ?_, hbr.snapshot⟩
    · obtain ⟨_, _, _, _, _, _, hcommit, _⟩ := htr.compact_spec
      exact hcommit
    · rcases hbr.log e he with he | he
      · exact he
      · simp at he

end Codec

end Lsmdb.Raft

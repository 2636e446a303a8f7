import Lsmdb.Raft.Retention
import Lsmdb.RaftStore.Effects
import Lsmdb.RaftNode.Loop

namespace Lsmdb.RaftNode

open Lsmdb.Raft Lsmdb.RaftStore Stable

/-!
# Raft runtime — updates on their way to the store

While a group of appends is merged the node runs ahead of the store.  `Leads s u d c` says
that persisting `u` takes the store `s` to a mirror of `c`.  It holds of the update of every
operation (`Leads.of_path`), of merged ones (`Leads.merge`), and also when a compaction
reaches the store before the update does (`Leads.compacted`).
-/

/-! ### Updates that lead to a core -/

/-- Why a persist fails without a file operation failing: a configuration entry over
    `MaxEntryBytes`, or a snapshot whose data could not be written. -/
def Excused (u : Update) (d : Option (Except String Bytes)) : Prop :=
  (∃ e ∈ u.entries, hasMembershipPrefix e.data = true ∧ maxEntryBytes < e.data.length)
    ∨ ∃ s e, u.snapshot = some s ∧ boundedWrite (d.getD (.ok s.data)) = .error e

/-- **Persisting `u` takes the store `s` to a mirror of `c`.** -/
structure Leads (s : Stable) (u : Update) (d : Option (Except String Bytes)) (c : Core) :
    Prop where
  persists : Fits u d → Persists s u d c
  newer : ∀ snap, u.snapshot = some snap → s.snapshot.index < snap.index
  size : ∀ e ∈ u.entries, hasMembershipPrefix e.data = false → e.data.length ≤ maxEntryBytes
  backs : ∀ m ∈ u.messages, (stable c).Backs m
  committed : ∀ e ∈ u.committed, e.index ≤ c.commit
  snapshot : ∀ snap, u.snapshot = some snap → snap.index ≤ c.commit

variable {s s' : Stable} {u v : Update} {d : Option (Except String Bytes)} {c c' : Core}

/-- An update that does not fit has an excuse. -/
theorem Leads.excused (h : Leads s u d c) (hf : ¬ Fits u d) : Excused u d := by
  by_contra hex
  simp only [Excused, not_or, not_exists, not_and] at hex
  obtain ⟨hentry, hsnap⟩ := hex
  refine hf ⟨fun e he => ?_, fun snap hs => ?_⟩
  · cases hpre : hasMembershipPrefix e.data with
    | false => exact h.size e he hpre
    | true => exact Nat.le_of_not_lt (hentry e he hpre)
  · have hw := hsnap snap
    cases hd : d.getD (.ok snap.data) with
    | error e => exact absurd (by rw [hd]; rfl) (hw _ hs)
    | ok data =>
      refine ⟨data, rfl, ?_⟩
      by_contra hbig
      refine hw s!"write snapshot data: snapshot exceeds {maxSnapshotData} bytes" hs ?_
      rw [hd]
      exact if_pos (by omega)

theorem Leads.refused (h : Leads s u d c) {e : String} (he : (s.persist u d).2 = some e) :
    Excused u d := by
  refine h.excused (fun hf => ?_)
  obtain ⟨s', hs', _⟩ := h.persists hf
  rw [hs'] at he
  simp at he

theorem Leads.mirrors (h : Leads s u d c) (hp : s.persist u d = (s', none)) : Mirrors s' c := by
  obtain ⟨s1, hs1, hm⟩ := h.persists (persist_fits hp h.newer)
  rw [hp] at hs1
  simp only [Prod.mk.injEq, and_true] at hs1
  rwa [hs1]

section Codec
variable [MembershipJson] {inp : Input}

/-- The update of an operation leads the store to the node. -/
theorem Leads.of_path (hp : inp.Plain) (h : c.WF) (hm : Mirrors s c) (hpath : Path inp c u c') :
    Leads s u d c' := by
  have he := Path.effect hp h hpath
  refine ⟨fun hf => Path.persists hp h hm hpath hf, fun snap hs => ?_, he.size,
    Path.backs hp h hpath, he.committed, fun snap hs => (he.newer snap hs).2⟩
  rw [hm.snapshot]
  exact (he.newer snap hs).1

section
omit [MembershipJson]

theorem Leads.refl (hm : Mirrors s c) : Leads s {} d c := by
  refine ⟨fun _ => ⟨s, ?_, hm⟩, by simp, by simp, by simp, by simp, by simp⟩
  simp [persist, persistHard, persistLog, persistInstall,
    persistTruncate, append]

theorem Leads.mirrors_empty (h : Leads s {} none c) : Mirrors s c := by
  refine h.mirrors ?_
  simp [persist, persistHard, persistLog, persistInstall,
    persistTruncate, append]

/-- The store reads four fields of an update. -/
private theorem persist_congr (s : Stable) {u v : Update} (hh : u.hardState = v.hardState)
    (hs : u.snapshot = v.snapshot) (ht : u.truncateFrom = v.truncateFrom)
    (he : u.entries = v.entries) (d : Option (Except String Bytes)) :
    s.persist u d = s.persist v d := by
  simp only [persist, persistHard, persistLog, persistInstall,
    persistTruncate, hh, hs, ht, he]

/-- The updates that are merged touch nothing but the end of the log. -/
theorem mergeable_quiet (h : mergeable u = true) : u.Quiet ∧ u.roleChanged = false := by
  simp only [mergeable, Bool.and_eq_true, Option.isNone_iff_eq_none, decide_eq_true_eq,
    Bool.not_eq_true'] at h
  obtain ⟨⟨⟨hh, ht⟩, hs⟩, hr⟩ := h
  exact ⟨⟨hh, hs, ht⟩, hr⟩

end

/-- **Merging an update** that only appends. -/
theorem Leads.merge (h : Leads s u none c) (hu : u.Quiet) (hwf : c.WF) (hp : inp.Plain)
    (hpath : Path inp c v c') (hv : v.Quiet) : Leads s (mergeAppend u v) none c' := by
  have he := Path.effect hp hwf hpath
  have hsnap : (mergeAppend u v).snapshot = none := hu.snapshot
  refine ⟨fun hf => ?_, by simp [hsnap], ?_, ?_, ?_, by simp [hsnap]⟩
  · -- persist the part merged so far, then the new one
    have hfu : Fits u none :=
      ⟨fun e he => hf.entries e (List.mem_append_left _ he), by simp [hu.snapshot]⟩
    have hfv : Fits v none :=
      ⟨fun e he => hf.entries e (List.mem_append_right _ he), by simp [hv.snapshot]⟩
    obtain ⟨s1, hs1, hm1⟩ := h.persists hfu
    obtain ⟨s2, hs2, hm2⟩ := Path.persists hp hwf hm1 hpath hfv
    refine ⟨s2, ?_, hm2⟩
    rw [← persist_merge (hv.compatible u) hs1 hs2]
    refine persist_congr s (u := mergeAppend u v) (v := u.merge v) ?_ ?_ ?_ rfl none
    · simp [mergeAppend, hv.hard]
    · simp [mergeAppend, hv.snapshot]
    · simp [mergeAppend, hv.truncate]
  · intro e hmem
    rcases List.mem_append.mp hmem with hmem | hmem
    · exact h.size e hmem
    · exact he.size e hmem
  · intro m hmem
    rcases List.mem_append.mp hmem with hmem | hmem
    · obtain ⟨h1, h2, h3⟩ := he.stable_append hv
      exact (h.backs m hmem).mono h1 h2 h3
    · exact Path.backs hp hwf hpath m hmem
  · intro e hmem
    rcases List.mem_append.mp hmem with hmem | hmem
    · exact (h.committed e hmem).trans he.commit
    · exact he.committed e hmem

omit [MembershipJson] in
theorem mergeAppend_quiet (hu : u.Quiet) (v : Update) : (mergeAppend u v).Quiet :=
  ⟨hu.hard, hu.snapshot, hu.truncate⟩

/-! ### A compaction before the update -/

omit [MembershipJson] in
/-- The entries up to the commit index survive an update without a snapshot. -/
private theorem Effect.kept (he : Effect c u c') (hs : u.snapshot = none) {k : ℕ}
    (hk : c.snapshot.index + k < c.commit) (hlen : k < c.log.length) :
    c'.log[k]? = c.log[k]? := by
  obtain ⟨keep, hle, hl, ht⟩ := he.log hs
  have hkeep : k < keep := by
    rcases ht with ⟨_, rfl⟩ | ⟨_, hc⟩
    · exact hlen
    · omega
  rw [hl, List.getElem?_append_left (by rw [List.length_take]; omega),
    List.getElem?_take_of_lt hkeep]

/-- **A compaction that reaches the store first.**  The node took `u` from `c` to `c₂` and was
    then compacted at a position the store had committed before `u`; the store is compacted
    before it sees `u`, and `u` still leads it to the node. -/
theorem Leads.compacted {c₂ : Core} {index : ℕ} {data bytes : Bytes} {snap : Snapshot}
    (hp : inp.Plain) (hwf : c.WF) (hm : Mirrors s c) (hpath : Path inp c u c₂)
    (hu : u.OnlyReplies)
    (ht : Trans (.snapshot index data) c₂ { snapshot := some snap } c') (hle : snap.index ≤ c.commit) :
    s.Boundary snap ∧ Leads (s.compacted snap bytes) u none c' := by
  have he := Path.effect hp hwf hpath
  obtain ⟨hlt, _, hterm0, hterm, hsnap', hhard', hcommit', hlog'⟩ := ht.compact_spec
  have hsn : c₂.snapshot = c.snapshot := by rw [he.snapshot, hu.snapshot]; rfl
  have hsi : s.snapshot.index = c.snapshot.index := by rw [hm.snapshot]
  rw [hsn] at hlt hlog'
  have hhi : snap.index ≤ c.lastIndex := hle.trans hwf.commit_hi
  -- the entry at the boundary is the same before and after the update
  have hb : s.Boundary snap := by
    obtain ⟨e, hget, htm⟩ := c₂.exists_of_termAt (j := snap.index) (by rw [hsn]; exact hlt)
      (hle.trans (he.commit.trans (hpath.wf hp hwf).commit_hi))
    refine ⟨by rw [hsi]; exact hlt, ⟨e, ?_, by rw [← htm, hterm]⟩, hterm0⟩
    rw [hsi, hm.entries, ← hget, hsn]
    simp only [Core.lastIndex] at hhi
    exact (Effect.kept he hu.snapshot (by omega) (by omega)).symm
  refine ⟨hb, fun hf => ?_, by simp [hu.snapshot], he.size, fun m hmem => ?_, ?_,
    by simp [hu.snapshot]⟩
  · obtain ⟨s2, hs2, hm2⟩ := Path.persists hp hwf hm hpath hf
    have htf : u.truncateFrom = 0 ∨ snap.index < u.truncateFrom := by
      obtain ⟨keep, _, _, hcut⟩ := he.log hu.snapshot
      rcases hcut with ⟨h0, _⟩ | ⟨htf, hc⟩
      · exact .inl h0
      · right; omega
    obtain ⟨hpers, _⟩ := persist_install_comm hb hu.snapshot htf hs2
    refine ⟨_, hpers, ?_⟩
    have hsi2 : s2.snapshot.index = c.snapshot.index := by rw [hm2.snapshot, hsn]
    refine ⟨by rw [hhard']; exact hm2.hard, by rw [hsnap']; rfl, ?_⟩
    show s2.entries.drop (snap.index - s2.snapshot.index) = c'.log
    rw [hsi2, hm2.entries, hlog']
  · -- answers do not mention what was compacted
    obtain ⟨htype, hent, hsnm⟩ := hu.messages m hmem
    have hbk := Path.backs hp hwf hpath m hmem
    refine ⟨fun h1 h2 => ?_, by simp [htype], by simp [htype], by simp [htype], by simp [htype],
      by simp [hent], fun h1 h2 => ?_, by simp [hsnm], by simp [htype]⟩
    · show m.term = c'.hardState.term
      rw [hhard']
      exact hbk.term h1 h2
    · have hack : m.logIndex ≤ c₂.snapshot.index + c₂.log.length := hbk.acknowledged h1 h2
      show m.logIndex ≤ c'.snapshot.index + c'.log.length
      have hlast := (hpath.wf hp hwf).commit_hi
      have hcm := he.commit
      rw [hsn] at hack
      simp only [Core.lastIndex, hsn] at hlast
      rw [hsnap', hlog', List.length_drop]
      omega
  · intro e hmem
    rw [hcommit']
    exact he.committed e hmem

end Codec

end Lsmdb.RaftNode

import Lsmdb.RaftStore.Compaction

namespace Lsmdb.RaftStore

open Lsmdb.Raft

/-!
# Raft store — what an update says about the core

`Effect` reads the new durable state of a core off the old one and the update, for a whole
operation at once; `Stable.Backs` says what a message may reflect of a store.  The two main
results are `Path.effect` and `Path.backs`: a message of an update is backed by the store that
the update leaves behind.
-/

/-! ### The durable state after an update -/

/-- **What an update does** to the durable part of a core. -/
structure Effect (c : Core) (u : Update) (c' : Core) : Prop where
  hard : c'.hardState = u.hardState.getD c.hardState
  snapshot : c'.snapshot = u.snapshot.getD c.snapshot
  newer : ∀ s, u.snapshot = some s → c.snapshot.index < s.index ∧ s.index ≤ c'.commit
  commit : c.commit ≤ c'.commit
  committed : ∀ e ∈ u.committed, e.index ≤ c'.commit
  log : u.snapshot = none → ∃ keep ≤ c.log.length, c'.log = c.log.take keep ++ u.entries
    ∧ ((u.truncateFrom = 0 ∧ keep = c.log.length)
      ∨ (u.truncateFrom = c.snapshot.index + keep + 1 ∧ c.commit ≤ c.snapshot.index + keep))
  size : ∀ e ∈ u.entries, hasMembershipPrefix e.data = false → e.data.length ≤ maxEntryBytes

section Codec
variable [MembershipJson] {inp : Input} {c c' c'' : Core} {u v : Update}

section
omit [MembershipJson]

/-- A change that the durable state does not see. -/
private theorem Effect.silent (hh : c'.hardState = c.hardState) (hs : c'.snapshot = c.snapshot)
    (hl : c'.log = c.log) (hc : c'.commit = c.commit) (hu : u.hardState = none)
    (hus : u.snapshot = none) (hut : u.truncateFrom = 0) (hue : u.entries = [])
    (huc : u.committed = []) : Effect c u c' where
  hard := by rw [hu]; exact hh
  snapshot := by rw [hus]; exact hs
  newer := by rw [hus]; simp
  commit := by rw [hc]
  committed := by rw [huc]; simp
  log := fun _ => ⟨c.log.length, Nat.le_refl _, by simp [hl, hue], .inl ⟨hut, rfl⟩⟩
  size := by rw [hue]; simp

private theorem Effect.vote {hs : HardState} (b : Bool) (hh : c'.hardState = hs)
    (hsn : c'.snapshot = c.snapshot) (hl : c'.log = c.log) (hc : c'.commit = c.commit) :
    Effect c { hardState := some hs, roleChanged := b } c' where
  hard := hh
  snapshot := hsn
  newer := by simp
  commit := by rw [hc]
  committed := by simp
  log := fun _ => ⟨c.log.length, Nat.le_refl _, by simp [hl], .inl ⟨rfl, rfl⟩⟩
  size := by simp

private theorem Effect.entry {e : Entry} (hh : c'.hardState = c.hardState)
    (hs : c'.snapshot = c.snapshot) (hl : c'.log = c.log ++ [e]) (hc : c'.commit = c.commit)
    (hsz : hasMembershipPrefix e.data = false → e.data.length ≤ maxEntryBytes) :
    Effect c { entries := [e] } c' where
  hard := hh
  snapshot := hs
  newer := by simp
  commit := by rw [hc]
  committed := by simp
  log := fun _ => ⟨c.log.length, Nat.le_refl _, by simp [hl], .inl ⟨rfl, rfl⟩⟩
  size := by simpa using hsz

end

/-- The entries handed over when the commit index moves to `k`. -/
private theorem Effect.advance (h : c.WF) {k : ℕ} (hk : c.commit < k)
    (hc : c' = { c with commit := k }) :
    Effect c { committed := c.entriesBetween (c.commit + 1) (k + 1) } c' where
  hard := by rw [hc]; rfl
  snapshot := by rw [hc]; rfl
  newer := by simp
  commit := by rw [hc]; exact Nat.le_of_lt hk
  committed := by
    intro e he
    rw [hc]
    have hlo := h.commit_lo
    unfold Core.entriesBetween at he
    split at he
    · simp at he
    obtain ⟨j, hj, hje⟩ := List.getElem_of_mem he
    have hlen := hj
    rw [List.length_take] at hlen
    have hget : c.log[c.commit + 1 - c.snapshot.index - 1 + j]? = some e := by
      rw [← hje, List.getElem_take, List.getElem_drop]
      exact List.getElem?_eq_getElem _
    have := h.index _ e hget
    show e.index ≤ k
    omega
  log := fun _ => ⟨c.log.length, Nat.le_refl _, by simp [hc], .inl ⟨rfl, rfl⟩⟩
  size := by simp

omit [MembershipJson] in
private theorem Effect.snapshotted {s : Snapshot} (hh : c'.hardState = c.hardState)
    (hs : c'.snapshot = s) (hlt : c.snapshot.index < s.index) (hle : s.index ≤ c'.commit)
    (hc : c.commit ≤ c'.commit) : Effect c { snapshot := some s } c' where
  hard := hh
  snapshot := hs
  newer := by
    intro s' hs'
    simp only [Option.some.injEq] at hs'
    subst hs'
    exact ⟨hlt, hle⟩
  commit := hc
  committed := by simp
  log := by simp
  size := by simp

/-- **The effect of an elementary transition.** -/
theorem Trans.effect (h : c.WF) (ht : Trans inp c u c') : Effect c u c' := by
  cases ht with
  | adopt t ht => exact .vote true rfl rfl rfl rfl
  | stepDown => exact .silent rfl rfl rfl rfl rfl rfl rfl rfl rfl
  | preCampaign => exact .silent rfl rfl rfl rfl rfl rfl rfl rfl rfl
  | countPreVote peer granted hr => exact .silent rfl rfl rfl rfl rfl rfl rfl rfl rfl
  | campaign => exact .vote true rfl rfl rfl rfl
  | countVote m hr hmr => exact .silent rfl rfl rfl rfl rfl rfl rfl rfl rfl
  | win hr hq => exact .silent rfl rfl rfl rfl rfl rfl rfl rfl rfl
  | grant m hmr hv hup => exact .vote false rfl rfl rfl rfl
  | propose data hr hd hlen => exact .entry rfl rfl rfl rfl (fun _ => hlen)
  | reconfigure core command hr hc hrb =>
    obtain ⟨m, _, rfl⟩ := Core.rebuildMembership_eq hrb
    refine .entry rfl rfl rfl rfl (fun hpre => ?_)
    rw [show hasMembershipPrefix (encodeMembership command) = true from
      hasMembershipPrefix_append _] at hpre
    simp at hpre
  | orphan command e hr hc hrb =>
    obtain ⟨m, hfold, _⟩ := h.rebuild_ok (c.lastIndex + 1) c.term hc
    unfold Core.rebuildMembership at hrb
    rw [show ({ c with log := c.log ++ [{ index := c.lastIndex + 1, term := c.term,
                                          data := encodeMembership command }] } :
      Core).baseMembership = c.baseMembership from rfl, hfold] at hrb
    simp at hrb
  | acknowledge type m hmr ht hr hrej hlt => exact .silent rfl rfl rfl rfl rfl rfl rfl rfl rfl
  | commit k hr hk hle ht hq => exact .advance h hk rfl
  | splice core m keep tf entries hmr hr hwf hle ht hs ha =>
    have hat := Core.spliceAt h.commit_lo hwf hle hs
    obtain ⟨mem, rfl, _⟩ := Core.applySplice_eq ha
    refine ⟨rfl, rfl, by simp, Nat.le_refl _, by simp, fun _ => ?_,
      fun e he _ => (hat.entry e he).2.2⟩
    refine ⟨keep, hat.keep_le, rfl, ?_⟩
    rcases hat.cut with ⟨htf, hk⟩ | ⟨htf, _⟩
    · exact .inl ⟨htf, hk⟩
    · exact .inr ⟨htf, hat.commit_le h.commit_hi⟩
  | learn m k hmr hr hwf hh hk hlt => exact .advance h hlt rfl
  | install core m sent hmr hr hs hi ht hv hmi hlt hcommit hb =>
    obtain ⟨mem, _, rfl⟩ := Core.rebuildMembership_eq hb
    exact .snapshotted rfl rfl hlt (Nat.le_max_right _ _) (Nat.le_max_left _ _)
  | compact core snap m data hi hd hlt hle ht hterm hat hmm hmi hb =>
    obtain ⟨mem, _, rfl⟩ := Core.rebuildMembership_eq hb
    exact .snapshotted rfl rfl hlt hle (Nat.le_refl _)
  | halfCompact snap m data e hi hd hlt hle ht hterm hat hmm hmi hb =>
    obtain ⟨_, hfold⟩ := h.compact_folded hlt hterm hat hmm
    unfold Core.rebuildMembership at hb
    rw [hfold] at hb
    simp at hb
  | send ms hms => exact .silent rfl rfl rfl rfl rfl rfl rfl rfl rfl
  | drop reason => exact .silent rfl rfl rfl rfl rfl rfl rfl rfl rfl

section
omit [MembershipJson]

theorem Effect.refl (c : Core) : Effect c {} c := .silent rfl rfl rfl rfl rfl rfl rfl rfl rfl

theorem Effect.snapshot_le (h : Effect c u c') : c.snapshot.index ≤ c'.snapshot.index := by
  rw [h.snapshot]
  cases hu : u.snapshot with
  | none => exact Nat.le_refl _
  | some s => exact Nat.le_of_lt (h.newer s hu).1

/-- **Effects compose** like the updates they belong to. -/
theorem Effect.trans (h₁ : Effect c u c') (h₂ : Effect c' v c'') (hc : Compatible u v) :
    Effect c (u.merge v) c'' := by
  refine ⟨?_, ?_, ?_, h₁.commit.trans h₂.commit, ?_, ?_, ?_⟩
  · rw [h₂.hard, h₁.hard, Update.merge_hardState]
    cases v.hardState <;> cases u.hardState <;> rfl
  · rw [h₂.snapshot, h₁.snapshot, Update.merge_snapshot]
    cases v.snapshot <;> cases u.snapshot <;> rfl
  · intro s hs
    rw [Update.merge_snapshot] at hs
    cases hv : v.snapshot with
    | none =>
      rw [hv] at hs
      obtain ⟨hlt, hle⟩ := h₁.newer s hs
      exact ⟨hlt, hle.trans h₂.commit⟩
    | some s' =>
      rw [hv] at hs
      simp only [Option.some_or, Option.some.injEq] at hs
      subst hs
      obtain ⟨hlt, hle⟩ := h₂.newer _ hv
      exact ⟨Nat.lt_of_le_of_lt h₁.snapshot_le hlt, hle⟩
  · intro e he
    rcases List.mem_append.mp he with he | he
    · exact (h₁.committed e he).trans h₂.commit
    · exact h₂.committed e he
  · intro hs
    have hus : u.snapshot = none := by
      rw [Update.merge_snapshot] at hs
      cases hv : v.snapshot with
      | none => rw [hv] at hs; exact hs
      | some s => rw [hv] at hs; simp at hs
    have hvs : v.snapshot = none := by
      rw [Update.merge_snapshot] at hs
      cases hv : v.snapshot with
      | none => rfl
      | some s => rw [hv] at hs; simp at hs
    obtain ⟨k₁, hk₁, hl₁, ht₁⟩ := h₁.log hus
    obtain ⟨k₂, hk₂, hl₂, ht₂⟩ := h₂.log hvs
    have hsn : c'.snapshot = c.snapshot := by rw [h₁.snapshot, hus]; rfl
    rcases hc.log with ⟨_, hvt⟩ | ⟨_, hut, hue⟩
    · -- the second update only appends
      have hk : k₂ = c'.log.length := by
        rcases ht₂ with ⟨_, hk⟩ | ⟨ht, _⟩
        · exact hk
        · omega
      refine ⟨k₁, hk₁, ?_, ?_⟩
      · rw [hl₂, hk, List.take_length, hl₁, List.append_assoc]
        rfl
      · simpa [Update.merge, hvt] using ht₁
    · -- the first update leaves the log alone
      have hk : k₁ = c.log.length := by
        rcases ht₁ with ⟨_, hk⟩ | ⟨ht, _⟩
        · exact hk
        · omega
      have hlog : c'.log = c.log := by rw [hl₁, hk, hue, List.take_length, List.append_nil]
      rw [hlog] at hk₂ hl₂ ht₂
      rw [hsn] at ht₂
      refine ⟨k₂, hk₂, by rw [hl₂, Update.merge_entries, hue, List.nil_append], ?_⟩
      have hcm := h₁.commit
      rcases ht₂ with ⟨ht, hk⟩ | ⟨ht, hk⟩
      · exact .inl ⟨by simp [Update.merge, ht, hut], hk⟩
      · refine .inr ⟨?_, hcm.trans hk⟩
        rw [Update.merge_truncateFrom, if_pos (by omega), ht]
  · intro e he
    rcases List.mem_append.mp he with he | he
    · exact h₁.size e he
    · exact h₂.size e he

end

/-- **The effect of an operation.** -/
theorem Path.effect (hp : inp.Plain) (h : c.WF) (hpath : Path inp c u c') : Effect c u c' := by
  induction hpath with
  | nil => exact .refl _
  | snoc hpre ht hc ih => exact ih.trans (Trans.effect (hpre.wf hp h) ht) hc

/-! ### What a message reflects -/

omit [MembershipJson] in
/-- The store of a core, without snapshot data. -/
def stable (c : Core) : Stable where
  hard := c.hardState
  snapshot := { c.snapshot with data := [] }
  entries := c.log

/-- The store knows the term at a log position: it is the snapshot boundary or an entry. -/
def Stable.Knows (s : Stable) (index term : ℕ) : Prop :=
  (index = s.snapshot.index ∧ term = s.snapshot.term)
    ∨ ∃ e ∈ s.entries, e.index = index ∧ e.term = term

/-- **A message reflects only what the store holds**: its term, the vote it asks for or grants,
    the log position it compares, the entries and the snapshot it carries, and the log it
    acknowledges.  A pre-vote names the term after the stored one; the answer to a pre-vote
    echoes the asker's term and says nothing about the log. -/
structure Stable.Backs (s : Stable) (m : Message) : Prop where
  term : m.type ≠ .preVote → m.type ≠ .preVoteResponse → m.term = s.hard.term
  preVote : m.type = .preVote → m.term = s.hard.term + 1
  vote : m.type = .vote → s.hard.votedFor = m.fromID
  grant : m.type = .voteResponse → m.reject = false → s.hard.votedFor = m.toID
  log : m.type = .vote ∨ m.type = .preVote ∨ m.type = .append → s.Knows m.logIndex m.logTerm
  entries : ∀ e ∈ m.entries, e ∈ s.entries
  acknowledged : m.type = .appendResponse → m.reject = false →
    m.logIndex ≤ s.snapshot.index + s.entries.length
  snapshot : ∀ sent, m.snapshot = some sent → { sent with data := [] } = s.snapshot
  installed : m.type = .snapshotResponse → m.reject = false → m.logIndex = s.snapshot.index

omit [MembershipJson] in
/-- What is backed stays backed by a store with more entries. -/
theorem Stable.Backs.mono {s s' : Stable} {m : Message} (h : s.Backs m) (hh : s'.hard = s.hard)
    (hs : s'.snapshot = s.snapshot) {es : List Entry} (he : s'.entries = s.entries ++ es) :
    s'.Backs m := by
  refine ⟨by rw [hh]; exact h.term, by rw [hh]; exact h.preVote, by rw [hh]; exact h.vote,
    by rw [hh]; exact h.grant, fun ht => ?_, fun e hm => ?_, fun ht hr => ?_,
    by rw [hs]; exact h.snapshot, by rw [hs]; exact h.installed⟩
  · rcases h.log ht with hb | ⟨e, hm, hi, hk⟩
    · exact .inl (by rw [hs]; exact hb)
    · exact .inr ⟨e, by rw [he]; exact List.mem_append_left _ hm, hi, hk⟩
  · rw [he]
    exact List.mem_append_left _ (h.entries e hm)
  · have := h.acknowledged ht hr
    rw [hs, he, List.length_append]
    omega

omit [MembershipJson] in
theorem Mirrors.backs {s : Stable} {m : Message} (h : Mirrors s c) (hb : (stable c).Backs m) :
    s.Backs m :=
  @Stable.Backs.mono (stable c) s m hb h.hard h.snapshot [] (by rw [List.append_nil]; exact h.entries)

/-- A well-formed core's store knows every term the core reports. -/
private theorem knows_termAt (h : c.WF) {k : ℕ} (hlo : c.snapshot.index ≤ k)
    (hhi : k ≤ c.lastIndex) : (stable c).Knows k (c.termAt k) := by
  rcases Nat.eq_or_lt_of_le hlo with heq | hlt
  · left
    refine ⟨heq.symm, ?_⟩
    show c.termAt k = c.snapshot.term
    unfold Core.termAt
    split
    · rename_i h0
      exact (h.snap_zero.mp (by omega)).symm
    · rw [if_pos heq.symm]
  · right
    obtain ⟨e, he, ht⟩ := c.exists_of_termAt hlt hhi
    refine ⟨e, List.mem_of_getElem? he, ?_, ht.symm⟩
    have := h.index _ e he
    omega

theorem Emits.backs (h : c.WF) {m : Message} (hm : Emits inp c m) : (stable c).Backs m := by
  have hlast : c.snapshot.index ≤ c.lastIndex := Nat.le_add_right _ _
  cases hm with
  | preVote peer =>
    exact ⟨by simp, fun _ => rfl, by simp, by simp,
      fun _ => knows_termAt h hlast (Nat.le_refl _), by simp, by simp, by simp, by simp⟩
  | preVoteGrant m hi ht =>
    exact ⟨by simp, by simp, by simp, by simp, by simp, by simp, by simp, by simp, by simp⟩
  | vote peer hr =>
    exact ⟨fun _ _ => rfl, by simp, fun _ => h.self hr, by simp,
      fun _ => knows_termAt h hlast (Nat.le_refl _), by simp, by simp, by simp, by simp⟩
  | voteGrant m hi hv =>
    exact ⟨fun _ _ => rfl, by simp, by simp, fun _ _ => hv, by simp, by simp, by simp, by simp,
      by simp⟩
  | append peer prev context origin entries hr hlo hhi he hc =>
    refine ⟨fun _ _ => rfl, by simp, by simp, by simp, fun _ => knows_termAt h hlo hhi,
      fun e hm => ?_, by simp, by simp, by simp⟩
    exact List.mem_of_mem_drop (he.subset hm)
  | appended m hi hr hh =>
    exact ⟨fun _ _ => rfl, by simp, by simp, by simp, by simp, by simp, fun _ _ => hh.last,
      by simp, by simp⟩
  | snapshot peer origin hr h0 =>
    refine ⟨fun _ _ => rfl, by simp, by simp, by simp, by simp, by simp, by simp,
      fun sent hs => ?_, by simp⟩
    simp only [Option.some.injEq] at hs
    rw [← hs]
    rfl
  | installed m hi hr =>
    exact ⟨fun _ _ => rfl, by simp, by simp, by simp, by simp, by simp, by simp, by simp,
      fun _ _ => rfl⟩
  | reject type peer hint ht =>
    -- a rejection reflects its term only
    refine ⟨fun _ _ => rfl, fun h' => ?_, fun h' => ?_, by simp, fun h' => ?_, by simp, by simp,
      by simp, by simp⟩
    · rcases ht with rfl | rfl | rfl | rfl <;> simp at h'
    · rcases ht with rfl | rfl | rfl | rfl <;> simp at h'
    · rcases ht with rfl | rfl | rfl | rfl <;> simp at h'

omit [MembershipJson] in
/-- After an update that only appends, the store has grown by its entries. -/
theorem Effect.stable_append (h : Effect c u c') (hq : u.Quiet) :
    (stable c').hard = (stable c).hard ∧ (stable c').snapshot = (stable c).snapshot
      ∧ (stable c').entries = (stable c).entries ++ u.entries := by
  have hs : c'.snapshot = c.snapshot := by rw [h.snapshot, hq.snapshot]; rfl
  obtain ⟨keep, _, hl, ht⟩ := h.log hq.snapshot
  have hk : keep = c.log.length := by
    rcases ht with ⟨_, hk⟩ | ⟨ht, _⟩
    · exact hk
    · have := hq.truncate
      omega
  refine ⟨by show c'.hardState = c.hardState; rw [h.hard, hq.hard]; rfl,
    by simp only [stable]; rw [hs], ?_⟩
  show c'.log = c.log ++ u.entries
  rw [hl, hk, List.take_length]

/-- **The messages of an operation** are backed by the store its update leaves behind. -/
theorem Path.backs (hp : inp.Plain) (h : c.WF) (hpath : Path inp c u c') :
    ∀ m ∈ u.messages, (stable c').Backs m := by
  induction hpath with
  | nil => simp
  | snoc hpre ht hc ih =>
    have hwf := hpre.wf hp h
    intro m hm
    rcases List.mem_append.mp hm with hm | hm
    · -- nothing but appends may follow a message
      rcases hc.sent with hnil | ⟨hh, hs, htf⟩
      · rw [hnil] at hm
        simp at hm
      · obtain ⟨h1, h2, h3⟩ := (Trans.effect hwf ht).stable_append ⟨hh, hs, htf⟩
        exact (ih m hm).mono h1 h2 h3
    · cases ht with
      | send ms hms => exact Emits.backs hwf (hms m hm)
      | _ => simp at hm

end Codec

end Lsmdb.RaftStore

import Lsmdb.Raft.Outstanding

namespace Lsmdb.Raft

open List

/-!
# Raft core — a correct leader is never dropped as malformed

`malformedAppend` drops an append without an answer, so what a leader sends has to pass it.
The check is on the message: consecutive indexes, terms that are not zero, do not decrease
from `LogTerm` and do not exceed the message's term, and data within `MaxEntryBytes`.  What
makes it pass is the shape of the sender's own log, `Core.Orderly`.

The shape is an invariant of the elementary transitions (`Trans.regular`).  A splice keeps it
because the same check has let the entries in and because the log agrees with the message
before the first new one; a compaction keeps it because it drops a prefix; a new entry has the
node's own term.  An election must not wrap the term around: the entries of a leader in term
zero are malformed.
-/

variable [MembershipJson]

/-! ### The terms of a history -/

section
omit [MembershipJson]

/-- The terms of what a core holds: that of its snapshot, then those of the retained entries. -/
def Core.terms (c : Core) : List ℕ := c.snapshot.term :: c.log.map Entry.term

/-- **An orderly log**: contiguous from the snapshot on, with terms that are not zero, never
    decrease from that of the snapshot and never exceed the node's, and data of legal size. -/
structure Core.Orderly (c : Core) : Prop where
  index : ∀ (i : ℕ) (e : Entry), c.log[i]? = some e → e.index = c.snapshot.index + 1 + i
  term_ne : ∀ e ∈ c.log, e.term ≠ 0
  rising : c.terms.Pairwise (· ≤ ·)
  term_le : ∀ t ∈ c.terms, t ≤ c.term
  size : ∀ e ∈ c.log, e.data.length ≤ maxEntryBytes

/-- What every transition keeps.  Of the sizes, only configuration entries are left out: no
    transition looks at theirs. -/
structure Core.Regular (c : Core) : Prop extends Core.Framed c where
  snap_zero : c.snapshot.index = 0 → c.snapshot.term = 0
  term_ne : ∀ e ∈ c.log, e.term ≠ 0
  rising : c.terms.Pairwise (· ≤ ·)
  term_le : ∀ t ∈ c.terms, t ≤ c.term
  plain : ∀ e ∈ c.log, hasMembershipPrefix e.data = false → e.data.length ≤ maxEntryBytes
  active : c.role = .leader ∨ c.role = .candidate → 0 < c.term

end

section Terms
variable {c c' : Core} {m : Message}

section
omit [MembershipJson]

/-- From position `d` on, the history starts with the term at that index. -/
theorem Core.terms_drop (hz : c.snapshot.index = 0 → c.snapshot.term = 0) {d : ℕ}
    (hd : d ≤ c.log.length) :
    c.terms.drop d = c.termAt (c.snapshot.index + d) :: (c.log.drop d).map Entry.term := by
  cases d with
  | zero =>
    have hterm : c.termAt c.snapshot.index = c.snapshot.term := by
      unfold Core.termAt
      split
      · rename_i h0
        exact (hz h0).symm
      · rw [if_pos rfl]
    rw [Nat.add_zero, hterm]
    rfl
  | succ d =>
    have hget := getElem?_eq_getElem (Nat.lt_of_succ_le hd)
    have hterm := c.termAt_log hget
    rw [← Nat.add_assoc, hterm]
    unfold Core.terms
    rw [drop_succ_cons, ← map_drop, drop_eq_getElem_cons (Nat.lt_of_succ_le hd)]
    rfl

theorem Core.Regular.le_termAt (h : c.Regular) {d t : ℕ} (hd : d ≤ c.log.length)
    (ht : t ∈ c.terms.take (d + 1)) : t ≤ c.termAt (c.snapshot.index + d) := by
  have hsplit := h.rising
  rw [← take_append_drop d c.terms, Core.terms_drop h.snap_zero hd] at hsplit
  rw [← take_append_drop d (c.terms.take (d + 1)), take_take,
    Nat.min_eq_left (Nat.le_succ d), drop_take, Nat.add_sub_cancel_left,
    Core.terms_drop h.snap_zero hd] at ht
  rcases mem_append.mp ht with ht | ht
  · exact (pairwise_append.mp hsplit).2.2 t ht _ mem_cons_self
  · rw [take_succ_cons, take_zero, mem_singleton] at ht
    exact Nat.le_of_eq ht

theorem Core.Regular.termAt_le (h : c.Regular) (i : ℕ) : c.termAt i ≤ c.term := by
  unfold Core.termAt
  split
  · exact Nat.zero_le _
  split
  · exact h.term_le _ mem_cons_self
  split
  · exact Nat.zero_le _
  cases hget : c.log[i - c.snapshot.index - 1]? with
  | none => exact Nat.zero_le _
  | some e =>
    exact h.term_le _ (mem_cons_of_mem _ (mem_map_of_mem (mem_of_getElem? hget)))

end

/-! ### Appends that pass -/

section
omit [MembershipJson]

private theorem malformedFrom_rising (m : Message) (es : List Entry) :
    ∀ i previous, malformedFrom m i previous es = none →
      (previous :: es.map Entry.term).Pairwise (· ≤ ·) := by
  induction es with
  | nil => exact fun _ _ _ => pairwise_singleton _ _
  | cons a rest ih =>
    intro i previous h
    unfold malformedFrom at h
    dsimp only at h
    split at h
    · cases h
    split at h
    · cases h
    split at h
    · cases h
    split at h
    · cases h
    split at h
    · cases h
    split at h
    · cases h
    rename_i hge
    have hrest := ih (i + 1) a.term h
    rw [map_cons, pairwise_cons]
    refine ⟨fun t ht => ?_, hrest⟩
    rcases mem_cons.mp ht with rfl | ht
    · exact Nat.le_of_not_lt hge
    · exact (Nat.le_of_not_lt hge).trans ((pairwise_cons.mp hrest).1 t ht)

/-- The terms of an append that passes the check do not decrease from `LogTerm`. -/
theorem malformedAppend_rising (h : malformedAppend m = none) :
    (m.logTerm :: m.entries.map Entry.term).Pairwise (· ≤ ·) :=
  malformedFrom_rising m m.entries 0 m.logTerm h

private theorem malformedFrom_none (m : Message) (es : List Entry) :
    ∀ i previous, (∀ (k : ℕ) (e : Entry), es[k]? = some e → m.EntryOk (i + k) e) →
      (previous :: es.map Entry.term).Pairwise (· ≤ ·) → malformedFrom m i previous es = none := by
  induction es with
  | nil => exact fun _ _ _ _ => rfl
  | cons a rest ih =>
    intro i previous hok hrise
    have ha := hok 0 a rfl
    have hle : previous ≤ a.term := (pairwise_cons.mp hrise).1 a.term mem_cons_self
    have hindex := ha.index
    unfold malformedFrom
    dsimp only
    rw [if_neg (by omega), if_neg ha.term_ne, if_neg (Nat.not_lt.mpr ha.size),
      if_neg (Nat.not_lt.mpr ha.term_le), if_neg (by omega), if_neg (by omega)]
    apply ih (i + 1) a.term
    · intro k e he
      have hnext := hok (k + 1) e he
      rwa [show i + (k + 1) = i + 1 + k by omega] at hnext
    · exact (pairwise_cons.mp hrise).2

/-- **The check is complete**: entries in order, of legal terms and sizes, pass. -/
theorem malformedAppend_none (hok : ∀ (k : ℕ) (e : Entry), m.entries[k]? = some e → m.EntryOk k e)
    (hrise : (m.logTerm :: m.entries.map Entry.term).Pairwise (· ≤ ·)) :
    malformedAppend m = none :=
  malformedFrom_none m m.entries 0 m.logTerm (by simpa only [Nat.zero_add] using hok) hrise

/-- **What a regular node sends passes**, as long as its entries have legal sizes. -/
theorem Core.Regular.emits (h : c.Regular) {inp : Input} (hm : Emits inp c m)
    (htype : m.type = .append) (hsize : ∀ e ∈ m.entries, e.data.length ≤ maxEntryBytes) :
    malformedAppend m = none := by
  cases hm with
  | append peer prev context origin entries hr hlo hhi he hc =>
    have hd : prev - c.snapshot.index ≤ c.log.length := by
      unfold Core.lastIndex at hhi
      omega
    have hat : c.snapshot.index + (prev - c.snapshot.index) = prev := by omega
    have hsuffix := h.rising.sublist (drop_sublist (prev - c.snapshot.index) c.terms)
    rw [Core.terms_drop h.snap_zero hd, hat] at hsuffix
    apply malformedAppend_none
    · intro k e hk
      have hget : c.log[prev - c.snapshot.index + k]? = some e := by
        obtain ⟨tail, htail⟩ := he
        rw [← getElem?_drop, ← htail,
          List.getElem?_append_left (List.getElem?_eq_some_iff.mp hk).1]
        exact hk
      have hmem := mem_of_getElem? hget
      have hindex := h.index _ e hget
      refine ⟨?_, h.term_ne e hmem, h.term_le _ ?_, hsize e (mem_of_getElem? hk)⟩
      · show e.index = prev + k + 1
        omega
      · exact mem_cons_of_mem _ (mem_map_of_mem hmem)
    · exact hsuffix.sublist ((he.sublist.map Entry.term).cons_cons _)
  | reject type peer hint ht =>
    simp only at htype
    rw [htype] at ht
    rcases ht with ht | ht | ht | ht <;> cases ht
  | _ => cases htype

end

/-! ### Keeping the shape -/

section
omit [MembershipJson]

theorem Core.Regular.of_same (h : c.Regular) (hf : c'.Framed) (hs : c'.snapshot = c.snapshot)
    (hl : c'.log = c.log) (ht : c.term ≤ c'.term)
    (ha : c'.role = .leader ∨ c'.role = .candidate → 0 < c'.term) : c'.Regular where
  toFramed := hf
  snap_zero := by
    rw [hs]
    exact h.snap_zero
  term_ne := by
    rw [hl]
    exact h.term_ne
  rising := by
    unfold Core.terms
    rw [hs, hl]
    exact h.rising
  term_le t hmem := by
    unfold Core.terms at hmem
    rw [hs, hl] at hmem
    exact (h.term_le t hmem).trans ht
  plain := by
    rw [hl]
    exact h.plain
  active := ha

theorem Core.Regular.of_snoc (h : c.Regular) (hf : c'.Framed) {e : Entry}
    (hs : c'.snapshot = c.snapshot) (hl : c'.log = c.log ++ [e]) (ht : c'.term = c.term)
    (he : e.term = c.term) (hpos : 0 < c.term)
    (hsize : hasMembershipPrefix e.data = false → e.data.length ≤ maxEntryBytes) : c'.Regular := by
  have hterms : c'.terms = c.terms ++ [e.term] := by
    unfold Core.terms
    rw [hs, hl, map_append]
    rfl
  refine ⟨hf, ?_, ?_, ?_, ?_, ?_, ?_⟩
  · rw [hs]
    exact h.snap_zero
  · intro x hx
    rw [hl] at hx
    rcases mem_append.mp hx with hx | hx
    · exact h.term_ne x hx
    · rw [mem_singleton.mp hx, he]
      exact Nat.ne_of_gt hpos
  · rw [hterms, pairwise_append]
    refine ⟨h.rising, pairwise_singleton _ _, fun a ha b hb => ?_⟩
    rw [mem_singleton.mp hb, he]
    exact h.term_le a ha
  · intro t hmem
    rw [hterms] at hmem
    rw [ht]
    rcases mem_append.mp hmem with hmem | hmem
    · exact h.term_le t hmem
    · rw [mem_singleton.mp hmem, he]
  · intro x hx
    rw [hl] at hx
    rcases mem_append.mp hx with hx | hx
    · exact h.plain x hx
    · rw [mem_singleton.mp hx]
      exact hsize
  · intro _
    rw [ht]
    exact hpos

/-- Cutting the log at a boundary it agrees with, or dropping it behind a snapshot that is not
    from the future. -/
theorem Core.Regular.of_cut (h : c.Regular) (hf : c'.Framed) {s : Snapshot}
    (hs : c'.snapshot = s) (hl : c'.log = (c.compactLog s).log) (ht : c'.term = c.term)
    (hr : c'.role = c.role) (hlt : c.snapshot.index < s.index) (hle : s.term ≤ c.term) :
    c'.Regular := by
  have hterms : c'.terms = [s.term] ∧ c'.log = []
      ∨ c'.terms.Sublist c.terms ∧ c'.log ⊆ c.log := by
    unfold Core.terms
    rw [hs, hl]
    by_cases hagree : s.index ≤ c.lastIndex ∧ c.termAt s.index = s.term
    · right
      have hd : s.index - c.snapshot.index ≤ c.log.length := by
        have := hagree.1
        unfold Core.lastIndex at this
        omega
      have hdrop := Core.terms_drop h.snap_zero hd
      rw [show c.snapshot.index + (s.index - c.snapshot.index) = s.index by omega,
        hagree.2] at hdrop
      rw [Core.compactLog_log hlt hagree.2, ← hdrop]
      exact ⟨drop_sublist _ _, drop_subset _ _⟩
    · left
      have hnil : (c.compactLog s).log = [] := by
        unfold Core.compactLog
        dsimp only
        rw [if_neg (fun hc => hagree ⟨Nat.le_of_lt hc.1, hc.2⟩)]
      rw [hnil]
      exact ⟨rfl, rfl⟩
  rcases hterms with ⟨hterms, hnil⟩ | ⟨hsub, hlog⟩
  · refine ⟨hf, ?_, ?_, ?_, ?_, ?_, ?_⟩
    · rw [hs]
      omega
    · rw [hnil]
      exact fun _ hx => absurd hx not_mem_nil
    · rw [hterms]
      exact pairwise_singleton _ _
    · intro t hmem
      rw [hterms, mem_singleton] at hmem
      rw [hmem, ht]
      exact hle
    · rw [hnil]
      exact fun _ hx => absurd hx not_mem_nil
    · rw [hr, ht]
      exact h.active
  · refine ⟨hf, ?_, fun x hx => h.term_ne x (hlog hx), h.rising.sublist hsub, ?_,
      fun x hx => h.plain x (hlog hx), ?_⟩
    · rw [hs]
      omega
    · intro t hmem
      rw [ht]
      exact h.term_le t (hsub.subset hmem)
    · rw [hr, ht]
      exact h.active

/-- **A splice continues the log in order**: behind the entries that stay, the rest of an append
    that passed the check. -/
theorem Core.Regular.of_splice (h : c.Regular) (hf : c'.Framed) {keep tf : ℕ} {rest : List Entry}
    (hat : c.SpliceAt m keep tf rest) (hwf : malformedAppend m = none)
    (hterm : c.termAt m.logIndex = m.logTerm) (hm : m.term = c.term)
    (hs : c'.snapshot = c.snapshot) (hl : c'.log = c.log.take keep ++ rest)
    (ht : c'.term = c.term) (hr : c'.role = c.role) : c'.Regular := by
  have hterms : c'.terms = c.terms.take (keep + 1) ++ rest.map Entry.term := by
    unfold Core.terms
    rw [hs, hl, map_append, take_succ_cons, map_take]
    rfl
  obtain ⟨pre, hpre, hlen, hheld⟩ := hat.split
  have hrise := malformedAppend_rising hwf
  rw [hpre, map_append, ← cons_append, pairwise_append] at hrise
  -- The log and the message agree at the last entry that stays.
  have hlast : c.termAt (c.snapshot.index + keep) ∈ m.logTerm :: pre.map Entry.term := by
    rw [← hlen]
    rcases pre.eq_nil_or_concat with rfl | ⟨front, x, rfl⟩
    · rw [length_nil, Nat.add_zero, hterm]
      exact mem_cons_self
    rw [concat_eq_append] at hpre hheld ⊢
    have hx : m.entries[front.length]? = some x := by
      rw [hpre]
      simp
    have hindex := (malformedAppend_spec hwf hx).index
    have hxmem : x ∈ front ++ [x] := by simp
    rw [length_append, length_singleton, ← Nat.add_assoc, ← hindex,
      (hheld x hxmem).2]
    exact mem_cons_of_mem _ (mem_map_of_mem hxmem)
  refine ⟨hf, ?_, ?_, ?_, ?_, ?_, ?_⟩
  · rw [hs]
    exact h.snap_zero
  · intro x hx
    rw [hl] at hx
    rcases mem_append.mp hx with hx | hx
    · exact h.term_ne x (mem_of_mem_take hx)
    · exact (hat.entry x hx).1
  · rw [hterms, pairwise_append]
    refine ⟨h.rising.sublist (take_sublist _ _), hrise.2.1, fun a ha b hb => ?_⟩
    exact (h.le_termAt hat.keep_le ha).trans (hrise.2.2 _ hlast b hb)
  · intro t hmem
    rw [hterms] at hmem
    rw [ht]
    rcases mem_append.mp hmem with hmem | hmem
    · exact h.term_le t (mem_of_mem_take hmem)
    · obtain ⟨x, hx, rfl⟩ := mem_map.mp hmem
      rw [← hm]
      exact (hat.entry x hx).2.1
  · intro x hx
    rw [hl] at hx
    rcases mem_append.mp hx with hx | hx
    · exact h.plain x (mem_of_mem_take hx)
    · exact fun _ => (hat.entry x hx).2.2
  · rw [hr, ht]
    exact h.active

end

end Terms

/-! ### Transitions -/

omit [MembershipJson] in
/-- The snapshot a message brings is not newer than the message's term. -/
def Message.HonestSnapshot (m : Message) : Prop :=
  m.type = .snapshot → ∀ s, m.snapshot = some s → s.term ≤ m.term

omit [MembershipJson] in
/-- The operation does not step a snapshot from the future. -/
def Input.Honest (inp : Input) : Prop := ∀ m, inp = .message m → m.HonestSnapshot

section Transitions
variable {inp : Input} {c c' : Core} {u : Update} {n : Node}

omit [MembershipJson] in
theorem Core.received_term (c : Core) (s : Snapshot) : (c.received s).term = s.term := by
  unfold Core.received
  split <;> rfl

/-- **Every elementary transition keeps a core regular.** -/
theorem Trans.regular (hin : inp.Honest) (h : c.Regular) (ht : Trans inp c u c') :
    c'.Regular := by
  have hf := ht.framed h.toFramed
  cases ht with
  | adopt t ht =>
    refine h.of_same hf rfl rfl (Nat.le_of_lt ht) ?_
    rintro (hr | hr) <;> cases hr
  | stepDown =>
    refine h.of_same hf rfl rfl (Nat.le_refl _) ?_
    rintro (hr | hr) <;> cases hr
  | preCampaign =>
    refine h.of_same hf rfl rfl (Nat.le_refl _) ?_
    rintro (hr | hr) <;> cases hr
  | countPreVote peer granted hr => exact h.of_same hf rfl rfl (Nat.le_refl _) h.active
  | campaign => exact h.of_same hf rfl rfl (Nat.le_succ _) (fun _ => Nat.succ_pos _)
  | countVote m hm hr => exact h.of_same hf rfl rfl (Nat.le_refl _) h.active
  | win hr hq =>
    exact h.of_same hf rfl rfl (Nat.le_refl _) (fun _ => h.active (.inr hr))
  | grant m hm hv hup => exact h.of_same hf rfl rfl (Nat.le_refl _) h.active
  | propose data hr hd hlen =>
    exact h.of_snoc hf rfl rfl rfl rfl (h.active (.inl hr)) (fun _ => hlen)
  | reconfigure core command hr hc hm =>
    obtain ⟨mem, -, rfl⟩ := Core.rebuildMembership_eq hm
    refine h.of_snoc hf rfl rfl rfl rfl (h.active (.inl hr)) (fun hplain => ?_)
    rw [show hasMembershipPrefix (encodeMembership command) = true from
      hasMembershipPrefix_append _] at hplain
    cases hplain
  | orphan command e hr hc hm =>
    refine h.of_snoc hf rfl rfl rfl rfl (h.active (.inl hr)) (fun hplain => ?_)
    rw [show hasMembershipPrefix (encodeMembership command) = true from
      hasMembershipPrefix_append _] at hplain
    cases hplain
  | acknowledge type m hm ht hr hrej hlt => exact h.of_same hf rfl rfl (Nat.le_refl _) h.active
  | commit k hr hk hle ht hq => exact h.of_same hf rfl rfl (Nat.le_refl _) h.active
  | splice core m keep tf entries hm hr hwf hle ht hs ha =>
    obtain ⟨mem, rfl, -⟩ := Core.applySplice_eq ha
    exact h.of_splice hf (Core.spliceAt h.commit_lo hwf hle hs) hwf ht hm.term_eq rfl rfl rfl rfl
  | learn m k hm hr hwf hh hk hlt => exact h.of_same hf rfl rfl (Nat.le_refl _) h.active
  | install core m sent hm hr hs hi ht hv hmi hlt hcommit hb =>
    obtain ⟨mem, -, rfl⟩ := Core.rebuildMembership_eq hb
    have hle : (c.received sent).term ≤ c.term := by
      rw [c.received_term, ← hm.term_eq]
      exact hin m hm.input hm.type_eq sent hs
    exact h.of_cut hf (s := c.received sent) rfl rfl rfl rfl hlt hle
  | compact core s m data hi hd hlt hle ht hterm hat hm hmi hb =>
    obtain ⟨mem, -, rfl⟩ := Core.rebuildMembership_eq hb
    exact h.of_cut hf (s := s) rfl rfl rfl rfl hlt (hterm ▸ h.termAt_le s.index)
  | halfCompact s m data e hi hd hlt hle ht hterm hat hm hmi hb =>
    exact h.of_cut hf (s := s) rfl rfl rfl rfl hlt (hterm ▸ h.termAt_le s.index)
  | send ms hms => exact h
  | drop reason => exact h

section
omit [MembershipJson]

/-- Every append of the update whose entries have legal sizes passes the check. -/
def Update.Passes (u : Update) : Prop :=
  ∀ m ∈ u.messages, m.type = .append → (∀ e ∈ m.entries, e.data.length ≤ maxEntryBytes) →
    malformedAppend m = none

theorem Update.Passes.of_nil (h : u.messages = []) : u.Passes := by
  intro m hm
  rw [h] at hm
  cases hm

theorem Update.NoAppend.passes (h : u.NoAppend) : u.Passes :=
  fun m hm ht => absurd ht (h m hm)

end

theorem Trans.passes (h : c.Regular) (ht : Trans inp c u c') : u.Passes := by
  cases ht with
  | send ms hms => exact fun m hm htype hsize => h.emits (hms m hm) htype hsize
  | _ => exact .of_nil rfl

/-- **A path** keeps the core regular, and what it sends passes. -/
theorem Path.regular (hin : inp.Honest) (h : c.Regular) (hp : Path inp c u c') :
    c'.Regular ∧ u.Passes := by
  induction hp with
  | nil => exact ⟨h, .of_nil rfl⟩
  | snoc _ ht _ ih =>
    obtain ⟨hreg, hpass⟩ := ih
    refine ⟨ht.regular hin hreg, fun m hm => ?_⟩
    rcases mem_append.mp hm with hm | hm
    · exact hpass m hm
    · exact ht.passes hreg m hm

end Transitions

/-! ### Calls -/

/-- The call cannot start an election at the last 64-bit term, and steps no snapshot from the
    future. -/
def Event.Sound (n : Node) : Event → Prop
  | .op o => o.Fits n ∧ o.input.Honest
  | _ => True

/-- The configuration entries a call adds to the log have legal sizes. -/
def Node.CommandsFit (n : Node) (e : Event) : Prop :=
  ∀ x ∈ (n.handle nextTerm64 e).1.log, x ∉ n.log → hasMembershipPrefix x.data = true →
    x.data.length ≤ maxEntryBytes

section Calls
variable {n : Node} {e : Event}

theorem Node.Follows.regular {inp : Input} {r : Node × Update} (hin : inp.Honest)
    (h : n.Regular) (hf : Node.Follows inp n r) : r.1.Regular ∧ r.2.Passes :=
  hf.path.regular hin h

end Calls

/-! ### Runs with restarts -/

omit [MembershipJson] in
/-- What happens to a node: a call, or a restart with `cfg` from what it has stored. -/
inductive Incident where
  | call (e : Event)
  | restart (cfg : Config)

/-- The incident meets the conditions of a call. -/
def Incident.Sound (n : Node) : Incident → Prop
  | .call e => e.Sound n ∧ n.CommandsFit e
  | .restart _ => True

section Runs
variable {n k : Node}

end Runs

section
omit [MembershipJson]

end

end Lsmdb.Raft

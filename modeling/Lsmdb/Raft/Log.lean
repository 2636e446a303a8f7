import Lsmdb.Raft.Node

namespace Lsmdb.Raft

open Core List

/-!
# Raft core — reading and splicing the log

Facts about `termAt`, about the entries `malformedAppend` lets through, and about the
entry loop of `handleAppend`: where it cuts the log and that afterwards the log holds
everything the message carried.
-/

/-! ### Positions -/

theorem Core.termAt_congr {c c' : Core} (hs : c'.snapshot = c.snapshot) (hl : c'.log = c.log)
    (k : ℕ) : c'.termAt k = c.termAt k := by
  unfold termAt lastIndex
  rw [hs, hl]

theorem Core.termAt_log (c : Core) {k : ℕ} {e : Entry} (h : c.log[k]? = some e) :
    c.termAt (c.snapshot.index + k + 1) = e.term := by
  have hk : k < c.log.length := (List.getElem?_eq_some_iff.mp h).1
  have hsub : c.snapshot.index + k + 1 - c.snapshot.index - 1 = k := by omega
  unfold termAt lastIndex
  rw [if_neg (by omega), if_neg (by omega), if_neg (by omega), hsub, h]
  rfl

theorem Core.exists_of_termAt (c : Core) {j : ℕ} (hlo : c.snapshot.index < j)
    (hhi : j ≤ c.lastIndex) :
    ∃ e, c.log[j - c.snapshot.index - 1]? = some e ∧ c.termAt j = e.term := by
  unfold lastIndex at hhi
  have hk : j - c.snapshot.index - 1 < c.log.length := by omega
  refine ⟨_, getElem?_eq_getElem hk, ?_⟩
  have := c.termAt_log (getElem?_eq_getElem hk)
  rwa [show c.snapshot.index + (j - c.snapshot.index - 1) + 1 = j by omega] at this

/-- Rewriting the log past `keep` retained entries does not change the terms below. -/
theorem Core.termAt_take_append (c : Core) {keep j : ℕ} (es : List Entry)
    (hk : keep ≤ c.log.length) (hj : j ≤ c.snapshot.index + keep) :
    ({ c with log := c.log.take keep ++ es } : Core).termAt j = c.termAt j := by
  rcases Nat.lt_or_ge c.snapshot.index j with hlo | hlo
  · obtain ⟨e, he, ht⟩ := c.exists_of_termAt hlo (by unfold lastIndex; omega)
    have hget : ({ c with log := c.log.take keep ++ es } : Core).log[j - c.snapshot.index - 1]?
        = some e := by
      show (c.log.take keep ++ es)[j - c.snapshot.index - 1]? = some e
      rw [getElem?_append_left (by rw [length_take]; omega),
        getElem?_take_of_lt (by omega)]
      exact he
    have := termAt_log _ hget
    rw [ht, ← this]
    congr 1
    show j = c.snapshot.index + (j - c.snapshot.index - 1) + 1
    omega
  · unfold termAt lastIndex
    by_cases h0 : j = 0
    · simp [h0]
    · by_cases h1 : j = c.snapshot.index
      · simp [h1]
      · have h2 : j ≤ c.snapshot.index := hlo
        simp [h0, h1, h2]

/-- The entries appended after `keep` retained ones sit at the following positions. -/
theorem Core.termAt_append_right (c : Core) {keep k : ℕ} {es : List Entry} {e : Entry}
    (hk : keep ≤ c.log.length) (he : es[k]? = some e) :
    ({ c with log := c.log.take keep ++ es } : Core).termAt (c.snapshot.index + keep + k + 1)
      = e.term := by
  have hlen : (c.log.take keep).length = keep := by rw [length_take]; omega
  have hget : ({ c with log := c.log.take keep ++ es } : Core).log[keep + k]? = some e := by
    show (c.log.take keep ++ es)[keep + k]? = some e
    rw [getElem?_append_right (by omega), hlen, show keep + k - keep = k by omega]
    exact he
  have := termAt_log _ hget
  rw [← this]
  congr 1
  show c.snapshot.index + keep + k + 1 = c.snapshot.index + (keep + k) + 1
  omega

theorem Core.lastIndex_take_append (c : Core) {keep : ℕ} (es : List Entry)
    (hk : keep ≤ c.log.length) :
    ({ c with log := c.log.take keep ++ es } : Core).lastIndex
      = c.snapshot.index + keep + es.length := by
  simp only [lastIndex, length_append, length_take]
  omega

theorem Core.le_lastIndex_of_termAt {c : Core} {k : ℕ} (h : c.termAt k ≠ 0) :
    k ≤ c.lastIndex := by
  by_contra hk
  apply h
  have h1 : k ≠ c.snapshot.index := by unfold lastIndex at hk; omega
  have h0 : k ≠ 0 := by omega
  unfold termAt
  rw [if_neg h0, if_neg h1, if_pos (.inr (by omega))]

/-! ### Compaction -/

theorem Core.entriesBetween_to_last (c : Core) {lo : ℕ} (h : c.snapshot.index < lo) :
    c.entriesBetween lo (c.lastIndex + 1) = c.log.drop (lo - c.snapshot.index - 1) := by
  unfold entriesBetween
  split
  · rename_i hcond
    unfold lastIndex at hcond
    rw [drop_eq_nil_of_le (by omega)]
  · rename_i hcond
    unfold lastIndex at hcond ⊢
    rw [take_of_length_le (by rw [length_drop]; omega)]

/-- At a boundary the log agrees with, compaction drops a prefix and nothing else. -/
theorem Core.compactLog_log {c : Core} {s : Snapshot} (hlt : c.snapshot.index < s.index)
    (ht : c.termAt s.index = s.term) :
    (c.compactLog s).log = c.log.drop (s.index - c.snapshot.index) := by
  unfold compactLog
  dsimp only
  split
  · rw [c.entriesBetween_to_last (by omega)]
    congr 1
    omega
  · rename_i hcond
    unfold lastIndex at hcond
    rw [drop_eq_nil_of_le (by omega)]

/-- Compaction keeps the entries above the boundary, or none. -/
theorem Core.compactLog_log_or {c : Core} {s : Snapshot} (hlt : c.snapshot.index < s.index) :
    (c.compactLog s).log = c.log.drop (s.index - c.snapshot.index) ∨ (c.compactLog s).log = [] := by
  by_cases ht : c.termAt s.index = s.term
  · exact .inl (compactLog_log hlt ht)
  · right
    unfold compactLog
    dsimp only
    rw [if_neg (fun h' => ht h'.2)]

theorem Core.compactLog_lastIndex {c : Core} {s : Snapshot} (hlt : c.snapshot.index < s.index)
    (hle : s.index ≤ c.lastIndex) (ht : c.termAt s.index = s.term) :
    (c.compactLog s).lastIndex = c.lastIndex := by
  unfold lastIndex at hle ⊢
  rw [compactLog_log hlt ht, length_drop]
  show s.index + _ = _
  omega

/-! ### Well-formed appends -/

/-- What `malformedAppend` guarantees of each entry it lets through. -/
structure Message.EntryOk (m : Message) (k : ℕ) (e : Entry) : Prop where
  index : e.index = m.logIndex + k + 1
  term_ne : e.term ≠ 0
  term_le : e.term ≤ m.term
  size : e.data.length ≤ maxEntryBytes

private theorem malformedFrom_spec (m : Message) (es : List Entry) :
    ∀ i previous, malformedFrom m i previous es = none →
      ∀ (k : ℕ) (e : Entry), es[k]? = some e → m.EntryOk (i + k) e := by
  induction es with
  | nil => intro i previous _ k e he; simp at he
  | cons a t ih =>
    intro i previous h k e he
    unfold malformedFrom at h
    dsimp only at h
    split at h
    · simp at h
    split at h
    · simp at h
    split at h
    · simp at h
    split at h
    · simp at h
    split at h
    · simp at h
    split at h
    · simp at h
    cases k with
    | zero =>
      have hae : a = e := by simpa using he
      subst hae
      exact ⟨by omega, by omega, by omega, by omega⟩
    | succ k =>
      have := ih (i + 1) a.term h k e (by simpa using he)
      rwa [show i + 1 + k = i + (k + 1) by omega] at this

theorem malformedAppend_spec {m : Message} (h : malformedAppend m = none) {k : ℕ} {e : Entry}
    (he : m.entries[k]? = some e) : m.EntryOk k e := by
  have := malformedFrom_spec m m.entries 0 m.logTerm h k e he
  rwa [Nat.zero_add] at this

/-! ### The entry loop of `handleAppend` -/

/-- The log agrees with the append `m` through its last entry. -/
structure Core.Holds (c : Core) (m : Message) : Prop where
  le : m.logIndex ≤ c.lastIndex
  term : c.termAt m.logIndex = m.logTerm
  entries : ∀ e ∈ m.entries, e.index ≤ c.lastIndex ∧ c.termAt e.index = e.term
  last : m.logIndex + m.entries.length ≤ c.lastIndex

/-- Only the snapshot and the log decide what a core holds. -/
theorem Core.Holds.congr {c c' : Core} {m : Message} (h : c.Holds m)
    (hs : c'.snapshot = c.snapshot) (hl : c'.log = c.log) : c'.Holds m := by
  have hlast : c'.lastIndex = c.lastIndex := by simp only [lastIndex, hs, hl]
  constructor
  · rw [hlast]; exact h.le
  · rw [termAt_congr hs hl]; exact h.term
  · intro e he
    rw [hlast, termAt_congr hs hl]
    exact h.entries e he
  · rw [hlast]; exact h.last

private theorem splice_held (c : Core) (es : List Entry) (h : c.splice es = .held) :
    ∀ e ∈ es, e.index ≤ c.lastIndex ∧ c.termAt e.index = e.term := by
  induction es with
  | nil => simp
  | cons a t ih =>
    unfold splice at h
    split at h
    · rename_i hle
      split at h
      · rename_i heq
        intro e he
        rcases mem_cons.mp he with rfl | he
        · exact ⟨hle, heq⟩
        · exact ih h e he
      · split at h <;> simp at h
    · simp at h

private theorem splice_replace (c : Core) (es : List Entry) {keep tf : ℕ} {rest : List Entry}
    (h : c.splice es = .replace keep tf rest) :
    ∃ pre e tl, es = pre ++ rest ∧ rest = e :: tl
      ∧ (∀ x ∈ pre, x.index ≤ c.lastIndex ∧ c.termAt x.index = x.term)
      ∧ ((e.index ≤ c.lastIndex ∧ c.termAt e.index ≠ e.term ∧ c.commit < e.index
            ∧ keep = e.index - c.snapshot.index - 1 ∧ tf = e.index)
        ∨ (c.lastIndex < e.index ∧ keep = c.log.length ∧ tf = 0)) := by
  induction es with
  | nil => simp [splice] at h
  | cons a t ih =>
    unfold splice at h
    split at h
    · rename_i hle
      split at h
      · rename_i heq
        obtain ⟨pre, e, tl, h1, h2, h3, h4⟩ := ih h
        refine ⟨a :: pre, e, tl, by rw [h1]; rfl, h2, ?_, h4⟩
        intro x hx
        rcases mem_cons.mp hx with rfl | hx
        · exact ⟨hle, heq⟩
        · exact h3 x hx
      · rename_i hne
        split at h
        · simp at h
        rename_i hc
        simp only [Splice.replace.injEq] at h
        obtain ⟨h1, h2, h3⟩ := h
        exact ⟨[], a, t, by simp [← h3], h3.symm, by simp,
          .inl ⟨hle, hne, by omega, h1.symm, h2.symm⟩⟩
    · rename_i hgt
      simp only [Splice.replace.injEq] at h
      obtain ⟨h1, h2, h3⟩ := h
      exact ⟨[], a, t, by simp [← h3], h3.symm, by simp, .inr ⟨by omega, h1.symm, h2.symm⟩⟩

theorem Core.splice_subset {c : Core} {es : List Entry} {keep tf : ℕ} {rest : List Entry}
    (h : c.splice es = .replace keep tf rest) : rest ⊆ es := by
  obtain ⟨pre, _, _, hpre, _⟩ := splice_replace c es h
  rw [hpre]
  exact subset_append_right pre rest

/-- **Where the log is cut.**  `keep` retained entries survive, none of them committed
    beyond, and the rest of the message continues them contiguously. -/
structure Core.SpliceAt (c : Core) (m : Message) (keep tf : ℕ) (rest : List Entry) : Prop where
  keep_le : keep ≤ c.log.length
  commit_le : c.commit ≤ c.lastIndex → c.commit ≤ c.snapshot.index + keep
  split : ∃ pre, m.entries = pre ++ rest ∧ m.logIndex + pre.length = c.snapshot.index + keep
    ∧ ∀ x ∈ pre, x.index ≤ c.snapshot.index + keep ∧ c.termAt x.index = x.term
  index : ∀ (k : ℕ) (e : Entry), rest[k]? = some e → e.index = c.snapshot.index + keep + k + 1
  entry : ∀ e ∈ rest, e.term ≠ 0 ∧ e.term ≤ m.term ∧ e.data.length ≤ maxEntryBytes
  cut : (tf = 0 ∧ keep = c.log.length)
    ∨ (tf = c.snapshot.index + keep + 1 ∧ keep < c.log.length
      ∧ ∃ e, rest[0]? = some e ∧ c.termAt tf ≠ e.term)
  rest_ne : rest ≠ []

theorem Core.spliceAt {c : Core} {m : Message} {keep tf : ℕ} {rest : List Entry}
    (hs : c.snapshot.index ≤ c.commit)
    (hwf : malformedAppend m = none) (hle : m.logIndex ≤ c.lastIndex)
    (h : c.splice m.entries = .replace keep tf rest) : c.SpliceAt m keep tf rest := by
  obtain ⟨pre, e, tl, h1, h2, h3, h4⟩ := splice_replace c m.entries h
  -- positions of the held entries and of the first replaced one
  have hpre : ∀ (k : ℕ) (x : Entry), pre[k]? = some x → x.index = m.logIndex + k + 1 := by
    intro k x hx
    have hk := (List.getElem?_eq_some_iff.mp hx).1
    exact (malformedAppend_spec hwf (k := k) (e := x)
      (by rw [h1, getElem?_append_left hk]; exact hx)).index
  have hrest : ∀ (k : ℕ) (x : Entry), rest[k]? = some x → m.EntryOk (pre.length + k) x := by
    intro k x hx
    refine malformedAppend_spec hwf ?_
    rw [h1, getElem?_append_right (by omega), show pre.length + k - pre.length = k by omega]
    exact hx
  have he := (hrest 0 e (by rw [h2]; rfl)).index
  have hlen : m.logIndex + pre.length ≤ c.lastIndex := by
    rcases Nat.eq_zero_or_pos pre.length with h0 | hpos
    · omega
    · have hget := getElem?_eq_getElem (l := pre) (i := pre.length - 1) (by omega)
      have hidx := hpre _ _ hget
      have := (h3 _ (mem_of_getElem? hget)).1
      omega
  unfold lastIndex at hlen
  have hkeep : m.logIndex + pre.length = c.snapshot.index + keep ∧ keep ≤ c.log.length
      ∧ (c.commit ≤ c.lastIndex → c.commit ≤ c.snapshot.index + keep) := by
    unfold lastIndex
    rcases h4 with ⟨ha, _, hb, hk, _⟩ | ⟨ha, hk, _⟩
    · unfold lastIndex at ha
      omega
    · unfold lastIndex at ha
      omega
  obtain ⟨hk1, hk2, hk3⟩ := hkeep
  refine ⟨hk2, hk3, ⟨pre, h1, hk1, ?_⟩, ?_, ?_, ?_, ?_⟩
  · intro x hx
    obtain ⟨k, hk⟩ := mem_iff_getElem?.mp hx
    have hlt := (List.getElem?_eq_some_iff.mp hk).1
    have := hpre k x hk
    exact ⟨by omega, (h3 x hx).2⟩
  · intro k x hx
    have := (hrest k x hx).index
    omega
  · intro x hx
    obtain ⟨k, hk⟩ := mem_iff_getElem?.mp hx
    have := hrest k x hk
    exact ⟨this.term_ne, this.term_le, this.size⟩
  · rcases h4 with ⟨ha, hne, hb, hk, htf⟩ | ⟨ha, hk, htf⟩
    · unfold lastIndex at ha
      exact .inr ⟨by omega, by omega, e, by rw [h2]; rfl, by rw [htf]; exact hne⟩
    · exact .inl ⟨htf, hk⟩
  · rw [h2]; simp

/-- If the loop finds nothing to do, the log already holds the append. -/
theorem Core.holds_of_held {c : Core} {m : Message} (hwf : malformedAppend m = none)
    (hle : m.logIndex ≤ c.lastIndex) (ht : c.termAt m.logIndex = m.logTerm)
    (h : c.splice m.entries = .held) : c.Holds m := by
  have hheld := splice_held c m.entries h
  refine ⟨hle, ht, hheld, ?_⟩
  rcases Nat.eq_zero_or_pos m.entries.length with h0 | hpos
  · omega
  · have hget := getElem?_eq_getElem (l := m.entries) (i := m.entries.length - 1) (by omega)
    have hidx := (malformedAppend_spec hwf hget).index
    have := (hheld _ (mem_of_getElem? hget)).1
    omega

theorem Core.SpliceAt.holds {c c' : Core} {m : Message} {keep tf : ℕ} {rest : List Entry}
    (h : c.SpliceAt m keep tf rest) (ht : c.termAt m.logIndex = m.logTerm)
    (hs : c'.snapshot = c.snapshot) (hl : c'.log = c.log.take keep ++ rest) : c'.Holds m := by
  obtain ⟨pre, hpre, hlen, hheld⟩ := h.split
  suffices hh : ({ c with log := c.log.take keep ++ rest } : Core).Holds m from
    hh.congr hs hl
  have hlast := c.lastIndex_take_append rest h.keep_le
  refine ⟨by omega, ?_, ?_, ?_⟩
  · rw [c.termAt_take_append rest h.keep_le (by omega)]; exact ht
  · intro e he
    rw [hpre, mem_append] at he
    rcases he with he | he
    · obtain ⟨h1, h2⟩ := hheld e he
      rw [c.termAt_take_append rest h.keep_le h1]
      exact ⟨by omega, h2⟩
    · obtain ⟨k, hk⟩ := mem_iff_getElem?.mp he
      have hlt := (List.getElem?_eq_some_iff.mp hk).1
      rw [h.index k e hk, c.termAt_append_right h.keep_le hk]
      exact ⟨by omega, rfl⟩
  · rw [hlast, hpre, length_append]; omega

section Codec
variable [MembershipJson]

theorem Core.rebuildMembership_eq {c core : Core} (h : c.rebuildMembership = .ok core) :
    ∃ m, foldMembership c.baseMembership c.log = .ok m ∧ core = { c with membership := m } := by
  unfold rebuildMembership at h
  split at h
  · simp at h
  · rename_i m hm
    exact ⟨m, hm, by simpa using h.symm⟩

/-- The rewrite changes the log and, if it had to be rebuilt, the configuration. -/
theorem Core.applySplice_eq {c core : Core} {keep tf : ℕ} {es : List Entry}
    (h : c.applySplice keep tf es = some core) :
    ∃ m, core = { c with log := c.log.take keep ++ es, membership := m }
      ∧ (foldMembership c.baseMembership (c.log.take keep ++ es) = .ok m
        ∨ (tf = 0 ∧ (∀ e ∈ es, hasMembershipPrefix e.data = false) ∧ m = c.membership)) := by
  unfold applySplice at h
  dsimp only at h
  split at h
  · cases hr : ({ c with log := c.log.take keep ++ es } : Core).rebuildMembership with
    | error e => rw [hr] at h; simp [Except.toOption] at h
    | ok core' =>
      rw [hr] at h
      have hcc : core' = core := by simpa [Except.toOption] using h
      subst hcc
      obtain ⟨m, hm, rfl⟩ := rebuildMembership_eq hr
      exact ⟨m, rfl, .inl hm⟩
  · rename_i hcond
    simp only [not_or, not_not, any_eq_true, not_exists, not_and,
      Bool.not_eq_true] at hcond
    refine ⟨c.membership, ?_, .inr ⟨hcond.1, hcond.2, rfl⟩⟩
    simpa using h.symm

end Codec

end Lsmdb.Raft

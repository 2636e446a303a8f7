import Lsmdb.Raft.Operations

namespace Lsmdb.Raft

open Core List

/-!
# Raft core — well-formed cores

What holds of a core whatever messages it is fed: entries are contiguous above the
snapshot, the configuration is the fold of the log, voter lists are normalised, and the
commit index lies between the snapshot and the end of the log.  `Trans.wf` shows that
every elementary transition keeps it, and that the two error returns that would leave a
half-changed node behind are never taken.

The one assumption is that client data does not carry the configuration prefix.
-/

section Codec
variable [MembershipJson]

/-! ### Folding configurations -/

/-- Both voter lists of a configuration are normalised. -/
structure Membership.Normal (m : Membership) : Prop where
  voters : VotersNormal m.voters
  joint : m.jointVoters = [] ∨ VotersNormal m.jointVoters

omit [MembershipJson] in
theorem validateMembership_ok_iff (m : Membership) :
    validateMembership m = .ok () ↔ m.Normal := by
  unfold validateMembership equalVoters
  constructor
  · intro h
    split at h
    · simp at h
    rename_i voters hv
    split at h
    · simp at h
    rename_i heq
    have hvoters : voters = m.voters := by simpa using heq
    have hnorm : VotersNormal m.voters := hvoters ▸ normalizeVoters_normal hv
    split at h
    · rename_i hpos
      split at h
      · simp at h
      rename_i joint hj
      split at h
      · simp at h
      · rename_i hjeq
        have hjoint : joint = m.jointVoters := by simpa using hjeq
        exact ⟨hnorm, .inr (hjoint ▸ normalizeVoters_normal hj)⟩
    · rename_i hpos
      exact ⟨hnorm, .inl (length_eq_zero_iff.mp (by omega))⟩
  · rintro ⟨hv, hj⟩
    rw [hv.normalizeVoters_eq]
    rcases hj with hj | hj
    · simp [hj]
    · simp [hj.normalizeVoters_eq]

theorem stepMembership_plain {e : Entry} (m : Membership)
    (h : hasMembershipPrefix e.data = false) : stepMembership m e = .ok m := by
  simp [stepMembership, decodeMembership, h]

theorem foldMembership_append (m : Membership) (a b : List Entry) :
    foldMembership m (a ++ b)
      = match foldMembership m a with
        | .error e => .error e
        | .ok m' => foldMembership m' b := by
  induction a generalizing m with
  | nil => rfl
  | cons e t ih =>
    simp only [cons_append, foldMembership]
    cases stepMembership m e with
    | error err => rfl
    | ok m' => exact ih m'

theorem foldMembership_plain {es : List Entry} (m : Membership)
    (h : ∀ e ∈ es, hasMembershipPrefix e.data = false) : foldMembership m es = .ok m := by
  induction es with
  | nil => rfl
  | cons e t ih =>
    simp only [foldMembership, stepMembership_plain m (h e (by simp))]
    exact ih (fun x hx => h x (by simp [hx]))

/-- A fold that succeeds succeeds on every prefix. -/
theorem foldMembership_prefix {m m' : Membership} {a b : List Entry}
    (h : foldMembership m (a ++ b) = .ok m') :
    ∃ m₁, foldMembership m a = .ok m₁ ∧ foldMembership m₁ b = .ok m' := by
  rw [foldMembership_append] at h
  split at h
  · simp at h
  · rename_i m₁ hm₁
    exact ⟨m₁, hm₁, h⟩

theorem foldMembership_snoc {m m' : Membership} {a : List Entry} {e : Entry}
    (h : foldMembership m a = .ok m') :
    foldMembership m (a ++ [e])
      = match stepMembership m' e with
        | .error err => .error (e.index, err)
        | .ok m'' => .ok m'' := by
  rw [foldMembership_append, h]
  rfl

theorem decodeMembership_normal {data : Bytes} {command : MembershipCommand}
    (h : decodeMembership data = .ok (some command)) :
    VotersNormal command.new ∧ (command.phase = .joint → VotersNormal command.old) := by
  unfold decodeMembership at h
  split at h
  · simp at h
  split at h
  · simp at h
  rename_i c hc
  split at h
  · simp at h
  · rename_i hphase
    split at h
    · simp at h
    rename_i new hnew
    split at h
    · simp at h
    · rename_i old hold
      simp only [Except.ok.injEq, Option.some.injEq] at h
      subst h
      exact ⟨normalizeVoters_normal hnew, fun _ => normalizeVoters_normal hold⟩
  · rename_i hphase
    split at h
    · simp at h
    rename_i new hnew
    simp only [Except.ok.injEq, Option.some.injEq] at h
    subst h
    refine ⟨normalizeVoters_normal hnew, fun hp => ?_⟩
    rw [hphase] at hp
    simp at hp

theorem stepMembership_normal {m m' : Membership} {e : Entry} (hm : m.Normal)
    (h : stepMembership m e = .ok m') : m'.Normal := by
  unfold stepMembership at h
  split at h
  · simp at h
  · simp only [Except.ok.injEq] at h
    subst h
    exact hm
  · rename_i command hc
    obtain ⟨hnew, hold⟩ := decodeMembership_normal hc
    unfold applyMembership at h
    split at h
    · rename_i hp
      split at h
      · simp at h
      · simp only [Except.ok.injEq] at h
        subst h
        exact ⟨hold hp, .inr hnew⟩
    · split at h
      · simp at h
      · simp only [Except.ok.injEq] at h
        subst h
        exact ⟨hnew, .inl rfl⟩
    · simp at h

theorem foldMembership_normal {es : List Entry} :
    ∀ {m m' : Membership}, m.Normal → foldMembership m es = .ok m' → m'.Normal := by
  induction es with
  | nil =>
    intro m m' hm h
    simp only [foldMembership, Except.ok.injEq] at h
    exact h ▸ hm
  | cons e t ih =>
    intro m m' hm h
    unfold foldMembership at h
    split at h
    · simp at h
    · rename_i m₁ hm₁
      exact ih (stepMembership_normal hm hm₁) h

omit [MembershipJson] in
theorem hasMembershipPrefix_append (data : Bytes) :
    hasMembershipPrefix (membershipPrefix ++ data) = true := by
  simp [hasMembershipPrefix]

theorem decodeMembership_encodeMembership (command : MembershipCommand)
    (hnew : VotersNormal command.new)
    (hphase : command.phase = .final ∨ (command.phase = .joint ∧ VotersNormal command.old)) :
    decodeMembership (encodeMembership command) = .ok (some command) := by
  unfold decodeMembership encodeMembership
  rw [hasMembershipPrefix_append, drop_left]
  simp only [Bool.not_true, Bool.false_eq_true, if_false, MembershipJson.unmarshal_marshal]
  rcases hphase with hp | ⟨hp, hold⟩
  · simp only [hp, hnew.normalizeVoters_eq]
    cases command
    simp_all
  · simp only [hp, hnew.normalizeVoters_eq, hold.normalizeVoters_eq]
    cases command
    simp_all

/-! ### The frame of the log -/

/-- **The log continues the snapshot** without gaps, and the commit index lies within it. -/
structure Core.Framed (c : Core) : Prop where
  index : ∀ (k : ℕ) (e : Entry), c.log[k]? = some e → e.index = c.snapshot.index + k + 1
  commit_lo : c.snapshot.index ≤ c.commit
  commit_hi : c.commit ≤ c.lastIndex

variable {inp : Input} {c c' : Core} {u : Update}

section
omit [MembershipJson]

/-- A suffix of a contiguous log is contiguous from its own start. -/
theorem Core.index_drop {l : List Entry} {s : ℕ}
    (hi : ∀ (k : ℕ) (e : Entry), l[k]? = some e → e.index = s + k + 1) (d : ℕ) :
    ∀ (k : ℕ) (e : Entry), (l.drop d)[k]? = some e → e.index = s + d + k + 1 := by
  intro k e he
  rw [getElem?_drop] at he
  have := hi _ e he
  omega

theorem Core.index_append {l l' : List Entry} {s : ℕ}
    (hi : ∀ (k : ℕ) (e : Entry), l[k]? = some e → e.index = s + k + 1)
    (hi' : ∀ (k : ℕ) (e : Entry), l'[k]? = some e → e.index = s + l.length + k + 1) :
    ∀ (k : ℕ) (e : Entry), (l ++ l')[k]? = some e → e.index = s + k + 1 := by
  intro k e he
  rcases Nat.lt_or_ge k l.length with hk | hk
  · rw [getElem?_append_left hk] at he
    exact hi k e he
  · rw [getElem?_append_right hk] at he
    have := hi' _ e he
    omega

theorem Core.index_snoc (hi : ∀ (k : ℕ) (e : Entry), c.log[k]? = some e →
      e.index = c.snapshot.index + k + 1) (term : ℕ) (data : Bytes) :
    ∀ (k : ℕ) (e : Entry),
      (c.log ++ [{ index := c.lastIndex + 1, term := term, data := data }])[k]? = some e →
      e.index = c.snapshot.index + k + 1 := by
  refine index_append hi ?_
  intro k e he
  have hk := (List.getElem?_eq_some_iff.mp he).1
  have hk0 : k = 0 := by simpa using hk
  subst hk0
  simp only [getElem?_cons_zero, Option.some.injEq] at he
  subst he
  rfl

private theorem Core.Framed.snoc (h : c.Framed) (term : ℕ) (data : Bytes) (hs : c'.snapshot = c.snapshot)
    (hl : c'.log = c.log ++ [{ index := c.lastIndex + 1, term := term, data := data }])
    (hc : c'.commit = c.commit) : c'.Framed := by
  refine ⟨?_, by rw [hs, hc]; exact h.commit_lo, ?_⟩
  · rw [hs, hl]
    exact index_snoc h.index _ _
  · have := h.commit_hi
    simp only [lastIndex, hs, hl, hc, length_append] at this ⊢
    omega

/-- Dropping the entries a snapshot of committed entries covers. -/
private theorem Core.Framed.compact (h : c.Framed) {s : Snapshot} (hlt : c.snapshot.index < s.index)
    (hle : s.index ≤ c.commit) (ht : c.termAt s.index = s.term) : (c.compactLog s).Framed := by
  refine ⟨fun k e he => ?_, hle, ?_⟩
  · rw [compactLog_log hlt ht] at he
    have := index_drop h.index _ k e he
    show e.index = s.index + k + 1
    omega
  · have hlast := compactLog_lastIndex hlt (by have := h.commit_hi; omega) ht
    rw [hlast]
    exact h.commit_hi

end

/-- Every elementary transition keeps the frame, whatever the data. -/
theorem Trans.framed (h : c.Framed) (ht : Trans inp c u c') : c'.Framed := by
  cases ht with
  | propose data hr hd hlen => exact h.snoc _ _ rfl rfl rfl
  | reconfigure core command hr hc hm =>
    obtain ⟨m, hf, rfl⟩ := rebuildMembership_eq hm
    exact h.snoc _ _ rfl rfl rfl
  | orphan command e hr hc hm => exact h.snoc _ _ rfl rfl rfl
  | commit k hr hk hle ht hq =>
    exact { h with commit_lo := by have := h.commit_lo; show c.snapshot.index ≤ k; omega
                   commit_hi := hle }
  | splice core m keep tf entries hm hr hwf hle ht hs ha =>
    have hat := spliceAt h.commit_lo hwf hle hs
    obtain ⟨mem, rfl, hmem⟩ := applySplice_eq ha
    have hlen : (c.log.take keep).length = keep := by
      rw [length_take]; have := hat.keep_le; omega
    refine ⟨?_, h.commit_lo, ?_⟩
    · refine index_append (fun k e he => ?_) (by rw [hlen]; exact hat.index)
      have hk := (List.getElem?_eq_some_iff.mp he).1
      rw [getElem?_take_of_lt (by omega)] at he
      exact h.index k e he
    · have h1 := hat.commit_le h.commit_hi
      have h2 := c.lastIndex_take_append entries hat.keep_le
      show c.commit ≤ ({ c with log := c.log.take keep ++ entries } : Core).lastIndex
      omega
  | learn m k hm hr hwf hh hk hlt =>
    have h1 := h.commit_lo
    have h2 := hh.last
    exact ⟨h.index, by show c.snapshot.index ≤ k; omega, by show k ≤ c.lastIndex; omega⟩
  | install core m sent hm hr hs hi ht hv hmi hlt hcommit hb =>
    obtain ⟨mem, hf, rfl⟩ := rebuildMembership_eq hb
    generalize c.received sent = s at *
    refine ⟨?_, by show s.index ≤ max c.commit s.index; omega, ?_⟩
    · intro k e he
      change (c.compactLog s).log[k]? = some e at he
      show e.index = s.index + k + 1
      rcases compactLog_log_or hlt with hlog | hlog
      · rw [hlog] at he
        have := index_drop h.index _ k e he
        omega
      · rw [hlog] at he
        simp at he
    · show max c.commit s.index ≤ s.index + (c.compactLog s).log.length
      rcases Nat.lt_or_ge s.index c.commit with hcl | hcl
      · have hlast := compactLog_lastIndex hlt (by have := h.commit_hi; omega)
          (hcommit (by omega))
        have := h.commit_hi
        have hl : (c.compactLog s).lastIndex = s.index + (c.compactLog s).log.length := rfl
        omega
      · omega
  | compact core s m data hi hd hlt hle ht hterm hat hm hmi hb =>
    obtain ⟨mem, hf, rfl⟩ := rebuildMembership_eq hb
    have hcut := h.compact hlt hle hterm
    exact ⟨hcut.index, hcut.commit_lo, hcut.commit_hi⟩
  | halfCompact s m data e hi hd hlt hle ht hterm hat hm hmi hb => exact h.compact hlt hle hterm
  | _ => exact { h with }

theorem Path.framed (h : c.Framed) (hpath : Path inp c u c') : c'.Framed := by
  induction hpath with
  | nil => exact h
  | snoc _ ht _ ih => exact ht.framed ih

/-! ### The invariant -/

/-- **The configuration is the fold of the log** over the configuration of the snapshot, or over
    the bootstrap voters. -/
structure Core.Folded (c : Core) : Prop extends Core.Framed c where
  peers : VotersNormal c.cfg.peers
  init : c.initialMembership = { voters := c.cfg.peers }
  folded : foldMembership c.baseMembership c.log = .ok c.membership
  snap_mem : c.snapshot.index > 0 → c.snapshot.membership.voters ≠ [] →
    c.snapshot.membership.Normal
  snap_mem_index : c.snapshot.membership.index ≤ c.snapshot.index

/-- **Well-formed cores.** -/
structure Core.WF (c : Core) : Prop extends Core.Folded c where
  term : ∀ e ∈ c.log, e.term ≠ 0
  snap_zero : c.snapshot.index = 0 ↔ c.snapshot.term = 0
  snap_data : c.snapshot.index = 0 → c.snapshot.data = []
  active : c.role = .leader ∨ c.role = .candidate → 0 < c.term
  id_ne : c.cfg.id ≠ 0
  self : c.role = .candidate → c.votedFor = c.cfg.id

/-- The client data of an operation does not carry the configuration prefix. -/
def Input.Plain (inp : Input) : Prop :=
  ∀ commands, inp = .commands commands → ∀ d ∈ commands, hasMembershipPrefix d = false

omit [MembershipJson] in
theorem Core.baseMembership_normal (hp : VotersNormal c.cfg.peers)
    (hi : c.initialMembership = { voters := c.cfg.peers })
    (hs : c.snapshot.index > 0 → c.snapshot.membership.voters ≠ [] →
      c.snapshot.membership.Normal) : c.baseMembership.Normal := by
  unfold baseMembership
  split
  · rename_i h
    exact hs h.1 (length_pos_iff.mp h.2)
  · rw [hi]
    exact ⟨hp, .inl rfl⟩

theorem Core.Folded.membership_normal (h : c.Folded) : c.membership.Normal :=
  foldMembership_normal (baseMembership_normal h.peers h.init h.snap_mem) h.folded

/-- The configuration entry a leader appends applies to its configuration. -/
theorem Core.Folded.reconfigures (h : c.Folded) {command : MembershipCommand} (index term : ℕ)
    (hr : Reconfigures inp c command) :
    ∃ m, stepMembership c.membership { index := index, term := term,
                                       data := encodeMembership command } = .ok m
      ∧ applyMembership c.membership command index = .ok m := by
  have hn := h.membership_normal
  cases hr with
  | joint voters new hi hnew hj hc =>
    have hdec := decodeMembership_encodeMembership
      { phase := .joint, old := c.membership.voters, new := new }
      (normalizeVoters_normal hnew) (.inr ⟨rfl, hn.voters⟩)
    simp [stepMembership, hdec, applyMembership, hj, equalVoters]
  | final hj hc =>
    have hnj : VotersNormal c.membership.jointVoters := by
      rcases hn.joint with h0 | h0
      · exact absurd h0 hj
      · exact h0
    have hdec := decodeMembership_encodeMembership
      { phase := .final, new := c.membership.jointVoters } hnj (.inl rfl)
    simp [stepMembership, hdec, applyMembership, hj, equalVoters]

theorem Core.Folded.rebuild_ok (h : c.Folded) {command : MembershipCommand} (index term : ℕ)
    (hr : Reconfigures inp c command) :
    ∃ m, foldMembership c.baseMembership
        (c.log ++ [{ index := index, term := term, data := encodeMembership command }]) = .ok m
      ∧ applyMembership c.membership command index = .ok m := by
  obtain ⟨m, hm, ha⟩ := h.reconfigures index term hr
  refine ⟨m, ?_, ha⟩
  rw [foldMembership_snoc h.folded, hm]

/-- **The configuration a leader appends** is the command's, whatever the log held before. -/
theorem Core.Folded.rebuilt (h : c.Folded) {core : Core} {command : MembershipCommand}
    (hr : Reconfigures inp c command)
    (hm : ({ c with log := c.log ++ [{ index := c.lastIndex + 1, term := c.term,
                                       data := encodeMembership command }] } :
      Core).rebuildMembership = .ok core) :
    ∃ m, applyMembership c.membership command (c.lastIndex + 1) = .ok m
      ∧ core = { c with
          log := c.log ++ [{ index := c.lastIndex + 1, term := c.term,
                             data := encodeMembership command }]
          membership := m } := by
  obtain ⟨m, hfold, happly⟩ := h.rebuild_ok (c.lastIndex + 1) c.term hr
  obtain ⟨mem, hmem, rfl⟩ := rebuildMembership_eq hm
  have hsame : (.ok mem : Except (ℕ × String) Membership) = .ok m := hmem.symm.trans hfold
  rw [Except.ok.inj hsame]
  exact ⟨m, happly, rfl⟩

omit [MembershipJson] in
/-- The entries up to an index are a prefix of a contiguous log. -/
theorem Core.takeWhile_index {l : List Entry} {s : ℕ}
    (hi : ∀ (k : ℕ) (e : Entry), l[k]? = some e → e.index = s + k + 1) (index : ℕ) :
    l.takeWhile (fun e => decide (e.index ≤ index)) = l.take (index - s) := by
  induction l generalizing s with
  | nil => simp
  | cons a t ih =>
    have ha : a.index = s + 1 := by simpa using hi 0 a rfl
    have ht : ∀ (k : ℕ) (e : Entry), t[k]? = some e → e.index = s + 1 + k + 1 := by
      intro k e he
      have := hi (k + 1) e (by simpa using he)
      omega
    rcases Nat.lt_or_ge s index with hlt | hge
    · rw [takeWhile_cons_of_pos (by simp; omega), ih ht,
        show index - s = (index - (s + 1)) + 1 by omega, take_succ_cons]
    · rw [takeWhile_cons_of_neg (by simp; omega), show index - s = 0 by omega, take_zero]

/-- Compaction at a boundary the log agrees with keeps the configuration. -/
theorem Core.Folded.compact_folded (h : c.Folded) {s : Snapshot} {m : Membership}
    (hlt : c.snapshot.index < s.index) (ht : c.termAt s.index = s.term)
    (hat : c.membershipAt s.index = .ok m) (hm : s.membership = m) :
    m.Normal ∧ foldMembership (c.compactLog s).baseMembership (c.compactLog s).log
      = .ok c.membership := by
  unfold membershipAt at hat
  rw [takeWhile_index h.index] at hat
  split at hat
  · simp at hat
  rename_i m' hm'
  simp only [Except.ok.injEq] at hat
  subst hat
  have hn : m'.Normal := foldMembership_normal
    (baseMembership_normal h.peers h.init h.snap_mem) hm'
  refine ⟨hn, ?_⟩
  have hbase : (c.compactLog s).baseMembership = m' := by
    unfold baseMembership
    show (if s.index > 0 ∧ s.membership.voters.length > 0 then s.membership
      else c.initialMembership) = m'
    rw [if_pos ⟨by omega, by rw [hm]; exact length_pos_iff.mpr hn.voters.nonempty⟩, hm]
  rw [hbase, compactLog_log hlt ht]
  have hf := h.folded
  rw [← take_append_drop (s.index - c.snapshot.index) c.log, foldMembership_append,
    hm'] at hf
  exact hf

/-! ### Preservation -/

/-- **Every elementary transition keeps the configuration the fold of the log**, as long as
    client data does not carry the configuration prefix. -/
theorem Trans.folded (hp : inp.Plain) (h : c.Folded) (ht : Trans inp c u c') : c'.Folded := by
  have hframed := ht.framed h.toFramed
  cases ht with
  | propose data hr hd hlen =>
    have hplain : hasMembershipPrefix data = false := by
      rcases hd with rfl | ⟨commands, hi, hmem⟩
      · decide
      · exact hp commands hi data hmem
    refine { h with toFramed := hframed, folded := ?_ }
    show foldMembership c.baseMembership (c.log ++ [_]) = .ok c.membership
    rw [foldMembership_snoc h.folded, stepMembership_plain _ hplain]
  | reconfigure core command hr hc hm =>
    obtain ⟨m, hf, rfl⟩ := rebuildMembership_eq hm
    exact { h with toFramed := hframed, folded := hf }
  | orphan command e hr hc hm =>
    -- a configuration entry of a leader always applies
    obtain ⟨m, hf, _⟩ := h.rebuild_ok (c.lastIndex + 1) c.term hc
    unfold rebuildMembership at hm
    rw [show ({ c with log := c.log ++ [{ index := c.lastIndex + 1, term := c.term,
                                          data := encodeMembership command }] } :
      Core).baseMembership = c.baseMembership from rfl, hf] at hm
    simp at hm
  | splice core m keep tf entries hm hr hwf hle ht hs ha =>
    have hat := spliceAt h.commit_lo hwf hle hs
    obtain ⟨mem, rfl, hmem⟩ := applySplice_eq ha
    refine { h with toFramed := hframed, folded := ?_ }
    rcases hmem with hf | ⟨htf, hplain, rfl⟩
    · exact hf
    -- nothing was cut and no configuration was appended
    have hkeep : keep = c.log.length := by
      rcases hat.cut with ⟨_, h'⟩ | ⟨h', _⟩
      · exact h'
      · omega
    show foldMembership c.baseMembership (c.log.take keep ++ entries) = .ok c.membership
    rw [hkeep, take_length, foldMembership_append, h.folded]
    exact foldMembership_plain _ hplain
  | install core m sent hm hr hs hi ht hv hmi hlt hcommit hb =>
    obtain ⟨mem, hf, rfl⟩ := rebuildMembership_eq hb
    refine { h with toFramed := hframed, folded := hf, snap_mem := fun _ _ => ?_,
                    snap_mem_index := hmi }
    exact (validateMembership_ok_iff _).mp hv
  | compact core s m data hi hd hlt hle ht hterm hat hm hmi hb =>
    obtain ⟨mem, hf, rfl⟩ := rebuildMembership_eq hb
    obtain ⟨hn, _⟩ := h.compact_folded hlt hterm hat hm
    refine { h with toFramed := hframed, folded := hf, snap_mem := fun _ _ => ?_,
                    snap_mem_index := ?_ }
    · show s.membership.Normal
      rw [hm]
      exact hn
    · show s.membership.index ≤ s.index
      rw [hm]
      exact hmi
  | halfCompact s m data e hi hd hlt hle ht hterm hat hm hmi hb =>
    -- folding the rest of a log that folds cannot fail
    obtain ⟨_, hfold⟩ := h.compact_folded hlt hterm hat hm
    unfold rebuildMembership at hb
    rw [hfold] at hb
    simp at hb
  | _ => exact { h with toFramed := hframed }

/-- Every operation keeps the configuration the fold of the log. -/
theorem Path.folded (hp : inp.Plain) (h : c.Folded) (hpath : Path inp c u c') : c'.Folded := by
  induction hpath with
  | nil => exact h
  | snoc _ ht _ ih => exact ht.folded hp ih

private theorem Core.WF.term_snoc (h : c.WF) (hr : c.role = .leader) (index : ℕ) (data : Bytes) :
    ∀ e ∈ c.log ++ [{ index := index, term := c.term, data := data }], e.term ≠ 0 := by
  intro e he
  rcases mem_append.mp he with he | he
  · exact h.term e he
  · rw [mem_singleton.mp he]
    have := h.active (.inl hr)
    show c.term ≠ 0
    omega

/-- **Every elementary transition keeps a core well-formed**, as long as client data does
    not carry the configuration prefix. -/
theorem Trans.wf (hp : inp.Plain) (h : c.WF) (ht : Trans inp c u c') : c'.WF := by
  have hfolded := ht.folded hp h.toFolded
  cases ht with
  | adopt t ht => exact { h with active := by rintro (h' | h') <;> simp at h', self := by simp }
  | stepDown => exact { h with active := by rintro (h' | h') <;> simp at h', self := by simp }
  | preCampaign => exact { h with active := by rintro (h' | h') <;> simp at h', self := by simp }
  | countPreVote peer granted hr => exact { h with }
  | campaign => exact { h with active := fun _ => Nat.succ_pos _, self := fun _ => rfl }
  | countVote m hm hr => exact { h with }
  | win hr hq => exact { h with active := fun _ => h.active (.inr hr), self := by simp }
  | grant m hm hv hup =>
    -- a candidate has voted for itself, so it grants nothing
    refine { h with self := fun hr => ?_ }
    have hself := h.self hr
    have hid := h.id_ne
    have hne := hm.from_ne
    rcases hv with hv | hv
    · rw [hself] at hv
      exact absurd hv hid
    · rw [hself] at hv
      exact absurd hv.symm hne
  | propose data hr hd hlen =>
    exact { h with toFolded := hfolded, term := h.term_snoc hr _ _ }
  | reconfigure core command hr hc hm =>
    obtain ⟨m, hf, rfl⟩ := rebuildMembership_eq hm
    exact { h with toFolded := hfolded, term := h.term_snoc hr _ _ }
  | orphan command e hr hc hm =>
    exact { h with toFolded := hfolded, term := h.term_snoc hr _ _ }
  | acknowledge type m hm ht hr hrej hlt => exact { h with }
  | commit k hr hk hle ht hq => exact { h with toFolded := hfolded }
  | splice core m keep tf entries hm hr hwf hle ht hs ha =>
    have hat := spliceAt h.commit_lo hwf hle hs
    obtain ⟨mem, rfl, _⟩ := applySplice_eq ha
    refine { h with toFolded := hfolded, term := ?_ }
    intro e he
    rcases mem_append.mp he with he | he
    · exact h.term e (mem_of_mem_take he)
    · exact (hat.entry e he).1
  | learn m k hm hr hwf hh hk hlt => exact { h with toFolded := hfolded }
  | install core m sent hm hr hs hi ht hv hmi hlt hcommit hb =>
    obtain ⟨mem, hf, rfl⟩ := rebuildMembership_eq hb
    generalize hsn : c.received sent = s at *
    have hsi : s.index ≠ 0 ∧ s.term ≠ 0 := by
      subst hsn; unfold received; split <;> exact ⟨hi, ht⟩
    refine { h with toFolded := hfolded, term := ?_, snap_zero := ?_, snap_data := ?_,
                    active := ?_ }
    · intro e he
      change e ∈ (c.compactLog s).log at he
      rcases compactLog_log_or hlt with hlog | hlog
      · rw [hlog] at he
        exact h.term e (mem_of_mem_drop he)
      · rw [hlog] at he
        simp at he
    · exact ⟨fun h' => absurd h' hsi.1, fun h' => absurd h' hsi.2⟩
    · intro h'
      exact absurd h' hsi.1
    · rintro (h' | h')
      · change c.role = _ at h'; rw [hr] at h'; simp at h'
      · change c.role = _ at h'; rw [hr] at h'; simp at h'
  | compact core s m data hi hd hlt hle ht hterm hat hm hmi hb =>
    obtain ⟨mem, hf, rfl⟩ := rebuildMembership_eq hb
    have hlog := compactLog_log hlt hterm
    refine { h with toFolded := hfolded, term := ?_, snap_zero := ?_, snap_data := ?_ }
    · intro e he
      change e ∈ (c.compactLog s).log at he
      rw [hlog] at he
      exact h.term e (mem_of_mem_drop he)
    · exact ⟨fun h' => by change s.index = 0 at h'; omega, fun h' => absurd h' ht⟩
    · intro h'
      change s.index = 0 at h'
      omega
  | halfCompact s m data e hi hd hlt hle ht hterm hat hm hmi hb =>
    -- folding the rest of a log that folds cannot fail
    obtain ⟨_, hfold⟩ := h.compact_folded hlt hterm hat hm
    unfold rebuildMembership at hb
    rw [hfold] at hb
    simp at hb
  | send ms hms => exact h
  | drop reason => exact h

theorem Trans.compact_spec {index : ℕ} {data : Bytes} {snap : Snapshot}
    (ht : Trans (.snapshot index data) c { snapshot := some snap } c') :
    c.snapshot.index < snap.index ∧ snap.index ≤ c.commit ∧ snap.term ≠ 0
      ∧ c.termAt snap.index = snap.term ∧ c'.snapshot = snap ∧ c'.hardState = c.hardState
      ∧ c'.commit = c.commit ∧ c'.log = c.log.drop (snap.index - c.snapshot.index) := by
  generalize hw : ({ snapshot := some snap } : Update) = w at ht
  cases ht with
  | install core m sent hmr => exact absurd hmr.input (by simp)
  | compact core sn m data hi hd hlt hle ht hterm hat hmm hmi hb =>
    simp only [Update.mk.injEq, Option.some.injEq, true_and, and_true] at hw
    subst hw
    obtain ⟨mem, _, rfl⟩ := rebuildMembership_eq hb
    exact ⟨hlt, hle, ht, hterm, rfl, rfl, rfl, compactLog_log hlt hterm⟩
  | _ => simp at hw

/-- **Every operation keeps a core well-formed.** -/
theorem Path.wf (hp : inp.Plain) (h : c.WF) (hpath : Path inp c u c') : c'.WF := by
  induction hpath with
  | nil => exact h
  | snoc _ ht _ ih => exact ht.wf hp ih

/-! ### Construction -/

omit [MembershipJson] in
theorem checkContiguous_ok_iff (snapshotIndex : ℕ) (es : List Entry) :
    ∀ i, checkContiguous snapshotIndex i es = .ok ()
      ↔ ∀ (k : ℕ) (e : Entry), es[k]? = some e →
        e.index = snapshotIndex + i + k + 1 ∧ e.term ≠ 0 := by
  induction es with
  | nil => intro i; simp [checkContiguous]
  | cons a t ih =>
    intro i
    unfold checkContiguous
    split
    · rename_i hbad
      simp only [reduceCtorEq, false_iff, not_forall]
      refine ⟨0, a, rfl, fun hok => ?_⟩
      rcases hbad with h | h
      · exact h (by omega)
      · exact hok.2 h
    · rename_i hgood
      simp only [not_or, not_not] at hgood
      rw [ih]
      constructor
      · intro h k e he
        cases k with
        | zero =>
          have : a = e := by simpa using he
          subst this
          exact ⟨by omega, hgood.2⟩
        | succ k =>
          have := h k e (by simpa using he)
          exact ⟨by omega, this.2⟩
      · intro h k e he
        have := h (k + 1) e (by simpa using he)
        exact ⟨by omega, this.2⟩

/-- What `New` checks, given the normalised peers `p` and the rebuilt configuration `m`. -/
structure Restores (cfg : Config) (entries : List Entry) (s : Snapshot) (p : List ℕ)
    (m : Membership) : Prop where
  valid : cfg.validate = .ok ()
  restored : checkRestored s = .ok ()
  contiguous : checkContiguous s.index 0 entries = .ok ()
  peers : normalizeVoters cfg.peers = .ok p
  membership : checkSnapshotMembership s = .ok ()
  folded : foldMembership
    (if s.index > 0 ∧ s.membership.voters.length > 0 then s.membership else { voters := p })
    entries = .ok m
  lo : s.index ≤ cfg.appliedIndex
  hi : cfg.appliedIndex ≤ s.index + entries.length

/-- The core `New` builds. -/
def restoredCore (cfg : Config) (hard : HardState) (entries : List Entry) (s : Snapshot)
    (p : List ℕ) (m : Membership) : Core where
  cfg := { cfg with peers := p }
  term := hard.term
  votedFor := hard.votedFor
  snapshot := s
  log := entries
  commit := cfg.appliedIndex
  initialMembership := { voters := p }
  membership := m

omit [MembershipJson] in
private theorem bind_eq_ok {α β : Type} {x : Except String α} {f : α → Except String β} {b : β} :
    (x >>= f) = .ok b ↔ ∃ a, x = .ok a ∧ f a = .ok b := by
  cases x with
  | error e => simp [bind, Except.bind]
  | ok a => simp [bind, Except.bind]

omit [MembershipJson] in
private theorem checkApplied_ok_iff (applied lo hi : ℕ) :
    checkApplied applied lo hi = .ok () ↔ lo ≤ applied ∧ applied ≤ hi := by
  unfold checkApplied
  split
  · simp; omega
  · simp; omega

/-- **`New`** builds `restoredCore` from state that passes its checks. -/
theorem Node.new_spec {cfg : Config} {hard : HardState} {entries : List Entry}
    {restored : Option Snapshot} {n : Node} (h : Node.new cfg hard entries restored = .ok n) :
    ∃ p m, Restores cfg entries (restored.getD {}) p m
      ∧ n.toCore = restoredCore cfg hard entries (restored.getD {}) p m := by
  unfold Node.new at h
  simp only [bind_eq_ok] at h
  obtain ⟨_, hv, _, hr, _, hc, p, hp, _, hm, core, hcore, _, ha, hn⟩ := h
  obtain ⟨m, hf, rfl⟩ := rebuildMembership_eq hcore
  obtain ⟨hlo, hhi⟩ := (checkApplied_ok_iff _ _ _).mp ha
  refine ⟨p, m, ⟨hv, hr, hc, hp, hm, hf, hlo, hhi⟩, ?_⟩
  simp only [pure, Except.pure, Except.ok.injEq] at hn
  rw [← hn]
  rfl

theorem Node.new_leaderID {cfg : Config} {hard : HardState} {entries : List Entry}
    {restored : Option Snapshot} {n : Node} (h : Node.new cfg hard entries restored = .ok n) :
    n.leaderID = 0 := by
  unfold Node.new at h
  simp only [bind_eq_ok] at h
  obtain ⟨_, _, _, _, _, _, _, _, _, _, core, _, _, _, hn⟩ := h
  simp only [pure, Except.pure, Except.ok.injEq] at hn
  rw [← hn]
  rfl

/-- **`New`** succeeds on state that passes its checks. -/
theorem Node.new_ok {cfg : Config} (hard : HardState) {entries : List Entry}
    {restored : Option Snapshot} {p : List ℕ} {m : Membership}
    (h : Restores cfg entries (restored.getD {}) p m) :
    ∃ n, Node.new cfg hard entries restored = .ok n
      ∧ n.toCore = restoredCore cfg hard entries (restored.getD {}) p m := by
  refine ⟨({ toCore := restoredCore cfg hard entries (restored.getD {}) p m
             random := if cfg.randomSeed = 0 then
               (cfg.id * 6364136223846793005 + 1442695040888963407) % 2 ^ 64
               else cfg.randomSeed } : Node).resetElectionTimer, ?_, rfl⟩
  unfold Node.new
  simp only [bind_eq_ok]
  refine ⟨(), h.valid, (), h.restored, (), h.contiguous, p, h.peers, (), h.membership,
    restoredCore cfg hard entries (restored.getD {}) p m, ?_, (),
    (checkApplied_ok_iff _ _ _).mpr ⟨h.lo, h.hi⟩, rfl⟩
  unfold rebuildMembership baseMembership
  dsimp only
  rw [h.folded]
  rfl

omit [MembershipJson] in
theorem Config.id_ne_of_validate {cfg : Config} (h : cfg.validate = .ok ()) : cfg.id ≠ 0 := by
  intro h0
  simp [Config.validate, h0] at h

theorem Restores.wf {cfg : Config} (hard : HardState) {entries : List Entry} {s : Snapshot}
    {p : List ℕ} {m : Membership} (h : Restores cfg entries s p m) :
    (restoredCore cfg hard entries s p m).WF := by
  have hcont := (checkContiguous_ok_iff s.index entries 0).mp h.contiguous
  have hrest := h.restored
  unfold checkRestored at hrest
  split at hrest
  · simp at hrest
  rename_i hzero
  split at hrest
  · simp at hrest
  rename_i hmi
  simp only [not_or, not_and, ne_eq, not_not] at hzero
  refine ⟨⟨⟨?_, h.lo, h.hi⟩, normalizeVoters_normal h.peers, rfl, h.folded, ?_, ?_⟩, ?_, ?_, ?_,
    ?_, show cfg.id ≠ 0 from Config.id_ne_of_validate h.valid, by simp [restoredCore]⟩
  · intro k e he
    have := (hcont k e he).1
    show e.index = s.index + k + 1
    omega
  · intro h0 hv
    have hmem := h.membership
    unfold checkSnapshotMembership at hmem
    rw [if_pos ⟨h0, length_pos_iff.mpr hv⟩] at hmem
    split at hmem
    · simp at hmem
    · rename_i hval
      exact (validateMembership_ok_iff _).mp hval
  · show s.membership.index ≤ s.index
    omega
  · intro e he
    obtain ⟨k, hk⟩ := mem_iff_getElem?.mp he
    exact (hcont k e hk).2
  · show s.index = 0 ↔ s.term = 0
    simpa using hzero.1
  · intro h0
    exact length_eq_zero_iff.mp (hzero.2 h0)
  · rintro (h' | h') <;> simp [restoredCore] at h'

/-- **A well-formed core can be restored** from its hard state, log and snapshot at any
    applied index between the snapshot and the commit index. -/
theorem Core.WF.restores (h : c.WF) {cfg : Config} (hv : cfg.validate = .ok ())
    (hp : normalizeVoters cfg.peers = .ok c.cfg.peers) (hlo : c.snapshot.index ≤ cfg.appliedIndex)
    (hhi : cfg.appliedIndex ≤ c.commit) {s : Snapshot} (hsi : s.index = c.snapshot.index)
    (hst : s.term = c.snapshot.term) (hsm : s.membership = c.snapshot.membership)
    (hsd : s.index = 0 → s.data = []) :
    Restores cfg c.log s c.cfg.peers c.membership := by
  refine ⟨hv, ?_, ?_, hp, ?_, ?_, by omega, ?_⟩
  · unfold checkRestored
    have h1 : decide (s.index = 0) = decide (s.term = 0) := by
      rw [hsi, hst]; simpa using h.snap_zero
    have h2 : ¬ (s.index = 0 ∧ s.data.length ≠ 0) := by
      rintro ⟨h0, hd⟩
      rw [hsd h0] at hd
      simp at hd
    have h3 : ¬ s.index < s.membership.index := by
      rw [hsi, hsm]; have := h.snap_mem_index; omega
    rw [if_neg (by simp only [not_or, ne_eq, not_not]; exact ⟨h1, h2⟩), if_neg h3]
  · rw [checkContiguous_ok_iff]
    intro k e he
    have := h.index k e he
    exact ⟨by omega, h.term e (mem_of_getElem? he)⟩
  · unfold checkSnapshotMembership
    rw [hsi, hsm]
    split
    · rename_i hcond
      rw [(validateMembership_ok_iff _).mpr (h.snap_mem hcond.1 (length_pos_iff.mp hcond.2))]
    · rfl
  · have := h.folded
    unfold baseMembership at this
    rw [h.init] at this
    rw [hsi, hsm]
    exact this
  · have := h.commit_hi
    unfold lastIndex at this
    omega

end Codec

end Lsmdb.Raft

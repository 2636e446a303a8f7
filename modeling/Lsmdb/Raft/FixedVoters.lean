import Lsmdb.Raft.WellFormed

namespace Lsmdb.Raft

/-!
# Raft core — a fixed voter set

As long as nobody requests a configuration change, no log, snapshot or message carries any
configuration but the bootstrap voters (`Core.Fixed`), and leadership rests on votes of a
majority of them (`Core.Backed`): a candidate counts only votes it was granted, and whoever
leads, or sends what only a leader sends, has such a majority behind it.

`granted t voter candidate` stands for the votes on record; here it is any relation that
contains the votes the node is handed.
-/

section Codec
variable [MembershipJson] {boot : List ℕ} {inp : Input} {c c' : Core} {u : Update}

/-! ### Nothing but the bootstrap voters -/

/-- The core knows no configuration but the bootstrap voters. -/
structure Core.Fixed (boot : List ℕ) (c : Core) : Prop where
  voters : c.membership = { voters := boot }
  initial : c.initialMembership = { voters := boot }
  snap : 0 < c.snapshot.index → c.snapshot.membership = { voters := boot }
  plain : ∀ e ∈ c.log, hasMembershipPrefix e.data = false

section
omit [MembershipJson]

/-- The message carries no configuration but the bootstrap voters. -/
structure Message.Fixed (boot : List ℕ) (m : Message) : Prop where
  plain : ∀ e ∈ m.entries, hasMembershipPrefix e.data = false
  snap : ∀ s, m.snapshot = some s → s.membership = { voters := boot }

/-- The input neither requests a configuration change nor carries one. -/
def Input.Fixed (boot : List ℕ) : Input → Prop
  | .message m => m.Fixed boot
  | .commands data => ∀ d ∈ data, hasMembershipPrefix d = false
  | .voters _ => False
  | _ => True

theorem Input.Fixed.plain (h : inp.Fixed boot) : inp.Plain := by
  intro data heq
  subst heq
  exact h

theorem Core.Fixed.base (h : c.Fixed boot) : c.baseMembership = { voters := boot } := by
  unfold Core.baseMembership
  split
  · rename_i hpos
    exact h.snap hpos.1
  · exact h.initial

end

/-- A log without configuration entries folds to the configuration it starts from. -/
private theorem fold_boot {base mem : Membership} {l : List Entry}
    (hbase : base = { voters := boot }) (hl : ∀ e ∈ l, hasMembershipPrefix e.data = false)
    (hf : foldMembership base l = .ok mem) : mem = { voters := boot } := by
  rw [foldMembership_plain base hl, hbase] at hf
  exact (Except.ok.inj hf).symm

omit [MembershipJson] in
private theorem mem_log_of_compactLog {s : Snapshot} {e : Entry}
    (hlt : c.snapshot.index < s.index) (he : e ∈ (c.compactLog s).log) : e ∈ c.log := by
  rcases Core.compactLog_log_or hlt with hlog | hlog
  · rw [hlog] at he
    exact List.mem_of_mem_drop he
  · rw [hlog] at he
    simp at he

omit [MembershipJson] in
private theorem Core.Fixed.not_reconfigures (h : c.Fixed boot) (hin : inp.Fixed boot)
    {command : MembershipCommand} : ¬Reconfigures inp c command := by
  rintro (⟨voters, new, hi, -, -, -⟩ | ⟨hj, -⟩)
  · subst hi
    exact hin
  · exact hj (by rw [h.voters])

/-- A core whose log was cut at a snapshot of the bootstrap voters. -/
private theorem Core.Fixed.cut (h : c.Fixed boot) {s : Snapshot} {mem : Membership}
    (hlt : c.snapshot.index < s.index) (hs : s.membership = { voters := boot })
    (hf : foldMembership (c.compactLog s).baseMembership (c.compactLog s).log = .ok mem)
    (k : ℕ) : ({ c.compactLog s with membership := mem, commit := k } : Core).Fixed boot := by
  have hplain : ∀ e ∈ (c.compactLog s).log, hasMembershipPrefix e.data = false :=
    fun e he => h.plain e (mem_log_of_compactLog hlt he)
  have hbase : (c.compactLog s).baseMembership = { voters := boot } := by
    unfold Core.baseMembership
    split
    · exact hs
    · exact h.initial
  exact ⟨fold_boot hbase hplain hf, h.initial, fun _ => hs, hplain⟩

/-- **Every elementary transition keeps the voter set** as long as no change is requested. -/
theorem Trans.fixed (hin : inp.Fixed boot) (h : c.Fixed boot) (ht : Trans inp c u c')
    (hcommit : c.snapshot.index ≤ c.commit) : c'.Fixed boot := by
  cases ht with
  | propose data hr hd hlen =>
    refine ⟨h.voters, h.initial, h.snap, ?_⟩
    intro e he
    rcases List.mem_append.mp he with he | he
    · exact h.plain e he
    · rw [List.mem_singleton.mp he]
      rcases hd with rfl | ⟨commands, hi, hmem⟩
      · exact (by decide : hasMembershipPrefix [] = false)
      · exact hin.plain commands hi data hmem
  | reconfigure core command hr hc hm => exact absurd hc (h.not_reconfigures hin)
  | orphan command e hr hc hm => exact absurd hc (h.not_reconfigures hin)
  | splice core m keep tf entries hm hr hwf hle ht hs ha =>
    have hat := Core.spliceAt hcommit hwf hle hs
    obtain ⟨pre, hsplit, -⟩ := hat.split
    have hmsg : m.Fixed boot := by
      have := hin
      rw [hm.input] at this
      exact this
    have hplain : ∀ e ∈ c.log.take keep ++ entries, hasMembershipPrefix e.data = false := by
      intro e he
      rcases List.mem_append.mp he with he | he
      · exact h.plain e (List.mem_of_mem_take he)
      · exact hmsg.plain e (by rw [hsplit]; exact List.mem_append_right _ he)
    obtain ⟨mem, rfl, hmem⟩ := Core.applySplice_eq ha
    refine ⟨?_, h.initial, h.snap, hplain⟩
    rcases hmem with hf | ⟨-, -, rfl⟩
    · exact fold_boot h.base hplain hf
    · exact h.voters
  | install core m sent hm hr hs hi ht hv hmi hlt hcommit hb =>
    obtain ⟨mem, hf, rfl⟩ := Core.rebuildMembership_eq hb
    refine h.cut hlt ?_ hf _
    have hmsg : m.Fixed boot := by
      have := hin
      rw [hm.input] at this
      exact this
    unfold Core.received
    split
    · exact h.initial
    · exact hmsg.snap sent hs
  | compact core s m data hi hd hlt hle ht hterm hat hm hmi hb =>
    obtain ⟨mem, hf, rfl⟩ := Core.rebuildMembership_eq hb
    refine h.cut hlt ?_ hf _
    rw [hm]
    unfold Core.membershipAt at hat
    rw [foldMembership_plain _ (fun e he => h.plain e (List.takeWhile_subset _ he))] at hat
    rw [← Except.ok.inj hat]
    exact h.base
  | halfCompact s m data e hi hd hlt hle ht hterm hat hm hmi hb =>
    refine ⟨h.voters, h.initial, fun _ => ?_, fun e he => h.plain e (mem_log_of_compactLog hlt he)⟩
    show s.membership = _
    rw [hm]
    unfold Core.membershipAt at hat
    rw [foldMembership_plain _ (fun e he => h.plain e (List.takeWhile_subset _ he))] at hat
    rw [← Except.ok.inj hat]
    exact h.base
  | _ => exact ⟨h.voters, h.initial, h.snap, h.plain⟩

omit [MembershipJson] in
theorem Emits.fixed {m : Message} (h : c.Fixed boot) (he : Emits inp c m) : m.Fixed boot := by
  have silent : ∀ {m : Message}, m.entries = [] → m.snapshot = none → m.Fixed boot := by
    intro m h1 h2
    exact ⟨by rw [h1]; simp, by rw [h2]; simp⟩
  cases he with
  | append peer prev context origin entries hr hlo hhi hes hc =>
    exact ⟨fun e hmem => h.plain e (List.mem_of_mem_drop (hes.subset hmem)), by simp⟩
  | snapshot peer origin hr h0 =>
    refine ⟨by simp, fun s hs => ?_⟩
    rw [← Option.some.inj hs]
    exact h.snap h0
  | _ => exact silent rfl rfl

/-- **Every operation keeps the voter set** as long as no change is requested. -/
theorem Path.fixed (hin : inp.Fixed boot) (hf : c.Folded) (h : c.Fixed boot)
    (hpath : Path inp c u c') : c'.Fixed boot ∧ ∀ m ∈ u.messages, m.Fixed boot := by
  induction hpath with
  | nil => exact ⟨h, by simp⟩
  | snoc hpre ht hc ih =>
    have hfold := hpre.folded hin.plain hf
    refine ⟨ht.fixed hin ih.1 hfold.commit_lo, ?_⟩
    intro m hm
    rcases List.mem_append.mp hm with hm | hm
    · exact ih.2 m hm
    · cases ht with
      | send ms hms => exact (hms m hm).fixed ih.1
      | _ => simp at hm

/-! ### Leadership rests on votes -/

omit [MembershipJson] in
/-- A majority of the bootstrap voters is on record for `i` in term `t`, or is `i` itself. -/
def Elected (boot : List ℕ) (granted : ℕ → ℕ → ℕ → Prop) (t i : ℕ) : Prop :=
  ∃ f : ℕ → Bool, hasSetQuorum boot f = true ∧ ∀ j, f j = true → j = i ∨ granted t j i

omit [MembershipJson] in
theorem Elected.mono {g g' : ℕ → ℕ → ℕ → Prop} {t i : ℕ} (hg : ∀ t j i, g t j i → g' t j i)
    (h : Elected boot g t i) : Elected boot g' t i := by
  obtain ⟨f, hf, hfg⟩ := h
  exact ⟨f, hf, fun j hj => (hfg j hj).imp id (hg t j i)⟩

/-- A candidate counts votes on record, and a leader is elected. -/
structure Core.Backed (boot : List ℕ) (granted : ℕ → ℕ → ℕ → Prop) (c : Core) : Prop where
  cand : c.role = .candidate → ∀ j, c.votes j = some true →
    j = c.cfg.id ∨ granted c.term j c.cfg.id
  lead : c.role = .leader → Elected boot granted c.term c.cfg.id

variable {granted : ℕ → ℕ → ℕ → Prop}

section
omit [MembershipJson]

theorem Core.Backed.mono {g' : ℕ → ℕ → ℕ → Prop} (hg : ∀ t j i, granted t j i → g' t j i)
    (h : c.Backed boot granted) : c.Backed boot g' :=
  ⟨fun hr j hj => (h.cand hr j hj).imp id (hg _ _ _), fun hr => (h.lead hr).mono hg⟩

/-- A node without a campaign needs no backing. -/
theorem Core.Backed.of_idle (hc : c.role ≠ .candidate) (hl : c.role ≠ .leader) :
    c.Backed boot granted :=
  ⟨fun hr => absurd hr hc, fun hr => absurd hr hl⟩

/-- Backing only reads the role, the term, the votes and the identifier. -/
theorem Core.Backed.congr (h : c.Backed boot granted) (hr : c'.role = c.role)
    (ht : c'.term = c.term) (hcfg : c'.cfg = c.cfg) (hv : c'.votes = c.votes) :
    c'.Backed boot granted := by
  refine ⟨?_, ?_⟩
  · rw [hr, ht, hcfg, hv]
    exact h.cand
  · rw [hr, ht, hcfg]
    exact h.lead

end

/-- The granted votes the operation is handed are on record. -/
def Input.Recorded (granted : ℕ → ℕ → ℕ → Prop) (inp : Input) (id : ℕ) : Prop :=
  ∀ m, inp = .message m → m.type = .voteResponse → m.reject = false →
    m.toID = 0 ∨ m.toID = id → granted m.term m.fromID id

/-- No transition touches the configuration of the node itself. -/
theorem Trans.cfg_eq (ht : Trans inp c u c') : c'.cfg = c.cfg := by
  cases ht with
  | reconfigure core command hr hc hm =>
    obtain ⟨mem, _, rfl⟩ := Core.rebuildMembership_eq hm
    rfl
  | splice core m keep tf entries hm hr hwf hle ht hs ha =>
    obtain ⟨mem, rfl, _⟩ := Core.applySplice_eq ha
    rfl
  | install core m sent hm hr hs hi ht hv hmi hlt hcommit hb =>
    obtain ⟨mem, _, rfl⟩ := Core.rebuildMembership_eq hb
    rfl
  | compact core s m data hi hd hlt hle ht hterm hat hm hmi hb =>
    obtain ⟨mem, _, rfl⟩ := Core.rebuildMembership_eq hb
    rfl
  | _ => rfl

theorem Path.cfg_eq (hpath : Path inp c u c') : c'.cfg = c.cfg := by
  induction hpath with
  | nil => rfl
  | snoc _ ht _ ih => exact ht.cfg_eq.trans ih

/-- **Winning takes a majority of recorded votes.** -/
theorem Trans.backed (hin : inp.Recorded granted c.cfg.id) (hv : c.membership.voters = boot)
    (h : c.Backed boot granted) (ht : Trans inp c u c') : c'.Backed boot granted := by
  cases ht with
  | adopt t ht => exact .of_idle (by simp) (by simp)
  | stepDown => exact .of_idle (by simp) (by simp)
  | preCampaign => exact .of_idle (by simp) (by simp)
  | countPreVote peer granted' hr =>
    refine .of_idle ?_ ?_ <;> simp [hr]
  | campaign =>
    refine ⟨fun _ j hj => .inl ?_, fun hr => by simp at hr⟩
    by_contra hne
    have hj' : setAt (fun _ => none) c.cfg.id (some true) j = some true := hj
    rw [setAt, Function.update_of_ne hne] at hj'
    simp at hj'
  | countVote m hm hr =>
    refine ⟨fun _ j hj => ?_, fun hr' => by simp [hr] at hr'⟩
    have hj' : setAt c.votes m.fromID (some (!m.reject)) j = some true := hj
    by_cases hfrom : j = m.fromID
    · subst hfrom
      rw [setAt, Function.update_self] at hj'
      have hrej : m.reject = false := by simpa using hj'
      right
      have := hin m hm.input hm.type_eq hrej hm.to_ok
      rwa [hm.term_eq] at this
    · rw [setAt, Function.update_of_ne hfrom] at hj'
      exact h.cand hr j hj'
  | win hr hq =>
    refine ⟨fun hr' => by simp at hr', fun _ => ⟨c.granted, ?_, ?_⟩⟩
    · have := ((Membership.hasQuorum_iff _ _).mp hq).1
      rwa [hv] at this
    · intro j hj
      exact h.cand hr j (by simpa [Core.granted] using hj)
  | reconfigure core command hr hc hm =>
    obtain ⟨mem, _, rfl⟩ := Core.rebuildMembership_eq hm
    exact h.congr rfl rfl rfl rfl
  | splice core m keep tf entries hm hr hwf hle ht hs ha =>
    obtain ⟨mem, rfl, _⟩ := Core.applySplice_eq ha
    exact h.congr rfl rfl rfl rfl
  | install core m sent hm hr hs hi ht hv hmi hlt hcommit hb =>
    obtain ⟨mem, _, rfl⟩ := Core.rebuildMembership_eq hb
    exact h.congr rfl rfl rfl rfl
  | compact core s m data hi hd hlt hle ht hterm hat hm hmi hb =>
    obtain ⟨mem, _, rfl⟩ := Core.rebuildMembership_eq hb
    exact h.congr rfl rfl rfl rfl
  | _ => exact h.congr rfl rfl rfl rfl

omit [MembershipJson] in
theorem Emits.elected {m : Message} (h : c.Backed boot granted) (he : Emits inp c m)
    (hm : m.type = .append ∨ m.type = .snapshot) : Elected boot granted m.term m.fromID := by
  cases he with
  | append peer prev context origin entries hr hlo hhi hes hc => exact h.lead hr
  | snapshot peer origin hr h0 => exact h.lead hr
  | reject type peer hint ht =>
    rcases ht with rfl | rfl | rfl | rfl <;> simp at hm
  | _ => simp at hm

/-- **Every operation keeps leadership backed**, and so is all it sends as a leader. -/
theorem Path.backed (hin : inp.Fixed boot) (hrec : inp.Recorded granted c.cfg.id) (hf : c.Folded)
    (hfix : c.Fixed boot) (h : c.Backed boot granted) (hpath : Path inp c u c') :
    c'.Backed boot granted ∧ ∀ m ∈ u.messages, m.type = .append ∨ m.type = .snapshot →
      Elected boot granted m.term m.fromID := by
  induction hpath with
  | nil => exact ⟨h, by simp⟩
  | snoc hpre ht hc ih =>
    obtain ⟨hb, hms⟩ := ih
    have hcfg := hpre.cfg_eq
    have hvoters := (hpre.fixed hin hf hfix).1.voters
    refine ⟨ht.backed (by rw [hcfg]; exact hrec) (by rw [hvoters]) hb, ?_⟩
    intro m hm htype
    rcases List.mem_append.mp hm with hm | hm
    · exact hms m hm htype
    · cases ht with
      | send ms hemit => exact (hemit m hm).elected hb htype
      | _ => simp at hm

end Codec

end Lsmdb.Raft

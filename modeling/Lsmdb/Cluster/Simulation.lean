import Lsmdb.Cluster.Relation

namespace Lsmdb.Cluster

open Lsmdb.Raft Consensus List Function

/-!
# Cluster — every transition of a node is a few steps of the abstract protocol

One lemma per elementary transition of `Raft.Trans`.  Transitions that touch neither term,
vote, log nor commit index need no step at all (`Refines.idle`).
-/

section Codec
variable [MembershipJson] {boot : List ℕ} {image : List Entry → Bytes}
  {a : Sys ℕ Entry} {i : ℕ} {c c' : Core}

/-- What a transition of node `i` to core `c'` achieves on the abstract side. -/
def Simulated (boot : List ℕ) (image : List Entry → Bytes) (i : ℕ) (a : Sys ℕ Entry)
    (c' : Core) : Prop :=
  ∃ a', Steps (scheme boot) i a a' ∧ Refines boot image i c' a' ∧ Indexed a'

/-- A transition that only gives up a role leaves the abstract node where it is. -/
theorem Refines.idle (h : Refines boot image i c a) (hidx : Indexed a) (hwf : c'.WF)
    (hcfg : c'.cfg = c.cfg) (hterm : c'.term = c.term) (hvote : c'.votedFor = c.votedFor)
    (hsnap : c'.snapshot = c.snapshot) (hlog : c'.log = c.log) (hcommit : c'.commit = c.commit)
    (hcand : c'.role ≠ .candidate) (hlead : c'.role ≠ .leader) :
    Simulated boot image i a c' := by
  refine ⟨a, .refl a, ?_, hidx⟩
  exact {
    wf := hwf
    id := by rw [hcfg]; exact h.id
    id_ne := h.id_ne
    peers := by rw [hcfg]; exact h.peers
    term := by rw [hterm]; exact h.term
    log := by rw [hlog, hsnap]; exact h.log
    commit := by rw [hcommit]; exact h.commit
    vote := by rw [hterm, hvote]; exact h.vote
    cand := fun hr => absurd hr hcand
    lead := fun hr => absurd hr hlead }

/-- Adopting a higher term: nobody has voted for the node's vote in it yet. -/
theorem Refines.adopt (hinv : Inv (scheme boot) a) (hidx : Indexed a)
    (h : Refines boot image i c a) {t : ℕ} (ht : c.term < t)
    (hwf : ({ c with term := t, votedFor := 0, role := .follower,
                     votes := fun _ => none } : Core).WF) :
    Simulated boot image i a
      { c with term := t, votedFor := 0, role := .follower, votes := fun _ => none } := by
  have hlt : a.term i < t := by rw [h.term]; exact ht
  refine ⟨_, .single (.adopt a t hlt), ?_, hidx⟩
  exact {
    wf := hwf
    id := h.id
    id_ne := h.id_ne
    peers := h.peers
    term := update_self i t a.term
    log := h.log
    commit := h.commit
    vote := by
      -- a vote in `t` would have moved the node's term to `t` before
      show a.vote t i = _
      cases hv : a.vote t i with
      | none => simp
      | some x => exact absurd (hinv.vote_term t i x hv) (by omega)
    cand := fun hr => by simp at hr
    lead := fun hr => by simp at hr }

theorem Refines.campaign (hidx : Indexed a) (hinv : Inv (scheme boot) a)
    (h : Refines boot image i c a)
    (hwf : ({ c with role := .candidate, term := c.term + 1, votedFor := c.cfg.id,
                     votes := setAt (fun _ => none) c.cfg.id (some true) } : Core).WF) :
    Simulated boot image i a
      { c with role := .candidate, term := c.term + 1, votedFor := c.cfg.id,
               votes := setAt (fun _ => none) c.cfg.id (some true) } := by
  have hlt : a.term i < c.term + 1 := by rw [h.term]; omega
  have hid := h.id
  refine ⟨_, .single (.campaign a (c.term + 1) hlt), ?_, hidx⟩
  exact {
    wf := hwf
    id := hid
    id_ne := h.id_ne
    peers := h.peers
    term := update_self i _ a.term
    log := h.log
    commit := h.commit
    vote := by
      show set2 a.vote (c.term + 1) i (some i) (c.term + 1) i = _
      rw [set2_same]
      simp [hid, h.id_ne]
    cand := by
      intro _
      refine ⟨set2_same _ _ _ _, ?_, ?_⟩
      · -- a leader of the new term would have campaigned in it
        intro hl
        have := (hinv.cand_term _ _ _ (hinv.lead_cand (c.term + 1) i hl)).1
        omega
      · intro j hj
        have hji : j = i := by
          by_contra hne
          simp [setAt, hid, hne] at hj
        subst hji
        exact set2_same _ _ _ _
    lead := fun hr => by simp at hr }

/-! ### Elections -/

theorem Refines.countVote {inp : Input} (hidx : Indexed a) (h : Refines boot image i c a)
    {m : Message} (hm : Receives inp c .voteResponse m) (hmean : Meaning boot image a m)
    (hr : c.role = .candidate)
    (hwf : ({ c with votes := setAt c.votes m.fromID (some (!m.reject)) } : Core).WF) :
    Simulated boot image i a { c with votes := setAt c.votes m.fromID (some (!m.reject)) } := by
  refine ⟨a, .refl a, ?_, hidx⟩
  obtain ⟨hc, hl, hv⟩ := h.cand hr
  refine { h with wf := hwf, cand := fun _ => ⟨hc, hl, ?_⟩, lead := h.lead }
  intro j hj
  by_cases hjm : j = m.fromID
  · subst hjm
    have hrej : m.reject = false := by simpa [setAt] using hj
    unfold Meaning at hmean
    rw [hm.type_eq] at hmean
    obtain ⟨hto, hvote⟩ := hmean hrej
    rw [hm.term_eq, hm.to_ok.resolve_left hto, h.id] at hvote
    exact hvote
  · exact hv j (by simpa [setAt, hjm] using hj)

theorem Indexed.log (hinv : Inv (scheme boot) a) (hidx : Indexed a) {n k : ℕ} {e : Entry}
    (he : (a.log n)[k]? = some e) : e.index = k + 1 ∧ e.term ≠ 0 := by
  obtain ⟨_, hpre⟩ := hinv.log_wf n k e he
  refine hidx _ k e (getElem?_extend hpre ?_)
  rw [getElem?_take_of_lt (by omega)]
  exact he

/-- Winning: the granted votes are a quorum of the candidate's configuration, and no other
    node can have won the term. -/
theorem Refines.win (hinv : Inv (scheme boot) a) (hidx : Indexed a)
    (h : Refines boot image i c a) (hr : c.role = .candidate)
    (hq : c.membership.hasQuorum c.granted = true)
    (hwf : ({ c with role := .leader
                     matchIndex := fun id => if id = c.cfg.id then c.lastIndex else 0 } :
      Core).WF) :
    Simulated boot image i a
      { c with role := .leader
               matchIndex := fun id => if id = c.cfg.id then c.lastIndex else 0 } := by
  obtain ⟨hc, hl, hv⟩ := h.cand hr
  have hquorum : (scheme boot).quorum ((scheme boot).conf (a.log i))
      (fun n => a.vote c.term n = some i) := by
    refine ⟨c.granted, ?_, fun j hj => hv j (by simpa [Core.granted] using hj)⟩
    show (confOf boot (a.log i)).hasQuorum c.granted = true
    rw [← h.conf]
    exact hq
  have hnone : a.lead c.term = none := by
    cases hlead : a.lead c.term with
    | none => rfl
    | some n =>
      rw [hinv.winner_unique hc hquorum hlead] at hlead
      exact absurd hlead hl
  rw [← h.term] at hnone hc hquorum
  refine ⟨_, .single (.win a hnone hc hquorum), ?_, ?_⟩
  · refine { h with wf := hwf, cand := fun hr' => by simp at hr', lead := fun _ => ⟨?_, ?_⟩ }
    · show update a.lead (a.term i) (some i) c.term = some i
      rw [h.term, update_self]
    · intro j
      show (if j = c.cfg.id then c.lastIndex else 0)
        ≤ set2 a.ack (a.term i) i (a.log i).length c.term j
      split
      · rename_i hj
        rw [hj, h.id, h.term, set2_same, h.length_log]
      · exact Nat.zero_le _
  · -- the new leader log is the winner's own
    intro t k e he
    by_cases ht : t = a.term i
    · subst ht
      refine Indexed.log hinv hidx (n := i) ?_
      simpa using he
    · refine hidx t k e ?_
      simpa [update_of_ne ht] using he

/-- Granting a vote: a repeated grant changes nothing, a first one is a vote for a
    candidate whose log is up to date. -/
theorem Refines.grant {inp : Input} (hinv : Inv (scheme boot) a) (hidx : Indexed a)
    (h : Refines boot image i c a) {m : Message} (hm : Receives inp c .vote m)
    (hmean : Meaning boot image a m) (hv : c.votedFor = 0 ∨ c.votedFor = m.fromID)
    (hup : c.isUpToDate m.logIndex m.logTerm = true)
    (hwf : ({ c with votedFor := m.fromID } : Core).WF) :
    Simulated boot image i a { c with votedFor := m.fromID } := by
  unfold Meaning at hmean
  rw [hm.type_eq] at hmean
  obtain ⟨hfrom, L, hL, hlen, hterm⟩ := hmean
  rw [hm.term_eq] at hL
  rcases hv with hv | hv
  · have hnone : a.vote (a.term i) i = none := by
      rw [h.term, h.vote, if_pos hv]
    have hutd : (scheme boot).UpToDate L (a.log i) := by
      have hlast := h.lastTerm_take_log (h.wf.commit_lo.trans h.wf.commit_hi) (Nat.le_refl _)
      rw [← h.length_log, take_length, h.length_log] at hlast
      unfold Scheme.UpToDate
      rw [hlast, hterm, hlen, h.length_log]
      have hdec := of_decide_eq_true hup
      omega
    have hstep := Step.grant (S := scheme boot) (i := i) a m.fromID L hnone (by rw [h.term]; exact hL) hutd
    have hx := Step.ext hinv hstep
    refine ⟨_, .single hstep, ?_, hidx⟩
    refine { h with wf := hwf, vote := ?_, cand := fun hr => ?_, lead := h.lead }
    · show set2 a.vote (a.term i) i (some m.fromID) c.term i = _
      rw [h.term, set2_same]
      simp [hfrom]
    · obtain ⟨h1, h2, h3⟩ := h.cand hr
      exact ⟨h1, h2, fun j hj => hx.vote _ _ _ (h3 j hj)⟩
  · refine ⟨a, .refl a, ?_, hidx⟩
    refine { h with wf := hwf, vote := ?_, cand := h.cand, lead := h.lead }
    show a.vote c.term i = if m.fromID = 0 then none else some m.fromID
    rw [h.vote, hv]

/-! ### The leader's log -/

theorem Refines.extend (hinv : Inv (scheme boot) a) (hidx : Indexed a)
    (h : Refines boot image i c a) (hr : c.role = .leader) {data : Bytes}
    (hlog : c'.log = c.log ++ [{ index := c.lastIndex + 1, term := c.term, data := data }])
    (hmatch : c'.matchIndex = setAt c.matchIndex c.cfg.id (c.lastIndex + 1))
    (hcfg : c'.cfg = c.cfg) (hterm : c'.term = c.term) (hvote : c'.votedFor = c.votedFor)
    (hsnap : c'.snapshot = c.snapshot) (hcommit : c'.commit = c.commit)
    (hrole : c'.role = c.role) (hwf : c'.WF)
    (hconf : hasMembershipPrefix data = true →
      FollowsConf (confOf boot (a.log i)) (confOf boot (a.log i ++
          [{ index := c.lastIndex + 1, term := c.term, data := data }]))
        ∧ ∀ (j : ℕ) (d : Entry), (a.log i)[j]? = some d → hasMembershipPrefix d.data = true →
          j < a.commit i) :
    Simulated boot image i a c' := by
  obtain ⟨hl, hack⟩ := h.lead hr
  have hpos : 0 < c.term := h.wf.active (.inl hr)
  have hstep := Step.extend (S := scheme boot) (i := i) a
    { index := c.lastIndex + 1, term := c.term, data := data } (by rw [h.term]; exact hl)
    h.term.symm hconf
  refine ⟨_, .single hstep, ?_, ?_⟩
  · exact {
      wf := hwf
      id := by rw [hcfg]; exact h.id
      id_ne := h.id_ne
      peers := by rw [hcfg]; exact h.peers
      term := by rw [hterm]; exact h.term
      log := by
        obtain ⟨pre, hpre, hs⟩ := h.log
        refine ⟨pre, ?_, by rw [hsnap]; exact hs⟩
        show update a.log i _ i = _
        rw [update_self, hpre, hlog, append_assoc]
      commit := by rw [hcommit]; exact h.commit
      vote := by rw [hterm, hvote]; exact h.vote
      cand := fun hc => by rw [hrole, hr] at hc; simp at hc
      lead := by
        intro _
        rw [hterm]
        refine ⟨hl, fun j => ?_⟩
        rw [hmatch, h.id]
        show setAt c.matchIndex i (c.lastIndex + 1) j
          ≤ set2 a.ack (a.term i) i ((a.log i).length + 1) c.term j
        by_cases hj : j = i
        · subst hj
          rw [h.term, set2_same, h.length_log]
          simp [setAt]
        · rw [set2_ne _ _ (fun hc => hj hc.2)]
          simpa [setAt, hj] using hack j }
  · -- the new entry sits at the end of the leader's log
    intro t k e he
    by_cases ht : t = a.term i
    · subst ht
      have he' : (a.log i ++ [{ index := c.lastIndex + 1, term := c.term, data := data }])[k]?
          = some e := by simpa using he
      rcases getElem?_snoc he' with hold | ⟨hk, rfl⟩
      · exact Indexed.log hinv hidx hold
      · exact ⟨by rw [hk, h.length_log], by show c.term ≠ 0; omega⟩
    · exact hidx t k e (by simpa [update_of_ne ht] using he)

theorem Refines.acknowledge {inp : Input} (hidx : Indexed a) (h : Refines boot image i c a)
    {type : MessageType} {m : Message} (hm : Receives inp c type m)
    (hmean : Meaning boot image a m)
    (ht : type = .appendResponse ∨ type = .snapshotResponse) (hr : c.role = .leader)
    (hrej : m.reject = false)
    (hwf : ({ c with matchIndex := setAt c.matchIndex m.fromID (min m.logIndex c.lastIndex) } :
      Core).WF) :
    Simulated boot image i a
      { c with matchIndex := setAt c.matchIndex m.fromID (min m.logIndex c.lastIndex) } := by
  obtain ⟨hl, hack⟩ := h.lead hr
  have hclaim : m.logIndex ≤ a.ack c.term m.fromID := by
    unfold Meaning at hmean
    rcases ht with rfl | rfl <;> rw [hm.type_eq, hm.term_eq] at hmean <;> exact hmean hrej
  refine ⟨a, .refl a, ?_, hidx⟩
  refine { h with wf := hwf, cand := h.cand, lead := fun _ => ⟨hl, fun j => ?_⟩ }
  by_cases hj : j = m.fromID
  · subst hj
    simpa [setAt] using Or.inl hclaim
  · simpa [setAt, hj] using hack j

theorem Refines.commitAt (hinv : Inv (scheme boot) a) (hidx : Indexed a)
    (h : Refines boot image i c a) (hr : c.role = .leader) {k : ℕ} (hk : c.commit < k)
    (hle : k ≤ c.lastIndex) (ht : c.termAt k = c.term)
    (hq : c.membership.hasQuorum (fun id => decide (k ≤ c.matchIndex id)) = true)
    (hwf : ({ c with commit := k } : Core).WF) :
    Simulated boot image i a { c with commit := k } := by
  obtain ⟨hl, hack⟩ := h.lead hr
  have hlo : c.snapshot.index ≤ k := h.wf.commit_lo.trans hk.le
  have hklen : k - 1 < (a.log i).length := by rw [h.length_log]; omega
  have hentry : ∃ e, (a.log i)[k - 1]? = some e ∧ (scheme boot).term e = a.term i := by
    refine ⟨_, getElem?_eq_getElem hklen, ?_⟩
    have h1 := lastTerm_take boot (getElem?_eq_getElem hklen)
    rw [show k - 1 + 1 = k by omega, h.lastTerm_take_log hlo hle, ht] at h1
    rw [h.term]
    exact h1.symm
  have hquorum : (scheme boot).quorum ((scheme boot).conf (a.log i))
      (fun n => k ≤ a.ack (a.term i) n) := by
    refine ⟨_, (by rw [← h.conf]; exact hq :
      (confOf boot (a.log i)).hasQuorum (fun id => decide (k ≤ c.matchIndex id)) = true), ?_⟩
    intro j hj
    rw [h.term]
    exact (of_decide_eq_true hj).trans (hack j)
  have hlead : a.lead (a.term i) = some i := by rw [h.term]; exact hl
  have hdecide := Step.decide (S := scheme boot) (i := i) a k hlead (by omega) hentry hquorum
  -- the decided prefix is the node's own
  have hown : a.llog (a.term i) = a.log i := (hinv.lead_log (a.term i) i hlead rfl).symm
  refine ⟨_, .tail (.single hdecide) (.learn _ k (by rw [h.length_log]; exact hle) (.inr ?_)),
    ?_, hidx⟩
  · refine ⟨a.term i, k, (a.log i).length, .inr ⟨rfl, rfl, rfl⟩, Nat.le_refl _, ?_⟩
    show (a.log i).take k <+: (a.llog (a.term i)).take k
    rw [hown]
  · exact { h with
      wf := hwf
      commit := update_self i k a.commit
      cand := h.cand
      lead := h.lead }

/-! ### Taking over the leader's log -/

/-- **Log matching.**  A log that agrees with a leader's on the term at one position agrees
    with it up to there. -/
theorem Refines.agree (hinv : Inv (scheme boot) a) (h : Refines boot image i c a) {t p : ℕ}
    (hlo : c.snapshot.index ≤ p) (hhi : p ≤ c.lastIndex) (hlen : p ≤ (a.llog t).length)
    (hterm : c.termAt p = (scheme boot).lastTerm ((a.llog t).take p)) :
    (a.log i).take p = (a.llog t).take p := by
  rcases Nat.eq_zero_or_pos p with rfl | hpos
  · simp
  have h1 : p - 1 < (a.log i).length := by rw [h.length_log]; omega
  have h2 : p - 1 < (a.llog t).length := by omega
  have e1 := getElem?_eq_getElem h1
  have e2 := getElem?_eq_getElem h2
  -- both prefixes lie in the log of the leader of that common term
  have ht : (a.log i)[p - 1].term = (a.llog t)[p - 1].term := by
    have t1 := lastTerm_take boot e1
    have t2 := lastTerm_take boot e2
    rw [show p - 1 + 1 = p by omega] at t1 t2
    rw [← t1, ← t2, h.lastTerm_take_log hlo hhi, hterm]
  obtain ⟨_, p1⟩ := hinv.log_wf i _ _ e1
  obtain ⟨_, p2⟩ := hinv.llog_wf t _ _ e2
  rw [show p - 1 + 1 = p by omega] at p1 p2
  have p1' : (a.log i).take p <+: a.llog (a.llog t)[p - 1].term := by rw [← ht]; exact p1
  have p2' : (a.llog t).take p <+: a.llog (a.llog t)[p - 1].term := p2
  have hl : ((a.log i).take p).length = ((a.llog t).take p).length := by
    rw [length_take, length_take]; omega
  exact (prefix_of_both p1' p2' hl.le).eq_of_length hl

/-- What is decided in the node's own log is in the log of its term's leader. -/
theorem Refines.commit_llog (hinv : Inv (scheme boot) a) (h : Refines boot image i c a)
    (hlead : a.lead c.term ≠ none) : (a.log i).take c.commit <+: a.llog c.term := by
  rcases hinv.commit_ok i with h0 | hcov
  · rw [← h.commit, h0]
    simp
  · rw [h.commit, h.term] at hcov
    exact hinv.covers_llog hcov hlead

/-- Acknowledging a prefix the node already holds changes nothing else. -/
theorem Refines.acceptHeld (hidx : Indexed a) (h : Refines boot image i c a) {k : ℕ}
    (hinv : Inv (scheme boot) a) (hlead : a.lead c.term ≠ none)
    (hk : k ≤ (a.llog c.term).length) (hheld : (a.llog c.term).take k <+: a.log i) :
    ∃ a', Steps (scheme boot) i a a' ∧ Refines boot image i c a' ∧ Indexed a'
      ∧ k ≤ a'.ack c.term i := by
  rw [← h.term] at hlead hk hheld
  have hstep := Step.accept_held (S := scheme boot) hlead hk hheld
  have hx := Step.ext hinv hstep
  refine ⟨_, .single hstep, ?_, hidx, ?_⟩
  · exact { h with
      lead := fun hr => ⟨(h.lead hr).1, fun j => ((h.lead hr).2 j).trans (hx.ack _ _)⟩ }
  · show k ≤ set2 a.ack (a.term i) i (max (a.ack (a.term i) i) k) c.term i
    rw [h.term, set2_same]
    exact Nat.le_max_right _ _

omit [MembershipJson] in
/-- An entry of a received append is the leader's entry at that position. -/
private theorem llog_of_entries {l es : List Entry} {n k : ℕ} {e : Entry}
    (hes : es <+: l.drop n) (he : es[k]? = some e) : l[n + k]? = some e := by
  have := getElem?_extend hes he
  rwa [getElem?_drop] at this

/-- Rewriting the log after a conflict, or extending it: the result is the leader's log
    through the last entry of the append. -/
theorem Refines.spliceLog {inp : Input} (hinv : Inv (scheme boot) a) (hidx : Indexed a)
    (h : Refines boot image i c a) {m : Message} {keep tf : ℕ} {rest : List Entry}
    {mem : Membership} (hm : Receives inp c .append m) (hmean : Meaning boot image a m)
    (hr : c.role = .follower) (ht : c.termAt m.logIndex = m.logTerm)
    (hat : c.SpliceAt m keep tf rest)
    (hwf : ({ c with log := c.log.take keep ++ rest, membership := mem } : Core).WF) :
    Simulated boot image i a { c with log := c.log.take keep ++ rest, membership := mem } := by
  unfold Meaning at hmean
  rw [hm.type_eq, hm.term_eq] at hmean
  obtain ⟨hlead, hlen, hes, hprev, _, _⟩ := hmean
  obtain ⟨pre, hsplit, hpos, hheld⟩ := hat.split
  have hkeep := hat.keep_le
  have hentries : m.entries.length = pre.length + rest.length := by
    rw [hsplit, length_append]
  -- the kept part ends where the leader's log has the same term
  have hterm : c.termAt (c.snapshot.index + keep)
      = (scheme boot).lastTerm ((a.llog c.term).take (c.snapshot.index + keep)) := by
    rcases eq_nil_or_concat pre with hnil | ⟨front, x, hx⟩
    · rw [← hpos, hnil, length_nil, Nat.add_zero, ht, hprev]
    have hxm : m.entries[front.length]? = some x := by
      rw [hsplit, hx]
      simp
    have hxl := llog_of_entries hes hxm
    have hplen : pre.length = front.length + 1 := by rw [hx]; simp
    have hxi := (hidx _ _ _ hxl).1
    have hxt := (hheld x (by rw [hx]; simp)).2
    have hlast := lastTerm_take boot hxl
    rw [show m.logIndex + front.length + 1 = c.snapshot.index + keep by omega] at hlast hxi
    rw [hlast, ← hxt, hxi]
  have hagree := h.agree hinv (t := c.term) (p := c.snapshot.index + keep) (by omega)
    (by unfold Core.lastIndex; omega) (by omega) hterm
  have hrest : rest <+: (a.llog c.term).drop (c.snapshot.index + keep) := by
    rw [← hpos, ← drop_drop]
    have := hes.drop pre.length
    rwa [hsplit, drop_left] at this
  have htake : (a.llog c.term).take (c.snapshot.index + keep + rest.length)
      = (a.llog c.term).take (c.snapshot.index + keep) ++ rest := by
    rw [take_add, ← prefix_iff_eq_take.mp hrest]
  obtain ⟨front, hlog, hs⟩ := h.log
  have hnew : (a.llog c.term).take (c.snapshot.index + keep + rest.length)
      = front ++ (c.log.take keep ++ rest) := by
    rw [htake, ← hagree, hlog, ← hs.index, take_length_add_append, append_assoc]
  -- the abstract log does not have the appended part yet
  have hfresh : ¬ (a.llog c.term).take (c.snapshot.index + keep + rest.length) <+: a.log i := by
    intro hp
    rcases hat.cut with ⟨_, hk⟩ | ⟨htf, hk, e, he, hne⟩
    · have hle := hp.length_le
      have hpos' := length_pos_iff.mpr hat.rest_ne
      rw [length_take, h.length_log] at hle
      unfold Core.lastIndex at hle
      omega
    · have hel : (a.llog c.term)[c.snapshot.index + keep]? = some e := by
        have := llog_of_entries hrest he
        rwa [Nat.add_zero] at this
      have hpos' := lt_length_of_getElem? he
      have hea : (a.log i)[c.snapshot.index + keep]? = some e := by
        refine getElem?_extend hp ?_
        rw [getElem?_take_of_lt (by omega)]
        exact hel
      apply hne
      rw [htf, ← h.lastTerm_take_log (by omega) (by unfold Core.lastIndex; omega)]
      exact lastTerm_take boot hea
  have hlead' : a.lead (a.term i) ≠ none := by rw [h.term, hlead]; simp
  have hterm' := h.term
  refine ⟨_, .single (Step.accept_new (k := c.snapshot.index + keep + rest.length) hlead'
    (by rw [hterm']; omega) (by rw [hterm']; exact hfresh)), ?_, hidx⟩
  refine { h with
    wf := hwf
    log := ⟨front, ?_, hs⟩
    cand := fun hc => by rw [show c.role = .candidate from hc] at hr; simp at hr
    lead := fun hc => by rw [show c.role = .leader from hc] at hr; simp at hr }
  show update a.log i _ i = _
  rw [update_self, hterm']
  exact hnew

/-- A log that holds an append has the leader's log through its last entry. -/
theorem Refines.holds_prefix (hinv : Inv (scheme boot) a) (hidx : Indexed a)
    (h : Refines boot image i c a) {m : Message} (hh : c.Holds m)
    (hlead : a.lead c.term ≠ none)
    (hlen : m.logIndex + m.entries.length ≤ (a.llog c.term).length)
    (hes : m.entries <+: (a.llog c.term).drop m.logIndex)
    (hprev : (scheme boot).lastTerm ((a.llog c.term).take m.logIndex) = m.logTerm) :
    (a.llog c.term).take (m.logIndex + m.entries.length) <+: a.log i := by
  have hlast := hh.last
  rcases Nat.lt_or_ge (m.logIndex + m.entries.length) c.snapshot.index with hlt | hge
  · -- below the snapshot everything is decided
    have hpre := h.commit_llog hinv hlead
    have hcl : ((a.log i).take c.commit).length = c.commit := by
      rw [length_take, h.length_log]
      have := h.wf.commit_hi
      omega
    have hlo := h.wf.commit_lo
    rw [take_extend hpre (by omega), take_take, Nat.min_eq_left (by omega)]
    exact take_prefix _ _
  · have hterm : c.termAt (m.logIndex + m.entries.length)
        = (scheme boot).lastTerm ((a.llog c.term).take (m.logIndex + m.entries.length)) := by
      rcases eq_nil_or_concat m.entries with hnil | ⟨front, x, hx⟩
      · rw [hnil, length_nil, Nat.add_zero, hh.term, hprev]
      have hxl := llog_of_entries hes (k := front.length) (e := x) (by rw [hx]; simp)
      have hxi := (hidx _ _ _ hxl).1
      have hxt := (hh.entries x (by rw [hx]; simp)).2
      have hl := lastTerm_take boot hxl
      have hn : m.logIndex + front.length + 1 = m.logIndex + m.entries.length := by
        rw [hx]; simp; omega
      rw [hn] at hl hxi
      rw [hl, ← hxt, hxi]
    rw [← h.agree hinv hge hlast hlen hterm]
    exact take_prefix _ _

theorem Refines.learnCommit {inp : Input} (hinv : Inv (scheme boot) a) (hidx : Indexed a)
    (h : Refines boot image i c a) {m : Message} {k : ℕ} (hm : Receives inp c .append m)
    (hmean : Meaning boot image a m) (hh : c.Holds m)
    (hk : k = min m.leaderCommit (m.logIndex + m.entries.length)) (hlt : c.commit < k)
    (hwf : ({ c with commit := k } : Core).WF) :
    Simulated boot image i a { c with commit := k } := by
  unfold Meaning at hmean
  rw [hm.type_eq, hm.term_eq] at hmean
  obtain ⟨hlead, hlen, hes, hprev, _, hcov⟩ := hmean
  have hheld := h.holds_prefix hinv hidx hh (by rw [hlead]; simp) hlen hes hprev
  have hlast := hh.last
  have hcover : a.Covers c.term ((a.llog c.term).take m.leaderCommit) :=
    hcov.resolve_left (by omega)
  -- the learned prefix is both the node's and the leader's
  have hown : (a.log i).take k = (a.llog c.term).take k := by
    rw [take_extend hheld (by rw [length_take]; omega), take_take,
      Nat.min_eq_left (by omega)]
  have hstep := Step.learn (S := scheme boot) (i := i) a k (by rw [h.length_log]; omega)
    (.inr (by
      rw [h.term, hown]
      exact hcover.mono (Nat.le_refl _) (take_prefix_take (by omega))))
  refine ⟨_, .single hstep, ?_, hidx⟩
  exact { h with
    wf := hwf
    commit := update_self i k a.commit
    cand := h.cand
    lead := h.lead }

/-! ### Snapshots -/

theorem Refines.compactLog (hidx : Indexed a) (h : Refines boot image i c a) {s : Snapshot}
    {m mem : Membership} (hlt : c.snapshot.index < s.index) (hle : s.index ≤ c.commit)
    (hterm : c.termAt s.index = s.term) (hat : c.membershipAt s.index = .ok m)
    (hmem : s.membership = m) (hdata : s.data = image ((a.log i).take s.index))
    (hwf : ({ c.compactLog s with membership := mem } : Core).WF) :
    Simulated boot image i a { c.compactLog s with membership := mem } := by
  obtain ⟨pre, hlog, hs⟩ := h.log
  have hhi : s.index ≤ c.lastIndex := hle.trans h.wf.commit_hi
  have htake : (a.log i).take s.index = pre ++ c.log.take (s.index - c.snapshot.index) := by
    rw [hlog, take_append, hs.index, take_of_length_le (by rw [hs.index]; omega)]
  -- the configuration at the snapshot is the fold of the prefix
  have hconf : m = confOf boot ((a.log i).take s.index) := by
    unfold Core.membershipAt at hat
    rw [Core.takeWhile_index h.wf.index] at hat
    split at hat
    · simp at hat
    rename_i m' hm'
    simp only [Except.ok.injEq] at hat
    subst hat
    rw [htake, confOf_append, ← h.base hs]
    exact (foldl_stepConf_of_fold hm').symm
  refine ⟨a, .refl a, ?_, hidx⟩
  refine { h with
    wf := hwf
    log := ⟨(a.log i).take s.index, ?_, ?_⟩
    cand := h.cand
    lead := h.lead }
  · show a.log i = _ ++ (c.compactLog s).log
    rw [Core.compactLog_log hlt hterm, htake, hlog, append_assoc, take_append_drop]
  · exact {
      index := by
        show _ = s.index
        rw [length_take, h.length_log]
        omega
      term := by
        show _ = s.term
        rw [h.lastTerm_take_log hlt.le hhi, hterm]
      membership := fun _ => hmem.trans hconf
      data := fun _ => hdata }

private theorem received_eq (hb : VotersNormal boot) {sent : Snapshot} {pre : List Entry}
    (hs : Summarises boot image sent pre) (h0 : 0 < sent.index) : c.received sent = sent := by
  unfold Core.received
  rw [if_neg]
  rw [hs.membership h0, length_eq_zero_iff]
  exact confOf_voters_ne hb pre

/-- Installing a snapshot.  If the node holds the boundary entry its log keeps the suffix and
    the node only learns that the prefix is decided; otherwise its whole log is replaced by
    the prefix. -/
theorem Refines.install {inp : Input} (hinv : Inv (scheme boot) a) (hidx : Indexed a)
    (h : Refines boot image i c a) {m : Message} {sent : Snapshot} {mem : Membership}
    (hm : Receives inp c .snapshot m) (hmean : Meaning boot image a m)
    (hr : c.role = .follower) (hsent : m.snapshot = some sent)
    (hlt : c.snapshot.index < (c.received sent).index)
    (hcommit : (c.received sent).index ≤ c.commit →
      c.termAt (c.received sent).index = (c.received sent).term)
    (hwf : ({ c.compactLog (c.received sent) with
      membership := mem
      commit := max c.commit (c.received sent).index } : Core).WF) :
    Simulated boot image i a { c.compactLog (c.received sent) with
      membership := mem
      commit := max c.commit (c.received sent).index } := by
  unfold Meaning at hmean
  rw [hm.type_eq, hm.term_eq] at hmean
  obtain ⟨hlead, s, hs, h0, hlen, hsum, hcov⟩ := hmean
  obtain rfl : s = sent := by rw [hsent] at hs; exact (Option.some.inj hs).symm
  rw [received_eq (h.peers ▸ h.wf.peers) hsum h0] at *
  have hfollower : ∀ r : Role, r ≠ .follower → c.role ≠ r := by
    intro r hne hc; exact hne (hc.symm.trans hr)
  by_cases hhold : c.termAt s.index = s.term ∧ s.index ≤ c.lastIndex
  · obtain ⟨hterm, hle⟩ := hhold
    have hagree := h.agree hinv hlt.le hle hlen (hterm.trans hsum.term.symm)
    have hlog : a.log i = (a.llog c.term).take s.index ++ (c.compactLog s).log := by
      obtain ⟨pre, hpre, hp⟩ := h.log
      rw [← hagree, Core.compactLog_log hlt hterm]
      conv_lhs => rw [← take_append_drop s.index (a.log i)]
      congr 1
      rw [hpre, drop_append, hp.index, drop_of_length_le (by rw [hp.index]; omega),
        nil_append]
    have hstep := Step.learn (S := scheme boot) (i := i) a (max c.commit s.index)
      (by rw [h.length_log]; exact Nat.max_le.mpr ⟨h.wf.commit_hi, hle⟩)
      (by
        rcases Nat.le_total s.index c.commit with hsc | hsc
        · rw [Nat.max_eq_left hsc, ← h.commit]
          exact hinv.commit_ok i
        · rw [Nat.max_eq_right hsc, h.term, hagree]
          exact .inr hcov)
    refine ⟨_, .single hstep, ?_, hidx⟩
    exact { h with
      wf := hwf
      log := ⟨(a.llog c.term).take s.index, hlog, hsum⟩
      commit := update_self i _ a.commit
      cand := fun hc => absurd hc (hfollower _ (by simp))
      lead := fun hc => absurd hc (hfollower _ (by simp)) }
  · -- nothing of the old log survives
    have hnil : (c.compactLog s).log = [] := by
      unfold Core.compactLog
      dsimp only
      rw [if_neg]
      rintro ⟨h1, h2⟩
      exact hhold ⟨h2, h1.le⟩
    have hltc : c.commit < s.index := by
      by_contra hge
      exact hhold ⟨hcommit (by omega), (by omega : s.index ≤ c.commit).trans h.wf.commit_hi⟩
    have hfresh : ¬ (a.llog (a.term i)).take s.index <+: a.log i := by
      rw [h.term]
      intro hp
      have hle := hp.length_le
      rw [length_take, Nat.min_eq_left hlen, h.length_log] at hle
      refine hhold ⟨?_, hle⟩
      rw [← h.lastTerm_take_log hlt.le hle, ← hsum.term,
        take_extend hp (by rw [length_take]; omega), take_take, Nat.min_self]
    have haccept := Step.accept_new (S := scheme boot) (k := s.index)
      (by rw [h.term, hlead]; simp) (by rw [h.term]; exact hlen) hfresh
    refine ⟨_, .tail (.single haccept) (.learn _ s.index ?_ (.inr ?_)), ?_, hidx⟩
    · simp only [update_self, length_take, h.term]
      omega
    · simp only [update_self, take_take, Nat.min_self, h.term]
      exact hcov
    · exact { h with
        wf := hwf
        log := ⟨(a.llog c.term).take s.index, by
          show update a.log i _ i = _ ++ (c.compactLog s).log
          rw [update_self, hnil, append_nil, h.term], hsum⟩
        commit := by
          show update a.commit i s.index i = max c.commit s.index
          rw [update_self, Nat.max_eq_right hltc.le]
        cand := fun hc => absurd hc (hfollower _ (by simp))
        lead := fun hc => absurd hc (hfollower _ (by simp)) }

/-! ### Messages -/

/-- **What a node sends is meaningful**, after acknowledging on the abstract side what the
    message acknowledges. -/
theorem Refines.emit {inp : Input} {m : Message} (hinv : Inv (scheme boot) a)
    (hidx : Indexed a) (h : Refines boot image i c a)
    (hin : ∀ r, inp = .message r → Meaning boot image a r) (he : Emits inp c m) :
    ∃ a', Steps (scheme boot) i a a' ∧ Refines boot image i c a' ∧ Indexed a'
      ∧ Meaning boot image a' m := by
  have hlast : (scheme boot).lastTerm (a.log i) = c.termAt c.lastIndex := by
    have := h.lastTerm_take_log (h.wf.commit_lo.trans h.wf.commit_hi) (Nat.le_refl c.lastIndex)
    rwa [← h.length_log, take_length, h.length_log] at this
  have hid := h.id
  -- all but two kinds of message need no step
  have stay : Meaning boot image a m → ∃ a', Steps (scheme boot) i a a'
      ∧ Refines boot image i c a' ∧ Indexed a' ∧ Meaning boot image a' m :=
    fun hmean => ⟨a, .refl a, h, hidx, hmean⟩
  have hleader : c.role = .leader → a.lead c.term = some i ∧ a.llog c.term = a.log i := by
    intro hr
    obtain ⟨hl, _⟩ := h.lead hr
    exact ⟨hl, (hinv.lead_log c.term i hl h.term).symm⟩
  cases he with
  | preVote peer => exact stay trivial
  | preVoteGrant r hr ht => exact stay trivial
  | vote peer hr =>
    refine stay ?_
    show c.cfg.id ≠ 0 ∧ ∃ L, a.cand c.term c.cfg.id = some L ∧ L.length = c.lastIndex
      ∧ (scheme boot).lastTerm L = c.termAt c.lastIndex
    rw [hid]
    exact ⟨h.id_ne, a.log i, (h.cand hr).1, h.length_log, hlast⟩
  | voteGrant r hr hv =>
    refine stay ?_
    have hmean := hin r hr.input
    unfold Meaning at hmean
    rw [hr.type_eq] at hmean
    show false = false → r.fromID ≠ 0 ∧ a.vote c.term c.cfg.id = some r.fromID
    intro _
    rw [hid, h.vote, hv, if_neg hmean.1]
    exact ⟨hmean.1, rfl⟩
  | append peer prev context origin entries hr hlo hhi hes hc =>
    refine stay ?_
    obtain ⟨hl, hll⟩ := hleader hr
    show a.lead c.term = some c.cfg.id ∧ prev + entries.length ≤ (a.llog c.term).length
      ∧ entries <+: (a.llog c.term).drop prev
      ∧ (scheme boot).lastTerm ((a.llog c.term).take prev) = c.termAt prev
      ∧ c.commit ≤ (a.llog c.term).length
      ∧ (c.commit = 0 ∨ a.Covers c.term ((a.llog c.term).take c.commit))
    rw [hid, hll, h.length_log]
    obtain ⟨pre, hlog, hs⟩ := h.log
    have hdrop : (a.log i).drop prev = c.log.drop (prev - c.snapshot.index) := by
      rw [hlog, drop_append, hs.index, drop_of_length_le (by rw [hs.index]; omega),
        nil_append]
    refine ⟨hl, ?_, by rw [hdrop]; exact hes, h.lastTerm_take_log hlo hhi, h.wf.commit_hi, ?_⟩
    · have := hes.length_le
      rw [length_drop] at this
      unfold Core.lastIndex at hhi ⊢
      omega
    · have := hinv.commit_ok i
      rwa [h.commit, h.term] at this
  | appended r hr hrole hh =>
    have hmean := hin r hr.input
    unfold Meaning at hmean
    rw [hr.type_eq, hr.term_eq] at hmean
    obtain ⟨hl, hlen, hes, hprev, _, _⟩ := hmean
    have hne : a.lead c.term ≠ none := by rw [hl]; simp
    obtain ⟨a', hs, href, hix, hack⟩ := h.acceptHeld hidx hinv hne hlen
      (h.holds_prefix hinv hidx hh hne hlen hes hprev)
    refine ⟨a', hs, href, hix, ?_⟩
    show false = false → r.logIndex + r.entries.length ≤ a'.ack c.term c.cfg.id
    rw [hid]
    exact fun _ => hack
  | snapshot peer origin hr h0 =>
    refine stay ?_
    obtain ⟨hl, hll⟩ := hleader hr
    obtain ⟨pre, hlog, hs⟩ := h.log
    have htake : (a.log i).take c.snapshot.index = pre := by
      rw [hlog, take_left' hs.index]
    show a.lead c.term = some c.cfg.id ∧ ∃ s, some c.snapshot = some s ∧ 0 < s.index
      ∧ s.index ≤ (a.llog c.term).length
      ∧ Summarises boot image s ((a.llog c.term).take s.index)
      ∧ a.Covers c.term ((a.llog c.term).take s.index)
    rw [hid, hll]
    have hlo := h.wf.commit_lo
    refine ⟨hl, c.snapshot, rfl, h0, ?_, by rw [htake]; exact hs, ?_⟩
    · rw [h.length_log]; exact hlo.trans h.wf.commit_hi
    · have hcov := (hinv.commit_ok i).resolve_left (by rw [h.commit]; omega)
      rw [h.commit, h.term] at hcov
      exact hcov.mono (Nat.le_refl _) (take_prefix_take hlo)
  | installed r hr hrole =>
    have hmean := hin r hr.input
    unfold Meaning at hmean
    rw [hr.type_eq, hr.term_eq] at hmean
    have hne : a.lead c.term ≠ none := by rw [hmean.1]; simp
    -- the snapshot is decided, so it is in the leader's log
    have hpre : (a.log i).take c.snapshot.index <+: a.llog c.term :=
      (take_prefix_take h.wf.commit_lo).trans (h.commit_llog hinv hne)
    have hl : ((a.log i).take c.snapshot.index).length = c.snapshot.index := by
      rw [length_take, h.length_log]
      exact Nat.min_eq_left (h.wf.commit_lo.trans h.wf.commit_hi)
    obtain ⟨a', hs, href, hix, hack⟩ := h.acceptHeld (k := c.snapshot.index) hidx hinv hne
      (by have := hpre.length_le; omega)
      (by
        rw [take_extend hpre hl.ge, take_take, Nat.min_self]
        exact take_prefix _ _)
    refine ⟨a', hs, href, hix, ?_⟩
    show false = false → c.snapshot.index ≤ a'.ack c.term c.cfg.id
    rw [hid]
    exact fun _ => hack
  | reject type peer hint ht =>
    refine stay ?_
    rcases ht with rfl | rfl | rfl | rfl
    · trivial
    all_goals exact fun hf => absurd hf (by simp)

theorem Refines.emits {inp : Input} (ms : List Message) :
    ∀ {a : Sys ℕ Entry}, Inv (scheme boot) a → Indexed a → Refines boot image i c a →
      (∀ r, inp = .message r → Meaning boot image a r) → (∀ m ∈ ms, Emits inp c m) →
      ∃ a', Steps (scheme boot) i a a' ∧ Refines boot image i c a' ∧ Indexed a'
        ∧ ∀ m ∈ ms, Meaning boot image a' m := by
  induction ms with
  | nil => intro a _ hidx h _ _; exact ⟨a, .refl a, h, hidx, by simp⟩
  | cons m t ih =>
    intro a hinv hidx h hin hms
    obtain ⟨a1, hs1, h1, hidx1, hm1⟩ := h.emit hinv hidx hin (hms m (by simp))
    obtain ⟨hinv1, hx1, _⟩ := hs1.sound hinv
    obtain ⟨a2, hs2, h2, hidx2, hm2⟩ := ih hinv1 hidx1 h1
      (fun r hr => (hin r hr).mono hx1) (fun x hx => hms x (by simp [hx]))
    obtain ⟨_, hx2, _⟩ := hs2.sound hinv1
    refine ⟨a2, hs1.trans hs2, h2, hidx2, ?_⟩
    intro x hx
    rcases mem_cons.mp hx with rfl | hx
    · exact hm1.mono hx2
    · exact hm2 x hx

/-! ### Reconfiguration -/

/-- The entry a leader appends moves to a configuration that may follow its own. -/
theorem Refines.followsConf {inp : Input} (h : Refines boot image i c a)
    {command : MembershipCommand} (hc : Reconfigures inp c command) :
    FollowsConf (confOf boot (a.log i)) (confOf boot (a.log i ++
      [{ index := c.lastIndex + 1, term := c.term, data := encodeMembership command }])) := by
  obtain ⟨m, hstep, happly⟩ := h.wf.reconfigures (c.lastIndex + 1) c.term hc
  have hnext : confOf boot (a.log i ++
      [{ index := c.lastIndex + 1, term := c.term, data := encodeMembership command }]) = m := by
    rw [confOf_append, ← h.conf]
    show stepConf c.membership _ = m
    unfold stepConf
    rw [hstep]
  rw [hnext, ← h.conf]
  cases hc with
  | joint voters new hi hn hj hle =>
    have hm : m = { voters := c.membership.voters, jointVoters := new,
                    index := c.lastIndex + 1 } := by
      simpa [applyMembership, hj, equalVoters] using happly.symm
    rw [hm]
    exact .inl ⟨hj, rfl, (normalizeVoters_normal hn).nonempty⟩
  | final hj hle =>
    have hm : m = { voters := c.membership.jointVoters, index := c.lastIndex + 1 } := by
      simpa [applyMembership, hj, equalVoters] using happly.symm
    rw [hm]
    exact .inr ⟨hj, rfl, rfl⟩

/-- Every configuration entry of the log lies at or below the configuration index. -/
theorem Refines.conf_committed (hinv : Inv (scheme boot) a) (hidx : Indexed a)
    (h : Refines boot image i c a) (hle : c.membership.index ≤ c.commit) (j : ℕ) (d : Entry)
    (hd : (a.log i)[j]? = some d) (hconf : hasMembershipPrefix d.data = true) :
    j < a.commit i := by
  have := confOf_index boot (a.log i)
    (fun k e he => (Indexed.log hinv hidx he).1)
    (fun k e he hc => hinv.wf_conf_next (hinv.log_wf i) k e he hc) j d hd hconf
  rw [← h.conf] at this
  rw [h.commit]
  omega

/-! ### Assembly -/

/-- A snapshot request is for a committed index, with the image of the node's own prefix. -/
def Faithful (image : List Entry → Bytes) (i : ℕ) (a : Sys ℕ Entry) (inp : Input) : Prop :=
  ∀ k data, inp = .snapshot k data → k ≤ a.commit i ∧ data = image ((a.log i).take k)

/-- **Every elementary transition is simulated**, and what it sends is meaningful. -/
theorem Trans.simulates {inp : Input} {u : Update} (hp : inp.Plain)
    (hinv : Inv (scheme boot) a) (hidx : Indexed a) (h : Refines boot image i c a)
    (hin : ∀ r, inp = .message r → Meaning boot image a r) (hf : Faithful image i a inp)
    (ht : Trans inp c u c') :
    ∃ a', Steps (scheme boot) i a a' ∧ Refines boot image i c' a' ∧ Indexed a'
      ∧ ∀ m ∈ u.messages, Meaning boot image a' m := by
  have hwf := Trans.wf hp h.wf ht
  -- only `send` sends
  have silent : Simulated boot image i a c' → u.messages = [] → ∃ a',
      Steps (scheme boot) i a a' ∧ Refines boot image i c' a' ∧ Indexed a'
        ∧ ∀ m ∈ u.messages, Meaning boot image a' m := by
    rintro ⟨a', hs, href, hix⟩ hnil
    exact ⟨a', hs, href, hix, by rw [hnil]; simp⟩
  cases ht with
  | adopt t ht => exact silent (h.adopt hinv hidx ht hwf) rfl
  | stepDown =>
    exact silent (h.idle hidx hwf rfl rfl rfl rfl rfl rfl (by simp) (by simp)) rfl
  | preCampaign =>
    exact silent (h.idle hidx hwf rfl rfl rfl rfl rfl rfl (by simp) (by simp)) rfl
  | countPreVote peer granted hr =>
    exact silent (h.idle hidx hwf rfl rfl rfl rfl rfl rfl (by simp [hr]) (by simp [hr])) rfl
  | campaign => exact silent (h.campaign hidx hinv hwf) rfl
  | countVote m hm hr => exact silent (h.countVote hidx hm (hin m hm.input) hr hwf) rfl
  | win hr hq => exact silent (h.win hinv hidx hr hq hwf) rfl
  | grant m hm hv hup => exact silent (h.grant hinv hidx hm (hin m hm.input) hv hup hwf) rfl
  | propose data hr hd hlen =>
    refine silent (h.extend hinv hidx hr rfl rfl rfl rfl rfl rfl rfl rfl hwf ?_) rfl
    -- client data is never a configuration
    intro hconf
    exfalso
    rcases hd with rfl | ⟨commands, hi, hmem⟩
    · simp [hasMembershipPrefix, membershipPrefix] at hconf
    · rw [hp commands hi data hmem] at hconf
      simp at hconf
  | reconfigure core command hr hc hm =>
    obtain ⟨mem, _, rfl⟩ := Core.rebuildMembership_eq hm
    refine silent (h.extend hinv hidx hr rfl rfl rfl rfl rfl rfl rfl rfl hwf ?_) rfl
    intro _
    refine ⟨h.followsConf hc, h.conf_committed hinv hidx ?_⟩
    cases hc <;> assumption
  | orphan command e hr hc hm =>
    obtain ⟨m, hfold, _⟩ := h.wf.rebuild_ok (c.lastIndex + 1) c.term hc
    unfold Core.rebuildMembership at hm
    rw [show ({ c with log := c.log ++ [{ index := c.lastIndex + 1, term := c.term,
                                          data := encodeMembership command }] } :
      Core).baseMembership = c.baseMembership from rfl, hfold] at hm
    simp at hm
  | acknowledge type m hm ht hr hrej hlt =>
    exact silent (h.acknowledge hidx hm (hin m hm.input) ht hr hrej hwf) rfl
  | commit k hr hk hle ht hq => exact silent (h.commitAt hinv hidx hr hk hle ht hq hwf) rfl
  | splice core m keep tf entries hm hr hmal hle ht hs ha =>
    have hat := Core.spliceAt h.wf.commit_lo hmal hle hs
    obtain ⟨mem, rfl, _⟩ := Core.applySplice_eq ha
    exact silent (h.spliceLog hinv hidx hm (hin m hm.input) hr ht hat hwf) rfl
  | learn m k hm hr hmal hh hk hlt =>
    exact silent (h.learnCommit hinv hidx hm (hin m hm.input) hh hk hlt hwf) rfl
  | install core m sent hm hr hs hi ht hv hmi hlt hcommit hb =>
    obtain ⟨mem, _, rfl⟩ := Core.rebuildMembership_eq hb
    exact silent (h.install hinv hidx hm (hin m hm.input) hr hs hlt hcommit hwf) rfl
  | compact core s m data hi hd hlt hle ht hterm hat hm hmi hb =>
    obtain ⟨mem, _, rfl⟩ := Core.rebuildMembership_eq hb
    exact silent (h.compactLog hidx hlt hle hterm hat hm (hd.trans (hf _ _ hi).2) hwf) rfl
  | halfCompact s m data e hi hd hlt hle ht hterm hat hm hmi hb =>
    obtain ⟨_, hfold⟩ := h.wf.compact_folded hlt hterm hat hm
    unfold Core.rebuildMembership at hb
    rw [hfold] at hb
    simp at hb
  | send ms hms => exact h.emits ms hinv hidx hin hms
  | drop reason => exact silent ⟨a, .refl a, h, hidx⟩ rfl

/-- **Committed prefixes never change.** -/
theorem committed_stable {a' : Sys ℕ Entry} (hinv : Inv (scheme boot) a)
    (hinv' : Inv (scheme boot) a') (hx : Ext a a') {n n' k : ℕ} (hk : k ≤ a.commit n)
    (hk' : k ≤ a'.commit n') : (a'.log n').take k = (a.log n).take k := by
  rcases Nat.eq_zero_or_pos k with rfl | hpos
  · simp
  have hcov := hx.covers ((hinv.commit_ok n).resolve_left (by omega))
  have hcov' := (hinv'.commit_ok n').resolve_left (by omega)
  have h1 := hcov.mono (Nat.le_refl _) (take_prefix_take hk)
  have h2 := hcov'.mono (Nat.le_refl _) (take_prefix_take hk')
  have l1 : ((a.log n).take k).length = k := by
    rw [length_take]; have := hinv.commit_le n; omega
  have l2 : ((a'.log n').take k).length = k := by
    rw [length_take]; have := hinv'.commit_le n'; omega
  rcases hinv'.covers_comparable h1 h2 with hp | hp
  · exact (hp.eq_of_length (l1.trans l2.symm)).symm
  · exact hp.eq_of_length (l2.trans l1.symm)

end Codec

end Lsmdb.Cluster

import Lsmdb.Consensus.Completeness

namespace Consensus

open List Function

/-!
# The invariant is preserved

`Step.ext` says once what any transition can do to the history — it only grows — and
`Step.frame` that it leaves the other nodes alone.  A transition is a composition of smaller
moves; facts about old terms transport along `Ext`, so each move only has to account for the
few entries it adds.
-/

variable {ι α C : Type} {S : Scheme ι α C} {s s' : Sys ι α} {i : ι}

/-! ### History only grows -/

/-- `s'` knows everything `s` knew. -/
structure Ext (s s' : Sys ι α) : Prop where
  term : ∀ n, s.term n ≤ s'.term n
  vote : ∀ t n c, s.vote t n = some c → s'.vote t n = some c
  cand : ∀ t c L, s.cand t c = some L → s'.cand t c = some L
  lead : ∀ t c, s.lead t = some c → s'.lead t = some c
  elog : ∀ t, s.lead t ≠ none → s'.elog t = s.elog t
  llog : ∀ t, s.llog t <+: s'.llog t
  ack : ∀ t n, s.ack t n ≤ s'.ack t n
  committed : ∀ t k m, s.committed t k m → s'.committed t k m

theorem Ext.refl (s : Sys ι α) : Ext s s where
  term _ := Nat.le_refl _
  vote _ _ _ h := h
  cand _ _ _ h := h
  lead _ _ h := h
  elog _ _ := rfl
  llog _ := prefix_refl _
  ack _ _ := Nat.le_refl _
  committed _ _ _ h := h

theorem Ext.lead_ne (hx : Ext s s') {t : ℕ} (h : s.lead t ≠ none) : s'.lead t ≠ none := by
  obtain ⟨c, hc⟩ := Option.ne_none_iff_exists'.mp h
  rw [hx.lead t c hc]
  simp

theorem Ext.trans {s₁ s₂ s₃ : Sys ι α} (h₁ : Ext s₁ s₂) (h₂ : Ext s₂ s₃) : Ext s₁ s₃ where
  term n := (h₁.term n).trans (h₂.term n)
  vote t n c h := h₂.vote t n c (h₁.vote t n c h)
  cand t c L h := h₂.cand t c L (h₁.cand t c L h)
  lead t c h := h₂.lead t c (h₁.lead t c h)
  elog t h := (h₂.elog t (h₁.lead_ne h)).trans (h₁.elog t h)
  llog t := (h₁.llog t).trans (h₂.llog t)
  ack t n := (h₁.ack t n).trans (h₂.ack t n)
  committed t k m h := h₂.committed t k m (h₁.committed t k m h)

theorem Ext.take_llog (hx : Ext s s') {t k : ℕ} (hk : k ≤ (s.llog t).length) :
    (s'.llog t).take k = (s.llog t).take k :=
  take_extend (hx.llog t) hk

theorem Ext.wf (hx : Ext s s') {l : List α} (hw : s.Wf S l) : s'.Wf S l := by
  intro k e he
  obtain ⟨h1, h2⟩ := hw k e he
  exact ⟨hx.lead_ne h1, h2.trans (hx.llog _)⟩

theorem Ext.lost (hx : Ext s s') {t k b : ℕ} (hk : k ≤ (s.llog t).length)
    (h : s.Lost t k b) : s'.Lost t k b := by
  obtain ⟨u, h1, h2, h3, h4⟩ := h
  refine ⟨u, h1, h2, hx.lead_ne h3, ?_⟩
  rw [hx.take_llog hk, hx.elog u h3]
  exact h4

theorem Ext.covers (hx : Ext s s') {b : ℕ} {p : List α} (h : s.Covers b p) :
    s'.Covers b p := by
  obtain ⟨t, k, m, hc, htb, hpre⟩ := h
  refine ⟨t, k, m, hx.committed t k m hc, htb, hpre.trans ?_⟩
  obtain ⟨r, hr⟩ := hx.llog t
  rw [← hr, take_append]
  exact prefix_append _ _

theorem Sys.Covers.mono {b b' : ℕ} {p q : List α} (h : s.Covers b p) (hb : b ≤ b')
    (hq : q <+: p) : s.Covers b' q := by
  obtain ⟨t, k, m, hc, htb, hpre⟩ := h
  exact ⟨t, k, m, hc, by omega, hq.trans hpre⟩

theorem Sys.Lost.mono {t k b b' : ℕ} (h : s.Lost t k b) (hb : b ≤ b') : s.Lost t k b' := by
  obtain ⟨u, h1, h2, h3, h4⟩ := h
  exact ⟨u, h1, by omega, h3, h4⟩

theorem Sys.Wf.shorten {l p : List α} (hw : s.Wf S l) (hp : p <+: l) : s.Wf S p := by
  intro k e he
  have hk := lt_length_of_getElem? he
  obtain ⟨h1, h2⟩ := hw k e (getElem?_extend hp he)
  rw [take_extend hp (by omega)] at h2
  exact ⟨h1, h2⟩

/-- **Log matching**: well-formed logs with an entry of the same term at the same position agree
    up to it. -/
theorem Sys.Wf.matching {l l' : List α} (hw : s.Wf S l) (hw' : s.Wf S l') {k : ℕ} {e e' : α}
    (he : l[k]? = some e) (he' : l'[k]? = some e') (ht : S.term e = S.term e') :
    l.take (k + 1) = l'.take (k + 1) := by
  obtain ⟨_, h1⟩ := hw k e he
  obtain ⟨_, h2⟩ := hw' k e' he'
  rw [← ht] at h2
  -- both are the prefix of that length of one leader's log
  have hlen := lt_length_of_getElem? he
  have hlen' := lt_length_of_getElem? he'
  have hpre : l.take (k + 1) <+: l'.take (k + 1) := prefix_of_both h1 h2 (by simp; omega)
  exact hpre.eq_of_length (by simp; omega)

/-- No one has voted, campaigned or acknowledged in a term it has not reached. -/
private theorem fresh_term (h : Inv S s) {t : ℕ} (ht : s.term i < t) :
    s.vote t i = none ∧ s.cand t i = none := by
  constructor
  · cases hv : s.vote t i with
    | none => rfl
    | some c => have := h.vote_term t i c hv; omega
  · cases hv : s.cand t i with
    | none => rfl
    | some L => have := (h.cand_term t i L hv).1; omega

/-- What a transition of node `i` leaves alone at the other nodes. -/
structure Frame (i : ι) (s s' : Sys ι α) : Prop where
  term : ∀ n, n ≠ i → s'.term n = s.term n
  log : ∀ n, n ≠ i → s'.log n = s.log n
  commit : ∀ n, n ≠ i → s'.commit n = s.commit n
  vote : ∀ t n, n ≠ i → s'.vote t n = s.vote t n
  cand : ∀ t n, n ≠ i → s'.cand t n = s.cand t n
  ack : ∀ t n, n ≠ i → s'.ack t n = s.ack t n
  lead : ∀ t n, n ≠ i → s'.lead t = some n → s.lead t = some n

theorem Frame.refl (i : ι) (s : Sys ι α) : Frame i s s where
  term _ _ := rfl
  log _ _ := rfl
  commit _ _ := rfl
  vote _ _ _ := rfl
  cand _ _ _ := rfl
  ack _ _ _ := rfl
  lead _ _ _ h := h

theorem Frame.trans {s₁ s₂ s₃ : Sys ι α} (h₁ : Frame i s₁ s₂) (h₂ : Frame i s₂ s₃) :
    Frame i s₁ s₃ where
  term n hn := (h₂.term n hn).trans (h₁.term n hn)
  log n hn := (h₂.log n hn).trans (h₁.log n hn)
  commit n hn := (h₂.commit n hn).trans (h₁.commit n hn)
  vote t n hn := (h₂.vote t n hn).trans (h₁.vote t n hn)
  cand t n hn := (h₂.cand t n hn).trans (h₁.cand t n hn)
  ack t n hn := (h₂.ack t n hn).trans (h₁.ack t n hn)
  lead t n hn h := h₁.lead t n hn (h₂.lead t n hn h)

private theorem lead_of_win {t : ℕ} {n : ι} (hn : n ≠ i)
    (h : Function.update s.lead (s.term i) (some i) t = some n) : s.lead t = some n := by
  by_cases ht : t = s.term i
  · rw [ht, update_self] at h
    exact absurd (Option.some.inj h).symm hn
  · rwa [update_of_ne ht] at h

/-! ### Each move keeps the invariant -/

theorem Inv.init (S : Scheme ι α C) : Inv S (Sys.init : Sys ι α) := by
  constructor <;> intros <;> simp_all [Sys.init, Sys.Wf]

/-- `s'` satisfies the invariant and knows everything `s` knew. -/
structure Keeps (S : Scheme ι α C) (s s' : Sys ι α) : Prop where
  inv : Inv S s'
  ext : Ext s s'

theorem Keeps.trans {s₁ s₂ s₃ : Sys ι α} (h₁ : Keeps S s₁ s₂) (h₂ : Keeps S s₂ s₃) :
    Keeps S s₁ s₃ :=
  ⟨h₂.inv, h₁.ext.trans h₂.ext⟩

/-- What a node has acknowledged is still held, or still lost, later on. -/
private theorem held_ext (h : Inv S s) (hx : Ext s s') {u n k b} {v : List α}
    (hk : k ≤ s.ack u n) (hh : (s.llog u).take k <+: v ∨ s.Lost u k b) :
    (s'.llog u).take k <+: v ∨ s'.Lost u k b := by
  have hle := hk.trans (h.ack_le u n)
  rw [hx.take_llog hle]
  exact hh.imp id (hx.lost hle)

/-- A decided prefix stays one, with at least the same acknowledgements. -/
private theorem committed_ext (h : Inv S s) (hx : Ext s s') {t k m : ℕ}
    (hc : s.committed t k m) :
    0 < k ∧ k ≤ m ∧ m ≤ (s'.llog t).length
      ∧ (∃ e, (s'.llog t)[k - 1]? = some e ∧ S.term e = t)
      ∧ S.quorum (S.conf ((s'.llog t).take m)) (fun n => k ≤ s'.ack t n) := by
  obtain ⟨h1, h2, h3, ⟨e, he, het⟩, h5⟩ := h.committed_ok t k m hc
  refine ⟨h1, h2, h3.trans (IsPrefix.length_le (hx.llog t)),
    ⟨e, getElem?_extend (hx.llog t) he, het⟩, ?_⟩
  rw [hx.take_llog h3]
  exact S.quorum_mono _ _ _ (fun n hn => hn.trans (hx.ack t n)) h5

private theorem chain_ext (h : Inv S s) (hx : Ext s s') {p : List α} {c : ℕ → ℕ → Prop}
    (hp : ∃ u k m, s.committed u k m ∧ p <+: (s.llog u).take k ∧ c u m) :
    ∃ u k m, s'.committed u k m ∧ p <+: (s'.llog u).take k ∧ c u m := by
  obtain ⟨u, k, m, h1, h2, h3⟩ := hp
  obtain ⟨_, hkm, hm, _⟩ := h.committed_ok u k m h1
  exact ⟨u, k, m, hx.committed u k m h1, by rwa [hx.take_llog (hkm.trans hm)], h3⟩

private theorem vote_cand_ext (h : Inv S s) (hx : Ext s s') {t : ℕ} {n c : ι}
    (hv : s.vote t n = some c) :
    ∃ L, s.cand t c = some L ∧ S.UpToDate L (s.vlog t n) ∧ s'.Wf S (s.vlog t n) := by
  obtain ⟨L, h1, h2, h3⟩ := h.vote_cand t n c hv
  exact ⟨L, h1, h2, hx.wf h3⟩

private theorem cand_term_ext (h : Inv S s) (hx : Ext s s') {t : ℕ} {c : ι} {L : List α}
    (hc : s.cand t c = some L) : t ≤ s.term c ∧ s'.Wf S L ∧ ∀ e ∈ L, S.term e < t := by
  obtain ⟨h1, h2, h3⟩ := h.cand_term t c L hc
  exact ⟨h1, hx.wf h2, h3⟩

private theorem keeps_elect (h : Inv S s) (hn : s.lead (s.term i) = none)
    (hc : s.cand (s.term i) i = some (s.log i))
    (hq : S.quorum (S.conf (s.log i)) (fun n => s.vote (s.term i) n = some i)) :
    Keeps S s { s with
      lead := Function.update s.lead (s.term i) (some i)
      voters := Function.update s.voters (s.term i) (fun n => s.vote (s.term i) n = some i)
      elog := Function.update s.elog (s.term i) (s.log i)
      llog := Function.update s.llog (s.term i) (s.log i) } := by
  obtain ⟨hl0, ha0⟩ := h.no_lead _ hn
  set s' : Sys ι α := { s with
      lead := update s.lead (s.term i) (some i)
      voters := update s.voters (s.term i) (fun n => s.vote (s.term i) n = some i)
      elog := update s.elog (s.term i) (s.log i)
      llog := update s.llog (s.term i) (s.log i) } with hs'
  -- The new history differs from the old one in the current term only.
  have hT : s'.lead (s.term i) = some i ∧ s'.elog (s.term i) = s.log i
      ∧ s'.llog (s.term i) = s.log i
      ∧ s'.voters (s.term i) = fun n => s.vote (s.term i) n = some i := by
    simp [hs']
  have hne : ∀ t, t ≠ s.term i → s'.lead t = s.lead t ∧ s'.elog t = s.elog t
      ∧ s'.llog t = s.llog t ∧ s'.voters t = s.voters t := by
    intro t ht; simp [hs', ht]
  obtain ⟨hTl, hTe, hTll, hTv⟩ := hT
  have hx : Ext s s' := by
    refine { Ext.refl s with lead := ?_, elog := ?_, llog := ?_ }
    · intro t c hlead
      rwa [(hne t (by rintro rfl; simp [hn] at hlead)).1]
    · intro t hlead
      exact (hne t (by rintro rfl; exact hlead hn)).2.1
    · intro t
      by_cases ht : t = s.term i
      · rw [ht, hl0]; exact nil_prefix
      · rw [(hne t ht).2.2.1]
  -- Every leader's log, the new one included, was well formed before.
  have hw : ∀ t, s.Wf S (s'.llog t) := by
    intro t
    by_cases ht : t = s.term i
    · rw [ht, hTll]; exact h.log_wf i
    · rw [(hne t ht).2.2.1]; exact h.llog_wf t
  refine ⟨{ h with
    vote_cand := fun t n c => vote_cand_ext h hx
    cand_term := fun t c L => cand_term_ext h hx
    lead_cand := ?_, lead_quorum := ?_, lead_log := ?_, elog_llog := ?_, llog_term := ?_
    llog_wf := fun t => hx.wf (hw t)
    no_lead := ?_
    log_wf := fun n => hx.wf (h.log_wf n)
    ack_le := fun t n => (h.ack_le t n).trans (IsPrefix.length_le (hx.llog t))
    ack_log := fun t n k hk => held_ext h hx hk (h.ack_log t n k hk)
    vote_log := fun t n c hv u k hu hk => held_ext h hx hk (h.vote_log t n c hv u k hu hk)
    voters_log := ?_
    committed_ok := fun t k m => committed_ext h hx
    commit_ok := fun n => (h.commit_ok n).imp id hx.covers
    conf_next := fun t => h.wf_conf_next (hw t)
    conf_chain := fun t a b d e hd he hab hdc hec =>
      chain_ext h hx (h.wf_conf_chain (hw t) hd he hab hdc hec) }, hx⟩
  · intro t c hlead
    by_cases ht : t = s.term i
    · subst ht
      rw [hTl, Option.some.injEq] at hlead
      subst hlead
      rw [hTe]; exact hc
    · rw [(hne t ht).1] at hlead; rw [(hne t ht).2.1]
      exact h.lead_cand t c hlead
  · intro t c hlead
    by_cases ht : t = s.term i
    · subst ht
      rw [hTl, Option.some.injEq] at hlead
      subst hlead
      rw [hTe, hTv]
      exact ⟨hq, fun n hn => hn⟩
    · rw [(hne t ht).1] at hlead; rw [(hne t ht).2.1, (hne t ht).2.2.2]
      exact h.lead_quorum t c hlead
  · intro t c hlead htc
    by_cases ht : t = s.term i
    · subst ht
      rw [hTl, Option.some.injEq] at hlead
      rw [hTll, hlead]
    · rw [(hne t ht).1] at hlead; rw [(hne t ht).2.2.1]
      exact h.lead_log t c hlead htc
  · intro t hlead
    by_cases ht : t = s.term i
    · subst ht; rw [hTe, hTll]
    · rw [(hne t ht).1] at hlead; rw [(hne t ht).2.1, (hne t ht).2.2.1]
      exact h.elog_llog t hlead
  · intro t k e hk he
    by_cases ht : t = s.term i
    · subst ht
      rw [hTe] at hk; rw [hTll] at he
      have := lt_length_of_getElem? he
      omega
    · rw [(hne t ht).2.1] at hk; rw [(hne t ht).2.2.1] at he
      exact h.llog_term t k e hk he
  · intro t hlead
    have ht : t ≠ s.term i := by rintro rfl; rw [hTl] at hlead; simp at hlead
    rw [(hne t ht).1] at hlead; rw [(hne t ht).2.2.1]
    exact h.no_lead t hlead
  · intro t n hlead hvot u k hu hk
    apply held_ext h hx hk
    by_cases ht : t = s.term i
    · -- The votes of the new leader: no leader was there, so nothing was lost at `t`.
      subst ht
      rw [hTv] at hvot
      rcases h.vote_log _ n i hvot u k hu hk with hp | ⟨w, hw1, hw2, hw3, hw4⟩
      · exact Or.inl hp
      · have hwne : w ≠ s.term i := by rintro rfl; exact hw3 hn
        exact Or.inr ⟨w, hw1, by omega, hw3, hw4⟩
    · rw [(hne t ht).1] at hlead
      rw [(hne t ht).2.2.2] at hvot
      exact h.voters_log t n hlead hvot u k hu hk

private theorem keeps_decide (h : Inv S s) {k : ℕ} (hl : s.lead (s.term i) = some i)
    (h0 : 0 < k) (he : ∃ e, (s.log i)[k - 1]? = some e ∧ S.term e = s.term i)
    (hq : S.quorum (S.conf (s.log i)) (fun n => k ≤ s.ack (s.term i) n)) :
    Keeps S s { s with
      committed := fun t k' m =>
        s.committed t k' m ∨ (t = s.term i ∧ k' = k ∧ m = (s.log i).length) } := by
  have hlog := h.lead_log _ i hl rfl
  have hx : Ext s { s with
      committed := fun t k' m =>
        s.committed t k' m ∨ (t = s.term i ∧ k' = k ∧ m = (s.log i).length) } :=
    { Ext.refl s with committed := fun t k' m hc => Or.inl hc }
  refine ⟨{ h with
    committed_ok := ?_
    commit_ok := fun n => (h.commit_ok n).imp id hx.covers
    conf_chain := fun t a b d e hd he hab hdc hec =>
      chain_ext h hx (h.conf_chain t a b d e hd he hab hdc hec) }, hx⟩
  rintro t k' m (hc | ⟨rfl, rfl, rfl⟩)
  · exact h.committed_ok t k' m hc
  · obtain ⟨e, hek, het⟩ := he
    have hk := lt_length_of_getElem? hek
    refine ⟨h0, by omega, by rw [hlog], ⟨e, by rw [← hlog]; exact hek, het⟩, ?_⟩
    show S.quorum (S.conf ((s.llog (s.term i)).take (s.log i).length)) _
    rw [take_of_length_le (by rw [hlog]), ← hlog]
    exact hq

section Nodes
variable [DecidableEq ι]

theorem set2_apply {β : Type} (f : ℕ → ι → β) (t : ℕ) (i : ι) (v : β) (t' : ℕ) (n : ι) :
    set2 f t i v t' n = if t' = t ∧ n = i then v else f t' n := by
  by_cases ht : t' = t
  · subst ht
    by_cases hn : n = i <;> simp [set2, hn]
  · simp [set2, ht]

@[simp] theorem set2_same {β : Type} (f : ℕ → ι → β) (t : ℕ) (i : ι) (v : β) :
    set2 f t i v t i = v := by
  simp [set2_apply]

theorem set2_ne {β : Type} (f : ℕ → ι → β) {t : ℕ} {i : ι} (v : β) {t' : ℕ} {n : ι}
    (h : ¬ (t' = t ∧ n = i)) : set2 f t i v t' n = f t' n := by
  rw [set2_apply, if_neg h]

private theorem keeps_adopt (h : Inv S s) {t : ℕ} (ht : s.term i < t) :
    Keeps S s { s with term := Function.update s.term i t } := by
  have hterm : ∀ n, s.term n ≤ update s.term i t n := by
    intro n
    by_cases hn : n = i
    · subst hn; simp; omega
    · simp [hn]
  refine ⟨{ h with
    vote_term := fun t' n c hv => (h.vote_term t' n c hv).trans (hterm n)
    cand_term := fun t' c L hc => ⟨(h.cand_term t' c L hc).1.trans (hterm c),
      (h.cand_term t' c L hc).2⟩
    lead_log := ?_
    log_term := fun n e he => (h.log_term n e he).trans (hterm n)
    ack_term := fun t' n hk => (h.ack_term t' n hk).trans (hterm n)
    ack_log := fun t' n k hk => (h.ack_log t' n k hk).imp id
      (fun hl => Sys.Lost.mono hl (Nat.succ_le_succ (hterm n)))
    commit_ok := fun n => (h.commit_ok n).imp id
      (fun hc => Sys.Covers.mono hc (hterm n) (prefix_refl _)) },
    { Ext.refl s with term := hterm }⟩
  intro t' c hlead hc
  by_cases hci : c = i
  · subst hci
    have hc' : t = t' := by simpa using hc
    subst hc'
    have := h.lead_cand t c hlead
    rw [(fresh_term h ht).2] at this
    simp at this
  · exact h.lead_log t' c hlead (by simpa [hci] using hc)

/-- Standing in the current term with a log of older terms. -/
private theorem keeps_stand (h : Inv S s) (hc : s.cand (s.term i) i = none)
    (hlt : ∀ e ∈ s.log i, S.term e < s.term i) :
    Keeps S s { s with cand := set2 s.cand (s.term i) i (some (s.log i)) } := by
  have hx : ∀ t c L, s.cand t c = some L →
      set2 s.cand (s.term i) i (some (s.log i)) t c = some L := by
    intro t c L hL
    rwa [set2_ne]
    rintro ⟨rfl, rfl⟩
    simp [hc] at hL
  refine ⟨{ h with vote_cand := ?_, cand_term := ?_, lead_cand := ?_ },
    { Ext.refl s with cand := hx }⟩
  · intro t n c hv
    obtain ⟨L, h1, h2⟩ := h.vote_cand t n c hv
    exact ⟨L, hx t c L h1, h2⟩
  · intro t c L (hL : set2 s.cand (s.term i) i (some (s.log i)) t c = some L)
    rw [set2_apply] at hL
    split_ifs at hL with hcond
    · obtain ⟨rfl, rfl⟩ := hcond
      obtain rfl := Option.some.inj hL
      exact ⟨Nat.le_refl _, h.log_wf c, hlt⟩
    · exact h.cand_term t c L hL
  · intro t c hlead
    exact hx t c _ (h.lead_cand t c hlead)

private theorem keeps_vote (h : Inv S s) {c : ι} {L : List α}
    (hv0 : s.vote (s.term i) i = none) (hc0 : s.cand (s.term i) c = some L)
    (hL : S.UpToDate L (s.log i)) :
    Keeps S s { s with
      vote := set2 s.vote (s.term i) i (some c)
      vlog := set2 s.vlog (s.term i) i (s.log i) } := by
  have hvne : ∀ {t' n c}, s.vote t' n = some c → ¬ (t' = s.term i ∧ n = i) := by
    rintro t' n c hv ⟨rfl, rfl⟩; rw [hv0] at hv; simp at hv
  have hx : ∀ t n c', s.vote t n = some c' →
      set2 s.vote (s.term i) i (some c) t n = some c' := by
    intro t n c' hv
    rwa [set2_ne _ _ (hvne hv)]
  refine ⟨{ h with vote_term := ?_, vote_cand := ?_, lead_quorum := ?_, vote_log := ?_,
                   voters_log := ?_ }, { Ext.refl s with vote := hx }⟩
  · intro t' n c' (hv : set2 s.vote (s.term i) i (some c) t' n = some c')
    by_cases hc : t' = s.term i ∧ n = i
    · rw [hc.1, hc.2]
    · exact h.vote_term t' n c' (by rwa [set2_ne _ _ hc] at hv)
  · intro t' n c' (hv : set2 s.vote (s.term i) i (some c) t' n = some c')
    show ∃ K, s.cand t' c' = some K ∧ S.UpToDate K (set2 s.vlog (s.term i) i (s.log i) t' n)
      ∧ s.Wf S (set2 s.vlog (s.term i) i (s.log i) t' n)
    by_cases hc : t' = s.term i ∧ n = i
    · obtain ⟨rfl, rfl⟩ := hc
      have hcc : c = c' := by simpa using hv
      subst hcc
      rw [set2_same]
      exact ⟨L, hc0, hL, h.log_wf n⟩
    · rw [set2_ne _ _ hc] at hv ⊢
      exact h.vote_cand t' n c' hv
  · intro t' c' hlead
    obtain ⟨h1, h2⟩ := h.lead_quorum t' c' hlead
    exact ⟨h1, fun n hn => hx t' n c' (h2 n hn)⟩
  · intro t' n c' (hv : set2 s.vote (s.term i) i (some c) t' n = some c') u k hu hk
    show (s.llog u).take k <+: set2 s.vlog (s.term i) i (s.log i) t' n ∨ s.Lost u k (t' + 1)
    by_cases hc : t' = s.term i ∧ n = i
    · obtain ⟨rfl, rfl⟩ := hc
      rw [set2_same]
      exact h.ack_log u n k hk
    · rw [set2_ne _ _ hc] at hv ⊢
      exact h.vote_log t' n c' hv u k hu hk
  · intro t' n hlead hvot u k hu hk
    obtain ⟨c', hc'⟩ := Option.ne_none_iff_exists'.mp hlead
    show (s.llog u).take k <+: set2 s.vlog (s.term i) i (s.log i) t' n ∨ s.Lost u k t'
    rw [set2_ne _ _ (hvne ((h.lead_quorum t' c' hc').2 n hvot))]
    exact h.voters_log t' n hlead hvot u k hu hk

/-- Acknowledging more of the current leader's log, which the node's log already holds. -/
private theorem keeps_ack (h : Inv S s) {k : ℕ} (hl : s.lead (s.term i) ≠ none)
    (hk : k ≤ (s.llog (s.term i)).length) (hheld : (s.llog (s.term i)).take k <+: s.log i) :
    Keeps S s { s with ack := set2 s.ack (s.term i) i (max (s.ack (s.term i) i) k) } := by
  set a := set2 s.ack (s.term i) i (max (s.ack (s.term i) i) k) with ha
  have hack : ∀ t n, a t n
      = if t = s.term i ∧ n = i then max (s.ack (s.term i) i) k else s.ack t n :=
    fun t n => set2_apply _ _ _ _ _ _
  have hx : Ext s { s with ack := a } := by
    refine { Ext.refl s with ack := fun t n => ?_ }
    show s.ack t n ≤ a t n
    rw [hack]
    split_ifs with hc
    · rw [hc.1, hc.2]; exact Nat.le_max_left _ _
    · exact Nat.le_refl _
  -- A voter of a later term has not acknowledged anything now: this is the node's own term.
  have hackv : ∀ t n c, s.vote t n = some c → ∀ u j, u < t → j ≤ a u n → j ≤ s.ack u n := by
    intro t n c hv u j hu hj
    rw [hack] at hj
    split_ifs at hj with hcond
    · have := h.vote_term t n c hv
      rw [hcond.2] at this
      omega
    · exact hj
  refine ⟨{ h with no_lead := ?_, ack_le := ?_, ack_term := ?_, ack_log := ?_, vote_log := ?_,
                   voters_log := ?_, committed_ok := fun t j m => committed_ext h hx }, hx⟩
  · intro t hlead
    refine ⟨(h.no_lead t hlead).1, fun n => ?_⟩
    show a t n = 0
    rw [hack, if_neg (by rintro ⟨rfl, _⟩; exact hl hlead)]
    exact (h.no_lead t hlead).2 n
  · intro t n
    show a t n ≤ (s.llog t).length
    rw [hack]
    split_ifs with hcond
    · rw [hcond.1]; exact Nat.max_le.mpr ⟨h.ack_le _ i, hk⟩
    · exact h.ack_le t n
  · intro t n (hpos : 0 < a t n)
    rw [hack] at hpos
    split_ifs at hpos with hcond
    · rw [hcond.1, hcond.2]
    · exact h.ack_term t n hpos
  · intro t n j (hj : j ≤ a t n)
    rw [hack] at hj
    split_ifs at hj with hcond
    · obtain ⟨rfl, rfl⟩ := hcond
      rcases Nat.le_total j k with hjk | hkj
      · exact Or.inl ((take_prefix_take hjk).trans hheld)
      · rcases (by omega : j ≤ s.ack (s.term n) n ∨ j = k) with hj | rfl
        · exact h.ack_log _ n j hj
        · exact Or.inl hheld
    · exact h.ack_log t n j hj
  · intro t n c hv u j hu hj
    exact h.vote_log t n c hv u j hu (hackv t n c hv u j hu hj)
  · intro t n hlead hvot u j hu hj
    obtain ⟨c, hc⟩ := Option.ne_none_iff_exists'.mp hlead
    exact h.voters_log t n hlead hvot u j hu
      (hackv t n c ((h.lead_quorum t c hc).2 n hvot) u j hu hj)

private theorem keeps_append (h : Inv S s) {e : α} (hl : s.lead (s.term i) = some i)
    (he : S.term e = s.term i)
    (hconf : S.isConf e →
      S.next (S.conf (s.log i)) (S.conf (s.log i ++ [e]))
        ∧ ∀ j d, (s.log i)[j]? = some d → S.isConf d → j < s.commit i) :
    Keeps S s { s with
      log := Function.update s.log i (s.log i ++ [e])
      llog := Function.update s.llog (s.term i) (s.log i ++ [e]) } := by
  have hlog := h.lead_log _ i hl rfl
  set s' : Sys ι α := { s with
      log := update s.log i (s.log i ++ [e])
      llog := update s.llog (s.term i) (s.log i ++ [e]) } with hs'
  have hTll : s'.llog (s.term i) = s.llog (s.term i) ++ [e] := by simp [hs', hlog]
  have hne : ∀ t, t ≠ s.term i → s'.llog t = s.llog t := by intro t ht; simp [hs', ht]
  have hli : s'.log i = s.log i ++ [e] := by simp [hs']
  have hln : ∀ n, n ≠ i → s'.log n = s.log n := by intro n hn; simp [hs', hn]
  have hlp : ∀ n, s.log n <+: s'.log n := by
    intro n
    by_cases hn : n = i
    · subst hn; rw [hli]; exact prefix_append _ _
    · rw [hln n hn]
  have hx : Ext s s' := by
    refine { Ext.refl s with llog := fun t => ?_ }
    by_cases ht : t = s.term i
    · rw [ht, hTll]; exact prefix_append _ _
    · rw [hne t ht]
  have hwnew : s'.Wf S (s.log i ++ [e]) := by
    intro k d hd
    rcases getElem?_snoc hd with hd' | ⟨rfl, rfl⟩
    · have hk := lt_length_of_getElem? hd'
      rw [take_append_of_le_length (by omega)]
      exact hx.wf (h.log_wf i) k d hd'
    · rw [he, hTll, take_of_length_le (by simp), hlog]
      exact ⟨hx.lead_ne (by simp [hl]), prefix_refl _⟩
  refine ⟨{ h with
    vote_cand := fun t n c => vote_cand_ext h hx
    cand_term := fun t c L => cand_term_ext h hx
    lead_log := ?_
    elog_llog := fun t hlead => (h.elog_llog t hlead).trans (hx.llog t)
    llog_term := ?_, llog_wf := ?_, no_lead := ?_, log_wf := ?_, log_term := ?_
    ack_le := fun t n => (h.ack_le t n).trans (IsPrefix.length_le (hx.llog t))
    ack_log := fun t n k hk => (held_ext h hx hk (h.ack_log t n k hk)).imp
      (fun hp => hp.trans (hlp n)) id
    vote_log := fun t n c hv u k hu hk => held_ext h hx hk (h.vote_log t n c hv u k hu hk)
    voters_log := fun t n hlead hvot u k hu hk =>
      held_ext h hx hk (h.voters_log t n hlead hvot u k hu hk)
    committed_ok := fun t k m => committed_ext h hx
    commit_le := fun n => (h.commit_le n).trans (IsPrefix.length_le (hlp n))
    commit_ok := ?_, conf_next := ?_, conf_chain := ?_ }, hx⟩
  · intro t c hlead htc
    by_cases hci : c = i
    · subst hci
      rw [hli, ← htc, hTll, hlog]
    have ht : t ≠ s.term i := by
      rintro rfl
      exact hci (Option.some.inj (hlead.symm.trans hl))
    rw [hln c hci, hne t ht]
    exact h.lead_log t c hlead htc
  · intro t k d hk hd
    by_cases ht : t = s.term i
    · subst ht
      rw [hTll] at hd
      rcases getElem?_snoc hd with hd' | ⟨_, rfl⟩
      · exact h.llog_term _ k d hk hd'
      · exact he
    · rw [hne t ht] at hd
      exact h.llog_term t k d hk hd
  · intro t
    by_cases ht : t = s.term i
    · subst ht; rw [hTll, ← hlog]; exact hwnew
    · rw [hne t ht]; exact hx.wf (h.llog_wf t)
  · intro t hlead
    rw [hne t (by rintro rfl; exact absurd (hl.symm.trans hlead) (by simp))]
    exact h.no_lead t hlead
  · intro n
    by_cases hn : n = i
    · subst hn; rw [hli]; exact hwnew
    · rw [hln n hn]; exact hx.wf (h.log_wf n)
  · intro n d hd
    by_cases hn : n = i
    · subst hn
      rw [hli, mem_append, mem_singleton] at hd
      rcases hd with hd | rfl
      · exact h.log_term n d hd
      · exact Nat.le_of_eq he
    · rw [hln n hn] at hd; exact h.log_term n d hd
  · intro n
    rw [take_extend (hlp n) (h.commit_le n)]
    exact (h.commit_ok n).imp id hx.covers
  · intro t j d hd hdc
    by_cases ht : t = s.term i
    · subst ht
      rw [hTll] at hd ⊢
      rcases getElem?_snoc hd with hd' | ⟨rfl, rfl⟩
      · have hj := lt_length_of_getElem? hd'
        rw [take_append_of_le_length (by omega), take_append_of_le_length (by omega)]
        exact h.conf_next _ j d hd' hdc
      · rw [take_append_of_le_length (by omega), take_of_length_le (by omega),
          take_of_length_le (by simp), ← hlog]
        exact (hconf hdc).1
    · rw [hne t ht] at hd ⊢; exact h.conf_next t j d hd hdc
  · intro t a b d f hd hf hab hdc hfc
    apply chain_ext h hx
    by_cases ht : t = s.term i
    swap
    · rw [hne t ht] at hd hf ⊢
      exact h.conf_chain t a b d f hd hf hab hdc hfc
    subst ht
    rw [hTll] at hd hf ⊢
    have hb : b ≤ (s.llog (s.term i)).length := by
      have := lt_length_of_getElem? hf
      simp at this
      omega
    have hd' : (s.llog (s.term i))[a]? = some d := by
      rcases getElem?_snoc hd with h' | ⟨h', _⟩
      · exact h'
      · omega
    rw [take_append_of_le_length (by omega)]
    rcases getElem?_snoc hf with hf' | ⟨rfl, rfl⟩
    · exact h.conf_chain _ a b d f hd' hf' hab hdc hfc
    -- The new configuration: the leader has committed the one before it.
    have hcom := (hconf hfc).2 a d (by rw [hlog]; exact hd') hdc
    rcases h.commit_ok i with h0 | ⟨u, k, m, h1, h2, h3⟩
    · omega
    refine ⟨u, k, m, h1, ?_, ?_⟩
    · refine IsPrefix.trans ?_ h3
      rw [hlog]
      exact take_prefix_take (by omega)
    · rw [he]
      rcases Nat.lt_or_eq_of_le h2 with hlt | rfl
      · exact Or.inl hlt
      · exact Or.inr ⟨rfl, (h.committed_ok _ k m h1).2.2.1⟩

/-- Replacing the log by a prefix of the current leader's that it does not have. -/
private theorem keeps_replace (h : Inv S s) {k : ℕ} (hl : s.lead (s.term i) ≠ none)
    (hnp : ¬ (s.llog (s.term i)).take k <+: s.log i) :
    Keeps S s { s with log := Function.update s.log i ((s.llog (s.term i)).take k) } := by
  have hpl : (s.llog (s.term i)).take k <+: s.llog (s.term i) := take_prefix _ _
  -- A prefix of both logs is shorter than the new log, and so a prefix of it.
  have hsub : ∀ {p : List α}, p <+: s.llog (s.term i) → p <+: s.log i →
      p <+: (s.llog (s.term i)).take k := by
    intro p hp hpi
    rcases Nat.le_total p.length ((s.llog (s.term i)).take k).length with hle | hle
    · exact prefix_of_both hp hpl hle
    · exact absurd ((prefix_of_both hpl hp hle).trans hpi) hnp
  -- What the node knows to be decided survives the change of log.
  have hcommit : ((s.llog (s.term i)).take k).take (s.commit i) = (s.log i).take (s.commit i)
      ∧ s.commit i ≤ ((s.llog (s.term i)).take k).length := by
    have hlen : ((s.log i).take (s.commit i)).length = s.commit i := by
      rw [length_take]; have := h.commit_le i; omega
    have hpre : (s.log i).take (s.commit i) <+: (s.llog (s.term i)).take k := by
      rcases h.commit_ok i with h0 | hcov
      · rw [h0]; exact nil_prefix
      · exact hsub (h.covers_llog hcov hl) (List.take_prefix _ _)
    refine ⟨?_, hlen ▸ hpre.length_le⟩
    rw [take_extend hpre (by omega), take_take, Nat.min_self]
  set l := update s.log i ((s.llog (s.term i)).take k) with hset
  have hli : l i = (s.llog (s.term i)).take k := by simp [hset]
  have hln : ∀ n, n ≠ i → l n = s.log n := by intro n hn; simp [hset, hn]
  refine ⟨{ h with lead_log := ?_, log_wf := ?_, log_term := ?_, ack_log := ?_, commit_le := ?_,
                   commit_ok := ?_ }, { Ext.refl s with }⟩
  · intro t c hlead htc
    have hlog := h.lead_log t c hlead htc
    refine (hln c ?_).trans hlog
    rintro rfl
    subst htc
    rw [hlog] at hnp
    exact hnp hpl
  · intro n
    show s.Wf S (l n)
    by_cases hn : n = i
    · rw [hn, hli]; exact (h.llog_wf _).shorten hpl
    · rw [hln n hn]; exact h.log_wf n
  · intro n d (hd : d ∈ l n)
    by_cases hn : n = i
    · subst hn
      rw [hli] at hd
      obtain ⟨j, hj⟩ := mem_iff_getElem?.mp (mem_of_mem_take hd)
      exact h.llog_le hj
    · rw [hln n hn] at hd; exact h.log_term n d hd
  · intro t n j hj
    show (s.llog t).take j <+: l n ∨ s.Lost t j (s.term n + 1)
    by_cases hn : n = i
    swap
    · rw [hln n hn]; exact h.ack_log t n j hj
    subst hn
    rcases h.ack_log t n j hj with h1 | h1
    swap
    · exact Or.inr h1
    rw [hli]
    by_cases hel : (s.llog t).take j <+: s.llog (s.term n)
    · exact Or.inl (hsub hel h1)
    -- the leader of the node's term was elected without what the node acknowledged
    have hpos : 0 < j := Nat.pos_of_ne_zero (by rintro rfl; exact hel (by simp))
    have hle := h.ack_term t n (hpos.trans_le hj)
    have hne : t ≠ s.term n := by rintro rfl; exact hel (List.take_prefix _ _)
    exact Or.inr ⟨s.term n, by omega, by omega, hl,
      fun he => hel (he.trans (h.elog_llog _ hl))⟩
  · intro n
    show s.commit n ≤ (l n).length
    by_cases hn : n = i
    · rw [hn, hli]; exact hcommit.2
    · rw [hln n hn]; exact h.commit_le n
  · intro n
    show s.commit n = 0 ∨ s.Covers (s.term n) ((l n).take (s.commit n))
    by_cases hn : n = i
    · rw [hn, hli, hcommit.1]; exact h.commit_ok i
    · rw [hln n hn]; exact h.commit_ok n

private theorem keeps_learn (h : Inv S s) {k : ℕ} (hk : k ≤ (s.log i).length)
    (hc : k = 0 ∨ s.Covers (s.term i) ((s.log i).take k)) :
    Keeps S s { s with commit := Function.update s.commit i k } := by
  refine ⟨{ h with commit_le := ?_, commit_ok := ?_ }, { Ext.refl s with }⟩
  · intro n
    by_cases hn : n = i
    · subst hn; simpa using hk
    · simpa [hn] using h.commit_le n
  · intro n
    show update s.commit i k n = 0
      ∨ s.Covers (s.term n) ((s.log n).take (update s.commit i k n))
    by_cases hn : n = i
    · subst hn; rw [update_self]; exact hc
    · rw [update_of_ne hn]; exact h.commit_ok n

theorem Step.frame (hs : Step S i s s') : Frame i s s' := by
  have hset : ∀ {β : Type} (f : ℕ → ι → β) (t : ℕ) (v : β) (t' : ℕ) (n : ι), n ≠ i →
      set2 f t i v t' n = f t' n := fun f t v t' n hn => set2_ne f v (fun hc => hn hc.2)
  cases hs <;> constructor <;> intros <;>
    first
      | rfl
      | (exact update_of_ne ‹_› _ _)
      | (exact hset _ _ _ _ _ ‹_›)
      | assumption
      | (exact lead_of_win ‹_› ‹_›)

theorem Step.keeps (h : Inv S s) (hs : Step S i s s') : Keeps S s s' := by
  cases hs with
  | adopt t ht => exact keeps_adopt h ht
  | campaign t ht =>
    obtain ⟨hv, hc⟩ := fresh_term h ht
    have h1 := keeps_adopt h ht
    have h2 := keeps_stand (i := i) h1.inv (by simpa using hc)
      (fun e he => by simpa using Nat.lt_of_le_of_lt (h.log_term i e he) ht)
    have h3 := keeps_vote (i := i) (c := i) h2.inv (by simpa using hv) (set2_same _ _ _ _)
      (Or.inr ⟨rfl, Nat.le_refl _⟩)
    have h4 := (h1.trans h2).trans h3
    simpa only [update_self] using h4
  | grant c L hv hc hL => exact keeps_vote h hv hc hL
  | win hn hc hq =>
    have h1 := keeps_elect h hn hc hq
    have h2 := keeps_ack (i := i) (k := (s.log i).length) h1.inv (by simp) (by simp) (by simp)
    have h3 := h1.trans h2
    rwa [(h.no_lead _ hn).2 i, Nat.max_eq_right (Nat.zero_le _)] at h3
  | extend e hl he hconf =>
    have h1 := keeps_append h hl he hconf
    have h2 := keeps_ack (i := i) (k := (s.log i).length + 1) h1.inv (by simp [hl]) (by simp)
      (by simpa using take_prefix _ _)
    have h3 := h1.trans h2
    have hle := h.ack_le (s.term i) i
    rw [← h.lead_log _ i hl rfl] at hle
    rwa [Nat.max_eq_right (Nat.le_succ_of_le hle)] at h3
  | accept k hl hk =>
    split_ifs with hp
    · rw [update_eq_self]
      exact keeps_ack h hl hk hp
    · have h1 := keeps_replace h hl hp
      exact h1.trans (keeps_ack (i := i) h1.inv hl hk (by simp))
  | decide k hl h0 he hq => exact keeps_decide h hl h0 he hq
  | learn k hk hc => exact keeps_learn h hk hc

/-- **Every transition only adds to the history.** -/
theorem Step.ext (h : Inv S s) (hs : Step S i s s') : Ext s s' := (hs.keeps h).ext

/-- **Every transition keeps the invariant.** -/
theorem Step.inv (h : Inv S s) (hs : Step S i s s') : Inv S s' := (hs.keeps h).inv

/-! ### Runs of one node -/

/-- A sequence of transitions of node `i`. -/
inductive Steps (S : Scheme ι α C) (i : ι) : Sys ι α → Sys ι α → Prop
  | refl (s : Sys ι α) : Steps S i s s
  | tail {s₁ s₂ s₃ : Sys ι α} : Steps S i s₁ s₂ → Step S i s₂ s₃ → Steps S i s₁ s₃

theorem Steps.single (h : Step S i s s') : Steps S i s s' := .tail (.refl s) h

theorem Steps.trans {s₁ s₂ s₃ : Sys ι α} (h₁ : Steps S i s₁ s₂) (h₂ : Steps S i s₂ s₃) :
    Steps S i s₁ s₃ := by
  induction h₂ with
  | refl => exact h₁
  | tail _ hs ih => exact .tail ih hs

/-- **A run keeps the invariant, extends the history and leaves the other nodes alone.** -/
theorem Steps.sound (h : Inv S s) (hs : Steps S i s s') :
    Inv S s' ∧ Ext s s' ∧ Frame i s s' := by
  induction hs with
  | refl => exact ⟨h, Ext.refl _, Frame.refl i _⟩
  | tail _ hstep ih =>
    obtain ⟨hi, hx, hf⟩ := ih
    exact ⟨hstep.inv hi, hx.trans (hstep.ext hi), hf.trans hstep.frame⟩

end Nodes

end Consensus

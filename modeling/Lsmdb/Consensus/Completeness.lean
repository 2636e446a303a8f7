import Lsmdb.Consensus.System

namespace Consensus

open List

/-!
# Leader completeness

In any state that satisfies the invariant, a prefix decided in term `t` is part of the
log with which any later leader was elected (`Inv.leader_complete`), and even of the log
of any candidate that holds a quorum of votes (`Inv.winner_complete`).

The argument is the usual one — a deciding quorum and an electing quorum meet in a voter
that acknowledged the prefix before it voted — with one extra ingredient.  The two
quorums may belong to different configurations, so first it must be shown that these
meet.  A log's configurations are all decided except possibly the last one
(`Inv.conf_chain`); by induction the decided ones occur in both logs, hence the two
configurations are equal, adjacent, or siblings (`Scheme.meet_of_shared`).
-/

variable {ι α C : Type} {S : Scheme ι α C} {s : Sys ι α}

/-! ### Configurations of two logs that share their decided part -/

/-- Entries that are no configurations do not change the configuration. -/
theorem Scheme.conf_eq_take (S : Scheme ι α C) (l : List α) :
    ∀ i, i ≤ l.length → (∀ j d, i ≤ j → l[j]? = some d → ¬ S.isConf d) →
      S.conf l = S.conf (l.take i) := by
  induction l using reverseRecOn with
  | nil => intro i _ _; simp
  | append_singleton l a ih =>
    intro i hi hno
    rw [length_append, length_singleton] at hi
    rcases Nat.lt_or_ge l.length i with hlt | hge
    · rw [take_of_length_le (by simp; omega)]
    · have ha : ¬ S.isConf a := hno l.length a hge (by simp)
      have hl : ∀ j d, i ≤ j → l[j]? = some d → ¬ S.isConf d := fun j d hj hd =>
        hno j d hj (getElem?_extend (prefix_append l [a]) hd)
      rw [S.conf_snoc l a ha, ih i hge hl, take_append_of_le_length hge]

theorem Scheme.last_conf (S : Scheme ι α C) (l : List α) :
    (∀ (j : ℕ) (d : α), l[j]? = some d → ¬ S.isConf d)
      ∨ ∃ (j : ℕ) (d : α), l[j]? = some d ∧ S.isConf d
        ∧ ∀ (i : ℕ) (e : α), j < i → l[i]? = some e → ¬ S.isConf e := by
  induction l using reverseRecOn with
  | nil => left; intro j d h; simp at h
  | append_singleton l a ih =>
    by_cases ha : S.isConf a
    · refine Or.inr ⟨l.length, a, by simp, ha, ?_⟩
      intro i e hi he
      have := lt_length_of_getElem? he
      simp at this
      omega
    · rcases ih with hno | ⟨j, d, hd, hc, hlast⟩
      · left
        intro j d hd
        rcases getElem?_snoc hd with h | ⟨_, rfl⟩
        · exact hno j d h
        · exact ha
      · refine Or.inr ⟨j, d, getElem?_extend (prefix_append l [a]) hd, hc, ?_⟩
        intro i e hi he
        rcases getElem?_snoc he with h | ⟨_, rfl⟩
        · exact hlast i e hi h
        · exact ha

/-- Every configuration of `p` occurs, with everything before it, in `q`. -/
def Scheme.Shared (S : Scheme ι α C) (p q : List α) : Prop :=
  ∀ i d, p[i]? = some d → S.isConf d → p.take (i + 1) <+: q

/-- A shared configuration is a configuration of the other log too. -/
private theorem getElem?_of_shared {p q : List α} {i : ℕ} {d : α} (hd : p[i]? = some d)
    (h : p.take (i + 1) <+: q) : q[i]? = some d := by
  apply getElem?_extend h
  rw [getElem?_take_of_lt (by omega)]
  exact hd

private theorem take_eq_extend {p q : List α} {i : ℕ} (hi : i < p.length)
    (h : p.take (i + 1) <+: q) : q.take (i + 1) = p.take (i + 1) := by
  have hlen : (p.take (i + 1)).length = i + 1 := by rw [length_take]; omega
  have := take_extend h (k := i + 1) (by omega)
  rw [this, take_of_length_le (by omega)]

/-- Logs that share all their configurations are in the same configuration. -/
theorem Scheme.conf_eq_of_shared (S : Scheme ι α C) {p q : List α} (hpq : S.Shared p q)
    (hqp : S.Shared q p) : S.conf p = S.conf q := by
  rcases S.last_conf p with hp | ⟨i, d, hd, hdc, hdl⟩
  · have hq : ∀ j e, q[j]? = some e → ¬ S.isConf e := fun j e he hc =>
      hp j e (getElem?_of_shared he (hqp j e he hc)) hc
    rw [S.conf_eq_take p 0 (by omega) (fun j d _ => hp j d),
      S.conf_eq_take q 0 (by omega) (fun j d _ => hq j d)]
    simp
  · rcases S.last_conf q with hq | ⟨j, e, he, hec, hel⟩
    · exact absurd hdc (hq i d (getElem?_of_shared hd (hpq i d hd hdc)))
    · have hij : i ≤ j := by
        by_contra hlt
        exact hel i d (by omega) (getElem?_of_shared hd (hpq i d hd hdc)) hdc
      have hji : j ≤ i := by
        by_contra hlt
        exact hdl j e (by omega) (getElem?_of_shared he (hqp j e he hec)) hec
      have hij' : i = j := by omega
      subst hij'
      have hi := lt_length_of_getElem? hd
      have hj := lt_length_of_getElem? he
      rw [S.conf_eq_take p (i + 1) (by omega) (fun k x hk => hdl k x (by omega)),
        S.conf_eq_take q (i + 1) (by omega) (fun k x hk => hel k x (by omega)),
        take_eq_extend hi (hpq i d hd hdc)]

/-- The last configuration of `q` is the only one `p` lacks: `q` is one step ahead. -/
private theorem next_of_unshared {p q : List α} (hpq : S.Shared p q)
    (hq : ∀ i j d e, q[i]? = some d → q[j]? = some e → i < j → S.isConf d → S.isConf e →
      q.take (i + 1) <+: p)
    (hnext : ∀ j e, q[j]? = some e → S.isConf e →
      S.next (S.conf (q.take j)) (S.conf (q.take (j + 1))))
    {j : ℕ} {e : α} (he : q[j]? = some e) (hec : S.isConf e) (hun : ¬ q.take (j + 1) <+: p) :
    S.next (S.conf p) (S.conf q) := by
  have hj := lt_length_of_getElem? he
  -- No configuration follows `j`, or `j` would be shared.
  have hlast : ∀ i d, j < i → q[i]? = some d → ¬ S.isConf d := fun i d hi hd hdc =>
    hun (hq j i e d he hd hi hec hdc)
  have hshared : S.Shared p (q.take j) := by
    intro i d hd hdc
    have hpre := hpq i d hd hdc
    have hqi := getElem?_of_shared hd hpre
    have hij : i < j := by
      rcases Nat.lt_trichotomy i j with h | h | h
      · exact h
      · subst h
        exfalso
        apply hun
        rw [take_eq_extend (lt_length_of_getElem? hd) hpre]
        exact take_prefix _ _
      · exact absurd hdc (hlast i d h hqi)
    rw [prefix_take_iff]
    exact ⟨hpre, by rw [length_take]; omega⟩
  have hshared' : S.Shared (q.take j) p := by
    intro i d hd hdc
    have hij : i < j := by
      have := lt_length_of_getElem? hd
      rw [length_take] at this
      omega
    rw [getElem?_take_of_lt hij] at hd
    rw [take_take, Nat.min_eq_left (by omega)]
    exact hq i j d e hd he hij hdc hec
  rw [S.conf_eq_of_shared hshared hshared',
    S.conf_eq_take q (j + 1) (by omega) (fun i d hi => hlast i d (by omega))]
  exact hnext j e he hec

/-- **Quorums of two logs meet** when every configuration of either log that is not its
    last one occurs in the other. -/
theorem Scheme.meet_of_shared (S : Scheme ι α C) {p q : List α}
    (hp : ∀ i j d e, p[i]? = some d → p[j]? = some e → i < j → S.isConf d → S.isConf e →
      p.take (i + 1) <+: q)
    (hq : ∀ i j d e, q[i]? = some d → q[j]? = some e → i < j → S.isConf d → S.isConf e →
      q.take (i + 1) <+: p)
    (hnp : ∀ j e, p[j]? = some e → S.isConf e →
      S.next (S.conf (p.take j)) (S.conf (p.take (j + 1))))
    (hnq : ∀ j e, q[j]? = some e → S.isConf e →
      S.next (S.conf (q.take j)) (S.conf (q.take (j + 1))))
    {P Q : ι → Prop} (hP : S.quorum (S.conf p) P) (hQ : S.quorum (S.conf q) Q) :
    ∃ i, P i ∧ Q i := by
  by_cases hpq : S.Shared p q
  · by_cases hqp : S.Shared q p
    · -- the same configuration
      rw [S.conf_eq_of_shared hpq hqp] at hP
      exact S.meet_self _ P Q hP hQ
    · -- `q` is one step ahead of `p`
      simp only [Scheme.Shared, not_forall] at hqp
      obtain ⟨j, e, he, hec, hun⟩ := hqp
      exact S.meet_next _ _ P Q (next_of_unshared hpq hq hnq he hec hun) hP hQ
  · simp only [Scheme.Shared, not_forall] at hpq
    obtain ⟨i, d, hd, hdc, hpun⟩ := hpq
    by_cases hqp : S.Shared q p
    · -- `p` is one step ahead of `q`
      obtain ⟨x, hx1, hx2⟩ :=
        S.meet_next _ _ Q P (next_of_unshared hqp hp hnp hd hdc hpun) hQ hP
      exact ⟨x, hx2, hx1⟩
    · -- both are one step ahead of what they share
      simp only [Scheme.Shared, not_forall] at hqp
      obtain ⟨j, e, he, hec, hqun⟩ := hqp
      have hi := lt_length_of_getElem? hd
      have hpj : S.Shared (p.take i) q := by
        intro a x hx hxc
        have hai : a < i := by
          have := lt_length_of_getElem? hx
          rw [length_take] at this
          omega
        rw [getElem?_take_of_lt hai] at hx
        rw [take_take, Nat.min_eq_left (by omega)]
        exact hp a i x d hx hd hai hxc hdc
      -- Every configuration of `q` before its unshared one occurs before `i` in `p`.
      have hqi : ∀ a b x y, q[a]? = some x → q[b]? = some y → a < b → S.isConf x →
          S.isConf y → q.take (a + 1) <+: p.take i := by
        intro a b x y hx hy hab hxc hyc
        have hpre := hq a b x y hx hy hab hxc hyc
        have hpa := getElem?_of_shared hx hpre
        have hai : a < i := by
          rcases Nat.lt_trichotomy a i with h | h | h
          · exact h
          · subst h
            exfalso
            apply hpun
            rw [take_eq_extend (lt_length_of_getElem? hx) hpre]
            exact take_prefix _ _
          · exact absurd (hp i a d x hd hpa h hdc hxc) hpun
        rw [prefix_take_iff]
        exact ⟨hpre, by rw [length_take]; omega⟩
      have hnq' := next_of_unshared hpj hqi hnq he hec
        (fun h => hqun (h.trans (List.take_prefix _ _)))
      have hplast : S.conf p = S.conf (p.take (i + 1)) :=
        S.conf_eq_take p (i + 1) (by omega) (fun a x ha hx hxc =>
          hpun (hp i a d x hd hx (by omega) hdc hxc))
      have hnp' := hnp i d hd hdc
      rw [← hplast] at hnp'
      exact S.meet_fork _ _ _ P Q hnp' hnq' hP hQ

/-! ### Terms and leaders of well-formed logs -/

/-- The entries a leader was elected with are older than its term. -/
theorem Inv.elog_lt (h : Inv S s) {t k : ℕ} {e : α} (hl : s.lead t ≠ none)
    (he : (s.elog t)[k]? = some e) : S.term e < t := by
  obtain ⟨c, hc⟩ := Option.ne_none_iff_exists'.mp hl
  exact (h.cand_term t c _ (h.lead_cand t c hc)).2.2 e (mem_of_getElem? he)

theorem Inv.llog_le (h : Inv S s) {t k : ℕ} {e : α} (he : (s.llog t)[k]? = some e) :
    S.term e ≤ t := by
  have hl : s.lead t ≠ none := by
    intro hn
    rw [(h.no_lead t hn).1] at he
    simp at he
  rcases Nat.lt_or_ge k (s.elog t).length with hk | hk
  · have hpre := h.elog_llog t hl
    have : (s.elog t)[k]? = some e := by
      rw [getElem?_eq_getElem hk, ← he]
      exact (getElem?_extend hpre (getElem?_eq_getElem hk)).symm
    exact Nat.le_of_lt (h.elog_lt hl this)
  · exact Nat.le_of_eq (h.llog_term t k e hk he)

/-- An entry of the leader's own term lies past the log it was elected with. -/
theorem Inv.elog_length_le (h : Inv S s) {t k : ℕ} {e : α} (hl : s.lead t ≠ none)
    (he : (s.llog t)[k]? = some e) (ht : S.term e = t) : (s.elog t).length ≤ k := by
  by_contra hk
  have hk' : k < (s.elog t).length := by omega
  have hek : (s.elog t)[k]? = some e := by
    rw [getElem?_eq_getElem hk', ← he]
    exact (getElem?_extend (h.elog_llog t hl) (getElem?_eq_getElem hk')).symm
  have := h.elog_lt hl hek
  omega

/-- A prefix ending in an entry of term `t` extends the log the leader of `t` was elected
    with. -/
theorem Inv.elog_prefix_of_wf (h : Inv S s) {l : List α} (hw : s.Wf S l) {k : ℕ} {e : α}
    (he : l[k]? = some e) : s.elog (S.term e) <+: l := by
  obtain ⟨hl, hpre⟩ := hw k e he
  have hk := lt_length_of_getElem? he
  have hek : (s.llog (S.term e))[k]? = some e := by
    apply getElem?_extend hpre
    rw [getElem?_take_of_lt (by omega)]
    exact he
  have hlen := h.elog_length_le hl hek rfl
  have h1 : s.elog (S.term e) <+: l.take (k + 1) :=
    prefix_of_both (h.elog_llog _ hl) hpre (by rw [length_take]; omega)
  exact h1.trans (List.take_prefix _ _)

/-- A non-empty well-formed log is a prefix of the log of its last term's leader. -/
theorem Inv.wf_prefix {l : List α} (hw : s.Wf S l) (hne : l ≠ []) :
    ∃ e, l[l.length - 1]? = some e ∧ S.term e = S.lastTerm l
      ∧ s.lead (S.lastTerm l) ≠ none ∧ l <+: s.llog (S.lastTerm l) := by
  have hpos : 0 < l.length := length_pos_iff.mpr hne
  have hget : l[l.length - 1]? = some (l.getLast hne) := by
    rw [getLast_eq_getElem, getElem?_eq_getElem (by omega)]
  have hterm : S.term (l.getLast hne) = S.lastTerm l := by
    simp [Scheme.lastTerm, getLast?_eq_some_getLast hne]
  obtain ⟨hl, hpre⟩ := hw _ _ hget
  rw [hterm] at hl hpre
  rw [take_of_length_le (by omega)] at hpre
  exact ⟨_, hget, hterm, hl, hpre⟩

theorem Inv.committed_lead (h : Inv S s) {t k m : ℕ} (hc : s.committed t k m) :
    s.lead t ≠ none := by
  intro hn
  obtain ⟨h0, hkm, hm, _⟩ := h.committed_ok t k m hc
  rw [(h.no_lead t hn).1] at hm
  simp at hm
  omega

/-- The configurations of a well-formed log step by `next`. -/
theorem Inv.wf_conf_next (h : Inv S s) {l : List α} (hw : s.Wf S l) (j : ℕ) (e : α)
    (he : l[j]? = some e) (hec : S.isConf e) :
    S.next (S.conf (l.take j)) (S.conf (l.take (j + 1))) := by
  obtain ⟨_, hpre⟩ := hw j e he
  have hj := lt_length_of_getElem? he
  have hlen : (l.take (j + 1)).length = j + 1 := by rw [length_take]; omega
  have hek := getElem?_extend hpre (k := j) (e := e)
    (by rw [getElem?_take_of_lt (by omega)]; exact he)
  have h1 : (s.llog (S.term e)).take (j + 1) = l.take (j + 1) := by
    rw [take_extend hpre (by omega), take_of_length_le (by omega)]
  have h2 : (s.llog (S.term e)).take j = l.take j := by
    rw [take_extend hpre (by omega), take_take, Nat.min_eq_left (by omega)]
  rw [← h1, ← h2]
  exact h.conf_next _ j e hek hec

/-- Every configuration of a well-formed log but the last one is decided. -/
theorem Inv.wf_conf_chain (h : Inv S s) {l : List α} (hw : s.Wf S l) {i j : ℕ} {d e : α}
    (hd : l[i]? = some d) (he : l[j]? = some e) (hij : i < j) (hdc : S.isConf d)
    (hec : S.isConf e) :
    ∃ u k m, s.committed u k m ∧ l.take (i + 1) <+: (s.llog u).take k
      ∧ (u < S.term e ∨ (u = S.term e ∧ m ≤ j)) := by
  obtain ⟨_, hpre⟩ := hw j e he
  have hj := lt_length_of_getElem? he
  have hlen : (l.take (j + 1)).length = j + 1 := by rw [length_take]; omega
  have hek := getElem?_extend hpre (k := j) (e := e)
    (by rw [getElem?_take_of_lt (by omega)]; exact he)
  have hdk := getElem?_extend hpre (k := i) (e := d)
    (by rw [getElem?_take_of_lt (by omega)]; exact hd)
  have h1 : (s.llog (S.term e)).take (i + 1) = l.take (i + 1) := by
    rw [take_extend hpre (by omega), take_take, Nat.min_eq_left (by omega)]
  rw [← h1]
  exact h.conf_chain _ i j d e hdk hek hij hdc hec

/-! ### The induction -/

/-- Leaders of terms below `b` were elected with everything decided before them. -/
def Sys.CompleteBelow (s : Sys ι α) (b : ℕ) : Prop :=
  ∀ u t k m, u < b → s.committed t k m → t < u → s.lead u ≠ none →
    (s.llog t).take k <+: s.elog u

/-- **Up-to-date logs carry decided prefixes.**  If the voter's log `v` holds a decided
    prefix and `l` is at least as up to date, then `l` holds it too. -/
private theorem carry (h : Inv S s) {b t k m : ℕ} (hcomp : s.CompleteBelow b)
    (hc : s.committed t k m) {l v : List α} (hwl : s.Wf S l) (hwv : s.Wf S v)
    (hlb : ∀ e ∈ l, S.term e < b) (hpv : (s.llog t).take k <+: v) (hup : S.UpToDate l v) :
    (s.llog t).take k <+: l := by
  obtain ⟨h0, hkm, hm, ⟨e, he, het⟩, _⟩ := h.committed_ok t k m hc
  have hlen : ((s.llog t).take k).length = k := by rw [length_take]; omega
  have hev : v[k - 1]? = some e := by
    apply getElem?_extend hpv
    rw [getElem?_take_of_lt (by omega)]
    exact he
  have hvne : v ≠ [] := by rintro rfl; simp at hev
  obtain ⟨ev, _, _, _, hvpre⟩ := Inv.wf_prefix hwv hvne
  have htv : t ≤ S.lastTerm v := by
    rw [← het]; exact h.llog_le (getElem?_extend hvpre hev)
  have hlne : l ≠ [] := by
    rintro rfl
    rcases hup with hlt | ⟨_, hle⟩
    · simp [Scheme.lastTerm] at hlt
    · exact hvne (length_eq_zero_iff.mp (by simpa using hle))
  obtain ⟨el, hel, helt, hlead, hlpre⟩ := Inv.wf_prefix hwl hlne
  have htb : S.lastTerm l < b := by
    rw [← helt]; exact hlb el (mem_of_getElem? hel)
  rcases Nat.lt_or_ge t (S.lastTerm l) with hlt | hge
  · -- a later leader's entry ends `l`, and that leader was elected with the prefix
    have hpre := hcomp (S.lastTerm l) t k m htb hc hlt hlead
    have hel' := h.elog_prefix_of_wf hwl hel
    rw [helt] at hel'
    exact hpre.trans hel'
  · -- both logs end inside the log of the leader of `t`
    rcases hup with hup | ⟨heq, hle⟩
    · omega
    · have hteq : S.lastTerm l = t := by omega
      rw [hteq] at hlpre
      rw [heq, hteq] at hvpre
      exact hpv.trans (prefix_of_both hvpre hlpre hle)

/-- **A quorum elects only complete logs.**  The step of the induction, for a log `l` that
    some quorum `V` of its own configuration voted for in term `b`. -/
theorem Inv.elected_complete (h : Inv S s) {b : ℕ} (hcomp : s.CompleteBelow b)
    {l : List α} (hwl : s.Wf S l) (hlb : ∀ e ∈ l, S.term e < b) {V : ι → Prop}
    (hq : S.quorum (S.conf l) V)
    (hV : ∀ n, V n → S.UpToDate l (s.vlog b n) ∧ s.Wf S (s.vlog b n))
    (hack : ∀ n, V n → ∀ t k m, s.committed t k m → t < b → k ≤ s.ack t n →
      (s.llog t).take k <+: s.vlog b n) :
    ∀ t m k, s.committed t k m → t < b → (s.llog t).take k <+: l := by
  -- Lexicographic induction on the deciding term and the leader's log length then.
  intro t
  induction t using Nat.strong_induction_on with
  | _ t iht =>
  intro m
  induction m using Nat.strong_induction_on with
  | _ m ihm =>
  intro k hc htb
  by_contra hnot
  obtain ⟨h0, hkm, hm, ⟨ek, hek, hekt⟩, hqa⟩ := h.committed_ok t k m hc
  have hlead := h.committed_lead hc
  have hlen : ((s.llog t).take m).length = m := by rw [length_take]; omega
  -- Configurations of the deciding leader occur in `l` by induction.
  have hp : ∀ i j d e, ((s.llog t).take m)[i]? = some d → ((s.llog t).take m)[j]? = some e →
      i < j → S.isConf d → S.isConf e → ((s.llog t).take m).take (i + 1) <+: l := by
    intro i j d e hd he hij hdc hec
    have hjm : j < m := by have := lt_length_of_getElem? he; omega
    rw [getElem?_take_of_lt (by omega)] at hd he
    rw [take_take, Nat.min_eq_left (by omega)]
    obtain ⟨u, k1, m1, hc1, hpre, hu⟩ := h.conf_chain t i j d e hd he hij hdc hec
    have het := h.llog_le he
    rcases hu with hu | ⟨hu, hm1⟩
    · exact hpre.trans (iht u (by omega) m1 k1 hc1 (by omega))
    rcases Nat.lt_or_ge u t with hut | hut
    · exact hpre.trans (iht u hut m1 k1 hc1 (by omega))
    · have hut' : u = t := by omega
      subst hut'
      exact hpre.trans (ihm m1 (by omega) k1 hc1 htb)
  -- Configurations of `l` occur in the deciding leader's log, or `l` is complete.
  have hq' : ∀ i j d e, l[i]? = some d → l[j]? = some e → i < j → S.isConf d → S.isConf e →
      l.take (i + 1) <+: (s.llog t).take m := by
    intro i j d e hd he hij hdc hec
    obtain ⟨hle, hpre⟩ := hwl j e he
    have hj := lt_length_of_getElem? he
    have heb := hlb e (mem_of_getElem? he)
    rcases Nat.lt_trichotomy (S.term e) t with hlt | heq | hgt
    · obtain ⟨u, k1, m1, hc1, hpre1, hu⟩ := h.wf_conf_chain hwl hd he hij hdc hec
      have hcu := hcomp t u k1 m1 htb hc1 (by omega) hlead
      have hel : s.elog t <+: (s.llog t).take m := by
        have := h.elog_length_le hlead hek hekt
        exact prefix_of_both (h.elog_llog t hlead) (List.take_prefix _ _) (by omega)
      exact hpre1.trans (hcu.trans hel)
    · rw [heq] at hpre
      have hlj : (l.take (j + 1)).length = j + 1 := by rw [length_take]; omega
      have hjk : j + 1 < k := by
        by_contra hkj
        apply hnot
        have : (s.llog t).take k <+: l.take (j + 1) :=
          prefix_of_both (List.take_prefix _ _) hpre (by rw [length_take]; omega)
        exact this.trans (List.take_prefix _ _)
      have h1 : l.take (i + 1) <+: l.take (j + 1) := take_prefix_take (by omega)
      exact prefix_of_both (h1.trans hpre) (List.take_prefix _ _)
        (by rw [length_take, hlen]; omega)
    · exfalso
      apply hnot
      exact (hcomp (S.term e) t k m heb hc hgt hle).trans (h.elog_prefix_of_wf hwl he)
  have hwt : s.Wf S ((s.llog t).take m) := by
    intro i e he
    have him : i < m := by have := lt_length_of_getElem? he; omega
    rw [getElem?_take_of_lt him] at he
    rw [take_take, Nat.min_eq_left (by omega)]
    exact h.llog_wf t i e he
  obtain ⟨n, hn1, hn2⟩ := S.meet_of_shared hp hq' (h.wf_conf_next hwt) (h.wf_conf_next hwl) hqa hq
  obtain ⟨hup, hwv⟩ := hV n hn2
  exact hnot (carry h hcomp hc hwl hwv hlb (hack n hn2 t k m hc htb hn1) hup)

/-- **Leader completeness.**  What was decided in a term is part of the log with which
    every later leader was elected. -/
theorem Inv.leader_complete (h : Inv S s) (b : ℕ) : s.CompleteBelow b := by
  induction b with
  | zero => intro u t k m hu; omega
  | succ b ih =>
    intro u t k m hu hc htu hlead
    rcases Nat.lt_or_ge u b with hub | hub
    · exact ih u t k m hub hc htu hlead
    have hub' : u = b := by omega
    subst hub'
    obtain ⟨c, hcl⟩ := Option.ne_none_iff_exists'.mp hlead
    have hcand := h.lead_cand u c hcl
    obtain ⟨_, hwl, hlb⟩ := h.cand_term u c _ hcand
    obtain ⟨hq, hvot⟩ := h.lead_quorum u c hcl
    refine h.elected_complete ih hwl hlb hq ?_ ?_ t m k hc htu
    · intro n hn
      obtain ⟨L, hL, hup, hwv⟩ := h.vote_cand u n c (hvot n hn)
      rw [hcand, Option.some.injEq] at hL
      subst hL
      exact ⟨hup, hwv⟩
    · intro n hn t' k' m' hc' ht' hk'
      rcases h.voters_log u n hlead hn t' k' ht' hk' with hpre | ⟨w, hw1, hw2, hw3, hw4⟩
      · exact hpre
      · exact absurd (ih w t' k' m' hw2 hc' hw1 hw3) hw4

/-- A decided prefix is part of the log of any later leader. -/
theorem Inv.committed_llog (h : Inv S s) {t k m u : ℕ} (hc : s.committed t k m) (htu : t ≤ u)
    (hlead : s.lead u ≠ none) : (s.llog t).take k <+: s.llog u := by
  rcases Nat.lt_or_ge t u with hlt | hge
  · exact (h.leader_complete (u + 1) u t k m (by omega) hc hlt hlead).trans (h.elog_llog u hlead)
  · have : t = u := by omega
    subst this
    exact take_prefix _ _

/-- **Completeness of candidates.**  A candidate with a quorum of votes, whether or not it
    has noticed, holds everything decided in earlier terms. -/
theorem Inv.winner_complete (h : Inv S s) {b : ℕ} {c : ι} {l : List α}
    (hcand : s.cand b c = some l)
    (hq : S.quorum (S.conf l) (fun n => s.vote b n = some c)) {t k m : ℕ}
    (hc : s.committed t k m) (htb : t < b) : (s.llog t).take k <+: l := by
  obtain ⟨_, hwl, hlb⟩ := h.cand_term b c l hcand
  refine h.elected_complete (h.leader_complete b) hwl hlb hq ?_ ?_ t m k hc htb
  · intro n hn
    obtain ⟨L, hL, hup, hwv⟩ := h.vote_cand b n c hn
    rw [hcand, Option.some.injEq] at hL
    subst hL
    exact ⟨hup, hwv⟩
  · intro n hn t' k' m' hc' ht' hk'
    rcases h.vote_log b n c hn t' k' ht' hk' with hpre | ⟨w, hw1, hw2, hw3, hw4⟩
    · exact hpre
    · exact absurd (h.leader_complete (b + 1) w t' k' m' hw2 hc' hw1 hw3) hw4

/-- **Election safety.**  A candidate that holds a quorum of votes in a term that already
    has a leader is that leader. -/
theorem Inv.winner_unique (h : Inv S s) {b : ℕ} {c c' : ι} {l : List α}
    (hcand : s.cand b c = some l)
    (hq : S.quorum (S.conf l) (fun n => s.vote b n = some c)) (hl : s.lead b = some c') :
    c' = c := by
  obtain ⟨_, hwl, hlb⟩ := h.cand_term b c l hcand
  have hcand' := h.lead_cand b c' hl
  obtain ⟨_, hwl', hlb'⟩ := h.cand_term b c' _ hcand'
  obtain ⟨hq', hvot⟩ := h.lead_quorum b c' hl
  have hlead : s.lead b ≠ none := by rw [hl]; simp
  have hp : ∀ i j d e, l[i]? = some d → l[j]? = some e → i < j → S.isConf d → S.isConf e →
      l.take (i + 1) <+: s.elog b := by
    intro i j d e hd he hij hdc hec
    obtain ⟨u, k, m, hc, hpre, hu⟩ := h.wf_conf_chain hwl hd he hij hdc hec
    have heb := hlb e (mem_of_getElem? he)
    exact hpre.trans (h.leader_complete (b + 1) b u k m (by omega) hc (by omega) hlead)
  have hp' : ∀ i j d e, (s.elog b)[i]? = some d → (s.elog b)[j]? = some e → i < j →
      S.isConf d → S.isConf e → (s.elog b).take (i + 1) <+: l := by
    intro i j d e hd he hij hdc hec
    obtain ⟨u, k, m, hc, hpre, hu⟩ := h.wf_conf_chain hwl' hd he hij hdc hec
    have heb := hlb' e (mem_of_getElem? he)
    exact hpre.trans (h.winner_complete hcand hq hc (by omega))
  obtain ⟨n, hn, hn'⟩ :=
    S.meet_of_shared hp hp' (h.wf_conf_next hwl) (h.wf_conf_next hwl') hq hq'
  have := hvot n hn'
  rw [hn, Option.some.injEq] at this
  exact this.symm

/-! ### Agreement -/

/-- **Agreement.**  Any two decided prefixes are comparable. -/
theorem Inv.covers_comparable (h : Inv S s) {b b' : ℕ} {p q : List α} (hp : s.Covers b p)
    (hq : s.Covers b' q) : p <+: q ∨ q <+: p := by
  obtain ⟨t, k, m, hc, _, hpre⟩ := hp
  obtain ⟨t', k', m', hc', _, hpre'⟩ := hq
  -- Both lie in the log of the later of the two leaders.
  have key : ∀ u, p <+: s.llog u → q <+: s.llog u → p <+: q ∨ q <+: p := by
    intro u h1 h2
    rcases Nat.le_total p.length q.length with hle | hle
    · exact Or.inl (prefix_of_both h1 h2 hle)
    · exact Or.inr (prefix_of_both h2 h1 hle)
  rcases Nat.le_total t t' with hle | hle
  · exact key t' (hpre.trans (h.committed_llog hc hle (h.committed_lead hc')))
      (hpre'.trans (List.take_prefix _ _))
  · exact key t (hpre.trans (List.take_prefix _ _))
      (hpre'.trans (h.committed_llog hc' hle (h.committed_lead hc)))

/-- What a node knows to be decided is part of its term's leader log, if there is one. -/
theorem Inv.covers_llog (h : Inv S s) {b : ℕ} {p : List α} (hp : s.Covers b p)
    (hlead : s.lead b ≠ none) : p <+: s.llog b := by
  obtain ⟨t, k, m, hc, htb, hpre⟩ := hp
  exact hpre.trans (h.committed_llog hc htb hlead)

end Consensus

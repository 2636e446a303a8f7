import Mathlib.Data.List.Infix
import Mathlib.Data.List.TakeDrop
import Mathlib.Logic.Function.Basic

namespace Consensus

/-!
# Leader-based log replication with reconfiguration — the abstract protocol

A message-free description of a Raft-style protocol whose quorums may change while it
runs.  Nodes hold a term, a log and a commit index; everything else is *history*: who
voted for whom in a term and with which log, who campaigned and won, the log of each
term's leader, how far each node has acknowledged that log, and which positions were
decided.  History only grows, so a fact about an old term stays available long after the
nodes that established it have moved on.

A concrete implementation refines this system by mapping each of its transitions to a few
`Step`s; messages in flight are then just pieces of history that were true when they were
sent and stay true.

The parameters of the protocol are gathered in `Scheme`: the term of an entry, which
entries are configurations, the configuration a log ends in, its quorums, and the
relation `next` between a configuration and one that may directly follow it.  The only
property of quorums used is that two of them meet when their configurations are equal,
when one may follow the other, or when both may follow the same one.
-/

/-- What the protocol needs to know about entries and configurations. -/
structure Scheme (ι α C : Type) where
  term : α → ℕ
  isConf : α → Prop
  conf : List α → C
  quorum : C → (ι → Prop) → Prop
  next : C → C → Prop
  conf_snoc : ∀ l e, ¬ isConf e → conf (l ++ [e]) = conf l
  quorum_mono : ∀ c (P Q : ι → Prop), (∀ i, P i → Q i) → quorum c P → quorum c Q
  meet_self : ∀ c (P Q : ι → Prop), quorum c P → quorum c Q → ∃ i, P i ∧ Q i
  meet_next : ∀ c d (P Q : ι → Prop), next c d → quorum c P → quorum d Q → ∃ i, P i ∧ Q i
  meet_fork : ∀ b c d (P Q : ι → Prop), next b c → next b d → quorum c P → quorum d Q →
    ∃ i, P i ∧ Q i

/-- The state of the protocol: three fields per node, the rest is history. -/
structure Sys (ι α : Type) where
  /-- The current term of a node. -/
  term : ι → ℕ
  /-- The whole log of a node, from the first entry on. -/
  log : ι → List α
  /-- How much of its log a node knows to be decided. -/
  commit : ι → ℕ
  /-- Whom a node voted for in a term. -/
  vote : ℕ → ι → Option ι
  /-- The voter's log when it cast that vote. -/
  vlog : ℕ → ι → List α
  /-- The log with which a node campaigned in a term. -/
  cand : ℕ → ι → Option (List α)
  /-- The winner of a term. -/
  lead : ℕ → Option ι
  /-- The votes the winner had collected when it won. -/
  voters : ℕ → ι → Prop
  /-- The winner's log when it won. -/
  elog : ℕ → List α
  /-- The winner's log, with everything it appended in its term. -/
  llog : ℕ → List α
  /-- How far a node has acknowledged the log of a term's leader. -/
  ack : ℕ → ι → ℕ
  /-- `committed t k m`: the leader of `t` decided its first `k` entries while its log
      had length `m`. -/
  committed : ℕ → ℕ → ℕ → Prop

variable {ι α C : Type}

/-- The initial state. -/
def Sys.init : Sys ι α where
  term _ := 0
  log _ := []
  commit _ := 0
  vote _ _ := none
  vlog _ _ := []
  cand _ _ := none
  lead _ := none
  voters _ _ := False
  elog _ := []
  llog _ := []
  ack _ _ := 0
  committed _ _ _ := False

/-- The term of the last entry, zero for the empty log. -/
def Scheme.lastTerm (S : Scheme ι α C) (l : List α) : ℕ := (l.getLast?).elim 0 S.term

/-- A log `l` is at least as up to date as `v`. -/
def Scheme.UpToDate (S : Scheme ι α C) (l v : List α) : Prop :=
  S.lastTerm v < S.lastTerm l ∨ (S.lastTerm v = S.lastTerm l ∧ v.length ≤ l.length)

/-- The first `k` entries decided by the leader of term `t` cover `p`, at a term no later
    than `b`. -/
def Sys.Covers (s : Sys ι α) (b : ℕ) (p : List α) : Prop :=
  ∃ t k m, s.committed t k m ∧ t ≤ b ∧ p <+: (s.llog t).take k

section Steps
variable [DecidableEq ι]

/-- A two-argument history update. -/
abbrev set2 {β : Type} (f : ℕ → ι → β) (t : ℕ) (i : ι) (v : β) : ℕ → ι → β :=
  Function.update f t (Function.update (f t) i v)

open Classical in
/-- **The transitions**, indexed by the node that acts. -/
inductive Step (S : Scheme ι α C) (i : ι) : Sys ι α → Sys ι α → Prop
  /-- Adopt a higher term. -/
  | adopt (s : Sys ι α) (t : ℕ) (ht : s.term i < t) :
      Step S i s { s with term := Function.update s.term i t }
  /-- Campaign in a higher term, voting for oneself. -/
  | campaign (s : Sys ι α) (t : ℕ) (ht : s.term i < t) :
      Step S i s { s with
        term := Function.update s.term i t
        vote := set2 s.vote t i (some i)
        vlog := set2 s.vlog t i (s.log i)
        cand := set2 s.cand t i (some (s.log i)) }
  /-- Vote for a candidate of the current term whose log is up to date. -/
  | grant (s : Sys ι α) (c : ι) (L : List α) (hv : s.vote (s.term i) i = none)
      (hc : s.cand (s.term i) c = some L) (hL : S.UpToDate L (s.log i)) :
      Step S i s { s with
        vote := set2 s.vote (s.term i) i (some c)
        vlog := set2 s.vlog (s.term i) i (s.log i) }
  /-- Win the current term with a quorum of votes of the candidate's own configuration. -/
  | win (s : Sys ι α) (hn : s.lead (s.term i) = none)
      (hc : s.cand (s.term i) i = some (s.log i))
      (hq : S.quorum (S.conf (s.log i)) (fun n => s.vote (s.term i) n = some i)) :
      Step S i s { s with
        lead := Function.update s.lead (s.term i) (some i)
        voters := Function.update s.voters (s.term i) (fun n => s.vote (s.term i) n = some i)
        elog := Function.update s.elog (s.term i) (s.log i)
        llog := Function.update s.llog (s.term i) (s.log i)
        ack := set2 s.ack (s.term i) i (s.log i).length }
  /-- Append an entry as leader; a configuration only once the one before it is decided. -/
  | extend (s : Sys ι α) (e : α) (hl : s.lead (s.term i) = some i) (he : S.term e = s.term i)
      (hconf : S.isConf e →
        S.next (S.conf (s.log i)) (S.conf (s.log i ++ [e]))
          ∧ ∀ j d, (s.log i)[j]? = some d → S.isConf d → j < s.commit i) :
      Step S i s { s with
        log := Function.update s.log i (s.log i ++ [e])
        llog := Function.update s.llog (s.term i) (s.log i ++ [e])
        ack := set2 s.ack (s.term i) i ((s.log i).length + 1) }
  /-- Take over a prefix of the current leader's log, and acknowledge it. -/
  | accept (s : Sys ι α) (k : ℕ) (hl : s.lead (s.term i) ≠ none)
      (hk : k ≤ (s.llog (s.term i)).length) :
      Step S i s { s with
        log := Function.update s.log i
          (if (s.llog (s.term i)).take k <+: s.log i then s.log i
           else (s.llog (s.term i)).take k)
        ack := set2 s.ack (s.term i) i (max (s.ack (s.term i) i) k) }
  /-- As leader, decide a prefix that ends in an entry of the current term and that a
      quorum of the current configuration has acknowledged. -/
  | decide (s : Sys ι α) (k : ℕ) (hl : s.lead (s.term i) = some i) (h0 : 0 < k)
      (he : ∃ e, (s.log i)[k - 1]? = some e ∧ S.term e = s.term i)
      (hq : S.quorum (S.conf (s.log i)) (fun n => k ≤ s.ack (s.term i) n)) :
      Step S i s { s with
        committed := fun t k' m =>
          s.committed t k' m ∨ (t = s.term i ∧ k' = k ∧ m = (s.log i).length) }
  /-- Learn, or forget on a restart, how much of the log is decided. -/
  | learn (s : Sys ι α) (k : ℕ) (hk : k ≤ (s.log i).length)
      (hc : k = 0 ∨ s.Covers (s.term i) ((s.log i).take k)) :
      Step S i s { s with commit := Function.update s.commit i k }

/-- Accepting a prefix the log already has only acknowledges it. -/
theorem Step.accept_held {S : Scheme ι α C} {i : ι} {s : Sys ι α} {k : ℕ}
    (hl : s.lead (s.term i) ≠ none) (hk : k ≤ (s.llog (s.term i)).length)
    (hheld : (s.llog (s.term i)).take k <+: s.log i) :
    Step S i s { s with ack := set2 s.ack (s.term i) i (max (s.ack (s.term i) i) k) } := by
  have h := Step.accept (S := S) s k hl hk
  rwa [if_pos hheld, Function.update_eq_self] at h

/-- Accepting a prefix the log does not have replaces the log by it. -/
theorem Step.accept_new {S : Scheme ι α C} {i : ι} {s : Sys ι α} {k : ℕ}
    (hl : s.lead (s.term i) ≠ none) (hk : k ≤ (s.llog (s.term i)).length)
    (hnew : ¬ (s.llog (s.term i)).take k <+: s.log i) :
    Step S i s { s with
      log := Function.update s.log i ((s.llog (s.term i)).take k)
      ack := set2 s.ack (s.term i) i (max (s.ack (s.term i) i) k) } := by
  have h := Step.accept (S := S) s k hl hk
  rwa [if_neg hnew] at h

end Steps

/-! ### Well-formed logs and the inductive invariant -/

/-- Every prefix of `l` ending in an entry of term `t` is a prefix of that term's leader
    log. -/
def Sys.Wf (S : Scheme ι α C) (s : Sys ι α) (l : List α) : Prop :=
  ∀ k e, l[k]? = some e → s.lead (S.term e) ≠ none ∧ l.take (k + 1) <+: s.llog (S.term e)

/-- Some leader of a term strictly between `t` and `b` was elected without the first `k`
    entries of the leader of `t`. -/
def Sys.Lost (s : Sys ι α) (t k b : ℕ) : Prop :=
  ∃ u, t < u ∧ u < b ∧ s.lead u ≠ none ∧ ¬ (s.llog t).take k <+: s.elog u

/-- **The inductive invariant.**  `ack_log`, `vote_log` and `voters_log` each carry the
    escape `Lost`: what a node once acknowledged is still there unless a later leader was
    elected without it.  Leader completeness then shows that for decided prefixes the
    escape never applies. -/
structure Inv (S : Scheme ι α C) (s : Sys ι α) : Prop where
  vote_term : ∀ t n c, s.vote t n = some c → t ≤ s.term n
  vote_cand : ∀ t n c, s.vote t n = some c →
    ∃ L, s.cand t c = some L ∧ S.UpToDate L (s.vlog t n) ∧ s.Wf S (s.vlog t n)
  cand_term : ∀ t c L, s.cand t c = some L →
    t ≤ s.term c ∧ s.Wf S L ∧ ∀ e ∈ L, S.term e < t
  lead_cand : ∀ t c, s.lead t = some c → s.cand t c = some (s.elog t)
  lead_quorum : ∀ t c, s.lead t = some c →
    S.quorum (S.conf (s.elog t)) (s.voters t) ∧ ∀ n, s.voters t n → s.vote t n = some c
  lead_log : ∀ t c, s.lead t = some c → s.term c = t → s.log c = s.llog t
  elog_llog : ∀ t, s.lead t ≠ none → s.elog t <+: s.llog t
  llog_term : ∀ t k e, (s.elog t).length ≤ k → (s.llog t)[k]? = some e → S.term e = t
  llog_wf : ∀ t, s.Wf S (s.llog t)
  no_lead : ∀ t, s.lead t = none → s.llog t = [] ∧ ∀ n, s.ack t n = 0
  log_wf : ∀ n, s.Wf S (s.log n)
  log_term : ∀ n, ∀ e ∈ s.log n, S.term e ≤ s.term n
  ack_le : ∀ t n, s.ack t n ≤ (s.llog t).length
  ack_term : ∀ t n, 0 < s.ack t n → t ≤ s.term n
  ack_log : ∀ t n k, k ≤ s.ack t n →
    (s.llog t).take k <+: s.log n ∨ s.Lost t k (s.term n + 1)
  vote_log : ∀ t n c, s.vote t n = some c → ∀ u k, u < t → k ≤ s.ack u n →
    (s.llog u).take k <+: s.vlog t n ∨ s.Lost u k (t + 1)
  voters_log : ∀ t n, s.lead t ≠ none → s.voters t n → ∀ u k, u < t → k ≤ s.ack u n →
    (s.llog u).take k <+: s.vlog t n ∨ s.Lost u k t
  committed_ok : ∀ t k m, s.committed t k m →
    0 < k ∧ k ≤ m ∧ m ≤ (s.llog t).length
      ∧ (∃ e, (s.llog t)[k - 1]? = some e ∧ S.term e = t)
      ∧ S.quorum (S.conf ((s.llog t).take m)) (fun n => k ≤ s.ack t n)
  commit_le : ∀ n, s.commit n ≤ (s.log n).length
  commit_ok : ∀ n, s.commit n = 0 ∨ s.Covers (s.term n) ((s.log n).take (s.commit n))
  conf_next : ∀ t j e, (s.llog t)[j]? = some e → S.isConf e →
    S.next (S.conf ((s.llog t).take j)) (S.conf ((s.llog t).take (j + 1)))
  conf_chain : ∀ t i j d e, (s.llog t)[i]? = some d → (s.llog t)[j]? = some e → i < j →
    S.isConf d → S.isConf e →
    ∃ u k m, s.committed u k m ∧ (s.llog t).take (i + 1) <+: (s.llog u).take k
      ∧ (u < S.term e ∨ (u = S.term e ∧ m ≤ j))

/-! ### Prefix arithmetic -/

theorem take_extend {l l' : List α} (h : l <+: l') {k : ℕ} (hk : k ≤ l.length) :
    l'.take k = l.take k := by
  obtain ⟨r, rfl⟩ := h
  rw [List.take_append_of_le_length hk]

theorem prefix_of_both {p q l : List α} (hp : p <+: l) (hq : q <+: l)
    (h : p.length ≤ q.length) : p <+: q :=
  List.prefix_of_prefix_length_le hp hq h

theorem take_prefix_take {l : List α} {i j : ℕ} (h : i ≤ j) : l.take i <+: l.take j := by
  rw [List.prefix_take_iff]
  exact ⟨List.take_prefix i l, by rw [List.length_take]; omega⟩

theorem getElem?_extend {l l' : List α} (h : l <+: l') {k : ℕ} {e : α}
    (he : l[k]? = some e) : l'[k]? = some e := by
  obtain ⟨r, rfl⟩ := h
  have hk : k < l.length := by
    by_contra hk
    rw [List.getElem?_eq_none (by omega)] at he
    exact absurd he (by simp)
  rw [List.getElem?_append_left hk]
  exact he

theorem lt_length_of_getElem? {l : List α} {k : ℕ} {e : α} (he : l[k]? = some e) :
    k < l.length := by
  by_contra hk
  rw [List.getElem?_eq_none (by omega)] at he
  exact absurd he (by simp)

theorem getElem?_snoc {l : List α} {a e : α} {k : ℕ} (he : (l ++ [a])[k]? = some e) :
    l[k]? = some e ∨ (k = l.length ∧ e = a) := by
  rcases Nat.lt_or_ge k l.length with hk | hk
  · rw [List.getElem?_append_left hk] at he
    exact Or.inl he
  rw [List.getElem?_append_right hk] at he
  have h0 : k - l.length = 0 := by
    have := lt_length_of_getElem? he
    simp at this
    omega
  rw [h0] at he
  refine Or.inr ⟨by omega, ?_⟩
  simpa using he.symm

end Consensus

import Lsmdb.Consensus.Invariant
import Lsmdb.RaftStore.Stable

namespace Lsmdb.Cluster

open Lsmdb.Raft Consensus

/-!
# Cluster — the repository's instance of the abstract protocol

Entries, configurations and joint-consensus quorums of `internal/raft` as a
`Consensus.Scheme`.  Nodes are identified by `uint64`s, the configuration a log ends in is
the fold of its configuration entries over the bootstrap voters, and one configuration may
follow another if it is the joint or the final step of a change.
-/

section Codec
variable [MembershipJson]

/-- The configuration after an entry; an entry the fold would refuse changes nothing. -/
def stepConf (m : Membership) (e : Entry) : Membership :=
  match stepMembership m e with
  | .ok m' => m'
  | .error _ => m

/-- The configuration a whole log ends in. -/
def confOf (boot : List ℕ) (l : List Entry) : Membership :=
  l.foldl stepConf { voters := boot }

/-- A set of nodes that contains a quorum. -/
def QuorumOf (m : Membership) (P : ℕ → Prop) : Prop :=
  ∃ f : ℕ → Bool, m.hasQuorum f = true ∧ ∀ i, f i = true → P i

/-- `d` is the joint or the final step of a change from `c`. -/
def FollowsConf (c d : Membership) : Prop :=
  (c.jointVoters = [] ∧ d.voters = c.voters ∧ d.jointVoters ≠ [])
    ∨ (c.jointVoters ≠ [] ∧ d.voters = c.jointVoters ∧ d.jointVoters = [])

/-! ### Quorums meet -/

section
omit [MembershipJson]

/-- Quorums of two configurations meet if a voter list of one is a voter list of the other. -/
private theorem meet_of_sets {c d : Membership} {P Q : ℕ → Prop} {voters : List ℕ}
    (hc : ∀ f, c.hasQuorum f = true → hasSetQuorum voters f = true)
    (hd : ∀ f, d.hasQuorum f = true → hasSetQuorum voters f = true)
    (hP : QuorumOf c P) (hQ : QuorumOf d Q) : ∃ i, P i ∧ Q i := by
  obtain ⟨f, hf, hfP⟩ := hP
  obtain ⟨g, hg, hgQ⟩ := hQ
  obtain ⟨i, _, hi, hi'⟩ := hasSetQuorum_inter (hc f hf) (hd g hg)
  exact ⟨i, hfP i hi, hgQ i hi'⟩

private theorem quorum_voters {c : Membership} {f : ℕ → Bool} (h : c.hasQuorum f = true) :
    hasSetQuorum c.voters f = true :=
  ((c.hasQuorum_iff f).mp h).1

private theorem quorum_joint {c : Membership} {f : ℕ → Bool} (hj : c.jointVoters ≠ [])
    (h : c.hasQuorum f = true) : hasSetQuorum c.jointVoters f = true :=
  (((c.hasQuorum_iff f).mp h).2).resolve_left hj

end

/-- **The scheme of the repository**, for a given list of bootstrap voters. -/
def scheme (boot : List ℕ) : Scheme ℕ Entry Membership where
  term := Entry.term
  isConf e := hasMembershipPrefix e.data = true
  conf := confOf boot
  quorum := QuorumOf
  next := FollowsConf
  conf_snoc := by
    intro l e he
    have hplain : hasMembershipPrefix e.data = false := by simpa using he
    simp [confOf, stepConf, stepMembership_plain _ hplain]
  quorum_mono := by
    rintro c P Q hPQ ⟨f, hf, hfP⟩
    exact ⟨f, hf, fun i hi => hPQ i (hfP i hi)⟩
  meet_self := by
    intro c P Q hP hQ
    exact meet_of_sets (fun _ => quorum_voters) (fun _ => quorum_voters) hP hQ
  meet_next := by
    rintro c d P Q (⟨_, hv, _⟩ | ⟨hj, hv, _⟩) hP hQ
    · exact meet_of_sets (fun _ => quorum_voters) (fun _ h => hv ▸ quorum_voters h) hP hQ
    · exact meet_of_sets (fun _ => quorum_joint hj) (fun _ h => hv ▸ quorum_voters h) hP hQ
  meet_fork := by
    -- both follow `b` by the same kind of step, so they share their `voters`
    rintro b c d P Q (⟨hj, hv, _⟩ | ⟨hj, hv, _⟩) (⟨hj', hv', _⟩ | ⟨hj', hv', _⟩) hP hQ
    · exact meet_of_sets (fun _ h => hv ▸ quorum_voters h) (fun _ h => hv' ▸ quorum_voters h)
        hP hQ
    · exact absurd hj hj'
    · exact absurd hj' hj
    · exact meet_of_sets (fun _ h => hv ▸ quorum_voters h) (fun _ h => hv' ▸ quorum_voters h)
        hP hQ

/-! ### Configurations of logs -/

variable {boot : List ℕ}

theorem confOf_append (l l' : List Entry) :
    confOf boot (l ++ l') = l'.foldl stepConf (confOf boot l) := by
  simp [confOf]

/-- Where the fold of the source succeeds, the total one agrees with it. -/
theorem foldl_stepConf_of_fold {es : List Entry} :
    ∀ {m m' : Membership}, foldMembership m es = .ok m' → es.foldl stepConf m = m' := by
  induction es with
  | nil => intro m m' h; simpa [foldMembership] using h
  | cons e t ih =>
    intro m m' h
    unfold foldMembership at h
    split at h
    · simp at h
    · rename_i m1 hm1
      rw [List.foldl_cons, show stepConf m e = m1 by simp [stepConf, hm1]]
      exact ih h

theorem confOf_normal (hb : VotersNormal boot) (l : List Entry) : (confOf boot l).Normal := by
  induction l using List.reverseRecOn with
  | nil => exact ⟨hb, .inl rfl⟩
  | append_singleton l e ih =>
    rw [confOf_append]
    show (stepConf (confOf boot l) e).Normal
    unfold stepConf
    split
    · rename_i m' hm'
      exact stepMembership_normal ih hm'
    · exact ih

theorem confOf_voters_ne (hb : VotersNormal boot) (l : List Entry) :
    (confOf boot l).voters ≠ [] :=
  (confOf_normal hb l).voters.nonempty

/-! ### Where the last configuration entry is -/

theorem stepMembership_index {m m' : Membership} {e : Entry} (h : stepMembership m e = .ok m') :
    m' = m ∨ m'.index = e.index := by
  unfold stepMembership at h
  split at h
  · simp at h
  · left; simpa using h.symm
  · right
    unfold applyMembership at h
    split at h
    · split at h
      · simp at h
      · simp only [Except.ok.injEq] at h; rw [← h]
    · split at h
      · simp at h
      · simp only [Except.ok.injEq] at h; rw [← h]
    · simp at h

omit [MembershipJson] in
theorem FollowsConf.ne {c d : Membership} (h : FollowsConf c d) : d ≠ c := by
  rintro rfl
  rcases h with ⟨h1, _, h2⟩ | ⟨h1, _, h2⟩
  · exact h2 h1
  · exact h1 h2

/-- **The configuration index bounds every configuration entry** of a log in which each of
    them changes the configuration. -/
theorem confOf_index (boot : List ℕ) (l : List Entry) :
    (∀ (k : ℕ) (e : Entry), l[k]? = some e → e.index = k + 1) →
    (∀ (k : ℕ) (e : Entry), l[k]? = some e → hasMembershipPrefix e.data = true →
      FollowsConf (confOf boot (l.take k)) (confOf boot (l.take (k + 1)))) →
    ∀ (k : ℕ) (e : Entry), l[k]? = some e → hasMembershipPrefix e.data = true →
      k < (confOf boot l).index := by
  induction l using List.reverseRecOn with
  | nil => intro _ _ k e he; simp at he
  | append_singleton l x ih =>
    intro hidx hnext k e he hconf
    have hstep : confOf boot (l ++ [x]) = stepConf (confOf boot l) x := by
      rw [confOf_append]; rfl
    have hx : x.index = l.length + 1 := hidx l.length x (by simp)
    -- either the last entry leaves the configuration alone, or it sets the index
    have hcases : confOf boot (l ++ [x]) = confOf boot l
        ∨ (confOf boot (l ++ [x])).index = l.length + 1 := by
      rw [hstep, ← hx]
      unfold stepConf
      split
      · rename_i m' hm'
        exact stepMembership_index hm'
      · exact .inl rfl
    rcases getElem?_snoc he with hold | ⟨hk, rfl⟩
    · have hlt := lt_length_of_getElem? hold
      have hprev := ih
        (fun j d hd => hidx j d (getElem?_extend (List.prefix_append l [x]) hd))
        (fun j d hd hc => by
          have hj := lt_length_of_getElem? hd
          have := hnext j d (getElem?_extend (List.prefix_append l [x]) hd) hc
          rwa [List.take_append_of_le_length (by omega),
            List.take_append_of_le_length (by omega)] at this)
        k e hold hconf
      rcases hcases with hc | hc
      · rw [hc]; exact hprev
      · rw [hc]; omega
    · rcases hcases with hc | hc
      · have hf := hnext k e he hconf
        rw [hk, List.take_left, List.take_of_length_le (by simp)] at hf
        exact absurd hc hf.ne
      · rw [hc]; omega

end Codec

end Lsmdb.Cluster

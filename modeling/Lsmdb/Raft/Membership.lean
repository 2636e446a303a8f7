import Lsmdb.Raft.Types
import Mathlib.Data.List.Dedup
import Mathlib.Data.List.Sort
import Mathlib.Logic.Equiv.List

namespace Lsmdb.Raft

open List

/-!
# Raft core — voter configurations

The joint-consensus voter sets of `internal/raft/membership.go`: normalisation and
validation of voter lists, the encoding of configuration commands as log entries, and
the quorum tests.  `applyMembership` (from `node.go`) belongs here too, because it only
reads configurations.

JSON is the one thing taken from outside: `MembershipJson` is the marshalling of a
configuration command, of which only the documented law that decoding inverts encoding
is used.
-/

/-- The phase text of a configuration command; `other` is any text the decoder may
    meet that is neither `"joint"` nor `"final"`. -/
inductive ConfigPhase where
  | joint
  | final
  | other (text : String)
  deriving DecidableEq, Repr

/-- `membershipCommand`. -/
structure MembershipCommand where
  phase : ConfigPhase
  old : List ℕ := []
  new : List ℕ
  deriving DecidableEq, Repr

/-- `encoding/json` on configuration commands. -/
class MembershipJson where
  marshal : MembershipCommand → Bytes
  unmarshal : Bytes → Except String MembershipCommand
  unmarshal_marshal : ∀ c, unmarshal (marshal c) = .ok c

/-- `membershipPrefix`: the bytes `"\x00lsmdb-member-\x01"`. -/
def membershipPrefix : Bytes :=
  [0, 108, 115, 109, 100, 98, 45, 109, 101, 109, 98, 101, 114, 45, 1]

/-- `hasMembershipPrefix`: does `data` claim to be a configuration entry, valid or not? -/
def hasMembershipPrefix (data : Bytes) : Bool := membershipPrefix.isPrefixOf data

/-! ### Voter lists -/

/-- The loop of `normalizeVoters` over the sorted list; `prev` is `result[i-1]`. -/
def checkVoters : Option ℕ → List ℕ → Except String Unit
  | _, [] => .ok ()
  | prev, id :: rest =>
      if id = 0 then .error "voter ID must be non-zero"
      else if prev = some id then .error s!"duplicate voter {id}"
      else checkVoters (some id) rest

/-- `normalizeVoters`. -/
def normalizeVoters (voters : List ℕ) : Except String (List ℕ) :=
  if voters.length = 0 then .error "voter set must not be empty"
  else
    let result := voters.insertionSort (· ≤ ·)
    match checkVoters none result with
    | .error e => .error e
    | .ok () => .ok result

/-- `equalVoters` compares element by element, which on lists is equality. -/
def equalVoters (a b : List ℕ) : Bool := a == b

/-- The three comparisons `Compact` makes between configurations leave nothing out. -/
theorem equalVoters_membership {a b : Membership} (hv : equalVoters a.voters b.voters = true)
    (hj : equalVoters a.jointVoters b.jointVoters = true) (hi : a.index = b.index) : a = b := by
  cases a
  cases b
  simp only [equalVoters, beq_iff_eq] at hv hj
  simp only at hi
  rw [hv, hj, hi]

/-- `validateMembership`. -/
def validateMembership (m : Membership) : Except String Unit :=
  match normalizeVoters m.voters with
  | .error e => .error e
  | .ok voters =>
    if !equalVoters voters m.voters then .error "membership voters must be sorted"
    else if m.jointVoters.length > 0 then
      match normalizeVoters m.jointVoters with
      | .error e => .error e
      | .ok joint =>
        if !equalVoters joint m.jointVoters then .error "joint voters must be sorted"
        else .ok ()
    else .ok ()

/-- `containsVoter`: `sort.Search` finds the first voter that is at least `id`. -/
def containsVoter (voters : List ℕ) (id : ℕ) : Bool :=
  match voters.find? (fun v => decide (id ≤ v)) with
  | some v => v == id
  | none => false

/-- `majority`. -/
def majority (voters : List ℕ) : ℕ := voters.length / 2 + 1

/-- `unionVoters`: both voter sets as one sorted, duplicate-free list. -/
def unionVoters (m : Membership) : List ℕ :=
  ((m.voters ++ m.jointVoters).dedup).insertionSort (· ≤ ·)

/-- `hasSetQuorum`. -/
def hasSetQuorum (voters : List ℕ) (acknowledged : ℕ → Bool) : Bool :=
  decide (majority voters ≤ voters.countP acknowledged)

/-- `Membership.hasQuorum`. -/
def Membership.hasQuorum (m : Membership) (acknowledged : ℕ → Bool) : Bool :=
  hasSetQuorum m.voters acknowledged
    && (m.jointVoters.length == 0 || hasSetQuorum m.jointVoters acknowledged)

/-- `Membership.voteLost`. -/
def Membership.voteLost (m : Membership) (rejected : ℕ → Bool) : Bool :=
  hasSetQuorum m.voters rejected
    || (decide (m.jointVoters.length > 0) && hasSetQuorum m.jointVoters rejected)

/-! ### Configuration entries -/

section Codec
variable [MembershipJson]

/-- `encodeMembership`. -/
def encodeMembership (command : MembershipCommand) : Bytes :=
  membershipPrefix ++ MembershipJson.marshal command

/-- `decodeMembership`: `.ok none` when `data` is not a configuration entry, an error
    when it claims to be one but is malformed. -/
def decodeMembership (data : Bytes) : Except String (Option MembershipCommand) :=
  if !hasMembershipPrefix data then .ok none
  else
    match MembershipJson.unmarshal (data.drop membershipPrefix.length) with
    | .error e => .error s!"decode membership entry: {e}"
    | .ok command =>
      match command.phase with
      | .other _ => .error "invalid membership phase"
      | .joint =>
        match normalizeVoters command.new with
        | .error e => .error e
        | .ok new =>
          match normalizeVoters command.old with
          | .error e => .error e
          | .ok old => .ok (some { command with old := old, new := new })
      | .final =>
        match normalizeVoters command.new with
        | .error e => .error e
        | .ok new => .ok (some { command with new := new })

/-- `IsMembershipEntry`. -/
def isMembershipEntry (data : Bytes) : Except String Bool :=
  match decodeMembership data with
  | .error e => .error e
  | .ok command => .ok command.isSome

/-- `applyMembership`. -/
def applyMembership (current : Membership) (command : MembershipCommand) (index : ℕ) :
    Except String Membership :=
  match command.phase with
  | .joint =>
    if current.jointVoters.length ≠ 0 || !equalVoters current.voters command.old then
      .error "joint configuration does not match current voters"
    else .ok { voters := command.old, jointVoters := command.new, index := index }
  | .final =>
    if current.jointVoters.length = 0 || !equalVoters current.jointVoters command.new then
      .error "final configuration has no matching joint configuration"
    else .ok { voters := command.new, index := index }
  | .other _ => .error "unknown membership phase"

theorem applyMembership_joint {m m' : Membership} {old new : List ℕ} {index : ℕ}
    (h : applyMembership m { phase := .joint, old := old, new := new } index = .ok m') :
    m' = { voters := old, jointVoters := new, index := index } := by
  unfold applyMembership at h
  dsimp only at h
  split at h
  · simp at h
  · exact (Except.ok.inj h).symm

theorem applyMembership_final {m m' : Membership} {old new : List ℕ} {index : ℕ}
    (h : applyMembership m { phase := .final, old := old, new := new } index = .ok m') :
    m' = { voters := new, index := index } := by
  unfold applyMembership at h
  dsimp only at h
  split at h
  · simp at h
  · exact (Except.ok.inj h).symm

/-- One step of the fold in `rebuildMembership` and `membershipAt`. -/
def stepMembership (m : Membership) (entry : Entry) : Except String Membership :=
  match decodeMembership entry.data with
  | .error e => .error e
  | .ok none => .ok m
  | .ok (some command) => applyMembership m command entry.index

/-- The fold of `applyMembership` over a run of log entries; an error carries the index
    of the entry it came from. -/
def foldMembership : Membership → List Entry → Except (ℕ × String) Membership
  | m, [] => .ok m
  | m, entry :: rest =>
      match stepMembership m entry with
      | .error e => .error (entry.index, e)
      | .ok m' => foldMembership m' rest

end Codec

/-! ### Normalised voter lists -/

/-- A voter list as `normalizeVoters` returns it: non-empty, strictly increasing and
    without the identifier zero. -/
structure VotersNormal (voters : List ℕ) : Prop where
  nonempty : voters ≠ []
  sorted : voters.Pairwise (· < ·)
  nonzero : 0 ∉ voters

/-- On a sorted list the check passes exactly when the list is strictly increasing,
    above `prev`, and free of zero. -/
private theorem checkVoters_ok_iff (prev : Option ℕ) (l : List ℕ)
    (hs : l.Pairwise (· ≤ ·)) (hprev : ∀ p ∈ prev, ∀ x ∈ l, p ≤ x) :
    checkVoters prev l = .ok ()
      ↔ l.Pairwise (· < ·) ∧ 0 ∉ l ∧ ∀ p ∈ prev, ∀ x ∈ l, p < x := by
  induction l generalizing prev with
  | nil => simp [checkVoters]
  | cons a t ih =>
    have hat : ∀ x ∈ t, a ≤ x := (pairwise_cons.mp hs).1
    have ih' := ih (some a) (pairwise_cons.mp hs).2 (by simpa using hat)
    unfold checkVoters
    by_cases ha : a = 0
    · simp [ha]
    by_cases hp : prev = some a
    · subst hp
      simp [ha]
    rw [if_neg ha, if_neg hp, ih']
    simp only [Option.mem_some_iff, forall_eq', pairwise_cons, mem_cons, not_or]
    constructor
    · rintro ⟨h1, h2, h3⟩
      refine ⟨⟨h3, h1⟩, ⟨fun h => ha h.symm, h2⟩, ?_⟩
      intro p hpm x hx
      have hpa : p < a := by
        have hle : p ≤ a := hprev p hpm a (by simp)
        have hne : p ≠ a := by rintro rfl; exact hp hpm
        omega
      rcases hx with rfl | hx
      · exact hpa
      · have := hat x hx; omega
    · rintro ⟨⟨h3, h1⟩, ⟨_, h2⟩, _⟩
      exact ⟨h1, h2, h3⟩

/-- **Normalisation.**  `normalizeVoters` succeeds with the sorted list exactly when that
    list is in normal form. -/
theorem normalizeVoters_ok_iff (voters result : List ℕ) :
    normalizeVoters voters = .ok result
      ↔ result = voters.insertionSort (· ≤ ·) ∧ VotersNormal result := by
  have hs : (voters.insertionSort (· ≤ ·)).Pairwise (· ≤ ·) :=
    pairwise_insertionSort (· ≤ ·) voters
  have hcheck := checkVoters_ok_iff none _ hs (by simp)
  simp only [Option.not_mem_none, false_implies, implies_true, and_true] at hcheck
  unfold normalizeVoters
  by_cases h0 : voters.length = 0
  · have hnil : voters = [] := length_eq_zero_iff.mp h0
    subst hnil
    simp only [length_nil, if_true, insertionSort_nil, reduceCtorEq, false_iff]
    rintro ⟨rfl, h⟩
    exact h.nonempty rfl
  · rw [if_neg h0]
    have hne : voters.insertionSort (· ≤ ·) ≠ [] := by
      intro h
      have := congrArg length h
      rw [length_insertionSort] at this
      exact h0 this
    cases hc : checkVoters none (voters.insertionSort (· ≤ ·)) with
    | error e =>
      simp only [hc, reduceCtorEq, false_iff]
      rintro ⟨rfl, hn⟩
      rw [hcheck.mpr ⟨hn.sorted, hn.nonzero⟩] at hc
      exact absurd hc (by simp)
    | ok u =>
      obtain ⟨h1, h2⟩ := hcheck.mp hc
      simp only [hc, Except.ok.injEq]
      constructor
      · rintro rfl
        exact ⟨rfl, ⟨hne, h1, h2⟩⟩
      · rintro ⟨rfl, _⟩
        rfl

theorem normalizeVoters_normal {voters result : List ℕ}
    (h : normalizeVoters voters = .ok result) : VotersNormal result :=
  ((normalizeVoters_ok_iff voters result).mp h).2

theorem VotersNormal.normalizeVoters_eq {voters : List ℕ} (h : VotersNormal voters) :
    normalizeVoters voters = .ok voters := by
  rw [normalizeVoters_ok_iff]
  refine ⟨?_, h⟩
  exact (Pairwise.insertionSort_eq (h.sorted.imp (fun hab => Nat.le_of_lt hab))).symm

theorem containsVoter_iff {voters : List ℕ} (hs : voters.Pairwise (· ≤ ·)) (id : ℕ) :
    containsVoter voters id = true ↔ id ∈ voters := by
  induction voters with
  | nil => simp [containsVoter]
  | cons a t ih =>
    have hat : ∀ x ∈ t, a ≤ x := (pairwise_cons.mp hs).1
    have ih' := ih (pairwise_cons.mp hs).2
    by_cases h : id ≤ a
    · simp only [containsVoter, find?_cons, h, decide_true, beq_iff_eq, mem_cons]
      constructor
      · intro ha; exact Or.inl ha.symm
      · rintro (ha | ha)
        · exact ha.symm
        · have := hat id ha; omega
    · have hne : id ≠ a := by omega
      simp only [containsVoter, find?_cons, h, decide_false, mem_cons, hne,
        false_or] at ih' ⊢
      exact ih'

theorem unionVoters_sorted (m : Membership) : (unionVoters m).Pairwise (· ≤ ·) :=
  pairwise_insertionSort (· ≤ ·) _

theorem mem_unionVoters (m : Membership) (id : ℕ) :
    id ∈ unionVoters m ↔ id ∈ m.voters ∨ id ∈ m.jointVoters := by
  simp [unionVoters, mem_insertionSort]

/-! ### Quorums -/

/-- Two predicates that together hold more often than a list is long hold together at
    some element. -/
private theorem exists_both_of_countP {l : List ℕ} {f g : ℕ → Bool}
    (h : l.length < l.countP f + l.countP g) : ∃ x ∈ l, f x = true ∧ g x = true := by
  induction l with
  | nil => simp at h
  | cons a t ih =>
    by_cases hfg : f a = true ∧ g a = true
    · exact ⟨a, by simp, hfg⟩
    have ht : t.length < t.countP f + t.countP g := by
      rw [countP_cons, countP_cons, length_cons] at h
      cases hf : f a <;> cases hg : g a <;> simp [hf, hg] at h hfg <;> omega
    obtain ⟨x, hx, hxfg⟩ := ih ht
    exact ⟨x, by simp [hx], hxfg⟩

/-- **Majorities of one voter list intersect.** -/
theorem hasSetQuorum_inter {voters : List ℕ} {f g : ℕ → Bool}
    (hf : hasSetQuorum voters f = true) (hg : hasSetQuorum voters g = true) :
    ∃ x ∈ voters, f x = true ∧ g x = true := by
  have hf' : majority voters ≤ voters.countP f := of_decide_eq_true hf
  have hg' : majority voters ≤ voters.countP g := of_decide_eq_true hg
  unfold majority at hf' hg'
  exact exists_both_of_countP (by omega)

theorem hasSetQuorum_mono {voters : List ℕ} {f g : ℕ → Bool}
    (hfg : ∀ x ∈ voters, f x = true → g x = true) (hf : hasSetQuorum voters f = true) :
    hasSetQuorum voters g = true := by
  have hf' : majority voters ≤ voters.countP f := of_decide_eq_true hf
  exact decide_eq_true (le_trans hf' (countP_mono_left hfg))

theorem VotersNormal.eq_singleton {voters : List ℕ} {id : ℕ} (h : VotersNormal voters)
    (hq : hasSetQuorum voters (fun x => decide (x = id)) = true) : voters = [id] := by
  have hq' : majority voters ≤ voters.countP (fun x => decide (x = id)) := of_decide_eq_true hq
  have hcount : voters.countP (fun x => decide (x = id)) ≤ 1 := by
    have hnd : voters.Nodup := h.sorted.imp (fun hlt => Nat.ne_of_lt hlt)
    have hone := nodup_iff_count_le_one.mp hnd id
    exact hone
  unfold majority at hq'
  obtain ⟨a, rfl⟩ : ∃ a, voters = [a] := by
    rw [← length_eq_one_iff]
    have := length_pos_iff.mpr h.nonempty
    omega
  by_contra hne
  simp only [cons.injEq, and_true] at hne
  simp [hne] at hq'

theorem Membership.hasQuorum_iff (m : Membership) (f : ℕ → Bool) :
    m.hasQuorum f = true
      ↔ hasSetQuorum m.voters f = true
        ∧ (m.jointVoters = [] ∨ hasSetQuorum m.jointVoters f = true) := by
  simp [Membership.hasQuorum]

theorem Membership.hasQuorum_mono {m : Membership} {f g : ℕ → Bool}
    (hfg : ∀ x, f x = true → g x = true) (hf : m.hasQuorum f = true) :
    m.hasQuorum g = true := by
  rw [Membership.hasQuorum_iff] at hf ⊢
  obtain ⟨h1, h2⟩ := hf
  refine ⟨hasSetQuorum_mono (fun x _ => hfg x) h1, ?_⟩
  rcases h2 with h2 | h2
  · exact Or.inl h2
  · exact Or.inr (hasSetQuorum_mono (fun x _ => hfg x) h2)

/-- A vote that a majority of one of the sets rejects cannot be won by the others. -/
theorem Membership.hasQuorum_eq_false_of_voteLost {m : Membership} {f rejected : ℕ → Bool}
    (hlost : m.voteLost rejected = true) (hdisjoint : ∀ id, f id = true → rejected id = false) :
    m.hasQuorum f = false := by
  rw [← Bool.not_eq_true, Membership.hasQuorum_iff]
  rintro ⟨hold, hnew⟩
  have hlost' : hasSetQuorum m.voters rejected = true
      ∨ (m.jointVoters ≠ [] ∧ hasSetQuorum m.jointVoters rejected = true) := by
    simpa [Membership.voteLost, length_pos_iff] using hlost
  -- Whichever set rejects, a quorum of `f` would meet the rejecting majority.
  rcases hlost' with hr | ⟨hjoint, hr⟩
  · obtain ⟨id, _, hf, hrej⟩ := hasSetQuorum_inter hold hr
    simp [hdisjoint id hf] at hrej
  · rcases hnew with hnone | hnew
    · exact hjoint hnone
    · obtain ⟨id, _, hf, hrej⟩ := hasSetQuorum_inter hnew hr
      simp [hdisjoint id hf] at hrej

/-- **Quorums intersect and lost votes stay lost.**  Two quorums of a configuration share a
    voter that acknowledged both; a quorum of a joint configuration meets every majority of the
    old voters alone and every majority of the new voters alone; and once a vote is lost, nobody
    but the nodes that rejected it can still make up a quorum. -/
theorem quorums_intersect (m : Membership) :
    (∀ f g, m.hasQuorum f = true → m.hasQuorum g = true →
      ∃ id ∈ m.voters, f id = true ∧ g id = true)
    ∧ (m.jointVoters ≠ [] → ∀ f, m.hasQuorum f = true →
      (∀ g, hasSetQuorum m.voters g = true → ∃ id ∈ m.voters, f id = true ∧ g id = true)
      ∧ (∀ g, hasSetQuorum m.jointVoters g = true →
          ∃ id ∈ m.jointVoters, f id = true ∧ g id = true))
    ∧ (∀ rejected, m.voteLost rejected = true →
      ∀ f, (∀ id, f id = true → rejected id = false) → m.hasQuorum f = false) := by
  refine ⟨?_, ?_, ?_⟩
  · intro f g hf hg
    rw [Membership.hasQuorum_iff] at hf hg
    exact hasSetQuorum_inter hf.1 hg.1
  · intro hjoint f hf
    rw [Membership.hasQuorum_iff] at hf
    refine ⟨fun g hg => hasSetQuorum_inter hf.1 hg, fun g hg => ?_⟩
    exact hasSetQuorum_inter (hf.2.resolve_left hjoint) hg
  · intro rejected hlost f hdisjoint
    exact Membership.hasQuorum_eq_false_of_voteLost hlost hdisjoint

/-- Moving from three voters to four: two of the old and three of the new are a quorum, which
    meets the majority `{2, 3}` of the old voters and the majority `{3, 4, 5}` of the new. -/
theorem quorums_intersect_growing :
    ∃ m : Membership, m.voters = [1, 2, 3] ∧ m.jointVoters = [2, 3, 4, 5]
      ∧ m.hasQuorum (fun id => decide (id ∈ [1, 2, 4, 5])) = true
      ∧ (∃ id ∈ m.voters, decide (id ∈ [1, 2, 4, 5]) = true ∧ decide (id ∈ [2, 3]) = true)
      ∧ (∃ id ∈ m.jointVoters,
          decide (id ∈ [1, 2, 4, 5]) = true ∧ decide (id ∈ [3, 4, 5]) = true) := by
  let m : Membership := { voters := [1, 2, 3], jointVoters := [2, 3, 4, 5] }
  have hq : m.hasQuorum (fun id => decide (id ∈ [1, 2, 4, 5])) = true := by decide
  obtain ⟨hold, hnew⟩ := (quorums_intersect m).2.1 (by decide) _ hq
  refine ⟨m, rfl, rfl, hq, ?_, ?_⟩
  · exact hold (fun id => decide (id ∈ [2, 3])) (by decide)
  · exact hnew (fun id => decide (id ∈ [3, 4, 5])) (by decide)

/-! ### A codec -/

/-- A phase as numbers. -/
def phaseCode : ConfigPhase → List ℕ
  | .joint => [0]
  | .final => [1]
  | .other text => 2 :: text.toList.map Char.toNat

/-- The phase of a list of numbers. -/
def phaseOfCode : List ℕ → ConfigPhase
  | [] => .joint
  | 0 :: _ => .joint
  | 1 :: _ => .final
  | _ :: codes => .other (String.ofList (codes.map Char.ofNat))

theorem phaseOfCode_phaseCode (phase : ConfigPhase) : phaseOfCode (phaseCode phase) = phase := by
  cases phase with
  | joint => rfl
  | final => rfl
  | other text => simp [phaseCode, phaseOfCode, Function.comp_def]

/-- A codec that meets the one requirement on `encoding/json`, for runs on fixed inputs. -/
@[reducible] def unaryJson : MembershipJson where
  marshal c := List.replicate (Encodable.encode (phaseCode c.phase, c.old, c.new)) 0
  unmarshal data :=
    match (Encodable.decode data.length : Option (List ℕ × List ℕ × List ℕ)) with
    | some (phase, old, new) => .ok { phase := phaseOfCode phase, old := old, new := new }
    | none => .error "unexpected end of JSON input"
  unmarshal_marshal c := by simp [phaseOfCode_phaseCode]

/-- A list of numbers as strokes: each number ends with a 2, the list with a 3. -/
def tally (l : List ℕ) : Bytes :=
  l.flatMap (fun k => List.replicate k 1 ++ [2]) ++ [3]

/-- Reads lists of strokes: `k` strokes, the list `l` and the lists `done` have been read. -/
def readTally : Bytes → ℕ → List ℕ → List (List ℕ) → List (List ℕ)
  | [], _, _, done => done
  | b :: rest, k, l, done =>
      if b = 1 then readTally rest (k + 1) l done
      else if b = 2 then readTally rest 0 (l ++ [k]) done
      else readTally rest 0 [] (done ++ [l])

theorem readTally_number (k : ℕ) (rest : Bytes) (l : List ℕ) (done : List (List ℕ)) :
    ∀ j, readTally (List.replicate k 1 ++ 2 :: rest) j l done
      = readTally rest 0 (l ++ [j + k]) done := by
  induction k with
  | zero => intro j; simp [readTally]
  | succ k ih =>
    intro j
    rw [replicate_succ, cons_append, readTally, if_pos rfl, ih]
    congr 3
    omega

theorem readTally_tally (l : List ℕ) (rest : Bytes) (done : List (List ℕ)) :
    ∀ start, readTally (tally l ++ rest) 0 start done
      = readTally rest 0 [] (done ++ [start ++ l]) := by
  induction l with
  | nil => intro start; simp [tally, readTally]
  | cons k l ih =>
    intro start
    have hcons : tally (k :: l) ++ rest = replicate k 1 ++ 2 :: (tally l ++ rest) := by
      simp [tally]
    rw [hcons, readTally_number, ih]
    simp

/-- A codec whose decoder computes by structural recursion, for runs that decode. -/
@[reducible] def tallyJson : MembershipJson where
  marshal c := tally (phaseCode c.phase) ++ (tally c.old ++ (tally c.new ++ []))
  unmarshal data :=
    match readTally data 0 [] [] with
    | [phase, old, new] => .ok { phase := phaseOfCode phase, old := old, new := new }
    | _ => .error "unexpected end of JSON input"
  unmarshal_marshal c := by
    simp only [readTally_tally]
    simp [readTally, phaseOfCode_phaseCode]

end Lsmdb.Raft

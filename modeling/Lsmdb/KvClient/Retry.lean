import Mathlib.Data.List.Basic
import Mathlib.Tactic.Ring

namespace Lsmdb.KvClient

/-!
# Client retries

`Client.retry` of `cluster/client.go`: the addresses are tried in turn, the cached leader first,
twenty times each.  A `NotLeader` error that names a leader makes it the cached leader and the
address list is built anew, but the attempt counter that indexes the list goes on.  So the next
attempt goes to the named leader only if the counter is at the start of a round of the new list
(`Loop.address_follow_iff`).

What a call meets at each attempt (an expired context, a connection that cannot be made, the reply)
is a `Turn`.  Other calls on the same client are left out.

* `run_ends` — every call returns.
* `hints_followed` — where hints come at the end of a round, the next attempt follows them and
  every configured address is tried.
-/

/-! ### Replies -/

/-- The codes of a gRPC status that the loop tells apart. -/
inductive Code where
  | invalidArgument
  | failedPrecondition
  | other
  deriving DecidableEq, Repr

/-- The error of a call: its status code, and the leader address of its first `NotLeader` detail,
    if it has one. -/
structure CallError where
  code : Code
  notLeader : Option String := none
  deriving DecidableEq, Repr

/-- `leaderHint`. -/
def leaderHint (e : CallError) : String × Bool :=
  (e.notLeader.getD "", e.notLeader.isSome)

/-- What comes of one attempt: no connection, success, or an error. -/
inductive Reply where
  | noClient
  | success
  | failure (e : CallError)
  deriving DecidableEq, Repr

/-- One attempt as the call meets it; the context is looked at before and after. -/
structure Turn where
  expired : Bool := false
  reply : Reply
  expiredAfter : Bool := false
  deriving DecidableEq, Repr

/-! ### The client -/

/-- The addresses a `Client` was made with, and the cached leader (empty if there is none). -/
structure Client where
  addresses : List String
  leader : String := ""
  deriving DecidableEq, Repr

/-- `orderedAddresses`. -/
def Client.orderedAddresses (c : Client) : List String :=
  (if c.leader ≠ "" then [c.leader] else []) ++ c.addresses.filter fun a => a ≠ c.leader

/-- `setLeader`. -/
def Client.setLeader (c : Client) (address : String) : Client := { c with leader := address }

/-! ### The loop -/

/-- The error `retry` keeps for later. -/
inductive LastError where
  | noClient
  | call (e : CallError)
  deriving DecidableEq, Repr

/-- How `retry` returns; `exhausted` is the return after the loop, of the last error. -/
inductive Verdict where
  | success
  | error (e : CallError)
  | context
  | exhausted (last : Option LastError)
  deriving DecidableEq, Repr

/-- What is left when `retry` has returned. -/
structure Result where
  client : Client
  verdict : Verdict
  deriving DecidableEq, Repr

/-- The variables of `retry` at the head of the loop. -/
structure Loop where
  client : Client
  addresses : List String
  attempt : ℕ := 0
  last : Option LastError := none
  deriving DecidableEq, Repr

/-- The loop condition: `attempt < len(addresses)*20`. -/
def Loop.check (s : Loop) : Except Result Loop :=
  if s.attempt < s.addresses.length * 20 then .ok s
  else .error ⟨s.client, .exhausted s.last⟩

/-- `addresses[attempt%len(addresses)]`. -/
def Loop.address (s : Loop) : String := s.addresses.getD (s.attempt % s.addresses.length) ""

/-- `c.setLeader(hint)`, and the address list built anew. -/
def Loop.follow (s : Loop) (hint : String) : Loop :=
  { s with
    client := s.client.setLeader hint
    addresses := (s.client.setLeader hint).orderedAddresses }

/-- The next attempt, after `last`. -/
def Loop.next (s : Loop) (last : LastError) : Loop :=
  { s with attempt := s.attempt + 1, last := some last }

/-- One round of the loop. -/
def Loop.step (s : Loop) (t : Turn) : Except Result Loop :=
  if t.expired then .error ⟨s.client, .context⟩
  else
    match t.reply with
    | .noClient => (s.next .noClient).check
    | .success => .error ⟨s.client.setLeader s.address, .success⟩
    | .failure e =>
        if e.code = .invalidArgument then .error ⟨s.client, .error e⟩
        else if e.code = .failedPrecondition ∧ !(leaderHint e).2 then
          .error ⟨s.client, .error e⟩
        else
          let followed := if (leaderHint e).1 ≠ "" then s.follow (leaderHint e).1 else s
          if t.expiredAfter then .error ⟨followed.client, .context⟩
          else (followed.next (.call e)).check

/-- `retry` up to attempt `k`: the loop as it gets there, or how it returned before. -/
def Client.run (c : Client) (turns : ℕ → Turn) : ℕ → Except Result Loop
  | 0 => Loop.check { client := c, addresses := c.orderedAddresses }
  | k + 1 => (c.run turns k).bind fun s => s.step (turns k)

/-- The address a turn makes the loop follow. -/
def Turn.hint (t : Turn) : Option String :=
  match t.reply with
  | .failure e =>
      if t.expired = false ∧ e.code ≠ .invalidArgument ∧ (leaderHint e).1 ≠ "" then
        some (leaderHint e).1
      else none
  | _ => none

/-- The loop with the hint of a turn followed. -/
def Loop.after (s : Loop) (t : Turn) : Loop :=
  match t.hint with
  | some hint => s.follow hint
  | none => s

/-! ### Addresses -/

/-- Every configured address is in the list; the empty one only if a leader is cached. -/
theorem Client.mem_orderedAddresses {c : Client} (hempty : c.leader = "" → "" ∉ c.addresses)
    {a : String} (h : a ∈ c.addresses) : a ∈ c.orderedAddresses := by
  unfold orderedAddresses
  by_cases hleader : a = c.leader
  · refine List.mem_append_left _ ?_
    have hne : c.leader ≠ "" := fun hnone => hempty hnone (hnone ▸ hleader ▸ h)
    rw [if_pos hne, hleader]
    exact List.mem_singleton_self _
  · refine List.mem_append_right _ ?_
    simpa using ⟨h, hleader⟩

theorem Client.length_orderedAddresses_le (c : Client) :
    c.orderedAddresses.length ≤ c.addresses.length + 1 := by
  have hfilter := List.length_filter_le (fun a => decide (a ≠ c.leader)) c.addresses
  unfold orderedAddresses
  rw [List.length_append]
  split
  · rw [List.length_singleton]
    omega
  · rw [List.length_nil]
    omega

@[simp] theorem Loop.addresses_follow {s : Loop} {hint : String} (h : hint ≠ "") :
    (s.follow hint).addresses = hint :: s.client.addresses.filter fun a => a ≠ hint := by
  show (if hint ≠ "" then [hint] else []) ++ _ = _
  rw [if_pos h]
  rfl

/-- **Where the attempt after a hint goes**: to the hint exactly at the start of a round of the new
    list. -/
theorem Loop.address_follow_iff {s : Loop} {hint : String} (h : hint ≠ "") (last : LastError) :
    ((s.follow hint).next last).address = hint
      ↔ (s.follow hint).addresses.length ∣ s.attempt + 1 := by
  show (s.follow hint).addresses.getD ((s.attempt + 1) % (s.follow hint).addresses.length) ""
    = hint ↔ _
  rw [addresses_follow h, Nat.dvd_iff_mod_eq_zero]
  -- Behind the first place stand only addresses other than the hint.
  have hothers : ∀ a ∈ s.client.addresses.filter (fun a => a ≠ hint), a ≠ hint := by
    intro a ha
    simpa using (List.mem_filter.mp ha).2
  generalize s.client.addresses.filter (fun a => decide (a ≠ hint)) = others at hothers ⊢
  have hlt : (s.attempt + 1) % (hint :: others).length < (hint :: others).length :=
    Nat.mod_lt _ (Nat.succ_pos _)
  cases hm : (s.attempt + 1) % (hint :: others).length with
  | zero => simp
  | succ m =>
    have hm' : m < others.length := by
      rw [hm] at hlt
      exact Nat.succ_lt_succ_iff.mp hlt
    have hget : (hint :: others).getD (m + 1) "" = others[m] := by
      simp [List.getD_eq_getElem?_getD, hm']
    rw [hget]
    simpa using hothers _ (List.getElem_mem hm')

/-! ### One round -/

@[simp] theorem Loop.attempt_after (s : Loop) (t : Turn) : (s.after t).attempt = s.attempt := by
  unfold after
  cases t.hint <;> rfl

@[simp] theorem Loop.configured_after (s : Loop) (t : Turn) :
    (s.after t).client.addresses = s.client.addresses := by
  unfold after
  cases t.hint <;> rfl

/-- A round either returns for good or ends at the loop condition, with the hint followed. -/
theorem Loop.step_cases (s : Loop) (t : Turn) :
    (∃ last, s.step t = ((s.after t).next last).check)
      ∨ ∃ r, s.step t = .error r ∧ ∀ last, r.verdict ≠ .exhausted last := by
  unfold step after Turn.hint
  cases hexpired : t.expired with
  | true => exact Or.inr ⟨_, rfl, by simp⟩
  | false =>
    cases hreply : t.reply with
    | noClient => exact Or.inl ⟨_, rfl⟩
    | success => exact Or.inr ⟨_, rfl, by simp⟩
    | failure e =>
      by_cases hcode : e.code = .invalidArgument
      · exact Or.inr ⟨⟨s.client, .error e⟩, by simp [hcode], by simp⟩
      by_cases hrefused : e.code = .failedPrecondition ∧ !(leaderHint e).2
      · exact Or.inr ⟨⟨s.client, .error e⟩, by simp [hrefused], by simp⟩
      cases hafter : t.expiredAfter with
      | true => exact Or.inr ⟨_, by simp only [hcode, hrefused, if_false]; rfl, by simp⟩
      | false =>
        refine Or.inl ⟨.call e, ?_⟩
        simp only [hcode, hrefused, if_false, Bool.false_eq_true, not_false_eq_true, ne_eq,
          true_and]
        by_cases hhint : (leaderHint e).1 = ""
        · simp only [hhint, not_true_eq_false, if_false]
        · simp only [hhint, not_false_eq_true, if_true]

theorem Loop.step_ok {s s' : Loop} {t : Turn} (h : s.step t = .ok s') :
    ∃ last, s' = (s.after t).next last ∧ s'.attempt < s'.addresses.length * 20 := by
  rcases s.step_cases t with ⟨last, hcheck⟩ | ⟨r, hreturn, -⟩
  · rw [hcheck, check] at h
    split at h
    case isTrue hlt =>
      have heq := Except.ok.inj h
      exact ⟨last, heq.symm, heq ▸ hlt⟩
    case isFalse => simp at h
  · rw [hreturn] at h
    simp at h

theorem Loop.step_exhausted {s : Loop} {t : Turn} {client : Client} {last : Option LastError}
    (h : s.step t = .error ⟨client, .exhausted last⟩) :
    (s.after t).addresses.length * 20 ≤ s.attempt + 1 := by
  rcases s.step_cases t with ⟨last', hcheck⟩ | ⟨r, hreturn, hr⟩
  · rw [hcheck, check] at h
    split at h
    case isTrue => simp at h
    case isFalse hge =>
      have hge' : ¬(s.after t).attempt + 1 < (s.after t).addresses.length * 20 := hge
      rw [attempt_after] at hge'
      omega
  · rw [hreturn] at h
    have := Except.error.inj h
    exact absurd (congrArg Result.verdict this) (hr last)

/-! ### Whole calls -/

section Call
variable {c : Client} {turns : ℕ → Turn}

/-- What holds at the head of the loop at every attempt. -/
structure Client.Head (c : Client) (k : ℕ) (s : Loop) : Prop where
  attempt : s.attempt = k
  configured : s.client.addresses = c.addresses
  bound : k < s.addresses.length * 20
  length : s.addresses.length ≤ c.addresses.length + 1

theorem Client.run_succ_ok {k : ℕ} {s' : Loop} (h : c.run turns (k + 1) = .ok s') :
    ∃ s, c.run turns k = .ok s ∧ s.step (turns k) = .ok s' := by
  rw [run] at h
  cases hrun : c.run turns k with
  | error r =>
    rw [hrun] at h
    simp [Except.bind] at h
  | ok s =>
    rw [hrun] at h
    exact ⟨s, rfl, h⟩

theorem Client.run_head {k : ℕ} {s : Loop} (h : c.run turns k = .ok s) : c.Head k s := by
  induction k generalizing s with
  | zero =>
    rw [run, Loop.check] at h
    split at h
    case isTrue hlt =>
      rw [← Except.ok.inj h]
      exact ⟨rfl, rfl, hlt, c.length_orderedAddresses_le⟩
    case isFalse => simp at h
  | succ k ih =>
    obtain ⟨s₀, hrun, hstep⟩ := run_succ_ok h
    obtain ⟨last, rfl, hlt⟩ := Loop.step_ok hstep
    have hhead := ih hrun
    have hattempt : ((s₀.after (turns k)).next last).attempt = k + 1 := by
      show (s₀.after (turns k)).attempt + 1 = k + 1
      rw [Loop.attempt_after, hhead.attempt]
    refine ⟨hattempt, ?_, hattempt ▸ hlt, ?_⟩
    · exact (s₀.configured_after (turns k)).trans hhead.configured
    · show (s₀.after (turns k)).addresses.length ≤ _
      unfold Loop.after
      cases (turns k).hint with
      | none => exact hhead.length
      | some hint =>
        rw [← hhead.configured]
        exact (s₀.client.setLeader hint).length_orderedAddresses_le

/-- Until the first hint the list is the one the call started with. -/
theorem Client.run_unhinted {k : ℕ} {s : Loop} (h : c.run turns k = .ok s)
    (hnone : ∀ i < k, (turns i).hint = none) : s.addresses = c.orderedAddresses := by
  induction k generalizing s with
  | zero =>
    rw [run, Loop.check] at h
    split at h
    case isTrue => rw [← Except.ok.inj h]
    case isFalse => simp at h
  | succ k ih =>
    obtain ⟨s₀, hrun, hstep⟩ := run_succ_ok h
    obtain ⟨last, rfl, -⟩ := Loop.step_ok hstep
    show (s₀.after (turns k)).addresses = _
    unfold Loop.after
    rw [hnone k (Nat.lt_succ_self k)]
    exact ih hrun fun i hi => hnone i (Nat.lt_succ_of_lt hi)

/-- A call that has got to attempt `k` has been at every attempt before. -/
theorem Client.run_ok_of_le {k j : ℕ} {s : Loop} (h : c.run turns k = .ok s) (hj : j ≤ k) :
    ∃ s', c.run turns j = .ok s' := by
  induction k generalizing s with
  | zero =>
    rw [Nat.le_zero.mp hj]
    exact ⟨s, h⟩
  | succ k ih =>
    rcases Nat.le_succ_iff.mp hj with hle | rfl
    · obtain ⟨s₀, hrun, -⟩ := run_succ_ok h
      exact ih hrun hle
    · exact ⟨s, h⟩

/-- A call that has tried the addresses it started with as often as the loop allows has been
    through the whole list, if no hint has replaced the list before. -/
theorem Client.run_exhausted {k : ℕ} {client : Client} {last : Option LastError}
    (h : c.run turns k = .error ⟨client, .exhausted last⟩)
    (hlate : ∀ i s, c.run turns i = .ok s → (turns i).hint ≠ none →
      c.orderedAddresses.length ≤ i + 1) {j : ℕ} (hj : j < c.orderedAddresses.length) : ∃ s, c.run turns j = .ok s := by
  induction k with
  | zero =>
    rw [run, Loop.check] at h
    split at h
    case isTrue => simp at h
    case isFalse hge =>
      have hge' : ¬0 < c.orderedAddresses.length * 20 := hge
      omega
  | succ k ih =>
    cases hrun : c.run turns k with
    | error r =>
      rw [run, hrun] at h
      exact ih (hrun.trans h)
    | ok s₀ =>
      rcases Nat.lt_or_ge k j with hkj | hkj
      · -- The loop ended before it had been through the list once: no hint can have come.
        rw [run, hrun] at h
        have hnone : ∀ i ≤ k, (turns i).hint = none := by
          intro i hi
          by_contra hsome
          obtain ⟨s, hs⟩ := run_ok_of_le hrun hi
          have := hlate i s hs hsome
          omega
        have hlist := run_unhinted hrun fun i hi => hnone i hi.le
        have hend := Loop.step_exhausted h
        unfold Loop.after at hend
        rw [hnone k le_rfl, (run_head hrun).attempt] at hend
        dsimp only at hend
        rw [hlist] at hend
        omega
      · exact run_ok_of_le hrun hkj

end Call

/-! ### Following hints -/

/-- The hint of attempt `k`, if any, comes at the end of a round: the next attempt starts a round
    of the list built for it, and the list the call started with has been tried once. -/
def Client.EndsRound (c : Client) (turns : ℕ → Turn) (k : ℕ) : Prop :=
  ∀ s hint, c.run turns k = .ok s → (turns k).hint = some hint →
    (s.follow hint).addresses.length ∣ k + 1 ∧ c.orderedAddresses.length ≤ k + 1

theorem Turn.hint_ne_empty {t : Turn} {hint : String} (h : t.hint = some hint) : hint ≠ "" := by
  unfold Turn.hint at h
  cases hreply : t.reply with
  | noClient => simp [hreply] at h
  | success => simp [hreply] at h
  | failure e =>
    simp only [hreply] at h
    split at h
    case isTrue hcond => exact Option.some.inj h ▸ hcond.2.2
    case isFalse => simp at h

/-- **Hints are followed and no configured address is left out**, where hints come at the end of a
    round (and the empty address is not configured, unless a leader is cached): the attempt after
    a `NotLeader` reply that names a leader goes to that leader, and a call that uses up its
    attempts has tried every configured address. -/
theorem hints_followed (c : Client) (turns : ℕ → Turn) (hempty : c.leader = "" → "" ∉ c.addresses)
    (hrounds : ∀ k, c.EndsRound turns k) :
    (∀ k s s' hint, c.run turns k = .ok s → (turns k).hint = some hint →
      c.run turns (k + 1) = .ok s' → s'.address = hint)
    ∧ ∀ k client last, c.run turns k = .error ⟨client, .exhausted last⟩ →
      ∀ a ∈ c.addresses, ∃ j s, c.run turns j = .ok s ∧ s.address = a := by
  refine ⟨?_, ?_⟩
  · intro k s s' hint hrun hhint hnext
    obtain ⟨s₀, hrun₀, hstep⟩ := Client.run_succ_ok hnext
    obtain rfl : s₀ = s := Except.ok.inj (hrun₀.symm.trans hrun)
    obtain ⟨last, rfl, -⟩ := Loop.step_ok hstep
    have hafter : s₀.after (turns k) = s₀.follow hint := by
      unfold Loop.after
      rw [hhint]
    rw [hafter, Loop.address_follow_iff (Turn.hint_ne_empty hhint), (Client.run_head hrun).attempt]
    exact (hrounds k s₀ hint hrun hhint).1
  · intro k client last hend a ha
    have hlate : ∀ i s, c.run turns i = .ok s → (turns i).hint ≠ none →
        c.orderedAddresses.length ≤ i + 1 := by
      intro i s hrun hsome
      obtain ⟨hint, hhint⟩ := Option.ne_none_iff_exists'.mp hsome
      exact (hrounds i s hint hrun hhint).2
    obtain ⟨j, hj, hget⟩ := List.getElem_of_mem (c.mem_orderedAddresses hempty ha)
    obtain ⟨s, hs⟩ := Client.run_exhausted hend hlate hj
    have hlist : s.addresses = c.orderedAddresses := by
      apply Client.run_unhinted hs
      intro i hi
      by_contra hsome
      obtain ⟨s', hs'⟩ := Client.run_ok_of_le hs hi.le
      have := hlate i s' hs' hsome
      omega
    refine ⟨j, s, hs, ?_⟩
    rw [Loop.address, (Client.run_head hs).attempt, hlist, Nat.mod_eq_of_lt hj,
      List.getD_eq_getElem?_getD, List.getElem?_eq_getElem hj]
    exact hget

/-- A reply that names `leader`. -/
def redirect (leader : String) : Turn :=
  { reply := .failure { code := .failedPrecondition, notLeader := some leader } }

/-- Of two addresses the second is named at the end of the first round, and is tried next. -/
theorem hints_followed_second :
    ∃ s, Client.run { addresses := ["a", "b"] }
        (fun k => if k = 1 then redirect "b" else { reply := .noClient }) 2 = .ok s
      ∧ s.address = "b" := by
  have hrounds : ∀ k, Client.EndsRound { addresses := ["a", "b"] }
      (fun k => if k = 1 then redirect "b" else { reply := .noClient }) k := by
    intro k s hint hrun hhint
    by_cases hk : k = 1
    · subst hk
      obtain rfl : "b" = hint := Option.some.inj hhint
      rw [Loop.addresses_follow (by decide), (Client.run_head hrun).configured]
      exact ⟨by decide, by decide⟩
    · simp [hk, Turn.hint] at hhint
  refine ⟨_, rfl, ?_⟩
  exact (hints_followed { addresses := ["a", "b"] } _ (by simp) hrounds).1 1 _ _ "b" rfl rfl rfl

/-- Two addresses that name each other. -/
def pingPong (k : ℕ) : Turn := redirect (if k % 2 = 0 then "b" else "a")

/-- The list is turned around each time, and so is the place in it. -/
theorem run_pingPong {k : ℕ} {s : Loop}
    (h : Client.run { addresses := ["a", "b"] } pingPong k = .ok s) :
    s.addresses = if k % 2 = 0 then ["a", "b"] else ["b", "a"] := by
  cases k with
  | zero => exact Client.run_unhinted h (by simp)
  | succ k =>
    obtain ⟨s₀, hrun, hstep⟩ := Client.run_succ_ok h
    obtain ⟨last, rfl, -⟩ := Loop.step_ok hstep
    have hconfigured := (Client.run_head hrun).configured
    show (s₀.after (pingPong k)).addresses = _
    rcases Nat.mod_two_eq_zero_or_one k with hk | hk
    · have hhint : (pingPong k).hint = some "b" := by
        unfold pingPong
        rw [if_pos hk]
        rfl
      unfold Loop.after
      rw [hhint, if_neg (by omega)]
      dsimp only
      rw [Loop.addresses_follow (by decide), hconfigured]
      decide
    · have hhint : (pingPong k).hint = some "a" := by
        unfold pingPong
        rw [if_neg (by omega)]
        rfl
      unfold Loop.after
      rw [hhint, if_pos (by omega)]
      dsimp only
      rw [Loop.addresses_follow (by decide), hconfigured]
      decide

/-- The first address names the third one, and the next attempt goes to the first again.  And of two
    addresses that name each other, the second is not tried in any of the forty attempts. -/
theorem hint_missed :
    (∃ s, Client.run { addresses := ["a", "b", "c"] } (fun _ => redirect "c") 1 = .ok s
      ∧ (redirect "c").hint = some "c" ∧ s.address = "a")
    ∧ (∃ client last, Client.run { addresses := ["a", "b"] } pingPong 40
        = .error ⟨client, .exhausted last⟩)
    ∧ ∀ k s, Client.run { addresses := ["a", "b"] } pingPong k = .ok s → s.address ≠ "b" := by
  refine ⟨⟨_, rfl, rfl, by decide⟩, ⟨_, _, rfl⟩, ?_⟩
  intro k s h
  unfold Loop.address
  rw [run_pingPong h, (Client.run_head h).attempt]
  rcases Nat.mod_two_eq_zero_or_one k with hk | hk
  · simp [hk]
  · simp [hk]

end Lsmdb.KvClient

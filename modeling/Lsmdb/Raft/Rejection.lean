import Lsmdb.Raft.Operations

namespace Lsmdb.Raft

open Node

/-!
# Raft core — rejected appends and snapshots

`Node.handleAppend` and `Node.handleSnapshot` describe a failed rebuild of the configuration
as a step that was never made.  The source makes it: it cuts and extends the log in place,
replaces the snapshot, and undoes both from an old length, a saved tail and saved fields.

Here the two handlers are written a second time with that state and its undo
(`handleAppendInPlace`, `handleSnapshotInPlace`) and shown to compute the same
(`handleAppendInPlace_eq`, `handleSnapshotInPlace_eq`).  `Step` over them leaves log, commit
index, snapshot and configuration as they were whenever it drops the message or answers with
a rejection.
-/

variable [MembershipJson]

/-! ### The log rewritten in place -/

/-- The local variables of the entry loop of `handleAppend`, and the log it works on. -/
structure Rewrite where
  log : List Entry
  truncatedTail : List Entry := []
  rebuild : Bool := false
  truncateFrom : ℕ := 0
  entries : List Entry := []

/-- One round of the inner loop: append `remaining` to the log and to the update. -/
def Rewrite.push (w : Rewrite) (remaining : Entry) : Rewrite :=
  { w with
    rebuild := w.rebuild || hasMembershipPrefix remaining.data
    log := w.log ++ [remaining]
    entries := w.entries ++ [remaining] }

/-- Cut the log in front of `entry`, keeping the tail for an undo. -/
def Rewrite.cut (w : Rewrite) (keep index : ℕ) : Rewrite :=
  { w with
    truncatedTail := w.log.drop keep
    log := w.log.take keep
    truncateFrom := index
    rebuild := true }

/-- The entry loop of `handleAppend`; `none` is its return at a conflict with a committed
    entry.  Entries are only skipped before the first change, so `n` is still the node. -/
def Core.rewriteLoop (n : Core) (w : Rewrite) : List Entry → Option Rewrite
  | [] => some w
  | entry :: rest =>
      if entry.index ≤ n.lastIndex then
        if n.termAt entry.index = entry.term then n.rewriteLoop w rest
        else if entry.index ≤ n.commit then none
        else
          some ((entry :: rest).foldl Rewrite.push
            (w.cut (entry.index - n.snapshot.index - 1) entry.index))
      else some ((entry :: rest).foldl Rewrite.push w)

/-- `append(n.log[:oldLen-len(truncatedTail)], truncatedTail...)`. -/
def Rewrite.undo (w : Rewrite) (oldLen : ℕ) : List Entry :=
  w.log.take (oldLen - w.truncatedTail.length) ++ w.truncatedTail

/-- `Node.handleAppend` with its log rewritten in place and undone. -/
def Node.handleAppendInPlace (n : Node) (m : Message) : Node × Update :=
  let r := n.followSender m.fromID
  let n := r.1
  if n.lastIndex < m.logIndex ∨ n.termAt m.logIndex ≠ m.logTerm then
    let hint := if m.logIndex ≤ n.lastIndex then n.conflictHint (n.termAt m.logIndex) m.logIndex
      else n.lastIndex + 1
    (n, r.2.send [n.rejection m .appendResponse hint])
  else
    let oldLen := n.log.length
    match n.rewriteLoop { log := n.log } m.entries with
    | none => (n, r.2.send [n.rejection m .appendResponse (n.commit + 1)])
    | some w =>
      let n1 : Node := { n with log := w.log }
      let u : Update :=
        { r.2 with truncateFrom := w.truncateFrom, entries := r.2.entries ++ w.entries }
      if w.rebuild then
        match n1.rebuildMembership with
        | .error _ =>
          let n2 : Node := { n1 with log := w.undo oldLen }
          (n2, ({ u with truncateFrom := 0, entries := [] } : Update).send
            [n2.rejection m .appendResponse (n2.lastIndex + 1)])
        | .ok core => ({ n1 with toCore := core } : Node).acceptAppend m u
      else n1.acceptAppend m u

/-- `Node.handleSnapshot` with the log compacted in place and restored. -/
def Node.handleSnapshotInPlace (n : Node) (m : Message) : Node × Update :=
  match m.snapshot with
  | none => (n, { messages := [n.rejection m .snapshotResponse (n.lastIndex + 1)] })
  | some sent =>
    if sent.index = 0 ∨ sent.term = 0 then
      (n, { messages := [n.rejection m .snapshotResponse (n.lastIndex + 1)] })
    else
      let r := n.followSender m.fromID
      let n := r.1
      let refuse (n : Node) : Node × Update :=
        (n, r.2.send [n.rejection m .snapshotResponse (n.lastIndex + 1)])
      let accept (n : Node) (snapshot : Snapshot) (u : Update) : Node × Update :=
        (n, u.send [{ type := .snapshotResponse, fromID := n.cfg.id, toID := m.fromID,
                      term := n.term, logIndex := max snapshot.index n.snapshot.index }])
      let snapshot := if sent.membership.voters.length = 0 then
        { sent with membership := n.initialMembership } else sent
      match validateMembership snapshot.membership with
      | .error _ => refuse n
      | .ok () =>
        if snapshot.index < snapshot.membership.index then refuse n
        else if n.snapshot.index < snapshot.index then
          if snapshot.index ≤ n.commit ∧ n.termAt snapshot.index ≠ snapshot.term then refuse n
          else
            let oldSnapshot := n.snapshot
            let oldLog := n.log
            let oldMembership := n.membership
            let n1 : Node := { n with toCore := n.compactLog snapshot }
            match n1.rebuildMembership with
            | .error _ =>
              refuse { n1 with snapshot := oldSnapshot, log := oldLog, membership := oldMembership }
            | .ok core =>
              accept { n1 with toCore := { core with commit := max core.commit snapshot.index } }
                snapshot { r.2 with snapshot := some snapshot }
        else accept n snapshot r.2

/-! ### The rewrite is the splice -/

omit [MembershipJson] in
theorem foldl_push (entries : List Entry) (w : Rewrite) :
    entries.foldl Rewrite.push w =
      { w with
        rebuild := w.rebuild || entries.any (fun e => hasMembershipPrefix e.data)
        log := w.log ++ entries
        entries := w.entries ++ entries } := by
  induction entries generalizing w with
  | nil => simp
  | cons entry rest ih =>
    rw [List.foldl_cons, ih]
    simp [Rewrite.push, Bool.or_assoc]

/-- What the loop leaves behind, in the words of `Core.splice`. -/
def Core.spliced (n : Core) : Splice → Option Rewrite
  | .held => some { log := n.log }
  | .committedConflict => none
  | .replace keep truncateFrom entries =>
      some
        { log := n.log.take keep ++ entries
          truncatedTail := n.log.drop keep
          rebuild := decide (truncateFrom ≠ 0) || entries.any (fun e => hasMembershipPrefix e.data)
          truncateFrom := truncateFrom
          entries := entries }

section
omit [MembershipJson]

theorem Core.rewriteLoop_eq (n : Core) (entries : List Entry) :
    n.rewriteLoop { log := n.log } entries = n.spliced (n.splice entries) := by
  induction entries with
  | nil => rfl
  | cons entry rest ih =>
    unfold Core.rewriteLoop Core.splice
    by_cases hle : entry.index ≤ n.lastIndex
    · rw [if_pos hle, if_pos hle]
      by_cases hterm : n.termAt entry.index = entry.term
      · rw [if_pos hterm, if_pos hterm]
        exact ih
      rw [if_neg hterm, if_neg hterm]
      by_cases hc : entry.index ≤ n.commit
      · rw [if_pos hc, if_pos hc]
        rfl
      -- A cut: the index is above the commit index, so it is not zero.
      rw [if_neg hc, if_neg hc, foldl_push]
      have h0 : entry.index ≠ 0 := by omega
      simp [Core.spliced, Rewrite.cut, h0]
    · -- A pure extension keeps the whole log and saves no tail.
      rw [if_neg hle, if_neg hle, foldl_push]
      simp [Core.spliced]

/-- The undo of a cut at `keep` gives the old log back, whatever was appended since. -/
theorem Rewrite.undo_replace (log entries : List Entry) (keep truncateFrom : ℕ) (rebuild : Bool) :
    Rewrite.undo
      { log := log.take keep ++ entries, truncatedTail := log.drop keep, rebuild := rebuild,
        truncateFrom := truncateFrom, entries := entries } log.length = log := by
  have hlen : log.length - (log.drop keep).length = (log.take keep).length := by
    rw [List.length_drop, List.length_take]
    omega
  show (log.take keep ++ entries).take (log.length - (log.drop keep).length) ++ log.drop keep = log
  rw [hlen, List.take_left, List.take_append_drop]

/-- Following the sender of a message says nothing about the log. -/
theorem Node.followSender_update (n : Node) (sender : ℕ) :
    (n.followSender sender).2.truncateFrom = 0 ∧ (n.followSender sender).2.entries = []
      ∧ (n.followSender sender).2.committed = [] ∧ (n.followSender sender).2.snapshot = none
      ∧ (n.followSender sender).2.messages = [] := by
  unfold followSender
  dsimp only
  split <;> exact ⟨rfl, rfl, rfl, rfl, rfl⟩

end

/-- **The undo is exact**: writing the log in place and undoing a failed rebuild computes what
    `handleAppend` says. -/
theorem Node.handleAppendInPlace_eq (n : Node) (m : Message) :
    n.handleAppendInPlace m = n.handleAppend m := by
  obtain ⟨htr, hen, -⟩ := n.followSender_update m.fromID
  unfold handleAppendInPlace handleAppend
  generalize n.followSender m.fromID = r at htr hen
  obtain ⟨n, u⟩ := r
  dsimp only at htr hen ⊢
  by_cases hp : n.lastIndex < m.logIndex ∨ n.termAt m.logIndex ≠ m.logTerm
  · rw [if_pos hp, if_pos hp]
  rw [if_neg hp, if_neg hp, Core.rewriteLoop_eq]
  have hu : ∀ ms, ({ u with truncateFrom := 0, entries := ms } : Update)
      = { u with entries := ms } := by
    intro ms
    rw [← htr]
  cases hs : n.splice m.entries with
  | held =>
    simp only [Core.spliced, List.append_nil, Bool.false_eq_true, if_false]
    rw [hu]
  | committedConflict => rfl
  | replace keep truncateFrom entries =>
    simp only [Core.spliced, Core.applySplice, Bool.or_eq_true, decide_eq_true_eq]
    by_cases hre : truncateFrom ≠ 0 ∨ entries.any (fun e => hasMembershipPrefix e.data) = true
    · rw [if_pos hre, if_pos hre]
      cases hb : ({ n.toCore with log := n.log.take keep ++ entries } : Core).rebuildMembership with
      | error e =>
        -- The log is undone and the update emptied, which is where the step began.
        simp only [Rewrite.undo_replace, Except.toOption]
        rw [hu, ← hen]
      | ok core => rfl
    · rw [if_neg hre, if_neg hre]

theorem Node.handleSnapshotInPlace_eq (n : Node) (m : Message) :
    n.handleSnapshotInPlace m = n.handleSnapshot m := by
  unfold handleSnapshotInPlace handleSnapshot
  cases m.snapshot with
  | none => rfl
  | some sent =>
    by_cases hz : sent.index = 0 ∨ sent.term = 0
    · simp only [if_pos hz]
    dsimp only
    rw [if_neg hz, if_neg hz]
    generalize n.followSender m.fromID = r
    generalize hsn : (if sent.membership.voters.length = 0 then
      ({ sent with membership := r.1.initialMembership } : Snapshot) else sent) = snapshot
    cases validateMembership snapshot.membership with
    | error e => rfl
    | ok u =>
      -- On an error the three saved fields are put back, which is the node before.
      cases (r.1.compactLog snapshot).rebuildMembership with
      | error e => rfl
      | ok core => rfl

/-! ### Step over the handlers in place -/

/-- The switch at the end of `Step`, over the handlers in place. -/
def Node.dispatchInPlace (next : ℕ → ℕ) (n : Node) (m : Message) : Node × Update :=
  match m.type with
  | .append => n.handleAppendInPlace m
  | .snapshot => n.handleSnapshotInPlace m
  | _ => n.dispatchWith next m

/-- `Step` after the checks that drop a message, over the handlers in place. -/
def Node.stepTermInPlace (next : ℕ → ℕ) (n : Node) (m : Message) : Node × Update :=
  if m.type ≠ .preVote ∧ m.type ≠ .preVoteResponse then
    if n.term < m.term then
      let f := n.becomeFollower m.term 0
      let d := f.1.dispatchInPlace next m
      (d.1, f.2.merge d.2)
    else if m.term < n.term then (n, { messages := [n.rejectStale m] })
    else n.dispatchInPlace next m
  else n.dispatchInPlace next m

/-- `Node.Step` over the handlers in place.  `malformed` is the check of an append's entries:
    `malformedAppend`, or the same with its index arithmetic taken modulo `2 ^ 64`. -/
def Node.stepInPlace (next : ℕ → ℕ) (malformed : Message → Option String) (n : Node)
    (m : Message) : Node × Update :=
  if m.toID ≠ 0 ∧ m.toID ≠ n.cfg.id then (n, {})
  else if !n.isCommunicationPeer m.fromID ∨ m.fromID = n.cfg.id then (n, {})
  else
    match if m.type = .append then malformed m else none with
    | some reason =>
      ({ n with malformedAppendsDropped := n.malformedAppendsDropped + 1 },
        { droppedAppend := some s!"from {m.fromID} at term {m.term}: {reason}" })
    | none =>
      if m.type = .vote ∧ n.term < m.term ∧ n.inLease then
        ({ n with votesIgnoredInLease := n.votesIgnoredInLease + 1 }, {})
      else n.stepTermInPlace next m

theorem Node.dispatchInPlace_eq (next : ℕ → ℕ) (n : Node) (m : Message) :
    n.dispatchInPlace next m = n.dispatchWith next m := by
  unfold dispatchInPlace dispatchWith
  cases m.type with
  | append => exact n.handleAppendInPlace_eq m
  | snapshot => exact n.handleSnapshotInPlace_eq m
  | _ => rfl

theorem Node.stepTermInPlace_eq (next : ℕ → ℕ) (n : Node) (m : Message) :
    n.stepTermInPlace next m = n.stepTermWith next m := by
  unfold stepTermInPlace stepTermWith
  simp only [dispatchInPlace_eq]

/-! ### What a rejection leaves alone -/

/-- A step from `n` to `n'` with update `u` that changed neither log, commit index, snapshot
    nor configuration, and asks its runtime for no such change. -/
structure Untouched (n n' : Node) (u : Update) : Prop where
  log : n'.log = n.log
  commit : n'.commit = n.commit
  snapshot : n'.snapshot = n.snapshot
  membership : n'.membership = n.membership
  truncateFrom : u.truncateFrom = 0
  entries : u.entries = []
  committed : u.committed = []
  noSnapshot : u.snapshot = none

/-- The update contains a negative answer. -/
def Update.Rejects (u : Update) : Prop := ∃ answer ∈ u.messages, answer.reject = true

section Rejected
variable {n n₁ n₂ : Node} {u v : Update}

section
omit [MembershipJson]

theorem Untouched.trans (h₁ : Untouched n n₁ u) (h₂ : Untouched n₁ n₂ v) :
    Untouched n n₂ (u.merge v) where
  log := h₂.log.trans h₁.log
  commit := h₂.commit.trans h₁.commit
  snapshot := h₂.snapshot.trans h₁.snapshot
  membership := h₂.membership.trans h₁.membership
  truncateFrom := by rw [Update.merge_truncateFrom, h₂.truncateFrom, h₁.truncateFrom]; rfl
  entries := by rw [Update.merge_entries, h₁.entries, h₂.entries]; rfl
  committed := by rw [Update.merge_committed, h₁.committed, h₂.committed]; rfl
  noSnapshot := by rw [Update.merge_snapshot, h₁.noSnapshot, h₂.noSnapshot]; rfl

theorem Untouched.send (h : Untouched n n₁ u) (ms : List Message) : Untouched n n₁ (u.send ms) :=
  { h with }

theorem Node.becomeFollower_untouched (n : Node) (term leader : ℕ) :
    Untouched n (n.becomeFollower term leader).1 (n.becomeFollower term leader).2 := by
  unfold becomeFollower
  dsimp only
  split <;> exact ⟨rfl, rfl, rfl, rfl, rfl, rfl, rfl, rfl⟩

theorem Node.followSender_untouched (n : Node) (sender : ℕ) :
    Untouched n (n.followSender sender).1 (n.followSender sender).2 := by
  unfold followSender
  dsimp only
  split
  · obtain ⟨h1, h2, h3, h4, h5⟩ := n.becomeFollower_untouched n.term sender
    exact ⟨h1, h2, h3, h4, h5, ‹_›, ‹_›, ‹_›⟩
  · exact ⟨rfl, rfl, rfl, rfl, rfl, rfl, rfl, rfl⟩

/-- Accepting an append adds a positive answer only. -/
theorem Node.acceptAppend_messages (n : Node) (m : Message) (u : Update) :
    ∃ answer : Message, answer.reject = false
      ∧ (n.acceptAppend m u).2.messages = u.messages ++ [answer] := by
  unfold acceptAppend
  dsimp only
  split
  · exact ⟨_, rfl, rfl⟩
  · exact ⟨_, rfl, rfl⟩

theorem Node.acceptAppend_not_rejects (n : Node) (m : Message) (hu : u.messages = []) :
    ¬ (n.acceptAppend m u).2.Rejects := by
  obtain ⟨answer, hr, heq⟩ := n.acceptAppend_messages m u
  rintro ⟨sent, hmem, hsent⟩
  rw [heq, hu, List.nil_append, List.mem_singleton] at hmem
  subst hmem
  exact absurd (hr.symm.trans hsent) (by decide)

end

/-- An append answered with a rejection: every exit of `handleAppend` but the two that accept
    hands back the node that followed the sender. -/
theorem Node.handleAppend_rejected (n : Node) (m : Message)
    (hrej : (n.handleAppend m).2.Rejects) :
    Untouched n (n.handleAppend m).1 (n.handleAppend m).2 := by
  have hfollow := n.followSender_untouched m.fromID
  obtain ⟨-, -, -, -, hms⟩ := n.followSender_update m.fromID
  unfold handleAppend at hrej ⊢
  dsimp only at hrej ⊢
  split
  · exact hfollow.send _
  rename_i hp
  rw [if_neg hp] at hrej
  cases hs : (n.followSender m.fromID).1.splice m.entries with
  | held =>
    simp only [hs] at hrej
    exact absurd hrej (acceptAppend_not_rejects _ m hms)
  | committedConflict => exact hfollow.send _
  | replace keep truncateFrom entries =>
    simp only [hs] at hrej
    cases ha : (n.followSender m.fromID).1.applySplice keep truncateFrom entries with
    | none =>
      simp only [ha]
      exact hfollow.send _
    | some core =>
      simp only [ha] at hrej
      exact absurd hrej (acceptAppend_not_rejects _ m hms)

theorem Node.handleSnapshot_rejected (n : Node) (m : Message)
    (hrej : (n.handleSnapshot m).2.Rejects) :
    Untouched n (n.handleSnapshot m).1 (n.handleSnapshot m).2 := by
  have hfollow := n.followSender_untouched m.fromID
  obtain ⟨-, -, -, -, hms⟩ := n.followSender_update m.fromID
  have hself (ms : List Message) : Untouched n n { messages := ms } :=
    ⟨rfl, rfl, rfl, rfl, rfl, rfl, rfl, rfl⟩
  -- The answer of the accepting exits is positive.
  have haccept (v : Update) (answer : Message) (hv : v.messages = []) (ha : answer.reject = false) :
      ¬ (v.send [answer]).Rejects := by
    rintro ⟨sent, hmem, hsent⟩
    rw [show (v.send [answer]).messages = v.messages ++ [answer] from rfl, hv, List.nil_append,
      List.mem_singleton] at hmem
    subst hmem
    exact absurd (ha.symm.trans hsent) (by decide)
  unfold handleSnapshot at hrej ⊢
  cases hsnap : m.snapshot with
  | none => exact hself _
  | some sent =>
    simp only [hsnap] at hrej
    dsimp only
    split
    · exact hself _
    rename_i hz
    rw [if_neg hz] at hrej
    revert hrej
    generalize (if sent.membership.voters.length = 0 then
      ({ sent with membership := (n.followSender m.fromID).1.initialMembership } : Snapshot)
      else sent) = snapshot
    cases validateMembership snapshot.membership with
    | error e => exact fun _ => hfollow.send _
    | ok _ =>
      dsimp only
      split
      · exact fun _ => hfollow.send _
      split
      · split
        · exact fun _ => hfollow.send _
        cases ((n.followSender m.fromID).1.compactLog snapshot).rebuildMembership with
        | error e => exact fun _ => hfollow.send _
        | ok core => exact fun hrej => absurd hrej (haccept _ _ hms rfl)
      · exact fun hrej => absurd hrej (haccept _ _ hms rfl)

end Rejected

theorem Node.dispatch_rejected (next : ℕ → ℕ) (n : Node) (m : Message)
    (hm : m.type = .append ∨ m.type = .snapshot) (hrej : (n.dispatchWith next m).2.Rejects) :
    Untouched n (n.dispatchWith next m).1 (n.dispatchWith next m).2 := by
  rcases hm with hm | hm
  · simp only [dispatchWith, hm] at hrej ⊢
    exact n.handleAppend_rejected m hrej
  · simp only [dispatchWith, hm] at hrej ⊢
    exact n.handleSnapshot_rejected m hrej

/-! ### Only the check of `Step` drops an append -/

omit [MembershipJson] in
theorem Node.followSender_droppedAppend (n : Node) (sender : ℕ) :
    (n.followSender sender).2.droppedAppend = none := by
  unfold followSender
  dsimp only
  split <;> rfl

omit [MembershipJson] in
theorem Node.acceptAppend_droppedAppend (n : Node) (m : Message) (u : Update) :
    (n.acceptAppend m u).2.droppedAppend = u.droppedAppend := by
  unfold acceptAppend
  dsimp only
  split <;> rfl

theorem Node.handleAppend_droppedAppend (n : Node) (m : Message) :
    (n.handleAppend m).2.droppedAppend = none := by
  have hfollow := n.followSender_droppedAppend m.fromID
  unfold handleAppend
  dsimp only
  split
  · exact hfollow
  cases hs : (n.followSender m.fromID).1.splice m.entries with
  | held => exact (acceptAppend_droppedAppend _ _ _).trans hfollow
  | committedConflict => exact hfollow
  | replace keep truncateFrom entries =>
    cases ha : (n.followSender m.fromID).1.applySplice keep truncateFrom entries with
    | none =>
      simp only [ha]
      exact hfollow
    | some core =>
      simp only [ha]
      exact (acceptAppend_droppedAppend _ _ _).trans hfollow

theorem Node.handleSnapshot_droppedAppend (n : Node) (m : Message) :
    (n.handleSnapshot m).2.droppedAppend = none := by
  have hfollow := n.followSender_droppedAppend m.fromID
  unfold handleSnapshot
  cases m.snapshot with
  | none => rfl
  | some sent =>
    dsimp only
    split
    · rfl
    generalize (if sent.membership.voters.length = 0 then
      ({ sent with membership := (n.followSender m.fromID).1.initialMembership } : Snapshot)
      else sent) = snapshot
    cases validateMembership snapshot.membership with
    | error e => exact hfollow
    | ok _ =>
      dsimp only
      split
      · exact hfollow
      split
      · split
        · exact hfollow
        cases ((n.followSender m.fromID).1.compactLog snapshot).rebuildMembership with
        | error e => exact hfollow
        | ok core => exact hfollow
      · exact hfollow

theorem Node.dispatch_droppedAppend (next : ℕ → ℕ) (n : Node) (m : Message)
    (hm : m.type = .append ∨ m.type = .snapshot) :
    (n.dispatchWith next m).2.droppedAppend = none := by
  rcases hm with hm | hm
  · simp only [dispatchWith, hm]
    exact n.handleAppend_droppedAppend m
  · simp only [dispatchWith, hm]
    exact n.handleSnapshot_droppedAppend m

/-! ### The step -/

/-- Behind the checks that drop a message only a negative answer counts. -/
theorem Node.stepTerm_rejected (next : ℕ → ℕ) (n : Node) (m : Message)
    (hm : m.type = .append ∨ m.type = .snapshot)
    (h : (n.stepTermWith next m).2.droppedAppend ≠ none ∨ (n.stepTermWith next m).2.Rejects) :
    Untouched n (n.stepTermWith next m).1 (n.stepTermWith next m).2 := by
  have hty : m.type ≠ .preVote ∧ m.type ≠ .preVoteResponse := by
    rcases hm with hm | hm <;> rw [hm] <;> decide
  have hdispatch (k : Node)
      (hk : (k.dispatchWith next m).2.droppedAppend ≠ none ∨ (k.dispatchWith next m).2.Rejects) :
      Untouched k (k.dispatchWith next m).1 (k.dispatchWith next m).2 := by
    rcases hk with hk | hk
    · exact absurd (k.dispatch_droppedAppend next m hm) hk
    · exact k.dispatch_rejected next m hm hk
  unfold stepTermWith at h ⊢
  rw [if_pos hty] at h ⊢
  by_cases hlt : n.term < m.term
  · -- The higher term is adopted first, which sends nothing and touches no log.
    rw [if_pos hlt] at h ⊢
    apply (n.becomeFollower_untouched m.term 0).trans
    apply hdispatch
    rcases h with h | ⟨answer, hmem, hrej⟩
    · left
      intro hnone
      apply h
      show (_ : Option String).or _ = none
      rw [hnone]
      rfl
    · exact .inr ⟨answer, hmem, hrej⟩
  rw [if_neg hlt] at h ⊢
  by_cases hstale : m.term < n.term
  · rw [if_pos hstale]
    exact ⟨rfl, rfl, rfl, rfl, rfl, rfl, rfl, rfl⟩
  rw [if_neg hstale] at h ⊢
  exact hdispatch n h

/-- **A rejected append or snapshot changes nothing durable.**  From every node state, for
    every append or snapshot message: if `Step` drops it or answers it with a rejection, then
    log, commit index, snapshot and configuration are those from before, and the update
    carries no truncation, no entries, no committed entries and no snapshot. -/
theorem rejected_changes_nothing (next : ℕ → ℕ) (malformed : Message → Option String) (n : Node)
    (m : Message) (hm : m.type = .append ∨ m.type = .snapshot)
    (h : (n.stepInPlace next malformed m).2.droppedAppend ≠ none
      ∨ ∃ answer ∈ (n.stepInPlace next malformed m).2.messages, answer.reject = true) :
    Untouched n (n.stepInPlace next malformed m).1 (n.stepInPlace next malformed m).2 := by
  have hself (k : Node) (v : Update) (hk : k.toCore = n.toCore) (h1 : v.truncateFrom = 0)
      (h2 : v.entries = []) (h3 : v.committed = []) (h4 : v.snapshot = none) : Untouched n k v := by
    constructor <;> first | rw [hk] | assumption
  have hvote : m.type ≠ .vote := by
    rcases hm with hm | hm <;> rw [hm] <;> decide
  unfold stepInPlace at h ⊢
  split
  · exact hself _ _ rfl rfl rfl rfl rfl
  rename_i hto
  rw [if_neg hto] at h
  split
  · exact hself _ _ rfl rfl rfl rfl rfl
  rename_i hpeer
  rw [if_neg hpeer] at h
  cases hmal : (if m.type = .append then malformed m else none) with
  | some reason => exact hself _ _ rfl rfl rfl rfl rfl
  | none =>
    simp only [hmal] at h ⊢
    have hlease : ¬ (m.type = .vote ∧ n.term < m.term ∧ n.inLease = true) := fun hv => hvote hv.1
    rw [if_neg hlease, stepTermInPlace_eq] at h ⊢
    exact n.stepTerm_rejected next m hm h

section
omit [MembershipJson]

/-- A follower with one uncommitted entry. -/
def tailNode : Node :=
  { cfg := { id := 1, peers := [1, 2], electionTickMin := 10, electionTickMax := 20,
             heartbeatTicks := 2, checkQuorumTicks := 10 }
    term := 2
    votedFor := 0
    snapshot := {}
    log := [{ index := 1, term := 1, data := [7] }]
    commit := 0
    initialMembership := { voters := [1, 2] }
    membership := { voters := [1, 2] } }

/-- An append that replaces that entry by a configuration that does not decode. -/
def brokenConfiguration : Message :=
  { type := .append, fromID := 2, toID := 1, term := 2,
    entries := [{ index := 1, term := 2, data := membershipPrefix ++ [255] }] }

/-- The failed rebuild comes after the cut and is undone. -/
theorem rejected_changes_nothing_tail :
    (@Node.stepInPlace tallyJson nextTerm64 malformedAppend tailNode
        brokenConfiguration).2.messages
        = [{ type := .appendResponse, fromID := 1, toID := 2, term := 2, reject := true,
             rejectHint := 2 }]
      ∧ Untouched tailNode
        (@Node.stepInPlace tallyJson nextTerm64 malformedAppend tailNode brokenConfiguration).1
        (@Node.stepInPlace tallyJson nextTerm64 malformedAppend tailNode
          brokenConfiguration).2 := by
  have hanswer : (@Node.stepInPlace tallyJson nextTerm64 malformedAppend tailNode
      brokenConfiguration).2.messages
        = [{ type := .appendResponse, fromID := 1, toID := 2, term := 2, reject := true,
             rejectHint := 2 }] := rfl
  refine ⟨hanswer, @rejected_changes_nothing tallyJson nextTerm64 malformedAppend tailNode
    brokenConfiguration (.inl rfl) (.inr ?_)⟩
  rw [hanswer]
  exact ⟨_, List.mem_singleton_self _, rfl⟩

end

end Lsmdb.Raft

import Mathlib.Data.List.Basic
import Mathlib.Tactic.Ring

namespace Lsmdb.Queue

open List

/-!
# Draining a queue

A loop that already holds one element reads the queue, without blocking and a bounded number of
times, to gather the elements it selects.  What it does not select it sets aside; a selected
element that does not fit is set aside too and ends the loop.

* `Drain.run_inOrder` — what is gathered and what is set aside keep the order of the queue, and
  nothing is lost or repeated (`InOrder`).
* `InOrder.filter_eq` — a kind of element that is selected as a whole or not at all is handed on
  in the order of the queue.
* `Drain.amid_eq_run` — elements that arrive while the loop reads might as well have been in the
  queue before it began.
-/

variable {ε α S : Type}

/-- A drain: what it selects, and the load `S` that decides when it stops. -/
structure Drain (ε α S : Type) where
  select : ε → Option α
  /-- The condition of the loop. -/
  wants : S → Bool
  fits : S → α → Bool
  add : S → α → S

/-- What a drain returns: what it gathered, what it set aside, and what it left in the queue. -/
structure Haul (ε α : Type) where
  gathered : List α
  others : List ε
  left : List ε

/-- The loop, on a queue nothing is added to; the first argument counts its turns. -/
def Drain.run (D : Drain ε α S) : ℕ → S → List α → List ε → List ε → Haul ε α
  | 0, _, gathered, others, queue => ⟨gathered, others, queue⟩
  | _ + 1, _, gathered, others, [] => ⟨gathered, others, []⟩
  | n + 1, s, gathered, others, x :: queue =>
    if D.wants s then
      match D.select x with
      | none => D.run n s gathered (others ++ [x]) queue
      | some a =>
        if D.fits s a then D.run n (D.add s a) (gathered ++ [a]) others queue
        else ⟨gathered, others ++ [x], queue⟩
    else ⟨gathered, others, x :: queue⟩

/-- The loop, with the elements that join the queue before each read. -/
def Drain.amid (D : Drain ε α S) :
    ℕ → S → List α → List ε → List ε → List (List ε) → Haul ε α
  | 0, _, gathered, others, queue, _ => ⟨gathered, others, queue⟩
  | n + 1, s, gathered, others, queue, arrivals =>
    if D.wants s then
      match queue ++ arrivals.headD [] with
      | [] => ⟨gathered, others, []⟩
      | x :: queue =>
        match D.select x with
        | none => D.amid n s gathered (others ++ [x]) queue arrivals.tail
        | some a =>
          if D.fits s a then D.amid n (D.add s a) (gathered ++ [a]) others queue arrivals.tail
          else ⟨gathered, others ++ [x], queue⟩
    else ⟨gathered, others, queue⟩

/-! ### Nothing lost, nothing reordered -/

/-- **In order**: of the queue, the loop took `body` and `tail`.  What it selects of `body` comes
    behind `held`, the rest of `body` and all of `tail` behind `aside`. -/
def Haul.InOrder (select : ε → Option α) (held : List α) (aside : List ε) (h : Haul ε α)
    (queue : List ε) : Prop :=
  ∃ body tail, queue = body ++ tail ++ h.left
    ∧ h.gathered = held ++ body.filterMap select
    ∧ h.others = aside ++ body.filter (fun x => (select x).isNone) ++ tail

section InOrder
variable {select : ε → Option α} {held : List α} {aside queue : List ε} {h : Haul ε α}

theorem Haul.InOrder.stop (held : List α) (aside queue : List ε) :
    (Haul.mk held aside queue).InOrder select held aside queue :=
  ⟨[], [], by simp⟩

theorem Haul.InOrder.overflow (held : List α) (aside queue : List ε) (x : ε) :
    (Haul.mk held (aside ++ [x]) queue).InOrder select held aside (x :: queue) :=
  ⟨[], [x], by simp⟩

theorem Haul.InOrder.skip {x : ε} (hx : select x = none)
    (h' : h.InOrder select held (aside ++ [x]) queue) :
    h.InOrder select held aside (x :: queue) := by
  obtain ⟨body, tail, hqueue, hgathered, hothers⟩ := h'
  refine ⟨x :: body, tail, by rw [hqueue]; rfl, ?_, ?_⟩
  · rw [hgathered, filterMap_cons_none hx]
  · rw [hothers, filter_cons_of_pos (by rw [hx]; rfl)]
    simp

theorem Haul.InOrder.take {x : ε} {a : α} (hx : select x = some a)
    (h' : h.InOrder select (held ++ [a]) aside queue) :
    h.InOrder select held aside (x :: queue) := by
  obtain ⟨body, tail, hqueue, hgathered, hothers⟩ := h'
  refine ⟨x :: body, tail, by rw [hqueue]; rfl, ?_, ?_⟩
  · rw [hgathered, filterMap_cons_some hx, append_assoc, singleton_append]
  · rw [hothers, filter_cons_of_neg (by rw [hx]; simp)]

/-- What the loop selects of a list, put back. -/
theorem map_filterMap_select {wrap : α → ε} (hwrap : ∀ x a, select x = some a → wrap a = x)
    (xs : List ε) :
    (xs.filterMap select).map wrap = xs.filter (fun x => (select x).isSome) := by
  induction xs with
  | nil => rfl
  | cons x xs ih =>
    cases hx : select x with
    | none =>
      rw [filterMap_cons_none hx, ih, filter_cons_of_neg (by rw [hx]; simp)]
    | some a =>
      rw [filterMap_cons_some hx, map_cons, ih, hwrap x a hx,
        filter_cons_of_pos (by rw [hx]; rfl)]

/-- **Exactly once**: what was gathered, set aside and left are the elements of the queue. -/
theorem Haul.InOrder.perm {wrap : α → ε} (hwrap : ∀ x a, select x = some a → wrap a = x)
    (h' : h.InOrder select held [] queue) :
    ∃ more, h.gathered = held ++ more ∧ (more.map wrap ++ h.others ++ h.left).Perm queue := by
  obtain ⟨body, tail, hqueue, hgathered, hothers⟩ := h'
  refine ⟨_, hgathered, ?_⟩
  rw [map_filterMap_select hwrap, hothers, hqueue, nil_append, ← append_assoc]
  refine Perm.append_right _ (Perm.append_right _ ?_)
  have hnone : (fun x => (select x).isNone) = fun x => !(select x).isSome := by
    funext x
    cases select x <;> rfl
  rw [hnone]
  exact filter_append_perm _ body

/-- A kind of element that is selected as a whole or not at all. -/
def Whole (select : ε → Option α) (p : ε → Bool) : Prop :=
  (∀ x, p x = true → (select x).isSome) ∨ ∀ x, p x = true → select x = none

/-- Of the elements of a whole kind, those selected come before those that are not. -/
theorem Whole.filter_eq {p : ε → Bool} (hp : Whole select p) (xs : List ε) :
    (xs.filter (fun x => (select x).isSome)).filter p
      ++ (xs.filter (fun x => (select x).isNone)).filter p = xs.filter p := by
  rw [filter_filter, filter_filter]
  rcases hp with hall | hnone
  · -- Nothing of the kind was set aside.
    have hs : xs.filter (fun x => p x && (select x).isSome) = xs.filter p := by
      apply filter_congr
      intro x _
      cases hx : p x with
      | false => rfl
      | true => rw [hall x hx]; rfl
    have hn : xs.filter (fun x => p x && (select x).isNone) = [] := by
      apply filter_eq_nil_iff.mpr
      intro x _ hx
      simp only [Bool.and_eq_true] at hx
      have := hall x hx.1
      rw [Option.isNone_iff_eq_none.mp hx.2] at this
      cases this
    rw [hs, hn, append_nil]
  · -- Nothing of the kind was gathered.
    have hs : xs.filter (fun x => p x && (select x).isSome) = [] := by
      apply filter_eq_nil_iff.mpr
      intro x _ hx
      simp only [Bool.and_eq_true] at hx
      rw [hnone x hx.1] at hx
      cases hx.2
    have hn : xs.filter (fun x => p x && (select x).isNone) = xs.filter p := by
      apply filter_congr
      intro x _
      cases hx : p x with
      | false => rfl
      | true => rw [hnone x hx]; rfl
    rw [hs, hn, nil_append]

/-- **A whole kind keeps its order** over what is handed on now and what waits for later. -/
theorem Haul.InOrder.filter_eq {wrap : α → ε} (hwrap : ∀ x a, select x = some a → wrap a = x)
    (h' : h.InOrder select held [] queue) {p : ε → Bool} (hp : Whole select p) :
    (h.gathered.map wrap ++ (h.others ++ h.left)).filter p
      = (held.map wrap ++ queue).filter p := by
  obtain ⟨body, tail, hqueue, hgathered, hothers⟩ := h'
  rw [hgathered, map_append, map_filterMap_select hwrap, hothers, hqueue]
  have hbody := hp.filter_eq body
  simp only [nil_append, filter_append, append_assoc]
  rw [← hbody]
  simp only [append_assoc]

end InOrder

/-! ### Runs -/

section Turns
variable {D : Drain ε α S} {s : S} {x : ε} {a : α} (n : ℕ) (held : List α) (aside queue : List ε)

theorem Drain.run_full (hs : D.wants s = false) :
    D.run n s held aside queue = ⟨held, aside, queue⟩ := by
  cases n with
  | zero => rfl
  | succ n =>
    cases queue with
    | nil => rfl
    | cons x queue => exact if_neg (by rw [hs]; simp)

theorem Drain.run_skip (hs : D.wants s = true) (hx : D.select x = none) :
    D.run (n + 1) s held aside (x :: queue) = D.run n s held (aside ++ [x]) queue := by
  rw [Drain.run, if_pos hs, hx]

theorem Drain.run_take (hs : D.wants s = true) (hx : D.select x = some a)
    (ha : D.fits s a = true) :
    D.run (n + 1) s held aside (x :: queue) = D.run n (D.add s a) (held ++ [a]) aside queue := by
  rw [Drain.run, if_pos hs, hx]
  exact if_pos ha

theorem Drain.run_overflow (hs : D.wants s = true) (hx : D.select x = some a)
    (ha : D.fits s a = false) :
    D.run (n + 1) s held aside (x :: queue) = ⟨held, aside ++ [x], queue⟩ := by
  rw [Drain.run, if_pos hs, hx]
  exact if_neg (by rw [ha]; simp)

end Turns

variable (D : Drain ε α S)

/-- **A drain keeps the order of the queue.** -/
theorem Drain.run_inOrder (n : ℕ) :
    ∀ (s : S) (held : List α) (aside queue : List ε),
      (D.run n s held aside queue).InOrder D.select held aside queue := by
  induction n with
  | zero => intro s held aside queue; exact .stop held aside queue
  | succ n ih =>
    intro s held aside queue
    cases queue with
    | nil => exact .stop held aside []
    | cons x queue =>
      unfold Drain.run
      split
      · split
        · rename_i hx
          exact .skip hx (ih s held _ queue)
        · rename_i a hx
          split
          · exact .take hx (ih _ _ aside queue)
          · exact .overflow held aside queue x
      · exact .stop held aside (x :: queue)

/-- **What gathering keeps**, with the load that goes with it, holds of what is gathered. -/
theorem Drain.run_gathered {I : S → List α → Prop}
    (hadd : ∀ s held a, I s held → D.wants s = true → D.fits s a = true →
      I (D.add s a) (held ++ [a])) (n : ℕ) :
    ∀ (s : S) (held : List α) (aside queue : List ε), I s held →
      ∃ s', I s' (D.run n s held aside queue).gathered := by
  induction n with
  | zero => intro s held aside queue h; exact ⟨s, h⟩
  | succ n ih =>
    intro s held aside queue h
    cases queue with
    | nil => exact ⟨s, h⟩
    | cons x queue =>
      unfold Drain.run
      split
      · rename_i hwants
        split
        · exact ih s held _ queue h
        rename_i a _
        split
        · rename_i hfits
          exact ih _ _ aside queue (hadd s held a h hwants hfits)
        · exact ⟨s, h⟩
      · exact ⟨s, h⟩

private theorem flatten_take_succ (arrivals : List (List ε)) (k : ℕ) :
    (arrivals.take (k + 1)).flatten = arrivals.headD [] ++ (arrivals.tail.take k).flatten := by
  cases arrivals with
  | nil => simp
  | cons xs rest => rfl

/-- **Arrivals during a drain** might as well have come before it: some of them did. -/
theorem Drain.amid_eq_run (n : ℕ) :
    ∀ (s : S) (held : List α) (aside queue : List ε) (arrivals : List (List ε)),
      ∃ k, D.amid n s held aside queue arrivals
        = D.run n s held aside (queue ++ (arrivals.take k).flatten) := by
  induction n with
  | zero =>
    intro s held aside queue arrivals
    exact ⟨0, by simp [Drain.amid, Drain.run]⟩
  | succ n ih =>
    intro s held aside queue arrivals
    unfold Drain.amid
    split
    · rename_i hwants
      split
      · -- The queue is empty at this moment, so nothing has arrived.
        rename_i hnil
        refine ⟨0, ?_⟩
        rw [take_zero, flatten_nil, append_nil, (append_eq_nil_iff.mp hnil).1]
        rfl
      · rename_i x rest hcons
        -- The read sees `x`; later arrivals join behind `rest`.
        have hqueue : ∀ k, queue ++ (arrivals.take (k + 1)).flatten
            = x :: (rest ++ (arrivals.tail.take k).flatten) := by
          intro k
          rw [flatten_take_succ, ← append_assoc, hcons, cons_append]
        split
        · rename_i hx
          obtain ⟨k, hk⟩ := ih s held (aside ++ [x]) rest arrivals.tail
          refine ⟨k + 1, ?_⟩
          rw [hqueue, hk, Drain.run_skip _ _ _ _ hwants hx]
        · rename_i a hx
          split
          · rename_i hfits
            obtain ⟨k, hk⟩ := ih (D.add s a) (held ++ [a]) aside rest arrivals.tail
            refine ⟨k + 1, ?_⟩
            rw [hqueue, hk, Drain.run_take _ _ _ _ hwants hx hfits]
          · rename_i hfits
            refine ⟨1, ?_⟩
            rw [hqueue, Drain.run_overflow _ _ _ _ hwants hx (by simpa using hfits),
              take_zero, flatten_nil, append_nil]
    · rename_i hwants
      refine ⟨0, ?_⟩
      rw [Drain.run_full _ _ _ _ (by simpa using hwants), take_zero, flatten_nil,
        append_nil]

end Lsmdb.Queue

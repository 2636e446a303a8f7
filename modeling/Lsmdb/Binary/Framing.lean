import Mathlib.Data.List.Basic
import Mathlib.Data.List.Infix

namespace Lsmdb.Binary

open List

/-!
# Binary formats — files of framed records

A file that is a sequence of self-delimiting records, read from the start until the first
place where no acceptable record begins.  Whether a record is accepted may depend on the
ones before it, through a reader state.

* `Framing.read_take` — of a file of written records, cut at any byte, the reader gets
  exactly the accepted ones among the records that lie completely before the cut.
* `Framing.read_spec` — of any file at all, the reader gets an accepted sequence of records
  whose encodings start the file.
-/

/-- A record format with a reader: `next s b` is the record the reader takes at the start of
    `b` in state `s`. -/
structure Framing (σ α : Type*) where
  encode : α → List UInt8
  /-- The records whose fields fit their place in the encoding. -/
  Valid : α → Prop
  next : σ → List UInt8 → Option α
  accepts : σ → α → Bool
  advance : σ → α → σ
  encode_ne_nil : ∀ a, encode a ≠ []
  /-- A complete record is taken if it is accepted, whatever follows it. -/
  next_encode : ∀ {a}, Valid a → ∀ s rest,
    next s (encode a ++ rest) = if accepts s a then some a else none
  /-- An incomplete record is never taken. -/
  next_torn : ∀ {a}, Valid a → ∀ s n, n < (encode a).length →
    next s ((encode a).take n) = none
  /-- What is taken is an accepted record, and its encoding is there. -/
  encode_next : ∀ {s b a}, next s b = some a → Valid a ∧ accepts s a ∧ encode a <+: b

namespace Framing

variable {σ α : Type*} (F : Framing σ α)

/-- The records one after the other. -/
def encodeAll (as : List α) : List UInt8 := as.flatMap F.encode

@[simp] theorem encodeAll_nil : F.encodeAll [] = [] := rfl

@[simp] theorem encodeAll_cons (a : α) (as : List α) :
    F.encodeAll (a :: as) = F.encode a ++ F.encodeAll as := rfl

/-- Every record takes room, so a file that holds a longer list is longer. -/
theorem length_encode_pos (a : α) : 0 < (F.encode a).length :=
  length_pos_iff.mpr (F.encode_ne_nil a)

/-- The records read from the start of `b`. -/
def read (s : σ) (b : List UInt8) : List α :=
  match _ : F.next s b with
  | none => []
  | some a => a :: read (F.advance s a) (b.drop (F.encode a).length)
termination_by b.length
decreasing_by
  have hle := (F.encode_next ‹F.next s b = some a›).2.2.length_le
  have hpos := F.length_encode_pos a
  rw [List.length_drop]
  omega

/-- The records at the start of the list that a reader in state `s` accepts. -/
def accepted : σ → List α → List α
  | _, [] => []
  | s, a :: as => if F.accepts s a then a :: accepted (F.advance s a) as else []

/-- The records whose encodings lie completely within the first `n` bytes. -/
def within : ℕ → List α → List α
  | _, [] => []
  | n, a :: as =>
      if (F.encode a).length ≤ n then a :: within (n - (F.encode a).length) as else []

variable {F}

theorem read_of_none {s : σ} {b : List UInt8} (h : F.next s b = none) : F.read s b = [] := by
  rw [read]
  split
  · rfl
  · rename_i a ha
    rw [h] at ha
    simp at ha

theorem read_of_some {s : σ} {b : List UInt8} {a : α} (h : F.next s b = some a) :
    F.read s b = a :: F.read (F.advance s a) (b.drop (F.encode a).length) := by
  rw [read]
  split
  · rename_i ha
    rw [h] at ha
    simp at ha
  · rename_i a' ha
    rw [h] at ha
    rw [Option.some.inj ha]

/-- Nothing is read from an empty file. -/
theorem next_nil (s : σ) : F.next s [] = none := by
  cases h : F.next s [] with
  | none => rfl
  | some a =>
    have hprefix := (F.encode_next h).2.2
    exact absurd (prefix_nil.mp hprefix) (F.encode_ne_nil a)

/-- A complete record at the start is read if it is accepted, and ends the reading if not. -/
theorem read_encode {a : α} (ha : F.Valid a) (s : σ) (rest : List UInt8) :
    F.read s (F.encode a ++ rest)
      = if F.accepts s a then a :: F.read (F.advance s a) rest else [] := by
  have hnext := F.next_encode ha s rest
  by_cases hacc : F.accepts s a
  · rw [if_pos hacc] at hnext ⊢
    rw [read_of_some hnext, drop_left]
  · rw [if_neg hacc] at hnext ⊢
    exact read_of_none hnext

/-- **Reading a file cut at any byte.** -/
theorem read_take (as : List α) (hv : ∀ a ∈ as, F.Valid a) :
    ∀ (s : σ) (n : ℕ), F.read s ((F.encodeAll as).take n) = F.accepted s (F.within n as) := by
  induction as with
  | nil =>
    intro s n
    rw [encodeAll_nil, take_nil]
    exact read_of_none (next_nil s)
  | cons a as ih =>
    intro s n
    have ha := hv a (by simp)
    rw [encodeAll_cons, within]
    by_cases hn : (F.encode a).length ≤ n
    · rw [if_pos hn, take_append, take_of_length_le hn, read_encode ha, accepted,
        ih (fun x hx => hv x (by simp [hx]))]
    · -- the cut falls inside this record
      rw [if_neg hn, take_append_of_le_length (by omega)]
      exact read_of_none (F.next_torn ha s n (by omega))

theorem within_of_length_le {as : List α} :
    ∀ {n : ℕ}, (F.encodeAll as).length ≤ n → F.within n as = as := by
  induction as with
  | nil => intro n _; rfl
  | cons a as ih =>
    intro n h
    rw [encodeAll_cons, length_append] at h
    rw [within, if_pos (by omega), ih (by omega)]

theorem within_append {as bs : List α} :
    ∀ {n : ℕ}, (F.encodeAll as).length ≤ n →
      F.within n (as ++ bs) = as ++ F.within (n - (F.encodeAll as).length) bs := by
  induction as with
  | nil => intro n _; simp
  | cons a as ih =>
    intro n h
    rw [encodeAll_cons, length_append] at h
    rw [cons_append, within, if_pos (by omega), ih (by omega), encodeAll_cons,
      length_append, Nat.sub_sub]
    rfl

theorem within_isPrefix (as : List α) : ∀ n, F.within n as <+: as := by
  induction as with
  | nil => intro n; exact prefix_rfl
  | cons a as ih =>
    intro n
    rw [within]
    split
    · exact (prefix_cons_inj a).mpr (ih _)
    · exact nil_prefix

/-- The records a cut at byte `n` leaves are the first `m`, where `m` is the largest number of
    records that fit. -/
theorem within_eq_take (as : List α) :
    ∀ n, ∃ m ≤ as.length, F.within n as = as.take m
      ∧ ∀ k ≤ as.length, (F.encodeAll (as.take k)).length ≤ n ↔ k ≤ m := by
  induction as with
  | nil => intro n; exact ⟨0, le_refl _, rfl, fun k hk => by simpa using hk⟩
  | cons a as ih =>
    intro n
    rw [within]
    by_cases hn : (F.encode a).length ≤ n
    · obtain ⟨m, hm, hwithin, hfit⟩ := ih (n - (F.encode a).length)
      refine ⟨m + 1, by simpa using hm, by rw [if_pos hn, hwithin, take_succ_cons], ?_⟩
      intro k hk
      cases k with
      | zero => simp
      | succ k =>
        have := hfit k (by simpa using hk)
        rw [take_succ_cons, encodeAll_cons, length_append]
        omega
    · refine ⟨0, Nat.zero_le _, by rw [if_neg hn, take_zero], ?_⟩
      intro k _
      cases k with
      | zero => simp
      | succ k =>
        rw [take_succ_cons, encodeAll_cons, length_append]
        omega

/-- Which records are accepted depends on the checks of the reader only. -/
theorem accepted_congr {G : Framing σ α} (hacc : ∀ s a, F.accepts s a = G.accepts s a)
    (hadv : ∀ s a, F.advance s a = G.advance s a) (as : List α) :
    ∀ s, F.accepted s as = G.accepted s as := by
  induction as with
  | nil => intro s; rfl
  | cons a as ih =>
    intro s
    rw [accepted, accepted, hacc, hadv, ih]

theorem accepted_isPrefix (as : List α) : ∀ s, F.accepted s as <+: as := by
  induction as with
  | nil => intro s; exact prefix_rfl
  | cons a as ih =>
    intro s
    rw [accepted]
    split
    · exact (prefix_cons_inj a).mpr (ih _)
    · exact nil_prefix

/-- **Reading a whole file of records.** -/
theorem read_encodeAll {as : List α} (hv : ∀ a ∈ as, F.Valid a) (s : σ) :
    F.read s (F.encodeAll as) = F.accepted s as := by
  have h := read_take as hv s (F.encodeAll as).length
  rwa [take_length, within_of_length_le (le_refl _)] at h

/-- **Reading any file**: an accepted sequence of records that starts the file. -/
theorem read_spec (s : σ) (b : List UInt8) :
    (∀ a ∈ F.read s b, F.Valid a) ∧ F.accepted s (F.read s b) = F.read s b
      ∧ F.encodeAll (F.read s b) <+: b := by
  induction hn : b.length using Nat.strong_induction_on generalizing s b with
  | _ n ih =>
    cases h : F.next s b with
    | none =>
      rw [read_of_none h]
      exact ⟨by simp, rfl, nil_prefix⟩
    | some a =>
      obtain ⟨hvalid, hacc, rest, hb⟩ := F.encode_next h
      have hpos := F.length_encode_pos a
      have hdrop : b.drop (F.encode a).length = rest := by rw [← hb, drop_left]
      have hlt : rest.length < n := by
        rw [← hn, ← hb, length_append]
        omega
      obtain ⟨hv, ha, hp⟩ := ih rest.length hlt (F.advance s a) rest rfl
      rw [read_of_some h, hdrop]
      refine ⟨?_, ?_, ?_⟩
      · rintro x (_ | ⟨_, hx⟩)
        · exact hvalid
        · exact hv x hx
      · rw [accepted, if_pos hacc, ha]
      · rw [encodeAll_cons, ← hb]
        exact (prefix_append_right_inj _).mpr hp

end Framing

end Lsmdb.Binary

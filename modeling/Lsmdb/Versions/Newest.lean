import Mathlib.Order.Lattice
import Mathlib.Data.List.Induction
import Mathlib.Algebra.Order.Group.Nat
import Mathlib.Tactic.Ring

namespace Lsmdb.Versions

open List

/-!
# Records with versions

A record has a key and a version number; of several records of one key the one with the
highest number counts.  Tables are lists in strictly ascending key order.

* `setNewer` — a table updated by a record, unless it holds a newer one.
* `newest` — the table of the newest record of every key (`find_newest_iff`).
* `findFirst` — the first table of a list that has the key.  On tables that are `Layered`,
  every one newer than all that follow, this is the newest record
  (`findFirst_eq_find_newest`).
-/

/-- What the development needs to know of a type of records. -/
class Versioned (α : Type*) (K : outParam (Type*)) where
  key : α → K
  seq : α → ℕ

export Versioned (key seq)

variable {α K : Type*} [LinearOrder K] [Versioned α K]

/-- The keys of the table increase strictly. -/
def Ascending (xs : List α) : Prop := xs.Pairwise fun a b => key a < key b

/-- The record of key `k`. -/
def find (k : K) (xs : List α) : Option α := xs.find? fun r => decide (key r = k)

/-- `xs` with `r`, unless `xs` has a record of the same key that is at least as new. -/
def setNewer (r : α) : List α → List α
  | [] => [r]
  | x :: xs =>
      if key r < key x then r :: x :: xs
      else if key r = key x then (if seq x < seq r then r else x) :: xs
      else x :: setNewer r xs

/-- The newest records of `rs`, in key order. -/
def newest (rs : List α) : List α := rs.foldl (fun xs r => setNewer r xs) []

/-! ### Looking up a key -/

@[simp] theorem find_nil (k : K) : find k ([] : List α) = none := rfl

theorem find_cons (k : K) (x : α) (xs : List α) :
    find k (x :: xs) = if key x = k then some x else find k xs := by
  unfold find
  rw [find?_cons]
  by_cases h : key x = k <;> simp [h]

theorem find_some {k : K} {xs : List α} {r : α} (h : find k xs = some r) :
    r ∈ xs ∧ key r = k := by
  unfold find at h
  exact ⟨mem_of_find?_eq_some h, by simpa using find?_some h⟩

theorem find_eq_none {k : K} {xs : List α} : find k xs = none ↔ ∀ r ∈ xs, key r ≠ k := by
  simp [find]

theorem Ascending.find_mem {xs : List α} (hxs : Ascending xs) {r : α} (hr : r ∈ xs) :
    find (key r) xs = some r := by
  induction xs with
  | nil => simp at hr
  | cons x xs ih =>
    obtain ⟨hhead, htail⟩ := pairwise_cons.mp hxs
    rw [find_cons]
    rcases mem_cons.mp hr with rfl | hr
    · rw [if_pos rfl]
    · rw [if_neg (hhead r hr).ne]
      exact ih htail hr

theorem Ascending.find_iff {xs : List α} (hxs : Ascending xs) {k : K} {r : α} :
    find k xs = some r ↔ r ∈ xs ∧ key r = k := by
  refine ⟨find_some, ?_⟩
  rintro ⟨hr, rfl⟩
  exact hxs.find_mem hr

/-- Two tables that answer alike are the same table. -/
theorem Ascending.ext {xs ys : List α} (hxs : Ascending xs) (hys : Ascending ys)
    (h : ∀ r, r ∈ xs ↔ r ∈ ys) : xs = ys := by
  induction xs generalizing ys with
  | nil =>
    cases ys with
    | nil => rfl
    | cons y ys => exact absurd ((h y).mpr mem_cons_self) (by simp)
  | cons x xs ih =>
    cases ys with
    | nil => exact absurd ((h x).mp mem_cons_self) (by simp)
    | cons y ys =>
      obtain ⟨hx, hxtail⟩ := pairwise_cons.mp hxs
      obtain ⟨hy, hytail⟩ := pairwise_cons.mp hys
      -- The heads are the smallest keys of one and the same set of records.
      have hxy : x = y := by
        rcases mem_cons.mp ((h x).mp mem_cons_self) with rfl | hmem
        · rfl
        · rcases mem_cons.mp ((h y).mpr mem_cons_self) with rfl | hmem'
          · rfl
          · exact absurd (hx y hmem') (hy x hmem).asymm
      subst hxy
      congr 1
      refine ih hxtail hytail fun r => ⟨fun hr => ?_, fun hr => ?_⟩
      · rcases mem_cons.mp ((h r).mp (mem_cons_of_mem _ hr)) with rfl | hr'
        · exact absurd (hx r hr) (lt_irrefl _)
        · exact hr'
      · rcases mem_cons.mp ((h r).mpr (mem_cons_of_mem _ hr)) with rfl | hr'
        · exact absurd (hy r hr) (lt_irrefl _)
        · exact hr'

theorem Ascending.filter {xs : List α} (hxs : Ascending xs) (p : α → Bool) :
    Ascending (xs.filter p) := List.Pairwise.filter p hxs

/-! ### Updates -/

theorem mem_setNewer {r x : α} {xs : List α} (h : x ∈ setNewer r xs) : x = r ∨ x ∈ xs := by
  induction xs with
  | nil => exact Or.inl (by simpa [setNewer] using h)
  | cons y ys ih =>
    unfold setNewer at h
    split at h
    · simpa using h
    split at h
    · rcases mem_cons.mp h with h | h
      · split at h <;> simp [h]
      · exact Or.inr (mem_cons_of_mem _ h)
    · rcases mem_cons.mp h with h | h
      · exact Or.inr (by simp [h])
      · exact (ih h).imp_right (mem_cons_of_mem _)

theorem Ascending.setNewer {xs : List α} (hxs : Ascending xs) (r : α) :
    Ascending (setNewer r xs) := by
  induction xs with
  | nil => exact pairwise_singleton _ _
  | cons x xs ih =>
    obtain ⟨hx, htail⟩ := pairwise_cons.mp hxs
    unfold Versions.setNewer
    split
    next hlt =>
      refine pairwise_cons.mpr ⟨fun y hy => ?_, hxs⟩
      rcases mem_cons.mp hy with rfl | hy
      · exact hlt
      · exact hlt.trans (hx y hy)
    next hlt =>
      split
      next heq =>
        refine pairwise_cons.mpr ⟨fun y hy => ?_, htail⟩
        split
        · rw [heq]
          exact hx y hy
        · exact hx y hy
      next hne =>
        refine pairwise_cons.mpr ⟨fun y hy => ?_, ih htail⟩
        rcases mem_setNewer hy with rfl | hy
        · exact lt_of_le_of_ne (not_lt.mp hlt) (Ne.symm hne)
        · exact hx y hy

/-- What an update leaves for the key of `r`, given the record the table had. -/
def newer : Option α → α → α
  | none, r => r
  | some x, r => if seq x < seq r then r else x

theorem find_setNewer {xs : List α} (hxs : Ascending xs) (r : α) (k : K) :
    find k (setNewer r xs) = if key r = k then some (newer (find k xs) r) else find k xs := by
  induction xs with
  | nil => simp [setNewer, find_cons, newer]
  | cons x xs ih =>
    obtain ⟨hx, htail⟩ := pairwise_cons.mp hxs
    unfold setNewer
    split
    next hlt =>
      rw [find_cons]
      split
      next hk =>
        -- The key is below all keys of the table.
        have : find k (x :: xs) = none := find_eq_none.mpr fun y hy => by
          rw [← hk]
          rcases mem_cons.mp hy with rfl | hy
          · exact hlt.ne'
          · exact (hlt.trans (hx y hy)).ne'
        rw [this, newer]
      next => rfl
    next hlt =>
      split
      next heq =>
        rw [find_cons, find_cons]
        have hk : key (if seq x < seq r then r else x) = key r := by
          split
          · rfl
          · exact heq.symm
        rw [hk, ← heq]
        split
        · rfl
        · rfl
      next hne =>
        rw [find_cons, find_cons, ih htail]
        split
        next hk => rw [if_neg fun h => hne (h.trans hk.symm)]
        next => rfl

/-! ### Records of one number -/

private theorem find_foldl_kept {xs rs : List α} (hxs : Ascending xs) {k : K} {x : α}
    (hx : find k xs = some x) (hrs : ∀ r ∈ rs, seq r ≤ seq x) :
    find k (rs.foldl (fun xs r => setNewer r xs) xs) = some x := by
  induction rs generalizing xs with
  | nil => exact hx
  | cons r rs ih =>
    refine ih (hxs.setNewer r) ?_ fun y hy => hrs y (mem_cons_of_mem _ hy)
    rw [find_setNewer hxs, hx]
    split
    · rw [newer, if_neg (Nat.not_lt.mpr (hrs r mem_cons_self))]
    · rfl

/-- **Of records with one number the first stays**, if the table has only older ones. -/
theorem find_foldl_setNewer {xs rs : List α} (hxs : Ascending xs) {n : ℕ}
    (hold : ∀ x ∈ xs, seq x < n) (hrs : ∀ r ∈ rs, seq r = n) (k : K) :
    find k (rs.foldl (fun xs r => setNewer r xs) xs) = (find k rs).or (find k xs) := by
  have hfound : ∀ x, find k xs = some x → seq x < n := fun x hx => hold x (find_some hx).1
  clear hold
  induction rs generalizing xs with
  | nil => rfl
  | cons r rs ih =>
    have hrest : ∀ y ∈ rs, seq y = n := fun y hy => hrs y (mem_cons_of_mem _ hy)
    have hr : seq r = n := hrs r mem_cons_self
    have hset := find_setNewer hxs r k
    rw [foldl_cons, find_cons]
    by_cases hk : key r = k
    · -- the record is newer than what is there, and not older than what follows
      have hnewer : newer (find k xs) r = r := by
        cases hf : find k xs with
        | none => rfl
        | some x => rw [newer, if_pos (hr ▸ hfound x hf)]
      rw [if_pos hk, hnewer] at hset
      rw [if_pos hk]
      exact find_foldl_kept (hxs.setNewer r) hset fun y hy => ((hrest y hy).trans hr.symm).le
    · rw [if_neg hk] at hset
      rw [if_neg hk, ih (hxs.setNewer r) hrest fun x hx => hfound x (hset ▸ hx), hset]

/-! ### The newest records -/

theorem newest_append (rs : List α) (r : α) :
    newest (rs ++ [r]) = setNewer r (newest rs) := by
  simp [newest]

theorem ascending_newest (rs : List α) : Ascending (newest rs) := by
  induction rs using reverseRecOn with
  | nil => exact Pairwise.nil
  | append_singleton rs r ih =>
    rw [newest_append]
    exact ih.setNewer r

/-- `r` is the newest of the records of key `k`. -/
def IsNewest (rs : List α) (k : K) (r : α) : Prop :=
  r ∈ rs ∧ key r = k ∧ ∀ x ∈ rs, key x = k → seq x ≤ seq r

/-- No two records of one key have the same number. -/
def Separate (rs : List α) : Prop :=
  ∀ a ∈ rs, ∀ b ∈ rs, key a = key b → seq a = seq b → a = b

omit [LinearOrder K] in
theorem IsNewest.unique {rs : List α} (hrs : Separate rs) {k : K} {a b : α}
    (ha : IsNewest rs k a) (hb : IsNewest rs k b) : a = b := by
  obtain ⟨ha, hak, hamax⟩ := ha
  obtain ⟨hb, hbk, hbmax⟩ := hb
  have h1 := hamax b hb hbk
  have h2 := hbmax a ha hak
  exact hrs a ha b hb (hak.trans hbk.symm) (by omega)

theorem find_newest_none {rs : List α} {k : K} :
    find k (newest rs) = none ↔ ∀ r ∈ rs, key r ≠ k := by
  induction rs using reverseRecOn with
  | nil => simp [newest]
  | append_singleton rs r ih =>
    rw [newest_append, find_setNewer (ascending_newest rs)]
    split
    next hk => simp [hk]
    next hk =>
      rw [ih]
      simp only [mem_append, mem_singleton]
      constructor
      · rintro h x (hx | rfl)
        · exact h x hx
        · exact hk
      · exact fun h x hx => h x (Or.inl hx)

theorem find_newest_some {rs : List α} {k : K} {r : α} (h : find k (newest rs) = some r) :
    IsNewest rs k r := by
  induction rs using reverseRecOn generalizing r with
  | nil => simp [newest] at h
  | append_singleton rs a ih =>
    rw [newest_append, find_setNewer (ascending_newest rs)] at h
    split at h
    next hk =>
      cases hf : find k (newest rs) with
      | none =>
        rw [hf, newer, Option.some.injEq] at h
        subst h
        refine ⟨by simp, hk, fun x hx hxk => ?_⟩
        rcases mem_append.mp hx with hx | hx
        · exact absurd hxk (find_newest_none.mp hf x hx)
        · rw [mem_singleton.mp hx]
      | some b =>
        obtain ⟨hb, hbk, hbmax⟩ := ih hf
        rw [hf, newer, Option.some.injEq] at h
        split at h
        next hlt =>
          subst h
          refine ⟨by simp, hk, fun x hx hxk => ?_⟩
          rcases mem_append.mp hx with hx | hx
          · exact (hbmax x hx hxk).trans hlt.le
          · rw [mem_singleton.mp hx]
        next hlt =>
          subst h
          refine ⟨mem_append_left _ hb, hbk, fun x hx hxk => ?_⟩
          rcases mem_append.mp hx with hx | hx
          · exact hbmax x hx hxk
          · rw [mem_singleton.mp hx]
            exact not_lt.mp hlt
    next hk =>
      obtain ⟨hr, hrk, hmax⟩ := ih h
      refine ⟨mem_append_left _ hr, hrk, fun x hx hxk => ?_⟩
      rcases mem_append.mp hx with hx | hx
      · exact hmax x hx hxk
      · rw [mem_singleton] at hx
        exact absurd (hx ▸ hxk) hk

/-- **`newest` holds the newest record of every key.** -/
theorem find_newest_iff {rs : List α} (hrs : Separate rs) {k : K} {r : α} :
    find k (newest rs) = some r ↔ IsNewest rs k r := by
  refine ⟨find_newest_some, fun h => ?_⟩
  cases hf : find k (newest rs) with
  | none => exact absurd h.2.1 (find_newest_none.mp hf r h.1)
  | some x => rw [(find_newest_some hf).unique hrs h]

theorem mem_newest {rs : List α} (hrs : Separate rs) {r : α} :
    r ∈ newest rs ↔ IsNewest rs (key r) r := by
  rw [← find_newest_iff hrs, (ascending_newest rs).find_iff]
  simp

theorem mem_of_mem_newest {rs : List α} {r : α} (h : r ∈ newest rs) : r ∈ rs :=
  (find_newest_some ((ascending_newest rs).find_mem h)).1

/-- A table in key order is its own table of newest records. -/
theorem Ascending.separate {xs : List α} (hxs : Ascending xs) : Separate xs := by
  intro a ha b hb hk _
  have h := hxs.find_mem ha
  rw [hk, hxs.find_mem hb, Option.some.injEq] at h
  exact h.symm

/-- Choosing among the records by their key commutes with taking the newest. -/
theorem newest_filter {rs : List α} (hrs : Separate rs) {p : α → Bool}
    (hp : ∀ a b : α, key a = key b → p a = p b) : newest (rs.filter p) = (newest rs).filter p := by
  have hsep : Separate (rs.filter p) := fun a ha b hb =>
    hrs a (mem_filter.mp ha).1 b (mem_filter.mp hb).1
  refine (ascending_newest _).ext ((ascending_newest rs).filter p) fun r => ?_
  rw [mem_filter, mem_newest hsep, mem_newest hrs]
  constructor
  · rintro ⟨hr, -, hmax⟩
    obtain ⟨hr, hpr⟩ := mem_filter.mp hr
    refine ⟨⟨hr, rfl, fun x hx hk => ?_⟩, hpr⟩
    exact hmax x (mem_filter.mpr ⟨hx, (hp x r hk).trans hpr⟩) hk
  · rintro ⟨⟨hr, -, hmax⟩, hpr⟩
    exact ⟨mem_filter.mpr ⟨hr, hpr⟩, rfl,
      fun x hx hk => hmax x (mem_filter.mp hx).1 hk⟩

/-! ### Several tables, newest first -/

/-- Every record of a table is newer than all records of the tables behind it. -/
def Layered (tables : List (List α)) : Prop :=
  tables.Pairwise fun front back => ∀ r ∈ front, ∀ x ∈ back, seq x < seq r

/-- The record of `k` in the first table that has one. -/
def findFirst (k : K) : List (List α) → Option α
  | [] => none
  | xs :: tables =>
      match find k xs with
      | some r => some r
      | none => findFirst k tables

theorem separate_flatten {tables : List (List α)} (hasc : ∀ xs ∈ tables, Ascending xs)
    (hlay : Layered tables) : Separate tables.flatten := by
  induction tables with
  | nil => simp [Separate]
  | cons xs tables ih =>
    obtain ⟨hfront, hlay⟩ := pairwise_cons.mp hlay
    have ih := ih (fun ys h => hasc ys (mem_cons_of_mem _ h)) hlay
    intro a ha b hb hk hs
    simp only [flatten_cons, mem_append, mem_flatten] at ha hb
    rcases ha with ha | ⟨ys, hys, ha⟩ <;> rcases hb with hb | ⟨zs, hzs, hb⟩
    · exact (hasc xs mem_cons_self).separate a ha b hb hk hs
    · exact absurd hs (hfront zs hzs a ha b hb).ne'
    · exact absurd hs (hfront ys hys b hb a ha).ne
    · exact ih a (mem_flatten.mpr ⟨ys, hys, ha⟩) b (mem_flatten.mpr ⟨zs, hzs, hb⟩) hk hs

theorem findFirst_none {tables : List (List α)} {k : K} :
    findFirst k tables = none ↔ ∀ r ∈ tables.flatten, key r ≠ k := by
  induction tables with
  | nil => simp [findFirst]
  | cons xs tables ih =>
    unfold findFirst
    cases hf : find k xs with
    | none =>
      show findFirst k tables = none ↔ _
      rw [ih]
      simp only [flatten_cons, mem_append]
      constructor
      · rintro h r (hr | hr)
        · exact find_eq_none.mp hf r hr
        · exact h r hr
      · exact fun h r hr => h r (Or.inr hr)
    | some r =>
      obtain ⟨hr, hk⟩ := find_some hf
      simp only [reduceCtorEq, flatten_cons, mem_append, false_iff, not_forall]
      exact ⟨r, Or.inl hr, by simpa using hk⟩

theorem findFirst_some {tables : List (List α)} (hasc : ∀ xs ∈ tables, Ascending xs)
    (hlay : Layered tables) {k : K} {r : α} (h : findFirst k tables = some r) :
    IsNewest tables.flatten k r := by
  induction tables with
  | nil => simp [findFirst] at h
  | cons xs tables ih =>
    obtain ⟨hfront, hlay⟩ := pairwise_cons.mp hlay
    unfold findFirst at h
    cases hf : find k xs with
    | some x =>
      rw [hf, Option.some.injEq] at h
      subst h
      obtain ⟨hx, hk⟩ := find_some hf
      refine ⟨by simp [hx], hk, fun y hy hyk => ?_⟩
      simp only [flatten_cons, mem_append, mem_flatten] at hy
      rcases hy with hy | ⟨ys, hys, hy⟩
      · have := (hasc xs mem_cons_self).find_mem hy
        rw [hyk, hf, Option.some.injEq] at this
        exact this ▸ le_rfl
      · exact (hfront ys hys x hx y hy).le
    | none =>
      rw [hf] at h
      obtain ⟨hr, hk, hmax⟩ := ih (fun ys h => hasc ys (mem_cons_of_mem _ h)) hlay h
      refine ⟨by simp [hr], hk, fun y hy hyk => ?_⟩
      simp only [flatten_cons, mem_append] at hy
      rcases hy with hy | hy
      · exact absurd hyk (find_eq_none.mp hf y hy)
      · exact hmax y hy hyk

/-- **The first hit is the newest record**, on tables in layers. -/
theorem findFirst_eq_find_newest {tables : List (List α)} (hasc : ∀ xs ∈ tables, Ascending xs)
    (hlay : Layered tables) (k : K) : findFirst k tables = find k (newest tables.flatten) := by
  cases hf : findFirst k tables with
  | none => exact (find_newest_none.mpr (findFirst_none.mp hf)).symm
  | some r =>
    exact ((find_newest_iff (separate_flatten hasc hlay)).mpr (findFirst_some hasc hlay hf)).symm

end Lsmdb.Versions

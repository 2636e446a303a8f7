import Lsmdb.Versions.Newest

namespace Lsmdb.Versions

/-!
# Merging tables through a priority queue

The K-way merge keeps a cursor into every table on a min-heap, ordered by key and, for one
key, by descending number.  A cursor is kept as its record and the records behind it.  The
heap is only known to give out a least element (`pop`).

* `merge` pops a winner, drains the other records of its key, and goes on; `Merges` says the
  same of any queue that gives out a least element.
* `Merges.eq_newest` — on tables in key order that hold no number of a key twice, the winners
  are the newest records; `merge_seed` is the case of `merge`.
-/

variable {α K : Type*} [LinearOrder K] [Versioned α K]

/-- `Less` of the heap. -/
def less (a b : α) : Bool := decide (key a < key b ∨ key a = key b ∧ seq b < seq a)

/-- `Pop`: a cursor whose record is least, and the other cursors. -/
def pop : List (α × List α) → Option ((α × List α) × List (α × List α))
  | [] => none
  | c :: q =>
      match pop q with
      | none => some (c, [])
      | some (m, rest) => if less m.1 c.1 then some (m, c :: rest) else some (c, q)

/-- `Push` of the cursor at the start of `rs`, if there is a record left. -/
def push : List α → List (α × List α) → List (α × List α)
  | [], q => q
  | r :: rs, q => (r, rs) :: q

/-- All records a queue still stands for. -/
def records (q : List (α × List α)) : List α := q.flatMap fun c => c.1 :: c.2

/-! ### The order of the queue -/

/-- `a` may be popped before `b`. -/
def Before (a b : α) : Prop := key a < key b ∨ key a = key b ∧ seq b ≤ seq a

theorem less_eq_false {a b : α} : less b a = false ↔ Before a b := by
  unfold less Before
  rw [decide_eq_false_iff_not]
  constructor
  · intro h
    rcases lt_trichotomy (key a) (key b) with hk | hk | hk
    · exact Or.inl hk
    · exact Or.inr ⟨hk, not_lt.mp fun hs => h (Or.inr ⟨hk.symm, hs⟩)⟩
    · exact absurd (Or.inl hk) h
  · rintro (hk | ⟨hk, hs⟩) (hk' | ⟨hk', hs'⟩)
    · exact hk.asymm hk'
    · exact hk.ne hk'.symm
    · exact hk'.ne hk.symm
    · omega

theorem Before.trans {a b c : α} (hab : Before a b) (hbc : Before b c) : Before a c := by
  rcases hab with hab | ⟨hab, hs⟩ <;> rcases hbc with hbc | ⟨hbc, hs'⟩
  · exact Or.inl (hab.trans hbc)
  · exact Or.inl (hbc ▸ hab)
  · exact Or.inl (hab ▸ hbc)
  · exact Or.inr ⟨hab.trans hbc, hs'.trans hs⟩

theorem Before.of_less {a b : α} (h : less a b = true) : Before a b := by
  unfold less at h
  rw [decide_eq_true_iff] at h
  exact h.imp_right fun ⟨hk, hs⟩ => ⟨hk, hs.le⟩

theorem Before.refl (a : α) : Before a a := Or.inr ⟨rfl, le_rfl⟩

theorem Before.key_le {a b : α} (h : Before a b) : key a ≤ key b := by
  rcases h with h | ⟨h, -⟩
  · exact h.le
  · exact h.le

theorem pop_none {q : List (α × List α)} (h : pop q = none) : q = [] := by
  cases q with
  | nil => rfl
  | cons c q =>
    unfold pop at h
    split at h
    · simp at h
    · split at h <;> simp at h

/-- **`pop` takes out a least cursor.** -/
theorem pop_some {q : List (α × List α)} {m : α × List α} {rest : List (α × List α)}
    (h : pop q = some (m, rest)) : (m :: rest).Perm q ∧ ∀ c ∈ q, Before m.1 c.1 := by
  induction q generalizing m rest with
  | nil => simp [pop] at h
  | cons c q ih =>
    unfold pop at h
    split at h
    next hq =>
      obtain ⟨rfl, rfl⟩ : c = m ∧ [] = rest := by simpa using h
      obtain rfl := pop_none hq
      refine ⟨List.Perm.refl _, fun x hx => ?_⟩
      rw [List.mem_singleton.mp hx]
      exact Before.refl _
    next m' rest' hq =>
      obtain ⟨hperm, hleast⟩ := ih hq
      split at h
      next hless =>
        obtain ⟨rfl, rfl⟩ : m' = m ∧ c :: rest' = rest := by simpa using h
        refine ⟨(List.Perm.swap c m' rest').trans (hperm.cons c), fun x hx => ?_⟩
        rcases List.mem_cons.mp hx with rfl | hx
        · exact Before.of_less hless
        · exact hleast x hx
      next hless =>
        obtain ⟨rfl, rfl⟩ : c = m ∧ q = rest := by simpa using h
        refine ⟨List.Perm.refl _, fun x hx => ?_⟩
        rcases List.mem_cons.mp hx with rfl | hx
        · exact Before.refl _
        · have hcm : Before c.1 m'.1 := less_eq_false.mp (by simpa using hless)
          exact hcm.trans (hleast x hx)

/-! ### The merge -/

/-- The number of records left. -/
def weight (q : List (α × List α)) : ℕ := (q.map fun c => c.2.length + 1).sum

theorem weight_push (rs : List α) (q : List (α × List α)) :
    weight (push rs q) = rs.length + weight q := by
  cases rs with
  | nil => simp [push]
  | cons r rs => simp [push, weight]

theorem weight_perm {q q' : List (α × List α)} (h : q.Perm q') : weight q = weight q' :=
  (h.map _).sum_nat

theorem weight_pop {q : List (α × List α)} {m : α × List α} {rest : List (α × List α)}
    (h : pop q = some (m, rest)) : weight q = weight (push m.2 rest) + 1 := by
  have : weight (m :: rest) = m.2.length + 1 + weight rest := by simp [weight]
  rw [← weight_perm (pop_some h).1, weight_push]
  omega

/-- The inner loop: all records of key `k` at the front of the queue are dropped. -/
def drain (k : K) (q : List (α × List α)) : List (α × List α) :=
  match _h : pop q with
  | none => q
  | some (m, rest) => if key m.1 = k then drain k (push m.2 rest) else q
termination_by weight q
decreasing_by
  have := weight_pop _h
  omega

theorem weight_drain (k : K) (q : List (α × List α)) : weight (drain k q) ≤ weight q := by
  fun_induction drain k q with
  | case1 q h => exact le_rfl
  | case2 q m rest h hk ih =>
    have := weight_pop h
    omega
  | case3 q m rest h hk => exact le_rfl

/-- The outer loop: the winners, in the order in which they are popped. -/
def merge (q : List (α × List α)) : List α :=
  match _h : pop q with
  | none => []
  | some (m, rest) => m.1 :: merge (drain (key m.1) (push m.2 rest))
termination_by weight q
decreasing_by
  have h1 := weight_pop _h
  have h2 := weight_drain (key m.1) (push m.2 rest)
  omega

/-- The queue a merge starts from. -/
def seed (tables : List (List α)) : List (α × List α) :=
  tables.foldl (fun q xs => push xs q) []

/-! ### Any queue -/

/-- `m` is a least cursor of `q` and `rest` are the others. -/
structure Pops (q : List (α × List α)) (m : α × List α) (rest : List (α × List α)) : Prop where
  perm : (m :: rest).Perm q
  least : ∀ c ∈ q, Before m.1 c.1

/-- The inner loop on a queue that may keep its cursors in any order. -/
inductive Drains (k : K) : List (α × List α) → List (α × List α) → Prop where
  | empty : Drains k [] []
  | stop {q m rest} (pops : Pops q m rest) (hk : key m.1 ≠ k) : Drains k q q
  | more {q m rest q₁ q'} (pops : Pops q m rest) (hk : key m.1 = k)
      (pushed : q₁.Perm (push m.2 rest)) (next : Drains k q₁ q') : Drains k q q'

/-- The outer loop on such a queue. -/
inductive Merges : List (α × List α) → List α → Prop where
  | done : Merges [] []
  | win {q m rest q₁ q₂ out} (pops : Pops q m rest) (pushed : q₁.Perm (push m.2 rest))
      (drained : Drains (key m.1) q₁ q₂) (next : Merges q₂ out) : Merges q (m.1 :: out)

theorem drains_drain (k : K) (q : List (α × List α)) : Drains k q (drain k q) := by
  fun_induction drain k q with
  | case1 q h =>
    rw [pop_none h]
    exact .empty
  | case2 q m rest h hk ih =>
    obtain ⟨hperm, hleast⟩ := pop_some h
    exact .more ⟨hperm, hleast⟩ hk (.refl _) ih
  | case3 q m rest h hk =>
    obtain ⟨hperm, hleast⟩ := pop_some h
    exact .stop ⟨hperm, hleast⟩ hk

theorem merges_merge (q : List (α × List α)) : Merges q (merge q) := by
  fun_induction merge q with
  | case1 q h =>
    rw [pop_none h]
    exact .done
  | case2 q m rest h ih =>
    obtain ⟨hperm, hleast⟩ := pop_some h
    exact .win ⟨hperm, hleast⟩ (.refl _) (drains_drain _ _) ih

/-! ### What the queue stands for -/

/-- Every cursor stands in a table in key order. -/
def Ready (q : List (α × List α)) : Prop := ∀ c ∈ q, Ascending (c.1 :: c.2)

theorem mem_records {q : List (α × List α)} {r : α} :
    r ∈ records q ↔ ∃ c ∈ q, r = c.1 ∨ r ∈ c.2 := by
  simp [records]

theorem mem_records_push {rs : List α} {q : List (α × List α)} {r : α} :
    r ∈ records (push rs q) ↔ r ∈ rs ∨ r ∈ records q := by
  cases rs with
  | nil => simp [push]
  | cons x xs => simp [push, records, or_assoc]

theorem mem_records_perm {q q' : List (α × List α)} (h : q.Perm q') {r : α} :
    r ∈ records q ↔ r ∈ records q' := by
  simp only [mem_records, h.mem_iff]

theorem Ready.perm {q q' : List (α × List α)} (hq : Ready q) (h : q'.Perm q) : Ready q' :=
  fun c hc => hq c (h.mem_iff.mp hc)

theorem Ready.push {rs : List α} {q : List (α × List α)} (hrs : Ascending rs) (hq : Ready q) :
    Ready (push rs q) := by
  cases rs with
  | nil => exact hq
  | cons x xs =>
    intro c hc
    rcases List.mem_cons.mp hc with rfl | hc
    · exact hrs
    · exact hq c hc

section Pops
variable {q rest : List (α × List α)} {m : α × List α}

/-- Popping a cursor and pushing what is behind it takes one record out. -/
theorem Pops.mem_records (h : Pops q m rest) {r : α} :
    r ∈ records q ↔ r = m.1 ∨ r ∈ records (push m.2 rest) := by
  have hmem : ∀ c, c ∈ q ↔ c = m ∨ c ∈ rest := fun c => by
    rw [← h.perm.mem_iff, List.mem_cons]
  rw [mem_records_push, Versions.mem_records, Versions.mem_records]
  constructor
  · rintro ⟨c, hc, hr⟩
    rcases (hmem c).mp hc with rfl | hc
    · exact hr.imp_right Or.inl
    · exact Or.inr (Or.inr ⟨c, hc, hr⟩)
  · rintro (hr | hr | ⟨c, hc, hr⟩)
    · exact ⟨m, (hmem m).mpr (Or.inl rfl), Or.inl hr⟩
    · exact ⟨m, (hmem m).mpr (Or.inl rfl), Or.inr hr⟩
    · exact ⟨c, (hmem c).mpr (Or.inr hc), hr⟩

theorem Pops.ready (h : Pops q m rest) (hq : Ready q) : Ready (push m.2 rest) := by
  have hmem : ∀ c ∈ m :: rest, c ∈ q := fun c hc => h.perm.mem_iff.mp hc
  refine Ready.push ?_ fun c hc => hq c (hmem c (List.mem_cons_of_mem _ hc))
  exact (List.pairwise_cons.mp (hq m (hmem m List.mem_cons_self))).2

/-- A popped record may come before every record of the queue. -/
theorem Pops.before (h : Pops q m rest) (hq : Ready q) {r : α} (hr : r ∈ records q) :
    Before m.1 r := by
  obtain ⟨c, hc, hr⟩ := Versions.mem_records.mp hr
  have hm := h.least c hc
  rcases hr with rfl | hr
  · exact hm
  · have hlt := (List.pairwise_cons.mp (hq c hc)).1 r hr
    exact Or.inl (lt_of_le_of_lt hm.key_le hlt)

end Pops

theorem Drains.spec {k : K} {q q' : List (α × List α)} (h : Drains k q q') (hq : Ready q)
    (hk : ∀ r ∈ records q, k ≤ key r) :
    Ready q' ∧ ∀ r, r ∈ records q' ↔ r ∈ records q ∧ key r ≠ k := by
  induction h with
  | empty => exact ⟨hq, fun r => by simp [records]⟩
  | @stop q m rest pops hmk =>
    refine ⟨hq, fun r => ⟨fun hr => ⟨hr, fun hrk => ?_⟩, fun hr => hr.1⟩⟩
    have hm : k ≤ key m.1 := hk m.1 (pops.mem_records.mpr (Or.inl rfl))
    have hle := (pops.before hq hr).key_le
    exact hmk (le_antisymm (hrk ▸ hle) hm)
  | @more q m rest q₁ q' pops hmk pushed _ ih =>
    have hsub : ∀ r ∈ records q₁, k ≤ key r := fun r hr =>
      hk r (pops.mem_records.mpr (Or.inr ((mem_records_perm pushed).mp hr)))
    obtain ⟨hready, hiff⟩ := ih ((pops.ready hq).perm pushed) hsub
    refine ⟨hready, fun r => ?_⟩
    rw [hiff, pops.mem_records, mem_records_perm pushed]
    constructor
    · rintro ⟨hr, hne⟩
      exact ⟨Or.inr hr, hne⟩
    · rintro ⟨rfl | hr, hne⟩
      · exact absurd hmk hne
      · exact ⟨hr, hne⟩

/-- What is left after a winner and all other records of its key. -/
theorem Pops.rest_spec {q rest q₁ q₂ : List (α × List α)} {m : α × List α}
    (h : Pops q m rest) (hq : Ready q) (pushed : q₁.Perm (push m.2 rest))
    (drained : Drains (key m.1) q₁ q₂) :
    Ready q₂ ∧ ∀ r, r ∈ records q₂ ↔ r ∈ records q ∧ key r ≠ key m.1 := by
  have hsub : ∀ r ∈ records q₁, key m.1 ≤ key r := fun r hr =>
    (h.before hq (h.mem_records.mpr (Or.inr ((mem_records_perm pushed).mp hr)))).key_le
  obtain ⟨hready, hiff⟩ := drained.spec ((h.ready hq).perm pushed) hsub
  refine ⟨hready, fun r => ?_⟩
  rw [hiff, h.mem_records, mem_records_perm pushed]
  constructor
  · rintro ⟨hr, hne⟩
    exact ⟨Or.inr hr, hne⟩
  · rintro ⟨rfl | hr, hne⟩
    · exact absurd rfl hne
    · exact ⟨hr, hne⟩

section Merges
variable {q : List (α × List α)} {out : List α}

theorem Merges.subset (h : Merges q out) (hq : Ready q) : ∀ r ∈ out, r ∈ records q := by
  induction h with
  | done => simp
  | win pops pushed drained _ ih =>
    obtain ⟨hready, hiff⟩ := pops.rest_spec hq pushed drained
    intro r hr
    rcases List.mem_cons.mp hr with rfl | hr
    · exact pops.mem_records.mpr (Or.inl rfl)
    · exact ((hiff r).mp (ih hready r hr)).1

theorem Merges.ascending (h : Merges q out) (hq : Ready q) : Ascending out := by
  induction h with
  | done => exact List.Pairwise.nil
  | win pops pushed drained next ih =>
    obtain ⟨hready, hiff⟩ := pops.rest_spec hq pushed drained
    refine List.pairwise_cons.mpr ⟨fun r hr => ?_, ih hready⟩
    obtain ⟨hr, hne⟩ := (hiff r).mp (next.subset hready r hr)
    exact lt_of_le_of_ne (pops.before hq hr).key_le (Ne.symm hne)

theorem Merges.mem_iff (h : Merges q out) (hq : Ready q) (hsep : Separate (records q)) (r : α) :
    r ∈ out ↔ IsNewest (records q) (key r) r := by
  induction h with
  | done => simp [IsNewest, records]
  | @win q m rest q₁ q₂ out pops pushed drained _ ih =>
    obtain ⟨hready, hiff⟩ := pops.rest_spec hq pushed drained
    have hsep' : Separate (records q₂) := fun a ha b hb =>
      hsep a ((hiff a).mp ha).1 b ((hiff b).mp hb).1
    have hwin : IsNewest (records q) (key m.1) m.1 := by
      refine ⟨pops.mem_records.mpr (Or.inl rfl), rfl, fun x hx hxk => ?_⟩
      rcases pops.before hq hx with hlt | ⟨-, hs⟩
      · exact absurd hxk hlt.ne'
      · exact hs
    rw [List.mem_cons, ih hready hsep']
    constructor
    · rintro (rfl | ⟨hr, -, hmax⟩)
      · exact hwin
      · -- Records of another key are all still in the queue.
        obtain ⟨hr, hne⟩ := (hiff r).mp hr
        refine ⟨hr, rfl, fun x hx hxk => hmax x ((hiff x).mpr ⟨hx, ?_⟩) hxk⟩
        rw [hxk]
        exact hne
    · intro hr
      by_cases hk : key r = key m.1
      · exact Or.inl ((hk ▸ hr).unique hsep hwin)
      · refine Or.inr ⟨(hiff r).mpr ⟨hr.1, hk⟩, rfl, fun x hx hxk => ?_⟩
        exact hr.2.2 x ((hiff x).mp hx).1 hxk

/-- **The merge yields the newest record of every key, in key order**, whatever the queue. -/
theorem Merges.eq_newest (h : Merges q out) (hq : Ready q) (hsep : Separate (records q)) :
    out = newest (records q) := by
  refine (h.ascending hq).ext (ascending_newest _) fun r => ?_
  rw [h.mem_iff hq hsep, mem_newest hsep]

end Merges

theorem mem_records_seed {tables : List (List α)} {r : α} :
    r ∈ records (seed tables) ↔ r ∈ tables.flatten := by
  induction tables using List.reverseRecOn with
  | nil => simp [seed, records]
  | append_singleton tables xs ih =>
    rw [seed, List.foldl_append, List.foldl_cons, List.foldl_nil, mem_records_push]
    rw [seed] at ih
    rw [ih, List.flatten_append]
    simp [or_comm]

theorem ready_seed {tables : List (List α)} (hasc : ∀ xs ∈ tables, Ascending xs) :
    Ready (seed tables) := by
  induction tables using List.reverseRecOn with
  | nil => simp [seed, Ready]
  | append_singleton tables xs ih =>
    rw [seed, List.foldl_append]
    exact Ready.push (hasc xs (by simp)) (ih fun ys h => hasc ys (by simp [h]))

theorem newest_congr {rs xs : List α} (hrs : Separate rs) (h : ∀ r, r ∈ rs ↔ r ∈ xs) :
    newest rs = newest xs := by
  have hxs : Separate xs := fun a ha b hb => hrs a ((h a).mpr ha) b ((h b).mpr hb)
  refine (ascending_newest rs).ext (ascending_newest xs) fun r => ?_
  rw [mem_newest hrs, mem_newest hxs]
  simp only [IsNewest, h]

/-- The merge of tables yields the newest record of every key, in key order. -/
theorem merge_seed {tables : List (List α)} (hasc : ∀ xs ∈ tables, Ascending xs)
    (hsep : Separate tables.flatten) : merge (seed tables) = newest tables.flatten := by
  have hsep' : Separate (records (seed tables)) := fun a ha b hb =>
    hsep a (mem_records_seed.mp ha) b (mem_records_seed.mp hb)
  rw [(merges_merge (seed tables)).eq_newest (ready_seed hasc) hsep']
  exact newest_congr hsep' fun r => mem_records_seed

end Lsmdb.Versions

import Lsmdb.Db.Publishing

namespace Lsmdb.Db

open Lsmdb.Versions

/-!
# What a database shows

The contents of a database as a map from keys to values: the newest record of a key counts,
and a tombstone hides the key.

* `shows_view` — `Get` and `Scan` both show the map of the memtable over the SSTables.
* `view_compacted` — a compaction does not change it.
-/

/-- The map that a list of tables, newest first, stands for. -/
def view (tables : List (List Record)) (k : Key) : Option Value :=
  (findFirst k tables).bind Record.live

theorem view_cons (xs : List Record) (tables : List (List Record)) (k : Key) :
    view (xs :: tables) k
      = match find k xs with
        | some r => r.live
        | none => view tables k := by
  unfold view
  rw [findFirst]
  cases find k xs <;> rfl

/-- `Get` and `Scan` return what the map `m` returns; `Scan` strictly ascending. -/
structure Shows (db : DB) (m : Key → Option Value) : Prop where
  get : ∀ k, db.get k = m k
  scan : ∀ lo hi, ∃ pairs, db.scan lo hi = .ok pairs
    ∧ pairs.Pairwise (fun p q => p.key < q.key)
    ∧ ∀ p, p ∈ pairs ↔ lo ≤ p.key ∧ p.key ≤ hi ∧ m p.key = some p.value

section Readers
variable [BloomSize] {files : List (String × List Record)}

/-! ### Reading -/

theorem getReaders_eq (hsorted : ∀ f ∈ files, Ascending f.2) (k : Key) :
    getReaders k (readersOf files) = view (files.map Prod.snd) k := by
  induction files with
  | nil => rfl
  | cons f files ih =>
    have ih := ih fun g hg => hsorted g (List.mem_cons_of_mem _ hg)
    rw [readersOf_cons, getReaders, SSTable.get_write (hsorted f List.mem_cons_self), List.map_cons, view_cons]
    cases find k f.2 with
    | some r => rfl
    | none => exact ih

theorem scanReaders_eq (hsorted : ∀ f ∈ files, Ascending f.2) (lo hi : Key) :
    scanReaders lo hi (readersOf files)
      = .ok ((files.map Prod.snd).flatten.filter (inRange lo hi)) := by
  induction files with
  | nil => rfl
  | cons f files ih =>
    rw [readersOf_cons, scanReaders, SSTable.scan_write (hsorted f List.mem_cons_self),
      ih fun g hg => hsorted g (List.mem_cons_of_mem _ hg)]
    simp

section
omit [BloomSize]

theorem mem_livePairs {byKey : List Record} (hasc : Ascending byKey) (p : KVPair) :
    p ∈ livePairs byKey ↔ (find p.key byKey).bind Record.live = some p.value := by
  unfold livePairs
  rw [List.mem_filterMap]
  constructor
  · rintro ⟨r, hr, hp⟩
    obtain ⟨v, hv, rfl⟩ := Option.map_eq_some_iff.mp hp
    rw [show find r.key byKey = some r from hasc.find_mem hr]
    exact hv
  · intro h
    obtain ⟨r, hr, hv⟩ := Option.bind_eq_some_iff.mp h
    obtain ⟨hmem, hk⟩ := find_some hr
    exact ⟨r, hmem, Option.map_eq_some_iff.mpr ⟨p.value, hv, by rw [← key_eq, hk]⟩⟩

theorem pairwise_livePairs {byKey : List Record} (hasc : Ascending byKey) :
    (livePairs byKey).Pairwise fun p q => p.key < q.key := by
  unfold livePairs
  rw [List.pairwise_filterMap]
  refine hasc.imp fun {a b} hab p hp q hq => ?_
  obtain ⟨-, -, rfl⟩ := Option.map_eq_some_iff.mp hp
  obtain ⟨-, -, rfl⟩ := Option.map_eq_some_iff.mp hq
  exact hab

theorem find_filter_inRange {lo hi k : Key} {xs : List Record} :
    find k (xs.filter (inRange lo hi)) = if lo ≤ k ∧ k ≤ hi then find k xs else none := by
  induction xs with
  | nil => simp
  | cons x xs ih =>
    rw [List.filter_cons, find_cons, key_eq]
    by_cases hk : x.key = k
    · by_cases hr : lo ≤ k ∧ k ≤ hi
      · simp [inRange, hk, hr, find_cons]
      · simp [inRange, hk, hr, ih]
    · by_cases hr : inRange lo hi x = true
      · rw [if_pos hr, find_cons, key_eq, if_neg hk, if_neg hk, ih]
      · rw [if_neg hr, if_neg hk, ih]

end

/-- **`Get` and `Scan` show the same map**: the memtable over the SSTables. -/
theorem shows_view {db : DB} (hreaders : db.readers = readersOf files)
    (hsorted : ∀ f ∈ files, Ascending f.2)
    (hlay : Layered (db.mem.entries :: files.map Prod.snd)) :
    Shows db (view (db.mem.entries :: files.map Prod.snd)) := by
  have hasc : ∀ xs ∈ db.mem.entries :: files.map Prod.snd, Ascending xs := by
    intro xs hxs
    rcases List.mem_cons.mp hxs with rfl | hxs
    · exact db.mem.sorted
    · obtain ⟨f, hf, rfl⟩ := List.mem_map.mp hxs
      exact hsorted f hf
  refine ⟨fun k => ?_, fun lo hi => ?_⟩
  · unfold DB.get MemTable.getRecord
    cases hfind : find k db.mem.entries with
    | none => simp only [hreaders, getReaders_eq hsorted, view_cons, hfind]
    | some e => simp only [view_cons, hfind]
  · -- The records of the range are resolved alone; that is the same as resolving them all.
    have hall : newest (db.mem.scanRange lo hi
          ++ (files.map Prod.snd).flatten.filter (inRange lo hi))
        = (newest (db.mem.entries :: files.map Prod.snd).flatten).filter (inRange lo hi) := by
      rw [MemTable.scanRange_eq, ← List.filter_append, ← List.flatten_cons]
      refine newest_filter (separate_flatten hasc hlay) fun a b hab => ?_
      rw [key_eq, key_eq] at hab
      simp [inRange, hab]
    have hfilter := (ascending_newest (db.mem.entries :: files.map Prod.snd).flatten).filter
      (inRange lo hi)
    refine ⟨livePairs ((newest (db.mem.entries :: files.map Prod.snd).flatten).filter
      (inRange lo hi)), ?_, pairwise_livePairs hfilter, fun p => ?_⟩
    · unfold DB.scan
      rw [hreaders, scanReaders_eq hsorted]
      exact congrArg (fun rs => Except.ok (livePairs rs)) hall
    · rw [mem_livePairs hfilter, find_filter_inRange, ← findFirst_eq_find_newest hasc hlay]
      unfold view
      by_cases hr : lo ≤ p.key ∧ p.key ≤ hi
      · simp [hr]
      · simp only [if_neg hr, Option.bind_none, reduceCtorEq, false_iff]
        exact fun h => hr ⟨h.1, h.2.1⟩

end Readers

/-- What a compaction makes of all tables. -/
def compacted (tables : List (List Record)) : List Record :=
  (newest tables.flatten).filter fun r => !(r.type == .delete)

theorem ascending_compacted (tables : List (List Record)) : Ascending (compacted tables) :=
  (ascending_newest _).filter _

theorem mem_of_mem_compacted {tables : List (List Record)} {r : Record}
    (h : r ∈ compacted tables) : r ∈ tables.flatten :=
  mem_of_mem_newest (List.mem_filter.mp h).1

/-- Dropping the tombstones of the bottom level changes no live record. -/
theorem find_compacted {tables : List (List Record)} (hasc : ∀ xs ∈ tables, Ascending xs)
    (hlay : Layered tables) (k : Key) :
    (find k (compacted tables)).bind Record.live = view tables k := by
  unfold view
  rw [findFirst_eq_find_newest hasc hlay]
  cases hf : find k (newest tables.flatten) with
  | none =>
    have : find k (compacted tables) = none := find_eq_none.mpr fun r hr =>
      find_eq_none.mp hf r (List.mem_filter.mp hr).1
    rw [this]
  | some r =>
    obtain ⟨hr, hk⟩ := find_some hf
    cases htype : r.type with
    | put =>
      have hmem : r ∈ compacted tables := List.mem_filter.mpr ⟨hr, by simp [htype]⟩
      rw [← hk, (ascending_compacted tables).find_mem hmem]
    | delete =>
      -- The winner is a tombstone: its key is gone from the output.
      have : find k (compacted tables) = none := find_eq_none.mpr fun x hx hxk => by
        obtain ⟨hx, hput⟩ := List.mem_filter.mp hx
        have hfx := (ascending_newest tables.flatten).find_mem hx
        rw [hxk, hf, Option.some.injEq] at hfx
        subst hfx
        simp [htype] at hput
      rw [this]
      simp [Record.live, htype]

/-- The tables after a compaction: none if everything was deleted. -/
def compactedTables (tables : List (List Record)) : List (List Record) :=
  if (compacted tables).isEmpty then [] else [compacted tables]

theorem view_compacted (mem : List Record) {tables : List (List Record)}
    (hasc : ∀ xs ∈ tables, Ascending xs) (hlay : Layered tables) :
    view (mem :: compactedTables tables) = view (mem :: tables) := by
  funext k
  have htables : view (compactedTables tables) k = view tables k := by
    rw [← find_compacted hasc hlay]
    unfold compactedTables
    split
    next h =>
      rw [List.isEmpty_iff.mp h]
      rfl
    next =>
      rw [view_cons]
      cases find k (compacted tables) <;> rfl
  rw [view_cons, view_cons, htables]

theorem compactOutput_eq {tables : List (List Record)} (hasc : ∀ xs ∈ tables, Ascending xs)
    (hlay : Layered tables) : compactOutput true tables = compacted tables := by
  unfold compactOutput compacted
  rw [merge_seed hasc (separate_flatten hasc hlay)]
  simp

end Lsmdb.Db

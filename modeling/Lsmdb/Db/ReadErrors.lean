import Lsmdb.Db.View

namespace Lsmdb.Db

open Lsmdb.Versions

/-!
# Tables that cannot be read

`Get` passes over an SSTable whose reader returns an error, just as over one without the key, and
goes on with the older ones.  The tables are marked here with whether their reader fails.

* `get_never_superseded` — when `Get` is still right, and that it is wrong otherwise.
-/

/-- The tables whose readers do not fail. -/
def readable (tables : List (Bool × List Record)) : List (List Record) :=
  (tables.filter fun t => !t.1).map Prod.snd

/-- The newest table with `k` fails, and the first table behind it that holds `k` and can be read
    has a put of another value. -/
def Superseded (k : Key) (tables : List (Bool × List Record)) : Prop :=
  ∃ before hidden between shown after newer older,
    tables = before ++ (true, hidden) :: (between ++ (false, shown) :: after)
      ∧ (∀ t ∈ before, find k t.2 = none)
      ∧ find k hidden = some newer
      ∧ (∀ t ∈ between, t.1 = false → find k t.2 = none)
      ∧ find k shown = some older
      ∧ older.type = .put
      ∧ older.live ≠ newer.live

/-! ### Views of marked tables -/

theorem view_append_of_none {k : Key} {before : List (List Record)}
    (h : ∀ xs ∈ before, find k xs = none) (tables : List (List Record)) :
    view (before ++ tables) k = view tables k := by
  induction before with
  | nil => rfl
  | cons xs before ih =>
    rw [List.forall_mem_cons] at h
    rw [List.cons_append, view_cons, h.1]
    exact ih h.2

theorem readable_append (ts ts' : List (Bool × List Record)) :
    readable (ts ++ ts') = readable ts ++ readable ts' := by
  simp [readable]

theorem readable_cons_true (xs : List Record) (ts : List (Bool × List Record)) :
    readable ((true, xs) :: ts) = readable ts := by
  simp [readable]

theorem readable_cons_false (xs : List Record) (ts : List (Bool × List Record)) :
    readable ((false, xs) :: ts) = xs :: readable ts := by
  simp [readable]

theorem mem_readable {xs : List Record} {ts : List (Bool × List Record)}
    (h : xs ∈ readable ts) : (false, xs) ∈ ts := by
  obtain ⟨t, ht, rfl⟩ := List.mem_map.mp h
  obtain ⟨ht, hmark⟩ := List.mem_filter.mp ht
  have : t.1 = false := by simpa using hmark
  rwa [← this]

theorem live_eq_none {r : Record} : r.live = none ↔ r.type = .delete := by
  unfold Record.live
  cases r.type <;> simp

/-- A value that the readable tables show comes from the first of them that has the key. -/
theorem exists_of_view_readable {k : Key} {tables : List (Bool × List Record)} {v : Value}
    (h : view (readable tables) k = some v) :
    ∃ between shown after older, tables = between ++ (false, shown) :: after
      ∧ (∀ t ∈ between, t.1 = false → find k t.2 = none)
      ∧ find k shown = some older ∧ older.live = some v := by
  induction tables with
  | nil => simp [readable, view, findFirst] at h
  | cons t tables ih =>
    obtain ⟨mark, xs⟩ := t
    -- a failing table, and one without the key, come before the one that is found
    have hskip : view (readable tables) k = some v → (mark = false → find k xs = none) →
        ∃ between shown after older, (mark, xs) :: tables = between ++ (false, shown) :: after
          ∧ (∀ t ∈ between, t.1 = false → find k t.2 = none)
          ∧ find k shown = some older ∧ older.live = some v := by
      intro hview hxs
      obtain ⟨between, shown, after, older, rfl, hbetween, hfind, hlive⟩ := ih hview
      refine ⟨(mark, xs) :: between, shown, after, older, rfl, ?_, hfind, hlive⟩
      exact List.forall_mem_cons.mpr ⟨hxs, hbetween⟩
    cases mark with
    | true =>
      rw [readable_cons_true] at h
      exact hskip h (by simp)
    | false =>
      rw [readable_cons_false, view_cons] at h
      cases hfind : find k xs with
      | none =>
        rw [hfind] at h
        exact hskip h fun _ => hfind
      | some older =>
        rw [hfind] at h
        exact ⟨[], xs, tables, older, rfl, by simp, hfind, h⟩

/-- **What the failing tables change**: the readable tables show another value than all tables do
    exactly if a newer record is hidden. -/
theorem view_readable_iff (k : Key) (tables : List (Bool × List Record)) :
    (view (readable tables) k = none ∨ view (readable tables) k = view (tables.map Prod.snd) k)
      ↔ ¬Superseded k tables := by
  constructor
  · rintro h ⟨before, hidden, between, shown, after, newer, older, rfl, hbefore, hnewer, hbetween,
      holder, hput, hne⟩
    have hall : view ((before ++ (true, hidden) :: (between ++ (false, shown) :: after)).map
        Prod.snd) k = newer.live := by
      rw [List.map_append, view_append_of_none (List.forall_mem_map.mpr hbefore), List.map_cons, view_cons,
        hnewer]
    have hread : view (readable (before ++ (true, hidden) :: (between ++ (false, shown) :: after)))
        k = older.live := by
      rw [readable_append, view_append_of_none fun xs hxs => hbefore _ (mem_readable hxs),
        readable_cons_true, readable_append,
        view_append_of_none fun xs hxs => hbetween _ (mem_readable hxs) rfl, readable_cons_false,
        view_cons, holder]
    rw [hall, hread, live_eq_none, hput] at h
    rcases h with h | h
    · exact absurd h (by simp)
    · exact hne h
  · intro h
    induction tables with
    | nil => exact Or.inr rfl
    | cons t tables ih =>
      obtain ⟨mark, xs⟩ := t
      rw [List.map_cons, view_cons]
      cases hfind : find k xs with
      | none =>
        -- the table does not matter
        have hsame : view (readable ((mark, xs) :: tables)) k = view (readable tables) k := by
          cases mark with
          | true => rw [readable_cons_true]
          | false => rw [readable_cons_false, view_cons, hfind]
        rw [hsame]
        apply ih
        rintro ⟨before, hidden, between, shown, after, newer, older, rfl, hbefore, hrest⟩
        refine h ⟨(mark, xs) :: before, hidden, between, shown, after, newer, older, rfl, ?_, hrest⟩
        exact List.forall_mem_cons.mpr ⟨hfind, hbefore⟩
      | some newer =>
        cases mark with
        | false =>
          right
          rw [readable_cons_false, view_cons, hfind]
        | true =>
          rw [readable_cons_true]
          cases hview : view (readable tables) k with
          | none => exact Or.inl rfl
          | some v =>
            obtain ⟨between, shown, after, older, rfl, hbetween, hshown, hlive⟩ :=
              exists_of_view_readable hview
            right
            by_contra hne
            refine h ⟨[], xs, between, shown, after, newer, older, rfl, by simp, hfind, hbetween,
              hshown, ?_, by rw [hlive]; exact hne⟩
            have hput : older.type ≠ .delete := by
              rw [Ne, ← live_eq_none, hlive]
              simp
            cases hold : older.type with
            | put => rfl
            | delete => exact absurd hold hput

/-! ### `Get` -/

/-- Whether the reader of the table returns an error for `k`. -/
def Reader.fails (k : Key) (r : Reader) : Bool :=
  match r.table.get k with
  | .error _ => true
  | .ok _ => false

/-- The tables of the readers, marked. -/
def marked (k : Key) (readers : List Reader) (tables : List (List Record)) :
    List (Bool × List Record) :=
  List.zip (readers.map (Reader.fails k)) tables

/-- The readers stand for the tables: one that does not fail finds what its table holds. -/
def StandsFor (k : Key) (r : Reader) (xs : List Record) : Prop :=
  r.fails k = false → r.table.get k = .ok (find k xs)

theorem getReaders_marked {k : Key} {readers : List Reader} {tables : List (List Record)}
    (h : List.Forall₂ (StandsFor k) readers tables) :
    getReaders k readers = view (readable (marked k readers tables)) k := by
  induction h with
  | nil => rfl
  | @cons r xs readers tables hr _ ih =>
    show getReaders k (r :: readers)
      = view (readable ((r.fails k, xs) :: marked k readers tables)) k
    rw [getReaders, ih]
    cases hfails : r.fails k with
    | true =>
      rw [readable_cons_true]
      unfold Reader.fails at hfails
      cases hget : r.table.get k with
      | error e => rfl
      | ok found => rw [hget] at hfails; simp at hfails
    | false =>
      rw [readable_cons_false, view_cons, hr hfails]
      cases find k xs <;> rfl

theorem map_snd_marked {k : Key} {readers : List Reader} {tables : List (List Record)}
    (h : List.Forall₂ (StandsFor k) readers tables) :
    (marked k readers tables).map Prod.snd = tables := by
  refine List.map_snd_zip ?_
  rw [List.length_map, h.length_eq]

/-- **`Get` returns the value of the newest record or nothing, unless that record is hidden**: it is
    wrong exactly if the memtable does not have the key, the newest table with the key fails, and
    the next one that can be read has another value. -/
theorem get_never_superseded {db : DB} {tables : List (List Record)} (k : Key)
    (hreaders : List.Forall₂ (StandsFor k) db.readers tables)
    (hsorted : ∀ xs ∈ tables, Ascending xs) (hlay : Layered (db.mem.entries :: tables)) :
    (db.get k = none
        ∨ ∃ r, find k (newest (db.mem.entries :: tables).flatten) = some r ∧ db.get k = r.live)
      ↔ ¬(find k db.mem.entries = none ∧ Superseded k (marked k db.readers tables)) := by
  have hasc : ∀ xs ∈ db.mem.entries :: tables, Ascending xs :=
    List.forall_mem_cons.mpr ⟨db.mem.sorted, hsorted⟩
  rw [← findFirst_eq_find_newest hasc hlay]
  unfold DB.get MemTable.getRecord
  rw [getReaders_marked hreaders]
  cases hmem : find k db.mem.entries with
  | some r =>
    have hfirst : findFirst k (db.mem.entries :: tables) = some r := by
      rw [findFirst, hmem]
    simp [hfirst]
  | none =>
    have hfirst : findFirst k (db.mem.entries :: tables) = findFirst k tables := by
      rw [findFirst, hmem]
    rw [hfirst]
    have hiff := view_readable_iff k (marked k db.readers tables)
    rw [map_snd_marked hreaders] at hiff
    rw [eq_self_iff_true, true_and, ← hiff]
    unfold view
    cases findFirst k tables <;> simp

/-! ### A hidden record -/

/-- A table of the key `01` whose data section is gone. -/
def brokenReader : Reader where
  name := "000002.sst"
  table := {
    data := []
    minKey := [1]
    maxKey := [1]
    bloom := { bits := [], numBits := 0, numHash := 0 }
    index := []
    metaOffset := 1
    recordCount := 1 }

theorem brokenReader_fails : brokenReader.fails [1] = true := by
  have hget : brokenReader.table.get [1] = .error s!"read record header at {0}" := by
    rw [SSTable.get, if_neg (by decide), if_neg (by decide),
      show brokenReader.table.startOffset [1] = 0 from rfl, SSTable.getLoop, if_pos (by decide)]
    rfl
  rw [Reader.fails, hget]

/-- A table with one record. -/
def readerOf (r : Record) : Reader where
  name := "000001.sst"
  table := @SSTable.write .sixteenBits [r]

theorem readerOf_get (r : Record) (k : Key) : (readerOf r).table.get k = .ok (find k [r]) :=
  @SSTable.get_write .sixteenBits [r] (List.pairwise_singleton _ _) k

def olderPut : Record := { key := [1], value := [1], seqNum := 1, type := .put }

def newerPut : Record := { key := [1], value := [2], seqNum := 2, type := .put }

theorem standsFor_readerOf (k : Key) (r : Record) : StandsFor k (readerOf r) [r] :=
  fun _ => readerOf_get r k

theorem standsFor_broken (xs : List Record) : StandsFor [1] brokenReader xs := by
  intro h
  rw [brokenReader_fails] at h
  simp at h

theorem layered_puts : Layered ((MemTable.new).entries :: [[newerPut], [olderPut]]) := by
  refine .cons (by simp [MemTable.new, MemTable.newWithSeq]) (.cons ?_ (.cons (by simp) .nil))
  simp [Versioned.seq, newerPut, olderPut]

theorem ascending_puts : ∀ xs ∈ [[newerPut], [olderPut]], Ascending xs := by
  simp [Ascending]

/-- The table with the newer put can be read, and the other one is not needed. -/
theorem get_never_superseded_sample :
    ({ mem := .new, readers := [readerOf newerPut, brokenReader] } : DB).get [1] = none
      ∨ ∃ r, find [1] (newest (MemTable.new.entries :: [[newerPut], [olderPut]]).flatten) = some r
        ∧ ({ mem := .new, readers := [readerOf newerPut, brokenReader] } : DB).get [1] = r.live := by
  have hreaders : List.Forall₂ (StandsFor [1]) [readerOf newerPut, brokenReader]
      [[newerPut], [olderPut]] :=
    .cons (standsFor_readerOf _ _) (.cons (standsFor_broken _) .nil)
  refine (@get_never_superseded { mem := .new, readers := [readerOf newerPut, brokenReader] } _ [1]
    hreaders ascending_puts layered_puts).mpr ?_
  have hreads : (readerOf newerPut).fails [1] = false := by
    rw [Reader.fails, readerOf_get]
  rintro ⟨-, before, hidden, between, shown, after, newer, older, hmarked, -⟩
  simp only [marked, List.map_cons, List.map_nil, hreads, brokenReader_fails, List.zip_cons_cons,
    List.zip_nil_left] at hmarked
  rcases before with _ | ⟨t, _ | ⟨t', before⟩⟩ <;> simp at hmarked

/-- **An overwritten value comes back**: the table with the newer put fails, and `Get` returns the
    older one. -/
theorem overwritten_value_returned :
    List.Forall₂ (StandsFor [1]) [brokenReader, readerOf olderPut] [[newerPut], [olderPut]]
      ∧ Layered (MemTable.new.entries :: [[newerPut], [olderPut]])
      ∧ find [1] (newest (MemTable.new.entries :: [[newerPut], [olderPut]]).flatten)
          = some newerPut
      ∧ ({ mem := .new, readers := [brokenReader, readerOf olderPut] } : DB).get [1]
          = some olderPut.value := by
  have hreaders : List.Forall₂ (StandsFor [1]) [brokenReader, readerOf olderPut]
      [[newerPut], [olderPut]] :=
    .cons (standsFor_broken _) (.cons (standsFor_readerOf _ _) .nil)
  have hreads : (readerOf olderPut).fails [1] = false := by
    rw [Reader.fails, readerOf_get]
  refine ⟨hreaders, layered_puts, by decide, ?_⟩
  show getReaders [1] [brokenReader, readerOf olderPut] = _
  rw [getReaders_marked hreaders]
  simp only [marked, List.map_cons, List.map_nil, hreads, brokenReader_fails]
  decide

end Lsmdb.Db

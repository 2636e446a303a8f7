import Lsmdb.Db.View

namespace Lsmdb.Compact

open Lsmdb.Db Lsmdb.Versions Lsmdb.Effect List

/-!
# Compactor

`internal/compact/compactor.go`.  A heap entry names its record by a source and a place in
it.  Of `container/heap` only this is used: `Pop` takes out an entry that no other one is
`Less` than (`MinHeap`).

The loops are the merge of `Versions.Merge` on such a heap (`mergeLoop_eq`), an entry
standing for the records from its place on, so `Compact` writes the newest record of every
key (`compact_reference`) — what `DB.compact` takes it to write (`compacts_output`).
-/

/-! ### The heap -/

/-- `entry`. -/
structure HeapEntry where
  record : Record
  srcIdx : ℕ
  recIdx : ℕ
  deriving DecidableEq, Repr

/-- `mergeHeap.Less`. -/
def HeapEntry.less (a b : HeapEntry) : Bool :=
  if a.record.key ≠ b.record.key then decide (a.record.key < b.record.key)
  else decide (b.record.seqNum < a.record.seqNum)

/-- `heap.Push` and `heap.Pop` on a `mergeHeap`. -/
class MinHeap where
  push : HeapEntry → List HeapEntry → List HeapEntry
  pop : List HeapEntry → Option (HeapEntry × List HeapEntry)
  push_perm : ∀ e h, (push e h).Perm (e :: h)
  pop_none : ∀ {h}, pop h = none → h = []
  pop_perm : ∀ {h e rest}, pop h = some (e, rest) → (e :: rest).Perm h
  pop_least : ∀ {h e rest}, pop h = some (e, rest) → ∀ x ∈ h, x.less e = false

/-- The records of source `srcIdx`. -/
def source (sources : List (List Record)) (srcIdx : ℕ) : List Record := sources.getD srcIdx []

/-- A heap entry as a cursor: its record and the records of its source behind it. -/
def HeapEntry.cursor (sources : List (List Record)) (e : HeapEntry) : Record × List Record :=
  (e.record, (source sources e.srcIdx).drop (e.recIdx + 1))

/-- The cursors of a heap. -/
def cursors (sources : List (List Record)) (h : List HeapEntry) : List (Record × List Record) :=
  h.map (HeapEntry.cursor sources)

/-! ### The loops -/

section Heap
variable [MinHeap] (sources : List (List Record))

/-- `advanceCursor`. -/
def advanceCursor (h : List HeapEntry) (srcIdx recIdx : ℕ) : List HeapEntry :=
  match (source sources srcIdx)[recIdx + 1]? with
  | some record => MinHeap.push { record := record, srcIdx := srcIdx, recIdx := recIdx + 1 } h
  | none => h

/-- The seeding loop of `Compact`. -/
def seedHeap : List HeapEntry :=
  sources.zipIdx.foldl (fun h p =>
    match p.1 with
    | [] => h
    | record :: _ => MinHeap.push { record := record, srcIdx := p.2, recIdx := 0 } h) []

variable {sources}

omit [MinHeap] in
theorem less_iff (a b : HeapEntry) : a.less b = Versions.less a.record b.record := by
  unfold HeapEntry.less Versions.less
  by_cases hk : a.record.key = b.record.key
  · simp [hk]
  · simp [hk]

variable (sources) in
theorem pops_of_pop {h rest : List HeapEntry} {e : HeapEntry}
    (hpop : MinHeap.pop h = some (e, rest)) :
    Pops (cursors sources h) (e.cursor sources) (cursors sources rest) := by
  constructor
  · exact (MinHeap.pop_perm hpop).map (HeapEntry.cursor sources)
  · intro c hc
    obtain ⟨x, hx, rfl⟩ := mem_map.mp hc
    have hless := MinHeap.pop_least hpop x hx
    rw [less_iff] at hless
    exact less_eq_false.mp hless

/-- Advancing a cursor pushes what is behind it. -/
theorem cursors_advance (h : List HeapEntry) (e : HeapEntry) :
    (cursors sources (advanceCursor sources h e.srcIdx e.recIdx)).Perm
      (push (e.cursor sources).2 (cursors sources h)) := by
  unfold advanceCursor HeapEntry.cursor
  cases hnext : (source sources e.srcIdx)[e.recIdx + 1]? with
  | none =>
    rw [drop_eq_nil_of_le (getElem?_eq_none_iff.mp hnext)]
    exact .refl _
  | some record =>
    obtain ⟨hlt, hget⟩ := List.getElem?_eq_some_iff.mp hnext
    rw [drop_eq_getElem_cons hlt, hget]
    exact (MinHeap.push_perm _ h).map (HeapEntry.cursor sources)

variable (sources) in
private theorem weight_advance {h rest : List HeapEntry} {e : HeapEntry}
    (hpop : MinHeap.pop h = some (e, rest)) :
    weight (cursors sources (advanceCursor sources rest e.srcIdx e.recIdx)) + 1
      = weight (cursors sources h) := by
  rw [weight_perm (cursors_advance rest e), weight_push,
    ← weight_perm (pops_of_pop sources hpop).perm]
  simp only [weight, map_cons, sum_cons]
  omega

variable (sources)

/-- The inner loop: the other entries of the winner's key are popped. -/
def drainLoop (key : Key) (h : List HeapEntry) : List HeapEntry :=
  match _h : MinHeap.pop h with
  | none => h
  | some (dup, rest) =>
      if dup.record.key = key then
        drainLoop key (advanceCursor sources rest dup.srcIdx dup.recIdx)
      else h
termination_by weight (cursors sources h)
decreasing_by
  have := weight_advance sources _h
  omega

theorem weight_drainLoop (key : Key) (h : List HeapEntry) :
    weight (cursors sources (drainLoop sources key h)) ≤ weight (cursors sources h) := by
  fun_induction drainLoop sources key h with
  | case1 h hpop => exact le_rfl
  | case2 h dup rest hpop hk ih =>
    have := weight_advance sources hpop
    omega
  | case3 h dup rest hpop hk => exact le_rfl

/-- The outer loop of `Compact`. -/
def mergeLoop (isBottomLevel : Bool) (h : List HeapEntry) (output : List Record) :
    List Record :=
  match _h : MinHeap.pop h with
  | none => output
  | some (top, rest) =>
      let winner := top.record
      let h := drainLoop sources winner.key (advanceCursor sources rest top.srcIdx top.recIdx)
      if winner.type == .delete && isBottomLevel then mergeLoop isBottomLevel h output
      else mergeLoop isBottomLevel h (output ++ [winner])
termination_by weight (cursors sources h)
decreasing_by
  all_goals
    have h1 := weight_advance sources _h
    have h2 := weight_drainLoop sources top.record.key
      (advanceCursor sources rest top.srcIdx top.recIdx)
    omega

/-! ### The loops are a merge -/

theorem drains_drainLoop (key : Key) (h : List HeapEntry) :
    Drains key (cursors sources h) (cursors sources (drainLoop sources key h)) := by
  fun_induction drainLoop sources key h with
  | case1 h hpop =>
    rw [MinHeap.pop_none hpop]
    exact .empty
  | case2 h dup rest hpop hk ih =>
    exact .more (pops_of_pop sources hpop) hk (cursors_advance rest dup) ih
  | case3 h dup rest hpop hk => exact .stop (pops_of_pop sources hpop) hk

/-- The loop appends the winners of a merge, without the tombstones it may drop. -/
theorem mergeLoop_eq (isBottomLevel : Bool) (h : List HeapEntry) (output : List Record) :
    ∃ winners, Merges (cursors sources h) winners
      ∧ mergeLoop sources isBottomLevel h output
          = output ++ winners.filter fun r => !(r.type == .delete && isBottomLevel) := by
  fun_induction mergeLoop sources isBottomLevel h output with
  | case1 h output hpop =>
    refine ⟨[], ?_, by simp⟩
    rw [MinHeap.pop_none hpop]
    exact .done
  | case2 h output top rest hpop winner h' hdrop ih =>
    obtain ⟨winners, hmerges, heq⟩ := ih
    refine ⟨winner :: winners, ?_, ?_⟩
    · exact .win (pops_of_pop sources hpop) (cursors_advance rest top)
        (drains_drainLoop sources _ _) hmerges
    · rw [heq, filter_cons_of_neg (by simpa using hdrop)]
  | case3 h output top rest hpop winner h' hkeep ih =>
    obtain ⟨winners, hmerges, heq⟩ := ih
    refine ⟨winner :: winners, ?_, ?_⟩
    · exact .win (pops_of_pop sources hpop) (cursors_advance rest top)
        (drains_drainLoop sources _ _) hmerges
    · have hkept : (!(winner.type == .delete && isBottomLevel)) = true := by
        rw [Bool.not_eq_true']
        exact Bool.eq_false_of_not_eq_true hkeep
      rw [heq, filter_cons, if_pos hkept, append_assoc]
      rfl

/-- The seeded heap holds a cursor at the start of every source that is not empty. -/
theorem cursors_seedHeap : (cursors sources (seedHeap sources)).Perm (seed sources) := by
  -- an entry stands for its own source, so the fold may be over any pairs that say so
  have hfold : ∀ (l : List (List Record × ℕ)), (∀ p ∈ l, source sources p.2 = p.1) →
      ∀ (h : List HeapEntry) (q : List (Record × List Record)), (cursors sources h).Perm q →
        (cursors sources (l.foldl (fun h p =>
          match p.1 with
          | [] => h
          | record :: _ => MinHeap.push { record := record, srcIdx := p.2, recIdx := 0 } h)
            h)).Perm ((l.map Prod.fst).foldl (fun q xs => push xs q) q) := by
    intro l
    induction l with
    | nil => intro _ h q hq; exact hq
    | cons p l ih =>
      intro hl h q hq
      obtain ⟨xs, i⟩ := p
      have hsource : source sources i = xs := hl (xs, i) mem_cons_self
      rw [foldl_cons, map_cons, foldl_cons]
      refine ih (fun p hp => hl p (mem_cons_of_mem _ hp)) _ _ ?_
      cases xs with
      | nil => exact hq
      | cons r rs =>
        have hpush := (MinHeap.push_perm { record := r, srcIdx := i, recIdx := 0 } h).map
          (HeapEntry.cursor sources)
        have hcursor : HeapEntry.cursor sources { record := r, srcIdx := i, recIdx := 0 }
            = (r, rs) := by
          rw [HeapEntry.cursor, hsource]
          rfl
        rw [map_cons, hcursor] at hpush
        exact hpush.trans (hq.cons (r, rs))
  have hseed := hfold sources.zipIdx (fun p hp => ?_) [] [] (.refl _)
  · rw [zipIdx_map_fst] at hseed
    exact hseed
  · obtain ⟨xs, i⟩ := p
    have hget := mem_zipIdx_iff_getElem?.mp hp
    rw [source, getD_eq_getElem?_getD, hget]
    rfl

/-- The records the loops produce for a list of sources. -/
def mergedOutput (isBottomLevel : Bool) : List Record :=
  mergeLoop sources isBottomLevel (seedHeap sources) []

variable {sources}

/-- **The loops yield the newest record of every key**, whatever the heap does with entries
    that are not least. -/
theorem mergedOutput_eq (hasc : ∀ xs ∈ sources, Ascending xs) (hsep : Separate sources.flatten)
    (isBottomLevel : Bool) :
    mergedOutput sources isBottomLevel
      = (newest sources.flatten).filter fun r => !(r.type == .delete && isBottomLevel) := by
  obtain ⟨winners, hmerges, heq⟩ :=
    mergeLoop_eq sources isBottomLevel (seedHeap sources) []
  have hperm := cursors_seedHeap sources
  have hmem : ∀ r, r ∈ records (cursors sources (seedHeap sources)) ↔ r ∈ sources.flatten :=
    fun r => (mem_records_perm hperm).trans mem_records_seed
  have hsep' : Separate (records (cursors sources (seedHeap sources))) := fun a ha b hb =>
    hsep a ((hmem a).mp ha) b ((hmem b).mp hb)
  have hwinners := hmerges.eq_newest ((ready_seed hasc).perm hperm) hsep'
  rw [mergedOutput, heq, hwinners, newest_congr hsep' hmem, nil_append]

/-! ### Compact -/

/-- `Compact`: the number of records written, and the error. -/
def compact (readers : List Reader) (outputPath : String) (isBottomLevel : Bool) :
    Io (ℕ × Option String) :=
  if readers.isEmpty then .ret (0, none)
  else
    .attempt .loadTables (.ret (0, some "compact: load reader")) fun _ =>
    match loadSources readers with
    | .error e => .ret (0, some s!"compact: load reader: {e}")
    | .ok sources =>
        if (sources.map List.length).sum = 0 then .ret (0, none)
        else
          let output := mergedOutput sources isBottomLevel
          if output.isEmpty then .ret (0, none)
          else
            .attempt (.writeTable outputPath output)
              (.ret (0, some "compact: write output")) fun _ =>
            .ret (output.length, none)

section Device
variable [BloomSize] [Remnant]

theorem compact_run {readers : List Reader} (hload : loadSources readers = .ok sources)
    (outputPath : String) (isBottomLevel : Bool) (d : Disk)
    (hempty : sources.flatten = [] → mergedOutput sources isBottomLevel = []) :
    (compact readers outputPath isBottomLevel).run disk d
      = (if mergedOutput sources isBottomLevel = [] then d
         else d.put outputPath (.complete (.write (mergedOutput sources isBottomLevel))),
         (mergedOutput sources isBottomLevel).length, none) := by
  unfold compact
  by_cases hreaders : readers.isEmpty
  · rw [isEmpty_iff.mp hreaders] at hload
    have hsources : sources = [] := (Except.ok.inj hload).symm
    rw [if_pos hreaders, hempty (by rw [hsources]; rfl)]
    rfl
  · have hstep : disk.perform .loadTables d = (d, some ()) := rfl
    rw [if_neg hreaders, Prog.run_attempt_some disk hstep, hload]
    dsimp only
    by_cases htotal : (sources.map length).sum = 0
    · have hflat : sources.flatten = [] := by
        rw [← length_eq_zero_iff, length_flatten]
        exact htotal
      rw [if_pos htotal, hempty hflat]
      rfl
    · rw [if_neg htotal]
      by_cases hout : mergedOutput sources isBottomLevel = []
      · rw [if_pos (isEmpty_iff.mpr hout), if_pos hout, hout]
        rfl
      · rw [if_neg (by simpa using hout), if_neg hout]
        rfl

end Device

end Heap

/-- **Compaction is the reference merge.**  From sources in key order that hold no number of a
    key twice, `Compact` writes one record for every key: the one with the highest number,
    unless it is a tombstone at the bottom level.  The keys ascend strictly, the number of
    records is returned, and without any record there is no file. -/
theorem compact_reference [MinHeap] [BloomSize] [Remnant] {readers : List Reader}
    {sources : List (List Record)} (hload : loadSources readers = .ok sources)
    (hasc : ∀ xs ∈ sources, Ascending xs)
    (hdistinct : (sources.flatten.map fun r => (r.key, r.seqNum)).Nodup)
    (outputPath : String) (isBottomLevel : Bool) (d : Disk) :
    (∀ x ∈ sources.flatten, ∃! winner, IsNewest sources.flatten x.key winner)
      ∧ ∃ output : List Record,
        Ascending output
        ∧ (∀ r, r ∈ output ↔ IsNewest sources.flatten r.key r
            ∧ ¬(isBottomLevel = true ∧ r.type = .delete))
        ∧ (compact readers outputPath isBottomLevel).run disk d
            = (if output.length = 0 then d
               else d.put outputPath (.complete (.write output)), output.length, none)
        ∧ (SSTable.write output).loadAll = .ok output := by
  have hsep : Separate sources.flatten := by
    intro a ha b hb hk hs
    exact inj_on_of_nodup_map hdistinct ha hb (Prod.ext hk hs)
  have hout := mergedOutput_eq hasc hsep isBottomLevel
  refine ⟨fun x hx => ?_, mergedOutput sources isBottomLevel, ?_, fun r => ?_, ?_,
    SSTable.loadAll_write⟩
  · cases hfind : find x.key (newest sources.flatten) with
    | none => exact absurd rfl (find_newest_none.mp hfind x hx)
    | some winner =>
      have hwinner := find_newest_some hfind
      exact ⟨winner, hwinner, fun y hy => hy.unique hsep hwinner⟩
  · rw [hout]
    exact (ascending_newest _).filter _
  · rw [hout, mem_filter, mem_newest hsep, Bool.not_eq_true', Bool.and_eq_false_iff]
    simp only [key_eq, ne_eq, beq_iff_eq, not_and, Bool.eq_false_iff]
    tauto
  · have hempty : sources.flatten = [] → mergedOutput sources isBottomLevel = [] := by
      intro h
      rw [hout, h]
      rfl
    rw [compact_run hload outputPath isBottomLevel d hempty]
    simp only [length_eq_zero_iff]

/-! ### A heap -/

instance : Versioned HeapEntry Key where
  key e := e.record.key
  seq e := e.record.seqNum

/-- The heap as a list in which the least entry is searched for. -/
@[reducible] def selectionHeap : MinHeap where
  push e h := e :: h
  pop h := (Versions.pop (h.map fun e => (e, []))).map fun p => (p.1.1, p.2.map Prod.fst)
  push_perm e h := .refl _
  pop_none h := List.map_eq_nil_iff.mp (Versions.pop_none (Option.map_eq_none_iff.mp h))
  pop_perm h := by
    obtain ⟨p, hp, heq⟩ := Option.map_eq_some_iff.mp h
    obtain ⟨rfl, rfl⟩ := Prod.mk.inj heq
    simpa [Function.comp_def] using (pop_some hp).1.map Prod.fst
  pop_least h x hx := by
    obtain ⟨p, hp, heq⟩ := Option.map_eq_some_iff.mp h
    obtain ⟨rfl, rfl⟩ := Prod.mk.inj heq
    have hbefore := (pop_some hp).2 (x, []) (List.mem_map.mpr ⟨x, hx, rfl⟩)
    rw [less_iff]
    exact less_eq_false.mpr hbefore

/-- Two sources: key 1 was written and then deleted, key 2 was written. -/
def deletedSources : List (List Record) :=
  [[{ key := [1], seqNum := 2, type := .delete },
    { key := [2], value := [9], seqNum := 3, type := .put }],
   [{ key := [1], value := [7], seqNum := 1, type := .put }]]

/-- At the bottom level the deleted key is gone. -/
theorem compact_reference_deleted :
    letI := selectionHeap
    letI := BloomSize.sixteenBits
    letI := Remnant.refused
    ∃ output : List Record,
      (∀ r, r ∈ output ↔ IsNewest deletedSources.flatten r.key r
        ∧ ¬(true = true ∧ r.type = .delete))
      ∧ (compact (readersOf (deletedSources.map fun xs => ("", xs)))
            "000003.sst" true).run disk {}
          = (if output.length = 0 then {}
             else Disk.put {} "000003.sst" (.complete (.write output)), output.length, none) := by
  let _ := selectionHeap
  let _ := BloomSize.sixteenBits
  let _ := Remnant.refused
  have hload : loadSources (readersOf (deletedSources.map fun xs => ("", xs)))
      = .ok deletedSources := by
    rw [loadSources_readersOf, map_map]
    rfl
  have hasc : ∀ xs ∈ deletedSources, Ascending xs := by
    intro xs hxs
    simp only [deletedSources, mem_cons, not_mem_nil, or_false] at hxs
    rcases hxs with rfl | rfl
    · exact pairwise_pair.mpr (by decide)
    · exact pairwise_singleton _ _
  obtain ⟨-, output, -, hmem, hrun, -⟩ :=
    compact_reference hload hasc (by decide) "000003.sst" true {}
  exact ⟨output, hmem, hrun⟩

end Lsmdb.Compact

import Lsmdb.Db.Batches

namespace Lsmdb.Db

open Lsmdb.Versions Lsmdb.Effect Lsmdb.Binary

/-!
# Replicas that follow a log

`m index` is the map that the first `index` entries of a log lead to.  A replica follows it if it
shows the map at its applied index while its SSTables hold the map at the durable one; so a
crash takes it back to an earlier index, but not below `lo`, and to the map that belongs there.
-/

/-- What a database shows. -/
abbrev Map := Key → Option Value

section Device
variable [BloomSize] [Remnant] {m : ℕ → Map} {lo : ℕ} {d : Disk} {db : DB}
  {files : List (String × List Record)}

/-- **A replica that follows `m`.** -/
structure Follows (m : ℕ → Map) (lo : ℕ) (d : Disk) (db : DB)
    (files : List (String × List Record)) : Prop where
  replica : Replica d db files
  applied : db.contents files = m db.appliedIndex
  durable : view (files.map Prod.snd) = m db.manifest.appliedIndex
  lo_le : lo ≤ db.manifest.appliedIndex

/-- A new directory, or files from which a replica comes back to `m`. -/
def Kept (m : ℕ → Map) (lo : ℕ) (d : Disk) : Prop :=
  (d.manifest = none ∧ d.dir = [] ∧ m 0 = (fun _ => none) ∧ lo = 0)
    ∨ ∃ state files, Published d state files ∧ view (files.map Prod.snd) = m state.appliedIndex
      ∧ lo ≤ state.appliedIndex

/-- `p` goes on following `m`, also if it is stopped. -/
structure Tracks (m : ℕ → Map) (lo : ℕ) (p : Io (DB × Option String)) (d : Disk) : Prop where
  run : ∃ files, Follows m lo (p.run disk d).1 (p.run disk d).2.1 files
  crash : ∀ t, p.Crash disk d t → Kept m lo t

omit [Remnant] in
theorem Follows.kept (h : Follows m lo d db files) : Kept m lo d :=
  Or.inr ⟨_, _, h.replica.published, h.durable, h.lo_le⟩

omit [Remnant] in
theorem Follows.scratch (h : Follows m lo d db files) {t : Disk} (hoff : Off [db.newName] d t) :
    Kept m lo t :=
  Or.inr ⟨_, _, h.replica.scratch hoff, h.durable, h.lo_le⟩

theorem Follows.ret (h : Follows m lo d db files) (e : Option String) :
    Tracks m lo (.ret (db, e)) d :=
  ⟨⟨files, h⟩, fun _ ht => ht ▸ h.kept⟩

/-! ### Flush and compaction -/

theorem Follows.compact (h : Follows m lo d db files) : Tracks m lo db.compact d := by
  have hhandle := h.replica.handle
  by_cases hne : files = []
  · rw [compact_empty (by rw [hhandle.readers, hne]; rfl)]
    exact h.ret none
  have hview : ∀ mem, view (mem :: (compactedFiles db files).map Prod.snd)
      = view (mem :: files.map Prod.snd) := by
    intro mem
    rw [snd_compactedFiles]
    exact view_compacted mem hhandle.tables_sorted hhandle.gen.layered
  have hnew : ∀ t, Off (files.map Prod.fst)
      ((d.withOutput db files).published (db.compactState files)) t →
      Follows m lo t (db.afterCompact files) (compactedFiles db files) := fun t ht =>
    ⟨h.replica.compacted ht, (hview _).trans h.applied, (hview []).trans h.durable, h.lo_le⟩
  constructor
  · rw [compact_run hhandle hne]
    exact ⟨_, hnew _ (Off.without (fun _ hn => hn) _)⟩
  · intro t ht
    rcases compact_crash hhandle hne ht with hoff | hoff
    · exact h.scratch hoff
    · exact (hnew t hoff).kept

omit [Remnant] in
/-- A published flush makes the applied map durable. -/
theorem Follows.flushed (h : Follows m lo d db files) :
    Follows m lo (d.afterFlush db) db.afterFlush (flushedFiles db files) := by
  have happlied : db.afterFlush.manifest.appliedIndex = db.appliedIndex := by
    show (db.flushState db.newName).appliedIndex = _
    unfold DB.flushState
    rw [if_pos h.replica.mode]
  exact ⟨h.replica.flushed, h.applied, happlied ▸ h.applied,
    happlied ▸ h.lo_le.trans h.replica.applied⟩

theorem Follows.flushEmpty (h : Follows m lo d db files) (hmem : db.mem.entries = []) :
    Tracks m lo db.flushEmpty d := by
  obtain ⟨hhandle, hmode, hlog, -, hbound, -, -, happlied⟩ := h.replica
  unfold DB.flushEmpty
  split
  · let state := { db.manifest with appliedIndex := db.appliedIndex }
    have hvalid : { state with version := 2 : State }.validate = none :=
      hhandle.gen.validate hhandle.names
    have hview : view (files.map Prod.snd) = m db.appliedIndex := by
      rw [← h.applied, DB.contents, hmem]
      rfl
    have hnew : Follows m lo (d.published state)
        { db with manifest := state, durableIndex := db.appliedIndex } files :=
      ⟨⟨⟨hhandle.onDisk, hhandle.gen, hhandle.names, hhandle.readers, hhandle.nextSST⟩, hmode, hlog,
        rfl, fun f hf r hr => (hbound f hf r hr).trans happlied,
        fun r hr => absurd (hmem ▸ hr) List.not_mem_nil, rfl, le_rfl⟩, h.applied, hview,
        h.lo_le.trans happlied⟩
    refine ⟨⟨files, ?_⟩, fun t ht => ?_⟩
    · rw [Prog.run_bind, store_run hvalid]
      exact hnew
    · rw [Prog.crash_bind, store_run hvalid] at ht
      rcases ht with ht | ht
      · rcases store_crash hvalid ht with rfl | rfl
        · exact h.kept
        · exact hnew.kept
      · exact ht ▸ hnew.kept
  · exact h.ret none

theorem Follows.flush (h : Follows m lo d db files) : Tracks m lo db.flush d := by
  by_cases hmem : db.mem.entries = []
  · have hempty : db.flush = db.flushEmpty := by
      unfold DB.flush
      rw [if_pos (by simp [MemTable.sortedEntries, hmem])]
    rw [hempty]
    exact h.flushEmpty hmem
  · have hlater : Tracks m lo db.afterFlush.finishFlush (d.afterFlush db) := by
      unfold DB.finishFlush DB.maybeCompact
      rw [if_neg (by simp [DB.afterFlush, DB.flushed, h.replica.log])]
      split
      · exact h.flushed.ret none
      · exact h.flushed.compact
    refine ⟨?_, fun t ht => ?_⟩
    · rw [flush_run h.replica.handle h.replica.layered hmem]
      exact hlater.run
    · rcases flush_crash h.replica.handle h.replica.layered hmem ht with hoff | ht
      · exact h.scratch hoff
      · exact hlater.crash t ht

/-! ### Calls -/

/-- **`ApplyBatch`** with the mutations that lead to the next map. -/
theorem Follows.applyBatch (h : Follows m lo d db files) {index : ℕ} {mutations : List Mutation}
    (hm : index = db.appliedIndex + 1 → ∀ k, m index k
      = ((firstOf mutations k).map Mutation.result).getD (m db.appliedIndex k)) :
    Tracks m lo (db.applyBatch index mutations) d := by
  rcases applyBatch_cases h.replica.mode index mutations with ⟨e, heq, -⟩ | ⟨rfl, -, heq⟩
  · rw [heq]
    exact h.ret e
  · have hnext : Follows m lo d (db.applied (db.appliedIndex + 1) mutations) files := by
      refine ⟨h.replica.applied_next mutations, ?_, h.durable, h.lo_le⟩
      ext1 k
      rw [h.replica.contents_applied, h.applied]
      exact (hm rfl k).symm
    rw [heq]
    unfold DB.maybeFlush
    split
    · exact hnext.ret none
    · split
      · exact hnext.ret none
      · exact hnext.flush

/-- **`ReplaceReplicaSnapshot`** with a stream of the map at its index. -/
theorem Follows.replaceReplicaSnapshot (h : Follows m lo d db files) {index size : ℕ}
    (hsize : size < 2 ^ 64) {stream : List UInt8}
    (hm : ∀ pairs, db.Accepts index size stream pairs →
      ∀ p : KVPair, p ∈ pairs ↔ m index p.key = some p.value) :
    Tracks m lo (db.replaceReplicaSnapshot index size stream) d := by
  have hmode := h.replica.mode
  have hnew : ∀ pairs, db.Accepts index size stream pairs → ∀ t, Off (db.supplanted index pairs)
      ((d.withReplacement db index pairs).published (db.replacementState index pairs)) t →
      Follows m lo t (db.afterReplacement index pairs) (replacementFiles db index pairs) := by
    intro pairs hpairs t ht
    have hview : view ((replacementFiles db index pairs).map Prod.snd) = m index := by
      ext k v
      exact (view_replacement db index hpairs.sorted ⟨k, v⟩).symm.trans (hm pairs hpairs ⟨k, v⟩)
    exact ⟨h.replica.replacement hpairs.sorted ht, hview, hview,
      h.lo_le.trans (h.replica.applied.trans hpairs.index_le)⟩
  have hpublish : ∀ pairs, db.Accepts index size stream pairs → ∀ t,
      (db.publishReplacement index (readersOf (replacementFiles db index pairs))).Crash disk
        (d.withReplacement db index pairs) t → Kept m lo t := by
    intro pairs hpairs t ht
    rcases publishReplacement_crash hpairs.sorted ht with rfl | hoff
    · exact h.scratch (Disk.off_withReplacement d db index pairs)
    · exact (hnew pairs hpairs t hoff).kept
  constructor
  · by_cases hex : ∃ pairs, db.Accepts index size stream pairs
    · obtain ⟨pairs, hpairs⟩ := hex
      rw [replaceReplicaSnapshot_accepted hmode hsize hpairs]
      exact ⟨_, hnew pairs hpairs _ (Off.without (fun _ hn => hn) _)⟩
    · obtain ⟨e, he, hoff⟩ := replaceReplicaSnapshot_rejected (d := d) hmode hsize
        fun pairs hpairs => hex ⟨pairs, hpairs⟩
      rw [he]
      exact ⟨files, h.replica.off hoff, h.applied, h.durable, h.lo_le⟩
  · intro t ht
    rcases replaceReplicaSnapshot_cases hmode index hsize stream with
      ⟨e, heq, -⟩ | ⟨heq, hpairs⟩ | ⟨count, b, hcount, heq, haccepts⟩
    · rw [heq] at ht
      exact ht ▸ h.kept
    · rw [heq] at ht
      exact hpublish [] hpairs t ht
    · have hkeeps := keeps_streamSnapshot db.newName index count b
      have hscratch := upheld_scratch db.newName d
      rw [heq, Prog.crash_bind] at ht
      -- stopped while the table is streamed, or behind it
      rcases ht with ht | ht
      · exact h.scratch (hkeeps.crash hscratch (Off.refl _ _) ht)
      by_cases hread : ∃ pairs, readPairs count [] b = .ok (pairs, [])
      · obtain ⟨pairs, hread⟩ := hread
        have hpairs := (haccepts pairs).mpr hread
        obtain ⟨rfl, hfit, hb⟩ := readPairs_iff.mp hread
        rw [List.append_nil] at hb
        subst hb
        have hne : pairs ≠ [] := by rintro rfl; exact hcount rfl
        have hstream : (streamSnapshot db.newName index pairs.length (pairs.flatMap encodePair)).run
            disk d = (d.withReplacement db index pairs,
              .ok (readersOf (replacementFiles db index pairs))) := by
          rw [streamSnapshot_ok hne hfit]
          simp [replacementFiles, Disk.withReplacement, hne, readersOf_cons]
        rw [hstream] at ht
        exact hpublish pairs hpairs t ht
      · obtain ⟨e, he⟩ := streamSnapshot_refused (d := d) db.newName index hcount
          fun pairs hpairs => hread ⟨pairs, hpairs⟩
        rw [he] at ht
        exact ht ▸ h.scratch (hkeeps.run hscratch (Off.refl _ _)).1

/-! ### Snapshots -/

omit [BloomSize] [Remnant] in
theorem flatMap_encodePair_inj {ps qs : List KVPair}
    (hps : ∀ p ∈ ps, p.key.length < 256 ^ 4 ∧ p.value.length < 256 ^ 4)
    (hqs : ∀ q ∈ qs, q.key.length < 256 ^ 4 ∧ q.value.length < 256 ^ 4)
    (h : ps.flatMap encodePair = qs.flatMap encodePair) : ps = qs := by
  induction ps generalizing qs with
  | nil => cases qs <;> simp_all [encodePair, toBigEndian]
  | cons p ps ih =>
    cases qs with
    | nil => simp [encodePair, toBigEndian] at h
    | cons q qs =>
      rw [List.forall_mem_cons] at hps hqs
      simp only [List.flatMap_cons, encodePair, List.append_assoc] at h
      obtain ⟨hkeyLen, hrest⟩ := List.append_inj h (by simp)
      obtain ⟨hvalueLen, hrest⟩ := List.append_inj hrest (by simp)
      have hword {a b : ℕ} (ha : a < 256 ^ 4) (hb : b < 256 ^ 4)
          (hab : toBigEndian 4 a = toBigEndian 4 b) : a = b := by
        rw [← ofBigEndian_toBigEndian_of_lt ha, hab, ofBigEndian_toBigEndian_of_lt hb]
      obtain ⟨hkey, hrest⟩ := List.append_inj hrest (hword hps.1.1 hqs.1.1 hkeyLen)
      obtain ⟨hvalue, hrest⟩ := List.append_inj hrest (hword hps.1.2 hqs.1.2 hvalueLen)
      rw [ih hps.2 hqs.2 hrest, show p = q from congr (congrArg KVPair.mk hkey) hvalue]

omit [Remnant] in
theorem Replica.visitReplicaState (h : Replica d db files) :
    ∃ pairs, db.visitReplicaState = .ok pairs ∧ pairs.Pairwise (fun p q => p.key < q.key)
      ∧ ∀ p : KVPair, p ∈ pairs ↔ db.contents files p.key = some p.value := by
  have hasc : ∀ xs ∈ db.mem.entries :: files.map Prod.snd, Ascending xs :=
    List.forall_mem_cons.mpr ⟨db.mem.sorted, h.handle.tables_sorted⟩
  refine ⟨livePairs (newest (db.mem.entries :: files.map Prod.snd).flatten), ?_,
    pairwise_livePairs (ascending_newest _), fun p => ?_⟩
  · rw [DB.visitReplicaState, h.handle.readers, loadSources_readersOf,
      ← merge_seed hasc (separate_flatten hasc h.layered)]
    rfl
  · rw [mem_livePairs (ascending_newest _), ← findFirst_eq_find_newest hasc h.layered]
    rfl

omit [BloomSize] [Remnant] in
theorem length_encodeSnapshot (pairs : List KVPair) :
    16 + 8 * pairs.length ≤ (encodeSnapshot pairs).length := by
  have hrecords : 8 * pairs.length ≤ (pairs.flatMap encodePair).length := by
    induction pairs with
    | nil => simp
    | cons p ps ih => simp [encodePair] at ih ⊢; omega
  simp only [encodeSnapshot, List.length_append, length_toBigEndian, replicaSnapshotMagic,
    List.length_cons, List.length_nil]
  omega

omit [Remnant] in
/-- **`WriteReplicaSnapshot`** writes the map at its index, and whoever accepts it reads that. -/
theorem Follows.writeReplicaSnapshot (h : Follows m lo d db files) {index size : ℕ}
    {stream : List UInt8} (hwrite : db.writeReplicaSnapshot = .ok (index, stream)) {peer : DB}
    {pairs : List KVPair} (hpairs : peer.Accepts index size stream pairs) (p : KVPair) :
    p ∈ pairs ↔ m index p.key = some p.value := by
  obtain ⟨written, hvisit, -, hmem⟩ := h.replica.visitReplicaState
  unfold DB.writeReplicaSnapshot at hwrite
  rw [hvisit] at hwrite
  dsimp only at hwrite
  split_ifs at hwrite with hmode hzero hlarge
  cases hwrite
  have hsame := hpairs.stream_eq
  unfold encodeSnapshot at hsame
  obtain ⟨-, hrecords⟩ := List.append_inj (List.append_cancel_left hsame) (by simp)
  have heq : written = pairs := by
    refine flatMap_encodePair_inj (fun q hq => ?_) (fun q hq => ?_) hrecords
    · by_contra hq'
      exact hlarge ⟨q, hq, by omega⟩
    · have hfits := hpairs.fits q hq
      have := hfits.key_le
      have := hfits.value_le
      unfold maxReplicaSnapshotField at *
      omega
  rw [← heq, hmem, h.applied]

omit [Remnant] in
/-- The stream of a replica is accepted where its index is not behind and its fields fit. -/
theorem Follows.accepted (h : Follows m lo d db files) (hpos : 0 < db.appliedIndex)
    (hfits : ∀ p : KVPair, m db.appliedIndex p.key = some p.value → p.Fits) {peer : DB}
    (hle : peer.appliedIndex ≤ db.appliedIndex) :
    ∃ stream pairs, db.writeReplicaSnapshot = .ok (db.appliedIndex, stream)
      ∧ peer.Accepts db.appliedIndex stream.length stream pairs := by
  obtain ⟨pairs, hvisit, hsorted, hmem⟩ := h.replica.visitReplicaState
  have hall : ∀ p ∈ pairs, p.Fits := fun p hp => hfits p (by rw [← h.applied, (hmem p).mp hp])
  have hlen := length_encodeSnapshot pairs
  refine ⟨encodeSnapshot pairs, pairs, ?_, hpos, hle, by omega, rfl, by omega, hall, hsorted⟩
  unfold DB.writeReplicaSnapshot
  rw [if_neg (by simp [h.replica.mode]), if_neg hpos.ne', hvisit]
  dsimp only
  rw [if_neg]
  rintro ⟨p, hp, hlarge⟩
  obtain ⟨-, hkey, hvalue⟩ := hall p hp
  unfold maxReplicaSnapshotField at hkey hvalue
  omega

/-- **Opening** a new directory, or what such a replica has left. -/
theorem Kept.opens (h : Kept m lo d) {opts : Options} (hmode : opts.durabilityMode = .replica) :
    ∃ d' db files, (openPath opts).run disk d = (d', .ok db) ∧ Follows m lo d' db files
      ∧ db.appliedIndex = db.durableIndex := by
  rcases h with ⟨hmanifest, hdir, hm, rfl⟩ | ⟨state, files, hpublished, hview, hlo⟩
  · have hnew : Published (d.published {}) {} [] :=
      ⟨rfl, Generation.empty _ _, rfl, fun f hf => absurd hf List.not_mem_nil⟩
    exact ⟨_, _, [], openPath_new hmanifest hdir hmode,
      ⟨hnew.replica hmode, hm.symm, hm.symm, le_rfl⟩, rfl⟩
  · exact ⟨_, _, files, openPath_run hmode (openSSTables_published hpublished),
      ⟨hpublished.replica hmode, hview, hview, hlo⟩, rfl⟩

end Device

end Lsmdb.Db

import Lsmdb.Db.Procedures
import Lsmdb.Db.ReplicaSnapshot

namespace Lsmdb.Db

open Lsmdb.Binary Lsmdb.Versions Lsmdb.Effect

/-!
# Replacing a replica's state

What `ReplaceReplicaSnapshot` and `ReplaceReplicaState` leave.  A replacement is accepted if
its index and its format are right (`DB.Accepts`); then the new table alone is published
(`replaceReplicaSnapshot_accepted`).  In all other cases the handle is the one before and at
most the file under the next number has changed (`replaceReplicaSnapshot_rejected`).
-/

theorem Dir.put_put (d : Dir) (name : String) (c c' : FileContent) :
    (d.put name c).put name c' = d.put name c' := by
  simp [Dir.put, Dir.remove, List.filter_filter]

@[simp] theorem Disk.put_put (d : Disk) (name : String) (c c' : FileContent) :
    (d.put name c).put name c' = d.put name c' := by
  simp [Disk.put, Dir.put_put]

/-! ### The pairs as a table -/

/-- The table of a snapshot. -/
def snapshotRecords (index : ℕ) (pairs : List KVPair) : List Record :=
  pairs.map (KVPair.toRecord index)

theorem ascending_snapshotRecords {pairs : List KVPair}
    (h : pairs.Pairwise fun p q => p.key < q.key) (index : ℕ) :
    Ascending (snapshotRecords index pairs) := List.pairwise_map.mpr h

section Device
variable [BloomSize] [Remnant] {d : Disk} {db : DB}

/-! ### Streaming -/

/-- The file of a table that is being streamed. -/
def streaming (expected : ℕ) (rs : List Record) : FileContent :=
  .torn (StreamWriter.holding expected rs).table (StreamWriter.holding expected rs).dataOffset

omit [BloomSize] [Remnant] in
/-- Records that fit can be streamed behind a table that ends at `previous`. -/
private theorem extends_toRecord {p : KVPair} (hp : p.Fits) {previous : Key}
    (hlt : previous < p.key) {rs : List Record}
    (hlast : ∀ x, rs.getLast? = some x → x.key = previous) (index : ℕ) :
    Extends rs (p.toRecord index) := by
  have hmax : maxReplicaSnapshotField ≤ maxUint32 := by decide
  refine ⟨List.length_pos_iff.mp hp.key_pos, fun x hx => ?_, hp.key_le.trans hmax,
    hp.value_le.trans hmax⟩
  rw [hlast x hx]
  exact hlt

/-- The record loop with its writer: what is read is streamed, and an error leaves some part
    of the file. -/
theorem streamPairs_run (name : String) (index expected n : ℕ) :
    ∀ (previous : Key) (b : List UInt8) (rs : List Record), rs.length + n ≤ expected →
      (∀ x, rs.getLast? = some x → x.key = previous) →
      ∃ c, (streamPairs name index n previous b (.holding expected rs)).run disk
          (d.put name (streaming expected rs))
        = (d.put name c,
           match readPairs n previous b with
           | .error e => .error e
           | .ok (ps, rest) =>
               .ok (rest, .holding expected (rs ++ snapshotRecords index ps))) := by
  induction n with
  | zero =>
    intro previous b rs _ _
    refine ⟨streaming expected rs, ?_⟩
    simp [streamPairs, readPairs, snapshotRecords]
  | succ n ih =>
    intro previous b rs hroom hlast
    rw [streamPairs, readPairs]
    cases hp : readPair previous b with
    | error e => exact ⟨streaming expected rs, rfl⟩
    | ok r =>
      obtain ⟨p, b1⟩ := r
      obtain ⟨hfits, hlt, -⟩ := readPair_ok hp
      have hext := extends_toRecord hfits hlt hlast index
      dsimp only
      rw [StreamWriter.add_holding hext (by omega)]
      dsimp only
      obtain ⟨c, hrun⟩ := ih p.key b1 (rs ++ [p.toRecord index])
        (by rw [List.length_append, List.length_singleton]; omega)
        (fun x hx => by
          rw [List.getLast?_concat] at hx
          rw [← Option.some.inj hx]
          rfl)
      refine ⟨c, ?_⟩
      have hstep : disk.perform (.streamTable name (streaming expected (rs ++ [p.toRecord index])))
            (d.put name (streaming expected rs))
          = (d.put name (streaming expected (rs ++ [p.toRecord index])), some ()) := by
        show ((d.put name (streaming expected rs)).put name _, some ()) = _
        rw [Disk.put_put]
      rw [show FileContent.torn _ _ = streaming expected (rs ++ [p.toRecord index]) from rfl,
        Prog.run_attempt_some disk hstep, hrun]
      congr 1
      cases readPairs n p.key b1 with
      | error e => rfl
      | ok r =>
        obtain ⟨ps, rest⟩ := r
        simp [snapshotRecords]

/-! ### Steps on one file -/

/-- Steps that read, or that touch the SSTable `name` only. -/
def FileStep.Scratch (name : String) : FileStep → Prop
  | .openTable _ => True
  | .loadTables => True
  | .writeTable n _ => n = name
  | .streamTable n _ => n = name
  | .removeTable n => n = name
  | _ => False

/-- The contract of a program that works on the SSTable `name`. -/
def scratch (name : String) : Contract FileStep FileStep.Answer :=
  ⟨FileStep.Scratch name, fun _ _ => True⟩

/-- **Such steps leave the other files alone**, whether they are carried out or cut short. -/
theorem upheld_scratch (name : String) (d : Disk) : (scratch name).Upheld disk (Off [name] d) := by
  refine ⟨fun i s hi hs => hs.trans ?_, fun _ _ _ _ _ _ => trivial,
    fun i s t hi hs hcut => hs.trans ?_⟩
  · cases i with
    | openTable n => exact Off.refl _ _
    | loadTables => exact Off.refl _ _
    | writeTable n rs => exact Off.put (List.mem_singleton.mpr hi) s _
    | streamTable n c => exact Off.put (List.mem_singleton.mpr hi) s _
    | removeTable n => exact Off.remove (List.mem_singleton.mpr hi) s
    | _ => exact absurd hi id
  · cases i with
    | writeTable n rs =>
      have hn : n = name := hi
      subst hn
      exact Off.cut_writeTable (Or.inr hcut)
    | streamTable n c =>
      have hn : n ∈ [name] := List.mem_singleton.mpr hi
      rcases hcut with ⟨k, -, rfl⟩ | rfl
      · exact Off.put hn s _
      · exact Off.put hn s _
    | openTable n => exact absurd hcut id
    | loadTables => exact absurd hcut id
    | removeTable n => exact absurd hcut id
    | _ => exact absurd hi id

omit [BloomSize] [Remnant] in
theorem keeps_removeAll {α : Type} {K : Contract FileStep FileStep.Answer} {Q : α → Prop}
    {names : List String} {next : Io α} (hasks : ∀ name ∈ names, K.asks (.removeTable name))
    (h : next.Keeps K Q) : (removeAll names next).Keeps K Q := by
  induction names with
  | nil => exact h
  | cons name rest ih =>
    exact .ignore (hasks name List.mem_cons_self)
      (ih fun n hn => hasks n (List.mem_cons_of_mem _ hn))

omit [BloomSize] [Remnant] in
theorem keeps_streamPairs (name : String) (index : ℕ) (n : ℕ) :
    ∀ previous b w,
      (streamPairs name index n previous b w).Keeps (scratch name) fun _ => True := by
  induction n with
  | zero => intro previous b w; exact .ret trivial
  | succ n ih =>
    intro previous b w
    rw [streamPairs]
    split
    · exact .ret trivial
    · split
      · exact .ret trivial
      · exact .attempt rfl (.ret trivial) fun _ _ => ih _ _ _

/-- The readers in a result are all on the SSTable `name`. -/
def OpenedOn (name : String) (r : Except String (List Reader)) : Prop :=
  ∀ readers, r = .ok readers → ∀ x ∈ readers, x.name = name

omit [BloomSize] [Remnant] in
theorem openedOn_error (name e : String) : OpenedOn name (.error e) := by
  intro readers h
  simp at h

omit [Remnant] in
/-- The streamed snapshot touches no other file. -/
theorem keeps_streamSnapshot (name : String) (index count : ℕ) (b : List UInt8) :
    (streamSnapshot name index count b).Keeps (scratch name) (OpenedOn name) := by
  have hgiven_up : ∀ e : String, (removeAll [name] (.ret (.error e)) : Io _).Keeps
      (scratch name) (OpenedOn name) := fun e =>
    keeps_removeAll (fun _ hn => List.mem_singleton.mp hn) (.ret (openedOn_error name _))
  unfold streamSnapshot
  split
  · exact .ret (openedOn_error name _)
  refine .attempt rfl (.ret (openedOn_error name _)) fun _ _ => .bind (keeps_streamPairs name index count _ _ _) ?_
  intro r _
  split
  · exact hgiven_up _
  split
  · exact hgiven_up _
  split
  · exact hgiven_up _
  · refine .attempt rfl (hgiven_up _) fun _ _ => .attempt trivial (hgiven_up _) ?_
    refine fun t _ => .ret fun readers hreaders x hx => ?_
    rw [← Except.ok.inj hreaders] at hx
    rw [List.mem_singleton.mp hx]

theorem streamSnapshot_ok {name : String} {index : ℕ} {pairs : List KVPair} (hne : pairs ≠ [])
    (hfit : FitAfter [] pairs) :
    (streamSnapshot name index pairs.length (pairs.flatMap encodePair)).run disk d
      = (d.put name (.complete (.write (snapshotRecords index pairs))),
         .ok [{ name := name, table := .write (snapshotRecords index pairs) }]) := by
  have hcount : pairs.length ≠ 0 := fun h => hne (List.length_eq_zero_iff.mp h)
  have hread : readPairs pairs.length [] (pairs.flatMap encodePair) = .ok (pairs, []) :=
    readPairs_iff.mpr ⟨rfl, hfit, (List.append_nil _).symm⟩
  obtain ⟨c, hstream⟩ := streamPairs_run (d := d) name index pairs.length pairs.length []
    (pairs.flatMap encodePair) [] (by simp) (by simp)
  rw [hread] at hstream
  have hfinish : (StreamWriter.holding pairs.length (snapshotRecords index pairs)).finish
      = .ok (.write (snapshotRecords index pairs)) :=
    StreamWriter.finish_holding (by simp [snapshotRecords])
  have hcreate : disk.perform (.streamTable name (streaming pairs.length [])) d
      = (d.put name (streaming pairs.length []), some ()) := rfl
  unfold streamSnapshot
  rw [StreamWriter.new_eq hcount]
  dsimp only
  rw [show FileContent.torn _ _ = streaming pairs.length [] from rfl,
    Prog.run_attempt_some disk hcreate, Prog.run_bind, hstream]
  dsimp only
  rw [List.nil_append, hfinish, if_neg (by simp)]
  dsimp only
  have hcomplete : disk.perform
        (.streamTable name (.complete (.write (snapshotRecords index pairs)))) (d.put name c)
      = (d.put name (.complete (.write (snapshotRecords index pairs))), some ()) := by
    show ((d.put name c).put name _, some ()) = _
    rw [Disk.put_put]
  rw [Prog.run_attempt_some disk hcomplete,
    Prog.run_attempt_some disk (perform_openTable (Dir.get_put_self _ _ _))]
  rfl

theorem streamSnapshot_refused (name : String) (index : ℕ) {count : ℕ} {b : List UInt8}
    (hcount : count ≠ 0) (h : ∀ pairs, readPairs count [] b ≠ .ok (pairs, [])) :
    ∃ e, ((streamSnapshot name index count b).run disk d).2 = .error e := by
  obtain ⟨c, hstream⟩ := streamPairs_run (d := d) name index count count [] b []
    (by simp) (by simp)
  have hcreate : disk.perform (.streamTable name (streaming count [])) d
      = (d.put name (streaming count []), some ()) := rfl
  unfold streamSnapshot
  rw [StreamWriter.new_eq hcount]
  dsimp only
  rw [show FileContent.torn _ _ = streaming count [] from rfl,
    Prog.run_attempt_some disk hcreate, Prog.run_bind, hstream]
  cases hread : readPairs count [] b with
  | error e => exact ⟨e, by rw [removeAll_run]; rfl⟩
  | ok r =>
    obtain ⟨pairs, rest⟩ := r
    have hrest : rest ≠ [] := by
      rintro rfl
      exact h pairs hread
    dsimp only
    rw [if_pos (by simpa using hrest)]
    exact ⟨_, by rw [removeAll_run]; rfl⟩

/-! ### Publishing -/

/-- The files of a replacement. -/
def replacementFiles (db : DB) (index : ℕ) (pairs : List KVPair) :
    List (String × List Record) :=
  if pairs.isEmpty then [] else [(db.newName, snapshotRecords index pairs)]

/-- The disk with the table of a replacement, before it is published. -/
def Disk.withReplacement (d : Disk) (db : DB) (index : ℕ) (pairs : List KVPair) : Disk :=
  if pairs.isEmpty then d
  else d.put db.newName (.complete (.write (snapshotRecords index pairs)))

/-- The manifest of a replacement. -/
def DB.replacementState (db : DB) (index : ℕ) (pairs : List KVPair) : State :=
  db.replacedState index (namesOf (replacementFiles db index pairs))

/-- The handle after a replacement. -/
def DB.afterReplacement (db : DB) (index : ℕ) (pairs : List KVPair) : DB :=
  db.replaced index (readersOf (replacementFiles db index pairs))
    (db.replacementState index pairs)

/-- The SSTables a replacement removes. -/
def DB.supplanted (db : DB) (index : ℕ) (pairs : List KVPair) : List String :=
  (db.readers.map Reader.name).filter fun name =>
    !((replacementFiles db index pairs).map Prod.fst).contains name

/-- The disk after a replacement. -/
def Disk.afterReplacement (d : Disk) (db : DB) (index : ℕ) (pairs : List KVPair) : Disk :=
  ((d.withReplacement db index pairs).published (db.replacementState index pairs)).without
    (db.supplanted index pairs)

omit [BloomSize] [Remnant] in
theorem replacementFiles_names (db : DB) (index : ℕ) (pairs : List KVPair) :
    namesOf (replacementFiles db index pairs)
      = (replacementFiles db index pairs).map Prod.fst := by
  unfold replacementFiles
  split <;> rfl

section
omit [Remnant]

/-- The generation of a replacement stands on the disk with its table. -/
theorem gen_replacement (d : Disk) (db : DB) (index : ℕ) {pairs : List KVPair}
    (hsorted : pairs.Pairwise fun p q => p.key < q.key) :
    Generation (d.withReplacement db index pairs).dir (db.nextSST + 1)
      (replacementFiles db index pairs) := by
  unfold Disk.withReplacement replacementFiles
  split
  · exact Generation.empty _ _
  · exact (Generation.empty d.dir db.nextSST).cons (Nat.lt_succ_self _)
      (ascending_snapshotRecords hsorted index) (List.pairwise_singleton _ _)

theorem replacement_validate (db : DB) (index : ℕ) {pairs : List KVPair}
    (hsorted : pairs.Pairwise fun p q => p.key < q.key) :
    { db.replacementState index pairs with version := 2 : State }.validate = none :=
  (gen_replacement {} db index hsorted).validate rfl

theorem names_replacement (db : DB) (index : ℕ) (pairs : List KVPair) :
    (readersOf (replacementFiles db index pairs)).map Reader.name
      = namesOf (replacementFiles db index pairs) := by
  rw [names_readersOf, replacementFiles_names]

theorem publishReplacement_eq (db : DB) (index : ℕ) (pairs : List KVPair) :
    db.publishReplacement index (readersOf (replacementFiles db index pairs))
      = (store (db.replacementState index pairs)).bind
          (db.finishReplacement index (readersOf (replacementFiles db index pairs))) := by
  unfold DB.publishReplacement DB.replacementState
  rw [names_replacement]

theorem finishReplacement_none (db : DB) (index : ℕ) (pairs : List KVPair) :
    db.finishReplacement index (readersOf (replacementFiles db index pairs)) none
      = removeAll (db.supplanted index pairs) (.ret (db.afterReplacement index pairs, none)) := by
  unfold DB.finishReplacement DB.supplanted DB.afterReplacement DB.replacementState
  dsimp only
  rw [names_replacement, ← replacementFiles_names]

end

theorem publishReplacement_run (index : ℕ) {pairs : List KVPair}
    (hsorted : pairs.Pairwise fun p q => p.key < q.key) :
    (db.publishReplacement index (readersOf (replacementFiles db index pairs))).run disk
        (d.withReplacement db index pairs)
      = (d.afterReplacement db index pairs, (db.afterReplacement index pairs, none)) := by
  rw [publishReplacement_eq, Prog.run_bind, store_run (replacement_validate db index hsorted)]
  dsimp only
  rw [finishReplacement_none, removeAll_run]
  rfl

end Device

/-! ### Acceptance -/

/-- The replacement of a state by `pairs` from this stream is accepted. -/
structure DB.Accepts (db : DB) (index size : ℕ) (stream : List UInt8) (pairs : List KVPair) :
    Prop where
  index_pos : 0 < index
  index_le : db.appliedIndex ≤ index
  size_le : 16 ≤ size
  stream_eq : stream = encodeSnapshot pairs
  count_le : pairs.length ≤ (size - 16) / 8
  fits : ∀ p ∈ pairs, p.Fits
  sorted : pairs.Pairwise fun p q => p.key < q.key

theorem checkReplacement_none {db : DB} {index : ℕ} :
    db.checkReplacement index = none
      ↔ db.isReplica = true ∧ 0 < index ∧ db.appliedIndex ≤ index := by
  unfold DB.checkReplacement
  cases db.isReplica with
  | false => simp
  | true =>
    rw [if_neg (by simp)]
    by_cases h0 : index = 0
    · simp [h0]
    by_cases hlt : index < db.appliedIndex
    · simp [h0, hlt]
    · rw [if_neg h0, if_neg hlt]
      simp only [true_and, true_iff]
      omega

section Device
variable [BloomSize] [Remnant] {d : Disk} {db : DB}

section
omit [BloomSize] [Remnant]

theorem DB.Accepts.fitAfter {index size : ℕ} {stream : List UInt8} {pairs : List KVPair}
    (h : db.Accepts index size stream pairs) : FitAfter [] pairs := by
  refine fitAfter_iff.mpr ⟨h.fits, fun p hp => ?_, h.sorted⟩
  have hpos := (h.fits p hp).key_pos
  cases hkey : p.key with
  | nil => rw [hkey] at hpos; simp at hpos
  | cons b bs => exact List.nil_lt_cons b bs

/-- Behind a header, the records decide. -/
theorem accepts_iff {index size count : ℕ} {stream b : List UInt8} {pairs : List KVPair}
    (hcheck : db.checkReplacement index = none) (hsize : size < 2 ^ 64)
    (hheader : readHeader size stream = .ok (count, b)) :
    db.Accepts index size stream pairs ↔ readPairs count [] b = .ok (pairs, []) := by
  obtain ⟨-, hpos, hle⟩ := checkReplacement_none.mp hcheck
  obtain ⟨hlong, hcount, hstream⟩ := (readHeader_iff hsize).mp hheader
  constructor
  · intro h
    have hlen := h.count_le
    have hsame := h.stream_eq
    rw [hstream, encodeSnapshot] at hsame
    obtain ⟨hword, hb⟩ := List.append_inj (List.append_cancel_left hsame) (by simp)
    have hn : count = pairs.length := by
      rw [← ofBigEndian_toBigEndian_of_lt (show count < 256 ^ 8 by omega), hword,
        ofBigEndian_toBigEndian_of_lt (by omega)]
    rw [hn, hb]
    exact readPairs_iff.mpr ⟨rfl, h.fitAfter, (List.append_nil _).symm⟩
  · intro h
    obtain ⟨rfl, hfit, rfl⟩ := readPairs_iff.mp h
    obtain ⟨hfits, -, hsorted⟩ := fitAfter_iff.mp hfit
    rw [List.append_nil] at hstream
    exact ⟨hpos, hle, hlong, hstream, hcount, hfits, hsorted⟩

/-- An accepted stream passes the checks in front of the records. -/
theorem DB.Accepts.header {index size : ℕ} {stream : List UInt8} {pairs : List KVPair}
    (hreplica : db.isReplica = true) (hsize : size < 2 ^ 64)
    (h : db.Accepts index size stream pairs) :
    db.checkReplacement index = none
      ∧ readHeader size stream = .ok (pairs.length, pairs.flatMap encodePair) :=
  ⟨checkReplacement_none.mpr ⟨hreplica, h.index_pos, h.index_le⟩,
    (readHeader_iff hsize).mpr ⟨h.size_le, h.count_le, h.stream_eq⟩⟩

end

omit [Remnant] in
/-- **What `ReplaceReplicaSnapshot` does**: it refuses at once, or publishes an empty state, or
    streams the records and goes on with what comes of that. -/
theorem replaceReplicaSnapshot_cases (hreplica : db.isReplica = true) (index : ℕ) {size : ℕ}
    (hsize : size < 2 ^ 64) (stream : List UInt8) :
    (∃ e, db.replaceReplicaSnapshot index size stream = .ret (db, some e)
        ∧ ∀ pairs, ¬db.Accepts index size stream pairs)
      ∨ (db.replaceReplicaSnapshot index size stream = db.publishReplacement index []
          ∧ db.Accepts index size stream [])
      ∨ ∃ count b, count ≠ 0
          ∧ db.replaceReplicaSnapshot index size stream
              = (streamSnapshot db.newName index count b).bind (db.publishStreamed index)
          ∧ ∀ pairs, db.Accepts index size stream pairs
              ↔ readPairs count [] b = .ok (pairs, []) := by
  unfold DB.replaceReplicaSnapshot
  cases hcheck : db.checkReplacement index with
  | some e =>
    refine Or.inl ⟨e, rfl, fun pairs h => ?_⟩
    rw [(h.header hreplica hsize).1] at hcheck
    simp at hcheck
  | none =>
    cases hheader : readHeader size stream with
    | error e =>
      refine Or.inl ⟨e, rfl, fun pairs h => ?_⟩
      rw [(h.header hreplica hsize).2] at hheader
      simp at hheader
    | ok r =>
      obtain ⟨count, b⟩ := r
      have haccepts : ∀ pairs, db.Accepts index size stream pairs
          ↔ readPairs count [] b = .ok (pairs, []) :=
        fun _ => accepts_iff hcheck hsize hheader
      by_cases hzero : count = 0
      · subst hzero
        cases b with
        | nil => exact Or.inr (Or.inl ⟨rfl, (haccepts []).mpr rfl⟩)
        | cons x b =>
          refine Or.inl ⟨_, rfl, fun pairs h => ?_⟩
          simpa [readPairs] using (haccepts pairs).mp h
      · dsimp only
        rw [if_neg hzero]
        exact Or.inr (Or.inr ⟨count, b, hzero, rfl, haccepts⟩)

/-- **An accepted snapshot** is published alone, under its index. -/
theorem replaceReplicaSnapshot_accepted {index size : ℕ} {stream : List UInt8}
    {pairs : List KVPair} (hreplica : db.isReplica = true) (hsize : size < 2 ^ 64)
    (h : db.Accepts index size stream pairs) :
    (db.replaceReplicaSnapshot index size stream).run disk d
      = (d.afterReplacement db index pairs, (db.afterReplacement index pairs, none)) := by
  obtain ⟨hcheck, hheader⟩ := h.header hreplica hsize
  have hpublish : (db.publishReplacement index _).run disk (d.withReplacement db index pairs) = _ :=
    publishReplacement_run index h.sorted
  unfold DB.replaceReplicaSnapshot
  rw [hcheck, hheader]
  dsimp only
  cases pairs with
  | nil => exact hpublish
  | cons p ps =>
    rw [if_neg (by simp), Prog.run_bind, streamSnapshot_ok (by simp) h.fitAfter]
    exact hpublish

/-- **A snapshot that is not accepted** leaves the handle as it was, and at most the file under
    the next number has changed. -/
theorem replaceReplicaSnapshot_rejected {index size : ℕ} {stream : List UInt8}
    (hreplica : db.isReplica = true) (hsize : size < 2 ^ 64)
    (h : ∀ pairs, ¬db.Accepts index size stream pairs) :
    ∃ e, ((db.replaceReplicaSnapshot index size stream).run disk d).2 = (db, some e)
      ∧ Off [db.newName] d ((db.replaceReplicaSnapshot index size stream).run disk d).1 := by
  rcases replaceReplicaSnapshot_cases hreplica index hsize stream with
    ⟨e, heq, -⟩ | ⟨-, haccepts⟩ | ⟨count, b, hcount, heq, haccepts⟩
  · rw [heq]
    exact ⟨e, rfl, Off.refl _ _⟩
  · exact absurd haccepts (h [])
  · obtain ⟨e, he⟩ := streamSnapshot_refused (d := d) db.newName index hcount
      fun pairs hread => h pairs ((haccepts pairs).mpr hread)
    have hoff := ((keeps_streamSnapshot db.newName index count b).run
      (upheld_scratch db.newName d) (Off.refl _ _)).1
    rw [heq, Prog.run_bind, he]
    exact ⟨e, rfl, hoff⟩

/-! ### What a replaced state shows -/

omit [BloomSize] [Remnant] in
theorem livePairs_snapshotRecords (index : ℕ) (pairs : List KVPair) :
    livePairs (snapshotRecords index pairs) = pairs := by
  induction pairs with
  | nil => rfl
  | cons p rest ih =>
    show p :: livePairs (snapshotRecords index rest) = _
    rw [ih]

omit [BloomSize] [Remnant] in
theorem view_replacement (db : DB) (index : ℕ) {pairs : List KVPair}
    (hsorted : pairs.Pairwise fun p q => p.key < q.key) (p : KVPair) :
    p ∈ pairs ↔ view ((replacementFiles db index pairs).map Prod.snd) p.key = some p.value := by
  have hlive := mem_livePairs (ascending_snapshotRecords hsorted index) p
  rw [livePairs_snapshotRecords] at hlive
  rw [hlive]
  cases pairs with
  | nil => rfl
  | cons q rest =>
    show _ ↔ (findFirst p.key [snapshotRecords index (q :: rest)]).bind Record.live = _
    rw [findFirst]
    cases find p.key (snapshotRecords index (q :: rest)) with
    | none => rfl
    | some r => rfl

end Device

end Lsmdb.Db

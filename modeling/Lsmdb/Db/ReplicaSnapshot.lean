import Lsmdb.Db.Engine
import Lsmdb.Db.StreamWriter

namespace Lsmdb.Db

open Lsmdb.Binary Lsmdb.Versions Lsmdb.Effect

/-!
# Replica snapshots

`ReplaceReplicaSnapshot` of `db/replica_snapshot.go` and `ReplaceReplicaState` of `db/db.go`.
The stream is read record by record while the new SSTable is written; a reader error can only
be the end of the stream.

`readPairs_iff` — the record loop accepts exactly the encodings of pairs with admissible
lengths and strictly increasing keys.
-/

/-! ### The format -/

/-- `replicaSnapshotMagic`: `LSMSNAP` and a version. -/
def replicaSnapshotMagic : List UInt8 := [76, 83, 77, 83, 78, 65, 80, 1]

/-- `maxReplicaSnapshotField`. -/
def maxReplicaSnapshotField : ℕ := 64 * 2 ^ 20

/-- A record of a snapshot: both lengths, the key and the value. -/
def encodePair (p : KVPair) : List UInt8 :=
  toBigEndian 4 p.key.length ++ (toBigEndian 4 p.value.length ++ (p.key ++ p.value))

/-- The snapshot of a list of pairs. -/
def encodeSnapshot (pairs : List KVPair) : List UInt8 :=
  replicaSnapshotMagic ++ (toBigEndian 8 pairs.length ++ pairs.flatMap encodePair)

/-- The lengths a snapshot record may have. -/
structure KVPair.Fits (p : KVPair) : Prop where
  key_pos : 0 < p.key.length
  key_le : p.key.length ≤ maxReplicaSnapshotField
  value_le : p.value.length ≤ maxReplicaSnapshotField

/-- The pairs have admissible lengths, and their keys increase strictly from `previous` on. -/
def FitAfter : Key → List KVPair → Prop
  | _, [] => True
  | previous, p :: ps => p.Fits ∧ previous < p.key ∧ FitAfter p.key ps

theorem fitAfter_iff {ps : List KVPair} :
    ∀ {previous : Key}, FitAfter previous ps ↔ (∀ p ∈ ps, p.Fits)
      ∧ (∀ p ∈ ps, previous < p.key) ∧ ps.Pairwise fun p q => p.key < q.key := by
  induction ps with
  | nil => intro previous; simp [FitAfter]
  | cons p ps ih =>
    intro previous
    rw [FitAfter, ih, List.forall_mem_cons, List.forall_mem_cons, List.pairwise_cons]
    constructor
    · rintro ⟨hp, hlt, hfits, hnext, hsorted⟩
      exact ⟨⟨hp, hfits⟩, ⟨hlt, fun q hq => hlt.trans (hnext q hq)⟩, hnext, hsorted⟩
    · rintro ⟨⟨hp, hfits⟩, ⟨hlt, -⟩, hnext, hsorted⟩
      exact ⟨hp, hlt, hfits, hnext, hsorted⟩

/-- The live records, in the order of the visits of `visitReplicaStateLocked`. -/
def DB.visitReplicaState (db : DB) : Except String (List KVPair) :=
  match loadSources db.readers with
  | .error e => .error e
  | .ok sources => .ok (livePairs (merge (seed (db.mem.sortedEntries :: sources))))

/-- `WriteReplicaSnapshot` to a writer without errors: the index and the bytes. -/
def DB.writeReplicaSnapshot (db : DB) : Except String (ℕ × List UInt8) :=
  if !db.isReplica then .error "replica state export requires replica durability mode"
  else if db.appliedIndex = 0 then .error "cannot snapshot an unapplied replica"
  else match db.visitReplicaState with
    | .error e => .error e
    | .ok pairs =>
      if ∃ p ∈ pairs, 2 ^ 32 ≤ p.key.length ∨ 2 ^ 32 ≤ p.value.length then
        .error "snapshot record is too large"
      else .ok (db.appliedIndex, encodeSnapshot pairs)

/-! ### Reading -/

/-- `io.ReadFull` of `n` bytes: what was read, and the rest of the stream. -/
def readFull (n : ℕ) (b : List UInt8) : Option (List UInt8 × List UInt8) :=
  if b.length < n then none else some (b.take n, b.drop n)

/-- The error of `io.ReadFull` at the end of the stream. -/
def eofText (b : List UInt8) : String := if b.isEmpty then "EOF" else "unexpected EOF"

/-- The part of `ReplaceReplicaSnapshot` in front of the records: the number of records, and
    the rest of the stream. -/
def readHeader (size : ℕ) (stream : List UInt8) : Except String (ℕ × List UInt8) :=
  if size < replicaSnapshotMagic.length + 8 then .error "state snapshot is truncated"
  else
  match readFull 8 stream with
  | none => .error "invalid state snapshot magic"
  | some (magic, b) =>
  if magic ≠ replicaSnapshotMagic then .error "invalid state snapshot magic"
  else
  match readFull 8 b with
  | none => .error s!"decode snapshot count: {eofText b}"
  | some (word, b) =>
  let count := ofBigEndian word
  if (size - replicaSnapshotMagic.length - 8) / 8 < count ∨ 2 ^ 63 - 1 < count then
    .error "invalid state snapshot record count"
  else .ok (count, b)

/-- One turn of the record loop, up to the new record. -/
def readPair (previous : Key) (b : List UInt8) : Except String (KVPair × List UInt8) :=
  match readFull 4 b with
  | none => .error s!"decode snapshot key length: {eofText b}"
  | some (keyWord, b) =>
  match readFull 4 b with
  | none => .error s!"decode snapshot value length: {eofText b}"
  | some (valueWord, b) =>
  let keyLen := ofBigEndian keyWord
  let valueLen := ofBigEndian valueWord
  if keyLen = 0 ∨ maxReplicaSnapshotField < keyLen ∨ maxReplicaSnapshotField < valueLen then
    .error "invalid state snapshot record size"
  else
  match readFull keyLen b with
  | none => .error "truncated state snapshot record"
  | some (key, b) =>
  match readFull valueLen b with
  | none => .error "truncated state snapshot record"
  | some (value, b) =>
  if key ≤ previous then .error "snapshot keys must be non-empty and strictly sorted"
  else .ok ({ key := key, value := value }, b)

/-- The record loop without the writer. -/
def readPairs : ℕ → Key → List UInt8 → Except String (List KVPair × List UInt8)
  | 0, _, b => .ok ([], b)
  | n + 1, previous, b =>
      match readPair previous b with
      | .error e => .error e
      | .ok (p, b) =>
          match readPairs n p.key b with
          | .error e => .error e
          | .ok (ps, b) => .ok (p :: ps, b)

theorem readFull_append {n : ℕ} {a : List UInt8} (h : a.length = n) (b : List UInt8) :
    readFull n (a ++ b) = some (a, b) := by
  rw [readFull, if_neg (by rw [List.length_append]; omega), List.take_left' h, List.drop_left' h]

theorem readFull_some {n : ℕ} {b a rest : List UInt8} (h : readFull n b = some (a, rest)) :
    a.length = n ∧ b = a ++ rest := by
  unfold readFull at h
  split at h
  · simp at h
  · rename_i hlen
    obtain ⟨rfl, rfl⟩ := Prod.mk.inj (Option.some.inj h)
    exact ⟨by rw [List.length_take]; omega, (List.take_append_drop n b).symm⟩

/-- **The header**: the magic and a count that the size has room for. -/
theorem readHeader_iff {size : ℕ} (hsize : size < 2 ^ 64) {stream b : List UInt8} {count : ℕ} :
    readHeader size stream = .ok (count, b)
      ↔ 16 ≤ size ∧ count ≤ (size - 16) / 8
        ∧ stream = replicaSnapshotMagic ++ (toBigEndian 8 count ++ b) := by
  constructor
  · intro h
    unfold readHeader at h
    split at h
    · simp at h
    rename_i hlong
    cases hmagic : readFull 8 stream with
    | none => rw [hmagic] at h; simp at h
    | some r1 =>
    obtain ⟨magic, b1⟩ := r1
    rw [hmagic] at h
    dsimp only at h
    split at h
    · simp at h
    rename_i hmagic_eq
    cases hword : readFull 8 b1 with
    | none => rw [hword] at h; simp at h
    | some r2 =>
    obtain ⟨word, b2⟩ := r2
    rw [hword] at h
    dsimp only at h
    split at h
    · simp at h
    rename_i hcount
    obtain ⟨rfl, rfl⟩ := Prod.mk.inj (Except.ok.inj h)
    obtain ⟨-, rfl⟩ := readFull_some hmagic
    obtain ⟨hlen, rfl⟩ := readFull_some hword
    refine ⟨Nat.not_lt.mp hlong, ?_, ?_⟩
    · have : ¬(size - 8 - 8) / 8 < ofBigEndian word := fun hlt => hcount (Or.inl hlt)
      omega
    · rw [not_not.mp hmagic_eq, toBigEndian_ofBigEndian_of_length hlen]
  · rintro ⟨hlong, hcount, rfl⟩
    have hword : ofBigEndian (toBigEndian 8 count) = count :=
      ofBigEndian_toBigEndian_of_lt (by omega)
    have hcount_ok : ¬((size - replicaSnapshotMagic.length - 8) / 8 < count
        ∨ 2 ^ 63 - 1 < count) := by
      show ¬((size - 8 - 8) / 8 < count ∨ 2 ^ 63 - 1 < count)
      omega
    unfold readHeader
    rw [if_neg (show ¬size < replicaSnapshotMagic.length + 8 from Nat.not_lt.mpr hlong),
      readFull_append (show replicaSnapshotMagic.length = 8 from rfl)]
    dsimp only
    rw [if_neg (by simp), readFull_append (length_toBigEndian 8 _)]
    dsimp only
    rw [hword, if_neg hcount_ok]

private theorem field_lt {n : ℕ} (h : n ≤ maxReplicaSnapshotField) : n < 256 ^ 4 :=
  lt_of_le_of_lt h (by decide)

theorem readPair_encodePair {p : KVPair} (hp : p.Fits) {previous : Key} (hlt : previous < p.key)
    (rest : List UInt8) : readPair previous (encodePair p ++ rest) = .ok (p, rest) := by
  have hkey := ofBigEndian_toBigEndian_of_lt (field_lt hp.key_le)
  have hvalue := ofBigEndian_toBigEndian_of_lt (field_lt hp.value_le)
  have hsizes : ¬(p.key.length = 0 ∨ maxReplicaSnapshotField < p.key.length
      ∨ maxReplicaSnapshotField < p.value.length) := by
    have h1 := hp.key_pos
    have h2 := hp.key_le
    have h3 := hp.value_le
    omega
  simp only [readPair, encodePair, List.append_assoc,
    readFull_append (length_toBigEndian 4 _), hkey, hvalue, if_neg hsizes, readFull_append rfl,
    if_neg (not_le.mpr hlt)]

/-- **What is read is a record** that fits and continues the keys. -/
theorem readPair_ok {previous : Key} {b rest : List UInt8} {p : KVPair}
    (h : readPair previous b = .ok (p, rest)) :
    p.Fits ∧ previous < p.key ∧ b = encodePair p ++ rest := by
  unfold readPair at h
  cases hk : readFull 4 b with
  | none => rw [hk] at h; simp at h
  | some r1 =>
  obtain ⟨keyWord, b1⟩ := r1
  rw [hk] at h
  dsimp only at h
  cases hv : readFull 4 b1 with
  | none => rw [hv] at h; simp at h
  | some r2 =>
  obtain ⟨valueWord, b2⟩ := r2
  rw [hv] at h
  dsimp only at h
  split at h
  · simp at h
  rename_i hsizes
  cases hkey : readFull (ofBigEndian keyWord) b2 with
  | none => rw [hkey] at h; simp at h
  | some r3 =>
  obtain ⟨key, b3⟩ := r3
  rw [hkey] at h
  dsimp only at h
  cases hvalue : readFull (ofBigEndian valueWord) b3 with
  | none => rw [hvalue] at h; simp at h
  | some r4 =>
  obtain ⟨value, b4⟩ := r4
  rw [hvalue] at h
  dsimp only at h
  split at h
  · simp at h
  rename_i hsorted
  obtain ⟨rfl, rfl⟩ := Prod.mk.inj (Except.ok.inj h)
  obtain ⟨hkl, rfl⟩ := readFull_some hk
  obtain ⟨hvl, rfl⟩ := readFull_some hv
  obtain ⟨hklen, rfl⟩ := readFull_some hkey
  obtain ⟨hvlen, rfl⟩ := readFull_some hvalue
  refine ⟨⟨?_, ?_, ?_⟩, not_le.mp hsorted, ?_⟩
  · show 0 < key.length
    omega
  · show key.length ≤ _
    omega
  · show value.length ≤ _
    omega
  · simp only [encodePair, List.append_assoc, hklen, hvlen,
      toBigEndian_ofBigEndian_of_length hkl, toBigEndian_ofBigEndian_of_length hvl]

/-- **The record loop accepts exactly the format.** -/
theorem readPairs_iff {n : ℕ} {ps : List KVPair} {rest : List UInt8} :
    ∀ {previous : Key} {b : List UInt8}, readPairs n previous b = .ok (ps, rest)
      ↔ ps.length = n ∧ FitAfter previous ps ∧ b = ps.flatMap encodePair ++ rest := by
  induction n generalizing ps with
  | zero =>
    intro previous b
    rw [readPairs, Except.ok.injEq, Prod.mk.injEq]
    constructor
    · rintro ⟨rfl, rfl⟩
      exact ⟨rfl, trivial, rfl⟩
    · rintro ⟨hlen, -, hb⟩
      obtain rfl := List.length_eq_zero_iff.mp hlen
      exact ⟨rfl, hb⟩
  | succ n ih =>
    intro previous b
    rw [readPairs]
    constructor
    · intro h
      cases hp : readPair previous b with
      | error e => rw [hp] at h; simp at h
      | ok r =>
        obtain ⟨p, b1⟩ := r
        rw [hp] at h
        dsimp only at h
        cases hps : readPairs n p.key b1 with
        | error e => rw [hps] at h; simp at h
        | ok r =>
          obtain ⟨qs, b2⟩ := r
          rw [hps] at h
          obtain ⟨rfl, rfl⟩ := Prod.mk.inj (Except.ok.inj h)
          obtain ⟨hfits, hlt, rfl⟩ := readPair_ok hp
          obtain ⟨hlen, hafter, rfl⟩ := ih.mp hps
          exact ⟨by rw [List.length_cons, hlen], ⟨hfits, hlt, hafter⟩, by simp⟩
    · rintro ⟨hlen, hafter, rfl⟩
      cases ps with
      | nil => simp at hlen
      | cons p ps =>
        obtain ⟨hfits, hlt, hrest⟩ := hafter
        have hread : readPairs n p.key (ps.flatMap encodePair ++ rest) = .ok (ps, rest) :=
          ih.mpr ⟨by simpa using hlen, hrest, rfl⟩
        rw [List.flatMap_cons, List.append_assoc, readPair_encodePair hfits hlt]
        dsimp only
        rw [hread]

/-! ### Replacing the state -/

/-- The record a snapshot pair becomes. -/
def KVPair.toRecord (index : ℕ) (p : KVPair) : Record :=
  { key := p.key, value := p.value, seqNum := index, type := .put }

/-- The handle after its state has been replaced. -/
def DB.replaced (db : DB) (index : ℕ) (newReaders : List Reader) (state : State) : DB :=
  { db with
    readers := newReaders
    mem := .newWithSeq (index + 1)
    nextSST := db.nextSST + 1
    manifest := state
    appliedIndex := index
    durableIndex := index }

/-- The manifest a replacement publishes. -/
def DB.replacedState (db : DB) (index : ℕ) (names : List String) : State :=
  { db.manifest with sstables := names, nextSST := db.nextSST + 1, appliedIndex := index }

/-- What both replacements do once the manifest has been stored, or not. -/
def DB.finishReplacement (db : DB) (index : ℕ) (newReaders : List Reader) :
    Option String → Io (DB × Option String)
  | some e =>
      removeAll (newReaders.map Reader.name)
        (.ret (db, some s!"publish snapshot manifest: {e}"))
  | none =>
      let newNames := newReaders.map Reader.name
      removeAll ((db.readers.map Reader.name).filter fun name => !newNames.contains name)
        (.ret (db.replaced index newReaders (db.replacedState index newNames), none))

/-- The end of both replacements: the new SSTable, if there is one, takes the place of all
    others. -/
def DB.publishReplacement (db : DB) (index : ℕ) (newReaders : List Reader) :
    Io (DB × Option String) :=
  (store (db.replacedState index (newReaders.map Reader.name))).bind
    (db.finishReplacement index newReaders)

/-- The checks both replacements start with. -/
def DB.checkReplacement (db : DB) (index : ℕ) : Option String :=
  if !db.isReplica then some "replica state replacement requires replica durability mode"
  else if index = 0 then some "snapshot index must be positive"
  else if index < db.appliedIndex then
    some s!"snapshot index {index} is older than applied index {db.appliedIndex}"
  else none

/-- The loop of `ReplaceReplicaState` over the pairs. -/
def snapshotPairsOk : List KVPair → Bool
  | [] => true
  | [p] => !p.key.isEmpty
  | p :: q :: rest => !p.key.isEmpty && decide (p.key < q.key) && snapshotPairsOk (q :: rest)

/-- `ReplaceReplicaState`. -/
def DB.replaceReplicaState (db : DB) (index : ℕ) (pairs : List KVPair) :
    Io (DB × Option String) :=
  match db.checkReplacement index with
  | some e => .ret (db, some e)
  | none =>
      if !snapshotPairsOk pairs then
        .ret (db, some "snapshot keys must be non-empty and strictly sorted")
      else if pairs.isEmpty then db.publishReplacement index []
      else
        let name := sstName (db.nextSST + 1)
        .attempt (.writeTable name (pairs.map (KVPair.toRecord index)))
          (.ret (db, some "write snapshot sstable")) fun _ =>
        .attempt (.openTable name)
          (removeAll [name] (.ret (db, some "open snapshot sstable"))) fun t =>
        db.publishReplacement index [{ name := name, table := t }]

/-- The record loop of `ReplaceReplicaSnapshot`. -/
def streamPairs (name : String) (index : ℕ) :
    ℕ → Key → List UInt8 → StreamWriter → Io (Except String (List UInt8 × StreamWriter))
  | 0, _, b, w => .ret (.ok (b, w))
  | n + 1, previous, b, w =>
      match readPair previous b with
      | .error e => .ret (.error e)
      | .ok (p, b) =>
          match w.add (p.toRecord index) with
          | .error e => .ret (.error s!"write snapshot sstable: {e}")
          | .ok w =>
              .attempt (.streamTable name (.torn w.table w.dataOffset))
                (.ret (.error "write snapshot sstable: write record")) fun _ =>
              streamPairs name index n p.key b w

/-- The new SSTable of `ReplaceReplicaSnapshot`, for a positive count.  Every way out after the
    file has been created goes through `Abort`, which removes it. -/
def streamSnapshot [BloomSize] (name : String) (index count : ℕ) (b : List UInt8) :
    Io (Except String (List Reader)) :=
  match StreamWriter.new count with
  | .error e => .ret (.error s!"create snapshot sstable: {e}")
  | .ok w =>
      .attempt (.streamTable name (.torn w.table w.dataOffset))
        (.ret (.error "create snapshot sstable: create sstable")) fun _ =>
      (streamPairs name index count [] b w).bind fun
        | .error e => removeAll [name] (.ret (.error e))
        | .ok (rest, w) =>
            if !rest.isEmpty then
              removeAll [name] (.ret (.error "state snapshot has trailing data"))
            else
              match w.finish with
              | .error e => removeAll [name] (.ret (.error s!"finish snapshot sstable: {e}"))
              | .ok t =>
                  .attempt (.streamTable name (.complete t))
                    (removeAll [name] (.ret (.error "finish snapshot sstable"))) fun _ =>
                  .attempt (.openTable name)
                    (removeAll [name] (.ret (.error "open snapshot sstable"))) fun t =>
                  .ret (.ok [{ name := name, table := t }])

/-- The end of `ReplaceReplicaSnapshot`, once the new SSTable is there or has been given up. -/
def DB.publishStreamed (db : DB) (index : ℕ) :
    Except String (List Reader) → Io (DB × Option String)
  | .error e => .ret (db, some e)
  | .ok newReaders => db.publishReplacement index newReaders

/-- `ReplaceReplicaSnapshot`. -/
def DB.replaceReplicaSnapshot [BloomSize] (db : DB) (index size : ℕ) (stream : List UInt8) :
    Io (DB × Option String) :=
  match db.checkReplacement index with
  | some e => .ret (db, some e)
  | none =>
      match readHeader size stream with
      | .error e => .ret (db, some e)
      | .ok (count, b) =>
          if count = 0 then
            if !b.isEmpty then .ret (db, some "state snapshot has trailing data")
            else db.publishReplacement index []
          else
            (streamSnapshot (sstName (db.nextSST + 1)) index count b).bind
              (db.publishStreamed index)

end Lsmdb.Db

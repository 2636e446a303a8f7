import Lsmdb.Db.Files

namespace Lsmdb.Db

open Lsmdb.Versions Lsmdb.Effect

/-!
# Database engine

`db/db.go`, with `Compact` of `internal/compact` and `Store` of `internal/manifest`.  A
procedure takes the handle in memory, goes through its file steps and returns the handle
and an error; locks, counters and log lines are left out.  Error texts end where the text
of the failed file operation would follow.
-/

/-! ### Options and handles -/

/-- `DurabilityMode`. -/
inductive DurabilityMode where
  | embedded
  | replica
  deriving DecidableEq, Repr

/-- `Options`. -/
structure Options where
  flushThreshold : ℤ := 0
  compactionThreshold : ℤ := 0
  durabilityMode : DurabilityMode := .embedded
  deriving DecidableEq, Repr

/-- The effective flush threshold. -/
def Options.flushAt (o : Options) : ℕ :=
  if o.flushThreshold ≤ 0 then 1000 else o.flushThreshold.toNat

/-- The effective compaction threshold. -/
def Options.compactAt (o : Options) : ℕ :=
  if o.compactionThreshold ≤ 0 then 4 else o.compactionThreshold.toNat

/-- An open SSTable: its file name and its contents. -/
structure Reader where
  name : String
  table : SSTable
  deriving DecidableEq, Repr

/-- `KVPair`. -/
structure KVPair where
  key : Key
  value : Value
  deriving DecidableEq, Repr

/-- `DB`.  `onDisk` stands for a path that is not empty, `log` for an open WAL; `readers` are
    newest first. -/
structure DB where
  mem : MemTable
  log : Bool := false
  onDisk : Bool := false
  readers : List Reader := []
  nextSST : ℕ := 0
  opts : Options := {}
  manifest : State := {}
  appliedIndex : ℕ := 0
  durableIndex : ℕ := 0

def DB.isReplica (db : DB) : Bool := db.opts.durabilityMode == .replica

/-! ### Reading -/

/-- The loop of `Get` over the SSTables; one that cannot be read is passed over. -/
def getReaders (key : Key) : List Reader → Option Value
  | [] => none
  | r :: rest =>
      match r.table.get key with
      | .ok (some rec) => rec.live
      | _ => getReaders key rest

/-- `Get`. -/
def DB.get (db : DB) (key : Key) : Option Value :=
  match db.mem.getRecord key with
  | some r => r.live
  | none => getReaders key db.readers

/-- The live pairs of a map of newest records, sorted by key. -/
def livePairs (byKey : List Record) : List KVPair :=
  byKey.filterMap fun r => r.live.map fun v => { key := r.key, value := v }

/-- The loop of `Scan` over the SSTables. -/
def scanReaders (lo hi : Key) : List Reader → Except String (List Record)
  | [] => .ok []
  | r :: rest =>
      match r.table.scan lo hi with
      | .error e => .error e
      | .ok recs =>
          match scanReaders lo hi rest with
          | .error e => .error e
          | .ok more => .ok (recs ++ more)

/-- `Scan`. -/
def DB.scan (db : DB) (lo hi : Key) : Except String (List KVPair) :=
  match scanReaders lo hi db.readers with
  | .error e => .error s!"scan sstable: {e}"
  | .ok recs => .ok (livePairs (newest (db.mem.scanRange lo hi ++ recs)))

/-- The records of every SSTable, as `LoadAll` or an iterator returns them. -/
def loadSources : List Reader → Except String (List (List Record))
  | [] => .ok []
  | r :: rest =>
      match r.table.loadAll with
      | .error e => .error e
      | .ok recs =>
          match loadSources rest with
          | .error e => .error e
          | .ok more => .ok (recs :: more)

/-! ### Publishing -/

/-- `Store` of the manifest. -/
def store (state : State) : Io (Option String) :=
  let state := { state with version := 2 }
  match state.validate with
  | some e => .ret (some e)
  | none =>
      .attempt .tempManifest (.ret (some "write manifest temp")) fun _ =>
      .attempt (.renameManifest state) (.ret (some "publish manifest")) fun _ =>
      .attempt .openDir (.ret (some "open manifest dir")) fun _ =>
      .attempt .syncDir (.ret (some "sync manifest dir")) fun _ =>
      .ret none

/-- `os.Remove` of one file after another, without a look at the errors. -/
def removeAll {α : Type} : List String → Io α → Io α
  | [], next => next
  | name :: rest, next => .ignore (.removeTable name) (removeAll rest next)

/-! ### Compaction -/

/-- The records `Compact` writes. -/
def compactOutput (isBottomLevel : Bool) (sources : List (List Record)) : List Record :=
  (merge (seed sources)).filter fun r => !(r.type == .delete && isBottomLevel)

/-- The end of `compact`: the new SSTables take the place of all old ones. -/
def DB.publishCompaction (db : DB) (newReaders : List Reader) : Io (DB × Option String) :=
  let state := { db.manifest with
    sstables := newReaders.map Reader.name, nextSST := db.nextSST + 1 }
  (store state).bind fun
    | some e =>
        removeAll (newReaders.map Reader.name)
          (.ret (db, some s!"publish compaction manifest: {e}"))
    | none =>
        removeAll (db.readers.map Reader.name)
          (.ret ({ db with
            readers := newReaders, manifest := state, nextSST := db.nextSST + 1 }, none))

/-- `compact`. -/
def DB.compact (db : DB) : Io (DB × Option String) :=
  if db.readers.isEmpty then .ret (db, none)
  else
    let name := sstName (db.nextSST + 1)
    .attempt .loadTables (.ret (db, some "compact: load reader")) fun _ =>
    match loadSources db.readers with
    | .error e => .ret (db, some s!"compact: load reader: {e}")
    | .ok sources =>
        let output := compactOutput true sources
        if output.isEmpty then db.publishCompaction []
        else
          .attempt (.writeTable name output)
            (.ret (db, some "compact: write output")) fun _ =>
          .attempt (.openTable name)
            (.ret ({ db with nextSST := db.nextSST + 1 }, some "open compacted sstable")) fun t =>
          db.publishCompaction [{ name := name, table := t }]

/-- `maybeCompact`. -/
def DB.maybeCompact (db : DB) : Io (DB × Option String) :=
  if db.readers.length < db.opts.compactAt then .ret (db, none) else db.compact

/-! ### Flush -/

/-- The manifest a flush publishes with the SSTable `name`. -/
def DB.flushState (db : DB) (name : String) : State :=
  let state := { db.manifest with
    sstables := db.manifest.sstables ++ [name], nextSST := db.nextSST + 1 }
  if db.isReplica then { state with appliedIndex := db.appliedIndex }
  else { state with lastSeq := max state.lastSeq (db.mem.nextSeq - 1) }

/-- The handle after a flush has been published. -/
def DB.flushed (db : DB) (r : Reader) : DB :=
  { db with
    readers := r :: db.readers
    mem := .newWithSeq db.mem.nextSeq
    nextSST := db.nextSST + 1
    manifest := db.flushState r.name
    durableIndex := if db.isReplica then db.appliedIndex else db.durableIndex }

/-- `flush` of an empty memtable: a replica publishes its applied index. -/
def DB.flushEmpty (db : DB) : Io (DB × Option String) :=
  if db.isReplica && decide (db.durableIndex < db.appliedIndex) then
    let state := { db.manifest with appliedIndex := db.appliedIndex }
    (store state).bind fun
      | some e => .ret (db, some s!"publish applied index: {e}")
      | none => .ret ({ db with manifest := state, durableIndex := db.appliedIndex }, none)
  else .ret (db, none)

/-- `flush`. -/
def DB.flush (db : DB) : Io (DB × Option String) :=
  let records := db.mem.sortedEntries
  if records.isEmpty then db.flushEmpty
  else if !db.onDisk then .ret (db, none)
  else
    let name := sstName (db.nextSST + 1)
    .attempt (.writeTable name records) (.ret (db, some "flush sstable")) fun _ =>
    .attempt (.openTable name)
      (removeAll [name] (.ret (db, some "open flushed sstable"))) fun t =>
    (store (db.flushState name)).bind fun
      | some e => removeAll [name] (.ret (db, some s!"publish flush manifest: {e}"))
      | none =>
          let db := db.flushed { name := name, table := t }
          if db.log then
            .attempt .resetWal (.ret (db, some "rotate wal")) fun _ => db.maybeCompact
          else db.maybeCompact

/-- `maybeFlush`. -/
def DB.maybeFlush (db : DB) : Io (DB × Option String) :=
  if !db.onDisk then .ret (db, none)
  else if db.mem.size < db.opts.flushAt then .ret (db, none)
  else db.flush

/-! ### Writing -/

/-- The common part of `Set` and `Delete`: the record goes to the WAL before it goes to the
    memtable.  If the WAL refuses it, its sequence number is gone all the same. -/
def DB.write (db : DB) (r : ℕ → WalRecord) : Io (DB × Option String) :=
  let (seq, mem) := db.mem.allocSeq
  let written := { db with mem := mem.setRaw (r seq).toRecord }
  if db.log then
    .attempt (.appendWal (r seq)) (.ret ({ db with mem := mem }, some "wal append")) fun _ =>
    written.maybeFlush
  else written.maybeFlush

/-- `Set`. -/
def DB.set (db : DB) (key : Key) (value : Value) : Io (DB × Option String) :=
  if db.isReplica then
    .ret (db, some "Set is unavailable in replica mode; use ApplyBatch")
  else db.write fun seq => { type := .put, seqNum := seq, key := key, value := value }

/-- `Delete`. -/
def DB.delete (db : DB) (key : Key) : Io (DB × Option String) :=
  if db.isReplica then
    .ret (db, some "Delete is unavailable in replica mode; use ApplyBatch")
  else db.write fun seq => { type := .delete, seqNum := seq, key := key }

/-! ### Opening -/

/-- The number `Sscanf(name, "%d.sst")` reads. -/
def scanNumber (name : String) : ℕ :=
  Nat.ofDigitChars 10 (name.toList.takeWhile Char.isDigit) 0

/-- `sstable.Open` of one file after another. -/
def openReaders : List String → Io (Except String (List Reader))
  | [] => .ret (.ok [])
  | name :: rest =>
      .attempt (.openTable name) (.ret (.error s!"open sstable {name}")) fun t =>
      (openReaders rest).bind fun
        | .error e => .ret (.error e)
        | .ok readers => .ret (.ok ({ name := name, table := t } :: readers))

/-- The manifest of a directory without one: all SSTables, in the order of their names. -/
def bootstrapState (names : List String) : State :=
  let names := names.mergeSort fun a b => !decide (b < a)
  { sstables := names, nextSST := (names.getLast?.map scanNumber).getD 0 }

/-- `openSSTables`: the readers, the manifest, and whether it was made up. -/
def openSSTables : Io (Except String (List Reader × State × Bool)) :=
  .attempt .readManifest (.ret (.error "read manifest")) fun
    | some state =>
        match state.validate with
        | some e => .ret (.error e)
        | none =>
            (openReaders state.sstables.reverse).bind fun
              | .error e => .ret (.error e)
              | .ok readers => .ret (.ok (readers, state, false))
    | none =>
        .attempt .listTables (.ret (.error "read db dir")) fun names =>
        let state := bootstrapState names
        (openReaders state.sstables.reverse).bind fun
          | .error e => .ret (.error e)
          | .ok readers => .ret (.ok (readers, state, true))

/-- `maxSequence`. -/
def maxSequence (sources : List (List Record)) : ℕ :=
  sources.flatten.foldl (fun highest r => max highest r.seqNum) 0

/-- The records renumbered from `base + 1` on. -/
def renumber : ℕ → List WalRecord → List WalRecord
  | _, [] => []
  | base, r :: rest => { r with seqNum := base + 1 } :: renumber (base + 1) rest

/-- `sequenceWAL`. -/
def sequenceWAL (records : List WalRecord) (lastSeq : ℕ) (legacy : Bool) :
    List WalRecord × Bool :=
  if !legacy then (records.filter fun r => decide (lastSeq < r.seqNum), false)
  else if records.any fun r => decide (r.seqNum ≤ lastSeq) then
    (renumber (records.foldl (fun base r => max base r.seqNum) lastSeq) records, true)
  else (records, false)

/-- `publishSequenceUpgrade`. -/
def DB.publishSequenceUpgrade (db : DB) (lastSeq : ℕ) (renumbered : Bool) :
    Io (DB × Option String) :=
  let state := { db.manifest with lastSeq := lastSeq }
  if renumbered then { db with manifest := state }.flush
  else
    (store state).bind fun
      | some e => .ret (db, some e)
      | none => .ret ({ db with manifest := state }, none)

/-- The handle `openEmbedded` builds from the replayed records. -/
def embeddedHandle (opts : Options) (readers : List Reader) (state : State) (lastSeq : ℕ)
    (records : List WalRecord) : DB where
  mem := (MemTable.newWithSeq (lastSeq + 1)).setAll (records.map WalRecord.toRecord)
  log := true
  onDisk := true
  readers := readers
  nextSST := state.nextSST
  opts := opts
  manifest := state

/-- `openEmbedded`. -/
def openEmbedded (opts : Options) (readers : List Reader) (state : State) (lastSeq : ℕ)
    (legacy : Bool) : Io (Except String DB) :=
  .attempt .openWal (.ret (.error "open wal")) fun _ =>
  .attempt .readWal (.ret (.error "replay wal")) fun replayed =>
  let sequenced := sequenceWAL replayed lastSeq legacy
  let db := embeddedHandle opts readers state lastSeq sequenced.1
  if legacy then
    (db.publishSequenceUpgrade lastSeq sequenced.2).bind fun
      | (_, some e) => .ret (.error s!"upgrade manifest sequence: {e}")
      | (db, none) => .ret (.ok db)
  else .ret (.ok db)

/-- `Open` of an embedded database. -/
def openEmbeddedAt (opts : Options) (readers : List Reader) (state : State)
    (bootstrapped : Bool) : Io (Except String DB) :=
  if bootstrapped || state.legacy then
    .attempt .loadTables (.ret (.error "read sequence")) fun _ =>
    match loadSources readers with
    | .error e => .ret (.error s!"read sequence: {e}")
    | .ok sources => openEmbedded opts readers state (maxSequence sources) true
  else openEmbedded opts readers state state.lastSeq false

/-- `Open` of a replica. -/
def openReplicaAt (opts : Options) (readers : List Reader) (state : State)
    (bootstrapped : Bool) : Io (Except String DB) :=
  let db : DB := {
    mem := .new, onDisk := true, readers := readers, nextSST := state.nextSST, opts := opts
    manifest := state, appliedIndex := state.appliedIndex, durableIndex := state.appliedIndex }
  if bootstrapped then
    (store state).bind fun
      | some e => .ret (.error s!"bootstrap manifest: {e}")
      | none => .ret (.ok db)
  else .ret (.ok db)

/-- `Open` of a path. -/
def openPath (opts : Options) : Io (Except String DB) :=
  openSSTables.bind fun
    | .error e => .ret (.error e)
    | .ok (readers, state, bootstrapped) =>
        match opts.durabilityMode with
        | .replica => openReplicaAt opts readers state bootstrapped
        | .embedded => openEmbeddedAt opts readers state bootstrapped

/-- `Open` without a path. -/
def openMemory (opts : Options) : Except String DB :=
  match opts.durabilityMode with
  | .replica => .error "replica durability requires a persistent path"
  | .embedded => .ok { mem := .new, opts := opts }

end Lsmdb.Db

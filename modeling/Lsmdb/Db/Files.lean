import Lsmdb.Db.SSTable
import Lsmdb.Effect.Program
import Mathlib.Data.List.Nodup

namespace Lsmdb.Db

open Lsmdb.Effect

/-!
# Database directory

The files of a database directory — SSTables, MANIFEST and WAL — and the file steps the
database takes on them (`internal/manifest`, `internal/wal`, and the names of `db/db.go`).

MANIFEST and WAL are kept by their contents: JSON and the record framing are left out, and
so is the temporary manifest.  An SSTable is complete or cut off after some bytes; what
`sstable.Open` makes of a cut-off file that is long enough for a footer depends on bytes
that this model does not have, and is left open by the class `Remnant`.
-/

/-! ### Names -/

/-- The digits of `%06d`. -/
def sstDigits (n : ℕ) : List Char :=
  List.replicate (6 - (Nat.toDigits 10 n).length) '0' ++ Nat.toDigits 10 n

/-- `fmt.Sprintf("%06d.sst", n)`. -/
def sstName (n : ℕ) : String := String.ofList (sstDigits n ++ ['.', 's', 's', 't'])

theorem ofDigitChars_sstDigits (n : ℕ) : Nat.ofDigitChars 10 (sstDigits n) 0 = n := by
  have hzero : ∀ k, (List.replicate k '0').foldl
      (fun sofar c => 10 * sofar + (c.toNat - '0'.toNat)) 0 = 0 := by
    intro k
    induction k with
    | zero => rfl
    | succ k ih => exact ih
  have hdigits := Nat.ofDigitChars_toDigits (b := 10) (n := n) (by decide) (by decide)
  unfold Nat.ofDigitChars at hdigits ⊢
  rw [sstDigits, List.foldl_append, hzero]
  exact hdigits

theorem sstName_injective : Function.Injective sstName := by
  intro a b h
  have hchars := String.ofList_injective h
  have hdigits := List.append_cancel_right hchars
  rw [← ofDigitChars_sstDigits a, hdigits, ofDigitChars_sstDigits]

/-! ### Manifest -/

/-- `State` of the manifest.  SSTables are ordered oldest to newest. -/
structure State where
  version : ℕ := 2
  sstables : List String := []
  nextSST : ℕ := 0
  appliedIndex : ℕ := 0
  lastSeq : ℕ := 0
  deriving DecidableEq, Repr

/-- `Legacy`. -/
def State.legacy (s : State) : Bool := s.version == 1

/-- The names `Validate` accepts: a base name that ends in `.sst`. -/
def validName (name : String) : Bool :=
  name.toList ≠ [] && !name.toList.contains '/'
    && ['.', 's', 's', 't'].isSuffixOf name.toList

/-- The loop of `Validate` over the names, with the names seen so far. -/
def validateNames : List String → List String → Option String
  | _, [] => none
  | seen, name :: rest =>
      if !validName name then some s!"invalid manifest SSTable name {name}"
      else if seen.contains name then some s!"duplicate manifest SSTable {name}"
      else validateNames (name :: seen) rest

/-- `Validate`. -/
def State.validate (s : State) : Option String :=
  if s.version ≠ 2 ∧ s.version ≠ 1 then some s!"manifest version {s.version} is unsupported"
  else validateNames [] s.sstables

/-! ### WAL records -/

/-- The record types of the WAL. -/
inductive WalType where
  | put
  | delete
  deriving DecidableEq, Repr

/-- `Record` of the WAL. -/
structure WalRecord where
  type : WalType
  seqNum : ℕ
  key : Key
  value : Value := []
  deriving DecidableEq, Repr

/-- The memtable record of a WAL record; the types are numbered from 1 in the WAL. -/
def WalRecord.toRecord (r : WalRecord) : Record where
  key := r.key
  value := r.value
  seqNum := r.seqNum
  type := match r.type with
    | .put => .put
    | .delete => .delete

/-! ### The directory -/

/-- What stands under the name of an SSTable. -/
inductive FileContent where
  | complete (t : SSTable)
  | torn (t : SSTable) (written : ℕ)
  deriving DecidableEq, Repr

/-- The table that is being written. -/
def FileContent.table : FileContent → SSTable
  | .complete t => t
  | .torn t _ => t

/-- The SSTable files by name. -/
abbrev Dir := List (String × FileContent)

def Dir.remove (d : Dir) (name : String) : Dir := d.filter fun f => f.1 != name

/-- The file `name`, created or truncated. -/
def Dir.put (d : Dir) (name : String) (c : FileContent) : Dir := (name, c) :: d.remove name

def Dir.get (d : Dir) (name : String) : Option FileContent := d.lookup name

/-- The files of a database.  `dropped` are records truncated away from the WAL: that
    truncation is not synced and may be lost. -/
structure Disk where
  dir : Dir := []
  manifest : Option State := none
  wal : List WalRecord := []
  dropped : List WalRecord := []
  deriving DecidableEq, Repr

/-- `d` with the SSTable `name` created or replaced. -/
def Disk.put (d : Disk) (name : String) (c : FileContent) : Disk :=
  { d with dir := d.dir.put name c }

/-- The bytes of a complete file. -/
def SSTable.fileSize (t : SSTable) : ℕ :=
  t.metaOffset + (4 + t.minKey.length + 4 + t.maxKey.length) + (16 + 8 * t.bloom.bits.length)
    + (t.index.map fun e => 4 + e.key.length + 8).sum + footerSize

/-- What opening a file of at least a footer's length finds, if its writer was cut off. -/
class Remnant where
  reader : SSTable → ℕ → Option SSTable

/-- No such file is opened. -/
@[reducible] def Remnant.refused : Remnant where
  reader _ _ := none

/-! ### File steps -/

/-- The file steps of the database.  `streamTable` is one write of a streamed SSTable: the
    file holds `content` afterwards. -/
inductive FileStep where
  | readManifest
  | listTables
  | openTable (name : String)
  | loadTables
  | writeTable (name : String) (records : List Record)
  | streamTable (name : String) (content : FileContent)
  | removeTable (name : String)
  | tempManifest
  | renameManifest (state : State)
  | openDir
  | syncDir
  | openWal
  | readWal
  | appendWal (r : WalRecord)
  | resetWal
  deriving DecidableEq, Repr

/-- What a step answers with. -/
abbrev FileStep.Answer : FileStep → Type
  | .readManifest => Option State
  | .listTables => List String
  | .openTable _ => SSTable
  | .readWal => List WalRecord
  | _ => Unit

/-- A procedure of the database. -/
abbrev Io (α : Type) := Prog FileStep FileStep.Answer α

/-- `sstable.Open`. -/
def openFile [Remnant] : Option FileContent → Option SSTable
  | none => none
  | some (.complete t) => some t
  | some (.torn t written) => if written < footerSize then none else Remnant.reader t written

/-- The file steps, carried out. -/
def perform [BloomSize] [Remnant] : (i : FileStep) → Disk → Disk × Option i.Answer
  | .readManifest, d => (d, some d.manifest)
  | .listTables, d => (d, some (d.dir.map Prod.fst))
  | .openTable name, d => (d, openFile (d.dir.get name))
  | .loadTables, d => (d, some ())
  | .writeTable name records, d =>
      (d.put name (.complete (.write records)), some ())
  | .streamTable name content, d => (d.put name content, some ())
  | .removeTable name, d => ({ d with dir := d.dir.remove name }, some ())
  | .tempManifest, d => (d, some ())
  | .renameManifest state, d => ({ d with manifest := some state }, some ())
  | .openDir, d => (d, some ())
  | .syncDir, d => (d, some ())
  | .openWal, d => (d, some ())
  | .readWal, d => (d, some d.wal)
  | .appendWal r, d => ({ d with wal := d.wal ++ [r] }, some ())
  | .resetWal, d => ({ d with wal := [], dropped := d.dropped ++ d.wal }, some ())

/-- What an interrupted or failing step may leave: an SSTable cut off anywhere, or one whose
    sync failed, whether it is written at once or streamed; a WAL record written in full; a
    WAL truncated without a new cursor. -/
def cut [BloomSize] : FileStep → Disk → Disk → Prop
  | .writeTable name records, d, t =>
      (∃ n < (SSTable.write records).fileSize, t = d.put name (.torn (.write records) n))
      ∨ t = d.put name (.complete (.write records))
  | .streamTable name content, d, t =>
      (∃ n < content.table.fileSize, t = d.put name (.torn content.table n))
      ∨ t = d.put name content
  | .appendWal r, d, t => t = { d with wal := d.wal ++ [r] }
  | .resetWal, d, t => t = { d with wal := [], dropped := d.dropped ++ d.wal }
  | _, _, _ => False

/-- The files as a device. -/
def disk [BloomSize] [Remnant] : Device FileStep FileStep.Answer Disk where
  perform := perform
  cut := cut

/-! ### Frame lemmas -/

@[simp] theorem Dir.get_put_self (d : Dir) (name : String) (c : FileContent) :
    (d.put name c).get name = some c := by
  simp [Dir.put, Dir.get]

theorem Dir.get_remove_ne (d : Dir) {name other : String} (h : other ≠ name) :
    (d.remove name).get other = d.get other := by
  induction d with
  | nil => rfl
  | cons f d ih =>
    unfold Dir.remove Dir.get at ih ⊢
    rw [List.filter_cons, List.lookup_cons]
    split
    next => rw [List.lookup_cons, ih]
    next hf =>
      have hf : f.1 = name := by simpa using hf
      have : (other == f.1) = false := by simpa [hf] using h
      rw [this]
      exact ih

theorem Dir.get_put_ne (d : Dir) {name other : String} (c : FileContent) (h : other ≠ name) :
    (d.put name c).get other = d.get other := by
  have : (other == name) = false := by simpa using h
  rw [← get_remove_ne d h]
  unfold Dir.put Dir.get
  rw [List.lookup_cons, this]

/-! ### Names and validation -/

theorem validName_sstName (n : ℕ) : validName (sstName n) = true := by
  unfold validName sstName
  rw [String.toList_ofList]
  have hslash : '/' ∉ sstDigits n := by
    intro h
    rcases List.mem_append.mp h with h | h
    · exact absurd (List.eq_of_mem_replicate h) (by decide)
    · have := Nat.isDigit_of_mem_toDigits (by decide) (by decide) h
      exact absurd this (by decide)
  simp [hslash]

theorem validateNames_none {seen names : List String} (hvalid : ∀ name ∈ names, validName name)
    (hnodup : names.Nodup) (hseen : ∀ name ∈ names, name ∉ seen) :
    validateNames seen names = none := by
  induction names generalizing seen with
  | nil => rfl
  | cons name rest ih =>
    obtain ⟨hnot, hrest⟩ := List.nodup_cons.mp hnodup
    have hname := hvalid name List.mem_cons_self
    unfold validateNames
    rw [if_neg (by simp [hname]), if_neg (by simpa using hseen name List.mem_cons_self)]
    refine ih (fun x hx => hvalid x (List.mem_cons_of_mem _ hx)) hrest fun x hx hmem => ?_
    rcases List.mem_cons.mp hmem with rfl | hmem
    · exact hnot hx
    · exact hseen x (List.mem_cons_of_mem _ hx) hmem

/-- A manifest of generated names passes its own check. -/
theorem State.validate_none {s : State} (hversion : s.version = 2 ∨ s.version = 1)
    (hnames : ∀ name ∈ s.sstables, ∃ n, name = sstName n) (hnodup : s.sstables.Nodup) :
    s.validate = none := by
  unfold validate
  rw [if_neg (by omega)]
  refine validateNames_none (fun name h => ?_) hnodup (by simp)
  obtain ⟨n, rfl⟩ := hnames name h
  exact validName_sstName n

end Lsmdb.Db

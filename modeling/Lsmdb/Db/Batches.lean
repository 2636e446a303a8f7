import Lsmdb.Db.ReplicaRuns

namespace Lsmdb.Db

open Lsmdb.Versions Lsmdb.Effect

/-!
# Batches

What `ApplyBatch` does to the map of a replica.  All records of a batch get the index of the
batch as their number, and `SetRaw` lets a record be replaced by a strictly newer one only: of
several mutations of one key the first one stays (`Replica.contents_applied`).

* `batch_applied_in_order` — if the first and the last mutation of each key agree, the batch has
  the effect of its mutations one after another.
* `batch_first_stays` — in general it does not.
-/

/-! ### The effect of mutations -/

/-- What a reader finds after the mutation. -/
def Mutation.result (m : Mutation) : Option Value :=
  if m.type = mutationDelete then none else some m.value

/-- A mutation `ApplyBatch` takes. -/
def Mutation.Valid (m : Mutation) : Prop :=
  m.key ≠ [] ∧ (m.type = mutationPut ∨ m.type = mutationDelete)

instance (m : Mutation) : Decidable m.Valid := inferInstanceAs (Decidable (_ ∧ _))

/-- The first mutation of a key. -/
def firstOf (mutations : List Mutation) (k : Key) : Option Mutation :=
  mutations.find? fun m => decide (m.key = k)

@[simp] theorem live_toRecord (index : ℕ) (m : Mutation) :
    (m.toRecord index).live = m.result := by
  unfold Mutation.toRecord Record.live Mutation.result
  by_cases h : m.type = mutationDelete
  · simp [h]
  · simp [h]

theorem find_toRecord (index : ℕ) (mutations : List Mutation) (k : Key) :
    find k (mutations.map (Mutation.toRecord index))
      = (firstOf mutations k).map (Mutation.toRecord index) := by
  unfold find firstOf
  rw [List.find?_map]
  congr 2
  funext m
  exact decide_eq_decide.mpr Iff.rfl

section Device
variable [BloomSize] [Remnant]
variable {d : Disk} {db : DB} {files : List (String × List Record)}

omit [Remnant] in
/-- **A batch in memory**: a key has the result of its first mutation. -/
theorem Replica.contents_applied (h : Replica d db files) (mutations : List Mutation) (k : Key) :
    (db.applied (db.appliedIndex + 1) mutations).contents files k
      = ((firstOf mutations k).map Mutation.result).getD (db.contents files k) := by
  have hfind : find k (db.applied (db.appliedIndex + 1) mutations).mem.entries
      = ((firstOf mutations k).map (Mutation.toRecord (db.appliedIndex + 1))).or
          (find k db.mem.entries) := by
    rw [← find_toRecord]
    show find k (db.mem.setAll _).entries = _
    rw [MemTable.entries_setAll]
    refine find_foldl_setNewer db.mem.sorted (fun x hx => Nat.lt_succ_of_le (h.mem x hx).2) ?_ k
    intro r hr
    obtain ⟨m, -, rfl⟩ := List.mem_map.mp hr
    rfl
  unfold DB.contents
  rw [view_cons, view_cons, hfind]
  cases firstOf mutations k with
  | none => rfl
  | some m => exact live_toRecord _ m

end Device

end Lsmdb.Db

import Lsmdb.RaftStore.Stable

namespace Lsmdb.RaftStore

open Lsmdb.Raft Stable

/-!
# Raft store — compacting before an update or after it

The runtime merges the updates of a group of appends.  When an update ends the merge, the
merged part is persisted after the node has already taken that update, and a compaction
triggered there reaches the store before the update does.  `Stable.persist_install_comm`
shows that the order does not matter: the compaction lies below everything the update
changes.
-/

/-- The store after compacting at `s`, a boundary it holds. -/
def Stable.compacted (st : Stable) (s : Snapshot) (data : Bytes) : Stable :=
  { st with
    snapshot := { s with data := [] }
    data := data
    entries := st.entries.drop (s.index - st.snapshot.index) }

/-- The boundary `s` lies in the store's log, with the term of the entry there. -/
structure Stable.Boundary (st : Stable) (s : Snapshot) : Prop where
  lo : st.snapshot.index < s.index
  entry : ∃ e, st.entries[s.index - st.snapshot.index - 1]? = some e ∧ e.term = s.term
  term : s.term ≠ 0

theorem Stable.Boundary.hi {st : Stable} {s : Snapshot} (h : st.Boundary s) :
    s.index ≤ st.snapshot.index + st.entries.length := by
  obtain ⟨e, he, _⟩ := h.entry
  have := (List.getElem?_eq_some_iff.mp he).1
  have := h.lo
  omega

/-- Installing at a held boundary keeps the suffix. -/
theorem Stable.installSnapshot_boundary {st : Stable} {s : Snapshot} {data : Bytes}
    (h : st.Boundary s) (hsize : data.length ≤ maxSnapshotData) :
    st.installSnapshot s (.ok data) = .ok (st.compacted s data) := by
  have hlo := h.lo
  obtain ⟨e, he, ht⟩ := h.entry
  have hsuffix : st.suffix s = st.entries.drop (s.index - st.snapshot.index) := by
    unfold suffix
    simp only [if_pos (And.intro h.lo h.hi), he, Option.elim_some, ht, beq_self_eq_true, if_true]
  unfold installSnapshot
  rw [if_neg (by simp [h.term]; omega), if_neg (by omega)]
  simp only [boundedWrite, if_neg (Nat.not_lt.mpr hsize)]
  rw [hsuffix]
  rfl

/-- Appending after compacting is compacting after appending. -/
theorem Stable.append_compacted {s : Snapshot} (data : Bytes) (es : List Entry) :
    ∀ {st st' : Stable}, st.Boundary s → st.append es = (st', none) →
      (st.compacted s data).append es = (st'.compacted s data, none) ∧ st'.Boundary s := by
  induction es with
  | nil =>
    intro st st' hb h
    simp only [append, Prod.mk.injEq, and_true] at h ⊢
    subst h
    exact ⟨rfl, hb⟩
  | cons e t ih =>
    intro st st' hb h
    have hlo := hb.lo
    have hhi := hb.hi
    -- the position of the next entry does not depend on the compaction
    have hwant : (st.compacted s data).snapshot.index + (st.compacted s data).entries.length + 1
        = st.snapshot.index + st.entries.length + 1 := by
      simp only [compacted, List.length_drop]
      omega
    rw [append] at h ⊢
    rw [hwant]
    split at h
    · simp at h
    rename_i h1
    split at h
    · simp at h
    rename_i h2
    rw [if_neg h1, if_neg h2]
    have hb' : ({ st with entries := st.entries ++ [e] } : Stable).Boundary s := by
      obtain ⟨x, hx, hxt⟩ := hb.entry
      refine ⟨hb.lo, ⟨x, ?_, hxt⟩, hb.term⟩
      rw [List.getElem?_append_left (List.getElem?_eq_some_iff.mp hx).1]
      exact hx
    have hcomp : ({ st.compacted s data with
        entries := (st.compacted s data).entries ++ [e] } : Stable)
        = ({ st with entries := st.entries ++ [e] } : Stable).compacted s data := by
      simp only [compacted]
      rw [List.drop_append_of_le_length (by omega)]
    rw [hcomp]
    exact ih hb' h

/-- Truncating above the boundary after compacting is compacting after truncating. -/
theorem Stable.truncate_compacted {st st' : Stable} {s : Snapshot} {data : Bytes} {start : ℕ}
    (hb : st.Boundary s) (hstart : s.index < start) (h : st.truncate start = .ok st') :
    (st.compacted s data).truncate start = .ok (st'.compacted s data) ∧ st'.Boundary s := by
  have hlo := hb.lo
  have hhi := hb.hi
  have hlast : (st.compacted s data).snapshot.index + (st.compacted s data).entries.length
      = st.snapshot.index + st.entries.length := by
    simp only [compacted, List.length_drop]
    omega
  unfold truncate at h ⊢
  simp only [hlast] at h ⊢
  split at h
  · simp at h
  rename_i h1
  rw [if_neg (by simp only [compacted]; omega)]
  split at h
  · rename_i h2
    rw [if_pos h2]
    simp only [Except.ok.injEq] at h
    subst h
    exact ⟨rfl, hb⟩
  · rename_i h2
    rw [if_neg h2]
    simp only [Except.ok.injEq] at h
    subst h
    refine ⟨?_, hb.lo, ?_, hb.term⟩
    · simp only [compacted, List.drop_take]
      congr 3
      omega
    · obtain ⟨x, hx, hxt⟩ := hb.entry
      refine ⟨x, ?_, hxt⟩
      have hlt : s.index - st.snapshot.index - 1 < start - (st.snapshot.index + 1) := by omega
      show (st.entries.take (start - (st.snapshot.index + 1)))[s.index - st.snapshot.index - 1]?
        = some x
      rw [List.getElem?_take_of_lt hlt]
      exact hx

/-- **Compaction commutes with an update above it.** -/
theorem Stable.persist_install_comm {st st' : Stable} {u : Update} {s : Snapshot} {data : Bytes}
    (hb : st.Boundary s) (hsnap : u.snapshot = none)
    (htf : u.truncateFrom = 0 ∨ s.index < u.truncateFrom)
    (h : st.persist u none = (st', none)) :
    (st.compacted s data).persist u none = (st'.compacted s data, none) ∧ st'.Boundary s := by
  obtain ⟨s1, s2, hi, ht, happ⟩ := persist_steps h
  have hhard : (st.persistHard u).Boundary s := by
    unfold persistHard
    cases u.hardState with
    | none => exact hb
    | some hs => exact ⟨hb.lo, hb.entry, hb.term⟩
  have hcomm : (st.compacted s data).persistHard u = (st.persistHard u).compacted s data := by
    unfold persistHard
    cases u.hardState <;> rfl
  simp only [persistInstall, hsnap, Except.ok.injEq] at hi
  subst hi
  -- the truncation, if any, lies above the boundary
  have htrunc : ((st.persistHard u).compacted s data).persistTruncate u = .ok (s2.compacted s data)
      ∧ s2.Boundary s := by
    unfold persistTruncate at ht ⊢
    by_cases h0 : u.truncateFrom = 0
    · simp only [h0, ne_eq, not_true_eq_false, if_false, Except.ok.injEq] at ht ⊢
      subst ht
      exact ⟨rfl, hhard⟩
    · simp only [ne_eq, h0, not_false_eq_true, if_true] at ht ⊢
      exact truncate_compacted hhard (htf.resolve_left h0) ht
  obtain ⟨happ', hb'⟩ := append_compacted data u.entries htrunc.2 happ
  refine ⟨?_, hb'⟩
  simp only [persist, persistLog, persistInstall, hsnap, hcomm, htrunc.1]
  exact happ'

end Lsmdb.RaftStore

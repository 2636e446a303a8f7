import Lsmdb.Binary.Handle
import Lsmdb.Binary.Tiling
import Lsmdb.Raft.Types

namespace Lsmdb.RaftGrpc

open Lsmdb.Raft Lsmdb.Binary

/-!
# Raft over gRPC — snapshots in chunks

`sendSnapshot` of `internal/raftgrpc/transport.go` and `ReceiveSnapshotTo` of
`internal/raftgrpc/snapshot.go`.  A snapshot travels as chunks of at most 1 MiB that repeat its
metadata; an empty image is one empty chunk.  The receiver compares the metadata of every chunk with
that of the first, wants every chunk at the offset it has got to, and checks size and checksum at
the end.

The source of the data and the stream are lists.  The checksum is a parameter.  Failures of the
connection on the sending side and of the writer on the receiving side are left out.

* `Receiving.run_of_consecutive` — what is sent is received.
* `snapshot_stream` — and a sequence that is damaged is refused, whatever the checksum.
-/

/-- `lsmdbv1.SnapshotChunk`. -/
structure SnapshotChunk where
  fromID : ℕ
  toID : ℕ
  raftTerm : ℕ
  snapshotIndex : ℕ
  snapshotTerm : ℕ
  offset : ℕ
  totalSize : ℕ
  checksum : ℕ
  data : Bytes
  voters : List ℕ
  jointVoters : List ℕ
  membershipIndex : ℕ
  deriving DecidableEq, Repr

/-- `SnapshotChunkBytes`. -/
def snapshotChunkBytes : ℕ := 2 ^ 20

/-- `MaxSnapshotBytes`. -/
def maxSnapshotBytes : ℕ := 64 * 2 ^ 30

/-! ### Sending -/

/-- The chunk of `data` at `offset`. -/
def snapshotChunk (message : Message) (snapshot : Snapshot) (size checksum offset : ℕ)
    (data : Bytes) : SnapshotChunk where
  fromID := message.fromID
  toID := message.toID
  raftTerm := message.term
  snapshotIndex := snapshot.index
  snapshotTerm := snapshot.term
  offset := offset
  totalSize := size
  checksum := checksum
  data := data
  voters := snapshot.membership.voters
  jointVoters := snapshot.membership.jointVoters
  membershipIndex := snapshot.membership.index

/-- The loop of `sendSnapshot` from `offset` on: the chunks sent, and what is left of the source. -/
def sendChunks (message : Message) (snapshot : Snapshot) (size checksum : ℕ) (offset : ℕ)
    (source : Bytes) : List SnapshotChunk × Except String Bytes :=
  if offset < size ∨ (size = 0 ∧ offset = 0) then
    let chunkSize := min snapshotChunkBytes (size - offset)
    if source.length < chunkSize then ([], .error s!"read snapshot chunk at {offset}")
    else
      let chunk := snapshotChunk message snapshot size checksum offset (source.take chunkSize)
      if size = 0 then ([chunk], .ok source)
      else
        let rest := sendChunks message snapshot size checksum (offset + chunkSize)
          (source.drop chunkSize)
        (chunk :: rest.1, rest.2)
  else ([], .ok source)
termination_by size - offset
decreasing_by
  have : 0 < snapshotChunkBytes := by decide
  omega

/-- `sendSnapshot`: the chunks sent, and the error. -/
def sendSnapshot (message : Message) (source : Bytes) (size checksum : ℕ) :
    List SnapshotChunk × Option String :=
  match message.snapshot with
  | none => ([], some "snapshot message has no snapshot")
  | some snapshot =>
      if maxSnapshotBytes < size then ([], some s!"snapshot exceeds {maxSnapshotBytes} bytes")
      else
        let sent := sendChunks message snapshot size checksum 0 source
        match sent.2 with
        | .error e => (sent.1, some e)
        | .ok rest =>
            if rest ≠ [] then (sent.1, some "snapshot source exceeds declared size")
            else (sent.1, none)

/-! ### Receiving -/

/-- What `Recv` returns before the end of the stream. -/
inductive Recv where
  | chunk (c : SnapshotChunk)
  | nil
  | failure (msg : String)
  deriving DecidableEq, Repr

/-- `equalIDs`. -/
def equalIDs (a b : List ℕ) : Bool := a == b

/-- The metadata of a chunk is that of the first. -/
def SnapshotChunk.matches (c first : SnapshotChunk) : Bool :=
  c.fromID = first.fromID && c.toID = first.toID && c.raftTerm = first.raftTerm
    && c.snapshotIndex = first.snapshotIndex && c.snapshotTerm = first.snapshotTerm
    && c.totalSize = first.totalSize && c.checksum = first.checksum
    && c.membershipIndex = first.membershipIndex && equalIDs c.voters first.voters
    && equalIDs c.jointVoters first.jointVoters

/-- The variables of `ReceiveSnapshotTo`, and what has been written. -/
structure Receiving where
  first : Option SnapshotChunk := none
  received : ℕ := 0
  written : Bytes := []
  deriving DecidableEq, Repr

/-- The checks on the metadata: the first chunk, from now on. -/
def Receiving.accept (r : Receiving) (c : SnapshotChunk) : Except String SnapshotChunk :=
  match r.first with
  | none =>
      if c.fromID = 0 ∨ c.toID = 0 ∨ c.raftTerm = 0 ∨ c.snapshotIndex = 0 ∨ c.snapshotTerm = 0 then
        .error "snapshot stream metadata must be positive"
      else if maxSnapshotBytes < c.totalSize then
        .error s!"snapshot exceeds {maxSnapshotBytes} bytes"
      else .ok c
  | some first =>
      if !c.matches first then .error "snapshot stream metadata changed between chunks"
      else .ok first

/-- One chunk. -/
def Receiving.step (r : Receiving) (c : SnapshotChunk) : Except String Receiving :=
  match r.accept c with
  | .error e => .error e
  | .ok first =>
      if c.offset ≠ r.received then
        .error s!"snapshot chunk offset {c.offset}, want {r.received}"
      else if snapshotChunkBytes < c.data.length then
        .error s!"snapshot chunk exceeds {snapshotChunkBytes} bytes"
      else if subUint64 c.totalSize r.received < c.data.length then
        .error "snapshot chunk exceeds declared total size"
      else .ok {
        first := some first
        received := r.received + c.data.length
        written := r.written ++ c.data }

/-- The message that the metadata make. -/
def SnapshotChunk.message (first : SnapshotChunk) : Message where
  type := .snapshot
  fromID := first.fromID
  toID := first.toID
  term := first.raftTerm
  snapshot := some {
    index := first.snapshotIndex
    term := first.snapshotTerm
    membership := {
      voters := first.voters
      jointVoters := first.jointVoters
      index := first.membershipIndex } }

/-- The checks at the end of the stream: the message, and the data written. -/
def Receiving.finish (checksum : Bytes → ℕ) (r : Receiving) : Except String (Message × Bytes) :=
  match r.first with
  | none => .error "empty snapshot stream"
  | some first =>
      if r.received ≠ first.totalSize then
        .error s!"snapshot stream ended at {r.received} bytes, want {first.totalSize}"
      else if checksum r.written ≠ first.checksum then
        .error "snapshot stream checksum mismatch"
      else .ok (first.message, r.written)

/-- The loop of `ReceiveSnapshotTo`. -/
def Receiving.run (checksum : Bytes → ℕ) : Receiving → List Recv → Except String (Message × Bytes)
  | r, [] => r.finish checksum
  | r, .chunk c :: rest =>
      match r.step c with
      | .error e => .error e
      | .ok r => r.run checksum rest
  | _, .nil :: _ => .error "nil snapshot chunk"
  | _, .failure msg :: _ => .error s!"receive snapshot chunk: {msg}"

/-- `ReceiveSnapshotTo`. -/
def receiveSnapshotTo (checksum : Bytes → ℕ) (stream : List Recv) :
    Except String (Message × Bytes) :=
  Receiving.run checksum {} stream

/-- `ReceiveSnapshot`. -/
def receiveSnapshot (checksum : Bytes → ℕ) (stream : List Recv) : Except String Message :=
  match receiveSnapshotTo checksum stream with
  | .error e => .error e
  | .ok (message, data) =>
      .ok { message with snapshot := message.snapshot.map fun s => { s with data := data } }

/-! ### Metadata -/

/-- What every chunk of a transfer repeats. -/
structure SnapshotHeader where
  fromID : ℕ
  toID : ℕ
  raftTerm : ℕ
  snapshotIndex : ℕ
  snapshotTerm : ℕ
  totalSize : ℕ
  checksum : ℕ
  voters : List ℕ
  jointVoters : List ℕ
  membershipIndex : ℕ
  deriving DecidableEq, Repr

/-- The metadata of a chunk. -/
def SnapshotChunk.header (c : SnapshotChunk) : SnapshotHeader where
  fromID := c.fromID
  toID := c.toID
  raftTerm := c.raftTerm
  snapshotIndex := c.snapshotIndex
  snapshotTerm := c.snapshotTerm
  totalSize := c.totalSize
  checksum := c.checksum
  voters := c.voters
  jointVoters := c.jointVoters
  membershipIndex := c.membershipIndex

/-- The metadata that `sendSnapshot` puts on every chunk. -/
def snapshotHeader (message : Message) (snapshot : Snapshot) (size checksum : ℕ) :
    SnapshotHeader :=
  (snapshotChunk message snapshot size checksum 0 []).header

/-- The ten comparisons are equality of the metadata. -/
theorem SnapshotChunk.matches_iff {c first : SnapshotChunk} :
    c.matches first = true ↔ c.header = first.header := by
  simp only [SnapshotChunk.matches, equalIDs, SnapshotChunk.header, SnapshotHeader.mk.injEq,
    Bool.and_eq_true, decide_eq_true_eq, beq_iff_eq]
  constructor
  · rintro ⟨⟨⟨⟨⟨⟨⟨⟨⟨h1, h2⟩, h3⟩, h4⟩, h5⟩, h6⟩, h7⟩, h8⟩, h9⟩, h10⟩
    exact ⟨h1, h2, h3, h4, h5, h6, h7, h9, h10, h8⟩
  · rintro ⟨h1, h2, h3, h4, h5, h6, h7, h9, h10, h8⟩
    exact ⟨⟨⟨⟨⟨⟨⟨⟨⟨h1, h2⟩, h3⟩, h4⟩, h5⟩, h6⟩, h7⟩, h8⟩, h9⟩, h10⟩

theorem SnapshotChunk.message_eq {c first : SnapshotChunk} (h : c.header = first.header) :
    c.message = first.message := by
  simp only [SnapshotChunk.header, SnapshotHeader.mk.injEq] at h
  obtain ⟨h1, h2, h3, h4, h5, _, _, h8, h9, h10⟩ := h
  simp only [SnapshotChunk.message, h1, h2, h3, h4, h5, h8, h9, h10]

/-! ### What one chunk does -/

/-- The metadata that the receiver expects: any, before the first chunk. -/
def Receiving.Expects (r : Receiving) (header : SnapshotHeader) : Prop :=
  ∀ first, r.first = some first → first.header = header

/-- The receiver goes on only with a chunk at the offset it has got to that repeats the metadata. -/
theorem Receiving.step_eq_ok {r r' : Receiving} {c : SnapshotChunk} (h : r.step c = .ok r') :
    c.offset = r.received ∧ r'.received = r.received + c.data.length ∧
      ∃ first, r'.first = some first ∧ first.header = c.header ∧ r.Expects c.header := by
  unfold Receiving.step at h
  split at h
  · simp at h
  rename_i first hfirst
  split_ifs at h with h1 h2 h3
  obtain rfl := Except.ok.inj h
  refine ⟨Decidable.not_not.mp h1, rfl, first, rfl, ?_⟩
  -- the first chunk is the chunk itself or one that it repeats
  unfold Receiving.accept at hfirst
  split at hfirst
  · rename_i hnone
    split_ifs at hfirst
    obtain rfl := Except.ok.inj hfirst
    refine ⟨rfl, fun f hf => ?_⟩
    rw [hnone] at hf
    simp at hf
  · rename_i f hsome
    split_ifs at hfirst with hm
    obtain rfl := Except.ok.inj hfirst
    have hm : c.matches f = true := by simpa using hm
    have hheader := SnapshotChunk.matches_iff.mp hm
    refine ⟨hheader.symm, fun g hg => ?_⟩
    rw [hsome] at hg
    obtain rfl := Option.some.inj hg
    exact hheader.symm

/-- The conditions on the metadata of the first chunk. -/
def SnapshotHeader.Acceptable (header : SnapshotHeader) : Prop :=
  header.fromID ≠ 0 ∧ header.toID ≠ 0 ∧ header.raftTerm ≠ 0 ∧ header.snapshotIndex ≠ 0 ∧
    header.snapshotTerm ≠ 0 ∧ header.totalSize ≤ maxSnapshotBytes

theorem Receiving.accept_of_expects {r : Receiving} {c : SnapshotChunk}
    (hgood : c.header.Acceptable) (hexp : r.Expects c.header) :
    ∃ first, r.accept c = .ok first ∧ first.header = c.header := by
  unfold Receiving.accept
  cases hfirst : r.first with
  | none =>
    obtain ⟨h1, h2, h3, h4, h5, h6⟩ := hgood
    refine ⟨c, ?_, rfl⟩
    show (if c.fromID = 0 ∨ c.toID = 0 ∨ c.raftTerm = 0 ∨ c.snapshotIndex = 0 ∨
      c.snapshotTerm = 0 then _ else _) = _
    rw [if_neg, if_neg]
    · exact Nat.not_lt.mpr h6
    · rintro (h | h | h | h | h)
      · exact h1 h
      · exact h2 h
      · exact h3 h
      · exact h4 h
      · exact h5 h
  | some first =>
    have hheader := hexp first hfirst
    refine ⟨first, ?_, hheader⟩
    have hm : c.matches first = true := SnapshotChunk.matches_iff.mpr hheader.symm
    simp only [hm, Bool.not_true, Bool.false_eq_true, if_false]

/-- A chunk that repeats the metadata, at the offset the receiver has got to, and not longer than
    what is left, is taken. -/
theorem Receiving.step_of_fits {r : Receiving} {c : SnapshotChunk} (hgood : c.header.Acceptable)
    (hexp : r.Expects c.header) (hoffset : c.offset = r.received)
    (hsmall : c.data.length ≤ snapshotChunkBytes)
    (hfits : r.received + c.data.length ≤ c.totalSize) :
    ∃ first, first.header = c.header ∧
      r.step c = .ok {
        first := some first
        received := r.received + c.data.length
        written := r.written ++ c.data } := by
  obtain ⟨first, haccept, hheader⟩ := Receiving.accept_of_expects hgood hexp
  have htotal : c.totalSize ≤ maxSnapshotBytes := hgood.2.2.2.2.2
  have hmax : maxSnapshotBytes < 2 ^ 64 := by decide
  have hsub : subUint64 c.totalSize r.received = c.totalSize - r.received :=
    subUint64_eq (by omega) (by omega)
  refine ⟨first, hheader, ?_⟩
  simp only [Receiving.step, haccept, hsub]
  rw [if_neg (by simpa using hoffset), if_neg (by omega), if_neg (by omega)]

/-! ### Whole streams -/

theorem Receiving.finish_of_complete {checksum : Bytes → ℕ} {r : Receiving} {first : SnapshotChunk}
    (hfirst : r.first = some first) (hall : r.received = first.totalSize)
    (hsum : checksum r.written = first.checksum) :
    r.finish checksum = .ok (first.message, r.written) := by
  simp only [Receiving.finish, hfirst]
  rw [if_neg (not_not.mpr hall), if_neg (not_not.mpr hsum)]

/-- The chunks are at their offsets, and lengths are those of their data. -/
abbrev Consecutive (start stop : ℕ) (chunks : List SnapshotChunk) : Prop :=
  Tiles SnapshotChunk.offset (fun c => c.data.length) start stop chunks

/-- A stream that is accepted is of one transfer, and its chunks cover the image in order. -/
theorem Receiving.run_eq_ok {checksum : Bytes → ℕ} {r : Receiving} {chunks : List SnapshotChunk}
    {out : Message × Bytes} (h : r.run checksum (chunks.map .chunk) = .ok out) :
    ∃ header : SnapshotHeader, r.Expects header ∧ (∀ c ∈ chunks, c.header = header) ∧
      Consecutive r.received header.totalSize chunks ∧ (chunks = [] → r.first.isSome) := by
  induction chunks generalizing r with
  | nil =>
    simp only [List.map_nil, Receiving.run, Receiving.finish] at h
    split at h
    · simp at h
    rename_i first hfirst
    split_ifs at h with h1 h2
    have hall : r.received = first.totalSize := Decidable.not_not.mp h1
    refine ⟨first.header, fun f hf => ?_, by simp, hall, fun _ => ?_⟩
    · rw [hfirst] at hf
      rw [← Option.some.inj hf]
    · rw [hfirst, Option.isSome_some]
  | cons c chunks ih =>
    simp only [List.map_cons, Receiving.run] at h
    split at h
    · simp at h
    rename_i r' hstep
    obtain ⟨hoffset, hreceived, first, hfirst, hheader, hexp⟩ := Receiving.step_eq_ok hstep
    obtain ⟨header, hexp', hsame, htiles, _⟩ := ih h
    obtain rfl : c.header = header := hheader.symm.trans (hexp' first hfirst)
    refine ⟨c.header, hexp, ?_, ⟨hoffset, ?_⟩, by simp⟩
    · intro d hd
      rcases List.mem_cons.mp hd with rfl | hd
      · rfl
      · exact hsame d hd
    · rw [← hreceived]
      exact htiles

/-- Chunks of one transfer that cover the image in order are accepted, and their data written. -/
theorem Receiving.run_of_consecutive {checksum : Bytes → ℕ} {r : Receiving}
    {chunks : List SnapshotChunk} {header : SnapshotHeader} (hgood : header.Acceptable)
    (hexp : r.Expects header) (hsame : ∀ c ∈ chunks, c.header = header)
    (htiles : Consecutive r.received header.totalSize chunks)
    (hsmall : ∀ c ∈ chunks, c.data.length ≤ snapshotChunkBytes)
    (hsome : chunks = [] → r.first.isSome)
    (hsum : checksum (r.written ++ (chunks.map (·.data)).flatten) = header.checksum) :
    ∃ first : SnapshotChunk, first.header = header ∧
      r.run checksum (chunks.map .chunk) =
        .ok (first.message, r.written ++ (chunks.map (·.data)).flatten) := by
  induction chunks generalizing r with
  | nil =>
    obtain ⟨first, hfirst⟩ := Option.isSome_iff_exists.mp (hsome rfl)
    have hheader := hexp first hfirst
    simp only [List.map_nil, List.flatten_nil, List.append_nil] at hsum ⊢
    refine ⟨first, hheader, ?_⟩
    subst hheader
    exact Receiving.finish_of_complete hfirst htiles hsum
  | cons c chunks ih =>
    obtain rfl : c.header = header := hsame c List.mem_cons_self
    have hle := htiles.2.le
    obtain ⟨first, hheader, hstep⟩ := Receiving.step_of_fits hgood hexp htiles.1
      (hsmall c List.mem_cons_self) hle
    simp only [List.map_cons, List.flatten_cons, Receiving.run, hstep]
    rw [List.map_cons, List.flatten_cons, ← List.append_assoc] at hsum
    rw [← List.append_assoc]
    apply ih
    · intro f hf
      rw [← Option.some.inj hf, hheader]
    · exact fun d hd => hsame d (List.mem_cons_of_mem _ hd)
    · exact htiles.2
    · exact fun d hd => hsmall d (List.mem_cons_of_mem _ hd)
    · simp
    · exact hsum

/-! ### What is sent -/

section Sent
variable (message : Message) (snapshot : Snapshot) (checksum : ℕ)

/-- The chunks that the loop sends from `offset` on, when the source has what is left of the
    image. -/
theorem sendChunks_spec {size offset : ℕ} {source : Bytes} (hpos : 0 < size)
    (hsource : offset + source.length = size) :
    ∃ chunks, sendChunks message snapshot size checksum offset source = (chunks, .ok []) ∧
      Consecutive offset size chunks ∧ (chunks.map (·.data)).flatten = source ∧
      ∀ c ∈ chunks, c.header = snapshotHeader message snapshot size checksum ∧
        0 < c.data.length ∧ c.data.length ≤ snapshotChunkBytes := by
  have hchunk : 0 < snapshotChunkBytes := by decide
  -- on the length of the source: every turn takes at least one byte
  induction hn : source.length using Nat.strong_induction_on generalizing offset source with
  | _ n ih =>
    rw [sendChunks]
    by_cases hlt : offset < size
    · have htake : min snapshotChunkBytes (size - offset) ≤ source.length := by omega
      have hdrop : (source.drop (min snapshotChunkBytes (size - offset))).length =
          source.length - min snapshotChunkBytes (size - offset) := List.length_drop
      obtain ⟨chunks, hsend, htiles, hdata, hall⟩ := ih _ (by omega)
        (show (offset + min snapshotChunkBytes (size - offset)) +
          (source.drop (min snapshotChunkBytes (size - offset))).length = size by omega) hdrop
      have hlen : (source.take (min snapshotChunkBytes (size - offset))).length =
          min snapshotChunkBytes (size - offset) := by
        rw [List.length_take, Nat.min_eq_left htake]
      rw [if_pos (Or.inl hlt)]
      simp only [if_neg (Nat.not_lt.mpr htake), if_neg (Nat.ne_of_gt hpos), hsend]
      refine ⟨_, rfl, ⟨rfl, ?_⟩, ?_, ?_⟩
      · show Consecutive (offset + (source.take _).length) size chunks
        rw [hlen]
        exact htiles
      · rw [List.map_cons, List.flatten_cons, hdata]
        exact List.take_append_drop _ _
      · intro c hc
        rcases List.mem_cons.mp hc with rfl | hc
        · refine ⟨rfl, ?_, ?_⟩
          · show 0 < (source.take _).length
            omega
          · show (source.take _).length ≤ _
            omega
        · exact hall c hc
    · obtain rfl : source = [] := List.length_eq_zero_iff.mp (by omega)
      rw [if_neg (by omega)]
      exact ⟨[], rfl, by simp only [List.length_nil] at hsource; exact hsource, rfl, by simp⟩

theorem sendChunks_empty :
    sendChunks message snapshot 0 checksum 0 [] =
      ([snapshotChunk message snapshot 0 checksum 0 []], .ok []) := by
  rw [sendChunks]
  simp

theorem sendChunks_image (data : Bytes) :
    ∃ chunks, sendChunks message snapshot data.length checksum 0 data = (chunks, .ok []) ∧
      chunks ≠ [] ∧ Consecutive 0 data.length chunks ∧ (chunks.map (·.data)).flatten = data ∧
      (∀ c ∈ chunks, c.header = snapshotHeader message snapshot data.length checksum ∧
        c.data.length ≤ snapshotChunkBytes) ∧
      (data ≠ [] → ∀ c ∈ chunks, 0 < c.data.length) := by
  cases data with
  | nil =>
    refine ⟨_, sendChunks_empty message snapshot checksum, by simp, ⟨rfl, rfl⟩, rfl, ?_, by simp⟩
    intro c hc
    obtain rfl := List.mem_singleton.mp hc
    exact ⟨rfl, Nat.zero_le _⟩
  | cons b data =>
    have hlen : 0 + (b :: data).length = (b :: data).length := Nat.zero_add _
    obtain ⟨chunks, hsend, htiles, hdata, hall⟩ :=
      sendChunks_spec message snapshot checksum (by simp) hlen
    refine ⟨chunks, hsend, ?_, htiles, hdata, fun c hc => ⟨(hall c hc).1, (hall c hc).2.2⟩,
      fun _ c hc => (hall c hc).2.1⟩
    rintro rfl
    simp at hdata

end Sent

/-- `sendSnapshot` when the source holds as much as declared. -/
theorem sendSnapshot_eq {message : Message} {snapshot : Snapshot} {data : Bytes} {checksum : ℕ}
    {chunks : List SnapshotChunk} (hsnapshot : message.snapshot = some snapshot)
    (hsize : data.length ≤ maxSnapshotBytes)
    (hsend : sendChunks message snapshot data.length checksum 0 data = (chunks, .ok [])) :
    sendSnapshot message data data.length checksum = (chunks, none) := by
  simp only [sendSnapshot, hsnapshot, hsend]
  rw [if_neg (Nat.not_lt.mpr hsize)]
  simp

/-- The metadata that a message with positive fields sends are acceptable. -/
theorem acceptable_snapshotHeader {message : Message} {snapshot : Snapshot} {size checksum : ℕ}
    (hfrom : 0 < message.fromID) (hto : 0 < message.toID) (hterm : 0 < message.term)
    (hindex : 0 < snapshot.index) (hsterm : 0 < snapshot.term) (hsize : size ≤ maxSnapshotBytes) :
    (snapshotHeader message snapshot size checksum).Acceptable :=
  ⟨Nat.ne_of_gt hfrom, Nat.ne_of_gt hto, Nat.ne_of_gt hterm, Nat.ne_of_gt hindex,
    Nat.ne_of_gt hsterm, hsize⟩

/-- **Snapshots are streamed without loss, and damage is detected.**  The chunks of an image are
    received as its data and metadata.  Of the sequences made of these chunks and of chunks with
    other metadata, at least one of them an original, no other one is received, and neither is the
    empty one. -/
theorem snapshot_stream (checksum : Bytes → ℕ) (message : Message) (snapshot : Snapshot)
    (data : Bytes) (hsnapshot : message.snapshot = some snapshot) (hfrom : 0 < message.fromID)
    (hto : 0 < message.toID) (hterm : 0 < message.term) (hindex : 0 < snapshot.index)
    (hsterm : 0 < snapshot.term) (hsize : data.length ≤ maxSnapshotBytes) :
    ∃ chunks, sendSnapshot message data data.length (checksum data) = (chunks, none) ∧
      receiveSnapshotTo checksum (chunks.map .chunk) =
        .ok ({
          type := .snapshot
          fromID := message.fromID
          toID := message.toID
          term := message.term
          snapshot := some {
            index := snapshot.index
            term := snapshot.term
            membership := snapshot.membership } }, data) ∧
      (data ≠ [] → ∀ damaged : List SnapshotChunk, damaged ≠ chunks →
        (∀ c ∈ damaged, c ∈ chunks ∨
          c.header ≠ snapshotHeader message snapshot data.length (checksum data)) →
        (damaged = [] ∨ ∃ c ∈ damaged, c ∈ chunks) →
        ∃ e, receiveSnapshotTo checksum (damaged.map .chunk) = .error e) := by
  have hgood : (snapshotHeader message snapshot data.length (checksum data)).Acceptable :=
    acceptable_snapshotHeader hfrom hto hterm hindex hsterm hsize
  obtain ⟨chunks, hsend, hne, htiles, hdata, hall, hpos⟩ :=
    sendChunks_image message snapshot (checksum data) data
  refine ⟨chunks, sendSnapshot_eq hsnapshot hsize hsend, ?_, ?_⟩
  · have hsum : checksum ([] ++ (chunks.map (·.data)).flatten) = checksum data := by
      rw [List.nil_append, hdata]
    obtain ⟨first, hheader, hrun⟩ := Receiving.run_of_consecutive (r := {}) hgood
      (by simp [Receiving.Expects]) (fun c hc => (hall c hc).1) htiles
      (fun c hc => (hall c hc).2) (fun h => absurd h hne) hsum
    have hmessage : first.message =
        (snapshotChunk message snapshot data.length (checksum data) 0 []).message :=
      SnapshotChunk.message_eq hheader
    rw [receiveSnapshotTo, hrun, hdata, hmessage]
    rfl
  · intro hdata damaged hdiff hfrom horiginal
    cases hrun : receiveSnapshotTo checksum (damaged.map .chunk) with
    | error e => exact ⟨e, rfl⟩
    | ok out =>
      -- one transfer, that of the original chunk; so all are originals, and cover the image
      obtain ⟨header, _, hsame, hcover, hempty⟩ := Receiving.run_eq_ok hrun
      rcases horiginal with rfl | ⟨c, hc, hmem⟩
      · simp at hempty
      have hheader := (hsame c hc).symm.trans (hall c hmem).1
      refine absurd (htiles.unique (hpos hdata) ?_ fun d hd => ?_) hdiff
      · rw [hheader] at hcover
        exact hcover
      · rcases hfrom d hd with h | h
        · exact h
        · exact absurd ((hsame d hd).trans hheader) h

/-- A snapshot message between two nodes. -/
def sampleMessage : Message where
  type := .snapshot
  fromID := 1
  toID := 2
  term := 3
  snapshot := some { index := 4, term := 3, membership := { voters := [1, 2], index := 1 } }

/-- Sending it twice over one stream is an error. -/
theorem snapshot_stream_sample :
    ∃ chunks, sendSnapshot sampleMessage [7, 8] 2 15 = (chunks, none) ∧
      receiveSnapshotTo (fun bs => (bs.map UInt8.toNat).sum) (chunks.map .chunk) =
        .ok (sampleMessage, [7, 8]) ∧
      ∃ e, receiveSnapshotTo (fun bs => (bs.map UInt8.toNat).sum) ((chunks ++ chunks).map .chunk) =
        .error e := by
  obtain ⟨chunks, hsend, hreceive, hdamaged⟩ := snapshot_stream
    (fun bs => (bs.map UInt8.toNat).sum) sampleMessage
    { index := 4, term := 3, membership := { voters := [1, 2], index := 1 } } [7, 8] rfl
    (by decide) (by decide) (by decide) (by decide) (by decide) (by decide)
  have hne : chunks ≠ [] := by
    rintro rfl
    simp [receiveSnapshotTo, Receiving.run, Receiving.finish] at hreceive
  obtain ⟨c, hc⟩ := List.exists_mem_of_ne_nil chunks hne
  refine ⟨chunks, hsend, hreceive, hdamaged (by decide) (chunks ++ chunks) ?_ ?_ (Or.inr ⟨c, ?_⟩)⟩
  · simpa using hne
  · intro d hd
    rcases List.mem_append.mp hd with h | h
    · exact Or.inl h
    · exact Or.inl h
  · exact ⟨List.mem_append_left _ hc, hc⟩

end Lsmdb.RaftGrpc

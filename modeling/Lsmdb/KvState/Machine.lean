import Lsmdb.Db.Following

namespace Lsmdb.KvState

open Lsmdb.Db Lsmdb.Binary

/-!
# The replicated key-value machine

`internal/kvstate` applies committed entries to a replica.  User keys and client sessions have
different prefixes; a session holds the number of the client's last request, and a request that
is not newer is skipped.  Over every life of a machine, with crashes and with snapshots of other
machines, what it shows is determined by the log up to its applied index.
-/

/-- `lsmdbv1.Command_Operation`, an open enumeration. -/
inductive Operation where
  | noop
  | put
  | delete
  | other (code : ℕ)
  deriving DecidableEq

/-- `Command_Operation.String`. -/
def Operation.name : Operation → String
  | .noop => "OPERATION_NOOP"
  | .put => "OPERATION_PUT"
  | .delete => "OPERATION_DELETE"
  | .other code => toString code

/-- `lsmdbv1.Command`. -/
structure Command where
  operation : Operation
  key : Key
  value : Value
  clientId : Key
  requestSeq : UInt64

/-- `proto.Unmarshal` of a `Command`. -/
class CommandProto where
  unmarshal : List UInt8 → Except String Command

def userPrefix : Key := [1]

/-- `"\x00session/"`. -/
def sessionPrefix : Key := [0, 115, 101, 115, 115, 105, 111, 110, 47]

/-- The checks of `Apply`. -/
def Command.check (c : Command) : Option String :=
  if c.operation ≠ .put ∧ c.operation ≠ .delete then
    some s!"unsupported state-machine operation {c.operation.name}"
  else if c.clientId = [] ∨ c.requestSeq = 0 then
    some "committed command has invalid request identity"
  else none

/-- The last request in the session of a client, zero if there is none; requests are not zero. -/
def session (m : Map) (clientId : Key) : ℕ :=
  (m (sessionPrefix ++ clientId)).elim 0 fun raw => if raw.length = 8 then ofBigEndian raw else 0

/-- The batch of `Apply` on a replica that shows `m`; an empty entry has no command. -/
def batch (m : Map) : Option Command → List Mutation
  | none => []
  | some c =>
    if c.requestSeq.toNat ≤ session m c.clientId then []
    else
      [if c.operation = .delete then { type := mutationDelete, key := userPrefix ++ c.key }
        else { type := mutationPut, key := userPrefix ++ c.key, value := c.value },
       { type := mutationPut, key := sessionPrefix ++ c.clientId
         value := toBigEndian 8 c.requestSeq.toNat }]

/-- `MaxKeyBytes`. -/
def maxKeyBytes : ℕ := 16 * 2 ^ 10

/-- `Machine.Get`. -/
def get (db : DB) (key : Key) : Except String (Option Value) :=
  if key = [] ∨ maxKeyBytes < key.length then
    .error s!"key length must be between 1 and {maxKeyBytes} bytes"
  else .ok (db.get (userPrefix ++ key))

/-- The data of the entries of a log. -/
abbrev Log := List (List UInt8)

section Proto
variable [CommandProto]

/-- The command of an entry. -/
def command (data : List UInt8) : Except String (Option Command) :=
  if data = [] then .ok none
  else match CommandProto.unmarshal data with
    | .error e => .error s!"decode state-machine command: {e}"
    | .ok c =>
      match c.check with
      | some e => .error e
      | none => .ok (some c)

/-- `Machine.Apply`. -/
def apply (db : DB) (index : ℕ) (data : List UInt8) : Io (DB × Option String) :=
  match command data with
  | .error e => .ret (db, some e)
  | .ok c => db.applyBatch index (batch db.get c)

/-! ### The map of a log -/

/-- What an entry makes of the map; one that `Apply` refuses leaves it. -/
def step (m : Map) (data : List UInt8) : Map := fun k =>
  match command data with
  | .error _ => m k
  | .ok c => ((firstOf (batch m c) k).map Mutation.result).getD (m k)

/-- The map of the first `index` entries. -/
def imageAt (log : Log) (index : ℕ) : Map := (log.take index).foldl step fun _ => none

theorem imageAt_succ {log : Log} {i : ℕ} {data : List UInt8}
    (h : log[i]? = some data) : imageAt log (i + 1) = step (imageAt log i) data := by
  rw [imageAt, List.take_add_one, h]
  simp [imageAt]

section Session
variable {m : Map} {data : List UInt8} {c : Command}

theorem step_old (hc : command data = .ok (some c))
    (h : c.requestSeq.toNat ≤ session m c.clientId) : step m data = m := by
  ext1 k
  simp only [step, hc, batch, if_pos h]
  rfl

/-- **A session holds the greatest request.** -/
theorem session_step (hc : command data = .ok (some c)) (client : Key) :
    session (step m data) client = if c.clientId = client
      then max (session m client) c.requestSeq.toNat else session m client := by
  by_cases h : c.requestSeq.toNat ≤ session m c.clientId
  · rw [step_old hc h]
    split
    · rename_i hclient
      rw [max_eq_left (hclient ▸ h)]
    · rfl
  · have hlt : c.requestSeq.toNat < 256 ^ 8 := c.requestSeq.toNat_lt
    have hnew : step m data (sessionPrefix ++ client) = if c.clientId = client
        then some (toBigEndian 8 c.requestSeq.toNat) else m (sessionPrefix ++ client) := by
      simp only [step, hc, batch, if_neg h, firstOf, List.find?_cons, List.find?_nil]
      rw [decide_eq_false (by split <;> simp [userPrefix, sessionPrefix])]
      by_cases hclient : c.clientId = client
      · simp [hclient, Mutation.result, mutationPut, mutationDelete]
      · simp [hclient]
    rw [session, hnew]
    split
    · rename_i hclient
      subst hclient
      simp [ofBigEndian_toBigEndian_of_lt hlt, max_eq_right (not_le.mp h).le]
    · rfl

/-- Sessions only move on. -/
theorem session_le_foldl (m : Map) (log : Log) (client : Key) :
    session m client ≤ session (log.foldl step m) client := by
  induction log generalizing m with
  | nil => exact le_rfl
  | cons data log ih =>
    refine le_trans ?_ (ih (step m data))
    cases hc : command data with
    | error e => simp [session, step, hc]
    | ok o =>
      cases o with
      | none => simp [session, step, hc, batch, firstOf]
      | some c =>
        rw [session_step hc]
        split <;> simp

end Session

/-! ### Lives -/

section Device
variable [BloomSize] [Remnant] {log : Log} {lo lo' : ℕ} {d d' : Disk} {db db' : DB}

/-- Where a call leaves a machine: it returns, or a crash, which may also come right after it,
    loses the handle. -/
inductive Leaves (p : Io (DB × Option String)) (d : Disk) : Life → Prop where
  | returned : Leaves p d ((p.run disk d).1, some (p.run disk d).2.1)
  | crash {t : Disk} (ht : p.Crash disk d t) : Leaves p d (t, none)

/-- **The machines of a log**, each from a new directory on: `Apply` of any entry,
    `RestoreSnapshot` of what any machine has ever written, and the flush of `Close`.  `lo` is an
    index that `DurableIndex` has once returned.  A crash in `Open` leads nowhere else. -/
inductive Reached (log : Log) : ℕ → Life → Prop where
  | created : Reached log 0 ({}, none)
  | opened {lo : ℕ} {d d' : Disk} {opts : Options} {db : DB} (h : Reached log lo (d, none))
      (hmode : opts.durabilityMode = .replica)
      (hrun : (openPath opts).run disk d = (d', .ok db)) : Reached log lo (d', some db)
  | applied {lo : ℕ} {d : Disk} {db : DB} {l : Life} {index : ℕ} {data : List UInt8}
      (h : Reached log lo (d, some db)) (hdata : log[index - 1]? = some data)
      (hl : Leaves (apply db index data) d l) : Reached log lo l
  | restored {lo lo' index size : ℕ} {d d' : Disk} {db peer : DB} {stream : List UInt8} {l : Life}
      (h : Reached log lo (d, some db)) (hpeer : Reached log lo' (d', some peer))
      (hwrite : peer.writeReplicaSnapshot = .ok (index, stream)) (hsize : size < 2 ^ 64)
      (hl : Leaves (db.replaceReplicaSnapshot index size stream) d l) : Reached log lo l
  | flushed {lo : ℕ} {d : Disk} {db : DB} {l : Life} (h : Reached log lo (d, some db))
      (hl : Leaves db.flush d l) : Reached log lo l
  | durable {lo : ℕ} {d : Disk} {db : DB} (h : Reached log lo (d, some db)) :
      Reached log db.durableIndex (d, some db)

theorem tracks_apply {files : List (String × List Record)}
    (hdb : Follows (imageAt log) lo d db files) {index : ℕ} {data : List UInt8}
    (hdata : log[index - 1]? = some data) : Tracks (imageAt log) lo (apply db index data) d := by
  unfold KvState.apply
  cases hc : command data with
  | error e => exact hdb.ret _
  | ok c =>
    refine hdb.applyBatch fun hindex k => ?_
    have hget : db.get = imageAt log db.appliedIndex := by
      ext1 k
      rw [hdb.replica.shows.get, hdb.applied]
    rw [hindex, Nat.add_sub_cancel] at hdata
    simp only [hindex, imageAt_succ hdata, step, ← hget, hc]

/-- What holds at every point of such a life. -/
def Good (log : Log) (lo : ℕ) : Life → Prop
  | (d, none) => Kept (imageAt log) lo d
  | (d, some db) => ∃ files, Follows (imageAt log) lo d db files

theorem Leaves.good {p : Io (DB × Option String)} {l : Life} (h : Leaves p d l)
    (hp : Tracks (imageAt log) lo p d) : Good log lo l := by
  cases h with
  | returned => exact hp.run
  | crash ht => exact hp.crash _ ht

theorem Reached.good {l : Life} (h : Reached log lo l) : Good log lo l := by
  induction h with
  | created => exact Or.inl ⟨rfl, rfl, rfl, rfl⟩
  | opened _ hmode hrun ih =>
    obtain ⟨d', db, files, hopens, hdb, -⟩ := Kept.opens ih hmode
    cases hopens.symm.trans hrun
    exact ⟨files, hdb⟩
  | applied _ hdata hl ih =>
    obtain ⟨files, hdb⟩ := ih
    exact hl.good (tracks_apply hdb hdata)
  | restored _ _ hwrite hsize hl ih ihpeer =>
    obtain ⟨files, hdb⟩ := ih
    obtain ⟨_, hpeer⟩ := ihpeer
    exact hl.good (hdb.replaceReplicaSnapshot hsize
      fun _ hpairs => hpeer.writeReplicaSnapshot hwrite hpairs)
  | flushed _ hl ih =>
    obtain ⟨files, hdb⟩ := ih
    exact hl.good hdb.flush
  | durable _ ih =>
    obtain ⟨files, hdb⟩ := ih
    exact ⟨files, { hdb with lo_le := hdb.replica.durable.le }⟩

theorem Reached.shows (h : Reached log lo (d, some db)) :
    Shows db (imageAt log db.appliedIndex) := by
  obtain ⟨files, hdb⟩ := h.good
  exact hdb.applied ▸ hdb.replica.shows

/-- **A crash loses nothing durable.**  What `DurableIndex` has once returned stays durable as
    long as the machine is open; and after a crash at any file step it opens again, at no earlier
    index and with the map of the log up to there. -/
theorem durable_survives :
    (∀ d db, Reached log lo (d, some db) →
        lo ≤ db.durableIndex ∧ db.durableIndex ≤ db.appliedIndex)
      ∧ ∀ d opts, Reached log lo (d, none) → opts.durabilityMode = .replica →
        ∃ d' db, (openPath opts).run disk d = (d', .ok db) ∧ lo ≤ db.appliedIndex
          ∧ db.appliedIndex = db.durableIndex ∧ Shows db (imageAt log db.appliedIndex) := by
  constructor
  · intro d db h
    obtain ⟨files, hdb⟩ := h.good
    rw [hdb.replica.durable]
    exact ⟨hdb.lo_le, hdb.replica.applied⟩
  · intro d opts h hmode
    obtain ⟨d', db, files, hrun, hdb, happlied⟩ := Kept.opens h.good hmode
    exact ⟨d', db, hrun, hdb.lo_le.trans hdb.replica.applied, happlied,
      hdb.applied ▸ hdb.replica.shows⟩

/-- **A snapshot brings a machine up to date.**  A machine that has applied an entry can write one,
    and any machine that is not ahead of it restores that and then shows the same, as long as keys
    and values fit the format. -/
theorem snapshot_catches_up (h : Reached log lo (d, some db)) (h' : Reached log lo' (d', some db'))
    (hle : db.appliedIndex ≤ db'.appliedIndex) (hpos : 0 < db'.appliedIndex)
    (hfits : ∀ p : KVPair, imageAt log db'.appliedIndex p.key = some p.value → p.Fits) :
    ∃ stream, db'.writeReplicaSnapshot = .ok (db'.appliedIndex, stream)
      ∧ (stream.length < 2 ^ 64 → ∃ d₁ db₁,
        (db.replaceReplicaSnapshot db'.appliedIndex stream.length stream).run disk d
            = (d₁, (db₁, none))
          ∧ db₁.appliedIndex = db'.appliedIndex ∧ ∀ key, get db₁ key = get db' key) := by
  obtain ⟨files, hdb⟩ := h.good
  obtain ⟨files', hdb'⟩ := h'.good
  obtain ⟨stream, pairs, hwrite, hpairs⟩ := hdb'.accepted hpos hfits hle
  refine ⟨stream, hwrite, fun hsize => ?_⟩
  have hrun := replaceReplicaSnapshot_accepted (d := d) hdb.replica.mode hsize hpairs
  have hnew := Reached.restored h h' hwrite hsize .returned
  rw [hrun] at hnew
  refine ⟨_, _, hrun, rfl, fun key => ?_⟩
  unfold KvState.get
  rw [hnew.shows.get, h'.shows.get]
  rfl

/-- **A retry has no effect.**  A machine that has applied a log with a request in it again shows
    every user the same as one that has applied the log without the retry, whatever the lives of
    the two were. -/
theorem retry_applied_once {before after : Log} {first retry : List UInt8}
    {c₀ c : Command} (hfirst : first ∈ before) (hc₀ : command first = .ok (some c₀))
    (hc : command retry = .ok (some c)) (hclient : c.clientId = c₀.clientId)
    (hseq : c.requestSeq ≤ c₀.requestSeq)
    (h : Reached (before ++ retry :: after) lo (d, some db))
    (hall : db.appliedIndex = (before ++ retry :: after).length)
    (h' : Reached (before ++ after) lo' (d', some db'))
    (hall' : db'.appliedIndex = (before ++ after).length) (key : Key) :
    get db key = get db' key := by
  have hskip : ∀ m, step (before.foldl step m) retry = before.foldl step m := by
    intro m
    obtain ⟨l, l', rfl⟩ := List.append_of_mem hfirst
    rw [List.foldl_append, List.foldl_cons]
    apply step_old hc
    have hlater := session_le_foldl (step (l.foldl step m) first) l' c.clientId
    rw [session_step hc₀, if_pos hclient.symm] at hlater
    have := UInt64.le_iff_toNat_le.mp hseq
    omega
  unfold KvState.get
  rw [h.shows.get, h'.shows.get, hall, hall', imageAt, imageAt, List.take_length,
    List.take_length, List.foldl_append, List.foldl_cons, hskip, List.foldl_append]

end Device

end Proto

/-! ### A client that puts one value -/

/-- Every entry holds the same request. -/
@[reducible] def onePut : CommandProto where
  unmarshal _ := .ok ⟨.put, [97], [1], [99], 1⟩

/-- A machine that has been fed `n` entries with the same data. -/
def fed (data : List UInt8) : ℕ → Disk × DB
  | 0 => (({} : Disk).published {}, newReplica)
  | n + 1 =>
    let r := (@apply onePut (fed data n).2 (n + 1) data).run (@disk .sixteenBits .refused)
      (fed data n).1
    (r.1, r.2.1)

theorem fed_reached (data : List UInt8) (k : ℕ) {n : ℕ} (hn : n ≤ k) :
    @Reached onePut .sixteenBits .refused (List.replicate k data) 0
      ((fed data n).1, some (fed data n).2) := by
  let _ := onePut
  let _ := BloomSize.sixteenBits
  let _ := Remnant.refused
  induction n with
  | zero => exact .opened .created rfl (openPath_new rfl rfl rfl)
  | succ n ih =>
    have hdata : (List.replicate k data)[n + 1 - 1]? = some data := by
      rw [Nat.add_sub_cancel, List.getElem?_replicate, if_pos (by omega)]
    exact .applied (ih (by omega)) hdata .returned

/-- The machine is flushed, crashes and is opened again. -/
theorem durable_survives_put :
    let _ := BloomSize.sixteenBits
    let _ := Remnant.refused
    ∃ d d' db, (openPath { durabilityMode := .replica }).run disk d = (d', .ok db)
      ∧ 2 ≤ db.appliedIndex := by
  intro _ _
  let _ := onePut
  have hdown : Reached [[0], [0]] 2 (((fed [0] 2).2.flush.run disk (fed [0] 2).1).1, none) :=
    .flushed (.durable (.flushed (fed_reached [0] 2 le_rfl) .returned))
      (.crash (Effect.Prog.crash_start _ _ _))
  obtain ⟨d', db, hrun, hlo, -⟩ := durable_survives.2 _ { durabilityMode := .replica } hdown rfl
  exact ⟨_, d', db, hrun, hlo⟩

/-- The snapshot of a machine that has applied one no-op. -/
theorem snapshot_catches_up_noop :
    let _ := BloomSize.sixteenBits
    let _ := Remnant.refused
    ∃ stream, (fed [] 1).2.writeReplicaSnapshot = .ok (1, stream)
      ∧ (stream.length < 2 ^ 64 → ∃ d db,
        (newReplica.replaceReplicaSnapshot 1 stream.length stream).run disk (fed [] 0).1
          = (d, (db, none))) := by
  intro _ _
  let _ := onePut
  obtain ⟨stream, hwrite, hrun⟩ := snapshot_catches_up (fed_reached [] 1 (Nat.zero_le 1))
    (fed_reached [] 1 le_rfl) (by decide) (by decide)
    fun p hp => absurd (show none = some p.value from hp) (by simp)
  refine ⟨stream, hwrite, fun hsize => ?_⟩
  obtain ⟨d, db, hrun, -⟩ := hrun hsize
  exact ⟨d, db, hrun⟩

/-- The request is committed twice. -/
theorem retry_applied_once_put : get (fed [0] 2).2 [97] = .ok (some [1])
    ∧ ∀ key, get (fed [0] 2).2 key = get (fed [0] 1).2 key := by
  refine ⟨rfl, fun key => ?_⟩
  exact @retry_applied_once onePut .sixteenBits .refused _ _ _ _ _ _ [[0]] [] [0] [0] _ _
    (by simp) rfl rfl rfl (UInt64.le_refl _) (fed_reached [0] 2 le_rfl) rfl
    (fed_reached [0] 1 le_rfl) rfl key

end Lsmdb.KvState

import DEngine.Adaptors.Interpreter
import DEngine.Library.Framing

/-!
# The state machine in RocksDB

The values are in one column family, the last applied identity in another one. A
chunk becomes one write batch, read through by its own compare-and-swaps, with the
last applied identity in the same batch. The write-ahead log of the database is
disabled for it: a write survives a crash if the memtable of its column family was
flushed behind it.

## Implementation notes

A column family keeps what is visible, what its files hold, and the number of the
last batch that a flush covered. The metadata keys of snapshots and leases are left
out, and so is the write-ahead log, which the batches here do not use. Opening the
database, flushing and deleting succeed; a read or a write of a chunk may fail with
a text of the database.
-/

namespace DEngine.Adaptors

open Apply Library Library.Framing

/-! ## The database -/

structure ColumnFamily (C : Type) where
  content : C
  flushed : C
  flushedSeqno : Nat

namespace ColumnFamily

variable {C : Type}

def flush (cf : ColumnFamily C) (seqno : Nat) : ColumnFamily C :=
  ⟨cf.content, cf.content, seqno⟩

/-- What a crash leaves of a column family. -/
def crash (cf : ColumnFamily C) : ColumnFamily C := { cf with content := cf.flushed }

end ColumnFamily

/-- The metadata keys of the last applied identity. -/
structure MetaContent where
  lastAppliedIndex : Option Bytes
  lastAppliedTerm : Option Bytes
deriving DecidableEq

structure Db where
  stateMachineCf : Option (ColumnFamily (KeyMap Bytes Bytes))
  stateMachineMetaCf : Option (ColumnFamily MetaContent)
  /-- The number of batches that were written. -/
  seqno : Nat

/-- A batch with an index: the last write for each key. -/
structure WriteBatchWithIndex where
  stateMachine : Overlay Bytes Bytes
  lastApplied : Option LogId

namespace Db

/-- A database with two empty column families. -/
def empty : Db := ⟨some ⟨∅, ∅, 0⟩, some ⟨⟨none, none⟩, ⟨none, none⟩, 0⟩, 0⟩

/-- Write a batch to the memtables, without a log. -/
def writeWbwi (db : Db) (batch : WriteBatchWithIndex) : Db where
  stateMachineCf := db.stateMachineCf.map fun cf =>
    { cf with content := batch.stateMachine.commit cf.content }
  stateMachineMetaCf := db.stateMachineMetaCf.map fun cf =>
    { cf with
      content := batch.lastApplied.elim cf.content fun id =>
        ⟨some (toBigEndian 8 id.index), some (toBigEndian 8 id.term)⟩ }
  seqno := db.seqno + 1

def flushStateMachineCf (db : Db) : Db :=
  { db with stateMachineCf := db.stateMachineCf.map (ColumnFamily.flush · db.seqno) }

def flushStateMachineMetaCf (db : Db) : Db :=
  { db with stateMachineMetaCf := db.stateMachineMetaCf.map (ColumnFamily.flush · db.seqno) }

def crash (db : Db) : Db :=
  { db with
    stateMachineCf := db.stateMachineCf.map ColumnFamily.crash
    stateMachineMetaCf := db.stateMachineMetaCf.map ColumnFamily.crash }

end Db

/-! ## The machine -/

structure RocksDBStateMachine where
  db : Option Db
  isServing : Bool
  lastAppliedIndex : Nat
  lastAppliedTerm : Nat
  lease : Option TtlLease

/-- A machine over an empty database. -/
def RocksDBStateMachine.fresh : RocksDBStateMachine := ⟨some .empty, true, 0, 0, none⟩

/-- The faults of the database while a chunk is applied: of the comparing read of an entry, and of
the write of the batch. -/
structure DbFaults where
  casRead : Nat → Option String
  write : Option String

/-- No fault. -/
def DbFaults.none : DbFaults := ⟨fun _ => Option.none, Option.none⟩

namespace RocksDBStateMachine

variable (sm : RocksDBStateMachine)

def lastApplied : LogId := ⟨sm.lastAppliedTerm, sm.lastAppliedIndex⟩

def updateLastApplied (id : LogId) : RocksDBStateMachine :=
  { sm with lastAppliedIndex := id.index, lastAppliedTerm := id.term }

/-- A number that is not stored in eight bytes reads as zero. -/
def loadNumber : Option Bytes → Nat
  | some bytes => if bytes.length = 8 then ofBigEndian bytes else 0
  | none => 0

def loadStateMachineMetadata (db : Db) : Except Fault LogId :=
  match db.stateMachineMetaCf with
  | none => .error (.dbError "State machine meta CF not found")
  | some cf => .ok ⟨loadNumber cf.content.lastAppliedTerm, loadNumber cf.content.lastAppliedIndex⟩

/-- Open a database. -/
def new (db : Db) : Except Fault RocksDBStateMachine :=
  match loadStateMachineMetadata db with
  | .error fault => .error fault
  | .ok id => .ok ⟨some db, true, id.index, id.term, none⟩

/-! ### Applying a chunk -/

/-- What the loop over a chunk works on. -/
structure Batching where
  batch : WriteBatchWithIndex
  highest : Option LogId
  lease : Option TtlLease
  results : List ApplyResult

namespace Batching

variable (b : Batching)

def putCf (key value : Bytes) : Batching :=
  { b with batch := { b.batch with stateMachine := b.batch.stateMachine.insert key (some value) } }

def deleteCf (key : Bytes) : Batching :=
  { b with batch := { b.batch with stateMachine := b.batch.stateMachine.insert key none } }

def unregister (key : Bytes) : Batching :=
  { b with lease := b.lease.map (TtlLease.unregister · key) }

def push (result : ApplyResult) : Batching := { b with results := b.results ++ [result] }

def applyOp (b : Batching) : BatchOp → Batching
  | .insert key value => b.putCf key value
  | .delete key => (b.deleteCf key).unregister key

end Batching

def applyCommand (content : KeyMap Bytes Bytes) (casRead : Option String) (now : Nat)
    (b : Batching) (entry : ApplyEntry) : Except Fault Batching :=
  match entry.command with
  | .noop => .ok (b.push (.success entry.index))
  | .insert key value ttlSecs =>
    match registerTtl b.lease now key ttlSecs with
    | .error fault => .error fault
    | .ok lease => .ok ({ b.putCf key value with lease }.push (.success entry.index))
  | .delete key => .ok (((b.deleteCf key).unregister key).push (.success entry.index))
  | .compareAndSwap key expected newValue =>
    match casRead with
    | some e => .error (.dbError s!"CAS read failed: {e}")
    | none =>
      let currentValue := b.batch.stateMachine.get (fun k => content[k]?) key
      if casMatches currentValue expected then
        .ok ((b.putCf key newValue).push (.success entry.index))
      else .ok (b.push (.failure entry.index))
  | .batch ops => .ok ((ops.foldl Batching.applyOp b).push (.success entry.index))

def applyEntry (content : KeyMap Bytes Bytes) (casRead : Option String) (now : Nat) (b : Batching)
    (entry : ApplyEntry) : Except Fault Batching :=
  match nextHighest b.highest entry with
  | .error fault => .error fault
  | .ok highest => applyCommand content casRead now { b with highest } entry

def batchChunk (content : KeyMap Bytes Bytes) (faults : DbFaults) (registeredAt : Nat → Nat) :
    Batching → List ApplyEntry → Except Fault Batching
  | b, [] => .ok b
  | b, entry :: rest =>
    match applyEntry content (faults.casRead entry.index) (registeredAt entry.index) b entry with
    | .error fault => .error fault
    | .ok b => batchChunk content faults registeredAt b rest

def applyChunk (faults : DbFaults) (registeredAt : Nat → Nat) (chunk : List ApplyEntry) :
    Except Fault (List ApplyResult × RocksDBStateMachine) :=
  match sm.db with
  | none => .error (.notServing "state machine stopped")
  | some db =>
    match db.stateMachineCf, db.stateMachineMetaCf with
    | none, _ => .error (.dbError "State machine CF not found")
    | some _, none => .error (.dbError "State machine meta CF not found")
    | some cf, some _ =>
      match batchChunk cf.content faults registeredAt ⟨⟨∅, none⟩, none, sm.lease, []⟩ chunk with
      | .error fault => .error fault
      | .ok b =>
        match faults.write with
        | some e => .error (.dbError e)
        | none =>
          let written := db.writeWbwi { b.batch with lastApplied := b.highest }
          let sm := { sm with db := some written, lease := b.lease }
          .ok (b.results, b.highest.elim sm sm.updateLastApplied)

/-! ### The cleanup of leases -/

/-- Delete keys, in a batch of its own. -/
def deleteKeys (db : Db) (keys : List Bytes) : Db :=
  { db with
    stateMachineCf := db.stateMachineCf.map fun cf =>
      { cf with content := cf.content.writeAll (keys.map fun k => (k, none)) }
    seqno := db.seqno + 1 }

/-! ## What a chunk does -/

theorem foldl_applyOp (b : Batching) (term : Nat) (ops : List BatchOp) :
    ops.foldl Batching.applyOp b =
      { b with
        batch := { b.batch with
          stateMachine := b.batch.stateMachine.putAll (ops.map (opWrite (fun _ v => v) term)) }
        lease := b.lease.map (ops.foldl TtlLease.unregisterOp ·) } := by
  induction ops generalizing b with
  | nil =>
    obtain ⟨batch, highest, lease, results⟩ := b
    cases lease <;> rfl
  | cons op rest ih =>
    rw [List.foldl_cons, ih]
    obtain ⟨batch, highest, lease, results⟩ := b
    cases op <;> cases lease <;> rfl

/-- An entry decides through the batch and adds its writes to it. -/
theorem applyCommand_eq {content : KeyMap Bytes Bytes} {b : Batching} {entry : ApplyEntry}
    (h : Registers b.lease entry) (now : Nat) :
    applyCommand content none now b entry =
      let outcome := casSucceeds id entry (b.batch.stateMachine.get fun k => content[k]?)
      .ok { b with
        batch := { b.batch with
          stateMachine :=
            b.batch.stateMachine.putAll (entryWrites (fun _ v => v) entry outcome) }
        lease := b.lease.map (TtlLease.apply · now entry)
        results := b.results ++ [entryResult entry outcome] } := by
  obtain ⟨index, term, command⟩ := entry
  have hke : b.lease.map (fun l => l) = b.lease := Option.map_id'
  cases command with
  | noop =>
    simp only [applyCommand, entryWrites, entryResult, TtlLease.apply, hke]
    rfl
  | insert =>
    simp only [applyCommand, registerTtl_of_registers h, entryWrites, entryResult]
    rfl
  | delete => rfl
  | compareAndSwap =>
    simp only [applyCommand, casSucceeds, entryWrites, entryResult, TtlLease.apply, hke,
      casMatches_eq, Option.map_id_fun, id_eq, decide_eq_true_eq]
    split_ifs <;> rfl
  | batch =>
    simp only [applyCommand, foldl_applyOp b term, entryWrites, entryResult, TtlLease.apply]
    rfl

/-- The loop over a chunk runs it against the batch. -/
theorem batchChunk_eq {content : KeyMap Bytes Bytes} {b : Batching} {chunk : List ApplyEntry}
    (hasc : chunk.Pairwise fun a b => a.index < b.index)
    (hbe : ∀ prev ∈ b.highest, ∀ e ∈ chunk, prev.index < e.index)
    (hrg : ∀ e ∈ chunk, Registers b.lease e) {faults : DbFaults}
    (hre : ∀ e ∈ chunk, faults.casRead e.index = none) (registeredAt : Nat → Nat) :
    batchChunk content faults registeredAt b chunk =
      let run := deferred (casSucceeds id) (entryWrites fun _ v => v) (fun k => content[k]?)
        b.batch.stateMachine chunk
      .ok {
        batch := { b.batch with stateMachine := run.2 }
        highest := highestAfter b.highest chunk
        lease := leaseAfter registeredAt b.lease chunk
        results := b.results ++ List.zipWith entryResult chunk run.1 } := by
  induction chunk generalizing b with
  | nil => simp [batchChunk, deferred, leaseAfter, highestAfter]
  | cons entry rest ih =>
    obtain ⟨hen, hrs⟩ := List.pairwise_cons.mp hasc
    have hnx : nextHighest b.highest entry = .ok (some entry.logId) :=
      nextHighest_of_behind fun prev hpr => hbe prev hpr entry List.mem_cons_self
    rw [batchChunk, applyEntry, hnx, hre entry List.mem_cons_self]
    dsimp only
    rw [applyCommand_eq (b := { b with highest := some entry.logId })
      (hrg entry List.mem_cons_self)]
    dsimp only
    rw [ih hrs]
    · simp only [deferred, List.zipWith_cons_cons, List.append_assoc, List.singleton_append]
      rfl
    · rintro prev ⟨⟩ e he
      exact hen e he
    · intro e he
      refine (hrg e (List.mem_cons_of_mem entry he)).of_isSome ?_
      rw [Option.isSome_map]
      exact id
    · exact fun e he => hre e (List.mem_cons_of_mem entry he)

section Chunk

variable {sm : RocksDBStateMachine} {db : Db} {cf : ColumnFamily (KeyMap Bytes Bytes)}
  {metaCf : ColumnFamily MetaContent} {chunk : List ApplyEntry}

/-- The batch of a chunk that is run one entry after the other. -/
def chunkBatch (content : KeyMap Bytes Bytes) (chunk : List ApplyEntry) : WriteBatchWithIndex where
  stateMachine :=
    (deferred (casSucceeds id) (entryWrites fun _ v => v) (fun k => content[k]?) ∅ chunk).2
  lastApplied := highestAfter none chunk

theorem commit_chunkBatch (content : KeyMap Bytes Bytes) (chunk : List ApplyEntry) :
    (chunkBatch content chunk).stateMachine.commit content =
      (serialRun (fun _ v => v) id content chunk).2 := by
  apply Std.ExtTreeMap.ext_getElem?
  intro k
  rw [Overlay.getElem?_commit]
  refine deferred_get (fun entry f g h => casSucceeds_congr entry f g fun k _ => h k) ?_ chunk k
  intro j
  simp [Overlay.get]

/-- The batch and the results of a chunk with increasing indexes. -/
theorem batchChunk_start (content : KeyMap Bytes Bytes) {lease : Option TtlLease}
    (hasc : chunk.Pairwise fun a b => a.index < b.index)
    (hre : ∀ e ∈ chunk, Registers lease e) (registeredAt : Nat → Nat) :
    batchChunk content .none registeredAt ⟨⟨∅, none⟩, none, lease, []⟩ chunk =
      .ok {
        batch := ⟨(chunkBatch content chunk).stateMachine, none⟩
        highest := highestAfter none chunk
        lease := leaseAfter registeredAt lease chunk
        results := List.zipWith entryResult chunk
          (serialRun (fun _ v => v) id content chunk).1 } := by
  have hou :
      (deferred (casSucceeds id) (entryWrites fun _ v => v) (fun k => content[k]?) ∅ chunk).1 =
        (serialRun (fun _ v => v) id content chunk).1 :=
    deferred_outcomes casKeys casSucceeds_congr fun _ _ k _ => by simp [Overlay.get]
  rw [batchChunk_eq hasc (by simp) hre fun _ _ => rfl, ← hou]
  rfl

/-- What a chunk with increasing indexes does to an open database. -/
theorem applyChunk_eq (hdb : sm.db = some db) (hcf : db.stateMachineCf = some cf)
    (hme : db.stateMachineMetaCf = some metaCf)
    (hasc : chunk.Pairwise fun a b => a.index < b.index)
    (hre : ∀ e ∈ chunk, Registers sm.lease e) (registeredAt : Nat → Nat) :
    sm.applyChunk .none registeredAt chunk =
      let written := { sm with
        db := some (db.writeWbwi (chunkBatch cf.content chunk))
        lease := leaseAfter registeredAt sm.lease chunk }
      .ok (List.zipWith entryResult chunk (serialRun (fun _ v => v) id cf.content chunk).1,
        (highestAfter none chunk).elim written written.updateLastApplied) := by
  unfold applyChunk
  simp only [hdb, hcf, hme]
  rw [batchChunk_start cf.content hasc hre]
  rfl

end Chunk

/-! ## The interpreter behind the machine -/

/-- The values as a reader sees them. -/
def values : KeyMap Bytes Bytes :=
  match sm.db.bind Db.stateMachineCf with
  | some cf => cf.content
  | none => ∅

/-- The interpreter that the machine stands for. -/
def interpreter : Interpreter := ⟨sm.values, sm.lastApplied⟩

/-- The database is open and has both column families. -/
structure IsOpen : Prop where
  stateMachineCf : (sm.db.bind Db.stateMachineCf).isSome
  stateMachineMetaCf : (sm.db.bind Db.stateMachineMetaCf).isSome

/-- Apply chunks one after the other. -/
def applyChunks (sm : RocksDBStateMachine) : List ((Nat → Nat) × List ApplyEntry) →
    Except Fault (List ApplyResult × RocksDBStateMachine)
  | [] => .ok ([], sm)
  | (registeredAt, chunk) :: rest =>
    match sm.applyChunk .none registeredAt chunk with
    | .error fault => .error fault
    | .ok (results, next) =>
      match applyChunks next rest with
      | .error fault => .error fault
      | .ok (laterResults, last) => .ok (results ++ laterResults, last)

section Refinement

variable {sm : RocksDBStateMachine} {chunk : List ApplyEntry}

theorem IsOpen.exists_db (h : sm.IsOpen) : ∃ db cf metaCf,
    sm.db = some db ∧ db.stateMachineCf = some cf ∧ db.stateMachineMetaCf = some metaCf := by
  obtain ⟨hcf, hme⟩ := h
  cases hdb : sm.db with
  | none => simp [hdb] at hcf
  | some db =>
    simp only [hdb, Option.bind_some] at hcf hme
    obtain ⟨cf, hcf⟩ := Option.isSome_iff_exists.mp hcf
    obtain ⟨metaCf, hme⟩ := Option.isSome_iff_exists.mp hme
    exact ⟨db, cf, metaCf, rfl, hcf, hme⟩

variable (highest : Option LogId)

theorem db_moved : (highest.elim sm sm.updateLastApplied).db = sm.db := by
  cases highest <;> rfl

theorem lease_moved : (highest.elim sm sm.updateLastApplied).lease = sm.lease := by
  cases highest <;> rfl

theorem lastApplied_moved :
    (highest.elim sm sm.updateLastApplied).lastApplied = highest.getD sm.lastApplied := by
  cases highest <;> rfl

/-- A chunk is executed as by the interpreter. -/
theorem applyChunk_refines (hop : sm.IsOpen) (hasc : chunk.Pairwise fun a b => a.index < b.index)
    (hre : ∀ e ∈ chunk, Registers sm.lease e) (registeredAt : Nat → Nat) :
    ∃ sm', sm.applyChunk .none registeredAt chunk = .ok ((sm.interpreter.run chunk).1, sm') ∧
      sm'.interpreter = (sm.interpreter.run chunk).2 ∧ sm'.IsOpen ∧
      sm'.lease = leaseAfter registeredAt sm.lease chunk := by
  obtain ⟨db, cf, metaCf, hdb, hcf, hme⟩ := hop.exists_db
  have hva : sm.values = cf.content := by
    simp only [values, hdb, Option.bind_some, hcf]
  have hch := applyChunk_eq hdb hcf hme hasc hre registeredAt
  rw [Interpreter.run_eq, interpreter, hva]
  refine ⟨_, hch, ?_, ?_, ?_⟩
  · rw [interpreter, lastApplied_moved, values, db_moved]
    simp only [Option.bind_some, Db.writeWbwi, hcf, Option.map_some, commit_chunkBatch]
    exact congrArg (Interpreter.mk _) (highestAfter_getD none sm.lastApplied chunk)
  · constructor
    · simp [db_moved, Db.writeWbwi, hcf]
    · simp [db_moved, Db.writeWbwi, hme]
  · exact lease_moved _

/-- Chunks are executed as by the interpreter, whichever way the entries are divided. -/
theorem applyChunks_refines (hop : sm.IsOpen) {chunks : List ((Nat → Nat) × List ApplyEntry)}
    (hasc : (chunks.flatMap Prod.snd).Pairwise fun a b => a.index < b.index)
    (hre : ∀ e ∈ chunks.flatMap Prod.snd, Registers sm.lease e) :
    ∃ sm',
      sm.applyChunks chunks = .ok ((sm.interpreter.run (chunks.flatMap Prod.snd)).1, sm') ∧
      sm'.interpreter = (sm.interpreter.run (chunks.flatMap Prod.snd)).2 ∧
      sm'.lease = chunks.foldl (fun lease p => leaseAfter p.1 lease p.2) sm.lease := by
  induction chunks generalizing sm with
  | nil => exact ⟨sm, rfl, rfl, rfl⟩
  | cons head rest ih =>
    obtain ⟨registeredAt, chunk⟩ := head
    rw [List.flatMap_cons] at hasc hre ⊢
    obtain ⟨hfi, hrs, _⟩ := List.pairwise_append.mp hasc
    obtain ⟨next, hch, hnx, hst, hls⟩ := applyChunk_refines hop hfi
      (fun e he => hre e (List.mem_append_left _ he)) registeredAt
    have hlr : ∀ e ∈ rest.flatMap Prod.snd, Registers next.lease e := fun e he =>
      (hre e (List.mem_append_right _ he)).of_isSome
        (by rw [hls, isSome_leaseAfter]; exact id)
    obtain ⟨last, hcn, hla, hll⟩ := ih hst hrs hlr
    refine ⟨last, ?_, ?_, by rw [hll, hls]; rfl⟩
    · rw [applyChunks, hch, Interpreter.run_append, ← hnx]
      dsimp only
      rw [hcn]
    · rw [hla, hnx, Interpreter.run_append]

end Refinement

end RocksDBStateMachine

end DEngine.Adaptors

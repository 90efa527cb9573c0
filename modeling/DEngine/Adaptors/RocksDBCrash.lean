import DEngine.Adaptors.RocksDBStateMachine
import DEngine.Library.Transition

/-!
# Crashes of the state machine in RocksDB

Chunks are applied, and the two column families are flushed: by `flush`, which leaves
the order to the database, by `generate_snapshot_data`, the values first, and by the
database on its own. Each flush covers one column family. A crash keeps what was
flushed, and the database is opened again.

## Implementation notes

The entries are committed; a chunk holds the next ones behind the last applied index.
A database that is opened gets an empty lease.
-/

namespace DEngine.Adaptors

open Apply Library Library.Framing RocksDBStateMachine

/-! ## The machine and its calls -/

inductive CfName where
  | stateMachine
  | stateMachineMeta
deriving DecidableEq, Repr

def Db.flushCf (db : Db) : CfName → Db
  | .stateMachine => db.flushStateMachineCf
  | .stateMachineMeta => db.flushStateMachineMetaCf

/-- A machine, and its running calls with the column families they still have to flush. -/
structure RocksHost where
  machine : RocksDBStateMachine
  calls : List (List CfName)

inductive RocksLabel where
  /-- Apply the given number of entries behind the last applied index. -/
  | applyChunk (registeredAt : Nat → Nat) (count : Nat)
  /-- `flush` begins. The database chooses the order of the column families. -/
  | flush (metaFirst : Bool)
  | generateSnapshotData
  /-- A running call flushes its next column family. -/
  | advance (call : Nat)
  /-- The database flushes a column family on its own. -/
  | background (cf : CfName)
  /-- A crash, and the next start. -/
  | crash

namespace RocksHost

variable (log : EntryLog)

/-- The database of the machine is changed. -/
def onDb (s : RocksHost) (f : Db → Db) : Option RocksHost :=
  s.machine.db.map fun db => { s with machine := { s.machine with db := some (f db) } }

def reopen (s : RocksHost) : Option RocksHost :=
  match s.machine.db with
  | none => none
  | some db =>
    match RocksDBStateMachine.new db.crash with
    | .error _ => none
    | .ok machine => some ⟨{ machine with lease := some .empty }, []⟩

def step (s : RocksHost) : RocksLabel → Option RocksHost
  | .applyChunk registeredAt count =>
    match s.machine.applyChunk .none registeredAt
        ((log.behind s.machine.lastAppliedIndex).take count) with
    | .error _ => none
    | .ok (_, machine) => some { s with machine }
  | .flush metaFirst =>
    some { s with
      calls := s.calls ++ [if metaFirst then [.stateMachineMeta, .stateMachine]
        else [.stateMachine, .stateMachineMeta]] }
  | .generateSnapshotData =>
    some { s with calls := s.calls ++ [[.stateMachine, .stateMachineMeta]] }
  | .advance call =>
    match s.calls[call]? with
    | some (cf :: rest) => { s with calls := s.calls.set call rest }.onDb (Db.flushCf · cf)
    | _ => none
  | .background cf => s.onDb (Db.flushCf · cf)
  | .crash => s.reopen

/-- A database that holds the values in front of the entries. -/
def start (metadata : MetaContent) : RocksHost where
  machine :=
    { db := some ⟨some ⟨log.base, log.base, 0⟩, some ⟨metadata, metadata, 0⟩, 0⟩
      isServing := true
      lastAppliedIndex := log.start.index
      lastAppliedTerm := log.start.term
      lease := some .empty }
  calls := []

end RocksHost

/-- The identity that metadata are read as. -/
def MetaContent.loadId (m : MetaContent) : LogId :=
  ⟨RocksDBStateMachine.loadNumber m.lastAppliedTerm,
    RocksDBStateMachine.loadNumber m.lastAppliedIndex⟩

/-- The runs of the state machine in RocksDB over a sequence of committed entries. -/
def rocksRuns (log : EntryLog) : Machine RocksHost RocksLabel where
  init s := ∃ metadata : MetaContent, metadata.loadId = log.start ∧ s = .start log metadata
  step := RocksHost.step log

/-- The values are those behind the entries up to the last applied index. -/
def Consistent (log : EntryLog) (s : RocksHost) : Prop :=
  s.machine.values = log.stateAt s.machine.lastAppliedIndex
deriving Decidable

/-- The number of the last batch that the flushes of a column family cover. -/
def RocksDBStateMachine.flushedSeqno (sm : RocksDBStateMachine) : CfName → Option Nat
  | .stateMachine => (sm.db.bind Db.stateMachineCf).map ColumnFamily.flushedSeqno
  | .stateMachineMeta => (sm.db.bind Db.stateMachineMetaCf).map ColumnFamily.flushedSeqno

/-- A crash finds both column families flushed up to the same batch. -/
def CoversAlike (s : RocksHost) : RocksLabel → Prop
  | .crash =>
    s.machine.flushedSeqno .stateMachine = s.machine.flushedSeqno .stateMachineMeta
  | _ => True

instance (s : RocksHost) (l : RocksLabel) : Decidable (CoversAlike s l) := by
  cases l <;> dsimp only [CoversAlike] <;> infer_instance

/-! ## What holds of the database -/

/-- The database of a machine: its values and metadata belong together, and so do those that
were flushed up to the same batch. -/
structure DbOk (log : EntryLog) (lastApplied : LogId) (db : Db)
    (cf : ColumnFamily (KeyMap Bytes Bytes)) (metaCf : ColumnFamily MetaContent) : Prop where
  stateMachineCf : db.stateMachineCf = some cf
  stateMachineMetaCf : db.stateMachineMetaCf = some metaCf
  content : cf.content = log.stateAt lastApplied.index
  metadata : metaCf.content.loadId = lastApplied
  seqno_le : cf.flushedSeqno ≤ db.seqno
  metaSeqno_le : metaCf.flushedSeqno ≤ db.seqno
  clean : cf.flushedSeqno = db.seqno → cf.flushed = cf.content
  metaClean : metaCf.flushedSeqno = db.seqno → metaCf.flushed = metaCf.content
  alike : cf.flushedSeqno = metaCf.flushedSeqno →
    cf.flushed = log.stateAt metaCf.flushed.loadId.index

/-- The machine is open over such a database. -/
def MachineOpen (log : EntryLog) (sm : RocksDBStateMachine) : Prop :=
  sm.lease.isSome ∧ ∃ db cf metaCf, sm.db = some db ∧ DbOk log sm.lastApplied db cf metaCf

section Database

variable {log : EntryLog} {lastApplied : LogId} {db : Db}
  {cf : ColumnFamily (KeyMap Bytes Bytes)} {metaCf : ColumnFamily MetaContent}

theorem loadNumber_toBigEndian {n : Nat} (h : n < 256 ^ 8) :
    loadNumber (some (toBigEndian 8 n)) = n := by
  simp only [loadNumber, length_toBigEndian, if_true]
  exact ofBigEndian_toBigEndian h

variable {chunk : List ApplyEntry}

/-- The highest identity of a chunk is that of one of its entries. -/
theorem exists_of_highestAfter {highest : Option LogId} {id : LogId}
    (h : highestAfter highest chunk = some id) : highest = some id ∨ ∃ e ∈ chunk, e.logId = id := by
  induction chunk generalizing highest with
  | nil => exact .inl h
  | cons entry rest ih =>
    rcases ih h with hfi | ⟨e, he, hid⟩
    · exact .inr ⟨entry, List.mem_cons_self, Option.some.inj hfi⟩
    · exact .inr ⟨e, List.mem_cons_of_mem entry he, hid⟩

/-- The metadata behind a chunk. -/
theorem loadId_highestAfter {metadata : MetaContent} (h : metadata.loadId = lastApplied)
    (hfi : ∀ e ∈ chunk, e.index < 256 ^ 8 ∧ e.term < 256 ^ 8) :
    ((highestAfter none chunk).elim metadata fun id =>
      ⟨some (toBigEndian 8 id.index), some (toBigEndian 8 id.term)⟩).loadId =
        lastLogId lastApplied chunk := by
  have hla : lastLogId lastApplied chunk = (highestAfter none chunk).getD lastApplied :=
    (highestAfter_getD none lastApplied chunk).symm
  rw [hla]
  cases hhi : highestAfter none chunk with
  | none => exact h
  | some id =>
    obtain ⟨e, he, rfl⟩ : ∃ e ∈ chunk, e.logId = id :=
      (exists_of_highestAfter hhi).resolve_left (by simp)
    obtain ⟨hidx, hte⟩ := hfi e he
    exact congrArg₂ LogId.mk (loadNumber_toBigEndian hte) (loadNumber_toBigEndian hidx)

/-- The batch of the next entries moves the values and the metadata together. -/
theorem DbOk.writeWbwi (h : DbOk log lastApplied db cf metaCf) {rest : List ApplyEntry}
    (hnx : log.behind lastApplied.index = chunk ++ rest) :
    ∃ cf' metaCf', DbOk log (lastLogId lastApplied chunk)
        (db.writeWbwi (chunkBatch cf.content chunk)) cf' metaCf' ∧
      cf'.flushed = cf.flushed ∧ metaCf'.flushed = metaCf.flushed := by
  have hfi : ∀ e ∈ chunk, e.index < 256 ^ 8 ∧ e.term < 256 ^ 8 := fun e he =>
    log.fits e (EntryLog.mem_of_behind hnx he)
  let batch := chunkBatch cf.content chunk
  refine ⟨{ cf with content := batch.stateMachine.commit cf.content },
    { metaCf with
      content := batch.lastApplied.elim metaCf.content fun id =>
        ⟨some (toBigEndian 8 id.index), some (toBigEndian 8 id.term)⟩ }, ?_, rfl, rfl⟩
  exact {
    stateMachineCf := by rw [Db.writeWbwi, h.stateMachineCf]; rfl
    stateMachineMetaCf := by rw [Db.writeWbwi, h.stateMachineMetaCf]; rfl
    content := by
      rw [lastLogId_index, EntryLog.stateAt_indexAfter hnx, ← h.content]
      exact commit_chunkBatch cf.content chunk
    metadata := loadId_highestAfter h.metadata hfi
    seqno_le := h.seqno_le.trans (Nat.le_succ _)
    metaSeqno_le := h.metaSeqno_le.trans (Nat.le_succ _)
    clean := fun heq => absurd heq (Nat.ne_of_lt (Nat.lt_succ_of_le h.seqno_le))
    metaClean := fun heq => absurd heq (Nat.ne_of_lt (Nat.lt_succ_of_le h.metaSeqno_le))
    alike := h.alike }

/-- A flush keeps the content; it covers what the other column family covers if nothing was
written since that one was flushed. -/
theorem DbOk.flushCf (h : DbOk log lastApplied db cf metaCf) (name : CfName) :
    ∃ cf' metaCf', DbOk log lastApplied (db.flushCf name) cf' metaCf' ∧
      (cf'.flushed = if name = .stateMachine then cf.content else cf.flushed) ∧
      (metaCf'.flushed = if name = .stateMachineMeta then metaCf.content else metaCf.flushed) := by
  obtain ⟨hcf, hmt, hco, hme, hle, hml, hcl, hmc, hal⟩ := h
  cases name with
  | stateMachine =>
    refine ⟨cf.flush db.seqno, metaCf, ⟨?_, hmt, hco, hme, le_rfl, hml,
      fun _ => rfl, hmc, fun heq => ?_⟩, rfl, rfl⟩
    · change db.stateMachineCf.map _ = _
      rw [hcf]
      rfl
    · have heq : db.seqno = metaCf.flushedSeqno := heq
      rw [hmc heq.symm, hme]
      exact hco
  | stateMachineMeta =>
    refine ⟨cf, metaCf.flush db.seqno, ⟨hcf, ?_, hco, hme, hle, le_rfl, hcl,
      fun _ => rfl, fun heq => ?_⟩, rfl, rfl⟩
    · change db.stateMachineMetaCf.map _ = _
      rw [hmt]
      rfl
    · have heq : cf.flushedSeqno = db.seqno := heq
      rw [hcl heq, hco]
      exact congrArg (fun id => log.stateAt id.index) hme.symm

/-- What a crash leaves belongs together if the flushes cover the same batches. -/
theorem DbOk.crash (h : DbOk log lastApplied db cf metaCf)
    (hcov : cf.flushedSeqno = metaCf.flushedSeqno) :
    DbOk log metaCf.flushed.loadId db.crash cf.crash metaCf.crash where
  stateMachineCf := by rw [Db.crash, h.stateMachineCf]; rfl
  stateMachineMetaCf := by rw [Db.crash, h.stateMachineMetaCf]; rfl
  content := h.alike hcov
  metadata := rfl
  seqno_le := h.seqno_le
  metaSeqno_le := h.metaSeqno_le
  clean := fun _ => rfl
  metaClean := fun _ => rfl
  alike := h.alike

end Database

/-! ## Runs -/

section Runs

variable {log : EntryLog} {s t : RocksHost}

theorem machineOpen_start {metadata : MetaContent} (h : metadata.loadId = log.start) :
    MachineOpen log (RocksHost.start log metadata).machine := by
  refine ⟨rfl, _, ⟨log.base, log.base, 0⟩, ⟨metadata, metadata, 0⟩, rfl, rfl, rfl, ?_, h, le_rfl,
    le_rfl, fun _ => rfl, fun _ => rfl, fun _ => ?_⟩
  · exact EntryLog.stateAt_start.symm
  · rw [h]
    exact EntryLog.stateAt_start.symm

/-- The next entries are written as one batch, and the last applied identity follows them. -/
theorem applyChunk_next {sm sm' : RocksDBStateMachine} {db : Db}
    {cf : ColumnFamily (KeyMap Bytes Bytes)} {metaCf : ColumnFamily MetaContent}
    (hdb : sm.db = some db) (hcf : db.stateMachineCf = some cf)
    (hme : db.stateMachineMetaCf = some metaCf) (hls : sm.lease.isSome)
    {registeredAt : Nat → Nat} {count : Nat} {results : List ApplyResult}
    (heq : sm.applyChunk .none registeredAt ((log.behind sm.lastAppliedIndex).take count) =
      .ok (results, sm')) :
    ∃ chunk rest, log.behind sm.lastAppliedIndex = chunk ++ rest ∧
      sm'.db = some (db.writeWbwi (chunkBatch cf.content chunk)) ∧
      sm'.lastApplied = lastLogId sm.lastApplied chunk ∧
      sm'.lease = leaseAfter registeredAt sm.lease chunk := by
  rw [applyChunk_eq hdb hcf hme (EntryLog.ascending_take _ count)
    (fun e _ => registers_of_lease hls e) registeredAt] at heq
  cases heq
  refine ⟨_, _, (List.take_append_drop count (log.behind sm.lastAppliedIndex)).symm,
    db_moved _, ?_, lease_moved _⟩
  rw [lastApplied_moved]
  exact highestAfter_getD none sm.lastApplied _

theorem MachineOpen.applyChunk {sm sm' : RocksDBStateMachine} (h : MachineOpen log sm)
    {registeredAt : Nat → Nat} {count : Nat} {results : List ApplyResult}
    (heq : sm.applyChunk .none registeredAt ((log.behind sm.lastAppliedIndex).take count) =
      .ok (results, sm')) : MachineOpen log sm' := by
  obtain ⟨hls, db, cf, metaCf, hdb, hok⟩ := h
  obtain ⟨chunk, rest, hnx, hdb', hla, hle'⟩ :=
    applyChunk_next hdb hok.stateMachineCf hok.stateMachineMetaCf hls heq
  obtain ⟨cf', metaCf', hok', -⟩ := hok.writeWbwi hnx
  refine ⟨?_, _, cf', metaCf', hdb', hla ▸ hok'⟩
  rw [hle', isSome_leaseAfter]
  exact hls

theorem MachineOpen.onDb (h : MachineOpen log s.machine) {name : CfName}
    (hst : s.onDb (Db.flushCf · name) = some t) : MachineOpen log t.machine := by
  obtain ⟨hls, db, cf, metaCf, hdb, hok⟩ := h
  rw [RocksHost.onDb, hdb] at hst
  cases hst
  obtain ⟨cf', metaCf', hok', -⟩ := hok.flushCf name
  exact ⟨hls, db.flushCf name, cf', metaCf', rfl, hok'⟩

theorem MachineOpen.reopen (h : MachineOpen log s.machine) (hcov : CoversAlike s .crash)
    (hst : s.reopen = some t) : MachineOpen log t.machine := by
  obtain ⟨hls, db, cf, metaCf, hdb, hok⟩ := h
  have hse : cf.flushedSeqno = metaCf.flushedSeqno := by
    simpa [CoversAlike, flushedSeqno, hdb, hok.stateMachineCf,
      hok.stateMachineMetaCf] using hcov
  have hcr := hok.crash hse
  have hlo : loadStateMachineMetadata db.crash =
      .ok metaCf.flushed.loadId := by
    rw [loadStateMachineMetadata, hcr.stateMachineMetaCf]
    rfl
  simp only [RocksHost.reopen, hdb, new, hlo] at hst
  cases hst
  exact ⟨rfl, db.crash, cf.crash, metaCf.crash, rfl, hcr⟩

theorem machineOpen_of_step (h : MachineOpen log s.machine) {l : RocksLabel}
    (hcov : CoversAlike s l) (hst : s.step log l = some t) : MachineOpen log t.machine := by
  cases l with
  | applyChunk =>
    simp only [RocksHost.step] at hst
    split at hst
    · cases hst
    · next results machine heq =>
        cases hst
        exact h.applyChunk heq
  | flush metaFirst | generateSnapshotData =>
    cases hst
    exact h
  | advance call =>
    simp only [RocksHost.step] at hst
    split at hst
    · next cf rest _ =>
        refine MachineOpen.onDb (s := { s with calls := s.calls.set call rest }) ?_ hst
        exact h
    · cases hst
  | background => exact h.onDb hst
  | crash => exact h.reopen hcov hst

theorem machineOpen_of_reach (h : (rocksRuns log).Reach CoversAlike s) :
    MachineOpen log s.machine := by
  refine h.invariant (I := fun s => MachineOpen log s.machine) ?_ ?_
  · rintro s ⟨metadata, hme, rfl⟩
    exact machineOpen_start hme
  · exact fun s l t hs hco hst => machineOpen_of_step hs hco hst

theorem MachineOpen.values_eq {sm : RocksDBStateMachine} (h : MachineOpen log sm) :
    sm.values = log.stateAt sm.lastAppliedIndex := by
  obtain ⟨_, db, cf, metaCf, hdb, hok⟩ := h
  simp only [RocksDBStateMachine.values, hdb, Option.bind_some, hok.stateMachineCf]
  exact hok.content

/-- As long as every crash finds that the last flushes of the two column families cover the same
batches, the values are those behind the entries up to the last applied index. -/
theorem consistent_of_reach (h : (rocksRuns log).Reach CoversAlike s) : Consistent log s :=
  (machineOpen_of_reach h).values_eq

end Runs

/-- One value is inserted into an empty store. -/
def firstInsert : EntryLog where
  base := ∅
  start := ⟨0, 0⟩
  entries := [⟨1, 1, .insert [1] [7] none⟩, ⟨2, 1, .delete [1]⟩]
  ascending := by decide
  behindStart := by decide
  fits := by decide

theorem firstInsert_init : (rocksRuns firstInsert).init (.start firstInsert ⟨none, none⟩) :=
  ⟨⟨none, none⟩, rfl, rfl⟩

/-- The values are flushed and the metadata are not; the metadata are flushed and the values are
not. -/
theorem crash_between_flushes :
    (∃ s, (rocksRuns firstInsert).Reach (fun _ l => l matches
        .applyChunk _ _ | .generateSnapshotData | .advance _ | .crash) s ∧
      ¬Consistent firstInsert s) ∧
    (∃ s, (rocksRuns firstInsert).Reach (fun _ l => l matches
        .applyChunk _ _ | .flush _ | .advance _ | .crash) s ∧
      ¬Consistent firstInsert s) := by
  refine ⟨?_, ?_⟩
  · exact Machine.exists_reach_of_runIf
      [.applyChunk id 1, .generateSnapshotData, .advance 0, .crash] firstInsert_init
      (by decide +kernel)
  · exact Machine.exists_reach_of_runIf
      [.applyChunk id 1, .flush true, .advance 0, .crash] firstInsert_init (by decide +kernel)

/-- A chunk behind the flush is lost as a whole. -/
theorem crash_behind_flush :
    ∃ s, Consistent firstInsert s ∧ s.machine.lastAppliedIndex = 1 ∧
      s.machine.values.toList = [([1], [7])] := by
  have hrun : ∃ s, (rocksRuns firstInsert).Reach CoversAlike s ∧
      s.machine.lastAppliedIndex = 1 ∧ s.machine.values.toList = [([1], [7])] :=
    Machine.exists_reach_of_runIf
      [.applyChunk id 1, .generateSnapshotData, .advance 0, .advance 0, .applyChunk id 1, .crash]
      firstInsert_init (by decide +kernel)
  obtain ⟨s, hre, hfa⟩ := hrun
  exact ⟨s, consistent_of_reach hre, hfa⟩

end DEngine.Adaptors

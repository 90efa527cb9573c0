import DEngine.Adaptors.FileCapture
import DEngine.Adaptors.RocksDBCrash

/-!
# Snapshots of the state machine in RocksDB

As for the file state machine, a capture reads the last applied identity first. Its
export flushes both column families and then exports the files of each. The worker
writes the batch of a chunk meanwhile, and moves the last applied identity behind it.

## Implementation notes

An export holds what the flushes of the column family cover at that moment. Values
are read for a batch when it is built: nothing else writes them.
-/

namespace DEngine.Adaptors

open Apply Library Library.Framing

/-- The exported column families. -/
structure RocksImage where
  stateMachine : KeyMap Bytes Bytes
  stateMachineMeta : MetaContent

/-- The next step of `generate_snapshot_data`. -/
inductive ExportPhase where
  | flushStateMachineCf
  | flushStateMachineMetaCf
  | exportStateMachineCf
  | exportStateMachineMetaCf (stateMachine : KeyMap Bytes Bytes)
  | returned (image : RocksImage)

/-- A running or finished `capture_local_snapshot`. -/
structure RocksSnapshot where
  lastIncluded : LogId
  phase : ExportPhase

/-- A call of `apply_chunk` between its steps. -/
inductive RocksApplying where
  | batched (batch : RocksDBStateMachine.Batching)
  | written (highest : Option LogId)
  | failed

structure RocksWorker where
  machine : RocksDBStateMachine
  applying : Option RocksApplying
  captures : List RocksSnapshot

inductive RocksWorkerLabel where
  /-- `apply_chunk` begins and puts the next entries into a batch. -/
  | batch (faults : DbFaults) (registeredAt : Nat → Nat) (count : Nat)
  | write (fault : Option String)
  | finish
  /-- `capture_local_snapshot` begins and reads the last applied identity. -/
  | capture
  /-- `generate_snapshot_data` takes its next step. -/
  | advance (task : Nat)
  /-- The database flushes a column family on its own. -/
  | background (cf : CfName)

namespace RocksWorker

variable (log : EntryLog)

/-- The chunk fails if the loop over it does; the leases of a failed chunk are not used again. -/
def batch (s : RocksWorker) (faults : DbFaults) (registeredAt : Nat → Nat)
    (chunk : List ApplyEntry) : RocksWorker :=
  match s.machine.db.bind Db.stateMachineCf with
  | none => { s with applying := some .failed }
  | some cf =>
    match RocksDBStateMachine.batchChunk cf.content faults registeredAt
        ⟨⟨∅, none⟩, none, s.machine.lease, []⟩ chunk with
    | .error _ => { s with applying := some .failed }
    | .ok b => { s with machine := { s.machine with lease := b.lease }, applying := some (.batched b) }

/-- One step of an export. -/
def advance (db : Db) : ExportPhase → Option (Db × ExportPhase)
  | .flushStateMachineCf => some (db.flushStateMachineCf, .flushStateMachineMetaCf)
  | .flushStateMachineMetaCf => some (db.flushStateMachineMetaCf, .exportStateMachineCf)
  | .exportStateMachineCf =>
    db.stateMachineCf.map fun cf => (db, .exportStateMachineMetaCf cf.flushed)
  | .exportStateMachineMetaCf stateMachine =>
    db.stateMachineMetaCf.map fun cf => (db, .returned ⟨stateMachine, cf.flushed⟩)
  | .returned _ => none

def step (s : RocksWorker) : RocksWorkerLabel → Option RocksWorker
  | .batch faults registeredAt count =>
    match s.applying with
    | some _ => none
    | none =>
      some (s.batch faults registeredAt ((log.behind s.machine.lastAppliedIndex).take count))
  | .write fault =>
    match s.applying, s.machine.db with
    | some (.batched b), some db =>
      match fault with
      | some _ => some { s with applying := some .failed }
      | none =>
        some { s with
          machine := { s.machine with
            db := some (db.writeWbwi { b.batch with lastApplied := b.highest }) }
          applying := some (.written b.highest) }
    | _, _ => none
  | .finish =>
    match s.applying with
    | some (.written highest) =>
      some { s with
        machine := highest.elim s.machine s.machine.updateLastApplied
        applying := none }
    | _ => none
  | .capture =>
    some { s with captures := s.captures ++ [⟨s.machine.lastApplied, .flushStateMachineCf⟩] }
  | .advance task =>
    match s.captures[task]?, s.machine.db with
    | some snapshot, some db =>
      (advance db snapshot.phase).map fun (db, phase) =>
        { s with
          machine := { s.machine with db := some db }
          captures := s.captures.set task { snapshot with phase } }
    | _, _ => none
  | .background cf =>
    s.machine.db.map fun db =>
      { s with machine := { s.machine with db := some (db.flushCf cf) } }

def start (metadata : MetaContent) : RocksWorker where
  machine := (RocksHost.start log metadata).machine
  applying := none
  captures := []

end RocksWorker

/-- The runs of the worker and of the captures of a state machine in RocksDB. -/
def rocksCaptures (log : EntryLog) : Machine RocksWorker RocksWorkerLabel where
  init s := ∃ metadata : MetaContent, metadata.loadId = log.start ∧ s = .start log metadata
  step := RocksWorker.step log

/-- A returned image holds the values behind the entries up to the boundary. -/
def RocksSnapshot.Exact (log : EntryLog) (snapshot : RocksSnapshot) : Prop :=
  match snapshot.phase with
  | .returned image => image.stateMachine = log.stateAt snapshot.lastIncluded.index
  | _ => True

instance (log : EntryLog) (snapshot : RocksSnapshot) : Decidable (snapshot.Exact log) := by
  unfold RocksSnapshot.Exact
  split <;> infer_instance

/-- The values of the export are not taken yet. -/
def ExportPhase.copies : ExportPhase → Bool
  | .flushStateMachineCf | .flushStateMachineMetaCf | .exportStateMachineCf => true
  | .exportStateMachineMetaCf _ | .returned _ => false

/-- A batch is written while no capture is between its boundary and its export of the values,
and a capture does not begin between the batch of a chunk and its last applied identity. -/
def RocksUndisturbed (s : RocksWorker) : RocksWorkerLabel → Prop
  | .write _ => ∀ snapshot ∈ s.captures, ¬snapshot.phase.copies
  | .capture => ¬(s.applying matches some (.written _))
  | _ => True

instance (s : RocksWorker) (l : RocksWorkerLabel) : Decidable (RocksUndisturbed s l) := by
  cases l <;> dsimp only [RocksUndisturbed] <;> infer_instance

/-! ## Steps -/

section Steps

variable {log : EntryLog} {s t : RocksWorker}

/-- Where the values stand, given the call that is under way. -/
def RocksValuesAt (log : EntryLog) (sm : RocksDBStateMachine) (content : KeyMap Bytes Bytes) :
    Option RocksApplying → Prop
  | none | some .failed => content = log.stateAt sm.lastAppliedIndex
  | some (.batched b) =>
    content = log.stateAt sm.lastAppliedIndex ∧
      b.batch.stateMachine.commit content =
        log.stateAt (b.highest.getD sm.lastApplied).index
  | some (.written highest) => content = log.stateAt (highest.getD sm.lastApplied).index

/-- A capture holds the values of its boundary, or will export them. -/
def RocksSnapshotOk (log : EntryLog) (cf : ColumnFamily (KeyMap Bytes Bytes))
    (snapshot : RocksSnapshot) : Prop :=
  match snapshot.phase with
  | .flushStateMachineCf => cf.content = log.stateAt snapshot.lastIncluded.index
  | .flushStateMachineMetaCf | .exportStateMachineCf =>
    cf.content = log.stateAt snapshot.lastIncluded.index ∧
      cf.flushed = log.stateAt snapshot.lastIncluded.index
  | .exportStateMachineMetaCf stateMachine =>
    stateMachine = log.stateAt snapshot.lastIncluded.index
  | .returned image => image.stateMachine = log.stateAt snapshot.lastIncluded.index

/-- The worker has an open database with a column family of the given content. -/
structure RocksWorkerOk (log : EntryLog) (s : RocksWorker) (db : Db)
    (cf : ColumnFamily (KeyMap Bytes Bytes)) : Prop where
  lease : s.machine.lease.isSome
  opened : s.machine.db = some db
  stateMachineCf : db.stateMachineCf = some cf
  values : RocksValuesAt log s.machine cf.content s.applying
  captures : ∀ snapshot ∈ s.captures, RocksSnapshotOk log cf snapshot

theorem rocksWorkerOk_start (metadata : MetaContent) :
    ∃ db cf, RocksWorkerOk log (.start log metadata) db cf :=
  ⟨_, ⟨log.base, log.base, 0⟩, rfl, rfl, rfl, EntryLog.stateAt_start.symm,
    nofun⟩

/-- A chunk that becomes a batch in spite of faults becomes the same batch without them. -/
theorem RocksDBStateMachine.batchChunk_of_ok {content : KeyMap Bytes Bytes} {faults : DbFaults}
    {registeredAt : Nat → Nat} {b b' : Batching} {chunk : List ApplyEntry}
    (h : batchChunk content faults registeredAt b chunk = .ok b') :
    batchChunk content .none registeredAt b chunk = .ok b' := by
  induction chunk generalizing b with
  | nil => exact h
  | cons entry rest ih =>
    have hen : ∀ casRead next,
        applyEntry content casRead (registeredAt entry.index) b entry = .ok next →
        applyEntry content none (registeredAt entry.index) b entry = .ok next := by
      intro casRead next hnx
      cases casRead with
      | none => exact hnx
      | some =>
        unfold applyEntry at hnx ⊢
        cases hhi : nextHighest b.highest entry with
        | error => simp only [hhi] at hnx; cases hnx
        | ok =>
          simp only [hhi] at hnx ⊢
          obtain ⟨index, term, command⟩ := entry
          cases command with
          | compareAndSwap => cases hnx
          | _ => exact hnx
    unfold batchChunk at h ⊢
    cases hap : applyEntry content (faults.casRead entry.index) (registeredAt entry.index) b
        entry with
    | error fault => simp only [hap] at h; cases h
    | ok next =>
      simp only [hap] at h
      simp only [DbFaults.none, hen _ _ hap]
      exact ih h

variable {db : Db} {cf : ColumnFamily (KeyMap Bytes Bytes)}

theorem RocksWorkerOk.batch
    (h : RocksWorkerOk log s db cf) (hid : s.applying = none) (faults : DbFaults)
    (registeredAt : Nat → Nat) (count : Nat) :
    RocksWorkerOk log
      (s.batch faults registeredAt ((log.behind s.machine.lastAppliedIndex).take count)) db cf := by
  obtain ⟨hls, hop, hcf, hva, hca⟩ := h
  rw [hid] at hva
  simp only [RocksWorker.batch, hop, Option.bind_some, hcf]
  cases hba : RocksDBStateMachine.batchChunk cf.content faults registeredAt
      ⟨⟨∅, none⟩, none, s.machine.lease, []⟩
      ((log.behind s.machine.lastAppliedIndex).take count) with
  | error fault => exact ⟨hls, hop, hcf, hva, hca⟩
  | ok b =>
    have hcl := RocksDBStateMachine.batchChunk_of_ok hba
    rw [RocksDBStateMachine.batchChunk_start cf.content (EntryLog.ascending_take _ count)
      (fun e _ => registers_of_lease hls e)] at hcl
    cases hcl
    refine ⟨?_, rfl, hcf, ⟨hva, ?_⟩, hca⟩
    · exact (isSome_leaseAfter registeredAt s.machine.lease _).trans hls
    · refine (RocksDBStateMachine.commit_chunkBatch cf.content _).trans ?_
      dsimp only
      rw [highestAfter_getD, lastLogId_index]
      have hnx := (List.take_append_drop count (log.behind s.machine.lastAppliedIndex)).symm
      exact (hva ▸ (EntryLog.stateAt_indexAfter hnx).symm :)

variable {snapshot : RocksSnapshot}

/-- What was exported does not depend on the column family. -/
theorem RocksSnapshotOk.of_copied {cf' : ColumnFamily (KeyMap Bytes Bytes)}
    (h : RocksSnapshotOk log cf snapshot)
    (hco : ¬snapshot.phase.copies) : RocksSnapshotOk log cf' snapshot := by
  obtain ⟨lastIncluded, phase⟩ := snapshot
  cases phase with
  | flushStateMachineCf | flushStateMachineMetaCf | exportStateMachineCf => exact absurd rfl hco
  | exportStateMachineMetaCf stateMachine | returned image => exact h

/-- A flush keeps what the captures need. -/
theorem RocksSnapshotOk.flush (h : RocksSnapshotOk log cf snapshot) (seqno : Nat) :
    RocksSnapshotOk log (cf.flush seqno) snapshot := by
  obtain ⟨lastIncluded, phase⟩ := snapshot
  cases phase with
  | flushStateMachineCf => exact h
  | flushStateMachineMetaCf | exportStateMachineCf => exact ⟨h.1, h.1⟩
  | exportStateMachineMetaCf stateMachine | returned image => exact h

theorem RocksWorkerOk.write (h : RocksWorkerOk log s db cf) {fault : Option String}
    (hco : RocksUndisturbed s (.write fault)) (hst : s.step log (.write fault) = some t) :
    ∃ db cf, RocksWorkerOk log t db cf := by
  obtain ⟨hls, hop, hcf, hva, hca⟩ := h
  simp only [RocksWorker.step, hop] at hst
  split at hst
  · next b _ happ hdb =>
      rw [happ] at hva
      cases hdb
      obtain ⟨hat, hcom⟩ := hva
      cases fault with
      | some =>
        cases hst
        exact ⟨db, cf, hls, hop, hcf, hat, hca⟩
      | none =>
        cases hst
        refine ⟨_, { cf with content := b.batch.stateMachine.commit cf.content }, hls, rfl,
          ?_, hcom, fun snapshot hmem => ?_⟩
        · rw [Db.writeWbwi, hcf]
          rfl
        · exact (hca snapshot hmem).of_copied (hco snapshot hmem)
  · cases hst

theorem RocksWorkerOk.finish (h : RocksWorkerOk log s db cf) (hst : s.step log .finish = some t) :
    RocksWorkerOk log t db cf := by
  obtain ⟨hls, hop, hcf, hva, hca⟩ := h
  rw [RocksWorker.step] at hst
  split at hst
  · next highest happ =>
      rw [happ] at hva
      cases hst
      cases highest <;> exact ⟨hls, hop, hcf, hva, hca⟩
  · cases hst

theorem RocksWorkerOk.capture (h : RocksWorkerOk log s db cf) (hco : RocksUndisturbed s .capture) :
    RocksWorkerOk log
      { s with captures := s.captures ++ [⟨s.machine.lastApplied, .flushStateMachineCf⟩] }
      db cf := by
  obtain ⟨hls, hop, hcf, hva, hca⟩ := h
  refine ⟨hls, hop, hcf, hva, fun snapshot hmem => ?_⟩
  rcases List.mem_append.mp hmem with hold | hnew
  · exact hca snapshot hold
  · cases List.mem_singleton.mp hnew
    change cf.content = log.stateAt s.machine.lastAppliedIndex
    rw [RocksUndisturbed] at hco
    unfold RocksValuesAt at hva
    split at hva
    · exact hva
    · exact hva
    · exact hva.1
    · next happ => exact absurd (by rw [happ]) hco

/-- A flush of the database. -/
theorem RocksWorkerOk.flushCf (h : RocksWorkerOk log s db cf) (name : CfName) :
    ∃ cf', RocksWorkerOk log
      { s with machine := { s.machine with db := some (db.flushCf name) } } (db.flushCf name) cf' ∧
      cf'.content = cf.content ∧ (name = .stateMachine → cf'.flushed = cf.content) := by
  obtain ⟨hls, hop, hcf, hva, hca⟩ := h
  cases name with
  | stateMachine =>
    refine ⟨cf.flush db.seqno, ⟨hls, rfl, ?_, hva, fun snapshot hmem => ?_⟩, rfl,
      fun _ => rfl⟩
    · rw [Db.flushCf, Db.flushStateMachineCf, hcf]
      rfl
    · exact (hca snapshot hmem).flush db.seqno
  | stateMachineMeta =>
    exact ⟨cf, ⟨hls, rfl, hcf, hva, hca⟩, rfl, nofun⟩

/-- One capture moves on. -/
theorem RocksWorkerOk.set (h : RocksWorkerOk log s db cf)
    (hsn : RocksSnapshotOk log cf snapshot) (task : Nat) :
    RocksWorkerOk log { s with captures := s.captures.set task snapshot } db cf := by
  obtain ⟨hls, hop, hcf, hva, hca⟩ := h
  refine ⟨hls, hop, hcf, hva, fun other hmem => ?_⟩
  rcases List.mem_or_eq_of_mem_set hmem with hold | rfl
  · exact hca other hold
  · exact hsn

theorem RocksWorkerOk.advance
    (h : RocksWorkerOk log s db cf) {task : Nat} (hst : s.step log (.advance task) = some t) :
    ∃ db cf, RocksWorkerOk log t db cf := by
  simp only [RocksWorker.step, h.opened] at hst
  cases hta : s.captures[task]? with
  | none => simp [hta] at hst
  | some snapshot =>
    obtain ⟨lastIncluded, phase⟩ := snapshot
    have hok : RocksSnapshotOk log cf ⟨lastIncluded, phase⟩ :=
      h.captures _ (List.mem_of_getElem? hta)
    have hsa : RocksWorkerOk log { s with machine := { s.machine with db := some db } } db cf :=
      ⟨h.lease, rfl, h.stateMachineCf, h.values, h.captures⟩
    simp only [hta] at hst
    cases phase with
    | flushStateMachineCf =>
      cases hst
      obtain ⟨cf', hfl, hco, hcov⟩ := h.flushCf .stateMachine
      have hnx : RocksSnapshotOk log cf' ⟨lastIncluded, .flushStateMachineMetaCf⟩ :=
        ⟨hco.trans hok, (hcov rfl).trans hok⟩
      exact ⟨_, cf', hfl.set hnx task⟩
    | flushStateMachineMetaCf =>
      cases hst
      have hfl : RocksWorkerOk log
          { s with machine := { s.machine with db := some db.flushStateMachineMetaCf } }
          db.flushStateMachineMetaCf cf :=
        ⟨h.lease, rfl, h.stateMachineCf, h.values, h.captures⟩
      have hnx : RocksSnapshotOk log cf ⟨lastIncluded, .exportStateMachineCf⟩ := hok
      exact ⟨_, cf, hfl.set hnx task⟩
    | exportStateMachineCf =>
      simp only [RocksWorker.advance, h.stateMachineCf, Option.map_some] at hst
      cases hst
      have hnx : RocksSnapshotOk log cf ⟨lastIncluded, .exportStateMachineMetaCf cf.flushed⟩ :=
        hok.2
      exact ⟨db, cf, hsa.set hnx task⟩
    | exportStateMachineMetaCf stateMachine =>
      simp only [RocksWorker.advance] at hst
      cases hme : db.stateMachineMetaCf with
      | none => simp [hme] at hst
      | some metaCf =>
        rw [hme] at hst
        cases hst
        have hnx : RocksSnapshotOk log cf
            ⟨lastIncluded, .returned ⟨stateMachine, metaCf.flushed⟩⟩ := hok
        exact ⟨db, cf, hsa.set hnx task⟩
    | returned => simp [RocksWorker.advance] at hst

theorem RocksWorkerOk.step
    (h : RocksWorkerOk log s db cf) {l : RocksWorkerLabel} (hco : RocksUndisturbed s l)
    (hst : s.step log l = some t) : ∃ db cf, RocksWorkerOk log t db cf := by
  cases l with
  | batch faults registeredAt count =>
    simp only [RocksWorker.step] at hst
    split at hst
    · cases hst
    · next hid =>
        cases hst
        exact ⟨db, cf, h.batch hid faults registeredAt count⟩
  | write => exact h.write hco hst
  | finish => exact ⟨db, cf, h.finish hst⟩
  | capture =>
    cases hst
    exact ⟨db, cf, h.capture hco⟩
  | advance => exact h.advance hst
  | background name =>
    simp only [RocksWorker.step, h.opened, Option.map_some] at hst
    cases hst
    obtain ⟨cf', hfl, _⟩ := h.flushCf name
    exact ⟨_, cf', hfl⟩

theorem exact_of_rocksCaptures (h : (rocksCaptures log).Reach RocksUndisturbed s)
    (hmem : snapshot ∈ s.captures) : snapshot.Exact log := by
  obtain ⟨db, cf, hok⟩ : ∃ db cf, RocksWorkerOk log s db cf := by
    refine h.invariant (I := fun s => ∃ db cf, RocksWorkerOk log s db cf) ?_ ?_
    · rintro s ⟨metadata, _, rfl⟩
      exact rocksWorkerOk_start metadata
    · rintro s l t ⟨db, cf, hs⟩ hco hst
      exact hs.step hco hst
  have hsn := hok.captures snapshot hmem
  obtain ⟨lastIncluded, phase⟩ := snapshot
  cases phase with
  | returned => exact hsn
  | _ => trivial

end Steps

/-! ## Both state machines -/

/-- For both state machines, as long as no values are written between the boundary of a capture and
its copy, and no capture begins between the values of a chunk and its last applied identity, an
image holds the values of its boundary. -/
theorem capture_exact (sized : SizedLog) (log : EntryLog) :
    (∀ s : FileWorker, (fileCaptures sized).Reach FileUndisturbed s →
      ∀ snapshot ∈ s.captures, snapshot.Exact sized) ∧
    (∀ s : RocksWorker, (rocksCaptures log).Reach RocksUndisturbed s →
      ∀ snapshot ∈ s.captures, snapshot.Exact log) :=
  ⟨fun _ h _ hmem => exact_of_fileCaptures h hmem,
    fun _ h _ hmem => exact_of_rocksCaptures h hmem⟩

def firstInsertSized : SizedLog := { firstInsert with sized := by decide }

theorem firstInsertSized_init : (fileCaptures firstInsertSized).init (.start firstInsertSized ∅) :=
  ⟨∅, dataFits_empty, rfl, rfl⟩

theorem firstInsert_captures_init :
    (rocksCaptures firstInsert).init (.start firstInsert ⟨none, none⟩) :=
  ⟨⟨none, none⟩, rfl, rfl⟩

/-- Captures between two chunks. -/
theorem captures_between_chunks :
    (∃ s : FileWorker, (∀ snapshot ∈ s.captures, snapshot.Exact firstInsertSized) ∧
      s.machine.lastAppliedIndex = 2 ∧
      (s.captures.map fun snapshot => (snapshot.lastIncluded.index, snapshot.image.isSome)) =
        [(1, true)]) ∧
    (∃ s : RocksWorker, (∀ snapshot ∈ s.captures, snapshot.Exact firstInsert) ∧
      s.machine.lastAppliedIndex = 2 ∧
      (s.captures.map fun snapshot => (snapshot.lastIncluded.index, snapshot.phase.copies)) =
        [(1, false)]) := by
  constructor
  · have hrun : ∃ s, (fileCaptures firstInsertSized).Reach FileUndisturbed s ∧
        s.machine.lastAppliedIndex = 2 ∧
        (s.captures.map fun snapshot => (snapshot.lastIncluded.index, snapshot.image.isSome)) =
          [(1, true)] := Machine.exists_reach_of_runIf
      [.evaluate .still 1, .update, .finish, .capture, .evaluate .still 1, .copy 0 [], .update,
        .finish] firstInsertSized_init (by decide +kernel)
    obtain ⟨s, hre, hfa⟩ := hrun
    exact ⟨s, (capture_exact firstInsertSized firstInsert).1 s hre, hfa⟩
  · have hrun : ∃ s, (rocksCaptures firstInsert).Reach RocksUndisturbed s ∧
        s.machine.lastAppliedIndex = 2 ∧
        (s.captures.map fun snapshot => (snapshot.lastIncluded.index, snapshot.phase.copies)) =
          [(1, false)] := Machine.exists_reach_of_runIf
      [.batch .none id 1, .write none, .finish, .capture, .batch .none id 1, .advance 0,
        .advance 0, .advance 0, .write none, .finish, .advance 0] firstInsert_captures_init
      (by decide +kernel)
    obtain ⟨s, hre, hfa⟩ := hrun
    exact ⟨s, (capture_exact firstInsertSized firstInsert).2 s hre, hfa⟩

/-- A chunk is applied between the boundary and the copy; a capture begins while the values of a
chunk are there and its last applied identity is not. -/
theorem capture_ahead_of_boundary :
    (∃ s, (fileCaptures firstInsertSized).Reach
        (fun s l => l matches .capture → s.applying = none) s ∧
      ∃ snapshot ∈ s.captures, ¬snapshot.Exact firstInsertSized) ∧
    (∃ s, (fileCaptures firstInsertSized).Reach
        (fun s l => l matches .update → s.captures = []) s ∧
      ∃ snapshot ∈ s.captures, ¬snapshot.Exact firstInsertSized) ∧
    (∃ s, (rocksCaptures firstInsert).Reach
        (fun s l => l matches .capture → s.applying = none) s ∧
      ∃ snapshot ∈ s.captures, ¬snapshot.Exact firstInsert) ∧
    (∃ s, (rocksCaptures firstInsert).Reach
        (fun s l => l matches .write _ → s.captures = []) s ∧
      ∃ snapshot ∈ s.captures, ¬snapshot.Exact firstInsert) := by
  refine ⟨?_, ?_, ?_, ?_⟩
  · exact Machine.exists_reach_of_runIf
      [.capture, .evaluate .still 1, .update, .finish, .copy 0 []] firstInsertSized_init
      (by decide +kernel)
  · exact Machine.exists_reach_of_runIf
      [.evaluate .still 1, .update, .capture, .copy 0 []] firstInsertSized_init
      (by decide +kernel)
  · exact Machine.exists_reach_of_runIf
      [.capture, .batch .none id 1, .write none, .finish, .advance 0, .advance 0, .advance 0,
        .advance 0] firstInsert_captures_init (by decide +kernel)
  · exact Machine.exists_reach_of_runIf
      [.batch .none id 1, .write none, .capture, .advance 0, .advance 0, .advance 0, .advance 0]
      firstInsert_captures_init (by decide +kernel)

end DEngine.Adaptors

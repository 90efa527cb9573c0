import DEngine.Adaptors.RocksDBCrash
import DEngine.Apply.InstalledState

/-!
# Installing a snapshot into RocksDB

`apply_snapshot_from_file` compares the boundary of a snapshot with the last applied
identity. An older snapshot and a repeated one are ignored; a newer one replaces both
column families, which are dropped first and then imported from the files of the
snapshot. An import is durable at once, while an ignored snapshot flushes nothing.

## Implementation notes

What a state holds is said by `Includes`: its values are those behind the entries up to an
index, applied in their order. A restore may stop at any of its calls. The lease that a
snapshot brings along is read as a whole.
-/

namespace DEngine.Adaptors

open Apply Library Library.Framing Raft RocksDBStateMachine

/-! ## Installing -/

/-- The exported column families of a snapshot with its metadata. -/
structure SnapshotFile where
  lastIncluded : Option LogId
  checksumMatches : Bool
  stateMachine : KeyMap Bytes Bytes
  stateMachineMeta : MetaContent
  ttlState : Option TtlLease

/-- The call at which a restore fails. -/
inductive RestoreFault where
  | loadMetadata
  | dropStateMachine
  | dropStateMachineMeta
  | importStateMachine
  | importStateMachineMeta
  | reloadLease
  | persistTtl
deriving DecidableEq, Repr

/-- The call comes behind the first drop. -/
def RestoreFault.behindDrop : RestoreFault → Bool
  | .loadMetadata | .dropStateMachine => false
  | _ => true

/-- Imported files are durable. -/
def ColumnFamily.imported {C : Type} (content : C) (seqno : Nat) : ColumnFamily C :=
  ⟨content, content, seqno⟩

namespace RocksDBStateMachine

variable (sm : RocksDBStateMachine)

/-- One call of a restore. -/
def restoring (fault : Option RestoreFault) (call : RestoreFault) (f : Db → Db) :
    Handler Db Fault Unit :=
  if fault = some call then Handler.fail .snapshotFailed else Handler.modify f

def restoreFromCfExport (file : SnapshotFile) (fault : Option RestoreFault) :
    Handler Db Fault Unit := do
  restoring fault .loadMetadata id
  restoring fault .dropStateMachine fun db => { db with stateMachineCf := none }
  restoring fault .dropStateMachineMeta fun db => { db with stateMachineMetaCf := none }
  restoring fault .importStateMachine fun db =>
    { db with stateMachineCf := some (.imported file.stateMachine db.seqno) }
  restoring fault .importStateMachineMeta fun db =>
    { db with stateMachineMetaCf := some (.imported file.stateMachineMeta db.seqno) }

/-- The last applied identity moves only when everything is restored. -/
def restoreFromSnapshot (file : SnapshotFile) (lastIncluded : LogId)
    (fault : Option RestoreFault) : Except Fault Unit × RocksDBStateMachine :=
  match sm.db with
  | none => (.error (.notServing "state machine stopped"), sm)
  | some db =>
    match restoreFromCfExport file fault db with
    | (.error e, db) => (.error e, { sm with db := some db })
    | (.ok (), db) =>
      if sm.lease.isSome ∧ file.ttlState.isSome ∧ fault = some .reloadLease then
        (.error .snapshotFailed, { sm with db := some db })
      else
        let reloaded := { sm with db := some db, lease := sm.lease.map file.ttlState.getD }
        if sm.lease.isSome ∧ file.ttlState.isSome ∧ fault = some .persistTtl then
          (.error .snapshotFailed, reloaded)
        else (.ok (), reloaded.updateLastApplied lastIncluded)

def applySnapshotFromFile (file : SnapshotFile) (fault : Option RestoreFault) :
    Except Fault SnapshotApplyResult × RocksDBStateMachine :=
  match file.lastIncluded with
  | none => (.error .snapshotFailed, sm)
  | some incoming =>
    let current := sm.lastApplied
    if incoming.index < current.index then (.ok (.ignoredStale current), sm)
    else if incoming.index = current.index then
      if incoming.term = current.term then (.ok (.ignoredDuplicate current), sm)
      else (.error .boundaryConflict, sm)
    else if ¬file.checksumMatches then (.error .snapshotFailed, sm)
    else
      match sm.restoreFromSnapshot file incoming fault with
      | (.error e, sm) => (.error e, { sm with isServing := true })
      | (.ok (), sm) => (.ok (.applied incoming), { sm with isServing := true })

/-- The outcome that the worker sees. -/
theorem applySnapshotFromFile_fst {incoming : LogId} (h : file.lastIncluded = some incoming) :
    (sm.applySnapshotFromFile file fault).1 =
      Apply.applySnapshotFromFile sm.lastApplied incoming
        (if file.checksumMatches then (sm.restoreFromSnapshot file incoming fault).1
        else .error .snapshotFailed) := by
  unfold applySnapshotFromFile Apply.applySnapshotFromFile
  simp only [h]
  split_ifs <;> try rfl
  obtain ⟨_ | _, _⟩ := sm.restoreFromSnapshot file incoming fault <;> rfl

/-- A restore begins: the snapshot is newer, and whole. -/
def Restores (file : SnapshotFile) : Prop :=
  ∃ incoming, file.lastIncluded = some incoming ∧ sm.lastAppliedIndex < incoming.index ∧
    file.checksumMatches

def get (key : Bytes) : Except Fault (Option Bytes) :=
  if ¬sm.isServing then .error (.notServing "State machine is restoring from snapshot")
  else
    match sm.db with
    | none => .error (.notServing "state machine stopped")
    | some db =>
      match db.stateMachineCf with
      | none => .error (.dbError "State machine CF not found")
      | some cf => .ok cf.content[key]?

end RocksDBStateMachine

/-! ## What a state holds -/

/-- The values are those behind the entries up to the index or up to a later one. -/
def Includes (log : EntryLog) (values : KeyMap Bytes Bytes) (i : Nat) : Prop :=
  ∃ j, i ≤ j ∧ values = log.stateAt j

theorem Includes.mono {log : EntryLog} {values : KeyMap Bytes Bytes} {i j : Nat}
    (h : Includes log values j) (hle : i ≤ j) : Includes log values i := by
  obtain ⟨k, hk, hva⟩ := h
  exact ⟨k, hle.trans hk, hva⟩

/-- Values and metadata that hold the entries up to an index. -/
structure FilesHold (log : EntryLog) (values : KeyMap Bytes Bytes) (metadata : MetaContent)
    (i : Nat) : Prop where
  values : Includes log values i
  metadata : i ≤ metadata.loadId.index

theorem FilesHold.mono {log : EntryLog} {values : KeyMap Bytes Bytes} {metadata : MetaContent}
    {i j : Nat} (h : FilesHold log values metadata j) (hle : i ≤ j) :
    FilesHold log values metadata i :=
  ⟨h.values.mono hle, hle.trans h.metadata⟩

section Database

variable {log : EntryLog} {lastApplied : LogId} {db : Db}
  {cf : ColumnFamily (KeyMap Bytes Bytes)} {metaCf : ColumnFamily MetaContent} {i : Nat}

/-- What is visible holds the entries up to the last applied one. -/
theorem DbOk.holds (h : DbOk log lastApplied db cf metaCf) (hle : i ≤ lastApplied.index) :
    FilesHold log cf.content metaCf.content i :=
  ⟨⟨_, hle, h.content⟩, h.metadata ▸ hle⟩

/-- The imported column families. -/
def Db.imported (db : Db) (file : SnapshotFile) : Db :=
  { db with
    stateMachineCf := some (.imported file.stateMachine db.seqno)
    stateMachineMetaCf := some (.imported file.stateMachineMeta db.seqno) }

theorem dbOk_imported {file : SnapshotFile} (db : Db)
    (hme : file.stateMachineMeta.loadId = lastApplied)
    (hva : file.stateMachine = log.stateAt lastApplied.index) :
    DbOk log lastApplied (db.imported file) (.imported file.stateMachine db.seqno)
      (.imported file.stateMachineMeta db.seqno) where
  stateMachineCf := rfl
  stateMachineMetaCf := rfl
  content := hva
  metadata := hme
  seqno_le := le_rfl
  metaSeqno_le := le_rfl
  clean := fun _ => rfl
  metaClean := fun _ => rfl
  alike := fun _ => hva.trans (congrArg (fun id => log.stateAt id.index) hme.symm)

/-- A restore that does not fail behind the first drop leaves the column families alone, or
imports both. -/
theorem restoreFromCfExport_cases (file : SnapshotFile) {fault : Option RestoreFault}
    (hwh : ∀ call ∈ fault, call.behindDrop = false) (db : Db) :
    (∃ e, restoreFromCfExport file fault db = (.error e, db)) ∨
      fault = none ∧ restoreFromCfExport file fault db = (.ok (), db.imported file) := by
  cases fault with
  | none => exact .inr ⟨rfl, rfl⟩
  | some call =>
    have hca := hwh call rfl
    cases call with
    | loadMetadata | dropStateMachine => exact .inl ⟨_, rfl⟩
    | _ => cases hca

/-- What an installation does to a machine, its lease apart. -/
inductive Installed (sm : RocksDBStateMachine) (db : Db) (file : SnapshotFile) :
    Except Fault SnapshotApplyResult → Option Db → LogId → Prop
  | refused (e : Fault) : Installed sm db file (.error e) (some db) sm.lastApplied
  | ignored (incoming : LogId) (hincoming : file.lastIncluded = some incoming)
      (hle : incoming.index ≤ sm.lastAppliedIndex) (result : SnapshotApplyResult)
      (hresult : result.boundary = sm.lastApplied) :
      Installed sm db file (.ok result) (some db) sm.lastApplied
  | applied (incoming : LogId) (hincoming : file.lastIncluded = some incoming)
      (hlt : sm.lastAppliedIndex < incoming.index) :
      Installed sm db file (.ok (.applied incoming)) (some (db.imported file)) incoming

/-- A snapshot is refused or ignored, or it is newer and a restore begins. -/
theorem RocksDBStateMachine.applySnapshotFromFile_cases (sm : RocksDBStateMachine) (file : SnapshotFile)
    (fault : Option RestoreFault) :
    (∃ e, sm.applySnapshotFromFile file fault = (.error e, sm) ∧ ¬sm.Restores file) ∨
    (∃ incoming result, file.lastIncluded = some incoming ∧
      incoming.index ≤ sm.lastAppliedIndex ∧ result.boundary = sm.lastApplied ∧
      sm.applySnapshotFromFile file fault = (.ok result, sm)) ∨
    ∃ incoming, file.lastIncluded = some incoming ∧ sm.lastAppliedIndex < incoming.index ∧
      sm.Restores file ∧ sm.applySnapshotFromFile file fault =
        ((sm.restoreFromSnapshot file incoming fault).1.map fun _ => .applied incoming,
          { (sm.restoreFromSnapshot file incoming fault).2 with isServing := true }) := by
  unfold applySnapshotFromFile Restores
  cases hinc : file.lastIncluded with
  | none => exact .inl ⟨_, rfl, by simp⟩
  | some incoming =>
    dsimp only
    split_ifs with hlt heq hte hch
    · exact .inr (.inl ⟨incoming, _, rfl, hlt.le, rfl, rfl⟩)
    · exact .inr (.inl ⟨incoming, _, rfl, heq.le, rfl, rfl⟩)
    · exact .inl ⟨_, rfl, by rintro ⟨_, ⟨⟩, hnw, -⟩; exact hnw.ne' heq⟩
    · have hnw : sm.lastAppliedIndex < incoming.index :=
        lt_of_le_of_ne (Nat.le_of_not_lt hlt) (Ne.symm heq)
      refine .inr (.inr ⟨incoming, rfl, hnw, ⟨incoming, rfl, hnw, hch⟩, ?_⟩)
      rcases sm.restoreFromSnapshot file incoming fault with ⟨_ | _, _⟩ <;> rfl
    · exact .inl ⟨_, rfl, by simp [hch]⟩

theorem installed_applySnapshotFromFile {sm : RocksDBStateMachine} (hdb : sm.db = some db)
    (file : SnapshotFile) {fault : Option RestoreFault}
    (hwh : ∀ call ∈ fault, call.behindDrop = false) :
    Installed sm db file (sm.applySnapshotFromFile file fault).1
      (sm.applySnapshotFromFile file fault).2.db
      (sm.applySnapshotFromFile file fault).2.lastApplied ∧
    (sm.applySnapshotFromFile file fault).2.lease.isSome = sm.lease.isSome := by
  rcases sm.applySnapshotFromFile_cases file fault with
    ⟨e, heq, -⟩ | ⟨incoming, result, hinc, hle, hrs, heq⟩ | ⟨incoming, hinc, hlt, -, heq⟩
  · rw [heq, hdb]
    exact ⟨.refused e, rfl⟩
  · rw [heq, hdb]
    exact ⟨.ignored incoming hinc hle result hrs, rfl⟩
  · simp only [heq, restoreFromSnapshot, hdb]
    rcases restoreFromCfExport_cases file hwh db with ⟨e, hre⟩ | ⟨rfl, hre⟩
    · simp only [hre]
      exact ⟨.refused e, trivial⟩
    · simp only [hre, reduceCtorEq, and_false, if_false]
      exact ⟨.applied incoming hinc hlt, Option.isSome_map⟩

end Database

/-! ## A restore that fails -/

namespace RocksDBStateMachine

variable {sm sm' : RocksDBStateMachine} {file : SnapshotFile} {fault : Option RestoreFault}
  {e : Fault}

/-- What reads find, if they are answered. -/
def served (sm : RocksDBStateMachine) : Option (KeyMap Bytes Bytes) :=
  if sm.isServing then (sm.db.bind Db.stateMachineCf).map ColumnFamily.content else none

/-- A restore that fails at the call leaves what was there: the values while they are not dropped,
nothing until they are imported, those of the snapshot from then on, and its leases at last. -/
def LeftAlone (sm : RocksDBStateMachine) (file : SnapshotFile) : Option RestoreFault → Prop
  | some .dropStateMachineMeta | some .importStateMachine => sm.served = none
  | some .importStateMachineMeta | some .reloadLease => sm.served = some file.stateMachine
  | some .persistTtl => sm.served = some file.stateMachine ∧ sm.lease = file.ttlState
  | some .loadMetadata | some .dropStateMachine | none =>
    sm.isServing = true ∨ sm.db.bind Db.stateMachineCf = none

theorem toOption_get (sm : RocksDBStateMachine) (key : Bytes) :
    (sm.get key).toOption = sm.served.map (·[key]?) := by
  obtain ⟨_ | ⟨_ | cf, metaCf, seqno⟩, _ | _, index, term, lease⟩ := sm <;> rfl

theorem get_eq_iff :
    (∀ key, (sm'.get key).toOption = (sm.get key).toOption) ↔ sm'.served = sm.served := by
  simp only [toOption_get]
  refine ⟨fun h => ?_, fun h _ => by rw [h]⟩
  cases hs : sm.served with
  | none => simpa [hs] using h []
  | some values =>
    cases hs' : sm'.served with
    | none => simpa [hs, hs'] using h []
    | some values' =>
      exact congrArg some (Std.ExtTreeMap.ext_getElem? fun key => by simpa [hs, hs'] using h key)

theorem served_of_content :
    (sm.db.bind Db.stateMachineCf).map ColumnFamily.content = sm.served ↔
      sm.isServing = true ∨ sm.db.bind Db.stateMachineCf = none := by
  unfold served
  split_ifs with hse
  · simp [hse]
  · simp [hse]

/-- What a failed restore of an open database leaves, by the call at which it fails. -/
theorem restoreFromSnapshot_error {incoming : LogId} (hdb : sm.db.isSome)
    (h : sm.restoreFromSnapshot file incoming fault = (.error e, sm')) :
    ((sm'.db.bind Db.stateMachineCf).map ColumnFamily.content = sm.served ∧ sm'.lease = sm.lease ↔
      sm.LeftAlone file fault) ∧ sm'.lastApplied = sm.lastApplied := by
  obtain ⟨db, hdb⟩ := Option.isSome_iff_exists.mp hdb
  unfold restoreFromSnapshot at h
  simp only [hdb] at h
  obtain _ | _ | _ | _ | _ | _ | _ | _ := fault
  case none =>
    change (if _ then _ else _) = _ at h
    simp at h
  case some.loadMetadata | some.dropStateMachine =>
    cases h
    refine ⟨(and_iff_left rfl).trans (Iff.trans ?_ served_of_content), rfl⟩
    simp only [hdb, id_eq]
  case some.reloadLease =>
    change (if _ then _ else _) = _ at h
    split_ifs at h with hre hpe
    · cases h
      exact ⟨(and_iff_left rfl).trans eq_comm, rfl⟩
    · cases hpe.2.2
    · cases h
  case some.persistTtl =>
    change (if _ then _ else _) = _ at h
    rw [if_neg (by simp)] at h
    dsimp only at h
    split_ifs at h with hre
    · cases h
      obtain ⟨lease, hls⟩ := Option.isSome_iff_exists.mp hre.1
      obtain ⟨ttlState, htt⟩ := Option.isSome_iff_exists.mp hre.2.1
      refine ⟨and_congr eq_comm ?_, rfl⟩
      simp only [hls, htt, Option.map_some, Option.getD_some]
      exact eq_comm
    · cases h
  all_goals
    cases h
    exact ⟨(and_iff_left rfl).trans eq_comm, rfl⟩

/-- A failed installation changes nothing that is read, no lease and no last applied identity
exactly if it fails before the restore begins, or at a call that leaves what was there. -/
theorem failed_install_changes_nothing_iff
    (h : sm.applySnapshotFromFile file fault = (.error e, sm')) :
    ((∀ key, (sm'.get key).toOption = (sm.get key).toOption) ∧ sm'.lease = sm.lease ∧
      sm'.lastApplied = sm.lastApplied) ↔
    (sm.Restores file → sm.db.isSome → sm.LeftAlone file fault) := by
  rw [get_eq_iff]
  rcases sm.applySnapshotFromFile_cases file fault with
    ⟨_, heq, hnot⟩ | ⟨_, _, _, _, _, heq⟩ | ⟨incoming, _, _, hre, heq⟩
  · cases heq.symm.trans h
    exact iff_of_true ⟨rfl, rfl, rfl⟩ fun hre => absurd hre hnot
  · cases heq.symm.trans h
  · rw [heq] at h
    cases hrun : sm.restoreFromSnapshot file incoming fault with
    | mk result after =>
      rw [hrun] at h
      cases result with
      | ok => cases h
      | error e =>
        cases h
        by_cases hdb : sm.db.isSome
        · obtain ⟨hlf, hla⟩ := restoreFromSnapshot_error hdb hrun
          rw [← and_assoc]
          exact ⟨fun hsa _ _ => hlf.mp hsa.1, fun hsa => ⟨hlf.mpr (hsa hre hdb), hla⟩⟩
        · have hno : sm.db = none := Option.not_isSome_iff_eq_none.mp hdb
          unfold restoreFromSnapshot at hrun
          simp only [hno] at hrun
          cases hrun
          exact iff_of_true ⟨by simp [served, hno], rfl, rfl⟩ fun _ hso => absurd hso hdb

/-- A whole snapshot without values. -/
def emptySnapshot : SnapshotFile := ⟨some ⟨1, 1⟩, true, ∅, ⟨none, none⟩, none⟩

/-- Without the export metadata nothing changes. -/
theorem failed_metadata_changes_nothing :
    ∃ sm', fresh.applySnapshotFromFile emptySnapshot (some .loadMetadata) =
        (.error .snapshotFailed, sm') ∧
      (∀ key, (sm'.get key).toOption = (fresh.get key).toOption) ∧ sm'.lease = fresh.lease ∧
      sm'.lastApplied = fresh.lastApplied :=
  ⟨_, rfl, (failed_install_changes_nothing_iff
    (rfl : fresh.applySnapshotFromFile emptySnapshot (some .loadMetadata) = _)).mpr fun _ _ => .inl rfl⟩

/-- An import that fails behind the drops leaves no column family to read. -/
theorem failed_import_changes_reads :
    ∃ sm', fresh.applySnapshotFromFile emptySnapshot (some .importStateMachine) =
        (.error .snapshotFailed, sm') ∧
      fresh.get [1] = .ok none ∧ sm'.get [1] = .error (.dbError "State machine CF not found") :=
  ⟨_, rfl, rfl, rfl⟩

end RocksDBStateMachine

end DEngine.Adaptors

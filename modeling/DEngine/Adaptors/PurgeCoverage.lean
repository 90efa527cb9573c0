import DEngine.Adaptors.RocksDBInstall
import DEngine.Raft.Lifetime

/-!
# Purged entries are covered

A node purges its log up to the boundary of a snapshot: of one that it took itself, or of
one that was pushed to it and installed or ignored. The purged entries are gone, so the
state that a crash would leave has to hold them. A capture flushes both column families in
front of its announcement, and an import is durable. An ignored snapshot lets the node
purge up to the last applied entry, which nothing has flushed.

## Implementation notes

The node is the whole main loop. It meets the state machine in two places: a capture has to
be finished before it is announced to the node, and the answer to a pushed snapshot is what
the installation gives at that moment. All other steps of the two interleave freely. The
column families are flushed by `flush` and by the database on its own, each at any time.
The cleanup of leases is left out.
-/

namespace DEngine.Adaptors

open Apply Library Raft

/-! ## A node and its state machine -/

/-- A running `generate_snapshot_data`: its boundary, and what it still has to flush. -/
structure Capture where
  boundary : LogId
  unflushed : List CfName
deriving DecidableEq

structure PurgingNode (myId : Nat) where
  node : Node myId
  machine : RocksDBStateMachine
  captures : List Capture

inductive PurgingLabel where
  | node (l : Raft.Label)
  /-- The node handles a pushed snapshot and the machine installs it. -/
  | install (env : Env) (file : SnapshotFile) (fault : Option RestoreFault)
  /-- Apply the given number of entries behind the last applied index. -/
  | applyChunk (registeredAt : Nat → Nat) (count : Nat)
  | capture
  /-- A running capture flushes its next column family. -/
  | advance (call : Nat)
  | flushCf (cf : CfName)
  /-- A crash, and the next start. -/
  | restart (boot : Boot)

namespace RocksDBStateMachine

variable (sm : RocksDBStateMachine)

def flushCf (cf : CfName) : Option RocksDBStateMachine :=
  sm.db.map fun db => { sm with db := some (db.flushCf cf) }

/-- The machine that a crash leaves. -/
def survivor : Option RocksDBStateMachine :=
  (RocksHost.mk sm []).reopen.map RocksHost.machine

/-- What a crash leaves holds the entries up to an index. -/
def Survives (log : EntryLog) (i : Nat) : Prop :=
  ∃ left ∈ sm.survivor, Includes log left.values i ∧ i ≤ left.lastAppliedIndex

/-- Everything that was applied is flushed. -/
def FlushedAll : Prop :=
  sm.flushedSeqno .stateMachine = sm.db.map Db.seqno ∧
    sm.flushedSeqno .stateMachineMeta = sm.db.map Db.seqno
deriving Decidable

end RocksDBStateMachine

/-- A replica whose next event is a snapshot of no past term. -/
def awaitsInstall {myId : Nat} (s : Node myId) : Bool :=
  decide (s.role = .follower ∨ s.role = .learner) &&
    match s.nextEvent with
    | some (.installSnapshotChunk (some chunk)) => decide (s.currentTerm ≤ chunk.leaderTerm)
    | _ => false

namespace PurgingNode

variable {myId : Nat}

/-- Only finished captures are announced, and no snapshot is installed on the side. -/
def connected (s : PurgingNode myId) : Raft.Label → Bool
  | .push (.snapshotCreated (some id)) => decide (⟨id, []⟩ ∈ s.captures)
  | .inboundEvent env => !env.snapshotStream.isOk
  | _ => true

def step (log : EntryLog) (s : PurgingNode myId) : PurgingLabel → Option (PurgingNode myId)
  | .node l => if s.connected l then (s.node.step l).map fun node => { s with node } else none
  | .install env file fault =>
    let installed := s.machine.applySnapshotFromFile file fault
    match s.node.step (.inboundEvent { env with snapshotStream := .ok installed.1 }) with
    | none => none
    | some node =>
      -- the answer is recorded behind the installation
      if awaitsInstall s.node ∧ node.journal.length = s.node.journal.length + 1 then
        some { s with node, machine := installed.2 }
      else none
  | .applyChunk registeredAt count =>
    match s.machine.applyChunk .none registeredAt
        ((log.behind s.machine.lastAppliedIndex).take count) with
    | .error _ => none
    | .ok (_, machine) => some { s with machine }
  | .capture =>
    some { s with
      captures := s.captures ++ [⟨s.machine.lastApplied, [.stateMachine, .stateMachineMeta]⟩] }
  | .advance call =>
    match s.captures[call]? with
    | some ⟨boundary, cf :: rest⟩ =>
      (s.machine.flushCf cf).map fun machine =>
        { s with machine, captures := s.captures.set call ⟨boundary, rest⟩ }
    | _ => none
  | .flushCf cf => (s.machine.flushCf cf).map fun machine => { s with machine }
  | .restart boot =>
    match s.machine.survivor with
    | none => none
    | some machine =>
      if boot.lastApplied = machine.lastAppliedIndex ∧
          (boot.boundary.map LogId.index).getD 0 ≤ s.node.log.lastPurgedIndex then
        some ⟨s.node.restart boot, machine, []⟩
      else none

end PurgingNode

/-- The runs of a node together with its state machine over a sequence of committed entries. -/
def purgingRuns (myId : Nat) (log : EntryLog) : Machine (PurgingNode myId) PurgingLabel where
  init s := s.node.Init ∧ s.node.log.lastPurgedIndex ≤ log.start.index ∧ s.captures = [] ∧
    ∃ metadata : MetaContent, metadata.loadId = log.start ∧
      s.machine = (RocksHost.start log metadata).machine
  step := PurgingNode.step log

/-- What a snapshot, an installation and a crash have to find. -/
def FindsFlushed {myId : Nat} (log : EntryLog) (s : PurgingNode myId) : PurgingLabel → Prop
  | .install _ file fault => (∀ call ∈ fault, call.behindDrop = false) ∧
      ∀ incoming ∈ file.lastIncluded,
        if incoming.index ≤ s.machine.lastAppliedIndex then s.machine.FlushedAll
        else file.stateMachineMeta.loadId = incoming ∧
          file.stateMachine = log.stateAt incoming.index
  | .restart _ =>
    s.machine.flushedSeqno .stateMachine = s.machine.flushedSeqno .stateMachineMeta
  | _ => True

instance {myId : Nat} (log : EntryLog) (s : PurgingNode myId) (l : PurgingLabel) :
    Decidable (FindsFlushed log s l) := by
  cases l <;> dsimp only [FindsFlushed] <;> infer_instance

/-! ## What holds of a node and its state machine -/

/-- A capture as far as it has come: the files hold its boundary when it is finished. -/
inductive CaptureOk (log : EntryLog) (flushed : KeyMap Bytes Bytes) (lastApplied bound : Nat) :
    Capture → Prop
  | started (boundary : LogId) (hle : boundary.index ≤ lastApplied) :
      CaptureOk log flushed lastApplied bound ⟨boundary, [.stateMachine, .stateMachineMeta]⟩
  | halfway (boundary : LogId) (hle : boundary.index ≤ lastApplied)
      (hvalues : Includes log flushed boundary.index) :
      CaptureOk log flushed lastApplied bound ⟨boundary, [.stateMachineMeta]⟩
  | finished (boundary : LogId) (hle : boundary.index ≤ bound) :
      CaptureOk log flushed lastApplied bound ⟨boundary, []⟩

/-- All that the node may purge is in the files, and captures are on their way there. -/
structure PurgeOk {myId : Nat} (log : EntryLog) (s : PurgingNode myId) (bound : Nat) : Prop where
  purges : s.node.PurgesWithin bound
  bound_le : bound ≤ s.machine.lastApplied.index
  lease : s.machine.lease.isSome
  store : ∃ db cf metaCf, s.machine.db = some db ∧
    DbOk log s.machine.lastApplied db cf metaCf ∧
    FilesHold log cf.flushed metaCf.flushed bound ∧
    ∀ c ∈ s.captures, CaptureOk log cf.flushed s.machine.lastApplied.index bound c

section Store

variable {log : EntryLog} {flushed flushed' : KeyMap Bytes Bytes}
  {lastApplied lastApplied' bound bound' : Nat} {c : Capture}

theorem CaptureOk.mono (h : CaptureOk log flushed lastApplied bound c)
    (hla : lastApplied ≤ lastApplied') (hbo : bound ≤ bound')
    (hfl : ∀ i ≤ lastApplied, Includes log flushed i → Includes log flushed' i) :
    CaptureOk log flushed' lastApplied' bound' c := by
  cases h with
  | started boundary hle => exact .started boundary (hle.trans hla)
  | halfway boundary hle hva =>
    exact .halfway boundary (hle.trans hla) (hfl _ hle hva)
  | finished boundary hle => exact .finished boundary (hle.trans hbo)

variable {id : LogId} {db : Db} {cf : ColumnFamily (KeyMap Bytes Bytes)}
  {metaCf : ColumnFamily MetaContent}

/-- A flush keeps what the files hold of the entries that were applied. -/
theorem DbOk.flushCf_holds (h : DbOk log id db cf metaCf) (hle : bound ≤ id.index)
    (hfi : FilesHold log cf.flushed metaCf.flushed bound) (name : CfName) :
    ∃ cf' metaCf', DbOk log id (db.flushCf name) cf' metaCf' ∧
      FilesHold log cf'.flushed metaCf'.flushed bound ∧
      (∀ i ≤ id.index, Includes log cf.flushed i → Includes log cf'.flushed i) ∧
      (name = .stateMachine → Includes log cf'.flushed id.index) ∧
      (name = .stateMachineMeta → cf'.flushed = cf.flushed ∧
        id.index ≤ metaCf'.flushed.loadId.index) := by
  obtain ⟨cf', metaCf', hcov, hva, hme⟩ := h.flushCf name
  refine ⟨cf', metaCf', hcov, ?_⟩
  cases name with
  | stateMachine =>
    rw [if_pos rfl] at hva
    rw [if_neg (by simp)] at hme
    rw [hva, hme]
    refine ⟨⟨(h.holds hle).values, hfi.metadata⟩, fun i hi _ => (h.holds hi).values, ?_, ?_⟩
    · exact fun _ => (h.holds le_rfl).values
    · nofun
  | stateMachineMeta =>
    rw [if_neg (by simp)] at hva
    rw [if_pos rfl] at hme
    rw [hva, hme]
    refine ⟨⟨hfi.values, (h.holds hle).metadata⟩, fun i _ hi => hi, ?_, ?_⟩
    · nofun
    · exact fun _ => ⟨rfl, (h.holds le_rfl).metadata⟩

/-- The machine that a crash leaves, from the column families. -/
theorem survivor_eq {sm : RocksDBStateMachine} (hdb : sm.db = some db)
    (h : DbOk log id db cf metaCf) :
    sm.survivor = some ⟨some db.crash, true, metaCf.flushed.loadId.index,
      metaCf.flushed.loadId.term, some .empty⟩ := by
  have hlo : RocksDBStateMachine.loadStateMachineMetadata db.crash =
      .ok metaCf.flushed.loadId := by
    rw [RocksDBStateMachine.loadStateMachineMetadata, Db.crash, h.stateMachineMetaCf]
    rfl
  simp only [RocksDBStateMachine.survivor, RocksHost.reopen, hdb, RocksDBStateMachine.new, hlo,
    Option.map_some]

theorem survives_of_filesHold {sm : RocksDBStateMachine} (hdb : sm.db = some db)
    (h : DbOk log id db cf metaCf) (hfi : FilesHold log cf.flushed metaCf.flushed bound) :
    sm.Survives log bound := by
  refine ⟨_, survivor_eq hdb h, ?_, hfi.metadata⟩
  have hva : RocksDBStateMachine.values ⟨some db.crash, true, metaCf.flushed.loadId.index,
      metaCf.flushed.loadId.term, some .empty⟩ = cf.flushed := by
    simp only [RocksDBStateMachine.values, Option.bind_some, Db.crash, h.stateMachineCf,
      Option.map_some]
    rfl
  rw [hva]
  exact hfi.values

end Store

/-! ## Steps -/

section Steps

variable {myId : Nat} {log : EntryLog} {s t : PurgingNode myId} {bound : Nat}

theorem purgeOk_init (h : (purgingRuns myId log).init s) : PurgeOk log s log.start.index := by
  obtain ⟨node, machine, captures⟩ := s
  obtain ⟨hin, hpu, hca, metadata, hme, hma⟩ := h
  obtain ⟨config, role, shared, diskLen, loaded, boundary, membership, hno, -⟩ := hin
  cases hno
  cases hca
  cases hma
  have hba : log.base = log.stateAt log.start.index := EntryLog.stateAt_start.symm
  refine ⟨⟨fun _ hid => ?_, hpu, fun _ he => ?_⟩, le_rfl, rfl, _,
    ⟨log.base, log.base, 0⟩, ⟨metadata, metadata, 0⟩, rfl, ?_, ?_, ?_⟩
  · cases hid
  · cases he
  · exact ⟨rfl, rfl, hba, hme, le_rfl, le_rfl, fun _ => rfl, fun _ => rfl,
      fun _ => hba.trans (congrArg (fun id => log.stateAt id.index) hme.symm)⟩
  · exact ⟨⟨_, le_rfl, hba⟩, (congrArg LogId.index hme).ge⟩
  · exact fun c hc => by cases hc

/-- The snapshots that the node hears of are within the bound. -/
theorem PurgeOk.purgesTo_le (h : PurgeOk log s bound) {l : Raft.Label}
    (hco : s.connected l = true) : s.node.purgesTo l ≤ bound := by
  cases l with
  | push event =>
    cases event with
    | snapshotCreated lastIncluded =>
      cases lastIncluded with
      | none => exact Nat.zero_le bound
      | some =>
        obtain ⟨db, cf, metaCf, -, -, -, hca⟩ := h.store
        cases hca _ (of_decide_eq_true hco) with
        | finished _ hle => exact hle
    | _ => exact Nat.zero_le bound
  | internalEvent env => exact h.purges.purgesTo_internalEvent env
  | inboundEvent env =>
    have hst : (!env.snapshotStream.isOk) = true := hco
    have hno : env.installed = 0 := by
      unfold Env.installed
      cases hres : env.snapshotStream with
      | error => rfl
      | ok => simp [hres, Except.isOk, Except.toBool] at hst
    exact hno.le.trans (Nat.zero_le bound)
  | _ => exact Nat.zero_le bound

theorem PurgeOk.node (h : PurgeOk log s bound) {l : Raft.Label} {node : Node myId}
    (hco : s.connected l = true) (hst : s.node.step l = some node) :
    PurgeOk log { s with node } bound :=
  ⟨purgesWithin_of_step hst (h.purgesTo_le hco) h.purges, h.bound_le, h.lease, h.store⟩

variable {machine : RocksDBStateMachine}

theorem purgeOk_of_machine {node : Node myId}
    {captures : List Capture} {id : LogId} {db : Db} {cf : ColumnFamily (KeyMap Bytes Bytes)}
    {metaCf : ColumnFamily MetaContent} (hpu : node.PurgesWithin bound)
    (hla : machine.lastApplied = id) (hle : bound ≤ id.index) (hls : machine.lease.isSome)
    (hdb : machine.db = some db) (hcov : DbOk log id db cf metaCf)
    (hfi : FilesHold log cf.flushed metaCf.flushed bound)
    (hca : ∀ c ∈ captures, CaptureOk log cf.flushed id.index bound c) :
    PurgeOk log ⟨node, machine, captures⟩ bound := by
  subst hla
  exact ⟨hpu, hle, hls, db, cf, metaCf, hdb, hcov, hfi, hca⟩

/-- The files of a newer snapshot hold its boundary and all that was applied before. -/
theorem PurgeOk.imported (h : PurgeOk log s bound) {node : Node myId}
    {db : Db} {file : SnapshotFile} {incoming : LogId}
    (hme : file.stateMachineMeta.loadId = incoming)
    (hva : file.stateMachine = log.stateAt incoming.index)
    (hnw : s.machine.lastApplied.index < incoming.index) (hla : machine.lastApplied = incoming)
    (hls : machine.lease.isSome) (hdb : machine.db = some (db.imported file))
    (hpu : node.PurgesWithin incoming.index) :
    PurgeOk log { s with node, machine } incoming.index := by
  have hin : Includes log file.stateMachine incoming.index := ⟨_, le_rfl, hva⟩
  refine purgeOk_of_machine hpu hla le_rfl hls hdb (dbOk_imported db hme hva)
    ⟨hin, (congrArg LogId.index hme).ge⟩ ?_
  obtain ⟨_, _, _, -, -, -, hca⟩ := h.store
  exact fun c hc => (hca c hc).mono hnw.le (h.bound_le.trans hnw.le) fun i hi _ =>
    hin.mono (hi.trans hnw.le)

/-- The machine goes on and the node purges within a new bound. -/
theorem PurgeOk.install (h : PurgeOk log s bound) {env : Env} {file : SnapshotFile}
    {fault : Option RestoreFault} {node : Node myId}
    (hfn : FindsFlushed log s (.install env file fault))
    (hst : s.node.step (.inboundEvent { env with
      snapshotStream := .ok (s.machine.applySnapshotFromFile file fault).1 }) = some node) :
    ∃ bound, PurgeOk log
      { s with node, machine := (s.machine.applySnapshotFromFile file fault).2 } bound := by
  obtain ⟨hwh, hfi⟩ := hfn
  obtain ⟨db, cf, metaCf, hdb, hcov, hfs, hca⟩ := h.store
  obtain ⟨hin, hls⟩ := installed_applySnapshotFromFile hdb file hwh
  rw [h.lease] at hls
  have hpu : ∀ bound', bound ≤ bound' →
      Env.installed { env with
        snapshotStream := .ok (s.machine.applySnapshotFromFile file fault).1 } ≤ bound' →
      node.PurgesWithin bound' := fun bound' hle hto =>
    purgesWithin_of_step hst hto (h.purges.mono hle)
  clear hst
  revert hpu hin hls
  generalize (s.machine.applySnapshotFromFile file fault).1 = result
  generalize (s.machine.applySnapshotFromFile file fault).2 = machine
  generalize hla : machine.lastApplied = lastApplied
  generalize hdb' : machine.db = db'
  intro hin hls hpu
  cases hin with
  | refused =>
    have hpr := hpu bound le_rfl (Nat.zero_le bound)
    exact ⟨bound, purgeOk_of_machine hpr hla h.bound_le hls hdb' hcov hfs hca⟩
  | ignored incoming hinc hle result hres =>
    have hfl := hfi incoming hinc
    rw [if_pos hle] at hfl
    obtain ⟨hcl, hme⟩ : cf.flushedSeqno = db.seqno ∧ metaCf.flushedSeqno = db.seqno := by
      simpa [RocksDBStateMachine.FlushedAll, RocksDBStateMachine.flushedSeqno, hdb,
        hcov.stateMachineCf, hcov.stateMachineMetaCf] using hfl
    have hho := hcov.holds le_rfl
    rw [← hcov.clean hcl, ← hcov.metaClean hme] at hho
    have hpr := hpu _ h.bound_le (congrArg LogId.index hres).le
    refine ⟨_, purgeOk_of_machine hpr hla le_rfl hls hdb' hcov hho fun c hc => ?_⟩
    exact (hca c hc).mono le_rfl h.bound_le fun _ _ hi => hi
  | applied _ hinc hlt =>
    have hel := hfi lastApplied hinc
    rw [if_neg (Nat.not_le_of_lt hlt)] at hel
    have hpr := hpu _ (h.bound_le.trans hlt.le) le_rfl
    exact ⟨lastApplied.index, h.imported hel.1 hel.2 hlt hla hls hdb' hpr⟩

theorem PurgeOk.applyChunk (h : PurgeOk log s bound) {registeredAt : Nat → Nat} {count : Nat}
    {results : List ApplyResult}
    (heq : s.machine.applyChunk .none registeredAt
      ((log.behind s.machine.lastAppliedIndex).take count) = .ok (results, machine)) :
    PurgeOk log { s with machine } bound := by
  obtain ⟨db, cf, metaCf, hdb, hcov, hfi, hca⟩ := h.store
  obtain ⟨chunk, rest, hnx, hdb', hla, hls⟩ :=
    applyChunk_next hdb hcov.stateMachineCf hcov.stateMachineMetaCf h.lease heq
  obtain ⟨cf', metaCf', hco', hva, hme⟩ := hcov.writeWbwi hnx
  have hle : s.machine.lastApplied.index ≤ (lastLogId s.machine.lastApplied chunk).index := by
    rw [lastLogId_index]
    exact le_indexAfter log.ascending hnx
  have hso : machine.lease.isSome := by
    rw [hls, isSome_leaseAfter]
    exact h.lease
  refine purgeOk_of_machine h.purges hla (h.bound_le.trans hle) hso hdb' hco' ?_ ?_
  · rw [hva, hme]
    exact hfi
  · rw [hva]
    exact fun c hc => (hca c hc).mono hle le_rfl fun _ _ hi => hi

theorem PurgeOk.capture (h : PurgeOk log s bound) :
    PurgeOk log { s with
      captures :=
        s.captures ++ [⟨s.machine.lastApplied, [.stateMachine, .stateMachineMeta]⟩] } bound := by
  obtain ⟨db, cf, metaCf, hdb, hcov, hfi, hca⟩ := h.store
  refine ⟨h.purges, h.bound_le, h.lease, db, cf, metaCf, hdb, hcov, hfi, fun c hc => ?_⟩
  rcases List.mem_append.mp hc with hold | hnew
  · exact hca c hold
  · rw [List.mem_singleton.mp hnew]
    exact .started _ le_rfl

theorem PurgeOk.flushCf (h : PurgeOk log s bound) {cf : CfName}
    (heq : s.machine.flushCf cf = some machine) : PurgeOk log { s with machine } bound := by
  obtain ⟨db, values, metadata, hdb, hcov, hfi, hca⟩ := h.store
  rw [RocksDBStateMachine.flushCf, hdb] at heq
  cases heq
  obtain ⟨values', metadata', hco', hfi', hke, -, -⟩ :=
    hcov.flushCf_holds h.bound_le hfi cf
  refine ⟨h.purges, h.bound_le, h.lease, _, values', metadata', rfl, hco', hfi', ?_⟩
  exact fun c hc => (hca c hc).mono le_rfl le_rfl hke

/-- A capture that has flushed its last column family raises the bound to its boundary. -/
theorem PurgeOk.advance (h : PurgeOk log s bound) {call : Nat} {boundary : LogId} {cf : CfName}
    {rest : List CfName} (hcl : s.captures[call]? = some ⟨boundary, cf :: rest⟩)
    (heq : s.machine.flushCf cf = some machine) :
    ∃ bound, PurgeOk log
      { s with machine, captures := s.captures.set call ⟨boundary, rest⟩ } bound := by
  obtain ⟨db, values, metadata, hdb, hcov, hfi, hca⟩ := h.store
  rw [RocksDBStateMachine.flushCf, hdb] at heq
  cases heq
  obtain ⟨values', metadata', hco', hfi', hke, hva, hme⟩ :=
    hcov.flushCf_holds h.bound_le hfi cf
  have hold : ∀ bound', bound ≤ bound' → ∀ c ∈ s.captures,
      CaptureOk log values'.flushed s.machine.lastApplied.index bound' c :=
    fun bound' hle c hc => (hca c hc).mono le_rfl hle hke
  cases hca _ (List.mem_of_getElem? hcl) with
  | started _ hle =>
    refine ⟨bound, h.purges, h.bound_le, h.lease, _, values', metadata', rfl, hco', hfi',
      fun c hc => ?_⟩
    rcases List.mem_or_eq_of_mem_set hc with hmem | rfl
    · exact hold bound le_rfl c hmem
    · exact .halfway boundary hle ((hva rfl).mono hle)
  | halfway _ hle hin =>
    obtain ⟨hsa, hidx⟩ := hme rfl
    have hbo : FilesHold log values'.flushed metadata'.flushed boundary.index :=
      ⟨hsa ▸ hin, hle.trans hidx⟩
    refine ⟨max bound boundary.index, h.purges.mono (le_max_left _ _), max_le h.bound_le hle,
      h.lease, _, values', metadata', rfl, hco', ?_, fun c hc => ?_⟩
    · rcases max_choice bound boundary.index with hmax | hmax
      · rw [hmax]
        exact hfi'
      · rw [hmax]
        exact hbo
    · rcases List.mem_or_eq_of_mem_set hc with hmem | rfl
      · exact hold _ (le_max_left _ _) c hmem
      · exact .finished boundary (le_max_right _ _)

theorem PurgeOk.restart (h : PurgeOk log s bound) {boot : Boot}
    (hfn : FindsFlushed log s (.restart boot)) (heq : s.machine.survivor = some machine)
    (hbo : (boot.boundary.map LogId.index).getD 0 ≤ s.node.log.lastPurgedIndex) :
    PurgeOk log ⟨s.node.restart boot, machine, []⟩ bound := by
  obtain ⟨db, cf, metaCf, hdb, hcov, hfi, -⟩ := h.store
  have hse : cf.flushedSeqno = metaCf.flushedSeqno := by
    simpa [FindsFlushed, RocksDBStateMachine.flushedSeqno, hdb, hcov.stateMachineCf,
      hcov.stateMachineMetaCf] using hfn
  rw [survivor_eq hdb hcov] at heq
  cases heq
  refine ⟨⟨fun _ hid => ?_, ?_, fun _ he => ?_⟩, hfi.metadata, rfl, db.crash, cf.crash,
    metaCf.crash, rfl, hcov.crash hse, ⟨hfi.values, hfi.metadata⟩, fun c hc => ?_⟩
  · rw [Node.restart, Node.build] at hid
    split_ifs at hid <;> cases hid
  · have hpu : (s.node.restart boot).log.lastPurgedIndex =
        (boot.boundary.map LogId.index).getD 0 := by
      rw [Node.restart, Node.build]
      split_ifs <;> rfl
    rw [hpu]
    exact hbo.trans h.purges.purged
  · rw [Node.restart, Node.build] at he
    split_ifs at he <;> cases he
  · cases hc

theorem purgeOk_of_step (h : PurgeOk log s bound) {l : PurgingLabel} (hfi : FindsFlushed log s l)
    (hst : s.step log l = some t) : ∃ bound, PurgeOk log t bound := by
  cases l with
  | node =>
    simp only [PurgingNode.step, Option.ite_none_right_eq_some, Option.map_eq_some_iff] at hst
    obtain ⟨hco, node, hno, rfl⟩ := hst
    exact ⟨bound, h.node hco hno⟩
  | install =>
    simp only [PurgingNode.step] at hst
    split at hst
    · cases hst
    · next node hno =>
        split_ifs at hst
        cases hst
        exact h.install hfi hno
  | applyChunk =>
    simp only [PurgingNode.step] at hst
    split at hst
    · cases hst
    · next results machine heq =>
        cases hst
        exact ⟨bound, h.applyChunk heq⟩
  | capture =>
    cases hst
    exact ⟨bound, h.capture⟩
  | advance =>
    simp only [PurgingNode.step] at hst
    split at hst
    · next boundary cf rest hca =>
        obtain ⟨machine, heq, rfl⟩ := Option.map_eq_some_iff.mp hst
        exact h.advance hca heq
    · cases hst
  | flushCf =>
    obtain ⟨machine, heq, rfl⟩ := Option.map_eq_some_iff.mp hst
    exact ⟨bound, h.flushCf heq⟩
  | restart =>
    simp only [PurgingNode.step] at hst
    split at hst
    · cases hst
    · next machine heq =>
        split_ifs at hst with hbo
        cases hst
        exact ⟨bound, h.restart hfi heq hbo.2⟩

/-- In every run in which snapshots, installations and crashes find the files as they have to,
what a crash leaves holds every entry that the node has purged. -/
theorem purged_survives (hs : (purgingRuns myId log).Reach (FindsFlushed log) s) :
    s.machine.Survives log s.node.log.lastPurgedIndex := by
  obtain ⟨bound, h⟩ : ∃ bound, PurgeOk log s bound := by
    apply hs.invariant
    · exact fun u hin => ⟨log.start.index, purgeOk_init hin⟩
    · rintro u l v ⟨bound, hu⟩ hfn hst
      exact purgeOk_of_step hu hfn hst
  obtain ⟨db, cf, metaCf, hdb, hco, hfi, -⟩ := h.store
  exact survives_of_filesHold hdb hco (hfi.mono h.purges.purged)

end Steps

/-! ## Runs -/

/-- A node that has nothing stored, over an empty state machine. -/
def firstPurging : PurgingNode 1 :=
  ⟨Node.firstStart .small .trio, (RocksHost.start firstInsert ⟨none, none⟩).machine, []⟩

theorem firstPurging_init : (purgingRuns 1 firstInsert).init firstPurging :=
  ⟨Node.init_firstStart .small .trio, le_rfl, rfl, ⟨none, none⟩, rfl, rfl⟩

/-- The node takes over two committed entries. -/
def followRun : List PurgingLabel :=
  [.node (.arrive (.appendEntries ⟨1, 2, 0, 0, [⟨1, 1, none⟩, ⟨2, 1, none⟩], 2⟩)),
    .node .recvInbound, .node (.flush {}), .node (.inboundEvent {}), .node .nextRound,
    .node .recvInternal, .node (.internalEvent {}), .node (.internalEvent {}), .node (.flush {}),
    .node .nextRound]

/-- The first entry is applied and captured, the second one stays in the memtables. -/
def captureRun : List PurgingLabel :=
  followRun ++ [.applyChunk id 1, .capture, .advance 0, .applyChunk id 1, .advance 0,
    .node (.push (.snapshotCreated (some ⟨1, 1⟩))), .node .recvInternal, .node (.internalEvent {})]

theorem captured_purge_survives :
    ∃ s, (purgingRuns 1 firstInsert).Reach (FindsFlushed firstInsert) s ∧
      s.node.log.lastPurgedIndex = 1 ∧ s.machine.lastAppliedIndex = 2 ∧
      s.machine.Survives firstInsert 1 := by
  have hre : ∃ s, (purgingRuns 1 firstInsert).Reach (FindsFlushed firstInsert) s ∧
      (s.node.log.lastPurgedIndex = 1 ∧ s.machine.lastAppliedIndex = 2) :=
    Machine.exists_reach_of_runIf captureRun firstPurging_init (by decide +kernel)
  obtain ⟨s, hs, hpu, hla⟩ := hre
  refine ⟨s, hs, hpu, hla, ?_⟩
  have hsu := purged_survives hs
  rwa [hpu] at hsu

/-- Both entries are applied, and nothing is flushed. Then a snapshot of the first one is pushed
and ignored. -/
def ignoredRun : List PurgingLabel :=
  followRun ++ [.applyChunk id 2, .node (.arrive (.installSnapshotChunk (some ⟨1, 2⟩))),
    .node .recvInbound, .node (.flush {}),
    .install {} ⟨some ⟨1, 1⟩, true, ∅, ⟨none, none⟩, none⟩ none]

/-- A snapshot that is ignored, and a purge behind it. -/
theorem ignored_snapshot_purges_unflushed :
    ∃ s, (purgingRuns 1 firstInsert).Reach (fun _ _ => True) s ∧
      s.node.log.lastPurgedIndex = 2 ∧
      (s.machine.survivor.map fun left => (left.lastAppliedIndex, left.values.toList)) =
        some (0, []) ∧
      ¬ s.machine.Survives firstInsert 2 := by
  have hre : ∃ s, (purgingRuns 1 firstInsert).Reach (fun _ _ => True) s ∧
      (s.node.log.lastPurgedIndex = 2 ∧
        (s.machine.survivor.map fun left => (left.lastAppliedIndex, left.values.toList)) =
          some (0, [])) :=
    Machine.exists_reach_of_runIf ignoredRun firstPurging_init (by decide +kernel)
  obtain ⟨s, hs, hpu, hlf⟩ := hre
  refine ⟨s, hs, hpu, hlf, ?_⟩
  rintro ⟨left, hsu, -, hle⟩
  rw [Option.mem_def.mp hsu] at hlf
  have hin : left.lastAppliedIndex = 0 := congrArg Prod.fst (Option.some.inj hlf)
  omega

end DEngine.Adaptors

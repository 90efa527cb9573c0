import DEngine.Adaptors.FileFormat
import DEngine.Library.Transition

/-!
# Snapshots of the file state machine

`capture_local_snapshot` runs in a task of its own. It reads the last applied
identity, which becomes the boundary of the snapshot, and copies the values later.
The worker applies chunks meanwhile: a chunk is evaluated, its values are updated
under the lock, and the last applied identity moves behind that.

## Implementation notes

The labels interleave these steps. Any number of captures may run; the locks of the
worker allow one at a time. A capture that fails is one that never copies. Both
halves of the last applied identity are stored and loaded together. The worker stops
at a chunk that fails.
-/

namespace DEngine.Adaptors

open Apply Library Library.Framing

/-- Committed entries whose keys and values fit into the fields of a snapshot. -/
structure SizedLog extends EntryLog where
  sized : ∀ e ∈ entries, CommandFits e.command

/-- A running or finished `capture_local_snapshot`: its boundary, and the bytes it returned. -/
structure FileSnapshot where
  lastIncluded : LogId
  image : Option Bytes

/-- A call of `apply_chunk` between its steps. -/
inductive FileApplying where
  | evaluated (clock : ApplyClock) (chunk : List ApplyEntry) (highest : Option LogId)
      (outcomes : List Bool)
  | updated (clock : ApplyClock) (chunk : List ApplyEntry) (highest : Option LogId)
  | failed

structure FileWorker where
  machine : FileStateMachine
  applying : Option FileApplying
  captures : List FileSnapshot

inductive FileWorkerLabel where
  /-- `apply_chunk` begins: it checks the order of the next entries and evaluates them. -/
  | evaluate (clock : ApplyClock) (count : Nat)
  | update
  | finish
  /-- `capture_local_snapshot` begins and reads the last applied identity. -/
  | capture
  /-- `generate_snapshot_data` copies the values and returns. -/
  | copy (task : Nat) (leaseSnapshot : Bytes)

namespace FileWorker

variable (log : SizedLog)

def evaluate (s : FileWorker) (clock : ApplyClock) (chunk : List ApplyEntry) : FileWorker :=
  match chunk.foldlM nextHighest none with
  | .error _ => { s with applying := some .failed }
  | .ok highest =>
    { s with
      applying := some (.evaluated clock chunk highest
        (s.machine.evaluateChunk clock.encodedAt chunk).1) }

def step (s : FileWorker) : FileWorkerLabel → Option FileWorker
  | .evaluate clock count =>
    match s.applying with
    | some _ => none
    | none => some (s.evaluate clock ((log.behind s.machine.lastAppliedIndex).take count))
  | .update =>
    match s.applying with
    | some (.evaluated clock chunk highest outcomes) =>
      match s.machine.updateChunk clock.registeredAt chunk outcomes with
      | .error _ => some { s with applying := some .failed }
      | .ok (_, machine) =>
        some { s with machine, applying := some (.updated clock chunk highest) }
    | _ => none
  | .finish =>
    match s.applying with
    | some (.updated clock chunk highest) =>
      some { s with
        machine := (s.machine.finishChunk clock.sinceCheckpointSecs highest chunk.length).1
        applying := none }
    | _ => none
  | .capture => some { s with captures := s.captures ++ [⟨s.machine.lastApplied, none⟩] }
  | .copy task leaseSnapshot =>
    match s.captures[task]? with
    | some ⟨lastIncluded, none⟩ =>
      if Sized leaseSnapshot then
        some { s with
          captures := s.captures.set task
            ⟨lastIncluded, some (FileStateMachine.snapshotBin s.machine.data leaseSnapshot)⟩ }
      else none
    | _ => none

/-- A worker over the values in front of the entries. -/
def start (data : FileData) : FileWorker where
  machine := ⟨data, some .empty, log.start.index, log.start.term, 0⟩
  applying := none
  captures := []

end FileWorker

/-- The runs of the worker and of the captures of a file state machine. -/
def fileCaptures (log : SizedLog) : Machine FileWorker FileWorkerLabel where
  init s := ∃ data : FileData, DataFits data ∧ data.mapValues Prod.fst = log.base ∧
    s = .start log data
  step := FileWorker.step log

/-- The image holds the values behind the entries up to the boundary. -/
def FileSnapshot.Exact (log : SizedLog) (snapshot : FileSnapshot) : Prop :=
  ∀ image ∈ snapshot.image,
    (FileStateMachine.parseSnapshot image).mapValues Prod.fst =
      log.stateAt snapshot.lastIncluded.index
deriving Decidable

/-- Values are updated while no capture is between its boundary and its copy, and a capture
does not begin between the update of a chunk and its last applied identity. -/
def FileUndisturbed (s : FileWorker) : FileWorkerLabel → Prop
  | .update => ∀ snapshot ∈ s.captures, snapshot.image.isSome
  | .capture => ¬(s.applying matches some (.updated _ _ _))
  | _ => True

instance (s : FileWorker) (l : FileWorkerLabel) : Decidable (FileUndisturbed s l) := by
  cases l <;> dsimp only [FileUndisturbed] <;> infer_instance

/-! ## Steps -/

section Steps

variable {log : SizedLog} {s t : FileWorker}

theorem SizedLog.entryFits {e : ApplyEntry} (h : e ∈ log.entries) : EntryFits e :=
  ⟨(log.fits e h).1, (log.fits e h).2, log.sized e h⟩

/-- Where the values of the machine stand, given the call that is under way. -/
def ValuesAt (log : SizedLog) (sm : FileStateMachine) : Option FileApplying → Prop
  | none => sm.values = log.stateAt sm.lastAppliedIndex
  | some (.evaluated _ chunk highest outcomes) =>
    sm.values = log.stateAt sm.lastAppliedIndex ∧
      (∃ rest, log.behind sm.lastAppliedIndex = chunk ++ rest) ∧
      highest = highestAfter none chunk ∧
      outcomes = (serialRun withTerm Prod.fst sm.data chunk).1
  | some (.updated _ chunk highest) =>
    sm.values = log.stateAt (indexAfter sm.lastAppliedIndex chunk) ∧
      highest = highestAfter none chunk
  | some .failed => sm.values = log.stateAt sm.lastAppliedIndex

/-- A capture holds the values of its boundary, or will copy them. -/
def SnapshotOk (log : SizedLog) (sm : FileStateMachine) (snapshot : FileSnapshot) : Prop :=
  match snapshot.image with
  | none => sm.values = log.stateAt snapshot.lastIncluded.index
  | some image =>
    (FileStateMachine.parseSnapshot image).mapValues Prod.fst =
      log.stateAt snapshot.lastIncluded.index

structure WorkerOk (log : SizedLog) (s : FileWorker) : Prop where
  lease : s.machine.lease.isSome
  fits : DataFits s.machine.data
  values : ValuesAt log s.machine s.applying
  captures : ∀ snapshot ∈ s.captures, SnapshotOk log s.machine snapshot

theorem workerOk_start {data : FileData} (hfi : DataFits data)
    (hba : data.mapValues Prod.fst = log.base) : WorkerOk log (.start log data) where
  lease := rfl
  fits := hfi
  values := hba.trans EntryLog.stateAt_start.symm
  captures := nofun

theorem WorkerOk.evaluate (h : WorkerOk log s) (hid : s.applying = none) (clock : ApplyClock)
    (count : Nat) :
    WorkerOk log (s.evaluate clock ((log.behind s.machine.lastAppliedIndex).take count)) := by
  have hva : s.machine.values = log.stateAt s.machine.lastAppliedIndex := by
    have := h.values
    rwa [hid] at this
  rw [FileWorker.evaluate, foldlM_nextHighest (EntryLog.ascending_take _ count) (by simp)]
  refine ⟨h.lease, h.fits, ⟨hva, ?_, rfl, ?_⟩, h.captures⟩
  · exact ⟨_, (List.take_append_drop count _).symm⟩
  · exact FileStateMachine.evaluateChunk_outcomes s.machine clock.encodedAt _

theorem WorkerOk.update (h : WorkerOk log s) (hco : FileUndisturbed s .update)
    (hst : s.step log .update = some t) : WorkerOk log t := by
  obtain ⟨hls, hfi, hva, hca⟩ := h
  rw [FileWorker.step] at hst
  split at hst
  · next clock chunk highest outcomes happ =>
      rw [happ] at hva
      obtain ⟨hat, ⟨rest, hnx⟩, hhi, hou⟩ := hva
      have hre : ∀ e ∈ chunk, Registers s.machine.lease e :=
        fun e _ => registers_of_lease hls e
      have hen : ∀ e ∈ chunk, EntryFits e := fun e he =>
        SizedLog.entryFits (EntryLog.mem_of_behind hnx he)
      rw [hou, FileStateMachine.updateChunk_eq hre] at hst
      cases hst
      refine ⟨?_, hfi.serialRun hen, ⟨?_, hhi⟩, ?_⟩
      · exact (isSome_leaseAfter _ s.machine.lease chunk).trans hls
      · rw [EntryLog.stateAt_indexAfter hnx, ← hat, FileStateMachine.values,
          FileStateMachine.values, FileStateMachine.serialRun_values]
      · intro snapshot hmem
        have hok := hca snapshot hmem
        obtain ⟨image, him⟩ := Option.isSome_iff_exists.mp (hco snapshot hmem)
        simp only [SnapshotOk, him] at hok ⊢
        exact hok
  · cases hst

theorem WorkerOk.finish (h : WorkerOk log s) (hst : s.step log .finish = some t) :
    WorkerOk log t := by
  obtain ⟨hls, hfi, hva, hca⟩ := h
  rw [FileWorker.step] at hst
  split at hst
  · next clock chunk highest happ =>
      rw [happ] at hva
      obtain ⟨hat, rfl⟩ := hva
      have hda := @FileStateMachine.finishChunk_data s.machine clock.sinceCheckpointSecs
        (highestAfter none chunk) chunk.length
      have hid := congrArg LogId.index (@FileStateMachine.finishChunk_lastApplied s.machine
        clock.sinceCheckpointSecs (highestAfter none chunk) chunk.length)
      rw [highestAfter_getD, lastLogId_index] at hid
      have hmo := congrArg (KeyMap.mapValues Prod.fst) hda
      cases hst
      refine ⟨?_, ?_, ?_, fun snapshot hmem => ?_⟩
      · rwa [FileStateMachine.finishChunk_lease]
      · rwa [hda]
      · exact (hmo.trans hat).trans (congrArg log.stateAt hid.symm)
      · have hok := hca snapshot hmem
        unfold SnapshotOk at hok ⊢
        rwa [FileStateMachine.values, hmo]
  · cases hst

theorem WorkerOk.capture (h : WorkerOk log s) (hco : FileUndisturbed s .capture) :
    WorkerOk log { s with captures := s.captures ++ [⟨s.machine.lastApplied, none⟩] } := by
  obtain ⟨hls, hfi, hva, hca⟩ := h
  refine ⟨hls, hfi, hva, fun snapshot hmem => ?_⟩
  rcases List.mem_append.mp hmem with hold | hnew
  · exact hca snapshot hold
  · cases List.mem_singleton.mp hnew
    change s.machine.values = log.stateAt s.machine.lastAppliedIndex
    rw [FileUndisturbed] at hco
    unfold ValuesAt at hva
    split at hva
    · exact hva
    · exact hva.1
    · next happ => exact absurd (by rw [happ]) hco
    · exact hva

theorem WorkerOk.copy (h : WorkerOk log s) {task : Nat} {leaseSnapshot : Bytes}
    (hst : s.step log (.copy task leaseSnapshot) = some t) : WorkerOk log t := by
  obtain ⟨hls, hfi, hva, hca⟩ := h
  simp only [FileWorker.step] at hst
  split at hst
  · next lastIncluded hta =>
      split_ifs at hst with hsi
      cases hst
      refine ⟨hls, hfi, hva, fun snapshot hmem => ?_⟩
      rcases List.mem_or_eq_of_mem_set hmem with hold | rfl
      · exact hca snapshot hold
      · have hok := hca _ (List.mem_of_getElem? hta)
        simp only [SnapshotOk] at hok ⊢
        rw [FileStateMachine.parseSnapshot_snapshotBin hfi hsi]
        exact hok
  · cases hst

theorem WorkerOk.step (h : WorkerOk log s) {l : FileWorkerLabel} (hco : FileUndisturbed s l)
    (hst : s.step log l = some t) : WorkerOk log t := by
  cases l with
  | evaluate clock count =>
    simp only [FileWorker.step] at hst
    split at hst
    · cases hst
    · next hid =>
        cases hst
        exact h.evaluate hid clock count
  | update => exact h.update hco hst
  | finish => exact h.finish hst
  | capture =>
    cases hst
    exact h.capture hco
  | copy => exact h.copy hst

theorem exact_of_fileCaptures (h : (fileCaptures log).Reach FileUndisturbed s)
    {snapshot : FileSnapshot} (hmem : snapshot ∈ s.captures) : snapshot.Exact log := by
  have hok : WorkerOk log s := by
    refine h.invariant ?_ ?_
    · rintro s ⟨data, hfi, hba, rfl⟩
      exact workerOk_start hfi hba
    · exact fun s l t hs hco hst => hs.step hco hst
  intro image him
  have hsn := hok.captures snapshot hmem
  rw [Option.mem_def] at him
  simpa only [SnapshotOk, him] using hsn

end Steps

end DEngine.Adaptors

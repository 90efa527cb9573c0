import DEngine.Apply.ExactlyOnce
import DEngine.Library.History
import DEngine.Raft.Node

/-!
# Entries behind an installed snapshot

The commit handler and the main loop share the queue of the state machine worker:
the one sends chunks of entries, the other snapshots to install. The handler computes
its range from the applied index, reads the entries and sends them, and an install may
take effect anywhere in between. The worker applies whatever it finds in the queue, so
entries that the snapshot covers overwrite it if they are still on their way.

## Implementation notes

The handler and the worker are those of `Pipeline`; what the handler sends goes on to
the shared queue at once, so that `commands` is empty between two steps. The range is
computed in one step and the entries are read in another, from the log as it is then,
which may have been purged. Captures of local snapshots only read the state machine and
are left out, and so is the lock that they share with installs.
-/

namespace DEngine.Apply

open Library Storage
open Raft (InternalEvent NewCommitData SnapshotApplyResult)

/-! ## The shared queue -/

inductive WorkerCommand where
  | applyEntries (entries : List Entry)
  | installSnapshot (lastIncluded : LogId)
deriving DecidableEq

/-- What happens to the state machine. -/
inductive MachineEvent where
  | passed (entries : List ApplyEntry)
  /-- An install returned `Applied`. -/
  | installed (lastIncluded : LogId)
deriving DecidableEq

structure InstallPipeline where
  tasks : Pipeline
  /-- The pending range whose entries the handler has still to read. -/
  range : Option (Nat × Nat) := none
  queue : List WorkerCommand := []
  /-- The snapshot that the worker is installing. -/
  installing : Option LogId := none
  /-- The newest event first. -/
  journal : List MachineEvent := []
deriving DecidableEq

inductive InstallLabel where
  | announce (data : NewCommitData)
  | recv
  | read (log : { log : BufferedRaftLog // log.WellFormed })
  | handle
  | configured (result : Except Fault Unit)
  /-- The main loop sends a snapshot to the worker. -/
  | submit (lastIncluded : LogId)
  | take
  | applyReturned (outcome : ApplyOutcome)
  | installReturned (restored : Except Fault Unit)
  | shutdown
  | handlerStops
  | workerStops

/-- The decision of `apply_snapshot_from_file`, given how the restore ends. -/
def applySnapshotFromFile (current incoming : LogId) (restored : Except Fault Unit) :
    Except Fault SnapshotApplyResult :=
  if incoming.index < current.index then .ok (.ignoredStale current)
  else if incoming.index = current.index then
    if incoming.term = current.term then .ok (.ignoredDuplicate current)
    else .error .boundaryConflict
  else
    match restored with
    | .ok () => .ok (.applied incoming)
    | .error fault => .error fault

theorem applySnapshotFromFile_applied {current incoming lastIncluded : LogId}
    {restored : Except Fault Unit}
    (h : applySnapshotFromFile current incoming restored = .ok (.applied lastIncluded)) :
    incoming = lastIncluded ∧ current.index < incoming.index := by
  unfold applySnapshotFromFile at h
  split at h
  · cases h
  · split_ifs at h
    · cases h
    · split at h <;> cases h
      exact ⟨rfl, by omega⟩

namespace InstallPipeline

/-- A handler step, with what it sent moved to the shared queue. -/
def sent (s : InstallPipeline) (tasks : Pipeline) : InstallPipeline :=
  { s with
    tasks := { tasks with commands := [] }
    queue := s.queue ++ tasks.commands.map .applyEntries }

/-- A worker that has stopped leaves nothing in its queue. -/
def closed (s : InstallPipeline) : InstallPipeline :=
  if s.tasks.worker = .stopped then { s with queue := [] } else s

/-- The worker takes a chunk from the front of the queue. -/
def tookChunk (setup : Setup) (s : InstallPipeline) (chunk : List Entry)
    (rest : List WorkerCommand) : InstallPipeline :=
  let tasks := s.tasks.takeChunk setup chunk []
  closed { s with
    tasks := tasks
    queue := rest
    journal :=
      match tasks.worker with
      | .applying entries _ => .passed entries :: s.journal
      | _ => s.journal }

/-- `install_prepared_snapshot` returns. -/
def installReturned (s : InstallPipeline) (incoming : LogId) (restored : Except Fault Unit) :
    InstallPipeline :=
  match applySnapshotFromFile s.tasks.stateMachine.lastApplied incoming restored with
  | .ok (.applied lastIncluded) =>
    { s with
      tasks := { s.tasks with
        stateMachine.lastApplied := lastIncluded
        applied := advance s.tasks.applied lastIncluded.index }
      installing := none
      journal := .installed lastIncluded :: s.journal }
  | _ => { s with installing := none }

def step (setup : Setup) (s : InstallPipeline) : InstallLabel → Option InstallPipeline
  | .announce data =>
    some { s with tasks := { s.tasks with
      newCommits := s.tasks.newCommits ++ [data]
      committed := max s.tasks.committed data.newCommitIndex } }
  | .recv =>
    match s.tasks.handler, s.range, s.tasks.newCommits with
    | .waiting, none, data :: rest =>
      let tasks := s.tasks.received setup data rest
      some { s with tasks := tasks, range := pendingRange tasks.applied tasks.pendingCommit }
    | _, _, _ => none
  | .read log =>
    match s.range with
    | some (lo, hi) =>
      some { s with
        range := none
        tasks := { s.tasks with handler := .processing (log.1.getEntriesRange lo hi) [] none } }
    | none => none
  | .handle =>
    match s.tasks.handler with
    | .processing (entry :: rest) commandBatch lastError =>
      some (s.sent (s.tasks.handleEntry entry rest commandBatch lastError))
    | .processing [] commandBatch lastError =>
      some (s.sent (s.tasks.endBatch commandBatch lastError))
    | _ => none
  | .configured result =>
    match s.tasks.handler with
    | .changing entry rest => some (s.sent (s.tasks.configApplied setup entry rest result))
    | _ => none
  | .submit lastIncluded =>
    if s.tasks.worker ≠ .stopped then
      some { s with queue := s.queue ++ [.installSnapshot lastIncluded] }
    else none
  | .take =>
    match s.tasks.worker, s.installing, s.queue with
    | .waiting, none, .applyEntries chunk :: rest => some (s.tookChunk setup chunk rest)
    | .waiting, none, .installSnapshot lastIncluded :: rest =>
      some { s with queue := rest, installing := some lastIncluded }
    | _, _, _ => none
  | .applyReturned outcome =>
    match s.tasks.worker with
    | .applying entries lastIndex =>
      some (closed { s with tasks := s.tasks.chunkReturned entries lastIndex outcome })
    | _ => none
  | .installReturned restored =>
    match s.installing with
    | some incoming => some (s.installReturned incoming restored)
    | none => none
  | .shutdown => some { s with tasks := { s.tasks with shutdown := true } }
  | .handlerStops =>
    if s.tasks.handler = .waiting ∧ s.range = none ∧ s.tasks.shutdown then
      some { s with tasks := { s.tasks with handler := .stopped } }
    else none
  | .workerStops =>
    if s.tasks.worker = .waiting ∧ s.installing = none ∧ s.queue = [] ∧ s.tasks.shutdown then
      some { s with tasks := { s.tasks with worker := .stopped } }
    else none

end InstallPipeline

/-- The commit handler, the worker and the main loop's snapshots of a node. -/
def installLoop (setup : Setup) : Machine InstallPipeline InstallLabel where
  init s := ∃ term, s = { tasks := Pipeline.atStart setup term }
  step := InstallPipeline.step setup

/-! ## What an install may overtake -/

def WorkerCommand.entries : WorkerCommand → List Entry
  | .applyEntries entries => entries
  | .installSnapshot _ => []

namespace InstallPipeline

/-- The entries that the handler has read or sent and that the state machine was not given. -/
def onTheWay (s : InstallPipeline) : List Entry :=
  s.tasks.handler.entries ++ s.queue.flatMap WorkerCommand.entries

/-- No entry up to the index is on its way, nor about to be read. -/
@[mk_iff]
structure NoneBelow (s : InstallPipeline) (i : Nat) : Prop where
  onTheWay : ∀ e ∈ s.onTheWay, i < e.index
  range : ∀ range ∈ s.range, i < range.1

instance (s : InstallPipeline) (i : Nat) : Decidable (s.NoneBelow i) :=
  decidable_of_iff' _ (noneBelow_iff s i)

/-- An install that takes effect finds no entry that it covers on its way. -/
def InstallsApart (s : InstallPipeline) : InstallLabel → Prop
  | .installReturned restored =>
    ∀ incoming ∈ s.installing, s.tasks.stateMachine.lastApplied.index < incoming.index →
      restored = .ok () → s.NoneBelow incoming.index
  | _ => True

instance (s : InstallPipeline) (l : InstallLabel) : Decidable (s.InstallsApart l) := by
  cases l <;> dsimp only [InstallsApart] <;> infer_instance

/-- The state machine is given only entries that no earlier install covers. -/
def PassedBehind (event : MachineEvent) (earlier : List MachineEvent) : Prop :=
  ∀ entries, event = .passed entries → ∀ id, .installed id ∈ earlier →
    ∀ e ∈ entries, id.index < e.index

/-- Once an install has returned `Applied`, no entry that it covers is applied, and the applied
index stays at or behind it. -/
structure KeepsInstalled (s : InstallPipeline) : Prop where
  passed : Justified PassedBehind s.journal
  lastApplied : ∀ id, .installed id ∈ s.journal →
    id.index ≤ s.tasks.stateMachine.lastApplied.index

/-! ## The invariant -/

/-- Everything between the log and the state machine lies behind the index. -/
structure Behind (s : InstallPipeline) (i : Nat) : Prop where
  none : s.NoneBelow i
  applied : i ≤ s.tasks.applied
  lastApplied : i ≤ s.tasks.stateMachine.lastApplied.index
  applying : ∀ entries lastIndex, s.tasks.worker = .applying entries lastIndex →
    ∀ e ∈ entries, i < e.index

/-- The handler works on what it has read; the state machine is left alone. -/
structure Moves (tasks tasks' : Pipeline) : Prop where
  onTheWay : tasks'.onTheWay ⊆ tasks.handler.entries
  applied : tasks'.applied = tasks.applied
  stateMachine : tasks'.stateMachine = tasks.stateMachine
  worker : tasks'.worker = tasks.worker

variable {s t : InstallPipeline} {setup : Setup} {tasks : Pipeline} {i : Nat}

theorem moves_handler (next : HandlerPhase) {events : List InternalEvent}
    (hse : tasks.commands = []) (hen : next.entries ⊆ tasks.handler.entries) :
    Moves tasks { tasks with handler := next, events } :=
  ⟨by simpa [Pipeline.onTheWay, hse] using hen, rfl, rfl, rfl⟩

theorem moves_sendThen {batch : List Entry} {next : HandlerPhase} (hse : tasks.commands = [])
    (hen : batch ++ next.entries ⊆ tasks.handler.entries) :
    Moves tasks (tasks.sendThen batch next) := by
  obtain ⟨rfl, heq⟩ | ⟨-, heq⟩ | ⟨-, -, heq⟩ := Pipeline.sendThen_cases tasks batch next
  all_goals rw [heq]
  · exact moves_handler next hse hen
  · exact moves_handler .waiting hse (List.nil_subset _)
  · exact ⟨by simpa [Pipeline.onTheWay, hse] using hen, rfl, rfl, rfl⟩

theorem moves_handleEntry {entry : Entry} {rest commandBatch : List Entry}
    {lastError : Option Fault} (hse : tasks.commands = [])
    (hhdl : tasks.handler = .processing (entry :: rest) commandBatch lastError) :
    Moves tasks (tasks.handleEntry entry rest commandBatch lastError) := by
  have hen : commandBatch ++ [entry] ++ rest ⊆ tasks.handler.entries := by
    rw [hhdl]
    simp [HandlerPhase.entries]
  unfold Pipeline.handleEntry
  split
  · apply moves_handler _ hse
    rw [hhdl]
    simp [HandlerPhase.entries]
  · exact moves_handler _ hse hen
  · apply moves_sendThen hse
    split_ifs <;> exact hen
  · exact moves_sendThen hse hen
  · exact moves_handler _ hse (List.nil_subset _)

theorem moves_endBatch {commandBatch : List Entry} {lastError : Option Fault}
    (hse : tasks.commands = []) (hhdl : tasks.handler = .processing [] commandBatch lastError) :
    Moves tasks (tasks.endBatch commandBatch lastError) := by
  cases lastError with
  | some => exact moves_handler .waiting hse (List.nil_subset _)
  | none =>
    apply moves_sendThen hse
    rw [hhdl]
    exact List.Subset.refl _

theorem moves_configApplied {entry : Entry} {rest : List Entry} (result : Except Fault Unit)
    (hse : tasks.commands = []) (hhdl : tasks.handler = .changing entry rest) :
    Moves tasks (tasks.configApplied setup entry rest result) := by
  obtain ⟨lastError, events, heq, -⟩ :=
    Pipeline.configApplied_eq setup tasks entry rest result
  rw [heq]
  apply moves_handler _ hse
  rw [hhdl]
  exact List.Subset.refl rest

/-! ## The steps -/

/-- Entries may leave the way to the state machine. -/
theorem Behind.fewer (h : s.Behind i) {queue : List WorkerCommand} {handler : HandlerPhase}
    {installing : Option LogId}
    (hen : handler.entries ++ queue.flatMap WorkerCommand.entries ⊆ s.onTheWay) :
    Behind { s with queue, installing, tasks := { s.tasks with handler } } i :=
  { h with none := ⟨fun e he => h.none.onTheWay e (hen he), h.none.range⟩ }

theorem Behind.sent (h : s.Behind i) (hmo : Moves s.tasks tasks) : (s.sent tasks).Behind i := by
  refine ⟨⟨fun e he => h.none.onTheWay e ?_, h.none.range⟩, ?_, ?_, ?_⟩
  · have hmv := @hmo.onTheWay e
    simp only [InstallPipeline.onTheWay, InstallPipeline.sent, Pipeline.onTheWay,
      List.flatMap_append, List.flatMap_map, List.mem_append, List.mem_flatMap,
      List.mem_flatten] at he hmv ⊢
    rcases he with hhdl | hqu | hnew
    · exact .inl (hmv (.inr hhdl))
    · exact .inr hqu
    · exact .inl (hmv (.inl hnew))
  · exact h.applied.trans hmo.applied.ge
  · change i ≤ tasks.stateMachine.lastApplied.index
    rw [hmo.stateMachine]
    exact h.lastApplied
  · intro entries lastIndex hwo
    exact h.applying entries lastIndex (hmo.worker ▸ hwo)

theorem Behind.closed (h : s.Behind i) : s.closed.Behind i := by
  unfold InstallPipeline.closed
  split_ifs
  · apply h.fewer
    rw [List.flatMap_nil, List.append_nil]
    exact List.subset_append_left _ _
  · exact h

theorem pendingRange_behind {applied pending : Nat} (h : i ≤ applied) :
    ∀ range ∈ pendingRange applied pending, i < range.1 := by
  unfold pendingRange
  split_ifs
  · rintro range ⟨⟩
    exact Nat.lt_succ_of_le h
  · exact nofun

/-- What is read lies in the range, whatever has become of the log. -/
theorem le_index_of_getEntriesRange {log : BufferedRaftLog} (h : log.WellFormed) {lo hi : Nat}
    {e : Entry} (he : e ∈ log.getEntriesRange lo hi) : lo ≤ e.index := by
  obtain ⟨⟨k, e⟩, hp, rfl⟩ := List.mem_map.mp he
  obtain ⟨hen, hle, -⟩ := (OrderedMap.mem_range_iff _ _ _ _ _).mp hp
  exact (h.entry_index k e hen).symm ▸ hle

theorem lastApplied_chunkReturned {entries : List ApplyEntry} (lastIndex : Option Nat)
    (outcome : ApplyOutcome) (h : i ≤ tasks.stateMachine.lastApplied.index)
    (hen : ∀ e ∈ entries, i < e.index) :
    i ≤ (tasks.chunkReturned entries lastIndex outcome).stateMachine.lastApplied.index := by
  have haf : i ≤ (Pipeline.lastAppliedAfter tasks.stateMachine.lastApplied entries).index := by
    unfold Pipeline.lastAppliedAfter
    cases hla : entries.getLast? with
    | none => exact h
    | some a => exact (hen a (List.mem_of_getLast? hla)).le
  cases outcome with
  | ok => exact haf
  | err updated =>
    cases updated with
    | true => exact haf
    | false => exact h

theorem applied_le_chunkReturned (entries : List ApplyEntry) (lastIndex : Option Nat)
    (outcome : ApplyOutcome) :
    tasks.applied ≤ (tasks.chunkReturned entries lastIndex outcome).applied := by
  cases outcome with
  | ok =>
    cases lastIndex with
    | none => exact le_rfl
    | some last =>
      change tasks.applied ≤ advance tasks.applied last
      unfold advance
      split_ifs with hlt
      · exact hlt.le
      · exact le_rfl
  | err => exact le_rfl

/-- Everything lies behind every install, and always did when entries were applied. -/
structure Guarded (s : InstallPipeline) : Prop where
  sent : s.tasks.commands = []
  /-- The worker does one thing at a time. -/
  idle : s.installing ≠ none → s.tasks.worker = .waiting
  passed : Justified PassedBehind s.journal
  behind : ∀ id, .installed id ∈ s.journal → s.Behind id.index

theorem Guarded.of_same (h : s.Guarded) (hse : t.tasks.commands = [])
    (hil : t.installing ≠ none → t.tasks.worker = .waiting) (hjo : t.journal = s.journal)
    (hbe : ∀ i, s.Behind i → t.Behind i) : t.Guarded where
  sent := hse
  idle := hil
  passed := hjo ▸ h.passed
  behind := fun id hid => hbe _ (h.behind id (hjo ▸ hid))

theorem Guarded.sent_tasks (h : s.Guarded) (hmo : Moves s.tasks tasks) : (s.sent tasks).Guarded :=
  h.of_same rfl (fun hi => hmo.worker.trans (h.idle hi)) rfl fun _ hi => hi.sent hmo

theorem Guarded.closed (h : s.Guarded) : s.closed.Guarded := by
  refine h.of_same ?_ ?_ ?_ fun i hi => hi.closed
  all_goals
    unfold InstallPipeline.closed
    split_ifs
  exacts [h.sent, h.sent, h.idle, h.idle, rfl, rfl]

theorem Guarded.tookChunk (h : s.Guarded) (hil : s.installing = none) {chunk : List Entry}
    {rest : List WorkerCommand} (hqu : s.queue = .applyEntries chunk :: rest) :
    (s.tookChunk setup chunk rest).Guarded := by
  have hre : ∀ i, s.Behind i → ∀ e ∈ s.tasks.handler.entries ++ rest.flatMap
      WorkerCommand.entries, i < e.index := by
    intro i hi e he
    apply hi.none.onTheWay e
    rw [InstallPipeline.onTheWay, hqu, List.flatMap_cons]
    rcases List.mem_append.mp he with hin | hin
    · exact List.mem_append_left _ hin
    · exact List.mem_append_right _ (List.mem_append_right _ hin)
  unfold InstallPipeline.tookChunk Pipeline.takeChunk
  apply Guarded.closed
  cases hde : decodeEntries setup.decode chunk with
  | error =>
    exact h.of_same rfl (absurd hil) rfl fun i hi =>
      { hi with none := ⟨hre i hi, hi.none.range⟩, applying := nofun }
  | ok entries =>
    have hnew : ∀ i, s.Behind i → ∀ a ∈ entries, i < a.index := by
      intro i hi a ha
      obtain ⟨e, he, hea⟩ := exists_of_mem_decodeEntries hde ha
      have hidx : a.index = e.index := congrArg LogId.index (logId_of_decodeEntry hea)
      rw [hidx]
      apply hi.none.onTheWay e
      rw [InstallPipeline.onTheWay, hqu, List.flatMap_cons]
      exact List.mem_append_right _ (List.mem_append_left _ he)
    refine ⟨rfl, absurd hil, justified_cons.mpr ⟨?_, h.passed⟩, fun id hid => ?_⟩
    · rintro passed heq id hid
      cases heq
      exact hnew _ (h.behind id hid)
    · have hmem : .installed id ∈ MachineEvent.passed entries :: s.journal := hid
      have hold := h.behind id ((List.mem_cons.mp hmem).resolve_left nofun)
      refine { hold with none := ⟨hre _ hold, hold.none.range⟩, applying := ?_ }
      rintro given lastIndex ⟨⟩
      exact hnew _ hold

theorem Guarded.installReturned (h : s.Guarded) {incoming : LogId} {restored : Except Fault Unit}
    (hin : s.installing = some incoming)
    (hco : s.tasks.stateMachine.lastApplied.index < incoming.index → restored = .ok () →
      s.NoneBelow incoming.index) : (s.installReturned incoming restored).Guarded := by
  have hwa : s.tasks.worker = .waiting := h.idle (by simp [hin])
  have hig : ({ s with installing := none } : InstallPipeline).Guarded :=
    h.of_same h.sent (absurd rfl) rfl fun _ hi => { hi with none := { hi.none with } }
  unfold InstallPipeline.installReturned applySnapshotFromFile
  by_cases hst : incoming.index < s.tasks.stateMachine.lastApplied.index
  · rw [if_pos hst]
    exact hig
  rw [if_neg hst]
  by_cases hsa : incoming.index = s.tasks.stateMachine.lastApplied.index
  · rw [if_pos hsa]
    split_ifs
    · exact hig
    · exact hig
  rw [if_neg hsa]
  have hnw : s.tasks.stateMachine.lastApplied.index < incoming.index := by omega
  cases restored with
  | error => exact hig
  | ok =>
    have hno := hco hnw rfl
    have had : s.tasks.applied ≤ advance s.tasks.applied incoming.index ∧
        incoming.index ≤ advance s.tasks.applied incoming.index := by
      unfold advance
      split_ifs <;> omega
    refine ⟨h.sent, absurd rfl, justified_cons.mpr ⟨nofun, h.passed⟩, fun id hid => ?_⟩
    rcases List.mem_cons.mp hid with heq | hold
    · cases heq
      refine ⟨{ hno with }, had.2, le_rfl, fun entries lastIndex hwo => ?_⟩
      cases hwa.symm.trans hwo
    · have hbe := h.behind id hold
      exact { hbe with
        none := { hbe.none with }
        applied := hbe.applied.trans had.1
        lastApplied := hbe.lastApplied.trans hnw.le }

theorem guarded_of_step {l : InstallLabel} (h : s.Guarded) (hco : s.InstallsApart l)
    (hst : s.step setup l = some t) : t.Guarded := by
  cases l
  all_goals simp only [step] at hst
  case announce data =>
    cases hst
    exact h.of_same h.sent h.idle rfl fun _ hi => { hi with none := { hi.none with } }
  case recv =>
    split at hst <;> cases hst
    exact h.of_same h.sent h.idle rfl fun _ hi =>
      { hi with none := ⟨hi.none.onTheWay, pendingRange_behind hi.applied⟩ }
  case read log =>
    split at hst <;> cases hst
    rename_i lo hi hra
    refine h.of_same h.sent h.idle rfl fun i hi => { hi with none := ⟨fun e he => ?_, by rintro _ ⟨⟩⟩ }
    rcases List.mem_append.mp he with hre | hqu
    · exact lt_of_lt_of_le (hi.none.range _ hra)
        (le_index_of_getEntriesRange log.2 (by simpa [HandlerPhase.entries] using hre))
    · exact hi.none.onTheWay e (List.mem_append_right _ hqu)
  case handle =>
    split at hst <;> cases hst
    · rename_i hhdl
      exact h.sent_tasks (moves_handleEntry h.sent hhdl)
    · rename_i hhdl
      exact h.sent_tasks (moves_endBatch h.sent hhdl)
  case configured result =>
    split at hst <;> cases hst
    rename_i hhdl
    exact h.sent_tasks (moves_configApplied result h.sent hhdl)
  case submit lastIncluded =>
    split_ifs at hst
    cases hst
    refine h.of_same h.sent h.idle rfl fun i hi => hi.fewer ?_
    simp [InstallPipeline.onTheWay, WorkerCommand.entries]
  case take =>
    split at hst <;> cases hst
    · rename_i chunk rest hwo hin hqu
      exact h.tookChunk hin hqu
    · rename_i lastIncluded rest hwo hin hqu
      refine h.of_same h.sent (fun _ => hwo) rfl fun i hi => hi.fewer ?_
      rw [InstallPipeline.onTheWay, hqu]
      exact List.Subset.refl _
  case applyReturned outcome =>
    split at hst <;> cases hst
    rename_i entries lastIndex hwo
    apply Guarded.closed
    refine h.of_same ?_ (fun hi => ?_) rfl fun i hi => ?_
    · cases outcome with
      | ok => exact h.sent
      | err => rfl
    · rw [h.idle hi] at hwo
      cases hwo
    · refine ⟨⟨fun e he => hi.none.onTheWay e ?_, hi.none.range⟩,
        hi.applied.trans (applied_le_chunkReturned entries lastIndex outcome),
        lastApplied_chunkReturned lastIndex outcome hi.lastApplied
          (hi.applying entries lastIndex hwo), ?_⟩
      · cases outcome <;> exact he
      · cases outcome <;> rintro _ _ ⟨⟩
  case installReturned restored =>
    split at hst <;> cases hst
    rename_i incoming hin
    exact h.installReturned hin (hco incoming hin)
  case shutdown =>
    cases hst
    exact h.of_same h.sent h.idle rfl fun _ hi => { hi with none := { hi.none with } }
  case handlerStops =>
    split_ifs at hst
    cases hst
    exact h.of_same h.sent h.idle rfl fun _ hi => hi.fewer (List.subset_append_right _ _)
  case workerStops =>
    split_ifs at hst with hsp
    cases hst
    exact h.of_same h.sent (absurd hsp.2.1) rfl fun _ hi =>
      { hi with none := { hi.none with }, applying := by rintro _ _ ⟨⟩ }

theorem guarded_of_init (h : (installLoop setup).init s) : s.Guarded := by
  obtain ⟨term, rfl⟩ := h
  exact ⟨rfl, absurd rfl, justified_nil, nofun⟩

end InstallPipeline

/-- In every run in which no install takes effect while entries that it covers are on their way,
what was installed is never overwritten. -/
theorem installed_kept_of_reach {setup : Setup} {s : InstallPipeline}
    (hs : (installLoop setup).Reach InstallPipeline.InstallsApart s) : s.KeepsInstalled := by
  have hgu : s.Guarded := hs.invariant (fun _ => InstallPipeline.guarded_of_init)
    fun _ _ _ h hco hst => InstallPipeline.guarded_of_step h hco hst
  exact ⟨hgu.passed, fun id hid => (hgu.behind id hid).lastApplied⟩

def threeLog : { log : BufferedRaftLog // log.WellFormed } :=
  ⟨Setup.threeEntries.log, Setup.threeEntries.wellFormed⟩

/-- A snapshot up to the second entry is installed before the third one is announced. -/
def installFirst : List InstallLabel :=
  [.submit ⟨1, 2⟩, .take, .installReturned (.ok ()), .announce ⟨3, .follower, 1⟩, .recv,
    .read threeLog, .handle, .handle, .take, .applyReturned .ok]

theorem installed_before_entries :
    ∃ s : InstallPipeline, (installLoop .threeEntries).Reach InstallPipeline.InstallsApart s ∧
      s.KeepsInstalled ∧
      s.journal = [.passed [⟨3, 1, .delete [3]⟩], .installed ⟨1, 2⟩] ∧
      s.tasks.stateMachine.lastApplied.index = 3 := by
  have hre : ∃ s : InstallPipeline,
      (installLoop .threeEntries).Reach InstallPipeline.InstallsApart s ∧
        (s.journal = [.passed [⟨3, 1, .delete [3]⟩], .installed ⟨1, 2⟩] ∧
          s.tasks.stateMachine.lastApplied.index = 3) :=
    Machine.exists_reach_of_runIf installFirst ⟨1, rfl⟩ (by decide +kernel)
  obtain ⟨s, hs, hjo, hla⟩ := hre
  exact ⟨s, hs, installed_kept_of_reach hs, hjo, hla⟩

/-- The handler has read the first two entries when a snapshot up to the third one reaches the
queue, and sends them behind it. -/
def installBetween : List InstallLabel :=
  [.announce ⟨2, .follower, 1⟩, .recv, .read threeLog, .submit ⟨1, 3⟩, .handle, .handle, .handle,
    .take, .installReturned (.ok ()), .take, .applyReturned .ok]

/-- The first entry is applied to the snapshot that covers it, and the applied index falls behind
the snapshot. -/
theorem covered_entry_applied_behind_install :
    ∃ s : InstallPipeline, (installLoop .threeEntries).Reach (fun _ _ => True) s ∧
      s.journal = [.passed [⟨1, 1, .noop⟩], .installed ⟨1, 3⟩] ∧
      s.tasks.stateMachine.lastApplied.index = 1 ∧ s.tasks.applied = 3 :=
  Machine.exists_reach_of_runIf installBetween ⟨1, rfl⟩ (by decide +kernel)

end DEngine.Apply

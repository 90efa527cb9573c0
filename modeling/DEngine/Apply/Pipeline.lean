import DEngine.Apply.Command
import DEngine.Library.Transition
import DEngine.Raft.Events
import DEngine.Storage.LogInvariant

/-!
# From the commit handler to the state machine

Two tasks carry committed entries to the state machine. The commit handler takes
the announced commit indexes, reads the entries behind the applied index and sends
them to a queue in chunks; it does not wait for them to be applied. The worker takes
one chunk after the other from the queue, applies it and advances the applied index.

## Implementation notes

A step runs one task up to its next wait: the handler waits for an announcement and
for the membership to change, the worker for a chunk and for the state machine. The
steps of the two tasks interleave freely. What the state machine and the membership
return is chosen by the label.

The entries that the handler reads are committed, so the log does not change under
it. Snapshot commands of the worker's queue are left out.
-/

namespace DEngine.Apply

open Library Storage
open Raft (NewCommitData InternalEvent)

/-! ## The committed log -/

/-- A log that holds every entry behind the index that the state machine starts from, up to the
last one that may be announced as committed. -/
structure CommittedLog where
  log : BufferedRaftLog
  start : Nat
  last : Nat
  wellFormed : log.WellFormed
  held : ∀ i, start < i → i ≤ last → ∃ e, log.entry i = some e

/-- What does not change while the two tasks run. -/
structure Setup extends CommittedLog where
  myId : Nat
  maxBatchSize : Nat
  decode : Bytes → Except String WriteCommand

/-! ## State -/

/-- What is seen of a state machine: the index that it reports as applied and the chunks that it
was given, in order. -/
structure StateMachine where
  lastApplied : LogId
  passed : List (List ApplyEntry)
deriving DecidableEq

/-- Where `run` of the commit handler stands. -/
inductive HandlerPhase where
  | waiting
  | processing (rest commandBatch : List Entry) (lastError : Option Fault)
  | changing (entry : Entry) (rest : List Entry)
  | stopped
deriving DecidableEq

/-- Where `run` of the worker stands. -/
inductive WorkerPhase where
  | waiting
  | applying (entries : List ApplyEntry) (lastIndex : Option Nat)
  | stopped
deriving DecidableEq

/-- The state of the two tasks and of what they share. -/
structure Pipeline where
  newCommits : List NewCommitData := []
  pendingCommit : Nat := 0
  applied : Nat
  handler : HandlerPhase := .waiting
  commands : List (List Entry) := []
  worker : WorkerPhase := .waiting
  stateMachine : StateMachine
  events : List InternalEvent := []
  shutdown : Bool := false
  /-- The highest commit index that was announced. -/
  committed : Nat := 0
deriving DecidableEq

/-- How `apply_chunk` of the state machine returns. A failure can come before or after the
applied index is set. -/
inductive ApplyOutcome where
  | ok
  | err (updated : Bool)
deriving DecidableEq, Repr

inductive Label where
  | announce (data : NewCommitData)
  | recv
  | handle
  | configured (result : Except Fault Unit)
  | take
  | applyReturned (outcome : ApplyOutcome)
  | shutdown
  | handlerStops
  | workerStops

/-! ## The commit handler -/

def updatePending (pendingCommit newCommit : Nat) : Nat :=
  if pendingCommit < newCommit then newCommit else pendingCommit

def pendingRange (lastApplied pendingCommit : Nat) : Option (Nat × Nat) :=
  if lastApplied < pendingCommit then some (lastApplied + 1, pendingCommit) else none

/-- The applied index only advances. -/
def advance (current next : Nat) : Nat := if current < next then next else current

def isSelfRemovalConfig (myId : Nat) (change : Option MembershipChange) : Bool :=
  match change with
  | some (.removeNode nodeId) => decide (nodeId = myId)
  | _ => false

/-- Take announcements from the queue until `room` is used up. -/
def drain : Nat → Nat → List NewCommitData → Nat × List NewCommitData
  | 0, pendingCommit, queue => (pendingCommit, queue)
  | _ + 1, pendingCommit, [] => (pendingCommit, [])
  | room + 1, pendingCommit, data :: rest =>
    drain room (updatePending pendingCommit data.newCommitIndex) rest

namespace Pipeline

/-- A batch that is not empty goes to the worker's queue, which is closed once the worker has
stopped. -/
def sendToSmWorker (s : Pipeline) (batch : List Entry) : Except Fault Pipeline :=
  if batch = [] then .ok s
  else if s.worker = .stopped then .error .workerUnavailable
  else .ok { s with commands := s.commands ++ [batch] }

/-- Send a batch and go on; an error ends the processing and is only logged. -/
def sendThen (s : Pipeline) (batch : List Entry) (next : HandlerPhase) : Pipeline :=
  match s.sendToSmWorker batch with
  | .error _ => { s with handler := .waiting }
  | .ok s => { s with handler := next }

/-- The first part of `process_batch`: find the range to process and read its entries. -/
def beginBatch (setup : Setup) (s : Pipeline) : Pipeline :=
  match pendingRange s.applied s.pendingCommit with
  | none => s
  | some (lo, hi) => { s with handler := .processing (setup.log.getEntriesRange lo hi) [] none }

/-- The announcements that one pass of the loop takes. The first one is taken in any case. -/
def received (setup : Setup) (s : Pipeline) (data : NewCommitData) (rest : List NewCommitData) :
    Pipeline :=
  let taken := drain (setup.maxBatchSize - 1)
    (updatePending s.pendingCommit data.newCommitIndex) rest
  { s with pendingCommit := taken.1, newCommits := taken.2 }

/-- One entry of the loop in `process_batch`. -/
def handleEntry (s : Pipeline) (entry : Entry) (rest commandBatch : List Entry)
    (lastError : Option Fault) : Pipeline :=
  match entry.payload with
  | none => { s with handler := .processing rest commandBatch lastError }
  | some ⟨some (.command _)⟩ =>
    { s with handler := .processing rest (commandBatch ++ [entry]) lastError }
  | some ⟨some (.config _)⟩ =>
    s.sendThen (commandBatch ++ [entry])
      (if lastError = none then .changing entry rest else .processing rest [] lastError)
  | some ⟨some .noop⟩ => s.sendThen (commandBatch ++ [entry]) (.processing rest [] lastError)
  -- `unreachable!()` takes the task down
  | some ⟨none⟩ => { s with handler := .stopped }

/-- The end of `process_batch`: the commands behind a failed change are not sent. -/
def endBatch (s : Pipeline) (commandBatch : List Entry) (lastError : Option Fault) : Pipeline :=
  match lastError with
  | some _ => { s with handler := .waiting }
  | none => s.sendThen commandBatch .waiting

/-- The end of `apply_config_change`. -/
def configApplied (setup : Setup) (s : Pipeline) (entry : Entry) (rest : List Entry)
    (result : Except Fault Unit) : Pipeline :=
  match result with
  | .error fault => { s with handler := .processing rest [] (some fault) }
  | .ok () =>
    match entry.payload.bind EntryPayload.payload with
    | some (.config change) =>
      { s with
        handler := .processing rest [] none
        events := s.events ++ [.membershipApplied] ++
          (if isSelfRemovalConfig setup.myId change then [.stepDownSelfRemoved] else []) }
    | _ => { s with handler := .processing rest [] none }

/-! ## The worker -/

/-- The call of `apply_chunk` with the decoded entries of a chunk. -/
def giveChunk (s : Pipeline) (rest : List (List Entry)) (entries : List ApplyEntry)
    (lastIndex : Option Nat) : Pipeline :=
  { s with
    commands := rest
    worker := .applying entries lastIndex
    stateMachine.passed := s.stateMachine.passed ++ [entries] }

/-- The worker takes a chunk and decodes it; a chunk that cannot be decoded stops it. -/
def takeChunk (setup : Setup) (s : Pipeline) (chunk : List Entry) (rest : List (List Entry)) :
    Pipeline :=
  match decodeEntries setup.decode chunk with
  | .error _ =>
    { s with commands := [], worker := .stopped, events := s.events ++ [.fatalError] }
  | .ok entries => s.giveChunk rest entries (chunk.getLast?.map Entry.index)

/-- The applied index of the state machine is set to the last entry of the chunk. -/
def lastAppliedAfter (current : LogId) (entries : List ApplyEntry) : LogId :=
  (entries.getLast?.map ApplyEntry.logId).getD current

/-- The state machine returns from a chunk; an error stops the worker. -/
def chunkReturned (s : Pipeline) (entries : List ApplyEntry) (lastIndex : Option Nat) :
    ApplyOutcome → Pipeline
  | .ok =>
    { s with
      stateMachine.lastApplied := lastAppliedAfter s.stateMachine.lastApplied entries
      applied := (lastIndex.map (advance s.applied)).getD s.applied
      events := s.events ++ (entries.getLast?.map fun a => .applyCompleted a.index).toList
      worker := .waiting }
  | .err updated =>
    { s with
      stateMachine.lastApplied :=
        if updated then lastAppliedAfter s.stateMachine.lastApplied entries
        else s.stateMachine.lastApplied
      commands := []
      events := s.events ++ [.fatalError]
      worker := .stopped }

/-! ## The two tasks together -/

def step (setup : Setup) (s : Pipeline) : Label → Option Pipeline
  | .announce data =>
    if data.newCommitIndex ≤ setup.last then
      some { s with
        newCommits := s.newCommits ++ [data]
        committed := max s.committed data.newCommitIndex }
    else none
  | .recv =>
    match s.handler, s.newCommits with
    | .waiting, data :: rest => some ((s.received setup data rest).beginBatch setup)
    | _, _ => none
  | .handle =>
    match s.handler with
    | .processing (entry :: rest) commandBatch lastError =>
      some (s.handleEntry entry rest commandBatch lastError)
    | .processing [] commandBatch lastError => some (s.endBatch commandBatch lastError)
    | _ => none
  | .configured result =>
    match s.handler with
    | .changing entry rest => some (s.configApplied setup entry rest result)
    | _ => none
  | .take =>
    match s.worker, s.commands with
    | .waiting, chunk :: rest => some (s.takeChunk setup chunk rest)
    | _, _ => none
  | .applyReturned outcome =>
    match s.worker with
    | .applying entries lastIndex => some (s.chunkReturned entries lastIndex outcome)
    | _ => none
  | .shutdown => some { s with shutdown := true }
  | .handlerStops =>
    if s.handler = .waiting ∧ s.shutdown then some { s with handler := .stopped } else none
  -- the worker drains its queue before it stops
  | .workerStops =>
    if s.worker = .waiting ∧ s.commands = [] ∧ s.shutdown then
      some { s with worker := .stopped }
    else none

/-- The state behind the construction of the node. -/
def atStart (setup : Setup) (term : Nat) : Pipeline where
  applied := setup.start
  stateMachine := ⟨⟨term, setup.start⟩, []⟩

end Pipeline

/-- The commit handler and the worker of a node. -/
def applyLoop (setup : Setup) : Machine Pipeline Label where
  init s := ∃ term, s = Pipeline.atStart setup term
  step := Pipeline.step setup

end DEngine.Apply

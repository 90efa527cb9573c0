import DEngine.Storage.LogStore

/-!
# The buffered log with its storage thread

The raft thread changes the log in memory and waits for the tasks that it sends. The
storage thread persists what lies above the durable index, carries out the tasks and
hands its watermark over to the fsync coordinator. The fsync task flushes the store and
advances the durable index. The three share the log, the command channel and the
coordinator, and take their steps in any order.

## Implementation notes

Every load and store of a shared variable that another thread may come between is a
step of its own; the stores of one operation in memory, which no thread can tell apart by
what it does next, are one step. A watermark carries how often the store had been wiped when its
entries were persisted; the durable index carries the same. Both serve the statements
and are read by no operation. One flush waits at a time, so the channels of waiting
flushes are a flag. An operation of the store may fail, and then leaves any store behind.
-/

namespace DEngine.Storage

open Library

/-! ## The shared state -/

/-- A watermark, and the number of wipes of the store before its entries were persisted. -/
structure Mark where
  index : Nat
  epoch : Nat
deriving DecidableEq, Repr

namespace Mark

def zero : Mark := ⟨0, 0⟩

/-- The larger of two watermarks, as `fetch_max` leaves it. -/
def raise (mark other : Mark) : Mark := if mark.index < other.index then other else mark

end Mark

inductive IoTask where
  | replaceRange (truncateFrom : Nat) (newEntries : List Entry)
  | purge (cutoff : LogId)
  | reset
  | flush
  | shutdown
deriving DecidableEq

/-- Where the raft thread stands within an operation. -/
inductive RaftStage where
  | idle
  /-- The conflicting suffix has been removed from memory. -/
  | truncated (truncateFrom : Nat) (newEntries : List Entry)
  /-- The new suffix has been inserted. -/
  | replaced (truncateFrom : Nat) (newEntries : List Entry)
  | purged (cutoff : LogId)
  /-- The durable index has been advanced to the cutoff. -/
  | advanced (cutoff : LogId)
  /-- The generation has been bumped. -/
  | fencing
  | fenced
  /-- Memory has been cleared and zero stored in the durable index. -/
  | cleared
  | waiting (task : IoTask)
  | flushing
  /-- A flush has returned. -/
  | returned (ok : Bool)
  | closed
deriving DecidableEq

inductive TurnKind where
  | batch
  | catchUp
  | safetyNet
deriving DecidableEq

/-- What the storage thread carries through a turn. -/
structure Turn where
  kind : TurnKind
  reply : Bool
  seenShutdown : Bool
deriving DecidableEq

/-- Where the storage thread stands. -/
inductive IoStage where
  | select
  | loadStart (turn : Turn)
  | loadEnd (turn : Turn) (start : Nat)
  | readRange (turn : Turn) (start stop : Nat)
  | persist (turn : Turn) (stop : Nat) (entries : List Entry)
  | drain (turn : Turn) (persistFailed : Bool)
  | submit (turn : Turn)
  /-- The watermark has been handed over, the waiting flush not yet. -/
  | signal (turn : Turn)
  | exited
deriving DecidableEq

/-- Where the fsync task stands. -/
inductive TaskStage where
  | none
  | top
  | loaded (generation : Nat)
  | swapped (generation : Nat) (mark : Mark)
  | taken (generation : Nat) (mark : Mark) (reply : Bool)
  | synced (generation : Nat) (mark : Mark) (reply ok : Bool)
  /-- The generation has been found unchanged. -/
  | checked (mark : Mark) (reply : Bool)
  | advanced (reply : Bool)
deriving DecidableEq

structure FsyncCoordinator where
  inflight : Bool
  pendingMax : Mark
  pendingReply : Bool
  generation : Nat
deriving DecidableEq

structure LogSystem (σ : Type) where
  log : BufferedRaftLog
  store : σ
  raft : RaftStage
  commands : List IoTask
  /-- A wakeup for the storage thread. -/
  notified : Bool
  io : IoStage
  pendingMax : Mark
  fsync : FsyncCoordinator
  task : TaskStage
  /-- Fsync tasks that have found nothing to do and look once more. -/
  rechecking : Nat
  /-- What the last flush of the store has covered. -/
  flushed : OrderedMap Entry
  /-- How often the storage thread has wiped the store. -/
  wipes : Nat
  /-- How often zero has been stored in the durable index. -/
  resets : Nat
  durableEpoch : Nat

/-- How an operation of the store ends. -/
inductive Outcome (σ : Type) where
  | ok
  | failed (left : σ)

namespace LogSystem

variable {σ : Type}

/-- The system that is started over a store. -/
def start (L : LogStore σ) (store : σ) : LogSystem σ where
  log := L.newLog store
  store := store
  raft := .idle
  commands := []
  notified := false
  io := .select
  pendingMax := .zero
  fsync := ⟨false, .zero, false, 0⟩
  task := .none
  rechecking := 0
  flushed := L.content store
  wipes := 0
  resets := 0
  durableEpoch := 0

/-! ## Elementary operations -/

def advanceDurable (s : LogSystem σ) (mark : Mark) : LogSystem σ :=
  if s.log.durableIndex < mark.index then
    { s with log := { s.log with durableIndex := mark.index }, durableEpoch := mark.epoch }
  else s

def markPoisoned (s : LogSystem σ) : LogSystem σ :=
  { s with log := { s.log with poisoned := true } }

/-- Answer the waiting flush, if its channel is at hand. -/
def answer (s : LogSystem σ) (reply ok : Bool) : LogSystem σ :=
  { s with raft := if reply = true ∧ s.raft = .flushing then .returned ok else s.raft }

/-- Tell the raft thread that its task is done. -/
def done (s : LogSystem σ) (task : IoTask) : LogSystem σ :=
  { s with raft := if s.raft = .waiting task then .idle else s.raft }

/-- Send a task and wait for it. -/
def send (s : LogSystem σ) (task : IoTask) : LogSystem σ :=
  { s with commands := s.commands ++ [task], raft := .waiting task }

/-! ## The raft thread -/

def appendEntries (s : LogSystem σ) (entries : List Entry) : LogSystem σ :=
  if s.log.poisoned ∨ entries = [] then s
  else { s with log := s.log.insertToMemory entries, notified := true }

def flush (s : LogSystem σ) : LogSystem σ :=
  if s.log.maxIndex = 0 ∨ s.log.maxIndex ≤ s.log.durableIndex then { s with raft := .returned true }
  else { s with commands := s.commands ++ [.flush], raft := .flushing }

/-- The next step of the operation that the raft thread is in. -/
def raftStep (s : LogSystem σ) : Option (LogSystem σ) :=
  match s.raft with
  | .truncated truncateFrom newEntries =>
    some { s with
      log := s.log.insertToMemory newEntries, raft := .replaced truncateFrom newEntries }
  | .replaced truncateFrom newEntries => some (s.send (.replaceRange truncateFrom newEntries))
  | .purged cutoff =>
    some { s.advanceDurable ⟨cutoff.index, s.resets⟩ with raft := .advanced cutoff }
  | .advanced cutoff => some (s.send (.purge cutoff))
  | .fencing =>
    some { s with
      fsync := { s.fsync with pendingMax := .zero, pendingReply := false }, raft := .fenced }
  | .fenced =>
    some { s with
      log := (s.log.reset (.ok ())).2
      resets := s.resets + 1
      durableEpoch := s.resets + 1
      raft := .cleared }
  | .cleared => some (s.send .reset)
  | .waiting _ => if s.io = .exited then some { s with raft := .idle } else none
  | .flushing =>
    -- the channel is dropped with the thread, and the waiting flush with it
    if s.io = .exited ∧ IoTask.flush ∈ s.commands then
      some { s with commands := s.commands.filter (· ≠ .flush), raft := .returned false }
    else none
  | .returned _ => some { s with raft := .idle }
  | .idle => none
  | .closed => none

/-! ## The storage thread -/

/-- Carry out a task. A failure, or a poisoned log, ends the thread. -/
def handleNonWriteCmd (L : LogStore σ) (s : LogSystem σ) (task : IoTask) (outcome : Outcome σ) :
    LogSystem σ × Bool :=
  match task with
  | .replaceRange truncateFrom newEntries =>
    if s.log.poisoned then (s.done task, true)
    else
      match outcome with
      | .failed left => ({ s.done task with store := left }.markPoisoned, true)
      | .ok =>
        let maxIdx := (newEntries.getLast?.map Entry.index).getD 0
        ({ s.done task with
          store := L.replaceRange truncateFrom newEntries s.store
          pendingMax := s.pendingMax.raise ⟨maxIdx, s.wipes⟩ }, false)
  | .purge cutoff =>
    if s.log.poisoned then (s.done task, true)
    else
      match outcome with
      | .failed left => ({ s.done task with store := left }.markPoisoned, true)
      | .ok => ({ s.done task with store := L.purge cutoff s.store }, false)
  | .reset =>
    match outcome with
    | .failed left => ({ s.done task with store := left }.markPoisoned, true)
    | .ok =>
      ({ s.done task with
        store := L.reset s.store, pendingMax := .zero, wipes := s.wipes + 1 }, false)
  -- never sent here: both are taken out of the channel before
  | .flush => (s, false)
  | .shutdown => (s, false)

/-- What the kind of the turn does behind the attempt to persist. -/
def afterPersist (s : LogSystem σ) (turn : Turn) (failed : Bool) : LogSystem σ :=
  match turn.kind with
  | .batch =>
    if failed then
      { s.answer turn.reply false with io := .drain { turn with reply := false } true }
    else { s with io := .drain turn false }
  | .catchUp => { s with io := .submit turn }
  | .safetyNet =>
    if 0 < s.pendingMax.index then { s with io := .submit turn } else { s with io := .select }

/-- The entries of memory that lie in the loaded range. -/
def entriesRange (s : LogSystem σ) (lo hi : Nat) : List Entry :=
  (s.log.entries.range lo hi).map Prod.snd

/-- Take a command out of the channel: in a turn, behind its first attempt to persist. -/
def drainCommand (L : LogStore σ) (s : LogSystem σ) (turn : Turn) (failed : Bool)
    (outcome : Outcome σ) : LogSystem σ :=
  match s.commands with
  | [] =>
    if turn.reply ∧ ¬ failed then { s with io := .loadStart { turn with kind := .catchUp } }
    else { s with io := .submit turn }
  | .shutdown :: rest =>
    { s with commands := rest, io := .drain { turn with seenShutdown := true } failed }
  | .flush :: rest => { s with commands := rest, io := .drain { turn with reply := true } failed }
  | task :: rest =>
    let handled := handleNonWriteCmd L { s with commands := rest } task outcome
    if handled.2 then { handled.1.answer turn.reply false with io := .exited }
    else { handled.1 with io := .drain turn failed }

/-- The next step of the turn that the storage thread is in. -/
def ioStep (L : LogStore σ) (s : LogSystem σ) (outcome : Outcome σ) : Option (LogSystem σ) :=
  match s.io with
  | .loadStart turn =>
    let start :=
      if turn.kind = .catchUp then s.pendingMax.index + 1 else s.log.durableIndex + 1
    some { s with io := .loadEnd turn start }
  | .loadEnd turn start => some { s with io := .readRange turn start s.log.maxIndex }
  | .readRange turn start stop =>
    if s.log.poisoned then some (s.afterPersist turn true)
    else if stop < start ∨ s.entriesRange start stop = [] then some (s.afterPersist turn false)
    else some { s with io := .persist turn stop (s.entriesRange start stop) }
  | .persist turn stop entries =>
    match outcome with
    | .ok =>
      some (afterPersist
        { s with
          store := L.persistEntries entries s.store
          pendingMax := s.pendingMax.raise ⟨stop, s.wipes⟩ } turn false)
    | .failed left => some (afterPersist { s with store := left }.markPoisoned turn true)
  | .drain turn failed => some (s.drainCommand L turn failed outcome)
  | .submit turn =>
    some { s with
      fsync := { s.fsync with pendingMax := s.fsync.pendingMax.raise s.pendingMax }
      io := .signal turn }
  | .signal turn =>
    some { s with
      fsync :=
        { s.fsync with pendingReply := s.fsync.pendingReply || turn.reply, inflight := true }
      task := if s.fsync.inflight then s.task else .top
      pendingMax := .zero
      io := if turn.seenShutdown then .exited else .select }
  | .select => none
  | .exited => none

/-- Begin a turn for entries that were appended. -/
def wake (s : LogSystem σ) : Option (LogSystem σ) :=
  if s.io = .select ∧ s.notified = true then
    some { s with notified := false, io := .loadStart ⟨.batch, false, false⟩ }
  else none

/-- Begin a turn for a command, or carry it out at once. -/
def receive (L : LogStore σ) (s : LogSystem σ) (outcome : Outcome σ) : Option (LogSystem σ) :=
  if s.io = .select then
    match s.commands with
    | [] => none
    | .shutdown :: rest =>
      some { s with commands := rest, io := .loadStart ⟨.batch, false, true⟩ }
    | .flush :: rest => some { s with commands := rest, io := .loadStart ⟨.batch, true, false⟩ }
    | task :: rest =>
      let handled := handleNonWriteCmd L { s with commands := rest } task outcome
      some { handled.1 with io := if handled.2 then .exited else .select }
  else none

/-- Begin the turn of the safety timer. -/
def timer (s : LogSystem σ) : Option (LogSystem σ) :=
  if s.io = .select then some { s with io := .loadStart ⟨.safetyNet, false, false⟩ } else none

/-! ## The fsync task -/

/-- The next step of the round that the fsync task is in. -/
def taskStep (L : LogStore σ) (s : LogSystem σ) (outcome : Outcome σ) : Option (LogSystem σ) :=
  match s.task with
  | .none => Option.none
  | .top => some { s with task := .loaded s.fsync.generation }
  | .loaded generation =>
    some { s with
      fsync := { s.fsync with pendingMax := .zero }
      task := .swapped generation s.fsync.pendingMax }
  | .swapped generation mark =>
    some { s with
      fsync := { s.fsync with pendingReply := false }
      task := .taken generation mark s.fsync.pendingReply }
  | .taken generation mark reply =>
    if s.log.poisoned then
      some { s.answer reply false with
        fsync := { s.fsync with inflight := false }, task := .none }
    else if mark.index = 0 ∧ reply = false then
      some { s with
        fsync := { s.fsync with inflight := false }
        task := .none
        rechecking := s.rechecking + 1 }
    else
      match outcome, L.isWriteDurable with
      | .failed _, false => some { s with task := .synced generation mark reply false }
      | _, _ =>
        some { s with
          flushed := L.content s.store, task := .synced generation mark reply true }
  | .synced generation mark reply ok =>
    if s.fsync.generation ≠ generation then some { s.answer reply false with task := .top }
    else if ok then some { s with task := .checked mark reply }
    else some { s.markPoisoned.answer reply false with task := .top }
  | .checked mark reply => some { s.advanceDurable mark with task := .advanced reply }
  | .advanced reply => some { s.answer reply true with task := .top }

/-- A finished fsync task looks once more for work that slipped in. -/
def recheck (s : LogSystem σ) : Option (LogSystem σ) :=
  if s.rechecking = 0 then none
  else if (0 < s.fsync.pendingMax.index ∨ s.fsync.pendingReply = true) ∧
      s.fsync.inflight = false then
    some { s with
      rechecking := s.rechecking - 1, fsync := { s.fsync with inflight := true }, task := .top }
  else some { s with rechecking := s.rechecking - 1 }

end LogSystem

/-! ## Runs -/

inductive IoLabel (σ : Type) where
  | append (entries : List Entry)
  | truncate (truncateFrom : Nat) (newEntries : List Entry)
  | purge (cutoff : LogId)
  | reset
  | flush
  | close
  /-- The next step of the raft thread. -/
  | raft
  | wake
  | receive (outcome : Outcome σ)
  | timer
  /-- The next step of the storage thread. -/
  | io (outcome : Outcome σ)
  /-- The next step of the fsync task. -/
  | fsync (outcome : Outcome σ)
  | recheck

/-- The entries of a request from an index on. -/
def Suffix (truncateFrom : Nat) (newEntries : List Entry) : Prop :=
  (newEntries.head?.map Entry.index = some truncateFrom) ∧
    newEntries.Pairwise (fun a b => a.index < b.index) ∧ ∀ e ∈ newEntries, e.index < u64Max

instance (truncateFrom : Nat) (newEntries : List Entry) :
    Decidable (Suffix truncateFrom newEntries) :=
  inferInstanceAs (Decidable (_ ∧ _ ∧ _))

namespace LogSystem

variable {σ : Type}

/-- One step of one of the threads. The raft thread begins an operation when it is in none; a
truncation starts within the log, and no index is the largest number. -/
def step (L : LogStore σ) (s : LogSystem σ) : IoLabel σ → Option (LogSystem σ)
  | .append entries =>
    if s.raft = .idle ∧ ∀ e ∈ entries, e.index < u64Max then some (s.appendEntries entries)
    else none
  | .truncate truncateFrom newEntries =>
    if s.raft = .idle ∧ truncateFrom ≤ s.log.maxIndex ∧ Suffix truncateFrom newEntries then
      some { s with
        log := s.log.removeRange truncateFrom u64Max
        raft := .truncated truncateFrom newEntries }
    else none
  | .purge cutoff =>
    if s.raft = .idle ∧ cutoff.index < u64Max then
      some { s with log := s.log.purgePrefix cutoff, raft := .purged cutoff }
    else none
  | .reset =>
    if s.raft = .idle then
      some { s with
        fsync := { s.fsync with generation := s.fsync.generation + 1 }, raft := .fencing }
    else none
  | .flush => if s.raft = .idle then some s.flush else none
  | .close =>
    if s.raft = .idle then
      some { s with commands := s.commands ++ [.shutdown], raft := .closed }
    else none
  | .raft => s.raftStep
  | .wake => s.wake
  | .receive outcome => s.receive L outcome
  | .timer => s.timer
  | .io outcome => s.ioStep L outcome
  | .fsync outcome => s.taskStep L outcome
  | .recheck => s.recheck

end LogSystem

/-- The three threads over a store, from the creation of the log on. -/
def logSystem {σ : Type} (L : LogStore σ) : Machine (LogSystem σ) (IoLabel σ) where
  init := fun s => ∃ store, Indexed (L.content store) ∧ s = LogSystem.start L store
  step := LogSystem.step L

/-! ## Schedules -/

/-- The log over an empty store in RocksDB. -/
def emptyRocksDB : LogSystem RocksDBLogStore :=
  .start RocksDBLogStore.logStore (.new ∅ none)

theorem init_emptyRocksDB : (logSystem RocksDBLogStore.logStore).init emptyRocksDB :=
  ⟨.new ∅ none, fun i e he => absurd he (by simp [RocksDBLogStore.logStore, RocksDBLogStore.new]),
    rfl⟩

/-- A turn of the storage thread up to the point where it hands its watermark over. -/
def persistTurn {σ : Type} : List (IoLabel σ) := .wake :: List.replicate 5 (.io .ok)

/-- The watermark is handed over and a round of the fsync task reports it. -/
def syncRound {σ : Type} : List (IoLabel σ) :=
  List.replicate 2 (.io .ok) ++ List.replicate 7 (.fsync .ok)

end DEngine.Storage

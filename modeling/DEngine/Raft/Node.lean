import DEngine.Library.Handler
import DEngine.Raft.Events
import DEngine.Replication.LeaderBatch

/-!
# The state of a node

The state that the main loop of a node owns, and the operations on it that the
roles share: changing and persisting the hard state, sending internal events,
moving the commit index.

## Implementation notes

The source keeps a state value for each role and converts between them. Here
one record has the fields of all roles; a transition resets those that the new
role starts afresh. Timers, leases and waiting clients are left out: what they
decide is part of `Env`, the choices of the surroundings during one handler.
-/

namespace DEngine.Raft

open Library Storage Replication

/-! ## Hard state -/

structure HardState where
  currentTerm : Nat
  votedFor : Option VotedFor
deriving DecidableEq, Repr

structure HardStateChange where
  changed : Bool
  isNewLeaderCommitment : Bool
deriving DecidableEq, Repr

/-- The state that every role has. Leader id zero stands for no leader. -/
structure SharedState where
  hardState : HardState
  commitIndex : Nat
  currentLeaderId : Nat
deriving DecidableEq, Repr

namespace SharedState

def new (hardStateFromDb : Option HardState) (lastAppliedIndex : Option Nat) : SharedState :=
  { hardState := hardStateFromDb.getD ⟨1, none⟩
    commitIndex := lastAppliedIndex.getD 0
    currentLeaderId := 0 }

def currentLeader (s : SharedState) : Option Nat :=
  if s.currentLeaderId = 0 then none else some s.currentLeaderId

/-- Whether a vote makes a leader known that was not before. -/
def isNewLeaderCommitment (s : SharedState) (newVote : VotedFor) : Bool :=
  match s.hardState.votedFor with
  | some old =>
    newVote.committed &&
      decide (old.votedForId ≠ newVote.votedForId ∨ old.votedForTerm ≠ newVote.votedForTerm ∨
        old.committed = false ∨ s.currentLeader = none)
  | none => newVote.committed

def setHardState (s : SharedState) (term : Option Nat) (votedFor : Option VotedFor) :
    HardStateChange × SharedState :=
  let currentTerm := term.getD s.hardState.currentTerm
  let termChanged := decide (currentTerm ≠ s.hardState.currentTerm)
  match votedFor with
  | none =>
    (⟨termChanged, false⟩,
      { s with hardState := { s.hardState with currentTerm := currentTerm } })
  | some newVote =>
    (⟨termChanged || decide (s.hardState.votedFor ≠ some newVote),
        s.isNewLeaderCommitment newVote⟩,
      { s with hardState := ⟨currentTerm, some newVote⟩ })

end SharedState

inductive TermDecision where
  | rejectStale
  | accept
  | acceptAndUpdateTerm (newTerm : Nat)
deriving DecidableEq, Repr

def checkIncomingTerm (myTerm incomingTerm : Nat) : TermDecision :=
  if incomingTerm < myTerm then .rejectStale
  else if incomingTerm = myTerm then .accept
  else .acceptAndUpdateTerm incomingTerm

/-! ## Roles -/

inductive RaftRole where
  | follower
  | candidate
  | leader
  | learner
deriving DecidableEq, Repr

def RaftRole.nodeRole : RaftRole → NodeRole
  | .follower => .follower
  | .candidate => .candidate
  | .leader => .leader
  | .learner => .learner

inductive PeerReplicationState where
  | probe
  | replicate
  | snapshot
deriving DecidableEq, Repr

/-- The leader's cached view of the membership. -/
structure ClusterMetadata (myId : Nat) where
  singleVoter : Bool
  totalVoters : Nat
  replicationTargets : List (Nat × NodeMeta)
  nodup : (replicationTargets.map Prod.fst).Nodup
  not_self : myId ∉ replicationTargets.map Prod.fst
deriving DecidableEq

namespace ClusterMetadata

variable {myId : Nat}

def empty : ClusterMetadata myId := ⟨false, 0, [], List.nodup_nil, List.not_mem_nil⟩

def ofMembership (m : Membership) : ClusterMetadata myId where
  singleVoter := decide ((m.voters myId).length + 1 = 1)
  totalVoters := (m.voters myId).length + 1
  replicationTargets := m.replicationPeers myId
  nodup := m.replicationPeers_nodup myId
  not_self := m.self_not_mem_replicationPeers myId

/-- The peers that requests are built for. -/
def targets (c : ClusterMetadata myId) : ReplicationTargets myId :=
  ⟨c.replicationTargets.map Prod.fst, c.nodup, c.not_self⟩

/-- The peer is a replication target that is not a learner. -/
def isVoter (c : ClusterMetadata myId) (peer : Nat) : Bool :=
  c.replicationTargets.any fun p => decide (p.1 = peer ∧ p.2.role ≠ .learner)

def isLearner (c : ClusterMetadata myId) (peer : Nat) : Bool :=
  c.replicationTargets.any fun p => decide (p.1 = peer ∧ p.2.role = .learner)

end ClusterMetadata

inductive PostCommitAction where
  | leaderNoop (term : Nat)
  | nodeJoin (nodeId : Nat)
deriving DecidableEq, Repr

/-- The state of a leader that a new leader starts afresh. -/
structure LeaderState (myId : Nat) where
  nextIndex : OrderedMap Nat
  matchIndex : OrderedMap Nat
  peerReplicationState : OrderedMap PeerReplicationState
  replicationWorkers : List Nat
  clusterMetadata : ClusterMetadata myId
  noopLogId : Option Nat
  proposeBuffer : List EntryPayload
  linearizableReadBuffer : Nat
  leaseReadQueue : Nat
  pendingCommitActions : OrderedMap PostCommitAction
  pendingPromotions : List Nat
deriving DecidableEq

def LeaderState.fresh {myId : Nat} : LeaderState myId where
  nextIndex := ∅
  matchIndex := ∅
  peerReplicationState := ∅
  replicationWorkers := []
  clusterMetadata := .empty
  noopLogId := none
  proposeBuffer := []
  linearizableReadBuffer := 0
  leaseReadQueue := 0
  pendingCommitActions := ∅
  pendingPromotions := []

/-! ## The node -/

structure Config where
  maxBatchSize : Nat
  maxMergeEntries : Nat
  maxEntriesPerReplication : Nat
  retainedLogEntries : Nat
  learnerCatchupThreshold : Nat
  maxPendingWrites : Nat
  maxPendingReads : Nat
  allowClientOverride : Bool
  defaultPolicy : ReadConsistencyPolicy
deriving DecidableEq, Repr

/-- Where the main loop stands. Client commands are flushed between the internal and the
inbound events of a round. -/
inductive Phase where
  | select
  | internal
  | inbound
  | stopped
deriving DecidableEq, Repr

/-- A hard state that was written, and how much the node had done by then. -/
structure MetaWrite where
  hardState : HardState
  journalLength : Nat
deriving DecidableEq, Repr

structure Node (myId : Nat) where
  config : Config
  role : RaftRole
  shared : SharedState
  log : BufferedRaftLog
  leader : LeaderState myId
  pendingPurgeUpto : Option LogId
  lastPurgedIndex : Option LogId
  membership : Membership
  internalRx : List InternalEvent
  cmdRx : List ClientCmd
  eventRx : List InboundEvent
  bufferedInternalEvent : List InternalEvent
  bufferedInboundEvent : List InboundEvent
  phase : Phase
  /-- The writes of the hard state to the meta store, newest first. -/
  metaStore : List MetaWrite
  /-- What the node did, newest first. -/
  journal : List Action

inductive SnapshotApplyResult where
  | applied (lastIncluded : LogId)
  | ignoredStale (current : LogId)
  | ignoredDuplicate (current : LogId)
deriving DecidableEq, Repr

/-- What a handler learns from its surroundings while it runs. -/
structure Env where
  /-- The outcomes of the hard state writes, in order. -/
  save : Except Fault Unit := .ok ()
  secondSave : Except Fault Unit := .ok ()
  /-- The outcome of a reset, rewrite or purge of the stored log. -/
  logIo : Except Fault Unit := .ok ()
  timerExpired : Bool := false
  /-- The peers' answers to a vote request, in the order of their arrival. -/
  voteResponses : List (Nat × Option VoteResponse) := []
  heartbeatDue : Bool := false
  /-- How many of the oldest pending promotions have become stale. -/
  staleLearners : Nat := 0
  /-- The post-commit actions whose deadline has passed. -/
  expiredActions : List Nat := []
  snapshotReady : Bool := false
  snapshotBackoff : List Nat := []
  /-- How many of the queued lease reads find the lease expired. -/
  expiredLeaseReads : Nat := 0
  learnerCheckDue : Bool := false
  shouldSnapshot : Bool := false
  /-- Whether the snapshot stream was received, and if so what its installation gave. -/
  snapshotStream : Except Fault (Except Fault SnapshotApplyResult) := .error .snapshotFailed

/-- The identity up to which the state machine is, whatever became of the snapshot. -/
def SnapshotApplyResult.boundary : SnapshotApplyResult → LogId
  | .applied lastIncluded => lastIncluded
  | .ignoredStale current => current
  | .ignoredDuplicate current => current

/-- The index up to which an installed or ignored snapshot covers the log. -/
def Env.installed (env : Env) : Nat :=
  match env.snapshotStream with
  | .ok (.ok result) => result.boundary.index
  | _ => 0

abbrev NodeM (myId : Nat) := Handler (Node myId) Fault

namespace Node

variable {myId : Nat}

def currentTerm (s : Node myId) : Nat := s.shared.hardState.currentTerm

def commitIndex (s : Node myId) : Nat := s.shared.commitIndex

def stateSnapshot (s : Node myId) : StateSnapshot := ⟨s.currentTerm, s.commitIndex⟩

/-- The internal events that wait, in the buffer and in the channel. -/
def queue (s : Node myId) : List InternalEvent := s.bufferedInternalEvent ++ s.internalRx

end Node

/-! ## Shared operations -/

section Operations

variable {myId : Nat}

/-- Send an event into the internal channel. -/
def send (event : InternalEvent) : NodeM myId Unit :=
  Handler.modify fun s => { s with internalRx := s.internalRx ++ [event] }

def record (action : Action) : NodeM myId Unit :=
  Handler.modify fun s => { s with journal := action :: s.journal }

/-- Run an operation of the log on the node's log. -/
def onLog {α : Type} (operation : BufferedRaftLog → Except Fault α × BufferedRaftLog) :
    NodeM myId α := fun s =>
  ((operation s.log).1, { s with log := (operation s.log).2 })

def setCurrentLeader (leaderId : Nat) : NodeM myId Unit :=
  Handler.modify fun s => { s with shared := { s.shared with currentLeaderId := leaderId } }

/-- Change the leader's own state. -/
def modifyLeader (f : LeaderState myId → LeaderState myId) : NodeM myId Unit :=
  Handler.modify fun s => { s with leader := f s.leader }

/-- A failed write poisons the log and is reported to the main loop. -/
def saveHardState (outcome : Except Fault Unit) : NodeM myId Unit := do
  let s ← Handler.get
  if s.log.poisoned then Handler.fail (.fatal "raft log storage is poisoned")
  else
    match outcome with
    | .ok () => Handler.modify fun s =>
      { s with metaStore := ⟨s.shared.hardState, s.journal.length⟩ :: s.metaStore }
    | .error fault => do
      Handler.modify fun s => { s with log := { s.log with poisoned := true } }
      send .fatalError
      Handler.fail fault

/-- The change stays in memory when its write fails. -/
def commitHardState (outcome : Except Fault Unit) (term : Option Nat)
    (votedFor : Option VotedFor) : NodeM myId Bool := do
  if term = none ∧ votedFor = none then pure false
  else do
    let s ← Handler.get
    let result := s.shared.setHardState term votedFor
    Handler.modify fun s => { s with shared := result.2 }
    if result.1.changed then do
      saveHardState outcome
      pure result.1.isNewLeaderCommitment
    else pure result.1.isNewLeaderCommitment

def commitVoteReset (outcome : Except Fault Unit) : NodeM myId Unit := do
  Handler.modify fun s =>
    { s with shared :=
      { s.shared with hardState := { s.shared.hardState with votedFor := none } } }
  saveHardState outcome

/-- A leader never moves its commit index back; the other roles take the given one. -/
def updateCommitIndex (newCommitIndex : Nat) : NodeM myId Unit :=
  Handler.modify fun s =>
    if s.role = .leader ∧ newCommitIndex ≤ s.commitIndex then s
    else { s with shared := { s.shared with commitIndex := newCommitIndex } }

def updateCommitIndexWithSignal (currentTerm newCommitIndex : Nat) : NodeM myId Unit := do
  updateCommitIndex newCommitIndex
  let s ← Handler.get
  send (.notifyNewCommitIndex ⟨newCommitIndex, s.role.nodeRole, currentTerm⟩)

/-! ## Purging -/

/-- A failed purge is only logged. -/
def executePendingPurge (io : Except Fault Unit) : NodeM myId Unit := do
  let s ← Handler.get
  match s.pendingPurgeUpto with
  | none => pure ()
  | some scheduled => do
    match ← Handler.attempt (onLog fun log => log.purgeLogsUpTo io scheduled) with
    | .ok () => send (.logPurgeCompleted scheduled)
    | .error _ => pure ()

def scheduleAndExecutePurge (io : Except Fault Unit) (lastIncluded : LogId) :
    NodeM myId Unit := do
  let s ← Handler.get
  let purgeUpto := lastIncluded.index - s.config.retainedLogEntries
  if purgeUpto = 0 then pure ()
  else do
    match s.log.entryTerm purgeUpto with
    | .error fault => Handler.fail fault
    | .ok none => executePendingPurge io
    | .ok (some term) => do
      if purgeUpto < s.commitIndex ∧
          (∀ id ∈ s.lastPurgedIndex, id.index < purgeUpto) ∧
          ∀ id ∈ s.pendingPurgeUpto, id.index < purgeUpto then
        Handler.modify fun s => { s with pendingPurgeUpto := some ⟨term, purgeUpto⟩ }
      executePendingPurge io

def scheduleInstalledSnapshotPurge (io : Except Fault Unit) (target : LogId) :
    NodeM myId Unit := do
  Handler.modify fun s =>
    if ∀ id ∈ s.pendingPurgeUpto, id.index < target.index then
      { s with pendingPurgeUpto := some target }
    else s
  executePendingPurge io

/-- Follower, learner and leader only; a purge that does not go further changes nothing. -/
def handleLogPurgeCompleted (purgedId : LogId) : NodeM myId Unit := do
  let s ← Handler.get
  if s.role = .candidate then Handler.fail .roleViolation
  else if ∀ id ∈ s.lastPurgedIndex, id.index < purgedId.index then
    Handler.modify fun s =>
      { s with lastPurgedIndex := some purgedId, pendingPurgeUpto := none }

end Operations

end DEngine.Raft

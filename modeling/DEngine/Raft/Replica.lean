import DEngine.Raft.Election

/-!
# Followers and learners

The two workflows that a follower and a learner share, for AppendEntries requests
and for pushed snapshots, and the dispatch of their inbound events.
-/

namespace DEngine.Raft

open Library Storage Replication

section Workflows

variable {myId : Nat}

/-- Adopt a newer term and note the sender as the leader of the request's term. -/
def followLeader (env : Env) (termUpdate : Option Nat) (leaderId term : Nat) :
    NodeM myId Bool := do
  let isNewLeader ← commitHardState env.save termUpdate (some ⟨leaderId, term, true⟩)
  setCurrentLeader leaderId
  pure isNewLeader

/-- Hand a request to the replication handler. It sees the state from before the request; a
failure is answered with a conflict behind the old last index. -/
def replicate (env : Env) (request : AppendEntriesRequest) (snapshot : StateSnapshot)
    (lastIndex : Nat) : NodeM myId Unit := do
  let s ← Handler.get
  match ← Handler.attempt (onLog (handleAppendEntries myId env.logIo request snapshot)) with
  | .ok updates => do
    match updates.commitIndexUpdate with
    | some commit => updateCommitIndexWithSignal snapshot.currentTerm commit
    | none => pure ()
    record (.answeredAppend updates.response)
  | .error (.panic message) => Handler.fail (.panic message)
  | .error fault => do
    record (.answeredAppend (.conflict myId s.currentTerm none (some (lastIndex + 1))))
    Handler.fail fault

def handleAppendEntriesRequestWorkflow (env : Env) (request : AppendEntriesRequest) :
    NodeM myId Unit := do
  let s ← Handler.get
  let accepted (termUpdate : Option Nat) : NodeM myId Unit := do
    let isNewLeader ← followLeader env termUpdate request.leaderId request.term
    if isNewLeader then send (.leaderDiscovered request.leaderId request.term)
    replicate env request s.stateSnapshot s.log.lastEntryId
  match checkIncomingTerm s.currentTerm request.term with
  | .rejectStale => record (.answeredAppend (.higherTerm myId s.currentTerm))
  | .accept => accepted none
  | .acceptAndUpdateTerm newTerm => accepted (some newTerm)

/-- The commit index moves only forward over an applied snapshot. -/
def snapshotBoundary (term : Nat) : SnapshotApplyResult → NodeM myId LogId
  | .applied lastIncluded => do
    let s ← Handler.get
    if s.commitIndex < lastIncluded.index then
      updateCommitIndexWithSignal term lastIncluded.index
    pure lastIncluded
  | .ignoredStale current => pure current
  | .ignoredDuplicate current => pure current

/-- Receive and install a snapshot stream, answer it, and purge what it covers. -/
def installSnapshot (env : Env) (term : Nat) : NodeM myId Unit := do
  match env.snapshotStream with
  | .error _ => record (.answeredSnapshot term false)
  | .ok (.error fault) => do
    record (.answeredSnapshot term false)
    if fault.isFatal then Handler.fail fault
  | .ok (.ok result) => do
    record (.answeredSnapshot term true)
    let boundary ← snapshotBoundary term result
    scheduleInstalledSnapshotPurge env.logIo boundary

def handleInstallSnapshotChunkWorkflow (env : Env) (firstChunk : Option SnapshotChunk) :
    NodeM myId Unit := do
  let s ← Handler.get
  match firstChunk with
  | none => record (.answeredSnapshot s.currentTerm false)
  | some chunk => do
    let accepted (termUpdate : Option Nat) : NodeM myId Unit := do
      let _ ← followLeader env termUpdate chunk.leaderId chunk.leaderTerm
      installSnapshot env (max chunk.leaderTerm s.currentTerm)
    match checkIncomingTerm s.currentTerm chunk.leaderTerm with
    | .rejectStale => record (.answeredSnapshot s.currentTerm false)
    | .accept => accepted none
    | .acceptAndUpdateTerm newTerm => accepted (some newTerm)

/-- A learner follows the term of a vote request and never grants one. -/
def Learner.receiveVoteRequest (env : Env) (request : VoteRequest) : NodeM myId Unit := do
  let s ← Handler.get
  if s.currentTerm < request.term then
    let _ ← commitHardState env.save (some request.term) none
  refuseVote request s.currentTerm

/-- The handling that followers and learners share; they differ in vote requests. -/
def handleReplicaEvent (env : Env) (vote : VoteRequest → NodeM myId Unit) :
    InboundEvent → NodeM myId Unit
  | .receiveVoteRequest request => vote request
  | .clusterConf => pure ()
  | .clusterConfUpdate _ _ => pure ()
  | .appendEntries request => handleAppendEntriesRequestWorkflow env request
  | .installSnapshotChunk firstChunk => handleInstallSnapshotChunkWorkflow env firstChunk
  | .joinCluster _ => Handler.fail .roleViolation
  | .discoverLeader => pure ()
  | .fatalError => Handler.fail (.fatal "Fatal error")

def Follower.handleInboundEvent (env : Env) : InboundEvent → NodeM myId Unit :=
  handleReplicaEvent env (Follower.receiveVoteRequest env)

def Learner.handleInboundEvent (env : Env) : InboundEvent → NodeM myId Unit :=
  handleReplicaEvent env (Learner.receiveVoteRequest env)

end Workflows

end DEngine.Raft

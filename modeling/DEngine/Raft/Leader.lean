import DEngine.Raft.Node

/-!
# The leader

The leader's ledger of its peers, the acknowledgements that move it and the
commit index, and everything by which a leader produces log entries and
requests: batches of client writes, heartbeats, the no-op of a new term and
membership changes.

## Implementation notes

The worker of a peer is its id in `replicationWorkers`; what it sends is in the
journal. The learners that are ready for promotion are found by ascending id,
where the source iterates over a hash map.
-/

namespace DEngine.Raft

open Library Storage Replication

/-! ## The ledger of the peers -/

structure PeerUpdate where
  matchIndex : Option Nat
  nextIndex : Nat
  success : Bool
deriving DecidableEq, Repr

def handleSuccessResponse (peerTerm : Nat) (lastMatch : Option LogId) (leaderTerm : Nat) :
    Except Fault PeerUpdate :=
  let matchLog := lastMatch.getD ⟨0, 0⟩
  if leaderTerm < peerTerm then .error (.higherTerm peerTerm)
  else .ok ⟨some matchLog.index, matchLog.index + 1, true⟩

def handleConflictResponse (conflictTerm conflictIndex : Option Nat) (log : BufferedRaftLog)
    (currentNextIndex : Nat) : PeerUpdate :=
  let nextIndex :=
    match conflictTerm, conflictIndex with
    | some term, some index =>
      match log.lastIndexForTerm term with
      | some last => last + 1
      | none => index
    | none, some index => index
    | _, none => currentNextIndex - 1
  ⟨none, max nextIndex 1, false⟩

namespace LeaderState

variable {myId : Nat} (l : LeaderState myId)

/-- The next index never falls behind what the peer has acknowledged. -/
def updateNextIndex (peer newNextId : Nat) : LeaderState myId :=
  { l with nextIndex := l.nextIndex.insert peer (max newNextId ((l.matchIndex[peer]?).getD 0 + 1)) }

def updateMatchIndex (peer newMatchId : Nat) : LeaderState myId :=
  if (l.matchIndex[peer]?).getD 0 < newMatchId then
    { l with matchIndex := l.matchIndex.insert peer newMatchId }
  else l

def initPeersNextIndexAndMatchIndex (lastEntryId : Nat) (peerIds : List Nat) :
    LeaderState myId :=
  peerIds.foldl (fun l peer => (l.updateNextIndex peer (lastEntryId + 1)).updateMatchIndex peer 0) l

def peerState (peer : Nat) : PeerReplicationState := (l.peerReplicationState[peer]?).getD .probe

def setPeerState (peer : Nat) (state : PeerReplicationState) : LeaderState myId :=
  { l with peerReplicationState := l.peerReplicationState.insert peer state }

def sendToWorkerOrSpawn (peer : Nat) : LeaderState myId :=
  { l with replicationWorkers :=
      if peer ∈ l.replicationWorkers then l.replicationWorkers else peer :: l.replicationWorkers }

/-- A success never takes the next index back, a conflict may. -/
def updatePeerIndex (peer : Nat) (update : PeerUpdate) : LeaderState myId :=
  let advanced :=
    if update.success then
      (l.updateNextIndex peer (max update.nextIndex ((l.nextIndex[peer]?).getD 1))).setPeerState
        peer .replicate
    else (l.updateNextIndex peer update.nextIndex).setPeerState peer .probe
  match update.matchIndex with
  | some matchIndex => advanced.updateMatchIndex peer matchIndex
  | none => advanced

def handlePeerStreamError (peer : Nat) : LeaderState myId :=
  if l.peerState peer = .snapshot then l
  else (l.updateNextIndex peer ((l.matchIndex[peer]?).getD 0 + 1)).setPeerState peer .probe

def handleSnapshotPushCompleted (peer : Nat) : LeaderState myId :=
  if l.peerState peer ≠ .snapshot ∨ peer ∉ l.replicationWorkers then l
  else l.setPeerState peer .probe

/-- Refresh the cached membership, start the ledger of new peers and drop the workers of
removed ones. -/
def membershipApplied (lastEntryId : Nat) (m : Membership) : LeaderState myId :=
  let old := l.clusterMetadata.replicationTargets.map Prod.fst
  let metadata : ClusterMetadata myId := .ofMembership m
  let current := metadata.replicationTargets.map Prod.fst
  let l := { l with clusterMetadata := metadata }
  let l := l.initPeersNextIndexAndMatchIndex lastEntryId (current.filter fun id => decide (id ∉ old))
  { l with replicationWorkers :=
      l.replicationWorkers.filter fun id => decide (id ∉ old ∨ id ∈ current) }

/-- The acknowledged indexes of the peers that count towards a quorum. -/
def matchedIds : List Nat :=
  (l.matchIndex.toList.filter fun p => l.clusterMetadata.isVoter p.1).map Prod.snd

/-- Record a request as sent, unless a snapshot is on its way to the peer. -/
def dispatchAppend (p : Nat × AppendEntriesRequest × Nat) : LeaderState myId :=
  if l.peerState p.1 = .snapshot then l
  else
    let nextIndex :=
      if l.peerState p.1 = .replicate then p.2.2 + p.2.1.entries.length else p.2.2
    (l.updateNextIndex p.1 nextIndex).sendToWorkerOrSpawn p.1

def dispatchSnapshot (backoff : List Nat) (peer : Nat) : LeaderState myId :=
  if peer ∈ backoff ∨ l.peerState peer = .snapshot then l
  else (l.sendToWorkerOrSpawn peer).setPeerState peer .snapshot

end LeaderState

section Handlers

variable {myId : Nat}

/-! ## Commit -/

def calculateNewCommitIndex (s : Node myId) : Option Nat :=
  match s.log.calculateMajorityMatchedIndex s.currentTerm s.commitIndex s.leader.matchedIds with
  | some n => if s.commitIndex < n then some n else none
  | none => none

/-- The committed no-op makes the leader ready for reads. -/
def runCommitAction : PostCommitAction → NodeM myId Unit
  | .leaderNoop term => do
    let s ← Handler.get
    modifyLeader fun l => { l with noopLogId := some s.log.lastEntryId }
    send (.noopCommitted term)
  | .nodeJoin _ => pure ()

def drainCommitActions (newCommit : Nat) : NodeM myId Unit := do
  let s ← Handler.get
  let due := s.leader.pendingCommitActions.range 0 newCommit
  modifyLeader fun l =>
    { l with pendingCommitActions := l.pendingCommitActions.eraseRange 0 newCommit }
  Handler.each (fun p => runCommitAction p.2) due

def commitTo (newCommit : Nat) : NodeM myId Unit := do
  let s ← Handler.get
  updateCommitIndexWithSignal s.currentTerm newCommit
  drainCommitActions newCommit

/-- Commit what a quorum holds, if that is more than before. -/
def commitByQuorum : NodeM myId Unit := do
  let s ← Handler.get
  match calculateNewCommitIndex s with
  | some newCommit => do
    record (.quorum newCommit s.log.lastEntryId s.leader.clusterMetadata.totalVoters
      (s.membership.voters myId))
    commitTo newCommit
  | none => pure ()

/-- A single voter commits its whole log; otherwise a quorum decides. -/
def handleLogFlushed : NodeM myId Unit := do
  let s ← Handler.get
  if s.leader.clusterMetadata.singleVoter then
    if s.commitIndex < s.log.lastEntryId then commitTo s.log.lastEntryId
  else commitByQuorum

/-! ## Acknowledgements -/

/-- The learners that have caught up and wait for promotion in the membership. -/
def findPromotableLearners (s : Node myId) : List Nat :=
  (s.leader.matchIndex.toList.filter fun p =>
    s.leader.clusterMetadata.isLearner p.1 &&
      decide (s.commitIndex - p.2 ≤ s.config.learnerCatchupThreshold) &&
      ((s.membership.nodes[p.1]?).any fun node => decide (node.status = .promotable))).map Prod.fst

def checkLearnerProgress (env : Env) : NodeM myId Unit := do
  if env.learnerCheckDue then
    let s ← Handler.get
    let ready := (findPromotableLearners s).filter fun id => decide (id ∉ s.leader.pendingPromotions)
    if ready ≠ [] then
      modifyLeader fun l => { l with pendingPromotions := l.pendingPromotions ++ ready }
      send .promoteReadyLearners

/-- A higher term of a peer is adopted at once; the role changes later. -/
def stepDownTo (env : Env) (term : Nat) : NodeM myId Unit := do
  let _ ← commitHardState env.save (some term) none
  send (.becomeFollower none)
  Handler.fail (.higherTerm term)

def applyPeerUpdate (env : Env) (followerId : Nat) (update : PeerUpdate) : NodeM myId Unit := do
  let s ← Handler.get
  modifyLeader fun l => l.updatePeerIndex followerId update
  if s.leader.clusterMetadata.isVoter followerId then
    if update.success then commitByQuorum
  else checkLearnerProgress env

def handleAppendResult (env : Env) (followerId : Nat) (result : Option AppendEntriesResponse) :
    NodeM myId Unit := do
  let s ← Handler.get
  match result with
  | none => pure ()
  | some response =>
    if response.term < s.currentTerm then pure ()
    else if s.currentTerm < response.term then stepDownTo env response.term
    else
      match response.result with
      | some (.success lastMatch) =>
        match handleSuccessResponse response.term lastMatch s.currentTerm with
        | .error fault => Handler.fail fault
        | .ok update => do
          record (.acknowledged followerId (update.matchIndex.getD 0))
          applyPeerUpdate env followerId update
      | some (.conflict conflictTerm conflictIndex) =>
        applyPeerUpdate env followerId
          (handleConflictResponse conflictTerm conflictIndex s.log
            ((s.leader.nextIndex[followerId]?).getD 1))
      | some (.higherTerm term) =>
        if s.currentTerm < term then stepDownTo env term else pure ()
      | none => pure ()

/-! ## Producing entries and requests -/

/-- The entries that a batch of payloads becomes. -/
def generatedEntries (s : Node myId) (payloads : List EntryPayload) : List Entry :=
  match (generateNewEntries payloads s.currentTerm s.log).1 with
  | .ok entries => entries
  | .error _ => []

def executeAndProcessRaftRpc (env : Env) (payloads : List EntryPayload) : NodeM myId Unit := do
  let s ← Handler.get
  record (.generated (generatedEntries s payloads))
  let requests ← onLog (prepareBatchRequests myId s.config.maxEntriesPerReplication payloads
    s.stateSnapshot s.leader.nextIndex s.leader.clusterMetadata.targets)
  Handler.each (fun p => record (.requested p.1 p.2.1)) requests.appendRequests
  modifyLeader fun l => requests.appendRequests.foldl LeaderState.dispatchAppend l
  if env.snapshotReady then
    modifyLeader fun l =>
      requests.snapshotTargets.foldl (fun l peer => l.dispatchSnapshot env.snapshotBackoff peer) l

def noopPayload : EntryPayload := ⟨some .noop⟩

def configPayload (change : MembershipChange) : EntryPayload := ⟨some (.config (some change))⟩

/-- The action for the no-op is registered before the no-op is written. -/
def initiateNoopCommit (env : Env) : NodeM myId Unit := do
  let s ← Handler.get
  let noopIndex := s.log.lastEntryId + 1
  modifyLeader fun l =>
    { l with pendingCommitActions :=
        l.pendingCommitActions.insert noopIndex (.leaderNoop s.currentTerm) }
  match ← Handler.attempt (executeAndProcessRaftRpc env [noopPayload]) with
  | .ok () => pure ()
  | .error fault => do
    modifyLeader fun l =>
      { l with pendingCommitActions := l.pendingCommitActions.erase noopIndex }
    Handler.fail fault

def calculateSafeBatchSize (current available : Nat) : Nat :=
  if (current + available) % 2 = 1 then available else available - 1

/-- Propose the promotion of as many waiting learners as keep the number of voters odd. -/
def handlePromoteReadyLearners (env : Env) : NodeM myId Unit := do
  modifyLeader fun l =>
    { l with pendingPromotions := l.pendingPromotions.drop env.staleLearners }
  let s ← Handler.get
  let pending := s.leader.pendingPromotions
  let size := calculateSafeBatchSize ((s.membership.voters myId).length + 1) pending.length
  if pending ≠ [] ∧ size ≠ 0 then
    modifyLeader fun l => { l with pendingPromotions := pending.drop size }
    match ← Handler.attempt (executeAndProcessRaftRpc env
        [configPayload (.batchPromote (pending.take size) .active)]) with
    | .error fault => do
      modifyLeader fun l => { l with pendingPromotions := pending }
      Handler.fail fault
    | .ok () => if pending.drop size ≠ [] then send .promoteReadyLearners

def handleJoinCluster (env : Env) (request : JoinRequest) : NodeM myId Unit := do
  let s ← Handler.get
  if s.membership.containsNode request.nodeId then
    Handler.fail (.nodeAlreadyExists request.nodeId)
  else if request.nodeRole ≠ .learner then Handler.fail .notLearner
  else do
    executeAndProcessRaftRpc env
      [configPayload (.addNode request.nodeId request.address request.status)]
    let s ← Handler.get
    modifyLeader fun l =>
      { l with pendingCommitActions :=
          l.pendingCommitActions.insert s.log.lastEntryId (.nodeJoin request.nodeId) }

/-- Propose the removal of each learner whose promotion has become stale. -/
def checkAndPurgeStaleFront (env : Env) : NodeM myId Unit := do
  let s ← Handler.get
  modifyLeader fun l =>
    { l with pendingPromotions := l.pendingPromotions.drop env.staleLearners }
  Handler.each
    (fun id => do
      let _ ← Handler.attempt
        (executeAndProcessRaftRpc env [configPayload (.batchRemove [id])]))
    (s.leader.pendingPromotions.take env.staleLearners)

/-! ## Ticks, client commands and inbound events -/

namespace Leader

/-- A leader whose no-op timed out steps down. -/
def expireActions (env : Env) : NodeM myId Unit := do
  let s ← Handler.get
  let expired := env.expiredActions.filterMap fun key => s.leader.pendingCommitActions[key]?
  modifyLeader fun l =>
    { l with pendingCommitActions := l.pendingCommitActions.eraseKeys env.expiredActions }
  if expired.any fun action =>
      match action with
      | .leaderNoop _ => true
      | .nodeJoin _ => false then
    send (.becomeFollower none)

def tick (env : Env) : NodeM myId Unit := do
  setCurrentLeader myId
  checkAndPurgeStaleFront env
  if env.heartbeatDue then
    let s ← Handler.get
    modifyLeader fun l => { l with proposeBuffer := [] }
    executeAndProcessRaftRpc env s.leader.proposeBuffer
  expireActions env

/-- Queue a command, or turn it away under back pressure. -/
def pushClientCmd (config : Config) (l : LeaderState myId) : ClientCmd → LeaderState myId
  | .propose none => l
  | .propose (some command) =>
    if 0 < config.maxPendingWrites ∧ config.maxPendingWrites ≤ l.proposeBuffer.length then l
    else { l with proposeBuffer := l.proposeBuffer ++ [⟨some (.command command)⟩] }
  | .read policy =>
    let effective :=
      if config.allowClientOverride then policy.getD config.defaultPolicy
      else config.defaultPolicy
    match effective with
    | .linearizableRead =>
      if 0 < config.maxPendingReads ∧ config.maxPendingReads ≤ l.linearizableReadBuffer then l
      else { l with linearizableReadBuffer := l.linearizableReadBuffer + 1 }
    | .leaseRead =>
      if 0 < config.maxPendingReads ∧ config.maxPendingReads ≤ l.leaseReadQueue then l
      else { l with leaseReadQueue := l.leaseReadQueue + 1 }
    | .eventualConsistency => l
  | .scan => l

/-- Each lease read that finds the lease expired sends a heartbeat. -/
def processLeaseReads (env : Env) : NodeM myId Unit := do
  let s ← Handler.get
  modifyLeader fun l => { l with leaseReadQueue := 0 }
  if s.leader.clusterMetadata.singleVoter = false then
    Handler.each
      (fun _ => do
        let _ ← Handler.attempt (executeAndProcessRaftRpc env []))
      (List.replicate (min env.expiredLeaseReads s.leader.leaseReadQueue) ())

def flushCmdBuffers (env : Env) : NodeM myId Unit := do
  let s ← Handler.get
  if s.leader.proposeBuffer ≠ [] ∨ 0 < s.leader.linearizableReadBuffer then
    modifyLeader fun l => { l with proposeBuffer := [], linearizableReadBuffer := 0 }
    executeAndProcessRaftRpc env s.leader.proposeBuffer
  processLeaseReads env

/-- A higher term of a candidate is adopted at once; the follower answers the replay. -/
def receiveVoteRequest (env : Env) (request : VoteRequest) : NodeM myId Unit := do
  let s ← Handler.get
  if s.currentTerm < request.term then
    let _ ← commitHardState env.save (some request.term) none
    send (.becomeFollower none)
    send (.reprocessEvent (.receiveVoteRequest request))
  else
    let lastLogId := s.log.lastLogId.getD ⟨0, 0⟩
    record (.answeredVote request ⟨s.currentTerm, false, lastLogId.index, lastLogId.term⟩)

/-- A newer leader makes this one step down and replay the request; the term stays. -/
def yieldTo (leaderId : Nat) (event : InboundEvent) : NodeM myId Unit := do
  send (.becomeFollower (some leaderId))
  send (.reprocessEvent event)

def handleInboundEvent (env : Env) : InboundEvent → NodeM myId Unit
  | .receiveVoteRequest request => receiveVoteRequest env request
  | .clusterConf => pure ()
  | .clusterConfUpdate id term => do
    let s ← Handler.get
    if s.currentTerm < term then yieldTo id (.clusterConfUpdate id term)
  | .appendEntries request => do
    let s ← Handler.get
    if s.currentTerm < request.term then
      yieldTo request.leaderId (.appendEntries request)
    else record (.answeredAppend (.higherTerm myId s.currentTerm))
  | .installSnapshotChunk _ => Handler.fail .roleViolation
  | .joinCluster request => handleJoinCluster env request
  | .discoverLeader => do
    let s ← Handler.get
    if s.membership.containsNode myId = false then
      Handler.fail (.panic "Leader can not find its address? It must be a bug.")
  | .fatalError => Handler.fail (.fatal "Fatal error")

end Leader

end Handlers

end DEngine.Raft

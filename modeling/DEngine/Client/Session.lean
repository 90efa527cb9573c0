import DEngine.Client.ReadLease
import DEngine.Raft.EventLoop

/-!
# A leader and its clients

The commands of clients, the channels on which they are answered, the read lease
and the clock, on top of the node that handles the events. A handler of this file
is the handler of the node together with what it does for the clients.

## Implementation notes

A reply channel is a number, and every submitted command has its own; the
channels of the proposals are aligned with the payloads that the node buffers.
The handlers run in any order and at any time. One handler reads the clock once.
Reads and scans that ask for no guarantee are answered on the spot and left out.
What is sent, acknowledged, answered and renewed is kept for the statements about
whole runs and never read by a handler.
-/

namespace DEngine.Client

open Library Storage Replication Raft

/-! ## Requests and replies -/

/-- The status of a request that failed. -/
inductive Status where
  | deadlineExceeded (message : String)
  | unavailable (message : String)
  | failedPrecondition (message : String)
  | resourceExhausted (message : String)
  | invalidArgument (message : String)
  /-- The batch of the request could not be prepared. -/
  | prepareFailed (fault : Fault)
  | nodeFatalError
deriving DecidableEq, Repr

inductive ErrorCode where
  | proposeFailed
  | termOutdated
deriving DecidableEq, Repr

inductive Reply where
  | writeSuccess
  | casFailure
  | readResults
  | clientError (code : ErrorCode)
  | failed (status : Status)
deriving DecidableEq, Repr

structure RaftRequestWithSignal where
  payloads : List EntryPayload
  senders : List Nat
  waitForApplyEvent : Bool
deriving DecidableEq, Repr

/-- A written batch that waits for its commit. -/
structure WriteMetadata where
  startIdx : Nat
  senders : List Nat
  waitForApply : Bool
  deadline : Nat
deriving DecidableEq, Repr

/-- A linearizable read, with the time of its arrival. -/
structure ReadRequest where
  sender : Nat
  arrived : Nat
deriving DecidableEq, Repr

structure PendingReadBatch where
  deadline : Nat
  requests : List ReadRequest
deriving DecidableEq, Repr

structure PendingLeaseRead where
  sender : Nat
  deadline : Nat
deriving DecidableEq, Repr

structure ApplyResult where
  index : Nat
  succeeded : Bool
deriving DecidableEq, Repr

/-- A success that a peer sent in answer to a request of the given time. -/
structure Ack where
  peer : Nat
  term : Nat
  sentAt : Nat
deriving DecidableEq, Repr

/-- A linearizable read that was answered from the state machine, with what held then. -/
structure ServedRead where
  request : ReadRequest
  readIndex : Nat
  lastApplied : Nat
  leaseValid : Bool
  singleVoter : Bool
  term : Nat
  voters : List Nat
  acks : List Ack
deriving DecidableEq, Repr

/-- A renewal of the lease by an acknowledgement, with what held then. -/
structure Renewal where
  sendTs : Nat
  term : Nat
  voters : List Nat
  acks : List Ack
deriving DecidableEq, Repr

/-! ## The state -/

structure Session (myId : Nat) where
  node : Node myId
  clock : Nat
  leaseDurationMs : Nat
  generalRaftTimeoutMs : Nat
  lastApplied : Nat
  lease : ReadLease
  lastHeartbeatSendTs : Nat
  proposeSenders : List Nat
  linearizableReadBuffer : List ReadRequest
  leaseReadQueue : List Nat
  pendingClientWrites : OrderedMap WriteMetadata
  pendingWriteApply : OrderedMap Nat
  pendingReads : OrderedMap PendingReadBatch
  pendingLeaseReads : List PendingLeaseRead
  nextSender : Nat
  /-- The channels of the proposals that were accepted. -/
  accepted : List Nat
  writeReplies : List (Nat × Reply)
  readReplies : List (Nat × Reply)
  /-- The requests to peers, with the time of each. -/
  sent : List (Nat × Nat)
  acks : List Ack
  /-- The indexes whose results have been handled. -/
  covered : List Nat
  served : List ServedRead
  renewals : List Renewal

abbrev SessionM (myId : Nat) := Handler (Session myId) Fault

variable {myId : Nat}

namespace Session

/-- A node without clients, at some time. -/
def start (node : Node myId) (clock leaseDurationMs generalRaftTimeoutMs lastApplied : Nat) :
    Session myId where
  node := node
  clock := clock
  leaseDurationMs := leaseDurationMs
  generalRaftTimeoutMs := generalRaftTimeoutMs
  lastApplied := lastApplied
  lease := .new
  lastHeartbeatSendTs := 0
  proposeSenders := []
  linearizableReadBuffer := []
  leaseReadQueue := []
  pendingClientWrites := ∅
  pendingWriteApply := ∅
  pendingReads := ∅
  pendingLeaseReads := []
  nextSender := 0
  accepted := []
  writeReplies := []
  readReplies := []
  sent := []
  acks := []
  covered := []
  served := []
  renewals := []

def isLeaseValid (s : Session myId) : Bool :=
  s.lease.isValidForLeader s.node.currentTerm s.clock

def singleVoter (s : Session myId) : Bool := s.node.leader.clusterMetadata.singleVoter

/-- The other voters, as the leader knows them. -/
def voters (s : Session myId) : List Nat :=
  (s.node.leader.clusterMetadata.replicationTargets.filter fun p =>
    decide (p.2.role ≠ .learner)).map Prod.fst

def calculateReadIndex (s : Session myId) : Nat :=
  max s.node.commitIndex (s.node.leader.noopLogId.getD 0)

/-- The acknowledged indexes reach the commit index at a majority. -/
def quorumConfirmed (s : Session myId) : Bool :=
  (s.node.log.calculateMajorityMatchedIndex s.node.currentTerm s.node.commitIndex
    s.node.leader.matchedIds).isSome

/-- What holds when a linearizable read is answered. -/
def serve (s : Session myId) (readIndex : Nat) (request : ReadRequest) : ServedRead where
  request := request
  readIndex := readIndex
  lastApplied := s.lastApplied
  leaseValid := s.isLeaseValid
  singleVoter := s.singleVoter
  term := s.node.currentTerm
  voters := s.voters
  acks := s.acks

/-- The time from which an acknowledgement renews the lease. -/
def sendTs (s : Session myId) : Nat :=
  if 0 < s.lastHeartbeatSendTs then s.lastHeartbeatSendTs else s.clock

end Session

/-! ## Elementary operations -/

/-- The journal announces a run of the request executor. -/
def startsRound : Action → Bool
  | .generated _ => true
  | _ => false

def requestedPeer : Action → Option Nat
  | .requested peer _ => some peer
  | _ => none

/-- Run a handler of the node. The request executor dates what it sends. -/
def onNode {α : Type} (x : NodeM myId α) : SessionM myId α := fun s =>
  let result := x s.node
  let recorded := result.2.journal.take (result.2.journal.length - s.node.journal.length)
  (result.1,
    { s with
      node := result.2
      lastHeartbeatSendTs :=
        if recorded.any startsRound then s.clock else s.lastHeartbeatSendTs
      sent := (recorded.filterMap requestedPeer).map (fun peer => (peer, s.clock)) ++ s.sent })

def answerWrites (senders : List Nat) (reply : Reply) : SessionM myId Unit :=
  Handler.modify fun s =>
    { s with writeReplies := senders.map (fun sender => (sender, reply)) ++ s.writeReplies }

def answerReads (senders : List Nat) (reply : Reply) : SessionM myId Unit :=
  Handler.modify fun s =>
    { s with readReplies := senders.map (fun sender => (sender, reply)) ++ s.readReplies }

/-- Answer linearizable reads from the state machine. -/
def executePendingReads (readIndex : Nat) (requests : List ReadRequest) : SessionM myId Unit :=
  Handler.modify fun s =>
    { s with
      readReplies := requests.map (fun r => (r.sender, .readResults)) ++ s.readReplies
      served := requests.map (s.serve readIndex) ++ s.served }

/-- Answer the linearizable reads that wait for an index up to the given one. -/
def servePendingReads (upTo : Nat) : SessionM myId Unit := do
  let s ← Handler.get
  Handler.modify fun s => { s with pendingReads := s.pendingReads.eraseRange 0 upTo }
  Handler.each (fun p => executePendingReads p.1 p.2.requests) (s.pendingReads.range 0 upTo)

def drainPendingLeaseReads : SessionM myId Unit := do
  let s ← Handler.get
  answerReads (s.pendingLeaseReads.map PendingLeaseRead.sender) .readResults
  Handler.modify fun s => { s with pendingLeaseReads := [] }

def updateLeaseTimestamp (sendTs : Nat) : SessionM myId Unit := do
  let s ← Handler.get
  match ReadLease.renew s.node.currentTerm (min (sendTs + s.leaseDurationMs) u64Max) with
  | .ok lease => Handler.modify fun s => { s with lease := lease }
  | .error fault => Handler.fail fault

def revokeLease : SessionM myId Unit := Handler.modify fun s => { s with lease := .revoke }

/-! ## Writes -/

/-- The channels of a batch under the indexes of its entries. -/
def WriteMetadata.numbered (metadata : WriteMetadata) : List (Nat × Nat) :=
  (List.range' metadata.startIdx metadata.senders.length).zip metadata.senders

/-- A committed batch waits for its results, or is answered at once. -/
def settleBatch (metadata : WriteMetadata) : SessionM myId Unit :=
  if metadata.waitForApply then
    Handler.modify fun s =>
      { s with pendingWriteApply :=
          metadata.numbered.foldl (fun m p => m.insert p.1 p.2) s.pendingWriteApply }
  else answerWrites metadata.senders .writeSuccess

def drainPendingClientWrites (newCommit : Nat) : SessionM myId Unit := do
  let s ← Handler.get
  Handler.modify fun s =>
    { s with pendingClientWrites := s.pendingClientWrites.eraseRange 0 newCommit }
  Handler.each (fun p => settleBatch p.2) (s.pendingClientWrites.range 0 newCommit)

def drainPendingWritesWithError (code : ErrorCode) : SessionM myId Unit := do
  let s ← Handler.get
  answerWrites (s.pendingClientWrites.toList.flatMap fun p => p.2.senders) (.clientError code)
  Handler.modify fun s => { s with pendingClientWrites := ∅ }

/-- Phase 2: keep the channels of a written batch under the index of its last entry. -/
def recordWrites (metadata : WriteMetadata) : SessionM myId Unit :=
  if metadata.senders ≠ [] then
    Handler.modify fun s =>
      let dated := { metadata with deadline := s.clock + s.generalRaftTimeoutMs }
      { s with pendingClientWrites :=
          s.pendingClientWrites.insert (metadata.startIdx + metadata.senders.length - 1) dated }
  else pure ()

/-- Phase 3: serve linearizable reads under a valid lease, or let them wait. -/
def routeReads (reads : List ReadRequest) : SessionM myId Unit := do
  let s ← Handler.get
  if s.node.leader.noopLogId = none then
    answerReads (reads.map ReadRequest.sender)
      (.failed (.unavailable "LeaderNotReady: noop not committed"))
  else
    let readIndex := s.calculateReadIndex
    if (s.singleVoter || s.isLeaseValid) ∧ readIndex ≤ s.lastApplied then
      executePendingReads readIndex reads
    else
      let batch := (s.pendingReads[readIndex]?).getD ⟨s.clock + s.generalRaftTimeoutMs, []⟩
      let extended := { batch with requests := batch.requests ++ reads }
      Handler.modify fun s => { s with pendingReads := s.pendingReads.insert readIndex extended }

def executeAndProcessRaftRpc (env : Env) (payloads : List EntryPayload)
    (writeMetadata : Option WriteMetadata) (readBatch : Option (List ReadRequest)) :
    SessionM myId Unit := do
  match ← Handler.attempt (onNode (Raft.executeAndProcessRaftRpc env payloads)) with
  | .error fault => do
    answerWrites ((writeMetadata.map WriteMetadata.senders).getD []) (.clientError .proposeFailed)
    answerReads ((readBatch.getD []).map ReadRequest.sender) (.failed (.prepareFailed fault))
    Handler.fail fault
  | .ok () => do
    Handler.each recordWrites writeMetadata.toList
    Handler.each routeReads readBatch.toList

def mergeBatchToWriteMetadata (batch : List RaftRequestWithSignal) (startIdx : Nat) :
    List EntryPayload × Option WriteMetadata :=
  let payloads := batch.flatMap RaftRequestWithSignal.payloads
  let senders := batch.flatMap RaftRequestWithSignal.senders
  (payloads,
    if payloads = [] ∧ senders = [] then none
    else some ⟨startIdx, senders, batch.any RaftRequestWithSignal.waitForApplyEvent, 0⟩)

def processBatch (env : Env) (batch : List RaftRequestWithSignal) : SessionM myId Unit := do
  let s ← Handler.get
  let merged := mergeBatchToWriteMetadata batch (s.node.log.lastEntryId + 1)
  executeAndProcessRaftRpc env merged.1 merged.2 none

/-- Take the proposals out of their buffer. -/
def flushProposeBuffer : SessionM myId (Option RaftRequestWithSignal) := do
  let s ← Handler.get
  if s.node.leader.proposeBuffer = [] then pure none
  else do
    onNode (modifyLeader fun l => { l with proposeBuffer := [] })
    Handler.modify fun s => { s with proposeSenders := [] }
    pure (some ⟨s.node.leader.proposeBuffer, s.proposeSenders, true⟩)

def sendHeartbeatOrBatch (env : Env) : Option RaftRequestWithSignal → SessionM myId Unit
  | some request => processBatch env [request]
  | none => executeAndProcessRaftRpc env [] none none

/-- One request for the proposals and the linearizable reads. -/
def unifiedWriteAndLinearRead (env : Env) : SessionM myId Unit := do
  let request ← flushProposeBuffer
  let s ← Handler.get
  onNode (modifyLeader fun l => { l with linearizableReadBuffer := 0 })
  Handler.modify fun s => { s with linearizableReadBuffer := [] }
  executeAndProcessRaftRpc env ((request.map RaftRequestWithSignal.payloads).getD [])
    (request.map fun r => ⟨s.node.log.lastEntryId + 1, r.senders, r.waitForApplyEvent, 0⟩)
    (if s.linearizableReadBuffer = [] then none else some s.linearizableReadBuffer)

/-! ## Lease reads -/

def processLeaseRead (env : Env) (sender : Nat) : SessionM myId Unit := do
  let s ← Handler.get
  if s.isLeaseValid then answerReads [sender] .readResults
  else if s.singleVoter then do
    updateLeaseTimestamp s.clock
    answerReads [sender] .readResults
  else do
    Handler.modify fun s =>
      { s with pendingLeaseReads :=
          s.pendingLeaseReads ++ [⟨sender, s.clock + s.generalRaftTimeoutMs⟩] }
    executeAndProcessRaftRpc env [] none none

def processLeaseReads (env : Env) : SessionM myId Unit := do
  let s ← Handler.get
  onNode (modifyLeader fun l => { l with leaseReadQueue := 0 })
  Handler.modify fun s => { s with leaseReadQueue := [] }
  Handler.each
    (fun sender => do
      let _ ← Handler.attempt (processLeaseRead env sender))
    s.leaseReadQueue

/-! ## Commands, flushes and ticks -/

/-- Write down a command that was turned away, or the channel of one that was queued. -/
def pushClientCmd (cmd : ClientCmd) : SessionM myId Unit := do
  let s ← Handler.get
  Handler.modify fun s => { s with nextSender := s.nextSender + 1 }
  onNode (modifyLeader fun l => Leader.pushClientCmd s.node.config l cmd)
  let config := s.node.config
  match cmd with
  | .propose command =>
    if 0 < config.maxPendingWrites ∧
        config.maxPendingWrites ≤ s.node.leader.proposeBuffer.length then
      answerWrites [s.nextSender]
        (.failed (.resourceExhausted "Too many pending write requests"))
    else
      match command with
      | none => answerWrites [s.nextSender] (.failed (.invalidArgument "Command is empty"))
      | some _ =>
        Handler.modify fun t =>
          { t with
            accepted := s.nextSender :: t.accepted
            proposeSenders := t.proposeSenders ++ [s.nextSender] }
  | .read policy =>
    let effective :=
      if config.allowClientOverride then policy.getD config.defaultPolicy
      else config.defaultPolicy
    match effective with
    | .linearizableRead =>
      if 0 < config.maxPendingReads ∧
          config.maxPendingReads ≤ s.linearizableReadBuffer.length then
        answerReads [s.nextSender]
          (.failed (.resourceExhausted "Too many pending read requests"))
      else
        Handler.modify fun t =>
          { t with linearizableReadBuffer :=
              t.linearizableReadBuffer ++ [⟨s.nextSender, t.clock⟩] }
    | .leaseRead =>
      if 0 < config.maxPendingReads ∧ config.maxPendingReads ≤ s.leaseReadQueue.length then
        answerReads [s.nextSender]
          (.failed (.resourceExhausted "Too many pending read requests"))
      else
        Handler.modify fun t => { t with leaseReadQueue := t.leaseReadQueue ++ [s.nextSender] }
    | .eventualConsistency => pure ()
  | .scan => pure ()

def flushCmdBuffers (env : Env) : SessionM myId Unit := do
  let s ← Handler.get
  if s.node.leader.proposeBuffer ≠ [] ∧ s.linearizableReadBuffer = [] then do
    let request ← flushProposeBuffer
    processBatch env request.toList
  else if s.node.leader.proposeBuffer ≠ [] ∨ s.linearizableReadBuffer ≠ [] then
    unifiedWriteAndLinearRead env
  processLeaseReads env

/-- Answer the writes, linearizable reads and lease reads whose deadline has passed. -/
def expireRequests : SessionM myId Unit := do
  let s ← Handler.get
  let writes := s.pendingClientWrites.toList.filter fun p => decide (p.2.deadline ≤ s.clock)
  let reads := s.pendingReads.toList.filter fun p => decide (p.2.deadline ≤ s.clock)
  let leaseReads := s.pendingLeaseReads.filter fun p => decide (p.deadline ≤ s.clock)
  answerWrites (writes.flatMap fun p => p.2.senders)
    (.failed (.deadlineExceeded "write request timeout"))
  answerReads (reads.flatMap fun p => p.2.requests.map ReadRequest.sender)
    (.failed (.deadlineExceeded "read request timeout"))
  answerReads (leaseReads.map PendingLeaseRead.sender)
    (.failed (.deadlineExceeded "lease read timeout"))
  Handler.modify fun s =>
    { s with
      pendingClientWrites := s.pendingClientWrites.eraseKeys (writes.map Prod.fst)
      pendingReads := s.pendingReads.eraseKeys (reads.map Prod.fst)
      pendingLeaseReads := s.pendingLeaseReads.filter fun p => decide (¬ p.deadline ≤ s.clock) }

def tick (env : Env) : SessionM myId Unit := do
  let s ← Handler.get
  if s.node.role = .leader then do
    onNode (setCurrentLeader myId)
    onNode (checkAndPurgeStaleFront env)
    if env.heartbeatDue then do
      let request ← flushProposeBuffer
      sendHeartbeatOrBatch env request
    expireRequests
    onNode (Leader.expireActions env)
  else onNode (Raft.tick env)

/-! ## Commit, acknowledgements and results -/

/-- The commit index that a flush of the own log leads to. -/
def flushedCommit (s : Node myId) : Option Nat :=
  if s.leader.clusterMetadata.singleVoter then
    if s.commitIndex < s.log.lastEntryId then some s.log.lastEntryId else none
  else calculateNewCommitIndex s

def handleLogFlushed : SessionM myId Unit := do
  let s ← Handler.get
  onNode Raft.handleLogFlushed
  match flushedCommit s.node with
  | some newCommit => do
    drainPendingClientWrites newCommit
    if s.singleVoter then do
      updateLeaseTimestamp s.clock
      drainPendingLeaseReads
  | none => pure ()

/-- A confirmed quorum renews the lease from the time of the last request, and serves the reads
that waited for it. -/
def confirmLeadership : SessionM myId Unit := do
  let s ← Handler.get
  updateLeaseTimestamp s.sendTs
  Handler.modify fun s =>
    { s with renewals := ⟨s.sendTs, s.node.currentTerm, s.voters, s.acks⟩ :: s.renewals }
  drainPendingLeaseReads
  servePendingReads s.lastApplied

/-- Behind a counted acknowledgement: move the committed writes on, and confirm the quorum. -/
def settleAcknowledgement (commitBefore : Nat) : SessionM myId Unit := do
  let s ← Handler.get
  if commitBefore < s.node.commitIndex then drainPendingClientWrites s.node.commitIndex
  if s.quorumConfirmed then confirmLeadership

/-- The response is a success of the leader's own term. -/
def acknowledges (term : Nat) : Option AppendEntriesResponse → Bool
  | some response =>
    match response.result with
    | some (.success _) => decide (response.term = term)
    | _ => false
  | none => false

/-- Handle the answer to a request that was sent at the given time. -/
def handleAppendResult (env : Env) (followerId : Nat) (result : Option AppendEntriesResponse)
    (sentAt : Nat) : SessionM myId Unit := do
  let s ← Handler.get
  match ← Handler.attempt (onNode (Raft.handleAppendResult env followerId result)) with
  | .error (.higherTerm term) => do
    drainPendingWritesWithError .termOutdated
    revokeLease
    Handler.fail (.higherTerm term)
  | .error fault => Handler.fail fault
  | .ok () =>
    if acknowledges s.node.currentTerm result then do
      Handler.modify fun s =>
        { s with acks := ⟨followerId, s.node.currentTerm, sentAt⟩ :: s.acks }
      if s.node.leader.clusterMetadata.isVoter followerId then
        settleAcknowledgement s.node.commitIndex

/-- Answer the proposal that waits for the result of its entry. -/
def answerApplied (result : ApplyResult) : SessionM myId Unit := do
  let s ← Handler.get
  match s.pendingWriteApply[result.index]? with
  | some sender => do
    Handler.modify fun s =>
      { s with pendingWriteApply := s.pendingWriteApply.erase result.index }
    answerWrites [sender] (if result.succeeded then .writeSuccess else .casFailure)
  | none => pure ()

def handleApplyCompleted (env : Env) (lastIndex : Nat) (results : List ApplyResult) :
    SessionM myId Unit := do
  Handler.each answerApplied results
  Handler.modify fun s => { s with covered := results.map ApplyResult.index ++ s.covered }
  servePendingReads lastIndex
  onNode (Raft.handleInternalEvent env (.applyCompleted lastIndex))

/-! ## Role changes and failures -/

/-- Turn the clients away before the role changes. -/
def drainReadBuffer : SessionM myId Unit := do
  let s ← Handler.get
  if s.node.role = .leader then do
    answerReads (s.linearizableReadBuffer.map ReadRequest.sender ++ s.leaseReadQueue ++
        (s.pendingReads.toList.flatMap fun p => p.2.requests.map ReadRequest.sender) ++
        s.pendingLeaseReads.map PendingLeaseRead.sender)
      (.failed (.unavailable "Leader stepped down"))
    answerWrites s.proposeSenders (.failed (.failedPrecondition "Not leader"))
    Handler.modify fun s =>
      { s with
        linearizableReadBuffer := []
        leaseReadQueue := []
        pendingReads := ∅
        pendingLeaseReads := []
        proposeSenders := [] }
    drainPendingWritesWithError .proposeFailed
  onNode Raft.drainReadBuffer

/-- What the leader still holds goes with its state. -/
def dropLeaderState : SessionM myId Unit :=
  Handler.modify fun s =>
    { s with
      lastHeartbeatSendTs := 0
      proposeSenders := []
      linearizableReadBuffer := []
      leaseReadQueue := []
      pendingClientWrites := ∅
      pendingWriteApply := ∅
      pendingReads := ∅
      pendingLeaseReads := [] }

def handleBecomeFollower (env : Env) : SessionM myId Unit := do
  drainReadBuffer
  let s ← Handler.get
  onNode becomeFollower
  if s.node.role = .leader then do
    revokeLease
    dropLeaderState
  onNode (commitVoteReset env.save)

/-- Answer the writes that wait for their results and the reads of the buffers, and stop. -/
def handleFatalError (env : Env) : SessionM myId Unit := do
  let s ← Handler.get
  answerWrites (s.pendingWriteApply.toList.map Prod.snd) (.failed .nodeFatalError)
  answerReads (s.linearizableReadBuffer.map ReadRequest.sender ++
      (s.pendingReads.toList.flatMap fun p => p.2.requests.map ReadRequest.sender) ++
      s.leaseReadQueue)
    (.failed .nodeFatalError)
  dropLeaderState
  onNode (Raft.handleInboundEvent env .fatalError)

/-- The event comes from a node with a newer term. -/
def reportsNewerTerm (term : Nat) : InboundEvent → Bool
  | .receiveVoteRequest request => decide (term < request.term)
  | .appendEntries request => decide (term < request.term)
  | _ => false

def handleInboundEvent (env : Env) (event : InboundEvent) : SessionM myId Unit := do
  let s ← Handler.get
  if s.node.role = .leader ∧ event = .fatalError then handleFatalError env
  else do
    onNode (Raft.handleInboundEvent env event)
    if s.node.role = .leader ∧ reportsNewerTerm s.node.currentTerm event then revokeLease

/-- The internal events that carry nothing but what the node reads. -/
def handleInternalEvent (env : Env) : InternalEvent → SessionM myId Unit
  | .becomeFollower _ => handleBecomeFollower env
  | .becomeCandidate => do
    drainReadBuffer
    onNode becomeCandidate
  | .becomeLearner => do
    drainReadBuffer
    onNode becomeLearner
  | .logFlushed _ => do
    let s ← Handler.get
    if s.node.role = .leader then handleLogFlushed
  | .fatalError => do
    dropLeaderState
    onNode (Raft.handleInternalEvent env .fatalError)
  | event => onNode (Raft.handleInternalEvent env event)

/-! ## Runs -/

inductive SessionLabel where
  | elapse (ms : Nat)
  | submit (cmd : ClientCmd)
  /-- The state machine has applied the entries up to the given index. -/
  | apply (upTo : Nat)
  | flush (env : Env)
  | tick (env : Env)
  | appendResult (env : Env) (followerId : Nat) (result : Option AppendEntriesResponse)
      (sentAt : Nat)
  | applyCompleted (env : Env) (lastIndex : Nat) (results : List ApplyResult)
  | internal (env : Env) (event : InternalEvent)
  | inbound (env : Env) (event : InboundEvent)

/-- The event has a label of its own. -/
def hasOwnLabel : InternalEvent → Bool
  | .appendResult _ _ => true
  | .applyCompleted _ => true
  | _ => false

/-- One handler call, or one act of the surroundings. A success answers a request that was
sent, and results are reported behind their application. -/
def Session.step (s : Session myId) : SessionLabel → Option (Session myId)
  | .elapse ms => some { s with clock := s.clock + ms }
  | .submit cmd => if s.node.role = .leader then some (pushClientCmd cmd s).2 else none
  | .apply upTo => if s.lastApplied ≤ upTo then some { s with lastApplied := upTo } else none
  | .flush env => if s.node.role = .leader then some (flushCmdBuffers env s).2 else none
  | .tick env =>
    if s.node.role = .candidate → env.timerExpired → s.node.answersFit env then
      some (tick env s).2
    else none
  | .appendResult env followerId result sentAt =>
    if s.node.role = .leader ∧
        (acknowledges s.node.currentTerm result → (followerId, sentAt) ∈ s.sent) then
      some (handleAppendResult env followerId result sentAt s).2
    else none
  | .applyCompleted env lastIndex results =>
    if s.node.role = .leader ∧ lastIndex ≤ s.lastApplied then
      some (handleApplyCompleted env lastIndex results s).2
    else none
  | .internal env event =>
    if hasOwnLabel event = false then some (handleInternalEvent env event s).2 else none
  | .inbound env event => some (handleInboundEvent env event s).2

/-- A node with clients, from any state of the node without any. -/
def sessions (myId : Nat) : Machine (Session myId) SessionLabel where
  init := fun s => ∃ node clock leaseDurationMs generalRaftTimeoutMs lastApplied,
    s = Session.start node clock leaseDurationMs generalRaftTimeoutMs lastApplied
  step := Session.step

end DEngine.Client

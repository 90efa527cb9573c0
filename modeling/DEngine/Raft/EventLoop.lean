import DEngine.Raft.Leader
import DEngine.Raft.Replica

/-!
# The main loop of a node

Role transitions, the handling of internal events, and the priority loop itself
as a machine: every label is one handler call of the loop, one receive of the
biased selection, or one act of the surroundings.

## Implementation notes

A tick may win over every waiting event at any time, since the deadline is a
matter of the clock. Behind it come internal events, client commands and inbound
events, in this order. What was received is handled to the end before the next
selection. Tasks outside of the loop act between any two handler calls.
-/

namespace DEngine.Raft

open Library Storage Replication

section Transitions

variable {myId : Nat}

/-- A leader that is told to change its role turns its waiting clients away. -/
def drainReadBuffer : NodeM myId Unit :=
  Handler.modify fun s =>
    if s.role = .leader then
      { s with leader :=
          { s.leader with proposeBuffer := [], linearizableReadBuffer := 0, leaseReadQueue := 0 } }
    else s

def becomeFollower : NodeM myId Unit := do
  let s ← Handler.get
  match s.role with
  | .follower => Handler.fail .invalidTransition
  | .candidate => Handler.modify fun s => { s with role := .follower, pendingPurgeUpto := none }
  | .leader => Handler.modify fun s => { s with role := .follower, leader := .fresh }
  | .learner => Handler.modify fun s => { s with role := .follower }

def becomeCandidate : NodeM myId Unit := do
  let s ← Handler.get
  match s.role with
  | .follower => Handler.modify fun s => { s with role := .candidate, pendingPurgeUpto := none }
  | _ => Handler.fail .invalidTransition

def becomeLeader : NodeM myId Unit := do
  let s ← Handler.get
  match s.role with
  | .candidate =>
    Handler.modify fun s =>
      { s with
        role := .leader
        leader := .fresh
        pendingPurgeUpto := none
        shared := { s.shared with currentLeaderId := myId } }
  | _ => Handler.fail .invalidTransition

def becomeLearner : NodeM myId Unit := do
  let s ← Handler.get
  match s.role with
  | .follower => Handler.modify fun s => { s with role := .learner }
  | .candidate => Handler.modify fun s => { s with role := .learner, pendingPurgeUpto := none }
  | _ => Handler.fail .invalidTransition

/-! ## Internal events -/

/-- Log the errors of a handler that do not end the loop. -/
def logged (stops : Fault → Bool) (x : NodeM myId Unit) : NodeM myId Unit := do
  match ← Handler.attempt x with
  | .ok () => pure ()
  | .error fault => if stops fault then Handler.fail fault

/-- Merge waiting commit notifications into one. The first other event that is met goes to
the back of the channel. -/
def mergeNotifications :
    Nat → NewCommitData → List InternalEvent → NewCommitData × List InternalEvent
  | 0, data, rx => (data, rx)
  | _ + 1, data, [] => (data, [])
  | budget + 1, data, .notifyNewCommitIndex next :: rest =>
    mergeNotifications budget
      (if data.newCommitIndex < next.newCommitIndex then next else data) rest
  | _ + 1, data, other :: rest => (data, rest ++ [other])

def notifyNewCommitIndex (data : NewCommitData) : NodeM myId Unit := do
  let s ← Handler.get
  let merged := mergeNotifications (s.config.maxBatchSize - 1) data s.internalRx
  Handler.modify fun s => { s with internalRx := merged.2 }
  record (.notifiedCommit merged.1)

/-- The vote is cleared on every step down. -/
def handleBecomeFollower (env : Env) : NodeM myId Unit := do
  drainReadBuffer
  becomeFollower
  commitVoteReset env.save

/-- Enter the leader role and write the no-op. A leader that cannot write it steps down. -/
def handleBecomeLeader (env : Env) : NodeM myId Unit := do
  becomeLeader
  let s ← Handler.get
  record (.enteredLeader s.currentTerm)
  let _ ← commitHardState env.save none (some ⟨myId, s.currentTerm, true⟩)
  modifyLeader fun l =>
    { l.initPeersNextIndexAndMatchIndex s.log.lastEntryId s.membership.peerIds with
      clusterMetadata := .ofMembership s.membership }
  match ← Handler.attempt (initiateNoopCommit env) with
  | .ok () => pure ()
  | .error (.panic message) => Handler.fail (.panic message)
  | .error _ => send (.becomeFollower none)

/-- Only a completion of this term, for a peer whose snapshot is still on its way, counts. -/
def snapshotPushCompleted (peer : Nat) (success : Bool) (term : Nat)
    (lastIncludedIndex : Option Nat) : NodeM myId Unit := do
  let s ← Handler.get
  if term = s.currentTerm ∧ s.role = .leader ∧ s.leader.peerState peer = .snapshot then
    modifyLeader fun l =>
      (match success, lastIncludedIndex with
      | true, some index => l.initPeersNextIndexAndMatchIndex index [peer]
      | _, _ => l).handleSnapshotPushCompleted peer

def handleMembershipApplied : NodeM myId Unit := do
  let s ← Handler.get
  match s.role with
  | .leader => modifyLeader fun l => l.membershipApplied s.log.lastEntryId s.membership
  | .learner =>
    if (s.membership.nodes[myId]?).any fun node => decide (node.role ≠ .learner) then
      send (.becomeFollower none)
  | _ => pure ()

def handleInternalEvent (env : Env) : InternalEvent → NodeM myId Unit
  | .becomeFollower _ => handleBecomeFollower env
  | .becomeCandidate => do
    drainReadBuffer
    becomeCandidate
  | .becomeLeader => handleBecomeLeader env
  | .becomeLearner => do
    drainReadBuffer
    becomeLearner
  | .notifyNewCommitIndex data => notifyNewCommitIndex data
  | .leaderDiscovered _ _ => pure ()
  | .reprocessEvent event =>
    Handler.modify fun s => { s with bufferedInboundEvent := event :: s.bufferedInboundEvent }
  | .logFlushed _ => do
    let s ← Handler.get
    if s.role = .leader then handleLogFlushed
  | .appendResult followerId result => do
    let s ← Handler.get
    if s.role = .leader then
      logged Fault.isPanic (handleAppendResult env followerId result)
  | .snapshotPushCompleted peer success term lastIncludedIndex =>
    snapshotPushCompleted peer success term lastIncludedIndex
  | .noopCommitted _ => pure ()
  | .applyCompleted _ => do
    let s ← Handler.get
    if s.role ≠ .candidate ∧ env.shouldSnapshot then send .createSnapshotEvent
  | .createSnapshotEvent => pure ()
  | .snapshotCreated lastIncluded => do
    let s ← Handler.get
    match lastIncluded with
    | some id =>
      if s.role ≠ .candidate then
        logged Fault.isFatal (scheduleAndExecutePurge env.logIo id)
    | none => pure ()
  | .stepDownSelfRemoved => do
    let s ← Handler.get
    if s.role = .leader then send (.becomeFollower none)
  | .membershipApplied => handleMembershipApplied
  | .promoteReadyLearners => do
    let s ← Handler.get
    if s.role = .leader then logged Fault.isFatal (handlePromoteReadyLearners env)
  | .logPurgeCompleted purgedId => logged Fault.isFatal (handleLogPurgeCompleted purgedId)
  | .peerStreamError peer => do
    let s ← Handler.get
    if s.role = .leader then modifyLeader fun l => l.handlePeerStreamError peer
  | .zombieDetected _ => pure ()
  | .fatalError => Handler.fail (.fatal "Fatal error from SM worker")

/-! ## Dispatch by role -/

def tick (env : Env) : NodeM myId Unit := do
  let s ← Handler.get
  match s.role with
  | .follower => Follower.tick env
  | .candidate => Candidate.tick env
  | .leader => Leader.tick env
  | .learner => pure ()

def handleInboundEvent (env : Env) (event : InboundEvent) : NodeM myId Unit := do
  let s ← Handler.get
  match s.role with
  | .follower => Follower.handleInboundEvent env event
  | .candidate => Candidate.handleInboundEvent env event
  | .leader => Leader.handleInboundEvent env event
  | .learner => Learner.handleInboundEvent env event

def flushCmdBuffers (env : Env) : NodeM myId Unit := do
  let s ← Handler.get
  if s.role = .leader then Leader.flushCmdBuffers env

end Transitions

/-! ## The loop -/

/-- Take over the entries of the requests that continue the first one. -/
def mergeRequests (maxEntries : Nat) : AppendEntriesRequest → Nat → List InboundEvent →
    AppendEntriesRequest × List InboundEvent
  | first, nextPrev, .appendEntries request :: rest =>
    if nextPrev = request.prevLogIndex ∧ first.term = request.term ∧
        first.entries.length + request.entries.length ≤ maxEntries then
      mergeRequests maxEntries
        { first with
          entries := first.entries ++ request.entries
          leaderCommitIndex := max first.leaderCommitIndex request.leaderCommitIndex }
        (nextPrev + request.entries.length) rest
    else (first, .appendEntries request :: rest)
  | first, _, rest => (first, rest)

/-- The next inbound event, with the AppendEntries requests at the front merged. -/
def nextInbound (maxEntries : Nat) : List InboundEvent → Option (InboundEvent × List InboundEvent)
  | [] => none
  | .appendEntries request :: rest =>
    let merged := mergeRequests maxEntries request
      (request.prevLogIndex + request.entries.length) rest
    some (.appendEntries merged.1, merged.2)
  | event :: rest => some (event, rest)

inductive Label where
  /-- A task outside of the loop sends an internal event. -/
  | push (event : InternalEvent)
  | arrive (event : InboundEvent)
  | submit (cmd : ClientCmd)
  | changeMembership (membership : Membership)
  /-- The storage thread fails: the log is poisoned and the loop is told. -/
  | poison
  | shutdown
  | tick (env : Env)
  | recvInternal
  | recvClient
  | recvInbound
  | internalEvent (env : Env)
  | flush (env : Env)
  | inboundEvent (env : Env)
  | nextRound

namespace Node

variable {myId : Nat}

/-- The peers that a vote round would ask. -/
def electorate (s : Node myId) : List Nat :=
  if s.membership.isSingleNodeCluster then [] else askedPeers myId (s.membership.voters myId)

/-- Every asked peer has one outcome. -/
def answersFit (s : Node myId) (env : Env) : Bool :=
  (env.voteResponses.map Prod.fst).isPerm s.electorate

/-- Go on to the given phase behind a handler, unless its error ends the loop. -/
def settle (stops : Fault → Bool) (next : Phase) (outcome : Except Fault Unit × Node myId) :
    Node myId :=
  match outcome.1 with
  | .ok () => { outcome.2 with phase := next }
  | .error fault =>
    { outcome.2 with phase := if stops fault then .stopped else next }

def recvInternal (s : Node myId) : Node myId :=
  { s with
    bufferedInternalEvent :=
      s.bufferedInternalEvent ++ s.internalRx.take (s.config.maxBatchSize + 1)
    internalRx := s.internalRx.drop (s.config.maxBatchSize + 1)
    phase := .internal }

def recvClient (s : Node myId) : Node myId :=
  { s with
    leader :=
      if s.role = .leader then
        (s.cmdRx.take (s.config.maxBatchSize + 1)).foldl (Leader.pushClientCmd s.config) s.leader
      else s.leader
    cmdRx := s.cmdRx.drop (s.config.maxBatchSize + 1)
    phase := .internal }

def recvInbound (s : Node myId) : Node myId :=
  { s with
    bufferedInboundEvent :=
      s.bufferedInboundEvent ++ s.eventRx.take (s.config.maxBatchSize + 1)
    eventRx := s.eventRx.drop (s.config.maxBatchSize + 1)
    phase := .internal }

/-- The state of a node when its loop starts. -/
def start (config : Config) (role : RaftRole) (shared : SharedState) (log : BufferedRaftLog)
    (membership : Membership) : Node myId where
  config := config
  role := role
  shared := shared
  log := log
  leader := .fresh
  pendingPurgeUpto := none
  lastPurgedIndex := none
  membership := membership
  internalRx := []
  cmdRx := []
  eventRx := []
  bufferedInternalEvent := []
  bufferedInboundEvent := []
  phase := .select
  metaStore := [⟨shared.hardState, 0⟩]
  journal := []

/-- A node starts as a follower or a learner, from its stored term and entries. -/
def Init (s : Node myId) : Prop :=
  ∃ config role shared diskLen loaded boundary membership,
    s = start config role shared (BufferedRaftLog.new diskLen loaded boundary) membership ∧
      (role = .follower ∨ role = .learner) ∧ 1 ≤ shared.hardState.currentTerm ∧
      Batch loaded ∧ ∀ e ∈ loaded, e.index ≤ diskLen

def step (s : Node myId) : Label → Option (Node myId)
  | .push event =>
    if s.phase ≠ .stopped ∧ event.fromOutside then
      some { s with internalRx := s.internalRx ++ [event] }
    else none
  | .arrive event =>
    if s.phase ≠ .stopped then some { s with eventRx := s.eventRx ++ [event] } else none
  | .submit cmd =>
    if s.phase ≠ .stopped then some { s with cmdRx := s.cmdRx ++ [cmd] } else none
  | .changeMembership membership =>
    if s.phase ≠ .stopped then some { s with membership := membership } else none
  | .poison =>
    if s.phase ≠ .stopped then
      some { s with
        log := { s.log with poisoned := true }
        internalRx := s.internalRx ++ [.fatalError] }
    else none
  | .shutdown => if s.phase = .select then some { s with phase := .stopped } else none
  | .tick env =>
    if s.phase = .select ∧ (s.role = .candidate → env.timerExpired → s.answersFit env) then
      some (settle Fault.isPanic .internal (tick env s))
    else none
  | .recvInternal =>
    if s.phase = .select ∧ s.internalRx ≠ [] then some s.recvInternal else none
  | .recvClient =>
    if s.phase = .select ∧ s.internalRx = [] ∧ s.cmdRx ≠ [] then some s.recvClient else none
  | .recvInbound =>
    if s.phase = .select ∧ s.internalRx = [] ∧ s.cmdRx = [] ∧ s.eventRx ≠ [] then
      some s.recvInbound
    else none
  | .internalEvent env =>
    match s.phase, s.bufferedInternalEvent with
    | .internal, event :: rest =>
      some (settle Fault.isFatal .internal
        (handleInternalEvent env event { s with bufferedInternalEvent := rest }))
    | _, _ => none
  | .flush env =>
    if s.phase = .internal ∧ s.bufferedInternalEvent = [] then
      some (settle (fun _ => true) .inbound (flushCmdBuffers env s))
    else none
  | .inboundEvent env =>
    match s.phase, nextInbound s.config.maxMergeEntries s.bufferedInboundEvent with
    | .inbound, some (event, rest) =>
      some (settle Fault.isFatal .inbound
        (handleInboundEvent env event { s with bufferedInboundEvent := rest }))
    | _, _ => none
  | .nextRound =>
    if s.phase = .inbound ∧ s.bufferedInboundEvent = [] then some { s with phase := .select }
    else none

end Node

/-- The first start of a node, with nothing stored. -/
def Node.firstStart {myId : Nat} (config : Config) (membership : Membership) : Node myId :=
  Node.start config .follower (SharedState.new none none) (BufferedRaftLog.new 0 [] none) membership

theorem Node.init_firstStart {myId : Nat} (config : Config) (membership : Membership) :
    (Node.firstStart config membership : Node myId).Init := by
  refine ⟨config, .follower, _, 0, [], none, membership, rfl, Or.inl rfl, ?_, ?_, ?_⟩
  · exact le_rfl
  · exact Batch.nil
  · simp

/-- A small configuration, and a cluster of three voters to run it in. -/
def Config.small : Config := ⟨10, 10, 10, 0, 0, 0, 0, false, .linearizableRead⟩

def Membership.trio : Membership :=
  let voter : NodeMeta := ⟨.follower, .active⟩
  ⟨((((∅ : OrderedMap NodeMeta).insert 1 voter).insert 2 voter).insert 3 voter), 3⟩

/-- The main loop of node `myId` as a machine. -/
def raftLoop (myId : Nat) : Machine (Node myId) Label where
  init := Node.Init
  step := Node.step

/-- The rest of a round of the loop in which nothing else waits. -/
def restOfRound : List Label := [.flush {}, .nextRound]

/-- Node 1 becomes a candidate, and one of two voters grants its first round. -/
def winningRun : List Label :=
  [.tick { timerExpired := true }] ++ restOfRound ++ [.recvInternal, .internalEvent {}] ++
    restOfRound ++
    [.tick { timerExpired := true, voteResponses := [(2, some ⟨1, true, 0, 0⟩), (3, none)] }] ++
    restOfRound

end DEngine.Raft

import DEngine.Library.OrderedMap
import DEngine.Proto

/-!
# Events of a node

What reaches the main loop of a node: the inbound events of other nodes, the
internal events that handlers and background tasks send, and the commands of
clients. The file also has the cluster membership that handlers consult and the
journal entries that record what a node does.

## Implementation notes

Reply channels are left out of the events; a reply is an entry of the journal.
A node of the membership is found under its id, so two nodes never share one.
-/

namespace DEngine.Raft

open Library

/-! ## Membership -/

structure NodeMeta where
  role : NodeRole
  status : NodeStatus
deriving DecidableEq, Repr

/-- The members of the cluster and its configured initial size. -/
structure Membership where
  nodes : OrderedMap NodeMeta
  initialClusterSize : Nat
deriving DecidableEq

namespace Membership

/-- The ids of the active nodes other than `myId`. -/
def voters (m : Membership) (myId : Nat) : List Nat :=
  (m.nodes.toList.filter fun p => decide (p.1 ≠ myId ∧ p.2.status = .active)).map Prod.fst

/-- The nodes other than `myId` that are active, promotable or read only. -/
def replicationPeers (m : Membership) (myId : Nat) : List (Nat × NodeMeta) :=
  m.nodes.toList.filter fun p =>
    decide (p.1 ≠ myId ∧
      (p.2.status = .active ∨ p.2.status = .promotable ∨ p.2.status = .readOnly))

/-- The ids of all nodes, the own one included. -/
def peerIds (m : Membership) : List Nat := m.nodes.toList.map Prod.fst

def containsNode (m : Membership) (id : Nat) : Bool := (m.nodes[id]?).isSome

def isSingleNodeCluster (m : Membership) : Bool := decide (m.initialClusterSize = 1)

theorem ids_nodup (m : Membership) : (m.nodes.toList.map Prod.fst).Nodup := by
  rw [List.nodup_iff_pairwise_ne, List.pairwise_map]
  exact (OrderedMap.toList_pairwise m.nodes).imp fun h => Nat.ne_of_lt h

theorem voters_nodup (m : Membership) (myId : Nat) : (m.voters myId).Nodup :=
  m.ids_nodup.sublist (List.filter_sublist.map Prod.fst)

theorem self_not_mem_voters (m : Membership) (myId : Nat) : myId ∉ m.voters myId := by
  simp [voters]

theorem replicationPeers_nodup (m : Membership) (myId : Nat) :
    ((m.replicationPeers myId).map Prod.fst).Nodup :=
  m.ids_nodup.sublist (List.filter_sublist.map Prod.fst)

theorem self_not_mem_replicationPeers (m : Membership) (myId : Nat) :
    myId ∉ (m.replicationPeers myId).map Prod.fst := by
  simp [replicationPeers]

end Membership

/-! ## Events -/

structure NewCommitData where
  newCommitIndex : Nat
  role : NodeRole
  currentTerm : Nat
deriving DecidableEq, Repr

structure JoinRequest where
  nodeId : Nat
  nodeRole : NodeRole
  address : String
  status : NodeStatus
deriving DecidableEq, Repr

/-- The fields of the first chunk of a snapshot stream that decide about the stream. -/
structure SnapshotChunk where
  leaderTerm : Nat
  leaderId : Nat
deriving DecidableEq, Repr

inductive InboundEvent where
  | receiveVoteRequest (request : VoteRequest)
  | clusterConf
  | clusterConfUpdate (id term : Nat)
  | appendEntries (request : AppendEntriesRequest)
  | installSnapshotChunk (firstChunk : Option SnapshotChunk)
  | joinCluster (request : JoinRequest)
  | discoverLeader
  | fatalError
deriving DecidableEq, Repr

inductive InternalEvent where
  | becomeFollower (leaderId : Option Nat)
  | becomeCandidate
  | becomeLeader
  | becomeLearner
  | notifyNewCommitIndex (data : NewCommitData)
  | leaderDiscovered (leaderId term : Nat)
  | reprocessEvent (event : InboundEvent)
  | logFlushed (durableIndex : Nat)
  | appendResult (followerId : Nat) (result : Option AppendEntriesResponse)
  | snapshotPushCompleted (peerId : Nat) (success : Bool) (term : Nat)
      (lastIncludedIndex : Option Nat)
  | noopCommitted (term : Nat)
  | applyCompleted (lastIndex : Nat)
  | createSnapshotEvent
  | snapshotCreated (lastIncluded : Option LogId)
  | stepDownSelfRemoved
  | membershipApplied
  | promoteReadyLearners
  | logPurgeCompleted (purgedId : LogId)
  | peerStreamError (peerId : Nat)
  | zombieDetected (nodeId : Nat)
  | fatalError
deriving DecidableEq, Repr

/-- The events that tasks outside of the main loop send: the storage thread, the
replication workers, the commit handler, the state machine worker and the monitor. -/
def InternalEvent.fromOutside : InternalEvent → Bool
  | .logFlushed _ => true
  | .appendResult _ _ => true
  | .snapshotPushCompleted _ _ _ _ => true
  | .applyCompleted _ => true
  | .snapshotCreated _ => true
  | .stepDownSelfRemoved => true
  | .membershipApplied => true
  | .peerStreamError _ => true
  | .zombieDetected _ => true
  | .fatalError => true
  | _ => false

/-- The event takes the node out of its role, or ends the loop. -/
def InternalEvent.stepsDown : InternalEvent → Bool
  | .becomeFollower _ => true
  | .fatalError => true
  | _ => false

/-- The index up to which an announced snapshot covers the log. -/
@[simp] def InternalEvent.announced : InternalEvent → Nat
  | .snapshotCreated (some lastIncluded) => lastIncluded.index
  | _ => 0

inductive ReadConsistencyPolicy where
  | leaseRead
  | linearizableRead
  | eventualConsistency
deriving DecidableEq, Repr

inductive ClientCmd where
  | propose (command : Option (List UInt8))
  | read (policy : Option ReadConsistencyPolicy)
  | scan
deriving DecidableEq, Repr

/-! ## The journal -/

/-- What a node does that others see or rely on. -/
inductive Action where
  /-- Asked the voters for their votes and heard from those that granted them. -/
  | voteRound (term : Nat) (voters granted : List Nat)
  | selfVote (term : Nat)
  | answeredVote (request : VoteRequest) (response : VoteResponse)
  | answeredAppend (response : AppendEntriesResponse)
  | answeredSnapshot (term : Nat) (success : Bool)
  | enteredLeader (term : Nat)
  /-- Took over a success acknowledgement with the given last match. -/
  | acknowledged (peer index : Nat)
  /-- Calculated a new commit index, with the last index, the number of voters and the
  voters at that moment. -/
  | quorum (index lastEntryId totalVoters : Nat) (voters : List Nat)
  | generated (entries : List Entry)
  | requested (peer : Nat) (request : AppendEntriesRequest)
  /-- Told the commit handler about a new commit index. -/
  | notifiedCommit (data : NewCommitData)
deriving DecidableEq, Repr

namespace Action

/-- The terms under which an action produces entries or requests. -/
def producedTerms : Action → List Nat
  | .generated entries => entries.map Entry.term
  | .requested _ request => [request.term]
  | _ => []

/-- The term and the candidate of the vote that an action of node `myId` gives. -/
def vote (myId : Nat) : Action → Option (Nat × Nat)
  | .selfVote term => some (term, myId)
  | .answeredVote request response =>
    if response.voteGranted then some (request.term, request.candidateId) else none
  | _ => none

end Action

end DEngine.Raft

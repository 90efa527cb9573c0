import Mathlib.Tactic.Linarith

/-!
# Wire messages and error outcomes

The protobuf messages that the modelled functions read and build, and the
errors they return. Every `u64` and `u32` is a natural number; the one
overflow check of the modelled code, the identifier allocation, compares with
`u64Max` explicitly. A Rust panic is an outcome of its own.
-/

namespace DEngine

/-- The largest value of an unsigned 64-bit integer. -/
def u64Max : Nat := 2 ^ 64 - 1

inductive NodeStatus where
  | unspecified
  | promotable
  | readOnly
  | active
deriving DecidableEq, Repr

inductive NodeRole where
  | unspecified
  | follower
  | candidate
  | leader
  | learner
deriving DecidableEq, Repr

/-- A cluster configuration change carried by a log entry. -/
inductive MembershipChange where
  | addNode (nodeId : Nat) (address : String) (status : NodeStatus)
  | removeNode (nodeId : Nat)
  | promote (nodeId : Nat) (status : NodeStatus)
  | batchPromote (nodeIds : List Nat) (newStatus : NodeStatus)
  | batchRemove (nodeIds : List Nat)
deriving DecidableEq, Repr

inductive Payload where
  | noop
  | command (bytes : List UInt8)
  | config (change : Option MembershipChange)
deriving DecidableEq, Repr

structure EntryPayload where
  payload : Option Payload
deriving DecidableEq, Repr

structure LogId where
  term : Nat
  index : Nat
deriving DecidableEq, Repr

structure Entry where
  index : Nat
  term : Nat
  payload : Option EntryPayload
deriving DecidableEq, Repr

namespace Entry

/-- The position of an entry, as it is reported to other nodes. -/
def logId (e : Entry) : LogId := ⟨e.term, e.index⟩

@[simp] theorem logId_index (e : Entry) : e.logId.index = e.index := rfl

end Entry

structure AppendEntriesRequest where
  term : Nat
  leaderId : Nat
  prevLogIndex : Nat
  prevLogTerm : Nat
  entries : List Entry
  leaderCommitIndex : Nat
deriving DecidableEq, Repr

inductive AppendEntriesResult where
  | success (lastMatch : Option LogId)
  | conflict (conflictTerm conflictIndex : Option Nat)
  | higherTerm (term : Nat)
deriving DecidableEq, Repr

structure AppendEntriesResponse where
  nodeId : Nat
  term : Nat
  result : Option AppendEntriesResult
deriving DecidableEq, Repr

namespace AppendEntriesResponse

def success (nodeId term : Nat) (lastMatch : Option LogId) : AppendEntriesResponse :=
  ⟨nodeId, term, some (.success lastMatch)⟩

def conflict (nodeId term : Nat) (conflictTerm conflictIndex : Option Nat) :
    AppendEntriesResponse :=
  ⟨nodeId, term, some (.conflict conflictTerm conflictIndex)⟩

def higherTerm (nodeId term : Nat) : AppendEntriesResponse :=
  ⟨nodeId, term, some (.higherTerm term)⟩

def isSuccess (r : AppendEntriesResponse) : Bool :=
  match r.result with
  | some (.success _) => true
  | _ => false

def isConflict (r : AppendEntriesResponse) : Bool :=
  match r.result with
  | some (.conflict _ _) => true
  | _ => false

def isHigherTerm (r : AppendEntriesResponse) : Bool :=
  match r.result with
  | some (.higherTerm _) => true
  | _ => false

end AppendEntriesResponse

structure VoteRequest where
  term : Nat
  candidateId : Nat
  lastLogIndex : Nat
  lastLogTerm : Nat
deriving DecidableEq, Repr

structure VoteResponse where
  term : Nat
  voteGranted : Bool
  lastLogIndex : Nat
  lastLogTerm : Nat
deriving DecidableEq, Repr

structure VotedFor where
  votedForId : Nat
  votedForTerm : Nat
  committed : Bool
deriving DecidableEq, Repr

/-- The ways in which a modelled call does not return normally. -/
inductive Fault where
  | panic (message : String)
  | fatal (message : String)
  | singalSendFailed (message : String)
  | storage
  | idOverflow (start stop : Nat)
  | inconsistentPrevLogTerm (peerId prevIndex firstIndex lastIndex : Nat)
  | invalidTransition
  | dataCorruption
  | boundaryConflict
  | snapshotFailed
  | higherTerm (term : Nat)
  | roleViolation
  | nodeAlreadyExists (nodeId : Nat)
  | notLearner
  | noMetadataFoundForNode (nodeId : Nat)
  | noLeaderFound
  | invalidPromotion (nodeId : Nat) (role : NodeRole)
  | removeNodeIsLeader (nodeId : Nat)
  | invalidChangeRequest
  | stateMachineError (message : String)
  | serializationError (message : String)
  | workerUnavailable
  | dbError (message : String)
  | notServing (message : String)
deriving DecidableEq, Repr

def Fault.isPanic : Fault → Bool
  | .panic _ => true
  | _ => false

/-- The main loop does not go on behind a fatal error; neither does it behind a panic. -/
def Fault.isFatal : Fault → Bool
  | .panic _ => true
  | .fatal _ => true
  | .dataCorruption => true
  | .boundaryConflict => true
  | _ => false

end DEngine

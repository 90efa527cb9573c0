import DEngine.Raft.Node

/-!
# Elections

The vote round of a candidate and the decisions about vote requests, with the
handlers of followers and candidates that use them.
-/

namespace DEngine.Raft

open Library Storage

inductive ElectionError where
  | noVotingMemberFound
  | higherTerm (term : Nat)
  | logConflict (index expectedTerm actualTerm : Nat)
  | quorumFailure (required succeed : Nat)
deriving DecidableEq, Repr

def isMajority (num total : Nat) : Bool := decide (total / 2 < num)

def isTargetLogMoreRecent (myLastLogIndex myLastLogTerm targetLastLogIndex targetLastLogTerm : Nat) :
    Bool :=
  decide (myLastLogTerm < targetLastLogTerm ∨
    targetLastLogTerm = myLastLogTerm ∧ myLastLogIndex ≤ targetLastLogIndex)

/-- Count the granted votes; an answer with a higher term or a newer log ends the count. -/
def countVotes (term lastLogIndex lastLogTerm : Nat) :
    Nat → List (Option VoteResponse) → Except ElectionError Nat
  | succeed, [] => .ok succeed
  | succeed, none :: rest => countVotes term lastLogIndex lastLogTerm succeed rest
  | succeed, some response :: rest =>
    if response.voteGranted then countVotes term lastLogIndex lastLogTerm (succeed + 1) rest
    else if term < response.term then .error (.higherTerm response.term)
    else if isTargetLogMoreRecent lastLogIndex lastLogTerm response.lastLogIndex
        response.lastLogTerm then
      .error (.logConflict lastLogIndex lastLogTerm response.lastLogTerm)
    else countVotes term lastLogIndex lastLogTerm succeed rest

/-- The peers that are asked: each once, and not the candidate. -/
def askedPeers (myId : Nat) (members : List Nat) : List Nat :=
  (members.filter fun id => decide (id ≠ myId)).dedup

def broadcastVoteRequests (myId term : Nat) (membership : Membership) (log : BufferedRaftLog)
    (responses : List (Nat × Option VoteResponse)) : Except ElectionError Unit :=
  if membership.isSingleNodeCluster then .ok ()
  else if membership.voters myId = [] then .error .noVotingMemberFound
  else
    let lastLogId := log.lastLogId.getD ⟨0, 0⟩
    match countVotes term lastLogId.index lastLogId.term 1 (responses.map Prod.snd) with
    | .error error => .error error
    | .ok succeed =>
      let peerIds := askedPeers myId (membership.voters myId)
      let required := peerIds.length + 1
      if peerIds ≠ [] ∧ isMajority succeed required then .ok ()
      else .error (.quorumFailure required succeed)

/-- The peers that granted their vote. -/
def grantingPeers (responses : List (Nat × Option VoteResponse)) : List Nat :=
  (responses.filter fun p => p.2.any VoteResponse.voteGranted).map Prod.fst

structure StateUpdate where
  newVotedFor : Option VotedFor
  termUpdate : Option Nat
deriving DecidableEq, Repr

/-- Whether a vote in the term of the request is still free for its candidate. -/
def voteIsFree (request : VoteRequest) (votedFor : Option VotedFor) : Bool :=
  match votedFor with
  | some vote =>
    decide (vote.votedForTerm = request.term ∧ vote.votedForId = request.candidateId)
  | none => true

def handleVoteRequest (request : VoteRequest) (currentTerm : Nat) (votedFor : Option VotedFor)
    (log : BufferedRaftLog) : StateUpdate :=
  let lastLogId := log.lastLogId.getD ⟨0, 0⟩
  let termUpdate := if currentTerm < request.term then some request.term else none
  let votedFor := if currentTerm < request.term then none else votedFor
  if currentTerm ≤ request.term ∧
      isTargetLogMoreRecent lastLogId.index lastLogId.term request.lastLogIndex
        request.lastLogTerm ∧
      voteIsFree request votedFor then
    ⟨some ⟨request.candidateId, request.term, false⟩, termUpdate⟩
  else ⟨none, termUpdate⟩

theorem handleVoteRequest_termUpdate {request : VoteRequest} {currentTerm : Nat}
    {votedFor : Option VotedFor} {log : BufferedRaftLog} :
    (handleVoteRequest request currentTerm votedFor log).termUpdate =
      if currentTerm < request.term then some request.term else none := by
  simp only [handleVoteRequest]
  split_ifs <;> rfl

def ifNodeCouldGrantTheVoteRequest (request : VoteRequest) (votedFor : Option VotedFor) : Bool :=
  match votedFor with
  | some vote => decide (vote.votedForId = 0 ∨ vote.votedForTerm < request.term)
  | none => true

def checkVoteRequestIsLegal (request : VoteRequest) (currentTerm lastLogIndex lastLogTerm : Nat)
    (votedFor : Option VotedFor) : Bool :=
  decide (currentTerm ≤ request.term) &&
    isTargetLogMoreRecent lastLogIndex lastLogTerm request.lastLogIndex request.lastLogTerm &&
    ifNodeCouldGrantTheVoteRequest request votedFor

section Handlers

variable {myId : Nat}

/-- The answer that refuses a vote. -/
def refuseVote (request : VoteRequest) (term : Nat) : NodeM myId Unit := do
  let s ← Handler.get
  let lastLogId := s.log.lastLogId.getD ⟨0, 0⟩
  record (.answeredVote request ⟨term, false, lastLogId.index, lastLogId.term⟩)

namespace Follower

/-- The answer carries the term from before the request. -/
def receiveVoteRequest (env : Env) (request : VoteRequest) : NodeM myId Unit := do
  let s ← Handler.get
  let lastLogId := s.log.lastLogId.getD ⟨0, 0⟩
  let update := handleVoteRequest request s.currentTerm s.shared.hardState.votedFor s.log
  let _ ← commitHardState env.save update.termUpdate update.newVotedFor
  record (.answeredVote request
    ⟨s.currentTerm, update.newVotedFor.isSome, lastLogId.index, lastLogId.term⟩)

def tick (env : Env) : NodeM myId Unit := do
  if env.timerExpired then send .becomeCandidate

end Follower

namespace Candidate

def tick (env : Env) : NodeM myId Unit := do
  if env.timerExpired then
    let s ← Handler.get
    let newTerm := s.currentTerm + 1
    let _ ← commitHardState env.save (some newTerm) (some ⟨myId, newTerm, false⟩)
    record (.selfVote newTerm)
    record (.voteRound newTerm (s.membership.voters myId) (grantingPeers env.voteResponses))
    match broadcastVoteRequests myId newTerm s.membership s.log env.voteResponses with
    | .ok () => send .becomeLeader
    | .error (.higherTerm higherTerm) => do
      let _ ← commitHardState env.secondSave (some higherTerm) none
      send (.becomeFollower none)
    | .error _ => pure ()

def receiveVoteRequest (env : Env) (request : VoteRequest) : NodeM myId Unit := do
  let s ← Handler.get
  let lastLogId := s.log.lastLogId.getD ⟨0, 0⟩
  if checkVoteRequestIsLegal request s.currentTerm lastLogId.index lastLogId.term
      s.shared.hardState.votedFor then do
    let _ ← commitHardState env.save (some request.term) none
    send (.becomeFollower none)
    send (.reprocessEvent (.receiveVoteRequest request))
  else refuseVote request s.currentTerm

/-- A legitimate leader makes the candidate step down and replay the request; a stale one
is rejected. -/
def appendEntries (env : Env) (request : AppendEntriesRequest) : NodeM myId Unit := do
  let s ← Handler.get
  if s.currentTerm ≤ request.term then do
    setCurrentLeader request.leaderId
    if s.currentTerm < request.term then
      let _ ← commitHardState env.save (some request.term) none
    send (.becomeFollower none)
    send (.reprocessEvent (.appendEntries request))
  else
    match Replication.checkAppendEntriesRequestIsLegal myId s.currentTerm request s.log with
    | .ok response => record (.answeredAppend response)
    | .error fault => Handler.fail fault

def handleInboundEvent (env : Env) : InboundEvent → NodeM myId Unit
  | .receiveVoteRequest request => receiveVoteRequest env request
  | .clusterConf => pure ()
  | .clusterConfUpdate _ _ => pure ()
  | .appendEntries request => appendEntries env request
  | .installSnapshotChunk _ => Handler.fail .roleViolation
  | .joinCluster _ => Handler.fail .roleViolation
  | .discoverLeader => pure ()
  | .fatalError => Handler.fail (.fatal "Fatal error")

end Candidate

end Handlers

end DEngine.Raft

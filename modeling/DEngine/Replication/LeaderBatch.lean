import DEngine.Replication.FollowerSafety

/-!
# The requests a leader builds

`prepareBatchRequests` appends the new payloads to the leader's log and builds
one AppendEntries request for each replication target. The entries of a request
are a capped range of old entries followed by the whole new batch, while the
predecessor is computed from the clamped next index. The file embeds both
computations and says when they fit together.

## Implementation notes

The peer ledger is a hash map in the source. It is an `OrderedMap` here, so the
peers that need a snapshot are listed by ascending id where the source lists
them in the order of the hash map.
-/

namespace DEngine.Replication

open Library Library.PartialLog Storage

/-- The peers that the leader replicates to: distinct, and without the leader. -/
structure ReplicationTargets (myId : Nat) where
  ids : List Nat
  nodup : ids.Nodup
  not_self : myId ∉ ids

structure PrepareResult where
  appendRequests : List (Nat × AppendEntriesRequest × Nat)
  snapshotTargets : List Nat
deriving DecidableEq, Repr

inductive BuildAppendOutcome where
  | append (request : AppendEntriesRequest) (effectiveNextIndex : Nat)
  | needSnapshot
deriving DecidableEq, Repr

inductive PeerEntriesResult where
  | ready (entries : List Entry)
  | needSnapshot
  | corruptGap (start stop : Nat) (firstSeen lastSeen : Option Nat) (count : Nat)
deriving DecidableEq, Repr

/-- The fields of the leader's state that a batch is built from. -/
structure ReplicationData where
  leaderLastIndexBefore : Nat
  currentTerm : Nat
  commitIndex : Nat
  peerNextIndices : OrderedMap Nat

/-! ## Generating entries -/

/-- Number the payloads from `next`; the last index may not exceed `stop`. -/
def numberPayloads (term stop : Nat) : Nat → List EntryPayload → Except Fault (List Entry)
  | _, [] => .ok []
  | next, payload :: rest =>
    if stop < next then .error (.idOverflow next stop)
    else
      match numberPayloads term stop (next + 1) rest with
      | .error fault => .error fault
      | .ok entries => .ok (⟨next, term, some payload⟩ :: entries)

def generateNewEntries (payloads : List EntryPayload) (currentTerm : Nat)
    (log : BufferedRaftLog) : Except Fault (List Entry) × BufferedRaftLog :=
  if payloads = [] then (.ok [], log)
  else
    match log.preAllocateIdRange payloads.length with
    | (.error fault, log) => (.error fault, log)
    | (.ok (start, stop), log) =>
      match numberPayloads currentTerm stop start payloads with
      | .error fault => (.error fault, log)
      | .ok entries =>
        match log.appendEntries entries with
        | (.error fault, log) => (.error fault, log)
        | (.ok (), log) => (.ok entries, log)

/-! ## The entries for each peer -/

def entriesAreContiguousInRange (entries : List Entry) (expectedStart expectedEnd : Nat) : Bool :=
  decide (expectedStart ≤ expectedEnd ∧
    entries.length = expectedEnd - expectedStart + 1 ∧
    Consecutive Entry.index entries expectedStart)

/-- The entries for one peer with the given next index, if there is anything to say. -/
def entriesForPeer (newEntries : List Entry) (leaderLastIndexBefore maxLegacyEntries : Nat)
    (log : BufferedRaftLog) (firstIndex peerNextId : Nat) : Option PeerEntriesResult :=
  let ready (entries : List Entry) : Option PeerEntriesResult :=
    if entries = [] then none else some (.ready entries)
  if leaderLastIndexBefore < peerNextId then ready newEntries
  else if peerNextId < firstIndex then some .needSnapshot
  else if maxLegacyEntries = 0 then ready newEntries
  else
    let untilIndex :=
      if maxLegacyEntries ≤ leaderLastIndexBefore - peerNextId then
        peerNextId + maxLegacyEntries - 1
      else leaderLastIndexBefore
    let legacyEntries := log.getEntriesRange peerNextId untilIndex
    if entriesAreContiguousInRange legacyEntries peerNextId untilIndex then
      ready (legacyEntries ++ newEntries)
    else
      some (.corruptGap peerNextId untilIndex (legacyEntries.head?.map Entry.index)
        (legacyEntries.getLast?.map Entry.index) legacyEntries.length)

def retrieveToBeSyncedLogsForPeers (myId : Nat) (newEntries : List Entry)
    (leaderLastIndexBefore maxLegacyEntries : Nat) (peerNextIndices : OrderedMap Nat)
    (log : BufferedRaftLog) (firstIndex : Nat) : List (Nat × PeerEntriesResult) :=
  peerNextIndices.toList.filterMap fun p =>
    if p.1 = myId then none
    else
      (entriesForPeer newEntries leaderLastIndexBefore maxLegacyEntries log firstIndex p.2).map
        fun result => (p.1, result)

/-! ## Building the requests -/

def buildAppendRequest (myId : Nat) (log : BufferedRaftLog) (peerId : Nat)
    (entries : List Entry) (data : ReplicationData) : Except Fault BuildAppendOutcome :=
  let recordedNextIndex := (data.peerNextIndices[peerId]?).getD 1
  let nextIndex := min recordedNextIndex (log.lastEntryId + 1)
  let prevIndex := nextIndex - 1
  let request (prevLogTerm : Nat) : BuildAppendOutcome :=
    .append
      { term := data.currentTerm
        leaderId := myId
        prevLogIndex := prevIndex
        prevLogTerm := prevLogTerm
        entries := entries
        leaderCommitIndex := data.commitIndex }
      nextIndex
  match log.entryTerm prevIndex with
  | .error fault => .error fault
  | .ok (some term) => .ok (request term)
  | .ok none =>
    if prevIndex = 0 ∧ log.firstEntryId ≤ 1 then .ok (request 0)
    else if prevIndex < log.firstEntryId then .ok .needSnapshot
    else .error (.inconsistentPrevLogTerm peerId prevIndex log.firstEntryId log.lastEntryId)

/-- Build the requests for the targets in order. Entries are moved out of the map; an error
skips its peer, a panic ends the call. -/
def buildRequests (myId : Nat) (log : BufferedRaftLog) (data : ReplicationData)
    (skipPeers : List Nat) : List Nat → OrderedMap (List Entry) → Except Fault PrepareResult
  | [], _ => .ok ⟨[], []⟩
  | peer :: rest, entriesPerPeer =>
    if peer ∈ skipPeers then buildRequests myId log data skipPeers rest entriesPerPeer
    else
      match buildAppendRequest myId log peer ((entriesPerPeer[peer]?).getD []) data with
      | .error (.panic message) => .error (.panic message)
      | .error _ => buildRequests myId log data skipPeers rest entriesPerPeer
      | .ok .needSnapshot =>
        (buildRequests myId log data skipPeers rest entriesPerPeer).map fun result =>
          { result with snapshotTargets := peer :: result.snapshotTargets }
      | .ok (.append request next) =>
        (buildRequests myId log data skipPeers rest (entriesPerPeer.erase peer)).map
          fun result =>
            { result with appendRequests := (peer, request, next) :: result.appendRequests }

/-- Keep the entries of a peer that are ready. -/
def insertReady (entriesPerPeer : OrderedMap (List Entry)) (p : Nat × PeerEntriesResult) :
    OrderedMap (List Entry) :=
  match p.2 with
  | .ready entries => entriesPerPeer.insert p.1 entries
  | .needSnapshot => entriesPerPeer
  | .corruptGap _ _ _ _ _ => entriesPerPeer

/-- The peer gets no request in this round. -/
def skipsPeer (p : Nat × PeerEntriesResult) : Bool :=
  match p.2 with
  | .ready _ => false
  | .needSnapshot => true
  | .corruptGap _ _ _ _ _ => true

def prepareBatchRequests (myId maxLegacyEntries : Nat) (payloads : List EntryPayload)
    (snapshot : StateSnapshot) (nextIndex : OrderedMap Nat) (targets : ReplicationTargets myId)
    (log : BufferedRaftLog) : Except Fault PrepareResult × BufferedRaftLog :=
  let leaderLastIndexBefore := log.lastEntryId
  match generateNewEntries payloads snapshot.currentTerm log with
  | (.error fault, log) => (.error fault, log)
  | (.ok newEntries, log) =>
    if targets.ids = [] then (.ok ⟨[], []⟩, log)
    else
      let results := retrieveToBeSyncedLogsForPeers myId newEntries leaderLastIndexBefore
        maxLegacyEntries nextIndex log log.firstEntryId
      let needSnapshot := (results.filter fun p => decide (p.2 = .needSnapshot)).map Prod.fst
      let skipPeers := (results.filter skipsPeer).map Prod.fst
      let data : ReplicationData :=
        { leaderLastIndexBefore := leaderLastIndexBefore
          currentTerm := snapshot.currentTerm
          commitIndex := snapshot.commitIndex
          peerNextIndices := nextIndex }
      let entriesPerPeer := results.foldl insertReady ∅
      ((buildRequests myId log data skipPeers targets.ids entriesPerPeer).map fun result =>
          { result with snapshotTargets := needSnapshot ++ result.snapshotTargets }, log)

end DEngine.Replication

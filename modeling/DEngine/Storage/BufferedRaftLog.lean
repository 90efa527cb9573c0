import DEngine.Library.OrderedMap
import DEngine.Storage.TermSegments

/-!
# The in-memory Raft log

The buffered log keeps its entries in an ordered map and beside it the bounds,
the purge boundary, the first and last index of each term and the term
boundary index. This file embeds the operations that the replication and
election code calls, field by field as they change the state.

## Implementation notes

The skip list of entries is an `OrderedMap`. An operation that waits for the
storage thread takes the outcome `io` of that wait as an argument; the memory
is already changed when the wait fails, so an operation returns its result and
the state it leaves; that a failed call poisons the log is left out. The binary
search for the overlap is the longest prefix of entries within the log, which is
what it finds in ascending entries.
-/

namespace DEngine.Storage

open Library

structure BufferedRaftLog where
  entries : OrderedMap Entry
  durableIndex : Nat
  nextId : Nat
  minIndex : Nat
  maxIndex : Nat
  lastPurgedIndex : Nat
  lastPurgedTerm : Nat
  termFirstIndex : OrderedMap Nat
  termLastIndex : OrderedMap Nat
  termSegments : TermSegments
  poisoned : Bool
deriving DecidableEq

namespace BufferedRaftLog

/-! ## Reading -/

def entry (log : BufferedRaftLog) (index : Nat) : Option Entry := log.entries[index]?

def firstEntryId (log : BufferedRaftLog) : Nat := log.minIndex

def lastEntryId (log : BufferedRaftLog) : Nat := log.maxIndex

def lastLogId (log : BufferedRaftLog) : Option LogId :=
  if 0 < log.lastEntryId then (log.entry log.lastEntryId).map Entry.logId
  else if 0 < log.lastPurgedIndex then some ⟨log.lastPurgedTerm, log.lastPurgedIndex⟩
  else none

def entryTerm (log : BufferedRaftLog) (entryId : Nat) : Except Fault (Option Nat) :=
  if log.maxIndex = 0 ∨ entryId < log.minIndex ∨ log.maxIndex < entryId then
    if 0 < log.lastPurgedIndex ∧ entryId = log.lastPurgedIndex then
      .ok (some log.lastPurgedTerm)
    else .ok none
  else
    match log.termSegments.get entryId with
    | .error fault => .error fault
    | .ok (some term) => .ok (some term)
    | .ok none => .ok ((log.entry entryId).map Entry.term)

def firstIndexForTerm (log : BufferedRaftLog) (term : Nat) : Option Nat :=
  log.termFirstIndex[term]?

def lastIndexForTerm (log : BufferedRaftLog) (term : Nat) : Option Nat :=
  log.termLastIndex[term]?

def getEntriesRange (log : BufferedRaftLog) (lo hi : Nat) : List Entry :=
  (log.entries.range lo hi).map Prod.snd

/-- The median of the matched indexes, the leader's own last index included, if
its entry has the current term. -/
def calculateMajorityMatchedIndex (log : BufferedRaftLog) (currentTerm commitIndex : Nat)
    (peerMatchedIds : List Nat) : Option Nat :=
  let ids := (peerMatchedIds ++ [log.lastEntryId]).insertionSort (· ≥ ·)
  let majorityIndex := ids.getD (ids.length / 2) 0
  if majorityIndex < commitIndex then none
  else
    match log.entry majorityIndex with
    | some e => if e.term = currentTerm then some majorityIndex else none
    | none => none

/-! ## Appending -/

/-- Record one entry in the per-term first and last indexes. -/
def updateTermIndex (acc : OrderedMap Nat × OrderedMap Nat) (e : Entry) :
    OrderedMap Nat × OrderedMap Nat :=
  (acc.1.insert e.term (min (acc.1[e.term]?.getD u64Max) e.index),
    acc.2.insert e.term (max (acc.2[e.term]?.getD 0) e.index))

def updateTermIndexes (acc : OrderedMap Nat × OrderedMap Nat) (entries : List Entry) :
    OrderedMap Nat × OrderedMap Nat :=
  entries.foldl updateTermIndex acc

def insertToMemory (log : BufferedRaftLog) (entries : List Entry) : BufferedRaftLog :=
  let terms := updateTermIndexes (log.termFirstIndex, log.termLastIndex) entries
  let maxIndex := (entries.map Entry.index).max?.getD 0
  { log with
    entries := log.entries.insertBy Entry.index entries
    termFirstIndex := terms.1
    termLastIndex := terms.2
    termSegments := log.termSegments.onAppend entries
    nextId := if log.nextId ≤ maxIndex then maxIndex + 1 else log.nextId
    minIndex :=
      match entries.head? with
      | some first =>
        if first.index < log.minIndex ∨ log.minIndex = 0 then first.index else log.minIndex
      | none => log.minIndex
    maxIndex :=
      match entries.getLast? with
      | some last => if log.maxIndex < last.index then last.index else log.maxIndex
      | none => log.maxIndex }

def appendEntries (log : BufferedRaftLog) (entries : List Entry) :
    Except Fault Unit × BufferedRaftLog :=
  if log.poisoned then (.error (.fatal "raft log storage is poisoned"), log)
  else if entries = [] then (.ok (), log)
  else (.ok (), log.insertToMemory entries)

/-- Reserve `count` consecutive identifiers; the range is inclusive. -/
def preAllocateIdRange (log : BufferedRaftLog) (count : Nat) :
    Except Fault (Nat × Nat) × BufferedRaftLog :=
  if count = 0 then (.ok (u64Max, u64Max), log)
  else if u64Max - count < log.nextId then (.error (.panic "ID overflow"), log)
  else (.ok (log.nextId, log.nextId + count - 1), { log with nextId := log.nextId + count })

/-! ## Removing -/

/-- The smallest and largest removed index of each term. -/
def affectedTerms (removed : List (Nat × Entry)) : OrderedMap (Nat × Nat) :=
  removed.foldl (fun acc p =>
    acc.insert p.2.term
      (match acc[p.2.term]? with
      | none => (p.1, p.1)
      | some (lo, hi) => (min lo p.1, max hi p.1))) ∅

/-- Move the first index of an affected term to the first remaining entry of that term. -/
def refreshFirst (entries : OrderedMap Entry) (firsts : OrderedMap Nat) (term lo : Nat) :
    OrderedMap Nat :=
  match firsts[term]? with
  | none => firsts
  | some current =>
    if lo ≤ current then
      match entries.toList.find? fun p => decide (p.2.term = term) with
      | some p => firsts.insert term p.1
      | none => firsts.erase term
    else firsts

/-- Move the last index of an affected term to the last remaining entry of that term. -/
def refreshLast (entries : OrderedMap Entry) (lasts : OrderedMap Nat) (term hi : Nat) :
    OrderedMap Nat :=
  match lasts[term]? with
  | none => lasts
  | some current =>
    if current ≤ hi then
      match entries.toList.reverse.find? fun p => decide (p.2.term = term) with
      | some p => lasts.insert term p.1
      | none => lasts.erase term
    else lasts

def removeRange (log : BufferedRaftLog) (lo hi : Nat) : BufferedRaftLog :=
  let affected := (affectedTerms (log.entries.range lo hi)).toList
  let entries := log.entries.eraseRange lo hi
  { log with
    entries := entries
    termFirstIndex := affected.foldl (fun acc p => refreshFirst entries acc p.1 p.2.1)
      log.termFirstIndex
    termLastIndex := affected.foldl (fun acc p => refreshLast entries acc p.1 p.2.2)
      log.termLastIndex
    minIndex := entries.firstKey.getD 0
    maxIndex := entries.lastKey.getD 0 }

def purgePrefix (log : BufferedRaftLog) (cutoff : LogId) : BufferedRaftLog :=
  { log.removeRange 0 cutoff.index with
    lastPurgedTerm := cutoff.term
    lastPurgedIndex := cutoff.index }

def purgeLogsUpTo (io : Except Fault Unit) (log : BufferedRaftLog) (cutoff : LogId) :
    Except Fault Unit × BufferedRaftLog :=
  let purged := log.purgePrefix cutoff
  (io, { purged with durableIndex := max purged.durableIndex cutoff.index })

/-- Clear the log. The purge boundary stays as it is. -/
def reset (io : Except Fault Unit) (log : BufferedRaftLog) :
    Except Fault Unit × BufferedRaftLog :=
  (io, { log with
    entries := ∅
    durableIndex := 0
    nextId := 1
    minIndex := 0
    maxIndex := 0
    termFirstIndex := ∅
    termLastIndex := ∅
    termSegments := log.termSegments.clear })

/-! ## Appending a leader's entries -/

/-- The entries from the first one that the log does not hold with the same term. -/
def divergingTail (log : BufferedRaftLog) : List Entry → Except Fault (List Entry)
  | [] => .ok []
  | e :: rest =>
    if log.lastEntryId < e.index then .ok (e :: rest)
    else
      match log.entryTerm e.index with
      | .error fault => .error fault
      | .ok term => if term = some e.term then log.divergingTail rest else .ok (e :: rest)

/-- The part of the given entries within the log. -/
def overlap (log : BufferedRaftLog) (entries : List Entry) : List Entry :=
  entries.takeWhile fun e => decide (e.index ≤ log.lastEntryId)

/-- The constant-time test that the overlap lies in the newest term segment. -/
def overlapSafe (log : BufferedRaftLog) (overlap : List Entry) : Bool :=
  match overlap.head?, overlap.getLast? with
  | some first, some last =>
    decide (log.termSegments.lastTermStart ≤ first.index ∧
      first.term = log.termSegments.lastTerm ∧ last.term = log.termSegments.lastTerm)
  | _, _ => true

/-- The last position of the given entries, returned once `result` has succeeded. -/
def ackLast (result : Except Fault Unit × BufferedRaftLog) (entries : List Entry) :
    Except Fault (Option LogId) × BufferedRaftLog :=
  match result with
  | (.error fault, log) => (.error fault, log)
  | (.ok (), log) => (.ok (entries.getLast?.map Entry.logId), log)

/-- The part of `filterOutConflictsAndAppend` behind the check of the predecessor. -/
def appendAfterMatch (io : Except Fault Unit) (log : BufferedRaftLog)
    (newEntries : List Entry) : Except Fault (Option LogId) × BufferedRaftLog :=
  let tail := newEntries.dropWhile fun e => decide (e.index ≤ log.lastEntryId)
  if log.overlapSafe (log.overlap newEntries) then
    if tail = [] then (.ok (newEntries.getLast?.map Entry.logId), log)
    else ackLast (log.appendEntries tail) tail
  else
    match log.divergingTail newEntries with
    | .error fault => (.error fault, log)
    | .ok [] => (.ok (newEntries.getLast?.map Entry.logId), log)
    | .ok (e :: rest) =>
      if e.index ≤ log.lastEntryId then
        ackLast (io, (log.removeRange e.index u64Max).insertToMemory (e :: rest)) (e :: rest)
      else ackLast (log.appendEntries (e :: rest)) (e :: rest)

def filterOutConflictsAndAppend (io : Except Fault Unit) (log : BufferedRaftLog)
    (prevLogIndex prevLogTerm : Nat) (newEntries : List Entry) :
    Except Fault (Option LogId) × BufferedRaftLog :=
  if prevLogIndex = 0 ∧ prevLogTerm = 0 then
    match log.reset io with
    | (.error fault, log) => (.error fault, log)
    | (.ok (), log) => ackLast (log.appendEntries newEntries) newEntries
  else
    match log.entryTerm prevLogIndex with
    | .error fault => (.error fault, log)
    | .ok term =>
      if term = some prevLogTerm then log.appendAfterMatch io newEntries
      else (.ok log.lastLogId, log)

/-! ## Construction -/

/-- The log built from what the store returns at start: its last index, the loaded
entries (none when loading failed) and the purge boundary. -/
def new (diskLen : Nat) (loaded : List Entry) (boundary : Option LogId) : BufferedRaftLog :=
  let entries := OrderedMap.insertBy Entry.index ∅ loaded
  let terms := updateTermIndexes (∅, ∅) loaded
  { entries := entries
    durableIndex := diskLen
    nextId := diskLen + 1
    minIndex := entries.firstKey.getD 0
    maxIndex := entries.lastKey.getD 0
    lastPurgedIndex := (boundary.map LogId.index).getD 0
    lastPurgedTerm := (boundary.map LogId.term).getD 0
    termFirstIndex := terms.1
    termLastIndex := terms.2
    termSegments := TermSegments.new.onAppend loaded
    poisoned := false }

end BufferedRaftLog

end DEngine.Storage

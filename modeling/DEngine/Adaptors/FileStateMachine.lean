import DEngine.Adaptors.Interpreter
import DEngine.Library.Framing

/-!
# The state machine in files

The values are in memory. Applying a chunk first finds out which compare-and-swaps
succeed, against the values that they name and the changes of the chunk so far; it
writes the outcomes to the write-ahead log and then changes the values. A checkpoint
writes all values and the last applied identity to their own files and clears the
log. A machine that is opened reads the three files.

## Implementation notes

File operations succeed: a failing one ends its call with the error of the operation.
Each call returns the file writes it makes, in program order. A file that does not
exist reads as an empty one. The values are written in the order of their keys, where
the hash map has an order of its own. The lease is injected behind the construction,
so that reading the files does not see it.
-/

namespace DEngine.Adaptors

open Apply Library Library.Framing

/-- The values, each with the term of the entry that wrote it. -/
abbrev FileData := KeyMap Bytes (Bytes × Nat)

/-- How the file state machine keeps a value. -/
def withTerm (term : Nat) (value : Bytes) : Bytes × Nat := (value, term)

/-! ## Files -/

inductive DiskFile where
  | stateData
  | metadata
  | walLog
deriving DecidableEq, Repr

inductive DiskWrite where
  | truncate (file : DiskFile)
  | append (file : DiskFile) (bytes : Bytes)
deriving DecidableEq, Repr

structure Disk where
  stateData : Bytes
  metadata : Bytes
  walLog : Bytes
deriving DecidableEq, Repr

namespace Disk

def update (d : Disk) (file : DiskFile) (f : Bytes → Bytes) : Disk :=
  match file with
  | .stateData => { d with stateData := f d.stateData }
  | .metadata => { d with metadata := f d.metadata }
  | .walLog => { d with walLog := f d.walLog }

def perform (d : Disk) : DiskWrite → Disk
  | .truncate file => d.update file fun _ => []
  | .append file bytes => d.update file (· ++ bytes)

def performAll (d : Disk) (writes : List DiskWrite) : Disk := writes.foldl perform d

end Disk

/-! ## Records of the write-ahead log -/

inductive WalOpCode where
  | noop
  | insert
  | delete
  | config
  | compareAndSwap
  | casFailed
deriving DecidableEq, Repr

namespace WalOpCode

def toU8 : WalOpCode → UInt8
  | noop => 0
  | insert => 1
  | delete => 2
  | config => 3
  | compareAndSwap => 4
  | casFailed => 5

def fromU8 (byte : UInt8) : Option WalOpCode :=
  if byte = 0 then some noop
  else if byte = 1 then some insert
  else if byte = 2 then some delete
  else if byte = 3 then some config
  else if byte = 4 then some compareAndSwap
  else if byte = 5 then some casFailed
  else none

theorem fromU8_toU8 (op : WalOpCode) : fromU8 op.toU8 = some op := by
  cases op <;> decide

end WalOpCode

def walHeader (entry : ApplyEntry) : Bytes := toBigEndian 8 entry.index ++ toBigEndian 8 entry.term

def walBody (op : WalOpCode) (key value : Bytes) (expireAtSecs : Nat) : Bytes :=
  op.toU8 :: (frame 8 key ++ (frame 8 value ++ toBigEndian 8 expireAtSecs))

/-- The second in which a value expires, zero without a time to live. -/
def expireAtSecs (now : Nat) : Option Nat → Nat
  | some ttlSecs => (now + ttlSecs * nanosPerSec) / nanosPerSec
  | none => 0

def walOpBody : BatchOp → Bytes
  | .insert key value => walBody .insert key value 0
  | .delete key => walBody .delete key [] 0

/-- A batch has a record for each operation; the header that stands in front of the entry is that
of its first record. -/
def encodeWalEntry (now : Nat) (entry : ApplyEntry) (casSuccess : Bool) : Bytes :=
  walHeader entry ++
    match entry.command with
    | .noop => walBody .noop [] [] 0
    | .insert key value ttlSecs => walBody .insert key value (expireAtSecs now ttlSecs)
    | .delete key => walBody .delete key [] 0
    | .compareAndSwap key _ value =>
      if casSuccess then walBody .insert key value 0 else walBody .casFailed [] [] 0
    | .batch [] => []
    | .batch (first :: rest) =>
      walOpBody first ++ rest.flatMap fun op => walHeader entry ++ walOpBody op

/-! ## The machine -/

structure FileStateMachine where
  data : FileData
  lease : Option TtlLease
  lastAppliedIndex : Nat
  lastAppliedTerm : Nat
  walEntriesSinceCheckpoint : Nat

/-- A machine without values. -/
def FileStateMachine.fresh : FileStateMachine := ⟨∅, none, 0, 0, 0⟩

/-- What the clock shows while a chunk is applied: when each entry is encoded and registered, and
the seconds since the last checkpoint. -/
structure ApplyClock where
  encodedAt : Nat → Nat
  registeredAt : Nat → Nat
  sinceCheckpointSecs : Nat

/-- A clock that stands still. -/
def ApplyClock.still : ApplyClock := ⟨fun _ => 0, fun _ => 0, 0⟩

namespace FileStateMachine

variable (sm : FileStateMachine)

def lastApplied : LogId := ⟨sm.lastAppliedTerm, sm.lastAppliedIndex⟩

def updateLastApplied (id : LogId) : FileStateMachine :=
  { sm with lastAppliedIndex := id.index, lastAppliedTerm := id.term }

/-- The values as a reader sees them. -/
def values : KeyMap Bytes Bytes := sm.data.mapValues Prod.fst

/-! ### Writing files -/

def encodeRow (row : Bytes × (Bytes × Nat)) : Bytes :=
  frame 8 row.1 ++ (frame 8 row.2.1 ++ toBigEndian 8 row.2.2)

def encodeData (data : FileData) : Bytes := data.toList.flatMap encodeRow

def persistData : List DiskWrite :=
  [.truncate .stateData, .append .stateData (encodeData sm.data)]

def persistMetadata : List DiskWrite :=
  [.truncate .metadata, .append .metadata (toBigEndian 8 sm.lastAppliedIndex),
    .append .metadata (toBigEndian 8 sm.lastAppliedTerm)]

def clearWal : List DiskWrite := [.truncate .walLog]

def shouldCheckpoint (sinceCheckpointSecs : Nat) : Bool :=
  decide (1000 ≤ sm.walEntriesSinceCheckpoint) || decide (10 ≤ sinceCheckpointSecs)

def checkpoint : FileStateMachine × List DiskWrite :=
  ({ sm with walEntriesSinceCheckpoint := 0 }, sm.persistData ++ (sm.persistMetadata ++ clearWal))

def flush : List DiskWrite := sm.persistData ++ sm.persistMetadata

/-- The last applied identity is persisted first, and once more by the flush. -/
def saveHardState : List DiskWrite := sm.persistMetadata ++ sm.flush

/-! ### Applying a chunk -/

def fetchKey (data base : FileData) (k : Bytes) : FileData :=
  match data[k]? with
  | some v => base.insert k v
  | none => base

/-- The values of the keys that a compare-and-swap of the chunk names. -/
def casBase (data : FileData) (keys : List Bytes) : FileData := keys.foldl (fetchKey data) ∅

/-- Change the delta of the chunk by one operation of a batch. -/
def evaluateOp (term : Nat) (delta : Overlay Bytes (Bytes × Nat)) :
    BatchOp → Overlay Bytes (Bytes × Nat)
  | .insert key value => delta.insert key (some (withTerm term value))
  | .delete key => delta.insert key none

/-- Decide about one entry and change the delta. -/
def evaluateEntry (base : FileData) (delta : Overlay Bytes (Bytes × Nat)) (entry : ApplyEntry) :
    Bool × Overlay Bytes (Bytes × Nat) :=
  match entry.command with
  | .insert key value _ => (false, delta.insert key (some (withTerm entry.term value)))
  | .delete key => (false, delta.insert key none)
  | .compareAndSwap key expected newValue =>
    let current := delta.get (fun k => base[k]?) key
    let success := casMatches (current.map Prod.fst) expected
    (success,
      if success then delta.insert key (some (withTerm entry.term newValue)) else delta)
  | .batch ops => (false, ops.foldl (evaluateOp entry.term) delta)
  | .noop => (false, delta)

/-- Decide about the entries of a chunk, and encode them. -/
def evaluate (encodedAt : Nat → Nat) (base : FileData) :
    Overlay Bytes (Bytes × Nat) → List ApplyEntry → List Bool × Bytes
  | _, [] => ([], [])
  | delta, entry :: rest =>
    let (success, delta) := evaluateEntry base delta entry
    let (outcomes, walBuf) := evaluate encodedAt base delta rest
    (success :: outcomes, encodeWalEntry (encodedAt entry.index) entry success ++ walBuf)

/-- What the update of the values works on. -/
structure Update where
  data : FileData
  lease : Option TtlLease
  results : List ApplyResult

def updateOp (term : Nat) (u : Update) : BatchOp → Update
  | .insert key value => { u with data := u.data.insert key (withTerm term value) }
  | .delete key =>
    { u with data := u.data.erase key, lease := u.lease.map (TtlLease.unregister · key) }

def updateEntry (now : Nat) (u : Update) (entry : ApplyEntry) (casSuccess : Bool) :
    Except Fault Update :=
  let reported (u : Update) (result : ApplyResult) : Update :=
    { u with results := u.results ++ [result] }
  match entry.command with
  | .noop => .ok (reported u (.success entry.index))
  | .insert key value ttlSecs =>
    match registerTtl u.lease now key ttlSecs with
    | .error fault => .error fault
    | .ok lease =>
      .ok (reported { u with data := u.data.insert key (withTerm entry.term value), lease }
        (.success entry.index))
  | .delete key =>
    .ok (reported
      { u with data := u.data.erase key, lease := u.lease.map (TtlLease.unregister · key) }
      (.success entry.index))
  | .compareAndSwap key _ newValue =>
    let u := reported u (if casSuccess then .success entry.index else .failure entry.index)
    .ok (if casSuccess then
      { u with data := u.data.insert key (withTerm entry.term newValue) } else u)
  | .batch ops => .ok (reported (ops.foldl (updateOp entry.term) u) (.success entry.index))

def updateAll (registeredAt : Nat → Nat) : Update → List (ApplyEntry × Bool) → Except Fault Update
  | u, [] => .ok u
  | u, (entry, casSuccess) :: rest =>
    match updateEntry (registeredAt entry.index) u entry casSuccess with
    | .error fault => .error fault
    | .ok u => updateAll registeredAt u rest

/-- The outcomes of a chunk and the bytes for the write-ahead log. -/
def evaluateChunk (encodedAt : Nat → Nat) (chunk : List ApplyEntry) : List Bool × Bytes :=
  evaluate encodedAt (casBase sm.data (chunk.flatMap casKeys)) ∅ chunk

/-- Change the values, given the outcomes. -/
def updateChunk (registeredAt : Nat → Nat) (chunk : List ApplyEntry) (outcomes : List Bool) :
    Except Fault (List ApplyResult × FileStateMachine) :=
  match updateAll registeredAt ⟨sm.data, sm.lease, []⟩ (chunk.zip outcomes) with
  | .error fault => .error fault
  | .ok u => .ok (u.results, { sm with data := u.data, lease := u.lease })

/-- Move the last applied identity, and take a checkpoint if one is due. -/
def finishChunk (sinceCheckpointSecs : Nat) (highest : Option LogId) (chunkLen : Nat) :
    FileStateMachine × List DiskWrite :=
  let moved := highest.elim sm sm.updateLastApplied
  let counted :=
    { moved with walEntriesSinceCheckpoint := moved.walEntriesSinceCheckpoint + chunkLen }
  if counted.shouldCheckpoint sinceCheckpointSecs then counted.checkpoint else (counted, [])

def walAppend (walBuf : Bytes) : List DiskWrite :=
  if walBuf = [] then [] else [.append .walLog walBuf]

def applyChunk (clock : ApplyClock) (chunk : List ApplyEntry) :
    Except Fault (List ApplyResult × FileStateMachine × List DiskWrite) :=
  match chunk.foldlM nextHighest none with
  | .error fault => .error fault
  | .ok highest =>
    let (outcomes, walBuf) := sm.evaluateChunk clock.encodedAt chunk
    match sm.updateChunk clock.registeredAt chunk outcomes with
    | .error fault => .error fault
    | .ok (results, updated) =>
      let (finished, writes) :=
        updated.finishChunk clock.sinceCheckpointSecs highest chunk.length
      .ok (results, finished, walAppend walBuf ++ writes)

/-! ### Reading files -/

def loadMetadata (file : Bytes) : LogId :=
  if file.length < 16 then ⟨0, 0⟩
  else ⟨ofBigEndian ((file.drop 8).take 8), ofBigEndian (file.take 8)⟩

/-- Read rows as long as they are complete. -/
def loadRows : Nat → FileData → Bytes → FileData
  | 0, data, _ => data
  | fuel + 1, data, file =>
    match takeFrame 8 file with
    | none => data
    | some (key, rest) =>
      match takeFrame 8 rest with
      | none => data
      | some (value, rest) =>
        match takeNumber 8 rest with
        | none => data
        | some (term, rest) => loadRows fuel (data.insert key (value, term)) rest

def loadData (file : Bytes) : FileData := loadRows file.length ∅ file

structure WalRecord where
  index : Nat
  opCode : WalOpCode
  key : Bytes
  value : Option Bytes
  term : Nat
  expireAtSecs : Option Nat
deriving DecidableEq, Repr

/-- Read records as long as they are complete. An unknown operation code is an error. -/
def parseWal : Nat → Bytes → Except Fault (List WalRecord)
  | 0, _ => .ok []
  | fuel + 1, file =>
    if 17 < file.length then
      match file.drop 16 with
      | [] => .ok []
      | opByte :: rest =>
        match WalOpCode.fromU8 opByte with
        | none => .error .dataCorruption
        | some opCode =>
          match takeFrame 8 rest with
          | none => .ok []
          | some (key, rest) =>
            match takeFrame 8 rest with
            | none => .ok []
            | some (value, rest) =>
              match takeNumber 8 rest with
              | none => .ok []
              | some (secs, rest) =>
                (parseWal fuel rest).map
                  ({ index := ofBigEndian (file.take 8)
                     opCode, key
                     value := if value = [] then none else some value
                     term := ofBigEndian ((file.drop 8).take 8)
                     expireAtSecs := if secs = 0 then none else some secs } :: ·)
    else .ok []

def replayRecord (now : Nat) (data : FileData) (record : WalRecord) : FileData :=
  match record.opCode, record.value with
  | .insert, some value =>
    if record.expireAtSecs.any fun secs => decide (secs * nanosPerSec ≤ now) then data
    else data.insert record.key (value, record.term)
  | .delete, _ => data.erase record.key
  | .compareAndSwap, some value => data.insert record.key (value, record.term)
  | _, _ => data

/-- Records of entries up to the last applied index are skipped. -/
def replayWal (now lastAppliedIndex : Nat) (data : FileData) (file : Bytes) :
    Except Fault FileData :=
  (parseWal file.length file).map fun records =>
    (records.filter fun r => decide (lastAppliedIndex < r.index)).foldl (replayRecord now) data

/-- The bytes of `snapshot.bin`: the rows, and behind them the leases. -/
def snapshotBin (data : FileData) (leaseSnapshot : Bytes) : Bytes :=
  encodeData data ++ frame 8 leaseSnapshot

/-- The values that are installed from `snapshot.bin`. Rows are read as from the data file, up to
the end of the bytes. -/
def parseSnapshot (buffer : Bytes) : FileData := loadData buffer

/-- Open the files. A log that was replayed is cleared; the last applied identity stays that of
the metadata file. -/
def loadFromDisk (now : Nat) (disk : Disk) : Except Fault (FileStateMachine × List DiskWrite) :=
  let id := loadMetadata disk.metadata
  match replayWal now id.index (loadData disk.stateData) disk.walLog with
  | .error fault => .error fault
  | .ok data =>
    .ok (⟨data, none, id.index, id.term, 0⟩, if disk.walLog = [] then [] else clearWal)

end FileStateMachine

end DEngine.Adaptors

import DEngine.Proto

/-!
# Commands of the state machine

The state machine sees decoded commands. `decodeEntries` turns the entries of a
chunk into commands, in order and one for each entry: a configuration change
becomes a no-op, so that the applied index moves over it. The protobuf decoder of
the command bytes is a parameter.
-/

namespace DEngine.Apply

abbrev Bytes := List UInt8

/-! ## The wire format -/

inductive BatchOpMessage where
  | insert (key value : Bytes) (ttlSecs : Nat)
  | delete (key : Bytes)
deriving DecidableEq, Repr

inductive Operation where
  | insert (key value : Bytes) (ttlSecs : Nat)
  | delete (key : Bytes)
  | compareAndSwap (key : Bytes) (expectedValue : Option Bytes) (newValue : Bytes)
  | batch (ops : List (Option BatchOpMessage))
deriving DecidableEq, Repr

structure WriteCommand where
  operation : Option Operation
deriving DecidableEq, Repr

/-! ## Decoded commands -/

inductive BatchOp where
  | insert (key value : Bytes)
  | delete (key : Bytes)
deriving DecidableEq, Repr

inductive Command where
  | noop
  | insert (key value : Bytes) (ttlSecs : Option Nat)
  | delete (key : Bytes)
  | compareAndSwap (key : Bytes) (expected : Option Bytes) (value : Bytes)
  | batch (ops : List BatchOp)
deriving DecidableEq, Repr

/-- A decoded log entry, as the state machine applies it. -/
structure ApplyEntry where
  index : Nat
  term : Nat
  command : Command
deriving DecidableEq, Repr

namespace ApplyEntry

def logId (a : ApplyEntry) : LogId := ⟨a.term, a.index⟩

end ApplyEntry

def BatchOp.tryFrom : Option BatchOpMessage → Except Fault BatchOp
  | some (.insert key value ttlSecs) =>
    if ttlSecs ≠ 0 then
      .error (.stateMachineError
        "BatchOp does not support TTL; use Command::Insert directly for per-key expiration")
    else .ok (.insert key value)
  | some (.delete key) => .ok (.delete key)
  | none => .error (.stateMachineError "BatchOp has no operation")

def Command.tryFrom (wc : WriteCommand) : Except Fault Command :=
  match wc.operation with
  | some (.insert key value ttlSecs) =>
    .ok (.insert key value (if ttlSecs = 0 then none else some ttlSecs))
  | some (.delete key) => .ok (.delete key)
  | some (.compareAndSwap key expectedValue newValue) =>
    .ok (.compareAndSwap key expectedValue newValue)
  | some (.batch ops) => do
    let ops ← ops.mapM BatchOp.tryFrom
    return .batch ops
  | none => .error (.stateMachineError "WriteCommand has no operation")

section Decode

variable (decode : Bytes → Except String WriteCommand)

def decodeEntry (entry : Entry) : Except Fault ApplyEntry :=
  match entry.payload.bind EntryPayload.payload with
  | none => .error (.stateMachineError s!"Entry at index {entry.index} has no payload")
  | some .noop => .ok ⟨entry.index, entry.term, .noop⟩
  | some (.config _) => .ok ⟨entry.index, entry.term, .noop⟩
  | some (.command data) =>
    match decode data with
    | .error e =>
      .error (.serializationError
        s!"Failed to decode WriteCommand at index {entry.index}: {e}")
    | .ok wc =>
      match Command.tryFrom wc with
      | .error fault => .error fault
      | .ok command => .ok ⟨entry.index, entry.term, command⟩

/-- The first entry that cannot be decoded ends the loop with its error. -/
def decodeEntries (entries : List Entry) : Except Fault (List ApplyEntry) :=
  entries.mapM (decodeEntry decode)

variable {decode}

theorem logId_of_decodeEntry {entry : Entry} {a : ApplyEntry}
    (h : decodeEntry decode entry = .ok a) : a.logId = entry.logId := by
  unfold decodeEntry at h
  split at h
  · cases h
  · cases h
    rfl
  · cases h
    rfl
  · split at h
    · cases h
    · split at h <;> cases h
      rfl

variable {entries : List Entry} {decoded : List ApplyEntry}

/-- A decoded chunk has one command for each entry, in order. -/
theorem forall₂_of_decodeEntries (h : decodeEntries decode entries = .ok decoded) :
    List.Forall₂ (fun entry a => decodeEntry decode entry = .ok a) entries decoded := by
  unfold decodeEntries at h
  induction entries generalizing decoded with
  | nil =>
    cases h
    exact .nil
  | cons entry rest ih =>
    rw [List.mapM_cons] at h
    cases hen : decodeEntry decode entry with
    | error => simp [hen, bind, Except.bind] at h
    | ok =>
      cases hre : rest.mapM (decodeEntry decode) with
      | error => simp [hen, hre, bind, Except.bind] at h
      | ok =>
        simp only [hen, hre, bind, Except.bind, pure, Except.pure] at h
        cases h
        exact .cons hen (ih hre)

theorem index_of_decodeEntries (h : decodeEntries decode entries = .ok decoded) :
    decoded.map ApplyEntry.index = entries.map Entry.index := by
  have hall := forall₂_of_decodeEntries h
  clear h
  induction hall with
  | nil => rfl
  | cons hen _ ih =>
    exact congrArg₂ List.cons (congrArg LogId.index (logId_of_decodeEntry hen)) ih

/-- Every command of a decoded chunk comes from an entry of the chunk. -/
theorem exists_of_mem_decodeEntries
    (h : decodeEntries decode entries = .ok decoded) {a : ApplyEntry} (ha : a ∈ decoded) :
    ∃ e ∈ entries, decodeEntry decode e = .ok a := by
  have hall := forall₂_of_decodeEntries h
  clear h
  induction hall with
  | nil => cases ha
  | cons hen _ ih =>
    rcases List.mem_cons.mp ha with rfl | hre
    · exact ⟨_, List.mem_cons_self, hen⟩
    · obtain ⟨e, he, hea⟩ := ih hre
      exact ⟨e, List.mem_cons_of_mem _ he, hea⟩

theorem exists_decodeEntries (h : ∀ e ∈ entries, ∃ a, decodeEntry decode e = .ok a) :
    ∃ decoded, decodeEntries decode entries = .ok decoded := by
  unfold decodeEntries
  induction entries with
  | nil => exact ⟨[], rfl⟩
  | cons entry rest ih =>
    obtain ⟨a, ha⟩ := h entry List.mem_cons_self
    obtain ⟨others, hot⟩ := ih fun e he => h e (List.mem_cons_of_mem _ he)
    refine ⟨a :: others, ?_⟩
    rw [List.mapM_cons, ha, hot]
    rfl

end Decode

end DEngine.Apply

import DEngine.Raft.Node
import DEngine.Replication.LeaderRequests

/-!
# What the handlers do to the log

A handler of a node touches the log in three ways: a leader appends a batch, a
replica takes over a request, and every role purges a prefix. All three keep the
log well formed and leave the poison mark alone, and only a purge moves the boundary.
-/

namespace DEngine.Storage.BufferedRaftLog

variable (log : BufferedRaftLog)

/-- The poison mark and the purge boundary. -/
def marks : Bool × Nat := (log.poisoned, log.lastPurgedIndex)

theorem marks_appendEntries (entries : List Entry) :
    (log.appendEntries entries).2.marks = log.marks := by
  unfold appendEntries
  split_ifs <;> rfl

theorem lastEntryId_le_insertToMemory (entries : List Entry) :
    log.lastEntryId ≤ (log.insertToMemory entries).lastEntryId := by
  unfold insertToMemory lastEntryId
  cases entries.getLast? with
  | none => rfl
  | some =>
    dsimp only
    split_ifs <;> omega

theorem marks_preAllocateIdRange (count : Nat) :
    (log.preAllocateIdRange count).2.marks = log.marks := by
  unfold preAllocateIdRange
  split_ifs <;> rfl

theorem marks_ackLast (result : Except Fault Unit × BufferedRaftLog) (entries : List Entry) :
    (ackLast result entries).2.marks = result.2.marks := by
  obtain ⟨outcome, after⟩ := result
  cases outcome <;> rfl

theorem marks_appendAfterMatch (io : Except Fault Unit) (entries : List Entry) :
    (log.appendAfterMatch io entries).2.marks = log.marks := by
  unfold appendAfterMatch
  simp only
  split_ifs
  · rfl
  · rw [marks_ackLast, marks_appendEntries]
  · cases log.divergingTail entries with
    | error => rfl
    | ok tail =>
      cases tail with
      | nil => rfl
      | cons =>
        simp only
        split_ifs
        · rw [marks_ackLast]
          rfl
        · rw [marks_ackLast, marks_appendEntries]

theorem marks_filterOutConflictsAndAppend (io : Except Fault Unit) (prevIndex prevTerm : Nat)
    (entries : List Entry) :
    (log.filterOutConflictsAndAppend io prevIndex prevTerm entries).2.marks =
      log.marks := by
  unfold filterOutConflictsAndAppend
  split_ifs
  · cases io with
    | error => rfl
    | ok =>
      simp only [reset]
      rw [marks_ackLast, marks_appendEntries]
      rfl
  · cases log.entryTerm prevIndex with
    | error => rfl
    | ok =>
      simp only
      split_ifs
      · exact log.marks_appendAfterMatch io entries
      · rfl

end DEngine.Storage.BufferedRaftLog

namespace DEngine.Replication

open Storage

variable {log : BufferedRaftLog}

theorem marks_handleAppendEntries (myId : Nat) (io : Except Fault Unit)
    (request : AppendEntriesRequest) (snapshot : StateSnapshot) (log : BufferedRaftLog) :
    (handleAppendEntries myId io request snapshot log).2.marks = log.marks := by
  have hke := log.marks_filterOutConflictsAndAppend io request.prevLogIndex
    request.prevLogTerm request.entries
  have hout := handleAppendEntries_outcome myId io request snapshot log
  generalize handleAppendEntries myId io request snapshot log = result at hout ⊢
  cases hout with
  | stale | unknown | conflict | heartbeat => rfl
  | failed _ _ hrun | appended _ _ _ hrun => rwa [hrun] at hke

/-! ## Batches of a leader -/

theorem marks_generateNewEntries (payloads : List EntryPayload) (term : Nat)
    (log : BufferedRaftLog) : (generateNewEntries payloads term log).2.marks = log.marks := by
  rcases generateNewEntries_cases payloads term log with
    ⟨-, heq⟩ | ⟨fault, heq⟩ | ⟨stop, entries, -, -, -, heq⟩ <;> rw [heq]
  · exact log.marks_preAllocateIdRange payloads.length
  · rfl

/-- No outcome of a batch moves the end of the log back. -/
theorem lastEntryId_le_generateNewEntries (payloads : List EntryPayload) (term : Nat)
    (log : BufferedRaftLog) :
    log.lastEntryId ≤ (generateNewEntries payloads term log).2.lastEntryId := by
  rcases generateNewEntries_cases payloads term log with
    ⟨-, heq⟩ | ⟨fault, heq⟩ | ⟨stop, entries, -, -, -, heq⟩ <;> rw [heq]
  · unfold BufferedRaftLog.preAllocateIdRange
    split_ifs <;> rfl
  · exact BufferedRaftLog.lastEntryId_le_insertToMemory _ entries

variable {payloads : List EntryPayload}

/-- Every outcome of a batch keeps the log well formed. -/
theorem wellFormed_generateNewEntries {term : Nat} (h : log.WellFormed) (hte : 1 ≤ term) :
    (generateNewEntries payloads term log).2.WellFormed := by
  rcases generateNewEntries_cases payloads term log with
    ⟨-, heq⟩ | ⟨fault, heq⟩ | ⟨stop, entries, -, -, -, heq⟩
  · rw [heq]
    exact h
  · rw [heq]
    exact h.preAllocateIdRange payloads.length
  · exact (generateNewEntries_ok h hte (congrArg Prod.fst heq)).wellFormed

/-- Building the requests does not touch the log. -/
theorem log_prepareBatchRequests {myId cap : Nat}
    {snapshot : StateSnapshot} {nextIndex : Library.OrderedMap Nat}
    {targets : ReplicationTargets myId} :
    (prepareBatchRequests myId cap payloads snapshot nextIndex targets log).2 =
      (generateNewEntries payloads snapshot.currentTerm log).2 := by
  unfold prepareBatchRequests
  simp only
  cases generateNewEntries payloads snapshot.currentTerm log with
  | mk result =>
    cases result with
    | error => rfl
    | ok =>
      simp only
      split_ifs <;> rfl

/-- Every request of a batch carries the leader's term. -/
theorem term_prepareBatchRequests {myId cap : Nat}
    {snapshot : StateSnapshot} {nextIndex : Library.OrderedMap Nat}
    {targets : ReplicationTargets myId} {result : PrepareResult}
    (hok : (prepareBatchRequests myId cap payloads snapshot nextIndex targets log).1 =
      .ok result) : ∀ p ∈ result.appendRequests, p.2.1.term = snapshot.currentTerm := by
  rintro ⟨id, request, next⟩ hmem
  obtain ⟨_, _, _, -, -, -, hbu⟩ := mem_prepareBatchRequests hok hmem
  exact (buildAppendRequest_append hbu).1

end DEngine.Replication

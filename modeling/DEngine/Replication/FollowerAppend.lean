import DEngine.Storage.ConflictResolution

/-!
# The receiver of AppendEntries

`handleAppendEntries` checks a request against the local log, hands its entries
to the log and derives the commit index update. An accepted request leaves a
splice of the local log and the request; everything that is said about
followers later starts from `Accepted`.
-/

namespace DEngine.Replication

open Library Library.PartialLog Storage

/-- The part of a role's state that the receiver reads. -/
structure StateSnapshot where
  currentTerm : Nat
  commitIndex : Nat
deriving DecidableEq, Repr

structure AppendResponseWithUpdates where
  response : AppendEntriesResponse
  commitIndexUpdate : Option Nat
deriving DecidableEq, Repr

def ifUpdateCommitIndexAsFollower (myCommitIndex lastRaftLogId leaderCommitIndex : Nat) :
    Option Nat :=
  if myCommitIndex < leaderCommitIndex then some (min leaderCommitIndex lastRaftLogId) else none

def checkAppendEntriesRequestIsLegal (myId myTerm : Nat) (request : AppendEntriesRequest)
    (log : BufferedRaftLog) : Except Fault AppendEntriesResponse :=
  if request.term < myTerm then .ok (.higherTerm myId myTerm)
  else if request.prevLogIndex = 0 ∧ request.prevLogTerm = 0 then
    .ok (.success myId myTerm log.lastLogId)
  else
    match log.entryTerm request.prevLogIndex with
    | .error fault => .error fault
    | .ok (some term) =>
      if term = request.prevLogTerm then
        .ok (.success myId myTerm (some ⟨request.prevLogTerm, request.prevLogIndex⟩))
      else
        .ok (.conflict myId myTerm (some term)
          (some ((log.firstIndexForTerm term).getD (request.prevLogIndex - 1))))
    | .ok none =>
      .ok (.conflict myId myTerm none (some ((log.lastLogId.map LogId.index).getD 0 + 1)))

/-- The answer to a legal request once its entries have been handled. -/
def acceptedResponse (myId : Nat) (request : AppendEntriesRequest) (snapshot : StateSnapshot)
    (log : BufferedRaftLog) (lastLogId : Option LogId) : AppendResponseWithUpdates :=
  { response := .success myId snapshot.currentTerm lastLogId
    commitIndexUpdate := ifUpdateCommitIndexAsFollower snapshot.commitIndex log.lastEntryId
      request.leaderCommitIndex }

def handleAppendEntries (myId : Nat) (io : Except Fault Unit) (request : AppendEntriesRequest)
    (snapshot : StateSnapshot) (log : BufferedRaftLog) :
    Except Fault AppendResponseWithUpdates × BufferedRaftLog :=
  match checkAppendEntriesRequestIsLegal myId snapshot.currentTerm request log with
  | .error fault => (.error fault, log)
  | .ok response =>
    if response.isConflict || response.isHigherTerm then (.ok ⟨response, none⟩, log)
    else if request.entries = [] then
      (.ok (acceptedResponse myId request snapshot log log.lastLogId), log)
    else
      match log.filterOutConflictsAndAppend io request.prevLogIndex request.prevLogTerm
        request.entries with
      | (.error fault, log) => (.error fault, log)
      | (.ok lastLogId, log) =>
        (.ok (acceptedResponse myId request snapshot log lastLogId), log)

/-! ## Accepted requests -/

/-- The index from which an accepted request replaces the local log, if it does. -/
def rewriteCut (log : BufferedRaftLog) (request : AppendEntriesRequest) : Option Nat :=
  if request.entries = [] then none
  else log.rewriteFrom request.prevLogIndex request.prevLogTerm request.entries

/-- The position that an accepted request is answered with. -/
def ackedId (log : BufferedRaftLog) (request : AppendEntriesRequest) : Option LogId :=
  if request.entries = [] then log.lastLogId else request.entries.getLast?.map Entry.logId

/-- The last index of the log behind an accepted request. -/
def lastAfter (log : BufferedRaftLog) (request : AppendEntriesRequest) : Nat :=
  match rewriteCut log request with
  | none => log.lastEntryId
  | some _ => (request.entries.getLast?.map Entry.index).getD 0

/-- The outcome of a request that is answered with success. -/
structure Accepted (snapshot : StateSnapshot) (log after : BufferedRaftLog)
    (request : AppendEntriesRequest) (updates : AppendResponseWithUpdates) : Prop where
  term_le : snapshot.currentTerm ≤ request.term
  matched : log.Matches request.prevLogIndex request.prevLogTerm
  result_eq : updates.response.result = some (.success (ackedId log request))
  commit_eq : updates.commitIndexUpdate =
    ifUpdateCommitIndexAsFollower snapshot.commitIndex after.lastEntryId
      request.leaderCommitIndex
  entry_eq : after.entry =
    splice log.entry (rewriteCut log request) (ofList Entry.index request.entries)
  last_eq : after.lastEntryId = lastAfter log request
  purged_eq : after.lastPurgedIndex = log.lastPurgedIndex

section Spec

variable (myId : Nat) (io : Except Fault Unit) (request : AppendEntriesRequest)
  (snapshot : StateSnapshot) (log : BufferedRaftLog)

/-- What becomes of a request, and why. -/
inductive Outcome : Except Fault AppendResponseWithUpdates × BufferedRaftLog → Prop where
  | stale : request.term < snapshot.currentTerm →
      Outcome (.ok ⟨.higherTerm myId snapshot.currentTerm, none⟩, log)
  | unknown {fault : Fault} : ¬ log.Matches request.prevLogIndex request.prevLogTerm →
      log.entryTerm request.prevLogIndex = .error fault → Outcome (.error fault, log)
  | conflict {recorded : Option Nat} (conflictIndex : Option Nat) :
      ¬ log.Matches request.prevLogIndex request.prevLogTerm →
      log.entryTerm request.prevLogIndex = .ok recorded →
      Outcome (.ok ⟨.conflict myId snapshot.currentTerm recorded conflictIndex, none⟩, log)
  | heartbeat : snapshot.currentTerm ≤ request.term →
      log.Matches request.prevLogIndex request.prevLogTerm → request.entries = [] →
      Outcome (.ok (acceptedResponse myId request snapshot log log.lastLogId), log)
  | failed {fault : Fault} {after : BufferedRaftLog} :
      log.Matches request.prevLogIndex request.prevLogTerm → request.entries ≠ [] →
      log.filterOutConflictsAndAppend io request.prevLogIndex request.prevLogTerm
        request.entries = (.error fault, after) → Outcome (.error fault, after)
  | appended {id : Option LogId} {after : BufferedRaftLog} :
      snapshot.currentTerm ≤ request.term →
      log.Matches request.prevLogIndex request.prevLogTerm → request.entries ≠ [] →
      log.filterOutConflictsAndAppend io request.prevLogIndex request.prevLogTerm
        request.entries = (.ok id, after) →
      Outcome (.ok (acceptedResponse myId request snapshot after id), after)

/-- A request that is not stale passes the check if its predecessor is there. Otherwise it is
answered with the term that is recorded there. -/
theorem checkAppendEntriesRequestIsLegal_eq {myTerm : Nat} (hte : myTerm ≤ request.term) :
    (log.Matches request.prevLogIndex request.prevLogTerm ∧ ∃ lastMatch,
      checkAppendEntriesRequestIsLegal myId myTerm request log =
        .ok (.success myId myTerm lastMatch)) ∨
    ¬ log.Matches request.prevLogIndex request.prevLogTerm ∧
      checkAppendEntriesRequestIsLegal myId myTerm request log =
        (log.entryTerm request.prevLogIndex).map fun recorded =>
          .conflict myId myTerm recorded (some (match recorded with
            | some term => (log.firstIndexForTerm term).getD (request.prevLogIndex - 1)
            | none => (log.lastLogId.map LogId.index).getD 0 + 1)) := by
  unfold checkAppendEntriesRequestIsLegal BufferedRaftLog.Matches
  rw [if_neg (Nat.not_lt.mpr hte)]
  split_ifs with hze
  · exact .inl ⟨Or.inl hze, _, rfl⟩
  · rcases hlo : log.entryTerm request.prevLogIndex with _ | _ | term
    · exact .inr ⟨by simp [hze], rfl⟩
    · exact .inr ⟨by simp [hze], rfl⟩
    · by_cases heq : term = request.prevLogTerm
      · exact .inl ⟨Or.inr (by rw [heq]), _, if_pos heq⟩
      · exact .inr ⟨by simp [hze, heq], if_neg heq⟩

theorem handleAppendEntries_outcome : Outcome myId io request snapshot log
    (handleAppendEntries myId io request snapshot log) := by
  unfold handleAppendEntries
  by_cases hst : request.term < snapshot.currentTerm
  · rw [checkAppendEntriesRequestIsLegal, if_pos hst]
    exact .stale hst
  · have hte := Nat.le_of_not_lt hst
    rcases checkAppendEntriesRequestIsLegal_eq myId request log hte with
      ⟨hma, lastMatch, hch⟩ | ⟨hnot, hch⟩
    · rw [hch]
      dsimp only
      rw [if_neg (by simp [AppendEntriesResponse.success, AppendEntriesResponse.isConflict,
        AppendEntriesResponse.isHigherTerm])]
      split_ifs with hnil
      · exact .heartbeat hte hma hnil
      · rcases hrun : log.filterOutConflictsAndAppend io request.prevLogIndex request.prevLogTerm
          request.entries with ⟨_ | _, after⟩
        · exact .failed hma hnil hrun
        · exact .appended hte hma hnil hrun
    · rw [hch]
      cases hlo : log.entryTerm request.prevLogIndex with
      | error => exact .unknown hnot hlo
      | ok => exact .conflict _ hnot hlo

end Spec

section Outcomes

variable {myId : Nat} {io : Except Fault Unit} {request : AppendEntriesRequest}
  {snapshot : StateSnapshot} {log : BufferedRaftLog}

variable {updates : AppendResponseWithUpdates}

/-- A request that is answered with success went through the log. -/
theorem handleAppendEntries_accepted (h : log.WellFormed) (hes : Batch request.entries)
    (hok : (handleAppendEntries myId io request snapshot log).1 = .ok updates)
    (hsu : updates.response.isSuccess = true) :
    Accepted snapshot log (handleAppendEntries myId io request snapshot log).2 request
      updates := by
  have hout := handleAppendEntries_outcome myId io request snapshot log
  generalize handleAppendEntries myId io request snapshot log = result at hok hout ⊢
  cases hout with
  | stale | conflict => cases hok; cases hsu
  | unknown | failed => cases hok
  | heartbeat hte hma hnil =>
    cases hok
    have hcut : rewriteCut log request = none := if_pos hnil
    refine ⟨hte, hma, ?_, rfl, ?_, ?_, rfl⟩
    · rw [ackedId, if_pos hnil]
      rfl
    · rw [hcut]
      rfl
    · rw [lastAfter, hcut]
  | appended hte hma hne hrun =>
    cases hok
    have hdn := h.appended hes hma (congrArg Prod.fst hrun)
    rw [hrun] at hdn
    have hcut : rewriteCut log request = log.rewriteFrom request.prevLogIndex
        request.prevLogTerm request.entries := if_neg hne
    refine ⟨hte, hma, ?_, rfl, ?_, ?_, hdn.purged_eq⟩
    · rw [ackedId, if_neg hne, ← hdn.id_eq]
      rfl
    · rw [hcut]
      exact hdn.entry_eq
    · rw [lastAfter, hcut]
      exact hdn.max_eq

/-- Every outcome keeps the log well formed. -/
theorem wellFormed_handleAppendEntries (myId : Nat) (io : Except Fault Unit)
    (snapshot : StateSnapshot) (h : log.WellFormed) (hes : Batch request.entries) :
    (handleAppendEntries myId io request snapshot log).2.WellFormed := by
  have hwf := h.filterOutConflictsAndAppend io request.prevLogIndex request.prevLogTerm hes
  have hout := handleAppendEntries_outcome myId io request snapshot log
  generalize handleAppendEntries myId io request snapshot log = result at hout ⊢
  cases hout with
  | stale | unknown | conflict | heartbeat => exact h
  | failed _ _ hrun | appended _ _ _ hrun => rwa [hrun] at hwf

/-- Only a success comes with a new commit index. -/
theorem isSuccess_of_commitIndexUpdate {commit : Nat}
    (hok : (handleAppendEntries myId io request snapshot log).1 = .ok updates)
    (hcom : updates.commitIndexUpdate = some commit) : updates.response.isSuccess = true := by
  have hout := handleAppendEntries_outcome myId io request snapshot log
  generalize handleAppendEntries myId io request snapshot log = result at hok hout
  cases hout with
  | stale | conflict => cases hok; cases hcom
  | unknown | failed => cases hok
  | heartbeat | appended => cases hok; rfl

/-- A request that moves the commit index was accepted, and takes it to the leader's commit
index or to the last index of the log, whichever is smaller. -/
theorem handleAppendEntries_commit (h : log.WellFormed) (hes : Batch request.entries) {commit : Nat}
    (hok : (handleAppendEntries myId io request snapshot log).1 = .ok updates)
    (hcom : updates.commitIndexUpdate = some commit) :
    snapshot.currentTerm ≤ request.term ∧
      log.Matches request.prevLogIndex request.prevLogTerm ∧
      snapshot.commitIndex < request.leaderCommitIndex ∧
      commit = min request.leaderCommitIndex (lastAfter log request) := by
  have hacc := handleAppendEntries_accepted h hes hok
    (isSuccess_of_commitIndexUpdate hok hcom)
  have heq := hacc.commit_eq
  rw [hcom, hacc.last_eq, ifUpdateCommitIndexAsFollower] at heq
  split_ifs at heq with hlt
  exact ⟨hacc.term_le, hacc.matched, hlt, Option.some.inj heq⟩

end Outcomes

end DEngine.Replication

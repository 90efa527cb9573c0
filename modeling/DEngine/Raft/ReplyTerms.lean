import DEngine.Raft.InstalledSuffix

/-!
# The terms of a follower's replies

A follower that hears of a newer term adopts it before it answers. The answers to vote
requests and those of the replication handler are built from a snapshot that was taken
before, so they carry the older term; the sender takes them for answers from another
term. Only the conflict that stands in for a failed replication is built from the term
in memory.
-/

namespace DEngine.Raft

open Library Library.Handler Storage Replication
open Storage.BufferedRaftLog (ackLast)

variable {myId : Nat} {s t : Node myId} {env : Env}

/-- The term of a vote response, and of a success or a conflict. -/
def Action.replyTerm : Action → Option Nat
  | .answeredVote _ response => some response.term
  | .answeredAppend response =>
    if response.isSuccess || response.isConflict then some response.term else none
  | _ => none

namespace Node

/-- The terms of the replies that were sent on the way from one state to another. -/
def repliesSince (s t : Node myId) : List Nat :=
  (t.journal.take (t.journal.length - s.journal.length)).filterMap Action.replyTerm

/-- Every reply carries the term that the node has in the end. -/
def RepliesCurrent (s t : Node myId) : Prop := ∀ term ∈ s.repliesSince t, term = t.currentTerm
deriving Decidable

theorem repliesSince_eq (done : List Action) (h : t.journal = done ++ s.journal) :
    s.repliesSince t = done.filterMap Action.replyTerm := by
  simp [repliesSince, h]

theorem repliesCurrent_of_silent (h : t.journal = s.journal) : s.RepliesCurrent t := by
  intro term hte
  rw [repliesSince_eq [] h] at hte
  cases hte

/-- What is sent in one reply. -/
theorem repliesCurrent_of_reply {action : Action} (h : t.journal = action :: s.journal) :
    s.RepliesCurrent t ↔ ∀ term, action.replyTerm = some term → term = t.currentTerm := by
  have hre := repliesSince_eq (s := s) [action] h
  simp only [RepliesCurrent, hre, List.mem_filterMap, List.mem_singleton, exists_eq_left]

theorem repliesCurrent_congr {u : Node myId} (h : u.journal = s.journal) :
    u.RepliesCurrent t ↔ s.RepliesCurrent t := by
  simp only [RepliesCurrent, repliesSince, h]

/-- The term and the vote cannot be written. -/
def WriteFails (s : Node myId) (outcome : Except Fault Unit) : Prop :=
  s.log.poisoned = true ∨ ∃ fault, outcome = .error fault

theorem not_writeFails {outcome : Except Fault Unit} (h : ¬ s.WriteFails outcome) :
    s.log.poisoned = false ∧ outcome = .ok () := by
  obtain ⟨hso, hok⟩ := not_or.mp h
  refine ⟨Bool.eq_false_iff.mpr hso, ?_⟩
  cases outcome with
  | ok => rfl
  | error fault => exact absurd ⟨fault, rfl⟩ hok

end Node

open Node

/-! ## Writing the term -/

theorem saveHardState_fails {outcome : Except Fault Unit} (h : s.WriteFails outcome) :
    Ensures (saveHardState outcome) s fun r t =>
      (∃ fault, r = .error fault) ∧ t.journal = s.journal := by
  unfold saveHardState
  rw [ensures_get_bind]
  split_ifs with hpo
  · exact ⟨⟨_, rfl⟩, rfl⟩
  · obtain ⟨fault, rfl⟩ := h.resolve_left hpo
    exact ⟨⟨fault, rfl⟩, rfl⟩

/-- A new term is always written. -/
theorem commitHardState_fails {outcome : Except Fault Unit} (h : s.WriteFails outcome)
    {newTerm : Nat} (hnew : newTerm ≠ s.currentTerm) (votedFor : Option VotedFor) :
    Ensures (commitHardState outcome (some newTerm) votedFor) s fun r t =>
      (∃ fault, r = .error fault) ∧ t.journal = s.journal := by
  have hch : (s.shared.setHardState (some newTerm) votedFor).1.changed = true := by
    have hde : decide (newTerm ≠ s.shared.hardState.currentTerm) = true := decide_eq_true hnew
    cases votedFor with
    | none => exact hde
    | some => exact Bool.or_eq_true_iff.mpr (.inl hde)
  unfold commitHardState
  rw [if_neg (by simp), ensures_get_bind, ensures_modify_bind, if_pos hch]
  refine (saveHardState_fails (s := s.withHardState (some newTerm) votedFor) h).bind ?_ ?_
  · rintro fault t ⟨-, hjo⟩
    exact ⟨⟨fault, rfl⟩, hjo⟩
  · rintro done t ⟨⟨fault, herr⟩, -⟩
    cases herr

theorem commitHardState_keeps (outcome : Except Fault Unit) (term : Option Nat)
    (votedFor : Option VotedFor) :
    Ensures (commitHardState outcome term votedFor) s fun _ t =>
      t.journal = s.journal ∧ t.currentTerm = term.getD s.currentTerm := by
  refine (commitHardState_cases outcome term votedFor s).mono ?_
  rintro r t (⟨isNew, -, hcom⟩ | ⟨-, hun⟩)
  · cases hcom <;> exact ⟨rfl, Node.withHardState_currentTerm s term votedFor⟩
  · cases hun <;> exact ⟨rfl, Node.withHardState_currentTerm s term votedFor⟩

theorem followLeader_fails (h : s.WriteFails env.save) {newTerm : Nat}
    (hnew : newTerm ≠ s.currentTerm) (leaderId term : Nat) :
    Ensures (followLeader env (some newTerm) leaderId term) s fun r t =>
      (∃ fault, r = .error fault) ∧ t.journal = s.journal := by
  refine (commitHardState_fails h hnew _).bind ?_ ?_
  · rintro fault t ⟨-, hjo⟩
    exact ⟨⟨fault, rfl⟩, hjo⟩
  · rintro isNew t ⟨⟨fault, herr⟩, -⟩
    cases herr

theorem followLeader_keeps (env : Env) (termUpdate : Option Nat) (leaderId term : Nat) :
    Ensures (followLeader env termUpdate leaderId term) s fun _ t =>
      t.journal = s.journal ∧ t.currentTerm = termUpdate.getD s.currentTerm :=
  (commitHardState_keeps env.save termUpdate _).bind (fun _ _ h => h) fun _ _ h => h

/-! ## Vote requests -/

theorem receiveVoteRequest_replies (env : Env) (request : VoteRequest) (s : Node myId) :
    Ensures (Follower.receiveVoteRequest env request) s fun _ t =>
      (s.RepliesCurrent t ↔ request.term ≤ s.currentTerm ∨ s.WriteFails env.save) := by
  unfold Follower.receiveVoteRequest
  rw [ensures_get_bind]
  simp only [handleVoteRequest_termUpdate]
  by_cases hnw : s.currentTerm < request.term
  · rw [if_pos hnw]
    by_cases hfa : s.WriteFails env.save
    · refine (commitHardState_fails hfa (Nat.ne_of_gt hnw) _).bind ?_ ?_
      · rintro fault t ⟨-, hjo⟩
        exact iff_of_true (repliesCurrent_of_silent hjo) (.inr hfa)
      · rintro isNew t ⟨⟨fault, herr⟩, -⟩
        cases herr
    · obtain ⟨hso, hok⟩ := not_writeFails hfa
      refine (commitHardState_core fun _ => ⟨hok, hso⟩).bind ?_
      rintro isNew t ⟨hco, hjo⟩
      have hte : t.currentTerm = request.term := congrArg Core.currentTerm hco
      refine iff_of_false ?_ (not_or.mpr ⟨Nat.not_le.mpr hnw, hfa⟩)
      intro hrp
      have hre := (repliesCurrent_of_reply (congrArg _ hjo)).mp hrp s.currentTerm rfl
      exact Nat.ne_of_lt hnw (hre.trans hte)
  · rw [if_neg hnw]
    have hcu : request.term ≤ s.currentTerm ∨ s.WriteFails env.save :=
      Or.inl (Nat.le_of_not_lt hnw)
    refine (commitHardState_keeps env.save none _).bind ?_ ?_
    · rintro fault t ⟨hjo, -⟩
      exact iff_of_true (repliesCurrent_of_silent hjo) hcu
    · rintro isNew t ⟨hjo, hte⟩
      refine iff_of_true ((repliesCurrent_of_reply (congrArg _ hjo)).mpr ?_) hcu
      rintro term ⟨⟩
      exact hte.symm

/-! ## AppendEntries requests -/

section Append

variable {request : AppendEntriesRequest} {log : BufferedRaftLog} {io : Except Fault Unit}
  {snapshot : StateSnapshot}

/-- The request restarts the stored log or replaces a part of it. -/
def CutsLog (log : BufferedRaftLog) (request : AppendEntriesRequest) : Prop :=
  request.entries ≠ [] ∧
    (request.prevLogIndex = 0 ∧ request.prevLogTerm = 0 ∨
      log.entryTerm request.prevLogIndex = .ok (some request.prevLogTerm) ∧
        log.overlapSafe (log.overlap request.entries) = false ∧
        ∃ e rest, log.divergingTail request.entries = .ok (e :: rest) ∧ e.index ≤ log.lastEntryId)

/-- A term that the request asks the log for cannot be looked up. -/
def LookupFails (log : BufferedRaftLog) (request : AppendEntriesRequest) : Prop :=
  ¬ (request.prevLogIndex = 0 ∧ request.prevLogTerm = 0) ∧
    ((∃ fault, log.entryTerm request.prevLogIndex = .error fault) ∨
      request.entries ≠ [] ∧
        log.entryTerm request.prevLogIndex = .ok (some request.prevLogTerm) ∧
        log.overlapSafe (log.overlap request.entries) = false ∧
        ∃ fault, log.divergingTail request.entries = .error fault)

/-- The log fails to take the request: the store fails to cut the log, or a lookup fails. -/
def ReplicationFails (log : BufferedRaftLog) (io : Except Fault Unit)
    (request : AppendEntriesRequest) : Prop :=
  (CutsLog log request ∧ ∃ fault, io = .error fault) ∨ LookupFails log request

theorem ackLast_appendEntries (hso : log.poisoned = false) (entries tail : List Entry) :
    (ackLast (log.appendEntries entries) tail).1 = .ok (tail.getLast?.map Entry.logId) := by
  rw [BufferedRaftLog.appendEntries, if_neg (by simp [hso])]
  split_ifs <;> rfl

theorem appendAfterMatch_error_iff (hso : log.poisoned = false) (entries : List Entry) :
    (∃ fault, (log.appendAfterMatch io entries).1 = .error fault) ↔
      log.overlapSafe (log.overlap entries) = false ∧
        ((∃ fault, log.divergingTail entries = .error fault) ∨
          (∃ e rest, log.divergingTail entries = .ok (e :: rest) ∧ e.index ≤ log.lastEntryId) ∧
            ∃ fault, io = .error fault) := by
  unfold BufferedRaftLog.appendAfterMatch
  by_cases hsa : log.overlapSafe (log.overlap entries) = true
  · rw [if_pos hsa]
    refine iff_of_false ?_ (by simp [hsa])
    rintro ⟨fault, hfa⟩
    split_ifs at hfa
    · rw [ackLast_appendEntries hso] at hfa
      cases hfa
  · rw [if_neg hsa]
    have hsc : log.overlapSafe (log.overlap entries) = false := Bool.eq_false_iff.mpr hsa
    cases hta : log.divergingTail entries with
    | error => simp [hsc]
    | ok tail =>
      cases tail with
      | nil => simp
      | cons e =>
        by_cases hle : e.index ≤ log.lastEntryId
        · simp only [if_pos hle]
          cases io <;> simp [BufferedRaftLog.ackLast, hsc, hle]
        · simp only [if_neg hle, ackLast_appendEntries hso]
          simp [hle]

theorem filterOutConflictsAndAppend_error_iff (hso : log.poisoned = false)
    (hne : request.entries ≠ []) (hma : log.Matches request.prevLogIndex request.prevLogTerm) :
    (∃ fault, (log.filterOutConflictsAndAppend io request.prevLogIndex request.prevLogTerm
      request.entries).1 = .error fault) ↔ ReplicationFails log io request := by
  unfold BufferedRaftLog.filterOutConflictsAndAppend
  by_cases hze : request.prevLogIndex = 0 ∧ request.prevLogTerm = 0
  · rw [if_pos hze]
    cases io with
    | error fault =>
      exact iff_of_true ⟨fault, rfl⟩ (.inl ⟨⟨hne, Or.inl hze⟩, fault, rfl⟩)
    | ok done =>
      have hre : (log.reset (.ok done)).2.poisoned = false := hso
      refine iff_of_false ?_ ?_
      · rintro ⟨fault, hfa⟩
        have hok := ackLast_appendEntries hre request.entries request.entries
        exact absurd (hok.symm.trans hfa) (by simp)
      · rintro (⟨-, fault, hfa⟩ | ⟨hnot, -⟩)
        · cases hfa
        · exact hnot hze
  · have hte := hma.resolve_left hze
    rw [if_neg hze, hte]
    dsimp only
    rw [if_pos rfl, appendAfterMatch_error_iff hso]
    constructor
    · rintro ⟨hsc, ⟨fault, hlo⟩ | ⟨⟨e, rest, hta, hle⟩, hio⟩⟩
      · exact .inr ⟨hze, Or.inr ⟨hne, hte, hsc, fault, hlo⟩⟩
      · exact .inl ⟨⟨hne, Or.inr ⟨hte, hsc, e, rest, hta, hle⟩⟩, hio⟩
    · rintro (⟨⟨-, hrs | ⟨-, hsc, hta⟩⟩, hio⟩ |
        ⟨-, ⟨fault, hlo⟩ | ⟨-, -, hsc, hlo⟩⟩)
      · exact absurd hrs hze
      · exact ⟨hsc, Or.inr ⟨hta, hio⟩⟩
      · exact absurd (hte.symm.trans hlo) (by simp)
      · exact ⟨hsc, Or.inl hlo⟩

/-- A request whose predecessor is missing fails in the lookup of it or not at all. -/
theorem replicationFails_of_not_matches
    (hnot : ¬ log.Matches request.prevLogIndex request.prevLogTerm) :
    ReplicationFails log io request ↔
      ∃ fault, log.entryTerm request.prevLogIndex = .error fault := by
  obtain ⟨hze, hte⟩ := not_or.mp hnot
  constructor
  · rintro (⟨⟨-, hre | ⟨hma, -⟩⟩, -⟩ | ⟨-, hlo | ⟨-, hma, -⟩⟩)
    · exact absurd hre hze
    · exact absurd hma hte
    · exact hlo
    · exact absurd hma hte
  · intro hlo
    exact .inr ⟨hze, Or.inl hlo⟩

theorem not_replicationFails_of_heartbeat (hnil : request.entries = [])
    (hma : log.Matches request.prevLogIndex request.prevLogTerm) :
    ¬ ReplicationFails log io request := by
  rintro (⟨⟨hne, -⟩, -⟩ | ⟨hze, ⟨fault, hlo⟩ | ⟨hne, -⟩⟩)
  · exact hne hnil
  · exact absurd ((hma.resolve_left hze).symm.trans hlo) (by simp)
  · exact hne hnil

/-- A sound log takes every request of a term that is not stale, up to the failures above. -/
theorem handleAppendEntries_error_iff (myId : Nat) (io : Except Fault Unit)
    (hso : log.poisoned = false) (hte : snapshot.currentTerm ≤ request.term) :
    (∃ fault, (handleAppendEntries myId io request snapshot log).1 = .error fault) ↔
      ReplicationFails log io request := by
  have hout := handleAppendEntries_outcome myId io request snapshot log
  generalize handleAppendEntries myId io request snapshot log = result at hout ⊢
  cases hout with
  | stale hst => exact absurd hte (Nat.not_le.mpr hst)
  | unknown hnot hlo =>
    exact iff_of_true ⟨_, rfl⟩ ((replicationFails_of_not_matches hnot).mpr ⟨_, hlo⟩)
  | conflict _ hnot hlo =>
    rw [replicationFails_of_not_matches hnot, hlo]
    simp
  | heartbeat _ hma hnil =>
    exact iff_of_false (by simp) (not_replicationFails_of_heartbeat hnil hma)
  | failed hma hne hrun | appended _ hma hne hrun =>
    rw [← filterOutConflictsAndAppend_error_iff hso hne hma, hrun]
    simp

/-- The answer of the replication handler has the term of the snapshot. -/
theorem handleAppendEntries_replyTerm (hte : snapshot.currentTerm ≤ request.term)
    {updates : AppendResponseWithUpdates}
    (hok : (handleAppendEntries myId io request snapshot log).1 = .ok updates) :
    (Action.answeredAppend updates.response).replyTerm = some snapshot.currentTerm := by
  have hout := handleAppendEntries_outcome myId io request snapshot log
  generalize handleAppendEntries myId io request snapshot log = result at hok hout
  cases hout with
  | stale hst => exact absurd hte (Nat.not_le.mpr hst)
  | unknown | failed => cases hok
  | conflict | heartbeat | appended =>
    cases hok
    rfl

/-! ### The workflow -/

/-- What the handler of a request tells its sender: the answer of the replication handler, or a
conflict in the term in memory. -/
theorem replicate_replies (env : Env) (request : AppendEntriesRequest) (snapshot : StateSnapshot)
    (lastIndex : Nat) (s : Node myId) :
    Ensures (replicate env request snapshot lastIndex) s fun _ t =>
      t.currentTerm = s.currentTerm ∧
        (((∃ fault, (handleAppendEntries myId env.logIo request snapshot s.log).1 = .error fault) ∧
          s.RepliesCurrent t) ∨
        ∃ updates, (handleAppendEntries myId env.logIo request snapshot s.log).1 = .ok updates ∧
          t.journal = .answeredAppend updates.response :: s.journal) := by
  unfold replicate
  rw [ensures_get_bind]
  have hat : Ensures (attempt (onLog (handleAppendEntries myId env.logIo request snapshot))) s
      fun r t => r = .ok (handleAppendEntries myId env.logIo request snapshot s.log).1 ∧
        t.journal = s.journal ∧ t.currentTerm = s.currentTerm := ⟨rfl, rfl, rfl⟩
  refine hat.bind ?_ ?_
  · rintro fault t ⟨herr, -⟩
    cases herr
  rintro outcome t ⟨hout, hjo, hcu⟩
  rw [← Except.ok.inj hout]
  cases outcome with
  | ok updates =>
    dsimp only
    cases updates.commitIndexUpdate with
    | none => exact ⟨hcu, Or.inr ⟨updates, rfl, congrArg _ hjo⟩⟩
    | some commit =>
      refine (updateCommitIndexWithSignal_core _ commit).bind ?_
      rintro _ u ⟨hco, hsa⟩
      have hke : u.currentTerm = t.currentTerm := congrArg Core.currentTerm hco
      exact ⟨hke.trans hcu,
        Or.inr ⟨updates, rfl, congrArg _ (hsa.trans hjo)⟩⟩
  | error fault =>
    cases fault with
    | panic =>
      exact ⟨hcu, Or.inl ⟨⟨_, rfl⟩, repliesCurrent_of_silent hjo⟩⟩
    | _ =>
      refine ⟨hcu, Or.inl ⟨⟨_, rfl⟩, ?_⟩⟩
      refine (repliesCurrent_of_reply (congrArg _ hjo)).mpr fun term hre => ?_
      cases hre
      exact hcu.symm

/-- A request that is not stale is replicated once its leader is followed. -/
theorem ensures_accepted {termUpdate : Option Nat} {R : Except Fault Bool → Node myId → Prop}
    {Q : Node myId → Prop}
    (hfo : Ensures (followLeader env termUpdate request.leaderId request.term) s R)
    (herr : ∀ fault t, R (.error fault) t → Q t)
    (hok : ∀ isNew t, R (.ok isNew) t → ∀ v : Node myId, v.log = t.log →
      v.currentTerm = t.currentTerm → v.journal = t.journal →
      Ensures (replicate env request s.stateSnapshot s.log.lastEntryId) v fun _ u => Q u) :
    Ensures (do
      let isNewLeader ← followLeader env termUpdate request.leaderId request.term
      if isNewLeader then send (.leaderDiscovered request.leaderId request.term)
      replicate env request s.stateSnapshot s.log.lastEntryId) s fun _ u => Q u := by
  refine hfo.bind herr fun isNew t ht => ?_
  cases isNew with
  | false => exact hok false t ht t rfl rfl rfl
  | true => exact hok true t ht _ rfl rfl rfl

theorem handleAppendEntriesRequestWorkflow_replies (env : Env) (request : AppendEntriesRequest)
    (s : Node myId) :
    Ensures (handleAppendEntriesRequestWorkflow env request) s fun _ t =>
      (s.RepliesCurrent t ↔ request.term ≤ s.currentTerm ∨ s.WriteFails env.save ∨
        ReplicationFails s.log env.logIo request) := by
  unfold handleAppendEntriesRequestWorkflow
  rw [ensures_get_bind]
  dsimp only
  unfold checkIncomingTerm
  split_ifs with hst hsa
  · refine iff_of_true ?_ (.inl hst.le)
    refine (repliesCurrent_of_reply rfl).mpr fun term hre => ?_
    cases hre
  · -- The term stays, so that every answer has it.
    refine ensures_accepted (followLeader_keeps env none _ _) ?_ ?_
    · rintro fault t ⟨hjo, -⟩
      exact iff_of_true (repliesCurrent_of_silent hjo) (.inl hsa.le)
    · rintro isNew t ⟨hjo, hte⟩ v - hvt hvj
      refine (replicate_replies env request s.stateSnapshot s.log.lastEntryId v).mono ?_
      rintro r u ⟨hcu, ⟨-, hrp⟩ | ⟨updates, hrun, hans⟩⟩
      · exact iff_of_true ((repliesCurrent_congr (hvj.trans hjo)).mp hrp)
          (.inl hsa.le)
      · have hre := handleAppendEntries_replyTerm (Nat.le_of_not_lt hst) hrun
        refine iff_of_true ?_ (.inl hsa.le)
        refine (repliesCurrent_of_reply (hans.trans
          (congrArg _ (hvj.trans hjo)))).mpr fun term hte' => ?_
        cases hre.symm.trans hte'
        exact ((hcu.trans hvt).trans hte).symm
  · have hnw : s.currentTerm < request.term :=
      lt_of_le_of_ne (Nat.le_of_not_lt hst) (Ne.symm hsa)
    by_cases hfa : s.WriteFails env.save
    · refine ensures_accepted (followLeader_fails hfa hsa _ _) ?_ ?_
      · rintro fault t ⟨-, hjo⟩
        exact iff_of_true (repliesCurrent_of_silent hjo) (.inr (.inl hfa))
      · rintro isNew t ⟨⟨fault, herr⟩, -⟩
        cases herr
    · obtain ⟨hso, hsv⟩ := not_writeFails hfa
      refine ensures_accepted (followLeader_core fun _ => ⟨hsv, hso⟩) ?_ ?_
      · rintro fault t ⟨isNew, herr, -⟩
        cases herr
      · rintro isNew t ⟨_, -, hco, hjo⟩ v hvl hvt hvj
        have hlog : v.log = s.log := hvl.trans (congrArg Core.log hco)
        have hte : v.currentTerm = request.term :=
          hvt.trans (congrArg Core.currentTerm hco)
        have hca := handleAppendEntries_error_iff myId env.logIo hso
          (show s.stateSnapshot.currentTerm ≤ request.term from hnw.le)
        refine (replicate_replies env request s.stateSnapshot s.log.lastEntryId v).mono ?_
        rw [hlog]
        rintro r u ⟨hcu, ⟨herr, hrp⟩ | ⟨updates, hrun, hans⟩⟩
        · exact iff_of_true ((repliesCurrent_congr (hvj.trans hjo)).mp hrp)
            (.inr (.inr (hca.mp herr)))
        · have hre := handleAppendEntries_replyTerm hnw.le hrun
          refine iff_of_false (fun hrp => ?_) ?_
          · have hall := (repliesCurrent_of_reply (hans.trans
              (congrArg _ (hvj.trans hjo)))).mp hrp _ hre
            exact Nat.ne_of_lt hnw (hall.trans (hcu.trans hte))
          · rintro (hle | hwr | hrl)
            · exact Nat.not_lt.mpr hle hnw
            · exact hfa hwr
            · obtain ⟨fault, herr⟩ := hca.mpr hrl
              cases hrun.symm.trans herr

end Append

/-- The replies to a vote request, and the success or conflict that answers an AppendEntries
request, carry the term of the node exactly if the request brings no newer term, or nothing is
answered from the snapshot: the new term cannot be written, or the log fails to take the
request. -/
theorem repliesCurrent_iff (env : Env) (s : Node myId) :
    (∀ request, s.RepliesCurrent
        (Follower.handleInboundEvent env (.receiveVoteRequest request) s).2 ↔
      request.term ≤ s.currentTerm ∨ s.WriteFails env.save) ∧
    ∀ request, s.RepliesCurrent (Follower.handleInboundEvent env (.appendEntries request) s).2 ↔
      request.term ≤ s.currentTerm ∨ s.WriteFails env.save ∨
        ReplicationFails s.log env.logIo request :=
  ⟨fun request => receiveVoteRequest_replies env request s,
    fun request => handleAppendEntriesRequestWorkflow_replies env request s⟩

/-- A follower in term one is asked for its vote in term two, or gets a heartbeat of term two. It
is in term two afterwards, and its answer carries term one. -/
theorem newer_term_answered_with_older :
    threeEntriesFollower.role = .follower ∧
      (∃ t, (Follower.handleInboundEvent {} (.receiveVoteRequest ⟨2, 2, 3, 1⟩)
          threeEntriesFollower).2 = t ∧
        t.currentTerm = 2 ∧ threeEntriesFollower.repliesSince t = [1] ∧
        ¬ threeEntriesFollower.RepliesCurrent t) ∧
      ∃ t, (Follower.handleInboundEvent {} (.appendEntries ⟨2, 2, 3, 1, [], 0⟩)
          threeEntriesFollower).2 = t ∧
        t.currentTerm = 2 ∧ threeEntriesFollower.repliesSince t = [1] ∧
        ¬ threeEntriesFollower.RepliesCurrent t := by
  refine ⟨rfl, ⟨_, rfl, ?_⟩, _, rfl, ?_⟩
  · decide +kernel
  · decide +kernel

end DEngine.Raft

import DEngine.Raft.Effects

/-!
# Every handler keeps to its permit

For each handler of the four roles, what its permit has to allow: the term of the
message it handles, votes for a follower, production for a leader. Each proof
follows the steps of the handler.

The handlers that change the role and the vote round of a candidate are left to
the effects of whole steps.
-/

namespace DEngine.Raft

open Library Library.Handler Storage Replication

variable {myId : Nat} {p : Permit} {allowed : LedgerEvent myId → Prop} {s : Node myId}

/-! ## Followers and learners -/

/-- The request is stale or does not fit to the log, or it announces no larger commit index, or
behind it the log still reaches the commit index. -/
@[mk_iff]
structure KeepsCommit (s : Node myId) (request : AppendEntriesRequest) : Prop where
  batch : Batch request.entries
  covered : request.term < s.currentTerm ∨
    ¬ s.log.Matches request.prevLogIndex request.prevLogTerm ∨
    request.leaderCommitIndex ≤ s.commitIndex ∨ s.commitIndex ≤ lastAfter s.log request

instance (s : Node myId) (request : AppendEntriesRequest) : Decidable (KeepsCommit s request) :=
  decidable_of_iff' _ (keepsCommit_iff s request)

/-- A log that holds the committed entries is rewritten behind them. -/
theorem keepsCommit_of_le_last {request : AppendEntriesRequest} (hba : Batch request.entries)
    (hle : s.commitIndex ≤ s.log.lastEntryId)
    (hcut : ∀ i ∈ rewriteCut s.log request, s.commitIndex < i) : KeepsCommit s request := by
  refine ⟨hba, .inr (.inr (.inr ?_))⟩
  unfold lastAfter
  cases hre : rewriteCut s.log request with
  | none => exact hle
  | some i =>
    have hlt := hcut i hre
    unfold rewriteCut BufferedRaftLog.rewriteFrom at hre
    split_ifs at hre
    · cases hre
      exact absurd hlt (Nat.not_lt_zero _)
    · obtain ⟨e, hfi, rfl⟩ := Option.map_eq_some_iff.mp hre
      have he := List.mem_of_find?_eq_some hfi
      obtain ⟨last, hla⟩ : ∃ last, request.entries.getLast? = some last :=
        ⟨_, List.getLast?_eq_some_getLast (List.ne_nil_of_mem he)⟩
      rw [hla]
      exact hlt.le.trans (hba.index_le_getLast hla he)

theorem KeepsCommit.le_of_commit {request : AppendEntriesRequest} (h : KeepsCommit s request)
    {io : Except Fault Unit} (hwf : s.log.WellFormed) {updates : AppendResponseWithUpdates}
    {commit : Nat}
    (hok : (handleAppendEntries myId io request s.stateSnapshot s.log).1 = .ok updates)
    (hcom : updates.commitIndexUpdate = some commit) : s.commitIndex ≤ commit := by
  obtain ⟨hte, hma, hlt, rfl⟩ := handleAppendEntries_commit hwf h.batch hok hcom
  have hlt' : s.commitIndex < request.leaderCommitIndex := hlt
  rcases h.covered with hst | hun | hle | hcov
  · exact absurd hte (Nat.not_le.mpr hst)
  · exact absurd hma hun
  · exact absurd hlt' (Nat.not_lt.mpr hle)
  · exact le_min hlt'.le hcov

variable {request : VoteRequest}

theorem does_refuseVote {term : Nat} :
    Ensures (refuseVote request term) s fun _ t => Does p allowed s t := by
  unfold refuseVote
  rw [ensures_get_bind]
  apply does_record
  simp [Permit.Allows]

variable {env : Env}

/-- A leader that is followed leaves the log and the commit index alone. -/
theorem does_followLeader {termUpdate : Option Nat} {leaderId term : Nat}
    (hte : ∀ T ∈ termUpdate, s.currentTerm ≤ T ∧ T ≤ max s.currentTerm p.incoming) :
    Ensures (followLeader env termUpdate leaderId term) s fun r t =>
      Does p allowed s t ∧ ((∃ isNew, r = .ok isNew) → t.log = s.log ∧ t.commitIndex = s.commitIndex) := by
  refine Ensures.bind (commitHardState_cases env.save termUpdate _ s) ?_ ?_
  · rintro fault t (⟨isNew, herr, -⟩ | ⟨-, h⟩)
    · cases herr
    · exact ⟨h.does hte, by simp⟩
  · rintro isNew t (⟨_, -, h⟩ | ⟨⟨fault, herr⟩, -⟩)
    · refine ⟨(h.does hte).trans' does_setCurrentLeader, fun _ => ?_⟩
      cases h <;> exact ⟨rfl, rfl⟩
    · cases herr

/-- The request is judged by the state `before` the leader was followed. -/
theorem does_replicate {request : AppendEntriesRequest} {before : Node myId}
    {lastIndex : Nat} (hlog : s.log = before.log) (hcom : s.commitIndex = before.commitIndex)
    (hsa : p.safe → before.log.WellFormed ∧ KeepsCommit before request) :
    Ensures (replicate env request before.stateSnapshot lastIndex) s fun _ t => Does p allowed s t := by
  unfold replicate
  rw [ensures_get_bind]
  refine Ensures.bind (R := fun r t => Does p allowed s t ∧ t.commitIndex = s.commitIndex ∧
    r = .ok (handleAppendEntries myId env.logIo request before.stateSnapshot s.log).1) ?_ ?_ ?_
  · refine ⟨does_onLog ?_ ?_, rfl, rfl⟩
    · exact marks_handleAppendEntries myId env.logIo request before.stateSnapshot s.log
    · intro hp _ hwf
      exact wellFormed_handleAppendEntries myId env.logIo before.stateSnapshot hwf
        (hsa hp).2.batch
  · rintro fault t ⟨-, -, herr⟩
    cases herr
  · rintro outcome t ⟨hds, hsm, hout⟩
    have hfr : ∀ {x : NodeM myId Unit}, Ensures x t (fun _ u => Does p allowed t u) →
        Ensures x t fun _ u => Does p allowed s u := fun h => h.mono fun _ _ htu => hds.trans' htu
    cases outcome with
    | ok updates =>
      have hok := (Except.ok.inj hout).symm
      apply hfr
      dsimp only
      cases hupd : updates.commitIndexUpdate with
      | none => exact does_record trivial
      | some =>
        refine Ensures.chain (does_updateCommitIndexWithSignal fun hp => ?_) fun _ u _ => ?_
        · rw [hlog] at hok
          rw [hsm, hcom]
          exact .inr ((hsa hp).2.le_of_commit (hsa hp).1 hok hupd)
        · exact does_record trivial
    | error fault =>
      apply hfr
      cases fault <;>
        first
          | exact does_fail
          | exact Ensures.chain (does_record trivial) fun _ _ _ => does_fail

/-- The term of a message that is not stale may be adopted. -/
theorem adoptable_of_checkIncomingTerm {incomingTerm newTerm : Nat}
    (hch : checkIncomingTerm s.currentTerm incomingTerm = .acceptAndUpdateTerm newTerm)
    (hinc : incomingTerm ≤ p.incoming) :
    ∀ T ∈ some newTerm, s.currentTerm ≤ T ∧ T ≤ max s.currentTerm p.incoming := by
  rintro T ⟨⟩
  unfold checkIncomingTerm at hch
  split_ifs at hch
  cases hch
  omega

theorem does_handleAppendEntriesRequestWorkflow {request : AppendEntriesRequest}
    (hinc : request.term ≤ p.incoming) (hsa : p.safe → s.log.WellFormed ∧ KeepsCommit s request) :
    Ensures (handleAppendEntriesRequestWorkflow env request) s fun _ t => Does p allowed s t := by
  unfold handleAppendEntriesRequestWorkflow
  rw [ensures_get_bind]
  have hacc : ∀ termUpdate : Option Nat,
      (∀ T ∈ termUpdate, s.currentTerm ≤ T ∧ T ≤ max s.currentTerm p.incoming) →
      Ensures (do
        let isNewLeader ← followLeader env termUpdate request.leaderId request.term
        if isNewLeader then send (.leaderDiscovered request.leaderId request.term)
        replicate env request s.stateSnapshot s.log.lastEntryId) s fun _ t => Does p allowed s t := by
    intro termUpdate hte
    refine (does_followLeader hte).bind (fun _ _ h => h.1) fun isNew t h => ?_
    obtain ⟨hds, hsm⟩ := h
    obtain ⟨hlog, hcom⟩ := hsm ⟨isNew, rfl⟩
    refine Ensures.mono ?_ fun _ _ htu => hds.trans' htu
    dsimp only
    cases isNew with
    | false => exact does_replicate hlog hcom hsa
    | true =>
      have hse : Does p allowed t (t.sent (.leaderDiscovered request.leaderId request.term)) :=
        (Change.sent _ (by simp)).does
      rw [if_pos rfl, ensures_send_bind]
      refine Ensures.mono ?_ fun _ _ htu => hse.trans' htu
      exact does_replicate hlog hcom hsa
  cases hch : checkIncomingTerm s.currentTerm request.term with
  | rejectStale => exact does_record trivial
  | accept => exact hacc none (by simp)
  | acceptAndUpdateTerm =>
    exact hacc _ (adoptable_of_checkIncomingTerm hch hinc)

/-! ### Snapshots -/

theorem does_snapshotBoundary {term : Nat} {result : SnapshotApplyResult} :
    Ensures (snapshotBoundary term result) s fun r t =>
      Does p allowed s t ∧ ∀ boundary, r = .ok boundary → boundary = result.boundary := by
  have hpu : ∀ (id : LogId) (t : Node myId), Does p allowed s t → id = result.boundary →
      Ensures (pure id : NodeM myId LogId) t fun r u =>
        Does p allowed s u ∧ ∀ boundary, r = .ok boundary → boundary = result.boundary := by
    intro id t hds hid
    exact ⟨hds, fun boundary hr => (Except.ok.inj hr).symm.trans hid⟩
  cases result with
  | applied lastIncluded =>
    unfold snapshotBoundary
    rw [ensures_get_bind]
    dsimp only
    split_ifs with hlt
    · have hmo : Ensures (updateCommitIndexWithSignal term lastIncluded.index) s fun _ t =>
          Does p allowed s t := does_updateCommitIndexWithSignal fun _ => Or.inr hlt.le
      refine hmo.bind ?_ ?_
      · exact fun fault t hds => ⟨hds, fun boundary hr => by cases hr⟩
      · exact fun _ t hds => hpu lastIncluded t hds rfl
    · exact hpu lastIncluded s Relation.ReflTransGen.refl rfl
  | ignoredStale current | ignoredDuplicate current =>
    exact hpu current s Relation.ReflTransGen.refl rfl

theorem does_installSnapshot {term : Nat} (hin : env.installed ≤ p.purgesTo) :
    Ensures (installSnapshot env term) s fun _ t => Does p allowed s t := by
  unfold installSnapshot
  unfold Env.installed at hin
  cases hst : env.snapshotStream with
  | error => exact does_record trivial
  | ok installed =>
    cases installed with
    | error =>
      refine Ensures.chain (does_record trivial) fun _ t _ => ?_
      exact does_when fun _ => does_fail
    | ok =>
      rw [hst] at hin
      refine Ensures.chain (does_record trivial) fun _ t _ => ?_
      refine does_snapshotBoundary.bind (fun _ _ h => h.1) ?_
      rintro boundary u ⟨hds, hbo⟩
      refine Ensures.mono ?_ fun _ _ huv => hds.trans' huv
      apply does_scheduleInstalledSnapshotPurge
      rw [hbo boundary rfl]
      exact hin

theorem does_handleInstallSnapshotChunkWorkflow {firstChunk : Option SnapshotChunk}
    (hinc : ∀ chunk ∈ firstChunk, chunk.leaderTerm ≤ p.incoming)
    (hin : env.installed ≤ p.purgesTo) :
    Ensures (handleInstallSnapshotChunkWorkflow env firstChunk) s fun _ t => Does p allowed s t := by
  unfold handleInstallSnapshotChunkWorkflow
  rw [ensures_get_bind]
  cases firstChunk with
  | none => exact does_record trivial
  | some chunk =>
    have hacc : ∀ termUpdate : Option Nat,
        (∀ T ∈ termUpdate, s.currentTerm ≤ T ∧ T ≤ max s.currentTerm p.incoming) →
        Ensures (do
          let _ ← followLeader env termUpdate chunk.leaderId chunk.leaderTerm
          installSnapshot env (max chunk.leaderTerm s.currentTerm)) s fun _ t => Does p allowed s t := by
      intro termUpdate hte
      refine Ensures.chain ((does_followLeader hte).mono fun _ _ h => h.1) ?_
      exact fun _ _ _ => does_installSnapshot hin
    dsimp only
    cases hch : checkIncomingTerm s.currentTerm chunk.leaderTerm with
    | rejectStale => exact does_record trivial
    | accept => exact hacc none (by simp)
    | acceptAndUpdateTerm =>
      exact hacc _ (adoptable_of_checkIncomingTerm hch (hinc chunk rfl))

/-! ### Votes -/

theorem does_learner_receiveVoteRequest (hinc : request.term ≤ p.incoming) :
    Ensures (Learner.receiveVoteRequest env request) s fun _ t => Does p allowed s t := by
  unfold Learner.receiveVoteRequest
  rw [ensures_get_bind]
  dsimp only
  split_ifs with hlt
  · refine Ensures.chain (does_commitHardState ?_) fun _ _ _ => does_refuseVote
    rintro T ⟨⟩
    omega
  · exact does_refuseVote

/-- The vote that a follower with state `s` gives to the request is granted. -/
def GrantsVote (s : Node myId) (request : VoteRequest) : Prop :=
  (handleVoteRequest request s.currentTerm s.shared.hardState.votedFor s.log).newVotedFor.isSome =
    true

theorem does_follower_receiveVoteRequest
    (hinc : request.term ≤ p.incoming) (hgr : GrantsVote s request → p.grants request) :
    Ensures (Follower.receiveVoteRequest env request) s fun _ t => Does p allowed s t := by
  unfold Follower.receiveVoteRequest
  rw [ensures_get_bind]
  refine Ensures.chain (does_commitHardState ?_) fun _ t _ => does_record hgr
  rintro T hT
  rw [handleVoteRequest_termUpdate] at hT
  split_ifs at hT <;> cases hT
  omega

/-- The largest term of an inbound event, as far as a role may adopt it. -/
def InboundEvent.term : InboundEvent → Nat
  | .receiveVoteRequest request => request.term
  | .appendEntries request => request.term
  | .installSnapshotChunk (some chunk) => chunk.leaderTerm
  | _ => 0

variable {event : InboundEvent}

theorem does_handleReplicaEvent {vote : VoteRequest → NodeM myId Unit}
    (hinc : event.term ≤ p.incoming) (hin : env.installed ≤ p.purgesTo)
    (hvo : ∀ request, event = .receiveVoteRequest request →
      Ensures (vote request) s fun _ t => Does p allowed s t)
    (hsa : ∀ request, event = .appendEntries request →
      p.safe → s.log.WellFormed ∧ KeepsCommit s request) :
    Ensures (handleReplicaEvent env vote event) s fun _ t => Does p allowed s t := by
  cases event with
  | receiveVoteRequest request => exact hvo request rfl
  | clusterConf | clusterConfUpdate id term => exact does_pure
  | appendEntries request =>
    exact does_handleAppendEntriesRequestWorkflow hinc (hsa request rfl)
  | installSnapshotChunk =>
    refine does_handleInstallSnapshotChunkWorkflow ?_ hin
    rintro chunk ⟨⟩
    exact hinc
  | joinCluster => exact does_fail
  | discoverLeader => exact does_pure
  | fatalError => exact does_fail

theorem does_follower_handleInboundEvent
    (hinc : event.term ≤ p.incoming) (hin : env.installed ≤ p.purgesTo)
    (hgr : ∀ request, event = .receiveVoteRequest request → GrantsVote s request →
      p.grants request)
    (hsa : ∀ request, event = .appendEntries request →
      p.safe → s.log.WellFormed ∧ KeepsCommit s request) :
    Ensures (Follower.handleInboundEvent env event) s fun _ t => Does p allowed s t := by
  refine does_handleReplicaEvent hinc hin (fun request hev => ?_) hsa
  subst hev
  exact does_follower_receiveVoteRequest hinc (hgr request rfl)

theorem does_learner_handleInboundEvent
    (hinc : event.term ≤ p.incoming) (hin : env.installed ≤ p.purgesTo)
    (hsa : ∀ request, event = .appendEntries request →
      p.safe → s.log.WellFormed ∧ KeepsCommit s request) :
    Ensures (Learner.handleInboundEvent env event) s fun _ t => Does p allowed s t := by
  refine does_handleReplicaEvent hinc hin (fun request hev => ?_) hsa
  subst hev
  exact does_learner_receiveVoteRequest hinc

/-! ## Candidates -/

theorem does_candidate_receiveVoteRequest (hinc : request.term ≤ p.incoming) :
    Ensures (Candidate.receiveVoteRequest env request) s fun _ t => Does p allowed s t := by
  unfold Candidate.receiveVoteRequest
  rw [ensures_get_bind]
  dsimp only
  split_ifs with hlg
  · have hle : s.currentTerm ≤ request.term := by
      simp only [checkVoteRequestIsLegal, Bool.and_eq_true, decide_eq_true_eq] at hlg
      exact hlg.1.1
    refine Ensures.chain (does_commitHardState ?_) fun _ t _ => ?_
    · rintro T ⟨⟩
      omega
    · refine Ensures.chain (does_send (by simp)) fun _ u _ => ?_
      exact does_send (by simp)
  · exact does_refuseVote

theorem does_candidate_appendEntries {request : AppendEntriesRequest}
    (hinc : request.term ≤ p.incoming) :
    Ensures (Candidate.appendEntries env request) s fun _ t => Does p allowed s t := by
  have hre : ∀ t : Node myId, Ensures (do
      send (.becomeFollower none)
      send (.reprocessEvent (.appendEntries request))) t fun _ u => Does p allowed t u := by
    intro t
    refine Ensures.chain (does_send (by simp)) fun _ u _ => ?_
    exact does_send (by simp)
  unfold Candidate.appendEntries
  rw [ensures_get_bind]
  split_ifs with hle hlt
  · refine Ensures.bind (R := fun _ t => Does p allowed s t ∧ t.currentTerm = s.currentTerm)
      ⟨does_setCurrentLeader, rfl⟩ (fun _ _ h => h.1) ?_
    rintro _ t ⟨hds, hte⟩
    refine Ensures.mono ?_ fun _ _ htu => hds.trans' htu
    refine Ensures.chain (does_commitHardState ?_) fun _ u _ => hre u
    rintro T ⟨⟩
    omega
  · exact Ensures.chain does_setCurrentLeader fun _ t _ => hre t
  · cases checkAppendEntriesRequestIsLegal myId s.currentTerm request s.log with
    | ok => exact does_record trivial
    | error => exact does_fail

theorem does_candidate_handleInboundEvent (hinc : event.term ≤ p.incoming) :
    Ensures (Candidate.handleInboundEvent env event) s fun _ t => Does p allowed s t := by
  cases event with
  | receiveVoteRequest => exact does_candidate_receiveVoteRequest hinc
  | clusterConf | clusterConfUpdate id term => exact does_pure
  | appendEntries => exact does_candidate_appendEntries hinc
  | installSnapshotChunk firstChunk | joinCluster request => exact does_fail
  | discoverLeader => exact does_pure
  | fatalError => exact does_fail

/-! ## Leaders -/

/-! ### Production -/

/-- The permit lets a leader produce in the term it has, and no term to adopt comes in. -/
structure Permit.Produces (p : Permit) (s : Node myId) : Prop where
  produces : p.produces
  term_eq : s.currentTerm = p.term
  incoming_le : p.incoming ≤ s.currentTerm

theorem Permit.Produces.of_does {t : Node myId} (h : p.Produces s) (hds : Does p allowed s t) :
    p.Produces t where
  produces := h.produces
  term_eq := (hds.calm.term_eq h.incoming_le).trans h.term_eq
  incoming_le := h.incoming_le.trans hds.calm.term_le

theorem term_generatedEntries {payloads : List EntryPayload} :
    ∀ e ∈ generatedEntries s payloads, e.term = s.currentTerm := by
  unfold generatedEntries
  cases hgen : (generateNewEntries payloads s.currentTerm s.log).1 with
  | ok =>
    intro e he
    rw [generateNewEntries_eq hgen] at he
    obtain ⟨p, -, rfl⟩ := List.mem_map.mp he
    rfl
  | error => simp

/-- A send works through its peers one by one. -/
theorem does_dispatch {β : Type} (event : β → LedgerEvent myId) {items : List β}
    (hev : ∀ b {l : LeaderState myId}, p.Books allowed l (event b)) :
    Ensures (modifyLeader fun l => items.foldl (fun l b => l.handle (event b)) l) s fun _ t =>
      Does p allowed s t := by
  induction items generalizing s with
  | nil => exact Relation.ReflTransGen.refl
  | cons b rest ih =>
    exact Relation.ReflTransGen.head (Change.ledger (event b) (hev b))
      (ih (s := { s with leader := s.leader.handle (event b) }))

theorem does_executeAndProcessRaftRpc {payloads : List EntryPayload} (h : p.Produces s) :
    Ensures (executeAndProcessRaftRpc env payloads) s fun _ t => Does p allowed s t := by
  unfold executeAndProcessRaftRpc
  rw [ensures_get_bind]
  refine Ensures.chain (does_record ⟨h.produces, ?_⟩) fun _ t ht => ?_
  · exact fun e he => (term_generatedEntries e he).trans h.term_eq
  refine Ensures.bind (R := fun r u => Does p allowed t u ∧
    r = (prepareBatchRequests myId s.config.maxEntriesPerReplication payloads s.stateSnapshot
      s.leader.nextIndex s.leader.clusterMetadata.targets t.log).1) ?_ (fun _ _ hu => hu.1) ?_
  · refine ⟨does_onLog ?_ fun _ hte hwf => ?_, rfl⟩
    · rw [log_prepareBatchRequests]
      exact marks_generateNewEntries payloads _ t.log
    · rw [log_prepareBatchRequests]
      refine wellFormed_generateNewEntries hwf ?_
      calc
        1 ≤ t.currentTerm := hte
        _ = s.currentTerm := ht.calm.term_eq h.incoming_le
  · rintro requests u ⟨hds, hpr⟩
    refine Ensures.mono ?_ fun _ _ huv => hds.trans' huv
    refine Ensures.chain (Ensures.each fun request hmem v _ => ?_) fun _ v _ => ?_
    · apply does_record
      exact ⟨h.produces, (term_prepareBatchRequests hpr.symm request hmem).trans h.term_eq⟩
    · refine Ensures.chain ?_ fun _ w _ => ?_
      · exact does_dispatch (fun p : Nat × AppendEntriesRequest × Nat => .append p.1 p.2.1 p.2.2)
          fun _ => h.produces
      · exact does_when fun _ =>
          does_dispatch (LedgerEvent.snapshot env.snapshotBackoff) fun _ => h.produces

theorem does_initiateNoopCommit (h : p.Produces s) :
    Ensures (initiateNoopCommit env) s fun _ t => Does p allowed s t := by
  unfold initiateNoopCommit
  rw [ensures_get_bind]
  refine Ensures.chain (does_bookkeeping fun _ => ⟨rfl, rfl⟩) fun _ t ht => ?_
  refine Ensures.chain (ensures_attempt.mpr (does_executeAndProcessRaftRpc (h.of_does ht))) ?_
  intro outcome u _
  cases outcome with
  | ok => exact does_pure
  | error => exact Ensures.chain (does_bookkeeping fun _ => ⟨rfl, rfl⟩) fun _ _ _ => does_fail

theorem does_handlePromoteReadyLearners (h : p.Produces s) :
    Ensures (handlePromoteReadyLearners env) s fun _ t => Does p allowed s t := by
  unfold handlePromoteReadyLearners
  refine Ensures.chain (does_bookkeeping fun _ => ⟨rfl, rfl⟩) fun _ t ht => ?_
  rw [ensures_get_bind]
  dsimp only
  split
  · refine Ensures.chain (does_bookkeeping fun _ => ⟨rfl, rfl⟩) fun _ u hu => ?_
    refine Ensures.chain (ensures_attempt.mpr
      (does_executeAndProcessRaftRpc ((h.of_does ht).of_does hu))) fun outcome v _ => ?_
    cases outcome with
    | ok =>
      dsimp only
      exact does_when fun _ => does_send (by simp)
    | error => exact Ensures.chain (does_bookkeeping fun _ => ⟨rfl, rfl⟩) fun _ _ _ => does_fail
  · exact does_pure

theorem does_handleJoinCluster {request : JoinRequest} (h : p.Produces s) :
    Ensures (handleJoinCluster env request) s fun _ t => Does p allowed s t := by
  unfold handleJoinCluster
  rw [ensures_get_bind]
  split_ifs
  · exact does_fail
  · exact does_fail
  · refine Ensures.chain (does_executeAndProcessRaftRpc h) fun _ t _ => ?_
    rw [ensures_get_bind]
    exact does_bookkeeping fun _ => ⟨rfl, rfl⟩

/-- A leader that proposes the removal of stale learners produces. -/
theorem does_checkAndPurgeStaleFront
    (h : s.leader.pendingPromotions.take env.staleLearners ≠ [] → p.Produces s) :
    Ensures (checkAndPurgeStaleFront env) s fun _ t => Does p allowed s t := by
  unfold checkAndPurgeStaleFront
  rw [ensures_get_bind]
  refine Ensures.chain (does_bookkeeping fun _ => ⟨rfl, rfl⟩) fun _ t ht => ?_
  refine Ensures.each fun id hid u hu => ?_
  have hpr := ((h (List.ne_nil_of_mem hid)).of_does ht).of_does hu
  exact Ensures.chain (ensures_attempt.mpr (does_executeAndProcessRaftRpc hpr))
    fun _ _ _ => does_pure

/-! ### Ticks and client commands -/

theorem does_expireActions :
    Ensures (Leader.expireActions env) s fun _ t => Does p allowed s t := by
  unfold Leader.expireActions
  rw [ensures_get_bind]
  refine Ensures.chain (does_bookkeeping fun _ => ⟨rfl, rfl⟩) fun _ t _ => ?_
  exact does_when fun _ => does_send (by simp)

theorem does_leader_tick
    (h : env.heartbeatDue = true ∨ s.leader.pendingPromotions.take env.staleLearners ≠ [] →
      p.Produces s) : Ensures (Leader.tick env) s fun _ t => Does p allowed s t := by
  unfold Leader.tick
  refine Ensures.bind (R := fun _ t => Does p allowed s t ∧ t.leader = s.leader)
    ⟨does_setCurrentLeader, rfl⟩ (fun _ _ h => h.1) ?_
  rintro _ t ⟨ht, hld⟩
  refine Ensures.mono ?_ fun _ _ htu => ht.trans' htu
  refine Ensures.chain (does_checkAndPurgeStaleFront fun hst => ?_) fun _ u hu => ?_
  · exact (h (.inr (hld ▸ hst))).of_does ht
  · dsimp only
    split_ifs with hdue
    · rw [ensures_get_bind]
      refine Ensures.chain (does_bookkeeping fun _ => ⟨rfl, rfl⟩) fun _ v hv => ?_
      have hpr := (((h (.inl hdue)).of_does ht).of_does hu).of_does hv
      exact Ensures.chain (does_executeAndProcessRaftRpc hpr) fun _ _ _ =>
        does_expireActions
    · exact does_expireActions

/-- Some queued lease read finds the lease expired and sends a heartbeat. -/
def RenewsLease (s : Node myId) (env : Env) : Prop :=
  s.leader.clusterMetadata.singleVoter = false ∧
    0 < min env.expiredLeaseReads s.leader.leaseReadQueue
deriving Decidable

theorem does_processLeaseReads (h : RenewsLease s env → p.Produces s) :
    Ensures (Leader.processLeaseReads env) s fun _ t => Does p allowed s t := by
  unfold Leader.processLeaseReads
  rw [ensures_get_bind]
  refine Ensures.chain (does_bookkeeping fun _ => ⟨rfl, rfl⟩) fun _ t ht => ?_
  split_ifs with hmu
  · refine Ensures.each fun _ hmem u hu => ?_
    have hpos : 0 < min env.expiredLeaseReads s.leader.leaseReadQueue :=
      Nat.pos_of_ne_zero fun hze => by simp [hze] at hmem
    have hpr := ((h ⟨hmu, hpos⟩).of_does ht).of_does hu
    exact Ensures.chain (ensures_attempt.mpr (does_executeAndProcessRaftRpc hpr))
      fun _ _ _ => does_pure
  · exact does_pure

/-- A flush has commands to propose, reads to confirm or a lease to renew. -/
def FlushProduces (s : Node myId) (env : Env) : Prop :=
  s.leader.proposeBuffer ≠ [] ∨ 0 < s.leader.linearizableReadBuffer ∨ RenewsLease s env
deriving Decidable

theorem does_leader_flushCmdBuffers (h : FlushProduces s env → p.Produces s) :
    Ensures (Leader.flushCmdBuffers env) s fun _ t => Does p allowed s t := by
  unfold Leader.flushCmdBuffers
  rw [ensures_get_bind]
  dsimp only
  split_ifs with hbuf
  · have hpr := h (hbuf.imp_right Or.inl)
    refine Ensures.chain (does_bookkeeping fun _ => ⟨rfl, rfl⟩) fun _ t ht => ?_
    refine Ensures.chain (does_executeAndProcessRaftRpc (hpr.of_does ht)) fun _ u hu => ?_
    exact does_processLeaseReads fun _ => (hpr.of_does ht).of_does hu
  · exact does_processLeaseReads fun hre => h (.inr (.inr hre))

/-! ### Inbound events -/

theorem does_leader_receiveVoteRequest (hinc : request.term ≤ p.incoming) :
    Ensures (Leader.receiveVoteRequest env request) s fun _ t => Does p allowed s t := by
  unfold Leader.receiveVoteRequest
  rw [ensures_get_bind]
  dsimp only
  split_ifs with hlt
  · refine Ensures.chain (does_commitHardState ?_) fun _ t _ => ?_
    · rintro T ⟨⟩
      omega
    · refine Ensures.chain (does_send (by simp)) fun _ u _ => ?_
      exact does_send (by simp)
  · apply does_record
    simp [Permit.Allows]

theorem does_yieldTo {leaderId : Nat} :
    Ensures (Leader.yieldTo leaderId event) s fun _ t => Does p allowed s t := by
  refine Ensures.chain (does_send (by simp)) fun _ t _ => ?_
  exact does_send (by simp)

/-- Only a join request makes a leader produce. -/
theorem does_leader_handleInboundEvent
    (hinc : ∀ request, event = .receiveVoteRequest request → request.term ≤ p.incoming)
    (hpr : ∀ request, event = .joinCluster request → p.Produces s) :
    Ensures (Leader.handleInboundEvent env event) s fun _ t => Does p allowed s t := by
  cases event with
  | receiveVoteRequest request => exact does_leader_receiveVoteRequest (hinc request rfl)
  | clusterConf => exact does_pure
  | clusterConfUpdate =>
    unfold Leader.handleInboundEvent
    rw [ensures_get_bind]
    exact does_when fun _ => does_yieldTo
  | appendEntries =>
    unfold Leader.handleInboundEvent
    rw [ensures_get_bind]
    split_ifs
    · exact does_yieldTo
    · exact does_record trivial
  | installSnapshotChunk => exact does_fail
  | joinCluster request => exact does_handleJoinCluster (hpr request rfl)
  | discoverLeader =>
    unfold Leader.handleInboundEvent
    rw [ensures_get_bind]
    exact does_when fun _ => does_fail
  | fatalError => exact does_fail

/-! ### Commits and acknowledgements -/

section Commits

variable (hbooks : ∀ other, allowed (.bookkeeping other))

include hbooks

theorem does_runCommitAction {action : PostCommitAction} :
    Ensures (runCommitAction action) s fun _ t => Does p allowed s t := by
  cases action with
  | leaderNoop =>
    unfold runCommitAction
    rw [ensures_get_bind]
    refine Ensures.chain ?_ fun _ t _ => does_send (by simp)
    exact (Change.ledger (.bookkeeping { s.leader with noopLogId := some s.log.lastEntryId })
      (.inr (hbooks _))).does
  | nodeJoin => exact does_pure

theorem does_drainCommitActions {newCommit : Nat} :
    Ensures (drainCommitActions newCommit) s fun _ t => Does p allowed s t := by
  unfold drainCommitActions
  rw [ensures_get_bind]
  refine Ensures.chain (does_bookkeeping fun _ => ⟨rfl, rfl⟩) fun _ t _ => ?_
  exact Ensures.each fun _ _ _ _ => does_runCommitAction hbooks

theorem does_commitTo {newCommit : Nat} (hro : s.role = .leader) :
    Ensures (commitTo newCommit) s fun _ t => Does p allowed s t := by
  unfold commitTo
  rw [ensures_get_bind]
  refine Ensures.chain (does_updateCommitIndexWithSignal fun _ => Or.inl hro) fun _ t _ => ?_
  exact does_drainCommitActions hbooks

theorem does_commitByQuorum (hro : s.role = .leader) (hco : p.counts) :
    Ensures commitByQuorum s fun _ t => Does p allowed s t := by
  unfold commitByQuorum
  rw [ensures_get_bind]
  cases calculateNewCommitIndex s with
  | none => exact does_pure
  | some =>
    refine Ensures.chain (does_record hco) fun _ t ht => ?_
    exact does_commitTo hbooks (ht.calm.role_eq.trans hro)

theorem does_handleLogFlushed (hro : s.role = .leader) (hco : p.counts) :
    Ensures handleLogFlushed s fun _ t => Does p allowed s t := by
  unfold handleLogFlushed
  rw [ensures_get_bind]
  split_ifs
  · exact does_commitTo hbooks hro
  · exact does_pure
  · exact does_commitByQuorum hbooks hro hco

omit hbooks in
theorem does_checkLearnerProgress :
    Ensures (checkLearnerProgress env) s fun _ t => Does p allowed s t := by
  unfold checkLearnerProgress
  split_ifs
  · rw [ensures_get_bind]
    dsimp only
    split_ifs
    · refine Ensures.chain (does_bookkeeping fun _ => ⟨rfl, rfl⟩) fun _ t _ => ?_
      exact does_send (by simp)
    · exact does_pure
  · exact does_pure

omit hbooks in
theorem does_stepDownTo {term : Nat} (hlt : s.currentTerm < term) (hinc : term ≤ p.incoming) :
    Ensures (stepDownTo env term) s fun _ t => Does p allowed s t := by
  unfold stepDownTo
  refine Ensures.chain (does_commitHardState ?_) fun _ t _ => ?_
  · rintro T ⟨⟩
    omega
  · exact Ensures.chain (does_send (by simp)) fun _ _ _ => does_fail

theorem does_applyPeerUpdate {followerId : Nat} {update : PeerUpdate}
    (hro : s.role = .leader) (hco : p.counts) (hans : allowed (.answered followerId update)) :
    Ensures (applyPeerUpdate env followerId update) s fun _ t => Does p allowed s t := by
  unfold applyPeerUpdate
  rw [ensures_get_bind]
  refine Ensures.chain (does_ledger (e := .answered followerId update) ⟨hco, hans⟩)
    fun _ t ht => ?_
  split_ifs
  · exact does_commitByQuorum hbooks (ht.calm.role_eq.trans hro) hco
  · exact does_pure
  · exact does_checkLearnerProgress

/-- The largest term in the answer of a peer. -/
def largestTerm (response : AppendEntriesResponse) : Nat :=
  match response.result with
  | some (.higherTerm term) => max response.term term
  | _ => response.term

/-- The change of the ledger that the answer of a peer leads to. -/
def Node.peerUpdate (s : Node myId) (peer : Nat) (response : AppendEntriesResponse) :
    Option PeerUpdate :=
  if response.term = s.currentTerm then
    match response.result with
    | some (.success lastMatch) =>
      (handleSuccessResponse response.term lastMatch s.currentTerm).toOption
    | some (.conflict conflictTerm conflictIndex) =>
      some (handleConflictResponse conflictTerm conflictIndex s.log
        ((s.leader.nextIndex[peer]?).getD 1))
    | _ => none
  else none

omit hbooks in
/-- The result of a request is ignored, makes the leader step down to a newer term, or is taken
over if it is of the current term. -/
theorem ensures_handleAppendResult {peer : Nat} {result : Option AppendEntriesResponse}
    {Q : Node myId → Prop} (hig : Q s)
    (hdw : ∀ response ∈ result, ∀ term, s.currentTerm < term → term ≤ largestTerm response →
      Ensures (stepDownTo env term) s fun _ t => Q t)
    (hsu : ∀ response ∈ result, ∀ lastMatch update, response.term = s.currentTerm →
      response.result = some (.success lastMatch) →
      handleSuccessResponse response.term lastMatch s.currentTerm = .ok update →
      s.peerUpdate peer response = some update →
      Ensures (applyPeerUpdate env peer update)
        (s.recorded (.acknowledged peer (update.matchIndex.getD 0))) fun _ t => Q t)
    (hco : ∀ response ∈ result, ∀ update, s.peerUpdate peer response = some update →
      update.matchIndex = none → update.success = false →
      Ensures (applyPeerUpdate env peer update) s fun _ t => Q t) :
    Ensures (handleAppendResult env peer result) s fun _ t => Q t := by
  unfold handleAppendResult
  rw [ensures_get_bind]
  cases result with
  | none => exact hig
  | some response =>
    dsimp only
    split_ifs with hst hnw
    · exact hig
    · apply hdw response rfl _ hnw
      unfold largestTerm
      split
      · exact le_max_left _ _
      · exact le_rfl
    · have hte : response.term = s.currentTerm :=
        le_antisymm (Nat.le_of_not_lt hnw) (Nat.le_of_not_lt hst)
      cases hres : response.result with
      | none => exact hig
      | some outcome =>
        cases outcome with
        | success lastMatch =>
          dsimp only
          cases hupd : handleSuccessResponse response.term lastMatch s.currentTerm with
          | error => exact hig
          | ok update =>
            apply hsu response rfl lastMatch update hte hres hupd
            rw [Node.peerUpdate, if_pos hte, hres]
            exact congrArg Except.toOption hupd
        | conflict =>
          refine hco response rfl _ ?_ rfl rfl
          rw [Node.peerUpdate, if_pos hte, hres]
        | higherTerm term =>
          dsimp only
          split_ifs with hlt
          · apply hdw response rfl term hlt
            rw [largestTerm, hres]
            exact le_max_right _ _
          · exact hig

theorem does_handleAppendResult {peer : Nat}
    {result : Option AppendEntriesResponse} (hro : s.role = .leader) (hco : p.counts)
    (hans : ∀ response ∈ result, ∀ update, s.peerUpdate peer response = some update →
      allowed (.answered peer update))
    (hinc : ∀ response ∈ result, largestTerm response ≤ p.incoming) :
    Ensures (handleAppendResult env peer result) s fun _ t => Does p allowed s t := by
  refine ensures_handleAppendResult Relation.ReflTransGen.refl ?_ ?_ ?_
  · intro response hre term hlt hle
    exact does_stepDownTo hlt (hle.trans (hinc response hre))
  · intro response hre lastMatch update _ _ _ hupd
    have hno : Does p allowed s (s.recorded (.acknowledged peer (update.matchIndex.getD 0))) :=
      does_record hco
    exact (does_applyPeerUpdate hbooks (hno.calm.role_eq.trans hro) hco
      (hans response hre update hupd)).mono fun _ _ ht => hno.trans ht
  · intro response hre update hupd _ _
    exact does_applyPeerUpdate hbooks hro hco (hans response hre update hupd)

end Commits

/-! ## Internal events -/

/-- The state behind a handler does not depend on which of its errors are logged. -/
theorem ensures_logged {stops : Fault → Bool} {x : NodeM myId Unit} {Q : Node myId → Prop}
    (hx : Ensures x s fun _ t => Q t) : Ensures (logged stops x) s fun _ t => Q t := by
  refine Ensures.bind (R := fun _ t => Q t) (ensures_attempt.mpr hx) (fun _ _ ht => ht) ?_
  intro outcome t ht
  cases outcome with
  | ok => exact ht
  | error =>
    dsimp only
    split_ifs
    · exact ht
    · exact ht

/-- Merging loses only commit notifications. -/
theorem mem_mergeNotifications {e : InternalEvent} (he : ∀ data, e ≠ .notifyNewCommitIndex data)
    (budget : Nat) (data : NewCommitData) (rx : List InternalEvent) :
    e ∈ (mergeNotifications budget data rx).2 ↔ e ∈ rx := by
  fun_induction mergeNotifications budget data rx with
  | case1 | case2 => rfl
  | case3 data budget next rest ih =>
    rw [ih, List.mem_cons]
    exact ⟨Or.inr, fun h => h.resolve_left (he next)⟩
  | case4 =>
    rw [List.mem_append, List.mem_singleton, List.mem_cons, or_comm]

theorem calm_notifyNewCommitIndex {data : NewCommitData} :
    Ensures (notifyNewCommitIndex data) s fun _ t => Calm p s t := by
  unfold notifyNewCommitIndex
  rw [ensures_get_bind]
  refine Ensures.chain ?_ fun _ t _ => ensures_calm (does_record trivial)
  have hmem : ∀ e : InternalEvent, (∀ data, e ≠ .notifyNewCommitIndex data) →
      (e ∈ s.bufferedInternalEvent ++
          (mergeNotifications (s.config.maxBatchSize - 1) data s.internalRx).2 ↔ e ∈ s.queue) := by
    intro e he
    rw [Node.queue, List.mem_append, List.mem_append, mem_mergeNotifications he]
  refine calm_of_queue rfl (fun e he => (hmem e he).mp) ?_ rfl rfl rfl rfl fun _ => rfl
  intro e hdw he
  refine (hmem e ?_).mpr he
  rintro _ rfl
  cases hdw

/-- The event moves the node to another role. -/
def InternalEvent.switches : InternalEvent → Bool
  | .becomeFollower _ => true
  | .becomeCandidate => true
  | .becomeLeader => true
  | .becomeLearner => true
  | _ => false

/-- The largest term of an internal event, as far as a role may adopt it. -/
def InternalEvent.term : InternalEvent → Nat
  | .appendResult _ (some response) => largestTerm response
  | _ => 0

/-- The event makes a leader count acknowledgements. -/
def InternalEvent.counts : InternalEvent → Bool
  | .logFlushed _ => true
  | .appendResult _ _ => true
  | _ => false

/-- What the event does to the ledger, apart from what is sent. -/
def InternalEvent.Moves (event : InternalEvent) (s : Node myId) : LedgerEvent myId → Prop
  | .bookkeeping _ => event.counts = true
  | .answered peer update => ∃ response, event = .appendResult peer (some response) ∧
      s.peerUpdate peer response = some update
  | .streamError peer => event = .peerStreamError peer
  | .pushCompleted peer success lastIncludedIndex =>
    event = .snapshotPushCompleted peer success s.currentTerm lastIncludedIndex
  | .membershipApplied lastEntryId membership =>
    event = .membershipApplied ∧ lastEntryId = s.log.lastEntryId ∧ membership = s.membership
  | _ => False

/-- An internal event that changes neither the role nor the queue keeps to its permit. -/
theorem does_handleInternalEvent {event : InternalEvent}
    (hsw : event.switches = false) (hno : ∀ data, event ≠ .notifyNewCommitIndex data)
    (hann : event.announced ≤ p.purgesTo) (hinc : s.role = .leader → event.term ≤ p.incoming)
    (hco : s.role = .leader → event.counts = true → p.counts)
    (hpr : s.role = .leader → event = .promoteReadyLearners → p.Produces s) :
    Ensures (handleInternalEvent env event) s fun _ t => Does p (event.Moves s) s t := by
  cases event with
  | becomeFollower leaderId | becomeCandidate | becomeLeader | becomeLearner => cases hsw
  | notifyNewCommitIndex data => exact absurd rfl (hno data)
  | leaderDiscovered => exact does_pure
  | reprocessEvent => exact (Change.loop s.membership s.cmdRx s.eventRx _ s.phase).does
  | logFlushed =>
    unfold handleInternalEvent
    rw [ensures_get_bind]
    exact does_when fun hro => does_handleLogFlushed (fun _ => rfl) hro (hco hro rfl)
  | appendResult =>
    unfold handleInternalEvent
    rw [ensures_get_bind]
    split_ifs with hro
    · refine ensures_logged (does_handleAppendResult (fun _ => rfl) hro (hco hro rfl) ?_ ?_)
      · rintro response hre update hupd
        cases hre
        exact ⟨response, rfl, hupd⟩
      · rintro response ⟨⟩
        exact hinc hro
    · exact does_pure
  | snapshotPushCompleted peer success term lastIncludedIndex =>
    unfold handleInternalEvent snapshotPushCompleted
    rw [ensures_get_bind]
    split_ifs with hcu
    · obtain ⟨rfl, -, hst⟩ := hcu
      have hbooks : p.Books (InternalEvent.Moves
          (.snapshotPushCompleted peer success s.currentTerm lastIncludedIndex) s) s.leader
          (.pushCompleted peer success lastIncludedIndex) := rfl
      have hen := (Change.ledger _ hbooks).does
      rwa [show s.leader.handle (.pushCompleted peer success lastIncludedIndex) = _ from
        if_pos hst] at hen
    · exact does_pure
  | noopCommitted => exact does_pure
  | applyCompleted =>
    unfold handleInternalEvent
    rw [ensures_get_bind]
    exact does_when fun _ => does_send (by simp)
  | createSnapshotEvent => exact does_pure
  | snapshotCreated lastIncluded =>
    unfold handleInternalEvent
    rw [ensures_get_bind]
    cases lastIncluded with
    | none => exact does_pure
    | some =>
      dsimp only
      exact does_when fun _ => ensures_logged (does_scheduleAndExecutePurge hann)
  | stepDownSelfRemoved =>
    unfold handleInternalEvent
    rw [ensures_get_bind]
    exact does_when fun _ => does_send (by simp)
  | membershipApplied =>
    unfold handleInternalEvent handleMembershipApplied
    rw [ensures_get_bind]
    cases s.role with
    | leader =>
      exact does_ledger (e := .membershipApplied s.log.lastEntryId s.membership)
        ⟨rfl, rfl, rfl⟩
    | learner =>
      dsimp only
      exact does_when fun _ => does_send (by simp)
    | follower | candidate => exact does_pure
  | promoteReadyLearners =>
    unfold handleInternalEvent
    rw [ensures_get_bind]
    exact does_when fun hro =>
      ensures_logged (does_handlePromoteReadyLearners (hpr hro rfl))
  | logPurgeCompleted => exact ensures_logged does_handleLogPurgeCompleted
  | peerStreamError peer =>
    unfold handleInternalEvent
    rw [ensures_get_bind]
    exact does_when fun _ => does_ledger (e := .streamError peer) rfl
  | zombieDetected => exact does_pure
  | fatalError => exact does_fail

end DEngine.Raft

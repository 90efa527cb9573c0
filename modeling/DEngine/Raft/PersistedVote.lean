import DEngine.Library.History
import DEngine.Raft.OneVote

/-!
# Votes are written before they are given

A follower changes its term and vote in memory, writes the two to the meta store and
answers the candidate. While the log takes writes, what is in memory is what was
written last, so a granted vote has been written also when the request is repeated and
nothing changes. A failed write is not taken back from memory: the log is poisoned then,
and a repeated request finds the vote in memory and is granted without a write.

## Implementation notes

Each write carries the length of the journal at its time. A vote was written before its
answer when the journal was not longer then than it is in front of the answer.
-/

namespace DEngine.Raft

open Library Library.Handler Storage

variable {myId : Nat} {s t : Node myId} {l : Label}

namespace Node

/-- The vote of the term for the candidate was written when no more was done than `earlier`. -/
def VoteWritten (s : Node myId) (term candidate : Nat) (earlier : List Action) : Prop :=
  ∃ w ∈ s.metaStore, w.journalLength ≤ earlier.length ∧ w.hardState.currentTerm = term ∧
    ∃ vote ∈ w.hardState.votedFor, vote.votedForTerm = term ∧ vote.votedForId = candidate

/-- A follower handles a vote request only while its log takes writes. -/
def AskedUnpoisoned (s : Node myId) (l : Label) : Prop :=
  s.role = .follower → (s.handledVote l).isSome = true → s.log.poisoned = false
deriving Decidable

instance (s : Node myId) (term candidate : Nat) (earlier : List Action) :
    Decidable (s.VoteWritten term candidate earlier) :=
  inferInstanceAs (Decidable (∃ w ∈ s.metaStore, _ ∧ _ ∧ ∃ vote ∈ w.hardState.votedFor, _ ∧ _))

/-- The granted answers of the journal, each with its vote written before it. -/
def GrantsWritten (s : Node myId) : Prop :=
  Justified (fun a earlier => ∀ request response, a = .answeredVote request response →
    response.voteGranted = true → s.VoteWritten request.term request.candidateId earlier) s.journal

end Node

/-! ## The meta store along a run -/

theorem Node.inSync_inRound (env : Env) : (s.inRound env).InSync :=
  fun _ => ⟨_, rfl, rfl, Nat.le_add_right _ 2⟩

/-- What is in memory stays written, in every role. -/
theorem inSync_of_step (hsp : s.step l = some t) (hs : s.InSync) : t.InSync := by
  cases stepEffect_of_step hsp with
  | calm h => exact h.inSync hs
  | turned v hv h =>
    apply h.inSync
    rwa [Node.InSync, hv.log_eq, hv.metaStore_eq, hv.hardState_eq, hv.journal_eq]
  | entered rest hbuf hrl h =>
    refine h.inSync fun hp => ?_
    obtain ⟨w, hw, hst, hlen⟩ := hs hp
    exact ⟨w, hw, hst, hlen.trans (Nat.le_succ _)⟩
  | unwritten hro h => exact h.inSync hs
  | won env hro hans hwon h => exact h.inSync (Node.inSync_inRound (s := s) env)
  | lost env hro incoming h => exact h.inSync (Node.inSync_inRound env)
  | ended rest hbuf ht =>
    subst ht
    exact hs

theorem Node.Init.inSync (h : s.Init) : s.InSync := by
  obtain ⟨config, role, shared, diskLen, loaded, boundary, membership, rfl, -⟩ := h
  exact fun _ => ⟨_, rfl, rfl, le_rfl⟩

/-! ## Written votes -/

theorem Node.VoteWritten.mono {term candidate : Nat} {earlier : List Action}
    (h : s.VoteWritten term candidate earlier) (hwt : s.metaStore <:+ t.metaStore) :
    t.VoteWritten term candidate earlier := by
  obtain ⟨w, hw, hwr⟩ := h
  exact ⟨w, hwt.subset hw, hwr⟩

theorem Node.GrantsWritten.of_same (hs : s.GrantsWritten) (hjo : t.journal = s.journal)
    (hwr : s.metaStore <:+ t.metaStore) : t.GrantsWritten := by
  rw [Node.GrantsWritten, hjo]
  intro a earlier ha request response heq hgr
  exact (hs a earlier ha request response heq hgr).mono hwr

/-- An action that grants no vote may follow. -/
theorem Node.GrantsWritten.recorded {a : Action} (hs : s.GrantsWritten)
    (ha : ∀ request response, a ≠ .answeredVote request response) : (s.recorded a).GrantsWritten :=
  justified_cons.mpr ⟨fun request response heq => absurd heq (ha request response), hs⟩

/-- A handler that may not grant votes keeps the answers written. -/
theorem Calm.grantsWritten {p : Permit} (h : Calm p s t) (hgn : ∀ request, ¬ p.grants request)
    (hs : s.GrantsWritten) : t.GrantsWritten := by
  obtain ⟨done, hjo, hdn⟩ := h.acts
  have hold : { t with journal := s.journal }.GrantsWritten := hs.of_same rfl h.writes
  rw [Node.GrantsWritten, hjo]
  refine Justified.append hold fun a ha before _ request response heq hgr => ?_
  have hal := hdn a ha
  subst heq
  exact absurd (hal hgr) (hgn request)

theorem Node.GrantsWritten.inRound (hs : s.GrantsWritten) (env : Env) :
    (s.inRound env).GrantsWritten := by
  have hsa : (s.withHardState (some (s.currentTerm + 1))
      (some ⟨myId, s.currentTerm + 1, false⟩)).saved.GrantsWritten :=
    hs.of_same rfl (List.suffix_cons _ _)
  exact (hsa.recorded (a := .selfVote _) (by simp)).recorded (a := .voteRound _ _ _) (by simp)

/-! ## Granted votes -/

/-- A granted request leaves its own term and vote in memory. -/
theorem GrantsVote.hardState {request : VoteRequest} (h : GrantsVote s request) :
    (s.withHardState
      (handleVoteRequest request s.currentTerm s.shared.hardState.votedFor s.log).termUpdate
      (handleVoteRequest request s.currentTerm s.shared.hardState.votedFor s.log).newVotedFor
      ).shared.hardState = ⟨request.term, some ⟨request.candidateId, request.term, false⟩⟩ := by
  have hle := h.spec.1
  rw [GrantsVote] at h
  rw [handleVoteRequest_termUpdate]
  have hvo : (handleVoteRequest request s.currentTerm s.shared.hardState.votedFor
      s.log).newVotedFor = some ⟨request.candidateId, request.term, false⟩ := by
    unfold handleVoteRequest at h ⊢
    dsimp only at h ⊢
    split_ifs at h ⊢
    all_goals first | rfl | cases h
  rw [hvo]
  change HardState.mk (Option.getD _ s.currentTerm) _ = _
  split_ifs with hlt
  · rfl
  · rw [Option.getD_none, le_antisymm hle (Nat.le_of_not_lt hlt)]

/-- The vote is in the meta store when it is answered. -/
theorem grantsWritten_receiveVoteRequest {env : Env} {request : VoteRequest}
    (hgr : GrantsVote s request) (hpo : s.log.poisoned = false) (hsy : s.InSync)
    (hs : s.GrantsWritten) :
    Ensures (Follower.receiveVoteRequest env request) s fun _ t => t.GrantsWritten := by
  unfold Follower.receiveVoteRequest
  rw [ensures_get_bind]
  refine Ensures.bind (commitHardState_cases _ _ _ s) ?_ ?_
  · rintro fault t (⟨_, herr, -⟩ | ⟨-, h⟩)
    · cases herr
    · cases h <;> exact hs.of_same rfl List.suffix_rfl
  · rintro isNew u (⟨_, -, h⟩ | ⟨⟨fault, herr⟩, -⟩)
    swap
    · cases herr
    have hds : Does (.quiet request.term) (fun _ => True) s u := by
      refine h.does fun T hT => ?_
      rw [handleVoteRequest_termUpdate] at hT
      split_ifs at hT with hlt <;> cases hT
      exact ⟨hlt.le, le_max_right _ _⟩
    have hst : u.shared.hardState =
        ⟨request.term, some ⟨request.candidateId, request.term, false⟩⟩ := by
      cases h <;> exact hgr.hardState
    have hop : u.log.poisoned = false := by
      cases h <;> exact hpo
    obtain ⟨w, hw, hsa, hlen⟩ := hds.calm.inSync hsy hop
    refine justified_cons.mpr ⟨?_, hds.calm.grantsWritten (fun _ => id) hs⟩
    rintro _ _ heq -
    cases heq
    refine ⟨w, List.mem_of_mem_head? hw, hlen, ?_⟩
    rw [hsa, hst]
    exact ⟨rfl, _, rfl, rfl, rfl⟩

theorem grantsWritten_of_step (hst : s.step l = some t) (has : s.AskedUnpoisoned l)
    (hsy : s.InSync) (hs : s.GrantsWritten) : t.GrantsWritten := by
  cases stepEffect_of_step hst with
  | calm h =>
    by_cases hgr : ∃ request, s.Grants request l
    · obtain ⟨request, hgr⟩ := hgr
      obtain ⟨env, rest, rfl⟩ := receiveVoteRequest_of_grants hst hgr
      have hpo := has hgr.follower (by rw [hgr.handledVote]; rfl)
      have hha : Ensures (Follower.receiveVoteRequest env request) (s.took rest)
          fun _ t => t.GrantsWritten :=
        grantsWritten_receiveVoteRequest (s := s.took rest) hgr.grantsVote hpo hsy hs
      exact (calm_phase (p := .quiet 0)).grantsWritten (fun _ => id) hha
    · exact h.grantsWritten (fun request hgn => hgr ⟨request, hgn⟩) hs
  | turned v hv h =>
    refine h.grantsWritten (fun _ => id) (hs.of_same hv.journal_eq ?_)
    rw [hv.metaStore_eq]
  | entered rest hbuf hrl h =>
    have hpp : (s.popped rest).GrantsWritten := hs
    exact h.grantsWritten (fun _ => id) (hpp.recorded (by simp))
  | unwritten hro h => exact h.grantsWritten (fun _ => id) hs
  | won env hro hans hwon h | lost env hro incoming h =>
    exact h.grantsWritten (fun _ => id) (hs.inRound env)
  | ended rest hbuf ht =>
    subst ht
    exact hs

/-- In every run in which a follower handles vote requests only while its log takes writes, a
granted vote is in the meta store before it is answered. -/
theorem granted_vote_written (hs : (raftLoop myId).Reach Node.AskedUnpoisoned s)
    {request : VoteRequest} {response : VoteResponse} {earlier : List Action}
    (hanswer : .answeredVote request response :: earlier <:+ s.journal)
    (hgranted : response.voteGranted = true) :
    s.VoteWritten request.term request.candidateId earlier := by
  have hwr : s.InSync ∧ s.GrantsWritten := by
    apply hs.invariant
    · intro u hin
      obtain ⟨config, role, shared, diskLen, loaded, boundary, membership, rfl, -⟩ := id hin
      exact ⟨Node.Init.inSync hin, justified_nil⟩
    · rintro u l v ⟨hsy, hu⟩ has hst
      exact ⟨inSync_of_step hst hsy, grantsWritten_of_step hst has hsy hu⟩
  exact hwr.2 _ earlier hanswer request response rfl hgranted

/-- The request is granted twice, and both times behind the one write. -/
theorem repeated_request_vote_written :
    ∃ s : Node 1, (raftLoop 1).Reach Node.AskedUnpoisoned s ∧ s.metaStore.length = 2 ∧
      s.VoteWritten 2 2 [] := by
  have hre : ∃ s : Node 1, (raftLoop 1).Reach Node.AskedUnpoisoned s ∧
      (s.metaStore.length = 2 ∧
        [.answeredVote ⟨2, 2, 0, 0⟩ ⟨1, true, 0, 0⟩] <:+ s.journal) :=
    Machine.exists_reach_of_runIf repeatedRequestRun (Node.init_firstStart .small .trio)
      (by decide +kernel)
  obtain ⟨s, hs, hln, han⟩ := hre
  exact ⟨s, hs, hln, granted_vote_written hs han rfl⟩

/-- The first write fails. The vote stays in memory, and the repeated request finds it there. -/
def failedWriteRun : List Label :=
  [.arrive (.receiveVoteRequest ⟨2, 2, 0, 0⟩), .arrive (.receiveVoteRequest ⟨2, 2, 0, 0⟩),
    .recvInbound, .flush {}, .inboundEvent { save := .error .storage }, .inboundEvent {}]

theorem granted_vote_unwritten :
    ∃ s : Node 1, (raftLoop 1).Reach (fun _ _ => True) s ∧
      [.answeredVote ⟨2, 2, 0, 0⟩ ⟨2, true, 0, 0⟩] <:+ s.journal ∧ ¬ s.VoteWritten 2 2 [] ∧
      s.metaStore = [⟨⟨1, none⟩, 0⟩] :=
  Machine.exists_reach_of_runIf failedWriteRun (Node.init_firstStart .small .trio)
    (by decide +kernel)

end DEngine.Raft

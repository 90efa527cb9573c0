import DEngine.Raft.StepEffects

/-!
# One vote per term

A node gives its vote to at most one candidate of a term, as long as the vote that
it gave in its current term is still recorded when it is asked again. The record is
lost in two ways: every step down clears it, also one within the term, and a
follower overwrites it with the leader that it follows.
-/

namespace DEngine.Raft

open Library Library.Handler Storage Replication

variable {myId : Nat} {s t : Node myId} {l : Label}

def InboundEvent.vote? : InboundEvent → Option VoteRequest
  | .receiveVoteRequest request => some request
  | _ => none

namespace Node

/-- The vote request that a step handles. -/
def handledVote (s : Node myId) : Label → Option VoteRequest
  | .inboundEvent _ => s.nextEvent.bind InboundEvent.vote?
  | _ => none

/-- The node has given its vote of the term to the candidate. -/
def Gave (s : Node myId) (term candidate : Nat) : Prop :=
  ∃ a ∈ s.journal, a.vote myId = some (term, candidate)
deriving Decidable

/-- The vote of the term that is on record. -/
def Recorded (s : Node myId) (term candidate : Nat) : Prop :=
  ∃ vote ∈ s.shared.hardState.votedFor, vote.votedForTerm = term ∧ vote.votedForId = candidate
deriving Decidable

/-- A follower that is asked for its vote in its current term still has the vote that it gave
in this term on record. -/
def VoteKept (s : Node myId) (l : Label) : Prop :=
  s.role = .follower → ∀ request ∈ s.handledVote l, request.term = s.currentTerm →
    ∀ a ∈ s.journal, ∀ vote ∈ a.vote myId, vote.1 = s.currentTerm → s.Recorded vote.1 vote.2
deriving Decidable

/-- The votes that a node gave are of past terms or the current one, one for each term. -/
structure OneVote (s : Node myId) : Prop where
  term_le : ∀ term candidate, s.Gave term candidate → term ≤ s.currentTerm
  unique : ∀ term candidate other, s.Gave term candidate → s.Gave term other → candidate = other

end Node

/-! ## The votes of a step -/

variable {p : Permit} {candidate : Nat}

theorem Permit.Allows.vote {a : Action} (h : p.Allows a) {term : Nat}
    (hvo : a.vote myId = some (term, candidate)) :
    ∃ request, p.grants request ∧ request.term = term ∧ request.candidateId = candidate := by
  cases a with
  | selfVote => cases h
  | answeredVote request =>
    simp only [Action.vote] at hvo
    split_ifs at hvo with hgr
    cases hvo
    exact ⟨request, h hgr, rfl, rfl⟩
  | _ => cases hvo

/-- The new votes of a handler are those of its permit. -/
theorem Calm.gave (h : Calm p s t) {term : Nat} (hga : t.Gave term candidate) :
    s.Gave term candidate ∨
      ∃ request, p.grants request ∧ request.term = term ∧ request.candidateId = candidate := by
  obtain ⟨done, hjo, hdn⟩ := h.acts
  obtain ⟨a, ha, hvo⟩ := hga
  rw [hjo, List.mem_append] at ha
  rcases ha with hnew | hold
  · exact .inr ((hdn a hnew).vote hvo)
  · exact .inl ⟨a, hold, hvo⟩

theorem Node.OneVote.of_gave {v : Node myId} (hs : s.OneVote)
    (hga : ∀ term candidate, v.Gave term candidate → s.Gave term candidate)
    (hte : s.currentTerm ≤ v.currentTerm) : v.OneVote where
  term_le := fun term candidate hv => (hs.term_le term candidate (hga _ _ hv)).trans hte
  unique := fun term candidate other hv hv' =>
    hs.unique term candidate other (hga _ _ hv) (hga _ _ hv')

/-- A handler that may not grant votes keeps the invariant. -/
theorem Calm.oneVote (h : Calm p s t) (hgn : ∀ request, ¬ p.grants request)
    (hs : s.OneVote) : t.OneVote := by
  refine hs.of_gave (fun term candidate hga => (h.gave hga).resolve_right ?_) h.term_le
  rintro ⟨request, hgr, -⟩
  exact hgn request hgr

/-- The own vote of a round is the first one of its term. -/
theorem Node.OneVote.inRound (hs : s.OneVote) (env : Env) : (s.inRound env).OneVote := by
  have hga : ∀ {term candidate}, (s.inRound env).Gave term candidate →
      s.Gave term candidate ∨ term = s.currentTerm + 1 ∧ candidate = myId := by
    rintro term candidate ⟨a, ha, hvo⟩
    rcases List.mem_cons.mp ha with rfl | ha
    · cases hvo
    · rcases List.mem_cons.mp ha with rfl | ha
      · cases hvo
        exact .inr ⟨rfl, rfl⟩
      · exact .inl ⟨a, ha, hvo⟩
  have hte : (s.inRound env).currentTerm = s.currentTerm + 1 := rfl
  constructor
  · intro term candidate h
    rw [hte]
    rcases hga h with hold | ⟨rfl, -⟩
    · exact (hs.term_le term candidate hold).trans (Nat.le_succ _)
    · exact le_rfl
  · intro term candidate other h h'
    rcases hga h with hold | ⟨hnew, rfl⟩ <;> rcases hga h' with hold' | ⟨hnew', rfl⟩
    · exact hs.unique term candidate other hold hold'
    · have := hs.term_le term candidate hold
      omega
    · have := hs.term_le term other hold'
      omega
    · rfl

/-! ## Granted votes -/

variable {request : VoteRequest}

/-- A vote is granted in no past term, and in the current one only if no other is on record. -/
theorem GrantsVote.spec (h : GrantsVote s request) :
    s.currentTerm ≤ request.term ∧ (request.term = s.currentTerm →
      ∀ vote ∈ s.shared.hardState.votedFor,
        vote.votedForTerm = request.term ∧ vote.votedForId = request.candidateId) := by
  unfold GrantsVote handleVoteRequest at h
  dsimp only at h
  split_ifs at h with hnw hgr hgr
  · exact ⟨hnw.le, fun heq => absurd heq hnw.ne'⟩
  · cases h
  · refine ⟨hgr.1, fun _ vote hvo => ?_⟩
    have hfr := hgr.2.2
    rw [Option.mem_def.mp hvo] at hfr
    exact of_decide_eq_true hfr
  · cases h

/-- The term of a granted request is adopted, if it is new. -/
theorem term_le_receiveVoteRequest {env : Env} :
    Ensures (Follower.receiveVoteRequest env request) s fun _ t =>
      request.term ≤ t.currentTerm := by
  have had : ∀ votedFor, request.term ≤
      (s.withHardState (if s.currentTerm < request.term then some request.term else none)
        votedFor).currentTerm := by
    intro votedFor
    rw [Node.withHardState_currentTerm]
    split_ifs with hlt
    · exact le_rfl
    · exact Nat.le_of_not_lt hlt
  unfold Follower.receiveVoteRequest
  rw [ensures_get_bind]
  dsimp only
  rw [handleVoteRequest_termUpdate]
  refine Ensures.bind (commitHardState_cases _ _ _ s) ?_ ?_
  · rintro fault t (⟨_, herr, -⟩ | ⟨-, h⟩)
    · cases herr
    · cases h <;> exact had _
  · rintro isNew t (⟨_, -, h⟩ | ⟨⟨fault, herr⟩, -⟩)
    · cases h <;> exact had _
    · cases herr

section Grants

variable {request : VoteRequest}

theorem Node.Grants.follower (h : s.Grants request l) : s.role = .follower := by
  cases l with
  | inboundEvent => exact h.1
  | _ => cases h

theorem Node.Grants.grantsVote (h : s.Grants request l) : GrantsVote s request := by
  cases l with
  | inboundEvent => exact h.2.2
  | _ => cases h

theorem Node.Grants.handledVote (h : s.Grants request l) : s.handledVote l = some request := by
  cases l with
  | inboundEvent =>
    rw [Node.handledVote, h.2.1]
    rfl
  | _ => cases h

/-- A step that grants a request is the follower's handling of it. -/
theorem receiveVoteRequest_of_grants (hst : s.step l = some t) (h : s.Grants request l) :
    ∃ env rest, t = Node.settle Fault.isFatal .inbound
      (Follower.receiveVoteRequest env request (s.took rest)) := by
  cases l with
  | inboundEvent env =>
    obtain ⟨hro, hev, -⟩ := h
    simp only [Node.step] at hst
    split at hst
    · rename_i event rest _ hnx
      rw [Node.nextEvent, hnx] at hev
      cases hev
      cases hst
      refine ⟨env, rest, congrArg _ ?_⟩
      change handleInboundEvent env _ (s.took rest) = _
      rw [handleInboundEvent, get_bind_apply, show (s.took rest).role = .follower from hro]
      rfl
    · cases hst
  | _ => cases h

end Grants

theorem term_le_of_grants (hst : s.step l = some t)
    (hgr : s.Grants request l) : request.term ≤ t.currentTerm := by
  obtain ⟨env, rest, rfl⟩ := receiveVoteRequest_of_grants hst hgr
  have hha : Ensures (Follower.receiveVoteRequest env request) (s.took rest)
      fun _ t => request.term ≤ t.currentTerm := term_le_receiveVoteRequest
  exact hha.trans (Calm.term_le (p := .quiet 0) calm_phase)

/-- A request that is granted agrees with the vote that was given before. -/
theorem candidate_eq_of_grants (hke : s.VoteKept l)
    (hgr : s.Grants request l) (hs : s.OneVote) (hga : s.Gave request.term candidate) :
    candidate = request.candidateId := by
  cases l with
  | inboundEvent env =>
    obtain ⟨hro, hev, hvo⟩ := hgr
    obtain ⟨hle, hfr⟩ := hvo.spec
    have hte : request.term = s.currentTerm := le_antisymm (hs.term_le _ _ hga) hle
    obtain ⟨a, ha, hgi⟩ := hga
    have hha : request ∈ s.handledVote (.inboundEvent env) := by
      rw [Node.handledVote, hev]
      rfl
    obtain ⟨vote, hrec, -, hca⟩ :=
      hke hro request hha hte a ha _ hgi hte
    exact hca.symm.trans (hfr hte vote hrec).2
  | _ => cases hgr

/-- The vote request that a step grants is the one it handles. -/
theorem Grants.unique {other : VoteRequest} (h : s.Grants request l)
    (h' : s.Grants other l) : request = other := by
  cases l with
  | inboundEvent =>
    have heq := h.2.1.symm.trans h'.2.1
    cases heq
    rfl
  | _ => cases h

theorem oneVote_of_step (hst : s.step l = some t) (hke : s.VoteKept l) (hs : s.OneVote) :
    t.OneVote := by
  cases stepEffect_of_step hst with
  | calm h =>
    constructor
    · intro term candidate hga
      rcases h.gave hga with hold | ⟨request, hgr, rfl, -⟩
      · exact (hs.term_le term candidate hold).trans h.term_le
      · exact term_le_of_grants hst hgr
    · intro term candidate other hga hga'
      rcases h.gave hga with hold | ⟨request, hgr, rfl, rfl⟩ <;>
        rcases h.gave hga' with hold' | ⟨request', hgr', hte, rfl⟩
      · exact hs.unique term candidate other hold hold'
      · exact candidate_eq_of_grants hke hgr' hs (hte ▸ hold)
      · exact (candidate_eq_of_grants hke hgr hs hold').symm
      · rw [Grants.unique hgr hgr']
  | turned v hv h =>
    refine h.oneVote (fun _ => id) (hs.of_gave (fun term candidate hga => ?_) hv.term_eq.ge)
    rwa [Node.Gave, hv.journal_eq] at hga
  | entered rest hbuf hrl h =>
    refine h.oneVote (fun _ => id) (hs.of_gave ?_ le_rfl)
    rintro term candidate ⟨a, ha, hvo⟩
    rcases List.mem_cons.mp ha with rfl | hold
    · cases hvo
    · exact ⟨a, hold, hvo⟩
  | unwritten hro h => exact h.oneVote (fun _ => id) hs
  | won env hro hans hwon h =>
    exact h.oneVote (fun _ => id) ((hs.inRound env).of_gave (fun _ _ hga => hga) le_rfl)
  | lost env hro incoming h => exact h.oneVote (fun _ => id) (hs.inRound env)
  | ended rest hbuf ht =>
    subst ht
    exact hs.of_gave (fun _ _ hga => hga) le_rfl

theorem Node.Init.oneVote (h : s.Init) : s.OneVote := by
  obtain ⟨config, role, shared, diskLen, loaded, boundary, membership, rfl, -⟩ := h
  have hno : ∀ term candidate, ¬ (Node.start config role shared
      (BufferedRaftLog.new diskLen loaded boundary) membership : Node myId).Gave term candidate :=
    fun _ _ ⟨_, ha, _⟩ => absurd ha List.not_mem_nil
  exact ⟨fun _ _ hga => absurd hga (hno _ _), fun _ _ _ hga => absurd hga (hno _ _)⟩

/-- In every run in which a follower still has its vote of the current term on record when it
is asked for it, no two candidates of one term get the node's vote. -/
theorem vote_unique_of_reach (hs : (raftLoop myId).Reach Node.VoteKept s)
    {term candidate other : Nat} (hcandidate : s.Gave term candidate)
    (hother : s.Gave term other) : candidate = other := by
  have hone : s.OneVote := by
    apply hs.invariant (fun _ hin => Node.Init.oneVote hin)
    exact fun u l v hu hke hst => oneVote_of_step hst hke hu
  exact hone.unique term candidate other hcandidate hother

/-- A candidate that repeats its request is granted twice, and nobody else is. -/
def repeatedRequestRun : List Label :=
  [.arrive (.receiveVoteRequest ⟨2, 2, 0, 0⟩), .arrive (.receiveVoteRequest ⟨2, 2, 0, 0⟩),
    .recvInbound, .flush {}, .inboundEvent {}, .inboundEvent {}]

theorem repeated_request_vote_unique :
    ∃ s : Node 1, (raftLoop 1).Reach Node.VoteKept s ∧ s.Gave 2 2 ∧ s.journal.length = 2 ∧
      ∀ other, s.Gave 2 other → other = 2 := by
  have hre : ∃ s : Node 1, (raftLoop 1).Reach Node.VoteKept s ∧
      (s.Gave 2 2 ∧ s.journal.length = 2) :=
    Machine.exists_reach_of_runIf repeatedRequestRun (Node.init_firstStart .small .trio)
      (by decide +kernel)
  obtain ⟨s, hs, hga, hln⟩ := hre
  exact ⟨s, hs, hga, hln, fun other hot => vote_unique_of_reach hs hot hga⟩

/-- Node 1 loses a round of term 2 and follows the leader of that term, which it has no entries
of yet. Then the request of that leader's own round comes in late. -/
def lateRequestRun : List Label :=
  [.tick { timerExpired := true }, .flush {}, .nextRound, .recvInternal, .internalEvent {},
    .flush {}, .nextRound,
    .tick { timerExpired := true, voteResponses := [(2, none), (3, none)] }, .flush {}, .nextRound,
    .arrive (.appendEntries ⟨2, 2, 5, 1, [], 0⟩), .recvInbound, .flush {}, .inboundEvent {},
    .nextRound, .recvInternal, .internalEvent {}, .internalEvent {}, .flush {}, .inboundEvent {},
    .nextRound, .recvInternal, .internalEvent {}, .flush {}, .nextRound,
    .arrive (.receiveVoteRequest ⟨2, 2, 5, 1⟩), .recvInbound, .flush {}, .inboundEvent {}]

theorem late_request_gets_second_vote :
    ∃ s : Node 1, (raftLoop 1).Reach (fun _ _ => True) s ∧ s.Gave 2 1 ∧ s.Gave 2 2 :=
  Machine.exists_reach_of_runIf lateRequestRun (Node.init_firstStart .small .trio)
    (by decide +kernel)

end DEngine.Raft

import Mathlib.Data.Prod.Lex
import DEngine.Raft.Lifetime

/-!
# Exactness of vote grants

A follower should grant a request of its current term or a later one exactly when the log of
the candidate is as recent as its own and the vote of that term has not gone to another
candidate. The code decides by the vote on record, which is kept when the term is raised by a
request that is denied, is overwritten with the leader that the follower obeys, and is cleared
by every step down. The decisions are exact in a state exactly if the record tells the votes
that were given in the current term.

## Implementation notes

The journal holds the votes that were given since the start of the process. The votes of the
processes before it are a parameter, of which only the terms are bounded.
-/

namespace DEngine.Raft

open Library Storage

variable {myId : Nat} {s t start : Node myId} {l : Label} {earlier : List (Nat × Nat)}
  {request : VoteRequest}

namespace Node

/-- The votes, each a term and a candidate, that were given up to this state. -/
def votesGiven (earlier : List (Nat × Nat)) (s : Node myId) : List (Nat × Nat) :=
  s.journal.filterMap (Action.vote myId) ++ earlier

/-- The log of the candidate is at least as recent as the one of the node. -/
def LogBehind (s : Node myId) (request : VoteRequest) : Prop :=
  let lastLogId := s.log.lastLogId.getD ⟨0, 0⟩
  toLex (lastLogId.term, lastLogId.index) ≤ toLex (request.lastLogTerm, request.lastLogIndex)
deriving Decidable

/-- The requests that deserve the vote of the node. -/
@[mk_iff]
structure Deserves (earlier : List (Nat × Nat)) (s : Node myId) (request : VoteRequest) : Prop where
  term_le : s.currentTerm ≤ request.term
  recent : s.LogBehind request
  free : ∀ vote ∈ s.votesGiven earlier, vote.1 = request.term → vote.2 = request.candidateId

/-- The vote on record tells the votes of the term. A record of another term bars every
candidate, which is right only if two of them have been voted for already. -/
def Tells (votes : List (Nat × Nat)) (term : Nat) : Option VotedFor → Prop
  | none => ∀ vote ∈ votes, vote.1 ≠ term
  | some record =>
    if record.votedForTerm = term then
      (∃ vote ∈ votes, vote.1 = term) ∧
        ∀ vote ∈ votes, vote.1 = term → vote.2 = record.votedForId
    else
      ∃ vote ∈ votes, ∃ other ∈ votes, vote.1 = term ∧ other.1 = term ∧ vote.2 ≠ other.2

/-- The vote on record tells the votes that were given in the current term. -/
def RecordExact (earlier : List (Nat × Nat)) (s : Node myId) : Prop :=
  Tells (s.votesGiven earlier) s.currentTerm s.shared.hardState.votedFor

instance : Decidable (s.Deserves earlier request) := decidable_of_iff' _ (deserves_iff ..)

instance (votes : List (Nat × Nat)) (term : Nat) (votedFor : Option VotedFor) :
    Decidable (Tells votes term votedFor) := by
  cases votedFor <;> dsimp only [Tells] <;> infer_instance

instance : Decidable (s.RecordExact earlier) :=
  inferInstanceAs (Decidable (Tells _ _ _))

end Node

instance : Decidable (GrantsVote s request) :=
  inferInstanceAs (Decidable (_ = _))

/-! ## The votes of a run -/

theorem mem_votesGiven {vote : Nat × Nat} :
    vote ∈ s.votesGiven earlier ↔ s.Gave vote.1 vote.2 ∨ vote ∈ earlier := by
  simp [Node.votesGiven, Node.Gave]

variable {candidate : Nat}

/-- The votes that a step adds are not of a later term than the one it ends in. -/
theorem gave_of_step (hst : s.step l = some t) {term : Nat}
    (hga : t.Gave term candidate) : s.Gave term candidate ∨ term ≤ t.currentTerm := by
  have hqu : ∀ {v : Node myId} {p : Permit}, Calm p v t → (∀ request, ¬ p.grants request) →
      v.Gave term candidate := by
    intro v p h hgr
    refine (h.gave hga).resolve_right ?_
    rintro ⟨request, hgn, -⟩
    exact hgr request hgn
  have hro : ∀ env : Env, (s.inRound env).Gave term candidate →
      (s.inRound env).currentTerm ≤ t.currentTerm →
      s.Gave term candidate ∨ term ≤ t.currentTerm := by
    rintro env ⟨a, ha, hvo⟩ hte
    rcases List.mem_cons.mp ha with rfl | ha
    · cases hvo
    · rcases List.mem_cons.mp ha with rfl | ha
      · cases hvo
        exact .inr hte
      · exact .inl ⟨a, ha, hvo⟩
  cases stepEffect_of_step hst with
  | calm h =>
    rcases h.gave hga with hold | ⟨request, hgr, rfl, -⟩
    · exact .inl hold
    · exact .inr (term_le_of_grants hst hgr)
  | turned v hv h =>
    have hold := hqu h fun _ => id
    rw [Node.Gave, hv.journal_eq] at hold
    exact .inl hold
  | entered rest hbuf hrl h =>
    obtain ⟨a, ha, hvo⟩ := hqu h fun _ => id
    rcases List.mem_cons.mp ha with rfl | hold
    · cases hvo
    · exact .inl ⟨a, hold, hvo⟩
  | unwritten _ h => exact .inl (hqu h fun _ => id)
  | won env _ hans hwon h =>
    have hse : ((s.inRound env).sent .becomeLeader).Gave term candidate :=
      hqu h fun _ => id
    exact hro env hse h.term_le
  | lost env _ incoming h => exact hro env (hqu h fun _ => id) h.term_le
  | ended rest hbuf ht =>
    subst ht
    exact .inl hga

/-- No vote of a later term than the current one has been given. -/
theorem votesGiven_term_le (hin : start.Init) (hrun : (raftLoop myId).Run (fun _ _ => True) start s)
    (hea : ∀ vote ∈ earlier, vote.1 ≤ start.currentTerm) :
    ∀ vote ∈ s.votesGiven earlier, vote.1 ≤ s.currentTerm := by
  induction hrun with
  | refl =>
    intro vote hvo
    rcases mem_votesGiven.mp hvo with hga | hold
    · exact hin.oneVote.term_le _ _ hga
    · exact hea vote hold
  | @tail u v _ hla ih =>
    obtain ⟨l, -, hst⟩ := hla
    have hte : u.currentTerm ≤ v.currentTerm := term_le_of_step hst
    intro vote hvo
    rcases mem_votesGiven.mp hvo with hga | hold
    · rcases gave_of_step hst hga with hbe | hnow
      · exact (ih vote (mem_votesGiven.mpr (.inl hbe))).trans hte
      · exact hnow
    · exact (ih vote (mem_votesGiven.mpr (.inr hold))).trans hte

/-! ## The decision of the code -/

theorem isTargetLogMoreRecent_iff :
    isTargetLogMoreRecent (s.log.lastLogId.getD ⟨0, 0⟩).index (s.log.lastLogId.getD ⟨0, 0⟩).term
      request.lastLogIndex request.lastLogTerm = true ↔ s.LogBehind request := by
  simp only [isTargetLogMoreRecent, Node.LogBehind, decide_eq_true_eq, Prod.Lex.toLex_le_toLex]
  exact or_congr Iff.rfl (and_congr_left fun _ => eq_comm)

/-- The vote on record is looked at only in the current term. -/
theorem grantsVote_iff :
    GrantsVote s request ↔ s.currentTerm ≤ request.term ∧ s.LogBehind request ∧
      (request.term = s.currentTerm → ∀ record ∈ s.shared.hardState.votedFor,
        record.votedForTerm = request.term ∧ record.votedForId = request.candidateId) := by
  have hfr : ∀ votedFor : Option VotedFor, voteIsFree request votedFor = true ↔
      ∀ record ∈ votedFor,
        record.votedForTerm = request.term ∧ record.votedForId = request.candidateId := by
    intro votedFor
    cases votedFor <;> simp [voteIsFree]
  unfold GrantsVote handleVoteRequest
  dsimp only
  rw [← isTargetLogMoreRecent_iff]
  rcases lt_or_ge s.currentTerm request.term with hlt | hge
  · have hne : request.term ≠ s.currentTerm := hlt.ne'
    simp only [if_pos hlt, hfr]
    split_ifs with h <;> simp_all
  · simp only [if_neg (Nat.not_lt.mpr hge), hfr]
    split_ifs with h
    · simp only [Option.isSome_some, true_iff]
      exact ⟨h.1, h.2.1, fun _ => h.2.2⟩
    · simp only [Option.isSome_none, Bool.false_eq_true, false_iff]
      rintro ⟨hle, hre, hrec⟩
      exact h ⟨hle, hre, hrec (le_antisymm hge hle)⟩

/-- A request of the current term whose log no node is ahead of. -/
def Node.ask (s : Node myId) (candidate : Nat) : VoteRequest :=
  ⟨s.currentTerm, candidate, 0, (s.log.lastLogId.getD ⟨0, 0⟩).term + 1⟩

theorem grantsVote_ask :
    GrantsVote s (s.ask candidate) ↔ ∀ record ∈ s.shared.hardState.votedFor,
      record.votedForTerm = s.currentTerm ∧ record.votedForId = candidate := by
  have hre : s.LogBehind (s.ask candidate) :=
    Prod.Lex.toLex_le_toLex.mpr (.inl (Nat.lt_succ_self _))
  rw [grantsVote_iff]
  exact ⟨fun h => h.2.2 rfl, fun h => ⟨le_rfl, hre, fun _ => h⟩⟩

theorem deserves_ask :
    s.Deserves earlier (s.ask candidate) ↔
      ∀ vote ∈ s.votesGiven earlier, vote.1 = s.currentTerm → vote.2 = candidate :=
  ⟨fun h => h.free,
    fun h => ⟨le_rfl, Prod.Lex.toLex_le_toLex.mpr (.inl (Nat.lt_succ_self _)), h⟩⟩

/-- The record is exact when the requests of the current term are decided by it as they should
be: of these the code grants those that agree with the record. -/
theorem tells_iff {votes : List (Nat × Nat)} {term : Nat} {votedFor : Option VotedFor} :
    (∀ candidate, (∀ record ∈ votedFor,
        record.votedForTerm = term ∧ record.votedForId = candidate) ↔
      ∀ vote ∈ votes, vote.1 = term → vote.2 = candidate) ↔ Node.Tells votes term votedFor := by
  cases votedFor with
  | none =>
    simp only [Option.not_mem_none, false_implies, implies_true, true_iff, Node.Tells]
    constructor
    · intro h vote hvo hte
      have hsu : vote.2 = vote.2 + 1 := h (vote.2 + 1) vote hvo hte
      omega
    · intro h candidate vote hvo hte
      exact absurd hte (h vote hvo)
  | some record =>
    simp only [Option.mem_def, Option.some.injEq, forall_eq', Node.Tells]
    split_ifs with hte
    · constructor
      · intro h
        refine ⟨?_, (h record.votedForId).mp ⟨hte, rfl⟩⟩
        by_contra hno
        have hot := (h (record.votedForId + 1)).mpr fun vote hvo heq =>
          absurd ⟨vote, hvo, heq⟩ hno
        omega
      · rintro ⟨⟨vote, hvo, heq⟩, hall⟩ candidate
        constructor
        · rintro ⟨-, rfl⟩
          exact hall
        · intro h
          exact ⟨hte, (hall vote hvo heq).symm.trans (h vote hvo heq)⟩
    · simp only [hte, false_and, false_iff]
      constructor
      · intro h
        -- some vote of the term bars candidate 0, and another one bars the one it went to
        have h0 := h 0
        push Not at h0
        obtain ⟨vote, hvo, heq, -⟩ := h0
        have h1 := h vote.2
        push Not at h1
        obtain ⟨other, hot, heq', hne⟩ := h1
        exact ⟨vote, hvo, other, hot, heq, heq', hne.symm⟩
      · rintro ⟨vote, hvo, other, hot, heq, heq', hne⟩ candidate h
        exact hne ((h vote hvo heq).trans (h other hot heq').symm)

/-- In every state of a run the code grants exactly the requests that deserve the vote if and
only if the vote on record tells the votes that were given in the current term. -/
theorem exactVotes_iff (hinit : start.Init) (hrun : (raftLoop myId).Run (fun _ _ => True) start s)
    (hearlier : ∀ vote ∈ earlier, vote.1 ≤ start.currentTerm) :
    (∀ request, GrantsVote s request ↔ s.Deserves earlier request) ↔ s.RecordExact earlier := by
  rw [Node.RecordExact, ← tells_iff]
  constructor
  · intro h candidate
    rw [← grantsVote_ask, ← deserves_ask]
    exact h (s.ask candidate)
  · intro h request
    rw [grantsVote_iff]
    -- a request of a later term meets no vote: none has been given there
    have hla : s.currentTerm < request.term → ∀ vote ∈ s.votesGiven earlier,
        vote.1 = request.term → vote.2 = request.candidateId := by
      intro hlt vote hvo heq
      have := votesGiven_term_le hinit hrun hearlier vote hvo
      omega
    constructor
    · rintro ⟨hle, hre, hrc⟩
      refine ⟨hle, hre, ?_⟩
      rcases hle.lt_or_eq with hlt | heq
      · exact hla hlt
      · rw [← heq] at hrc ⊢
        exact (h request.candidateId).mp (hrc rfl)
    · rintro ⟨hle, hre, hfr⟩
      refine ⟨hle, hre, fun heq => ?_⟩
      rw [heq] at hfr ⊢
      exact (h request.candidateId).mpr hfr

/-- A start with an entry of term 1 in the log and no vote on record. -/
def Node.secondStart : Node 1 :=
  Node.start .small .follower (SharedState.new none none)
    (BufferedRaftLog.new 1 [⟨1, 1, none⟩] none) .trio

theorem Node.init_secondStart : Node.secondStart.Init :=
  ⟨.small, .follower, SharedState.new none none, 1, [⟨1, 1, none⟩], none, .trio, rfl,
    Or.inl rfl, by decide, by decide, by decide⟩

/-- Candidate 2 gets the vote of term 2. -/
def grantedRun : List Label :=
  [.arrive (.receiveVoteRequest ⟨2, 2, 1, 1⟩), .recvInbound, .flush {}, .inboundEvent {}]

theorem exact_after_granted_vote :
    ∃ s : Node 1, (raftLoop 1).Run (fun _ _ => True) .secondStart s ∧ s.Gave 2 2 ∧
      ∀ request, GrantsVote s request ↔ s.Deserves [(1, 3)] request := by
  have hrun : ∃ s : Node 1, (raftLoop 1).Run (fun _ _ => True) .secondStart s ∧
      (s.Gave 2 2 ∧ s.RecordExact [(1, 3)]) :=
    Machine.exists_run_of_runIf grantedRun (by decide +kernel)
  obtain ⟨s, hrun, hga, hex⟩ := hrun
  exact ⟨s, hrun, hga, (exactVotes_iff Node.init_secondStart hrun (by decide)).mpr hex⟩

/-- The vote of term 2 stays on record when a request of candidate 3, whose log is behind, raises
the term to 3. Candidate 2 is then denied the vote of term 3 that nobody got. -/
theorem first_candidate_of_term_denied :
    ∃ s : Node 1, (raftLoop 1).Run (fun _ _ => True) .secondStart s ∧ s.role = .follower ∧
      s.currentTerm = 3 ∧ (∀ vote ∈ s.votesGiven [], vote.1 ≠ 3) ∧
      s.Deserves [] ⟨3, 2, 1, 1⟩ ∧ ¬ GrantsVote s ⟨3, 2, 1, 1⟩ :=
  Machine.exists_run_of_runIf
    (grantedRun ++ [.nextRound, .arrive (.receiveVoteRequest ⟨3, 3, 0, 0⟩), .recvInbound,
      .flush {}, .inboundEvent {}])
    (by decide +kernel)

end DEngine.Raft

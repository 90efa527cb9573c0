import DEngine.Library.Quorum
import DEngine.Raft.ElectedLeader

/-!
# The tally of a vote round

A vote round is won if no answer has a higher term and the peers that granted their
vote are, together with the candidate, a strict majority of the current voters. The
count differs from that in two ways. A node that was configured alone wins without
asking, whatever its cluster has become, and a node that is left alone loses. And a
denial from a peer whose log is not older ends the count, however many votes there are.
-/

namespace DEngine.Raft

open Library Storage

variable {myId term : Nat} {membership : Membership} {log : BufferedRaftLog}
  {responses : List (Nat × Option VoteResponse)}

/-- The peers that a round asks. -/
def roundPeers (myId : Nat) (membership : Membership) : List Nat :=
  if membership.isSingleNodeCluster then [] else askedPeers myId (membership.voters myId)

/-- The candidate and the peers that granted their vote are a strict majority of the current
voters. -/
def MajorityGranted (myId : Nat) (membership : Membership)
    (responses : List (Nat × Option VoteResponse)) : Prop :=
  StrictMajority (insert myId (membership.voters myId).toFinset)
    (insert myId (grantingPeers responses).toFinset)

/-- What every answer that grants the vote, or denies it, satisfies. -/
def EachAnswer (granted : Bool) (responses : List (Nat × Option VoteResponse))
    (P : VoteResponse → Prop) : Prop :=
  ∀ p ∈ responses, ∀ response ∈ p.2, response.voteGranted = granted → P response

/-- The round should be won. -/
def TallyWon (myId term : Nat) (membership : Membership)
    (responses : List (Nat × Option VoteResponse)) : Prop :=
  (∀ p ∈ responses, ∀ response ∈ p.2, response.term ≤ term) ∧
    MajorityGranted myId membership responses

instance (responses : List (Nat × Option VoteResponse)) :
    Decidable (TallyWon myId term membership responses) :=
  inferInstanceAs (Decidable (_ ∧ StrictMajority _ _))

/-- The log of the answer is at least as recent as the candidate's. -/
def ReportsRecentLog (log : BufferedRaftLog) (response : VoteResponse) : Prop :=
  let lastLogId := log.lastLogId.getD ⟨0, 0⟩
  isTargetLogMoreRecent lastLogId.index lastLogId.term response.lastLogIndex
    response.lastLogTerm = true

/-- The node was configured alone exactly if it is the only voter, and where the votes are a
majority and no denial has a higher term, no denial reports a recent log exactly if no grant has
a higher term. -/
structure TallyReliable (myId term : Nat) (membership : Membership) (log : BufferedRaftLog)
    (responses : List (Nat × Option VoteResponse)) : Prop where
  alone : membership.isSingleNodeCluster = true ↔ membership.voters myId = []
  denials : MajorityGranted myId membership responses →
    EachAnswer false responses (fun response => response.term ≤ term) →
    (EachAnswer false responses (fun response => ¬ ReportsRecentLog log response) ↔
      EachAnswer true responses (fun response => response.term ≤ term))

/-! ## The count -/

variable {P : VoteResponse → Prop}

theorem eachAnswer_cons_none {granted : Bool} {peer : Nat} :
    EachAnswer granted ((peer, none) :: responses) P ↔ EachAnswer granted responses P := by
  simp [EachAnswer]

theorem eachAnswer_cons_some {granted : Bool} {peer : Nat} {response : VoteResponse} :
    EachAnswer granted ((peer, some response) :: responses) P ↔
      (response.voteGranted = granted → P response) ∧ EachAnswer granted responses P := by
  simp [EachAnswer]

/-- The count goes through if every denial has the term and an older log. -/
theorem countVotes_isOk_iff {lastLogIndex lastLogTerm : Nat} (succeed : Nat) :
    (∃ total, countVotes term lastLogIndex lastLogTerm succeed (responses.map Prod.snd) =
        .ok total) ↔
      EachAnswer false responses fun response => response.term ≤ term ∧
        ¬ isTargetLogMoreRecent lastLogIndex lastLogTerm response.lastLogIndex
          response.lastLogTerm = true := by
  induction responses generalizing succeed with
  | nil => simp [EachAnswer, countVotes]
  | cons p rest ih =>
    obtain ⟨peer, outcome⟩ := p
    cases outcome with
    | none =>
      rw [eachAnswer_cons_none, ← ih succeed]
      rfl
    | some response =>
      rw [eachAnswer_cons_some, List.map_cons]
      cases hgr : response.voteGranted with
      | true =>
        rw [countVotes, if_pos hgr, ih]
        simp
      | false =>
        rw [countVotes, if_neg (by simp [hgr])]
        split_ifs with hhi hre
        · simp [Nat.not_le_of_lt hhi]
        · simp [hre]
        · rw [ih]
          simp [Nat.le_of_not_lt hhi, hre]

theorem majorityGranted_iff (hgr : (grantingPeers responses).Nodup)
    (hvo : ∀ peer ∈ grantingPeers responses, peer ∈ membership.voters myId) :
    MajorityGranted myId membership responses ↔
      (membership.voters myId).length + 1 < 2 * ((grantingPeers responses).length + 1) := by
  have hse := membership.self_not_mem_voters myId
  have hwh : (insert myId (membership.voters myId).toFinset).card =
      (membership.voters myId).length + 1 := by
    rw [Finset.card_insert_of_notMem (by simpa using hse),
      List.toFinset_card_of_nodup (membership.voters_nodup myId)]
  have hpa : (insert myId (grantingPeers responses).toFinset).card =
      (grantingPeers responses).length + 1 := by
    rw [Finset.card_insert_of_notMem, List.toFinset_card_of_nodup hgr]
    rw [List.mem_toFinset]
    exact fun hin => hse (hvo myId hin)
  have hsub : insert myId (grantingPeers responses).toFinset ⊆
      insert myId (membership.voters myId).toFinset := by
    apply Finset.insert_subset_insert
    intro peer hpe
    rw [List.mem_toFinset] at hpe ⊢
    exact hvo peer hpe
  unfold MajorityGranted StrictMajority
  rw [hwh, hpa, and_iff_right hsub]

/-- The outcome of the round as the code computes it. -/
theorem broadcastVoteRequests_ok_iff :
    broadcastVoteRequests myId term membership log responses = .ok () ↔
      membership.isSingleNodeCluster = true ∨
        membership.voters myId ≠ [] ∧
          EachAnswer false responses (fun response =>
            response.term ≤ term ∧ ¬ ReportsRecentLog log response) ∧
          (membership.voters myId).length + 1 < 2 * ((grantingPeers responses).length + 1) := by
  unfold broadcastVoteRequests ReportsRecentLog
  by_cases hsi : membership.isSingleNodeCluster = true
  · simp [hsi]
  by_cases hvo : membership.voters myId = []
  · simp [hsi, hvo]
  rw [if_neg hsi, if_neg hvo, or_iff_right hsi, and_iff_right hvo,
    ← countVotes_isOk_iff 1]
  dsimp only
  cases hco : countVotes term (log.lastLogId.getD ⟨0, 0⟩).index
      (log.lastLogId.getD ⟨0, 0⟩).term 1 (responses.map Prod.snd) with
  | error fault => simp
  | ok total =>
    have hto := countVotes_ok hco
    simp only [askedPeers_voters, isMajority, decide_eq_true_eq]
    have hmaj : ((membership.voters myId).length + 1) / 2 < total ↔
        (membership.voters myId).length + 1 < 2 * ((grantingPeers responses).length + 1) := by
      omega
    rw [← hmaj]
    split_ifs with hwon
    · simp [hwon.2]
    · simp only [false_iff]
      rintro ⟨-, hlt⟩
      exact hwon ⟨hvo, hlt⟩

theorem forall_answer_iff :
    (∀ p ∈ responses, ∀ response ∈ p.2, P response) ↔
      EachAnswer false responses P ∧ EachAnswer true responses P := by
  constructor
  · exact fun h => ⟨fun p hp r hr _ => h p hp r hr, fun p hp r hr _ => h p hp r hr⟩
  · rintro ⟨hde, hgr⟩ p hp r hr
    cases hans : r.voteGranted with
    | false => exact hde p hp r hr hans
    | true => exact hgr p hp r hr hans

/-- A round over the current voters has the outcome that it should have exactly if the tally is
reliable, for every order in which the answers arrive. -/
theorem tally_exact_iff (hasked : (responses.map Prod.fst).Perm (roundPeers myId membership)) :
    (broadcastVoteRequests myId term membership log responses = .ok () ↔
        TallyWon myId term membership responses) ↔
      TallyReliable myId term membership log responses := by
  have hsub : (grantingPeers responses).Sublist (responses.map Prod.fst) :=
    List.filter_sublist.map Prod.fst
  have hpe : roundPeers myId membership =
      if membership.isSingleNodeCluster then [] else membership.voters myId := by
    rw [roundPeers, askedPeers_voters]
  have hnd : (roundPeers myId membership).Nodup := by
    rw [hpe]
    split_ifs
    · exact List.nodup_nil
    · exact membership.voters_nodup myId
  have hme : ∀ peer ∈ grantingPeers responses, peer ∈ membership.voters myId := by
    intro peer hpr
    have hin := hasked.mem_iff.mp (hsub.subset hpr)
    rw [hpe] at hin
    split_ifs at hin
    · cases hin
    · exact hin
  have hma := majorityGranted_iff ((hasked.nodup_iff.mpr hnd).sublist hsub) hme
  -- without another voter, and for a node that asks nobody, there are no answers
  have hno : membership.isSingleNodeCluster = true ∨ membership.voters myId = [] →
      responses = [] := by
    intro hca
    have hnil : roundPeers myId membership = [] := by
      rw [hpe]
      rcases hca with hsi | hvo
      · rw [if_pos hsi]
      · rw [hvo, ite_self]
    rw [hnil, List.perm_nil, List.map_eq_nil_iff] at hasked
    exact hasked
  rw [broadcastVoteRequests_ok_iff, TallyWon, forall_answer_iff, hma]
  by_cases hsi : membership.isSingleNodeCluster = true
  · obtain rfl := hno (.inl hsi)
    by_cases hvo : membership.voters myId = []
    · have hre : TallyReliable myId term membership log [] :=
        ⟨by simp [hsi, hvo], fun _ _ => by simp [EachAnswer]⟩
      simp [hsi, hvo, hre, EachAnswer, grantingPeers]
    · have hpos : 0 < (membership.voters myId).length := List.length_pos_iff.mpr hvo
      have hre : ¬ TallyReliable myId term membership log [] :=
        fun h => hvo (h.alone.mp hsi)
      simp only [hsi, true_or, true_iff, hre, iff_false, grantingPeers, List.filter_nil,
        List.map_nil, List.length_nil]
      rintro ⟨-, hlt⟩
      omega
  · by_cases hvo : membership.voters myId = []
    · obtain rfl := hno (.inr hvo)
      have hre : ¬ TallyReliable myId term membership log [] :=
        fun h => hsi (h.alone.mpr hvo)
      simp [hsi, hvo, hre, EachAnswer, grantingPeers]
    · rw [or_iff_right hsi, and_iff_right hvo]
      have hal : membership.isSingleNodeCluster = true ↔ membership.voters myId = [] :=
        iff_of_false hsi hvo
      have hsp : EachAnswer false responses (fun response =>
            response.term ≤ term ∧ ¬ ReportsRecentLog log response) ↔
          EachAnswer false responses (fun response => response.term ≤ term) ∧
            EachAnswer false responses (fun response => ¬ ReportsRecentLog log response) := by
        constructor
        · intro h
          exact ⟨fun p hp r hr hd => (h p hp r hr hd).1, fun p hp r hr hd => (h p hp r hr hd).2⟩
        · exact fun h p hp r hr hd => ⟨h.1 p hp r hr hd, h.2 p hp r hr hd⟩
      rw [hsp]
      constructor
      · refine fun hex => ⟨hal, fun hgr hte => ?_⟩
        rw [hma] at hgr
        simpa [hte, hgr] using hex
      · rintro ⟨-, hde⟩
        rw [hma] at hde
        constructor
        · rintro ⟨⟨hte, hlo⟩, hgr⟩
          exact ⟨⟨hte, (hde hgr hte).mp hlo⟩, hgr⟩
        · rintro ⟨⟨hte, hgn⟩, hgr⟩
          exact ⟨⟨hte, (hde hgr hte).mpr hgn⟩, hgr⟩

/-- One of two peers grants its vote and the other one does not answer. -/
theorem tally_exact_with_missing_answer :
    (broadcastVoteRequests 1 2 .trio (.new 0 [] none) [(3, none), (2, some ⟨1, true, 0, 0⟩)] =
        .ok () ↔ TallyWon 1 2 .trio [(3, none), (2, some ⟨1, true, 0, 0⟩)]) ∧
      TallyWon 1 2 .trio [(3, none), (2, some ⟨1, true, 0, 0⟩)] := by
  refine ⟨(tally_exact_iff (by decide +kernel)).mpr ⟨by decide +kernel, fun _ _ => ?_⟩,
    by decide +kernel⟩
  simp [EachAnswer]

/-- A node that was configured alone wins in its cluster of three without a vote. A candidate with
two of three votes loses, because the third voter, which voted for itself, has a log of the same
length. -/
theorem tally_wrong_when_grown_or_denied :
    (broadcastVoteRequests 1 2 { Membership.trio with initialClusterSize := 1 }
        (.new 0 [] none) [] = .ok () ∧
      ¬ TallyWon 1 2 { Membership.trio with initialClusterSize := 1 } []) ∧
    broadcastVoteRequests 1 2 .trio (.new 0 [] none)
        [(2, some ⟨1, true, 0, 0⟩), (3, some ⟨2, false, 0, 0⟩)] = .error (.logConflict 0 0 0) ∧
      TallyWon 1 2 .trio [(2, some ⟨1, true, 0, 0⟩), (3, some ⟨2, false, 0, 0⟩)] := by
  refine ⟨⟨?_, ?_⟩, ?_, ?_⟩
  · decide +kernel
  · decide +kernel
  · decide +kernel
  · decide +kernel

end DEngine.Raft

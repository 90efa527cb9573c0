import DEngine.Library.History
import DEngine.Library.Median
import DEngine.Raft.StepEffects

/-!
# Commits by quorum

A leader commits the median of its own last index and the acknowledged indexes of
its voters. The median speaks for a majority of the voters when enough of them have
acknowledged something: a voter without an acknowledgement is missing from the list
instead of standing in it with zero. A new leader that has heard from nobody takes
the median of its own last index alone.
-/

namespace DEngine.Raft

open Library Library.Handler Storage Replication

variable {myId : Nat} {s t u : Node myId} {l : Label} {p : Permit}

/-! ## Acknowledgements of a leadership -/

def Action.isEntry : Action → Bool
  | .enteredLeader _ => true
  | _ => false

/-- What the node did since it last entered the leader role. -/
def sinceEntry (journal : List Action) : List Action := journal.takeWhile fun a => !a.isEntry

/-- The action takes over an acknowledgement of the peer up to the index or further. -/
def Action.acknowledges (index peer : Nat) : Action → Bool
  | .acknowledged by' upTo => decide (by' = peer ∧ index ≤ upTo)
  | _ => false

/-- The peer has acknowledged the index in this leadership. -/
def acked (journal : List Action) (index peer : Nat) : Bool :=
  (sinceEntry journal).any (Action.acknowledges index peer)

/-- A calculated commit index is held by more than half of the voters: by the leader, if its
log reaches it, and by the voters that have acknowledged it in this leadership. -/
def QuorumHeld : Action → List Action → Prop
  | .quorum index lastEntryId totalVoters voters, earlier =>
    2 ≤ totalVoters → totalVoters < 2 * ((if index ≤ lastEntryId then 1 else 0) +
      (voters.filter (acked earlier index)).length)
  | _, _ => True

variable {a : Action} {journal : List Action}

theorem mem_sinceEntry_cons {b : Action} (hb : b.isEntry = false) :
    a ∈ sinceEntry (b :: journal) ↔ a = b ∨ a ∈ sinceEntry journal := by
  rw [sinceEntry, List.takeWhile_cons_of_pos (by simp [hb]), List.mem_cons]
  rfl

theorem mem_sinceEntry_append {done : List Action}
    (hdn : ∀ b ∈ done, b.isEntry = false) (ha : a ∈ sinceEntry journal) :
    a ∈ sinceEntry (done ++ journal) := by
  induction done with
  | nil => exact ha
  | cons b rest ih =>
    rw [List.cons_append, mem_sinceEntry_cons (hdn b List.mem_cons_self)]
    exact .inr (ih fun c hc => hdn c (List.mem_cons_of_mem b hc))

variable {index peer : Nat}

theorem acked_of_mem {upTo : Nat} (hle : index ≤ upTo)
    (hmem : .acknowledged peer upTo ∈ sinceEntry journal) : acked journal index peer = true :=
  List.any_eq_true.mpr ⟨_, hmem, decide_eq_true ⟨rfl, hle⟩⟩

/-- Every acknowledged index of a leader's ledger was acknowledged in this leadership. -/
structure Node.Backed (s : Node myId) : Prop where
  held : Justified QuorumHeld s.journal
  backed : s.role = .leader → ∀ peer index, s.leader.matchIndex[peer]? = some index →
    .acknowledged peer index ∈ sinceEntry s.journal

/-! ## The median -/

/-- The cached voters are voters of the membership, and so many of them have acknowledged
something that the upper half of those and the leader is a majority. -/
def EnoughAcks (membership : Membership) (ledger : LeaderState myId) : Prop :=
  (∀ target ∈ ledger.clusterMetadata.replicationTargets, target.2.role ≠ .learner →
      target.1 ∈ membership.voters myId) ∧
    ledger.clusterMetadata.totalVoters < 2 * ((ledger.matchedIds.length + 1) / 2 + 1)

instance (membership : Membership) (ledger : LeaderState myId) :
    Decidable (EnoughAcks membership ledger) :=
  inferInstanceAs (Decidable ((∀ target ∈ _, _ → _) ∧ _))

variable {newCommit : Nat}

/-- With the largest index that strictly more than half of the acknowledged indexes and the
own last index reach, the calculation returns that index if it is not behind the commit index
and its entry has the current term, and nothing otherwise. -/
theorem majority_index_law (log : BufferedRaftLog) (currentTerm commitIndex : Nat)
    (peerMatchedIds : List Nat) :
    let ids := peerMatchedIds ++ [log.lastEntryId]
    ∃ majority, IsGreatest {n | ids.length < 2 * ids.countP fun id => decide (n ≤ id)} majority ∧
      log.calculateMajorityMatchedIndex currentTerm commitIndex peerMatchedIds =
        if commitIndex ≤ majority ∧ (log.entry majority).map Entry.term = some currentTerm then
          some majority
        else none := by
  intro ids
  have hlen : ids.length / 2 < ids.length := by
    have : ids.length = peerMatchedIds.length + 1 := by simp [ids]
    omega
  have hset : {n | ids.length < 2 * ids.countP fun id => decide (n ≤ id)} =
      {n | ids.length / 2 < ids.countP fun id => decide (n ≤ id)} := by
    ext n
    simp only [Set.mem_ofPred_eq]
    omega
  refine ⟨_, hset ▸ isGreatest_insertionSort ids hlen 0, ?_⟩
  unfold BufferedRaftLog.calculateMajorityMatchedIndex
  rw [← List.length_insertionSort (· ≥ ·) ids]
  dsimp only [ids]
  generalize ((peerMatchedIds ++ [log.lastEntryId]).insertionSort (· ≥ ·)).getD _ 0 = majority
  by_cases hlt : majority < commitIndex
  · rw [if_pos hlt, if_neg fun h => absurd h.1 (not_le.mpr hlt)]
  · cases he : log.entry majority <;> simp [hlt, not_lt.mp hlt]

/-- The calculated index is the median of the acknowledged indexes and the own last index. -/
theorem median_of_calculateNewCommitIndex (h : calculateNewCommitIndex s = some newCommit) :
    newCommit = ((s.leader.matchedIds ++ [s.log.lastEntryId]).insertionSort (· ≥ ·)).getD
      ((s.leader.matchedIds.length + 1) / 2) 0 := by
  unfold calculateNewCommitIndex BufferedRaftLog.calculateMajorityMatchedIndex at h
  dsimp only at h
  split at h
  · rename_i majority hmaj
    split_ifs at h
    cases h
    split_ifs at hmaj
    split at hmaj
    · split_ifs at hmaj
      cases hmaj
      rw [List.length_insertionSort, List.length_append, List.length_singleton]
    · cases hmaj
  · cases h

/-- The calculated index is held by the upper half of the list. -/
theorem lt_countP_of_calculateNewCommitIndex (h : calculateNewCommitIndex s = some newCommit) :
    (s.leader.matchedIds.length + 1) / 2 <
      (s.leader.matchedIds.countP fun index => decide (newCommit ≤ index)) +
        if newCommit ≤ s.log.lastEntryId then 1 else 0 := by
  have hlen : (s.leader.matchedIds.length + 1) / 2 <
      (s.leader.matchedIds ++ [s.log.lastEntryId]).length := by
    rw [List.length_append, List.length_singleton]
    omega
  have hlt := lt_countP_of_insertionSort _ hlen 0
  rw [← median_of_calculateNewCommitIndex h, List.countP_append, List.countP_singleton] at hlt
  simpa using hlt

/-- The voters of a ledger that hold an index are among the given ones: each is counted once. -/
theorem LeaderState.countP_matchedIds_le {ledger : LeaderState myId}
    {voters : List Nat} {heard : Nat → Bool}
    (h : ∀ peer upTo, ledger.matchIndex[peer]? = some upTo →
      ledger.clusterMetadata.isVoter peer = true → index ≤ upTo →
        peer ∈ voters ∧ heard peer = true) :
    (ledger.matchedIds.countP fun upTo => decide (index ≤ upTo)) ≤
      (voters.filter heard).length := by
  let hol := ((ledger.matchIndex.toList.filter fun entry =>
    ledger.clusterMetadata.isVoter entry.1).filter fun entry =>
      decide (index ≤ entry.2)).map Prod.fst
  have hco : (ledger.matchedIds.countP fun upTo => decide (index ≤ upTo)) =
      hol.length := by
    rw [LeaderState.matchedIds, List.countP_map, List.countP_eq_length_filter, List.length_map]
    rfl
  have hno : hol.Nodup := by
    have hke : (ledger.matchIndex.toList.map Prod.fst).Nodup := by
      rw [List.nodup_iff_pairwise_ne, List.pairwise_map]
      exact (OrderedMap.toList_pairwise ledger.matchIndex).imp fun h => Nat.ne_of_lt h
    exact hke.sublist ((List.filter_sublist.trans List.filter_sublist).map Prod.fst)
  rw [hco]
  refine (List.subperm_of_subset hno ?_).length_le
  intro peer hpe
  obtain ⟨⟨_, upTo⟩, hen, rfl⟩ := List.mem_map.mp hpe
  obtain ⟨hen, hle⟩ := List.mem_filter.mp hen
  obtain ⟨hen, hvo⟩ := List.mem_filter.mp hen
  exact List.mem_filter.mpr
    (h _ upTo ((OrderedMap.mem_toList_iff _ _ _).mp hen) hvo (of_decide_eq_true hle))

/-- The voters of the ledger that hold an index have acknowledged it. -/
theorem countP_matchedIds_le (index : Nat) (hs : s.Backed) (hro : s.role = .leader)
    (hta : ∀ target ∈ s.leader.clusterMetadata.replicationTargets,
      target.2.role ≠ .learner → target.1 ∈ s.membership.voters myId) :
    (s.leader.matchedIds.countP fun upTo => decide (index ≤ upTo)) ≤
      ((s.membership.voters myId).filter (acked s.journal index)).length := by
  refine LeaderState.countP_matchedIds_le fun peer upTo hen hvo hle => ⟨?_, ?_⟩
  · obtain ⟨target, htgt, hma⟩ := List.any_eq_true.mp hvo
    obtain ⟨hid, hlr⟩ := of_decide_eq_true hma
    exact hid ▸ hta target htgt hlr
  · exact acked_of_mem hle (hs.backed hro _ _ hen)

/-- With enough acknowledgements the calculated index is held by a quorum. -/
theorem quorumHeld_of_enoughAcks (hs : s.Backed) (hro : s.role = .leader)
    (hen : EnoughAcks s.membership s.leader) (h : calculateNewCommitIndex s = some newCommit) :
    QuorumHeld (.quorum newCommit s.log.lastEntryId s.leader.clusterMetadata.totalVoters
      (s.membership.voters myId)) s.journal := by
  intro _
  obtain ⟨hta, hmaj⟩ := hen
  have hup := lt_countP_of_calculateNewCommitIndex h
  have hho := countP_matchedIds_le newCommit hs hro hta
  omega

/-! ## Handlers that count -/

theorem Permit.Allows.not_isEntry (h : p.Allows a) : a.isEntry = false := by
  cases a with
  | enteredLeader => cases h
  | _ => rfl

theorem Permit.Allows.quorumHeld (h : p.Allows a) (hco : ¬ p.counts)
    (earlier : List Action) : QuorumHeld a earlier := by
  cases a with
  | quorum => exact absurd h hco
  | _ => trivial

/-- A handler that does not count keeps the ledger backed. -/
theorem Calm.backed (h : Calm p s t) (hco : ¬ p.counts) (hs : s.Backed) : t.Backed := by
  obtain ⟨done, hjo, hdn⟩ := h.acts
  constructor
  · rw [hjo]
    exact hs.held.append fun a ha before _ => (hdn a ha).quorumHeld hco before
  · intro hro peer index hidx
    rw [h.matched hco] at hidx
    rw [hjo]
    apply mem_sinceEntry_append fun a ha => (hdn a ha).not_isEntry
    exact hs.backed (h.role_eq.symm.trans hro) peer index hidx

/-- An action that neither enters the role nor needs a quorum is added to the journal. -/
theorem Node.Backed.recorded (hs : s.Backed) (hen : a.isEntry = false)
    (hhe : QuorumHeld a s.journal) : (s.recorded a).Backed where
  held := justified_cons.mpr ⟨hhe, hs.held⟩
  backed := fun hro peer index hidx =>
    (mem_sinceEntry_cons hen).mpr (.inr (hs.backed hro peer index hidx))

theorem calm_commitTo (hro : s.role = .leader) :
    Ensures (commitTo newCommit) s fun _ t => Calm (.quiet 0) s t :=
  ensures_calm (does_commitTo (fun _ => trivial) hro)

theorem backed_commitByQuorum (hs : s.Backed) (hro : s.role = .leader)
    (hen : EnoughAcks s.membership s.leader) : Ensures commitByQuorum s fun _ t => t.Backed := by
  unfold commitByQuorum
  rw [ensures_get_bind]
  cases hnew : calculateNewCommitIndex s with
  | none => exact hs
  | some newCommit =>
    have hrec := hs.recorded (a := .quorum newCommit _ _ _) rfl
      (quorumHeld_of_enoughAcks hs hro hen hnew)
    dsimp only
    rw [ensures_record_bind]
    exact Ensures.mono (calm_commitTo hro) fun _ t ht => ht.backed id hrec

theorem backed_handleLogFlushed (hs : s.Backed) (hro : s.role = .leader)
    (hen : s.leader.clusterMetadata.singleVoter = false → EnoughAcks s.membership s.leader) :
    Ensures handleLogFlushed s fun _ t => t.Backed := by
  unfold handleLogFlushed
  rw [ensures_get_bind]
  split_ifs with hsi
  · exact (calm_commitTo hro).mono fun _ t ht => ht.backed id hs
  · exact hs
  · exact backed_commitByQuorum hs hro (hen (Bool.eq_false_iff.mpr hsi))

namespace LeaderState

variable {l : LeaderState myId}

theorem matchIndex_updateMatchIndex {newMatchId q : Nat}
    (h : (l.updateMatchIndex peer newMatchId).matchIndex[q]? = some index) :
    l.matchIndex[q]? = some index ∨ q = peer ∧ index = newMatchId := by
  unfold updateMatchIndex at h
  split_ifs at h with hlt
  · dsimp only at h
    rw [OrderedMap.getElem?_insert_eq] at h
    split_ifs at h with hq
    · cases h
      exact .inr ⟨hq, rfl⟩
    · exact .inl h
  · exact .inl h

/-- What a peer update adds to the acknowledged indexes. -/
theorem matchIndex_updatePeerIndex {q : Nat} {update : PeerUpdate}
    (h : (l.updatePeerIndex peer update).matchIndex[q]? = some index) :
    l.matchIndex[q]? = some index ∨ q = peer ∧ update.matchIndex = some index := by
  unfold updatePeerIndex at h
  cases hma : update.matchIndex with
  | none =>
    simp only [hma] at h
    split_ifs at h <;> exact .inl h
  | some =>
    simp only [hma] at h
    rcases matchIndex_updateMatchIndex h with hold | ⟨hq, rfl⟩
    · split_ifs at hold <;> exact .inl hold
    · exact .inr ⟨hq, rfl⟩

end LeaderState

variable {env : Env}

theorem backed_applyPeerUpdate {followerId : Nat} {update : PeerUpdate}
    (hs : s.Backed) (hro : s.role = .leader)
    (hac : ∀ index, update.matchIndex = some index →
      .acknowledged followerId index ∈ sinceEntry s.journal)
    (hen : s.leader.clusterMetadata.isVoter followerId = true → update.success = true →
      EnoughAcks s.membership (s.leader.updatePeerIndex followerId update)) :
    Ensures (applyPeerUpdate env followerId update) s fun _ t => t.Backed := by
  let updated : Node myId := { s with leader := s.leader.updatePeerIndex followerId update }
  have hup : updated.Backed := by
    refine ⟨hs.held, fun _ peer index hidx => ?_⟩
    rcases LeaderState.matchIndex_updatePeerIndex hidx with hold | ⟨rfl, hnew⟩
    · exact hs.backed hro peer index hold
    · exact hac index hnew
  unfold applyPeerUpdate
  rw [ensures_get_bind, modifyLeader, ensures_modify_bind]
  split_ifs with hvo hsu
  · exact backed_commitByQuorum hup hro (hen hvo hsu)
  · exact hup
  · exact (ensures_calm (p := .quiet 0) does_checkLearnerProgress).mono fun _ t ht =>
      ht.backed id hup

namespace Node

/-- The ledger from which the commit index is calculated when the event is handled, with the
acknowledgement of the event taken over. -/
def ledgerToCount (s : Node myId) : InternalEvent → Option (LeaderState myId)
  | .logFlushed _ => if s.leader.clusterMetadata.singleVoter then none else some s.leader
  | .appendResult followerId (some response) =>
    match response.result with
    | some (.success lastMatch) =>
      match handleSuccessResponse response.term lastMatch s.currentTerm with
      | .ok update =>
        if response.term = s.currentTerm ∧ s.leader.clusterMetadata.isVoter followerId then
          some (s.leader.updatePeerIndex followerId update)
        else none
      | .error _ => none
    | _ => none
  | _ => none

/-- Whenever a leader calculates the commit index, enough voters have acknowledged something. -/
def QuorumCounted (s : Node myId) (l : Label) : Prop :=
  s.role = .leader → ∀ event ∈ s.handledInternal l, ∀ ledger ∈ s.ledgerToCount event,
    EnoughAcks s.membership ledger
deriving Decidable

end Node

theorem backed_handleAppendResult {followerId : Nat}
    {result : Option AppendEntriesResponse} (hs : s.Backed) (hro : s.role = .leader)
    (hen : ∀ ledger ∈ s.ledgerToCount (.appendResult followerId result),
      EnoughAcks s.membership ledger) :
    Ensures (handleAppendResult env followerId result) s fun _ t => t.Backed := by
  have hdw : ∀ term, s.currentTerm < term →
      Ensures (stepDownTo env term) s fun _ t => t.Backed := fun term hlt =>
    (ensures_calm (p := .quiet term) (does_stepDownTo hlt le_rfl)).mono fun _ t ht =>
      ht.backed id hs
  refine ensures_handleAppendResult hs (fun _ _ term hlt _ => hdw term hlt) ?_ ?_
  · rintro response rfl lastMatch update hte hres hupd _
    refine backed_applyPeerUpdate (hs.recorded rfl trivial) hro ?_ ?_
    · intro index hidx
      rw [hidx]
      exact (mem_sinceEntry_cons rfl).mpr (.inl rfl)
    · intro hvo _
      apply hen
      simp only [Node.ledgerToCount, hres, hupd]
      rw [if_pos ⟨hte, hvo⟩]
      rfl
  · intro response _ update _ hno hfa
    exact backed_applyPeerUpdate hs hro (by simp [hno]) (by simp [hfa])

/-! ## Runs -/

/-- The events that make a leader count keep the ledger backed. -/
theorem backed_handleInternalEvent {event : InternalEvent} (hs : s.Backed)
    (hro : s.role = .leader) (hco : event.counts = true)
    (hen : ∀ ledger ∈ s.ledgerToCount event, EnoughAcks s.membership ledger) :
    Ensures (handleInternalEvent env event) s fun _ t => t.Backed := by
  cases event with
  | logFlushed =>
    unfold handleInternalEvent
    rw [ensures_get_bind, if_pos hro]
    apply backed_handleLogFlushed hs hro
    intro hsi
    apply hen
    rw [Node.ledgerToCount, hsi]
    rfl
  | appendResult =>
    unfold handleInternalEvent
    rw [ensures_get_bind, if_pos hro]
    exact ensures_logged (backed_handleAppendResult hs hro hen)
  | _ => cases hco

/-- A step that counts keeps the ledger backed. -/
theorem backed_of_counts (hst : s.step l = some t) (hco : s.counts l = true)
    (hen : s.QuorumCounted l) (hs : s.Backed) : t.Backed := by
  cases l with
  | internalEvent env =>
    obtain ⟨hro, hev⟩ := Bool.and_eq_true_iff.mp hco
    have hld : s.role = .leader := of_decide_eq_true hro
    simp only [Node.step] at hst
    split at hst
    · rename_i event rest _ hbuf
      have hnx : s.nextInternal = some event := by
        rw [Node.nextInternal, hbuf, List.head?_cons]
      rw [hnx] at hev
      cases hst
      have hha : Ensures (handleInternalEvent env event) (s.popped rest) fun _ t =>
          t.Backed := by
        refine backed_handleInternalEvent ⟨hs.held, hs.backed⟩ hld hev ?_
        exact hen hld event hnx
      exact (calm_phase (p := .quiet 0)).backed id hha
    · cases hst
  | _ => cases hco

theorem Node.Backed.inRound (hs : s.Backed) (env : Env) : (s.inRound env).Backed := by
  have hvo : (s.withHardState (some (s.currentTerm + 1))
      (some ⟨myId, s.currentTerm + 1, false⟩)).saved.Backed := ⟨hs.held, hs.backed⟩
  exact (hvo.recorded (a := .selfVote _) rfl trivial).recorded (a := .voteRound _ _ _) rfl trivial

theorem backed_of_step (hst : s.step l = some t) (hen : s.QuorumCounted l)
    (hs : s.Backed) : t.Backed := by
  cases stepEffect_of_step hst with
  | calm h =>
    by_cases hco : s.counts l = true
    · exact backed_of_counts hst hco hen hs
    · exact h.backed hco hs
  | turned v hv h =>
    refine h.backed id ⟨hv.journal_eq ▸ hs.held, fun hrl peer index hidx => ?_⟩
    obtain ⟨hld, hma, -⟩ := hv.leads hrl
    rw [hv.journal_eq]
    exact hs.backed hld peer index (hma ▸ hidx)
  | entered rest hbuf hrl h =>
    refine h.backed id ⟨justified_cons.mpr ⟨trivial, hs.held⟩, fun _ peer index hidx => ?_⟩
    cases hidx
  | unwritten hro h => exact h.backed id hs
  | won env hro hans hwon h =>
    have hro := hs.inRound env
    exact h.backed id ⟨hro.held, hro.backed⟩
  | lost env hro incoming h => exact h.backed id (hs.inRound env)
  | ended rest hbuf ht =>
    subst ht
    exact ⟨hs.held, hs.backed⟩

theorem Node.Init.backed (h : s.Init) : s.Backed := by
  obtain ⟨config, role, shared, diskLen, loaded, boundary, membership, rfl, -⟩ := h
  exact ⟨justified_nil, fun _ peer index hidx => by cases hidx⟩

/-- In every run in which enough voters have acknowledged something whenever the commit index
is calculated, each calculated index is held by more than half of the voters: by the leader and
by the voters that acknowledged it in this leadership. -/
theorem quorum_holds_calculated_index (hs : (raftLoop myId).Reach Node.QuorumCounted s) :
    ∀ index lastEntryId totalVoters voters earlier,
      .quorum index lastEntryId totalVoters voters :: earlier <:+ s.journal → 2 ≤ totalVoters →
      totalVoters < 2 * ((if index ≤ lastEntryId then 1 else 0) +
        (voters.filter (acked earlier index)).length) := by
  have hba : s.Backed := by
    apply hs.invariant (fun _ hin => Node.Init.backed hin)
    exact fun u l v hu hen hst => backed_of_step hst hen hu
  exact fun index lastEntryId totalVoters voters earlier hqu =>
    hba.held _ earlier hqu

/-- A new leader of three voters whose no-op, at index 1, is acknowledged by one peer. -/
def firstAckRun : List Label :=
  winningRun ++ [.recvInternal, .internalEvent {}] ++ restOfRound ++
    [.push (.appendResult 2 (some (.success 2 2 (some ⟨2, 1⟩)))), .recvInternal,
      .internalEvent {}]

theorem first_ack_makes_quorum :
    ∃ s : Node 1, (raftLoop 1).Reach Node.QuorumCounted s ∧ s.commitIndex = 1 ∧
      ∃ earlier, .quorum 1 1 3 [2, 3] :: earlier <:+ s.journal ∧
        3 < 2 * (1 + ([2, 3].filter (acked earlier 1)).length) := by
  have hre : ∃ s : Node 1, (raftLoop 1).Reach Node.QuorumCounted s ∧
      (s.commitIndex = 1 ∧ .quorum 1 1 3 [2, 3] ∈ s.journal) :=
    Machine.exists_reach_of_runIf firstAckRun (Node.init_firstStart .small .trio)
      (by decide +kernel)
  obtain ⟨s, hs, hco, hqu⟩ := hre
  obtain ⟨later, earlier, hjo⟩ := List.append_of_mem hqu
  have hsu : .quorum 1 1 3 [2, 3] :: earlier <:+ s.journal := ⟨later, hjo.symm⟩
  exact ⟨s, hs, hco, earlier, hsu,
    quorum_holds_calculated_index hs 1 1 3 [2, 3] earlier hsu (by decide)⟩

/-- A new leader of three voters whose no-op is flushed before anybody acknowledges it. -/
def flushedAloneRun : List Label :=
  winningRun ++ [.recvInternal, .internalEvent {}] ++ restOfRound ++
    [.push (.logFlushed 1), .recvInternal, .internalEvent {}]

theorem flushed_noop_commits_alone :
    ∃ s : Node 1, (raftLoop 1).Reach (fun _ _ => True) s ∧ s.commitIndex = 1 ∧
      ∃ earlier, .quorum 1 1 3 [2, 3] :: earlier <:+ s.journal ∧
        ¬ 3 < 2 * (1 + ([2, 3].filter (acked earlier 1)).length) := by
  have hre : ∃ s : Node 1, (raftLoop 1).Reach (fun _ _ => True) s ∧
      (s.commitIndex = 1 ∧ s.journal.head? = some (.quorum 1 1 3 [2, 3]) ∧
        ¬ 3 < 2 * (1 + ([2, 3].filter (acked s.journal.tail 1)).length)) :=
    Machine.exists_reach_of_runIf flushedAloneRun (Node.init_firstStart .small .trio)
      (by decide +kernel)
  obtain ⟨s, hs, hco, hqu, hal⟩ := hre
  obtain ⟨earlier, hjo⟩ := List.head?_eq_some_iff.mp hqu
  rw [hjo, List.tail_cons] at hal
  exact ⟨s, hs, hco, earlier, hjo ▸ List.suffix_rfl, hal⟩

end DEngine.Raft

import DEngine.Client.SessionEffects
import DEngine.Raft.QuorumCommit

/-!
# Reads and leases rest on a quorum

A linearizable read may be answered while the lease holds, or when a majority has
acknowledged a request that was sent behind the arrival of the read. A renewal of
the lease reaches back to the time of the last request, so a majority has to have
acknowledged a request of that time or later. The acknowledged indexes say neither
when a request was sent nor which one a peer has answered.
-/

namespace DEngine.Client

open Library Library.Handler Storage Replication Raft

variable {myId : Nat}

/-! ## Majorities of acknowledgements -/

/-- The peer has acknowledged a request of the term that was sent at the given time or later. -/
def heardSince (acks : List Ack) (term since peer : Nat) : Bool :=
  acks.any fun ack => decide (ack.peer = peer ∧ ack.term = term ∧ since ≤ ack.sentAt)

/-- The leader and the voters heard since the given time are more than half of all voters. -/
def FreshQuorum (voters : List Nat) (acks : List Ack) (term since : Nat) : Prop :=
  voters.length + 1 < 2 * (voters.countP (heardSince acks term since) + 1)

instance (voters : List Nat) (acks : List Ack) (term since : Nat) :
    Decidable (FreshQuorum voters acks term since) :=
  inferInstanceAs (Decidable (_ < _))

/-- The state machine had reached the index of the read, and the leader was the only voter, held
a valid lease or had heard from a majority since the read arrived. -/
def ServedRead.Safe (r : ServedRead) : Prop :=
  r.readIndex ≤ r.lastApplied ∧
    (r.singleVoter = true ∨ r.leaseValid = true ∨
      FreshQuorum r.voters r.acks r.term r.request.arrived)
deriving Decidable

/-- A majority has answered requests from the time that the lease counts from. -/
def Renewal.Fresh (r : Renewal) : Prop := FreshQuorum r.voters r.acks r.term r.sendTs
deriving Decidable

/-! ## The ledger behind an acknowledgement -/

/-- What the commit of a quorum leaves alone. -/
structure CommitsOnly (s t : Node myId) : Prop where
  role : t.role = s.role
  term : t.currentTerm = s.currentTerm
  commit : s.commitIndex ≤ t.commitIndex
  metadata : t.leader.clusterMetadata = s.leader.clusterMetadata
  matched : t.leader.matchIndex = s.leader.matchIndex

namespace CommitsOnly

variable {s t : Node myId}

instance : Std.Refl (CommitsOnly : Node myId → Node myId → Prop) :=
  ⟨fun _ => ⟨rfl, rfl, le_rfl, rfl, rfl⟩⟩

instance : IsTrans (Node myId) CommitsOnly :=
  ⟨fun _ _ _ hst htu => ⟨htu.role.trans hst.role, htu.term.trans hst.term,
    hst.commit.trans htu.commit, htu.metadata.trans hst.metadata, htu.matched.trans hst.matched⟩⟩

theorem commitTo (newCommit : Nat) (hro : s.role = .leader) :
    Ensures (commitTo newCommit) s fun _ t => CommitsOnly s t := by
  unfold Raft.commitTo updateCommitIndexWithSignal drainCommitActions
  rw [ensures_get_bind]
  refine Ensures.chain (R := CommitsOnly) ?_ fun _ t _ => ?_
  · refine Ensures.chain (R := CommitsOnly) ?_ fun _ t _ => ⟨rfl, rfl, le_rfl, rfl, rfl⟩
    unfold updateCommitIndex
    rw [ensures_modify]
    split_ifs with hke
    · exact Std.Refl.refl s
    · refine ⟨rfl, rfl, ?_, rfl, rfl⟩
      change s.commitIndex ≤ newCommit
      have := not_and.mp hke hro
      omega
  · rw [ensures_get_bind]
    refine Ensures.chain (R := CommitsOnly) ⟨rfl, rfl, le_rfl, rfl, rfl⟩ fun _ u _ => ?_
    refine Ensures.each fun p _ v _ => ?_
    cases p.2 with
    | leaderNoop => exact ⟨rfl, rfl, le_rfl, rfl, rfl⟩
    | nodeJoin => exact Std.Refl.refl v

theorem commitByQuorum (hro : s.role = .leader) :
    Ensures commitByQuorum s fun _ t => CommitsOnly s t := by
  unfold Raft.commitByQuorum
  rw [ensures_get_bind]
  split
  · refine Ensures.chain (R := CommitsOnly) ⟨rfl, rfl, le_rfl, rfl, rfl⟩ fun _ t ht => ?_
    exact commitTo _ (ht.role.trans hro)
  · exact Std.Refl.refl s

end CommitsOnly

variable {followerId : Nat} {result : Option AppendEntriesResponse} {ledger : LeaderState myId}

/-- The ledger is counted behind a success of a voter in the leader's own term. -/
theorem ledgerToCount_cases {s : Node myId}
    (h : s.ledgerToCount (.appendResult followerId result) = some ledger) :
    ∃ response lastMatch update, result = some response ∧
      response.result = some (.success lastMatch) ∧ response.term = s.currentTerm ∧
      handleSuccessResponse response.term lastMatch s.currentTerm = .ok update ∧
      s.leader.clusterMetadata.isVoter followerId = true ∧
      ledger = s.leader.updatePeerIndex followerId update := by
  cases result with
  | none => cases h
  | some response =>
    unfold Node.ledgerToCount at h
    dsimp only at h
    split at h
    · rename_i lastMatch hres
      split at h
      · rename_i update hupd
        split_ifs at h with hco
        cases h
        exact ⟨response, lastMatch, update, rfl, hres, hco.1, hupd, hco.2, rfl⟩
      · cases h
    · cases h

theorem exists_ledgerToCount {s : Node myId} (hack : acknowledges s.currentTerm result = true)
    (hvo : s.leader.clusterMetadata.isVoter followerId = true) :
    ∃ ledger, s.ledgerToCount (.appendResult followerId result) = some ledger := by
  cases result with
  | none => cases hack
  | some response =>
    unfold acknowledges at hack
    dsimp only at hack
    split at hack
    · rename_i lastMatch hres
      have hte : response.term = s.currentTerm := of_decide_eq_true hack
      unfold Node.ledgerToCount handleSuccessResponse
      simp only [hres, hte, lt_irrefl, if_false, hvo, and_self, if_true]
      exact ⟨_, rfl⟩
    · cases hack

variable {env : Env}

/-- A success of a voter is taken over into the ledger from which the quorum is counted. -/
theorem handleAppendResult_counts {s : Node myId} (hro : s.role = .leader)
    (hld : s.ledgerToCount (.appendResult followerId result) = some ledger) :
    Ensures (Raft.handleAppendResult env followerId result) s fun _ t =>
      CommitsOnly { s with leader := ledger } t := by
  obtain ⟨response, lastMatch, update, rfl, hres, hte, hupd, hvo, rfl⟩ :=
    ledgerToCount_cases hld
  have hsu : update.success = true := by
    unfold handleSuccessResponse at hupd
    split_ifs at hupd
    cases hupd
    rfl
  unfold Raft.handleAppendResult applyPeerUpdate
  rw [ensures_get_bind]
  dsimp only
  rw [if_neg (by omega), if_neg (by omega), hres]
  dsimp only
  rw [hupd]
  dsimp only
  rw [ensures_record_bind, ensures_get_bind, modifyLeader, ensures_modify_bind]
  simp only [Node.recorded, hvo, hsu, if_true]
  refine Ensures.mono (CommitsOnly.commitByQuorum hro) fun _ t ht => ?_
  exact ⟨ht.role, ht.term, ht.commit, ht.metadata, ht.matched⟩

/-- Handling an answer starts no round of requests. -/
theorem onNode_handleAppendResult {s : Session myId} (hro : s.node.role = .leader) :
    Ensures (onNode (Raft.handleAppendResult env followerId result)) s fun _ t =>
      ∃ sent, t = { s with
        node := (Raft.handleAppendResult env followerId result s.node).2, sent := sent } := by
  let permit : Permit := { Permit.quiet ((result.map largestTerm).getD 0) with counts := True }
  have hca : Ensures (Raft.handleAppendResult env followerId result) s.node fun _ t =>
      Calm permit s.node t := by
    refine ensures_calm (does_handleAppendResult (fun _ => trivial) hro trivial
      (fun _ _ _ _ => trivial) ?_)
    rintro response rfl
    exact le_rfl
  obtain ⟨done, hjo, hdn⟩ := hca.acts
  have hqu : ¬ done.any startsRound = true := by
    rw [List.any_eq_true]
    rintro ⟨a, ha, hst⟩
    have hal := hdn a ha
    cases a with
    | generated => exact hal.1
    | _ => cases hst
  unfold Ensures onNode
  dsimp only
  rw [hjo, List.length_append, Nat.add_sub_cancel, List.take_left' rfl, if_neg hqu]
  exact ⟨_, rfl⟩

/-! ## A confirmed quorum -/

variable {s t u : Session myId}

/-- The deadline to which an acknowledgement renews the lease. -/
def Session.renewedDeadline (s : Session myId) : Nat := min (s.sendTs + s.leaseDurationMs) u64Max

section Confirmed

variable {P : ServedRead → Prop} {Q : Renewal → Prop}

/-- The lease is renewed to the deadline, or the deadline does not fit. -/
theorem updateLeaseTimestamp_cases (sendTs : Nat) :
    Ensures (updateLeaseTimestamp sendTs) s fun r t =>
      (∃ fault, r = .error fault ∧ t = s) ∨
        ∃ lease, ReadLease.renew s.node.currentTerm (min (sendTs + s.leaseDurationMs) u64Max) =
          .ok lease ∧ t = { s with lease := lease } := by
  unfold updateLeaseTimestamp
  rw [ensures_get_bind]
  split
  · rename_i lease hls
    exact .inr ⟨lease, hls, rfl⟩
  · rename_i fault hfa
    exact .inl ⟨fault, rfl, rfl⟩

theorem ensures_drainPendingLeaseReads_bind {α : Type} {k : Unit → SessionM myId α}
    {R : Except Fault α → Session myId → Prop} :
    Ensures (drainPendingLeaseReads >>= k) s R ↔
      Ensures (k ())
        { s with
          readReplies := (s.pendingLeaseReads.map PendingLeaseRead.sender).map
            (fun sender => (sender, .readResults)) ++ s.readReplies
          pendingLeaseReads := [] } R := Iff.rfl

theorem adds_confirmLeadership (hQ : Q ⟨s.sendTs, s.node.currentTerm, s.voters, s.acks⟩)
    (hP : ∀ lease, ReadLease.renew s.node.currentTerm s.renewedDeadline = .ok lease →
      ∀ p ∈ s.pendingReads.range 0 s.lastApplied, ∀ r ∈ p.2.requests,
        P (({ s with lease := lease } : Session myId).serve p.1 r)) :
    Ensures confirmLeadership s fun _ t => Adds P Q s t := by
  unfold confirmLeadership
  rw [ensures_get_bind]
  refine (updateLeaseTimestamp_cases s.sendTs).bind ?_ ?_
  · rintro fault t (⟨_, _, rfl⟩ | ⟨lease, _, rfl⟩)
    · exact Std.Refl.refl t
    · exact Adds.of_eq rfl rfl
  · rintro _ t (⟨_, hr, _⟩ | ⟨lease, hls, rfl⟩)
    · cases hr
    · rw [ensures_modify_bind, ensures_drainPendingLeaseReads_bind]
      refine Ensures.mono (keeps_servePendingReads (Q := Q) (hP lease hls)) fun _ u hu => ?_
      refine ⟨hu.served, fun r hr => ?_⟩
      rcases hu.renewals r hr with hco | hq
      · rcases List.mem_cons.mp hco with rfl | hold
        · exact .inr hQ
        · exact .inl hold
      · exact .inr hq

theorem adds_settleAcknowledgement {commitBefore : Nat}
    (h : ∀ u, SameReads s u → u.quorumConfirmed = true →
      Q ⟨u.sendTs, u.node.currentTerm, u.voters, u.acks⟩ ∧
        ∀ lease, ReadLease.renew u.node.currentTerm u.renewedDeadline = .ok lease →
          ∀ p ∈ u.pendingReads.range 0 u.lastApplied, ∀ r ∈ p.2.requests,
            P (({ u with lease := lease } : Session myId).serve p.1 r)) :
    Ensures (settleAcknowledgement commitBefore) s fun _ t => Adds P Q s t := by
  have hco : ∀ u, SameReads s u →
      Ensures (if s.quorumConfirmed then confirmLeadership else pure ()) u fun _ v =>
        Adds P Q u v := by
    intro u hu
    split_ifs with hqu
    · have hsa : u.quorumConfirmed = true := by
        rwa [Session.quorumConfirmed, hu.node]
      exact adds_confirmLeadership (h u hu hsa).1 (h u hu hsa).2
    · exact Std.Refl.refl u
  unfold settleAcknowledgement
  rw [ensures_get_bind]
  dsimp only
  by_cases hcom : commitBefore < s.node.commitIndex
  · rw [if_pos hcom]
    refine Ensures.bind (R := fun _ u => Adds P Q s u ∧ SameReads s u)
      ⟨adds_drainPendingClientWrites _, sameReads_drainPendingClientWrites _⟩
      (fun _ _ hu => hu.1) fun _ u hu => ?_
    exact Ensures.mono (hco u hu.2) fun _ v hv => IsTrans.trans _ _ _ hu.1 hv
  · rw [if_neg hcom]
    exact hco s (Std.Refl.refl s)

/-- The leader has taken over an acknowledgement and is about to count. -/
structure Acknowledged (s : Session myId) (followerId sentAt : Nat)
    (ledger : LeaderState myId) (u : Session myId) : Prop where
  counted : CommitsOnly { s.node with leader := ledger } u.node
  clock : u.clock = s.clock
  leaseDurationMs : u.leaseDurationMs = s.leaseDurationMs
  lastApplied : u.lastApplied = s.lastApplied
  lastHeartbeatSendTs : u.lastHeartbeatSendTs = s.lastHeartbeatSendTs
  pendingReads : u.pendingReads = s.pendingReads
  acks : u.acks = ⟨followerId, s.node.currentTerm, sentAt⟩ :: s.acks

variable {sentAt : Nat}

theorem Acknowledged.of_sameReads
    (h : Acknowledged s followerId sentAt ledger t) (hu : SameReads t u) :
    Acknowledged s followerId sentAt ledger u where
  counted := hu.node ▸ h.counted
  clock := hu.clock.trans h.clock
  leaseDurationMs := hu.leaseDurationMs.trans h.leaseDurationMs
  lastApplied := hu.lastApplied.trans h.lastApplied
  lastHeartbeatSendTs := hu.lastHeartbeatSendTs.trans h.lastHeartbeatSendTs
  pendingReads := hu.pendingReads.trans h.pendingReads
  acks := hu.acks.trans h.acks

theorem Acknowledged.sendTs
    (h : Acknowledged s followerId sentAt ledger u) : u.sendTs = s.sendTs := by
  rw [Session.sendTs, h.lastHeartbeatSendTs, h.clock, Session.sendTs]

/-- An answer serves and renews only what a counted acknowledgement allows. -/
theorem adds_handleAppendResult (hro : s.node.role = .leader)
    (h : ∀ ledger u, s.node.ledgerToCount (.appendResult followerId result) = some ledger →
      Acknowledged s followerId sentAt ledger u → u.quorumConfirmed = true →
      Q ⟨u.sendTs, u.node.currentTerm, u.voters, u.acks⟩ ∧
        ∀ lease, ReadLease.renew u.node.currentTerm u.renewedDeadline = .ok lease →
          ∀ p ∈ u.pendingReads.range 0 u.lastApplied, ∀ r ∈ p.2.requests,
            P (({ u with lease := lease } : Session myId).serve p.1 r)) :
    Ensures (handleAppendResult env followerId result sentAt) s fun _ t => Adds P Q s t := by
  unfold handleAppendResult
  rw [ensures_get_bind]
  refine Ensures.bind (R := fun _ t => ∃ sent, t = { s with
      node := (Raft.handleAppendResult env followerId result s.node).2, sent := sent })
    (ensures_attempt.mpr (onNode_handleAppendResult hro)) ?_ ?_
  · rintro fault t ⟨sent, rfl⟩
    exact Adds.of_eq rfl rfl
  rintro outcome t ⟨sent, rfl⟩
  split
  · exact Adds.of_eq rfl rfl
  · exact Adds.of_eq rfl rfl
  · split_ifs with hack hvo
    · obtain ⟨ledger, hld⟩ := exists_ledgerToCount hack hvo
      have hco : Ensures (Raft.handleAppendResult env followerId result) s.node fun _ t =>
          CommitsOnly { s.node with leader := ledger } t := handleAppendResult_counts hro hld
      rw [ensures_modify_bind]
      refine Ensures.mono (adds_settleAcknowledgement (P := P) (Q := Q) fun u hu hqu => ?_)
        fun _ u hu => ⟨hu.served, hu.renewals⟩
      refine h ledger u hld (Acknowledged.of_sameReads ?_ hu) hqu
      exact ⟨hco, rfl, rfl, rfl, rfl, rfl, by rw [hco.term]; rfl⟩
    · exact Adds.of_eq rfl rfl
    · exact Adds.of_eq rfl rfl

end Confirmed

/-! ## Renewals -/

/-- The acknowledgement that is handled answers a request from the time that the lease is renewed
from. Where the leader and the answering voter are no majority, enough voters have acknowledged
something, and each voter that holds the committed entries has answered such a request. -/
def FreshlyAcknowledged (s : Session myId) : SessionLabel → Prop
  | .appendResult _ followerId result sentAt =>
    ∀ ledger ∈ s.node.ledgerToCount (.appendResult followerId result),
      s.sendTs ≤ sentAt ∧ (s.voters.length + 1 < 2 * 2 ∨
        s.voters.length + 1 < 2 * ((ledger.matchedIds.length + 1) / 2 + 1) ∧
        ∀ voter ∈ s.voters, ∀ index ∈ ledger.matchIndex[voter]?, s.node.commitIndex ≤ index →
          voter = followerId ∨ heardSince s.acks s.node.currentTerm s.sendTs voter = true)
  | _ => True

instance (s : Session myId) : ∀ l, Decidable (FreshlyAcknowledged s l)
  | .appendResult _ followerId result _ =>
    inferInstanceAs (Decidable (∀ _ ∈ s.node.ledgerToCount (.appendResult followerId result), _))
  | .elapse _ | .submit _ | .apply _ | .flush _ | .tick _ | .applyCompleted _ _ _ | .internal _ _
  | .inbound _ _ => isTrue trivial

/-- A confirmed quorum holds the committed entries. -/
theorem lt_countP_of_quorumConfirmed (h : s.quorumConfirmed = true) :
    (s.node.leader.matchedIds.length + 1) / 2 <
      (s.node.leader.matchedIds.countP fun index => decide (s.node.commitIndex ≤ index)) + 1 := by
  obtain ⟨majority, hmaj⟩ := Option.isSome_iff_exists.mp h
  unfold BufferedRaftLog.calculateMajorityMatchedIndex at hmaj
  dsimp only at hmaj
  set ids := s.node.leader.matchedIds ++ [s.node.log.lastEntryId] with hids
  have hlen : ids.length = s.node.leader.matchedIds.length + 1 := by
    rw [hids, List.length_append, List.length_singleton]
  rw [List.length_insertionSort, hlen] at hmaj
  split_ifs at hmaj with hcom
  have hup := lt_countP_of_insertionSort ids
    (k := (s.node.leader.matchedIds.length + 1) / 2) (by omega) 0
  generalize (ids.insertionSort (· ≥ ·)).getD _ 0 = median at hup hcom
  calc (s.node.leader.matchedIds.length + 1) / 2
      < ids.countP fun x => decide (median ≤ x) := hup
    _ ≤ ids.countP fun x => decide (s.node.commitIndex ≤ x) :=
        List.countP_mono_left fun x _ hx => by
          rw [decide_eq_true_eq] at hx ⊢
          omega
    _ ≤ _ := by
        rw [hids, List.countP_append]
        exact Nat.add_le_add_left List.countP_le_length _

theorem mem_voters {peer : Nat}
    (h : s.node.leader.clusterMetadata.isVoter peer = true) : peer ∈ s.voters := by
  obtain ⟨target, htgt, hma⟩ := List.any_eq_true.mp h
  obtain ⟨hid, hlr⟩ := of_decide_eq_true hma
  exact List.mem_map.mpr ⟨target, List.mem_filter.mpr ⟨htgt, by simpa using hlr⟩, hid⟩

/-- Under the condition a renewal is backed by a fresh majority. -/
theorem Acknowledged.fresh {sentAt : Nat} (h : Acknowledged s followerId sentAt ledger u)
    (hld : s.node.ledgerToCount (.appendResult followerId result) = some ledger)
    (hfr : FreshlyAcknowledged s (.appendResult env followerId result sentAt))
    (hqu : u.quorumConfirmed = true) :
    Renewal.Fresh ⟨u.sendTs, u.node.currentTerm, u.voters, u.acks⟩ := by
  obtain ⟨hse, hbk⟩ := hfr ledger hld
  obtain ⟨_, _, update, _, _, _, _, hvt, hco⟩ := ledgerToCount_cases hld
  have hme : u.node.leader.clusterMetadata = s.node.leader.clusterMetadata := by
    obtain ⟨_, _, _, heq⟩ := s.node.leader.updatePeerIndex_eq followerId update
    rw [h.counted.metadata, hco, heq]
  have hvo : u.voters = s.voters := by
    rw [Session.voters, hme, Session.voters]
  have hma : u.node.leader.matchedIds = ledger.matchedIds := by
    rw [LeaderState.matchedIds, h.counted.matched, h.counted.metadata]
    rfl
  have hte : u.node.currentTerm = s.node.currentTerm := h.counted.term
  have hhs : ∀ peer, peer = followerId ∨ heardSince s.acks s.node.currentTerm s.sendTs peer = true →
      heardSince u.acks u.node.currentTerm u.sendTs peer = true := by
    intro peer hpe
    rw [h.acks, hte, h.sendTs, heardSince, List.any_cons, Bool.or_eq_true]
    exact hpe.imp_left fun heq => decide_eq_true ⟨heq.symm, rfl, hse⟩
  change u.voters.length + 1 <
    2 * (u.voters.countP (heardSince u.acks u.node.currentTerm u.sendTs) + 1)
  rcases hbk with htwo | ⟨hen, hhe⟩
  · have hpos : 0 < u.voters.countP (heardSince u.acks u.node.currentTerm u.sendTs) :=
      List.countP_pos_iff.mpr ⟨followerId, hvo ▸ mem_voters hvt, hhs _ (.inl rfl)⟩
    rw [← hvo] at htwo
    omega
  have hup := lt_countP_of_quorumConfirmed hqu
  have hho : (u.node.leader.matchedIds.countP fun index =>
      decide (u.node.commitIndex ≤ index)) ≤
        (u.voters.filter (heardSince u.acks u.node.currentTerm u.sendTs)).length := by
    refine LeaderState.countP_matchedIds_le fun peer index hidx hvt hle => ?_
    have hpe := mem_voters hvt
    rw [h.counted.matched] at hidx
    exact ⟨hpe, hhs peer (hhe peer (hvo ▸ hpe) index hidx (h.counted.commit.trans hle))⟩
  rw [← List.countP_eq_length_filter, hma] at hho
  rw [hma] at hup
  rw [← hvo] at hen
  omega

/-- In every run in which the handled acknowledgements are fresh, the lease is only ever renewed
on a majority that has answered requests from the time that the lease counts from. -/
theorem fresh_renewals_of_reach (h : (sessions myId).Reach FreshlyAcknowledged s) :
    ∀ r ∈ s.renewals, r.Fresh := by
  apply h.invariant (I := fun s => ∀ r ∈ s.renewals, r.Fresh)
  · rintro s ⟨node, clock, leaseDurationMs, generalRaftTimeoutMs, lastApplied, rfl⟩ r hr
    cases hr
  · intro s l t hs hfr hst r hr
    have had : Adds (fun _ => True) Renewal.Fresh s t := by
      refine adds_step (fun _ _ _ => trivial) ?_ (fun _ _ _ _ _ _ _ _ _ => trivial) hst
      rintro env followerId result sentAt hro rfl
      exact adds_handleAppendResult hro fun ledger u hld hac hqu =>
        ⟨hac.fresh hld hfr hqu, fun _ _ _ _ _ _ => trivial⟩
    rcases had.renewals r hr with hold | hnew
    · exact hs r hold
    · exact hnew

/-- Node 1 of three voters at its first start, with a lease of ten milliseconds. -/
def Session.ofTrio : Session 1 :=
  .start (Node.firstStart Config.small Membership.trio) 1 10 1000 0

theorem Session.init_ofTrio : (sessions 1).init Session.ofTrio := ⟨_, _, _, _, _, rfl⟩

/-- Node 1 is elected in term 2 and writes its no-op at index 1. -/
def electedRun : List SessionLabel :=
  [.tick { timerExpired := true }, .internal {} .becomeCandidate,
    .tick { timerExpired := true, voteResponses := [(2, some ⟨1, true, 0, 0⟩), (3, none)] },
    .internal {} .becomeLeader]

/-- A success of node 2 up to the given index, for a request of the given time. -/
def successOfTwo (index sentAt : Nat) : SessionLabel :=
  .appendResult {} 2 (some ⟨2, 2, some (.success (some ⟨2, index⟩))⟩) sentAt

/-- The answers to the no-op and to a later heartbeat renew the lease. -/
theorem first_renewal_fresh :
    ∃ s, (sessions 1).Reach FreshlyAcknowledged s ∧ s.renewals.length = 2 ∧
      ∀ r ∈ s.renewals, r.Fresh :=
  Machine.exists_reach_and_of_runIf (electedRun ++
      [successOfTwo 1 1, .elapse 100, .tick { heartbeatDue := true }, successOfTwo 1 101])
    Session.init_ofTrio (by decide +kernel) fun _ hre => fresh_renewals_of_reach hre

/-- The answer to the no-op comes after a later heartbeat, and renews the lease from the time of
the heartbeat that nobody has answered. -/
theorem delayed_answer_renews_from_heartbeat :
    ∃ s, (sessions 1).Reach (fun _ _ => True) s ∧
      s.renewals = [⟨101, 2, [2, 3], [⟨2, 2, 1⟩]⟩] ∧ ¬ ∀ r ∈ s.renewals, r.Fresh :=
  Machine.exists_reach_of_runIf
    (electedRun ++ [.elapse 100, .tick { heartbeatDue := true }, successOfTwo 1 1])
    Session.init_ofTrio (by decide +kernel)

/-! ## Linearizable reads -/

/-- Completed results find no waiting reads, or the lease holds. An acknowledgement finds none,
or it is fresh and the reads arrived before the last request, or it is handled before the renewed
lease has run out. -/
def ReadsBacked (s : Session myId) : SessionLabel → Prop
  | .applyCompleted _ lastIndex _ =>
    s.singleVoter = true ∨ s.isLeaseValid = true ∨ s.pendingReads.range 0 lastIndex = []
  | .appendResult env followerId result sentAt =>
    s.pendingReads.range 0 s.lastApplied = [] ∨
      (FreshlyAcknowledged s (.appendResult env followerId result sentAt) ∧
        ∀ p ∈ s.pendingReads.range 0 s.lastApplied, ∀ r ∈ p.2.requests, r.arrived ≤ s.sendTs) ∨
      s.clock < s.renewedDeadline
  | _ => True

instance (s : Session myId) : ∀ l, Decidable (ReadsBacked s l)
  | .applyCompleted _ _ _ | .appendResult _ _ _ _ => inferInstanceAs (Decidable (_ ∨ _))
  | .elapse _ | .submit _ | .apply _ | .flush _ | .tick _ | .internal _ _ | .inbound _ _ =>
    isTrue trivial

theorem allowsLeased_safe : AllowsLeased ServedRead.Safe := fun _ happ hls =>
  ⟨happ, hls.imp_right Or.inl⟩

theorem FreshQuorum.mono {voters : List Nat} {acks : List Ack} {term since earlier : Nat}
    (h : FreshQuorum voters acks term since) (hle : earlier ≤ since) :
    FreshQuorum voters acks term earlier := by
  have hco : voters.countP (heardSince acks term since) ≤
      voters.countP (heardSince acks term earlier) := by
    refine List.countP_mono_left fun peer _ hhe => ?_
    obtain ⟨ack, hin, hac⟩ := List.any_eq_true.mp hhe
    obtain ⟨hpe, hte, hse⟩ := of_decide_eq_true hac
    exact List.any_eq_true.mpr ⟨ack, hin, decide_eq_true ⟨hpe, hte, hle.trans hse⟩⟩
  unfold FreshQuorum at h ⊢
  omega

/-- A read that is served behind a renewal is backed by the fresh majority, or by the lease. -/
theorem Acknowledged.safe {sentAt : Nat} {lease : ReadLease}
    (h : Acknowledged s followerId sentAt ledger u)
    (hld : s.node.ledgerToCount (.appendResult followerId result) = some ledger)
    (hba : ReadsBacked s (.appendResult env followerId result sentAt))
    (hqu : u.quorumConfirmed = true)
    (hls : ReadLease.renew u.node.currentTerm u.renewedDeadline = .ok lease)
    {p : Nat × PendingReadBatch} (hp : p ∈ u.pendingReads.range 0 u.lastApplied)
    {r : ReadRequest} (hr : r ∈ p.2.requests) :
    (({ u with lease := lease } : Session myId).serve p.1 r).Safe := by
  have happ := ((OrderedMap.mem_range_iff _ _ _ p.1 p.2).mp hp).2.2
  rw [h.pendingReads, h.lastApplied] at hp
  rcases hba with hem | ⟨hfr, har⟩ | hde
  · rw [hem] at hp
    cases hp
  · refine ⟨happ, .inr (.inr ?_)⟩
    exact FreshQuorum.mono (h.fresh hld hfr hqu) (h.sendTs ▸ har p hp r hr)
  · refine allowsLeased_safe _ happ (.inr ?_)
    change lease.isValidForLeader u.node.currentTerm u.clock = true
    rw [ReadLease.isValidForLeader_renew hls, decide_eq_true_eq, h.clock, Session.renewedDeadline,
      h.sendTs, h.leaseDurationMs]
    exact hde

/-- In every run in which the waiting reads are backed when they are served, a linearizable read
is only ever answered behind its read index and under a valid lease or a fresh majority. -/
theorem safe_reads_of_reach (h : (sessions myId).Reach ReadsBacked s) : ∀ r ∈ s.served, r.Safe := by
  apply h.invariant (I := fun s => ∀ r ∈ s.served, r.Safe)
  · rintro s ⟨node, clock, leaseDurationMs, generalRaftTimeoutMs, lastApplied, rfl⟩ r hr
    cases hr
  · intro s l t hs hhe hst r hr
    have had : Adds ServedRead.Safe (fun _ => True) s t := by
      refine adds_step allowsLeased_safe ?_ ?_ hst
      · rintro env followerId result sentAt hro rfl
        exact adds_handleAppendResult hro fun ledger u hld hac hqu =>
          ⟨trivial, fun lease hls p hp r hr => hac.safe hld hhe hqu hls hp hr⟩
      · rintro env lastIndex results rfl hle p hp r -
        have hin := ((OrderedMap.mem_range_iff _ _ _ p.1 p.2).mp hp).2.2
        refine allowsLeased_safe _ (hin.trans hle) ?_
        rcases hhe with hsi | hva | hem
        · exact .inl hsi
        · exact .inr hva
        · rw [hem] at hp
          cases hp
    rcases had.served r hr with hold | hnew
    · exact hs r hold
    · exact hnew

/-- The no-op is committed and applied, and a read finds the lease expired. -/
def queuedRead : List SessionLabel :=
  electedRun ++ [successOfTwo 1 1, .apply 1, .elapse 100, .submit (.read none), .flush {}]

/-- The answer to the request of the read serves it, when the lease it renews has run out. -/
theorem queued_read_served_safely :
    ∃ s, (sessions 1).Reach ReadsBacked s ∧
      (s.served ≠ [] ∧ ∀ r ∈ s.served, r.leaseValid = false) ∧ ∀ r ∈ s.served, r.Safe :=
  Machine.exists_reach_and_of_runIf (queuedRead ++ [.elapse 100, successOfTwo 1 101])
    Session.init_ofTrio
    (by decide +kernel) fun _ hre => safe_reads_of_reach hre

/-- The report that the no-op was applied serves the read, although the lease has expired and no
peer has answered since the read arrived. -/
theorem completed_results_serve_read :
    ∃ s, (sessions 1).Reach (fun _ _ => True) s ∧ s.isLeaseValid = false ∧
      (∃ r ∈ s.served, ¬ r.Safe) :=
  Machine.exists_reach_of_runIf (queuedRead ++ [.applyCompleted {} 1 []]) Session.init_ofTrio
    (by decide +kernel)

end DEngine.Client

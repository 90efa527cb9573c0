import DEngine.Raft.StepEffects

/-!
# The ledger along the steps of a leader

Every step of a leader that keeps its role is, for the ledger of the peers, a sequence of
events that fit to the message that the step handles. What holds of all sequences of events
therefore holds of the leader.
-/

namespace DEngine.Raft

open Library Library.Handler Storage Replication

variable {myId : Nat} {s t : Node myId} {l : Label} {env : Env}

namespace Node

/-- The success or conflict that a step takes over, with the peer that answered. -/
def handledAnswer (s : Node myId) (l : Label) : Option (Nat × PeerUpdate) :=
  match s.handledInternal l with
  | some (.appendResult peer (some response)) => (s.peerUpdate peer response).map (Prod.mk peer)
  | _ => none

/-- The event is one that a leader's step may lead to. A step that takes over an answer sends
nothing. -/
def Explains (s : Node myId) (l : Label) : LedgerEvent myId → Prop
  | .bookkeeping _ => True
  | .initPeers _ _ => False
  | .answered peer update => s.handledAnswer l = some (peer, update)
  | .streamError peer => s.handledInternal l = some (.peerStreamError peer)
  | .pushCompleted peer success lastIncludedIndex =>
    s.handledInternal l =
      some (.snapshotPushCompleted peer success s.currentTerm lastIncludedIndex)
  | .membershipApplied lastEntryId membership =>
    s.handledInternal l = some .membershipApplied ∧
      lastEntryId = s.log.lastEntryId ∧ membership = s.membership
  | .append _ _ _ => s.handledAnswer l = none
  | .snapshot _ _ => s.handledAnswer l = none

end Node

/-- Answers acknowledge nothing at or above the index that they ask for. -/
theorem fits_of_peerUpdate {peer : Nat} {response : AppendEntriesResponse} {update : PeerUpdate}
    (h : s.peerUpdate peer response = some update) : update.Fits := by
  unfold Node.peerUpdate at h
  split_ifs at h with hte
  cases hres : response.result with
  | none => simp [hres] at h
  | some outcome =>
    cases outcome with
    | success =>
      simp only [hres, handleSuccessResponse, hte, lt_irrefl, if_false,
        Except.toOption, Option.some.injEq] at h
      subst h
      rintro index ⟨⟩
      exact ⟨rfl, Nat.lt_succ_self _⟩
    | conflict =>
      simp only [hres, Option.some.injEq] at h
      subst h
      rintro index ⟨⟩
    | higherTerm => simp [hres] at h

theorem fits_of_explains {e : LedgerEvent myId} (h : s.Explains l e) : e.Fits := by
  cases e with
  | answered peer update =>
    have hans : s.handledAnswer l = some (peer, update) := h
    unfold Node.handledAnswer at hans
    split at hans
    · obtain ⟨_, hupd, heq⟩ := Option.map_eq_some_iff.mp hans
      cases heq
      exact fits_of_peerUpdate hupd
    · cases hans
  | _ => trivial

/-! ## Changes -/

/-- The ledger has changed by some of the allowed events. -/
def Ledgered (allowed : LedgerEvent myId → Prop) (s t : Node myId) : Prop :=
  ∃ events, (∀ e ∈ events, allowed e) ∧ t.leader = s.leader.after events

namespace Ledgered

variable {allowed : LedgerEvent myId → Prop} {u : Node myId}

theorem of_leader_eq (h : t.leader = s.leader) : Ledgered allowed s t :=
  ⟨[], nofun, h⟩

theorem of_event {e : LedgerEvent myId} (he : allowed e) (h : t.leader = s.leader.handle e) :
    Ledgered allowed s t :=
  ⟨[e], fun _ hmem => List.mem_singleton.mp hmem ▸ he, h⟩

theorem trans' (hst : Ledgered allowed s t) (htu : Ledgered allowed t u) :
    Ledgered allowed s u := by
  obtain ⟨events, hal, ht⟩ := hst
  obtain ⟨rest, hal', hu⟩ := htu
  refine ⟨events ++ rest, fun e he => ?_, ?_⟩
  · rcases List.mem_append.mp he with h | h
    · exact hal e h
    · exact hal' e h
  · rw [hu, ht, LeaderState.after_append]

end Ledgered

section Changes

variable {p : Permit} {allowed explained : LedgerEvent myId → Prop}
  (hbooks : ∀ other, explained (.bookkeeping other))
  (hsends : p.produces → ∀ e : LedgerEvent myId, e.target?.isSome = true → explained e)
  (hmoves : ∀ e, allowed e → explained e)

include hbooks hsends hmoves

theorem Change.ledgered (h : Change p allowed s t) : Ledgered explained s t := by
  cases h with
  | ledger e hld =>
    refine Ledgered.of_event ?_ rfl
    cases e with
    | bookkeeping other => exact hbooks other
    | append peer request effectiveNextIndex | snapshot backoff peer => exact hsends hld _ rfl
    | answered => exact hmoves _ hld.2
    | _ => exact hmoves _ hld
  | _ => exact Ledgered.of_leader_eq rfl

theorem Does.ledgered (h : Does p allowed s t) : Ledgered explained s t := by
  induction h with
  | refl => exact Ledgered.of_leader_eq rfl
  | tail _ hla ih => exact ih.trans' (hla.ledgered hbooks hsends hmoves)

end Changes

/-! ## Steps -/

@[simp] theorem leader_settle {stops : Fault → Bool} {next : Phase}
    {outcome : Except Fault Unit × Node myId} :
    (Node.settle stops next outcome).leader = outcome.2.leader := by
  unfold Node.settle
  cases outcome.1 <;> rfl

/-- Only internal events change the role. -/
theorem role_eq_of_step (hst : s.step l = some t) (hl : ∀ env, l ≠ .internalEvent env) :
    t.role = s.role := by
  by_cases hre : l = .recvInternal
  · subst hre
    simp only [Node.step, Option.ite_none_right_eq_some, Option.some.injEq] at hst
    obtain ⟨-, rfl⟩ := hst
    rfl
  by_cases hro : s.startsRound l = true
  · cases l with
    | tick env =>
      simp only [Node.step, Option.ite_none_right_eq_some, Option.some.injEq] at hst
      obtain ⟨⟨-, hans⟩, rfl⟩ := hst
      simp only [Node.startsRound, Bool.and_eq_true, decide_eq_true_eq] at hro
      have hti : tick env s = Candidate.tick env s := by
        rw [tick, get_bind_apply, hro.1]
      rw [hti, (calm_phase (p := .quiet 0)).role_eq]
      rcases candidate_tick_cases (fun _ => True) (s := s) hro.2 with
        hfa | ⟨-, ht⟩ | ⟨incoming, ht⟩
      · exact hfa.calm.role_eq
      · exact ht.calm.role_eq
      · exact ht.calm.role_eq
    | _ => cases hro
  · have hds : Does (s.permit l) (fun _ => True) s t :=
      does_of_step hst hre hl (Bool.eq_false_iff.mpr hro)
    exact hds.calm.role_eq

/-- The node becomes leader over the request for the role. -/
theorem ledgered_of_entry (hst : s.step l = some t) (hs : s.role ≠ .leader)
    (ht : t.role = .leader) :
    ∃ events : List (LedgerEvent myId), (∀ e ∈ events, e.Fits) ∧
      t.leader = LeaderState.fresh.after events := by
  cases stepEffect_of_step hst with
  | calm h => exact absurd (h.role_eq.symm.trans ht) hs
  | turned v hv h => exact absurd (hv.leads (h.role_eq.symm.trans ht)).1 hs
  | unwritten _ h | won env _ hans hwon h | lost env _ incoming h =>
    exact absurd (h.role_eq.symm.trans ht) hs
  | ended rest hbuf heq =>
    subst heq
    exact absurd ht hs
  | entered rest hbuf hro =>
    cases l with
    | internalEvent env =>
      simp only [Node.step, hbuf] at hst
      split at hst
      · rename_i event rest' _ heq
        cases heq
        cases hst
        have hent : Ensures (handleBecomeLeader env) (s.popped rest) fun _ u =>
            Does (.producing s.currentTerm) LedgerEvent.Fits (s.popped rest).entered u :=
          does_handleBecomeLeader hro fun _ _ => trivial
        obtain ⟨events, hfi, hld⟩ := hent.ledgered (fun _ => trivial)
          (fun _ e _ => by cases e <;> trivial) fun _ => id
        exact ⟨events, hfi, leader_settle.trans hld⟩
      · cases hst
    | _ => exact absurd ((role_eq_of_step hst (by simp)).symm.trans ht) hs

/-- A step that sends takes over no answer. -/
theorem explains_sent (hpr : s.produces l = true) :
    ∀ e : LedgerEvent myId, e.target?.isSome = true → s.Explains l e := by
  have hno : s.handledAnswer l = none := by
    cases l with
    | internalEvent =>
      simp only [Node.produces, decide_eq_true_eq] at hpr
      rw [Node.handledAnswer, Node.handledInternal, hpr.2]
    | _ => rfl
  intro e he
  cases e <;> first | exact hno | cases he

/-- A leader that stays one handles an internal event by the events that the step explains. -/
theorem ledgered_internalEvent {event : InternalEvent} {rest : List InternalEvent}
    (hbuf : s.bufferedInternalEvent = event :: rest) (hro : s.role = .leader) :
    Ensures (handleInternalEvent env event) (s.popped rest) fun _ t =>
      t.role = .leader → Ledgered (s.Explains (.internalEvent env)) (s.popped rest) t := by
  have hnx : s.handledInternal (.internalEvent env) = some event := by
    rw [Node.handledInternal, Node.nextInternal, hbuf, List.head?_cons]
  have hro' : (s.popped rest).role = .leader := hro
  have hdr : Ensures drainReadBuffer (s.popped rest) fun r u => r = .ok () ∧
      u.role = .leader ∧ Ledgered (s.Explains (.internalEvent env)) (s.popped rest) u := by
    rw [drainReadBuffer, ensures_modify, if_pos hro']
    refine ⟨rfl, hro', Ledgered.of_event (e := .bookkeeping { s.leader with
      proposeBuffer := [], linearizableReadBuffer := 0, leaseReadQueue := 0 }) trivial rfl⟩
  cases event with
  | becomeFollower =>
    refine Ensures.bind hdr (fun _ _ h => by cases h.1) fun _ u _ => ?_
    refine Ensures.bind roleChange_becomeFollower (fun _ _ h ht => absurd ht h.2) ?_
    rintro _ v ⟨-, hv⟩
    refine (ensures_calm (p := .quiet 0) does_commitVoteReset).mono fun _ w hw ht => ?_
    exact absurd (hw.role_eq.symm.trans ht) hv
  | becomeCandidate =>
    refine Ensures.bind hdr (fun _ _ h => by cases h.1) ?_
    rintro _ u ⟨-, hu, hld⟩
    unfold becomeCandidate
    rw [ensures_get_bind, hu]
    exact fun _ => hld
  | becomeLearner =>
    refine Ensures.bind hdr (fun _ _ h => by cases h.1) ?_
    rintro _ u ⟨-, hu, hld⟩
    unfold becomeLearner
    rw [ensures_get_bind, hu]
    exact fun _ => hld
  | becomeLeader =>
    refine (handleBecomeLeader_refused (s := s.popped rest) ?_).mono fun _ t ht _ => ?_
    · rw [hro']
      decide
    · rw [ht]
      exact Ledgered.of_leader_eq rfl
  | notifyNewCommitIndex => exact fun _ => Ledgered.of_leader_eq rfl
  | _ =>
    refine (does_internalEvent hbuf rfl (by simp)).mono fun _ t ht _ => ?_
    refine ht.ledgered (fun _ => trivial) explains_sent fun e he => ?_
    cases e with
    | bookkeeping => trivial
    | initPeers => exact he
    | answered peer update =>
      obtain ⟨response, heq, hupd⟩ := he
      change s.handledAnswer (.internalEvent env) = some (peer, update)
      rw [Node.handledAnswer, hnx, heq]
      simp only [show s.peerUpdate peer response = some update from hupd, Option.map_some]
    | streamError peer | pushCompleted peer success lastIncludedIndex =>
      exact hnx.trans (congrArg some he)
    | membershipApplied => exact ⟨hnx.trans (congrArg some he.1), he.2⟩
    | append peer request effectiveNextIndex | snapshot backoff peer => cases he

/-- Every step of a leader that stays one is explained by its label. -/
theorem ledgered_of_step (hst : s.step l = some t) (hs : s.role = .leader)
    (ht : t.role = .leader) : Ledgered (s.Explains l) s t := by
  by_cases hre : l = .recvInternal
  · subst hre
    simp only [Node.step, Option.ite_none_right_eq_some, Option.some.injEq] at hst
    obtain ⟨-, rfl⟩ := hst
    exact Ledgered.of_leader_eq rfl
  by_cases hev : ∀ env, l ≠ .internalEvent env
  · have hrn : s.startsRound l = false := by
      cases l <;> simp [Node.startsRound, hs]
    have hds : Does (s.permit l) (fun _ => False) s t := does_of_step hst hre hev hrn
    exact hds.ledgered (fun _ => trivial) explains_sent fun _ he => he.elim
  · push Not at hev
    obtain ⟨env, rfl⟩ := hev
    simp only [Node.step] at hst
    split at hst <;> cases hst
    rename_i event rest _ hbuf
    have hro : (handleInternalEvent env event (s.popped rest)).2.role = .leader := by
      rw [← ht]
      exact ((calm_phase (p := .quiet 0)).role_eq).symm
    obtain ⟨events, hex, hld⟩ := ledgered_internalEvent hbuf hs hro
    exact ⟨events, hex, leader_settle.trans hld⟩

/-! ## Runs -/

theorem LeaderState.sound_fresh : (LeaderState.fresh : LeaderState myId).Sound := by
  intro peer next hnx
  cases hnx

/-- The ledger of a leader is sound. -/
theorem sound_of_step (hst : s.step l = some t) (hs : s.role = .leader → s.leader.Sound)
    (ht : t.role = .leader) : t.leader.Sound := by
  by_cases hro : s.role = .leader
  · obtain ⟨events, hex, hld⟩ := ledgered_of_step hst hro ht
    rw [hld]
    exact (hs hro).after fun e he => fits_of_explains (hex e he)
  · obtain ⟨events, hfi, hld⟩ := ledgered_of_entry hst hro ht
    rw [hld]
    exact LeaderState.sound_fresh.after hfi

/-- In every run of a leader the next index of a peer is above what the peer has acknowledged,
and as long as the node leads no acknowledgement is taken back. -/
theorem progress_ledger (hs : (raftLoop myId).Reach (fun _ _ => True) s)
    (hrole : s.role = .leader) :
    (∀ peer next, s.leader.nextIndex[peer]? = some next → s.leader.matched peer + 1 ≤ next) ∧
      ∀ t, (raftLoop myId).Run (fun u _ => u.role = .leader) s t → t.role = .leader →
        ∀ peer, s.leader.matched peer ≤ t.leader.matched peer := by
  have hso : s.role = .leader → s.leader.Sound := by
    apply hs.invariant
    · rintro u ⟨config, role, shared, diskLen, loaded, boundary, membership, rfl, -⟩ _
      exact LeaderState.sound_fresh
    · exact fun u l v hu _ hst => sound_of_step hst hu
  refine ⟨hso hrole, fun t hrun ht peer => ?_⟩
  -- the leader's role in the last state of the run is used up by the last step
  induction hrun with
  | refl => exact le_rfl
  | tail _ hla ih =>
    obtain ⟨l, hld, hst⟩ := hla
    obtain ⟨events, -, hlr⟩ := ledgered_of_step hst hld ht
    rw [hlr]
    exact (ih hld).trans (LeaderState.matched_le_after events peer)

/-- Peer 2 acknowledges the no-op of a new leader, and an older conflict comes in late. -/
theorem late_conflict_keeps_ledger :
    ∃ s t : Node 1, (raftLoop 1).Reach (fun _ _ => True) s ∧ s.role = .leader ∧
      (raftLoop 1).Run (fun u _ => u.role = .leader) s t ∧ t.role = .leader ∧
      t.leader.nextIndex[2]? = some 2 ∧ 1 ≤ s.leader.matched 2 ∧ s.leader.matched 2 + 1 ≤ 2 ∧
      s.leader.matched 2 ≤ t.leader.matched 2 := by
  have hre : ∃ s : Node 1, (raftLoop 1).Reach (fun _ _ => True) s ∧
      (s.role = .leader ∧ s.leader.matched 2 = 1 ∧ s.leader.nextIndex[2]? = some 2 ∧
        ((raftLoop 1).runIf (fun u _ => u.role = .leader) s
          [.push (.appendResult 2 (some (.conflict 2 2 none (some 1)))), .recvInternal,
            .internalEvent {}]).any
          fun t => decide (t.role = .leader ∧ t.leader.nextIndex[2]? = some 2)) :=
    Machine.exists_reach_of_runIf
      (winningRun ++ [.recvInternal, .internalEvent {}] ++ restOfRound ++
        [.push (.appendResult 2 (some (.success 2 2 (some ⟨2, 1⟩)))), .recvInternal,
          .internalEvent {}, .flush {}, .nextRound])
      (Node.init_firstStart .small .trio) (by decide +kernel)
  obtain ⟨s, hs, hro, hma, hnx, hla⟩ := hre
  obtain ⟨t, hrun, ht, hne'⟩ := Machine.exists_run_of_runIf _ hla
  obtain ⟨hab, hke⟩ := progress_ledger hs hro
  exact ⟨s, t, hs, hro, hrun, ht, hne', hma.ge, hab 2 2 hnx, hke t hrun ht 2⟩

end DEngine.Raft

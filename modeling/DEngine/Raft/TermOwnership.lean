import DEngine.Library.History
import DEngine.Raft.StepEffects

/-!
# Terms are owned by their leaders

Whatever a node produces, entries or requests, carries a term in which it entered
the leader role. A leader adopts a newer term at once and leaves the role only when
its queued step down is handled. In between it must not produce: a heartbeat that
comes first is sent under a term that belongs to another leader.
-/

namespace DEngine.Raft

open Library Library.Handler Storage Replication

variable {myId : Nat} {s t : Node myId} {l : Label} {p : Permit}

/-- An action produces only under terms in which the node entered the leader role before. -/
def Owned (a : Action) (earlier : List Action) : Prop :=
  ∀ term ∈ a.producedTerms, .enteredLeader term ∈ earlier

namespace Node

/-- A leader with a step down or a fatal error in its queue does not produce. -/
def HoldsBack (s : Node myId) (l : Label) : Prop := s.produces l = true → ¬ s.SteppingDown
deriving Decidable

/-- A leader that is not about to step down has entered the role in its current term. -/
structure Owner (s : Node myId) : Prop where
  owned : Justified Owned s.journal
  entered : s.role = .leader → ¬ s.SteppingDown → .enteredLeader s.currentTerm ∈ s.journal
  reported : s.PoisonReported

end Node

/-! ## Adopting a term -/

variable {env : Env}

/-- A leader that adopts a newer term has its step down in the queue. -/
theorem steppingDown_stepDownTo {term : Nat} (hrep : s.PoisonReported) :
    Ensures (stepDownTo env term) s fun _ t => t.SteppingDown := by
  refine Ensures.bind (steppingDown_of_commitHardState_error hrep) ?_ fun _ t _ => ?_
  · exact fun fault t ht => ht ⟨fault, rfl⟩
  · exact Node.steppingDown_sent rfl

theorem leader_receiveVoteRequest_adopts {request : VoteRequest} (hrep : s.PoisonReported) :
    Ensures (Leader.receiveVoteRequest env request) s fun _ t =>
      t.currentTerm = s.currentTerm ∨ t.SteppingDown := by
  unfold Leader.receiveVoteRequest
  rw [ensures_get_bind]
  dsimp only
  split_ifs
  · refine Ensures.bind (steppingDown_of_commitHardState_error hrep) ?_ fun _ t _ => ?_
    · exact fun fault t ht => Or.inr (ht ⟨fault, rfl⟩)
    · rw [ensures_send_bind]
      refine Ensures.mono (Q := fun _ u => Calm (.quiet 0) (t.sent (.becomeFollower none)) u)
        (ensures_calm (does_send (by simp))) fun _ u hu => Or.inr ?_
      exact hu.steppingDown (Node.steppingDown_sent rfl)
  · exact .inl rfl

theorem leader_handleInboundEvent_adopts {event : InboundEvent} (hrep : s.PoisonReported) :
    Ensures (Leader.handleInboundEvent env event) s fun _ t =>
      t.currentTerm = s.currentTerm ∨ t.SteppingDown := by
  have hca : (∀ request, event ≠ .receiveVoteRequest request) →
      Ensures (Leader.handleInboundEvent env event) s fun _ t =>
        Calm (.producing s.currentTerm) s t := by
    intro hev
    apply ensures_calm
    apply does_leader_handleInboundEvent
    · exact fun request heq => absurd heq (hev request)
    · exact fun _ _ => ⟨trivial, rfl, Nat.zero_le _⟩
  cases event with
  | receiveVoteRequest => exact leader_receiveVoteRequest_adopts hrep
  | _ => exact (hca nofun).mono fun _ _ ht => Or.inl (ht.term_eq (Nat.zero_le _))

theorem handleAppendResult_adopts {followerId : Nat}
    {result : Option AppendEntriesResponse} (hro : s.role = .leader) (hrep : s.PoisonReported) :
    Ensures (handleAppendResult env followerId result) s fun _ t =>
      t.currentTerm = s.currentTerm ∨ t.SteppingDown := by
  have hupd : ∀ {u : Node myId} {update : PeerUpdate}, u.role = .leader →
      u.currentTerm = s.currentTerm → Ensures (applyPeerUpdate env followerId update) u fun _ t =>
        t.currentTerm = s.currentTerm ∨ t.SteppingDown := by
    intro u update hld hte
    have hca : Ensures (applyPeerUpdate env followerId update) u fun _ t =>
        Calm { Permit.quiet 0 with counts := True } u t :=
      ensures_calm (does_applyPeerUpdate (fun _ => trivial) hld trivial trivial)
    exact hca.mono fun _ t ht => Or.inl ((ht.term_eq (Nat.zero_le _)).trans hte)
  refine ensures_handleAppendResult (.inl rfl) (fun _ _ term _ _ => ?_)
    (fun _ _ _ _ _ _ _ _ => hupd hro rfl) fun _ _ _ _ _ _ => hupd hro rfl
  exact (steppingDown_stepDownTo hrep).mono fun _ _ ht => Or.inr ht

/-- A step of a leader that keeps to its permit keeps the term, or its step down waits. -/
theorem adopts_of_step (hst : s.step l = some t) (hca : Calm (s.permit l) s t)
    (hro : s.role = .leader) (hrep : s.PoisonReported) :
    t.currentTerm = s.currentTerm ∨ t.SteppingDown := by
  have hse : ∀ {outcome : Except Fault Unit × Node myId} {stops next},
      outcome.2.currentTerm = s.currentTerm ∨ outcome.2.SteppingDown →
      (Node.settle stops next outcome).currentTerm = s.currentTerm ∨
        (Node.settle stops next outcome).SteppingDown := by
    intro outcome stops next h
    have hph : Calm (.quiet 0) outcome.2 (Node.settle stops next outcome) := calm_phase
    exact h.imp (hph.term_eq (Nat.zero_le _)).trans hph.steppingDown
  cases l with
  | inboundEvent env =>
    simp only [Node.step] at hst
    split at hst <;> cases hst
    rename_i event rest _ hnx
    apply hse
    have hha : Ensures (handleInboundEvent env event) (s.took rest) fun _ t =>
        t.currentTerm = (s.took rest).currentTerm ∨ t.SteppingDown := by
      unfold handleInboundEvent
      rw [ensures_get_bind, show (s.took rest).role = .leader from hro]
      exact leader_handleInboundEvent_adopts hrep
    exact hha
  | internalEvent env =>
    simp only [Node.step] at hst
    split at hst
    · rename_i event rest _ hbuf
      cases event with
      | appendResult followerId result =>
        cases hst
        apply hse
        have hpo : Calm (.quiet 0) s (s.popped rest) := calm_popped hbuf rfl
        have hha : Ensures (handleInternalEvent env (.appendResult followerId result))
            (s.popped rest) fun _ t =>
            t.currentTerm = (s.popped rest).currentTerm ∨ t.SteppingDown := by
          unfold handleInternalEvent
          rw [ensures_get_bind, if_pos (show (s.popped rest).role = .leader from hro)]
          exact ensures_logged (handleAppendResult_adopts hro (hpo.poison hrep))
        exact hha
      | _ =>
        refine .inl (hca.term_eq ?_)
        simp [Node.permit, Node.incomingTerm, Node.nextInternal, hbuf, InternalEvent.term]
    · cases hst
  | _ => exact .inl (hca.term_eq (Nat.zero_le _))

/-! ## The invariant -/

theorem Permit.Allows.owned {a : Action} (h : p.Allows a) {before : List Action}
    (how : p.produces → .enteredLeader p.term ∈ before) : Owned a before := by
  intro term hte
  cases a with
  | generated =>
    obtain ⟨e, he, rfl⟩ := List.mem_map.mp hte
    exact h.2 e he ▸ how h.1
  | requested =>
    rw [List.mem_singleton.mp hte, h.2]
    exact how h.1
  | _ => cases hte

/-- A handler that produces only under an owned term, and whose leader keeps its term or steps
down, keeps the invariant. -/
theorem Calm.owner (h : Calm p s t) (how : p.produces → .enteredLeader p.term ∈ s.journal)
    (had : s.role = .leader → t.currentTerm = s.currentTerm ∨ t.SteppingDown)
    (hs : s.Owner) : t.Owner := by
  obtain ⟨done, hjo, hdn⟩ := h.acts
  refine ⟨?_, fun hro hst => ?_, h.poison hs.reported⟩
  · rw [hjo]
    apply hs.owned.append
    intro a ha before hsuf
    exact (hdn a ha).owned fun hpr => hsuf.subset (how hpr)
  · have hld : s.role = .leader := h.role_eq.symm.trans hro
    rw [(had hld).resolve_right hst, hjo]
    apply List.mem_append_right
    exact hs.entered hld fun hdw => hst (h.steppingDown hdw)

/-- A step that produces belongs to a leader. -/
theorem role_of_produces (h : s.produces l = true) : s.role = .leader := by
  cases l with
  | tick env | internalEvent env | flush env | inboundEvent env => exact (of_decide_eq_true h).1
  | _ => cases h

/-- A vote round belongs to a candidate. -/
theorem role_of_startsRound (h : s.startsRound l = true) : s.role = .candidate := by
  cases l with
  | tick => exact of_decide_eq_true (Bool.and_eq_true_iff.mp h).1
  | _ => cases h

theorem Node.Owner.inRound (hs : s.Owner) (hro : s.role = .candidate) (env : Env) :
    (s.inRound env).Owner where
  owned := justified_cons.mpr ⟨nofun, justified_cons.mpr ⟨nofun, hs.owned⟩⟩
  entered := fun hld => by cases hro.symm.trans hld
  reported := hs.reported

/-- The invariant is kept by every step, and what was produced stays owned when the loop
ends. -/
theorem owner_of_step (hst : s.step l = some t) (hho : s.HoldsBack l) (hs : s.Owner) :
    Justified Owned t.journal ∧ (t.phase ≠ .stopped → t.Owner) := by
  have hqu : ∀ {v : Node myId} {incoming : Nat}, Calm (.quiet incoming) v t → v.Owner →
      (v.role = .leader → incoming = 0) → t.Owner := by
    intro v incoming h hv hze
    refine h.owner False.elim (fun hro => Or.inl (h.term_eq ?_)) hv
    exact (hze hro).le.trans (Nat.zero_le _)
  have hke : t.Owner → Justified Owned t.journal ∧ (t.phase ≠ .stopped → t.Owner) :=
    fun ht => ⟨ht.owned, fun _ => ht⟩
  cases stepEffect_of_step hst with
  | calm h =>
    refine hke (h.owner (fun hpr => ?_) (fun hro => ?_) hs)
    · exact hs.entered (role_of_produces hpr) (hho hpr)
    · exact adopts_of_step hst h hro hs.reported
  | turned v hv h =>
    refine hke (hqu h ⟨hv.journal_eq ▸ hs.owned, fun hro hsy => ?_,
      hv.poison hs.reported⟩ fun _ => rfl)
    obtain ⟨hld, -, hdw⟩ := hv.leads hro
    rw [hv.term_eq, hv.journal_eq]
    exact hs.entered hld fun hs => hsy (hdw hs)
  | entered rest hbuf hro h =>
    refine hke (h.owner (fun _ => List.mem_cons_self) (fun _ => ?_) ⟨?_, ?_, ?_⟩)
    · exact .inl (h.term_eq (Nat.zero_le _))
    · exact justified_cons.mpr ⟨nofun, hs.owned⟩
    · exact fun _ _ => List.mem_cons_self
    · exact (calm_popped (p := .quiet 0) hbuf rfl).poison hs.reported
  | unwritten hrn h =>
    refine hke (hqu h hs fun hld => ?_)
    cases (role_of_startsRound hrn).symm.trans hld
  | won env hrn hans hwon h =>
    have hro := role_of_startsRound hrn
    have hv := hs.inRound hro env
    refine hke (hqu h ⟨hv.owned, fun hld => ?_, ?_⟩ fun _ => rfl)
    · cases hro.symm.trans hld
    · exact fun hpo => Node.mem_queue_sent.mpr (.inl (hv.reported hpo))
  | lost env hrn incoming h =>
    have hro := role_of_startsRound hrn
    refine hke (hqu h (hs.inRound hro env) fun hld => ?_)
    cases hro.symm.trans hld
  | ended rest hbuf ht =>
    subst ht
    exact ⟨hs.owned, fun hsp => absurd rfl hsp⟩

theorem phase_ne_stopped_of_step (hst : s.step l = some t) : s.phase ≠ .stopped := by
  intro hsp
  cases l <;> simp [Node.step, hsp] at hst

theorem Node.Init.owner (h : s.Init) : s.Owner := by
  obtain ⟨config, role, shared, diskLen, loaded, boundary, membership, rfl, hro, -⟩ := h
  refine ⟨justified_nil, fun hld => ?_, nofun⟩
  rcases hro with rfl | rfl <;> cases hld

/-- In every run in which no leader with a step down in its queue produces, whatever a node
produces carries a term in which it entered the leader role. -/
theorem enteredLeader_of_producedTerms (hs : (raftLoop myId).Reach Node.HoldsBack s) :
    ∀ a earlier, a :: earlier <:+ s.journal →
      ∀ term ∈ a.producedTerms, .enteredLeader term ∈ earlier := by
  have hinv : Justified Owned s.journal ∧ (s.phase ≠ .stopped → s.Owner) := by
    apply hs.invariant (I := fun s => Justified Owned s.journal ∧ (s.phase ≠ .stopped → s.Owner))
    · exact fun u hin => ⟨(Node.Init.owner hin).owned, fun _ => Node.Init.owner hin⟩
    · intro u l v hu hho hst
      exact owner_of_step hst hho (hu.2 (phase_ne_stopped_of_step hst))
  exact hinv.1

/-- Some action produces under the term. -/
def producesUnder (journal : List Action) (term : Nat) : Bool :=
  journal.any fun a => decide (term ∈ a.producedTerms)

theorem exists_of_producesUnder {journal : List Action} {term : Nat}
    (h : producesUnder journal term = true) :
    ∃ a earlier, a :: earlier <:+ journal ∧ term ∈ a.producedTerms := by
  obtain ⟨a, ha, hte⟩ := List.any_eq_true.mp h
  obtain ⟨later, earlier, hjo⟩ := List.append_of_mem ha
  exact ⟨a, earlier, ⟨later, hjo.symm⟩, of_decide_eq_true hte⟩

/-- A new leader writes its no-op under the term it won. -/
theorem noop_under_owned_term :
    ∃ s : Node 1, (raftLoop 1).Reach Node.HoldsBack s ∧ ∃ a earlier, a :: earlier <:+ s.journal ∧
      2 ∈ a.producedTerms ∧ .enteredLeader 2 ∈ earlier := by
  have hre : ∃ s : Node 1, (raftLoop 1).Reach Node.HoldsBack s ∧
      producesUnder s.journal 2 = true :=
    Machine.exists_reach_of_runIf (winningRun ++ [.recvInternal, .internalEvent {}])
      (Node.init_firstStart .small .trio) (by decide +kernel)
  obtain ⟨s, hs, hpr⟩ := hre
  obtain ⟨a, earlier, hsu, hte⟩ := exists_of_producesUnder hpr
  exact ⟨s, hs, a, earlier, hsu, hte,
    enteredLeader_of_producedTerms hs a earlier hsu 2 hte⟩

/-- A leader adopts the term of a vote request, and its heartbeat is due before its step down
is handled. -/
def adoptedTermRun : List Label :=
  winningRun ++ [.recvInternal, .internalEvent {}] ++ restOfRound ++
    [.arrive (.receiveVoteRequest ⟨5, 3, 9, 4⟩), .recvInbound, .flush {}, .inboundEvent {},
      .nextRound, .tick { heartbeatDue := true }]

theorem heartbeat_under_adopted_term :
    ∃ s : Node 1, (raftLoop 1).Reach (fun _ _ => True) s ∧ ∃ a earlier,
      a :: earlier <:+ s.journal ∧ 5 ∈ a.producedTerms ∧ .enteredLeader 5 ∉ earlier := by
  have hre : ∃ s : Node 1, (raftLoop 1).Reach (fun _ _ => True) s ∧
      (producesUnder s.journal 5 = true ∧ .enteredLeader 5 ∉ s.journal) :=
    Machine.exists_reach_of_runIf adoptedTermRun (Node.init_firstStart .small .trio)
      (by decide +kernel)
  obtain ⟨s, hs, hpr, hnv⟩ := hre
  obtain ⟨a, earlier, hsu, hte⟩ := exists_of_producesUnder hpr
  refine ⟨s, hs, a, earlier, hsu, hte, fun hen => hnv ?_⟩
  exact hsu.subset (List.mem_cons_of_mem a hen)

end DEngine.Raft

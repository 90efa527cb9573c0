import DEngine.Raft.HandlerEffects

/-!
# What a step of the main loop does

Every step of the loop keeps to the permit that its label has in the state before
it, apart from the steps that change the role, the vote round of a candidate and the
end of the loop. Those lead to a state from which the rest of the step keeps to a
permit again. `StepEffect` lists the cases, and `stepEffect_of_step` is what every
invariant of a run is derived from.
-/

namespace DEngine.Raft

open Library Library.Handler Storage Replication

variable {myId : Nat} {s t : Node myId} {l : Label}

/-! ## The permit of a step -/

namespace InboundEvent

def joins : InboundEvent → Bool
  | .joinCluster _ => true
  | _ => false

def request? : InboundEvent → Option AppendEntriesRequest
  | .appendEntries request => some request
  | _ => none

end InboundEvent

namespace Node

/-- The internal event that the loop handles next. -/
def nextInternal (s : Node myId) : Option InternalEvent := s.bufferedInternalEvent.head?

/-- The internal event that a step handles. -/
def handledInternal (s : Node myId) : Label → Option InternalEvent
  | .internalEvent _ => s.nextInternal
  | _ => none

/-- The inbound event that the loop handles next, with the requests at the front merged. -/
def nextEvent (s : Node myId) : Option InboundEvent :=
  (nextInbound s.config.maxMergeEntries s.bufferedInboundEvent).map Prod.fst

/-- The AppendEntries request that a step handles. -/
def handledRequest (s : Node myId) : Label → Option AppendEntriesRequest
  | .inboundEvent _ => s.nextEvent.bind InboundEvent.request?
  | _ => none

/-- The largest term that a step may adopt from a message. -/
def incomingTerm (s : Node myId) : Label → Nat
  | .internalEvent _ =>
    if s.role = .leader then (s.nextInternal.map InternalEvent.term).getD 0 else 0
  | .inboundEvent _ => (s.nextEvent.map InboundEvent.term).getD 0
  | _ => 0

/-- The step starts a vote round. -/
def startsRound (s : Node myId) : Label → Bool
  | .tick env => decide (s.role = .candidate) && env.timerExpired
  | _ => false

/-- The step makes a leader produce entries or requests. -/
def produces (s : Node myId) : Label → Bool
  | .tick env => decide (s.role = .leader ∧
      (env.heartbeatDue = true ∨ s.leader.pendingPromotions.take env.staleLearners ≠ []))
  | .internalEvent _ => decide (s.role = .leader ∧ s.nextInternal = some .promoteReadyLearners)
  | .flush env => decide (s.role = .leader ∧ FlushProduces s env)
  | .inboundEvent _ => decide (s.role = .leader ∧ s.nextEvent.any InboundEvent.joins = true)
  | _ => false

/-- The step makes a leader count acknowledgements. -/
def counts (s : Node myId) : Label → Bool
  | .internalEvent _ => decide (s.role = .leader) && s.nextInternal.any InternalEvent.counts
  | _ => false

/-- The step makes a follower grant the vote request. -/
def Grants (s : Node myId) (request : VoteRequest) : Label → Prop
  | .inboundEvent _ => s.role = .follower ∧
      s.nextEvent = some (.receiveVoteRequest request) ∧ GrantsVote s request
  | _ => False

/-- The index up to which a snapshot of the step covers the log. -/
def purgesTo (s : Node myId) : Label → Nat
  | .push event => event.announced
  | .internalEvent _ => (s.nextInternal.map InternalEvent.announced).getD 0
  | .inboundEvent env => env.installed
  | _ => 0

/-- A replica that handles an AppendEntries request keeps its commit index over it. -/
def StaysCommitted (s : Node myId) (l : Label) : Prop :=
  s.role = .follower ∨ s.role = .learner → ∀ request ∈ s.handledRequest l, KeepsCommit s request
deriving Decidable

def permit (s : Node myId) (l : Label) : Permit where
  term := s.currentTerm
  incoming := s.incomingTerm l
  produces := s.produces l = true
  counts := s.counts l = true
  grants := fun request => s.Grants request l
  purgesTo := s.purgesTo l
  safe := s.log.WellFormed ∧ s.StaysCommitted l

/-- The node with the first internal event taken from the buffer. -/
def popped (s : Node myId) (rest : List InternalEvent) : Node myId :=
  { s with bufferedInternalEvent := rest }

/-- The node with the first inbound events taken from the buffer. -/
def took (s : Node myId) (rest : List InboundEvent) : Node myId :=
  { s with bufferedInboundEvent := rest }

end Node

/-! ## Calm steps -/

variable {p : Permit} {allowed : LedgerEvent myId → Prop} {env : Env}

variable {stops : Fault → Bool} {next : Phase}

/-- The loop goes on or ends behind a handler, and nothing else changes. -/
theorem change_phase {outcome : Except Fault Unit × Node myId}
    : Change p allowed outcome.2 (Node.settle stops next outcome) := by
  unfold Node.settle
  cases outcome.1 with
  | ok done | error fault => exact .loop _ _ _ _ _

theorem calm_phase {outcome : Except Fault Unit × Node myId}
    : Calm p outcome.2 (Node.settle stops next outcome) := by
  have hch : Change p (fun _ => True) outcome.2 (Node.settle stops next outcome) :=
    change_phase
  exact hch.calm

theorem does_settle {x : NodeM myId Unit} (hx : Ensures x s fun _ t => Does p allowed s t) :
    Does p allowed s (Node.settle stops next (x s)) :=
  Relation.ReflTransGen.tail hx change_phase

variable {event : InternalEvent} {rest : List InternalEvent}

theorem mem_queue_popped (hbuf : s.bufferedInternalEvent = event :: rest) {e : InternalEvent} :
    e ∈ s.queue ↔ e = event ∨ e ∈ (s.popped rest).queue := by
  rw [Node.queue, hbuf, List.cons_append, List.mem_cons]
  rfl

/-- An event that does not step down may leave the queue. -/
theorem calm_popped
    (hbuf : s.bufferedInternalEvent = event :: rest) (hev : event.stepsDown = false) :
    Calm p s (s.popped rest) := by
  refine calm_of_queue rfl ?_ ?_ rfl rfl rfl rfl fun _ => rfl
  · exact fun e _ he => (mem_queue_popped hbuf).mpr (.inr he)
  · intro e hdw he
    refine ((mem_queue_popped hbuf).mp he).resolve_left ?_
    rintro rfl
    rw [hev] at hdw
    cases hdw

theorem calm_recvInternal : Calm p s s.recvInternal := by
  have hqu : s.recvInternal.queue = s.queue := by
    simp [Node.queue, Node.recvInternal]
  refine calm_of_queue rfl (fun e _ he => ?_) (fun e _ he => ?_) rfl rfl rfl rfl fun _ => rfl
  · rwa [hqu] at he
  · rwa [hqu]

theorem does_recvClient : Does p allowed s s.recvClient := by
  refine Relation.ReflTransGen.tail (b := { s with leader := s.recvClient.leader }) ?_
    (Change.loop s.membership s.recvClient.cmdRx s.eventRx s.bufferedInboundEvent .internal)
  unfold Node.recvClient
  dsimp only
  split_ifs
  · exact does_bookkeeping
      (f := (s.cmdRx.take (s.config.maxBatchSize + 1)).foldl (Leader.pushClientCmd s.config))
      fun l => l.bookkeeping_pushClientCmds s.config _
  · exact Relation.ReflTransGen.refl

theorem produces_permit (hpr : s.produces l = true) (hinc : s.incomingTerm l = 0) :
    (s.permit l).Produces s where
  produces := hpr
  term_eq := rfl
  incoming_le := hinc.le.trans (Nat.zero_le _)

/-- Only the vote round of a candidate goes beyond the permit of a tick. -/
theorem does_tick (hrn : ¬ (s.role = .candidate ∧ env.timerExpired = true)) :
    Ensures (tick env) s fun _ t => Does (s.permit (.tick env)) allowed s t := by
  unfold tick
  rw [ensures_get_bind]
  cases hro : s.role with
  | follower =>
    dsimp only [Follower.tick]
    split_ifs
    · exact does_send (by simp)
    · exact does_pure
  | candidate =>
    dsimp only [Candidate.tick]
    rw [if_neg fun hexp => hrn ⟨hro, hexp⟩]
    exact does_pure
  | leader => exact does_leader_tick fun hdue => produces_permit (decide_eq_true ⟨hro, hdue⟩) rfl
  | learner => exact does_pure

theorem does_flushCmdBuffers :
    Ensures (flushCmdBuffers env) s fun _ t => Does (s.permit (.flush env)) allowed s t := by
  unfold flushCmdBuffers
  rw [ensures_get_bind]
  split_ifs with hro
  · exact does_leader_flushCmdBuffers fun hfl =>
      produces_permit (decide_eq_true ⟨hro, hfl⟩) rfl
  · exact does_pure

/-- The permit of the step is kept from the state in which the event has left the buffer. -/
theorem does_handleInboundEvent {event : InboundEvent} {rest : List InboundEvent}
    (hnx : nextInbound s.config.maxMergeEntries s.bufferedInboundEvent = some (event, rest)) :
    Ensures (handleInboundEvent env event) (s.took rest)
      fun _ t => Does (s.permit (.inboundEvent env)) allowed (s.took rest) t := by
  have hev : s.nextEvent = some event := by rw [Node.nextEvent, hnx, Option.map_some]
  have hinc : event.term ≤ (s.permit (.inboundEvent env)).incoming := by
    simp [Node.permit, Node.incomingTerm, hev]
  have hsa : s.role = .follower ∨ s.role = .learner → ∀ request, event = .appendEntries request →
      (s.permit (.inboundEvent env)).safe →
        s.log.WellFormed ∧ KeepsCommit (s.took rest) request := by
    rintro hre request rfl ⟨hwf, hst⟩
    have hke := hst hre request (by rw [Node.handledRequest, hev]; rfl)
    exact ⟨hwf, hke.batch, hke.covered⟩
  unfold handleInboundEvent
  rw [ensures_get_bind]
  cases hro : (s.took rest).role with
  | follower =>
    refine does_follower_handleInboundEvent hinc le_rfl ?_ (hsa (.inl hro))
    rintro request rfl hgr
    exact ⟨hro, hev, hgr⟩
  | candidate => exact does_candidate_handleInboundEvent hinc
  | leader =>
    refine does_leader_handleInboundEvent ?_ ?_ <;> rintro request rfl
    · exact hinc
    have hpr : (s.permit (.inboundEvent env)).Produces s :=
      produces_permit (decide_eq_true ⟨hro, by rw [hev]; rfl⟩)
        (by simp [Node.incomingTerm, hev, InboundEvent.term])
    exact ⟨hpr.produces, hpr.term_eq, hpr.incoming_le⟩
  | learner => exact does_learner_handleInboundEvent hinc le_rfl (hsa (.inr hro))

/-- Every step that neither receives nor handles internal events, and starts no vote round, keeps
to its permit. -/
theorem does_of_step (hst : s.step l = some t) (hre : l ≠ .recvInternal)
    (hev : ∀ env, l ≠ .internalEvent env) (hro : s.startsRound l = false) :
    Does (s.permit l) allowed s t := by
  cases l
  case recvInternal => exact absurd rfl hre
  case internalEvent env => exact absurd rfl (hev env)
  case inboundEvent env =>
    simp only [Node.step] at hst
    split at hst <;> cases hst
    rename_i event rest _ hnx
    exact Relation.ReflTransGen.head (Change.loop _ _ _ rest _)
      (does_settle (does_handleInboundEvent hnx))
  all_goals
    simp only [Node.step, Option.ite_none_right_eq_some, Option.some.injEq] at hst
    obtain ⟨hgu, rfl⟩ := hst
  case push event =>
    refine (Change.sent event ⟨?_, le_rfl⟩).does
    rintro rfl
    cases hgu.2
  case poison => exact (Change.unwritten s.shared.hardState (.inl rfl)).does
  case tick env =>
    refine does_settle (does_tick fun hsr => ?_)
    simp [Node.startsRound, hsr] at hro
  case flush env => exact does_settle does_flushCmdBuffers
  case recvClient => exact does_recvClient
  all_goals exact (Change.loop _ _ _ _ _).does

/-- An internal event that changes neither the role nor the queue keeps to the permit of its
step. -/
theorem does_internalEvent
    (hbuf : s.bufferedInternalEvent = event :: rest) (hsw : event.switches = false)
    (hno : ∀ data, event ≠ .notifyNewCommitIndex data) :
    Ensures (handleInternalEvent env event) (s.popped rest) fun _ t =>
      Does (s.permit (.internalEvent env)) (event.Moves (s.popped rest)) (s.popped rest) t := by
  have hnx : s.nextInternal = some event := by rw [Node.nextInternal, hbuf, List.head?_cons]
  refine does_handleInternalEvent hsw hno ?_ ?_ ?_ ?_
  · simp [Node.permit, Node.purgesTo, hnx]
  · intro hld
    have hle' : s.role = .leader := hld
    simp [Node.permit, Node.incomingTerm, hnx, hle']
  · intro hld hco
    have hle' : s.role = .leader := hld
    simp [Node.permit, Node.counts, hnx, hle', hco]
  · rintro hld rfl
    have hpr : (s.permit (.internalEvent env)).Produces s :=
      produces_permit (decide_eq_true ⟨hld, hnx⟩)
        (by simp [Node.incomingTerm, hnx, InternalEvent.term])
    exact ⟨hpr.produces, hpr.term_eq, hpr.incoming_le⟩

theorem calm_internalEvent
    (hbuf : s.bufferedInternalEvent = event :: rest) (hsw : event.switches = false)
    (hdw : event.stepsDown = false) :
    Calm (s.permit (.internalEvent env)) s
      (Node.settle Fault.isFatal .internal (handleInternalEvent env event (s.popped rest))) := by
  have hha : Ensures (handleInternalEvent env event) (s.popped rest) fun _ t =>
      Calm (s.permit (.internalEvent env)) (s.popped rest) t := by
    by_cases hno : ∃ data, event = .notifyNewCommitIndex data
    · obtain ⟨data, rfl⟩ := hno
      exact calm_notifyNewCommitIndex
    · push Not at hno
      exact (does_internalEvent hbuf hsw hno).mono fun _ _ ht => ht.calm
  exact (calm_popped hbuf hdw).trans' (Calm.trans' hha calm_phase)

/-! ## Changes of the role -/

/-- A permit to adopt terms and nothing else that is of interest. -/
def Permit.quiet (incoming : Nat) : Permit where
  term := 0
  incoming := incoming
  produces := False
  counts := False
  grants := fun _ => False
  purgesTo := 0
  safe := True

/-- A permit to produce in one term. -/
def Permit.producing (term : Nat) : Permit := { Permit.quiet 0 with term := term, produces := True }

/-- An event has left the queue and may have changed the role, but not to leader. -/
structure Turned (s v : Node myId) : Prop where
  journal_eq : v.journal = s.journal
  hardState_eq : v.shared.hardState = s.shared.hardState
  metaStore_eq : v.metaStore = s.metaStore
  commit_eq : v.commitIndex = s.commitIndex
  log_eq : v.log = s.log
  asked : v.LeaderAsked → s.LeaderAsked
  fatal : .fatalError ∈ s.queue → .fatalError ∈ v.queue
  purges : ∀ bound, s.PurgesWithin bound → v.PurgesWithin bound
  leads : v.role = .leader → s.role = .leader ∧ v.leader.matchIndex = s.leader.matchIndex ∧
    (s.SteppingDown → v.SteppingDown)

variable {v : Node myId}

theorem Turned.term_eq (h : Turned s v) : v.currentTerm = s.currentTerm :=
  congrArg HardState.currentTerm h.hardState_eq

theorem Turned.poison (h : Turned s v) (hs : s.PoisonReported) :
    v.PoisonReported := fun hv => h.fatal (hs (h.log_eq ▸ hv))

/-- Only the role and what belongs to it may change, and no node becomes leader. -/
structure RoleChange (u v : Node myId) : Prop where
  queue_eq : v.queue = u.queue
  journal_eq : v.journal = u.journal
  hardState_eq : v.shared.hardState = u.shared.hardState
  metaStore_eq : v.metaStore = u.metaStore
  commit_eq : v.commitIndex = u.commitIndex
  log_eq : v.log = u.log
  pending : ∀ id ∈ v.pendingPurgeUpto, id ∈ u.pendingPurgeUpto
  leads : v.role = .leader → u.role = .leader ∧ v.leader.matchIndex = u.leader.matchIndex

namespace RoleChange

theorem rfl' (u : Node myId) : RoleChange u u :=
  ⟨rfl, rfl, rfl, rfl, rfl, rfl, fun _ hid => hid, fun h => ⟨h, rfl⟩⟩

theorem trans' {u w : Node myId} (huv : RoleChange u v) (hvw : RoleChange v w) :
    RoleChange u w where
  queue_eq := hvw.queue_eq.trans huv.queue_eq
  journal_eq := hvw.journal_eq.trans huv.journal_eq
  hardState_eq := hvw.hardState_eq.trans huv.hardState_eq
  metaStore_eq := hvw.metaStore_eq.trans huv.metaStore_eq
  commit_eq := hvw.commit_eq.trans huv.commit_eq
  log_eq := hvw.log_eq.trans huv.log_eq
  pending := fun id hid => huv.pending id (hvw.pending id hid)
  leads := fun hw => by
    obtain ⟨hv, hma⟩ := hvw.leads hw
    obtain ⟨hu, hma'⟩ := huv.leads hv
    exact ⟨hu, hma.trans hma'⟩

/-- The event that asked for the change has left the queue. A leader stays one only over an
event that does not step down. -/
theorem turned (hbuf : s.bufferedInternalEvent = event :: rest) (hfa : event ≠ .fatalError)
    (h : RoleChange (s.popped rest) v)
    (hst : v.role = .leader → event.stepsDown = false) : Turned s v where
  journal_eq := h.journal_eq
  hardState_eq := h.hardState_eq
  metaStore_eq := h.metaStore_eq
  commit_eq := h.commit_eq
  log_eq := h.log_eq
  asked := fun has => (mem_queue_popped hbuf).mpr (.inr (h.queue_eq ▸ has))
  fatal := fun he => h.queue_eq ▸ ((mem_queue_popped hbuf).mp he).resolve_left hfa.symm
  purges := fun bound hs => by
    refine ⟨fun id hid => hs.pending id (h.pending id hid), h.log_eq ▸ hs.purged, fun e he => ?_⟩
    rw [h.queue_eq] at he
    exact hs.announced e ((mem_queue_popped hbuf).mpr (.inr he))
  leads := fun hro => by
    obtain ⟨hld, hma⟩ := h.leads hro
    refine ⟨hld, hma, fun hs => hs.of_kept fun e hdw he => ?_⟩
    rw [h.queue_eq]
    refine ((mem_queue_popped hbuf).mp he).resolve_left ?_
    rintro rfl
    rw [hst hro] at hdw
    cases hdw

end RoleChange

section Operations

variable {u : Node myId}

theorem roleChange_drainReadBuffer :
    Ensures drainReadBuffer u fun r v => r = .ok () ∧ RoleChange u v := by
  unfold drainReadBuffer
  rw [ensures_modify]
  split_ifs
  · exact ⟨rfl, rfl, rfl, rfl, rfl, rfl, rfl, fun _ hid => hid, fun h => ⟨h, rfl⟩⟩
  · exact ⟨rfl, RoleChange.rfl' u⟩

/-- No leader is left behind a change to follower. -/
theorem roleChange_becomeFollower :
    Ensures becomeFollower u fun _ v => RoleChange u v ∧ v.role ≠ .leader := by
  unfold becomeFollower
  rw [ensures_get_bind]
  cases hro : u.role with
  | follower => exact ⟨RoleChange.rfl' u, fun h => by cases hro.symm.trans h⟩
  | candidate =>
    exact ⟨⟨rfl, rfl, rfl, rfl, rfl, rfl, fun _ hid => (nomatch hid), nofun⟩, nofun⟩
  | leader | learner =>
    exact ⟨⟨rfl, rfl, rfl, rfl, rfl, rfl, fun _ hid => hid, nofun⟩, nofun⟩

theorem roleChange_becomeCandidate : Ensures becomeCandidate u fun _ v => RoleChange u v := by
  unfold becomeCandidate
  rw [ensures_get_bind]
  cases u.role with
  | follower =>
    exact ⟨rfl, rfl, rfl, rfl, rfl, rfl, fun _ hid => (nomatch hid), nofun⟩
  | candidate | leader | learner => exact RoleChange.rfl' u

theorem roleChange_becomeLearner : Ensures becomeLearner u fun _ v => RoleChange u v := by
  unfold becomeLearner
  rw [ensures_get_bind]
  cases u.role with
  | follower => exact ⟨rfl, rfl, rfl, rfl, rfl, rfl, fun _ hid => hid, nofun⟩
  | candidate =>
    exact ⟨rfl, rfl, rfl, rfl, rfl, rfl, fun _ hid => (nomatch hid), nofun⟩
  | leader | learner => exact RoleChange.rfl' u

end Operations

/-- The node right behind its entry into the leader role. -/
def Node.entered (s : Node myId) : Node myId :=
  { s with
    role := .leader
    leader := .fresh
    pendingPurgeUpto := none
    shared := { s.shared with currentLeaderId := myId } }.recorded (.enteredLeader s.currentTerm)

/-- The node in a new vote round: its own vote is written and the answers are in. -/
def Node.inRound (s : Node myId) (env : Env) : Node myId :=
  let voted := s.withHardState (some (s.currentTerm + 1)) (some ⟨myId, s.currentTerm + 1, false⟩)
  (voted.saved.recorded (.selfVote (s.currentTerm + 1))).recorded
    (.voteRound (s.currentTerm + 1) (s.membership.voters myId) (grantingPeers env.voteResponses))

/-- What a step of the loop can do. -/
inductive StepEffect (s : Node myId) (l : Label) (t : Node myId) : Prop
  | calm (h : Calm (s.permit l) s t)
  | turned (v : Node myId) (hv : Turned s v) (h : Calm (.quiet 0) v t)
  | entered (rest : List InternalEvent)
      (hbuffered : s.bufferedInternalEvent = .becomeLeader :: rest) (hrole : s.role = .candidate)
      (h : Calm (.producing s.currentTerm) (s.popped rest).entered t)
  /-- The own vote could not be written. -/
  | unwritten (hround : s.startsRound l = true) (h : Calm (.quiet (s.currentTerm + 1)) s t)
  | won (env : Env) (hround : s.startsRound l = true) (hanswers : s.answersFit env = true)
      (hwon : broadcastVoteRequests myId (s.currentTerm + 1) s.membership s.log
        env.voteResponses = .ok ())
      (h : Calm (.quiet 0) ((s.inRound env).sent .becomeLeader) t)
  | lost (env : Env) (hround : s.startsRound l = true) (incoming : Nat)
      (h : Calm (.quiet incoming) (s.inRound env) t)
  | ended (rest : List InternalEvent) (hbuffered : s.bufferedInternalEvent = .fatalError :: rest)
      (ht : t = { s.popped rest with phase := .stopped })

/-! ### The events that switch -/

section Events

variable {env : Env} {rest : List InternalEvent}

theorem handleBecomeFollower_turned {leaderId : Option Nat}
    (hbuf : s.bufferedInternalEvent = .becomeFollower leaderId :: rest) :
    Ensures (handleBecomeFollower env) (s.popped rest) fun _ t =>
      ∃ v, Turned s v ∧ Calm (.quiet 0) v t := by
  have htu : ∀ v, RoleChange (s.popped rest) v ∧ v.role ≠ .leader → Turned s v :=
    fun v hv => hv.1.turned hbuf (by simp) fun hro => absurd hro hv.2
  refine Ensures.bind roleChange_drainReadBuffer (fun _ _ h => nomatch h.1) fun _ u hu => ?_
  refine Ensures.bind roleChange_becomeFollower ?_ fun _ v hv => ?_
  · exact fun _ v hv => ⟨v, htu v ⟨hu.2.trans' hv.1, hv.2⟩, Calm.rfl' v⟩
  · exact (ensures_calm does_commitVoteReset).mono fun _ _ ht =>
      ⟨v, htu v ⟨hu.2.trans' hv.1, hv.2⟩, ht⟩

/-- A change to candidate or learner, asked for by an event that does not step down. -/
theorem drained_turned {change : NodeM myId Unit}
    (hbuf : s.bufferedInternalEvent = event :: rest) (hev : event.stepsDown = false)
    (hch : ∀ u, Ensures change u fun _ v => RoleChange u v) :
    Ensures (do drainReadBuffer; change) (s.popped rest) fun _ t =>
      ∃ v, Turned s v ∧ Calm (.quiet 0) v t := by
  refine Ensures.bind roleChange_drainReadBuffer (fun _ _ h => nomatch h.1) fun _ u hu => ?_
  refine (hch u).mono fun _ v hv => ⟨v, ?_, Calm.rfl' v⟩
  refine (hu.2.trans' hv).turned hbuf ?_ fun _ => hev
  rintro rfl
  cases hev

theorem ensures_becomeLeader (hro : s.role = .candidate) :
    Ensures becomeLeader s fun r u =>
      r = .ok () ∧ u.recorded (.enteredLeader u.currentTerm) = s.entered := by
  unfold becomeLeader
  rw [ensures_get_bind, hro]
  exact ⟨rfl, rfl⟩

/-- The ledger of a new leader starts from nothing. -/
theorem does_handleBecomeLeader (hro : s.role = .candidate)
    (hin : ∀ lastEntryId peerIds, allowed (.initPeers lastEntryId peerIds)) :
    Ensures (handleBecomeLeader env) s fun _ t =>
      Does (.producing s.currentTerm) allowed s.entered t := by
  have hpr : (Permit.producing s.currentTerm).Produces s.entered :=
    ⟨trivial, rfl, Nat.zero_le _⟩
  refine Ensures.bind (ensures_becomeLeader hro) ?_ ?_
  · rintro fault u ⟨herr, -⟩
    cases herr
  rintro _ u ⟨-, hent⟩
  rw [ensures_get_bind, ensures_record_bind, hent]
  refine Ensures.chain (does_commitHardState (by simp)) fun _ v hv => ?_
  have hst : Ensures (modifyLeader fun l =>
      { l.initPeersNextIndexAndMatchIndex u.log.lastEntryId u.membership.peerIds with
        clusterMetadata := .ofMembership u.membership }) v fun _ w =>
      Does (.producing s.currentTerm) allowed v w := by
    refine Relation.ReflTransGen.tail
      (Change.ledger (.initPeers u.log.lastEntryId u.membership.peerIds) (hin _ _)).does ?_
    exact .ledger (.bookkeeping { v.leader.initPeersNextIndexAndMatchIndex u.log.lastEntryId
      u.membership.peerIds with clusterMetadata := .ofMembership u.membership }) (.inl rfl)
  refine Ensures.chain hst fun _ w hw => ?_
  refine Ensures.chain (ensures_attempt.mpr
    (does_initiateNoopCommit ((hpr.of_does hv).of_does hw))) fun outcome x _ => ?_
  cases outcome with
  | ok => exact does_pure
  | error fault => cases fault <;> first | exact does_fail | exact does_send (by simp)

theorem handleBecomeLeader_refused (hro : s.role ≠ .candidate) :
    Ensures (handleBecomeLeader env) s fun _ t => t = s := by
  unfold handleBecomeLeader becomeLeader
  rw [ensures_bind, ensures_get_bind]
  cases hca : s.role with
  | candidate => exact absurd hca hro
  | follower | leader | learner => rfl

/-! ### Vote rounds -/

theorem lt_of_countVotes_higherTerm {term lastLogIndex lastLogTerm succeed higherTerm : Nat}
    {responses : List (Option VoteResponse)}
    (h : countVotes term lastLogIndex lastLogTerm succeed responses =
      .error (.higherTerm higherTerm)) : term < higherTerm := by
  fun_induction countVotes term lastLogIndex lastLogTerm succeed responses with
  | case1 => cases h
  | case2 _ _ ih | case3 _ _ _ _ ih => exact ih h
  | case4 _ _ _ _ hlt =>
    cases h
    exact hlt
  | case5 => cases h
  | case6 _ _ _ _ _ _ ih => exact ih h

theorem lt_of_broadcastVoteRequests_higherTerm {term higherTerm : Nat}
    {membership : Membership} {log : BufferedRaftLog} {responses : List (Nat × Option VoteResponse)}
    (h : broadcastVoteRequests myId term membership log responses =
      .error (.higherTerm higherTerm)) : term < higherTerm := by
  unfold broadcastVoteRequests at h
  dsimp only at h
  split_ifs at h
  · cases h
  · split at h
    · rename_i error hco
      cases h
      exact lt_of_countVotes_higherTerm hco
    · split_ifs at h
      cases h

/-- A round that is started wins, or leaves the node without a request for the leader role. -/
theorem candidate_tick_cases (allowed : LedgerEvent myId → Prop) (hexp : env.timerExpired = true) :
    Ensures (Candidate.tick env) s fun _ t =>
      Does (.quiet (s.currentTerm + 1)) allowed s t ∨
      (broadcastVoteRequests myId (s.currentTerm + 1) s.membership s.log env.voteResponses =
          .ok () ∧ Does (.quiet 0) allowed ((s.inRound env).sent .becomeLeader) t) ∨
      ∃ incoming, Does (.quiet incoming) allowed (s.inRound env) t := by
  have had : ∀ T ∈ some (s.currentTerm + 1), s.currentTerm ≤ T ∧
      T ≤ max s.currentTerm (Permit.quiet (s.currentTerm + 1)).incoming := by
    rintro T ⟨⟩
    exact ⟨Nat.le_succ _, le_max_right _ _⟩
  unfold Candidate.tick
  rw [if_pos hexp, ensures_get_bind]
  refine Ensures.bind (commitHardState_cases _ _ _ s) ?_ ?_
  · rintro fault t (⟨_, herr, -⟩ | ⟨-, h⟩)
    · cases herr
    · exact .inl (h.does had)
  · rintro isNew u (⟨_, -, hun | _⟩ | ⟨⟨fault, herr⟩, -⟩)
    · exact absurd (congrArg HardState.currentTerm hun) (Nat.succ_ne_self _)
    swap
    · cases herr
    rw [ensures_record_bind, ensures_record_bind]
    change Ensures _ (s.inRound env) _
    cases hro : broadcastVoteRequests myId (s.currentTerm + 1) s.membership s.log
      env.voteResponses with
    | ok done => exact .inr (.inl ⟨rfl, Relation.ReflTransGen.refl⟩)
    | error error =>
      cases error with
      | higherTerm higherTerm =>
        have hlt := lt_of_broadcastVoteRequests_higherTerm hro
        refine Ensures.mono (Q := fun _ t => Does (.quiet higherTerm) allowed (s.inRound env) t) ?_
          fun _ t ht => Or.inr (.inr ⟨higherTerm, ht⟩)
        refine Ensures.chain (does_commitHardState ?_) fun _ v _ => does_send (by simp)
        rintro T ⟨⟩
        exact ⟨hlt.le, le_max_right _ _⟩
      | noVotingMemberFound | logConflict index expectedTerm actualTerm
      | quorumFailure => exact .inr (.inr ⟨0, Relation.ReflTransGen.refl⟩)

end Events

/-! ## All steps -/

theorem stepEffect_internalEvent {env : Env} (hbuf : s.bufferedInternalEvent = event :: rest) :
    StepEffect s (.internalEvent env)
      (Node.settle Fault.isFatal .internal (handleInternalEvent env event (s.popped rest))) := by
  have htu : (∃ v, Turned s v ∧
      Calm (.quiet 0) v (handleInternalEvent env event (s.popped rest)).2) →
      StepEffect s (.internalEvent env)
        (Node.settle Fault.isFatal .internal (handleInternalEvent env event (s.popped rest))) :=
    fun ⟨v, hv, ht⟩ => .turned v hv (ht.trans' calm_phase)
  cases event with
  | becomeFollower => exact htu (handleBecomeFollower_turned hbuf)
  | becomeCandidate =>
    exact htu (drained_turned hbuf rfl fun _ => roleChange_becomeCandidate)
  | becomeLearner =>
    exact htu (drained_turned hbuf rfl fun _ => roleChange_becomeLearner)
  | becomeLeader =>
    by_cases hro : s.role = .candidate
    · refine .entered rest hbuf hro (Calm.trans' ?_ calm_phase)
      have hent : Ensures (handleBecomeLeader env) (s.popped rest) fun _ t =>
          Does (.producing s.currentTerm) (fun _ => True) (s.popped rest).entered t :=
        does_handleBecomeLeader hro fun _ _ => trivial
      exact hent.mono fun _ _ ht => ht.calm
    · have hre : (handleBecomeLeader env (s.popped rest)).2 = s.popped rest :=
        handleBecomeLeader_refused (s := s.popped rest) hro
      refine htu ⟨s.popped rest, ?_, ?_⟩
      · exact (RoleChange.rfl' _).turned hbuf (by simp) fun _ => rfl
      · change Calm _ _ (handleBecomeLeader env (s.popped rest)).2
        rw [hre]
        exact Calm.rfl' _
  | fatalError => exact .ended rest hbuf rfl
  | _ => exact .calm (calm_internalEvent hbuf rfl rfl)

/-- A step that starts a vote round. -/
theorem stepEffect_round (hro : s.role = .candidate ∧ env.timerExpired = true)
    (hans : s.answersFit env = true) :
    StepEffect s (.tick env) (Node.settle Fault.isPanic .internal (tick env s)) := by
  have hst : s.startsRound (.tick env) = true := by simp [Node.startsRound, hro]
  have hti : tick env s = Candidate.tick env s := by
    rw [tick, get_bind_apply, hro.1]
  rw [hti]
  rcases candidate_tick_cases (fun _ => True) (s := s) hro.2 with
    hfa | ⟨hwon, ht⟩ | ⟨incoming, ht⟩
  · exact .unwritten hst (hfa.calm.trans' calm_phase)
  · exact .won env hst hans hwon (ht.calm.trans' calm_phase)
  · exact .lost env hst incoming (ht.calm.trans' calm_phase)

/-- What every step of the loop does. -/
theorem stepEffect_of_step (h : s.step l = some t) : StepEffect s l t := by
  by_cases hro : s.startsRound l = true
  · cases l with
    | tick =>
      simp only [Node.step, Option.ite_none_right_eq_some, Option.some.injEq] at h
      obtain ⟨⟨-, hans⟩, rfl⟩ := h
      simp only [Node.startsRound, Bool.and_eq_true, decide_eq_true_eq] at hro
      exact stepEffect_round hro (hans hro.1 hro.2)
    | _ => cases hro
  by_cases hre : l = .recvInternal
  · subst hre
    simp only [Node.step, Option.ite_none_right_eq_some, Option.some.injEq] at h
    obtain ⟨-, rfl⟩ := h
    exact .calm calm_recvInternal
  by_cases hev : ∀ env, l ≠ .internalEvent env
  · have hds : Does (s.permit l) (fun _ => True) s t :=
      does_of_step h hre hev (Bool.eq_false_iff.mpr hro)
    exact .calm hds.calm
  · push Not at hev
    obtain ⟨env, rfl⟩ := hev
    simp only [Node.step] at h
    split at h <;> cases h
    rename_i event rest _ hbuf
    exact stepEffect_internalEvent hbuf

/-! ## Purges -/

variable {bound : Nat}

theorem Node.PurgesWithin.mono {bound' : Nat} (h : s.PurgesWithin bound)
    (hle : bound ≤ bound') : s.PurgesWithin bound' :=
  ⟨fun id hid => (h.pending id hid).trans hle, h.purged.trans hle,
    fun e he => (h.announced e he).trans hle⟩

/-- A snapshot that waits to be handled is within the bound. -/
theorem Node.PurgesWithin.purgesTo_internalEvent (h : s.PurgesWithin bound)
    (env : Env) : s.purgesTo (.internalEvent env) ≤ bound := by
  rw [Node.purgesTo, Node.nextInternal]
  cases hbuf : s.bufferedInternalEvent with
  | nil => exact Nat.zero_le bound
  | cons event => exact h.announced event ((mem_queue_popped hbuf).mpr (.inl rfl))

/-- No step purges further than its snapshot and those that waited before. -/
theorem purgesWithin_of_step (hst : s.step l = some t)
    (hto : s.purgesTo l ≤ bound) (hs : s.PurgesWithin bound) : t.PurgesWithin bound := by
  have hpo : ∀ rest event, s.bufferedInternalEvent = event :: rest →
      (s.popped rest).PurgesWithin bound := fun rest event hbuf =>
    ⟨hs.pending, hs.purged, fun e he =>
      hs.announced e ((mem_queue_popped hbuf).mpr (.inr he))⟩
  cases stepEffect_of_step hst with
  | calm h => exact h.purges bound hto hs
  | turned v hv h => exact h.purges bound (Nat.zero_le bound) (hv.purges bound hs)
  | entered rest hbuf hrl h =>
    obtain ⟨-, hpu, hann⟩ := hpo rest _ hbuf
    refine h.purges bound (Nat.zero_le bound) ⟨fun _ hid => ?_, hpu, hann⟩
    cases hid
  | unwritten hro h => exact h.purges bound (Nat.zero_le bound) hs
  | won env hro hans hwon h =>
    have hro : (s.inRound env).PurgesWithin bound := hs
    exact h.purges bound (Nat.zero_le bound) (hro.sent (Nat.zero_le bound))
  | lost env hro incoming h =>
    have hro : (s.inRound env).PurgesWithin bound := hs
    exact h.purges bound (Nat.zero_le bound) hro
  | ended rest hbuf ht =>
    subst ht
    exact hpo rest _ hbuf

end DEngine.Raft

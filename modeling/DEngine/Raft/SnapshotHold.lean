import DEngine.Raft.LedgerSteps

/-!
# Peers that are sent a snapshot

While a snapshot is pushed to a peer, the leader should send the peer nothing else and start
no second push. The state of the peer is what both phases of a send look at, but an answer
of the peer to a request from before the push changes that state. As long as no such answer
is taken over, the state is held until the push is reported to be over.

## Implementation notes

A run of a leader is a list of steps, each with the ledger events that explain it. By
`exists_leading_step` every step of a leader that keeps its role has such events; the result
is about all of them.
-/

namespace DEngine.Raft

open Library Storage Replication

variable {myId : Nat} {s t : Node myId} {l : Label}

/-- The push to this peer is reported to be over. -/
def LedgerEvent.completed? : LedgerEvent myId → Option Nat
  | .pushCompleted peer _ _ => some peer
  | _ => none

namespace LeaderState

variable (l : LeaderState myId)

/-- The event starts a snapshot push to the peer. -/
def StartsPush (peer : Nat) : LedgerEvent myId → Prop
  | .snapshot backoff target => target = peer ∧ ¬ (target ∈ backoff ∨ l.peerState target = .snapshot)
  | _ => False

/-- The event dispatches an AppendEntries request to the peer. -/
def DispatchesAppend (peer : Nat) : LedgerEvent myId → Prop
  | .append target _ _ => target = peer ∧ l.peerState target ≠ .snapshot
  | _ => False

/-- Between the start of a push and its completion nothing else is sent to the peer. -/
def HoldsPushes (events : List (LedgerEvent myId)) : Prop :=
  ∀ before start between next peer, before ++ start :: between ++ [next] <+: events →
    (l.after before).StartsPush peer start → (∀ e ∈ between, e.completed? ≠ some peer) →
      ¬ (l.after (before ++ start :: between)).DispatchesAppend peer next ∧
        ¬ (l.after (before ++ start :: between)).StartsPush peer next

/-- No answer of a peer is taken over while a snapshot is on its way to it. -/
def AnswersSpared : LeaderState myId → List (LedgerEvent myId) → Prop
  | _, [] => True
  | l, e :: rest =>
    (∀ peer update, e = .answered peer update → l.peerState peer ≠ .snapshot) ∧
      AnswersSpared (l.handle e) rest

end LeaderState

instance {myId : Nat} (l : LeaderState myId) (peer : Nat) : DecidablePred (l.StartsPush peer) :=
  fun e => by cases e <;> dsimp only [LeaderState.StartsPush] <;> infer_instance

namespace Node

/-- The answer that a step takes over is not one of a peer that is sent a snapshot. -/
def AnswersInTurn (s : Node myId) (l : Label) : Prop :=
  ∀ answer ∈ s.handledAnswer l, s.leader.peerState answer.1 ≠ .snapshot
deriving Decidable

instance (s : Node myId) (l : Label) : DecidablePred (s.Explains l) := fun e => by
  cases e <;> dsimp only [Explains] <;> infer_instance

end Node

/-- The runs of a leader that keeps its role, with the events of its ledger. -/
def leading (myId : Nat) : Machine (Node myId) (Label × List (LedgerEvent myId)) where
  init := fun s => (raftLoop myId).Reach (fun _ _ => True) s ∧ s.role = .leader
  step := fun s label =>
    match s.step label.1 with
    | some t =>
      if s.role = .leader ∧ t.role = .leader ∧ t.leader = s.leader.after label.2 ∧
          ∀ e ∈ label.2, s.Explains label.1 e then
        some t
      else none
    | none => none

variable {events : List (LedgerEvent myId)}

theorem leading_step_iff :
    (leading myId).step s (l, events) = some t ↔
      s.step l = some t ∧ s.role = .leader ∧ t.role = .leader ∧ t.leader = s.leader.after events ∧
        ∀ e ∈ events, s.Explains l e := by
  unfold leading
  dsimp only
  cases s.step l with
  | none => simp
  | some =>
    simp only [Option.ite_none_right_eq_some, Option.some.injEq]
    constructor
    · rintro ⟨h, rfl⟩
      exact ⟨rfl, h⟩
    · rintro ⟨rfl, h⟩
      exact ⟨h, rfl⟩

theorem exists_leading_step (hst : s.step l = some t) (hs : s.role = .leader)
    (ht : t.role = .leader) : ∃ events, (leading myId).step s (l, events) = some t := by
  obtain ⟨events, hex, hld⟩ := ledgered_of_step hst hs ht
  exact ⟨events, leading_step_iff.mpr ⟨hst, hs, ht, hld, hex⟩⟩

/-! ## The state of a peer -/

namespace LeaderState

variable {l : LeaderState myId} {e : LedgerEvent myId} {peer : Nat}

@[simp] theorem peerState_setPeerState (q : Nat) (state : PeerReplicationState) :
    (l.setPeerState q state).peerState peer = if peer = q then state else l.peerState peer := by
  simp only [peerState, setPeerState, OrderedMap.getElem?_insert_eq]
  split_ifs <;> rfl

theorem peerState_updateMatchIndex (q newMatchId : Nat) :
    (l.updateMatchIndex q newMatchId).peerState peer = l.peerState peer := by
  unfold updateMatchIndex
  split_ifs <;> rfl

theorem peerState_initPeersNextIndexAndMatchIndex (lastEntryId : Nat) (peerIds : List Nat) :
    (l.initPeersNextIndexAndMatchIndex lastEntryId peerIds).peerState peer = l.peerState peer := by
  unfold initPeersNextIndexAndMatchIndex
  induction peerIds generalizing l with
  | nil => rfl
  | cons q rest ih =>
    rw [List.foldl_cons, ih, peerState_updateMatchIndex]
    rfl

/-- An answer of a peer ends its snapshot state, whatever it says. -/
theorem peerState_updatePeerIndex (q : Nat) (update : PeerUpdate) :
    (l.updatePeerIndex q update).peerState peer =
      if peer = q then if update.success then .replicate else .probe else l.peerState peer := by
  have hadv : ∀ (newNextId : Nat) (state : PeerReplicationState),
      ((l.updateNextIndex q newNextId).setPeerState q state).peerState peer =
        if peer = q then state else l.peerState peer :=
    fun _ _ => peerState_setPeerState _ _
  unfold updatePeerIndex
  cases update.matchIndex with
  | none => cases update.success <;> exact hadv _ _
  | some =>
    cases update.success <;> exact (peerState_updateMatchIndex _ _).trans (hadv _ _)

/-- Only an answer of the peer and the completion of the push end the snapshot state. -/
theorem peerState_handle (h : l.peerState peer = .snapshot)
    (hans : ∀ update, e ≠ .answered peer update) (hco : e.completed? ≠ some peer) :
    (l.handle e).peerState peer = .snapshot := by
  cases e with
  | bookkeeping => exact h
  | initPeers lastEntryId peerIds =>
    exact (peerState_initPeersNextIndexAndMatchIndex lastEntryId peerIds).trans h
  | answered q update =>
    have hq : peer ≠ q := fun heq => hans update (heq ▸ rfl)
    simp only [handle, peerState_updatePeerIndex, if_neg hq, h]
  | streamError q =>
    simp only [handle, handlePeerStreamError]
    split_ifs with hq
    · exact h
    · have hne : peer ≠ q := fun heq => hq (heq ▸ h)
      rw [peerState_setPeerState, if_neg hne]
      exact h
  | pushCompleted q =>
    have hne : peer ≠ q := fun heq => hco (heq ▸ rfl)
    have hen : ∀ l' : LeaderState myId,
        (l'.handleSnapshotPushCompleted q).peerState peer = l'.peerState peer := by
      intro l'
      unfold handleSnapshotPushCompleted
      split_ifs
      · rfl
      · rw [peerState_setPeerState, if_neg hne]
    simp only [handle]
    split_ifs
    · rw [hen]
      split
      · exact (peerState_initPeersNextIndexAndMatchIndex _ _).trans h
      · exact h
    · exact h
  | membershipApplied lastEntryId membership =>
    exact (peerState_initPeersNextIndexAndMatchIndex (l := { l with
      clusterMetadata := .ofMembership membership }) lastEntryId _).trans h
  | append =>
    simp only [handle, dispatchAppend]
    split_ifs <;> exact h
  | snapshot =>
    simp only [handle, dispatchSnapshot]
    split_ifs
    · exact h
    · rw [peerState_setPeerState]
      split_ifs
      · rfl
      · exact h

theorem StartsPush.peerState_handle (h : l.StartsPush peer e) :
    (l.handle e).peerState peer = .snapshot := by
  cases e with
  | snapshot =>
    obtain ⟨rfl, hfr⟩ := h
    simp only [handle, dispatchSnapshot, if_neg hfr, peerState_setPeerState, if_true]
  | _ => cases h

theorem answersSpared_append {rest : List (LedgerEvent myId)} :
    l.AnswersSpared (events ++ rest) ↔
      l.AnswersSpared events ∧ (l.after events).AnswersSpared rest := by
  induction events generalizing l with
  | nil => simp [AnswersSpared]
  | cons e events ih => simp only [List.cons_append, AnswersSpared, ih, after_cons, and_assoc]

theorem peerState_after (h : l.peerState peer = .snapshot)
    (hsp : l.AnswersSpared events) (hop : ∀ e ∈ events, e.completed? ≠ some peer) :
    (l.after events).peerState peer = .snapshot := by
  induction events generalizing l with
  | nil => exact h
  | cons e rest ih =>
    obtain ⟨hans, hre⟩ := hsp
    rw [after_cons]
    apply ih _ hre fun e' he' => hop e' (List.mem_cons_of_mem e he')
    refine LeaderState.peerState_handle h ?_ (hop e List.mem_cons_self)
    exact fun update heq => hans peer update heq h

/-- What both phases of a send look at keeps them from sending. -/
theorem holdsPushes_of_answersSpared (h : l.AnswersSpared events) : l.HoldsPushes events := by
  rintro before start between next peer ⟨rest, rfl⟩ hst hop
  rw [List.append_assoc, answersSpared_append, answersSpared_append] at h
  obtain ⟨⟨-, -, hbe⟩, -⟩ := h
  have hhe : (l.after (before ++ start :: between)).peerState peer = .snapshot := by
    rw [after_append, after_cons]
    exact peerState_after hst.peerState_handle hbe hop
  constructor
  · intro happ
    cases next with
    | append =>
      obtain ⟨rfl, hfr⟩ := happ
      exact hfr hhe
    | _ => cases happ
  · intro hsn
    cases next with
    | snapshot =>
      obtain ⟨rfl, hfr⟩ := hsn
      exact hfr (.inr hhe)
    | _ => cases hsn

end LeaderState

/-! ## Runs of a leader -/

theorem handledInternal_of_handledAnswer {answer : Nat × PeerUpdate}
    (h : s.handledAnswer l = some answer) :
    ∃ peer result, s.handledInternal l = some (.appendResult peer result) := by
  unfold Node.handledAnswer at h
  split at h
  · exact ⟨_, _, ‹_›⟩
  · cases h

/-- Of the events that explain a step, the answers find their peer in another state. -/
theorem answersSpared_of_explains {leader : LeaderState myId}
    (htu : ∀ answer ∈ s.handledAnswer l, leader.peerState answer.1 ≠ .snapshot)
    (hex : ∀ e ∈ events, s.Explains l e) : leader.AnswersSpared events := by
  induction events generalizing leader with
  | nil => trivial
  | cons e rest ih =>
    have he : s.Explains l e := hex e List.mem_cons_self
    refine ⟨?_, ih ?_ fun e' he' => hex e' (List.mem_cons_of_mem e he')⟩
    · rintro peer update rfl
      exact htu (peer, update) he
    · intro answer hans
      obtain ⟨peer, result, hin⟩ := handledInternal_of_handledAnswer hans
      -- a step that takes over an answer is explained by it and by bookkeeping alone
      cases e with
      | bookkeeping => exact htu answer hans
      | answered q update =>
        cases hans.symm.trans he
        simp only [LeaderState.handle, LeaderState.peerState_updatePeerIndex, if_true]
        cases update.success <;> simp
      | initPeers => cases he
      | streamError q | pushCompleted q success lastIncludedIndex => cases hin.symm.trans he
      | membershipApplied => cases hin.symm.trans he.1
      | append q request effectiveNextIndex | snapshot backoff q => cases hans.symm.trans he

theorem answersSpared_of_run {steps : List (Label × List (LedgerEvent myId))}
    (hrun : (leading myId).runIf (fun u step => u.AnswersInTurn step.1) s steps = some t) :
    s.leader.AnswersSpared (steps.flatMap Prod.snd) := by
  induction steps generalizing s with
  | nil => trivial
  | cons step rest ih =>
    unfold Machine.runIf at hrun
    split_ifs at hrun with htu
    cases hst : (leading myId).step s step with
    | none => simp [hst] at hrun
    | some =>
      simp only [hst] at hrun
      obtain ⟨-, -, -, hld, hex⟩ := leading_step_iff.mp hst
      rw [List.flatMap_cons, LeaderState.answersSpared_append, ← hld]
      exact ⟨answersSpared_of_explains htu hex, ih hrun⟩

/-- A start behind a purge: entries up to index 3 are gone, entry 4 is there. -/
def Node.purgedStart : Node 1 :=
  Node.start .small .follower (SharedState.new none none)
    (BufferedRaftLog.new 4 [⟨4, 1, none⟩] (some ⟨1, 3⟩)) .trio

theorem Node.init_purgedStart : Node.purgedStart.Init :=
  ⟨.small, .follower, SharedState.new none none, 4, [⟨4, 1, none⟩], some ⟨1, 3⟩, .trio, rfl,
    Or.inl rfl, by decide, by decide, by decide⟩

/-- Peer 2 answers a request for entry 5 with the conflict that it has no entries. -/
def emptyPeerAnswer : InternalEvent := .appendResult 2 (some (.conflict 2 2 none (some 1)))

/-- The leader of term 2 sends its no-op and a heartbeat to both peers. The conflict that peer 2
answers to the first of them takes its next index behind the purge. -/
def laggingPeerRun : List Label :=
  winningRun ++ [.recvInternal, .internalEvent {}] ++ restOfRound ++
    [.tick { heartbeatDue := true }] ++ restOfRound ++
    [.push emptyPeerAnswer, .recvInternal, .internalEvent {}] ++ restOfRound

def noopToThree : LedgerEvent 1 := .append 3 ⟨2, 1, 4, 1, [⟨5, 2, some noopPayload⟩], 0⟩ 5

/-- A heartbeat with a snapshot at hand: the no-op goes to peer 3 again and a push to peer 2. -/
def pushingHeartbeat : Label × List (LedgerEvent 1) :=
  (.tick { heartbeatDue := true, snapshotReady := true }, [noopToThree, .snapshot [] 2])

/-- The push fails before the next heartbeat. -/
def failedPushSteps : List (Label × List (LedgerEvent 1)) :=
  [pushingHeartbeat, (.flush {}, []), (.nextRound, []), pushingHeartbeat, (.flush {}, []),
    (.nextRound, []), (.push (.snapshotPushCompleted 2 false 2 none), []), (.recvInternal, []),
    (.internalEvent {}, [.pushCompleted 2 false none])]

/-- The conflict that peer 2 answers to the heartbeat comes in behind the start of the push. -/
def lateAnswerSteps : List (Label × List (LedgerEvent 1)) :=
  [pushingHeartbeat, (.flush {}, []), (.nextRound, []), (.push emptyPeerAnswer, []),
    (.recvInternal, []), (.internalEvent {}, [.answered 2 ⟨none, 1, false⟩]), (.flush {}, []),
    (.nextRound, []), pushingHeartbeat]

end DEngine.Raft

import DEngine.Raft.StepEffects

/-!
# Frames of the handlers

The handlers of a node are built from a few changes of its state. A relation between
states that is reflexive, transitive and kept by these changes is kept by every handler,
so that what a handler leaves alone is shown by looking at the changes and not at the
handler.

## Implementation notes

Two changes are set apart, since they do not happen everywhere: the index of the no-op
is written when the no-op commits, and the role changes over the events that ask for it.
-/

namespace DEngine.Raft

open Library Library.Handler Storage Replication

variable {myId : Nat}

/-- A relation that the changes of a handler keep. -/
class Frame (R : Node myId → Node myId → Prop) : Prop extends Std.Refl R, IsTrans (Node myId) R where
  sent : ∀ (s : Node myId) event, R s (s.sent event)
  recorded : ∀ (s : Node myId) action, (∀ term, action ≠ .enteredLeader term) →
    R s (s.recorded action)
  log : ∀ (s : Node myId) log, R s { s with log := log }
  hardState : ∀ (s : Node myId) hardState metaStore,
    R s { s with shared := { s.shared with hardState := hardState }, metaStore := metaStore }
  currentLeader : ∀ (s : Node myId) leaderId,
    R s { s with shared := { s.shared with currentLeaderId := leaderId } }
  /-- A leader never moves its commit index back. -/
  commitIndex : ∀ (s : Node myId) index, (s.role = .leader → s.commitIndex ≤ index) →
    R s { s with shared := { s.shared with commitIndex := index } }
  leader : ∀ (s : Node myId) (leader : LeaderState myId), leader.noopLogId = s.leader.noopLogId →
    R s { s with leader := leader }
  purge : ∀ (s : Node myId) pending purged,
    R s { s with pendingPurgeUpto := pending, lastPurgedIndex := purged }
  /-- What the loop does around its handlers, the internal events apart. -/
  loop : ∀ (s : Node myId) membership cmdRx eventRx buffered phase,
    R s { s with
      membership := membership, cmdRx := cmdRx, eventRx := eventRx
      bufferedInboundEvent := buffered, phase := phase }

variable {R : Node myId → Node myId → Prop} [Frame R] {p : Permit}
  {allowed : LedgerEvent myId → Prop} {s t : Node myId} {env : Env}

/-! ## Handlers -/

/-- Bookkeeping that does not leave the no-op alone is up to the relation. -/
theorem Change.frame
    (hbk : ∀ (s : Node myId) other, allowed (.bookkeeping other) →
      R s { s with leader := s.leader.handle (.bookkeeping other) })
    (h : Change p allowed s t) : R s t := by
  cases h with
  | sent event => exact Frame.sent s event
  | recorded action hac =>
    refine Frame.recorded s action ?_
    rintro term rfl
    exact hac
  | log log => exact Frame.log s log
  | purged => exact Frame.log s _
  | scheduled => exact Frame.purge s _ s.lastPurgedIndex
  | completed => exact Frame.purge s _ _
  | commitIndex index hle => exact Frame.commitIndex s index fun hro => hle (.inr hro)
  | currentLeader leaderId => exact Frame.currentLeader s leaderId
  | hardState hardState metaStore => exact Frame.hardState s hardState metaStore
  | unwritten hardState =>
    exact IsTrans.trans _ _ _ (Frame.hardState s hardState s.metaStore)
      (IsTrans.trans _ _ _ (Frame.log _ _) (Frame.sent _ .fatalError))
  | ledger e hld =>
    by_cases hbo : ∃ other, e = .bookkeeping other
    · obtain ⟨other, rfl⟩ := hbo
      rcases hld with hno | hal
      · exact Frame.leader s _ hno
      · exact hbk s other hal
    · push Not at hbo
      exact Frame.leader s _ (s.leader.noopLogId_handle hbo)
  | loop => exact Frame.loop s _ _ _ _ _

theorem Does.frame
    (hbo : ∀ (s : Node myId) other, allowed (.bookkeeping other) →
      R s { s with leader := s.leader.handle (.bookkeeping other) })
    (h : Does p allowed s t) : R s t := by
  induction h with
  | refl => exact Std.Refl.refl s
  | tail _ hla ih => exact IsTrans.trans _ _ _ ih (hla.frame hbo)

/-- A handler that leaves the no-op alone keeps the relation. -/
theorem ensures_frame {α : Type} {x : NodeM myId α} {u : Node myId}
    (h : Ensures x s fun _ t => Does p (fun e => ∀ other, e ≠ .bookkeeping other) u t) :
    Ensures x s fun _ t => R u t :=
  h.mono fun _ _ ht => ht.frame fun _ other hbo => absurd rfl (hbo other)

theorem frame_drainReadBuffer : Ensures drainReadBuffer s fun _ t => R s t := by
  unfold drainReadBuffer
  rw [ensures_modify]
  split_ifs
  · exact Frame.leader s _ rfl
  · exact Std.Refl.refl s

/-- The entry into the leader role, from where the role is taken. -/
theorem frame_handleBecomeLeader (hro : s.role = .candidate) :
    Ensures (handleBecomeLeader env) s fun _ t => R s.entered t :=
  ensures_frame (does_handleBecomeLeader hro fun _ _ _ hbo => by cases hbo)

/-- Events that change neither the role nor the queue itself. -/
theorem frame_internalEvent {event : InternalEvent} {rest : List InternalEvent}
    (hbuf : s.bufferedInternalEvent = event :: rest) (hsw : event.switches = false)
    (hno : ∀ data, event ≠ .notifyNewCommitIndex data)
    (hbo : event.counts = true → ∀ (s : Node myId) other,
      R s { s with leader := s.leader.handle (.bookkeeping other) }) :
    Ensures (handleInternalEvent env event) (s.popped rest) fun _ t => R (s.popped rest) t :=
  (does_internalEvent hbuf hsw hno).mono fun _ _ ht =>
    ht.frame fun s other hco => hbo hco s other

/-! ## Steps -/

theorem frame_settle {x : NodeM myId Unit} {stops : Fault → Bool} {next : Phase}
    (hx : Ensures x s fun _ t => R s t) : R s (Node.settle stops next (x s)) := by
  have hph : Change (.quiet 0) (fun _ => False) (x s).2 (Node.settle stops next (x s)) :=
    change_phase
  exact IsTrans.trans _ _ _ hx (hph.frame fun _ _ hfa => hfa.elim)

theorem frame_inRound : R s (s.inRound env) :=
  IsTrans.trans _ _ _ (Frame.hardState s _ _)
    (IsTrans.trans _ _ _ (Frame.recorded _ _ (by simp)) (Frame.recorded _ _ (by simp)))

/-- Every step that neither receives nor handles internal events. -/
theorem frame_of_step {l : Label} (hst : s.step l = some t) (hre : l ≠ .recvInternal)
    (hev : ∀ env, l ≠ .internalEvent env) : R s t := by
  have hfr : ∀ {p : Permit} {u v : Node myId}, Does p (fun _ => False) u v → R u v :=
    fun h => h.frame fun _ _ hfl => hfl.elim
  by_cases hro : s.startsRound l = true
  · cases l with
    | tick env =>
      simp only [Node.step, Option.ite_none_right_eq_some, Option.some.injEq] at hst
      obtain ⟨-, rfl⟩ := hst
      simp only [Node.startsRound, Bool.and_eq_true, decide_eq_true_eq] at hro
      apply frame_settle
      have hti : tick env s = Candidate.tick env s := by
        rw [tick, get_bind_apply, hro.1]
      rw [Ensures, hti]
      rcases candidate_tick_cases (fun _ => False) (s := s) hro.2 with
        hfa | ⟨-, ht⟩ | ⟨incoming, ht⟩
      · exact hfr hfa
      · exact IsTrans.trans _ _ _ (IsTrans.trans _ _ _ frame_inRound (Frame.sent _ _)) (hfr ht)
      · exact IsTrans.trans _ _ _ frame_inRound (hfr ht)
    | _ => cases hro
  · exact hfr (does_of_step hst hre hev (Bool.eq_false_iff.mpr hro))

end DEngine.Raft

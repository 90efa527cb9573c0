import DEngine.Raft.EventLoop
import DEngine.Raft.Ledger
import DEngine.Raft.LogEffects

/-!
# What a handler may do to a node

A handler that neither changes the role nor asks for the leader role is a sequence of
small changes of the node. A permit says which of them may happen: which terms the
handler may adopt, what it may write to the journal, whether it touches the
acknowledged indexes. `Does` is shown for each operation and each handler once, and
what a handler keeps follows from the changes: `Calm` collects what every handler
keeps.

## Implementation notes

The last field of `Calm` is about the log and the commit index. It holds under a
condition of its own, since a replica keeps its commit index only over some
requests.
-/

namespace DEngine.Raft

open Library Library.Handler Storage Replication

variable {myId : Nat}

namespace Node

/-- An event that takes the node out of its role, or ends the loop, waits. -/
def SteppingDown (s : Node myId) : Prop := ∃ e ∈ s.queue, e.stepsDown = true
deriving Decidable

/-- The request for the leader role waits. -/
def LeaderAsked (s : Node myId) : Prop := .becomeLeader ∈ s.queue
deriving Decidable

/-- A poisoned log has been reported to the loop. -/
def PoisonReported (s : Node myId) : Prop := s.log.poisoned = true → .fatalError ∈ s.queue

/-- While the log takes writes, the term and the vote in memory are those written last. -/
def InSync (s : Node myId) : Prop :=
  s.log.poisoned = false → ∃ w ∈ s.metaStore.head?, w.hardState = s.shared.hardState ∧
    w.journalLength ≤ s.journal.length

/-- All that is purged, or may be without a new snapshot, is within the bound. -/
def PurgesWithin (s : Node myId) (bound : Nat) : Prop :=
  (∀ id ∈ s.pendingPurgeUpto, id.index ≤ bound) ∧ s.log.lastPurgedIndex ≤ bound ∧
    ∀ e ∈ s.queue, e.announced ≤ bound

section PurgesWithin

variable {s : Node myId} {bound : Nat} (h : s.PurgesWithin bound)

include h

theorem PurgesWithin.pending : ∀ id ∈ s.pendingPurgeUpto, id.index ≤ bound := h.1

theorem PurgesWithin.purged : s.log.lastPurgedIndex ≤ bound := h.2.1

theorem PurgesWithin.announced : ∀ e ∈ s.queue, e.announced ≤ bound := h.2.2

end PurgesWithin

theorem SteppingDown.of_kept {s t : Node myId} (h : s.SteppingDown)
    (hke : ∀ e : InternalEvent, e.stepsDown = true → e ∈ s.queue → e ∈ t.queue) :
    t.SteppingDown := by
  obtain ⟨e, he, hdw⟩ := h
  exact ⟨e, hke e hdw he, hdw⟩

end Node

/-- What a handler is allowed to do. -/
structure Permit where
  /-- The term in which it may produce entries and requests. -/
  term : Nat
  /-- The largest term that it may adopt. -/
  incoming : Nat
  produces : Prop
  /-- It may take over acknowledgements and commit by quorum. -/
  counts : Prop
  grants : VoteRequest → Prop
  /-- The largest index that a new snapshot lets it purge. -/
  purgesTo : Nat
  /-- The condition under which it keeps the log well formed and the commit index. -/
  safe : Prop

/-- What a handler may write to the journal. -/
def Permit.Allows (p : Permit) : Action → Prop
  | .answeredVote request response => response.voteGranted = true → p.grants request
  | .answeredAppend _ => True
  | .answeredSnapshot _ _ => True
  | .notifiedCommit _ => True
  | .acknowledged _ _ => p.counts
  | .quorum _ _ _ _ => p.counts
  | .generated entries => p.produces ∧ ∀ e ∈ entries, e.term = p.term
  | .requested _ request => p.produces ∧ request.term = p.term
  | .voteRound _ _ _ => False
  | .selfVote _ => False
  | .enteredLeader _ => False

/-- The state behind a handler that keeps to its permit. -/
structure Calm (p : Permit) (s t : Node myId) : Prop where
  role_eq : t.role = s.role
  asked : t.LeaderAsked → s.LeaderAsked
  kept : ∀ e : InternalEvent, e.stepsDown = true → e ∈ s.queue → e ∈ t.queue
  acts : ∃ done, t.journal = done ++ s.journal ∧ ∀ a ∈ done, p.Allows a
  term : t.currentTerm = s.currentTerm ∨
    s.currentTerm < t.currentTerm ∧ t.currentTerm ≤ p.incoming
  matched : ¬ p.counts → t.leader.matchIndex = s.leader.matchIndex
  poison : s.PoisonReported → t.PoisonReported
  writes : s.metaStore <:+ t.metaStore
  inSync : s.InSync → t.InSync
  purges : ∀ bound, p.purgesTo ≤ bound → s.PurgesWithin bound → t.PurgesWithin bound
  steady : p.safe → 1 ≤ s.currentTerm → s.log.WellFormed →
    t.log.WellFormed ∧ s.commitIndex ≤ t.commitIndex

namespace Calm

variable {p : Permit} {s t u : Node myId}

theorem term_le (h : Calm p s t) : s.currentTerm ≤ t.currentTerm := by
  rcases h.term with heq | ⟨hlt, -⟩
  · exact heq.ge
  · exact hlt.le

theorem steppingDown (h : Calm p s t) (hs : s.SteppingDown) : t.SteppingDown := hs.of_kept h.kept

/-- Without a newer term to adopt the term stays. -/
theorem term_eq (h : Calm p s t) (hinc : p.incoming ≤ s.currentTerm) :
    t.currentTerm = s.currentTerm := by
  have := h.term
  omega

theorem rfl' (s : Node myId) : Calm p s s where
  role_eq := rfl
  asked := id
  kept := fun _ _ he => he
  acts := ⟨[], rfl, nofun⟩
  term := Or.inl rfl
  matched := fun _ => rfl
  poison := id
  writes := List.suffix_rfl
  inSync := id
  purges := fun _ _ hs => hs
  steady := fun _ _ hwf => ⟨hwf, le_rfl⟩

theorem trans' (hst : Calm p s t) (htu : Calm p t u) : Calm p s u where
  role_eq := htu.role_eq.trans hst.role_eq
  asked := fun h => hst.asked (htu.asked h)
  kept := fun e hdw he => htu.kept e hdw (hst.kept e hdw he)
  acts := by
    obtain ⟨first, hfi, hall⟩ := hst.acts
    obtain ⟨second, hse, hall'⟩ := htu.acts
    refine ⟨second ++ first, ?_, fun a ha => ?_⟩
    · rw [hse, hfi, List.append_assoc]
    · rcases List.mem_append.mp ha with h | h
      · exact hall' a h
      · exact hall a h
  term := by
    have h := hst.term
    have h' := htu.term
    omega
  matched := fun hp => (htu.matched hp).trans (hst.matched hp)
  poison := fun hs => htu.poison (hst.poison hs)
  writes := hst.writes.trans htu.writes
  inSync := fun hs => htu.inSync (hst.inSync hs)
  purges := fun bound hp hs => htu.purges bound hp (hst.purges bound hp hs)
  steady := fun hp hte hwf => by
    obtain ⟨hwf', hle⟩ := hst.steady hp hte hwf
    obtain ⟨hwf'', hle'⟩ := htu.steady hp (hte.trans hst.term_le) hwf'
    exact ⟨hwf'', hle.trans hle'⟩

instance : Std.Refl (@Calm myId p) := ⟨rfl'⟩

instance : IsTrans (Node myId) (Calm p) := ⟨fun _ _ _ => trans'⟩

end Calm

/-! ## Changes -/

namespace Node

/-- The node with one more event in the internal channel. -/
def sent (s : Node myId) (event : InternalEvent) : Node myId :=
  { s with internalRx := s.internalRx ++ [event] }

/-- The node with one more action in its journal. -/
def recorded (s : Node myId) (action : Action) : Node myId :=
  { s with journal := action :: s.journal }

/-- The state behind a failed write: the log is poisoned and the loop is told. -/
def reportPoison (s : Node myId) : Node myId :=
  { s with log := { s.log with poisoned := true } }.sent .fatalError

/-- The node with its hard state written. -/
def saved (s : Node myId) : Node myId :=
  { s with metaStore := ⟨s.shared.hardState, s.journal.length⟩ :: s.metaStore }

/-- The node with its term and vote changed in memory. -/
def withHardState (s : Node myId) (term : Option Nat) (votedFor : Option VotedFor) :
    Node myId :=
  { s with shared := (s.shared.setHardState term votedFor).2 }

end Node

namespace Permit

/-- The term stays, or it moves to one that the handler may adopt. -/
def Adopts (p : Permit) (s : Node myId) (term : Nat) : Prop :=
  term = s.currentTerm ∨ s.currentTerm < term ∧ term ≤ p.incoming

/-- What may happen to the ledger of the leader. Bookkeeping that leaves the no-op alone always
may. -/
def Books (p : Permit) (allowed : LedgerEvent myId → Prop) (l : LeaderState myId) :
    LedgerEvent myId → Prop
  | .bookkeeping other => other.noopLogId = l.noopLogId ∨ allowed (.bookkeeping other)
  | .append _ _ _ => p.produces
  | .snapshot _ _ => p.produces
  | .answered peer update => p.counts ∧ allowed (.answered peer update)
  | e => allowed e

end Permit

/-- The changes that handlers are made of. -/
inductive Change (p : Permit) (allowed : LedgerEvent myId → Prop) (s : Node myId) :
    Node myId → Prop
  | sent (event : InternalEvent)
      (hevent : event ≠ .becomeLeader ∧ event.announced ≤ p.purgesTo) :
      Change p allowed s (s.sent event)
  | recorded (action : Action) (haction : p.Allows action) :
      Change p allowed s (s.recorded action)
  | log (log : BufferedRaftLog) (hmarks : log.marks = s.log.marks)
      (hwf : p.safe → 1 ≤ s.currentTerm → s.log.WellFormed → log.WellFormed) :
      Change p allowed s { s with log := log }
  /-- The pending purge is executed. -/
  | purged (io : Except Fault Unit) (scheduled : LogId)
      (hpending : s.pendingPurgeUpto = some scheduled) :
      Change p allowed s { s with log := (s.log.purgeLogsUpTo io scheduled).2 }
  | scheduled (target : LogId) (htarget : target.index ≤ p.purgesTo) :
      Change p allowed s { s with pendingPurgeUpto := some target }
  | completed (purgedId : LogId) :
      Change p allowed s { s with lastPurgedIndex := some purgedId, pendingPurgeUpto := none }
  | commitIndex (index : Nat) (hle : p.safe ∨ s.role = .leader → s.commitIndex ≤ index) :
      Change p allowed s { s with shared := { s.shared with commitIndex := index } }
  | currentLeader (leaderId : Nat) :
      Change p allowed s { s with shared := { s.shared with currentLeaderId := leaderId } }
  /-- The hard state changes, and with it what is written. -/
  | hardState (hardState : HardState) (metaStore : List MetaWrite)
      (hterm : p.Adopts s hardState.currentTerm) (hwrites : s.metaStore <:+ metaStore)
      (hsync : s.InSync → Node.InSync { s with
        shared := { s.shared with hardState := hardState }, metaStore := metaStore }) :
      Change p allowed s { s with
        shared := { s.shared with hardState := hardState }, metaStore := metaStore }
  /-- The hard state changes, and the write fails. -/
  | unwritten (hardState : HardState) (hterm : p.Adopts s hardState.currentTerm) :
      Change p allowed s
        (Node.reportPoison { s with shared := { s.shared with hardState := hardState } })
  | ledger (e : LedgerEvent myId) (hbooks : p.Books allowed s.leader e) :
      Change p allowed s { s with leader := s.leader.handle e }
  /-- What the loop does around its handlers. -/
  | loop (membership : Membership) (cmdRx : List ClientCmd) (eventRx buffered : List InboundEvent)
      (phase : Phase) :
      Change p allowed s { s with
        membership := membership, cmdRx := cmdRx, eventRx := eventRx
        bufferedInboundEvent := buffered, phase := phase }

/-- The state is reached by changes that are allowed. -/
def Does (p : Permit) (allowed : LedgerEvent myId → Prop) : Node myId → Node myId → Prop :=
  Relation.ReflTransGen (Change p allowed)

section Changes

variable {p : Permit} {allowed : LedgerEvent myId → Prop} {s t u : Node myId}

theorem Change.does (h : Change p allowed s t) : Does p allowed s t := Relation.ReflTransGen.single h

theorem Does.trans' (hst : Does p allowed s t) (htu : Does p allowed t u) : Does p allowed s u :=
  Relation.ReflTransGen.trans hst htu

instance : Std.Refl (Does p allowed) := ⟨fun _ => Relation.ReflTransGen.refl⟩

instance : IsTrans (Node myId) (Does p allowed) := ⟨fun _ _ _ => Does.trans'⟩

variable {event : InternalEvent}

theorem Node.mem_queue_sent {e : InternalEvent} :
    e ∈ (s.sent event).queue ↔ e ∈ s.queue ∨ e = event := by
  simp [Node.sent, Node.queue, or_assoc]

theorem Node.steppingDown_sent (hev : event.stepsDown = true) : (s.sent event).SteppingDown :=
  ⟨event, Node.mem_queue_sent.mpr (.inr rfl), hev⟩

/-- The bound holds of the new event too. -/
theorem Node.PurgesWithin.sent {bound : Nat} (hs : s.PurgesWithin bound)
    (hev : event.announced ≤ bound) : (s.sent event).PurgesWithin bound := by
  refine ⟨hs.pending, hs.purged, fun e he => ?_⟩
  rcases Node.mem_queue_sent.mp he with he | rfl
  · exact hs.announced e he
  · exact hev

theorem Node.inSync_saved : s.saved.InSync :=
  fun _ => ⟨_, rfl, rfl, le_rfl⟩

/-! ### What the changes keep -/

/-- Events may leave the queue or move in it, but those that step down stay. -/
theorem calm_of_queue (hro : t.role = s.role)
    (hfr : ∀ e : InternalEvent, (∀ data, e ≠ .notifyNewCommitIndex data) → e ∈ t.queue →
      e ∈ s.queue)
    (hke : ∀ e : InternalEvent, e.stepsDown = true → e ∈ s.queue → e ∈ t.queue)
    (hjo : t.journal = s.journal)
    (hst : (t.shared.hardState, t.metaStore, t.pendingPurgeUpto) =
      (s.shared.hardState, s.metaStore, s.pendingPurgeUpto))
    (hcom : t.commitIndex = s.commitIndex) (hlog : t.log = s.log)
    (hma : ¬ p.counts → t.leader.matchIndex = s.leader.matchIndex) : Calm p s t where
  role_eq := hro
  asked := hfr _ (by simp)
  kept := hke
  acts := ⟨[], by rw [hjo, List.nil_append], nofun⟩
  term := Or.inl (congrArg (fun stored => stored.1.currentTerm) hst)
  matched := hma
  poison := fun hs hp => hke _ rfl (hs (hlog ▸ hp))
  writes := by
    obtain ⟨-, hwr⟩ := Prod.mk.inj hst
    exact (Prod.mk.inj hwr).1 ▸ List.suffix_rfl
  inSync := fun hs hp => by
    obtain ⟨hsa, hwr⟩ := Prod.mk.inj hst
    rw [hsa, (Prod.mk.inj hwr).1, hjo]
    exact hs (hlog ▸ hp)
  purges := fun bound _ hs => by
    obtain ⟨-, hpe⟩ := Prod.mk.inj (Prod.mk.inj hst).2
    refine ⟨hpe ▸ hs.pending, hlog ▸ hs.purged, fun e he => ?_⟩
    by_cases hno : ∃ data, e = .notifyNewCommitIndex data
    · obtain ⟨data, rfl⟩ := hno
      exact Nat.zero_le bound
    · exact hs.announced e (hfr e (fun data heq => hno ⟨data, heq⟩) he)
  steady := fun _ _ hwf => ⟨by rwa [hlog], hcom.ge⟩

theorem Permit.Books.matchIndex_eq {l : LeaderState myId} {e : LedgerEvent myId}
    (h : p.Books allowed l e) (hco : ¬ p.counts) : (l.handle e).matchIndex = l.matchIndex := by
  apply l.matchIndex_handle
  rintro peer update rfl
  exact hco h.1

theorem Change.calm (h : Change p allowed s t) : Calm p s t := by
  cases h with
  | sent event hev =>
    exact
      { Calm.rfl' s with
        asked := fun h => (Node.mem_queue_sent.mp h).resolve_right hev.1.symm
        kept := fun _ _ he => Node.mem_queue_sent.mpr (.inl he)
        poison := fun hs hp => Node.mem_queue_sent.mpr (.inl (hs hp))
        purges := fun _ hp hs => hs.sent (hev.2.trans hp) }
  | recorded action =>
    exact
      { Calm.rfl' s with
        acts := ⟨[action], rfl, fun a ha => by rwa [List.mem_singleton.mp ha]⟩
        inSync := fun hs hp => by
          obtain ⟨w, hw, hst, hlen⟩ := hs hp
          exact ⟨w, hw, hst, hlen.trans (Nat.le_succ _)⟩ }
  | log log hma hwf =>
    exact
      { Calm.rfl' s with
        poison := fun hs hp => hs ((Prod.mk.inj hma).1 ▸ hp)
        inSync := fun hs hp => hs ((Prod.mk.inj hma).1 ▸ hp)
        purges := fun _ _ hs =>
          ⟨hs.pending, (Prod.mk.inj hma).2 ▸ hs.purged, hs.announced⟩
        steady := fun hp hte h => ⟨hwf hp hte h, le_rfl⟩ }
  | purged io scheduled hpe =>
    exact
      { Calm.rfl' s with
        purges := fun _ _ hs => ⟨hs.pending, hs.pending scheduled hpe, hs.announced⟩
        steady := fun _ _ hwf => ⟨hwf.purgeLogsUpTo io scheduled, le_rfl⟩ }
  | scheduled target htgt =>
    exact
      { Calm.rfl' s with
        purges := fun _ hp hs => by
          refine ⟨fun id hid => ?_, hs.purged, hs.announced⟩
          cases hid
          exact htgt.trans hp }
  | completed =>
    exact
      { Calm.rfl' s with
        purges := fun _ _ hs => by
          refine ⟨fun id hid => ?_, hs.purged, hs.announced⟩
          cases hid }
  | commitIndex index hle =>
    exact { Calm.rfl' s with steady := fun hp _ hwf => ⟨hwf, hle (.inl hp)⟩ }
  | currentLeader => exact { Calm.rfl' s with }
  | hardState hardState metaStore hte hwr hsy =>
    exact { Calm.rfl' s with term := hte, writes := hwr, inSync := hsy }
  | unwritten hardState hte =>
    exact
      { Calm.rfl' s with
        asked := fun h => (Node.mem_queue_sent.mp h).resolve_right (by simp)
        kept := fun _ _ he => Node.mem_queue_sent.mpr (.inl he)
        term := hte
        poison := fun _ _ => Node.mem_queue_sent.mpr (.inr rfl)
        inSync := fun _ hp => by cases hp
        purges := fun bound _ hs => Node.PurgesWithin.sent hs (Nat.zero_le bound)
        steady := fun _ _ hwf => ⟨hwf.of_same rfl rfl rfl rfl le_rfl, le_rfl⟩ }
  | ledger e hbo => exact { Calm.rfl' s with matched := hbo.matchIndex_eq }
  | loop => exact { Calm.rfl' s with }

theorem Does.calm (h : Does p allowed s t) : Calm p s t := by
  induction h with
  | refl => exact Calm.rfl' s
  | tail _ hla ih => exact ih.trans' hla.calm

/-- A handler that is made of changes is calm. -/
theorem ensures_calm {α : Type} {x : NodeM myId α}
    (h : Ensures x s fun _ t => Does p (fun _ => True) s t) : Ensures x s fun _ t => Calm p s t :=
  h.mono fun _ _ ht => ht.calm

end Changes

/-! ## Operations -/

section Operations

variable {p : Permit} {allowed : LedgerEvent myId → Prop} {s : Node myId}

variable {α : Type}

theorem does_pure {a : α} : Ensures (pure a : NodeM myId α) s fun _ t => Does p allowed s t :=
  Relation.ReflTransGen.refl

theorem does_fail {fault : Fault} :
    Ensures (fail fault : NodeM myId α) s fun _ t => Does p allowed s t :=
  Relation.ReflTransGen.refl

theorem does_when {c : Prop} [Decidable c] {m : NodeM myId Unit}
    (h : c → Ensures m s fun _ t => Does p allowed s t) :
    Ensures (if c then m else pure ()) s fun _ t => Does p allowed s t := by
  split_ifs with hc
  · exact h hc
  · exact does_pure

@[simp] theorem ensures_send_bind {event : InternalEvent} {k : Unit → NodeM myId α}
    {Q : Except Fault α → Node myId → Prop} :
    Ensures (send event >>= k) s Q ↔ Ensures (k ()) (s.sent event) Q := Iff.rfl

theorem does_send {event : InternalEvent}
    (hev : event ≠ .becomeLeader ∧ event.announced ≤ p.purgesTo) :
    Ensures (send event) s fun _ t => Does p allowed s t :=
  (Change.sent event hev).does

@[simp] theorem ensures_record_bind {action : Action} {k : Unit → NodeM myId α}
    {Q : Except Fault α → Node myId → Prop} :
    Ensures (record action >>= k) s Q ↔ Ensures (k ()) (s.recorded action) Q := Iff.rfl

theorem does_record {action : Action} (hac : p.Allows action) :
    Ensures (record action) s fun _ t => Does p allowed s t :=
  (Change.recorded action hac).does

theorem does_setCurrentLeader {leaderId : Nat} :
    Ensures (setCurrentLeader leaderId) s fun _ t => Does p allowed s t :=
  (Change.currentLeader leaderId).does

theorem does_ledger {e : LedgerEvent myId} (hbo : p.Books allowed s.leader e) :
    Ensures (modifyLeader fun l => l.handle e) s fun _ t => Does p allowed s t :=
  (Change.ledger e hbo).does

/-- The leader's state changes without its ledger. -/
theorem does_bookkeeping {f : LeaderState myId → LeaderState myId}
    (hf : ∀ l, l.handle (.bookkeeping (f l)) = f l ∧ (f l).noopLogId = l.noopLogId) :
    Ensures (modifyLeader f) s fun _ t => Does p allowed s t := by
  obtain ⟨hld, hno⟩ := hf s.leader
  have hch : Change p allowed s { s with leader := _ } :=
    .ledger (.bookkeeping (f s.leader)) (.inl hno)
  rw [hld] at hch
  exact hch.does

theorem does_onLog {operation : BufferedRaftLog → Except Fault α × BufferedRaftLog}
    (hma : (operation s.log).2.marks = s.log.marks)
    (hwf : p.safe → 1 ≤ s.currentTerm → s.log.WellFormed → (operation s.log).2.WellFormed) :
    Ensures (onLog operation) s fun _ t => Does p allowed s t :=
  (Change.log _ hma hwf).does

theorem does_updateCommitIndexWithSignal {term newCommitIndex : Nat}
    (hle : p.safe → s.role = .leader ∨ s.commitIndex ≤ newCommitIndex) :
    Ensures (updateCommitIndexWithSignal term newCommitIndex) s fun _ t => Does p allowed s t := by
  refine Ensures.chain ?_ fun _ t _ => ?_
  · rw [updateCommitIndex, ensures_modify]
    split_ifs with hke
    · exact Relation.ReflTransGen.refl
    · refine (Change.commitIndex newCommitIndex fun hca => ?_).does
      have hld : s.role = .leader → s.commitIndex ≤ newCommitIndex :=
        fun hro => (Nat.lt_of_not_le fun h => hke ⟨hro, h⟩).le
      rcases hca with hsa | hro
      · exact (hle hsa).elim hld id
      · exact hld hro
  · rw [ensures_get_bind]
    apply does_send
    simp

/-! ### Hard state -/

/-- A write succeeds, is refused by a poisoned log, or fails. -/
theorem saveHardState_cases (outcome : Except Fault Unit) (s : Node myId) :
    Ensures (saveHardState outcome) s fun r t =>
      (r = .ok () ∧ t = s.saved) ∨
        (∃ fault, r = .error fault) ∧ (s.log.poisoned = true ∧ t = s ∨ t = s.reportPoison) := by
  unfold saveHardState
  rw [ensures_get_bind]
  split_ifs with hpo
  · exact .inr ⟨⟨_, rfl⟩, Or.inl ⟨hpo, rfl⟩⟩
  · cases outcome with
    | ok => exact .inl ⟨rfl, rfl⟩
    | error fault => exact .inr ⟨⟨fault, rfl⟩, Or.inr rfl⟩

@[simp] theorem Node.withHardState_currentTerm (s : Node myId) (term : Option Nat)
    (votedFor : Option VotedFor) :
    (s.withHardState term votedFor).currentTerm = term.getD s.currentTerm := by
  cases votedFor <;> rfl

/-- A change that `setHardState` does not report is none. -/
theorem Node.withHardState_of_unchanged {term : Option Nat} {votedFor : Option VotedFor}
    (h : ¬ (s.shared.setHardState term votedFor).1.changed = true) :
    (s.withHardState term votedFor).shared.hardState = s.shared.hardState := by
  cases votedFor with
  | none =>
    have hte : term.getD s.shared.hardState.currentTerm = s.shared.hardState.currentTerm := by
      simpa [SharedState.setHardState] using h
    simp only [Node.withHardState, SharedState.setHardState, hte]
  | some vote =>
    obtain ⟨hte, hvo⟩ :
        term.getD s.shared.hardState.currentTerm = s.shared.hardState.currentTerm ∧
          s.shared.hardState.votedFor = some vote := by
      simpa [SharedState.setHardState] using h
    simp only [Node.withHardState, SharedState.setHardState, hte, ← hvo]

/-- The states behind a change of the term and the vote that is made: it is written, unless it
is none. -/
inductive Node.Committed (s : Node myId) (term : Option Nat) (votedFor : Option VotedFor) :
    Node myId → Prop
  | unchanged (h : (s.withHardState term votedFor).shared.hardState = s.shared.hardState) :
      Committed s term votedFor (s.withHardState term votedFor)
  | written : Committed s term votedFor (s.withHardState term votedFor).saved

/-- The states behind a change that could not be written. It stays in memory. -/
inductive Node.Uncommitted (s : Node myId) (term : Option Nat) (votedFor : Option VotedFor) :
    Node myId → Prop
  | refused (hpoisoned : s.log.poisoned = true) :
      Uncommitted s term votedFor (s.withHardState term votedFor)
  | failed : Uncommitted s term votedFor (s.withHardState term votedFor).reportPoison

/-- The change is made in memory before it is written. -/
theorem commitHardState_cases (outcome : Except Fault Unit) (term : Option Nat)
    (votedFor : Option VotedFor) (s : Node myId) :
    Ensures (commitHardState outcome term votedFor) s fun r t =>
      (∃ isNew, r = .ok isNew ∧ s.Committed term votedFor t) ∨
        (∃ fault, r = .error fault) ∧ s.Uncommitted term votedFor t := by
  unfold commitHardState
  split_ifs with hno
  · obtain ⟨rfl, rfl⟩ := hno
    exact .inl ⟨false, rfl, .unchanged rfl⟩
  · rw [ensures_get_bind, ensures_modify_bind]
    split_ifs with hch
    · refine (saveHardState_cases outcome (s.withHardState term votedFor)).bind ?_ ?_
      · rintro fault t (⟨herr, -⟩ | ⟨-, ⟨hpo, rfl⟩ | rfl⟩)
        · cases herr
        · exact .inr ⟨⟨fault, rfl⟩, .refused hpo⟩
        · exact .inr ⟨⟨fault, rfl⟩, .failed⟩
      · rintro done t (⟨-, rfl⟩ | ⟨⟨fault, herr⟩, -⟩)
        · exact .inl ⟨_, rfl, .written⟩
        · cases herr
    · exact .inl ⟨_, rfl, .unchanged (Node.withHardState_of_unchanged hch)⟩

section Adoption

variable {term : Option Nat} {votedFor : Option VotedFor} {t : Node myId}

theorem adopts_withHardState
    (hte : ∀ T ∈ term, s.currentTerm ≤ T ∧ T ≤ max s.currentTerm p.incoming) :
    p.Adopts s (s.withHardState term votedFor).currentTerm := by
  rw [Node.withHardState_currentTerm]
  cases term with
  | none => exact .inl rfl
  | some T =>
    have := hte T rfl
    simp only [Option.getD_some, Permit.Adopts]
    omega

/-- Only the hard state changes. -/
theorem Node.withHardState_eq : s.withHardState term votedFor =
    { s with
      shared := { s.shared with
        hardState := (s.withHardState term votedFor).shared.hardState } } := by
  cases votedFor <;> rfl

/-- The change, together with what happens to the meta store. -/
theorem change_withHardState
    (hte : ∀ T ∈ term, s.currentTerm ≤ T ∧ T ≤ max s.currentTerm p.incoming)
    {metaStore : List MetaWrite} (hwr : s.metaStore <:+ metaStore)
    (hsy : s.InSync → { s.withHardState term votedFor with metaStore := metaStore }.InSync) :
    Change p allowed s { s.withHardState term votedFor with metaStore := metaStore } := by
  have had : p.Adopts s (s.withHardState term votedFor).currentTerm :=
    adopts_withHardState hte
  rw [Node.withHardState_eq] at hsy had ⊢
  exact .hardState _ metaStore had hwr hsy

theorem Node.Committed.does (h : s.Committed term votedFor t)
    (hte : ∀ T ∈ term, s.currentTerm ≤ T ∧ T ≤ max s.currentTerm p.incoming) :
    Does p allowed s t := by
  cases h with
  | unchanged heq =>
    refine (change_withHardState hte List.suffix_rfl fun hs hp => ?_).does
    obtain ⟨w, hw, hst, hlen⟩ := hs hp
    exact ⟨w, hw, hst.trans heq.symm, hlen⟩
  | written =>
    exact (change_withHardState hte (List.suffix_cons _ _) fun _ => Node.inSync_saved).does

theorem Node.Uncommitted.does (h : s.Uncommitted term votedFor t)
    (hte : ∀ T ∈ term, s.currentTerm ≤ T ∧ T ≤ max s.currentTerm p.incoming) :
    Does p allowed s t := by
  cases h with
  | refused hpo =>
    refine (change_withHardState hte List.suffix_rfl fun _ hp => ?_).does
    exact absurd (hpo.symm.trans hp) (by simp)
  | failed =>
    have had : p.Adopts s (s.withHardState term votedFor).currentTerm :=
      adopts_withHardState hte
    rw [Node.withHardState_eq] at had ⊢
    exact (Change.unwritten _ had).does

theorem does_commitHardState {outcome : Except Fault Unit}
    (hte : ∀ T ∈ term, s.currentTerm ≤ T ∧ T ≤ max s.currentTerm p.incoming) :
    Ensures (commitHardState outcome term votedFor) s fun _ t => Does p allowed s t := by
  refine (commitHardState_cases outcome term votedFor s).mono ?_
  rintro r t (⟨isNew, -, h⟩ | ⟨-, h⟩)
  · exact h.does hte
  · exact h.does hte

/-- A failed change leaves an event in the queue that ends the loop. -/
theorem steppingDown_of_commitHardState_error {outcome : Except Fault Unit}
    (hrep : s.PoisonReported) :
    Ensures (commitHardState outcome term votedFor) s fun r t =>
      (∃ fault, r = .error fault) → t.SteppingDown := by
  refine (commitHardState_cases outcome term votedFor s).mono ?_
  rintro r t (⟨isNew, rfl, -⟩ | ⟨-, hpo | _⟩) ⟨fault, hfa⟩
  · cases hfa
  · exact ⟨.fatalError, hrep hpo, rfl⟩
  · exact Node.steppingDown_sent rfl

end Adoption

theorem does_commitVoteReset {outcome : Except Fault Unit} :
    Ensures (commitVoteReset outcome) s fun _ t => Does p allowed s t := by
  unfold commitVoteReset
  rw [ensures_modify_bind]
  refine (saveHardState_cases outcome _).mono ?_
  rintro r t (⟨-, rfl⟩ | ⟨-, ⟨hpo, rfl⟩ | rfl⟩)
  · exact (Change.hardState { s.shared.hardState with votedFor := none } _ (.inl rfl)
      (List.suffix_cons _ s.metaStore) fun _ _ => ⟨_, rfl, rfl, le_rfl⟩).does
  · refine (Change.hardState { s.shared.hardState with votedFor := none } s.metaStore (.inl rfl)
      List.suffix_rfl fun _ hp => ?_).does
    exact absurd (hpo.symm.trans hp) (by simp)
  · exact (Change.unwritten { s.shared.hardState with votedFor := none } (.inl rfl)).does

/-! ### Purging -/

variable {io : Except Fault Unit}

theorem does_executePendingPurge :
    Ensures (executePendingPurge io) s fun _ t => Does p allowed s t := by
  unfold executePendingPurge
  rw [ensures_get_bind]
  cases hpe : s.pendingPurgeUpto with
  | none => exact does_pure
  | some scheduled =>
    refine Ensures.chain ?_ fun r t _ => ?_
    · rw [ensures_attempt]
      exact (Change.purged io scheduled hpe).does
    · cases r with
      | ok => exact does_send (by simp)
      | error => exact does_pure

theorem does_scheduleAndExecutePurge {lastIncluded : LogId}
    (htgt : lastIncluded.index ≤ p.purgesTo) :
    Ensures (scheduleAndExecutePurge io lastIncluded) s fun _ t => Does p allowed s t := by
  unfold scheduleAndExecutePurge
  rw [ensures_get_bind]
  dsimp only
  split
  · exact does_pure
  · cases s.log.entryTerm (lastIncluded.index - s.config.retainedLogEntries) with
    | error => exact does_fail
    | ok found =>
      cases found with
      | none => exact does_executePendingPurge
      | some =>
        simp only
        split_ifs
        · refine Ensures.chain ?_ fun _ _ _ => does_executePendingPurge
          exact (Change.scheduled _ ((Nat.sub_le _ _).trans htgt)).does
        · exact does_executePendingPurge

theorem does_scheduleInstalledSnapshotPurge {target : LogId} (htgt : target.index ≤ p.purgesTo) :
    Ensures (scheduleInstalledSnapshotPurge io target) s fun _ t => Does p allowed s t := by
  refine Ensures.chain ?_ fun _ _ _ => does_executePendingPurge
  rw [ensures_modify]
  split_ifs
  · exact (Change.scheduled target htgt).does
  · exact Relation.ReflTransGen.refl

theorem does_handleLogPurgeCompleted {purgedId : LogId} :
    Ensures (handleLogPurgeCompleted purgedId) s fun _ t => Does p allowed s t := by
  unfold handleLogPurgeCompleted
  rw [ensures_get_bind]
  split_ifs
  · exact does_fail
  · exact (Change.completed purgedId).does
  · exact does_pure

end Operations

end DEngine.Raft

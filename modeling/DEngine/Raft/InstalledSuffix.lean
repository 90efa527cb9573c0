import DEngine.Raft.Effects

/-!
# The log behind an installed snapshot

A replica that installs a snapshot purges its log up to the snapshot's last entry.
Entries behind that position belong to the snapshot's history only if the log held
the last entry itself; otherwise they come from another leader and have to go. The
purge removes a prefix and never looks at the suffix, so the log is as it should be
only where there is nothing to discard.
-/

namespace DEngine.Raft

open Library Storage Replication Library.Handler

variable {myId : Nat} {s : Node myId} {env : Env}

/-- The log holds the last entry of the snapshot. -/
def HoldsBoundary (log : BufferedRaftLog) (boundary : LogId) : Prop :=
  ∃ e, log.entry boundary.index = some e ∧ e.term = boundary.term

/-- What an installed snapshot leaves of a log: the entries behind it if they continue it, and
nothing otherwise. -/
structure LeavesContinuation (log after : BufferedRaftLog) (boundary : LogId) : Prop where
  discarded : ¬ HoldsBoundary log boundary → ∀ i, boundary.index < i → after.entry i = none
  kept : HoldsBoundary log boundary →
    ∀ i, after.entry i = if boundary.index < i then log.entry i else none

namespace Node

/-- Where the purge behind an installed snapshot goes: a purge that is already scheduled further
on is not taken back. -/
def purgeTarget (s : Node myId) (boundary : LogId) : LogId :=
  match s.pendingPurgeUpto with
  | some scheduled => if scheduled.index < boundary.index then boundary else scheduled
  | none => boundary

/-- The purge takes everything but what continues the snapshot. -/
def PurgeCoversSuffix (s : Node myId) (boundary : LogId) : Prop :=
  (HoldsBoundary s.log boundary →
    ∀ i, boundary.index < i → i ≤ (s.purgeTarget boundary).index → s.log.entry i = none) ∧
  (¬ HoldsBoundary s.log boundary →
    ∀ i, (s.purgeTarget boundary).index < i → s.log.entry i = none)

theorem le_purgeTarget (s : Node myId) (boundary : LogId) :
    boundary.index ≤ (s.purgeTarget boundary).index := by
  unfold purgeTarget
  split
  · split_ifs
    · exact le_rfl
    · omega
  · exact le_rfl

/-- The log and the scheduled purge are as before. -/
structure LeavesLog (s t : Node myId) : Prop where
  log_eq : t.log = s.log
  pending_eq : t.pendingPurgeUpto = s.pendingPurgeUpto

end Node

/-- What the handlers of a replica read and change, as far as requests depend on it. -/
structure Core where
  role : RaftRole
  currentTerm : Nat
  log : BufferedRaftLog
  pendingPurgeUpto : Option LogId

namespace Node

def core (s : Node myId) : Core := ⟨s.role, s.currentTerm, s.log, s.pendingPurgeUpto⟩

theorem LeavesLog.of_core {t : Node myId} {term : Nat}
    (h : t.core = { s.core with currentTerm := term }) : LeavesLog s t :=
  ⟨congrArg Core.log h, congrArg Core.pendingPurgeUpto h⟩

end Node

open Node

/-- The handler leaves the given core and the journal as it was. -/
def Leaves (s : Node myId) (c : Core) (t : Node myId) : Prop :=
  t.core = c ∧ t.journal = s.journal

/-! ## The workflow -/

theorem saveHardState_ok (hso : s.log.poisoned = false) :
    Returns (saveHardState (.ok ())) s fun _ t => t = s.saved := by
  unfold saveHardState Returns
  rw [ensures_get_bind, if_neg (by simp [hso])]
  exact ⟨(), rfl, rfl⟩

/-- A hard state that is changed by this can be written. -/
def Node.Saves (s : Node myId) (outcome : Except Fault Unit) (term : Option Nat)
    (votedFor : Option VotedFor) : Prop :=
  (s.shared.setHardState term votedFor).1.changed = true →
    outcome = .ok () ∧ s.log.poisoned = false

theorem commitHardState_core {outcome : Except Fault Unit} {term : Option Nat}
    {votedFor : Option VotedFor} (hsa : s.Saves outcome term votedFor) :
    Returns (commitHardState outcome term votedFor) s fun _ t =>
      Leaves s { s.core with currentTerm := term.getD s.currentTerm } t := by
  have hco : (s.withHardState term votedFor).core =
      { s.core with currentTerm := term.getD s.currentTerm } := by
    simp only [Node.core, Node.withHardState_currentTerm]
    rfl
  unfold commitHardState Returns
  split_ifs with hno
  · obtain ⟨rfl, rfl⟩ := hno
    exact ⟨_, rfl, rfl, rfl⟩
  rw [ensures_get_bind, ensures_modify_bind]
  split_ifs with hch
  · obtain ⟨rfl, hso⟩ := hsa hch
    have hsa := @saveHardState_ok myId (s.withHardState term votedFor) hso
    refine hsa.bind ?_
    rintro _ t rfl
    exact ⟨_, rfl, hco, rfl⟩
  · exact ⟨_, rfl, hco, rfl⟩

theorem followLeader_core {termUpdate : Option Nat} {leaderId term : Nat}
    (hsa : s.Saves env.save termUpdate (some ⟨leaderId, term, true⟩)) :
    Returns (followLeader env termUpdate leaderId term) s fun _ t =>
      Leaves s { s.core with currentTerm := termUpdate.getD s.currentTerm } t := by
  unfold followLeader
  exact (commitHardState_core hsa).bind fun _ t hlv => ⟨_, rfl, hlv⟩

theorem updateCommitIndexWithSignal_core (term newCommitIndex : Nat) :
    Returns (updateCommitIndexWithSignal term newCommitIndex) s fun _ t => Leaves s s.core t := by
  unfold updateCommitIndexWithSignal updateCommitIndex Returns
  rw [ensures_modify_bind]
  split_ifs
  · exact ⟨_, rfl, rfl, rfl⟩
  · exact ⟨_, rfl, rfl, rfl⟩

/-- A snapshot leaves the log to the purge. -/
theorem snapshotBoundary_core (term : Nat) (result : SnapshotApplyResult) :
    Returns (snapshotBoundary term result) s fun boundary t =>
      boundary = result.boundary ∧ t.core = s.core := by
  unfold snapshotBoundary Returns
  cases result with
  | applied lastIncluded =>
    dsimp only
    rw [ensures_get_bind]
    split_ifs
    · refine (updateCommitIndexWithSignal_core term lastIncluded.index).bind ?_
      rintro _ t ⟨hco, -⟩
      exact ⟨_, rfl, rfl, hco⟩
    · exact ⟨_, rfl, rfl, rfl⟩
  | ignoredStale current | ignoredDuplicate current => exact ⟨_, rfl, rfl, rfl⟩

theorem executePendingPurge_entry (io : Except Fault Unit) {target : LogId}
    (htgt : s.pendingPurgeUpto = some target) :
    Ensures (executePendingPurge io) s fun _ t =>
      ∀ i, t.log.entry i = if i ≤ target.index then none else s.log.entry i := by
  have hpu := s.log.entry_purgeLogsUpTo io target
  unfold executePendingPurge
  rw [ensures_get_bind, htgt]
  cases io with
  | ok _ | error fault => exact hpu

/-- The purge removes everything up to its target, whatever becomes of it on disk. -/
theorem scheduleInstalledSnapshotPurge_entry (io : Except Fault Unit) (boundary : LogId) :
    Ensures (scheduleInstalledSnapshotPurge io boundary) s fun _ t =>
      ∀ i, t.log.entry i =
        if i ≤ (s.purgeTarget boundary).index then none else s.log.entry i := by
  unfold scheduleInstalledSnapshotPurge purgeTarget
  rw [ensures_modify_bind]
  cases hpe : s.pendingPurgeUpto with
  | none =>
    rw [if_pos (by simp)]
    exact executePendingPurge_entry io rfl
  | some scheduled =>
    by_cases hlt : scheduled.index < boundary.index
    · simp only [Option.mem_def, Option.some.injEq, forall_eq', if_pos hlt]
      exact executePendingPurge_entry io rfl
    · simp only [Option.mem_def, Option.some.injEq, forall_eq', if_neg hlt]
      exact executePendingPurge_entry io hpe

/-- The log behind the handling of a snapshot stream whose installation is applied. -/
theorem handleInstallSnapshotChunkWorkflow_entry {chunk : SnapshotChunk} {boundary : LogId}
    (hte : s.currentTerm ≤ chunk.leaderTerm)
    (hsa : s.Saves env.save (some chunk.leaderTerm) (some ⟨chunk.leaderId, chunk.leaderTerm, true⟩))
    (happ : env.snapshotStream = .ok (.ok (.applied boundary))) :
    Ensures (handleInstallSnapshotChunkWorkflow env (some chunk)) s fun _ t =>
      ∀ i, t.log.entry i =
        if i ≤ (s.purgeTarget boundary).index then none else s.log.entry i := by
  have hacc : ∀ termUpdate : Option Nat, termUpdate.getD s.currentTerm = chunk.leaderTerm →
      Ensures (do
      let _ ← followLeader env termUpdate chunk.leaderId chunk.leaderTerm
      installSnapshot env (max chunk.leaderTerm s.currentTerm)) s fun _ t =>
      ∀ i, t.log.entry i =
        if i ≤ (s.purgeTarget boundary).index then none else s.log.entry i := by
    intro termUpdate htu
    have hsv : s.Saves env.save termUpdate (some ⟨chunk.leaderId, chunk.leaderTerm, true⟩) := by
      rw [← htu] at hsa
      exact htu ▸ hsa
    refine (followLeader_core hsv).bind ?_
    rintro isNew t ⟨hfo, -⟩
    unfold installSnapshot
    rw [happ]
    dsimp only
    rw [ensures_record_bind]
    refine (snapshotBoundary_core _ (.applied boundary)).bind ?_
    rintro lastIncluded u ⟨hbo, hco⟩
    change lastIncluded = boundary at hbo
    rw [hbo]
    have hlv : LeavesLog s u := .of_core (hco.trans hfo)
    have htgt : u.purgeTarget boundary = s.purgeTarget boundary := by
      unfold purgeTarget
      rw [hlv.pending_eq]
    rw [← hlv.log_eq, ← htgt]
    exact scheduleInstalledSnapshotPurge_entry env.logIo boundary
  unfold handleInstallSnapshotChunkWorkflow checkIncomingTerm
  rw [ensures_get_bind]
  dsimp only
  split_ifs with hst hsame
  · exact absurd hst (Nat.not_lt.mpr hte)
  · exact hacc none hsame.symm
  · exact hacc (some chunk.leaderTerm) rfl

/-- A replica that installs a snapshot keeps exactly what continues it, if and only if the purge
covers everything else that its log holds. -/
theorem leavesContinuation_iff (hrole : s.role = .follower ∨ s.role = .learner)
    {chunk : SnapshotChunk} {boundary : LogId} (hterm : s.currentTerm ≤ chunk.leaderTerm)
    (hsaved : s.Saves env.save (some chunk.leaderTerm)
      (some ⟨chunk.leaderId, chunk.leaderTerm, true⟩))
    (happlied : env.snapshotStream = .ok (.ok (.applied boundary))) :
    LeavesContinuation s.log
        (handleInboundEvent env (.installSnapshotChunk (some chunk)) s).2.log boundary ↔
      s.PurgeCoversSuffix boundary := by
  have hen : ∀ i, (handleInboundEvent env (.installSnapshotChunk (some chunk)) s).2.log.entry i =
      if i ≤ (s.purgeTarget boundary).index then none else s.log.entry i := by
    have hwo := handleInstallSnapshotChunkWorkflow_entry hterm hsaved happlied
    unfold handleInboundEvent
    rw [get_bind_apply]
    rcases hrole with hrole | hrole
    · rw [hrole]
      exact hwo
    · rw [hrole]
      exact hwo
  have hta := s.le_purgeTarget boundary
  constructor
  · rintro ⟨hdi, hke⟩
    refine ⟨fun hho i hlow hhi => ?_, fun hho i hlt => ?_⟩
    · have h := hke hho i
      rw [hen, if_pos hhi, if_pos hlow] at h
      exact h.symm
    · have h := hdi hho i (by omega)
      rwa [hen, if_neg (by omega)] at h
  · rintro ⟨hbt, hbe⟩
    refine ⟨fun hho i hlt => ?_, fun hho i => ?_⟩
    · rw [hen]
      split_ifs with hle
      · rfl
      · exact hbe hho i (by omega)
    · rw [hen]
      split_ifs with hle hlt hlt
      · exact (hbt hho i hlt hle).symm
      · rfl
      · rfl
      · omega

/-- A follower in term one that starts with three entries. -/
def threeEntriesFollower : Node 1 :=
  Node.start .small .follower (SharedState.new none none)
    (.new 3 [⟨1, 1, none⟩, ⟨2, 1, none⟩, ⟨3, 1, none⟩] none) .trio

/-- A snapshot that ends with an entry of the log leaves the entry behind it. -/
theorem continuation_kept_behind_snapshot :
    LeavesContinuation threeEntriesFollower.log
        (handleInboundEvent { snapshotStream := .ok (.ok (.applied ⟨1, 2⟩)) }
          (.installSnapshotChunk (some ⟨1, 2⟩)) threeEntriesFollower).2.log ⟨1, 2⟩ ∧
      HoldsBoundary threeEntriesFollower.log ⟨1, 2⟩ := by
  have hho : HoldsBoundary threeEntriesFollower.log ⟨1, 2⟩ :=
    ⟨⟨2, 1, none⟩, by decide +kernel, rfl⟩
  refine ⟨(leavesContinuation_iff (.inl rfl) (by decide +kernel) (fun _ => ⟨rfl, rfl⟩) rfl).mpr ?_, hho⟩
  refine ⟨fun _ i hlow hhi => ?_, fun hnot => absurd hho hnot⟩
  exact absurd hhi (Nat.not_le_of_lt hlow)

/-- A snapshot that ends with another entry leaves the old leader's entry behind it. -/
theorem divergent_suffix_survives_snapshot :
    threeEntriesFollower.Init ∧ ¬ HoldsBoundary threeEntriesFollower.log ⟨2, 2⟩ ∧
      (handleInboundEvent { snapshotStream := .ok (.ok (.applied ⟨2, 2⟩)) }
        (.installSnapshotChunk (some ⟨2, 2⟩)) threeEntriesFollower).2.log.lastLogId =
          some ⟨1, 3⟩ ∧
      ¬ LeavesContinuation threeEntriesFollower.log
        (handleInboundEvent { snapshotStream := .ok (.ok (.applied ⟨2, 2⟩)) }
          (.installSnapshotChunk (some ⟨2, 2⟩)) threeEntriesFollower).2.log ⟨2, 2⟩ := by
  have hnot : ¬ HoldsBoundary threeEntriesFollower.log ⟨2, 2⟩ := by
    rintro ⟨e, he, hte⟩
    have hhe : threeEntriesFollower.log.entry 2 = some ⟨2, 1, none⟩ := by decide +kernel
    rw [show e = ⟨2, 1, none⟩ from Option.some.inj (he.symm.trans hhe)] at hte
    cases hte
  refine ⟨?_, hnot, by decide +kernel, fun h => ?_⟩
  · refine ⟨.small, .follower, _, 3, _, none, .trio, rfl, Or.inl rfl, ?_, ?_, ?_⟩
    · decide
    · decide
    · decide
  · have hgo := h.discarded hnot 3 (by decide)
    have hhe : (handleInboundEvent { snapshotStream := .ok (.ok (.applied ⟨2, 2⟩)) }
        (.installSnapshotChunk (some ⟨2, 2⟩)) threeEntriesFollower).2.log.entry 3 =
          some ⟨3, 1, none⟩ := by decide +kernel
    rw [hhe] at hgo
    cases hgo

end DEngine.Raft

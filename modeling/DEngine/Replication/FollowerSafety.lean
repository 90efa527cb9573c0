import DEngine.Replication.FollowerAppend
import DEngine.Storage.ReceiverRule

/-!
# What an accepted request does to a follower

Three questions about a follower that accepts a request of some leader: does it
keep its committed entries, is what it newly commits the leader's, and does the
position it acknowledges describe the leader's log. Each is answered by an
equivalence with a condition on the follower's log before the request and on
the request itself.

## Implementation notes

The leader's log is the history it replicates, so a prefix that the leader has
compacted still counts as held. Requests that skip indexes are the subject of
`DEngine.Replication.LeaderRequests`, logs with holes that of
`DEngine.Storage.Contiguity`.
-/

namespace DEngine.Replication

open Library Library.PartialLog Storage

/-- The history a leader replicates. -/
structure LeaderLog where
  entry : Nat → Option Entry
  index_eq : ∀ i e, entry i = some e → e.index = i
  index_pos : ∀ i e, entry i = some e → 1 ≤ i
  index_le : ∀ i e, entry i = some e → i ≤ u64Max
  term_pos : ∀ i e, entry i = some e → 1 ≤ e.term

/-- The history that consists of the given entries. -/
def LeaderLog.ofEntries (entries : List Entry) (h : Batch entries) : LeaderLog where
  entry := ofList Entry.index entries
  index_eq := fun _ _ he => (ofList_eq_some_imp he).2
  index_pos := fun _ e he =>
    (ofList_eq_some_imp he).2 ▸ h.index_pos e (ofList_eq_some_imp he).1
  index_le := fun _ e he => (ofList_eq_some_imp he).2 ▸ h.index_le e (ofList_eq_some_imp he).1
  term_pos := fun _ e he => h.term_pos e (ofList_eq_some_imp he).1

/-- The request carries ascending entries of the leader's history. -/
structure SentBy (leader : LeaderLog) (request : AppendEntriesRequest) : Prop where
  ascending : request.entries.Pairwise fun a b => a.index < b.index
  held : ∀ e ∈ request.entries, leader.entry e.index = some e

theorem SentBy.batch {leader : LeaderLog} {request : AppendEntriesRequest}
    (h : SentBy leader request) : Batch request.entries where
  ascending := h.ascending
  index_pos := fun e he => leader.index_pos _ e (h.held e he)
  index_le := fun e he => leader.index_le _ e (h.held e he)
  term_pos := fun e he => leader.term_pos _ e (h.held e he)

variable {i : Nat} {e : Entry}

/-- The entries have consecutive indexes behind the predecessor. -/
def Contiguous (request : AppendEntriesRequest) : Prop :=
  Consecutive Entry.index request.entries (request.prevLogIndex + 1)
deriving Decidable

/-- The request is a stretch of the leader's history, behind an entry of it or from its start. -/
structure Stretch (leader : LeaderLog) (request : AppendEntriesRequest) : Prop
    extends SentBy leader request where
  contiguous : Contiguous request
  terms : request.entries.Pairwise fun a b => a.term ≤ b.term
  predecessor : (request.prevLogIndex = 0 ∧ request.prevLogTerm = 0) ∨
    ∃ e, leader.entry request.prevLogIndex = some e ∧ e.term = request.prevLogTerm

/-- The log holds the indexes between its purge boundary and its end, and no others. -/
def HoldsRange (log : BufferedRaftLog) : Prop :=
  ∀ i, (∃ e, log.entry i = some e) ↔ log.lastPurgedIndex < i ∧ i ≤ log.lastEntryId

section Follower

variable {myId : Nat} {io : Except Fault Unit} {request : AppendEntriesRequest}
  {snapshot : StateSnapshot} {log : BufferedRaftLog} {leader : LeaderLog}
  {updates : AppendResponseWithUpdates}

/-- The leader holds every entry of the follower up to the commit index. -/
def CommittedPrefix (commitIndex : Nat) (log : BufferedRaftLog) (leader : LeaderLog) : Prop :=
  ∀ i e, i ≤ commitIndex → log.entry i = some e → leader.entry i = some e

/-- Every entry up to the commit index is still in the log, unchanged. -/
def KeepsCommitted (commitIndex : Nat) (log after : BufferedRaftLog) : Prop :=
  ∀ i e, i ≤ commitIndex → log.entry i = some e → after.entry i = some e

/-- Every committed entry lies below the point from which the request replaces the
log, or within the range of the request. -/
def CommittedOutOfReach (commitIndex : Nat) (log : BufferedRaftLog)
    (request : AppendEntriesRequest) : Prop :=
  ∀ i e, i ≤ commitIndex → log.entry i = some e →
    Kept (rewriteCut log request) i ∨
      (request.prevLogIndex < i ∧ i ≤ request.prevLogIndex + request.entries.length)

/-- A follower keeps its committed entries over an accepted contiguous request exactly
when each of them is below the rewritten part or carried by the request. -/
theorem keepsCommitted_iff (hwf : log.WellFormed) (hsent : SentBy leader request)
    (hcontiguous : Contiguous request)
    (hcommitted : CommittedPrefix snapshot.commitIndex log leader)
    (hok : (handleAppendEntries myId io request snapshot log).1 = .ok updates)
    (hsuccess : updates.response.isSuccess = true) :
    KeepsCommitted snapshot.commitIndex log
        (handleAppendEntries myId io request snapshot log).2 ↔
      CommittedOutOfReach snapshot.commitIndex log request := by
  have hacc := handleAppendEntries_accepted hwf hsent.batch hok hsuccess
  have hst : ∀ i e, i ≤ snapshot.commitIndex → log.entry i = some e →
      ((handleAppendEntries myId io request snapshot log).2.entry i = some e ↔
        Kept (rewriteCut log request) i ∨
          (request.prevLogIndex < i ∧ i ≤ request.prevLogIndex + request.entries.length)) := by
    intro i e hi he
    have hra : request.prevLogIndex < i ∧
        i ≤ request.prevLogIndex + request.entries.length ↔
          ∃ x ∈ request.entries, x.index = i := by
      rw [Consecutive.mem_iff hcontiguous]
      omega
    rw [hacc.entry_eq, hra]
    by_cases hke : Kept (rewriteCut log request) i
    · simp [splice_of_kept hke, he, hke]
    · rw [splice_of_not_kept hke]
      constructor
      · intro hnew
        exact .inr ⟨e, (ofList_eq_some_imp hnew).1, (ofList_eq_some_imp hnew).2⟩
      · intro hin
        obtain ⟨x, hx, rfl⟩ := hin.resolve_left hke
        have hsa : x = e := by
          have hld := hcommitted x.index e hi he
          rw [hsent.held x hx] at hld
          exact Option.some.inj hld
        rw [ofList_of_mem hsent.ascending hx, hsa]
  exact forall₂_congr fun i e => forall₂_congr fun hi he => hst i e hi he

/-- Three entries of term one. -/
def threeEntries : List Entry := [⟨1, 1, none⟩, ⟨2, 1, none⟩, ⟨3, 1, none⟩]

/-- A leader that holds the three entries. -/
def threeLeader : LeaderLog := LeaderLog.ofEntries threeEntries (by decide)

/-- A follower's log that was started from a store with the given entries. -/
def loadedLog (entries : List Entry) : BufferedRaftLog :=
  BufferedRaftLog.new entries.length entries none

/-- A request that starts over with the first entry, as a leader builds it for a peer
whose next index it has set back to one and whose batches are capped at one entry. -/
def restartRequest : AppendEntriesRequest :=
  { term := 1, leaderId := 1, prevLogIndex := 0, prevLogTerm := 0
    entries := threeEntries.take 1, leaderCommitIndex := 3 }

/-- The committed entries two and three are gone after the accepted request. -/
theorem restart_loses_committed :
    (loadedLog threeEntries).WellFormed ∧ SentBy threeLeader restartRequest ∧
      Contiguous restartRequest ∧ CommittedPrefix 3 (loadedLog threeEntries) threeLeader ∧
      ∃ updates,
        (handleAppendEntries 2 (.ok ()) restartRequest ⟨1, 3⟩ (loadedLog threeEntries)).1 =
          .ok updates ∧
        updates.response.isSuccess = true ∧
        ¬ KeepsCommitted 3 (loadedLog threeEntries)
          (handleAppendEntries 2 (.ok ()) restartRequest ⟨1, 3⟩ (loadedLog threeEntries)).2 := by
  refine ⟨BufferedRaftLog.wellFormed_new none (by decide) (by decide), ⟨by decide, by decide⟩,
    by decide, ?_, _, rfl, rfl, ?_⟩
  · intro i e _ he
    rwa [loadedLog, BufferedRaftLog.entry_new (by decide)] at he
  · intro hke
    have hlo := hke 3 ⟨3, 1, none⟩ le_rfl (by decide)
    revert hlo
    decide

/-- A request that overlaps the second entry and carries the third. -/
def overlapRequest : AppendEntriesRequest :=
  { term := 1, leaderId := 1, prevLogIndex := 1, prevLogTerm := 1
    entries := threeEntries.drop 1, leaderCommitIndex := 3 }

/-- A follower with two committed entries keeps them over the overlapping request. -/
theorem overlap_keeps_committed :
    KeepsCommitted 2 (loadedLog (threeEntries.take 2))
      (handleAppendEntries 2 (.ok ()) overlapRequest ⟨1, 2⟩
        (loadedLog (threeEntries.take 2))).2 := by
  have hwf : (loadedLog (threeEntries.take 2)).WellFormed :=
    BufferedRaftLog.wellFormed_new none (by decide) (by decide)
  have hse : SentBy threeLeader overlapRequest := ⟨by decide, by decide⟩
  have hco : CommittedPrefix 2 (loadedLog (threeEntries.take 2)) threeLeader := by
    intro i e hi he
    rw [loadedLog, BufferedRaftLog.entry_new (by decide)] at he
    obtain ⟨hmem, rfl⟩ := ofList_eq_some_imp he
    exact ofList_of_mem (by decide) (List.mem_of_mem_take hmem)
  have hcut : rewriteCut (loadedLog (threeEntries.take 2)) overlapRequest = some 3 := by decide
  obtain ⟨updates, hok, hsu⟩ : ∃ updates, (handleAppendEntries 2 (.ok ()) overlapRequest
      ⟨1, 2⟩ (loadedLog (threeEntries.take 2))).1 = .ok updates ∧
        updates.response.isSuccess = true := ⟨_, rfl, rfl⟩
  refine (keepsCommitted_iff hwf hse (by decide) hco hok hsu).mpr ?_
  intro i e hi _
  rw [hcut, kept_some]
  exact .inl (Nat.lt_succ_of_le hi)

/-! ### Logs without holes -/

/-- A log without holes that knows the predecessor of a request reaches it. -/
theorem HoldsRange.predecessor (hho : HoldsRange log) (hwf : log.WellFormed)
    (hte : log.entryTerm request.prevLogIndex = .ok (some request.prevLogTerm)) :
    log.lastPurgedIndex = request.prevLogIndex ∨
      log.lastPurgedIndex < request.prevLogIndex ∧ request.prevLogIndex ≤ log.lastEntryId := by
  rcases BufferedRaftLog.position_of_entryTerm hte with ⟨hne, hmin, hmax⟩ | ⟨-, heq⟩
  · exact .inr ⟨lt_of_lt_of_le ((hho _).mp (hwf.min_held hne)).1 hmin, hmax⟩
  · exact .inl heq.symm

/-- The rewritten part starts with an entry in conflict, unless the request restarts the log. -/
theorem exists_conflict_of_not_kept (hze : ¬ (request.prevLogIndex = 0 ∧ request.prevLogTerm = 0))
    (hke : ¬ Kept (rewriteCut log request) i) :
    ∃ first ∈ request.entries, log.conflictsWith request.entries first = true ∧
      first.index ≤ i := by
  rw [rewriteCut] at hke
  split_ifs at hke with hnil
  · exact absurd (kept_none i) hke
  rw [BufferedRaftLog.rewriteFrom, if_neg hze] at hke
  cases hfi : request.entries.find? (log.conflictsWith request.entries) with
  | none =>
    rw [hfi] at hke
    exact absurd (kept_none i) hke
  | some first =>
    rw [hfi, Option.map_some, kept_some, Nat.not_lt] at hke
    exact ⟨first, List.mem_of_find?_eq_some hfi, List.find?_some hfi, hke⟩

/-- Without holes, only a request that restarts the log can reach a committed entry. -/
theorem HoldsRange.committedOutOfReach {commitIndex : Nat} (hho : HoldsRange log)
    (hwf : log.WellFormed) (hsl : log.termSegments.segCount ≤ maxTermSegments)
    (hsent : SentBy leader request) (hcontiguous : Contiguous request)
    (hcommitted : CommittedPrefix commitIndex log leader)
    (hze : ¬ (request.prevLogIndex = 0 ∧ request.prevLogTerm = 0))
    (hte : log.entryTerm request.prevLogIndex = .ok (some request.prevLogTerm)) :
    CommittedOutOfReach commitIndex log request := by
  intro i e hi he
  by_contra hno
  obtain ⟨first, hmem, hcon, hle⟩ := exists_conflict_of_not_kept hze (not_or.mp hno).1
  obtain ⟨-, hhi⟩ := (hho i).mp ⟨e, he⟩
  have hbe := (Consecutive.mem_iff hcontiguous _).mp ⟨first, hmem, rfl⟩
  have hpo := hho.predecessor hwf hte
  -- the leader holds what is committed, so the first conflict would be with itself
  obtain ⟨own, hown⟩ := (hho first.index).mpr (by omega)
  have hld := hcommitted _ own (by omega) hown
  rw [hsent.held first hmem] at hld
  cases hld
  rw [BufferedRaftLog.conflictsWith, BufferedRaftLog.entryTerm_of_held hwf hsl hown] at hcon
  simp only [ne_eq, not_true_eq_false, decide_false, Bool.and_false, Bool.or_false,
    decide_eq_true_eq] at hcon
  omega

/-! ## Commit index updates -/

/-- The last index that the request speaks about. -/
def confirmedIndex (request : AppendEntriesRequest) : Nat :=
  max request.prevLogIndex ((request.entries.getLast?.map Entry.index).getD 0)

/-- Every entry up to the new commit index is the leader's, and none of the newly
committed ones lies behind the last index that the request confirms. -/
def CommitsLeaderEntries (commitIndex newCommitIndex : Nat) (after : BufferedRaftLog)
    (leader : LeaderLog) (request : AppendEntriesRequest) : Prop :=
  (∀ i e, i ≤ newCommitIndex → after.entry i = some e → leader.entry i = some e) ∧
    ∀ i e, commitIndex < i → i ≤ newCommitIndex → after.entry i = some e →
      i ≤ confirmedIndex request

/-- Every uncommitted index up to the leader's commit index that the log holds and the request
leaves in place is one that the request confirms. -/
def SurvivorsConfirmed (commitIndex : Nat) (log : BufferedRaftLog)
    (request : AppendEntriesRequest) : Prop :=
  ∀ i, commitIndex < i → i ≤ request.leaderCommitIndex → log.lastPurgedIndex < i →
    i ≤ log.lastEntryId → Kept (rewriteCut log request) i → i ≤ confirmedIndex request

theorem SentBy.index_le_confirmed (hse : SentBy leader request)
    (he : e ∈ request.entries) : e.index ≤ confirmedIndex request := by
  obtain ⟨last, hla⟩ : ∃ last, request.entries.getLast? = some last :=
    ⟨_, List.getLast?_eq_some_getLast (List.ne_nil_of_mem he)⟩
  have hle := hse.batch.index_le_getLast hla he
  rw [confirmedIndex, hla]
  exact le_max_of_le_right hle

/-- Whatever an accepted request leaves at an index is the follower's own entry below
the rewritten part, or a confirmed entry of the leader. -/
theorem Accepted.entry_cases {after : BufferedRaftLog} (hse : SentBy leader request)
    (hacc : Accepted snapshot log after request updates) (he : after.entry i = some e) :
    (Kept (rewriteCut log request) i ∧ log.entry i = some e) ∨
      (leader.entry i = some e ∧ i ≤ confirmedIndex request) := by
  rw [hacc.entry_eq] at he
  by_cases hke : Kept (rewriteCut log request) i
  · rw [splice_of_kept hke] at he
    exact .inl ⟨hke, he⟩
  · rw [splice_of_not_kept hke] at he
    obtain ⟨hmem, rfl⟩ := ofList_eq_some_imp he
    exact .inr ⟨hse.held e hmem, hse.index_le_confirmed hmem⟩

/-- Below the rewritten part no carried entry is in conflict. -/
theorem SentBy.conflictsWith_of_kept (hse : SentBy leader request)
    (hst : ¬ (request.prevLogIndex = 0 ∧ request.prevLogTerm = 0)) (he : e ∈ request.entries)
    (hke : Kept (rewriteCut log request) e.index) :
    log.conflictsWith request.entries e = false := by
  rw [rewriteCut, if_neg (List.ne_nil_of_mem he), BufferedRaftLog.rewriteFrom, if_neg hst] at hke
  cases hfi : request.entries.find? (log.conflictsWith request.entries) with
  | none => exact Bool.eq_false_iff.mpr (List.find?_eq_none.mp hfi e he)
  | some first =>
    rw [hfi, Option.map_some, kept_some] at hke
    obtain ⟨-, before, behind, heq, hno⟩ := List.find?_eq_some_iff_append.mp hfi
    have has := hse.ascending
    rw [heq] at he has
    rcases List.mem_append.mp he with hbe | hbe
    · simpa using hno e hbe
    · rcases List.mem_cons.mp hbe with rfl | hin
      · exact absurd hke (lt_irrefl _)
      · have := (List.pairwise_cons.mp (List.pairwise_append.mp has).2.1).1 e hin
        omega

/-- A carried entry that is not in conflict has the term of the entry that the log holds. -/
theorem term_of_not_conflicting (hwf : log.WellFormed) (hst : Stretch leader request)
    (he : e ∈ request.entries) (hno : log.conflictsWith request.entries e = false) {own : Entry}
    (hown : log.entry e.index = some own) : own.term = e.term := by
  rw [BufferedRaftLog.conflictsWith, Bool.or_eq_false_iff, decide_eq_false_iff_not,
    Bool.and_eq_false_iff, Bool.not_eq_false', decide_eq_false_iff_not, not_not] at hno
  rcases hno.2 with hsa | hte
  · exact hwf.term_of_overlapSafe hst.batch hst.terms hsa he (Nat.le_of_not_lt hno.1) hown
  · exact (Option.some.inj (hwf.entryTerm_of_entry hown hte)).symm

/-- The request carries every index behind its predecessor up to its last entry. -/
theorem Stretch.exists_carried (hst : Stretch leader request) (hlo : request.prevLogIndex < i)
    (hhi : i ≤ confirmedIndex request) : ∃ x ∈ request.entries, x.index = i := by
  rw [Consecutive.mem_iff hst.contiguous]
  cases hla : request.entries.getLast? with
  | none =>
    rw [confirmedIndex, hla] at hhi
    simp only [Option.map_none, Option.getD_none, Nat.max_zero] at hhi
    omega
  | some last =>
    have hin := (Consecutive.mem_iff hst.contiguous _).mp ⟨last, List.mem_of_getLast? hla, rfl⟩
    rw [confirmedIndex, hla] at hhi
    simp only [Option.map_some, Option.getD_some] at hhi
    omega

/-- Under log matching, what an accepted request leaves in place up to its last confirmed index is
the leader's. -/
theorem Accepted.entry_eq_of_kept {after : BufferedRaftLog}
    (hacc : Accepted snapshot log after request updates) (hwf : log.WellFormed)
    (hho : HoldsRange log) (hst : Stretch leader request)
    (hma : LogMatching Entry.term log.lastPurgedIndex log.entry leader.entry)
    (hlo : log.lastPurgedIndex < i) (hhi : i ≤ confirmedIndex request)
    (hke : Kept (rewriteCut log request) i) : log.entry i = leader.entry i := by
  by_cases hze : request.prevLogIndex = 0 ∧ request.prevLogTerm = 0
  · -- a request that restarts the log leaves nothing in place
    obtain ⟨x, hx, -⟩ := hst.exists_carried (by omega) hhi
    rw [rewriteCut, if_neg (List.ne_nil_of_mem hx), BufferedRaftLog.rewriteFrom, if_pos hze,
      kept_some] at hke
    omega
  have hte := hacc.matched.resolve_left hze
  have hpo := hho.predecessor hwf hte
  by_cases hpr : i ≤ request.prevLogIndex
  · obtain ⟨own, hown⟩ := (hho _).mpr (hpo.resolve_left (by omega))
    obtain ⟨other, hot, heq⟩ := hst.predecessor.resolve_left hze
    have hsa : own.term = request.prevLogTerm :=
      (Option.some.inj (hwf.entryTerm_of_entry hown hte)).symm
    exact hma _ own other hown hot (hsa.trans heq.symm) i hlo hpr
  · obtain ⟨x, hx, rfl⟩ := hst.exists_carried (by omega) hhi
    have hno := hst.conflictsWith_of_kept hze hx hke
    have hle : x.index ≤ log.lastEntryId := by
      rw [BufferedRaftLog.conflictsWith, Bool.or_eq_false_iff, decide_eq_false_iff_not] at hno
      exact Nat.le_of_not_lt hno.1
    obtain ⟨own, hown⟩ := (hho _).mpr ⟨hlo, hle⟩
    exact hma _ own x hown (hst.held x hx) (term_of_not_conflicting hwf hst hx hno hown) _ hlo le_rfl

/-- The commit index update of an accepted request commits entries of the leader only,
and only confirmed ones, exactly when the uncommitted indexes up to the leader's commit
index that survive the request are confirmed. -/
theorem commitsLeaderEntries_iff (hwf : log.WellFormed) (hholds : HoldsRange log)
    (hstretch : Stretch leader request)
    (hmatching : LogMatching Entry.term log.lastPurgedIndex log.entry leader.entry)
    (hcommitted : CommittedPrefix snapshot.commitIndex log leader)
    (hok : (handleAppendEntries myId io request snapshot log).1 = .ok updates)
    (hsuccess : updates.response.isSuccess = true) :
    (∀ c, updates.commitIndexUpdate = some c →
        CommitsLeaderEntries snapshot.commitIndex c
          (handleAppendEntries myId io request snapshot log).2 leader request) ↔
      SurvivorsConfirmed snapshot.commitIndex log request := by
  have hacc := handleAppendEntries_accepted hwf hstretch.batch hok hsuccess
  have hwf' := wellFormed_handleAppendEntries myId io snapshot hwf hstretch.batch
  by_cases hle : request.leaderCommitIndex ≤ snapshot.commitIndex
  · have hno : updates.commitIndexUpdate = none := by
      rw [hacc.commit_eq, ifUpdateCommitIndexAsFollower, if_neg (by omega)]
    rw [hno]
    exact ⟨fun _ i hlt hi => absurd hi (by omega), fun _ c hc => by cases hc⟩
  · have hso : updates.commitIndexUpdate = some (min request.leaderCommitIndex
        (handleAppendEntries myId io request snapshot log).2.lastEntryId) := by
      rw [hacc.commit_eq, ifUpdateCommitIndexAsFollower, if_pos (by omega)]
    simp only [hso, Option.some.injEq, forall_eq']
    constructor
    · rintro ⟨-, hco⟩ i hlt hi hlo hhi hke
      obtain ⟨e, he⟩ := (hholds i).mpr ⟨hlo, hhi⟩
      have haf : (handleAppendEntries myId io request snapshot log).2.entry i = some e := by
        rw [hacc.entry_eq, splice_of_kept hke, he]
      exact hco i e hlt (le_min hi (hwf'.le_max i e haf)) haf
    · intro hsu
      have hall : ∀ i e, i ≤ request.leaderCommitIndex →
          (handleAppendEntries myId io request snapshot log).2.entry i = some e →
          leader.entry i = some e ∧
            (snapshot.commitIndex < i → i ≤ confirmedIndex request) := by
        intro i e hi he
        rcases hacc.entry_cases hstretch.toSentBy he with ⟨hke, hold⟩ | ⟨hld, hco⟩
        · by_cases hcm : i ≤ snapshot.commitIndex
          · exact ⟨hcommitted i e hcm hold, fun hlt => absurd hcm (by omega)⟩
          · obtain ⟨hlo, hhi⟩ := (hholds i).mp ⟨e, hold⟩
            have hco := hsu i (by omega) hi hlo hhi hke
            exact ⟨hacc.entry_eq_of_kept hwf hholds hstretch hmatching hlo hco hke ▸ hold,
              fun _ => hco⟩
        · exact ⟨hld, fun _ => hco⟩
      exact ⟨fun i e hi he => (hall i e (le_trans hi (min_le_left _ _)) he).1,
        fun i e hlt hi he => (hall i e (le_trans hi (min_le_left _ _)) he).2 hlt⟩

/-- The follower's second entry has an older term than the leader's. -/
def divergedEntries : List Entry := [⟨1, 1, none⟩, ⟨2, 1, none⟩]

/-- A leader whose second entry was written in term two. -/
def divergedLeader : LeaderLog :=
  LeaderLog.ofEntries [⟨1, 1, none⟩, ⟨2, 2, none⟩] (by decide)

/-- A heartbeat behind the first entry. -/
def heartbeat (leaderCommitIndex : Nat) : AppendEntriesRequest :=
  { term := 2, leaderId := 1, prevLogIndex := 1, prevLogTerm := 1, entries := [],
    leaderCommitIndex := leaderCommitIndex }

theorem diverged_entry_cases (he : (loadedLog divergedEntries).entry i = some e) :
    e = ⟨1, 1, none⟩ ∧ i = 1 ∨ e = ⟨2, 1, none⟩ ∧ i = 2 := by
  rw [loadedLog, BufferedRaftLog.entry_new (by decide)] at he
  obtain ⟨hmem, rfl⟩ := ofList_eq_some_imp he
  simp only [divergedEntries, List.mem_cons, List.not_mem_nil, or_false] at hmem
  rcases hmem with rfl | rfl <;> simp

theorem diverged_logMatching :
    LogMatching Entry.term 0 (loadedLog divergedEntries).entry divergedLeader.entry := by
  intro i a b ha hb hte
  rcases diverged_entry_cases ha with ⟨rfl, rfl⟩ | ⟨rfl, rfl⟩
  · intro j hlo hhi
    obtain rfl : j = 1 := by omega
    decide
  · have hb' : b = ⟨2, 2, none⟩ := by
      have : divergedLeader.entry 2 = some ⟨2, 2, none⟩ := by decide
      exact Option.some.inj (hb.symm.trans this)
    subst hb'
    cases hte

theorem diverged_committedPrefix :
    CommittedPrefix 1 (loadedLog divergedEntries) divergedLeader := by
  intro i e hi he
  rcases diverged_entry_cases he with ⟨rfl, rfl⟩ | ⟨rfl, rfl⟩
  · decide
  · omega

theorem holdsRange_diverged : HoldsRange (loadedLog divergedEntries) := by
  intro i
  constructor
  · rintro ⟨e, he⟩
    rcases diverged_entry_cases he with ⟨-, rfl⟩ | ⟨-, rfl⟩ <;> decide
  · rintro ⟨hlo, hhi⟩
    change 0 < i at hlo
    change i ≤ 2 at hhi
    obtain rfl | rfl : i = 1 ∨ i = 2 := by omega
    · exact ⟨_, rfl⟩
    · exact ⟨_, rfl⟩

theorem stretch_heartbeat (leaderCommitIndex : Nat) :
    Stretch divergedLeader (heartbeat leaderCommitIndex) :=
  ⟨⟨.nil, fun _ he => by cases he⟩, rfl, .nil, .inr ⟨_, rfl, rfl⟩⟩

/-- A heartbeat makes the follower commit its own second entry, which the leader does
not hold. -/
theorem heartbeat_commits_diverged :
    (loadedLog divergedEntries).WellFormed ∧ HoldsRange (loadedLog divergedEntries) ∧
      Stretch divergedLeader (heartbeat 2) ∧
      LogMatching Entry.term 0 (loadedLog divergedEntries).entry divergedLeader.entry ∧
      CommittedPrefix 1 (loadedLog divergedEntries) divergedLeader ∧
      ∃ updates,
        (handleAppendEntries 2 (.ok ()) (heartbeat 2) ⟨1, 1⟩ (loadedLog divergedEntries)).1 =
          .ok updates ∧
        updates.response.isSuccess = true ∧ updates.commitIndexUpdate = some 2 ∧
        ¬ CommitsLeaderEntries 1 2
          (handleAppendEntries 2 (.ok ()) (heartbeat 2) ⟨1, 1⟩ (loadedLog divergedEntries)).2
          divergedLeader (heartbeat 2) := by
  refine ⟨BufferedRaftLog.wellFormed_new none (by decide) (by decide), holdsRange_diverged,
    stretch_heartbeat 2, diverged_logMatching, diverged_committedPrefix, _, rfl, rfl,
    by decide, ?_⟩
  rintro ⟨hld, -⟩
  have hown := hld 2 ⟨2, 1, none⟩ le_rfl (by decide)
  revert hown
  decide

/-- A heartbeat that carries the commit index the follower already has commits nothing. -/
theorem heartbeat_commits_nothing :
    ∃ updates,
      (handleAppendEntries 2 (.ok ()) (heartbeat 1) ⟨1, 1⟩ (loadedLog divergedEntries)).1 =
        .ok updates ∧
      ∀ c, updates.commitIndexUpdate = some c →
        CommitsLeaderEntries 1 c
          (handleAppendEntries 2 (.ok ()) (heartbeat 1) ⟨1, 1⟩ (loadedLog divergedEntries)).2
          divergedLeader (heartbeat 1) := by
  have hwf : (loadedLog divergedEntries).WellFormed :=
    BufferedRaftLog.wellFormed_new none (by decide) (by decide)
  obtain ⟨updates, hok, hsu⟩ : ∃ updates, (handleAppendEntries 2 (.ok ()) (heartbeat 1)
      ⟨1, 1⟩ (loadedLog divergedEntries)).1 = .ok updates ∧
        updates.response.isSuccess = true := ⟨_, rfl, rfl⟩
  exact ⟨updates, hok, (commitsLeaderEntries_iff hwf holdsRange_diverged (stretch_heartbeat 1)
    diverged_logMatching diverged_committedPrefix hok hsu).mpr
    fun i hlt hi => absurd hlt (Nat.not_lt.mpr hi)⟩

/-! ## Acknowledged positions -/

/-- The follower and the leader hold the same from the purge boundary up to the
acknowledged position. -/
def AckSound (log after : BufferedRaftLog) (leader : LeaderLog)
    (updates : AppendResponseWithUpdates) : Prop :=
  ∀ id, updates.response.result = some (.success (some id)) →
    Agree after.entry leader.entry log.lastPurgedIndex id.index

/-- The follower's last entry has the term of the leader's entry there. -/
def LastEntryMatches (log : BufferedRaftLog) (leader : LeaderLog) : Prop :=
  log.lastEntryId ≤ log.lastPurgedIndex ∨
    ∃ own other, log.entry log.lastEntryId = some own ∧
      leader.entry log.lastEntryId = some other ∧ own.term = other.term

/-- The acknowledged position can be trusted. -/
def AckTrusted (log : BufferedRaftLog) (leader : LeaderLog) (request : AppendEntriesRequest) :
    Prop :=
  request.entries ≠ [] ∨ LastEntryMatches log leader

theorem lastLogId_of_pos (hwf : log.WellFormed) (hpos : 0 < log.lastEntryId) :
    ∃ e, log.entry log.lastEntryId = some e ∧ log.lastLogId = some e.logId ∧
      e.index = log.lastEntryId := by
  obtain ⟨e, he⟩ := hwf.max_held (Nat.pos_iff_ne_zero.mp hpos)
  refine ⟨e, he, ?_, hwf.entry_index _ e he⟩
  rw [BufferedRaftLog.lastLogId, if_pos hpos, BufferedRaftLog.lastEntryId, he]
  rfl

/-- Under log matching, the last entries alone decide whether the logs agree. -/
theorem agree_lastEntryId_iff (hwf : log.WellFormed)
    (hma : LogMatching Entry.term log.lastPurgedIndex log.entry leader.entry)
    (hlt : log.lastPurgedIndex < log.lastEntryId) :
    Agree log.entry leader.entry log.lastPurgedIndex log.lastEntryId ↔
      LastEntryMatches log leader := by
  obtain ⟨e, he, -, -⟩ := lastLogId_of_pos hwf (Nat.zero_lt_of_lt hlt)
  constructor
  · intro hag
    have hsa := hag log.lastEntryId hlt le_rfl
    exact .inr ⟨e, e, he, hsa ▸ he, rfl⟩
  · intro hla
    obtain ⟨own, other, hown, hot, hte⟩ := hla.resolve_left (Nat.not_le.mpr hlt)
    exact hma _ own other hown hot hte

/-- The index that a request without entries is acknowledged with. -/
theorem index_lastLogId (hwf : log.WellFormed) {id : LogId} (hid : log.lastLogId = some id) :
    id.index = log.lastEntryId ∨ id.index = log.lastPurgedIndex := by
  by_cases hpos : 0 < log.lastEntryId
  · obtain ⟨e, -, heq, hidx⟩ := lastLogId_of_pos hwf hpos
    rw [heq] at hid
    cases hid
    exact .inl hidx
  · rw [BufferedRaftLog.lastLogId, if_neg hpos] at hid
    split_ifs at hid
    cases hid
    exact .inr rfl

/-- What an accepted request rewrites up to its last entry is carried by it. -/
theorem Stretch.ofList_of_not_kept (hst : Stretch leader request)
    (hpos : 0 < i) (hhi : i ≤ confirmedIndex request) (hke : ¬ Kept (rewriteCut log request) i) :
    ofList Entry.index request.entries i = leader.entry i := by
  have hlo : request.prevLogIndex < i := by
    by_cases hze : request.prevLogIndex = 0 ∧ request.prevLogTerm = 0
    · omega
    · obtain ⟨first, hmem, -, hle⟩ := exists_conflict_of_not_kept hze hke
      have := (Consecutive.mem_iff hst.contiguous _).mp ⟨first, hmem, rfl⟩
      omega
  obtain ⟨x, hx, rfl⟩ := hst.exists_carried hlo hhi
  rw [ofList_of_mem hst.ascending hx, hst.held x hx]

/-- What a follower without holes acknowledges to a leader whose log matches its own is sound
exactly when the request carries entries or the follower's last entry matches. -/
theorem ackSound_iff (hwf : log.WellFormed) (hholds : HoldsRange log)
    (hstretch : Stretch leader request)
    (hmatching : LogMatching Entry.term log.lastPurgedIndex log.entry leader.entry)
    (hok : (handleAppendEntries myId io request snapshot log).1 = .ok updates)
    (hsuccess : updates.response.isSuccess = true) :
    AckSound log (handleAppendEntries myId io request snapshot log).2 leader updates ↔
      AckTrusted log leader request := by
  have hacc := handleAppendEntries_accepted hwf hstretch.batch hok hsuccess
  unfold AckSound AckTrusted
  simp only [hacc.result_eq, hacc.entry_eq, ackedId, Option.some.injEq,
    AppendEntriesResult.success.injEq]
  by_cases hnil : request.entries = []
  · simp only [rewriteCut, ne_eq, hnil, not_true_eq_false, false_or]
    change (∀ id, log.lastLogId = some id → Agree log.entry leader.entry _ id.index) ↔ _
    by_cases hlt : log.lastPurgedIndex < log.lastEntryId
    · obtain ⟨e, -, heq, hin⟩ := lastLogId_of_pos hwf (Nat.zero_lt_of_lt hlt)
      rw [← agree_lastEntryId_iff hwf hmatching hlt, heq]
      simp only [Option.some.injEq, forall_eq', Entry.logId_index, hin]
    · have hle : log.lastEntryId ≤ log.lastPurgedIndex := Nat.le_of_not_lt hlt
      refine ⟨fun _ => Or.inl hle, fun _ id hid j hlo hhi => ?_⟩
      rcases index_lastLogId hwf hid with hin | hin <;> omega
  · simp only [ne_eq, hnil, not_false_eq_true, true_or, iff_true]
    intro id hid
    obtain ⟨last, hla, rfl⟩ := Option.map_eq_some_iff.mp hid
    rw [agree_splice_iff]
    intro i hlo hhi
    have hco := hhi.trans (hstretch.index_le_confirmed (List.mem_of_getLast? hla))
    exact ⟨hacc.entry_eq_of_kept hwf hholds hstretch hmatching hlo hco,
      hstretch.ofList_of_not_kept (Nat.zero_lt_of_lt hlo) hco⟩

/-- The heartbeat is answered with the position of the follower's second entry, where
the leader holds another one. -/
theorem heartbeat_acks_diverged :
    (loadedLog divergedEntries).WellFormed ∧ HoldsRange (loadedLog divergedEntries) ∧
      Stretch divergedLeader (heartbeat 1) ∧
      LogMatching Entry.term 0 (loadedLog divergedEntries).entry divergedLeader.entry ∧
      ∃ updates,
        (handleAppendEntries 2 (.ok ()) (heartbeat 1) ⟨1, 1⟩ (loadedLog divergedEntries)).1 =
          .ok updates ∧
        updates.response.result = some (.success (some ⟨1, 2⟩)) ∧
        ¬ AckSound (loadedLog divergedEntries)
          (handleAppendEntries 2 (.ok ()) (heartbeat 1) ⟨1, 1⟩ (loadedLog divergedEntries)).2
          divergedLeader updates := by
  refine ⟨BufferedRaftLog.wellFormed_new none (by decide) (by decide), holdsRange_diverged,
    stretch_heartbeat 1, diverged_logMatching, _, rfl, by decide, ?_⟩
  intro hso
  have hsa := hso ⟨1, 2⟩ (by decide) 2 (by decide) (by decide)
  revert hsa
  decide

/-- A follower that already holds the leader's log acknowledges a heartbeat soundly. -/
theorem heartbeat_acks_equal :
    ∃ updates,
      (handleAppendEntries 2 (.ok ()) (heartbeat 1) ⟨1, 1⟩ (loadedLog divergedEntries)).1 =
        .ok updates ∧
      AckSound (loadedLog divergedEntries)
        (handleAppendEntries 2 (.ok ()) (heartbeat 1) ⟨1, 1⟩ (loadedLog divergedEntries)).2
        (LeaderLog.ofEntries divergedEntries (by decide)) updates := by
  have hwf : (loadedLog divergedEntries).WellFormed :=
    BufferedRaftLog.wellFormed_new none (by decide) (by decide)
  have hen : (loadedLog divergedEntries).entry =
      (LeaderLog.ofEntries divergedEntries (by decide)).entry :=
    BufferedRaftLog.entry_new (by decide)
  have hst : Stretch (LeaderLog.ofEntries divergedEntries (by decide)) (heartbeat 1) :=
    ⟨⟨.nil, fun _ he => by cases he⟩, rfl, .nil, .inr ⟨_, rfl, rfl⟩⟩
  have hma : LogMatching Entry.term 0 (loadedLog divergedEntries).entry
      (LeaderLog.ofEntries divergedEntries (by decide)).entry := by
    intro i a b _ _ _ j _ _
    rw [hen]
  obtain ⟨updates, hok, hsu⟩ : ∃ updates, (handleAppendEntries 2 (.ok ()) (heartbeat 1)
      ⟨1, 1⟩ (loadedLog divergedEntries)).1 = .ok updates ∧
        updates.response.isSuccess = true := ⟨_, rfl, rfl⟩
  refine ⟨updates, hok, (ackSound_iff hwf holdsRange_diverged hst hma hok hsu).mpr ?_⟩
  exact .inr (.inr ⟨⟨2, 1, none⟩, ⟨2, 1, none⟩, by decide, by decide, rfl⟩)

end Follower

end DEngine.Replication

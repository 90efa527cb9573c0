import DEngine.Client.Session
import DEngine.Raft.Frames

/-!
# The index of the no-op

A new leader appends a no-op and serves linearizable reads once it is committed. The
index that it notes for the reads is not that of the no-op, but the end of the log at
the time of the commit. It is the index of the no-op exactly if nothing has been
appended behind the no-op by then; otherwise reads may wait for entries that are not
committed.
-/

namespace DEngine.Raft

open Library Library.Handler Storage Replication

variable {myId : Nat} {s t u : Node myId} {l : Label} {env : Env}

/-! ## The no-op of a leader -/

/-- The index of the no-op that was appended at the last entry into the leader role. -/
def noopIndexIn : List Action → Option Nat
  | [] => none
  | .enteredLeader _ :: _ => none
  | .generated entries :: .enteredLeader term :: _ =>
    (entries.find? fun e => decide (e.term = term ∧ e.payload = some noopPayload)).map Entry.index
  | _ :: rest => noopIndexIn rest

def noopIndex (s : Node myId) : Option Nat := noopIndexIn s.journal

/-- The no-op stays the same until the node enters the leader role again. -/
theorem noopIndexIn_append {done journal : List Action} {i : Nat}
    (hdn : ∀ a ∈ done, ∀ term, a ≠ .enteredLeader term) (h : noopIndexIn journal = some i) :
    noopIndexIn (done ++ journal) = some i := by
  induction done with
  | nil => exact h
  | cons a rest ih =>
    have hre : noopIndexIn (rest ++ journal) = some i :=
      ih fun b hb => hdn b (List.mem_cons_of_mem a hb)
    have ha := hdn a List.mem_cons_self
    cases hnx : rest ++ journal with
    | nil => rw [hnx] at hre; cases hre
    | cons b =>
      rw [hnx] at hre
      rw [List.cons_append, hnx]
      cases a with
      | enteredLeader term => exact absurd rfl (ha term)
      | generated =>
        cases b with
        | enteredLeader => cases hre
        | _ => exact hre
      | _ => exact hre

/-! ## What steps leave of it -/

/-- The node is still in its role and term of office, and its commit index has not fallen. -/
structure InOffice (s t : Node myId) : Prop where
  role_eq : t.role = s.role
  commit_le : s.role = .leader → s.commitIndex ≤ t.commitIndex
  journal : ∃ done, t.journal = done ++ s.journal ∧ ∀ a ∈ done, ∀ term, a ≠ .enteredLeader term

theorem InOffice.of_same (hro : t.role = s.role)
    (hcom : s.role = .leader → s.commitIndex ≤ t.commitIndex)
    (hjo : t.journal = s.journal) : InOffice s t :=
  ⟨hro, hcom, [], hjo, nofun⟩

instance : Frame (@InOffice myId) where
  refl _ := .of_same rfl (fun _ => le_rfl) rfl
  trans s t u hst htu := by
    obtain ⟨done, hdone, hall⟩ := hst.journal
    obtain ⟨more, hmore, hall'⟩ := htu.journal
    refine ⟨htu.role_eq.trans hst.role_eq, fun hrole => ?_, more ++ done, ?_, fun a ha => ?_⟩
    · exact (hst.commit_le hrole).trans (htu.commit_le (hst.role_eq.trans hrole))
    · rw [hmore, hdone, List.append_assoc]
    · rcases List.mem_append.mp ha with h | h
      · exact hall' a h
      · exact hall a h
  sent _ _ := .of_same rfl (fun _ => le_rfl) rfl
  recorded s action haction :=
    ⟨rfl, fun _ => le_rfl, [action], rfl, fun a ha => List.mem_singleton.mp ha ▸ haction⟩
  log _ _ := .of_same rfl (fun _ => le_rfl) rfl
  hardState _ _ _ := .of_same rfl (fun _ => le_rfl) rfl
  currentLeader _ _ := .of_same rfl (fun _ => le_rfl) rfl
  commitIndex _ _ hle := .of_same rfl hle rfl
  leader _ _ _ := .of_same rfl (fun _ => le_rfl) rfl
  purge _ _ _ := .of_same rfl (fun _ => le_rfl) rfl
  loop _ _ _ _ _ _ := .of_same rfl (fun _ => le_rfl) rfl

theorem InOffice.noopIndex {i : Nat} (h : InOffice s t) (hs : noopIndex s = some i) :
    noopIndex t = some i := by
  obtain ⟨done, hdn, hall⟩ := h.journal
  rw [Raft.noopIndex, hdn]
  exact noopIndexIn_append hall hs

/-- The node has noted the same index for its reads. -/
def SameNoop (s t : Node myId) : Prop := t.leader.noopLogId = s.leader.noopLogId

instance : Frame (@SameNoop myId) where
  refl _ := rfl
  trans _ _ _ hst htu := htu.trans hst
  sent _ _ := rfl
  recorded _ _ _ := rfl
  log _ _ := rfl
  hardState _ _ _ := rfl
  currentLeader _ _ := rfl
  commitIndex _ _ _ := rfl
  leader _ _ hnoop := hnoop
  purge _ _ _ := rfl
  loop _ _ _ _ _ _ := rfl

/-! ## Commits -/

/-- The index that a leader commits when it handles the event. -/
def commitsNext (s : Node myId) : InternalEvent → Option Nat
  | .logFlushed _ =>
    if s.leader.clusterMetadata.singleVoter then
      if s.commitIndex < s.log.lastEntryId then some s.log.lastEntryId else none
    else calculateNewCommitIndex s
  | .appendResult peer (some response) =>
    (s.peerUpdate peer response).bind fun update =>
      if s.leader.clusterMetadata.isVoter peer ∧ update.success then
        calculateNewCommitIndex { s with leader := s.leader.updatePeerIndex peer update }
      else none
  | _ => none

def isNoopAction : PostCommitAction → Bool
  | .leaderNoop _ => true
  | .nodeJoin _ => false

/-- The action of the no-op is due when the index is committed. -/
def NoopDue (s : Node myId) (newCommit : Nat) : Prop :=
  ∃ p ∈ s.leader.pendingCommitActions.range 0 newCommit, isNoopAction p.2 = true
deriving Decidable

/-- When the commit index reaches the action of the no-op, the no-op is the last entry of the
log and is committed with it. -/
def NoopCommitsLast (s : Node myId) (l : Label) : Prop :=
  s.role = .leader → ∀ event ∈ s.handledInternal l, ∀ newCommit ∈ commitsNext s event,
    NoopDue s newCommit → noopIndex s = some s.log.lastEntryId ∧ s.log.lastEntryId ≤ newCommit
deriving Decidable

/-- Where the action is registered under the index of the no-op, as in logs without holes, only
the place of the no-op matters. -/
theorem noopCommitsLast_of_registered
    (hreg : ∀ i action, s.leader.pendingCommitActions[i]? = some action →
      isNoopAction action = true → noopIndex s = some i)
    (hla : s.role = .leader → ∀ event ∈ s.handledInternal l, ∀ newCommit ∈ commitsNext s event,
      NoopDue s newCommit → noopIndex s = some s.log.lastEntryId) : NoopCommitsLast s l := by
  intro hro event hev newCommit hnew hdue
  have hno := hla hro event hev newCommit hnew hdue
  obtain ⟨⟨i, action⟩, hp, hac⟩ := hdue
  obtain ⟨hin, -, hle⟩ := (OrderedMap.mem_range_iff ..).mp hp
  cases hno.symm.trans (hreg i action hin hac)
  exact ⟨hno, hle⟩

/-- The index for reads stays, or is taken from the end of the log over a commit that makes the
action of the no-op due. -/
def Notes (newCommit : Option Nat) (s t : Node myId) : Prop :=
  SameNoop s t ∨ t.leader.noopLogId = some s.log.lastEntryId ∧
    ∃ index ∈ newCommit, NoopDue s index ∧ (s.role = .leader → index ≤ t.commitIndex)

/-- The index of the no-op is taken from the end of the log. -/
def Node.noopTracked (s : Node myId) : Node myId :=
  { s with leader := { s.leader with noopLogId := some s.log.lastEntryId } }

theorem each_runCommitAction (due : List (Nat × PostCommitAction)) :
    Ensures (Handler.each (fun p => runCommitAction p.2) due) s fun _ t =>
      t.log = s.log ∧ t.commitIndex = s.commitIndex ∧
        (SameNoop s t ∨ t.leader.noopLogId = some s.log.lastEntryId ∧
          ∃ p ∈ due, isNoopAction p.2 = true) := by
  induction due generalizing s with
  | nil => exact ⟨rfl, rfl, Or.inl rfl⟩
  | cons p rest ih =>
    obtain ⟨key, action⟩ := p
    cases action with
    | nodeJoin =>
      refine Ensures.mono ih ?_
      rintro r t ⟨hlog, hcom, hnp⟩
      refine ⟨hlog, hcom, hnp.imp_right ?_⟩
      rintro ⟨hno, q, hq, hdue⟩
      exact ⟨hno, q, List.mem_cons_of_mem _ hq, hdue⟩
    | leaderNoop term =>
      have hno : ∃ p ∈ (key, PostCommitAction.leaderNoop term) :: rest,
          isNoopAction p.2 = true := ⟨_, List.mem_cons_self, rfl⟩
      have htr : Returns (runCommitAction (.leaderNoop term)) s fun _ t =>
          t = s.noopTracked.sent (.noopCommitted term) := ⟨(), rfl, rfl⟩
      refine htr.bind ?_
      rintro _ _ rfl
      refine Ensures.mono ih ?_
      rintro r t ⟨hlog, hcom, hsa | ⟨hag, -⟩⟩
      · exact ⟨hlog, hcom, Or.inr ⟨hsa, hno⟩⟩
      · exact ⟨hlog, hcom, Or.inr ⟨hag, hno⟩⟩

theorem notes_commitTo (newCommit : Nat) :
    Ensures (commitTo newCommit) s fun _ t => Notes (some newCommit) s t := by
  unfold commitTo
  rw [ensures_get_bind]
  have hsi : Ensures (updateCommitIndexWithSignal s.currentTerm newCommit) s fun r t =>
      r = .ok () ∧ t.log = s.log ∧ t.leader = s.leader ∧
        (s.role = .leader → newCommit ≤ t.commitIndex) := by
    unfold updateCommitIndexWithSignal updateCommitIndex
    rw [ensures_modify_bind]
    split_ifs with hba
    · exact ⟨rfl, rfl, rfl, fun _ => hba.2⟩
    · exact ⟨rfl, rfl, rfl, fun _ => le_rfl⟩
  refine hsi.bind ?_ ?_
  · rintro fault t ⟨herr, -⟩
    cases herr
  rintro _ t ⟨-, hlog, hld, hcom⟩
  unfold drainCommitActions
  rw [ensures_get_bind, modifyLeader, ensures_modify_bind]
  refine Ensures.mono (each_runCommitAction _) ?_
  rintro r u ⟨hul, huc, hsa | ⟨hnt, p, hp, hno⟩⟩
  · have hke : t.leader.noopLogId = s.leader.noopLogId := congrArg _ hld
    exact .inl (hsa.trans hke)
  · refine .inr ⟨hnt.trans (by rw [hlog]), newCommit, rfl, ⟨p, hld ▸ hp, hno⟩, ?_⟩
    intro hro
    exact (hcom hro).trans huc.ge

theorem notes_commitByQuorum :
    Ensures commitByQuorum s fun _ t => Notes (calculateNewCommitIndex s) s t := by
  unfold commitByQuorum
  rw [ensures_get_bind]
  cases calculateNewCommitIndex s with
  | none => exact .inl rfl
  | some newCommit => exact notes_commitTo newCommit

theorem notes_handleLogFlushed (durableIndex : Nat) :
    Ensures handleLogFlushed s fun _ t => Notes (commitsNext s (.logFlushed durableIndex)) s t := by
  unfold handleLogFlushed commitsNext
  rw [ensures_get_bind]
  split_ifs
  · exact notes_commitTo _
  · exact .inl rfl
  · exact notes_commitByQuorum

theorem notes_applyPeerUpdate (peer : Nat) (update : PeerUpdate) :
    Ensures (applyPeerUpdate env peer update) s fun _ t =>
      Notes (if s.leader.clusterMetadata.isVoter peer ∧ update.success then
        calculateNewCommitIndex { s with leader := s.leader.updatePeerIndex peer update }
        else none) s t := by
  obtain ⟨_, _, _, heq⟩ := s.leader.updatePeerIndex_eq peer update
  have hno := congrArg LeaderState.noopLogId heq
  unfold applyPeerUpdate
  rw [ensures_get_bind, modifyLeader, ensures_modify_bind]
  by_cases hvo : s.leader.clusterMetadata.isVoter peer = true
  · rw [if_pos hvo]
    by_cases hsu : update.success = true
    · rw [if_pos hsu, if_pos ⟨hvo, hsu⟩]
      refine notes_commitByQuorum.mono ?_
      rintro r t (hsa | ⟨hnt, index, hidx, ⟨p, hp, hac⟩, hcom⟩)
      · exact .inl (hsa.trans hno)
      · have hat := congrArg LeaderState.pendingCommitActions heq
        exact .inr ⟨hnt, index, hidx, ⟨p, hat ▸ hp, hac⟩, hcom⟩
    · rw [if_neg hsu]
      exact .inl hno
  · rw [if_neg hvo]
    have hke : Ensures (checkLearnerProgress env) { s with
        leader := s.leader.updatePeerIndex peer update } fun _ t => SameNoop _ t :=
      ensures_frame (p := .quiet 0) does_checkLearnerProgress
    exact hke.mono fun _ _ hsa => Or.inl (hsa.trans hno)

theorem notes_handleAppendResult (peer : Nat) (result : Option AppendEntriesResponse) :
    Ensures (handleAppendResult env peer result) s fun _ t =>
      Notes (commitsNext s (.appendResult peer result)) s t := by
  have hdw : ∀ {newCommit : Option Nat} {term : Nat}, s.currentTerm < term →
      Ensures (stepDownTo env term) s fun _ t => Notes newCommit s t := by
    intro newCommit term hlt
    have hke : Ensures (stepDownTo env term) s fun _ t => SameNoop s t :=
      ensures_frame (p := .quiet term) (does_stepDownTo hlt le_rfl)
    exact hke.mono fun _ _ hsa => Or.inl hsa
  refine ensures_handleAppendResult (.inl rfl) (fun _ _ _ hlt _ => hdw hlt) ?_ ?_
  · rintro response rfl lastMatch update _ _ _ hupd
    rw [commitsNext, hupd]
    exact notes_applyPeerUpdate peer update
  · rintro response rfl update hupd _ _
    rw [commitsNext, hupd]
    exact notes_applyPeerUpdate peer update

/-! ## Steps -/

/-- The index that a leader has noted for its reads is that of its no-op, and committed. -/
def NotedRight (s : Node myId) : Prop :=
  s.role = .leader → ∀ i ∈ s.leader.noopLogId, noopIndex s = some i ∧ i ≤ s.commitIndex

theorem NotedRight.keep (h : NotedRight s) (hof : InOffice s t) (hsa : SameNoop s t) :
    NotedRight t := by
  intro hro i hi
  have hld : s.role = .leader := hof.role_eq.symm.trans hro
  obtain ⟨hidx, hle⟩ := h hld i (hsa ▸ hi)
  exact ⟨hof.noopIndex hidx, hle.trans (hof.commit_le hld)⟩

/-- A commit of the no-op, while it is the last entry of the log. -/
theorem NotedRight.note {newCommit : Option Nat} (h : NotedRight s) (hof : InOffice s t)
    (hns : Notes newCommit s t) (hla : s.role = .leader → ∀ index ∈ newCommit,
      NoopDue s index → noopIndex s = some s.log.lastEntryId ∧ s.log.lastEntryId ≤ index) :
    NotedRight t := by
  rcases hns with hsa | ⟨hnt, index, hidx, hdue, hcom⟩
  · exact h.keep hof hsa
  · intro hro i hi
    have hld : s.role = .leader := hof.role_eq.symm.trans hro
    obtain ⟨hno, hle⟩ := hla hld index hidx hdue
    rw [hnt] at hi
    cases hi
    exact ⟨hof.noopIndex hno, hle.trans (hcom hld)⟩

theorem NotedRight.of_frames {x : NodeM myId Unit} (h : NotedRight s)
    (hof : Ensures x s fun _ t => InOffice s t) (hsa : Ensures x s fun _ t => SameNoop s t) :
    Ensures x s fun _ t => NotedRight t :=
  h.keep hof hsa

/-- A change of the role ends what was noted, unless it is refused. -/
theorem NotedRight.switch (h : NotedRight s) {event : InternalEvent} (hsw : event.switches = true) :
    Ensures (handleInternalEvent env event) s fun _ t => NotedRight t := by
  have hdr : Ensures drainReadBuffer s fun _ t => NotedRight t :=
    h.of_frames frame_drainReadBuffer frame_drainReadBuffer
  cases event with
  | becomeFollower =>
    refine hdr.keep fun _ u _ => ?_
    refine Ensures.bind roleChange_becomeFollower (fun _ _ hv hro => absurd hro hv.2) ?_
    rintro _ v ⟨-, hv⟩
    have hre : Ensures (commitVoteReset env.save) v fun _ t => InOffice v t :=
      ensures_frame (p := .quiet 0) does_commitVoteReset
    exact hre.mono fun _ t ht hro => absurd (ht.role_eq.symm.trans hro) hv
  | becomeCandidate =>
    refine hdr.keep fun _ u hu => ?_
    unfold becomeCandidate
    rw [ensures_get_bind]
    cases u.role with
    | follower => nofun
    | candidate | leader | learner => exact hu
  | becomeLearner =>
    refine hdr.keep fun _ u hu => ?_
    unfold becomeLearner
    rw [ensures_get_bind]
    cases u.role with
    | follower | candidate => nofun
    | leader | learner => exact hu
  | becomeLeader =>
    by_cases hro : s.role = .candidate
    · have hent : Ensures (handleBecomeLeader env) s fun _ t => SameNoop s.entered t :=
        frame_handleBecomeLeader hro
      refine hent.mono fun _ t hsa _ i hi => ?_
      rw [hsa] at hi
      cases hi
    · exact (handleBecomeLeader_refused hro).mono fun _ t ht => ht ▸ h
  | _ => cases hsw

theorem NotedRight.internalEvent {event : InternalEvent} {rest : List InternalEvent}
    (h : NotedRight s) (hla : NoopCommitsLast s (.internalEvent env))
    (hbuf : s.bufferedInternalEvent = event :: rest) :
    Ensures (handleInternalEvent env event) (s.popped rest) fun _ t => NotedRight t := by
  have hpo : NotedRight (s.popped rest) := h
  have hha : s.handledInternal (.internalEvent env) = some event := by
    rw [Node.handledInternal, Node.nextInternal, hbuf, List.head?_cons]
  have hdue : (s.popped rest).role = .leader → ∀ index ∈ commitsNext (s.popped rest) event,
      NoopDue (s.popped rest) index → noopIndex (s.popped rest) =
        some (s.popped rest).log.lastEntryId ∧ (s.popped rest).log.lastEntryId ≤ index :=
    fun hro index hidx => hla hro event hha index (by cases event <;> exact hidx)
  by_cases hsw : event.switches = true
  · exact hpo.switch hsw
  have hqu : event.counts = false → (∀ data, event ≠ .notifyNewCommitIndex data) →
      Ensures (handleInternalEvent env event) (s.popped rest) fun _ t => NotedRight t := by
    intro hco hno
    have hbo : ∀ {P : Prop}, event.counts = true → P := fun htr => by
      rw [hco] at htr
      cases htr
    exact hpo.of_frames
      (frame_internalEvent hbuf (Bool.eq_false_iff.mpr hsw) hno hbo)
      (frame_internalEvent hbuf (Bool.eq_false_iff.mpr hsw) hno hbo)
  have hof : (∀ data, event ≠ .notifyNewCommitIndex data) →
      Ensures (handleInternalEvent env event) (s.popped rest) fun _ t =>
        InOffice (s.popped rest) t := fun hno =>
    frame_internalEvent hbuf (Bool.eq_false_iff.mpr hsw) hno
      fun _ _ _ => .of_same rfl (fun _ => le_rfl) rfl
  cases event with
  | notifyNewCommitIndex =>
    refine hpo.of_frames ?_ rfl
    exact ⟨rfl, fun _ => le_rfl, [_], rfl, by simp⟩
  | logFlushed durableIndex =>
    have hnt : Ensures (handleInternalEvent env (.logFlushed durableIndex)) (s.popped rest)
        fun _ t => Notes (commitsNext (s.popped rest) (.logFlushed durableIndex))
          (s.popped rest) t := by
      unfold handleInternalEvent
      rw [ensures_get_bind]
      split_ifs
      · exact notes_handleLogFlushed durableIndex
      · exact .inl rfl
    exact hpo.note (hof (by simp)) hnt hdue
  | appendResult peer result =>
    have hnt : Ensures (handleInternalEvent env (.appendResult peer result)) (s.popped rest)
        fun _ t => Notes (commitsNext (s.popped rest) (.appendResult peer result))
          (s.popped rest) t := by
      unfold handleInternalEvent
      rw [ensures_get_bind]
      split_ifs
      · exact ensures_logged (notes_handleAppendResult peer result)
      · exact .inl rfl
    exact hpo.note (hof (by simp)) hnt hdue
  | _ => exact hqu rfl (by simp)

theorem NotedRight.settle {stops : Fault → Bool} {next : Phase}
    {outcome : Except Fault Unit × Node myId} (h : NotedRight outcome.2) :
    NotedRight (Node.settle stops next outcome) := by
  unfold Node.settle
  cases outcome.1 with
  | ok done | error fault => exact h

theorem NotedRight.step (h : NotedRight s) (hla : NoopCommitsLast s l)
    (hst : s.step l = some t) : NotedRight t := by
  have hfr : l ≠ .recvInternal → (∀ env, l ≠ .internalEvent env) → NotedRight t :=
    fun hre hev =>
      h.keep (frame_of_step hst hre hev) (frame_of_step hst hre hev)
  cases l with
  | recvInternal =>
    simp only [Node.step, Option.ite_none_right_eq_some, Option.some.injEq] at hst
    obtain ⟨-, rfl⟩ := hst
    exact h
  | internalEvent =>
    simp only [Node.step] at hst
    split at hst <;> cases hst
    rename_i event rest _ hbuf
    exact NotedRight.settle (h.internalEvent hla hbuf)
  | _ => exact hfr (by simp) (by simp)

/-! ## Runs -/

theorem notedRight_of_reach (h : (raftLoop myId).Reach NoopCommitsLast s) : NotedRight s := by
  apply h.invariant (I := NotedRight)
  · rintro u ⟨config, role, shared, diskLen, loaded, boundary, membership, rfl, -⟩ _ i hi
    cases hi
  · exact fun u l v hu hla hst => hu.step hla hst

/-- In every run in which the no-op is the last entry when it is committed, the index that a
leader notes is that of its no-op and committed, and no read index is above the commit index. -/
theorem noopLogId_of_reach (h : (raftLoop myId).Reach NoopCommitsLast s)
    (hrole : s.role = .leader) :
    (∀ i ∈ s.leader.noopLogId, noopIndex s = some i ∧ i ≤ s.commitIndex) ∧
      ∀ session : Client.Session myId, session.node = s →
        session.calculateReadIndex ≤ session.node.commitIndex := by
  have hno := notedRight_of_reach h hrole
  refine ⟨hno, ?_⟩
  rintro session rfl
  refine max_le le_rfl ?_
  cases hnp : session.node.leader.noopLogId with
  | none => exact Nat.zero_le _
  | some i => exact (hno i hnp).2

/-- Node 1 leads term two and has appended its no-op. -/
def leadingRun : List Label := winningRun ++ [.recvInternal, .internalEvent {}] ++ restOfRound

/-- A client writes an entry behind what the leader has appended. -/
def writeRun : List Label := [.submit (.propose (some [1])), .recvClient, .flush {}, .nextRound]

/-- Peer 2 holds the log up to the index. -/
def ackRun (index : Nat) : List Label :=
  [.push (.appendResult 2 (some (.success 2 2 (some ⟨2, index⟩)))), .recvInternal,
    .internalEvent {}]

/-- The no-op is committed before the first write, and the write behind it later. -/
theorem noop_committed_before_write :
    ∃ s : Node 1, (raftLoop 1).Reach NoopCommitsLast s ∧ s.role = .leader ∧
      s.leader.noopLogId = some 1 ∧ s.commitIndex = 2 ∧
      (∀ i ∈ s.leader.noopLogId, noopIndex s = some i ∧ i ≤ s.commitIndex) ∧
      ∀ session : Client.Session 1, session.node = s →
        session.calculateReadIndex ≤ session.node.commitIndex := by
  have hre : ∃ s : Node 1, (raftLoop 1).Reach NoopCommitsLast s ∧
      (s.role = .leader ∧ s.leader.noopLogId = some 1 ∧ s.commitIndex = 2) :=
    Machine.exists_reach_of_runIf
      (leadingRun ++ ackRun 1 ++ restOfRound ++
        [.recvInternal, .internalEvent {}, .internalEvent {}] ++ restOfRound ++ writeRun ++
        ackRun 2)
      (Node.init_firstStart .small .trio) (by decide +kernel)
  obtain ⟨s, hs, hro, hno, hco⟩ := hre
  exact ⟨s, hs, hro, hno, hco, noopLogId_of_reach hs hro⟩

/-- A write is appended before the no-op is committed: the leader notes the index of the write,
which is not committed. -/
theorem write_noted_for_noop :
    ∃ s : Node 1, (raftLoop 1).Reach (fun _ _ => True) s ∧ s.role = .leader ∧
      noopIndex s = some 1 ∧ s.leader.noopLogId = some 2 ∧ s.commitIndex = 1 ∧
      ∀ session : Client.Session 1, session.node = s → session.calculateReadIndex = 2 := by
  have hre : ∃ s : Node 1, (raftLoop 1).Reach (fun _ _ => True) s ∧
      (s.role = .leader ∧ noopIndex s = some 1 ∧ s.leader.noopLogId = some 2 ∧
        s.commitIndex = 1) :=
    Machine.exists_reach_of_runIf (leadingRun ++ writeRun ++ ackRun 1)
      (Node.init_firstStart .small .trio) (by decide +kernel)
  obtain ⟨s, hs, hro, hin, hno, hco⟩ := hre
  refine ⟨s, hs, hro, hin, hno, hco, ?_⟩
  rintro session rfl
  rw [Client.Session.calculateReadIndex, hco, hno]
  rfl

end DEngine.Raft

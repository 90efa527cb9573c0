import DEngine.Raft.Leader

/-!
# The ledger of the peers

The leader keeps for every peer what it has acknowledged, what to send next and whether it
is probed, replicated to or sent a snapshot. Everything that happens to these maps is one of
a few events, most of them the arrival of a message about one peer. A ledger that starts out
sound stays sound over any sequence of events: the next index of a peer is above what the
peer has acknowledged, and what it has acknowledged is never taken back.
-/

namespace DEngine.Raft

open Library Storage Replication

variable {myId : Nat}

/-- What can happen to the ledger. -/
inductive LedgerEvent (myId : Nat) where
  /-- Something else of the leader changes. -/
  | bookkeeping (other : LeaderState myId)
  | initPeers (lastEntryId : Nat) (peerIds : List Nat)
  /-- A success or a conflict is answered. -/
  | answered (peer : Nat) (update : PeerUpdate)
  | streamError (peer : Nat)
  /-- A snapshot push of the current term has ended. -/
  | pushCompleted (peer : Nat) (success : Bool) (lastIncludedIndex : Option Nat)
  | membershipApplied (lastEntryId : Nat) (membership : Membership)
  | append (peer : Nat) (request : AppendEntriesRequest) (effectiveNextIndex : Nat)
  | snapshot (backoff : List Nat) (peer : Nat)

/-- An answer acknowledges nothing at or above the index that it asks for. -/
def PeerUpdate.Fits (update : PeerUpdate) : Prop :=
  ∀ index ∈ update.matchIndex, update.success = true ∧ index < update.nextIndex

def LedgerEvent.Fits : LedgerEvent myId → Prop
  | .answered _ update => update.Fits
  | _ => True

/-- The peer that the event starts to send something to, if its state allows it. -/
def LedgerEvent.target? : LedgerEvent myId → Option Nat
  | .append peer _ _ => some peer
  | .snapshot _ peer => some peer
  | _ => none

namespace LeaderState

variable (l : LeaderState myId)

/-- What the peer has acknowledged. -/
def matched (peer : Nat) : Nat := (l.matchIndex[peer]?).getD 0

def handle : LedgerEvent myId → LeaderState myId
  | .bookkeeping other =>
    { other with
      nextIndex := l.nextIndex
      matchIndex := l.matchIndex
      peerReplicationState := l.peerReplicationState
      replicationWorkers := l.replicationWorkers }
  | .initPeers lastEntryId peerIds => l.initPeersNextIndexAndMatchIndex lastEntryId peerIds
  | .answered peer update => l.updatePeerIndex peer update
  | .streamError peer => l.handlePeerStreamError peer
  | .pushCompleted peer success lastIncludedIndex =>
    if l.peerState peer = .snapshot then
      (match success, lastIncludedIndex with
      | true, some index => l.initPeersNextIndexAndMatchIndex index [peer]
      | _, _ => l).handleSnapshotPushCompleted peer
    else l
  | .membershipApplied lastEntryId membership => l.membershipApplied lastEntryId membership
  | .append peer request effectiveNextIndex => l.dispatchAppend (peer, request, effectiveNextIndex)
  | .snapshot backoff peer => l.dispatchSnapshot backoff peer

/-- The ledger behind a sequence of events. -/
def after (events : List (LedgerEvent myId)) : LeaderState myId := events.foldl handle l

@[simp] theorem after_nil : l.after [] = l := rfl

@[simp] theorem after_cons (e : LedgerEvent myId) (rest : List (LedgerEvent myId)) :
    l.after (e :: rest) = (l.handle e).after rest := rfl

@[simp] theorem after_append (events rest : List (LedgerEvent myId)) :
    l.after (events ++ rest) = (l.after events).after rest :=
  List.foldl_append

/-- The next index of every peer is above what it has acknowledged. -/
def Sound : Prop := ∀ peer next, l.nextIndex[peer]? = some next → l.matched peer < next

/-! ## What stays -/

/-- What is acknowledged, and the index of the no-op. -/
def marks : OrderedMap Nat × Option Nat := (l.matchIndex, l.noopLogId)

theorem marks_foldl {β : Type} {f : LeaderState myId → β → LeaderState myId}
    (hf : ∀ l b, (f l b).marks = l.marks) (items : List β) : (items.foldl f l).marks = l.marks := by
  induction items generalizing l with
  | nil => rfl
  | cons b rest ih =>
    rw [List.foldl_cons, ih, hf]

@[simp] theorem updateMatchIndex_zero (peer : Nat) : l.updateMatchIndex peer 0 = l := by
  simp [updateMatchIndex]

/-- Starting the ledger of a peer acknowledges nothing. -/
theorem marks_initPeersNextIndexAndMatchIndex (lastEntryId : Nat) (peerIds : List Nat) :
    (l.initPeersNextIndexAndMatchIndex lastEntryId peerIds).marks = l.marks := by
  apply marks_foldl
  intro l peer
  rw [updateMatchIndex_zero]
  rfl

/-- An answer of a peer changes only what is kept about peers. -/
theorem updatePeerIndex_eq (peer : Nat) (update : PeerUpdate) :
    ∃ nextIndex matchIndex states, l.updatePeerIndex peer update = { l with
      nextIndex := nextIndex, matchIndex := matchIndex, peerReplicationState := states } := by
  have hra (l' : LeaderState myId) (index : Nat) : ∃ matchIndex,
      l'.updateMatchIndex peer index = { l' with matchIndex := matchIndex } := by
    unfold updateMatchIndex
    split_ifs
    · exact ⟨_, rfl⟩
    · exact ⟨l'.matchIndex, rfl⟩
  unfold updatePeerIndex
  cases update.matchIndex with
  | none =>
    dsimp only
    split_ifs <;> exact ⟨_, _, _, rfl⟩
  | some index =>
    obtain ⟨matchIndex, hma⟩ := hra _ index
    dsimp only
    rw [hma]
    split_ifs <;> exact ⟨_, matchIndex, _, rfl⟩

variable {e : LedgerEvent myId}

/-- Apart from an answer, an event acknowledges nothing and leaves the no-op alone. -/
theorem marks_handle (hans : ∀ peer update, e ≠ .answered peer update)
    (hbo : ∀ other, e ≠ .bookkeeping other) : (l.handle e).marks = l.marks := by
  cases e with
  | bookkeeping other => exact absurd rfl (hbo other)
  | answered peer update => exact absurd rfl (hans peer update)
  | initPeers => exact l.marks_initPeersNextIndexAndMatchIndex _ _
  | streamError =>
    simp only [handle, handlePeerStreamError]
    split_ifs <;> rfl
  | pushCompleted peer =>
    have hen : ∀ l' : LeaderState myId, l'.marks = l.marks →
        (l'.handleSnapshotPushCompleted peer).marks = l.marks := by
      intro l' hl'
      unfold handleSnapshotPushCompleted
      split_ifs <;> exact hl'
    simp only [handle]
    split_ifs
    · apply hen
      split
      · exact l.marks_initPeersNextIndexAndMatchIndex _ _
      · rfl
    · rfl
  | membershipApplied lastEntryId =>
    exact marks_initPeersNextIndexAndMatchIndex _ lastEntryId _
  | append =>
    simp only [handle, dispatchAppend]
    split_ifs <;> rfl
  | snapshot =>
    simp only [handle, dispatchSnapshot]
    split_ifs <;> rfl

theorem noopLogId_handle (hbo : ∀ other, e ≠ .bookkeeping other) :
    (l.handle e).noopLogId = l.noopLogId := by
  by_cases hans : ∃ peer update, e = .answered peer update
  · obtain ⟨peer, update, rfl⟩ := hans
    obtain ⟨_, _, _, heq⟩ := l.updatePeerIndex_eq peer update
    rw [handle, heq]
  · push Not at hans
    exact (Prod.mk.inj (l.marks_handle hans hbo)).2

theorem matchIndex_handle (hans : ∀ peer update, e ≠ .answered peer update) :
    (l.handle e).matchIndex = l.matchIndex := by
  by_cases hbo : ∃ other, e = .bookkeeping other
  · obtain ⟨other, rfl⟩ := hbo
    rfl
  · push Not at hbo
    exact (Prod.mk.inj (l.marks_handle hans hbo)).1

/-- Queueing a client command is bookkeeping. -/
theorem bookkeeping_pushClientCmd (config : Config) (cmd : ClientCmd) :
    l.handle (.bookkeeping (Leader.pushClientCmd config l cmd)) =
        Leader.pushClientCmd config l cmd ∧
      (Leader.pushClientCmd config l cmd).noopLogId = l.noopLogId := by
  unfold Leader.pushClientCmd
  dsimp only
  repeat' split
  all_goals exact ⟨rfl, rfl⟩

theorem bookkeeping_pushClientCmds (config : Config) (cmds : List ClientCmd) :
    l.handle (.bookkeeping (cmds.foldl (Leader.pushClientCmd config) l)) =
        cmds.foldl (Leader.pushClientCmd config) l ∧
      (cmds.foldl (Leader.pushClientCmd config) l).noopLogId = l.noopLogId := by
  induction cmds generalizing l with
  | nil => exact ⟨rfl, rfl⟩
  | cons cmd rest ih =>
    obtain ⟨hpu, hno⟩ := l.bookkeeping_pushClientCmd config cmd
    obtain ⟨hre, hno'⟩ := ih (Leader.pushClientCmd config l cmd)
    rw [List.foldl_cons]
    refine ⟨?_, hno'.trans hno⟩
    generalize hqu : rest.foldl (Leader.pushClientCmd config)
      (Leader.pushClientCmd config l cmd) = queued
    calc
      l.handle (.bookkeeping queued)
        = (l.handle (.bookkeeping (Leader.pushClientCmd config l cmd))).handle
            (.bookkeeping queued) := rfl
      _ = (Leader.pushClientCmd config l cmd).handle (.bookkeeping queued) := by rw [hpu]
      _ = queued := by
        rw [← hqu]
        exact hre

variable {l}

/-! ## Changes of the maps -/

theorem matched_updateMatchIndex (peer newMatchId q : Nat) :
    (l.updateMatchIndex peer newMatchId).matched q =
      if q = peer then max (l.matched peer) newMatchId else l.matched q := by
  unfold updateMatchIndex
  split_ifs with hlt hq hq
  · simp only [matched, OrderedMap.getElem?_insert_eq, hq, if_true, Option.getD_some]
    exact (max_eq_right hlt.le).symm
  · simp only [matched, OrderedMap.getElem?_insert_eq, hq, if_false]
  · rw [hq]
    exact (max_eq_left (Nat.le_of_not_lt hlt)).symm
  · rfl

theorem nextIndex_updateMatchIndex (peer newMatchId : Nat) :
    (l.updateMatchIndex peer newMatchId).nextIndex = l.nextIndex := by
  unfold updateMatchIndex
  split_ifs <;> rfl

theorem Sound.of_same {l' : LeaderState myId} (h : l.Sound) (hnx : l'.nextIndex = l.nextIndex)
    (hma : l'.matchIndex = l.matchIndex) : l'.Sound := by
  intro peer next hpe
  rw [matched, hma]
  rw [hnx] at hpe
  exact h peer next hpe

/-- The floor keeps every new next index above what is acknowledged. -/
theorem Sound.updateNextIndex (h : l.Sound) (peer newNextId : Nat) :
    (l.updateNextIndex peer newNextId).Sound := by
  intro q next hq
  simp only [LeaderState.updateNextIndex, OrderedMap.getElem?_insert_eq] at hq
  split_ifs at hq with heq
  · cases hq
    subst heq
    exact Nat.lt_of_lt_of_le (Nat.lt_succ_self _) (le_max_right _ _)
  · exact h q next hq

theorem Sound.updateMatchIndex (h : l.Sound) {peer newMatchId : Nat}
    (hnx : ∀ next, l.nextIndex[peer]? = some next → newMatchId < next) :
    (l.updateMatchIndex peer newMatchId).Sound := by
  intro q next hq
  rw [nextIndex_updateMatchIndex] at hq
  rw [matched_updateMatchIndex]
  split_ifs with heq
  · subst heq
    exact max_lt (h q next hq) (hnx next hq)
  · exact h q next hq

theorem Sound.initPeersNextIndexAndMatchIndex (h : l.Sound) (lastEntryId : Nat)
    (peerIds : List Nat) : (l.initPeersNextIndexAndMatchIndex lastEntryId peerIds).Sound := by
  unfold LeaderState.initPeersNextIndexAndMatchIndex
  induction peerIds generalizing l with
  | nil => exact h
  | cons peer rest ih =>
    rw [List.foldl_cons, updateMatchIndex_zero]
    exact ih (h.updateNextIndex peer _)

/-- On success the next index is written first, and high enough for the acknowledgement. -/
theorem Sound.updatePeerIndex (h : l.Sound) (peer : Nat) {update : PeerUpdate}
    (hfi : update.Fits) : (l.updatePeerIndex peer update).Sound := by
  have hadv : ∀ (newNextId : Nat) (state : PeerReplicationState),
      ((l.updateNextIndex peer newNextId).setPeerState peer state).Sound :=
    fun newNextId state => (h.updateNextIndex peer newNextId).of_same rfl rfl
  unfold LeaderState.updatePeerIndex
  cases hma : update.matchIndex with
  | none =>
    dsimp only
    split_ifs
    · exact hadv _ _
    · exact hadv _ _
  | some index =>
    obtain ⟨hsu, hlt⟩ := hfi index hma
    simp only [hsu, if_true]
    refine (hadv _ _).updateMatchIndex fun next hnx => ?_
    have hwr : next = max (max update.nextIndex ((l.nextIndex[peer]?).getD 1))
        ((l.matchIndex[peer]?).getD 0 + 1) := by
      simpa [setPeerState, LeaderState.updateNextIndex, eq_comm] using hnx
    calc
      index < update.nextIndex := hlt
      _ ≤ max update.nextIndex ((l.nextIndex[peer]?).getD 1) := le_max_left _ _
      _ ≤ next := hwr ▸ le_max_left _ _

/-! ## Events -/

theorem Sound.handle (h : l.Sound) (hfi : e.Fits) : (l.handle e).Sound := by
  cases e with
  | bookkeeping => exact h.of_same rfl rfl
  | initPeers lastEntryId peerIds => exact h.initPeersNextIndexAndMatchIndex lastEntryId peerIds
  | answered peer => exact h.updatePeerIndex peer hfi
  | streamError peer =>
    simp only [LeaderState.handle, handlePeerStreamError]
    split_ifs
    · exact h
    · exact (h.updateNextIndex peer _).of_same rfl rfl
  | pushCompleted peer =>
    have hen : ∀ {l' : LeaderState myId}, l'.Sound →
        (l'.handleSnapshotPushCompleted peer).Sound := by
      intro l' hl'
      unfold handleSnapshotPushCompleted
      split_ifs
      · exact hl'
      · exact hl'.of_same rfl rfl
    simp only [LeaderState.handle]
    split_ifs
    · apply hen
      split
      · exact h.initPeersNextIndexAndMatchIndex _ _
      · exact h
    · exact h
  | membershipApplied lastEntryId membership =>
    have hca : Sound { l with clusterMetadata := .ofMembership membership } :=
      h.of_same rfl rfl
    exact (hca.initPeersNextIndexAndMatchIndex lastEntryId _).of_same rfl rfl
  | append peer =>
    simp only [LeaderState.handle, dispatchAppend]
    split_ifs
    · exact h
    · exact (h.updateNextIndex peer _).of_same rfl rfl
    · exact (h.updateNextIndex peer _).of_same rfl rfl
  | snapshot =>
    simp only [LeaderState.handle, dispatchSnapshot]
    split_ifs
    · exact h
    · exact h.of_same rfl rfl

theorem matched_le_updatePeerIndex (peer : Nat) (update : PeerUpdate) (q : Nat) :
    l.matched q ≤ (l.updatePeerIndex peer update).matched q := by
  have hadv : ∀ (newNextId : Nat) (state : PeerReplicationState),
      ((l.updateNextIndex peer newNextId).setPeerState peer state).matched q = l.matched q :=
    fun _ _ => rfl
  have hra : ∀ (l' : LeaderState myId) (index : Nat),
      l'.matched q ≤ (l'.updateMatchIndex peer index).matched q := by
    intro l' index
    rw [matched_updateMatchIndex]
    split_ifs with hq
    · exact hq ▸ le_max_left _ _
    · exact le_rfl
  unfold updatePeerIndex
  cases update.matchIndex with
  | none =>
    dsimp only
    split_ifs
    · exact (hadv _ _).ge
    · exact (hadv _ _).ge
  | some index =>
    dsimp only
    split_ifs
    · exact (hadv _ _).ge.trans (hra _ index)
    · exact (hadv _ _).ge.trans (hra _ index)

/-- No event takes an acknowledgement back. -/
theorem matched_le_handle (e : LedgerEvent myId) (q : Nat) :
    l.matched q ≤ (l.handle e).matched q := by
  by_cases hans : ∃ peer update, e = .answered peer update
  · obtain ⟨peer, update, rfl⟩ := hans
    exact matched_le_updatePeerIndex peer update q
  · push Not at hans
    rw [matched, matched, l.matchIndex_handle hans]

theorem Sound.after {events : List (LedgerEvent myId)} (h : l.Sound)
    (hfi : ∀ e ∈ events, e.Fits) : (l.after events).Sound := by
  induction events generalizing l with
  | nil => exact h
  | cons e rest ih =>
    rw [after_cons]
    apply ih (h.handle (hfi e List.mem_cons_self))
    exact fun e' he' => hfi e' (List.mem_cons_of_mem e he')

theorem matched_le_after (events : List (LedgerEvent myId)) (q : Nat) :
    l.matched q ≤ (l.after events).matched q := by
  induction events generalizing l with
  | nil => exact le_rfl
  | cons e rest ih => exact (matched_le_handle e q).trans ih

end LeaderState

end DEngine.Raft

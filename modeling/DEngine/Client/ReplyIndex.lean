import DEngine.Client.WriteReplies

/-!
# The index that a reply waits under

The channels of a batch are numbered from the entry behind the last one of the
log, and its entries are numbered from the next identifier of the log. A client
is answered with the result of its own command when the two counters agree.
-/

namespace DEngine.Client

open Library Library.Handler Library.OrderedMap Storage
open Replication Raft

variable {myId : Nat} {s t : Session myId}

/-! ## The entries of a batch -/

variable {payloads : List EntryPayload}

/-- A batch that is handed on was written. -/
theorem generated_of_executed (env : Env) (payloads : List EntryPayload) (node : Node myId) :
    Ensures (Raft.executeAndProcessRaftRpc env payloads) node fun r _ => r = .ok () →
      ∃ entries, (generateNewEntries payloads node.currentTerm node.log).1 = .ok entries := by
  have hgen : ∀ {outcome : PrepareResult}, (prepareBatchRequests myId
      node.config.maxEntriesPerReplication payloads node.stateSnapshot node.leader.nextIndex
        node.leader.clusterMetadata.targets node.log).1 = .ok outcome →
      ∃ entries, (generateNewEntries payloads node.currentTerm node.log).1 = .ok entries := by
    intro outcome hok
    unfold prepareBatchRequests at hok
    dsimp only [Node.stateSnapshot] at hok
    cases hge : generateNewEntries payloads node.currentTerm node.log with
    | mk result =>
      cases result with
      | ok entries => exact ⟨entries, rfl⟩
      | error =>
        rw [hge] at hok
        cases hok
  unfold Raft.executeAndProcessRaftRpc
  rw [ensures_get_bind]
  refine Ensures.bind (R := fun r t => r = .ok () ∧ t.log = node.log) ⟨rfl, rfl⟩
    (fun _ _ ht => nomatch ht.1) fun _ t ht => ?_
  refine Ensures.bind (R := fun r _ => r = (prepareBatchRequests myId
      node.config.maxEntriesPerReplication payloads node.stateSnapshot node.leader.nextIndex
        node.leader.clusterMetadata.targets node.log).1) ?_ (fun _ _ _ => nofun)
    fun outcome u hpr => ?_
  · rw [← ht.2]
    rfl
  · exact fun _ => hgen hpr.symm

variable {env : Env}

/-- The payloads of a batch become entries from the next identifier on. -/
theorem generatedEntries_eq {node : Node myId}
    (hok : (Raft.executeAndProcessRaftRpc env payloads node).1 = .ok ()) :
    generatedEntries node payloads =
      (payloads.zipIdx node.log.nextId).map fun p => ⟨p.2, node.currentTerm, some p.1⟩ := by
  obtain ⟨entries, hge⟩ := generated_of_executed env payloads node hok
  unfold generatedEntries
  rw [hge]
  exact generateNewEntries_eq hge

theorem index_generatedEntries {node : Node myId}
    (hok : (Raft.executeAndProcessRaftRpc env payloads node).1 = .ok ()) :
    (generatedEntries node payloads).map Entry.index =
      List.range' node.log.nextId payloads.length := by
  rw [generatedEntries_eq hok, List.map_map]
  exact List.zipIdx_map_snd _ _

/-! ## The channels of a batch -/

/-- A handed-on batch of proposals is kept under the index of its last entry. -/
theorem recorded_of_executed {metadata : WriteMetadata}
    {readBatch : Option (List ReadRequest)} (hne : metadata.senders ≠ []) :
    Ensures (executeAndProcessRaftRpc env payloads (some metadata) readBatch) s fun r t =>
      r = .ok () → (Raft.executeAndProcessRaftRpc env payloads s.node).1 = .ok () ∧
        t.pendingClientWrites[metadata.startIdx + metadata.senders.length - 1]? =
          some { metadata with deadline := s.clock + s.generalRaftTimeoutMs } := by
  unfold executeAndProcessRaftRpc
  refine Ensures.bind (R := fun r t => r = .ok (Raft.executeAndProcessRaftRpc env payloads
    s.node).1 ∧ t.clock = s.clock ∧ t.generalRaftTimeoutMs = s.generalRaftTimeoutMs)
    ⟨rfl, rfl, rfl⟩ (fun _ _ ht => nomatch ht.1) ?_
  rintro outcome t ⟨hout, hcl, hti⟩
  have hno := Except.ok.inj hout
  cases outcome with
  | error => exact nofun
  | ok =>
    refine Ensures.bind (R := fun r u => r = .ok () ∧
      u.pendingClientWrites[metadata.startIdx + metadata.senders.length - 1]? =
        some { metadata with deadline := s.clock + s.generalRaftTimeoutMs }) ?_
      (fun _ _ hu => nomatch hu.1) fun _ u hu => ?_
    · have hrec : Ensures (recordWrites metadata) t fun r u => r = .ok () ∧
          u.pendingClientWrites[metadata.startIdx + metadata.senders.length - 1]? =
            some { metadata with deadline := s.clock + s.generalRaftTimeoutMs } := by
        unfold recordWrites
        rw [if_pos hne, ← hcl, ← hti]
        refine ⟨rfl, ?_⟩
        change (t.pendingClientWrites.insert _ _)[_]? = _
        rw [getElem?_insert_eq, if_pos rfl]
      exact hrec.bind (fun _ _ hu => nomatch hu.1) fun _ u hu => ⟨rfl, hu.2⟩
    · have hre : Ensures (Handler.each routeReads readBatch.toList) u fun _ v =>
          Untouched u v := Ensures.each fun reads _ v _ => keeps_routeReads allowsLeased_true reads
      refine hre.mono fun _ v hv _ => ⟨hno.symm, ?_⟩
      have hsa : v.pendingClientWrites = u.pendingClientWrites :=
        congrArg WriteView.pendingClientWrites hv.writes
      rw [hsa]
      exact hu.2

/-- The channels of a batch are recorded under the indexes of their own entries if and only if the
next identifier of the log is the one behind its last entry. -/
theorem recorded_under_own_index_iff {env : Env} {payloads : List EntryPayload}
    {metadata : WriteMetadata} {readBatch : Option (List ReadRequest)}
    (hstart : metadata.startIdx = s.node.log.lastEntryId + 1) (hne : payloads ≠ [])
    (hlength : metadata.senders.length = payloads.length)
    (hrun : executeAndProcessRaftRpc env payloads (some metadata) readBatch s = (.ok (), t)) :
    (∃ m, t.pendingClientWrites[metadata.startIdx + metadata.senders.length - 1]? = some m ∧
      m.numbered =
        ((generatedEntries s.node payloads).map Entry.index).zip metadata.senders) ↔
      s.node.log.nextId = s.node.log.lastEntryId + 1 := by
  have hco : 0 < payloads.length := List.length_pos_iff.mpr hne
  have hse : metadata.senders ≠ [] := by
    rw [← List.length_pos_iff, hlength]
    exact hco
  have hen : Ensures (executeAndProcessRaftRpc env payloads (some metadata) readBatch) s _ :=
    recorded_of_executed hse
  unfold Ensures at hen
  rw [hrun] at hen
  obtain ⟨hex, hre⟩ := hen rfl
  rw [index_generatedEntries hex, ← hlength, ← hstart]
  constructor
  · rintro ⟨m, hm, hnu⟩
    rw [hre] at hm
    cases hm
    have hfst := congrArg (List.map Prod.fst) hnu
    rw [Tidy.numbered_fst, List.map_fst_zip List.length_range'.le, WriteMetadata.indexes] at hfst
    have hhe := congrArg List.head? hfst
    obtain ⟨k, hk⟩ := Nat.exists_eq_succ_of_ne_zero (hlength ▸ hco).ne'
    rw [hk, List.range'_succ, List.range'_succ] at hhe
    exact (Option.some.inj hhe).symm
  · intro hnx
    refine ⟨_, hre, ?_⟩
    rw [hnx]
    rfl

/-- A command of one byte. -/
def setSeven : EntryPayload := ⟨some (.command [7])⟩

/-- A proposal behind the no-op is recorded under the index of its entry. -/
theorem proposal_recorded_under_two :
    ∃ s t : Session 1, (sessions 1).Reach (fun _ _ => True) s ∧
      executeAndProcessRaftRpc {} [setSeven] (some ⟨2, [0], true, 0⟩) none s = (.ok (), t) ∧
      ∃ m, t.pendingClientWrites[2]? = some m ∧
        m.numbered = ((generatedEntries s.node [setSeven]).map Entry.index).zip [0] := by
  have hrun : ∃ s, (sessions 1).Reach (fun _ _ => True) s ∧ s.node.log.lastEntryId = 1 ∧
      s.node.log.nextId = 2 ∧
      (executeAndProcessRaftRpc {} [setSeven] (some ⟨2, [0], true, 0⟩) none s).1.isOk = true :=
    Machine.exists_reach_of_runIf electedRun Session.init_ofTrio (by decide +kernel)
  obtain ⟨s, hrc, hla, hnx, hok⟩ := hrun
  cases hre : executeAndProcessRaftRpc {} [setSeven] (some ⟨2, [0], true, 0⟩) none s with
  | mk result t =>
    rw [hre] at hok
    cases result with
    | error => cases hok
    | ok =>
      refine ⟨s, t, hrc, hre, ?_⟩
      have hst : 2 = s.node.log.lastEntryId + 1 := by rw [hla]
      exact (recorded_under_own_index_iff hst (List.cons_ne_nil _ _) rfl hre).mpr
        (hnx.trans hst)

/-- A node that keeps the last three entries behind a snapshot. -/
def Session.ofRetainer : Session 1 :=
  .start (Node.firstStart { Config.small with retainedLogEntries := 3 } Membership.trio) 1 10 1000 0

/-- Entries of term 1 with the given indexes. -/
def entriesOfOne (indexes : List Nat) : List Entry := indexes.map fun i => ⟨i, 1, none⟩

/-- Five entries are committed, a repeated request for the first one takes the log back to it, and
the node is elected and writes its no-op at index 2. -/
def shortenedRun : List SessionLabel :=
  [.inbound {} (.appendEntries ⟨1, 2, 0, 0, entriesOfOne [1, 2, 3, 4, 5], 5⟩),
    .inbound {} (.appendEntries ⟨1, 2, 0, 0, entriesOfOne [1], 5⟩)] ++ electedRun

/-- The snapshot of the five entries empties the log of the leader. The channel of its next
proposal waits under index 1, and the entry of the proposal has index 3. -/
theorem proposal_recorded_before_own_index :
    ∃ s, (sessions 1).Reach (fun _ _ => True) s ∧ s.node.role = .leader ∧
      s.pendingClientWrites.toList.flatMap (fun p => p.2.numbered) = [(1, 0)] ∧
      s.node.log.entries.toList = [(3, ⟨3, 2, some setSeven⟩)] :=
  Machine.exists_reach_of_runIf (shortenedRun ++ [.internal {} (.snapshotCreated (some ⟨1, 5⟩)),
      .submit (.propose (some [7])), .flush {}])
    (show (sessions 1).init Session.ofRetainer from ⟨_, _, _, _, _, rfl⟩) (by decide +kernel)

end DEngine.Client

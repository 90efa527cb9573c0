import DEngine.Raft.StepEffects

/-!
# The commit index along a run

Every step of the loop keeps the log well formed, and the commit index does not
fall as long as no replica accepts a request that leaves its log short of the
commit index. Without that condition it does fall: a snapshot moves the commit
index and purges the log to empty, and the next heartbeat takes the smaller of
the leader's commit index and the last index of an empty log.
-/

namespace DEngine.Raft

open Library Storage Replication

variable {myId : Nat} {s t : Node myId} {l : Label}

/-- The log is well formed and the term is a term that entries may have. -/
structure Node.Grounded (s : Node myId) : Prop where
  wellFormed : s.log.WellFormed
  term_pos : 1 ≤ s.currentTerm

theorem Calm.grounded {p : Permit} (h : Calm p s t) (hsa : p.safe) (hs : s.Grounded) :
    t.Grounded ∧ s.commitIndex ≤ t.commitIndex := by
  obtain ⟨hwf, hle⟩ := h.steady hsa hs.term_pos hs.wellFormed
  exact ⟨⟨hwf, hs.term_pos.trans h.term_le⟩, hle⟩

theorem Node.Init.grounded (h : s.Init) : s.Grounded := by
  obtain ⟨config, role, shared, diskLen, loaded, boundary, membership, rfl, -, hte, hba,
    hst⟩ := h
  exact ⟨BufferedRaftLog.wellFormed_new boundary hba hst, hte⟩

/-- The step lemma: whatever the step does, the log stays well formed and the commit index
does not fall. -/
theorem StepEffect.grounded (h : StepEffect s l t) (hst : s.StaysCommitted l)
    (hs : s.Grounded) : t.Grounded ∧ s.commitIndex ≤ t.commitIndex := by
  cases h with
  | calm h => exact h.grounded ⟨hs.wellFormed, hst⟩ hs
  | turned v hv h =>
    rw [← hv.commit_eq]
    apply h.grounded trivial
    exact ⟨hv.log_eq ▸ hs.wellFormed, hv.term_eq ▸ hs.term_pos⟩
  | entered rest hbuf hrl h => exact h.grounded trivial ⟨hs.wellFormed, hs.term_pos⟩
  | unwritten hro h => exact h.grounded trivial hs
  | won env hro hans hwon h | lost env hro incoming h =>
    exact h.grounded trivial ⟨hs.wellFormed, Nat.le_add_left 1 _⟩
  | ended rest hbuf ht =>
    subst ht
    exact ⟨⟨hs.wellFormed, hs.term_pos⟩, le_rfl⟩

/-- Every log that the loop reaches is well formed. -/
theorem grounded_of_reach (hs : (raftLoop myId).Reach Node.StaysCommitted s) : s.Grounded := by
  apply hs.invariant (fun _ hin => Node.Init.grounded hin)
  intro u l v hu hst hsp
  exact ((stepEffect_of_step hsp).grounded hst hu).1

/-- Along every run in which the replica keeps its commit index over each request that it
handles, the commit index never falls. -/
theorem commitIndex_le_of_run (hs : (raftLoop myId).Reach Node.StaysCommitted s)
    (hrun : (raftLoop myId).Run Node.StaysCommitted s t) : s.commitIndex ≤ t.commitIndex := by
  apply hs.le_of_run Node.commitIndex ?_ hrun
  intro u l v hu hst hsp
  exact ((stepEffect_of_step hsp).grounded hst (grounded_of_reach hu)).2

/-- A follower that accepts its first entry, committed by the leader. -/
def firstEntryRun : List Label :=
  [.arrive (.appendEntries ⟨1, 2, 0, 0, [⟨1, 1, none⟩], 1⟩), .recvInbound, .flush {},
    .inboundEvent {}]

theorem commitIndex_le_over_first_entry :
    ∃ t : Node 1, (raftLoop 1).Run Node.StaysCommitted (.firstStart .small .trio) t ∧
      t.commitIndex = 1 ∧ (Node.firstStart .small .trio : Node 1).commitIndex ≤ t.commitIndex := by
  have hrun : ∃ t : Node 1, (raftLoop 1).Run Node.StaysCommitted (.firstStart .small .trio) t ∧
      t.commitIndex = 1 :=
    Machine.exists_run_of_runIf firstEntryRun (by decide +kernel)
  obtain ⟨t, hrun, hco⟩ := hrun
  refine ⟨t, hrun, hco, commitIndex_le_of_run (Machine.reach_of_init ?_) hrun⟩
  exact Node.init_firstStart _ _

/-- A follower that installs a snapshot up to index 10. -/
def snapshotRun : List Label :=
  [.arrive (.installSnapshotChunk (some ⟨1, 2⟩)), .arrive (.appendEntries ⟨1, 2, 10, 1, [], 11⟩),
    .recvInbound, .flush {}, .inboundEvent { snapshotStream := .ok (.ok (.applied ⟨1, 10⟩)) }]

/-- The heartbeat behind a snapshot takes the commit index back to zero: it matches the purge
boundary, and the last index of the purged log is zero. -/
theorem heartbeat_behind_snapshot_lowers_commitIndex :
    ∃ s t : Node 1, (raftLoop 1).Reach (fun _ _ => True) s ∧
      (raftLoop 1).Run (fun _ _ => True) s t ∧ s.role = .follower ∧ s.commitIndex = 10 ∧
      t.commitIndex = 0 := by
  have hre : ∃ s : Node 1, (raftLoop 1).Reach (fun _ _ => True) s ∧
      (s.role = .follower ∧ s.commitIndex = 10 ∧
        ((raftLoop 1).runIf (fun _ _ => True) s [.inboundEvent {}]).any
          fun t => decide (t.commitIndex = 0)) :=
    Machine.exists_reach_of_runIf snapshotRun (Node.init_firstStart .small .trio)
      (by decide +kernel)
  obtain ⟨s, hs, hro, hco, hla⟩ := hre
  obtain ⟨t, hrun, hlo⟩ := Machine.exists_run_of_runIf _ hla
  exact ⟨s, t, hs, hrun, hro, hco, hlo⟩

end DEngine.Raft

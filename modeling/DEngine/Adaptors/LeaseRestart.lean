import DEngine.Adaptors.LeaseCleanup
import DEngine.Adaptors.RocksDBCrash

/-!
# Leases behind a crash of RocksDB

The leases are saved when the database is closed and when a snapshot is restored. Chunks, flushes
and `generate_snapshot_data` do not save them. Behind a crash the saved leases are loaded, and the
entries behind the recovered index are applied once more, at a later time.

## Implementation notes

The leases that the database holds under `ttl_state` are a parameter, since no step of a run
writes them. Their serialization round-trips.
-/

namespace DEngine.Adaptors

open Apply Library RocksDBStateMachine

/-! ## The last write of a key -/

section LastWrite

variable {k v : Bytes} {w : ApplyEntry} {entries : List ApplyEntry} {ttl : Nat}

theorem getElem?_serialRun_of_unwritten (h : ∀ e ∈ entries, k ∉ writtenKeys e)
    (values : KeyMap Bytes Bytes) :
    (serialRun (fun _ v => v) id values entries).2[k]? = values[k]? := by
  rw [serial_writes, KeyMap.getElem?_writeAll_of_not_mem]
  intro x hx
  obtain ⟨p, hp, hx⟩ := List.mem_flatMap.mp hx
  exact ne_of_writtenKeys (h p.1 (List.of_mem_zip hp).1) hx

/-- The last write decides about the value and the deadline. -/
theorem last_write (hasc : entries.Pairwise fun a b => a.index < b.index) (hw : w ∈ entries)
    (hcmd : w.command = .insert k v (some ttl))
    (hla : ∀ e ∈ entries, w.index < e.index → k ∉ writtenKeys e) :
    (∀ values, (serialRun (fun _ v => v) id values entries).2[k]? = some v) ∧
      ∀ registeredAt l, deadline (leaseAfter registeredAt (some l) entries) k =
        some (registeredAt w.index + ttl * nanosPerSec) := by
  obtain ⟨front, back, rfl⟩ := List.append_of_mem hw
  obtain ⟨index, term, command⟩ := w
  cases hcmd
  have hba : ∀ e ∈ back, k ∉ writtenKeys e := fun e he =>
    hla e (by simp [he]) ((List.pairwise_cons.mp (List.pairwise_append.mp hasc).2.1).1 e he)
  constructor
  · intro values
    simp only [serialRun, serial_append]
    refine (getElem?_serialRun_of_unwritten hba _).trans ?_
    exact (KeyMap.getElem?_insert_eq ..).trans (if_pos rfl)
  · intro registeredAt l
    obtain ⟨l', hl'⟩ := Option.isSome_iff_exists.mp
      ((isSome_leaseAfter registeredAt (some l) front).trans rfl)
    rw [leaseAfter, List.foldl_append]
    refine (deadline_leaseAfter hba registeredAt _).trans ?_
    change deadline ((leaseAfter registeredAt (some l) front).map _) k = _
    rw [hl']
    exact (KeyMap.getElem?_insert_eq ..).trans (if_pos rfl)

end LastWrite

/-! ## A crash and what follows -/

def RocksDBStateMachine.loadLeaseData (sm : RocksDBStateMachine)
    (ttlState : Option (KeyMap Bytes Nat)) (now : Nat) : RocksDBStateMachine :=
  { sm with lease := sm.lease.map fun l => ttlState.elim l (l.reloaded now) }

variable {log : EntryLog} {s r : RocksHost} {k v : Bytes} {w : ApplyEntry} {ttl now : Nat}
  {registeredAt : Nat → Nat} {ttlState : Option (KeyMap Bytes Nat)}

theorem lease_of_reopen (h : s.reopen = some r) : r.machine.lease = some .empty := by
  unfold RocksHost.reopen at h
  split at h
  · cases h
  · split at h <;> cases h
    rfl

theorem deadline_loadLeaseData (h : r.machine.lease = some .empty) {d : Nat} :
    deadline (r.machine.loadLeaseData ttlState now).lease k = some d ↔
      ttlState.bind (·[k]?) = some d ∧ now < d := by
  simp only [loadLeaseData, h, Option.map_some, deadline, Option.bind_some]
  cases ttlState with
  | none => simp [TtlLease.empty]
  | some leases => simp [TtlLease.reloaded, unexpired, Std.ExtTreeMap.getElem?_filter]

/-- The entries that come next are applied in chunks of any sizes. -/
theorem applyChunks_next {sm : RocksDBStateMachine} {chunks : List (List ApplyEntry)}
    {rest : List ApplyEntry} (h : MachineOpen log sm)
    (hnx : log.behind sm.lastAppliedIndex = chunks.flatten ++ rest) (registeredAt : Nat → Nat) :
    ∃ results t, sm.applyChunks (chunks.map (registeredAt, ·)) = .ok (results, t) ∧
      t.values = log.stateAt (indexAfter sm.lastAppliedIndex chunks.flatten) ∧
      t.lease = leaseAfter registeredAt sm.lease chunks.flatten := by
  have hfl : (chunks.map (registeredAt, ·)).flatMap Prod.snd = chunks.flatten := by
    simp [List.flatMap_map]
  have hasc : (chunks.flatten ++ rest).Pairwise fun a b => a.index < b.index :=
    hnx.subst (motive := List.Pairwise _) (log.ascending.sublist List.filter_sublist)
  have hop : sm.IsOpen := by
    obtain ⟨-, db, cf, metaCf, hdb, hok⟩ := h
    constructor <;> simp [hdb, hok.stateMachineCf, hok.stateMachineMetaCf]
  rw [← hfl] at hasc
  obtain ⟨t, hrun, hva, hls⟩ := applyChunks_refines hop (List.pairwise_append.mp hasc).1
    fun e _ => registers_of_lease h.1 e
  refine ⟨_, t, hrun, ?_, ?_⟩
  · rw [EntryLog.stateAt_indexAfter hnx, ← h.values_eq]
    refine (congrArg Interpreter.values hva).trans ?_
    rw [hfl, Interpreter.run_eq]
    rfl
  · rw [hls, List.foldl_map, leaseAfter, List.foldl_flatten]
    rfl

/-- A key whose last write has a time to live is there again behind a crash, once the entries
behind the recovered index were applied. Its deadline is not later than before exactly if the
flushed write has a saved lease that ends between the start and the old deadline, or the write
that was lost is registered again no later than the first time. -/
theorem deadline_survives_iff {chunks : List (List ApplyEntry)} {rest : List ApplyEntry}
    (h : (rocksRuns log).Reach CoversAlike s) (hcov : CoversAlike s .crash)
    (hcrash : s.reopen = some r)
    (hnext : log.behind r.machine.lastAppliedIndex = chunks.flatten ++ rest)
    (hall : indexAfter r.machine.lastAppliedIndex chunks.flatten = s.machine.lastAppliedIndex)
    (hw : w ∈ log.entries) (hle : w.index ≤ s.machine.lastAppliedIndex)
    (hcmd : w.command = .insert k v (some ttl))
    (hlast : ∀ e ∈ log.entries, w.index < e.index → e.index ≤ s.machine.lastAppliedIndex →
      k ∉ writtenKeys e) :
    ∃ results t, (r.machine.loadLeaseData ttlState now).applyChunks
        (chunks.map (registeredAt, ·)) = .ok (results, t) ∧
      ∀ e ∈ deadline s.machine.lease k,
        ((t.values[k]? = none ∨ ∃ d, deadline t.lease k = some d ∧ d ≤ e) ↔
          if w.index ≤ r.machine.lastAppliedIndex then
            ∃ d, ttlState.bind (·[k]?) = some d ∧ now < d ∧ d ≤ e
          else registeredAt w.index + ttl * nanosPerSec ≤ e) := by
  have hem := lease_of_reopen hcrash
  have hop : MachineOpen log (r.machine.loadLeaseData ttlState now) :=
    ⟨by simp [loadLeaseData, hem], ((machineOpen_of_reach h).reopen hcov hcrash).2⟩
  obtain ⟨results, t, hrun, hva, hls⟩ := applyChunks_next hop hnext registeredAt
  refine ⟨results, t, hrun, fun e _ => ?_⟩
  -- The entries that were applied before the crash are applied again.
  have hup := (filter_indexAfter log.ascending hnext).1
  rw [hall] at hup
  have hmem : w ∈ log.entries.filter fun e => decide (e.index ≤ s.machine.lastAppliedIndex) :=
    List.mem_filter.mpr ⟨hw, decide_eq_true hle⟩
  have hla : ∀ e ∈ log.entries.filter fun e => decide (e.index ≤ s.machine.lastAppliedIndex),
      w.index < e.index → k ∉ writtenKeys e := fun e he hlt =>
    hlast e (List.mem_of_mem_filter he) hlt (of_decide_eq_true (List.mem_filter.mp he).2)
  have hval : t.values[k]? = some v := by
    refine (congrArg (·[k]?) (hva.trans (congrArg log.stateAt hall))).trans ?_
    rw [EntryLog.stateAt, Interpreter.run_eq]
    exact (last_write (log.ascending.sublist List.filter_sublist) hmem hcmd hla).1 log.base
  rw [hup] at hmem hla
  rw [hval, hls]
  have hbe : ∀ e ∈ chunks.flatten, r.machine.lastAppliedIndex < e.index := by
    intro e he
    have he : e ∈ log.behind r.machine.lastAppliedIndex := hnext ▸ List.mem_append_left rest he
    exact of_decide_eq_true (List.mem_filter.mp he).2
  split_ifs with hfl
  · rw [deadline_leaseAfter fun e he =>
      hla e (List.mem_append_right _ he) (hfl.trans_lt (hbe e he))]
    simp [deadline_loadLeaseData hem, and_assoc]
  · have hch : w ∈ chunks.flatten := (List.mem_append.mp hmem).resolve_left fun hw =>
      hfl (of_decide_eq_true (List.mem_filter.mp hw).2)
    have hasc : (chunks.flatten ++ rest).Pairwise fun a b => a.index < b.index :=
      hnext.subst (motive := List.Pairwise _) (log.ascending.sublist List.filter_sublist)
    obtain ⟨l, hl⟩ := Option.isSome_iff_exists.mp hop.1
    rw [hl, (last_write (List.pairwise_append.mp hasc).1 hch hcmd fun e he =>
      hla e (List.mem_append_right _ he)).2]
    simp

/-- One value with a time to live is inserted. -/
def leasedInsert : EntryLog where
  base := ∅
  start := ⟨0, 0⟩
  entries := [⟨1, 1, .insert [1] [7] (some 5)⟩]
  ascending := by decide
  behindStart := by decide
  fits := by decide

theorem leasedInsert_init : (rocksRuns leasedInsert).init (.start leasedInsert ⟨none, none⟩) :=
  ⟨⟨none, none⟩, rfl, rfl⟩

/-- What a crash, the saved leases and the entries behind the recovered index leave. -/
def recovered (s : RocksHost) (ttlState : Option (KeyMap Bytes Nat)) (now : Nat)
    (registeredAt : Nat → Nat) : Option (Option Bytes × Option Nat) := do
  let r ← s.reopen
  let (_, t) ← ((r.machine.loadLeaseData ttlState now).applyChunk .none registeredAt
    (leasedInsert.behind r.machine.lastAppliedIndex)).toOption
  pure (t.values[([1] : Bytes)]?, deadline t.lease [1])

/-- The lost write is registered again at its first time. -/
theorem deadline_survives_lost_write :
    ∃ s r, (rocksRuns leasedInsert).Reach CoversAlike s ∧ s.reopen = some r ∧
      ∃ results t, (r.machine.loadLeaseData none 0).applyChunks
          ([leasedInsert.entries].map ((fun _ => 0), ·)) = .ok (results, t) ∧
        (t.values[([1] : Bytes)]? = none ∨
          ∃ d, deadline t.lease [1] = some d ∧ d ≤ 5 * nanosPerSec) := by
  have hrun : ∃ s, (rocksRuns leasedInsert).Reach CoversAlike s ∧ CoversAlike s .crash ∧
      s.machine.lastAppliedIndex = 1 ∧ deadline s.machine.lease [1] = some (5 * nanosPerSec) ∧
      s.reopen.map (·.machine.lastAppliedIndex) = some 0 :=
    Machine.exists_reach_of_runIf [.applyChunk (fun _ => 0) 1] leasedInsert_init
      (by decide +kernel)
  obtain ⟨s, hre, hcov, hin, hde, hrp⟩ := hrun
  obtain ⟨r, hr, hze⟩ := Option.map_eq_some_iff.mp hrp
  have hnx : leasedInsert.behind r.machine.lastAppliedIndex =
      [leasedInsert.entries].flatten ++ [] := by rw [hze]; rfl
  have hw : ⟨1, 1, .insert [1] [7] (some 5)⟩ ∈ leasedInsert.entries := by decide
  obtain ⟨results, t, ht, hiff⟩ := deadline_survives_iff hre hcov hr hnx
    (by rw [hze, hin]; rfl) hw hin.ge rfl (by rw [hin]; decide)
  exact ⟨s, r, hre, hr, results, t, ht, (hiff _ hde).mpr (by rw [hze]; decide)⟩

/-- The write is flushed and its lease is not, or it is registered again later. -/
theorem deadline_lost_in_crash :
    (∃ s, (rocksRuns leasedInsert).Reach CoversAlike s ∧ CoversAlike s .crash ∧
      deadline s.machine.lease [1] = some (5 * nanosPerSec) ∧
      recovered s none 0 (fun _ => 0) = some (some [7], none)) ∧
    ∃ s, (rocksRuns leasedInsert).Reach CoversAlike s ∧ CoversAlike s .crash ∧
      deadline s.machine.lease [1] = some (5 * nanosPerSec) ∧
      recovered s none 1 (fun _ => 1) = some (some [7], some (5 * nanosPerSec + 1)) := by
  refine ⟨?_, ?_⟩
  · exact Machine.exists_reach_of_runIf
      [.applyChunk (fun _ => 0) 1, .flush false, .advance 0, .advance 0] leasedInsert_init
      (by decide +kernel)
  · exact Machine.exists_reach_of_runIf [.applyChunk (fun _ => 0) 1] leasedInsert_init
      (by decide +kernel)

end DEngine.Adaptors

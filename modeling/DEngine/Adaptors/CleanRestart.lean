import DEngine.Adaptors.WalRoundTrip

/-!
# Closing and opening the file state machine

When the machine is dropped it writes values and last applied identity but leaves
the log. What the log holds was applied, so that opening the files skips all of it.
-/

namespace DEngine.Adaptors.FileStateMachine

open Apply Library Library.Framing

variable {sm : FileStateMachine} {disk : Disk}

/-- The identity fits into the metadata file. -/
def IdFits (id : LogId) : Prop := id.index < 256 ^ 8 ∧ id.term < 256 ^ 8
deriving Decidable

/-- The state fits into its files, and the log holds only operations that were applied. -/
structure Covered (sm : FileStateMachine) (disk : Disk) : Prop where
  data : DataFits sm.data
  id : IdFits sm.lastApplied
  wal : ∃ logged : List (ApplyEntry × LoggedOp),
    (disk.walLog = logged.flatMap fun q => q.2.bytes q.1) ∧
    ∀ q ∈ logged, (EntryFits q.1 ∧ q.2.Fits) ∧ q.1.index ≤ sm.lastAppliedIndex

theorem loadMetadata_encoded {id : LogId} (h : IdFits id) :
    loadMetadata (toBigEndian 8 id.index ++ toBigEndian 8 id.term) = id := by
  simp [loadMetadata, List.take_of_length_le, ofBigEndian_toBigEndian h.1,
    ofBigEndian_toBigEndian h.2]

theorem Covered.reopened (h : Covered sm disk) (now : Nat) :
    ∃ cleanup, loadFromDisk now (disk.performAll sm.saveHardState) =
      .ok (⟨sm.data, none, sm.lastAppliedIndex, sm.lastAppliedTerm, 0⟩, cleanup) := by
  obtain ⟨logged, hwal, hlo⟩ := h.wal
  have hdisk : disk.performAll sm.saveHardState = ⟨encodeData sm.data,
      toBigEndian 8 sm.lastApplied.index ++ toBigEndian 8 sm.lastApplied.term, disk.walLog⟩ := rfl
  -- Every record is one of an applied entry, and none is replayed.
  have hskip : ((logged.map fun q => q.2.record q.1).filter fun r =>
      decide (sm.lastApplied.index < r.index)) = [] := by
    refine List.filter_eq_nil_iff.mpr fun r hr => ?_
    obtain ⟨q, hq, rfl⟩ := List.mem_map.mp hr
    exact fun hlt => (of_decide_eq_true hlt).not_ge (hlo q hq).2
  rw [hdisk, loadFromDisk]
  dsimp only
  rw [loadMetadata_encoded h.id, loadData_encodeData h.data, hwal, replayWal,
    parseWal_flatMap fun q hq => (hlo q hq).1, Except.map, hskip]
  exact ⟨_, rfl⟩

variable {chunk rest : List ApplyEntry}

theorem IdFits.lastLogId {id : LogId} (h : IdFits id) (hen : ∀ e ∈ chunk, EntryFits e) :
    IdFits (lastLogId id chunk) := by
  induction chunk generalizing id with
  | nil => exact h
  | cons e rest ih =>
    have he := hen e List.mem_cons_self
    exact ih ⟨he.index, he.term⟩ fun e he => hen e (List.mem_cons_of_mem _ he)

/-- A chunk that comes next moves the index to its end. -/
theorem index_le_indexAfter {lo : Nat}
    (hasc : (chunk ++ rest).Pairwise fun a b => a.index < b.index)
    (hbe : ∀ e ∈ chunk ++ rest, lo < e.index) :
    lo ≤ indexAfter lo chunk ∧ (∀ e ∈ chunk, e.index ≤ indexAfter lo chunk) ∧
      ∀ e ∈ rest, indexAfter lo chunk < e.index := by
  obtain ⟨hno, hall⟩ := filter_above hbe
  obtain ⟨hup, hla⟩ := filter_indexAfter hasc hall
  rw [hno, List.nil_append] at hup
  refine ⟨le_indexAfter hasc hall, fun e he => ?_, fun e he => ?_⟩
  · rw [← hup] at he
    exact of_decide_eq_true (List.mem_filter.mp he).2
  · rw [← hla] at he
    exact of_decide_eq_true (List.mem_filter.mp he).2

/-- The entry fits into the log and is read back from it. -/
def Loggable (entry : ApplyEntry) : Prop :=
  EntryFits entry ∧ ttlSecs entry = none ∧ entry.command ≠ .batch []
deriving Decidable

theorem walLog_walAppend (walBuf : Bytes) :
    (disk.performAll (walAppend walBuf)).walLog = disk.walLog ++ walBuf := by
  unfold walAppend
  split_ifs with h
  · rw [h, List.append_nil]
    rfl
  · rfl

theorem Covered.applyChunk (h : Covered sm disk)
    (hasc : (chunk ++ rest).Pairwise fun a b => a.index < b.index)
    (hbe : ∀ e ∈ chunk ++ rest, sm.lastAppliedIndex < e.index)
    (hen : ∀ e ∈ chunk, Loggable e) (clock : ApplyClock) :
    ∃ results next writes, sm.applyChunk clock chunk = .ok (results, next, writes) ∧
      Covered next (disk.performAll writes) ∧ ∀ e ∈ rest, next.lastAppliedIndex < e.index := by
  obtain ⟨hle, hch, hre⟩ := index_le_indexAfter hasc hbe
  have hid := (@finishChunk_lastApplied (sm.updated clock.registeredAt chunk)
    clock.sinceCheckpointSecs (highestAfter none chunk) chunk.length).trans
      (highestAfter_getD none sm.lastApplied chunk)
  have hix := (congrArg LogId.index hid).trans (lastLogId_index sm.lastApplied chunk)
  refine ⟨_, _, _, applyChunk_eq (List.pairwise_append.mp hasc).1
    (fun e he => registers_of_ttlSecs (hen e he).2.1 sm.lease) clock, ⟨?_, ?_, ?_⟩, ?_⟩
  · rw [finishChunk_data]
    exact h.data.serialRun fun e he => (hen e he).1
  · rw [hid]
    exact h.id.lastLogId fun e he => (hen e he).1
  · rw [Disk.performAll, List.foldl_append]
    rcases @finishChunk_writes (sm.updated clock.registeredAt chunk)
      clock.sinceCheckpointSecs (highestAfter none chunk) chunk.length with hno | hcp
    · obtain ⟨logged, hwal, hlo⟩ := h.wal
      refine ⟨logged ++ loggedOps (decided sm.data chunk), ?_, fun q hq => ?_⟩
      · have hpa : ∀ p ∈ decided sm.data chunk, ttlSecs p.1 = none ∧ p.1.command ≠ .batch [] :=
          fun p hp => (hen p.1 (List.of_mem_zip hp).1).2
        rw [hno, List.flatMap_append, ← hwal, ← flatMap_encodeWalEntry clock.encodedAt hpa, decided,
          ← evaluateChunk_walBuf]
        exact walLog_walAppend _
      · refine (List.mem_append.mp hq).elim (fun hq => ?_) fun hq => ?_
        · exact ⟨(hlo q hq).1, (hlo q hq).2.trans (hle.trans hix.ge)⟩
        · obtain ⟨p, hp, heq, hop⟩ := mem_loggedOps hq
          have hmem := (List.of_mem_zip hp).1
          obtain ⟨hfit, httl, -⟩ := hen p.1 hmem
          rw [heq]
          exact ⟨⟨hfit, LoggedOp.fits_of_mem hfit httl hop⟩, (hch _ hmem).trans hix.ge⟩
    · rw [hcp]
      exact ⟨[], rfl, fun q hq => absurd hq List.not_mem_nil⟩
  · exact fun e he => hix.trans_lt (hre e he)

/-- Chunks of entries that can be logged are applied, and when the machine is dropped behind
them, its files are opened to the values and the identity that it had. -/
theorem reopened_of_applied_chunks (sm : FileStateMachine) (disk : Disk) (now : Nat)
    (chunks : List (ApplyClock × List ApplyEntry)) (hcovered : Covered sm disk)
    (hascending : (chunks.flatMap Prod.snd).Pairwise fun a b => a.index < b.index)
    (hbehind : ∀ e ∈ chunks.flatMap Prod.snd, sm.lastAppliedIndex < e.index)
    (hentries : ∀ e ∈ chunks.flatMap Prod.snd, Loggable e) :
    ∃ results final writes cleanup, sm.applyChunks chunks = .ok (results, final, writes) ∧
      loadFromDisk now (disk.performAll (writes ++ final.saveHardState)) =
        .ok (⟨final.data, none, final.lastAppliedIndex, final.lastAppliedTerm, 0⟩, cleanup) := by
  induction chunks generalizing sm disk with
  | nil =>
    obtain ⟨cleanup, hlo⟩ := hcovered.reopened now
    exact ⟨[], sm, [], cleanup, rfl, hlo⟩
  | cons head rest ih =>
    obtain ⟨clock, chunk⟩ := head
    rw [List.flatMap_cons] at hascending hbehind hentries
    obtain ⟨results, next, writes, hap, hco, hnx⟩ := hcovered.applyChunk hascending hbehind
      (fun e he => hentries e (List.mem_append_left _ he)) clock
    obtain ⟨later, final, laterWrites, cleanup, hre, hlo⟩ := ih next _ hco
      (List.pairwise_append.mp hascending).2.1 hnx
      fun e he => hentries e (List.mem_append_right _ he)
    refine ⟨results ++ later, final, writes ++ laterWrites, cleanup, ?_, ?_⟩
    · rw [applyChunks, hap]
      dsimp only
      rw [hre]
    · rw [List.append_assoc, Disk.performAll, List.foldl_append]
      exact hlo

theorem reopened_of_swap_chunks :
    ∃ results final writes cleanup, fresh.applyChunks swapChunks = .ok (results, final, writes) ∧
      loadFromDisk 0 ((⟨[], [], []⟩ : Disk).performAll (writes ++ final.saveHardState)) =
        .ok (⟨final.data, none, final.lastAppliedIndex, final.lastAppliedTerm, 0⟩, cleanup) :=
  reopened_of_applied_chunks fresh ⟨[], [], []⟩ 0 swapChunks
    ⟨dataFits_empty, by decide, [], rfl, by simp⟩ (by decide) (by decide) (by decide)

end DEngine.Adaptors.FileStateMachine

import DEngine.Adaptors.FileFormat

/-!
# The round trip of the write-ahead log

What a sequence of chunks appends to the log is replayed to the values that the chunks left, and
any first part of the bytes to the values behind some of the entries. Three things break this. A
value of length zero is read back as no value, and its insertion is skipped. An empty batch is a
header without a record, and what follows is read from the middle of its own header. A batch of
several operations has a record for each of them, so that a cut in between leaves a part of it.
-/

namespace DEngine.Adaptors.FileStateMachine

open Apply Library Library.Framing

/-- What writes append to the write-ahead log. -/
def walBytes (writes : List DiskWrite) : Bytes :=
  writes.flatMap fun w =>
    match w with
    | .append .walLog bytes => bytes
    | _ => []

/-- The entry is no empty batch, and with its outcome it writes no empty value. -/
@[mk_iff]
structure Replayable (entry : ApplyEntry) (casSuccess : Bool) : Prop where
  batch : entry.command ≠ .batch []
  values : ∀ w ∈ entryWrites withTerm entry casSuccess, ∀ v ∈ w.2, v.1 ≠ []

instance (entry : ApplyEntry) (casSuccess : Bool) : Decidable (Replayable entry casSuccess) :=
  decidable_of_iff' _ (replayable_iff entry casSuccess)

/-- The entry is logged as one record. -/
def OneRecord (entry : ApplyEntry) : Prop :=
  match entry.command with
  | .batch ops => ops.length = 1
  | _ => True

/-- Entries with their outcomes in a serial run. -/
def decided (data : FileData) (entries : List ApplyEntry) : List (ApplyEntry × Bool) :=
  entries.zip (serialRun withTerm Prod.fst data entries).1

/-- The operations that are logged for entries with their outcomes. -/
def loggedOps (pairs : List (ApplyEntry × Bool)) : List (ApplyEntry × LoggedOp) :=
  pairs.flatMap fun p => (LoggedOp.ofEntry 0 p.1 p.2).map (p.1, ·)

variable {sm : FileStateMachine} {pairs : List (ApplyEntry × Bool)}

theorem mem_loggedOps {q : ApplyEntry × LoggedOp} (h : q ∈ loggedOps pairs) :
    ∃ p ∈ pairs, q.1 = p.1 ∧ q.2 ∈ LoggedOp.ofEntry 0 p.1 p.2 := by
  obtain ⟨p, hp, hq⟩ := List.mem_flatMap.mp h
  obtain ⟨op, hop, rfl⟩ := List.mem_map.mp hq
  exact ⟨p, hp, rfl, hop⟩

/-! ## What chunks log -/

variable {entry : ApplyEntry}

/-- Without a time to live it does not matter when an entry is encoded. -/
theorem ofEntry_of_ttlSecs (h : ttlSecs entry = none) (now : Nat) (casSuccess : Bool) :
    LoggedOp.ofEntry now entry casSuccess = LoggedOp.ofEntry 0 entry casSuccess := by
  obtain ⟨index, term, command⟩ := entry
  cases command with
  | insert =>
    cases h
    rfl
  | _ => rfl

theorem flatMap_encodeWalEntry (encodedAt : Nat → Nat)
    (h : ∀ p ∈ pairs, ttlSecs p.1 = none ∧ p.1.command ≠ .batch []) :
    (pairs.flatMap fun p => encodeWalEntry (encodedAt p.1.index) p.1 p.2) =
      (loggedOps pairs).flatMap fun q => q.2.bytes q.1 := by
  rw [loggedOps, List.flatMap_assoc]
  refine List.flatMap_congr fun p hp => ?_
  rw [encodeWalEntry_eq (h p hp).2, ofEntry_of_ttlSecs (h p hp).1, List.flatMap_map]

theorem walBytes_append (a b : List DiskWrite) : walBytes (a ++ b) = walBytes a ++ walBytes b :=
  List.flatMap_append

theorem walBytes_walAppend (walBuf : Bytes) : walBytes (walAppend walBuf) = walBuf := by
  unfold walAppend
  split_ifs with h
  · exact h.symm
  · exact List.append_nil walBuf

/-- A checkpoint appends nothing to the log. -/
theorem walBytes_finishChunk (sinceCheckpointSecs : Nat) (highest : Option LogId) (chunkLen : Nat) :
    walBytes (sm.finishChunk sinceCheckpointSecs highest chunkLen).2 = [] := by
  rcases finishChunk_writes sinceCheckpointSecs highest chunkLen with hno | hch
  · rw [hno]
    rfl
  · rw [hch]
    rfl

theorem decided_append (data : FileData) (a b : List ApplyEntry) :
    decided data (a ++ b) =
      decided data a ++ decided (serialRun withTerm Prod.fst data a).2 b := by
  rw [decided, serialRun, serial_append, List.zip_append (length_serial _ _).symm]
  rfl

theorem serialRun_decided (data : FileData) (entries : List ApplyEntry) :
    (serialRun withTerm Prod.fst data entries).2 =
      data.writeAll ((decided data entries).flatMap fun p => entryWrites withTerm p.1 p.2) :=
  serial_writes data entries

theorem applyChunk_logged {chunk : List ApplyEntry}
    (hasc : chunk.Pairwise fun a b => a.index < b.index)
    (hen : ∀ e ∈ chunk, ttlSecs e = none ∧ e.command ≠ .batch []) (clock : ApplyClock) :
    ∃ results next writes, sm.applyChunk clock chunk = .ok (results, next, writes) ∧
      next.data = (serialRun withTerm Prod.fst sm.data chunk).2 ∧
      walBytes writes = (loggedOps (decided sm.data chunk)).flatMap fun q => q.2.bytes q.1 := by
  refine ⟨_, _, _, applyChunk_eq hasc
    (fun e he => registers_of_ttlSecs (hen e he).1 sm.lease) clock, finishChunk_data _ _ _, ?_⟩
  rw [walBytes_append, walBytes_walAppend, walBytes_finishChunk, List.append_nil,
    evaluateChunk_walBuf]
  exact flatMap_encodeWalEntry _ fun p hp => hen p.1 (List.of_mem_zip hp).1

theorem applyChunks_logged {chunks : List (ApplyClock × List ApplyEntry)}
    (hasc : ∀ p ∈ chunks, p.2.Pairwise fun a b => a.index < b.index)
    (hen : ∀ e ∈ chunks.flatMap Prod.snd, ttlSecs e = none ∧ e.command ≠ .batch []) :
    ∃ results final writes, sm.applyChunks chunks = .ok (results, final, writes) ∧
      final.data = (serialRun withTerm Prod.fst sm.data (chunks.flatMap Prod.snd)).2 ∧
      walBytes writes =
        (loggedOps (decided sm.data (chunks.flatMap Prod.snd))).flatMap fun q => q.2.bytes q.1 := by
  induction chunks generalizing sm with
  | nil => exact ⟨[], sm, [], rfl, rfl, rfl⟩
  | cons head rest ih =>
    obtain ⟨clock, chunk⟩ := head
    rw [List.flatMap_cons] at hen ⊢
    obtain ⟨results, next, writes, hch, hnx, hby⟩ := applyChunk_logged
      (hasc _ List.mem_cons_self) (fun e he => hen e (List.mem_append_left _ he)) clock
    obtain ⟨laterResults, final, laterWrites, hre, hda, hla⟩ := @ih next
      (fun p hp => hasc p (List.mem_cons_of_mem _ hp))
      (fun e he => hen e (List.mem_append_right _ he))
    refine ⟨results ++ laterResults, final, writes ++ laterWrites, ?_, ?_, ?_⟩
    · rw [applyChunks, hch]
      dsimp only
      rw [hre]
    · rw [hda, hnx]
      exact (congrArg Prod.snd (serial_append sm.data chunk (rest.flatMap Prod.snd))).symm
    · rw [walBytes_append, hby, hla, hnx, decided_append, ← List.flatMap_append]
      exact congrArg _ List.flatMap_append.symm

/-! ## What is replayed -/

/-- What is replayed for an entry is what the entry writes. -/
theorem flatMap_recordWrites {casSuccess : Bool} (h : Replayable entry casSuccess) :
    ((LoggedOp.ofEntry 0 entry casSuccess).flatMap fun op => recordWrites (op.record entry)) =
      entryWrites withTerm entry casSuccess := by
  obtain ⟨index, term, command⟩ := entry
  have hin : ∀ {key value : Bytes} {secs : Nat}, value ≠ [] →
      recordWrites (LoggedOp.record ⟨index, term, command⟩ ⟨.insert, key, value, secs⟩) =
        [(key, some (withTerm term value))] := by
    intro key value secs hva
    simp [LoggedOp.record, recordWrites, hva, withTerm]
  cases command with
  | noop | delete key => rfl
  | insert =>
    exact (List.flatMap_singleton _ _).trans (hin (h.values _ List.mem_cons_self _ rfl))
  | compareAndSwap =>
    cases casSuccess with
    | false => rfl
    | true => exact (List.flatMap_singleton _ _).trans (hin (h.values _ List.mem_cons_self _ rfl))
  | batch ops =>
    change (ops.map LoggedOp.ofBatchOp).flatMap _ = ops.map (opWrite withTerm term)
    rw [List.flatMap_map, List.map_eq_flatMap]
    refine List.flatMap_congr fun op hop => ?_
    cases op with
    | insert => exact hin (h.values _ (List.mem_map_of_mem hop) _ rfl)
    | delete => rfl

/-- The records of entries behind the last applied index are replayed as the entries write. -/
theorem replay_loggedOps {a : Nat}
    (h : ∀ p ∈ pairs, ttlSecs p.1 = none ∧ a < p.1.index ∧ Replayable p.1 p.2) (now : Nat)
    (data : FileData) :
    (((loggedOps pairs).map fun q => q.2.record q.1).filter
        fun r => decide (a < r.index)).foldl (replayRecord now) data =
      data.writeAll (pairs.flatMap fun p => entryWrites withTerm p.1 p.2) := by
  have hre : ∀ r ∈ (loggedOps pairs).map (fun q => q.2.record q.1),
      a < r.index ∧ r.expireAtSecs = none := by
    intro r hr
    obtain ⟨q, hq, rfl⟩ := List.mem_map.mp hr
    obtain ⟨p, hp, hen, hop⟩ := mem_loggedOps hq
    obtain ⟨httl, hidx, -⟩ := h p hp
    exact ⟨hen ▸ hidx, if_pos (LoggedOp.expireAtSecs_of_mem httl hop)⟩
  rw [List.filter_eq_self.mpr fun r hr => decide_eq_true (hre r hr).1,
    foldl_replayRecord fun r hr => (hre r hr).2, List.flatMap_map, loggedOps,
    List.flatMap_assoc]
  refine congrArg _ (List.flatMap_congr fun p hp => ?_)
  rw [List.flatMap_map]
  exact flatMap_recordWrites (h p hp).2.2

/-! ## First parts of the log -/

theorem exists_ofEntry_eq (h : OneRecord entry) (casSuccess : Bool) :
    ∃ op, LoggedOp.ofEntry 0 entry casSuccess = [op] := by
  obtain ⟨index, term, command⟩ := entry
  cases command with
  | compareAndSwap => cases casSuccess <;> exact ⟨_, rfl⟩
  | batch =>
    obtain ⟨op, rfl⟩ := List.length_eq_one_iff.mp h
    exact ⟨_, rfl⟩
  | _ => exact ⟨_, rfl⟩

/-- Entries with one record each are cut as their records are. -/
theorem take_loggedOps (h : ∀ p ∈ pairs, OneRecord p.1) (k : Nat) :
    (loggedOps pairs).take k = loggedOps (pairs.take k) := by
  induction pairs generalizing k with
  | nil => simp [loggedOps]
  | cons p rest ih =>
    obtain ⟨op, hop⟩ := exists_ofEntry_eq (h p List.mem_cons_self) p.2
    cases k with
    | zero => rfl
    | succ k =>
      have hre := ih (fun q hq => h q (List.mem_cons_of_mem p hq)) k
      simp only [loggedOps, List.take_succ_cons, List.flatMap_cons, hop, List.map_cons,
        List.map_nil, List.singleton_append] at hre ⊢
      rw [hre]

theorem decided_take (data : FileData) (entries : List ApplyEntry) (k : Nat) :
    decided data (entries.take k) = (decided data entries).take k := by
  induction entries generalizing data k with
  | nil => simp [decided]
  | cons entry rest ih =>
    cases k with
    | zero => rfl
    | succ k => exact congrArg (_ :: ·) (ih _ k)

/-! ## The round trip -/

theorem exists_mem_decided (data : FileData) {entries : List ApplyEntry} (h : entry ∈ entries) :
    ∃ casSuccess, (entry, casSuccess) ∈ decided data entries := by
  have hfst : (decided data entries).map Prod.fst = entries :=
    List.map_fst_zip (length_serial data entries).ge
  rw [← hfst] at h
  obtain ⟨p, hp, rfl⟩ := List.mem_map.mp h
  exact ⟨p.2, hp⟩

/-- What chunks log is replayed to the values that they leave, if no empty value is written and no
batch is empty. If no batch has several operations either, then any first part of the bytes is
replayed to the values behind some of the entries. -/
theorem replay_of_logged_chunks (sm : FileStateMachine)
    (chunks : List (ApplyClock × List ApplyEntry)) (a now : Nat)
    (hascending : ∀ p ∈ chunks, p.2.Pairwise fun a b => a.index < b.index)
    (hfits : ∀ e ∈ chunks.flatMap Prod.snd, EntryFits e)
    (hentries : ∀ e ∈ chunks.flatMap Prod.snd, ttlSecs e = none ∧ a < e.index)
    (hreplayable : ∀ p ∈ decided sm.data (chunks.flatMap Prod.snd), Replayable p.1 p.2) :
    ∃ results final writes, sm.applyChunks chunks = .ok (results, final, writes) ∧
      replayWal now a sm.data (walBytes writes) = .ok final.data ∧
      ((∀ e ∈ chunks.flatMap Prod.snd, OneRecord e) → ∀ n, ∃ k,
        replayWal now a sm.data ((walBytes writes).take n) =
          .ok (serialRun withTerm Prod.fst sm.data ((chunks.flatMap Prod.snd).take k)).2) := by
  obtain ⟨results, final, writes, hap, hda, hby⟩ := applyChunks_logged hascending
    fun e he => by
      obtain ⟨casSuccess, hin⟩ := exists_mem_decided sm.data he
      exact ⟨(hentries e he).1, (hreplayable _ hin).batch⟩
  have hpa : ∀ p ∈ decided sm.data (chunks.flatMap Prod.snd),
      ttlSecs p.1 = none ∧ a < p.1.index ∧ Replayable p.1 p.2 := fun p hp =>
    have hen := hentries p.1 (List.of_mem_zip hp).1
    ⟨hen.1, hen.2, hreplayable p hp⟩
  have hops : ∀ q ∈ loggedOps (decided sm.data (chunks.flatMap Prod.snd)),
      EntryFits q.1 ∧ q.2.Fits := by
    intro q hq
    obtain ⟨p, hp, hen, hop⟩ := mem_loggedOps hq
    have hfit := hfits p.1 (List.of_mem_zip hp).1
    exact ⟨hen ▸ hfit, LoggedOp.fits_of_mem hfit (hpa p hp).1 hop⟩
  refine ⟨results, final, writes, hap, ?_, ?_⟩
  · rw [hby, replayWal, parseWal_flatMap hops, hda,
      serialRun_decided]
    exact congrArg Except.ok (replay_loggedOps hpa now sm.data)
  · intro hone n
    obtain ⟨k, hk, -⟩ := parseWal_records hops (List.take_append_drop n _) le_rfl
    refine ⟨k, ?_⟩
    have hre : ∀ p ∈ decided sm.data (chunks.flatMap Prod.snd), OneRecord p.1 := fun p hp =>
      hone p.1 (List.of_mem_zip hp).1
    rw [hby, replayWal, hk, take_loggedOps hre, ← decided_take, serialRun_decided]
    refine congrArg Except.ok (replay_loggedOps (fun p hp => hpa p ?_) now sm.data)
    rw [decided_take] at hp
    exact List.mem_of_mem_take hp

/-- A value is inserted and exchanged, and not exchanged for an empty one. -/
def swapChunks : List (ApplyClock × List ApplyEntry) :=
  [(.still, [⟨1, 1, .insert [1] [10] none⟩, ⟨2, 1, .compareAndSwap [1] (some [10]) [11]⟩,
    ⟨3, 1, .compareAndSwap [1] (some [10]) []⟩])]

theorem replay_of_swap_chunks :
    ∃ results final writes, fresh.applyChunks swapChunks = .ok (results, final, writes) ∧
      replayWal 0 0 fresh.data (walBytes writes) = .ok final.data := by
  obtain ⟨results, final, writes, hap, hre, -⟩ :=
    replay_of_logged_chunks fresh swapChunks 0 0 (by decide) (by decide) (by decide)
      (by decide +kernel)
  exact ⟨results, final, writes, hap, hre⟩

/-- The values behind a chunk. -/
def applied (chunk : List ApplyEntry) : Option (List (Bytes × (Bytes × Nat))) :=
  (fresh.applyChunk .still chunk).toOption.map fun done => done.2.1.data.toList

/-- The values that are replayed from the first bytes that a chunk logs. -/
def replayed (chunk : List ApplyEntry) (n : Nat) : Option (List (Bytes × (Bytes × Nat))) :=
  (fresh.applyChunk .still chunk).toOption.bind fun done =>
    (replayWal 0 0 ∅ ((walBytes done.2.2).take n)).toOption.map (·.toList)

/-- An empty value is not replayed; neither is what follows an empty batch; a cut behind the first
operation of a batch leaves that operation. -/
theorem replay_loses_values :
    (applied [⟨1, 1, .insert [1] [] none⟩] = some [([1], ([], 1))] ∧
      replayed [⟨1, 1, .insert [1] [] none⟩] 42 = some []) ∧
    (applied [⟨1, 1, .batch []⟩, ⟨2, 1, .insert [1] [10] none⟩] = some [([1], ([10], 1))] ∧
      replayed [⟨1, 1, .batch []⟩, ⟨2, 1, .insert [1] [10] none⟩] 59 = some []) ∧
    (applied [⟨1, 1, .batch [.insert [1] [10], .insert [2] [20]]⟩] =
        some [([1], ([10], 1)), ([2], ([20], 1))] ∧
      replayed [⟨1, 1, .batch [.insert [1] [10], .insert [2] [20]]⟩] 43 =
        some [([1], ([10], 1))]) := by
  refine ⟨⟨?_, ?_⟩, ⟨?_, ?_⟩, ?_, ?_⟩ <;> decide +kernel

end DEngine.Adaptors.FileStateMachine

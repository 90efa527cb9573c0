import DEngine.Adaptors.FileStateMachine

/-!
# What the file state machine does with a chunk

The outcomes that are computed in advance, against the values that the chunk compares
and the changes in front of them, are those of the serial run. The update then writes
what belongs to the outcomes, so that a chunk leaves the values of the serial run.
-/

namespace DEngine.Adaptors

open Apply Library Library.Framing

namespace FileStateMachine

/-! ## Outcomes -/

theorem foldl_evaluateOp (term : Nat) (delta : Overlay Bytes (Bytes × Nat)) (ops : List BatchOp) :
    ops.foldl (evaluateOp term) delta = delta.putAll (ops.map (opWrite withTerm term)) := by
  induction ops generalizing delta with
  | nil => rfl
  | cons op rest ih =>
    rw [List.foldl_cons, ih]
    cases op <;> rfl

theorem evaluateEntry_eq (base : FileData) (delta : Overlay Bytes (Bytes × Nat))
    (entry : ApplyEntry) :
    evaluateEntry base delta entry =
      let outcome := casSucceeds Prod.fst entry (delta.get fun k => base[k]?)
      (outcome, delta.putAll (entryWrites withTerm entry outcome)) := by
  obtain ⟨index, term, command⟩ := entry
  cases command with
  | noop | insert key value ttlSecs | delete key => rfl
  | batch => simp only [evaluateEntry, casSucceeds, entryWrites, foldl_evaluateOp]
  | compareAndSwap key expected =>
    simp only [evaluateEntry, casSucceeds, entryWrites, casMatches_eq]
    by_cases h : (delta.get (fun k => base[k]?) key).map Prod.fst = expected
    · simp only [h, decide_true, if_true]
      rfl
    · simp only [h, decide_false, Bool.false_eq_true, if_false]
      rfl

theorem evaluate_outcomes (encodedAt : Nat → Nat) (base : FileData)
    (delta : Overlay Bytes (Bytes × Nat)) (chunk : List ApplyEntry) :
    (evaluate encodedAt base delta chunk).1 =
      (deferred (casSucceeds Prod.fst) (entryWrites withTerm) (fun k => base[k]?) delta chunk).1 := by
  induction chunk generalizing delta with
  | nil => rfl
  | cons entry rest ih =>
    rw [evaluate, evaluateEntry_eq, deferred]
    exact congrArg (List.cons _) (ih _)

/-- Each entry is encoded with its outcome. -/
theorem evaluate_walBuf (encodedAt : Nat → Nat) (base : FileData)
    (delta : Overlay Bytes (Bytes × Nat)) (chunk : List ApplyEntry) :
    (evaluate encodedAt base delta chunk).2 =
      (chunk.zip (evaluate encodedAt base delta chunk).1).flatMap fun p =>
        encodeWalEntry (encodedAt p.1.index) p.1 p.2 := by
  induction chunk generalizing delta with
  | nil => rfl
  | cons entry rest ih =>
    rw [evaluate]
    exact congrArg (_ ++ ·) (ih _)

theorem getElem?_fetchKey (data base : FileData) (j k : Bytes) :
    (fetchKey data base j)[k]? = if j = k then (data[k]?).or base[k]? else base[k]? := by
  unfold fetchKey
  split
  · next v hv =>
      rw [KeyMap.getElem?_insert_eq]
      split_ifs with hk
      · rw [← hk, hv]
        rfl
      · rfl
  · next hno =>
      split_ifs with hk
      · rw [← hk, hno]
        rfl
      · rfl

theorem getElem?_foldl_fetchKey (data base : FileData) (keys : List Bytes) (k : Bytes) :
    (keys.foldl (fetchKey data) base)[k]? =
      if k ∈ keys then (data[k]?).or base[k]? else base[k]? := by
  induction keys generalizing base with
  | nil => rfl
  | cons j rest ih =>
    rw [List.foldl_cons, ih, getElem?_fetchKey]
    by_cases hj : j = k
    · subst hj
      cases data[j]? <;> simp
    · simp [hj, Ne.symm hj]

theorem getElem?_casBase_of_mem {data : FileData} {keys : List Bytes} {k : Bytes} (h : k ∈ keys) :
    (casBase data keys)[k]? = data[k]? := by
  rw [casBase, getElem?_foldl_fetchKey, if_pos h, Std.ExtTreeMap.getElem?_empty, Option.or_none]

/-- The outcomes that are computed in advance are those of the serial run. -/
theorem evaluateChunk_outcomes (sm : FileStateMachine) (encodedAt : Nat → Nat)
    (chunk : List ApplyEntry) :
    (sm.evaluateChunk encodedAt chunk).1 = (serialRun withTerm Prod.fst sm.data chunk).1 := by
  rw [evaluateChunk, evaluate_outcomes]
  refine deferred_outcomes casKeys casSucceeds_congr fun entry hen k hk => ?_
  exact getElem?_casBase_of_mem (List.mem_flatMap.mpr ⟨entry, hen, hk⟩)

theorem evaluateChunk_walBuf (sm : FileStateMachine) (encodedAt : Nat → Nat)
    (chunk : List ApplyEntry) :
    (sm.evaluateChunk encodedAt chunk).2 =
      (chunk.zip (serialRun withTerm Prod.fst sm.data chunk).1).flatMap fun p =>
        encodeWalEntry (encodedAt p.1.index) p.1 p.2 := by
  rw [← evaluateChunk_outcomes sm encodedAt]
  exact evaluate_walBuf encodedAt _ _ chunk

/-! ## The update -/

theorem foldl_updateOp (term : Nat) (u : Update) (ops : List BatchOp) :
    ops.foldl (updateOp term) u =
      ⟨u.data.writeAll (ops.map (opWrite withTerm term)),
        u.lease.map (ops.foldl TtlLease.unregisterOp ·), u.results⟩ := by
  induction ops generalizing u with
  | nil =>
    obtain ⟨data, lease, results⟩ := u
    cases lease <;> rfl
  | cons op rest ih =>
    rw [List.foldl_cons, ih]
    obtain ⟨data, lease, results⟩ := u
    cases op <;> cases lease <;> rfl

theorem updateEntry_eq {u : Update} {entry : ApplyEntry} (h : Registers u.lease entry) (now : Nat)
    (casSuccess : Bool) :
    updateEntry now u entry casSuccess =
      .ok ⟨u.data.writeAll (entryWrites withTerm entry casSuccess),
        u.lease.map (TtlLease.apply · now entry), u.results ++ [entryResult entry casSuccess]⟩ := by
  obtain ⟨index, term, command⟩ := entry
  have hke : u.lease.map (fun l => l) = u.lease := Option.map_id'
  cases command with
  | noop =>
    simp only [updateEntry, entryWrites, entryResult, TtlLease.apply, hke]
    rfl
  | insert =>
    simp only [updateEntry, registerTtl_of_registers h, entryWrites, entryResult]
    rfl
  | delete => rfl
  | compareAndSwap =>
    simp only [updateEntry, entryWrites, entryResult, TtlLease.apply, hke]
    cases casSuccess <;> rfl
  | batch =>
    simp only [updateEntry, foldl_updateOp, entryWrites, entryResult, TtlLease.apply]

/-- The update writes what belongs to the outcomes. -/
theorem updateAll_eq {u : Update} {pairs : List (ApplyEntry × Bool)}
    (h : ∀ p ∈ pairs, Registers u.lease p.1) (registeredAt : Nat → Nat) :
    updateAll registeredAt u pairs =
      .ok ⟨u.data.writeAll (pairs.flatMap fun p => entryWrites withTerm p.1 p.2),
        leaseAfter registeredAt u.lease (pairs.map Prod.fst),
        u.results ++ pairs.map fun p => entryResult p.1 p.2⟩ := by
  induction pairs generalizing u with
  | nil => simp [updateAll, leaseAfter, KeyMap.writeAll]
  | cons p rest ih =>
    obtain ⟨entry, casSuccess⟩ := p
    have hre : ∀ q ∈ rest, Registers
        (u.lease.map (TtlLease.apply · (registeredAt entry.index) entry)) q.1 := fun q hq =>
      (h q (List.mem_cons_of_mem _ hq)).of_isSome (by rw [Option.isSome_map]; exact id)
    rw [updateAll, updateEntry_eq (h _ List.mem_cons_self)]
    dsimp only
    rw [ih hre, List.flatMap_cons, KeyMap.writeAll_append, List.map_cons, List.map_cons,
      List.append_assoc]
    rfl

/-! ## A chunk -/

variable {sm : FileStateMachine} {chunk : List ApplyEntry}

/-- The machine behind the update of the values. -/
theorem updateChunk_eq (hre : ∀ e ∈ chunk, Registers sm.lease e) (registeredAt : Nat → Nat) :
    sm.updateChunk registeredAt chunk (serialRun withTerm Prod.fst sm.data chunk).1 =
      .ok (List.zipWith entryResult chunk (serialRun withTerm Prod.fst sm.data chunk).1,
        { sm with
          data := (serialRun withTerm Prod.fst sm.data chunk).2
          lease := leaseAfter registeredAt sm.lease chunk }) := by
  have hpa : ∀ p ∈ chunk.zip (serialRun withTerm Prod.fst sm.data chunk).1,
      Registers sm.lease p.1 := fun p hp => hre p.1 (List.of_mem_zip hp).1
  have hlen : chunk.length ≤ (serialRun withTerm Prod.fst sm.data chunk).1.length :=
    (length_serial sm.data chunk).ge
  unfold updateChunk
  rw [updateAll_eq (u := ⟨sm.data, sm.lease, []⟩) hpa, List.map_fst_zip hlen, serial_writes]
  simp only [List.nil_append, List.map_zip_eq_zipWith]
  rfl

theorem finishChunk_data (sinceCheckpointSecs : Nat) (highest : Option LogId) (chunkLen : Nat) :
    (sm.finishChunk sinceCheckpointSecs highest chunkLen).1.data = sm.data := by
  unfold finishChunk
  cases highest <;> dsimp only <;> split_ifs <;> rfl

theorem finishChunk_lease (sinceCheckpointSecs : Nat) (highest : Option LogId) (chunkLen : Nat) :
    (sm.finishChunk sinceCheckpointSecs highest chunkLen).1.lease = sm.lease := by
  unfold finishChunk
  cases highest <;> dsimp only <;> split_ifs <;> rfl

theorem finishChunk_lastApplied (sinceCheckpointSecs : Nat) (highest : Option LogId)
    (chunkLen : Nat) :
    (sm.finishChunk sinceCheckpointSecs highest chunkLen).1.lastApplied =
      highest.getD sm.lastApplied := by
  unfold finishChunk
  cases highest <;> dsimp only <;> split_ifs <;> rfl

/-- A chunk writes nothing but the log, unless it takes a checkpoint of what it leaves. -/
theorem finishChunk_writes (sinceCheckpointSecs : Nat) (highest : Option LogId) (chunkLen : Nat) :
    (sm.finishChunk sinceCheckpointSecs highest chunkLen).2 = [] ∨
      (sm.finishChunk sinceCheckpointSecs highest chunkLen).2 =
        (sm.finishChunk sinceCheckpointSecs highest chunkLen).1.checkpoint.2 := by
  unfold finishChunk
  dsimp only
  split_ifs
  · exact .inr rfl
  · exact .inl rfl

/-- The machine behind the update of the values of a chunk. -/
def updated (sm : FileStateMachine) (registeredAt : Nat → Nat) (chunk : List ApplyEntry) :
    FileStateMachine :=
  { sm with
    data := (serialRun withTerm Prod.fst sm.data chunk).2
    lease := leaseAfter registeredAt sm.lease chunk }

/-- What a chunk with increasing indexes does. -/
theorem applyChunk_eq (hasc : chunk.Pairwise fun a b => a.index < b.index)
    (hre : ∀ e ∈ chunk, Registers sm.lease e) (clock : ApplyClock) :
    sm.applyChunk clock chunk =
      let finished := (sm.updated clock.registeredAt chunk).finishChunk clock.sinceCheckpointSecs
        (highestAfter none chunk) chunk.length
      .ok (List.zipWith entryResult chunk (serialRun withTerm Prod.fst sm.data chunk).1, finished.1,
        walAppend (sm.evaluateChunk clock.encodedAt chunk).2 ++ finished.2) := by
  unfold applyChunk
  rw [foldlM_nextHighest hasc (by simp)]
  dsimp only
  rw [evaluateChunk_outcomes, updateChunk_eq hre]
  rfl

/-! ## A sequence of chunks -/

/-- Apply chunks one after the other. -/
def applyChunks (sm : FileStateMachine) : List (ApplyClock × List ApplyEntry) →
    Except Fault (List ApplyResult × FileStateMachine × List DiskWrite)
  | [] => .ok ([], sm, [])
  | (clock, chunk) :: rest =>
    match sm.applyChunk clock chunk with
    | .error fault => .error fault
    | .ok (results, next, writes) =>
      match applyChunks next rest with
      | .error fault => .error fault
      | .ok (laterResults, last, laterWrites) =>
        .ok (results ++ laterResults, last, writes ++ laterWrites)

/-- The interpreter that the machine stands for. -/
def interpreter (sm : FileStateMachine) : Interpreter := ⟨sm.values, sm.lastApplied⟩

theorem entryWrites_mapValues (entry : ApplyEntry) (casSuccess : Bool) :
    entryWrites (fun _ v => v) entry casSuccess =
      (entryWrites withTerm entry casSuccess).map fun w => (w.1, w.2.map Prod.fst) := by
  obtain ⟨index, term, command⟩ := entry
  cases command with
  | noop | insert key value ttlSecs | delete key => rfl
  | compareAndSwap => cases casSuccess <;> rfl
  | batch =>
    simp only [entryWrites, List.map_map]
    refine List.map_congr_left fun op _ => ?_
    cases op <;> rfl

theorem casSucceeds_mapValues (entry : ApplyEntry) (current : Bytes → Option (Bytes × Nat)) :
    casSucceeds id entry (fun k => (current k).map Prod.fst) =
      casSucceeds Prod.fst entry current := by
  obtain ⟨index, term, command⟩ := entry
  cases command with
  | compareAndSwap => simp only [casSucceeds, Option.map_id_fun, id_eq]
  | _ => rfl

/-- Without the terms, the serial run is the one of the interpreter. -/
theorem serialRun_values (data : FileData) (entries : List ApplyEntry) :
    serialRun (fun _ v => v) id (data.mapValues Prod.fst) entries =
      ((serialRun withTerm Prod.fst data entries).1,
        (serialRun withTerm Prod.fst data entries).2.mapValues Prod.fst) :=
  serial_mapValues casSucceeds_mapValues entryWrites_mapValues data entries

theorem interpreter_run (sm : FileStateMachine) (entries : List ApplyEntry) :
    sm.interpreter.run entries =
      (List.zipWith entryResult entries (serialRun withTerm Prod.fst sm.data entries).1,
        ⟨(serialRun withTerm Prod.fst sm.data entries).2.mapValues Prod.fst,
          lastLogId sm.lastApplied entries⟩) := by
  rw [Interpreter.run_eq, interpreter, values, serialRun_values]

/-- A chunk is executed as by the interpreter. -/
theorem applyChunk_refines (hasc : chunk.Pairwise fun a b => a.index < b.index)
    (hre : ∀ e ∈ chunk, Registers sm.lease e) (clock : ApplyClock) :
    ∃ sm' writes, sm.applyChunk clock chunk = .ok ((sm.interpreter.run chunk).1, sm', writes) ∧
      sm'.interpreter = (sm.interpreter.run chunk).2 ∧ sm'.lease.isSome = sm.lease.isSome := by
  have hch := applyChunk_eq hasc hre clock
  rw [interpreter_run]
  refine ⟨_, _, hch, ?_, ?_⟩
  · simp only [interpreter, values, finishChunk_data, finishChunk_lastApplied, highestAfter_getD]
    rfl
  · rw [finishChunk_lease]
    exact isSome_leaseAfter clock.registeredAt sm.lease chunk

/-- Chunks are executed as by the interpreter, whichever way the entries are divided. -/
theorem applyChunks_refines {chunks : List (ApplyClock × List ApplyEntry)}
    (hasc : (chunks.flatMap Prod.snd).Pairwise fun a b => a.index < b.index)
    (hre : ∀ e ∈ chunks.flatMap Prod.snd, Registers sm.lease e) :
    ∃ sm' writes,
      sm.applyChunks chunks =
        .ok ((sm.interpreter.run (chunks.flatMap Prod.snd)).1, sm', writes) ∧
      sm'.interpreter = (sm.interpreter.run (chunks.flatMap Prod.snd)).2 := by
  induction chunks generalizing sm with
  | nil => exact ⟨sm, [], rfl, rfl⟩
  | cons head rest ih =>
    obtain ⟨clock, chunk⟩ := head
    rw [List.flatMap_cons] at hasc hre ⊢
    obtain ⟨hfi, hrs, _⟩ := List.pairwise_append.mp hasc
    obtain ⟨next, writes, hch, hnx, hls⟩ := applyChunk_refines hfi
      (fun e he => hre e (List.mem_append_left _ he)) clock
    have hlr : ∀ e ∈ rest.flatMap Prod.snd, Registers next.lease e := fun e he =>
      (hre e (List.mem_append_right _ he)).of_isSome (by rw [hls]; exact id)
    obtain ⟨last, laterWrites, hcn, hla⟩ := ih hrs hlr
    refine ⟨last, writes ++ laterWrites, ?_, ?_⟩
    · rw [applyChunks, hch, Interpreter.run_append, ← hnx]
      dsimp only
      rw [hcn]
    · rw [hla, hnx, Interpreter.run_append]

end FileStateMachine

end DEngine.Adaptors

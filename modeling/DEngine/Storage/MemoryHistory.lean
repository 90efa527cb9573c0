import DEngine.Storage.TermIndex

/-!
# Histories of the in-memory log

The memory of the log is changed in four ways: entries are inserted behind its last
index, a conflicting suffix or a purged prefix is removed, and a reset clears it. In
whatever order, the bounds and the first and last index of each term are exact. The
term cache never forgets a segment before a reset, yet it answers for every stored
entry as long as each archived segment found a slot. Behind that it does not fall
back to the entries: a lookup below the newest segment leaves the arrays.
-/

namespace DEngine.Storage

open Library BufferedRaftLog

inductive MemoryOp where
  | append (entries : List Entry)
  /-- Remove the entries from an index on. -/
  | truncate (start : Nat)
  | purge (cutoff : LogId)
  | reset

/-- One operation. Entries are appended at the end, and below the index whose successor
is no index any more. -/
def MemoryOp.run (log : BufferedRaftLog) : MemoryOp → Option BufferedRaftLog
  | .append entries =>
    if Batch entries ∧ ∀ e ∈ entries, log.maxIndex < e.index ∧ e.index < u64Max then
      some (log.insertToMemory entries)
    else none
  | .truncate start => some (log.removeRange start u64Max)
  | .purge cutoff => some (log.purgePrefix cutoff)
  | .reset => some (log.reset (.ok ())).2

def memoryOps : Machine BufferedRaftLog MemoryOp where
  init := fun log => log = new 0 [] none
  step := MemoryOp.run

namespace BufferedRaftLog

/-- The fields beside the entries are exact, up to a lookup in full segment arrays. -/
structure Mirrored (log : BufferedRaftLog) : Prop where
  wellFormed : log.WellFormed
  termIndexed : log.TermIndexed
  finds : ∀ i e, log.entry i = some e → log.termSegments.Finds i e.term

variable {log : BufferedRaftLog}

theorem Mirrored.append (h : log.Mirrored) {es : List Entry} (hes : Batch es)
    (hab : ∀ e ∈ es, log.maxIndex < e.index) : (log.insertToMemory es).Mirrored where
  wellFormed := h.wellFormed.insertToMemory hes hab
  termIndexed := h.termIndexed.insertToMemory h.wellFormed hes hab
  finds := by
    refine forall_entry_insertToMemory hes ?_ ?_
    · exact fun e he => TermSegments.finds_onAppend hes.term_pos hes.ascending he
    · intro i e he
      exact (h.finds i e he).onAppend h.wellFormed.fresh hes.term_pos fun x hx =>
        (h.wellFormed.le_max i e he).trans_lt (hab x hx)

/-- Removing entries leaves the segments as they are, also those of removed entries. -/
theorem Mirrored.removeRange (h : log.Mirrored) (lo hi : Nat) :
    (log.removeRange lo hi).Mirrored where
  wellFormed := h.wellFormed.removeRange lo hi
  termIndexed := h.termIndexed.removeRange lo hi
  finds := fun i e he => h.finds i e (entry_of_entry_removeRange he).2

/-- The term of a stored entry is looked up in the cache alone. -/
theorem Mirrored.entryTerm (h : log.Mirrored) {i : Nat} {e : Entry} (he : log.entry i = some e) :
    log.entryTerm i = log.termSegments.get i := by
  have hwe := h.wellFormed
  have hin : ¬ (log.maxIndex = 0 ∨ i < log.minIndex ∨ log.maxIndex < i) := by
    have h1 := hwe.max_ne_zero he
    have h2 := hwe.min_le i e he
    have h3 := hwe.le_max i e he
    omega
  rw [BufferedRaftLog.entryTerm, if_neg hin]
  rcases h.finds i e he with hok | ⟨-, fault, herr⟩
  · rw [hok]
  · rw [herr]

end BufferedRaftLog

variable {log : BufferedRaftLog}

theorem mirrored_of_reach (h : memoryOps.Reach (fun _ _ => True) log) : log.Mirrored := by
  refine h.invariant ?_ ?_
  · rintro _ rfl
    exact ⟨wellFormed_new none Batch.nil (by simp), termIndexed_new none Batch.nil,
      fun i e he => by simp [entry_new, PartialLog.ofList] at he⟩
  · intro s op t hs _ hst
    cases op with
    | append =>
      change (if _ then _ else _) = _ at hst
      split_ifs at hst with hco
      cases hst
      exact hs.append hco.1 fun e he => (hco.2 e he).1
    | truncate start =>
      cases hst
      exact hs.removeRange start u64Max
    | purge cutoff =>
      cases hst
      have hre := hs.removeRange 0 cutoff.index
      exact ⟨hs.wellFormed.purgePrefix cutoff, hre.termIndexed.of_same rfl rfl rfl, hre.finds⟩
    | reset =>
      cases hst
      exact ⟨wellFormed_reset _ s, termIndexed_reset _ s, fun i e he => by simp at he⟩

/-! ## The tables and the bounds -/

/-- The first and the last index of each term are the smallest and the largest index of its
stored entries, and the bounds are those of all stored entries. -/
theorem term_index_and_bounds_exact (h : memoryOps.Reach (fun _ _ => True) log) :
    (∀ term, Records IsLeast (log.indexesOf term) (log.firstIndexForTerm term) ∧
      Records IsGreatest (log.indexesOf term) (log.lastIndexForTerm term)) ∧
    ((∀ i, log.entry i = none) → log.minIndex = 0 ∧ log.maxIndex = 0) ∧
    ∀ i e, log.entry i = some e → IsLeast {i | ∃ e, log.entry i = some e} log.minIndex ∧
      IsGreatest {i | ∃ e, log.entry i = some e} log.maxIndex := by
  obtain ⟨hwe, hti, -⟩ := mirrored_of_reach h
  refine ⟨fun term => ⟨hti.firsts term, hti.lasts term⟩, fun hno => ?_, fun i e he => ?_⟩
  · have hze : log.maxIndex = 0 := by
      by_contra hne
      obtain ⟨e, he⟩ := hwe.max_held hne
      cases (hno _).symm.trans he
    exact ⟨hwe.min_zero hze, hze⟩
  · have hne := hwe.max_ne_zero he
    exact ⟨⟨hwe.min_held hne, fun _ ⟨e, he⟩ => hwe.min_le _ e he⟩,
      hwe.max_held hne, fun _ ⟨e, he⟩ => hwe.le_max _ e he⟩

/-- Three entries, of which the last is truncated and the first purged. -/
theorem term_index_after_truncation :
    ∃ log, memoryOps.Reach (fun _ _ => True) log ∧ log.firstIndexForTerm 1 = some 2 ∧
      Records IsLeast (log.indexesOf 1) (log.firstIndexForTerm 1) :=
  Machine.exists_reach_and_of_runIf
    [.append [⟨1, 1, none⟩, ⟨2, 1, none⟩, ⟨3, 2, none⟩], .truncate 3, .purge ⟨1, 1⟩]
    rfl (by decide +kernel) fun _ h => ((term_index_and_bounds_exact h).1 1).1

/-! ## The term cache -/

/-- While every archived segment has a slot, the cache answers for each stored entry. -/
theorem get_stored_term (h : memoryOps.Reach (fun _ _ => True) log)
    (hro : log.termSegments.segCount ≤ maxTermSegments) {i : Nat} {e : Entry}
    (he : log.entry i = some e) : log.termSegments.get i = .ok (some e.term) :=
  ((mirrored_of_reach h).finds i e he).resolve_right fun hov => absurd hov.1 (not_lt.mpr hro)

/-- A suffix that is replaced by entries of a lower term leaves two stale segments. -/
theorem get_after_lower_term :
    ∃ log, memoryOps.Reach (fun _ _ => True) log ∧
      (log.termSegments.segCount = 3 ∧ log.entry 3 = some ⟨3, 2, none⟩) ∧
      log.termSegments.get 3 = .ok (some 2) := by
  obtain ⟨log, hre, hse, hen⟩ : ∃ log, memoryOps.Reach (fun _ _ => True) log ∧
      (log.termSegments.segCount = 3 ∧ log.entry 3 = some ⟨3, 2, none⟩) :=
    Machine.exists_reach_of_runIf [.append [⟨1, 1, none⟩, ⟨2, 3, none⟩, ⟨3, 3, none⟩], .truncate 2,
      .append [⟨2, 2, none⟩, ⟨3, 2, none⟩, ⟨4, 5, none⟩]] rfl (by decide +kernel)
  exact ⟨log, hre, ⟨hse, hen⟩, get_stored_term hre (by rw [hse]; decide) hen⟩

/-- Every stored entry is looked up with its term exactly if the log is empty, each archived
segment has a slot, or the whole log lies in the newest segment. -/
theorem lookups_survive_overflow_iff (h : memoryOps.Reach (fun _ _ => True) log) :
    (∀ i e, log.entry i = some e → log.entryTerm i = .ok (some e.term)) ↔
      log.maxIndex = 0 ∨ log.termSegments.segCount ≤ maxTermSegments ∨
        log.termSegments.lastTermStart ≤ log.minIndex := by
  have hmi := mirrored_of_reach h
  constructor
  · intro hall
    by_cases hz : log.maxIndex = 0
    · exact .inl hz
    · obtain ⟨e, he⟩ := hmi.wellFormed.min_held hz
      have hget := (hmi.entryTerm he).symm.trans (hall _ e he)
      unfold TermSegments.get at hget
      split_ifs at hget with hze hst hfu
      · cases hget
      · exact .inr (.inr hst)
      · exact .inr (.inl (not_lt.mp hfu))
  · intro hco i e he
    rw [hmi.entryTerm he]
    refine (hmi.finds i e he).resolve_right ?_
    rintro ⟨hfu, fault, herr⟩
    have hst : log.termSegments.lastTermStart ≤ i := by
      have h1 := hmi.wellFormed.max_ne_zero he
      have h2 := hmi.wellFormed.min_le i e he
      omega
    simp only [TermSegments.get, if_pos hst] at herr
    split_ifs at herr

/-- Two terms fit into the arrays. -/
theorem lookups_with_slots :
    ∃ log, memoryOps.Reach (fun _ _ => True) log ∧ log.termSegments.segCount = 1 ∧
      ∀ i e, log.entry i = some e → log.entryTerm i = .ok (some e.term) := by
  obtain ⟨log, hre, hse⟩ : ∃ log, memoryOps.Reach (fun _ _ => True) log ∧
      log.termSegments.segCount = 1 := Machine.exists_reach_of_runIf
    [.append [⟨1, 1, none⟩, ⟨2, 2, none⟩]] rfl (by decide +kernel)
  exact ⟨log, hre, hse, (lookups_survive_overflow_iff hre).mpr (.inr (.inl (by rw [hse]; decide)))⟩

/-- One entry in each of the terms up to `n`. -/
def oneEntryPerTerm (n : Nat) : List Entry := (List.range' 1 n).map fun i => ⟨i, i, none⟩

theorem mem_oneEntryPerTerm {n : Nat} {e : Entry} :
    e ∈ oneEntryPerTerm n ↔ (1 ≤ e.index ∧ e.index ≤ n) ∧ e = ⟨e.index, e.index, none⟩ := by
  unfold oneEntryPerTerm
  rw [List.mem_map]
  constructor
  · rintro ⟨i, hi, rfl⟩
    rw [List.mem_range'_1] at hi
    exact ⟨⟨hi.1, (by omega : i ≤ n)⟩, rfl⟩
  · rintro ⟨hi, heq⟩
    exact ⟨e.index, List.mem_range'_1.mpr ⟨hi.1, by omega⟩, heq.symm⟩

theorem batch_oneEntryPerTerm {n : Nat} (hn : n ≤ u64Max) : Batch (oneEntryPerTerm n) where
  ascending := List.pairwise_map.mpr List.pairwise_lt_range'
  index_pos := fun _ he => (mem_oneEntryPerTerm.mp he).1.1
  index_le := fun _ he => (mem_oneEntryPerTerm.mp he).1.2.trans hn
  term_pos := fun e he => by
    obtain ⟨⟨hpos, -⟩, heq⟩ := mem_oneEntryPerTerm.mp he
    rw [heq]
    exact hpos

theorem reach_oneEntryPerTerm {n : Nat} (hn : n < u64Max) :
    memoryOps.Reach (fun _ _ => True) ((new 0 [] none).insertToMemory (oneEntryPerTerm n)) := by
  refine ⟨_, rfl, .single ⟨.append (oneEntryPerTerm n), trivial,
    if_pos ⟨batch_oneEntryPerTerm hn.le, fun e he => ?_⟩⟩⟩
  obtain ⟨⟨hpos, hle⟩, -⟩ := mem_oneEntryPerTerm.mp he
  exact ⟨hpos, hle.trans_lt hn⟩

/-- The first entry is looked up in the cache. -/
theorem first_oneEntryPerTerm {n : Nat} (hpos : 1 ≤ n) (hn : n < u64Max) :
    ((new 0 [] none).insertToMemory (oneEntryPerTerm n)).entry 1 = some ⟨1, 1, none⟩ ∧
    ((new 0 [] none).insertToMemory (oneEntryPerTerm n)).entryTerm 1 =
      (TermSegments.new.onAppend (oneEntryPerTerm n)).get 1 := by
  have he : ((new 0 [] none).insertToMemory (oneEntryPerTerm n)).entry 1 = some ⟨1, 1, none⟩ :=
    entry_insertToMemory_of_mem (batch_oneEntryPerTerm hn.le)
      (mem_oneEntryPerTerm.mpr ⟨⟨le_rfl, hpos⟩, (rfl : (⟨1, 1, none⟩ : Entry) = _)⟩)
  exact ⟨he, (mirrored_of_reach (reach_oneEntryPerTerm hn)).entryTerm he⟩

/-- Behind 1026 terms the first entry cannot be looked up. -/
theorem lookup_panics_behind_full_arrays :
    ∃ log, memoryOps.Reach (fun _ _ => True) log ∧ log.entry 1 = some ⟨1, 1, none⟩ ∧
      log.entryTerm 1 = .error (.panic "index out of bounds: the len is 1024") := by
  have hfi := first_oneEntryPerTerm (n := 1026) (by decide) (by decide)
  exact ⟨_, reach_oneEntryPerTerm (by decide), hfi.1, hfi.2.trans (by decide +kernel)⟩

end DEngine.Storage

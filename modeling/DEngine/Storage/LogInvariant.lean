import DEngine.Library.PartialLog
import DEngine.Storage.BufferedRaftLog

/-!
# The invariant of the in-memory log

The redundant fields of the buffered log (bounds, next identifier, term
boundary index) agree with the entries it holds. The invariant does not ask
for contiguous indexes: a log may hold gaps, and the operations below keep
them apart from the purge boundary.
-/

namespace DEngine.Storage

open Library OrderedMap

/-- Entries as one request or one allocation carries them: ascending indexes
within the range of the index type, and positive terms. -/
@[mk_iff]
structure Batch (entries : List Entry) : Prop where
  ascending : entries.Pairwise fun a b => a.index < b.index
  index_pos : ∀ e ∈ entries, 1 ≤ e.index
  index_le : ∀ e ∈ entries, e.index ≤ u64Max
  term_pos : ∀ e ∈ entries, 1 ≤ e.term

instance (entries : List Entry) : Decidable (Batch entries) :=
  decidable_of_iff' _ (batch_iff entries)

namespace Batch

theorem nil : Batch [] where
  ascending := List.Pairwise.nil
  index_pos := by simp
  index_le := by simp
  term_pos := by simp

theorem sublist {es es' : List Entry} (h : Batch es) (hsub : es'.Sublist es) : Batch es' where
  ascending := h.ascending.sublist hsub
  index_pos := fun e he => h.index_pos e (hsub.subset he)
  index_le := fun e he => h.index_le e (hsub.subset he)
  term_pos := fun e he => h.term_pos e (hsub.subset he)

/-- The last entry of a batch has the largest index. -/
theorem index_le_getLast {es : List Entry} (h : Batch es) {last : Entry}
    (hla : es.getLast? = some last) {e : Entry} (he : e ∈ es) : e.index ≤ last.index := by
  obtain ⟨front, rfl⟩ := List.getLast?_eq_some_iff.mp hla
  rcases List.mem_append.mp he with hfr | hend
  · exact le_of_lt ((List.pairwise_append.mp h.ascending).2.2 e hfr last (by simp))
  · rw [List.mem_singleton.mp hend]

/-- The first entry of a batch has the smallest index. -/
theorem head_index_le {es : List Entry} (h : Batch es) {first : Entry}
    (hfi : es.head? = some first) {e : Entry} (he : e ∈ es) : first.index ≤ e.index := by
  obtain ⟨rest, rfl⟩ := List.head?_eq_some_iff.mp hfi
  rcases List.mem_cons.mp he with rfl | hre
  · exact le_rfl
  · exact le_of_lt ((List.pairwise_cons.mp h.ascending).1 e hre)

end Batch

namespace BufferedRaftLog

/-- The fields beside the entries describe the entries. -/
structure WellFormed (log : BufferedRaftLog) : Prop where
  entry_index : ∀ i e, log.entry i = some e → e.index = i
  index_pos : ∀ i e, log.entry i = some e → 1 ≤ i
  term_pos : ∀ i e, log.entry i = some e → 1 ≤ e.term
  min_le : ∀ i e, log.entry i = some e → log.minIndex ≤ i
  le_max : ∀ i e, log.entry i = some e → i ≤ log.maxIndex
  min_held : log.maxIndex ≠ 0 → ∃ e, log.entry log.minIndex = some e
  max_held : log.maxIndex ≠ 0 → ∃ e, log.entry log.maxIndex = some e
  min_zero : log.maxIndex = 0 → log.minIndex = 0
  max_lt_next : log.maxIndex < log.nextId
  max_le : log.maxIndex ≤ u64Max
  fresh : log.termSegments.Fresh
  answers : ∀ i e, log.entry i = some e → log.termSegments.Answers i e.term

namespace WellFormed

variable {log : BufferedRaftLog}

variable {i : Nat}

theorem max_ne_zero (h : log.WellFormed) {e : Entry} (he : log.entry i = some e) :
    log.maxIndex ≠ 0 := by
  have hpos := h.index_pos i e he
  have hmax := h.le_max i e he
  omega

theorem entry_none_of_max_lt (h : log.WellFormed) (hi : log.maxIndex < i) : log.entry i = none := by
  cases he : log.entry i with
  | none => rfl
  | some e =>
    have := h.le_max i e he
    omega

/-- The term recorded for a held index is the term of its entry. -/
theorem entryTerm_of_entry (h : log.WellFormed) {e : Entry}
    (he : log.entry i = some e) {t : Option Nat} (ht : log.entryTerm i = .ok t) :
    t = some e.term := by
  have hin : ¬ (log.maxIndex = 0 ∨ i < log.minIndex ∨ log.maxIndex < i) := by
    have h1 := h.max_ne_zero he
    have h2 := h.min_le i e he
    have h3 := h.le_max i e he
    omega
  rw [entryTerm, if_neg hin] at ht
  cases hget : log.termSegments.get i with
  | error => simp [hget] at ht
  | ok answer =>
    cases answer with
    | none =>
      simp only [hget, he, Option.map_some, Except.ok.injEq] at ht
      exact ht.symm
    | some term =>
      simp only [hget, Except.ok.injEq] at ht
      rw [← ht, h.answers i e he term hget]

end WellFormed

/-! ## Lookups after an update -/

variable {es : List Entry} {log : BufferedRaftLog}

theorem entry_insertToMemory_of_mem (hes : Batch es)
    {e : Entry} (he : e ∈ es) : (log.insertToMemory es).entry e.index = some e :=
  getElem?_insertBy_of_mem Entry.index log.entries es hes.ascending e he

theorem entry_insertToMemory_of_not_mem {i : Nat}
    (hi : ∀ e ∈ es, e.index ≠ i) : (log.insertToMemory es).entry i = log.entry i :=
  getElem?_insertBy_of_not_mem Entry.index log.entries es i hi

/-- What holds of the entries of a batch and of the held entries holds of every entry behind
the insertion. -/
theorem forall_entry_insertToMemory (hes : Batch es)
    {P : Nat → Entry → Prop} (hnew : ∀ e ∈ es, P e.index e)
    (hold : ∀ i e, log.entry i = some e → P i e) :
    ∀ i e, (log.insertToMemory es).entry i = some e → P i e := by
  intro i e he
  by_cases hmem : ∃ x ∈ es, x.index = i
  · obtain ⟨x, hx, rfl⟩ := hmem
    rw [entry_insertToMemory_of_mem hes hx] at he
    cases he
    exact hnew _ hx
  · have hnot : ∀ x ∈ es, x.index ≠ i := fun x hx hxi => hmem ⟨x, hx, hxi⟩
    rw [entry_insertToMemory_of_not_mem hnot] at he
    exact hold i e he

theorem entry_removeRange (log : BufferedRaftLog) (lo hi i : Nat) :
    (log.removeRange lo hi).entry i = if lo ≤ i ∧ i ≤ hi then none else log.entry i :=
  getElem?_eraseRange log.entries lo hi i

@[simp] theorem entry_reset (io : Except Fault Unit) (log : BufferedRaftLog) (i : Nat) :
    (log.reset io).2.entry i = none := by
  change (∅ : OrderedMap Entry)[i]? = none
  simp

/-! ## Bounds after an update -/

theorem maxIndex_insertToMemory {last : Entry}
    (hla : es.getLast? = some last) (hlt : log.maxIndex < last.index) :
    (log.insertToMemory es).maxIndex = last.index := by
  simp [insertToMemory, hla, hlt]

theorem maxIndex_lt_nextId_insertToMemory (h : log.maxIndex < log.nextId) :
    (log.insertToMemory es).maxIndex < (log.insertToMemory es).nextId := by
  have hnx : ∀ e ∈ es, e.index < (log.insertToMemory es).nextId := by
    intro e he
    have hle : e.index ≤ (es.map Entry.index).max?.getD 0 :=
      List.le_max?_getD_of_mem (List.mem_map_of_mem he)
    simp only [insertToMemory]
    split_ifs <;> omega
  have hke : log.nextId ≤ (log.insertToMemory es).nextId := by
    simp only [insertToMemory]
    split_ifs <;> omega
  cases hla : es.getLast? with
  | none =>
    have : (log.insertToMemory es).maxIndex = log.maxIndex := by simp [insertToMemory, hla]
    omega
  | some last =>
    have hmem := hnx last (List.mem_of_getLast? hla)
    have : (log.insertToMemory es).maxIndex = max log.maxIndex last.index := by
      simp only [insertToMemory, hla]
      split_ifs <;> omega
    omega

theorem WellFormed.minIndex_le_maxIndex (h : log.WellFormed) : log.minIndex ≤ log.maxIndex := by
  by_cases hz : log.maxIndex = 0
  · exact le_of_eq (h.min_zero hz |>.trans hz.symm)
  · obtain ⟨e, he⟩ := h.max_held hz
    exact h.min_le _ e he

theorem WellFormed.minIndex_eq_zero_iff (h : log.WellFormed) :
    log.minIndex = 0 ↔ log.maxIndex = 0 := by
  refine ⟨fun hz => ?_, h.min_zero⟩
  by_contra hne
  obtain ⟨e, he⟩ := h.min_held hne
  have := h.index_pos _ e he
  omega

theorem WellFormed.minIndex_insertToMemory (h : log.WellFormed)
    {first : Entry} (hfi : es.head? = some first) (hlt : log.maxIndex < first.index) :
    (log.insertToMemory es).minIndex =
      if log.maxIndex = 0 then first.index else log.minIndex := by
  have hle := h.minIndex_le_maxIndex
  have hze := h.minIndex_eq_zero_iff
  simp only [BufferedRaftLog.insertToMemory, hfi]
  split_ifs <;> omega

theorem WellFormed.insertToMemory_nil (h : log.WellFormed) : log.insertToMemory [] = log := by
  have hne : log.nextId ≠ 0 := by
    have := h.max_lt_next
    omega
  simp [BufferedRaftLog.insertToMemory, updateTermIndexes, insertBy,
    TermSegments.onAppend, hne]

/-- Appending a batch above every held index keeps the log well formed. -/
theorem WellFormed.insertToMemory (h : log.WellFormed)
    (hes : Batch es) (hab : ∀ e ∈ es, log.maxIndex < e.index) :
    (log.insertToMemory es).WellFormed := by
  cases hla : es.getLast? with
  | none =>
    have hnil : es = [] := List.getLast?_eq_none_iff.mp hla
    rw [hnil, h.insertToMemory_nil]
    exact h
  | some last =>
    have hmem : last ∈ es := List.mem_of_getLast? hla
    have hmax := maxIndex_insertToMemory hla (hab last hmem)
    obtain ⟨first, hfi⟩ : ∃ first, es.head? = some first := by
      cases es with
      | nil => simp at hmem
      | cons a => exact ⟨a, rfl⟩
    have hfm : first ∈ es := List.mem_of_head? hfi
    have hmin := h.minIndex_insertToMemory hfi (hab first hfm)
    exact {
      entry_index := forall_entry_insertToMemory hes (fun _ _ => rfl) h.entry_index
      index_pos := forall_entry_insertToMemory hes hes.index_pos h.index_pos
      term_pos := forall_entry_insertToMemory hes hes.term_pos h.term_pos
      min_le := by
        rw [hmin]
        refine forall_entry_insertToMemory hes ?_ ?_
        · intro e he
          have hf := hes.head_index_le hfi he
          have hle := h.minIndex_le_maxIndex
          have hgt := hab e he
          split_ifs <;> omega
        · intro i e he
          rw [if_neg (h.max_ne_zero he)]
          exact h.min_le i e he
      le_max := by
        rw [hmax]
        refine forall_entry_insertToMemory hes ?_ ?_
        · exact fun e he => hes.index_le_getLast hla he
        · exact fun i e he => (h.le_max i e he).trans (hab last hmem).le
      min_held := by
        intro _
        rw [hmin]
        by_cases hz : log.maxIndex = 0
        · rw [if_pos hz]
          exact ⟨first, entry_insertToMemory_of_mem hes hfm⟩
        · rw [if_neg hz]
          obtain ⟨e, he⟩ := h.min_held hz
          have hle := h.le_max _ e he
          refine ⟨e, ?_⟩
          rw [entry_insertToMemory_of_not_mem, he]
          intro x hx hxi
          have := hab x hx
          omega
      max_held := by
        intro _
        rw [hmax]
        exact ⟨last, entry_insertToMemory_of_mem hes hmem⟩
      min_zero := by
        intro hz
        have := hes.index_pos last hmem
        omega
      max_lt_next := maxIndex_lt_nextId_insertToMemory h.max_lt_next
      max_le := by
        rw [hmax]
        exact hes.index_le last hmem
      fresh := TermSegments.fresh_onAppend h.fresh hes.term_pos
      answers := by
        refine forall_entry_insertToMemory hes ?_ ?_
        · exact fun e he => (TermSegments.finds_onAppend hes.term_pos hes.ascending he).answers
        · intro i e he
          refine (h.answers i e he).onAppend h.fresh hes.term_pos fun x hx => ?_
          have hle := h.le_max i e he
          have hgt := hab x hx
          omega }

theorem entry_of_entry_removeRange {lo hi i : Nat} {e : Entry}
    (he : (log.removeRange lo hi).entry i = some e) :
    ¬ (lo ≤ i ∧ i ≤ hi) ∧ log.entry i = some e := by
  rw [entry_removeRange] at he
  split_ifs at he with hin
  exact ⟨hin, he⟩

/-- The bounds that are read off a map of entries with positive keys. -/
theorem bounds_of_keys (m : OrderedMap Entry) (hpos : ∀ i e, m[i]? = some e → 1 ≤ i) :
    (∀ i e, m[i]? = some e → m.firstKey.getD 0 ≤ i ∧ i ≤ m.lastKey.getD 0) ∧
    ((m.lastKey.getD 0 ≠ 0) → (∃ e, m[m.firstKey.getD 0]? = some e) ∧
      ∃ e, m[m.lastKey.getD 0]? = some e) ∧
    (m.lastKey.getD 0 = 0 → m.firstKey.getD 0 = 0) := by
  have hbo := firstKey_eq_none_iff m
  cases hfi : m.firstKey with
  | none =>
    have hem := getElem?_of_firstKey_none hfi
    have hla : m.lastKey = none := hbo.mp hfi
    simp [hem, hla]
  | some =>
    cases hla : m.lastKey with
    | none => simp [hbo.mpr hla] at hfi
    | some last =>
      obtain ⟨hfh, hfle⟩ := firstKey_spec hfi
      obtain ⟨hlh, hlle⟩ := lastKey_spec hla
      refine ⟨fun i e he => ⟨hfle i e he, hlle i e he⟩, fun _ => ⟨hfh, hlh⟩, ?_⟩
      intro hze
      obtain ⟨e, he⟩ := hlh
      have := hpos last e he
      simp only [Option.getD_some] at hze
      omega

/-- Removing any range of indexes keeps the log well formed. -/
theorem WellFormed.removeRange (h : log.WellFormed) (lo hi : Nat) :
    (log.removeRange lo hi).WellFormed := by
  have hpos : ∀ i e, (log.removeRange lo hi).entry i = some e → 1 ≤ i :=
    fun i e he => h.index_pos i e (entry_of_entry_removeRange he).2
  obtain ⟨hbo, hhe, hze⟩ := bounds_of_keys (log.entries.eraseRange lo hi) hpos
  have hmax_le : (log.removeRange lo hi).maxIndex ≤ log.maxIndex := by
    by_cases hz : (log.removeRange lo hi).maxIndex = 0
    · omega
    · obtain ⟨e, he⟩ := (hhe hz).2
      exact h.le_max _ e (entry_of_entry_removeRange he).2
  exact {
    entry_index := fun i e he => h.entry_index i e (entry_of_entry_removeRange he).2
    index_pos := hpos
    term_pos := fun i e he => h.term_pos i e (entry_of_entry_removeRange he).2
    min_le := fun i e he => (hbo i e he).1
    le_max := fun i e he => (hbo i e he).2
    min_held := fun hz => (hhe hz).1
    max_held := fun hz => (hhe hz).2
    min_zero := hze
    max_lt_next := lt_of_le_of_lt hmax_le h.max_lt_next
    max_le := le_trans hmax_le h.max_le
    fresh := h.fresh
    answers := fun i e he => h.answers i e (entry_of_entry_removeRange he).2 }

/-- Truncating from an index leaves only smaller indexes. -/
theorem WellFormed.maxIndex_truncate_lt (h : log.WellFormed) {start : Nat} (hst : 1 ≤ start) :
    (log.removeRange start u64Max).maxIndex < start := by
  by_cases hz : (log.removeRange start u64Max).maxIndex = 0
  · omega
  · obtain ⟨e, he⟩ := (h.removeRange start u64Max).max_held hz
    obtain ⟨hout, hold⟩ := entry_of_entry_removeRange he
    have hle := h.le_max _ e hold
    have hmax := h.max_le
    omega

/-- Well-formedness depends on the entries, the bounds, the term boundary index
and a lower bound of the next identifier only. -/
theorem WellFormed.of_same {log' : BufferedRaftLog} (h : log.WellFormed)
    (het : log'.entries = log.entries) (hmin : log'.minIndex = log.minIndex)
    (hmax : log'.maxIndex = log.maxIndex) (hseg : log'.termSegments = log.termSegments)
    (hnx : log.nextId ≤ log'.nextId) : log'.WellFormed := by
  have hen : log'.entry = log.entry := by
    funext i
    simp only [entry, het]
  constructor
  case max_lt_next => exact hmax ▸ lt_of_lt_of_le h.max_lt_next hnx
  all_goals
    simp only [hen, hmin, hmax, hseg]
  exacts [h.entry_index, h.index_pos, h.term_pos, h.min_le, h.le_max, h.min_held, h.max_held,
    h.min_zero, h.max_le, h.fresh, h.answers]

/-- A purge removes everything up to its cutoff, whatever becomes of it on disk. -/
theorem entry_purgeLogsUpTo (log : BufferedRaftLog) (io : Except Fault Unit) (cutoff : LogId)
    (i : Nat) : (log.purgeLogsUpTo io cutoff).2.entry i =
      if i ≤ cutoff.index then none else log.entry i := by
  change (log.removeRange 0 cutoff.index).entry i = _
  rw [entry_removeRange]
  simp only [Nat.zero_le, true_and]

theorem WellFormed.purgePrefix (h : log.WellFormed) (cutoff : LogId) :
    (log.purgePrefix cutoff).WellFormed :=
  (h.removeRange 0 cutoff.index).of_same rfl rfl rfl rfl le_rfl

theorem WellFormed.purgeLogsUpTo (h : log.WellFormed)
    (io : Except Fault Unit) (cutoff : LogId) : (log.purgeLogsUpTo io cutoff).2.WellFormed :=
  (h.purgePrefix cutoff).of_same rfl rfl rfl rfl le_rfl

theorem wellFormed_reset (io : Except Fault Unit) (log : BufferedRaftLog) :
    (log.reset io).2.WellFormed where
  entry_index := by simp
  index_pos := by simp
  term_pos := by simp
  min_le := by simp
  le_max := by simp
  min_held := fun h => absurd rfl h
  max_held := fun h => absurd rfl h
  min_zero := fun _ => rfl
  max_lt_next := by simp [reset]
  max_le := Nat.zero_le _
  fresh := TermSegments.fresh_clear log.termSegments
  answers := by simp

theorem WellFormed.preAllocateIdRange (h : log.WellFormed)
    (count : Nat) : (log.preAllocateIdRange count).2.WellFormed := by
  unfold BufferedRaftLog.preAllocateIdRange
  split_ifs
  · exact h
  · exact h
  · exact h.of_same rfl rfl rfl rfl (Nat.le_add_right _ _)

theorem preAllocateIdRange_ok {count : Nat} {range : Nat × Nat} {reserved : BufferedRaftLog}
    (hco : count ≠ 0) (h : log.preAllocateIdRange count = (.ok range, reserved)) :
    range = (log.nextId, log.nextId + count - 1) ∧ log.nextId ≤ u64Max - count ∧
      reserved = { log with nextId := log.nextId + count } := by
  rw [preAllocateIdRange, if_neg hco] at h
  split_ifs at h with hov <;> cases h
  exact ⟨rfl, Nat.le_of_not_lt hov, rfl⟩

/-- The log built at start holds the loaded entries. -/
theorem entry_new {diskLen : Nat} {loaded : List Entry} {boundary : Option LogId}
    (hlo : loaded.Pairwise fun a b => a.index < b.index) :
    (new diskLen loaded boundary).entry = PartialLog.ofList Entry.index loaded := by
  funext i
  cases hfo : PartialLog.ofList Entry.index loaded i with
  | none =>
    have hno : (new diskLen loaded boundary).entry i = (∅ : OrderedMap Entry)[i]? :=
      getElem?_insertBy_of_not_mem Entry.index ∅ loaded i
        (PartialLog.ofList_eq_none_iff.mp hfo)
    simp [hno]
  | some e =>
    obtain ⟨hmem, rfl⟩ := PartialLog.ofList_eq_some_imp hfo
    exact getElem?_insertBy_of_mem Entry.index ∅ loaded hlo e hmem

/-- The log built at start is well formed when the store returns a batch within its
own last index. -/
theorem wellFormed_new {diskLen : Nat} {loaded : List Entry} (boundary : Option LogId)
    (hlo : Batch loaded) (hlen : ∀ e ∈ loaded, e.index ≤ diskLen) :
    (new diskLen loaded boundary).WellFormed := by
  have hca : ∀ i e, (new diskLen loaded boundary).entry i = some e →
      e ∈ loaded ∧ e.index = i := by
    intro i e he
    rw [entry_new hlo.ascending] at he
    exact PartialLog.ofList_eq_some_imp he
  have hpos : ∀ i e, (new diskLen loaded boundary).entry i = some e → 1 ≤ i :=
    fun i e he => (hca i e he).2 ▸ hlo.index_pos e (hca i e he).1
  obtain ⟨hbo, hhe, hze⟩ := bounds_of_keys (new diskLen loaded boundary).entries hpos
  have hmax : ∀ n, (∀ e ∈ loaded, e.index ≤ n) →
      (new diskLen loaded boundary).maxIndex ≤ n := by
    intro n hn
    by_cases hz : (new diskLen loaded boundary).maxIndex = 0
    · omega
    · obtain ⟨e, he⟩ := (hhe hz).2
      obtain ⟨hmem, hi⟩ := hca _ e he
      exact le_of_eq_of_le hi.symm (hn e hmem)
  exact {
    entry_index := fun i e he => (hca i e he).2
    index_pos := hpos
    term_pos := fun i e he => hlo.term_pos e (hca i e he).1
    min_le := fun i e he => (hbo i e he).1
    le_max := fun i e he => (hbo i e he).2
    min_held := fun hz => (hhe hz).1
    max_held := fun hz => (hhe hz).2
    min_zero := hze
    max_lt_next := Nat.lt_succ_of_le (hmax diskLen hlen)
    max_le := hmax u64Max hlo.index_le
    fresh := TermSegments.fresh_onAppend TermSegments.fresh_new hlo.term_pos
    answers := fun i e he => (hca i e he).2 ▸
      (TermSegments.finds_onAppend hlo.term_pos hlo.ascending (hca i e he).1).answers }

end BufferedRaftLog

end DEngine.Storage

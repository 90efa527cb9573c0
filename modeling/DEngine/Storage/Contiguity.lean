import DEngine.Library.Transition
import DEngine.Storage.ConflictResolution
import Mathlib.Order.Interval.Set.OrdConnected

/-!
# Contiguous logs and the next identifier

The indexes that a log holds have no gap, they start behind the purge boundary,
and the next identifier follows the last position. The file follows these three
facts through every sequence of log operations. A truncation that is not made up
for, a purge beyond the last position and a reset behind a purge break them.

## Implementation notes

Nothing here depends on the terms of the entries, so the invariant is separate
from `WellFormed`. Opening the log is a step of its own, so that a condition can
speak about what the store returned.
-/

namespace DEngine.Storage

open Library Library.PartialLog

namespace BufferedRaftLog

/-- The index of the last log position, or zero for a log that never held anything. -/
def lastPosition (log : BufferedRaftLog) : Nat := (log.lastLogId.map LogId.index).getD 0

/-- No gap, a start right behind the purge boundary, and identifiers handed out from right
behind the last position. -/
structure InPosition (log : BufferedRaftLog) : Prop where
  consecutive : {i | (log.entry i).isSome}.OrdConnected
  first : 0 < log.lastPurgedIndex → ∀ i, IsLeast {i | (log.entry i).isSome} i →
    i = log.lastPurgedIndex + 1
  next : ∀ count range, 0 < count → (log.preAllocateIdRange count).1 = .ok range →
    range.1 = log.lastPosition + 1

/-! ## The span of a log -/

/-- The log holds exactly the indexes between its bounds. -/
structure Spans (log : BufferedRaftLog) : Prop where
  entry_index : ∀ i e, log.entry i = some e → e.index = i
  held_iff : ∀ i, (∃ e, log.entry i = some e) ↔ 1 ≤ i ∧ log.minIndex ≤ i ∧ i ≤ log.maxIndex
  bounds : log.minIndex = 0 ∧ log.maxIndex = 0 ∨ 1 ≤ log.minIndex ∧ log.minIndex ≤ log.maxIndex
  max_le : log.maxIndex ≤ u64Max

/-- The bounds of a map whose keys are an interval. -/
theorem keys_of_interval {m : OrderedMap Entry} {lo hi : Nat} (hlo : 1 ≤ lo)
    (h : ∀ i, (∃ e, m[i]? = some e) ↔ lo ≤ i ∧ i ≤ hi) :
    m.firstKey.getD 0 = (if lo ≤ hi then lo else 0) ∧
      m.lastKey.getD 0 = if lo ≤ hi then hi else 0 := by
  have hpos : ∀ i e, m[i]? = some e → 1 ≤ i := fun i e he => by
    have := (h i).mp ⟨e, he⟩
    omega
  obtain ⟨hbo, hhe, hze⟩ := bounds_of_keys m hpos
  by_cases hle : lo ≤ hi
  · obtain ⟨e, he⟩ := (h lo).mpr ⟨le_rfl, hle⟩
    obtain ⟨e', he'⟩ := (h hi).mpr ⟨hle, le_rfl⟩
    have hne : m.lastKey.getD 0 ≠ 0 := by
      have := (hbo hi e' he').2
      omega
    have hfi := (h _).mp (hhe hne).1
    have hla := (h _).mp (hhe hne).2
    have hfi' := (hbo lo e he).1
    have hla' := (hbo hi e' he').2
    rw [if_pos hle, if_pos hle]
    omega
  · have hla : m.lastKey.getD 0 = 0 := by
      by_contra hne
      have := (h _).mp (hhe hne).2
      omega
    rw [if_neg hle, if_neg hle]
    exact ⟨hze hla, hla⟩

namespace Spans

variable {log : BufferedRaftLog}

/-- What is left of a log when a range is removed and an interval remains. -/
theorem removeRange (h : log.Spans) {lo hi first last : Nat} (hfi : 1 ≤ first)
    (hla : last ≤ log.maxIndex)
    (hke : ∀ i, (1 ≤ i ∧ log.minIndex ≤ i ∧ i ≤ log.maxIndex) ∧ ¬ (lo ≤ i ∧ i ≤ hi) ↔
      first ≤ i ∧ i ≤ last) :
    (log.removeRange lo hi).Spans ∧
      (log.removeRange lo hi).minIndex = (if first ≤ last then first else 0) ∧
      (log.removeRange lo hi).maxIndex = if first ≤ last then last else 0 := by
  have hhe : ∀ i, (∃ e, (log.removeRange lo hi).entry i = some e) ↔ first ≤ i ∧ i ≤ last := by
    intro i
    rw [← hke i, ← h.held_iff i, entry_removeRange]
    split_ifs with hin
    · simp [hin]
    · simp [hin]
  obtain ⟨hmin, hmax⟩ := keys_of_interval hfi hhe
  change (log.removeRange lo hi).minIndex = _ at hmin
  change (log.removeRange lo hi).maxIndex = _ at hmax
  refine ⟨⟨?_, fun i => ?_, ?_, ?_⟩, hmin, hmax⟩
  · exact fun i e he => h.entry_index i e (entry_of_entry_removeRange he).2
  · rw [hhe i, hmin, hmax]
    split_ifs <;> omega
  · rw [hmin, hmax]
    split_ifs <;> omega
  · have := h.max_le
    rw [hmax]
    split_ifs <;> omega

variable {start : Nat}

theorem max_index_of_consecutive {es : List Entry}
    (hes : Consecutive Entry.index es start) (hne : es ≠ []) :
    (es.map Entry.index).max?.getD 0 = start + es.length - 1 := by
  have hpos : 0 < es.length := List.length_pos_iff.mpr hne
  have hmax : (es.map Entry.index).max? = some (start + es.length - 1) := by
    rw [List.max?_eq_some_iff, hes]
    constructor
    · rw [List.mem_range'_1]
      omega
    · intro i hi
      rw [List.mem_range'_1] at hi
      omega
  rw [hmax, Option.getD_some]

theorem nextId_insertToMemory {es : List Entry}
    (hes : Consecutive Entry.index es start) (hne : es ≠ []) :
    (log.insertToMemory es).nextId = max log.nextId (start + es.length) := by
  have hpos : 0 < es.length := List.length_pos_iff.mpr hne
  simp only [BufferedRaftLog.insertToMemory, max_index_of_consecutive hes hne]
  split_ifs <;> omega

/-- Consecutive entries at the end of a log, or anywhere in an empty one. -/
theorem insertToMemory (h : log.Spans) {es : List Entry}
    (hes : Consecutive Entry.index es start) (hne : es ≠ []) (hst : 1 ≤ start)
    (hnx : log.maxIndex = 0 ∨ start = log.maxIndex + 1) (hmax : start + es.length - 1 ≤ u64Max) :
    (log.insertToMemory es).Spans ∧
      (log.insertToMemory es).minIndex = (if log.maxIndex = 0 then start else log.minIndex) ∧
      (log.insertToMemory es).maxIndex = start + es.length - 1 := by
  have hpos : 0 < es.length := List.length_pos_iff.mpr hne
  have hbo := h.bounds
  obtain ⟨first, hfi⟩ : ∃ first, es.head? = some first := ⟨_, List.head?_eq_some_head hne⟩
  obtain ⟨last, hla⟩ : ∃ last, es.getLast? = some last :=
    ⟨_, List.getLast?_eq_some_getLast hne⟩
  have hfirst_eq : first.index = start := by
    have hhe := congrArg List.head? hes
    obtain ⟨k, hk⟩ := Nat.exists_eq_succ_of_ne_zero (Nat.ne_of_gt hpos)
    simpa [hfi, hk, List.range'_succ] using hhe
  have hlast_eq := hes.getLast_key hla
  have hmin' : (log.insertToMemory es).minIndex =
      if log.maxIndex = 0 then start else log.minIndex := by
    simp only [BufferedRaftLog.insertToMemory, hfi]
    split_ifs <;> omega
  have hmax' : (log.insertToMemory es).maxIndex = start + es.length - 1 := by
    simp only [BufferedRaftLog.insertToMemory, hla]
    split_ifs <;> omega
  have hen : ∀ i e, (log.insertToMemory es).entry i = some e →
      (e ∈ es ∧ e.index = i) ∨ log.entry i = some e := by
    intro i e he
    by_cases hmem : ∃ x ∈ es, x.index = i
    · obtain ⟨x, hx, rfl⟩ := hmem
      have hfo : (log.insertToMemory es).entry x.index = some x :=
        OrderedMap.getElem?_insertBy_of_mem Entry.index log.entries es hes.ascending x hx
      rw [hfo] at he
      cases he
      exact .inl ⟨hx, rfl⟩
    · rw [entry_insertToMemory_of_not_mem fun x hx hxi => hmem ⟨x, hx, hxi⟩] at he
      exact .inr he
  refine ⟨⟨?_, fun i => ?_, ?_, ?_⟩, hmin', hmax'⟩
  · intro i e he
    rcases hen i e he with ⟨-, hi⟩ | hold
    · exact hi
    · exact h.entry_index i e hold
  · rw [hmin', hmax']
    by_cases hmem : ∃ x ∈ es, x.index = i
    · obtain ⟨x, hx, rfl⟩ := hmem
      have hra := hes.bounds hx
      constructor
      · intro _
        split_ifs <;> omega
      · intro _
        exact ⟨x, OrderedMap.getElem?_insertBy_of_mem Entry.index log.entries es
          hes.ascending x hx⟩
    · rw [entry_insertToMemory_of_not_mem fun x hx hxi => hmem ⟨x, hx, hxi⟩, h.held_iff i]
      rw [hes.mem_iff i] at hmem
      split_ifs <;> omega
  · rw [hmin', hmax']
    split_ifs <;> omega
  · rw [hmax']
    exact hmax

end Spans

theorem spans_reset (io : Except Fault Unit) (log : BufferedRaftLog) : (log.reset io).2.Spans where
  entry_index := by simp
  held_iff := fun i => by
    have hmax : (log.reset io).2.maxIndex = 0 := rfl
    simp only [entry_reset, reduceCtorEq, exists_false, false_iff, hmax]
    omega
  bounds := Or.inl ⟨rfl, rfl⟩
  max_le := Nat.zero_le _

/-! ## Logs in position -/

/-- The log spans its bounds, starts behind the purge boundary and numbers on from its last
position. -/
structure Positioned (log : BufferedRaftLog) : Prop extends Spans log where
  next_eq : log.nextId = (if log.maxIndex = 0 then log.lastPurgedIndex else log.maxIndex) + 1
  boundary : log.maxIndex ≠ 0 → 0 < log.lastPurgedIndex →
    log.minIndex = log.lastPurgedIndex + 1
  sound : log.poisoned = false

theorem Spans.lastPosition_eq {log : BufferedRaftLog} (h : log.Spans) :
    log.lastPosition = if log.maxIndex = 0 then log.lastPurgedIndex else log.maxIndex := by
  unfold lastPosition lastLogId lastEntryId
  by_cases hze : log.maxIndex = 0
  · rw [if_pos hze, if_neg (by omega)]
    split_ifs
    · rfl
    · simp only [Option.map_none, Option.getD_none]
      omega
  · have hbo := h.bounds
    obtain ⟨e, he⟩ := (h.held_iff log.maxIndex).mpr (by omega)
    rw [if_neg hze, if_pos (by omega), he]
    exact h.entry_index _ e he

namespace Positioned

variable {log : BufferedRaftLog}

theorem inPosition (h : log.Positioned) : log.InPosition := by
  have hhe : ∀ i, (log.entry i).isSome ↔ 1 ≤ i ∧ log.minIndex ≤ i ∧ i ≤ log.maxIndex := by
    intro i
    rw [Option.isSome_iff_exists]
    exact h.held_iff i
  constructor
  · refine ⟨fun i hi k hk j hj => ?_⟩
    have hi' := (hhe i).mp hi
    have hk' := (hhe k).mp hk
    obtain ⟨hij, hjk⟩ := Set.mem_Icc.mp hj
    exact (hhe j).mpr (by omega)
  · rintro hpu i ⟨hi, hls⟩
    have hi' := (hhe i).mp hi
    have hbo := h.bounds
    have hmin : log.minIndex ∈ {i | (log.entry i).isSome} := (hhe _).mpr (by omega)
    have hle := hls hmin
    have hst := h.boundary (by omega) hpu
    omega
  · intro count range hco hra
    rw [(preAllocateIdRange_ok (by omega) (Prod.ext hra rfl)).1, h.lastPosition_eq]
    exact h.next_eq

/-- Entries that follow the last position. -/
theorem insertToMemory (h : log.Positioned) {es : List Entry}
    (hes : Consecutive Entry.index es log.nextId) (hne : es ≠ [])
    (hmax : log.nextId + es.length - 1 ≤ u64Max) : (log.insertToMemory es).Positioned := by
  have hpos : 0 < es.length := List.length_pos_iff.mpr hne
  have hnx := h.next_eq
  have hbo := h.boundary
  obtain ⟨hsp, hmin, hma⟩ := h.toSpans.insertToMemory hes hne (by omega) (by
    split_ifs at hnx with hze
    · exact .inl hze
    · exact .inr hnx) hmax
  refine ⟨hsp, ?_, fun _ hpu => ?_, h.sound⟩
  · rw [Spans.nextId_insertToMemory hes hne, hma, if_neg (by omega)]
    omega
  · rw [hmin]
    change 0 < log.lastPurgedIndex at hpu
    change _ = log.lastPurgedIndex + 1
    split_ifs at hnx ⊢ with hze
    · exact hnx
    · exact hbo hze hpu

/-- Entries that replace the end of the log and reach at least as far. -/
theorem replaceTail (h : log.Positioned) {es : List Entry} {start : Nat}
    (hes : Consecutive Entry.index es start) (hne : es ≠ []) (hmin : log.minIndex ≤ start)
    (hmax : start ≤ log.maxIndex) (hpos : 1 ≤ start) (hre : log.maxIndex < start + es.length)
    (hle : start + es.length - 1 ≤ u64Max) :
    ((log.removeRange start u64Max).insertToMemory es).Positioned := by
  have hbo := h.bounds
  have hma := h.max_le
  obtain ⟨hlft, hlm, hlf⟩ := @Spans.removeRange log h.toSpans start u64Max
    log.minIndex (start - 1) (by omega) (by omega) (fun i => by omega)
  obtain ⟨hsp, hmin', hmax'⟩ := hlft.insertToMemory hes hne hpos (by
    rw [hlf]
    split_ifs <;> omega) hle
  have hla : ((log.removeRange start u64Max).insertToMemory es).lastPurgedIndex =
      log.lastPurgedIndex := rfl
  refine ⟨hsp, ?_, fun _ hpu => ?_, h.sound⟩
  · have hnx : (log.removeRange start u64Max).nextId = log.maxIndex + 1 := by
      change log.nextId = _
      rw [h.next_eq, if_neg (by omega)]
    rw [Spans.nextId_insertToMemory hes hne, hnx, hmax', if_neg (by omega)]
    omega
  · have hst := h.boundary (by omega) (hla ▸ hpu)
    rw [hmin', hla, hlf, hlm]
    split_ifs <;> omega

end Positioned

/-! ## Requests of a leader -/

/-- The request has no conflict with the log, or it reaches at least as far as the log. -/
def Reaches (log : BufferedRaftLog) (prevLogIndex : Nat) (es : List Entry) : Prop :=
  log.lastEntryId ≤ prevLogIndex + es.length ∨
    ∀ e ∈ es, e.index ≤ log.lastEntryId → log.entryTerm e.index = .ok (some e.term)

instance (log : BufferedRaftLog) (prevLogIndex : Nat) (es : List Entry) :
    Decidable (log.Reaches prevLogIndex es) :=
  inferInstanceAs (Decidable (_ ∨ _))

/-- A predecessor whose term is known lies in the log or is the purge boundary. -/
theorem position_of_entryTerm {log : BufferedRaftLog} {i t : Nat}
    (h : log.entryTerm i = .ok (some t)) :
    log.maxIndex ≠ 0 ∧ log.minIndex ≤ i ∧ i ≤ log.maxIndex ∨
      0 < log.lastPurgedIndex ∧ i = log.lastPurgedIndex := by
  unfold entryTerm at h
  by_cases hout : log.maxIndex = 0 ∨ i < log.minIndex ∨ log.maxIndex < i
  · rw [if_pos hout] at h
    split_ifs at h with hpu
    · exact .inr hpu
    · cases h
  · exact .inl (by omega)

/-- Behind a reservation nothing is appended, or entries from the next identifier on. -/
theorem appendReserved_cases {log reserved : BufferedRaftLog} {es : List Entry}
    {range : Nat × Nat} (hso : log.poisoned = false)
    (hra : log.preAllocateIdRange es.length = (.ok range, reserved)) :
    (reserved.appendEntries es).2 = log ∨
      es ≠ [] ∧ range = (log.nextId, log.nextId + es.length - 1) ∧
        log.nextId ≤ u64Max - es.length ∧ (reserved.appendEntries es).2 =
          ({ log with nextId := log.nextId + es.length } : BufferedRaftLog).insertToMemory es := by
  by_cases hnil : es = []
  · subst hnil
    rw [preAllocateIdRange, List.length_nil, if_pos rfl] at hra
    cases hra
    rw [appendEntries, if_neg (by simp [hso]), if_pos rfl]
    exact .inl rfl
  · obtain ⟨hids, hov, rfl⟩ :=
      preAllocateIdRange_ok (fun hz => hnil (List.length_eq_zero_iff.mp hz)) hra
    refine .inr ⟨hnil, hids, hov, ?_⟩
    rw [appendEntries, if_neg (by simp [hso]), if_neg hnil]

namespace Positioned

variable {log : BufferedRaftLog}

variable {es : List Entry}

/-- A contiguous request behind a known position keeps the log in position. -/
theorem takeOver_rewriteTail (h : log.Positioned) {prevLogIndex prevLogTerm : Nat}
    (hes : Consecutive Entry.index es (prevLogIndex + 1)) (hle : prevLogIndex + es.length ≤ u64Max)
    (hpr : log.entryTerm prevLogIndex = .ok (some prevLogTerm))
    (hrc : log.Reaches prevLogIndex es) : (log.takeOver (log.rewriteTail es)).Positioned := by
  have hsp := takeWhile_append_rewriteTail log es
  set kept := es.takeWhile fun e => !log.conflictsWith es e with hke
  cases hta : log.rewriteTail es with
  | nil => exact h
  | cons e rest =>
    rw [hta] at hsp
    rw [← hsp, consecutive_append] at hes
    obtain ⟨hbe, hfr⟩ := hes
    have hlen : es.length = kept.length + (e :: rest).length := by
      rw [← hsp, List.length_append]
    have hst : e.index = prevLogIndex + 1 + kept.length := by
      have hhe := congrArg List.head? hfr
      simpa [List.range'_succ] using hhe
    have hcn : log.conflictsWith es e = true := by
      have hfo := head_rewriteTail log es
      rw [hta, List.head?_cons] at hfo
      exact List.find?_some hfo.symm
    have hpo := position_of_entryTerm hpr
    have hbn := h.bounds
    have hbo := h.boundary
    have hnx := h.next_eq
    rw [takeOver_cons, truncatedFor]
    split_ifs with hin
    · -- A real conflict: the request must reach the end of the log.
      have hre : log.lastEntryId ≤ prevLogIndex + es.length := by
        refine hrc.resolve_right fun hsa => ?_
        have hte := hsa e (by rw [← hsp]; simp) hin
        simp only [conflictsWith, hte, ne_eq, not_true_eq_false, decide_false, Bool.and_false,
          Bool.or_false, decide_eq_true_eq] at hcn
        omega
      unfold lastEntryId at hin hre
      rw [← hst] at hfr
      apply h.replaceTail hfr (List.cons_ne_nil e rest)
      all_goals omega
    · -- No conflict: the kept entries lie in the log, so the rest follows its last position.
      unfold lastEntryId at hin
      have hfe : ∀ x ∈ kept, x.index ≤ log.maxIndex := by
        intro x hx
        have hnot := List.mem_takeWhile_imp (hke ▸ hx)
        rw [Bool.not_eq_true', conflictsWith, Bool.or_eq_false_iff, decide_eq_false_iff_not] at hnot
        exact Nat.not_lt.mp hnot.1
      have hidx : e.index = log.nextId := by
        rcases List.eq_nil_or_concat kept with hnil | ⟨front, last, hco⟩
        · rw [hnil, List.length_nil] at hst
          split_ifs at hnx <;> omega
        · have hpos : 0 < kept.length := by simp [hco]
          obtain ⟨x, hx, hidx⟩ := (hbe.mem_iff (prevLogIndex + kept.length)).mpr (by omega)
          have := hfe x hx
          split_ifs at hnx <;> omega
      rw [← hst, hidx] at hfr
      apply h.insertToMemory hfr (List.cons_ne_nil e rest)
      omega

/-- A purge up to a position between the start of the log and its last position. -/
theorem purgeLogsUpTo (h : log.Positioned) (io : Except Fault Unit) {cutoff : LogId}
    (hfo : log.lastPurgedIndex ≤ cutoff.index) (hlt : cutoff.index < log.nextId)
    (hfi : cutoff.index = 0 ∨ log.minIndex ≤ cutoff.index + 1) :
    (log.purgeLogsUpTo io cutoff).2.Positioned := by
  have hbn := h.bounds
  have hnx := h.next_eq
  have hbo := h.boundary
  obtain ⟨hlf, hln, hlm⟩ := @Spans.removeRange log h.toSpans 0 cutoff.index
    (max log.minIndex (cutoff.index + 1)) log.maxIndex (by omega) le_rfl (fun i => by omega)
  refine ⟨⟨hlf.entry_index, hlf.held_iff, hlf.bounds, hlf.max_le⟩, ?_, ?_, h.sound⟩
  · change log.nextId = (if (log.removeRange 0 cutoff.index).maxIndex = 0 then cutoff.index
      else (log.removeRange 0 cutoff.index).maxIndex) + 1
    rw [hlm]
    split_ifs at hnx ⊢ <;> omega
  · intro hne hpu
    change (log.removeRange 0 cutoff.index).maxIndex ≠ 0 at hne
    change 0 < cutoff.index at hpu
    change (log.removeRange 0 cutoff.index).minIndex = cutoff.index + 1
    rw [hlm] at hne
    rw [hln]
    split_ifs at hne ⊢ <;> omega

theorem reset (h : log.Positioned) (io : Except Fault Unit) (hpu : log.lastPurgedIndex = 0) :
    (log.reset io).2.Positioned where
  toSpans := spans_reset io log
  next_eq := by
    change 1 = log.lastPurgedIndex + 1
    rw [hpu]
  boundary := fun hne => absurd rfl hne
  sound := h.sound

/-- Entries that fill their reservation leave no trace of it. -/
theorem insertToMemory_reserved (hes : Consecutive Entry.index es log.nextId) (hne : es ≠ []) :
    ({ log with nextId := log.nextId + es.length } : BufferedRaftLog).insertToMemory es =
      log.insertToMemory es := by
  have hpos : 0 < es.length := List.length_pos_iff.mpr hne
  simp only [BufferedRaftLog.insertToMemory, Spans.max_index_of_consecutive hes hne]
  congr 1
  split_ifs <;> omega

theorem appendEntries (h : log.Positioned) (hes : Consecutive Entry.index es log.nextId)
    (hle : log.nextId + es.length - 1 ≤ u64Max) : (log.appendEntries es).2.Positioned := by
  rw [BufferedRaftLog.appendEntries, if_neg (by simp [h.sound])]
  split_ifs with hne
  · exact h
  · exact h.insertToMemory hes hne hle

/-- Consecutive entries that are appended behind a reservation. -/
theorem appendAllocated (h : log.Positioned) {range : Nat × Nat} {reserved : BufferedRaftLog}
    (hra : log.preAllocateIdRange es.length = (.ok range, reserved))
    (hes : Consecutive Entry.index es range.1) : (reserved.appendEntries es).2.Positioned := by
  rcases appendReserved_cases h.sound hra with hsa | ⟨hne, rfl, hov, haf⟩
  · rw [hsa]
    exact h
  · have hpos : 0 < es.length := List.length_pos_iff.mpr hne
    have hnx := h.next_eq
    rw [haf, insertToMemory_reserved hes hne]
    exact h.insertToMemory hes hne (by omega)

end Positioned

/-- What a store has to return for the log that is opened over it to be in position. -/
def StoreInPosition (diskLen : Nat) (loaded : List Entry) (boundary : Option LogId) : Prop :=
  let purged := (boundary.map LogId.index).getD 0
  let first := (loaded.head?.map Entry.index).getD 1
  Consecutive Entry.index loaded first ∧ 1 ≤ first ∧
    (0 < purged → loaded ≠ [] → first = purged + 1) ∧
    diskLen = (loaded.getLast?.map Entry.index).getD purged ∧ diskLen ≤ u64Max

instance (diskLen : Nat) (loaded : List Entry) (boundary : Option LogId) :
    Decidable (StoreInPosition diskLen loaded boundary) :=
  inferInstanceAs (Decidable (_ ∧ _))

theorem positioned_new {diskLen : Nat} {loaded : List Entry} {boundary : Option LogId}
    (h : StoreInPosition diskLen loaded boundary) : (new diskLen loaded boundary).Positioned := by
  obtain ⟨hco, hpos, hst, hlen, hle⟩ := h
  have hpu : (new diskLen loaded boundary).lastPurgedIndex =
      (boundary.map LogId.index).getD 0 := rfl
  generalize (loaded.head?.map Entry.index).getD 1 = first at hco hpos hst
  generalize (boundary.map LogId.index).getD 0 = purged at hst hlen hpu
  have hhe : ∀ i, (∃ e, (new diskLen loaded boundary).entry i = some e) ↔
      first ≤ i ∧ i ≤ first + loaded.length - 1 := by
    intro i
    rw [entry_new hco.ascending]
    constructor
    · rintro ⟨e, he⟩
      obtain ⟨hmem, rfl⟩ := ofList_eq_some_imp he
      have := hco.bounds hmem
      omega
    · intro hi
      obtain ⟨e, he, rfl⟩ := (hco.mem_iff i).mpr (by omega)
      exact ⟨e, ofList_of_mem hco.ascending he⟩
  obtain ⟨hmin, hmax⟩ := keys_of_interval hpos hhe
  change (new diskLen loaded boundary).minIndex = _ at hmin
  change (new diskLen loaded boundary).maxIndex = _ at hmax
  have hla : diskLen = if first ≤ first + loaded.length - 1 then first + loaded.length - 1
      else purged := by
    rw [hlen]
    rcases List.eq_nil_or_concat loaded with hnil | ⟨init, last, hcn⟩
    · rw [hnil, List.length_nil, if_neg (by omega)]
      rfl
    · have hend : loaded.getLast? = some last := by simp [hcn]
      have hln : loaded.length = init.length + 1 := by simp [hcn]
      have hkey := hco.getLast_key hend
      rw [hend, Option.map_some, Option.getD_some, if_pos (by omega)]
      omega
  refine ⟨⟨?_, fun i => ?_, ?_, ?_⟩, ?_, fun hne hbo => ?_, rfl⟩
  · intro i e he
    rw [entry_new hco.ascending] at he
    exact (ofList_eq_some_imp he).2
  · rw [hhe i, hmin, hmax]
    split_ifs <;> omega
  · rw [hmin, hmax]
    split_ifs <;> omega
  · rw [hmax]
    split_ifs at hla ⊢ <;> omega
  · change diskLen + 1 = _
    rw [hpu, hmax, hla]
    split_ifs <;> omega
  · rw [hpu] at hbo
    rw [hmax] at hne
    rw [hmin, hpu]
    split_ifs at hne ⊢ with hhe
    · exact hst hbo (List.length_pos_iff.mp (by omega))
    · exact absurd rfl hne

end BufferedRaftLog

/-! ## Sequences of operations -/

open BufferedRaftLog

/-- The operations of a log whose storage does not fail. -/
inductive LogOp where
  | openLog (diskLen : Nat) (loaded : List Entry) (boundary : Option LogId)
  /-- Reserve identifiers and append entries that carry them. -/
  | append (entries : List Entry)
  | replicate (prevLogIndex prevLogTerm : Nat) (entries : List Entry)
  | purge (cutoff : LogId)
  | reset

/-- One operation. A request is contiguous, and a purge never goes back. -/
def LogOp.run : Option BufferedRaftLog → LogOp → Option (Option BufferedRaftLog)
  | none, .openLog diskLen loaded boundary => some (some (new diskLen loaded boundary))
  | some log, .append entries =>
    match log.preAllocateIdRange entries.length with
    | (.ok range, reserved) =>
      if Consecutive Entry.index entries range.1 then
        some (some (reserved.appendEntries entries).2)
      else none
    | (.error _, _) => none
  | some log, .replicate prevLogIndex prevLogTerm entries =>
    if Consecutive Entry.index entries (prevLogIndex + 1) ∧
        prevLogIndex + entries.length ≤ u64Max then
      some (some (log.filterOutConflictsAndAppend (.ok ()) prevLogIndex prevLogTerm entries).2)
    else none
  | some log, .purge cutoff =>
    if log.lastPurgedIndex ≤ cutoff.index then some (some (log.purgeLogsUpTo (.ok ()) cutoff).2)
    else none
  | some log, .reset => some (some (log.reset (.ok ())).2)
  | _, _ => none

def logOps : Machine (Option BufferedRaftLog) LogOp where
  init := fun s => s = none
  step := LogOp.run

/-- The operation keeps a log in position: the store returned one, a request that is accepted and
conflicts reaches the end of the log, a purge stays within the log, and nothing was purged when
the log starts afresh. -/
def KeepsPosition : Option BufferedRaftLog → LogOp → Prop
  | none, .openLog diskLen loaded boundary => StoreInPosition diskLen loaded boundary
  | some log, .replicate prevLogIndex prevLogTerm entries =>
    if prevLogIndex = 0 ∧ prevLogTerm = 0 then log.lastPurgedIndex = 0
    else log.entryTerm prevLogIndex = .ok (some prevLogTerm) → log.Reaches prevLogIndex entries
  | some log, .purge cutoff =>
    cutoff.index < log.nextId ∧ (cutoff.index = 0 ∨ log.firstEntryId ≤ cutoff.index + 1)
  | some log, .reset => log.lastPurgedIndex = 0
  | _, _ => True

instance (s : Option BufferedRaftLog) (op : LogOp) : Decidable (KeepsPosition s op) := by
  cases s <;> cases op <;> dsimp only [KeepsPosition] <;> infer_instance

theorem BufferedRaftLog.snd_ackLast (result : Except Fault Unit × BufferedRaftLog)
    (es : List Entry) : (ackLast result es).2 = result.2 := by
  obtain ⟨outcome, log⟩ := result
  cases outcome <;> rfl

theorem BufferedRaftLog.Positioned.filterOutConflictsAndAppend {log : BufferedRaftLog}
    (h : log.Positioned) {prevLogIndex prevLogTerm : Nat}
    {es : List Entry} (hes : Consecutive Entry.index es (prevLogIndex + 1))
    (hle : prevLogIndex + es.length ≤ u64Max)
    (hke : KeepsPosition (some log) (.replicate prevLogIndex prevLogTerm es)) :
    (log.filterOutConflictsAndAppend (.ok ()) prevLogIndex prevLogTerm es).2.Positioned := by
  unfold BufferedRaftLog.filterOutConflictsAndAppend
  by_cases hpr : prevLogIndex = 0 ∧ prevLogTerm = 0
  · have hre := h.reset (.ok ()) (by simpa [KeepsPosition, hpr] using hke)
    rw [if_pos hpr]
    rw [hpr.1, Nat.zero_add] at hes hle
    have happ := hre.appendEntries hes (by
      change 1 + es.length - 1 ≤ u64Max
      omega)
    change (ackLast ((log.reset (.ok ())).2.appendEntries es) es).2.Positioned
    rwa [snd_ackLast]
  · simp only [KeepsPosition, hpr, if_false] at hke
    rw [if_neg hpr]
    cases hte : log.entryTerm prevLogIndex with
    | error => exact h
    | ok =>
      dsimp only
      split_ifs with hma
      · subst hma
        rcases (settles_appendAfterMatch (.ok ()) log es).1 with hsa | haf
        · rw [hsa]
          exact h
        · rw [haf]
          exact h.takeOver_rewriteTail hes hle hte (hke hte)
      · exact h

/-- What a new log has and every operation keeps, every log that is reached has. -/
theorem logOps_invariant {cond : Option BufferedRaftLog → LogOp → Prop} {I : BufferedRaftLog → Prop}
    (hop : ∀ diskLen loaded boundary, cond none (.openLog diskLen loaded boundary) →
      I (new diskLen loaded boundary))
    (happ : ∀ log entries range reserved, logOps.Reach cond (some log) → I log →
      cond (some log) (.append entries) →
      log.preAllocateIdRange entries.length = (.ok range, reserved) →
      Consecutive Entry.index entries range.1 → I (reserved.appendEntries entries).2)
    (hrp : ∀ log prevLogIndex prevLogTerm entries, logOps.Reach cond (some log) → I log →
      cond (some log) (.replicate prevLogIndex prevLogTerm entries) →
      Consecutive Entry.index entries (prevLogIndex + 1) →
      prevLogIndex + entries.length ≤ u64Max →
      I (log.filterOutConflictsAndAppend (.ok ()) prevLogIndex prevLogTerm entries).2)
    (hpu : ∀ log cutoff, I log → cond (some log) (.purge cutoff) →
      log.lastPurgedIndex ≤ cutoff.index → I (log.purgeLogsUpTo (.ok ()) cutoff).2)
    (hrs : ∀ log, I log → cond (some log) .reset → I (log.reset (.ok ())).2)
    {log : BufferedRaftLog} (h : logOps.Reach cond (some log)) : I log := by
  have hall : logOps.Reach cond (some log) ∧ ∀ l, some log = some l → I l := by
    apply h.invariant (I := fun s => logOps.Reach cond s ∧ ∀ l, s = some l → I l)
    · rintro s rfl
      exact ⟨⟨none, rfl, .refl⟩, nofun⟩
    rintro s op t ⟨hre, hs⟩ hco hst
    refine ⟨hre.of_run (.single ⟨op, hco, hst⟩), ?_⟩
    rintro l rfl
    change LogOp.run s op = some (some l) at hst
    cases s with
    | none =>
      cases op with
      | openLog =>
        cases hst
        exact hop _ _ _ hco
      | append | replicate | purge | reset => cases hst
    | some log =>
      have hlog := hs log rfl
      cases op with
      | openLog => cases hst
      | append entries =>
        simp only [LogOp.run] at hst
        split at hst
        next range reserved hra =>
          split_ifs at hst with hen
          cases hst
          exact happ log entries range reserved hre hlog hco hra hen
        next => cases hst
      | replicate prevLogIndex prevLogTerm entries =>
        simp only [LogOp.run] at hst
        split_ifs at hst with hen
        cases hst
        exact hrp log _ _ entries hre hlog hco hen.1 hen.2
      | purge cutoff =>
        simp only [LogOp.run] at hst
        split_ifs at hst with hfo
        cases hst
        exact hpu log cutoff hlog hco hfo
      | reset =>
        cases hst
        exact hrs log hlog hco
  exact hall.2 log rfl

theorem positioned_of_reach {log : BufferedRaftLog} (h : logOps.Reach KeepsPosition (some log)) :
    log.Positioned := by
  refine logOps_invariant (fun _ _ _ hke => positioned_new hke) ?_ ?_ ?_ ?_ h
  · intro log entries range reserved _ hlog _ hra hen
    exact hlog.appendAllocated hra hen
  · intro log prevLogIndex prevLogTerm entries _ hlog hke hen hle
    exact hlog.filterOutConflictsAndAppend hen hle hke
  · intro log cutoff hlog hke hfo
    exact hlog.purgeLogsUpTo (.ok ()) hfo hke.1 hke.2
  · intro log hlog hke
    exact hlog.reset (.ok ()) hke

/-- In every sequence of operations that meet the condition, the log that is reached holds
consecutive entries right behind its purge boundary, and identifiers go on right behind its
last position. -/
theorem inPosition_of_reach {s : Option BufferedRaftLog} (h : logOps.Reach KeepsPosition s)
    (log : BufferedRaftLog) (hs : s = some log) : log.InPosition := by
  exact (positioned_of_reach (hs ▸ h)).inPosition

def emptyStore : LogOp := .openLog 0 [] none

def threeInTermOne : LogOp := .append [⟨1, 1, none⟩, ⟨2, 1, none⟩, ⟨3, 1, none⟩]

/-- A log that is truncated and written past its end, purged and appended to. -/
theorem rewritten_and_purged_inPosition :
    ∃ log, logOps.Reach KeepsPosition (some log) ∧ log.lastPurgedIndex = 2 ∧
      log.lastPosition = 4 ∧ log.InPosition := by
  have hrun : ∃ s, logOps.Reach KeepsPosition s ∧
      (s.map fun log => (log.lastPurgedIndex, log.lastPosition)) = some (2, 4) :=
    Machine.exists_reach_of_runIf [emptyStore, threeInTermOne,
      .replicate 1 1 [⟨2, 2, none⟩, ⟨3, 2, none⟩], .purge ⟨2, 2⟩,
      .append [⟨4, 3, none⟩]] rfl (by decide +kernel)
  obtain ⟨s, hre, hs⟩ := hrun
  obtain ⟨log, rfl, hlog⟩ := Option.map_eq_some_iff.mp hs
  obtain ⟨hpu, hla⟩ := Prod.mk.inj hlog
  exact ⟨log, hre, hpu, hla, inPosition_of_reach hre log rfl⟩

/-- A log whose next identifier is not the one behind its last position. -/
theorem not_inPosition_of_runIf (ops : List LogOp) {last next : Nat} (hne : next ≠ last + 1)
    (h : ((logOps.runIf (fun _ _ => True) none ops).bind fun s => s.map fun log =>
      (log.lastPosition, (log.preAllocateIdRange 1).1)) = some (last, .ok (next, next))) :
    ∃ log, logOps.runIf (fun _ _ => True) none ops = some (some log) ∧ ¬ log.InPosition := by
  obtain ⟨s, hrun, hs⟩ := Option.bind_eq_some_iff.mp h
  obtain ⟨log, rfl, hlog⟩ := Option.map_eq_some_iff.mp hs
  obtain ⟨hla, hnx⟩ := Prod.mk.inj hlog
  refine ⟨log, hrun, fun hin => hne ?_⟩
  rw [← hla]
  exact hin.next 1 (next, next) Nat.one_pos hnx

/-- A request that cuts the log short, a purge past its end and a reset behind a purge each
leave a log out of position. -/
theorem operations_leave_position :
    (∃ log, logOps.runIf (fun _ _ => True) none
      [emptyStore, threeInTermOne, .replicate 1 1 [⟨2, 2, none⟩]] = some (some log) ∧
      ¬ log.InPosition) ∧
    (∃ log, logOps.runIf (fun _ _ => True) none
      [emptyStore, threeInTermOne, .purge ⟨1, 10⟩] = some (some log) ∧
      ¬ log.InPosition) ∧
    ∃ log, logOps.runIf (fun _ _ => True) none
      [emptyStore, threeInTermOne, .purge ⟨1, 2⟩, .reset] = some (some log) ∧
      ¬ log.InPosition := by
  refine ⟨?_, ?_, ?_⟩
  · exact @not_inPosition_of_runIf _ 2 4 (by decide) (by decide +kernel)
  · exact @not_inPosition_of_runIf _ 10 4 (by decide) (by decide +kernel)
  · exact @not_inPosition_of_runIf _ 2 1 (by decide) (by decide +kernel)

end DEngine.Storage

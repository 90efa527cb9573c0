import DEngine.Library.Extremum
import DEngine.Storage.ReceiverRule
import Mathlib.Data.List.Induction

/-!
# The first and the last index of each term

The log keeps two tables beside its entries, with the first and the last index of
each term. Appending updates them entry by entry; removing a range looks at the
terms that lost entries and searches the rest of the log only where the first or
the last entry of a term is gone. In every log that is reached both tables are
exact.
-/

namespace DEngine.Storage

open Library Library.PartialLog OrderedMap

namespace BufferedRaftLog

/-- The indexes of the entries of a term. -/
def indexesOf (log : BufferedRaftLog) (term : Nat) : Set Nat :=
  log.entries.keysWhere fun e => e.term = term

/-- The two tables answer for the sets of indexes of each term. -/
structure Tracks (tables : OrderedMap Nat × OrderedMap Nat) (indexes : Nat → Set Nat) :
    Prop where
  firsts : ∀ term, Records IsLeast (indexes term) tables.1[term]?
  lasts : ∀ term, Records IsGreatest (indexes term) tables.2[term]?

/-- The tables of the log are exact. -/
def TermIndexed (log : BufferedRaftLog) : Prop :=
  Tracks (log.termFirstIndex, log.termLastIndex) log.indexesOf

/-! ## Appending -/

/-- The indexes of the entries of a term in a list. -/
def listed (es : List Entry) (term : Nat) : Set Nat := {i | ∃ e ∈ es, e.index = i ∧ e.term = term}

theorem tracks_empty : Tracks (∅, ∅) fun _ => ∅ where
  firsts := fun term => by simp [Records]
  lasts := fun term => by simp [Records]

variable {tables : OrderedMap Nat × OrderedMap Nat} {indexes : Nat → Set Nat}

theorem Tracks.updateTermIndex (h : Tracks tables indexes) {e : Entry} (he : e.index ≤ u64Max) :
    Tracks (updateTermIndex tables e)
      fun term => if term = e.term then insert e.index (indexes term) else indexes term where
  firsts := by
    intro term
    simp only [BufferedRaftLog.updateTermIndex, getElem?_insert_eq]
    split_ifs with hte
    · rw [hte]
      exact (h.firsts e.term).insert_least he
    · exact h.firsts term
  lasts := by
    intro term
    simp only [BufferedRaftLog.updateTermIndex, getElem?_insert_eq]
    split_ifs with hte
    · rw [hte]
      exact (h.lasts e.term).insert_greatest e.index
    · exact h.lasts term

theorem Tracks.congr {indexes' : Nat → Set Nat}
    (h : Tracks tables indexes) (heq : ∀ term, indexes' term = indexes term) :
    Tracks tables indexes' := by
  rwa [funext heq]

theorem listed_cons (e : Entry) (rest : List Entry) (term : Nat) :
    listed (e :: rest) term =
      if term = e.term then insert e.index (listed rest term) else listed rest term := by
  ext i
  split_ifs with hte
  · simp [listed, hte, eq_comm]
  · simp [listed, Ne.symm hte]

variable {es : List Entry}

theorem Tracks.updateTermIndexes (hes : ∀ e ∈ es, e.index ≤ u64Max) (h : Tracks tables indexes) :
    Tracks (updateTermIndexes tables es) fun term => indexes term ∪ listed es term := by
  induction es generalizing tables indexes with
  | nil =>
    apply h.congr
    intro term
    simp [listed]
  | cons e rest ih =>
    have hfi := h.updateTermIndex (hes e List.mem_cons_self)
    apply (ih (fun x hx => hes x (List.mem_cons_of_mem e hx)) hfi).congr
    intro term
    rw [listed_cons]
    split_ifs
    · rw [Set.insert_union, Set.union_insert]
    · rfl

variable {log : BufferedRaftLog}

theorem WellFormed.indexesOf_insertToMemory (h : log.WellFormed)
    (hes : Batch es) (hab : ∀ e ∈ es, log.maxIndex < e.index) (term : Nat) :
    (log.insertToMemory es).indexesOf term = log.indexesOf term ∪ listed es term := by
  ext i
  constructor
  · rintro ⟨e, he, hte⟩
    by_cases hmem : ∃ x ∈ es, x.index = i
    · obtain ⟨x, hx, rfl⟩ := hmem
      have hfo : (log.insertToMemory es).entry x.index = some e := he
      rw [entry_insertToMemory_of_mem hes hx] at hfo
      cases hfo
      exact .inr ⟨e, hx, rfl, hte⟩
    · have hold : (log.insertToMemory es).entry i = log.entry i :=
        entry_insertToMemory_of_not_mem fun x hx hxi => hmem ⟨x, hx, hxi⟩
      exact .inl ⟨e, hold.symm.trans he, hte⟩
  · rintro (⟨e, he, hte⟩ | ⟨x, hx, rfl, hte⟩)
    · have hle := h.le_max i e he
      have hold : (log.insertToMemory es).entry i = log.entry i :=
        entry_insertToMemory_of_not_mem fun x hx hxi => by
          have := hab x hx
          omega
      exact ⟨e, hold.trans he, hte⟩
    · exact ⟨x, entry_insertToMemory_of_mem hes hx, hte⟩

theorem TermIndexed.insertToMemory (h : log.TermIndexed) (hwe : log.WellFormed)
    (hes : Batch es) (hab : ∀ e ∈ es, log.maxIndex < e.index) :
    (log.insertToMemory es).TermIndexed :=
  (Tracks.updateTermIndexes hes.index_le h).congr (hwe.indexesOf_insertToMemory hes hab)

theorem termIndexed_new {diskLen : Nat} {loaded : List Entry} (boundary : Option LogId)
    (hlo : Batch loaded) : (new diskLen loaded boundary).TermIndexed := by
  apply (Tracks.updateTermIndexes hlo.index_le tracks_empty).congr
  intro term
  rw [Set.empty_union]
  ext i
  have hen : (new diskLen loaded boundary).entry i = ofList Entry.index loaded i :=
    congrFun (entry_new hlo.ascending) i
  constructor
  · rintro ⟨e, he, hte⟩
    obtain ⟨hmem, hi⟩ := ofList_eq_some_imp (hen.symm.trans he)
    exact ⟨e, hmem, hi, hte⟩
  · rintro ⟨e, hmem, rfl, hte⟩
    exact ⟨e, hen.trans (ofList_of_mem hlo.ascending hmem), hte⟩

/-! ## Removing -/

/-- The indexes of the entries of a term among removed ones. -/
def removedOf (removed : List (Nat × Entry)) (term : Nat) : Set Nat :=
  {i | ∃ e, (i, e) ∈ removed ∧ e.term = term}

theorem removedOf_concat (front : List (Nat × Entry)) (p : Nat × Entry) (term : Nat) :
    removedOf (front ++ [p]) term =
      if term = p.2.term then insert p.1 (removedOf front term) else removedOf front term := by
  ext i
  obtain ⟨j, e⟩ := p
  simp only [removedOf, List.mem_append, List.mem_singleton, Prod.mk.injEq, Set.mem_ofPred_eq]
  split_ifs with hte
  · constructor
    · rintro ⟨x, hin | ⟨rfl, rfl⟩, hx⟩
      · exact .inr ⟨x, hin, hx⟩
      · exact .inl rfl
    · rintro (rfl | ⟨x, hin, hx⟩)
      · exact ⟨e, Or.inr ⟨rfl, rfl⟩, hte.symm⟩
      · exact ⟨x, Or.inl hin, hx⟩
  · constructor
    · rintro ⟨x, hin | ⟨rfl, rfl⟩, hx⟩
      · exact ⟨x, hin, hx⟩
      · exact absurd hx.symm hte
    · rintro ⟨x, hin, hx⟩
      exact ⟨x, Or.inl hin, hx⟩

theorem affectedTerms_concat_none {front : List (Nat × Entry)} {p : Nat × Entry}
    (hfo : (affectedTerms front)[p.2.term]? = none) :
    affectedTerms (front ++ [p]) = (affectedTerms front).insert p.2.term (p.1, p.1) := by
  unfold affectedTerms at hfo ⊢
  simp only [List.foldl_append, List.foldl_cons, List.foldl_nil, hfo]

variable {lo hi : Nat}

theorem affectedTerms_concat_some {front : List (Nat × Entry)} {p : Nat × Entry}
    (hfo : (affectedTerms front)[p.2.term]? = some (lo, hi)) :
    affectedTerms (front ++ [p]) =
      (affectedTerms front).insert p.2.term (min lo p.1, max hi p.1) := by
  unfold affectedTerms at hfo ⊢
  simp only [List.foldl_append, List.foldl_cons, List.foldl_nil, hfo]

/-- The affected terms come with their smallest and largest removed index. -/
theorem affectedTerms_spec (removed : List (Nat × Entry)) (term : Nat) :
    Records IsLeast (removedOf removed term) ((affectedTerms removed)[term]?.map Prod.fst) ∧
      Records IsGreatest (removedOf removed term)
        ((affectedTerms removed)[term]?.map Prod.snd) := by
  induction removed using List.reverseRecOn with
  | nil => simp [affectedTerms, removedOf, Records]
  | append_singleton front p ih =>
    rw [removedOf_concat]
    cases hfo : (affectedTerms front)[p.2.term]? with
    | none =>
      rw [affectedTerms_concat_none hfo, getElem?_insert_eq]
      split_ifs with hte
      · rw [hte, hfo] at ih
        have hem : removedOf front p.2.term = ∅ := ih.1
        rw [hte, hem, insert_empty_eq]
        exact ⟨isLeast_singleton, isGreatest_singleton⟩
      · exact ih
    | some bounds =>
      obtain ⟨lo, hi⟩ := bounds
      rw [affectedTerms_concat_some hfo, getElem?_insert_eq]
      split_ifs with hte
      · rw [hte, hfo] at ih
        rw [hte]
        exact ⟨ih.1.insert_least le_rfl, ih.2.insert_greatest p.1⟩
      · exact ih

theorem indexesOf_removeRange (log : BufferedRaftLog) (lo hi term : Nat) :
    (log.removeRange lo hi).indexesOf term =
      log.indexesOf term \ removedOf (log.entries.range lo hi) term := by
  ext i
  constructor
  · rintro ⟨e, he, hte⟩
    obtain ⟨hout, hold⟩ := entry_of_entry_removeRange he
    refine ⟨⟨e, hold, hte⟩, ?_⟩
    rintro ⟨x, hx, -⟩
    exact hout ((mem_range_iff _ _ _ _ _).mp hx).2
  · rintro ⟨⟨e, he, hte⟩, hke⟩
    refine ⟨e, ?_, hte⟩
    change (log.removeRange lo hi).entry i = some e
    rw [entry_removeRange, if_neg]
    · exact he
    · intro hin
      exact hke ⟨e, (mem_range_iff _ _ _ _ _).mpr ⟨he, hin⟩, hte⟩

variable {entries : OrderedMap Entry} {term : Nat}

theorem refreshFirst_other {firsts : OrderedMap Nat} {k : Nat}
    (hk : k ≠ term) : (refreshFirst entries firsts term lo)[k]? = firsts[k]? := by
  unfold refreshFirst
  split
  · rfl
  · split_ifs
    · split
      · rw [getElem?_insert_eq, if_neg hk]
      · rw [getElem?_erase_eq, if_neg hk]
    · rfl

theorem refreshLast_other {lasts : OrderedMap Nat} {k : Nat}
    (hk : k ≠ term) : (refreshLast entries lasts term hi)[k]? = lasts[k]? := by
  unfold refreshLast
  split
  · rfl
  · split_ifs
    · split
      · rw [getElem?_insert_eq, if_neg hk]
      · rw [getElem?_erase_eq, if_neg hk]
    · rfl

/-- A term that lost entries from `lo` on keeps its first index if that lies before, and gets the
one that a search finds otherwise. -/
theorem refreshFirst_self {firsts : OrderedMap Nat}
    {members removed : Set Nat} (h : Records IsLeast members firsts[term]?)
    (hlo : IsLeast removed lo) (hsub : removed ⊆ members)
    (hlf : entries.keysWhere (fun e => e.term = term) = members \ removed) :
    Records IsLeast (members \ removed) (refreshFirst entries firsts term lo)[term]? := by
  have hse := records_find?_least entries fun e => e.term = term
  rw [hlf] at hse
  unfold refreshFirst
  cases hfi : firsts[term]? with
  | none =>
    rw [hfi] at h
    have hin : lo ∈ members := hsub hlo.1
    rw [show members = ∅ from h] at hin
    cases hin
  | some =>
    rw [hfi] at h
    dsimp only
    split_ifs with hle
    · cases hfo : entries.toList.find? fun p => decide (p.2.term = term) <;>
        rw [hfo] at hse <;> dsimp only
      · rwa [getElem?_erase_eq, if_pos rfl]
      · rwa [getElem?_insert_eq, if_pos rfl]
    · rw [hfi]
      exact Records.diff_least h hlo (Nat.lt_of_not_le hle)

theorem refreshLast_self {lasts : OrderedMap Nat}
    {members removed : Set Nat} (h : Records IsGreatest members lasts[term]?)
    (hhi : IsGreatest removed hi) (hsub : removed ⊆ members)
    (hlf : entries.keysWhere (fun e => e.term = term) = members \ removed) :
    Records IsGreatest (members \ removed) (refreshLast entries lasts term hi)[term]? := by
  have hse := records_find?_greatest entries fun e => e.term = term
  rw [hlf] at hse
  unfold refreshLast
  cases hla : lasts[term]? with
  | none =>
    rw [hla] at h
    have hin : hi ∈ members := hsub hhi.1
    rw [show members = ∅ from h] at hin
    cases hin
  | some =>
    rw [hla] at h
    dsimp only
    split_ifs with hle
    · cases hfo : entries.toList.reverse.find? fun p => decide (p.2.term = term) <;>
        rw [hfo] at hse <;> dsimp only
      · rwa [getElem?_erase_eq, if_pos rfl]
      · rwa [getElem?_insert_eq, if_pos rfl]
    · rw [hla]
      exact Records.diff_greatest h hhi (Nat.lt_of_not_le hle)

theorem TermIndexed.removeRange (h : log.TermIndexed) (lo hi : Nat) :
    (log.removeRange lo hi).TermIndexed := by
  set removed := log.entries.range lo hi with hrem
  have hsub : ∀ term, removedOf removed term ⊆ log.indexesOf term := by
    rintro term i ⟨e, he, hte⟩
    exact ⟨e, ((mem_range_iff _ _ _ _ _).mp he).1, hte⟩
  have hsp := affectedTerms_spec removed
  have hlf := indexesOf_removeRange log lo hi
  have hdi := toList_pairwise (affectedTerms removed)
  -- a term that lost nothing has the indexes that it had
  have hsa : ∀ term, (∀ p ∈ (affectedTerms removed).toList, p.1 ≠ term) →
      log.indexesOf term = log.indexesOf term \ removedOf removed term := by
    intro term hno
    have hab : (affectedTerms removed)[term]? = none := by
      cases hfo : (affectedTerms removed)[term]? with
      | none => rfl
      | some bounds =>
        exact absurd rfl (hno (term, bounds) ((mem_toList_iff _ _ _).mpr hfo))
    have hem := (hsp term).1
    rw [hab] at hem
    rw [show removedOf removed term = ∅ from hem, Set.sdiff_empty]
  have hbo : ∀ p ∈ (affectedTerms removed).toList,
      IsLeast (removedOf removed p.1) p.2.1 ∧ IsGreatest (removedOf removed p.1) p.2.2 := by
    intro p hp
    have hfo := (mem_toList_iff _ _ _).mp hp
    have hpa := hsp p.1
    rw [hfo] at hpa
    exact hpa
  constructor
  · intro term
    rw [hlf]
    refine foldl_keys hdi (P := fun term answer =>
      Records IsLeast (log.indexesOf term \ removedOf removed term) answer)
      (fun _ _ _ => refreshFirst_other) ?_ ?_ term
    · intro m p hp hold
      refine refreshFirst_self ?_ (hbo p hp).1 (hsub p.1) (hlf p.1)
      rw [hold]
      exact h.firsts p.1
    · intro term hno
      rw [← hsa term hno]
      exact h.firsts term
  · intro term
    rw [hlf]
    refine foldl_keys hdi (P := fun term answer =>
      Records IsGreatest (log.indexesOf term \ removedOf removed term) answer)
      (fun _ _ _ => refreshLast_other) ?_ ?_ term
    · intro m p hp hold
      refine refreshLast_self ?_ (hbo p hp).2 (hsub p.1) (hlf p.1)
      rw [hold]
      exact h.lasts p.1
    · intro term hno
      rw [← hsa term hno]
      exact h.lasts term

/-! ## Operations -/

theorem TermIndexed.of_same (h : log.TermIndexed) {log' : BufferedRaftLog}
    (hen : log'.entries = log.entries) (hfi : log'.termFirstIndex = log.termFirstIndex)
    (hla : log'.termLastIndex = log.termLastIndex) : log'.TermIndexed := by
  unfold TermIndexed indexesOf
  rw [hen, hfi, hla]
  exact h

theorem termIndexed_reset (io : Except Fault Unit) (log : BufferedRaftLog) :
    (log.reset io).2.TermIndexed := by
  apply tracks_empty.congr
  intro term
  rw [Set.eq_empty_iff_forall_notMem]
  rintro i ⟨e, he, -⟩
  have hno : (log.reset io).2.entry i = some e := he
  rw [entry_reset] at hno
  cases hno

theorem TermIndexed.appendAllocated (h : log.TermIndexed) (hhe : log.Healthy)
    {range : Nat × Nat} {reserved : BufferedRaftLog}
    (hra : log.preAllocateIdRange es.length = (.ok range, reserved))
    (hes : Consecutive Entry.index es range.1) (hpos : ∀ e ∈ es, 1 ≤ e.term) :
    (reserved.appendEntries es).2.TermIndexed := by
  rcases hhe.appendAllocated_cases hra hes hpos with hsa | ⟨hba, hab, haf⟩
  · rw [hsa]
    exact h
  · have hins := h.insertToMemory hhe.wellFormed hba hab
    rw [haf]
    exact hins.of_same rfl rfl rfl

theorem TermIndexed.takeOver (h : log.TermIndexed) (hwe : log.WellFormed) {tail : List Entry}
    (hes : Batch tail) : (log.takeOver tail).TermIndexed := by
  cases tail with
  | nil => exact h
  | cons e =>
    have hlt := hwe.maxIndex_truncatedFor_lt (hes.index_pos e List.mem_cons_self)
    have htr : (log.truncatedFor e).TermIndexed := by
      unfold truncatedFor
      split_ifs
      · exact h.removeRange e.index u64Max
      · exact h
    rw [takeOver_cons]
    exact htr.insertToMemory (hwe.truncatedFor e) hes (batch_above_head hes hlt)

theorem TermIndexed.filterOutConflictsAndAppend (h : log.TermIndexed) (hwe : log.WellFormed)
    (io : Except Fault Unit) (prevLogIndex prevLogTerm : Nat) (hes : Batch es) :
    (log.filterOutConflictsAndAppend io prevLogIndex prevLogTerm es).2.TermIndexed := by
  by_cases hpr : prevLogIndex = 0 ∧ prevLogTerm = 0
  · obtain ⟨rfl, rfl⟩ := hpr
    have hre := termIndexed_reset io log
    cases io with
    | error => exact hre
    | ok =>
      rcases (settles_restart log hes).1 with hsa | haf
      · rw [hsa]
        exact hre
      · rw [haf]
        exact hre.takeOver (wellFormed_reset (.ok ()) log) hes
  · unfold BufferedRaftLog.filterOutConflictsAndAppend
    rw [if_neg hpr]
    cases hte : log.entryTerm prevLogIndex with
    | error => exact h
    | ok =>
      dsimp only
      split_ifs
      · rcases (settles_appendAfterMatch io log es).1 with hsa | haf
        · rw [hsa]
          exact h
        · rw [haf]
          exact h.takeOver hwe (hes.sublist (rewriteTail_suffix log es).sublist)
      · exact h

end BufferedRaftLog

/-! ## Reachable logs -/

open BufferedRaftLog

/-- The tables of every log that is reached are exact. -/
theorem termIndexed_of_reach {log : BufferedRaftLog}
    (hre : logOps.Reach PositiveTerms (some log)) : log.TermIndexed := by
  refine logOps_invariant (fun _ _ boundary hco => termIndexed_new boundary hco.1) ?_ ?_ ?_ ?_
    hre
  · intro log entries range reserved hre hlog hco hra hen
    exact hlog.appendAllocated (healthy_of_reach hre) hra hen hco
  · intro log prevLogIndex prevLogTerm entries hre hlog hco hen hle
    exact hlog.filterOutConflictsAndAppend (healthy_of_reach hre).wellFormed _ prevLogIndex
      prevLogTerm (batch_of_consecutive hen hle hco)
  · intro log cutoff hlog _ _
    exact (hlog.removeRange 0 cutoff.index).of_same rfl rfl rfl
  · intro log _ _
    exact termIndexed_reset _ log

end DEngine.Storage

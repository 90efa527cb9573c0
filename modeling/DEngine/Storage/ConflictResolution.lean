import Mathlib.Data.List.TakeWhile
import DEngine.Storage.LogInvariant

/-!
# What a follower's log holds after a leader's entries

`filterOutConflictsAndAppend` has three ways to change the log: it clears it,
it truncates it at the first diverging entry, or it appends behind its end.
All of them replace everything from one index on by the entries of the
request, so the result is a splice of the old log and the request. The index
where the splice starts depends on the old log and the request alone.
-/

namespace DEngine.Storage

open Library Library.PartialLog

namespace BufferedRaftLog

/-- The entry lies behind the end of the log, or the constant-time overlap test
failed and the log records another term for its index. -/
def conflictsWith (log : BufferedRaftLog) (es : List Entry) (e : Entry) : Bool :=
  decide (log.lastEntryId < e.index) ||
    (!log.overlapSafe (log.overlap es) && decide (log.entryTerm e.index ≠ .ok (some e.term)))

/-- The index from which a request replaces the log: its start when the request
restarts the log, and the first conflicting entry otherwise. -/
def rewriteFrom (log : BufferedRaftLog) (prevLogIndex prevLogTerm : Nat) (es : List Entry) :
    Option Nat :=
  if prevLogIndex = 0 ∧ prevLogTerm = 0 then some 0
  else (es.find? (log.conflictsWith es)).map Entry.index

/-- Replace the log from the first of the given entries on. -/
def takeOver (log : BufferedRaftLog) : List Entry → BufferedRaftLog
  | [] => log
  | e :: rest =>
    if e.index ≤ log.lastEntryId then
      (log.removeRange e.index u64Max).insertToMemory (e :: rest)
    else log.insertToMemory (e :: rest)

/-! ## The log after taking over a tail -/

/-- The log that the first entry of a tail is appended to. -/
def truncatedFor (log : BufferedRaftLog) (e : Entry) : BufferedRaftLog :=
  if e.index ≤ log.lastEntryId then log.removeRange e.index u64Max else log

theorem takeOver_cons (log : BufferedRaftLog) (e : Entry) (rest : List Entry) :
    log.takeOver (e :: rest) = (log.truncatedFor e).insertToMemory (e :: rest) := by
  simp only [takeOver, truncatedFor]
  split_ifs <;> rfl

variable {log : BufferedRaftLog}

theorem WellFormed.truncatedFor (h : log.WellFormed) (e : Entry) :
    (log.truncatedFor e).WellFormed := by
  unfold BufferedRaftLog.truncatedFor
  split_ifs
  · exact h.removeRange e.index u64Max
  · exact h

variable {e : Entry}

theorem WellFormed.maxIndex_truncatedFor_lt (h : log.WellFormed)
    (he : 1 ≤ e.index) : (log.truncatedFor e).maxIndex < e.index := by
  unfold BufferedRaftLog.truncatedFor
  split_ifs with hle
  · exact h.maxIndex_truncate_lt he
  · exact Nat.lt_of_not_le hle

theorem WellFormed.entry_truncatedFor (h : log.WellFormed) (he : 1 ≤ e.index) (i : Nat) :
    (log.truncatedFor e).entry i = if e.index ≤ i then none else log.entry i := by
  split_ifs with hle
  · have hlt := h.maxIndex_truncatedFor_lt he
    exact (h.truncatedFor e).entry_none_of_max_lt (lt_of_lt_of_le hlt hle)
  · unfold BufferedRaftLog.truncatedFor
    split_ifs
    · rw [entry_removeRange, if_neg fun hin => hle hin.1]
    · rfl

theorem batch_above_head {rest : List Entry} (hes : Batch (e :: rest))
    {n : Nat} (hn : n < e.index) : ∀ x ∈ e :: rest, n < x.index := by
  intro x hx
  exact lt_of_lt_of_le hn (hes.head_index_le rfl hx)

variable {tail : List Entry}

theorem WellFormed.takeOver (h : log.WellFormed)
    (hes : Batch tail) : (log.takeOver tail).WellFormed := by
  cases tail with
  | nil => exact h
  | cons e =>
    have hlt := h.maxIndex_truncatedFor_lt (hes.index_pos e List.mem_cons_self)
    rw [takeOver_cons]
    exact (h.truncatedFor e).insertToMemory hes (batch_above_head hes hlt)

theorem WellFormed.maxIndex_takeOver (h : log.WellFormed) (hes : Batch tail) :
    (log.takeOver tail).maxIndex = ((tail.getLast?).map Entry.index).getD log.maxIndex := by
  cases tail with
  | nil => rfl
  | cons e rest =>
    have hlt := h.maxIndex_truncatedFor_lt (hes.index_pos e List.mem_cons_self)
    obtain ⟨last, hla⟩ : ∃ last, (e :: rest).getLast? = some last :=
      ⟨_, List.getLast?_eq_some_getLast (List.cons_ne_nil e rest)⟩
    rw [takeOver_cons, hla]
    exact maxIndex_insertToMemory hla
      (batch_above_head hes hlt last (List.mem_of_getLast? hla))

/-- Taking over the tail of a batch splices the batch into the log at the head of the tail. -/
theorem WellFormed.entry_takeOver (h : log.WellFormed)
    (pre : List Entry) (hes : Batch (pre ++ tail)) :
    (log.takeOver tail).entry =
      splice log.entry (tail.head?.map Entry.index) (ofList Entry.index (pre ++ tail)) := by
  funext i
  cases tail with
  | nil => rfl
  | cons e rest =>
    have hba : Batch (e :: rest) := hes.sublist (List.sublist_append_right pre _)
    have hep := hba.index_pos e List.mem_cons_self
    change (log.takeOver (e :: rest)).entry i =
      splice log.entry (some e.index) (ofList Entry.index (pre ++ e :: rest)) i
    rw [takeOver_cons]
    by_cases hmem : ∃ x ∈ e :: rest, x.index = i
    · obtain ⟨x, hx, rfl⟩ := hmem
      have hge : e.index ≤ x.index := hba.head_index_le rfl hx
      rw [entry_insertToMemory_of_mem hba hx, splice, if_pos hge]
      exact (ofList_of_mem hes.ascending (List.mem_append_right pre hx)).symm
    · have hnot : ∀ x ∈ e :: rest, x.index ≠ i := fun x hx hxi => hmem ⟨x, hx, hxi⟩
      rw [entry_insertToMemory_of_not_mem hnot, h.entry_truncatedFor hep, splice]
      split_ifs with hle
      · -- an index from the head on that the tail does not carry is not in the batch either
        symm
        rw [ofList_eq_none_iff]
        intro x hx
        rcases List.mem_append.mp hx with hpre | hta
        · have := (List.pairwise_append.mp hes.ascending).2.2 x hpre e List.mem_cons_self
          omega
        · exact hnot x hta
      · rfl

/-! ## The three paths of the append -/

/-- The entries of a request from the first conflicting one on. -/
def rewriteTail (log : BufferedRaftLog) (es : List Entry) : List Entry :=
  es.dropWhile fun e => !log.conflictsWith es e

theorem takeWhile_append_rewriteTail (log : BufferedRaftLog) (es : List Entry) :
    (es.takeWhile fun e => !log.conflictsWith es e) ++ log.rewriteTail es = es :=
  List.takeWhile_append_dropWhile

theorem head_rewriteTail (log : BufferedRaftLog) (es : List Entry) :
    (log.rewriteTail es).head? = es.find? (log.conflictsWith es) := by
  rw [rewriteTail, List.find?_eq_head?_dropWhile_not]

theorem rewriteTail_suffix (log : BufferedRaftLog) (es : List Entry) : log.rewriteTail es <:+ es :=
  List.dropWhile_suffix _

variable {es : List Entry}

theorem getLast_rewriteTail
    (hne : log.rewriteTail es ≠ []) : (log.rewriteTail es).getLast? = es.getLast? := by
  conv_rhs => rw [← takeWhile_append_rewriteTail log es]
  rw [List.getLast?_append_of_ne_nil _ hne]

theorem divergingTail_ok (h : log.divergingTail es = .ok tail) :
    tail = es.dropWhile fun e =>
      !(decide (log.lastEntryId < e.index) ||
        decide (log.entryTerm e.index ≠ .ok (some e.term))) := by
  induction es with
  | nil =>
    cases h
    rfl
  | cons e rest ih =>
    rw [divergingTail] at h
    by_cases hla : log.lastEntryId < e.index
    · rw [if_pos hla] at h
      cases h
      simp [hla]
    · rw [if_neg hla] at h
      cases hte : log.entryTerm e.index with
      | error => simp [hte] at h
      | ok term =>
        simp only [hte] at h
        by_cases heq : term = some e.term
        · rw [if_pos heq] at h
          simpa [hla, hte, heq] using ih h
        · rw [if_neg heq] at h
          cases h
          simp [hte, heq]

/-- In the fast path the conflicting entries are those behind the end of the log. -/
theorem rewriteTail_of_safe (hsa : log.overlapSafe (log.overlap es) = true) :
    log.rewriteTail es = es.dropWhile fun e => decide (e.index ≤ log.lastEntryId) := by
  unfold rewriteTail conflictsWith
  congr 1
  funext e
  rw [hsa, Bool.not_true, Bool.false_and, Bool.or_false, ← decide_not]
  exact decide_eq_decide.mpr Nat.not_lt

/-- In the slow path the conflicting entries are those the scan stops at. -/
theorem rewriteTail_of_scan
    (hsa : log.overlapSafe (log.overlap es) = false) (hta : log.divergingTail es = .ok tail) :
    log.rewriteTail es = tail := by
  rw [divergingTail_ok hta]
  unfold rewriteTail conflictsWith
  congr 1
  funext e
  rw [hsa, Bool.not_false, Bool.true_and]

theorem takeOver_of_last_lt
    (h : ∀ e, tail.head? = some e → log.lastEntryId < e.index) (hne : tail ≠ []) :
    log.takeOver tail = log.insertToMemory tail := by
  cases tail with
  | nil => exact absurd rfl hne
  | cons e =>
    have hlt := h e rfl
    exact if_neg (by omega)

/-- A call ends with the log unchanged or in the given state, and it is acknowledged
with the given position only in the latter. -/
def Settles (call : Except Fault (Option LogId) × BufferedRaftLog)
    (log after : BufferedRaftLog) (id : Option LogId) : Prop :=
  (call.2 = log ∨ call.2 = after) ∧ ∀ got, call.1 = .ok got → got = id ∧ call.2 = after

theorem settles_ackLast_appendEntries (log : BufferedRaftLog) (hne : tail ≠ []) :
    Settles (ackLast (log.appendEntries tail) tail) log (log.insertToMemory tail)
      (tail.getLast?.map Entry.logId) := by
  unfold appendEntries
  by_cases hpo : log.poisoned = true
  · simp [hpo, ackLast, Settles]
  · simp [hpo, hne, ackLast, Settles, eq_comm]

theorem settles_unchanged (log : BufferedRaftLog) (id : Option LogId) :
    Settles (.ok id, log) log log id := by
  simp [Settles, eq_comm]

theorem settles_error (fault : Fault) (log after : BufferedRaftLog) (id : Option LogId) :
    Settles (.error fault, log) log after id :=
  ⟨Or.inl rfl, fun _ h => by cases h⟩

/-- A request whose predecessor is recorded takes over its tail from the first conflict on. -/
theorem settles_appendAfterMatch (io : Except Fault Unit) (log : BufferedRaftLog)
    (es : List Entry) :
    Settles (log.appendAfterMatch io es) log (log.takeOver (log.rewriteTail es))
      (es.getLast?.map Entry.logId) := by
  unfold appendAfterMatch
  by_cases hsa : log.overlapSafe (log.overlap es) = true
  · rw [if_pos hsa, ← rewriteTail_of_safe hsa]
    by_cases hnil : log.rewriteTail es = []
    · rw [if_pos hnil, hnil]
      exact settles_unchanged log _
    · rw [if_neg hnil, ← getLast_rewriteTail hnil, takeOver_of_last_lt _ hnil]
      · exact settles_ackLast_appendEntries log hnil
      · intro e he
        rw [rewriteTail_of_safe hsa] at he
        have := List.head?_dropWhile_not (fun e : Entry => decide (e.index ≤ log.lastEntryId)) es
        rw [he] at this
        simpa using this
  · rw [if_neg hsa]
    cases hta : log.divergingTail es with
    | error fault => exact settles_error fault log _ _
    | ok tail =>
      have hre := rewriteTail_of_scan (Bool.eq_false_iff.mpr hsa) hta
      cases tail with
      | nil =>
        rw [hre]
        exact settles_unchanged log _
      | cons e rest =>
        have hne : log.rewriteTail es ≠ [] := by
          rw [hre]
          exact List.cons_ne_nil e rest
        rw [← getLast_rewriteTail hne, hre]
        by_cases hle : e.index ≤ log.lastEntryId
        · simp only [if_pos hle, takeOver]
          cases io with
          | error => exact ⟨Or.inr rfl, fun _ h => by cases h⟩
          | ok => exact ⟨Or.inr rfl, fun got h => by cases h; exact ⟨rfl, rfl⟩⟩
        · simp only [if_neg hle, takeOver]
          exact settles_ackLast_appendEntries log (List.cons_ne_nil e rest)

theorem takeOver_reset (io : Except Fault Unit) (log : BufferedRaftLog)
    (hes : Batch es) (hne : es ≠ []) :
    (log.reset io).2.takeOver es = (log.reset io).2.insertToMemory es := by
  refine takeOver_of_last_lt (fun e he => ?_) hne
  exact hes.index_pos e (List.mem_of_head? he)

/-- A request that restarts the log leaves it unchanged up to a reset, or replaces it. -/
theorem settles_restart (log : BufferedRaftLog) (hes : Batch es) :
    Settles (log.filterOutConflictsAndAppend (.ok ()) 0 0 es) (log.reset (.ok ())).2
      ((log.reset (.ok ())).2.takeOver es) (es.getLast?.map Entry.logId) := by
  change Settles (ackLast ((log.reset (.ok ())).2.appendEntries es) es) _ _ _
  by_cases hne : es = []
  · subst hne
    unfold appendEntries
    by_cases hpo : (log.reset (.ok ())).2.poisoned = true
    · rw [if_pos hpo]
      exact settles_error _ _ _ _
    · rw [if_neg hpo, if_pos rfl]
      exact settles_unchanged _ _
  · rw [takeOver_reset (.ok ()) log hes hne]
    exact settles_ackLast_appendEntries _ hne

/-- The follower starts over or finds the predecessor of the request in its log. -/
def Matches (log : BufferedRaftLog) (prevLogIndex prevLogTerm : Nat) : Prop :=
  (prevLogIndex = 0 ∧ prevLogTerm = 0) ∨ log.entryTerm prevLogIndex = .ok (some prevLogTerm)

instance (log : BufferedRaftLog) (prevLogIndex prevLogTerm : Nat) :
    Decidable (log.Matches prevLogIndex prevLogTerm) :=
  inferInstanceAs (Decidable (_ ∨ _))

/-- Every outcome of the append keeps the log well formed. -/
theorem WellFormed.filterOutConflictsAndAppend (h : log.WellFormed)
    (io : Except Fault Unit) (prevLogIndex prevLogTerm : Nat) (hes : Batch es) :
    (log.filterOutConflictsAndAppend io prevLogIndex prevLogTerm es).2.WellFormed := by
  by_cases hpr : prevLogIndex = 0 ∧ prevLogTerm = 0
  · obtain ⟨rfl, rfl⟩ := hpr
    have hre := wellFormed_reset io log
    cases io with
    | error => exact hre
    | ok =>
      rcases (settles_restart log hes).1 with hsa | haf
      · rw [hsa]
        exact hre
      · rw [haf]
        exact hre.takeOver hes
  · unfold BufferedRaftLog.filterOutConflictsAndAppend
    rw [if_neg hpr]
    cases hte : log.entryTerm prevLogIndex with
    | error => exact h
    | ok term =>
      by_cases hma : term = some prevLogTerm
      · simp only [if_pos hma]
        rcases (settles_appendAfterMatch io log es).1 with hsa | haf
        · rw [hsa]
          exact h
        · rw [haf]
          exact h.takeOver (hes.sublist (rewriteTail_suffix log es).sublist)
      · simp only [if_neg hma]
        exact h

/-- What a successful append returns and what it leaves. -/
structure Appended (log after : BufferedRaftLog) (prevLogIndex prevLogTerm : Nat)
    (es : List Entry) (id : Option LogId) : Prop where
  id_eq : id = es.getLast?.map Entry.logId
  entry_eq : after.entry =
    splice log.entry (log.rewriteFrom prevLogIndex prevLogTerm es) (ofList Entry.index es)
  max_eq : after.maxIndex =
    match log.rewriteFrom prevLogIndex prevLogTerm es with
    | none => log.maxIndex
    | some _ => (es.getLast?.map Entry.index).getD 0
  purged_eq : after.lastPurgedIndex = log.lastPurgedIndex

/-- The purge boundary and the mark of a failed write stay. -/
theorem takeOver_leaves (log : BufferedRaftLog) (tail : List Entry) :
    (log.takeOver tail).lastPurgedIndex = log.lastPurgedIndex ∧
      (log.takeOver tail).lastPurgedTerm = log.lastPurgedTerm ∧
      (log.takeOver tail).poisoned = log.poisoned := by
  cases tail with
  | nil => exact ⟨rfl, rfl, rfl⟩
  | cons =>
    rw [takeOver]
    split_ifs
    · exact ⟨rfl, rfl, rfl⟩
    · exact ⟨rfl, rfl, rfl⟩

/-- A successful append splices the request into the log where the rewrite starts. -/
theorem WellFormed.appended (h : log.WellFormed)
    {io : Except Fault Unit} {prevLogIndex prevLogTerm : Nat}
    (hes : Batch es) (hma : log.Matches prevLogIndex prevLogTerm) {id : Option LogId}
    (hok : (log.filterOutConflictsAndAppend io prevLogIndex prevLogTerm es).1 = .ok id) :
    Appended log (log.filterOutConflictsAndAppend io prevLogIndex prevLogTerm es).2
      prevLogIndex prevLogTerm es id := by
  by_cases hpr : prevLogIndex = 0 ∧ prevLogTerm = 0
  · obtain ⟨rfl, rfl⟩ := hpr
    have hre := wellFormed_reset io log
    cases io with
    | error => cases hok
    | ok _ =>
      obtain ⟨hid, haf⟩ := (settles_restart log hes).2 id hok
      rw [haf]
      refine ⟨hid, ?_, ?_, (takeOver_leaves _ es).1⟩
      · rw [hre.entry_takeOver [] hes, List.nil_append]
        funext i
        cases es with
        | nil => simp [rewriteFrom, splice, ofList]
        | cons =>
          simp only [rewriteFrom, splice, List.head?_cons, Option.map_some, and_self, if_true,
            Nat.zero_le]
          split_ifs with hle
          · rfl
          · rw [entry_reset, eq_comm, ofList_eq_none_iff]
            intro x hx
            have := hes.head_index_le rfl hx
            omega
      · rw [hre.maxIndex_takeOver hes]
        rfl
  · have hte : log.entryTerm prevLogIndex = .ok (some prevLogTerm) := hma.resolve_left hpr
    have heq : log.filterOutConflictsAndAppend io prevLogIndex prevLogTerm es =
        log.appendAfterMatch io es := by
      simp [BufferedRaftLog.filterOutConflictsAndAppend, hpr, hte]
    have hsp := takeWhile_append_rewriteTail log es
    have hba : Batch (log.rewriteTail es) :=
      hes.sublist (rewriteTail_suffix log es).sublist
    have hfr : log.rewriteFrom prevLogIndex prevLogTerm es =
        (log.rewriteTail es).head?.map Entry.index := by
      rw [rewriteFrom, if_neg hpr, head_rewriteTail]
    rw [heq] at hok ⊢
    obtain ⟨hid, haf⟩ := (settles_appendAfterMatch io log es).2 id hok
    rw [haf]
    refine ⟨hid, ?_, ?_, (takeOver_leaves log _).1⟩
    · rw [hfr, h.entry_takeOver _ (hsp.symm ▸ hes), hsp]
    · rw [hfr, h.maxIndex_takeOver hba]
      cases hta : log.rewriteTail es with
      | nil => rfl
      | cons e rest =>
        have hne : log.rewriteTail es ≠ [] := by
          rw [hta]
          exact List.cons_ne_nil e rest
        rw [← hta, getLast_rewriteTail hne, hta]
        obtain ⟨last, hla⟩ : ∃ last, es.getLast? = some last := by
          rw [← getLast_rewriteTail hne]
          exact ⟨_, List.getLast?_eq_some_getLast hne⟩
        simp [hla]

end BufferedRaftLog

end DEngine.Storage

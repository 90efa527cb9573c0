import DEngine.Storage.Contiguity

/-!
# The log follows the receiver rule

A follower that finds the predecessor of a request in its log keeps what agrees
with the request, adds what is missing, and replaces everything from the first
entry of another term on. The log does not compare entry by entry: where the
request lies in the newest term segment it looks at two terms only. Both ways
follow the rule, as long as the log has no hole where the request lies.

## Implementation notes

`segCount` counts the term changes since the last reset. A log that saw more of them
than the segment arrays have slots may panic where it looks up a term.
-/

namespace DEngine.Storage

open Library Library.PartialLog

namespace BufferedRaftLog

/-- A request that does not match changes nothing; one that matches is taken over by the receiver
rule and acknowledged with its last position. -/
structure FollowsReceiverRule (log : BufferedRaftLog) (prevLogIndex prevLogTerm : Nat)
    (es : List Entry) : Prop where
  rejected : log.entryTerm prevLogIndex ≠ .ok (some prevLogTerm) →
    log.filterOutConflictsAndAppend (.ok ()) prevLogIndex prevLogTerm es = (.ok log.lastLogId, log)
  acknowledged : log.entryTerm prevLogIndex = .ok (some prevLogTerm) →
    (log.filterOutConflictsAndAppend (.ok ()) prevLogIndex prevLogTerm es).1 =
      .ok (es.getLast?.map Entry.logId)
  received : log.entryTerm prevLogIndex = .ok (some prevLogTerm) →
    (log.filterOutConflictsAndAppend (.ok ()) prevLogIndex prevLogTerm es).2.entry =
      receive Entry.index Entry.term log.entry es

/-- The log holds every index of the request that is not behind its end. -/
def HoldsOverlap (log : BufferedRaftLog) (es : List Entry) : Prop :=
  ∀ e ∈ es, e.index ≤ log.lastEntryId → (log.entry e.index).isSome
deriving Decidable

/-! ## Lookups of terms -/

variable {log : BufferedRaftLog} {es : List Entry}

/-- No lookup panics while every archived segment has a slot. -/
theorem entryTerm_ok (hsl : log.termSegments.segCount ≤ maxTermSegments) (i : Nat) :
    ∃ term, log.entryTerm i = .ok term := by
  obtain ⟨answer, hans⟩ := TermSegments.exists_get hsl i
  unfold entryTerm
  split_ifs
  · exact ⟨_, rfl⟩
  · exact ⟨_, rfl⟩
  · rw [hans]
    cases answer with
    | none | some term => exact ⟨_, rfl⟩

variable {e : Entry}

theorem entryTerm_of_held (h : log.WellFormed)
    (hsl : log.termSegments.segCount ≤ maxTermSegments) {i : Nat}
    (he : log.entry i = some e) : log.entryTerm i = .ok (some e.term) := by
  obtain ⟨term, hte⟩ := entryTerm_ok hsl i
  rw [hte, h.entryTerm_of_entry he hte]

theorem divergingTail_isOk (hsl : log.termSegments.segCount ≤ maxTermSegments)
    (es : List Entry) : ∃ tail, log.divergingTail es = .ok tail := by
  induction es with
  | nil => exact ⟨[], rfl⟩
  | cons e rest ih =>
    obtain ⟨term, hte⟩ := entryTerm_ok hsl e.index
    rw [divergingTail, hte]
    split_ifs
    · exact ⟨_, rfl⟩
    · dsimp only
      split_ifs
      · exact ih
      · exact ⟨_, rfl⟩

/-! ## The overlap -/

/-- Where the request lies in the newest segment, the log holds entries of its term. -/
theorem WellFormed.term_of_overlapSafe (h : log.WellFormed) (hes : Batch es)
    (htr : es.Pairwise fun a b => a.term ≤ b.term)
    (hsa : log.overlapSafe (log.overlap es) = true) {held : Entry} (he : e ∈ es)
    (hle : e.index ≤ log.lastEntryId) (hhe : log.entry e.index = some held) :
    held.term = e.term := by
  have hsub : (log.overlap es).Sublist es := (List.takeWhile_prefix _).sublist
  have hmem : e ∈ log.overlap es := by
    -- the entries before one that lies within the log lie within it as well
    obtain ⟨before, after, rfl⟩ := List.append_of_mem he
    have hbe : ∀ a ∈ before, a.index ≤ log.lastEntryId := fun a ha =>
      (le_of_lt ((List.pairwise_append.mp hes.ascending).2.2 a ha e List.mem_cons_self)).trans hle
    rw [overlap, List.takeWhile_append_of_pos (by simpa using hbe),
      List.takeWhile_cons_of_pos (by simpa using hle)]
    exact List.mem_append_right _ List.mem_cons_self
  obtain ⟨first, hfi⟩ : ∃ first, (log.overlap es).head? = some first :=
    ⟨_, List.head?_eq_some_head (List.ne_nil_of_mem hmem)⟩
  obtain ⟨last, hla⟩ : ∃ last, (log.overlap es).getLast? = some last :=
    ⟨_, List.getLast?_eq_some_getLast (List.ne_nil_of_mem hmem)⟩
  rw [overlapSafe, hfi, hla] at hsa
  obtain ⟨hst, hfs, hls⟩ := of_decide_eq_true hsa
  have hov := htr.sublist hsub
  have hlow : first.term ≤ e.term := by
    obtain ⟨rest, hre⟩ := List.head?_eq_some_iff.mp hfi
    rw [hre] at hov hmem
    rcases List.mem_cons.mp hmem with rfl | hin
    · exact le_rfl
    · exact (List.pairwise_cons.mp hov).1 e hin
  have hhi : e.term ≤ last.term := by
    obtain ⟨front, hfr⟩ := List.getLast?_eq_some_iff.mp hla
    rw [hfr] at hov hmem
    rcases List.mem_append.mp hmem with hin | hin
    · exact (List.pairwise_append.mp hov).2.2 e hin last (by simp)
    · rw [List.mem_singleton.mp hin]
  have hte : e.term = log.termSegments.lastTerm := by omega
  have hidx : log.termSegments.lastTermStart ≤ e.index :=
    hst.trans ((hes.sublist hsub).head_index_le hfi hmem)
  have hne : log.termSegments.lastTerm ≠ 0 := by
    have := hes.term_pos e he
    omega
  have hans := h.answers _ held hhe _ (TermSegments.get_of_lastTermStart_le hne hidx)
  rw [hte, hans]

/-- Both tests of the overlap find what the receiver rule replaces. -/
theorem conflictsWith_iff (h : log.WellFormed)
    (hsl : log.termSegments.segCount ≤ maxTermSegments) (hes : Batch es)
    (hte : es.Pairwise fun a b => a.term ≤ b.term) (hho : log.HoldsOverlap es) (he : e ∈ es) :
    log.conflictsWith es e = true ↔
      log.lastEntryId < e.index ∨ clashes Entry.index Entry.term log.entry e = true := by
  rw [conflictsWith, Bool.or_eq_true, decide_eq_true_eq]
  apply or_congr_right'
  intro hle
  obtain ⟨held, hhe⟩ := Option.isSome_iff_exists.mp (hho e he (Nat.le_of_not_lt hle))
  have hcl : clashes Entry.index Entry.term log.entry e = true ↔ held.term ≠ e.term := by
    rw [clashes, hhe]
    exact decide_eq_true_iff
  rw [hcl, entryTerm_of_held h hsl hhe]
  by_cases hsa : log.overlapSafe (log.overlap es) = true
  · have hsm := h.term_of_overlapSafe hes hte hsa he (Nat.le_of_not_lt hle) hhe
    simp [hsa, hsm]
  · simp [hsa]

/-! ## The call -/

theorem appendAfterMatch_isOk (hsl : log.termSegments.segCount ≤ maxTermSegments)
    (hso : log.poisoned = false) (es : List Entry) :
    ∃ id, (log.appendAfterMatch (.ok ()) es).1 = .ok id := by
  have happ : ∀ tail, ∃ id, (ackLast (log.appendEntries tail) tail).1 = .ok id := by
    intro tail
    unfold appendEntries
    rw [if_neg (by simp [hso])]
    split_ifs
    · exact ⟨_, rfl⟩
    · exact ⟨_, rfl⟩
  obtain ⟨tail, hta⟩ := divergingTail_isOk hsl es
  unfold appendAfterMatch
  rw [hta]
  dsimp only
  split_ifs
  · exact ⟨_, rfl⟩
  · exact happ _
  · cases tail with
    | nil => exact ⟨_, rfl⟩
    | cons =>
      dsimp only
      split_ifs
      · exact ⟨_, rfl⟩
      · exact happ _

theorem WellFormed.followsReceiverRule (h : log.WellFormed)
    (hsl : log.termSegments.segCount ≤ maxTermSegments) (hso : log.poisoned = false)
    {prevLogIndex : Nat} (hpr : 1 ≤ prevLogIndex) (prevLogTerm : Nat) (hes : Batch es)
    (htr : es.Pairwise fun a b => a.term ≤ b.term) (hho : log.HoldsOverlap es) :
    log.FollowsReceiverRule prevLogIndex prevLogTerm es := by
  have hnot : ¬ (prevLogIndex = 0 ∧ prevLogTerm = 0) := by omega
  obtain ⟨term, hte⟩ := entryTerm_ok hsl prevLogIndex
  have hmt : log.entryTerm prevLogIndex = .ok (some prevLogTerm) →
      ∃ id, (log.filterOutConflictsAndAppend (.ok ()) prevLogIndex prevLogTerm es).1 = .ok id ∧
        Appended log (log.filterOutConflictsAndAppend (.ok ()) prevLogIndex prevLogTerm es).2
          prevLogIndex prevLogTerm es id := by
    intro hma
    have heq : log.filterOutConflictsAndAppend (.ok ()) prevLogIndex prevLogTerm es =
        log.appendAfterMatch (.ok ()) es := by
      simp [BufferedRaftLog.filterOutConflictsAndAppend, hnot, hma]
    obtain ⟨id, hid⟩ := appendAfterMatch_isOk hsl hso es
    rw [← heq] at hid
    exact ⟨id, hid, h.appended hes (.inr hma) hid⟩
  constructor
  · intro hne
    rw [hte] at hne
    have hne : term ≠ some prevLogTerm := fun heq => hne (by rw [heq])
    simp [BufferedRaftLog.filterOutConflictsAndAppend, hnot, hte, hne]
  · intro hma
    obtain ⟨id, hid, hap⟩ := hmt hma
    rw [hid, hap.id_eq]
  · intro hma
    obtain ⟨id, -, hap⟩ := hmt hma
    rw [hap.entry_eq, rewriteFrom, if_neg hnot]
    apply splice_eq_receive hes.ascending h.le_max
    · exact fun e he hle => Option.isSome_iff_exists.mp (hho e he hle)
    · exact fun e he => conflictsWith_iff h hsl hes htr hho he

end BufferedRaftLog

/-! ## Reachable logs -/

open BufferedRaftLog

/-- Entries have terms from one on, and a store returns what it holds, in the order of the
indexes. -/
def PositiveTerms : Option BufferedRaftLog → LogOp → Prop
  | none, .openLog diskLen loaded _ => Batch loaded ∧ ∀ e ∈ loaded, e.index ≤ diskLen
  | some _, .append entries => ∀ e ∈ entries, 1 ≤ e.term
  | some _, .replicate _ _ entries => ∀ e ∈ entries, 1 ≤ e.term
  | _, _ => True

instance : ∀ s op, Decidable (PositiveTerms s op)
  | none, .openLog _ _ _ => inferInstanceAs (Decidable (_ ∧ _))
  | some _, .append entries => inferInstanceAs (Decidable (∀ e ∈ entries, _))
  | some _, .replicate _ _ entries => inferInstanceAs (Decidable (∀ e ∈ entries, _))
  | none, .append _ | none, .replicate _ _ _ | none, .purge _ | none, .reset
  | some _, .openLog _ _ _ | some _, .purge _ | some _, .reset => isTrue trivial

/-- The fields of the log describe its entries, and its storage thread is alive. -/
structure BufferedRaftLog.Healthy (log : BufferedRaftLog) : Prop where
  wellFormed : log.WellFormed
  sound : log.poisoned = false

namespace BufferedRaftLog

variable {log : BufferedRaftLog} {es : List Entry}

theorem batch_of_consecutive {start : Nat} (hes : Consecutive Entry.index es (start + 1))
    (hle : start + es.length ≤ u64Max) (hpos : ∀ e ∈ es, 1 ≤ e.term) : Batch es where
  ascending := hes.ascending
  index_pos := by
    intro e he
    have := hes.bounds he
    omega
  index_le := by
    intro e he
    have := hes.bounds he
    omega
  term_pos := hpos

/-- Nothing is appended, or a batch that lies behind the log. -/
theorem Healthy.appendAllocated_cases (h : log.Healthy) {range : Nat × Nat}
    {reserved : BufferedRaftLog} (hra : log.preAllocateIdRange es.length = (.ok range, reserved))
    (hes : Consecutive Entry.index es range.1) (hpos : ∀ e ∈ es, 1 ≤ e.term) :
    (reserved.appendEntries es).2 = log ∨
      Batch es ∧ (∀ e ∈ es, log.maxIndex < e.index) ∧
        (reserved.appendEntries es).2 =
          ({ log with nextId := log.nextId + es.length } : BufferedRaftLog).insertToMemory es := by
  rcases appendReserved_cases h.sound hra with hsa | ⟨hne, rfl, hov, haf⟩
  · exact .inl hsa
  have hlen : 0 < es.length := List.length_pos_iff.mpr hne
  have hnx := h.wellFormed.max_lt_next
  have hfi : Consecutive Entry.index es (log.nextId - 1 + 1) := by
    rw [Nat.sub_add_cancel (by omega)]
    exact hes
  refine .inr ⟨batch_of_consecutive hfi (by omega) hpos, ?_, haf⟩
  exact fun e he => lt_of_lt_of_le hnx (hes.bounds he).1

theorem Healthy.appendAllocated (h : log.Healthy) {range : Nat × Nat} {reserved : BufferedRaftLog}
    (hra : log.preAllocateIdRange es.length = (.ok range, reserved))
    (hes : Consecutive Entry.index es range.1) (hpos : ∀ e ∈ es, 1 ≤ e.term) :
    (reserved.appendEntries es).2.Healthy := by
  rcases h.appendAllocated_cases hra hes hpos with hsa | ⟨hba, hab, haf⟩
  · rw [hsa]
    exact h
  · have hre : ({ log with nextId := log.nextId + es.length } : BufferedRaftLog).WellFormed :=
      h.wellFormed.of_same rfl rfl rfl rfl (Nat.le_add_right _ _)
    rw [haf]
    exact ⟨hre.insertToMemory hba hab, h.sound⟩

theorem poisoned_filterOutConflictsAndAppend (log : BufferedRaftLog)
    (prevLogIndex prevLogTerm : Nat) (es : List Entry) :
    (log.filterOutConflictsAndAppend (.ok ()) prevLogIndex prevLogTerm es).2.poisoned =
      log.poisoned := by
  have happ : ∀ log : BufferedRaftLog, (log.appendEntries es).2.poisoned = log.poisoned := by
    intro log
    unfold appendEntries
    split_ifs <;> rfl
  unfold filterOutConflictsAndAppend
  split_ifs
  · change (ackLast _ _).2.poisoned = _
    rw [snd_ackLast, happ]
  · split
    · rfl
    · split_ifs
      · rcases (settles_appendAfterMatch (.ok ()) log es).1 with hsa | haf
        · rw [hsa]
        · rw [haf, (takeOver_leaves _ _).2.2]
      · rfl

end BufferedRaftLog

theorem healthy_of_reach {log : BufferedRaftLog} (h : logOps.Reach PositiveTerms (some log)) :
    log.Healthy := by
  refine logOps_invariant (fun _ _ boundary hco => ?_) ?_ ?_ ?_ ?_ h
  · exact ⟨wellFormed_new boundary hco.1 hco.2, rfl⟩
  · intro log entries range reserved _ hlog hco hra hen
    exact hlog.appendAllocated hra hen hco
  · intro log prevLogIndex prevLogTerm entries _ hlog hco hen hle
    have hba := batch_of_consecutive hen hle hco
    refine ⟨hlog.wellFormed.filterOutConflictsAndAppend _ prevLogIndex prevLogTerm hba, ?_⟩
    rw [poisoned_filterOutConflictsAndAppend, hlog.sound]
  · intro log cutoff hlog _ _
    exact ⟨hlog.wellFormed.purgeLogsUpTo _ cutoff, hlog.sound⟩
  · intro log hlog _
    exact ⟨wellFormed_reset _ log, hlog.sound⟩

/-- In every log that is reached, with at most as many term changes since the last reset as there
are slots for segments, a contiguous request behind a position of the log follows the receiver
rule, if the log has no hole where the request lies. -/
theorem followsReceiverRule_of_reach {log : BufferedRaftLog}
    (hreach : logOps.Reach PositiveTerms (some log))
    (hslots : log.termSegments.segCount ≤ maxTermSegments) {prevLogIndex : Nat}
    (hprev : 1 ≤ prevLogIndex) (prevLogTerm : Nat) {es : List Entry}
    (hes : Consecutive Entry.index es (prevLogIndex + 1)) (hle : prevLogIndex + es.length ≤ u64Max)
    (hterms : es.Pairwise fun a b => a.term ≤ b.term) (hpos : ∀ e ∈ es, 1 ≤ e.term)
    (hholds : log.HoldsOverlap es) : log.FollowsReceiverRule prevLogIndex prevLogTerm es := by
  have h := healthy_of_reach hreach
  exact h.wellFormed.followsReceiverRule hslots h.sound hprev prevLogTerm
    (batch_of_consecutive hes hle hpos) hterms hholds

/-- A log of two terms, and a request that conflicts with its last entry. -/
theorem conflicting_request_follows_rule :
    ∃ log, logOps.Reach PositiveTerms (some log) ∧
      log.FollowsReceiverRule 1 1 [⟨2, 2, none⟩, ⟨3, 3, none⟩, ⟨4, 3, none⟩] ∧
      log.entryTerm 1 = .ok (some 1) ∧ log.entry 3 = some ⟨3, 2, none⟩ ∧
      (log.filterOutConflictsAndAppend (.ok ()) 1 1
        [⟨2, 2, none⟩, ⟨3, 3, none⟩, ⟨4, 3, none⟩]).2.entry 3 = some ⟨3, 3, none⟩ := by
  have hrun : ∃ s, logOps.Reach PositiveTerms s ∧ s.any (fun log => decide
      (log.termSegments.segCount ≤ maxTermSegments ∧
        log.HoldsOverlap [⟨2, 2, none⟩, ⟨3, 3, none⟩, ⟨4, 3, none⟩] ∧
        log.entryTerm 1 = .ok (some 1) ∧ log.entry 3 = some ⟨3, 2, none⟩ ∧
        (log.filterOutConflictsAndAppend (.ok ()) 1 1
          [⟨2, 2, none⟩, ⟨3, 3, none⟩, ⟨4, 3, none⟩]).2.entry 3 = some ⟨3, 3, none⟩)) = true :=
    Machine.exists_reach_of_runIf [emptyStore, threeInTermOne,
      .replicate 1 1 [⟨2, 2, none⟩, ⟨3, 2, none⟩]] rfl (by decide +kernel)
  obtain ⟨s, hs, hany⟩ := hrun
  cases s with
  | none => cases hany
  | some log =>
    obtain ⟨hsl, hho, hma, hbe, haf⟩ := of_decide_eq_true hany
    exact ⟨log, hs, followsReceiverRule_of_reach hs hsl (by decide) 1 (by decide) (by decide)
      (by decide) (by decide) hho, hma, hbe, haf⟩

/-- A follower's log is truncated, and the node then appends as a leader behind the identifiers
that it handed out before: the log has a hole. The term index answers for the hole with the term
of the segment before it, so a request that would fill the hole is acknowledged and changes
nothing. -/
theorem hole_acknowledged :
    ∃ log, logOps.Reach PositiveTerms (some log) ∧
      log.termSegments.segCount ≤ maxTermSegments ∧ log.entryTerm 2 = .ok (some 2) ∧
      log.filterOutConflictsAndAppend (.ok ()) 2 2 [⟨3, 2, none⟩, ⟨4, 3, none⟩] =
        (.ok (some ⟨3, 4⟩), log) ∧
      log.entry 3 = none ∧ ¬ log.FollowsReceiverRule 2 2 [⟨3, 2, none⟩, ⟨4, 3, none⟩] := by
  have hrun : ∃ s, logOps.Reach PositiveTerms s ∧ s.any (fun log => decide
      (log.termSegments.segCount ≤ maxTermSegments ∧ log.entryTerm 2 = .ok (some 2) ∧
        log.filterOutConflictsAndAppend (.ok ()) 2 2 [⟨3, 2, none⟩, ⟨4, 3, none⟩] =
          (.ok (some ⟨3, 4⟩), log) ∧
        log.entry 3 = none ∧ receive Entry.index Entry.term log.entry
          [⟨3, 2, none⟩, ⟨4, 3, none⟩] 3 = some ⟨3, 2, none⟩)) = true :=
    Machine.exists_reach_of_runIf [emptyStore, threeInTermOne,
      .replicate 1 1 [⟨2, 2, none⟩], .append [⟨4, 3, none⟩]] rfl (by decide +kernel)
  obtain ⟨s, hs, hany⟩ := hrun
  cases s with
  | none => cases hany
  | some log =>
    obtain ⟨hsl, hma, hca, hho, hru⟩ := of_decide_eq_true hany
    refine ⟨log, hs, hsl, hma, hca, hho, fun h => ?_⟩
    have hre := congrFun (h.received hma) 3
    rw [hca, hho, hru] at hre
    cases hre

end DEngine.Storage

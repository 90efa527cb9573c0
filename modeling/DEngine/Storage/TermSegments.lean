import DEngine.Proto

/-!
# The term boundary index

`TermSegments` answers "which term does index `i` have" without reading the log.
The newest segment is kept apart; older segments are archived in append order
and scanned from the newest to the oldest. Truncating the log does not touch
the archive, so it can hold segments of entries that no longer exist. The main
result says that such leftovers never change an answer: appending an entry
above every index in use keeps the answer of all of them.

## Implementation notes

The two parallel arrays are one list of pairs, newest first. `segCount` counts
every archived segment, also the ones that no longer fit into the arrays; the
scan starts at slot `segCount - 1`, so a count above the capacity is an
out-of-bounds access.
-/

namespace DEngine.Storage

/-- Capacity of the segment arrays. -/
def maxTermSegments : Nat := 1024

structure TermSegments where
  lastTerm : Nat
  lastTermStart : Nat
  segCount : Nat
  /-- Start and term of the archived segments that found a slot, newest first. -/
  segs : List (Nat × Nat)
deriving DecidableEq, Repr

namespace TermSegments

def new : TermSegments := ⟨0, 0, 0, []⟩

/-- The scan over the archived segments, from the newest to the oldest. -/
def scan (segs : List (Nat × Nat)) (index : Nat) : Option Nat :=
  (segs.find? fun s => decide (s.1 ≤ index)).map Prod.snd

def get (ts : TermSegments) (index : Nat) : Except Fault (Option Nat) :=
  if ts.lastTerm = 0 then .ok none
  else if ts.lastTermStart ≤ index then .ok (some ts.lastTerm)
  else if maxTermSegments < ts.segCount then
    .error (.panic "index out of bounds: the len is 1024")
  else .ok (scan ts.segs index)

/-- The loop body of `onAppend`. -/
def onAppendEntry (ts : TermSegments) (entry : Entry) : TermSegments :=
  if entry.term = ts.lastTerm then
    if entry.index < ts.lastTermStart then { ts with lastTermStart := entry.index } else ts
  else if ts.lastTerm = 0 then
    { ts with lastTermStart := entry.index, lastTerm := entry.term }
  else
    { lastTerm := entry.term
      lastTermStart := entry.index
      segCount := ts.segCount + 1
      segs := if ts.segCount < maxTermSegments then
          (ts.lastTermStart, ts.lastTerm) :: ts.segs
        else ts.segs }

def onAppend (ts : TermSegments) (entries : List Entry) : TermSegments :=
  entries.foldl onAppendEntry ts

def clear (_ts : TermSegments) : TermSegments := ⟨0, 0, 0, []⟩

/-- The index never answers a wrong term for an entry at `index` of term `term`.
It may still have no answer, or panic in the scan. -/
def Answers (ts : TermSegments) (index term : Nat) : Prop :=
  ∀ t, ts.get index = .ok (some t) → t = term

/-- Without a newest segment there are no archived ones either. -/
def Fresh (ts : TermSegments) : Prop := ts.lastTerm = 0 → ts.segs = []

theorem fresh_new : new.Fresh := fun _ => rfl

theorem fresh_clear (ts : TermSegments) : ts.clear.Fresh := fun _ => rfl

variable {ts : TermSegments} {index : Nat}

theorem get_of_lastTermStart_le (hne : ts.lastTerm ≠ 0)
    (hle : ts.lastTermStart ≤ index) : ts.get index = .ok (some ts.lastTerm) := by
  simp [get, hne, hle]

theorem lastTerm_onAppendEntry (ts : TermSegments) (e : Entry) :
    (ts.onAppendEntry e).lastTerm = e.term := by
  unfold onAppendEntry
  split_ifs with hte <;> simp [hte]

variable {e : Entry}

theorem fresh_onAppendEntry (ts : TermSegments) (hpos : 1 ≤ e.term) :
    (ts.onAppendEntry e).Fresh := by
  intro hze
  rw [lastTerm_onAppendEntry] at hze
  omega

theorem exists_get (hro : ts.segCount ≤ maxTermSegments) (index : Nat) :
    ∃ answer, ts.get index = .ok answer := by
  unfold get
  rw [if_neg (Nat.not_lt.mpr hro)]
  split_ifs <;> exact ⟨_, rfl⟩

theorem segCount_le_onAppendEntry (ts : TermSegments) (e : Entry) :
    ts.segCount ≤ (ts.onAppendEntry e).segCount := by
  unfold onAppendEntry
  split_ifs <;> first | exact Nat.le_refl _ | exact Nat.le_succ _

theorem segCount_le_onAppend (ts : TermSegments) (entries : List Entry) :
    ts.segCount ≤ (ts.onAppend entries).segCount := by
  induction entries generalizing ts with
  | nil => exact Nat.le_refl _
  | cons e rest ih => exact (segCount_le_onAppendEntry ts e).trans (ih _)

/-- The index answers with the term, unless a segment was dropped and the scan leaves the
arrays. -/
def Finds (ts : TermSegments) (index term : Nat) : Prop :=
  ts.get index = .ok (some term) ∨
    maxTermSegments < ts.segCount ∧ ∃ fault, ts.get index = .error fault

theorem Finds.answers {term : Nat} (h : ts.Finds index term) : ts.Answers index term := by
  intro t ht
  rcases h with hok | ⟨-, fault, herr⟩
  · cases hok.symm.trans ht
    rfl
  · cases herr.symm.trans ht

/-- The entry just appended is answered by the newest segment. -/
theorem get_onAppendEntry_self (ts : TermSegments) (hpos : 1 ≤ e.term) :
    (ts.onAppendEntry e).get e.index = .ok (some e.term) := by
  have hst : (ts.onAppendEntry e).lastTermStart ≤ e.index := by
    unfold onAppendEntry
    split_ifs <;> first | exact Nat.le_refl _ | omega
  have hne : (ts.onAppendEntry e).lastTerm ≠ 0 := by
    rw [lastTerm_onAppendEntry]
    omega
  rw [get_of_lastTermStart_le hne hst, lastTerm_onAppendEntry]

/-- Below the appended entry every answer stays, unless the segment found no slot. -/
theorem get_onAppendEntry (hfr : ts.Fresh) (hpos : 1 ≤ e.term) (hlt : index < e.index) :
    (ts.onAppendEntry e).get index = ts.get index ∨
      maxTermSegments < (ts.onAppendEntry e).segCount ∧
        ∃ fault, (ts.onAppendEntry e).get index = .error fault := by
  unfold onAppendEntry
  have hnot : ¬ e.index ≤ index := by omega
  by_cases hte : e.term = ts.lastTerm
  · have hne : ts.lastTerm ≠ 0 := by omega
    rw [if_pos hte]
    by_cases hba : e.index < ts.lastTermStart
    · have hnot' : ¬ ts.lastTermStart ≤ index := by omega
      exact .inl (by simp [get, hba, hne, hnot, hnot'])
    · rw [if_neg hba]
      exact .inl rfl
  · rw [if_neg hte]
    have hne : e.term ≠ 0 := by omega
    by_cases hze : ts.lastTerm = 0
    · rw [if_pos hze]
      by_cases hfu : maxTermSegments < ts.segCount
      · exact .inr ⟨hfu, by simp [get, hne, hnot, hfu]⟩
      · exact .inl (by simp [get, hne, hnot, hfu, hze, hfr hze, scan])
    · rw [if_neg hze]
      by_cases hro : ts.segCount < maxTermSegments
      · have hfu : ¬ maxTermSegments < ts.segCount + 1 := by omega
        have hfu' : ¬ maxTermSegments < ts.segCount := by omega
        -- the archived segment answers exactly where it answered as the newest one
        by_cases hseg : ts.lastTermStart ≤ index
        · exact .inl (by simp [get, hne, hnot, hfu, hro, scan, hseg, hze])
        · exact .inl (by simp [get, hne, hnot, hfu, hfu', hro, scan, hseg, hze])
      · have hfu : maxTermSegments < ts.segCount + 1 := by omega
        exact .inr ⟨hfu, by simp [get, hne, hnot, hfu]⟩

variable {entries : List Entry}

theorem get_onAppend (hfr : ts.Fresh) (hpos : ∀ e ∈ entries, 1 ≤ e.term)
    (hlt : ∀ e ∈ entries, index < e.index) :
    (ts.onAppend entries).get index = ts.get index ∨
      maxTermSegments < (ts.onAppend entries).segCount ∧
        ∃ fault, (ts.onAppend entries).get index = .error fault := by
  induction entries generalizing ts with
  | nil => exact .inl rfl
  | cons e rest ih =>
    have hep : 1 ≤ e.term := hpos e List.mem_cons_self
    rcases ih (fresh_onAppendEntry ts hep) (fun x hx => hpos x (List.mem_cons_of_mem e hx))
      (fun x hx => hlt x (List.mem_cons_of_mem e hx)) with heq | hov
    · rcases get_onAppendEntry hfr hep (hlt e List.mem_cons_self) with hfi | ⟨hfu, fault, herr⟩
      · exact .inl (heq.trans hfi)
      · exact .inr ⟨hfu.trans_le (segCount_le_onAppend _ rest), fault, heq.trans herr⟩
    · exact .inr hov

/-- An answer about an index below the appended entries was given before. -/
theorem get_of_get_onAppend {t : Nat} (hfr : ts.Fresh) (hpos : ∀ e ∈ entries, 1 ≤ e.term)
    (hlt : ∀ e ∈ entries, index < e.index)
    (ht : (ts.onAppend entries).get index = .ok (some t)) : ts.get index = .ok (some t) := by
  rcases get_onAppend hfr hpos hlt with heq | ⟨-, fault, herr⟩
  · exact heq.symm.trans ht
  · cases herr.symm.trans ht

/-- Appending ascending entries keeps the right answers below them. -/
theorem Answers.onAppend {term : Nat}
    (h : ts.Answers index term) (hfr : ts.Fresh) (hpos : ∀ e ∈ entries, 1 ≤ e.term)
    (hlt : ∀ e ∈ entries, index < e.index) : (ts.onAppend entries).Answers index term :=
  fun t ht => h t (get_of_get_onAppend hfr hpos hlt ht)

theorem Finds.onAppend {term : Nat}
    (h : ts.Finds index term) (hfr : ts.Fresh) (hpos : ∀ e ∈ entries, 1 ≤ e.term)
    (hlt : ∀ e ∈ entries, index < e.index) : (ts.onAppend entries).Finds index term := by
  rcases get_onAppend hfr hpos hlt with heq | hov
  · rcases h with hok | ⟨hfu, fault, herr⟩
    · exact .inl (heq.trans hok)
    · exact .inr ⟨hfu.trans_le (segCount_le_onAppend ts entries), fault, heq.trans herr⟩
  · exact .inr hov

/-- Appended ascending entries are found. -/
theorem finds_onAppend (hpos : ∀ e ∈ entries, 1 ≤ e.term)
    (hs : entries.Pairwise fun a b => a.index < b.index) (he : e ∈ entries) :
    (ts.onAppend entries).Finds e.index e.term := by
  induction entries generalizing ts with
  | nil => cases he
  | cons first rest ih =>
    rw [List.pairwise_cons] at hs
    have hfi : 1 ≤ first.term := hpos first List.mem_cons_self
    have hre : ∀ x ∈ rest, 1 ≤ x.term := fun x hx => hpos x (List.mem_cons_of_mem first hx)
    rcases List.mem_cons.mp he with rfl | hmem
    · have hse : (ts.onAppendEntry e).Finds e.index e.term :=
        .inl (get_onAppendEntry_self ts hfi)
      exact hse.onAppend (fresh_onAppendEntry ts hfi) hre hs.1
    · exact ih hre hs.2 hmem

theorem fresh_onAppend (hfr : ts.Fresh)
    (hpos : ∀ e ∈ entries, 1 ≤ e.term) : (ts.onAppend entries).Fresh := by
  induction entries generalizing ts with
  | nil => exact hfr
  | cons e rest ih =>
    exact ih (fresh_onAppendEntry ts (hpos e List.mem_cons_self))
      fun x hx => hpos x (List.mem_cons_of_mem e hx)

end TermSegments

end DEngine.Storage

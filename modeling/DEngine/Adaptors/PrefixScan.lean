import DEngine.Adaptors.FileApply
import DEngine.Adaptors.RocksDBStateMachine
import DEngine.Library.Transition
import Mathlib.Data.List.DropRight

/-!
# Prefix scans

RocksDB scans a prefix with an iterator from the prefix to its successor, the file store looks at
all keys. Both return the last applied index as the revision of the scan.

## Implementation notes

An iterator reads the column family as of its creation. Reads and writes succeed, and the lease
is injected. The rows of the file store are in the order of their keys.
-/

namespace DEngine.Adaptors

open Apply Library

/-! ## The successor of a prefix -/

/-- Drop trailing bytes that cannot be incremented, and increment the last one that is left. -/
def prefixSuccessor (pre : Bytes) : Option Bytes :=
  let upper := pre.rdropWhile (· == 0xFF)
  upper.getLast?.map fun last => upper.dropLast ++ [last + 1]

theorem prefixSuccessor_cons (b : UInt8) (rest : Bytes) :
    prefixSuccessor (b :: rest) =
      (prefixSuccessor rest).elim (if b = 0xFF then none else some [b + 1]) fun upper =>
        some (b :: upper) := by
  have hdr : (b :: rest).rdropWhile (· == 0xFF) =
      if rest.rdropWhile (· == 0xFF) = [] then if b = 0xFF then [] else [b]
      else b :: rest.rdropWhile (· == 0xFF) := by
    simp only [List.rdropWhile, List.reverse_cons, List.dropWhile_append,
      List.reverse_eq_nil_iff]
    split_ifs <;> simp_all
  simp only [prefixSuccessor, hdr]
  cases hup : rest.rdropWhile (· == 0xFF) with
  | nil => by_cases hb : b = 0xFF <;> simp [hb]
  | cons c front => simp [List.getLast?_eq_getLast_of_ne_nil]

/-- A key is in front of the successor at its first byte or behind it. -/
theorem lt_prefixSuccessor_cons {b c : UInt8} {rest k : Bytes} :
    (∀ upper ∈ prefixSuccessor (b :: rest), compare (c :: k) upper = .lt) ↔
      c < b ∨ c = b ∧ ∀ upper ∈ prefixSuccessor rest, compare k upper = .lt := by
  have hb := b.toNat_lt
  have hc := c.toNat_lt
  rw [prefixSuccessor_cons]
  cases prefixSuccessor rest with
  | some upper => simp [Ordering.then_eq_lt, Std.compare_eq_lt]
  | none =>
    by_cases hmax : b = 0xFF
    · simp [hmax, UInt8.lt_iff_toNat_lt, ← UInt8.toNat_inj]
      omega
    · have hlt : b.toNat ≠ 255 := fun h => hmax (UInt8.toNat_inj.mp h)
      have hnil : compare k [] ≠ .lt := by cases k <;> simp
      simp [hnil, Ordering.then_eq_lt, Std.compare_eq_lt, UInt8.lt_iff_toNat_lt,
        ← UInt8.toNat_inj]
      omega

/-- The keys under a prefix are those from the prefix up to its successor. -/
theorem isPrefix_iff_between {pre k : Bytes} :
    pre <+: k ↔ compare k pre ≠ .lt ∧ ∀ upper ∈ prefixSuccessor pre, compare k upper = .lt := by
  induction pre generalizing k with
  | nil => cases k <;> simp [prefixSuccessor]
  | cons b rest ih =>
    cases k with
    | nil => simp
    | cons c k =>
      rw [List.cons_prefix_cons, ih, lt_prefixSuccessor_cons]
      simp only [List.compare_cons_cons, ne_eq, Ordering.then_eq_lt, Std.compare_eq_lt,
        Std.compare_eq_iff_eq, UInt8.lt_iff_toNat_lt, ← UInt8.toNat_inj]
      constructor
      · rintro ⟨hbc, hle, hlt⟩
        exact ⟨by simp [hbc, hle], .inr ⟨hbc.symm, hlt⟩⟩
      · rintro ⟨hle, hlt | ⟨hbc, hlt⟩⟩
        · exact absurd (.inl hlt) hle
        · exact ⟨hbc.symm, fun h => hle (.inr ⟨hbc, h⟩), hlt⟩

/-! ## The scan -/

structure ScanResult where
  entries : List (Bytes × Bytes)
  revision : Nat
deriving DecidableEq

namespace RocksDBStateMachine

/-- An iterator from a key on, in front of the upper bound. -/
def iterator (content : KeyMap Bytes Bytes) (start : Bytes) (upper : Option Bytes) :
    List (Bytes × Bytes) :=
  content.toList.filter fun row =>
    compare row.1 start != .lt && upper.all fun u => compare row.1 u == .lt

def scanEntries (content : KeyMap Bytes Bytes) (pre : Bytes) : List (Bytes × Bytes) :=
  if pre = [] then []
  else (iterator content pre (prefixSuccessor pre)).takeWhile fun row => pre.isPrefixOf row.1

def scanPrefix (sm : RocksDBStateMachine) (pre : Bytes) : Except Fault ScanResult :=
  if pre = [] then .ok ⟨[], sm.lastAppliedIndex⟩
  else
    match sm.db with
    | none => .error (.notServing "state machine stopped")
    | some db =>
      match db.stateMachineCf with
      | none => .error (.dbError "STATE_MACHINE_CF not found")
      | some cf => .ok ⟨scanEntries cf.content pre, sm.lastAppliedIndex⟩

theorem scanEntries_eq (content : KeyMap Bytes Bytes) {pre : Bytes} (h : pre ≠ []) :
    scanEntries content pre = content.toList.filter fun row => pre.isPrefixOf row.1 := by
  have hra : iterator content pre (prefixSuccessor pre) =
      content.toList.filter fun row => pre.isPrefixOf row.1 := by
    refine List.filter_congr fun row _ => Bool.eq_iff_iff.mpr ?_
    rw [List.isPrefixOf_iff_prefix, isPrefix_iff_between]
    cases prefixSuccessor pre <;> simp
  rw [scanEntries, if_neg h, hra]
  exact List.takeWhile_eq_self_iff.mpr fun row hrow => (List.mem_filter.mp hrow).2

theorem mem_scanEntries {content : KeyMap Bytes Bytes} {pre : Bytes} (h : pre ≠ [])
    (row : Bytes × Bytes) :
    row ∈ scanEntries content pre ↔ pre <+: row.1 ∧ content[row.1]? = some row.2 := by
  rw [scanEntries_eq content h, List.mem_filter, List.isPrefixOf_iff_prefix, and_comm,
    Std.ExtTreeMap.mem_toList_iff_getElem?_eq_some]

/-- A scan returns exactly the pairs under the prefix, in ascending order of the keys. -/
theorem scanPrefix_exact {sm : RocksDBStateMachine} {db : Db}
    {cf : ColumnFamily (KeyMap Bytes Bytes)} {pre : Bytes} (hdb : sm.db = some db)
    (hcf : db.stateMachineCf = some cf) (hpre : pre ≠ []) :
    ∃ scan, sm.scanPrefix pre = .ok scan ∧
      (∀ row, row ∈ scan.entries ↔ pre <+: row.1 ∧ cf.content[row.1]? = some row.2) ∧
      scan.entries.Pairwise fun a b => compare a.1 b.1 = .lt := by
  refine ⟨⟨scanEntries cf.content pre, sm.lastAppliedIndex⟩, ?_, mem_scanEntries hpre, ?_⟩
  · simp only [scanPrefix, if_neg hpre, hdb, hcf]
  · dsimp only
    rw [scanEntries_eq _ hpre]
    exact Std.ExtTreeMap.ordered_keys_toList.sublist List.filter_sublist

/-- A key of the largest byte is found under itself. -/
theorem scanPrefix_of_last_byte :
    let sm : RocksDBStateMachine :=
      ⟨some ⟨some ⟨(∅ : KeyMap Bytes Bytes).insert [0xFF] [1], ∅, 0⟩, none, 0⟩, true, 0, 0, none⟩
    ∃ scan, sm.scanPrefix [0xFF] = .ok scan ∧ ([0xFF], [1]) ∈ scan.entries := by
  intro sm
  obtain ⟨scan, hsc, hmem, -⟩ := scanPrefix_exact (rfl : sm.db = _) rfl
    (by decide : ([0xFF] : Bytes) ≠ [])
  exact ⟨scan, hsc, (hmem _).mpr ⟨List.prefix_rfl, by simp⟩⟩

end RocksDBStateMachine

def FileStateMachine.scanPrefix (sm : FileStateMachine) (pre : Bytes) : ScanResult :=
  ⟨sm.values.toList.filter fun row => pre.isPrefixOf row.1, sm.lastAppliedIndex⟩

/-! ## Scans and chunks -/

/-- A state machine as far as scans and chunks meet in it. -/
structure ScannedMachine (M C : Type) where
  /-- The machine is open and has its lease. -/
  Serving : M → Prop
  interpreter : M → Interpreter
  applyChunk : M → C → List ApplyEntry → Except Fault M
  updateLastApplied : M → LogId → M
  /-- The rows that a scan reads. -/
  entries : M → Bytes → List (Bytes × Bytes)
  /-- A chunk waits for the end of the scans before it writes. -/
  locked : Bool
  applyChunk_refines {sm : M} {chunk : List ApplyEntry} (h : Serving sm)
    (hasc : chunk.Pairwise fun a b => a.index < b.index) (clock : C) :
    ∃ sm', applyChunk sm clock chunk = .ok sm' ∧
      interpreter sm' = ((interpreter sm).run chunk).2 ∧ Serving sm'
  interpreter_updateLastApplied (sm : M) (id : LogId) :
    interpreter (updateLastApplied sm id) = ⟨(interpreter sm).values, id⟩
  serving_updateLastApplied {sm : M} (id : LogId) (h : Serving sm) : Serving (updateLastApplied sm id)
  mem_entries {sm : M} {pre : Bytes} (h : Serving sm) (hpre : pre ≠ []) (row : Bytes × Bytes) :
    row ∈ entries sm pre ↔ pre <+: row.1 ∧ (interpreter sm).values[row.1]? = some row.2

def fileScanned : ScannedMachine FileStateMachine ApplyClock where
  Serving sm := sm.lease.isSome
  interpreter := FileStateMachine.interpreter
  applyChunk sm clock chunk := (sm.applyChunk clock chunk).map fun r => r.2.1
  updateLastApplied := FileStateMachine.updateLastApplied
  entries sm pre := (sm.scanPrefix pre).entries
  locked := true
  applyChunk_refines h hasc clock := by
    obtain ⟨sm', writes, heq, hint, hlease⟩ :=
      FileStateMachine.applyChunk_refines hasc (fun e _ => registers_of_lease h e) clock
    exact ⟨sm', by rw [heq]; rfl, hint, hlease.trans h⟩
  interpreter_updateLastApplied _ _ := rfl
  serving_updateLastApplied _ h := h
  mem_entries _ _ row := by
    rw [FileStateMachine.scanPrefix, List.mem_filter, List.isPrefixOf_iff_prefix, and_comm,
      Std.ExtTreeMap.mem_toList_iff_getElem?_eq_some]
    rfl

def rocksScanned : ScannedMachine RocksDBStateMachine (Nat → Nat) where
  Serving sm := sm.IsOpen ∧ sm.lease.isSome
  interpreter := RocksDBStateMachine.interpreter
  applyChunk sm registeredAt chunk := (sm.applyChunk .none registeredAt chunk).map Prod.snd
  updateLastApplied := RocksDBStateMachine.updateLastApplied
  entries sm pre := RocksDBStateMachine.scanEntries sm.values pre
  locked := false
  applyChunk_refines h hasc registeredAt := by
    obtain ⟨sm', heq, hint, hopen, hlease⟩ :=
      RocksDBStateMachine.applyChunk_refines h.1 hasc (fun e _ => registers_of_lease h.2 e)
        registeredAt
    exact ⟨sm', by rw [heq]; rfl, hint, hopen, (congrArg Option.isSome hlease).trans
        ((isSome_leaseAfter registeredAt _ _).trans h.2)⟩
  interpreter_updateLastApplied _ _ := rfl
  serving_updateLastApplied _ h := ⟨⟨h.1.1, h.1.2⟩, h.2⟩
  mem_entries _ hpre row := RocksDBStateMachine.mem_scanEntries hpre row

/-- A machine with the scans that are open, and what scans have returned. -/
structure ScanHost (M : Type) where
  machine : M
  /-- The index of the last entry whose writes can be seen. -/
  written : Nat
  /-- What a chunk that has written its values moves the last applied identity to. -/
  unpublished : Option LogId
  scans : List (Bytes × List (Bytes × Bytes))
  returned : List (Bytes × ScanResult)

inductive ScanLabel (C : Type) where
  /-- A chunk of the next entries writes its values. -/
  | write (clock : C) (count : Nat)
  | publish
  | openScan (pre : Bytes)
  | finishScan (scan : Nat)

variable {M C : Type} (m : ScannedMachine M C) (log : EntryLog)

def ScanHost.step (s : ScanHost M) : ScanLabel C → Option (ScanHost M)
  | .write clock count =>
    let chunk := (log.behind s.written).take count
    if s.unpublished.isNone ∧ (m.locked → s.scans = []) then
      match m.applyChunk s.machine clock chunk with
      | .error _ => none
      | .ok after =>
        some { s with
          machine := m.updateLastApplied after (m.interpreter s.machine).lastApplied
          written := indexAfter s.written chunk
          unpublished := some (m.interpreter after).lastApplied }
    else none
  | .publish => s.unpublished.map fun id =>
      { s with machine := m.updateLastApplied s.machine id, unpublished := none }
  | .openScan pre => some { s with scans := s.scans ++ [(pre, m.entries s.machine pre)] }
  | .finishScan scan => s.scans[scan]?.map fun q =>
      { s with
        scans := s.scans.eraseIdx scan
        returned := s.returned ++ [(q.1, ⟨q.2, (m.interpreter s.machine).lastApplied.index⟩)] }

/-- The runs of a machine that has applied the entries in front of the log. -/
def scanHost : Machine (ScanHost M) (ScanLabel C) where
  init s := m.Serving s.machine ∧ m.interpreter s.machine = ⟨log.base, log.start⟩ ∧
    s.written = log.start.index ∧ s.unpublished = none ∧ s.scans = [] ∧ s.returned = []
  step := ScanHost.step m log

/-- The rows under a prefix are those behind some index from the revision on. -/
def Reflects (pre : Bytes) (scan : ScanResult) : Prop :=
  ∃ i, scan.revision ≤ i ∧
    ∀ row, row ∈ scan.entries ↔ pre <+: row.1 ∧ (log.stateAt i)[row.1]? = some row.2

/-- The last applied identity of an unlocked machine moves while no scan is open. -/
def PublishesApart (s : ScanHost M) : ScanLabel C → Prop
  | .publish => m.locked ∨ s.scans = []
  | _ => True

instance (s : ScanHost M) : ∀ l : ScanLabel C, Decidable (PublishesApart m s l)
  | .publish => inferInstanceAs (Decidable (_ ∨ _))
  | .write _ _ | .openScan _ | .finishScan _ => isTrue trivial

variable {m log}

structure ScanOk (m : ScannedMachine M C) (log : EntryLog) (s : ScanHost M) : Prop where
  serving : m.Serving s.machine
  values : (m.interpreter s.machine).values = log.stateAt s.written
  published : (m.interpreter s.machine).lastApplied.index ≤ s.written
  unpublished : ∀ id ∈ s.unpublished, id.index ≤ s.written
  /-- No chunk writes behind a scan that is locked. -/
  scans : ∀ q ∈ s.scans, q.1 ≠ [] → ∃ i, (m.interpreter s.machine).lastApplied.index ≤ i ∧
    (m.locked → s.written ≤ i) ∧
    ∀ row, row ∈ q.2 ↔ q.1 <+: row.1 ∧ (log.stateAt i)[row.1]? = some row.2
  returned : ∀ q ∈ s.returned, q.1 ≠ [] → Reflects log q.1 q.2

theorem indexAfter_mono {lo hi : Nat} (h : lo ≤ hi) (chunk : List ApplyEntry) :
    indexAfter lo chunk ≤ indexAfter hi chunk := by
  cases chunk with
  | nil => exact h
  | cons => exact le_rfl

theorem ScanOk.step {s t : ScanHost M} {l : ScanLabel C} (h : ScanOk m log s)
    (hap : PublishesApart m s l) (hst : s.step m log l = some t) : ScanOk m log t := by
  cases l with
  | write clock count =>
    have hch := (List.take_append_drop count (log.behind s.written)).symm
    obtain ⟨after, hal, hint, hse⟩ :=
      m.applyChunk_refines h.serving (log.ascending_take s.written count) clock
    have hrun := Interpreter.run_eq (m.interpreter s.machine) ((log.behind s.written).take count)
    simp only [ScanHost.step, hal, Option.ite_none_right_eq_some, Option.some.injEq] at hst
    obtain ⟨⟨-, hlc⟩, rfl⟩ := hst
    have hle := le_indexAfter log.ascending hch
    constructor
    · exact m.serving_updateLastApplied _ hse
    · rw [m.interpreter_updateLastApplied, hint, hrun, log.stateAt_indexAfter hch, ← h.values]
    · rw [m.interpreter_updateLastApplied]
      exact h.published.trans hle
    · rintro id ⟨⟩
      rw [hint, hrun, lastLogId_index]
      exact indexAfter_mono h.published _
    · intro q hq hpre
      obtain ⟨i, hi, -, hro⟩ := h.scans q hq hpre
      rw [m.interpreter_updateLastApplied]
      exact ⟨i, hi, fun hlo => absurd hq (by simp [hlc hlo]), hro⟩
    · exact h.returned
  | publish =>
    simp only [ScanHost.step, Option.map_eq_some_iff] at hst
    obtain ⟨id, hid, rfl⟩ := hst
    have hint := m.interpreter_updateLastApplied s.machine id
    refine ⟨m.serving_updateLastApplied id h.serving, ?_, ?_, nofun, fun q hq hpre => ?_, h.returned⟩
    · rw [hint]
      exact h.values
    · rw [hint]
      exact h.unpublished id hid
    · obtain ⟨i, -, hi, hro⟩ := h.scans q hq hpre
      rcases hap with hlo | hno
      · rw [hint]
        exact ⟨i, (h.unpublished id hid).trans (hi hlo), hi, hro⟩
      · exact absurd hq (by simp [hno])
  | openScan pre =>
    cases hst
    refine { h with scans := fun q hq hpre => ?_ }
    rcases List.mem_append.mp hq with hq | hq
    · exact h.scans q hq hpre
    · cases List.mem_singleton.mp hq
      refine ⟨s.written, h.published, fun _ => le_rfl, fun row => ?_⟩
      rw [m.mem_entries h.serving hpre, h.values]
  | finishScan scan =>
    simp only [ScanHost.step, Option.map_eq_some_iff] at hst
    obtain ⟨q, hq, rfl⟩ := hst
    refine { h with
      scans := fun p hp => h.scans p (List.mem_of_mem_eraseIdx hp)
      returned := fun p hp hpre => ?_ }
    rcases List.mem_append.mp hp with hp | hp
    · exact h.returned p hp hpre
    · cases List.mem_singleton.mp hp
      obtain ⟨i, hi, -, hro⟩ := h.scans q (List.mem_of_getElem? hq) hpre
      exact ⟨i, hi, hro⟩

theorem scanOk_of_reach {s : ScanHost M} (h : (scanHost m log).Reach (PublishesApart m) s) :
    ScanOk m log s := by
  refine h.invariant ?_ fun _ _ _ => ScanOk.step
  rintro ⟨sm, written, unpublished, scans, returned⟩ ⟨hse, hint, hwr, hun, hsc, hret⟩
  dsimp only at *
  subst hwr hun hsc hret
  exact ⟨hse, by rw [hint, log.stateAt_start], by rw [hint], nofun, nofun, nofun⟩

/-- What a scan of the file store returns under a prefix is not older than the revision, and what
a scan of RocksDB returns is not if nothing is published while a scan is open. -/
theorem scans_reflect_revision (log : EntryLog) :
    (∀ s, (scanHost fileScanned log).Reach (fun _ _ => True) s →
      ∀ q ∈ s.returned, q.1 ≠ [] → Reflects log q.1 q.2) ∧
    ∀ s, (scanHost rocksScanned log).Reach (PublishesApart rocksScanned) s →
      ∀ q ∈ s.returned, q.1 ≠ [] → Reflects log q.1 q.2 := by
  constructor
  · intro s hs
    refine (scanOk_of_reach (hs.mono fun _ l _ => ?_)).returned
    cases l with
    | publish => exact .inl rfl
    | _ => trivial
  · exact fun s hs => (scanOk_of_reach hs).returned

def oneInsert : EntryLog :=
  ⟨∅, ⟨0, 0⟩, [⟨1, 1, .insert [1] [2] none⟩], by simp, by simp, by simp⟩

theorem scan_behind_publish_reflects :
    ∃ s, (scanHost rocksScanned oneInsert).Reach (PublishesApart rocksScanned) s ∧
      s.returned = [([1], ⟨[([1], [2])], 1⟩)] ∧ Reflects oneInsert [1] ⟨[([1], [2])], 1⟩ := by
  have hrun : ∃ s, (scanHost rocksScanned oneInsert).Reach (PublishesApart rocksScanned) s ∧
      s.returned = [([1], ⟨[([1], [2])], 1⟩)] :=
    Machine.exists_reach_of_runIf
      (s := ⟨{ RocksDBStateMachine.fresh with lease := some .empty }, 0, none, [], []⟩)
      [.write (fun _ => 0) 1, .publish, .openScan [1], .finishScan 0]
      ⟨⟨⟨rfl, rfl⟩, rfl⟩, rfl, rfl, rfl, rfl, rfl⟩ (by decide +kernel)
  obtain ⟨s, hs, hret⟩ := hrun
  exact ⟨s, hs, hret, (scans_reflect_revision oneInsert).2 s hs ([1], _)
    (by rw [hret]; exact List.mem_singleton_self _) (by decide)⟩

/-- A chunk that is written and published behind the creation of an iterator raises the revision
above what the iterator reads. -/
theorem scan_older_than_revision :
    ∃ log s, (scanHost rocksScanned log).Reach (fun _ _ => True) s ∧
      ∃ q ∈ s.returned, q.1 ≠ [] ∧ ¬Reflects log q.1 q.2 := by
  have hrun : ∃ s, (scanHost rocksScanned oneInsert).Reach (fun _ _ => True) s ∧
      s.returned = [([1], ⟨[], 1⟩)] :=
    Machine.exists_reach_of_runIf
      (s := ⟨{ RocksDBStateMachine.fresh with lease := some .empty }, 0, none, [], []⟩)
      [.openScan [1], .write (fun _ => 0) 1, .publish, .finishScan 0]
      ⟨⟨⟨rfl, rfl⟩, rfl⟩, rfl, rfl, rfl, rfl, rfl⟩ (by decide +kernel)
  obtain ⟨s, hs, hret⟩ := hrun
  refine ⟨oneInsert, s, hs, ([1], ⟨[], 1⟩), by simp [hret], by decide, ?_⟩
  rintro ⟨i, hi, hro⟩
  have hall : (oneInsert.entries.filter fun e => decide (e.index ≤ i)) = oneInsert.entries :=
    List.filter_eq_self.mpr (by simpa [oneInsert] using hi)
  refine List.not_mem_nil ((hro ([1], [2])).mpr ⟨List.prefix_rfl, ?_⟩)
  rw [EntryLog.stateAt, hall]
  decide +kernel

end DEngine.Adaptors

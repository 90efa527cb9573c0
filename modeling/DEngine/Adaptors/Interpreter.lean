import DEngine.Adaptors.Lease

/-!
# The serial interpreter

What a state machine is for: entries are executed one at a time, in order. A
compare-and-swap succeeds if the current value is the expected one, where an absent
value matches an absent expectation; every other command succeeds.

The second part reads the interpreter as commands that decide and write. It leaves
open how a store keeps a value, so that each store can be held against it.
-/

namespace DEngine.Adaptors

open Apply Library

structure ApplyResult where
  index : Nat
  succeeded : Bool
deriving DecidableEq, Repr

namespace ApplyResult

def success (index : Nat) : ApplyResult := ⟨index, true⟩

def failure (index : Nat) : ApplyResult := ⟨index, false⟩

end ApplyResult

/-- Whether two states hold the same values can be computed. -/
instance : DecidableEq (KeyMap Bytes Bytes) := inferInstance

/-- The state of the interpreter: the values, and the last entry that was executed. -/
structure Interpreter where
  values : KeyMap Bytes Bytes
  lastApplied : LogId

namespace Interpreter

def executeOp (values : KeyMap Bytes Bytes) : BatchOp → KeyMap Bytes Bytes
  | .insert key value => values.insert key value
  | .delete key => values.erase key

def execute (s : Interpreter) (entry : ApplyEntry) : ApplyResult × Interpreter :=
  match entry.command with
  | .noop => (.success entry.index, ⟨s.values, entry.logId⟩)
  | .insert key value _ => (.success entry.index, ⟨s.values.insert key value, entry.logId⟩)
  | .delete key => (.success entry.index, ⟨s.values.erase key, entry.logId⟩)
  | .compareAndSwap key expected value =>
    if s.values[key]? = expected then
      (.success entry.index, ⟨s.values.insert key value, entry.logId⟩)
    else (.failure entry.index, ⟨s.values, entry.logId⟩)
  | .batch ops => (.success entry.index, ⟨ops.foldl executeOp s.values, entry.logId⟩)

def run : Interpreter → List ApplyEntry → List ApplyResult × Interpreter
  | s, [] => ([], s)
  | s, entry :: rest =>
    let first := s.execute entry
    let later := run first.2 rest
    (first.1 :: later.1, later.2)

end Interpreter

/-! ## Decisions and writes -/

section Writes

variable {V : Type} (wrap : Nat → Bytes → V) (unwrap : V → Bytes)

def opWrite (term : Nat) : BatchOp → Write Bytes V
  | .insert key value => (key, some (wrap term value))
  | .delete key => (key, none)

/-- The writes of an entry, given whether its compare-and-swap succeeds. -/
def entryWrites (entry : ApplyEntry) (casSuccess : Bool) : List (Write Bytes V) :=
  match entry.command with
  | .noop => []
  | .insert key value _ => [(key, some (wrap entry.term value))]
  | .delete key => [(key, none)]
  | .compareAndSwap key _ value =>
    if casSuccess then [(key, some (wrap entry.term value))] else []
  | .batch ops => ops.map (opWrite wrap entry.term)

/-- Whether an entry is a compare-and-swap that finds what it expects. -/
def casSucceeds (entry : ApplyEntry) (current : Bytes → Option V) : Bool :=
  match entry.command with
  | .compareAndSwap key expected _ => decide ((current key).map unwrap = expected)
  | _ => false

end Writes

/-- How both stores compare the current value with the expected one. -/
def casMatches (current expected : Option Bytes) : Bool :=
  match current, expected with
  | some c, some e => decide (c = e)
  | none, none => true
  | _, _ => false

theorem casMatches_eq (current expected : Option Bytes) :
    casMatches current expected = decide (current = expected) := by
  cases current <;> cases expected <;> simp [casMatches]

/-- The keys that an entry compares. -/
def casKeys (entry : ApplyEntry) : List Bytes :=
  match entry.command with
  | .compareAndSwap key _ _ => [key]
  | _ => []

/-- The result of an entry, given whether its compare-and-swap succeeds. -/
def entryResult (entry : ApplyEntry) (casSuccess : Bool) : ApplyResult :=
  match entry.command with
  | .compareAndSwap _ _ _ => if casSuccess then .success entry.index else .failure entry.index
  | _ => .success entry.index

/-- The identity of the last entry, or the one from before. -/
def lastLogId (before : LogId) (entries : List ApplyEntry) : LogId :=
  entries.foldl (fun _ entry => entry.logId) before

theorem casSucceeds_congr {V : Type} {unwrap : V → Bytes} (entry : ApplyEntry)
    (f g : Bytes → Option V) (h : ∀ k ∈ casKeys entry, f k = g k) :
    casSucceeds unwrap entry f = casSucceeds unwrap entry g := by
  obtain ⟨index, term, command⟩ := entry
  cases command with
  | compareAndSwap key =>
    simp only [casSucceeds, h key (List.mem_singleton_self key)]
  | _ => rfl

/-- Entries that run one after the other on a store of wrapped values. -/
abbrev serialRun {V : Type} (wrap : Nat → Bytes → V) (unwrap : V → Bytes) (m : KeyMap Bytes V)
    (entries : List ApplyEntry) : List Bool × KeyMap Bytes V :=
  serial (casSucceeds unwrap) (entryWrites wrap) m entries

namespace Interpreter

variable (s : Interpreter)

theorem foldl_executeOp (values : KeyMap Bytes Bytes) (term : Nat) (ops : List BatchOp) :
    ops.foldl executeOp values = values.writeAll (ops.map (opWrite (fun _ v => v) term)) := by
  induction ops generalizing values with
  | nil => rfl
  | cons op rest ih =>
    rw [List.foldl_cons, ih]
    cases op <;> rfl

theorem execute_eq (entry : ApplyEntry) :
    s.execute entry =
      let outcome := casSucceeds id entry fun k => s.values[k]?
      (entryResult entry outcome,
        ⟨s.values.writeAll (entryWrites (fun _ v => v) entry outcome), entry.logId⟩) := by
  obtain ⟨index, term, command⟩ := entry
  cases command with
  | noop | insert key value ttlSecs | delete key => rfl
  | compareAndSwap =>
    simp only [execute, casSucceeds, entryResult, entryWrites, Option.map_id_fun, id_eq,
      decide_eq_true_eq]
    split_ifs <;> rfl
  | batch =>
    simp only [execute, entryResult, entryWrites, foldl_executeOp _ term]

/-- The interpreter decides and writes as the serial run does. -/
theorem run_eq (entries : List ApplyEntry) :
    s.run entries =
      (List.zipWith entryResult entries (serialRun (fun _ v => v) id s.values entries).1,
        ⟨(serialRun (fun _ v => v) id s.values entries).2, lastLogId s.lastApplied entries⟩) := by
  induction entries generalizing s with
  | nil => rfl
  | cons entry rest ih =>
    rw [run, execute_eq]
    dsimp only
    rw [ih]
    rfl

theorem run_append (a b : List ApplyEntry) :
    s.run (a ++ b) = ((s.run a).1 ++ ((s.run a).2.run b).1, ((s.run a).2.run b).2) := by
  induction a generalizing s with
  | nil => rfl
  | cons entry rest ih =>
    rw [List.cons_append, run, ih]
    rfl

end Interpreter

/-! ## The order of a chunk -/

/-- Both stores check that the indexes of a chunk increase. -/
def nextHighest (highest : Option LogId) (entry : ApplyEntry) : Except Fault (Option LogId) :=
  match highest with
  | none => .ok (some entry.logId)
  | some prev =>
    if prev.index < entry.index then .ok (some entry.logId)
    else .error (.panic
      s!"apply_chunk: received unordered entry at index {entry.index} (prev={prev.index})")

/-- The highest identity behind a chunk. -/
def highestAfter (highest : Option LogId) (chunk : List ApplyEntry) : Option LogId :=
  chunk.foldl (fun _ entry => some entry.logId) highest

theorem nextHighest_of_behind {highest : Option LogId} {entry : ApplyEntry}
    (h : ∀ prev ∈ highest, prev.index < entry.index) :
    nextHighest highest entry = .ok (some entry.logId) := by
  cases highest with
  | none => rfl
  | some prev => exact if_pos (h prev rfl)

variable {chunk : List ApplyEntry}

theorem foldlM_nextHighest {highest : Option LogId}
    (hasc : chunk.Pairwise fun a b => a.index < b.index)
    (hbe : ∀ prev ∈ highest, ∀ e ∈ chunk, prev.index < e.index) :
    chunk.foldlM nextHighest highest = .ok (highestAfter highest chunk) := by
  induction chunk generalizing highest with
  | nil => rfl
  | cons entry rest ih =>
    obtain ⟨hen, hre⟩ := List.pairwise_cons.mp hasc
    rw [List.foldlM_cons,
      nextHighest_of_behind fun prev hpr => hbe prev hpr entry List.mem_cons_self]
    refine ih hre ?_
    rintro prev ⟨⟩ e he
    exact hen e he

theorem highestAfter_getD (highest : Option LogId) (before : LogId) (chunk : List ApplyEntry) :
    (highestAfter highest chunk).getD before = lastLogId (highest.getD before) chunk := by
  induction chunk generalizing highest with
  | nil => rfl
  | cons entry rest ih => exact ih (some entry.logId)

/-! ## Positions in a sequence of entries -/

/-- The index behind a sequence of entries. -/
def indexAfter (lo : Nat) (chunk : List ApplyEntry) : Nat := chunk.foldl (fun _ e => e.index) lo

variable {entries rest : List ApplyEntry} {i : Nat}

theorem filter_above (h : ∀ a ∈ entries, i < a.index) :
    (entries.filter fun a => decide (a.index ≤ i)) = [] ∧
      (entries.filter fun a => decide (i < a.index)) = entries := by
  constructor
  · exact List.filter_eq_nil_iff.mpr fun a ha => by simpa using h a ha
  · exact List.filter_eq_self.mpr fun a ha => decide_eq_true (h a ha)

theorem filter_next {e : ApplyEntry} (hasc : entries.Pairwise fun a b => a.index < b.index)
    (h : (entries.filter fun e => decide (i < e.index)) = e :: rest) :
    (entries.filter fun a => decide (a.index ≤ e.index)) =
      (entries.filter fun a => decide (a.index ≤ i)) ++ [e] ∧
    (entries.filter fun a => decide (e.index < a.index)) = rest := by
  induction entries with
  | nil => cases h
  | cons x tail ih =>
    obtain ⟨hx, hta⟩ := List.pairwise_cons.mp hasc
    by_cases hi : i < x.index
    · -- Nothing of the tail is at or below the first entry.
      obtain ⟨hno, hall⟩ := filter_above fun a ha => hi.trans (hx a ha)
      obtain ⟨hup, hbe⟩ := filter_above hx
      rw [List.filter_cons_of_pos (by simpa using hi), hall] at h
      obtain ⟨rfl, rfl⟩ := List.cons.inj h
      constructor
      · rw [List.filter_cons_of_pos (by simp), List.filter_cons_of_neg (by simpa using hi), hup,
          hno]
        rfl
      · rw [List.filter_cons_of_neg (by simp), hbe]
    · rw [List.filter_cons_of_neg (by simpa using hi)] at h
      obtain ⟨hup, hbe⟩ := ih hta h
      have he : i < e.index := by
        have hmem : e ∈ tail.filter fun a => decide (i < a.index) := h ▸ List.mem_cons_self
        simpa using (List.mem_filter.mp hmem).2
      constructor
      · rw [List.filter_cons_of_pos (by simp; omega), List.filter_cons_of_pos (by simp; omega),
          hup]
        rfl
      · rw [List.filter_cons_of_neg (by simp; omega), hbe]

/-- The entries up to the end of a chunk that comes next. -/
theorem filter_indexAfter (hasc : entries.Pairwise fun a b => a.index < b.index)
    (h : (entries.filter fun e => decide (i < e.index)) = chunk ++ rest) :
    (entries.filter fun a => decide (a.index ≤ indexAfter i chunk)) =
      (entries.filter fun a => decide (a.index ≤ i)) ++ chunk ∧
    (entries.filter fun a => decide (indexAfter i chunk < a.index)) = rest := by
  induction chunk generalizing i with
  | nil => exact ⟨(List.append_nil _).symm, h⟩
  | cons e chunk ih =>
    obtain ⟨hup, hbe⟩ := filter_next hasc h
    obtain ⟨hup', hbe'⟩ := ih hbe
    refine ⟨?_, hbe'⟩
    change (entries.filter fun a => decide (a.index ≤ indexAfter e.index chunk)) = _
    rw [hup', hup, List.append_assoc]
    rfl

/-- The entries that come next do not move the index back. -/
theorem le_indexAfter (hasc : entries.Pairwise fun a b => a.index < b.index)
    (h : (entries.filter fun e => decide (i < e.index)) = chunk ++ rest) :
    i ≤ indexAfter i chunk := by
  induction chunk generalizing i with
  | nil => exact le_rfl
  | cons e chunk ih =>
    have hmem : e ∈ entries.filter fun e => decide (i < e.index) := h.symm ▸ List.mem_cons_self
    have hlt : i < e.index := of_decide_eq_true (List.mem_filter.mp hmem).2
    exact hlt.le.trans (ih (filter_next hasc h).2)

theorem lastLogId_index (before : LogId) (chunk : List ApplyEntry) :
    (lastLogId before chunk).index = indexAfter before.index chunk := by
  induction chunk generalizing before with
  | nil => rfl
  | cons entry rest ih => exact ih entry.logId

/-! ## Committed entries -/

/-- Committed entries, and the values and the identity in front of them. -/
structure EntryLog where
  base : KeyMap Bytes Bytes
  start : LogId
  entries : List ApplyEntry
  ascending : entries.Pairwise fun a b => a.index < b.index
  behindStart : ∀ e ∈ entries, start.index < e.index
  fits : ∀ e ∈ entries, e.index < 256 ^ 8 ∧ e.term < 256 ^ 8

namespace EntryLog

variable (log : EntryLog)

/-- The entries behind an index. -/
def behind (i : Nat) : List ApplyEntry := log.entries.filter fun e => decide (i < e.index)

/-- The values behind the entries up to an index. -/
def stateAt (i : Nat) : KeyMap Bytes Bytes :=
  (Interpreter.run ⟨log.base, log.start⟩
    (log.entries.filter fun e => decide (e.index ≤ i))).2.values

variable {log}

theorem stateAt_start : log.stateAt log.start.index = log.base := by
  have hno : (log.entries.filter fun e => decide (e.index ≤ log.start.index)) = [] :=
    List.filter_eq_nil_iff.mpr fun e he => by
      have := log.behindStart e he
      simp
      omega
  rw [stateAt, hno]
  rfl

theorem ascending_take (i count : Nat) :
    ((log.behind i).take count).Pairwise fun a b => a.index < b.index :=
  log.ascending.sublist ((List.take_sublist _ _).trans List.filter_sublist)

theorem mem_of_behind (h : log.behind i = chunk ++ rest)
    {e : ApplyEntry} (he : e ∈ chunk) : e ∈ log.entries :=
  (List.mem_filter.mp (h.symm ▸ List.mem_append_left rest he)).1

/-- The values behind a chunk that comes next. -/
theorem stateAt_indexAfter (h : log.behind i = chunk ++ rest) :
    log.stateAt (indexAfter i chunk) = (serialRun (fun _ v => v) id (log.stateAt i) chunk).2 := by
  rw [stateAt, (filter_indexAfter log.ascending h).1, Interpreter.run_append]
  exact congrArg (·.2.values) (Interpreter.run_eq _ chunk)

end EntryLog

end DEngine.Adaptors

import DEngine.Adaptors.Refinement
import DEngine.Adaptors.RocksDBInstall
import DEngine.Watch.Registry

/-!
# What the events of a chunk tell

Played over the values before a chunk, the events of the chunk give the values behind
it, and their revisions are the indexes of its entries in order. The previous values
that go with them are predicted before the chunk is applied, from the writes of the
entries before. A compare-and-swap is left out of that prediction, so an entry that
writes its key again is given the value from before the swap.
-/

namespace DEngine.Watch

open Apply Adaptors Library

/-! ## Previous values -/

/-- One round of `read_prev_values`: the previous value of an entry, and the overlay behind it. -/
def readPrevValue (get : Bytes → Option Bytes) (overlay : Overlay Bytes Bytes)
    (entry : ApplyEntry) : Option Bytes × Overlay Bytes Bytes :=
  match entry.command with
  | .insert key value _ => (some ((overlay.get get key).getD []), overlay.put (key, some value))
  | .delete key => (some ((overlay.get get key).getD []), overlay.put (key, none))
  -- the outcome is not known before the chunk is applied
  | .compareAndSwap key _ _ => (some ((overlay.get get key).getD []), overlay)
  | .noop => (none, overlay)
  | .batch _ => (none, overlay)

def readPrevValues (get : Bytes → Option Bytes) :
    Overlay Bytes Bytes → List ApplyEntry → List (Option Bytes)
  | _, [] => []
  | overlay, entry :: rest =>
    let read := readPrevValue get overlay entry
    read.1 :: readPrevValues get read.2 rest

theorem broadcastWatchEvents_cons (entry : ApplyEntry) (rest : List ApplyEntry)
    (result : ApplyResult) (results : List ApplyResult)
    (prevValues : Option (List (Option Bytes))) :
    broadcastWatchEvents (entry :: rest) (result :: results) prevValues =
      entryEvents entry (some result) (((prevValues.bind (·[0]?)).join).getD []) ++
        broadcastWatchEvents rest results (prevValues.map List.tail) := by
  unfold broadcastWatchEvents
  rw [List.zipIdx_cons, List.flatMap_cons, Nat.zero_add, List.zipIdx_succ, List.flatMap_map]
  congr 2
  funext ⟨e, i⟩
  cases prevValues with
  | none => rfl
  | some values => cases values <;> simp

/-! ## Playing events -/

/-- What a client that keeps the values does with an event. -/
def replay (values : KeyMap Bytes Bytes) (event : WatchResponse) : KeyMap Bytes Bytes :=
  match event.eventType with
  | .put => values.insert event.key event.value
  | .delete => values.erase event.key
  | .canceled => values
  | .progress => values

theorem foldl_replay_entryEvents (s : Interpreter) (entry : ApplyEntry) (prevValue : Bytes) :
    (entryEvents entry (some (s.execute entry).1) prevValue).foldl replay s.values =
      (s.execute entry).2.values := by
  obtain ⟨index, term, command⟩ := entry
  cases command with
  | noop | insert | delete => rfl
  | compareAndSwap =>
    simp only [entryEvents, Interpreter.execute]
    split_ifs <;> simp_all [replay, ApplyResult.success, ApplyResult.failure]
  | batch ops =>
    simp only [entryEvents, Interpreter.execute, List.foldl_map]
    congr
    funext values op
    cases op <;> rfl

theorem foldl_replay_broadcastWatchEvents (s : Interpreter) (chunk : List ApplyEntry)
    (prevValues : Option (List (Option Bytes))) :
    (broadcastWatchEvents chunk (s.run chunk).1 prevValues).foldl replay s.values =
      (s.run chunk).2.values := by
  induction chunk generalizing s prevValues with
  | nil => rfl
  | cons entry rest ih =>
    rw [Interpreter.run, broadcastWatchEvents_cons, List.foldl_append,
      foldl_replay_entryEvents, ih]

theorem revision_of_mem_entryEvents {entry : ApplyEntry} {result : Option ApplyResult}
    {prevValue : Bytes} {event : WatchResponse}
    (h : event ∈ entryEvents entry result prevValue) : event.revision = entry.index := by
  unfold entryEvents at h
  split at h
  · rw [List.mem_singleton.mp h]
  · rw [List.mem_singleton.mp h]
  · split_ifs at h
    · rw [List.mem_singleton.mp h]
    · cases h
  · cases h
  · obtain ⟨op, -, rfl⟩ := List.mem_map.mp h
    cases op <;> rfl

/-- The events lead from the values before to the values behind, in the order of the entries. -/
structure Replays (chunk : List ApplyEntry) (events : List WatchResponse)
    (before after : KeyMap Bytes Bytes) : Prop where
  replayed : events.foldl replay before = after
  ordered : (events.map WatchResponse.revision).Pairwise (· ≤ ·)
  indexed : ∀ event ∈ events, ∃ entry ∈ chunk, event.revision = entry.index

theorem replays_run (s : Interpreter) {chunk : List ApplyEntry}
    (hasc : chunk.Pairwise fun a b => a.index < b.index)
    (prevValues : Option (List (Option Bytes))) :
    Replays chunk (broadcastWatchEvents chunk (s.run chunk).1 prevValues) s.values
      (s.run chunk).2.values where
  replayed := foldl_replay_broadcastWatchEvents s chunk prevValues
  ordered := by
    rw [List.pairwise_map]
    refine List.pairwise_flatMap.mpr ⟨fun p _ => ?_, ?_⟩
    · refine List.Pairwise.imp_of_mem (R := fun _ _ => True) ?_
        (List.pairwise_of_forall fun _ _ => trivial)
      intro a b ha hb _
      rw [revision_of_mem_entryEvents ha, revision_of_mem_entryEvents hb]
    · have hzip : (chunk.zipIdx.map Prod.fst).Pairwise fun a b => a.index < b.index := by
        rwa [List.zipIdx_map_fst]
      refine (List.pairwise_map.mp hzip).imp fun hlt a ha b hb => ?_
      rw [revision_of_mem_entryEvents ha, revision_of_mem_entryEvents hb]
      exact hlt.le
  indexed := by
    intro event hev
    obtain ⟨p, hp, hen⟩ := List.mem_flatMap.mp hev
    exact ⟨p.1, (List.mem_zipIdx' hp).2 ▸ List.getElem_mem _, revision_of_mem_entryEvents hen⟩

/-! ## Both stores -/

section Stores

variable {chunk : List ApplyEntry}

/-- The results that the file store returns are the interpreter's. -/
theorem file_results (hasc : chunk.Pairwise fun a b => a.index < b.index) {sm : FileStateMachine}
    (hre : ∀ e ∈ chunk, Registers sm.lease e) {clock : ApplyClock} {results : List ApplyResult}
    {sm' : FileStateMachine} {writes : List DiskWrite}
    (h : sm.applyChunk clock chunk = .ok (results, sm', writes)) :
    results = (sm.interpreter.run chunk).1 ∧ sm'.values = (sm.interpreter.run chunk).2.values := by
  obtain ⟨_, _, hap, hsm, -⟩ := FileStateMachine.applyChunk_refines hasc hre clock
  rw [h] at hap
  cases hap
  exact ⟨rfl, congrArg Interpreter.values hsm⟩

/-- The results that the store in RocksDB returns are the interpreter's. -/
theorem rocksdb_results (hasc : chunk.Pairwise fun a b => a.index < b.index)
    {sm : RocksDBStateMachine} (hop : sm.IsOpen) (hre : ∀ e ∈ chunk, Registers sm.lease e)
    {registeredAt : Nat → Nat} {results : List ApplyResult} {sm' : RocksDBStateMachine}
    (h : sm.applyChunk .none registeredAt chunk = .ok (results, sm')) :
    results = (sm.interpreter.run chunk).1 ∧ sm'.values = (sm.interpreter.run chunk).2.values := by
  obtain ⟨_, hap, hsm, -⟩ := RocksDBStateMachine.applyChunk_refines hop hasc hre registeredAt
  rw [h] at hap
  cases hap
  exact ⟨rfl, congrArg Interpreter.values hsm⟩

end Stores

/-- The events that either store has broadcast for the results of a chunk replay to its new
values. -/
theorem watch_events_replay {chunk : List ApplyEntry}
    (hasc : chunk.Pairwise fun a b => a.index < b.index)
    (prevValues : Option (List (Option Bytes))) :
    (∀ (sm : FileStateMachine) (clock : ApplyClock), (∀ e ∈ chunk, Registers sm.lease e) →
      ∀ results sm' writes, sm.applyChunk clock chunk = .ok (results, sm', writes) →
        Replays chunk (broadcastWatchEvents chunk results prevValues) sm.values sm'.values) ∧
    (∀ (sm : RocksDBStateMachine) (registeredAt : Nat → Nat), sm.IsOpen →
      (∀ e ∈ chunk, Registers sm.lease e) →
      ∀ results sm', sm.applyChunk .none registeredAt chunk = .ok (results, sm') →
        Replays chunk (broadcastWatchEvents chunk results prevValues) sm.values sm'.values) := by
  constructor
  · intro sm clock hre results sm' writes hap
    obtain ⟨rfl, hva⟩ := file_results hasc hre hap
    exact hva ▸ replays_run sm.interpreter hasc prevValues
  · intro sm registeredAt hop hre results sm' hap
    obtain ⟨rfl, hva⟩ := rocksdb_results hasc hop hre hap
    exact hva ▸ replays_run sm.interpreter hasc prevValues

/-- A compare-and-swap sees the insert before it, and the delete behind it is replayed too. -/
theorem swapped_and_deleted_replay :
    let chunk := [⟨1, 1, .insert [1] [10] none⟩, ⟨2, 1, .compareAndSwap [1] (some [10]) [11]⟩,
      ⟨3, 1, .delete [1]⟩]
    ∃ results sm' writes, FileStateMachine.fresh.applyChunk .still chunk =
        .ok (results, sm', writes) ∧
      Replays chunk (broadcastWatchEvents chunk results none) ∅ sm'.values :=
  ⟨_, _, _, rfl, (watch_events_replay (by decide) none).1 .fresh .still (by simp [Registers]) _ _ _
    rfl⟩

/-! ## Previous values of the events -/

/-- The value that the key of an entry has, empty if it has none. -/
def valueBefore (values : KeyMap Bytes Bytes) (entry : ApplyEntry) : Bytes :=
  match entry.command with
  | .insert key _ _ | .delete key | .compareAndSwap key _ _ => (values[key]?).getD []
  | .noop | .batch _ => []

/-- The events of a chunk, each with the value of its key right before the entry. -/
def exactEvents : Interpreter → List ApplyEntry → List WatchResponse
  | _, [] => []
  | s, entry :: rest =>
    entryEvents entry (some (s.execute entry).1) (valueBefore s.values entry) ++
      exactEvents (s.execute entry).2 rest

/-- The keys whose last write in the chunk was a compare-and-swap to another value. -/
def swapped (keys : List Bytes) (entry : ApplyEntry) (result : ApplyResult) : List Bytes :=
  match entry.command with
  | .insert key _ _ | .delete key => keys.filter (· ≠ key)
  | .compareAndSwap key expected value =>
    if result.succeeded ∧ value ≠ expected.getD [] then key :: keys else keys
  | .noop | .batch _ => keys

/-- Run one after the other, no entry writes a key whose last write was a compare-and-swap to
another value. -/
def NoneBehindSwap : List Bytes → Interpreter → List ApplyEntry → Prop
  | _, _, [] => True
  | keys, s, entry :: rest =>
    (∀ event ∈ entryEvents entry (some (s.execute entry).1) [], event.key ∉ keys) ∧
      NoneBehindSwap (swapped keys entry (s.execute entry).1) (s.execute entry).2 rest

section Prediction

variable {get : Bytes → Option Bytes} {overlay : Overlay Bytes Bytes} {keys : List Bytes}
  {s : Interpreter} {entry : ApplyEntry}

/-- The overlay predicts the values of exactly the keys that were not swapped. -/
def Predicts (get : Bytes → Option Bytes) (overlay : Overlay Bytes Bytes)
    (values : KeyMap Bytes Bytes) (keys : List Bytes) : Prop :=
  ∀ k, (overlay.get get k).getD [] = (values[k]?).getD [] ↔ k ∉ keys

theorem length_entryEvents (entry : ApplyEntry) (result : Option ApplyResult) (a b : Bytes) :
    (entryEvents entry result a).length = (entryEvents entry result b).length := by
  unfold entryEvents
  split
  · rfl
  · rfl
  · split_ifs <;> rfl
  · rfl
  · rfl

theorem Predicts.entryEvents_iff (h : Predicts get overlay s.values keys)
    (hno : ∀ ops, entry.command ≠ .batch ops) (result : ApplyResult) :
    entryEvents entry (some result) ((readPrevValue get overlay entry).1.getD []) =
        entryEvents entry (some result) (valueBefore s.values entry) ↔
      ∀ event ∈ entryEvents entry (some result) [], event.key ∉ keys := by
  obtain ⟨index, term, command⟩ := entry
  cases command with
  | noop => simp [entryEvents]
  | insert key | delete key => simp [entryEvents, readPrevValue, valueBefore, h key]
  | compareAndSwap key =>
    simp only [entryEvents, readPrevValue, valueBefore]
    split_ifs <;> simp [h key]
  | batch ops => exact absurd rfl (hno ops)

/-- An entry that is given the right value leaves the prediction right for the keys that were
not swapped. -/
theorem Predicts.execute (h : Predicts get overlay s.values keys)
    (hno : ∀ ops, entry.command ≠ .batch ops)
    (hfr : ∀ event ∈ entryEvents entry (some (s.execute entry).1) [], event.key ∉ keys) :
    Predicts get (readPrevValue get overlay entry).2 (s.execute entry).2.values
      (swapped keys entry (s.execute entry).1) := by
  intro k
  obtain ⟨index, term, command⟩ := entry
  cases command with
  | noop => exact h k
  | insert key value =>
    simp only [readPrevValue, Interpreter.execute, swapped, Overlay.get_put,
      KeyMap.getElem?_insert_eq]
    by_cases hk : key = k
    · simp [hk]
    · simp [hk, h k, Ne.symm hk]
  | delete key =>
    simp only [readPrevValue, Interpreter.execute, swapped, Overlay.get_put,
      KeyMap.getElem?_erase_eq]
    by_cases hk : key = k
    · simp [hk]
    · simp [hk, h k, Ne.symm hk]
  | compareAndSwap key expected value =>
    by_cases hma : s.values[key]? = expected
    · have hkey : key ∉ keys := by
        simpa [entryEvents, Interpreter.execute, hma, ApplyResult.success] using hfr
      have hag := (h key).mpr hkey
      simp only [readPrevValue, Interpreter.execute, swapped, if_pos hma, ApplyResult.success,
        KeyMap.getElem?_insert_eq]
      by_cases hk : key = k
      · subst hk
        rw [hag, hma]
        by_cases hva : value = expected.getD [] <;> simp [hva, hkey, eq_comm]
      · rw [if_neg hk, h k]
        split_ifs <;> simp [Ne.symm hk]
    · simp only [readPrevValue, Interpreter.execute, swapped, if_neg hma, ApplyResult.failure]
      simpa using h k
  | batch ops => exact absurd rfl (hno ops)

theorem Predicts.events_iff {chunk : List ApplyEntry} (h : Predicts get overlay s.values keys)
    (hno : ∀ e ∈ chunk, ∀ ops, e.command ≠ .batch ops) :
    broadcastWatchEvents chunk (s.run chunk).1 (some (readPrevValues get overlay chunk)) =
        exactEvents s chunk ↔ NoneBehindSwap keys s chunk := by
  induction chunk generalizing s overlay keys with
  | nil => exact iff_of_true rfl trivial
  | cons entry rest ih =>
    obtain ⟨hen, hre⟩ := List.forall_mem_cons.mp hno
    have hhead := h.entryEvents_iff hen (s.execute entry).1
    rw [Interpreter.run, broadcastWatchEvents_cons, exactEvents]
    change _ ++ broadcastWatchEvents rest _ (some (readPrevValues get _ rest)) = _ ↔ _ ∧ _
    constructor
    · intro heq
      obtain ⟨hfi, hla⟩ := List.append_inj heq (length_entryEvents entry _ _ _)
      have hfr := hhead.mp hfi
      exact ⟨hfr, (ih (h.execute hen hfr) hre).mp hla⟩
    · rintro ⟨hfr, hla⟩
      exact congrArg₂ _ (hhead.mpr hfr) ((ih (h.execute hen hfr) hre).mpr hla)

end Prediction

/-- What `read_prev_values` reads of a key: a failed read counts as none. -/
def readCurrent (sm : RocksDBStateMachine) (key : Bytes) : Option Bytes :=
  (sm.get key).toOption.join

theorem readCurrent_of_serving {sm : RocksDBStateMachine} (hop : sm.IsOpen)
    (hse : sm.isServing = true) : readCurrent sm = fun key => sm.values[key]? := by
  obtain ⟨db, cf, -, hdb, hcf, -⟩ := hop.exists_db
  funext key
  simp [readCurrent, RocksDBStateMachine.get, RocksDBStateMachine.values, hse, hdb, hcf,
    Except.toOption]

/-- The previous values that go with the events of a chunk without batches are the values right
before the entries, exactly if no entry writes a key that was swapped before. -/
theorem prev_values_exact_iff {chunk : List ApplyEntry}
    (hasc : chunk.Pairwise fun a b => a.index < b.index)
    (hno : ∀ e ∈ chunk, ∀ ops, e.command ≠ .batch ops) :
    (∀ (sm : FileStateMachine) (clock : ApplyClock), (∀ e ∈ chunk, Registers sm.lease e) →
      ∀ results sm' writes, sm.applyChunk clock chunk = .ok (results, sm', writes) →
        (broadcastWatchEvents chunk results
            (some (readPrevValues (fun k => sm.values[k]?) ∅ chunk)) =
          exactEvents sm.interpreter chunk ↔ NoneBehindSwap [] sm.interpreter chunk)) ∧
    (∀ (sm : RocksDBStateMachine) (registeredAt : Nat → Nat), sm.IsOpen → sm.isServing = true →
      (∀ e ∈ chunk, Registers sm.lease e) →
      ∀ results sm', sm.applyChunk .none registeredAt chunk = .ok (results, sm') →
        (broadcastWatchEvents chunk results (some (readPrevValues (readCurrent sm) ∅ chunk)) =
          exactEvents sm.interpreter chunk ↔ NoneBehindSwap [] sm.interpreter chunk)) := by
  have hst (s : Interpreter) : Predicts (fun k => s.values[k]?) ∅ s.values [] := fun k => by
    simp [Overlay.get]
  constructor
  · intro sm clock hre results sm' writes hap
    obtain ⟨rfl, -⟩ := file_results hasc hre hap
    exact (hst sm.interpreter).events_iff hno
  · intro sm registeredAt hop hse hre results sm' hap
    obtain ⟨rfl, -⟩ := rocksdb_results hasc hop hre hap
    rw [readCurrent_of_serving hop hse]
    exact (hst sm.interpreter).events_iff hno

/-- A key that is inserted, deleted and inserted again. -/
theorem prev_values_of_inserts :
    let chunk := [⟨1, 1, .insert [1] [10] none⟩, ⟨2, 1, .delete [1]⟩, ⟨3, 1, .insert [1] [11] none⟩]
    ∃ results sm' writes, FileStateMachine.fresh.applyChunk .still chunk =
        .ok (results, sm', writes) ∧
      broadcastWatchEvents chunk results (some (readPrevValues (fun _ => none) ∅ chunk)) =
        exactEvents ⟨∅, ⟨0, 0⟩⟩ chunk :=
  ⟨_, _, _, rfl, ((prev_values_exact_iff (by decide) (by simp)).1 .fresh .still
    (by simp [Registers]) _ _ _ rfl).mpr (by simp [NoneBehindSwap, swapped])⟩

/-- A value that is swapped in and overwritten in one chunk is not reported: the second event
has the value from before the swap. -/
theorem prev_value_from_before_swap :
    let chunk := [⟨1, 1, .compareAndSwap [1] none [10]⟩, ⟨2, 1, .insert [1] [20] none⟩]
    let results := ((FileStateMachine.fresh.applyChunk .still chunk).map Prod.fst).toOption
    results = some [.success 1, .success 2] ∧
      (results.map fun results => broadcastWatchEvents chunk results
          (some (readPrevValues (fun k => FileStateMachine.fresh.values[k]?) ∅ chunk))) =
        some [⟨[1], [10], [], .put, 0, 1⟩, ⟨[1], [20], [], .put, 0, 2⟩] ∧
      exactEvents FileStateMachine.fresh.interpreter chunk =
        [⟨[1], [10], [], .put, 0, 1⟩, ⟨[1], [20], [10], .put, 0, 2⟩] := by
  decide +kernel

end DEngine.Watch

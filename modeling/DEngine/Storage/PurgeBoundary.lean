import DEngine.Storage.LogStore

/-!
# Log and purge boundary in RocksDB

The first entry of the log stands right behind the purge boundary. A purge deletes the entries
with one write and puts the boundary with a second one, and a reset deletes the entries and
leaves the boundary alone. A crash between the writes of a purge, and entries that start again
behind a reset, separate the two.

## Implementation notes

The operations follow a log without holes: entries are appended behind the last one, a suffix is
replaced from behind the boundary on, and entries behind a purge start at the earliest behind its
cutoff. All indexes are below the largest number.
-/

namespace DEngine.Storage.RocksDBLogStore

open Library OrderedMap

/-! ## Operations as writes -/

inductive Op where
  | persistEntries (entries : List Entry)
  | replaceRange (fromIndex : Nat) (newEntries : List Entry)
  | purge (cutoff : LogId)
  | reset

def Op.run (s : RocksDBLogStore) : Op → RocksDBLogStore
  | .persistEntries entries => s.persistEntries entries
  | .replaceRange fromIndex newEntries => s.replaceRange fromIndex newEntries
  | .purge cutoff => s.purge cutoff
  | .reset => s.reset

/-- A write that the database performs as a whole. -/
inductive DbWrite where
  | putEntries (entries : List Entry)
  | replaceFrom (fromIndex : Nat) (newEntries : List Entry)
  | deleteUpTo (index : Nat)
  | putBoundary (cutoff : LogId)
  | deleteAll

def Op.writes : Op → List DbWrite
  | .persistEntries entries => [.putEntries entries]
  | .replaceRange fromIndex newEntries => [.replaceFrom fromIndex newEntries]
  | .purge cutoff => [.deleteUpTo cutoff.index, .putBoundary cutoff]
  | .reset => [.deleteAll]

def perform (s : RocksDBLogStore) : DbWrite → RocksDBLogStore
  | .putEntries entries => { s with log := OrderedMap.insertBy Entry.index s.log entries }
  | .replaceFrom fromIndex newEntries =>
    { s with
      log := OrderedMap.insertBy Entry.index (s.log.eraseRange fromIndex (u64Max - 1))
        newEntries }
  | .deleteUpTo index => { s with log := s.log.eraseRange 0 index }
  | .putBoundary cutoff => { s with purgeBoundary := some cutoff }
  | .deleteAll => { s with log := ∅ }

/-- The store that is opened after a crash in an operation, of whose writes the first ones are
kept. -/
def recovered (s : RocksDBLogStore) (op : Op) (kept : Nat) : RocksDBLogStore :=
  let database := (op.writes.take kept).foldl perform s
  .new database.log database.purgeBoundary

/-- The index of the boundary, zero if there is none. -/
def boundaryIndex (s : RocksDBLogStore) : Nat := (s.purgeBoundary.map LogId.index).getD 0

/-- There are no entries, or they start right behind the boundary. -/
def Together (s : RocksDBLogStore) : Prop :=
  OrderedMap.firstKey s.log = none ∨ OrderedMap.firstKey s.log = some (s.boundaryIndex + 1)

/-! ## Sequences of operations -/

/-- The store, and the index that the log goes on with. -/
structure Sequence where
  store : RocksDBLogStore
  next : Nat

/-- The indexes from the given one on, without a hole. -/
def Contiguous (fromIndex : Nat) (entries : List Entry) : Prop :=
  entries.map Entry.index = List.range' fromIndex entries.length ∧
    fromIndex + entries.length ≤ u64Max

def Continues (q : Sequence) : Op → Prop
  | .persistEntries entries => Contiguous q.next entries
  | .replaceRange fromIndex newEntries =>
    q.store.boundaryIndex < fromIndex ∧ fromIndex ≤ q.next ∧ Contiguous fromIndex newEntries
  | .purge cutoff => q.store.boundaryIndex ≤ cutoff.index
  | .reset => True

instance (q : Sequence) : DecidablePred (Continues q) := fun op => by
  cases op <;> dsimp only [Continues, Contiguous] <;> infer_instance

/-- The next index behind an operation. -/
def Op.nextAfter (next : Nat) : Op → Nat
  | .persistEntries entries => next + entries.length
  | .replaceRange fromIndex newEntries => fromIndex + newEntries.length
  | .purge cutoff => max next (cutoff.index + 1)
  | .reset => 1

/-- A new store under operations that follow a log without holes. -/
def machine : Machine Sequence Op where
  init := fun q => q = ⟨.new ∅ none, 1⟩
  step := fun q op => if Continues q op then some ⟨op.run q.store, op.nextAfter q.next⟩ else none

/-- A reset finds no boundary. -/
def KeepsBoundary (q : Sequence) : Op → Prop
  | .reset => q.store.boundaryIndex = 0
  | _ => True

instance (q : Sequence) : DecidablePred (KeepsBoundary q) := fun op => by
  cases op <;> dsimp only [KeepsBoundary] <;> infer_instance

/-- A crash between the writes of a purge finds that it deleted nothing or everything. -/
def SafeCrash (s : RocksDBLogStore) (kept : Nat) : Op → Prop
  | .purge cutoff =>
    kept = 1 → cutoff.index = s.boundaryIndex ∨ ∀ i e, s.log[i]? = some e → i ≤ cutoff.index
  | _ => True

/-! ## The indexes of the log -/

variable {s : RocksDBLogStore} {q : Sequence} {op : Op}

/-- The log has the indexes between the boundary and the next one. -/
structure Spans (q : Sequence) : Prop where
  held : ∀ i, (∃ e, q.store.log[i]? = some e) ↔ q.store.boundaryIndex < i ∧ i < q.next
  lt_max : ∀ i e, q.store.log[i]? = some e → i < u64Max
  boundary_lt : q.store.boundaryIndex < q.next

theorem Spans.together (h : Spans q) : Together q.store := by
  cases hfi : firstKey q.store.log with
  | none => exact .inl hfi
  | some first =>
    obtain ⟨hhe, hls⟩ := firstKey_spec hfi
    have hsp := (h.held first).mp hhe
    obtain ⟨e, he⟩ := (h.held (q.store.boundaryIndex + 1)).mpr (by omega)
    have hle := hls _ e he
    exact .inr (hfi.trans (congrArg some (by omega)))

theorem Spans.run (h : Spans q) (hop : Continues q op) (hke : KeepsBoundary q op) :
    Spans ⟨op.run q.store, op.nextAfter q.next⟩ := by
  have hlt := h.boundary_lt
  cases op with
  | persistEntries entries =>
    refine ⟨fun i => ?_, fun i e he => ?_, Nat.lt_add_right _ hlt⟩
    · change (∃ e, (insertBy _ _ _)[i]? = some e) ↔
        q.store.boundaryIndex < i ∧ i < q.next + entries.length
      rw [exists_getElem?_insertBy, h.held, hop.1, List.mem_range'_1]
      omega
    · rcases (exists_getElem?_insertBy _ _ _ i).mp ⟨e, he⟩ with ⟨e', he'⟩ | hnew
      · exact h.lt_max i e' he'
      · rw [hop.1, List.mem_range'_1] at hnew
        exact hnew.2.trans_le hop.2
  | replaceRange fromIndex newEntries =>
    obtain ⟨hfr, hnx, hco⟩ := hop
    have hhe : ∀ i, (∃ e, (insertBy Entry.index
        (q.store.log.eraseRange fromIndex (u64Max - 1)) newEntries)[i]? = some e) ↔
          q.store.boundaryIndex < i ∧ i < fromIndex + newEntries.length := by
      intro i
      rw [exists_getElem?_insertBy, exists_getElem?_eraseRange,
        hco.1, List.mem_range'_1]
      constructor
      · rintro (⟨⟨e, he⟩, hout⟩ | hnew)
        · have hmax := h.lt_max i e he
          have hsp := (h.held i).mp ⟨e, he⟩
          omega
        · omega
      · intro hsp
        by_cases hi : i < fromIndex
        · exact .inl ⟨(h.held i).mpr (by omega), by omega⟩
        · exact .inr (by omega)
    refine ⟨hhe, fun i e he => ?_, hfr.trans_le (Nat.le_add_right _ _)⟩
    exact ((hhe i).mp ⟨e, he⟩).2.trans_le hco.2
  | purge cutoff =>
    change q.store.boundaryIndex ≤ cutoff.index at hop
    have hhe : ∀ i, (∃ e, (q.store.log.eraseRange 0 cutoff.index)[i]? = some e) ↔
        cutoff.index < i ∧ i < max q.next (cutoff.index + 1) := by
      intro i
      rw [exists_getElem?_eraseRange, h.held]
      omega
    refine ⟨hhe, fun i e he => ?_, ?_⟩
    · obtain ⟨⟨e', he'⟩, -⟩ := exists_getElem?_eraseRange.mp ⟨e, he⟩
      exact h.lt_max i e' he'
    · exact (Nat.lt_succ_self _).trans_le (le_max_right _ _)
  | reset =>
    change q.store.boundaryIndex = 0 at hke
    refine ⟨fun i => ?_, fun i e he => ?_, hke.trans_lt Nat.one_pos⟩
    · change (∃ e, (∅ : OrderedMap Entry)[i]? = some e) ↔ q.store.boundaryIndex < i ∧ i < 1
      simp
      omega
    · change (∅ : OrderedMap Entry)[i]? = some e at he
      simp at he

theorem spans_of_reach (h : machine.Reach KeepsBoundary q) : Spans q := by
  apply h.invariant (I := Spans)
  · rintro q rfl
    refine ⟨fun i => ?_, by simp [RocksDBLogStore.new], Nat.one_pos⟩
    simp [RocksDBLogStore.new, boundaryIndex]
    omega
  · intro q op q' hsp hke hst
    unfold machine at hst
    dsimp only at hst
    split_ifs at hst with hop
    cases hst
    exact hsp.run hop hke

/-! ## Crashes -/

/-- All writes of an operation leave the store that it leaves. -/
theorem together_recovered_iff {kept : Nat} (h : op.writes.length ≤ kept) :
    Together (recovered s op kept) ↔ Together (op.run s) := by
  unfold recovered
  rw [List.take_of_length_le h]
  cases op <;> exact Iff.rfl

/-- Between the writes of a purge the entries are deleted and the boundary is the old one. -/
theorem together_between_writes_iff {cutoff : LogId} (h : Spans q)
    (hcut : q.store.boundaryIndex ≤ cutoff.index) :
    Together (recovered q.store (.purge cutoff) 1) ↔ SafeCrash q.store 1 (.purge cutoff) := by
  have hlt := h.boundary_lt
  have hhe : ∀ i, (∃ e, (q.store.log.eraseRange 0 cutoff.index)[i]? = some e) ↔
      cutoff.index < i ∧ i < q.next := by
    intro i
    rw [exists_getElem?_eraseRange, h.held]
    omega
  constructor
  · intro hto _
    by_cases hlf : cutoff.index + 1 < q.next
    · obtain ⟨e, he⟩ := (hhe (cutoff.index + 1)).mpr ⟨Nat.lt_succ_self _, hlf⟩
      rcases hto with hno | hfi
      · exact absurd (he.symm.trans (getElem?_of_firstKey_none hno _)) nofun
      · have hbe := ((hhe _).mp (firstKey_spec hfi).1).1
        exact .inl (le_antisymm (Nat.le_of_lt_succ hbe) hcut)
    · refine .inr fun i e he => ?_
      have hsp := (h.held i).mp ⟨e, he⟩
      omega
  · intro hsa
    rcases hsa rfl with heq | hall
    · refine Spans.together (q := ⟨recovered q.store (.purge cutoff) 1, q.next⟩) ⟨?_, ?_, hlt⟩
      · exact fun i => (hhe i).trans (by rw [heq]; rfl)
      · intro i e he
        obtain ⟨⟨e', he'⟩, -⟩ := exists_getElem?_eraseRange.mp ⟨e, he⟩
        exact h.lt_max i e' he'
    · refine .inl ?_
      cases hfi : firstKey (recovered q.store (.purge cutoff) 1).log with
      | none => rfl
      | some first =>
        obtain ⟨⟨e, he⟩, hbe⟩ :=
          exists_getElem?_eraseRange.mp (firstKey_spec hfi).1
        exact absurd ⟨Nat.zero_le _, hall first e he⟩ hbe

/-- Behind operations whose resets find no boundary, log and boundary fit together after a crash
exactly if it is not one between the writes of a purge that deletes some entries and leaves others. -/
theorem together_after_crash_iff (h : machine.Reach KeepsBoundary q) (hop : Continues q op)
    (kept : Nat) : Together (recovered q.store op kept) ↔ SafeCrash q.store kept op := by
  have hsp := spans_of_reach h
  cases kept with
  | zero => exact iff_of_true hsp.together (by cases op <;> simp [SafeCrash])
  | succ kept =>
    cases op with
    | persistEntries entries | replaceRange fromIndex newEntries =>
      rw [together_recovered_iff (Nat.succ_le_succ (Nat.zero_le kept))]
      exact iff_of_true (hsp.run hop trivial).together trivial
    | reset =>
      rw [together_recovered_iff (Nat.succ_le_succ (Nat.zero_le kept))]
      exact iff_of_true (.inl (by simp [Op.run, reset, OrderedMap.firstKey])) trivial
    | purge =>
      cases kept with
      | zero => exact together_between_writes_iff hsp hop
      | succ kept =>
        rw [together_recovered_iff (Nat.succ_le_succ (Nat.succ_le_succ (Nat.zero_le kept)))]
        exact iff_of_true (hsp.run hop trivial).together (by simp [SafeCrash])

/-- Two of three entries are purged, and the crash comes behind the second write. -/
theorem together_behind_purge :
    ∃ q, machine.Reach KeepsBoundary q ∧ Together (recovered q.store (.purge ⟨1, 2⟩) 2) := by
  have hrun : ∃ q, machine.Reach KeepsBoundary q ∧ Continues q (.purge ⟨1, 2⟩) :=
    Machine.exists_reach_of_runIf [.persistEntries [⟨1, 1, none⟩, ⟨2, 1, none⟩, ⟨3, 1, none⟩]] rfl
      (by decide +kernel)
  obtain ⟨q, hre, hop⟩ := hrun
  exact ⟨q, hre, (together_after_crash_iff hre hop 2).mpr nofun⟩

/-- A crash between the writes of a purge up to the second of three entries leaves the third one
without a boundary. Entries that start again behind a reset start in front of the boundary. -/
theorem log_without_its_boundary :
    (∃ q, machine.Reach (fun _ _ => True) q ∧
      OrderedMap.firstKey (recovered q.store (.purge ⟨1, 2⟩) 1).log = some 3 ∧
      (recovered q.store (.purge ⟨1, 2⟩) 1).purgeBoundary = none) ∧
    ∃ q, machine.Reach (fun _ _ => True) q ∧
      OrderedMap.firstKey (recovered q.store (.persistEntries [⟨1, 2, none⟩]) 1).log = some 1 ∧
      (recovered q.store (.persistEntries [⟨1, 2, none⟩]) 1).purgeBoundary = some ⟨1, 2⟩ := by
  constructor
  · exact Machine.exists_reach_of_runIf
      [.persistEntries [⟨1, 1, none⟩, ⟨2, 1, none⟩, ⟨3, 1, none⟩]] rfl (by decide +kernel)
  · exact Machine.exists_reach_of_runIf
      [.persistEntries [⟨1, 1, none⟩, ⟨2, 1, none⟩], .purge ⟨1, 2⟩, .reset] rfl (by decide +kernel)

end DEngine.Storage.RocksDBLogStore

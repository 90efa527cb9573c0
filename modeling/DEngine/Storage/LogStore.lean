import DEngine.Storage.FileLogStore

/-!
# The contract of a log store

What the buffered log needs from a store is what its operations do to the entries that
it stores. The store in one file and the store in RocksDB keep the contract; they
differ in what they remember of a purge and in what they report as their last index.

## Implementation notes

RocksDB keeps the entries in one column family and the purge boundary in another.
Its range deletion stops before the largest key, so it is only complete while no entry
has that index.
-/

namespace DEngine.Storage

open Library

/-- The largest index leaves room for the one behind it. -/
def Indexed (content : OrderedMap Entry) : Prop :=
  ∀ i e, content[i]? = some e → e.index = i ∧ i < u64Max

structure LogStore (σ : Type) where
  content : σ → OrderedMap Entry
  lastIndex : σ → Nat
  loadPurgeBoundary : σ → Option LogId
  isWriteDurable : Bool
  persistEntries : List Entry → σ → σ
  replaceRange : Nat → List Entry → σ → σ
  purge : LogId → σ → σ
  reset : σ → σ
  content_persistEntries : ∀ s entries,
    content (persistEntries entries s) = OrderedMap.insertBy Entry.index (content s) entries
  content_replaceRange : ∀ s truncateFrom newEntries, Indexed (content s) →
    content (replaceRange truncateFrom newEntries s) =
      OrderedMap.insertBy Entry.index ((content s).eraseFrom truncateFrom) newEntries
  content_purge : ∀ s cutoff, cutoff.index < u64Max →
    content (purge cutoff s) = (content s).eraseRange 0 cutoff.index
  content_reset : ∀ s, content (reset s) = ∅

/-- The stored entries of an index range, in order. -/
def LogStore.getEntries {σ : Type} (L : LogStore σ) (s : σ) (lo hi : Nat) : List Entry :=
  ((L.content s).range lo hi).map Prod.snd

/-- The buffered log that is created over a store. -/
def LogStore.newLog {σ : Type} (L : LogStore σ) (s : σ) : BufferedRaftLog :=
  let diskLen := L.lastIndex s
  BufferedRaftLog.new diskLen (if 0 < diskLen then L.getEntries s 1 diskLen else [])
    (L.loadPurgeBoundary s)

/-- The log that is created over a store holds nothing but what is stored. -/
theorem LogStore.newLog_sub {σ : Type} (L : LogStore σ) {s : σ} (h : Indexed (L.content s)) :
    ∀ (i : Nat) (e : Entry), (L.newLog s).entries[i]? = some e → (L.content s)[i]? = some e := by
  intro i e he
  have hld : ∀ v ∈ (if 0 < L.lastIndex s then L.getEntries s 1 (L.lastIndex s) else []),
      (L.content s)[v.index]? = some v := by
    intro v hv
    split at hv
    · obtain ⟨⟨k, w⟩, hmem, rfl⟩ := List.mem_map.mp hv
      have hlo := ((OrderedMap.mem_range_iff _ _ _ _ _).mp hmem).1
      rw [(h k w hlo).1]
      exact hlo
    · cases hv
  obtain ⟨v, hv, rfl, hlo⟩ | ⟨-, hlo⟩ := OrderedMap.getElem?_insertBy_cases Entry.index ∅
    (if 0 < L.lastIndex s then L.getEntries s 1 (L.lastIndex s) else []) i
  · cases hlo.symm.trans he
    exact hld _ hv
  · rw [Std.ExtTreeMap.getElem?_empty] at hlo
    cases hlo.symm.trans he

/-! ## The store in one file -/

namespace FileLogStore

variable {codec : Codec} {s : FileLogStore}

theorem entries_persistEntries (s : FileLogStore) (entries : List Entry) :
    (s.persistEntries codec entries).entries =
      OrderedMap.insertBy Entry.index s.entries entries := by
  unfold persistEntries
  split_ifs with hnil
  · rw [hnil]
    rfl
  · rw [writeEntries_eq]

theorem entries_replaceRange (s : FileLogStore) (fromIndex : Nat) (newEntries : List Entry) :
    (s.replaceRange codec fromIndex newEntries).entries =
      OrderedMap.insertBy Entry.index (s.entries.eraseFrom fromIndex) newEntries := by
  unfold replaceRange
  dsimp only
  rw [writeEntries_eq]
  rfl

/-- The purge of the store, which does nothing if it cannot count from the cutoff on. -/
def purged (codec : Codec) (s : FileLogStore) (cutoff : LogId) : FileLogStore :=
  ((s.purge codec cutoff).toOption).getD s

theorem entries_purged {cutoff : LogId} (s : FileLogStore) (h : cutoff.index < u64Max) :
    (s.purged codec cutoff).entries = s.entries.eraseRange 0 cutoff.index := by
  rw [purged, purge, if_neg (Nat.not_le.mpr h)]
  change s.entries.eraseKeys _ = s.entries.eraseKeys _
  congr 3
  funext p
  simp

/-- The contract of the store in one file. It does not remember a purge. -/
def logStore (codec : Codec) : LogStore FileLogStore where
  content := FileLogStore.entries
  lastIndex := FileLogStore.lastIndex
  loadPurgeBoundary := fun _ => none
  isWriteDurable := false
  persistEntries := fun entries s => s.persistEntries codec entries
  replaceRange := fun fromIndex newEntries s => s.replaceRange codec fromIndex newEntries
  purge := fun cutoff s => s.purged codec cutoff
  reset := FileLogStore.reset
  content_persistEntries := entries_persistEntries
  content_replaceRange := fun s fromIndex newEntries _ =>
    entries_replaceRange s fromIndex newEntries
  content_purge := fun s _ h => entries_purged s h
  content_reset := fun _ => rfl

end FileLogStore

/-! ## The store in RocksDB -/

structure RocksDBLogStore where
  /-- The log column family. -/
  log : OrderedMap Entry
  lastIndex : Nat
  /-- The purge boundary in the metadata column family. -/
  purgeBoundary : Option LogId

namespace RocksDBLogStore

/-- Open the database: the last index is its largest key. -/
def new (log : OrderedMap Entry) (purgeBoundary : Option LogId) : RocksDBLogStore :=
  ⟨log, (OrderedMap.lastKey log).getD 0, purgeBoundary⟩

def persistEntries (s : RocksDBLogStore) (entries : List Entry) : RocksDBLogStore :=
  let maxIndex := (entries.map Entry.index).max?.getD 0
  { s with
    log := OrderedMap.insertBy Entry.index s.log entries
    lastIndex := if 0 < maxIndex then maxIndex else s.lastIndex }

/-- Delete the keys from the first one on, the largest key excluded, and put the new entries. -/
def replaceRange (s : RocksDBLogStore) (fromIndex : Nat) (newEntries : List Entry) :
    RocksDBLogStore :=
  { s with
    log := OrderedMap.insertBy Entry.index (s.log.eraseRange fromIndex (u64Max - 1)) newEntries
    lastIndex := (newEntries.getLast?.map Entry.index).getD (fromIndex - 1) }

def purge (s : RocksDBLogStore) (cutoff : LogId) : RocksDBLogStore :=
  { s with log := s.log.eraseRange 0 cutoff.index, purgeBoundary := some cutoff }

def reset (s : RocksDBLogStore) : RocksDBLogStore := { s with log := ∅, lastIndex := 0 }

theorem eraseRange_of_indexed {m : OrderedMap Entry} (h : Indexed m) (fromIndex : Nat) :
    m.eraseRange fromIndex (u64Max - 1) = m.eraseFrom fromIndex := by
  apply Std.ExtTreeMap.ext_getElem?
  intro i
  rw [OrderedMap.getElem?_eraseRange, OrderedMap.getElem?_eraseFrom]
  cases hlo : m[i]? with
  | none => rw [ite_self, ite_self]
  | some e =>
    have hlt := (h i e hlo).2
    have hra : (fromIndex ≤ i ∧ i ≤ u64Max - 1) ↔ fromIndex ≤ i := by omega
    rw [if_congr hra rfl rfl]

/-- The contract of the store in RocksDB. -/
def logStore : LogStore RocksDBLogStore where
  content := RocksDBLogStore.log
  lastIndex := RocksDBLogStore.lastIndex
  loadPurgeBoundary := RocksDBLogStore.purgeBoundary
  isWriteDurable := false
  persistEntries := fun entries s => s.persistEntries entries
  replaceRange := fun fromIndex newEntries s => s.replaceRange fromIndex newEntries
  purge := fun cutoff s => s.purge cutoff
  reset := RocksDBLogStore.reset
  content_persistEntries := fun _ _ => rfl
  content_replaceRange := fun s fromIndex newEntries h => by
    change OrderedMap.insertBy _ (s.log.eraseRange _ _) _ = _
    rw [eraseRange_of_indexed h]
  content_purge := fun _ _ _ => rfl
  content_reset := fun _ => rfl

end RocksDBLogStore

end DEngine.Storage

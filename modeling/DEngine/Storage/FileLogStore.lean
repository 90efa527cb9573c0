import DEngine.Library.Framing
import DEngine.Library.Transition
import DEngine.Storage.BufferedRaftLog

/-!
# The log store in one file

The entries are records of one file, each with its length in front, and a map in
memory; a second map knows where the last record of each index ends. Persisting an
index again appends a record, and a truncation cuts the file behind the last record
of the largest index that stays. A store that is opened again reads what the map in
memory held, as long as every truncation finds the records in ascending order.

## Implementation notes

The encoding of an entry belongs to a library; an entry is only written if it is
decoded as it was encoded. Writing, cutting and syncing succeed as long as the
positions of the file can be addressed.
-/

namespace DEngine.Storage

open Library Library.Framing OrderedMap

/-- How entries become bytes. -/
structure Codec where
  encode : Entry → List UInt8
  decode : List UInt8 → Option Entry

structure FileLogStore where
  entries : OrderedMap Entry
  file : List UInt8
  indexEndPos : OrderedMap Nat
  lastIndex : Nat

namespace FileLogStore

variable (codec : Codec)

/-! ## Reading -/

/-- The loop body of `loadFromFile`. A record that cannot be decoded is skipped. -/
def loadRecord (s : FileLogStore) (record : Nat × List UInt8) : FileLogStore :=
  match codec.decode record.2 with
  | some entry =>
    { s with
      entries := s.entries.insert entry.index entry
      indexEndPos := s.indexEndPos.insert entry.index record.1
      lastIndex := max s.lastIndex entry.index }
  | none => s

/-- Read the records of a file into an empty store. -/
def loadFromFile (file : List UInt8) : Except Fault FileLogStore :=
  match scan 8 u64Max file.length 0 file with
  | none => .error (.panic "attempt to add with overflow")
  | some records => .ok (records.foldl (loadRecord codec) ⟨∅, file, ∅, 0⟩)

/-! ## Writing -/

/-- Append one record, and remember where it ends. -/
def writeEncoded (s : FileLogStore) (entry : Entry) : FileLogStore :=
  let file := s.file ++ frame 8 (codec.encode entry)
  { s with file := file, indexEndPos := s.indexEndPos.insert entry.index file.length }

/-- Cut the file, or extend it with zeros. -/
def setLen (s : FileLogStore) (length : Nat) : FileLogStore :=
  { s with file := s.file.take length ++ List.replicate (length - s.file.length) 0 }

/-- Where the last record of the largest index below the given one ends. -/
def endPosBefore (s : FileLogStore) (fromIndex : Nat) : Nat :=
  ((s.indexEndPos.toList.filter fun p => decide (p.1 < fromIndex)).getLast?.map Prod.snd).getD 0

def removeFromIndex (s : FileLogStore) (fromIndex : Nat) : FileLogStore :=
  let keys := (s.entries.toList.filter fun p => decide (fromIndex ≤ p.1)).map Prod.fst
  { s with entries := s.entries.eraseKeys keys, indexEndPos := s.indexEndPos.eraseKeys keys }

/-- Append a record for each entry and hold it in memory. -/
def writeEntries (s : FileLogStore) (entries : List Entry) : FileLogStore :=
  entries.foldl (fun s entry =>
    let written := s.writeEncoded codec entry
    { written with entries := written.entries.insert entry.index entry }) s

def persistEntries (s : FileLogStore) (entries : List Entry) : FileLogStore :=
  if entries = [] then s
  else { s.writeEntries codec entries with lastIndex := (entries.map Entry.index).max?.getD 0 }

/-- The entries behind the cutoff, in the order of their indexes. -/
def entriesToKeep (s : FileLogStore) (cutoff : LogId) : List Entry :=
  (s.entries.toList.filter fun p => decide (cutoff.index < p.1)).map Prod.snd

/-- Write the entries behind the cutoff into an empty file. The last index is left alone. -/
def purge (s : FileLogStore) (cutoff : LogId) : Except Fault FileLogStore :=
  if u64Max ≤ cutoff.index then .error (.panic "attempt to add with overflow")
  else
    let dropped := (s.entries.toList.filter fun p => decide (p.1 ≤ cutoff.index)).map Prod.fst
    let rewritten :=
      (s.entriesToKeep cutoff).foldl (writeEncoded codec) { s with file := [], indexEndPos := ∅ }
    .ok { rewritten with entries := s.entries.eraseKeys dropped }

def truncate (s : FileLogStore) (fromIndex : Nat) : FileLogStore :=
  let cut := (s.setLen (s.endPosBefore fromIndex)).removeFromIndex fromIndex
  { cut with lastIndex := (OrderedMap.lastKey cut.entries).getD 0 }

def replaceRange (s : FileLogStore) (fromIndex : Nat) (newEntries : List Entry) : FileLogStore :=
  let cut := (s.setLen (s.endPosBefore fromIndex)).removeFromIndex fromIndex
  let written := cut.writeEntries codec newEntries
  { written with lastIndex := (OrderedMap.lastKey written.entries).getD 0 }

def reset (_s : FileLogStore) : FileLogStore := ⟨∅, [], ∅, 0⟩

/-! ## Records and positions -/

variable {codec : Codec} {s t : FileLogStore}

/-- The bytes of a sequence of records. -/
def image (codec : Codec) (records : List Entry) : List UInt8 :=
  frames 8 (records.map codec.encode)

/-- The map of positions behind a sequence of records that starts at the given position. -/
def positions (codec : Codec) : Nat → OrderedMap Nat → List Entry → OrderedMap Nat
  | _, ends, [] => ends
  | pos, ends, entry :: rest =>
    let stop := pos + (8 + (codec.encode entry).length)
    positions codec stop (ends.insert entry.index stop) rest

theorem image_append (a b : List Entry) : image codec (a ++ b) = image codec a ++ image codec b := by
  rw [image, List.map_append, frames_append]
  rfl

theorem image_cons (entry : Entry) (rest : List Entry) :
    image codec (entry :: rest) = frame 8 (codec.encode entry) ++ image codec rest := rfl

theorem positions_append (pos : Nat) (ends : OrderedMap Nat) (a b : List Entry) :
    positions codec pos ends (a ++ b) =
      positions codec (pos + (image codec a).length) (positions codec pos ends a) b := by
  induction a generalizing pos ends with
  | nil => rfl
  | cons entry rest ih =>
    have hsi : pos + (image codec (entry :: rest)).length =
        pos + (8 + (codec.encode entry).length) + (image codec rest).length := by
      rw [image_cons, List.length_append, length_frame]
      omega
    rw [hsi]
    exact ih _ _

variable {records : List Entry}

/-- An index keeps its position if no later record has it. -/
theorem positions_of_not_mem {pos j : Nat} {ends : OrderedMap Nat}
    (h : ∀ e ∈ records, e.index ≠ j) : (positions codec pos ends records)[j]? = ends[j]? := by
  induction records generalizing pos ends with
  | nil => rfl
  | cons entry rest ih =>
    rw [positions, ih fun e he => h e (List.mem_cons_of_mem entry he),
      getElem?_insert_eq, if_neg (h entry List.mem_cons_self).symm]

/-- The last record of a sequence ends where the sequence ends. -/
theorem positions_last (pos : Nat) (ends : OrderedMap Nat) (front : List Entry) (last : Entry) :
    (positions codec pos ends (front ++ [last]))[last.index]? =
      some (pos + (image codec (front ++ [last])).length) := by
  have hsi : pos + (image codec (front ++ [last])).length =
      pos + (image codec front).length + (8 + (codec.encode last).length) := by
    rw [image_append, List.length_append, image_cons, List.length_append, length_frame]
    simp only [image, List.map_nil, frames_nil, List.length_nil]
    omega
  rw [positions_append, positions, positions, getElem?_insert_eq, if_pos rfl, hsi]

/-- What a store holds whose file is a sequence of readable records. -/
structure Holds (codec : Codec) (s : FileLogStore) (records : List Entry) : Prop where
  file_eq : s.file = image codec records
  entries_eq : s.entries = OrderedMap.insertBy Entry.index ∅ records
  endPos_eq : s.indexEndPos = positions codec 0 ∅ records
  readable : ∀ e ∈ records, codec.decode (codec.encode e) = some e
  addressable : s.file.length ≤ u64Max

/-! ## Reading back -/

/-- Reading records adds them to what was read before. -/
theorem foldl_loadRecord
    (h : ∀ e ∈ records, codec.decode (codec.encode e) = some e) (pos : Nat) (s : FileLogStore) :
    let loaded := (stops 8 pos (records.map codec.encode)).foldl (loadRecord codec) s
    loaded.entries = insertBy Entry.index s.entries records ∧
      loaded.indexEndPos = positions codec pos s.indexEndPos records ∧ loaded.file = s.file := by
  induction records generalizing pos s with
  | nil => exact ⟨rfl, rfl, rfl⟩
  | cons entry rest ih =>
    have hrec : ∀ stop : Nat, loadRecord codec s (stop, codec.encode entry) =
        { s with
          entries := s.entries.insert entry.index entry
          indexEndPos := s.indexEndPos.insert entry.index stop
          lastIndex := max s.lastIndex entry.index } := by
      intro stop
      rw [loadRecord, h entry List.mem_cons_self]
    rw [List.map_cons, stops, List.foldl_cons, hrec]
    exact ih (fun e he => h e (List.mem_cons_of_mem entry he)) _ _

/-- The payloads of an addressable file fit into their length fields. -/
theorem length_encode_lt {pos : Nat} (h : pos + (image codec records).length ≤ u64Max) :
    ∀ payload ∈ records.map codec.encode, payload.length < 256 ^ 8 := by
  intro payload hpay
  obtain ⟨front, back, hsp⟩ := List.append_of_mem hpay
  rw [image, hsp, frames_append, frames_cons, List.length_append, List.length_append,
    length_frame] at h
  have hmax : u64Max < 256 ^ 8 := by decide
  omega

/-- The scan of a file finds the records that it holds. -/
theorem Holds.scan_eq (h : Holds codec s records) :
    scan 8 u64Max s.file.length 0 s.file = some (stops 8 0 (records.map codec.encode)) := by
  have hlen : 0 + (image codec records).length ≤ u64Max := by
    rw [Nat.zero_add, ← h.file_eq]
    exact h.addressable
  rw [h.file_eq]
  exact scan_frames (by decide) (length_le_length_frames (by decide) _)
    (length_encode_lt hlen) hlen

/-- A store that holds a sequence of records is read back from its file. -/
theorem Holds.load (h : Holds codec s records) :
    ∃ loaded, loadFromFile codec s.file = .ok loaded ∧ loaded.entries = s.entries ∧
      loaded.indexEndPos = s.indexEndPos ∧ loaded.file = s.file := by
  obtain ⟨het, hen, hfi⟩ := foldl_loadRecord h.readable 0 ⟨∅, s.file, ∅, 0⟩
  refine ⟨_, by rw [loadFromFile, h.scan_eq], ?_, ?_, hfi⟩
  · rw [het, h.entries_eq]
  · rw [hen, h.endPos_eq]

/-- The indexes that a store holds are those of its records. -/
theorem Holds.held_iff (h : Holds codec s records) (j : Nat) :
    (∃ e, s.entries[j]? = some e) ↔ ∃ e ∈ records, e.index = j := by
  rw [h.entries_eq]
  obtain ⟨v, hv, hidx, hlo⟩ | ⟨hno, hlo⟩ :=
    getElem?_insertBy_cases Entry.index ∅ records j
  · exact ⟨fun _ => ⟨v, hv, hidx⟩, fun _ => ⟨v, hlo⟩⟩
  · rw [hlo, Std.ExtTreeMap.getElem?_empty]
    exact ⟨nofun, fun ⟨e, he, hidx⟩ => absurd hidx (hno e he)⟩

/-! ## What the operations keep -/

theorem writeEntries_eq (s : FileLogStore) (entries : List Entry) :
    s.writeEntries codec entries =
      { s with
        entries := insertBy Entry.index s.entries entries
        file := s.file ++ image codec entries
        indexEndPos := positions codec s.file.length s.indexEndPos entries } := by
  induction entries generalizing s with
  | nil => simp [writeEntries, insertBy, image, positions]
  | cons entry rest ih =>
    rw [writeEntries, List.foldl_cons]
    change (writeEntries codec _ rest) = _
    rw [ih, image_cons, positions, ← List.append_assoc]
    simp only [writeEncoded, List.length_append, length_frame]
    rfl

theorem foldl_writeEncoded (s : FileLogStore) (entries : List Entry) :
    entries.foldl (writeEncoded codec) s =
      { s with
        file := s.file ++ image codec entries
        indexEndPos := positions codec s.file.length s.indexEndPos entries } := by
  induction entries generalizing s with
  | nil => simp [image, positions]
  | cons entry rest ih =>
    rw [List.foldl_cons, ih, image_cons, positions, ← List.append_assoc]
    simp only [writeEncoded, List.length_append, length_frame]

theorem Holds.writeEntries {entries : List Entry} (h : Holds codec s records)
    (hre : ∀ e ∈ entries, codec.decode (codec.encode e) = some e)
    (hlen : (s.writeEntries codec entries).file.length ≤ u64Max) :
    Holds codec (s.writeEntries codec entries) (records ++ entries) := by
  rw [writeEntries_eq] at hlen ⊢
  refine ⟨?_, ?_, ?_, ?_, hlen⟩
  · rw [image_append, ← h.file_eq]
  · rw [insertBy_append, ← h.entries_eq]
  · rw [positions_append, ← h.endPos_eq, Nat.zero_add, ← h.file_eq]
  · intro e he
    rcases List.mem_append.mp he with hold | hnew
    · exact h.readable e hold
    · exact hre e hnew

/-- The records below an index come first. -/
theorem exists_split (h : (records.map Entry.index).Pairwise (· ≤ ·))
    (fromIndex : Nat) : ∃ low high, records = low ++ high ∧ (∀ e ∈ low, e.index < fromIndex) ∧
      (∀ e ∈ high, fromIndex ≤ e.index) ∧ (low.map Entry.index).Pairwise (· ≤ ·) := by
  induction records with
  | nil => exact ⟨[], [], rfl, nofun, nofun, List.Pairwise.nil⟩
  | cons entry rest ih =>
    rw [List.map_cons, List.pairwise_cons] at h
    by_cases hlt : entry.index < fromIndex
    · obtain ⟨low, high, rfl, hlow, hhi, hso⟩ := ih h.2
      refine ⟨entry :: low, high, rfl, ?_, hhi, ?_⟩
      · rintro e he
        rcases List.mem_cons.mp he with rfl | hre
        · exact hlt
        · exact hlow e hre
      · rw [List.map_cons, List.pairwise_cons]
        refine ⟨fun index hidx => h.1 index ?_, hso⟩
        rw [List.map_append]
        exact List.mem_append_left _ hidx
    · refine ⟨[], entry :: rest, rfl, nofun, ?_, List.Pairwise.nil⟩
      rintro e he
      rcases List.mem_cons.mp he with rfl | hre
      · exact Nat.not_lt.mp hlt
      · exact (Nat.not_lt.mp hlt).trans (h.1 e.index (List.mem_map_of_mem hre))

section Cut

variable {low high : List Entry} {fromIndex : Nat}

/-- Among ascending records the cut lies behind those below the index. -/
theorem Holds.endPosBefore (h : Holds codec s (low ++ high)) (hlow : ∀ e ∈ low, e.index < fromIndex)
    (hhi : ∀ e ∈ high, fromIndex ≤ e.index) (hso : (low.map Entry.index).Pairwise (· ≤ ·)) :
    s.endPosBefore fromIndex = (image codec low).length := by
  have hbe : ∀ j, j < fromIndex →
      s.indexEndPos[j]? = (positions codec 0 ∅ low)[j]? := by
    intro j hj
    rw [h.endPos_eq, positions_append, positions_of_not_mem]
    intro e he heq
    exact absurd (hhi e he) (by omega)
  have hfo : ∀ j w, s.indexEndPos[j]? = some w → j < fromIndex → ∃ e ∈ low, e.index = j := by
    intro j w hw hj
    by_contra hno
    rw [hbe j hj, positions_of_not_mem fun e he heq => hno ⟨e, he, heq⟩] at hw
    simp at hw
  unfold FileLogStore.endPosBefore
  rcases List.eq_nil_or_concat low with rfl | ⟨front, last, rfl⟩
  · have hnil : (s.indexEndPos.toList.filter fun p => decide (p.1 < fromIndex)) = [] := by
      rw [List.filter_eq_nil_iff]
      rintro ⟨j, w⟩ hp hj
      obtain ⟨e, he, -⟩ := hfo j w ((mem_toList_iff _ j w).mp hp)
        (of_decide_eq_true hj)
      cases he
    rw [hnil]
    rfl
  · rw [List.concat_eq_append] at hlow hso hbe hfo ⊢
    have hla : last.index < fromIndex := hlow last (by simp)
    have hpos : s.indexEndPos[last.index]? = some (image codec (front ++ [last])).length := by
      rw [hbe _ hla, positions_last, Nat.zero_add]
    rw [getLast?_filter_lt hpos hla]
    · rfl
    · intro j w hw hj
      obtain ⟨e, he, rfl⟩ := hfo j w hw hj
      rcases List.mem_append.mp he with hfr | hin
      · rw [List.map_append, List.pairwise_append] at hso
        exact hso.2.2 e.index (List.mem_map_of_mem hfr) last.index (by simp)
      · rw [List.mem_singleton.mp hin]

/-- A cut among ascending records leaves those below the index. -/
theorem Holds.cut (h : Holds codec s (low ++ high)) (hlow : ∀ e ∈ low, e.index < fromIndex)
    (hhi : ∀ e ∈ high, fromIndex ≤ e.index) (hso : (low.map Entry.index).Pairwise (· ≤ ·)) :
    Holds codec ((s.setLen (s.endPosBefore fromIndex)).removeFromIndex fromIndex) low := by
  have hfi : (s.setLen (s.endPosBefore fromIndex)).file = image codec low := by
    have hle : (image codec low).length ≤ s.file.length := by
      rw [h.file_eq, image_append, List.length_append]
      omega
    rw [setLen, h.endPosBefore hlow hhi hso, Nat.sub_eq_zero_of_le hle, h.file_eq,
      image_append]
    simp
  have hlo : ∀ j, fromIndex ≤ j → ∀ e ∈ low, e.index ≠ j := by
    intro j hj e he heq
    exact absurd (hlow e he) (by omega)
  have hhg : ∀ j, ¬ fromIndex ≤ j → ∀ e ∈ high, e.index ≠ j := by
    intro j hj e he heq
    exact absurd (hhi e he) (by omega)
  refine ⟨hfi, ?_, ?_, fun e he => h.readable e (List.mem_append_left _ he), ?_⟩
  · apply Std.ExtTreeMap.ext_getElem?
    intro j
    change (s.entries.eraseKeys _)[j]? = _
    rw [getElem?_eraseKeys]
    by_cases hj : fromIndex ≤ j
    · rw [getElem?_insertBy_of_not_mem _ _ _ _ (hlo j hj)]
      split_ifs with hkey
      · simp
      · rw [mem_keysFrom] at hkey
        cases hlk : s.entries[j]? with
        | none => simp
        | some e => exact absurd ⟨hj, e, hlk⟩ hkey
    · rw [if_neg fun hkey => hj (mem_keysFrom.mp hkey).1, h.entries_eq,
        insertBy_append,
        getElem?_insertBy_of_not_mem _ _ _ _ (hhg j hj)]
  · apply Std.ExtTreeMap.ext_getElem?
    intro j
    change (s.indexEndPos.eraseKeys _)[j]? = _
    rw [getElem?_eraseKeys]
    by_cases hj : fromIndex ≤ j
    · rw [positions_of_not_mem (hlo j hj)]
      split_ifs with hkey
      · simp
      · rw [h.endPos_eq, positions_of_not_mem]
        intro e he heq
        exact hkey (mem_keysFrom.mpr ⟨hj, (h.held_iff j).mpr ⟨e, he, heq⟩⟩)
    · rw [if_neg fun hkey => hj (mem_keysFrom.mp hkey).1, h.endPos_eq, positions_append,
        positions_of_not_mem (hhg j hj)]
  · change (s.setLen _).file.length ≤ u64Max
    have hle := h.addressable
    rw [h.file_eq, image_append, List.length_append] at hle
    rw [hfi]
    omega

end Cut

/-- What is found in a store is one of its records, under its own index. -/
theorem Holds.mem_of_lookup (h : Holds codec s records) {j : Nat} {e : Entry}
    (he : s.entries[j]? = some e) : e ∈ records ∧ e.index = j := by
  rw [h.entries_eq] at he
  rcases getElem?_insertBy_cases Entry.index ∅ records j with
    ⟨e', hmem, hidx, hlo⟩ | ⟨-, hno⟩
  · rw [hlo, Option.some.injEq] at he
    exact he ▸ ⟨hmem, hidx⟩
  · rw [hno] at he
    simp at he

theorem Holds.mem_entriesToKeep (h : Holds codec s records) {cutoff : LogId} {e : Entry} :
    e ∈ s.entriesToKeep cutoff ↔ cutoff.index < e.index ∧ s.entries[e.index]? = some e := by
  rw [entriesToKeep, List.mem_map]
  constructor
  · rintro ⟨⟨j, e'⟩, hp, rfl⟩
    obtain ⟨hin, hj⟩ := List.mem_filter.mp hp
    have hlo := (mem_toList_iff _ j e').mp hin
    obtain ⟨-, rfl⟩ := h.mem_of_lookup hlo
    exact ⟨of_decide_eq_true hj, hlo⟩
  · rintro ⟨hlt, hlo⟩
    exact ⟨(e.index, e), List.mem_filter.mpr
      ⟨(mem_toList_iff _ _ _).mpr hlo, decide_eq_true hlt⟩, rfl⟩

theorem Holds.entriesToKeep_ascending (h : Holds codec s records) (cutoff : LogId) :
    (s.entriesToKeep cutoff).Pairwise fun a b => a.index < b.index := by
  have hke : ∀ p ∈ s.entries.toList.filter (fun p => decide (cutoff.index < p.1)),
      p.2.index = p.1 := by
    rintro ⟨j, e⟩ hp
    have hin := (List.mem_filter.mp hp).1
    exact (h.mem_of_lookup ((mem_toList_iff _ j e).mp hin)).2
  rw [entriesToKeep, List.pairwise_map]
  refine List.Pairwise.imp_of_mem ?_ ((toList_pairwise s.entries).filter _)
  intro a b ha hb hlt
  rwa [hke a ha, hke b hb]

/-- A purge writes what it keeps in ascending order. -/
theorem Holds.purge {cutoff : LogId} (h : Holds codec s records)
    (hpu : s.purge codec cutoff = .ok t) (hlen : t.file.length ≤ u64Max) :
    Holds codec t (s.entriesToKeep cutoff) := by
  unfold FileLogStore.purge at hpu
  split_ifs at hpu
  dsimp only at hpu
  rw [foldl_writeEncoded] at hpu
  cases hpu
  refine ⟨List.nil_append _, ?_, rfl, ?_, hlen⟩
  · apply Std.ExtTreeMap.ext_getElem?
    intro j
    change (s.entries.eraseKeys _)[j]? = _
    have hdr : ∀ e, s.entries[j]? = some e →
        (j ∈ (s.entries.toList.filter fun p => decide (p.1 ≤ cutoff.index)).map Prod.fst ↔
          j ≤ cutoff.index) := by
      intro e he
      rw [List.mem_map]
      constructor
      · rintro ⟨⟨k, e'⟩, hp, rfl⟩
        exact of_decide_eq_true (List.mem_filter.mp hp).2
      · intro hle
        exact ⟨(j, e), List.mem_filter.mpr
          ⟨(mem_toList_iff _ j e).mpr he, decide_eq_true hle⟩, rfl⟩
    rw [getElem?_eraseKeys]
    cases hlo : s.entries[j]? with
    | none =>
      rw [ite_self, getElem?_insertBy_of_not_mem]
      · simp
      · rintro e he rfl
        rw [(h.mem_entriesToKeep.mp he).2] at hlo
        cases hlo
    | some e =>
      obtain ⟨-, rfl⟩ := h.mem_of_lookup hlo
      by_cases hle : e.index ≤ cutoff.index
      · rw [if_pos ((hdr e hlo).mpr hle), getElem?_insertBy_of_not_mem]
        · simp
        · intro e' he' heq
          exact absurd (h.mem_entriesToKeep.mp he').1 (by omega)
      · rw [if_neg fun hmem => hle ((hdr e hlo).mp hmem)]
        refine (getElem?_insertBy_of_mem Entry.index ∅ _
          (h.entriesToKeep_ascending cutoff) e (h.mem_entriesToKeep.mpr ⟨Nat.lt_of_not_le hle, hlo⟩)).symm
  · intro e he
    exact h.readable e (h.mem_of_lookup (h.mem_entriesToKeep.mp he).2).1

/-! ## Runs -/

inductive Op where
  | persistEntries (entries : List Entry)
  | purge (cutoff : LogId)
  | truncate (fromIndex : Nat)
  | replaceRange (fromIndex : Nat) (newEntries : List Entry)
  | reset

/-- The entries that an operation writes anew. -/
def Op.written : Op → List Entry
  | .persistEntries entries => entries
  | .replaceRange _ newEntries => newEntries
  | _ => []

def Op.run (codec : Codec) (s : FileLogStore) : Op → Except Fault FileLogStore
  | .persistEntries entries => .ok (s.persistEntries codec entries)
  | .purge cutoff => s.purge codec cutoff
  | .truncate fromIndex => .ok (s.truncate fromIndex)
  | .replaceRange fromIndex newEntries => .ok (s.replaceRange codec fromIndex newEntries)
  | .reset => .ok s.reset

/-- One operation that succeeds: what it writes can be decoded, and the file addressed. -/
def step (codec : Codec) (s : FileLogStore) (op : Op) : Option FileLogStore :=
  match op.run codec s with
  | .ok t =>
    if (∀ e ∈ op.written, codec.decode (codec.encode e) = some e) ∧ t.file.length ≤ u64Max then
      some t
    else none
  | .error _ => none

/-- The store over a new file, under the operations of the trait. -/
def machine (codec : Codec) : Machine FileLogStore Op where
  init := fun s => loadFromFile codec [] = .ok s
  step := step codec

/-- The decoded records of a file, in their order. -/
def recordsOf (codec : Codec) (file : List UInt8) : List Entry :=
  ((scan 8 u64Max file.length 0 file).getD []).filterMap fun record => codec.decode record.2

/-- A truncation finds the records of the file in ascending order. -/
def CutsAscending (codec : Codec) (s : FileLogStore) : Op → Prop
  | .truncate _ => ((recordsOf codec s.file).map Entry.index).Pairwise (· ≤ ·)
  | .replaceRange _ _ => ((recordsOf codec s.file).map Entry.index).Pairwise (· ≤ ·)
  | _ => True

instance (op : Op) : Decidable (CutsAscending codec s op) := by
  unfold CutsAscending
  split <;> infer_instance

theorem filterMap_decode_stops
    (h : ∀ e ∈ records, codec.decode (codec.encode e) = some e) (pos : Nat) :
    ((stops 8 pos (records.map codec.encode)).filterMap fun record => codec.decode record.2) =
      records := by
  induction records generalizing pos with
  | nil => rfl
  | cons entry rest ih =>
    rw [List.map_cons, stops, List.filterMap_cons, h entry List.mem_cons_self,
      ih fun e he => h e (List.mem_cons_of_mem entry he)]

theorem Holds.recordsOf_eq (h : Holds codec s records) : recordsOf codec s.file = records := by
  rw [recordsOf, h.scan_eq]
  exact filterMap_decode_stops h.readable 0

theorem Holds.of_lastIndex (h : Holds codec s records) (lastIndex : Nat) :
    Holds codec { s with lastIndex := lastIndex } records :=
  ⟨h.file_eq, h.entries_eq, h.endPos_eq, h.readable, h.addressable⟩

/-- Every operation leaves a file of readable records, and the maps that go with it. -/
theorem Holds.step {op : Op} (h : Holds codec s records)
    (hcut : CutsAscending codec s op) (hst : FileLogStore.step codec s op = some t) :
    ∃ after, Holds codec t after := by
  unfold FileLogStore.step at hst
  cases hrun : op.run codec s with
  | error =>
    rw [hrun] at hst
    cases hst
  | ok =>
    rw [hrun] at hst
    dsimp only at hst
    split_ifs at hst with hok
    cases hst
    obtain ⟨hre, hlen⟩ := hok
    cases op with
    | persistEntries =>
      simp only [Op.run, Except.ok.injEq, persistEntries] at hrun
      split_ifs at hrun
      · exact ⟨records, hrun ▸ h⟩
      · subst hrun
        exact ⟨_, (h.writeEntries hre hlen).of_lastIndex _⟩
    | purge => exact ⟨_, h.purge hrun hlen⟩
    | truncate fromIndex =>
      rw [CutsAscending, h.recordsOf_eq] at hcut
      obtain ⟨low, high, rfl, hlow, hhi, hso⟩ := exists_split hcut fromIndex
      simp only [Op.run, Except.ok.injEq] at hrun
      subst hrun
      exact ⟨low, (h.cut hlow hhi hso).of_lastIndex _⟩
    | replaceRange fromIndex newEntries =>
      rw [CutsAscending, h.recordsOf_eq] at hcut
      obtain ⟨low, high, rfl, hlow, hhi, hso⟩ := exists_split hcut fromIndex
      simp only [Op.run, Except.ok.injEq] at hrun
      subst hrun
      exact ⟨low ++ newEntries,
        ((h.cut hlow hhi hso).writeEntries hre hlen).of_lastIndex _⟩
    | reset =>
      simp only [Op.run, Except.ok.injEq] at hrun
      subst hrun
      exact ⟨[], rfl, rfl, rfl, nofun, Nat.zero_le _⟩

theorem holds_of_reach (h : (machine codec).Reach (CutsAscending codec) s) :
    ∃ records, Holds codec s records := by
  apply h.invariant (I := fun s => ∃ records, Holds codec s records)
  · rintro s ⟨⟩
    exact ⟨[], rfl, rfl, rfl, nofun, Nat.zero_le _⟩
  · rintro s op t ⟨records, hs⟩ hcut hst
    exact hs.step hcut hst

/-- In every sequence of operations whose truncations find the records of the file in ascending
order, the file reads back as the entries that are held in memory. -/
theorem loaded_of_reach (h : (machine codec).Reach (CutsAscending codec) s) :
    (loadFromFile codec s.file).map FileLogStore.entries = .ok s.entries := by
  obtain ⟨records, hs⟩ := holds_of_reach h
  obtain ⟨loaded, hlo, hen, -, -⟩ := hs.load
  rw [hlo, ← hen]
  rfl

/-- Entries without payload, in one byte for the index and one for the term. -/
def plainCodec : Codec where
  encode := fun e => [UInt8.ofNat e.index, UInt8.ofNat e.term]
  decode := fun bytes =>
    match bytes with
    | [index, term] => some ⟨index.toNat, term.toNat, none⟩
    | _ => none

/-- A conflicting suffix is replaced behind a purge. -/
theorem replaced_suffix_loaded :
    ∃ s, (machine plainCodec).Reach (CutsAscending plainCodec) s ∧
      s.entries.toList.map Prod.fst = [2, 3] ∧
      (loadFromFile plainCodec s.file).map FileLogStore.entries = .ok s.entries :=
  Machine.exists_reach_and_of_runIf
    [.persistEntries [⟨1, 1, none⟩, ⟨2, 1, none⟩, ⟨3, 1, none⟩], .purge ⟨1, 1⟩,
      .replaceRange 3 [⟨3, 2, none⟩]]
    (show (machine plainCodec).init ⟨∅, [], ∅, 0⟩ from rfl) (by decide +kernel)
    fun _ hre => loaded_of_reach hre

/-- Three entries are persisted twice, and the suffix from the second one on is replaced. The file
is cut behind the second record of the first entry, and the old third entry is read back. -/
theorem truncated_entry_loaded :
    ∃ s, (machine plainCodec).Reach (fun _ _ => True) s ∧
      s.entries.toList = [(1, ⟨1, 1, none⟩), (2, ⟨2, 2, none⟩)] ∧
      (loadFromFile plainCodec s.file).toOption.map (fun t => t.entries.toList) =
        some [(1, ⟨1, 1, none⟩), (2, ⟨2, 2, none⟩), (3, ⟨3, 1, none⟩)] :=
  Machine.exists_reach_of_runIf [.persistEntries [⟨1, 1, none⟩, ⟨2, 1, none⟩, ⟨3, 1, none⟩],
    .persistEntries [⟨1, 1, none⟩, ⟨2, 1, none⟩, ⟨3, 1, none⟩],
    .replaceRange 2 [⟨2, 2, none⟩]]
    (show (machine plainCodec).init ⟨∅, [], ∅, 0⟩ from rfl) (by decide +kernel)

end FileLogStore

end DEngine.Storage

import DEngine.Storage.FileLogStore

/-!
# A torn tail

A crash while entries are persisted leaves whole records and then the first part of one more.
Opening the store reads the whole records and leaves the part where it is, and what is
persisted next is appended behind it. The next load reads from the front: the length field of
the part, or what completes it to a length field, covers bytes of the records behind it, so
that these are not found. They are found if there is no part or nothing was persisted.

## Implementation notes

A record counts as read only where it was written. The bytes of an entry may contain a record,
and a load that starts in the middle of them may come upon it.
-/

namespace DEngine.Storage.FileLogStore

open Library Library.Framing

variable {codec : Codec} {s : FileLogStore} {whole persisted : List Entry} {torn : List UInt8}

/-- The first part of a record that was to be written at the position. -/
def Torn (codec : Codec) (pos : Nat) (torn : List UInt8) : Prop :=
  ∃ record missing, torn ++ missing = frame 8 (codec.encode record) ∧ missing ≠ [] ∧
    pos + (frame 8 (codec.encode record)).length ≤ u64Max

def persistAll (codec : Codec) (s : FileLogStore) (batches : List (List Entry)) : FileLogStore :=
  batches.foldl (persistEntries codec) s

/-- The load of a file returns the entries of the whole records and those that were persisted
behind a gap, and reads each of them where it was written. -/
structure ReadBack (codec : Codec) (file : List UInt8) (whole : List Entry) (gap : Nat)
    (persisted : List Entry) : Prop where
  found : scan 8 u64Max file.length 0 file =
    some (stops 8 0 (whole.map codec.encode) ++
      stops 8 ((image codec whole).length + gap) (persisted.map codec.encode))
  returned : ∃ loaded, loadFromFile codec file = .ok loaded ∧
    loaded.entries = OrderedMap.insertBy Entry.index ∅ (whole ++ persisted)

/-! ## Files -/

theorem file_foldl_loadRecord (records : List (Nat × List UInt8)) (s : FileLogStore) :
    (records.foldl (loadRecord codec) s).file = s.file := by
  induction records generalizing s with
  | nil => rfl
  | cons record rest ih =>
    rw [List.foldl_cons, ih, loadRecord]
    split <;> rfl

variable {file : List UInt8}

theorem file_of_load (h : loadFromFile codec file = .ok s) : s.file = file := by
  rw [loadFromFile] at h
  split at h <;> cases h
  exact file_foldl_loadRecord _ _

theorem file_persistEntries (s : FileLogStore) (entries : List Entry) :
    (s.persistEntries codec entries).file = s.file ++ image codec entries := by
  unfold persistEntries
  split_ifs with hnil
  · rw [hnil]
    exact (List.append_nil _).symm
  · rw [writeEntries_eq]

theorem file_persistAll (s : FileLogStore) (batches : List (List Entry)) :
    (persistAll codec s batches).file = s.file ++ image codec batches.flatten := by
  induction batches generalizing s with
  | nil => exact (List.append_nil _).symm
  | cons batch rest ih =>
    rw [List.flatten_cons, image_append, ← List.append_assoc, ← file_persistEntries]
    exact ih _

/-- Behind whole records the scan goes on with what follows. -/
theorem scan_image_append {rest : List UInt8} (h : (image codec whole ++ rest).length ≤ u64Max) :
    ∃ fuel, rest.length ≤ fuel ∧
      scan 8 u64Max (image codec whole ++ rest).length 0 (image codec whole ++ rest) =
        (scan 8 u64Max fuel (image codec whole).length rest).map
          (stops 8 0 (whole.map codec.encode) ++ ·) := by
  rw [List.length_append] at h ⊢
  have hco : (whole.map codec.encode).length ≤ (image codec whole).length :=
    length_le_length_frames (by decide) _
  have hli : 0 + (image codec whole).length ≤ u64Max := by omega
  have hsc := scan_frames_append (hco.trans (Nat.le_add_right _ rest.length))
    (length_encode_lt hli) hli rest
  rw [Nat.zero_add] at hsc
  refine ⟨_, ?_, hsc⟩
  omega

/-! ## Reading back -/

theorem loadFromFile_of_scan (codec : Codec) {records : List (Nat × List UInt8)}
    (h : scan 8 u64Max file.length 0 file = some records) :
    loadFromFile codec file = .ok (records.foldl (loadRecord codec) ⟨∅, file, ∅, 0⟩) := by
  rw [loadFromFile, h]

/-- Records that are found are returned. -/
theorem readBack_of_scan {gap : Nat}
    (hre : ∀ e ∈ whole ++ persisted, codec.decode (codec.encode e) = some e)
    (hfo : scan 8 u64Max file.length 0 file =
      some (stops 8 0 (whole.map codec.encode) ++
        stops 8 ((image codec whole).length + gap) (persisted.map codec.encode))) :
    ReadBack codec file whole gap persisted := by
  refine ⟨hfo, _, loadFromFile_of_scan codec hfo, ?_⟩
  rw [List.foldl_append]
  have hwh := foldl_loadRecord (fun e he => hre e (List.mem_append_left _ he)) 0
    ⟨∅, file, ∅, 0⟩
  have hpe := foldl_loadRecord (fun e he => hre e (List.mem_append_right _ he))
    ((image codec whole).length + gap)
    ((stops 8 0 (whole.map codec.encode)).foldl (loadRecord codec) ⟨∅, file, ∅, 0⟩)
  rw [hpe.1, hwh.1, OrderedMap.insertBy_append]

theorem scan_torn_tail (hto : Torn codec (image codec whole).length torn) (fuel : Nat) :
    scan 8 u64Max fuel (image codec whole).length torn = some [] := by
  obtain ⟨record, missing, hpa, hmi, hli⟩ := hto
  refine scan_torn hpa hmi ?_ hli
  have hmax : u64Max < 256 ^ 8 := by decide
  rw [length_frame] at hli
  omega

/-- What was persisted behind a part of a record is read back exactly if there is no such part
or nothing was persisted. -/
theorem readBack_iff {batches : List (List Entry)}
    (hload : loadFromFile codec (image codec whole ++ torn) = .ok s)
    (htorn : Torn codec (image codec whole).length torn)
    (hreadable : ∀ e ∈ whole ++ batches.flatten, codec.decode (codec.encode e) = some e)
    (hlength : (persistAll codec s batches).file.length ≤ u64Max) :
    ReadBack codec (persistAll codec s batches).file whole torn.length batches.flatten ↔
      torn = [] ∨ batches.flatten = [] := by
  rw [file_persistAll, file_of_load hload, List.append_assoc] at hlength ⊢
  obtain ⟨fuel, hfu, hsc⟩ := scan_image_append hlength
  constructor
  · rintro ⟨hfo, -⟩
    rw [hsc] at hfo
    obtain ⟨rest, hre, hall⟩ := Option.map_eq_some_iff.mp hfo
    rw [List.append_cancel_left hall] at hre
    cases hpe : batches.flatten with
    | nil => exact .inr rfl
    | cons =>
      -- The first of them would be read at the start of the part.
      rw [hpe, List.map_cons, stops] at hre
      have hfi := scan_first hre
      exact .inl (List.length_eq_zero_iff.mp (by omega))
  · intro hco
    apply readBack_of_scan hreadable
    rw [hsc]
    rcases hco with rfl | hno
    · have hwr : scan 8 u64Max fuel (image codec whole).length (image codec batches.flatten) =
          some (stops 8 (image codec whole).length (batches.flatten.map codec.encode)) := by
        rw [List.nil_append, List.length_append] at hlength
        refine scan_frames (by decide) ?_ (length_encode_lt hlength) hlength
        exact (length_le_length_frames (by decide) _).trans hfu
      rw [List.nil_append, hwr]
      rfl
    · rw [hno]
      change (scan 8 u64Max fuel _ (torn ++ [])).map _ = _
      rw [List.append_nil, scan_torn_tail htorn]
      rfl

/-- Behind a file without a part the persisted entry is read back. -/
theorem readBack_behind_whole_record :
    ∃ s, loadFromFile plainCodec (image plainCodec [⟨1, 1, none⟩] ++ []) = .ok s ∧
      ReadBack plainCodec (persistAll plainCodec s [[⟨2, 1, none⟩]]).file [⟨1, 1, none⟩] 0
        [⟨2, 1, none⟩] := by
  have hsc : scan 8 u64Max (image plainCodec [⟨1, 1, none⟩] ++ []).length 0
      (image plainCodec [⟨1, 1, none⟩] ++ []) = some [(10, [1, 1])] := by
    decide +kernel
  have hlo := loadFromFile_of_scan plainCodec hsc
  refine ⟨_, hlo, (readBack_iff hlo ?_ ?_ ?_).mpr (.inl rfl)⟩
  · exact ⟨⟨2, 1, none⟩, frame 8 [2, 1], rfl, by decide, by decide +kernel⟩
  · decide
  · decide +kernel

/-- Half of a length field stays in the file. The entry that is persisted behind it is in memory,
and the next load does not return it. -/
theorem persisted_entry_unread :
    Torn plainCodec (image plainCodec [⟨1, 1, none⟩]).length [0, 0, 0, 0] ∧
      ∃ s, loadFromFile plainCodec (image plainCodec [⟨1, 1, none⟩] ++ [0, 0, 0, 0]) = .ok s ∧
        (persistAll plainCodec s [[⟨2, 1, none⟩]]).entries.toList =
          [(1, ⟨1, 1, none⟩), (2, ⟨2, 1, none⟩)] ∧
        (loadFromFile plainCodec (persistAll plainCodec s [[⟨2, 1, none⟩]]).file).toOption.map
          (fun t => t.entries.toList) = some [(1, ⟨1, 1, none⟩)] := by
  have hsc : scan 8 u64Max (image plainCodec [⟨1, 1, none⟩] ++ [0, 0, 0, 0]).length 0
      (image plainCodec [⟨1, 1, none⟩] ++ [0, 0, 0, 0]) = some [(10, [1, 1])] := by
    decide +kernel
  refine ⟨⟨⟨2, 1, none⟩, [0, 0, 0, 2, 2, 1], by decide, by decide, by decide +kernel⟩, _,
    loadFromFile_of_scan plainCodec hsc, ?_, ?_⟩
  · decide +kernel
  · decide +kernel

end DEngine.Storage.FileLogStore

import DEngine.Library.Framing
import DEngine.Raft.Node

/-!
# The hard state in one file

Saving a hard state creates its file anew, which empties it, and then writes the bytes. Opening
the store reads the file, and bytes that cannot be decoded count as no hard state. There is only
this one copy: a crash behind the creation and before the last byte leaves neither the old state
nor the new one.

## Implementation notes

The results hold for every encoding of which every byte is needed, as one that writes numbers
in a fixed width, the least significant byte first, and one byte for an option or a truth
value. The data directory exists, and the operations on the file succeed.
-/

namespace DEngine.Storage

open Library.Framing Raft

structure HardStateCodec where
  serialize : HardState → List UInt8
  deserialize : List UInt8 → Option HardState

/-- Every byte is needed: the state is read from its whole encoding, and nothing from a part. -/
def HardStateCodec.Exact (codec : HardStateCodec) (state : HardState) : Prop :=
  ∀ part missing, part ++ missing = codec.serialize state →
    codec.deserialize part = if missing = [] then some state else none

structure FileMetaStore where
  /-- The bytes under the key of the hard state. -/
  data : Option (List UInt8)
  /-- The file of the hard state, if it exists. -/
  file : Option (List UInt8)

namespace FileMetaStore

variable (codec : HardStateCodec)

/-! ## The store -/

/-- Open the store: what is in the file is kept if it can be decoded. -/
def new (file : Option (List UInt8)) : FileMetaStore where
  data := file.filter fun bytes => (codec.deserialize bytes).isSome
  file := file

/-- What can happen to the file before a crash. -/
inductive FileStep where
  | create
  | write (byte : UInt8)

def FileStep.perform (file : Option (List UInt8)) : FileStep → Option (List UInt8)
  | .create => some []
  | .write byte => some (file.getD [] ++ [byte])

def saveToFile (value : List UInt8) : List FileStep := .create :: value.map .write

/-- The file after the first steps of a save. -/
def fileAfter (s : FileMetaStore) (state : HardState) (kept : Nat) : Option (List UInt8) :=
  ((saveToFile (codec.serialize state)).take kept).foldl FileStep.perform s.file

def saveHardState (s : FileMetaStore) (state : HardState) : FileMetaStore where
  data := some (codec.serialize state)
  file := (saveToFile (codec.serialize state)).foldl FileStep.perform s.file

def loadHardState (s : FileMetaStore) : Except Fault (Option HardState) :=
  match s.data with
  | none => .ok none
  | some bytes =>
    match codec.deserialize bytes with
    | none => .error .storage
    | some state => .ok (some state)

/-! ## Crashes -/

variable {codec} {state old new : HardState} {s : FileMetaStore}

theorem foldl_perform_write (file bytes : List UInt8) :
    (bytes.map FileStep.write).foldl FileStep.perform (some file) = some (file ++ bytes) := by
  induction bytes generalizing file with
  | nil => exact congrArg some (List.append_nil file).symm
  | cons byte more ih =>
    rw [List.map_cons, List.foldl_cons, FileStep.perform, Option.getD_some, ih,
      List.append_assoc]
    rfl

theorem fileAfter_succ (s : FileMetaStore) (state : HardState) (written : Nat) :
    s.fileAfter codec state (written + 1) = some ((codec.serialize state).take written) := by
  rw [fileAfter, saveToFile, List.take_succ_cons, List.foldl_cons, ← List.map_take]
  exact foldl_perform_write [] _

theorem file_saveHardState (s : FileMetaStore) (state : HardState) :
    (s.saveHardState codec state).file = some (codec.serialize state) :=
  foldl_perform_write [] (codec.serialize state)

/-- What is loaded from the first bytes of an encoding. -/
theorem loadHardState_new_take (hex : codec.Exact state) (written : Nat) :
    (FileMetaStore.new codec (some ((codec.serialize state).take written))).loadHardState codec =
      .ok (if (codec.serialize state).length ≤ written then some state else none) := by
  have hre := hex _ _ (List.take_append_drop written (codec.serialize state))
  simp only [List.drop_eq_nil_iff] at hre
  unfold loadHardState FileMetaStore.new
  by_cases hall : (codec.serialize state).length ≤ written
  · rw [if_pos hall] at hre ⊢
    simp [Option.filter, hre]
  · rw [if_neg hall] at hre ⊢
    simp [Option.filter, hre]

/-- A save that a crash interrupts leaves the old or the new state exactly if all of its steps
survive or none of them. -/
theorem load_after_crash_iff (hold : codec.Exact old) (hnew : codec.Exact new)
    (s : FileMetaStore) (kept : Nat) :
    let left := (s.saveHardState codec old).fileAfter codec new kept
    let loaded := (FileMetaStore.new codec left).loadHardState codec
    loaded = .ok (some old) ∨ loaded = .ok (some new) ↔
      kept = 0 ∨ (saveToFile (codec.serialize new)).length ≤ kept := by
  cases kept with
  | zero =>
    have hlo := loadHardState_new_take hold (codec.serialize old).length
    rw [List.take_length, if_pos le_rfl, ← file_saveHardState s old] at hlo
    exact iff_of_true (.inl hlo) (.inl rfl)
  | succ written =>
    dsimp only
    rw [fileAfter_succ, loadHardState_new_take hnew, saveToFile, List.length_cons,
      List.length_map]
    by_cases hall : (codec.serialize new).length ≤ written
    · rw [if_pos hall]
      exact iff_of_true (.inr rfl) (.inr (Nat.succ_le_succ hall))
    · rw [if_neg hall]
      simp
      omega

/-! ## The encoding -/

def toLittleEndian (width n : Nat) : List UInt8 := (toBigEndian width n).reverse

def takeLittleEndian (width : Nat) (bytes : List UInt8) : Option (Nat × List UInt8) :=
  if bytes.length < width then none
  else some (ofBigEndian (bytes.take width).reverse, bytes.drop width)

/-- Read a truth value, or whether an option has a value. -/
def takeFlag : List UInt8 → Option (Bool × List UInt8)
  | [] => none
  | byte :: rest =>
    if byte = 0 then some (false, rest) else if byte = 1 then some (true, rest) else none

def serializeVote (vote : VotedFor) : List UInt8 :=
  toLittleEndian 4 vote.votedForId ++
    (toLittleEndian 8 vote.votedForTerm ++ [if vote.committed then 1 else 0])

def serialize (state : HardState) : List UInt8 :=
  toLittleEndian 8 state.currentTerm ++
    match state.votedFor with
    | none => [0]
    | some vote => 1 :: serializeVote vote

def deserializeVote (bytes : List UInt8) : Option VotedFor := do
  let (votedForId, rest) ← takeLittleEndian 4 bytes
  let (votedForTerm, rest) ← takeLittleEndian 8 rest
  let (committed, _) ← takeFlag rest
  return ⟨votedForId, votedForTerm, committed⟩

def deserialize (bytes : List UInt8) : Option HardState := do
  let (currentTerm, rest) ← takeLittleEndian 8 bytes
  let (voted, rest) ← takeFlag rest
  if voted then return ⟨currentTerm, some (← deserializeVote rest)⟩
  else return ⟨currentTerm, none⟩

def fixedWidth : HardStateCodec := ⟨serialize, deserialize⟩

/-! ## Parts of an encoding -/

/-- The numbers of a vote fit into their fields. -/
def VoteFits (vote : VotedFor) : Prop := vote.votedForId < 256 ^ 4 ∧ vote.votedForTerm < 256 ^ 8

def Fits (state : HardState) : Prop :=
  state.currentTerm < 256 ^ 8 ∧ ∀ vote ∈ state.votedFor, VoteFits vote

variable {part missing rest : List UInt8}

theorem takeLittleEndian_part {width n : Nat} (hn : n < 256 ^ width)
    (h : part ++ missing = toLittleEndian width n ++ rest) :
    (takeLittleEndian width part = none ∧ missing ≠ []) ∨
      ∃ left, takeLittleEndian width part = some (n, left) ∧ left ++ missing = rest := by
  have hlen : (toLittleEndian width n).length = width := by
    rw [toLittleEndian, List.length_reverse, length_toBigEndian]
  unfold takeLittleEndian
  rcases part_cases h with ⟨hsh, hmi⟩ | ⟨left, rfl, hlf⟩
  · rw [hlen] at hsh
    exact .inl ⟨if_pos hsh, hmi⟩
  · refine .inr ⟨left, ?_, hlf⟩
    rw [if_neg (by rw [List.length_append]; omega), List.take_left' hlen,
      List.drop_left' hlen, toLittleEndian, List.reverse_reverse, ofBigEndian_toBigEndian hn]

theorem takeFlag_part (flag : Bool) (h : part ++ missing = (if flag then 1 else 0) :: rest) :
    (takeFlag part = none ∧ missing ≠ []) ∨
      ∃ left, takeFlag part = some (flag, left) ∧ left ++ missing = rest := by
  cases part with
  | nil =>
    refine .inl ⟨rfl, ?_⟩
    rintro rfl
    cases h
  | cons byte left =>
    obtain ⟨rfl, hlf⟩ := List.cons.inj h
    exact .inr ⟨left, by cases flag <;> rfl, hlf⟩

theorem deserializeVote_part {vote : VotedFor} (hfi : VoteFits vote)
    (h : part ++ missing = serializeVote vote) :
    deserializeVote part = if missing = [] then some vote else none := by
  unfold deserializeVote
  rcases takeLittleEndian_part hfi.1 h with ⟨hno, hmi⟩ | ⟨behindId, hid, hbh⟩
  · rw [hno, if_neg hmi]
    rfl
  rcases takeLittleEndian_part hfi.2 hbh with ⟨hno, hmi⟩ | ⟨behindTerm, hte, hbe⟩
  · simp [hid, hno, hmi]
  rcases takeFlag_part _ hbe with ⟨hno, hmi⟩ | ⟨left, hfl, hlf⟩
  · simp [hid, hte, hno, hmi]
  · simp [hid, hte, hfl, (List.append_eq_nil_iff.mp hlf).2]

theorem exact_of_fits (hfi : Fits state) : fixedWidth.Exact state := by
  intro part missing h
  change deserialize part = _
  obtain ⟨currentTerm, votedFor⟩ := state
  unfold deserialize
  rcases takeLittleEndian_part hfi.1 h with ⟨hno, hmi⟩ | ⟨behind, hte, hbe⟩
  · rw [hno, if_neg hmi]
    rfl
  cases votedFor with
  | none =>
    rcases takeFlag_part false hbe with ⟨hno, hmi⟩ | ⟨left, hfl, hlf⟩
    · simp [hte, hno, hmi]
    · simp [hte, hfl, (List.append_eq_nil_iff.mp hlf).2]
  | some vote =>
    rcases takeFlag_part true hbe with ⟨hno, hmi⟩ | ⟨left, hfl, hlf⟩
    · simp [hte, hno, hmi]
    · have hvo := deserializeVote_part (hfi.2 vote rfl) hlf
      by_cases hmi : missing = [] <;> simp [hte, hfl, hvo, hmi]

/-- A crash before the file is created leaves the old state. -/
theorem load_before_create :
    let saved := (FileMetaStore.new fixedWidth none).saveHardState fixedWidth ⟨3, some ⟨1, 3, true⟩⟩
    let left := saved.fileAfter fixedWidth ⟨4, none⟩ 0
    let loaded := (FileMetaStore.new fixedWidth left).loadHardState fixedWidth
    loaded = .ok (some ⟨3, some ⟨1, 3, true⟩⟩) ∨ loaded = .ok (some ⟨4, none⟩) :=
  (load_after_crash_iff (exact_of_fits ⟨by decide, by simp [VoteFits]⟩)
    (exact_of_fits ⟨by decide, by simp⟩) _ 0).mpr (.inl rfl)

/-- A crash behind the creation of the file loses the vote of the third term. -/
theorem vote_lost_behind_create :
    let saved := (FileMetaStore.new fixedWidth none).saveHardState fixedWidth ⟨3, some ⟨1, 3, true⟩⟩
    (FileMetaStore.new fixedWidth saved.file).loadHardState fixedWidth =
        .ok (some ⟨3, some ⟨1, 3, true⟩⟩) ∧
      (FileMetaStore.new fixedWidth (saved.fileAfter fixedWidth ⟨4, none⟩ 1)).loadHardState
        fixedWidth = .ok none := by
  decide +kernel

end FileMetaStore

end DEngine.Storage

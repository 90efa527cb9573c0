import DEngine.Adaptors.FileApply

/-!
# Reading the files back

The values that were written to the data file are read back, and the write-ahead log
gives a record for each operation that was logged, as long as lengths, indexes and
terms fit into their fields and no logged batch is empty.
-/

namespace DEngine.Adaptors

open Apply Library Library.Framing

/-! ## What fits into the fields -/

/-- The length of a byte string fits into its field. -/
def Sized (bytes : Bytes) : Prop := bytes.length < 256 ^ 8
deriving Decidable

/-- Every key, value and term of the map fits into its field. -/
def DataFits (data : FileData) : Prop :=
  ∀ k v, data[k]? = some v → Sized k ∧ Sized v.1 ∧ v.2 < 256 ^ 8

def OpFits : BatchOp → Prop
  | .insert key value => Sized key ∧ Sized value
  | .delete key => Sized key

instance : DecidablePred OpFits
  | .insert _ _ => inferInstanceAs (Decidable (_ ∧ _))
  | .delete _ => inferInstanceAs (Decidable (Sized _))

def CommandFits : Command → Prop
  | .noop => True
  | .insert key value _ => Sized key ∧ Sized value
  | .delete key => Sized key
  | .compareAndSwap key _ value => Sized key ∧ Sized value
  | .batch ops => ∀ op ∈ ops, OpFits op

instance : DecidablePred CommandFits := fun command => by
  cases command <;> dsimp only [CommandFits] <;> infer_instance

/-- Index, term, keys and values of the entry fit into their fields. -/
@[mk_iff]
structure EntryFits (entry : ApplyEntry) : Prop where
  index : entry.index < 256 ^ 8
  term : entry.term < 256 ^ 8
  command : CommandFits entry.command

instance (entry : ApplyEntry) : Decidable (EntryFits entry) :=
  decidable_of_iff' _ (entryFits_iff entry)

def WriteFits (w : Write Bytes (Bytes × Nat)) : Prop :=
  Sized w.1 ∧ ∀ v ∈ w.2, Sized v.1 ∧ v.2 < 256 ^ 8

theorem dataFits_empty : DataFits ∅ := fun k v hget => by
  rw [Std.ExtTreeMap.getElem?_empty] at hget
  cases hget

variable {data : FileData}

theorem DataFits.write (h : DataFits data) {w : Write Bytes (Bytes × Nat)}
    (hw : WriteFits w) : DataFits (data.write w) := by
  intro k v hget
  rw [KeyMap.getElem?_write] at hget
  split_ifs at hget with hk
  · subst hk
    exact ⟨hw.1, hw.2 v hget⟩
  · exact h k v hget

theorem DataFits.writeAll (h : DataFits data)
    {ws : List (Write Bytes (Bytes × Nat))} (hws : ∀ w ∈ ws, WriteFits w) :
    DataFits (data.writeAll ws) := by
  induction ws generalizing data with
  | nil => exact h
  | cons w rest ih =>
    exact ih (h.write (hws w List.mem_cons_self)) fun x hx => hws x (List.mem_cons_of_mem w hx)

variable {entry : ApplyEntry}

theorem EntryFits.writes (h : EntryFits entry) (casSuccess : Bool) :
    ∀ w ∈ entryWrites withTerm entry casSuccess, WriteFits w := by
  obtain ⟨index, term, command⟩ := entry
  obtain ⟨_, hte, hcmd⟩ := h
  have hput : ∀ {key value : Bytes}, Sized key → Sized value →
      WriteFits (key, some (withTerm term value)) := by
    rintro key value hkey hva
    refine ⟨hkey, ?_⟩
    rintro v ⟨⟩
    exact ⟨hva, hte⟩
  have hde : ∀ {key : Bytes}, Sized key → WriteFits (key, none) := fun hkey =>
    ⟨hkey, fun _ hv => nomatch hv⟩
  cases command with
  | noop => exact fun w hw => absurd hw List.not_mem_nil
  | insert =>
    intro w hw
    rw [List.mem_singleton.mp hw]
    exact hput hcmd.1 hcmd.2
  | delete =>
    intro w hw
    rw [List.mem_singleton.mp hw]
    exact hde hcmd
  | compareAndSwap =>
    intro w hw
    cases casSuccess with
    | false => exact absurd hw List.not_mem_nil
    | true =>
      rw [List.mem_singleton.mp hw]
      exact hput hcmd.1 hcmd.2
  | batch =>
    intro w hw
    obtain ⟨op, hop, rfl⟩ := List.mem_map.mp hw
    have hfi : OpFits op := hcmd op hop
    cases op with
    | insert => exact hput hfi.1 hfi.2
    | delete => exact hde hfi

/-- Entries that fit leave a map that fits. -/
theorem DataFits.serialRun (h : DataFits data) {entries : List ApplyEntry}
    (hen : ∀ e ∈ entries, EntryFits e) : DataFits (serialRun withTerm Prod.fst data entries).2 := by
  unfold Adaptors.serialRun
  rw [serial_writes]
  apply h.writeAll
  intro w hw
  obtain ⟨p, hp, hwp⟩ := List.mem_flatMap.mp hw
  exact (hen p.1 (List.of_mem_zip hp).1).writes p.2 w hwp

namespace FileStateMachine

/-! ## The data file -/

theorem loadRows_append {rows : List (Bytes × (Bytes × Nat))}
    (hfi : ∀ row ∈ rows, Sized row.1 ∧ Sized row.2.1 ∧ row.2.2 < 256 ^ 8) (fuel : Nat)
    (data : FileData) (tail : Bytes) :
    loadRows (rows.length + fuel) data (rows.flatMap encodeRow ++ tail) =
      loadRows fuel (data.writeAll (rows.map fun row => (row.1, some row.2))) tail := by
  induction rows generalizing data with
  | nil =>
    rw [List.length_nil, Nat.zero_add]
    rfl
  | cons row rest ih =>
    obtain ⟨key, value, term⟩ := row
    obtain ⟨hkey, hva, hte⟩ := hfi _ List.mem_cons_self
    have hre := ih (fun row hrow => hfi row (List.mem_cons_of_mem _ hrow))
      (data.insert key (value, term))
    rw [List.length_cons, Nat.succ_add, List.flatMap_cons, encodeRow, List.append_assoc,
      List.append_assoc, List.append_assoc, loadRows, takeFrame_append hkey]
    dsimp only
    rw [takeFrame_append hva]
    dsimp only
    rw [takeNumber_append hte]
    exact hre

theorem length_le_length_flatMap_encodeRow (rows : List (Bytes × (Bytes × Nat))) :
    rows.length ≤ (rows.flatMap encodeRow).length := by
  induction rows with
  | nil => rfl
  | cons =>
    simp only [List.flatMap_cons, encodeRow, List.length_append, length_frame,
      length_toBigEndian, List.length_cons]
    omega

/-- The values that were written are read back, if no row can be read behind them. -/
theorem loadData_append (h : DataFits data) {tail : Bytes}
    (hta : ∀ fuel data, loadRows fuel data tail = data) :
    loadData (encodeData data ++ tail) = data := by
  have hro : ∀ row ∈ data.toList, Sized row.1 ∧ Sized row.2.1 ∧ row.2.2 < 256 ^ 8 :=
    fun row hrow => h row.1 row.2 (Std.ExtTreeMap.mem_toList_iff_getElem?_eq_some.mp hrow)
  have hov : (data.mapValues some).toList = data.toList.map fun row => (row.1, some row.2) :=
    Std.ExtTreeMap.toList_map
  obtain ⟨fuel, hfu⟩ : ∃ fuel, (encodeData data ++ tail).length = data.toList.length + fuel := by
    refine Nat.exists_eq_add_of_le ?_
    rw [List.length_append]
    exact (length_le_length_flatMap_encodeRow data.toList).trans (Nat.le_add_right _ _)
  rw [loadData, hfu, encodeData, loadRows_append hro, hta, ← hov]
  apply Std.ExtTreeMap.ext_getElem?
  intro k
  refine (Overlay.getElem?_commit (data.mapValues some) ∅ k).trans ?_
  rw [Overlay.get, KeyMap.getElem?_mapValues, Std.ExtTreeMap.getElem?_empty]
  cases data[k]? <;> rfl

theorem loadRows_nil (fuel : Nat) (data : FileData) : loadRows fuel data [] = data := by
  cases fuel <;> rfl

theorem loadData_encodeData (h : DataFits data) : loadData (encodeData data) = data := by
  have hre := loadData_append h loadRows_nil
  rwa [List.append_nil] at hre

/-- The leases behind the rows are no row. -/
theorem loadRows_frame {leaseSnapshot : Bytes} (h : Sized leaseSnapshot) (fuel : Nat)
    (data : FileData) : loadRows fuel data (frame 8 leaseSnapshot) = data := by
  have hkey : takeFrame 8 (frame 8 leaseSnapshot) = some (leaseSnapshot, []) := by
    have hfr := takeFrame_append h []
    rwa [List.append_nil] at hfr
  cases fuel with
  | zero => rfl
  | succ =>
    rw [loadRows, hkey]
    rfl

/-- The values of a snapshot are read back. -/
theorem parseSnapshot_snapshotBin (h : DataFits data) {leaseSnapshot : Bytes}
    (hls : Sized leaseSnapshot) : parseSnapshot (snapshotBin data leaseSnapshot) = data :=
  loadData_append h (loadRows_frame hls)

/-! ## The write-ahead log -/

/-- The fields of a logged operation: its code, key, value and expiration. -/
structure LoggedOp where
  opCode : WalOpCode
  key : Bytes
  value : Bytes
  expireAtSecs : Nat

namespace LoggedOp

def Fits (op : LoggedOp) : Prop := Sized op.key ∧ Sized op.value ∧ op.expireAtSecs < 256 ^ 8

def bytes (entry : ApplyEntry) (op : LoggedOp) : Bytes :=
  walHeader entry ++ walBody op.opCode op.key op.value op.expireAtSecs

/-- The record that is read for a logged operation. -/
def record (entry : ApplyEntry) (op : LoggedOp) : WalRecord where
  index := entry.index
  opCode := op.opCode
  key := op.key
  value := if op.value = [] then none else some op.value
  term := entry.term
  expireAtSecs := if op.expireAtSecs = 0 then none else some op.expireAtSecs

def ofBatchOp : BatchOp → LoggedOp
  | .insert key value => ⟨.insert, key, value, 0⟩
  | .delete key => ⟨.delete, key, [], 0⟩

/-- The operations that are logged for an entry. -/
def ofEntry (now : Nat) (entry : ApplyEntry) (casSuccess : Bool) : List LoggedOp :=
  match entry.command with
  | .noop => [⟨.noop, [], [], 0⟩]
  | .insert key value ttlSecs => [⟨.insert, key, value, Adaptors.expireAtSecs now ttlSecs⟩]
  | .delete key => [⟨.delete, key, [], 0⟩]
  | .compareAndSwap key _ value =>
    if casSuccess then [⟨.insert, key, value, 0⟩] else [⟨.casFailed, [], [], 0⟩]
  | .batch ops => ops.map ofBatchOp

end LoggedOp

/-- An entry that is not an empty batch is logged as its operations. -/
theorem encodeWalEntry_eq (h : entry.command ≠ .batch []) (now : Nat) (casSuccess : Bool) :
    encodeWalEntry now entry casSuccess =
      (LoggedOp.ofEntry now entry casSuccess).flatMap (LoggedOp.bytes entry) := by
  obtain ⟨index, term, command⟩ := entry
  have hbo : ∀ op, walBody (LoggedOp.ofBatchOp op).opCode (LoggedOp.ofBatchOp op).key
      (LoggedOp.ofBatchOp op).value (LoggedOp.ofBatchOp op).expireAtSecs = walOpBody op := by
    intro op
    cases op <;> rfl
  cases command with
  | noop | insert key value ttlSecs | delete key =>
    simp [encodeWalEntry, LoggedOp.ofEntry, LoggedOp.bytes]
  | compareAndSwap =>
    cases casSuccess <;> simp [encodeWalEntry, LoggedOp.ofEntry, LoggedOp.bytes]
  | batch ops =>
    cases ops with
    | nil => exact absurd rfl h
    | cons =>
      simp [encodeWalEntry, LoggedOp.ofEntry, LoggedOp.bytes, hbo, List.flatMap_map]

variable {op : LoggedOp}

/-- From a part of a log its first record is read, or the part ends inside of that record. -/
theorem parseWal_part (hen : EntryFits entry) (hop : op.Fits) {part missing rest : Bytes}
    (h : part ++ missing = op.bytes entry ++ rest) (fuel : Nat) :
    (parseWal (fuel + 1) part = .ok [] ∧ missing ≠ []) ∨
      ∃ left, parseWal (fuel + 1) part = (parseWal fuel left).map (op.record entry :: ·) ∧
        left ++ missing = rest := by
  obtain ⟨hkey, hva, hse⟩ := hop
  have hby : op.bytes entry ++ rest = (walHeader entry ++ [op.opCode.toU8]) ++
      (frame 8 op.key ++ (frame 8 op.value ++ (toBigEndian 8 op.expireAtSecs ++ rest))) := by
    simp [LoggedOp.bytes, walBody]
  rw [parseWal]
  rcases part_cases (h.trans hby) with ⟨hsh, hmi⟩ | ⟨body, rfl, hbo⟩
  · refine .inl ⟨if_neg ?_, hmi⟩
    simp [walHeader] at hsh
    omega
  split_ifs with hlen
  · have hdr : (walHeader entry ++ [op.opCode.toU8] ++ body).drop 16 =
        op.opCode.toU8 :: body := by
      rw [List.append_assoc, List.drop_left' (by simp [walHeader])]
      rfl
    have hidx : (walHeader entry ++ [op.opCode.toU8] ++ body).take 8 =
        toBigEndian 8 entry.index := by
      simp only [walHeader, List.append_assoc]
      exact List.take_left' (length_toBigEndian 8 entry.index)
    have hte : ((walHeader entry ++ [op.opCode.toU8] ++ body).drop 8).take 8 =
        toBigEndian 8 entry.term := by
      simp only [walHeader, List.append_assoc]
      rw [List.drop_left' (length_toBigEndian 8 entry.index)]
      exact List.take_left' (length_toBigEndian 8 entry.term)
    rw [hdr, hidx, hte]
    dsimp only
    rw [WalOpCode.fromU8_toU8]
    dsimp only
    rcases takeFrame_part hkey hbo with ⟨hno, hmi⟩ | ⟨behindKey, hre, hbh⟩
    · exact .inl ⟨by rw [hno], hmi⟩
    rw [hre]
    dsimp only
    rcases takeFrame_part hva hbh with ⟨hno, hmi⟩ | ⟨behindValue, hre, hbe⟩
    · exact .inl ⟨by rw [hno], hmi⟩
    rw [hre]
    dsimp only
    rcases takeNumber_part hse hbe with ⟨hno, hmi⟩ | ⟨left, hre, hlf⟩
    · exact .inl ⟨by rw [hno], hmi⟩
    refine .inr ⟨left, ?_, hlf⟩
    rw [hre, ofBigEndian_toBigEndian hen.index, ofBigEndian_toBigEndian hen.term]
    rfl
  · -- The part ends behind the operation code.
    refine .inl ⟨rfl, ?_⟩
    rintro rfl
    have hsi := congrArg List.length hbo
    simp [walHeader] at hlen hsi
    omega

/-- A log that is cut anywhere gives the records in front of the cut. -/
theorem parseWal_records {logged : List (ApplyEntry × LoggedOp)}
    (hfi : ∀ p ∈ logged, EntryFits p.1 ∧ p.2.Fits) {part missing : Bytes} {fuel : Nat}
    (h : part ++ missing = logged.flatMap fun p => p.2.bytes p.1) (hfu : part.length ≤ fuel) :
    ∃ k, parseWal fuel part = .ok ((logged.take k).map fun p => p.2.record p.1) ∧
      (missing = [] → logged.length ≤ k) := by
  have hem : ∀ fuel, parseWal fuel [] = .ok [] := by
    intro fuel
    cases fuel <;> simp [parseWal]
  induction logged generalizing part fuel with
  | nil =>
    rw [(List.append_eq_nil_iff.mp h).1]
    exact ⟨0, hem fuel, fun _ => le_rfl⟩
  | cons p rest ih =>
    obtain ⟨hen, hop⟩ := hfi p List.mem_cons_self
    rw [List.flatMap_cons] at h
    cases fuel with
    | zero =>
      rw [List.length_eq_zero_iff.mp (Nat.le_zero.mp hfu)] at h ⊢
      refine ⟨0, hem 0, ?_⟩
      rintro rfl
      have hsi := congrArg List.length h
      simp [LoggedOp.bytes, walHeader] at hsi
      omega
    | succ fuel =>
      rcases parseWal_part hen hop h fuel with ⟨hno, hmi⟩ | ⟨left, hre, hlf⟩
      · exact ⟨0, hno, fun hall => absurd hall hmi⟩
      · have hsh : left.length ≤ fuel := by
          rw [← hlf, ← List.append_assoc] at h
          have hsi := congrArg List.length (List.append_cancel_right h)
          simp [LoggedOp.bytes, walHeader] at hsi
          omega
        obtain ⟨k, hk, hall⟩ := ih (fun q hq => hfi q (List.mem_cons_of_mem p hq)) hlf hsh
        refine ⟨k + 1, ?_, fun hnil => Nat.succ_le_succ (hall hnil)⟩
        rw [hre, hk]
        rfl

/-- A log gives the record of every operation that was logged. -/
theorem parseWal_flatMap {logged : List (ApplyEntry × LoggedOp)}
    (hfi : ∀ p ∈ logged, EntryFits p.1 ∧ p.2.Fits) :
    parseWal (logged.flatMap fun p => p.2.bytes p.1).length
        (logged.flatMap fun p => p.2.bytes p.1) = .ok (logged.map fun p => p.2.record p.1) := by
  obtain ⟨k, hk, hall⟩ := parseWal_records hfi (List.append_nil _) le_rfl
  rw [hk, List.take_of_length_le (hall rfl)]

/-! ## Logged operations and their entries -/

variable {now : Nat} {casSuccess : Bool}

/-- Operations of an entry that fits and has no time to live fit. -/
theorem LoggedOp.fits_of_mem (hen : EntryFits entry) (httl : ttlSecs entry = none)
    (hop : op ∈ LoggedOp.ofEntry now entry casSuccess) : op.Fits := by
  obtain ⟨index, term, command⟩ := entry
  have hcmd : CommandFits command := hen.command
  have hem : Sized [] := by decide
  have hze : 0 < 256 ^ 8 := by decide
  cases command with
  | noop =>
    rw [List.mem_singleton.mp hop]
    exact ⟨hem, hem, hze⟩
  | insert =>
    cases httl
    rw [List.mem_singleton.mp hop]
    exact ⟨hcmd.1, hcmd.2, hze⟩
  | delete =>
    rw [List.mem_singleton.mp hop]
    exact ⟨hcmd, hem, hze⟩
  | compareAndSwap =>
    cases casSuccess with
    | false =>
      rw [List.mem_singleton.mp hop]
      exact ⟨hem, hem, hze⟩
    | true =>
      rw [List.mem_singleton.mp hop]
      exact ⟨hcmd.1, hcmd.2, hze⟩
  | batch =>
    obtain ⟨batchOp, hmem, rfl⟩ := List.mem_map.mp hop
    have hfi : OpFits batchOp := hcmd batchOp hmem
    cases batchOp with
    | insert => exact ⟨hfi.1, hfi.2, hze⟩
    | delete => exact ⟨hfi, hem, hze⟩

/-- The write of a record that is replayed, without an expiration. -/
def recordWrites (record : WalRecord) : List (Write Bytes (Bytes × Nat)) :=
  match record.opCode, record.value with
  | .insert, some value => [(record.key, some (value, record.term))]
  | .delete, _ => [(record.key, none)]
  | .compareAndSwap, some value => [(record.key, some (value, record.term))]
  | _, _ => []

theorem replayRecord_eq {record : WalRecord} (h : record.expireAtSecs = none) (now : Nat)
    (data : FileData) : replayRecord now data record = data.writeAll (recordWrites record) := by
  obtain ⟨index, opCode, key, value, term, expireAtSecs⟩ := record
  cases h
  cases opCode <;> cases value <;> rfl

/-- Records without an expiration are replayed as writes. -/
theorem foldl_replayRecord {records : List WalRecord}
    (h : ∀ record ∈ records, record.expireAtSecs = none) (now : Nat) (data : FileData) :
    records.foldl (replayRecord now) data = data.writeAll (records.flatMap recordWrites) := by
  induction records generalizing data with
  | nil => rfl
  | cons record rest ih =>
    rw [List.foldl_cons, replayRecord_eq (h record List.mem_cons_self), List.flatMap_cons,
      KeyMap.writeAll_append]
    exact ih (fun r hr => h r (List.mem_cons_of_mem record hr)) _

theorem LoggedOp.expireAtSecs_of_mem (httl : ttlSecs entry = none)
    (hop : op ∈ LoggedOp.ofEntry now entry casSuccess) : op.expireAtSecs = 0 := by
  obtain ⟨index, term, command⟩ := entry
  cases command with
  | insert =>
    cases httl
    rw [List.mem_singleton.mp hop]
    rfl
  | compareAndSwap =>
    cases casSuccess <;> rw [List.mem_singleton.mp hop]
  | batch =>
    obtain ⟨batchOp, _, rfl⟩ := List.mem_map.mp hop
    cases batchOp <;> rfl
  | _ => rw [List.mem_singleton.mp hop]

end FileStateMachine

end DEngine.Adaptors

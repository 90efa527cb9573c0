import DEngine.Adaptors.FileFormat
import DEngine.Apply.InstalledState

/-!
# Installing a snapshot into the file state machine

`generate_snapshot_data` writes the rows and behind them the leases, with their length in front.
`apply_snapshot_from_file` reads rows to the end of the bytes, and the leases from where it
stopped.

## Implementation notes

The order of the serialized leases is that of their keys. File operations succeed.
-/

namespace DEngine.Adaptors

open Apply Library Library.Framing Raft

/-- The leases fit into their serialized fields. -/
def LeasesFit (leases : KeyMap Bytes Nat) : Prop :=
  ∀ k expireAt, leases[k]? = some expireAt → Sized k ∧ expireAt < 256 ^ 8

/-- How leases are serialized. -/
structure LeaseCodec where
  serialize : KeyMap Bytes Nat → Bytes
  deserialize : Bytes → Option (KeyMap Bytes Nat)
  deserialize_serialize : ∀ leases, LeasesFit leases → deserialize (serialize leases) = some leases

namespace TtlLease

variable (codec : LeaseCodec) (l : TtlLease)

def toSnapshot : Bytes := codec.serialize l.keyToExpiry

def reload (now : Nat) (data : Bytes) : Except Fault TtlLease :=
  match codec.deserialize data with
  | none => .error (.stateMachineError "Failed to deserialize lease snapshot")
  | some leases => .ok (l.reloaded now leases)

end TtlLease

namespace FileStateMachine

variable (codec : LeaseCodec) (sm : FileStateMachine)

def leases : KeyMap Bytes Nat := sm.lease.elim ∅ TtlLease.keyToExpiry

/-- The serialized leases, nothing without a lease. -/
def leaseSnapshot : Bytes := sm.lease.elim [] (TtlLease.toSnapshot codec)

def generateSnapshotData : Bytes := snapshotBin sm.data (sm.leaseSnapshot codec)

/-- What is left where the loop over the rows stops. A field that is not complete stops it behind
the fields of its row that are. -/
def behindRows : Nat → Bytes → Bytes
  | 0, buffer => buffer
  | fuel + 1, buffer =>
    match takeNumber 8 buffer with
    | none => buffer
    | some (keyLen, rest) =>
      if rest.length < keyLen then rest
      else
        match takeNumber 8 (rest.drop keyLen) with
        | none => rest.drop keyLen
        | some (valueLen, rest) =>
          if rest.length < valueLen then rest
          else
            match takeNumber 8 (rest.drop valueLen) with
            | none => rest.drop valueLen
            | some (_, rest) => behindRows fuel rest

/-- Reload the leases, if they are found. -/
def reloadLease (now : Nat) (rest : Bytes) : Except Fault (Option TtlLease) :=
  match takeFrame 8 rest, sm.lease with
  | some (ttlData, _), some lease => (lease.reload codec now ttlData).map some
  | _, lease => .ok lease

/-- The boundary and the checksum of a snapshot, and the bytes of `snapshot.bin`. -/
structure Snapshot where
  lastIncluded : Option LogId
  checksumMatches : Bool
  buffer : Bytes

def applySnapshotFromFile (now : Nat) (snapshot : Snapshot) :
    Except Fault SnapshotApplyResult × FileStateMachine × List DiskWrite :=
  match snapshot.lastIncluded with
  | none => (.error .snapshotFailed, sm, [])
  | some incoming =>
    let current := sm.lastApplied
    if incoming.index < current.index then (.ok (.ignoredStale current), sm, [])
    else if incoming.index = current.index then
      if incoming.term = current.term then (.ok (.ignoredDuplicate current), sm, [])
      else (.error .boundaryConflict, sm, [])
    else if ¬snapshot.checksumMatches then (.error .snapshotFailed, sm, [])
    else
      match sm.reloadLease codec now (behindRows snapshot.buffer.length snapshot.buffer) with
      | .error fault => (.error fault, sm, [])
      | .ok lease =>
        let sm := { sm with data := parseSnapshot snapshot.buffer, lease }.updateLastApplied incoming
        (.ok (.applied incoming), sm, sm.persistData ++ (clearWal ++ sm.persistMetadata))

/-- The outcome that the worker sees. -/
theorem applySnapshotFromFile_fst {incoming : LogId} (h : snapshot.lastIncluded = some incoming) :
    (sm.applySnapshotFromFile codec now snapshot).1 =
      Apply.applySnapshotFromFile sm.lastApplied incoming
        (if snapshot.checksumMatches then
          (sm.reloadLease codec now (behindRows snapshot.buffer.length snapshot.buffer)).map
            fun _ => ()
        else .error .snapshotFailed) := by
  unfold applySnapshotFromFile Apply.applySnapshotFromFile
  simp only [h]
  split_ifs <;> try rfl
  cases sm.reloadLease codec now (behindRows snapshot.buffer.length snapshot.buffer) <;> rfl

/-! ## Where the rows end -/

theorem behindRows_append {rows : List (Bytes × (Bytes × Nat))}
    (h : ∀ row ∈ rows, Sized row.1 ∧ Sized row.2.1 ∧ row.2.2 < 256 ^ 8) (fuel : Nat)
    (tail : Bytes) :
    behindRows (rows.length + fuel) (rows.flatMap encodeRow ++ tail) = behindRows fuel tail := by
  induction rows with
  | nil => simp
  | cons row rest ih =>
    obtain ⟨key, value, term⟩ := row
    obtain ⟨hkey, hva, hte⟩ := h _ List.mem_cons_self
    have hre := ih fun row hrow => h row (List.mem_cons_of_mem _ hrow)
    simp only [List.length_cons, Nat.succ_add, List.flatMap_cons, encodeRow, frame,
      List.append_assoc, behindRows, takeNumber_append hkey, takeNumber_append hva,
      takeNumber_append hte, List.drop_left, hre]
    simp

/-- The leases are read as the key of one more row. -/
theorem behindRows_frame {leases : Bytes} (h : Sized leases) (fuel : Nat) :
    behindRows (fuel + 1) (frame 8 leases) = [] := by
  have hlen : takeNumber 8 (frame 8 leases) = some (leases.length, leases) :=
    takeNumber_append h leases
  simp only [behindRows, hlen, Nat.lt_irrefl, if_false, List.drop_length]
  rfl

/-- Nothing is left behind the rows of a snapshot. -/
theorem behindRows_snapshotBin {data : FileData} {leases : Bytes} (hda : DataFits data)
    (h : Sized leases) :
    behindRows (snapshotBin data leases).length (snapshotBin data leases) = [] := by
  have hlen := length_le_length_flatMap_encodeRow data.toList
  obtain ⟨fuel, hfu⟩ : ∃ fuel,
      (snapshotBin data leases).length = data.toList.length + (fuel + 1) := by
    refine ⟨(snapshotBin data leases).length - data.toList.length - 1, ?_⟩
    simp only [snapshotBin, encodeData, List.length_append, length_frame]
    omega
  rw [hfu, snapshotBin, encodeData, behindRows_append]
  · exact behindRows_frame h fuel
  · exact fun row hrow => hda row.1 row.2 (Std.ExtTreeMap.mem_toList_iff_getElem?_eq_some.mp hrow)

/-- An older target gets the values of the source. Its leases are those of the source that have not
run out only if they were before. -/
theorem installs_leases_iff (now : Nat) {source target : FileStateMachine} {incoming : LogId}
    (hdata : DataFits source.data) (hleases : Sized (source.leaseSnapshot codec))
    (holder : target.lastAppliedIndex < incoming.index) :
    ∃ target' writes, target.applySnapshotFromFile codec now
        ⟨some incoming, true, source.generateSnapshotData codec⟩ =
          (.ok (.applied incoming), target', writes) ∧
      ((target'.data = source.data ∧ target'.leases = unexpired now source.leases) ↔
        target.leases = unexpired now source.leases) := by
  have hre : target.reloadLease codec now [] = .ok target.lease := by
    simp [reloadLease, takeFrame, takeNumber]
  have hlt : ¬incoming.index < target.lastApplied.index := Nat.not_lt.mpr holder.le
  have hne : incoming.index ≠ target.lastApplied.index := holder.ne'
  simp only [applySnapshotFromFile, generateSnapshotData, if_neg hlt, if_neg hne,
    behindRows_snapshotBin hdata hleases, hre, parseSnapshot_snapshotBin hdata hleases]
  exact ⟨_, _, rfl, and_iff_right rfl⟩

/-- Leases as rows with an empty value. -/
def rowCodec : LeaseCodec where
  serialize leases := encodeData (leases.mapValues fun expireAt => ([], expireAt))
  deserialize bytes := some ((loadData bytes).mapValues Prod.snd)
  deserialize_serialize leases h := by
    rw [loadData_encodeData]
    · refine congrArg some (Std.ExtTreeMap.ext_getElem? ?_)
      simp [KeyMap.getElem?_mapValues]
    · intro k v hget
      simp only [KeyMap.getElem?_mapValues, Option.map_eq_some_iff] at hget
      obtain ⟨expireAt, hlease, rfl⟩ := hget
      exact ⟨(h k expireAt hlease).1, Nat.pow_pos (by decide), (h k expireAt hlease).2⟩

/-- A machine with one lease. -/
def leasing : FileStateMachine := { fresh with lease := some (TtlLease.empty.register 0 [1] 1) }

/-- A target that has the lease keeps it. -/
theorem installed_with_its_lease :
    ∃ target' writes, leasing.applySnapshotFromFile rowCodec 0
        ⟨some ⟨1, 1⟩, true, leasing.generateSnapshotData rowCodec⟩ =
          (.ok (.applied ⟨1, 1⟩), target', writes) ∧
      target'.data = leasing.data ∧ target'.leases = unexpired 0 leasing.leases := by
  obtain ⟨target', writes, heq, hiff⟩ :=
    @installs_leases_iff rowCodec 0 leasing leasing ⟨1, 1⟩ dataFits_empty (by decide +kernel)
      (by decide)
  exact ⟨target', writes, heq, hiff.mpr (by decide +kernel)⟩

/-- A target without leases gets none. -/
theorem lease_lost_in_snapshot :
    ∃ target' writes, FileStateMachine.applySnapshotFromFile rowCodec
        { fresh with lease := some .empty } 0
        ⟨some ⟨1, 1⟩, true, leasing.generateSnapshotData rowCodec⟩ =
          (.ok (.applied ⟨1, 1⟩), target', writes) ∧
      target'.leases[([1] : Bytes)]? = none ∧
      (unexpired 0 leasing.leases)[([1] : Bytes)]? = some nanosPerSec :=
  ⟨_, _, rfl, by decide +kernel, by decide +kernel⟩

end FileStateMachine

end DEngine.Adaptors

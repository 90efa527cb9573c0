import DEngine.Apply.Command
import DEngine.Library.Framing
import Mathlib.Data.List.TakeWhile

/-!
# The transfer of a snapshot

The leader cuts a snapshot file into chunks, and the follower writes the chunks of a stream into a
temporary file. It accepts a stream whose chunks come from one leader, in order, whole and with
matching checksums.

## Implementation notes

Writes and acknowledgements succeed, and no chunk is waited for in vain. An error carries the
acknowledgements that were sent before it. The counters of the code have 32 bits: an addition
that overflows panics, and so does a remainder by zero; the atomic counter wraps. The checksum is
a parameter. The decompression of the assembled file is left out.
-/

namespace DEngine.Apply

open Library.Framing

/-! ## Messages -/

structure SnapshotMetadata where
  lastIncluded : Option LogId
  checksum : Bytes
deriving DecidableEq

structure SnapshotChunk where
  leaderTerm : Nat
  leaderId : Nat
  metadata : Option SnapshotMetadata
  seq : UInt32
  totalChunks : UInt32
  data : Bytes
  chunkChecksum : Bytes
deriving DecidableEq

inductive ChunkStatus where
  | accepted
  | checksumMismatch
  | outOfOrder
  | failed
deriving DecidableEq

structure SnapshotAck where
  seq : Nat
  status : ChunkStatus
  nextRequested : Nat
deriving DecidableEq

inductive TransferError where
  | operationFailed (message : String)
  | panic
deriving DecidableEq

/-! ## The receiver -/

structure SnapshotAssembler where
  tempFile : Bytes
  expectedIndex : Nat
  receivedChunks : Nat
deriving DecidableEq

def SnapshotAssembler.new : SnapshotAssembler := ⟨[], 0, 0⟩

def SnapshotAssembler.writeChunk (a : SnapshotAssembler) (index : Nat) (data : Bytes) :
    Except TransferError SnapshotAssembler :=
  if index ≠ a.expectedIndex then
    .error (.operationFailed s!"Out-of-order chunk. Expected {a.expectedIndex}, got {index}")
  else if a.expectedIndex + 1 < 2 ^ 32 then
    .ok ⟨a.tempFile ++ data, a.expectedIndex + 1, (a.receivedChunks + 1) % 2 ^ 32⟩
  else .error .panic

/-- The assembler, and the acknowledgements that were sent. -/
structure Reception where
  assembler : SnapshotAssembler
  acks : List SnapshotAck
deriving DecidableEq

section Receiver

variable (crc : Bytes → Nat)

def validateChecksum (data expected : Bytes) : Bool := toBigEndian 4 (crc data) = expected

def validateAndWriteChunk (r : Reception) (chunk : SnapshotChunk) :
    Except (TransferError × List SnapshotAck) Reception :=
  if validateChecksum crc chunk.data chunk.chunkChecksum = false then
    .error (.operationFailed "Checksum validation failed",
      r.acks ++ [⟨chunk.seq.toNat, .checksumMismatch, chunk.seq.toNat⟩])
  else
    match r.assembler.writeChunk chunk.seq.toNat chunk.data with
    | .error e => .error (e, r.acks)
    | .ok assembler =>
      .ok ⟨assembler, r.acks ++ [⟨chunk.seq.toNat, .accepted, chunk.seq.toNat + 1⟩]⟩

/-- The loop over the remaining chunks. -/
def receiveChunks (receiverYieldEveryNChunks term leaderId : Nat) :
    Nat → Reception → List SnapshotChunk → Except (TransferError × List SnapshotAck) Reception
  | _, r, [] => .ok r
  | count, r, chunk :: rest =>
    if chunk.leaderTerm ≠ term ∨ chunk.leaderId ≠ leaderId then
      .error (.operationFailed "Leader changed during transfer",
        r.acks ++ [⟨chunk.seq.toNat, .outOfOrder, 0⟩])
    else
      match validateAndWriteChunk crc r chunk with
      | .error e => .error e
      | .ok r =>
        -- The count of the loop is taken modulo the configured number, cast to 32 bits.
        if 2 ^ 32 ≤ count + 1 ∨ receiverYieldEveryNChunks % 2 ^ 32 = 0 then .error (.panic, r.acks)
        else receiveChunks receiverYieldEveryNChunks term leaderId (count + 1) r rest

/-- `prepare_snapshot_stream` up to the call of `finalize`. -/
def prepareSnapshotStream (receiverYieldEveryNChunks : Nat) (first : SnapshotChunk)
    (remaining : List SnapshotChunk) :
    Except (TransferError × List SnapshotAck) (SnapshotMetadata × Reception) :=
  match first.metadata with
  | none => .error (.operationFailed "Missing metadata in snapshot stream", [])
  | some metadata =>
    match validateAndWriteChunk crc ⟨.new, []⟩ first with
    | .error e => .error e
    | .ok r =>
      match receiveChunks crc receiverYieldEveryNChunks first.leaderTerm first.leaderId 1 r
          remaining with
      | .error e => .error e
      | .ok r =>
        let received := r.assembler.receivedChunks
        let total := first.totalChunks.toNat
        if received ≠ total then
          .error (.operationFailed s!"Received chunks({received}) != total({total})",
            r.acks ++ [⟨received, .failed, 0⟩])
        else .ok (metadata, r)

/-! ## The sender -/

/-- The number of chunks before it is cast to 32 bits. -/
def chunkCount (fileSize chunkSize : Nat) : Nat := (fileSize + chunkSize - 1) / chunkSize

/-- The bytes of a chunk of the file. -/
def chunkData (chunkSize : Nat) (file : Bytes) (seq : Nat) : Bytes :=
  let start := seq * chunkSize
  (file.take (min (start + chunkSize) file.length)).drop start

def loadSnapshotData (nodeId chunkSize : Nat) (metadata : SnapshotMetadata) (leaderTerm : Nat)
    (file : Bytes) : Except TransferError (List SnapshotChunk) :=
  match metadata.lastIncluded with
  | none => .error (.operationFailed "No last_included in metadata")
  | some _ =>
    let totalChunks := UInt32.ofNat (chunkCount file.length chunkSize)
    -- A chunk that starts behind the end of the file ends the stream.
    .ok (((List.range totalChunks.toNat).takeWhile (· * chunkSize < file.length)).map fun seq =>
      { leaderTerm
        leaderId := nodeId
        metadata := if seq = 0 then some metadata else none
        seq := UInt32.ofNat seq
        totalChunks
        data := chunkData chunkSize file seq
        chunkChecksum := toBigEndian 4 (crc (chunkData chunkSize file seq)) })

end Receiver

/-! ## What is accepted -/

/-- The chunks follow a number of chunks from the same leader. -/
structure Follows (crc : Bytes → Nat) (term leaderId start : Nat) (chunks : List SnapshotChunk) :
    Prop where
  leader : ∀ c ∈ chunks, c.leaderTerm = term ∧ c.leaderId = leaderId
  seqs : chunks.map (·.seq.toNat) = List.range' start chunks.length
  checksums : ∀ c ∈ chunks, validateChecksum crc c.data c.chunkChecksum

/-- What accepted chunks leave. -/
def Reception.extend (r : Reception) (chunks : List SnapshotChunk) : Reception where
  assembler := ⟨r.assembler.tempFile ++ chunks.flatMap (·.data),
    r.assembler.expectedIndex + chunks.length, r.assembler.receivedChunks + chunks.length⟩
  acks := r.acks ++ chunks.map fun c => ⟨c.seq.toNat, .accepted, c.seq.toNat + 1⟩

section Accepted

variable {crc : Bytes → Nat} {term leaderId start receiverYieldEveryNChunks : Nat}
  {first chunk : SnapshotChunk} {rest : List SnapshotChunk} {r r' : Reception}

theorem follows_cons : Follows crc term leaderId start (chunk :: rest) ↔
    (chunk.leaderTerm = term ∧ chunk.leaderId = leaderId) ∧ chunk.seq.toNat = start ∧
      validateChecksum crc chunk.data chunk.chunkChecksum ∧
      Follows crc term leaderId (start + 1) rest := by
  constructor
  · rintro ⟨hld, hse, hsu⟩
    obtain ⟨hseq, hse⟩ := List.cons.inj hse
    exact ⟨hld _ List.mem_cons_self, hseq, hsu _ List.mem_cons_self,
      fun c hc => hld c (List.mem_cons_of_mem _ hc), hse,
      fun c hc => hsu c (List.mem_cons_of_mem _ hc)⟩
  · rintro ⟨hfi, hseq, hsum, hld, hse, hsu⟩
    exact ⟨List.forall_mem_cons.mpr ⟨hfi, hld⟩,
      congrArg₂ List.cons hseq hse, List.forall_mem_cons.mpr ⟨hsum, hsu⟩⟩

theorem extend_cons : r.extend (chunk :: rest) = (r.extend [chunk]).extend rest := by
  simp only [Reception.extend, List.flatMap_cons, List.flatMap_nil, List.append_nil,
    List.append_assoc, List.length_cons, List.length_nil, List.map_cons, List.map_nil,
    List.singleton_append, Nat.zero_add, Nat.add_assoc, Nat.add_comm 1]

/-- One chunk is accepted if it is whole and the next one. -/
theorem validateAndWriteChunk_eq_ok (hco : r.assembler.receivedChunks = r.assembler.expectedIndex) :
    validateAndWriteChunk crc r chunk = .ok r' ↔
      chunk.seq.toNat = r.assembler.expectedIndex ∧
        validateChecksum crc chunk.data chunk.chunkChecksum ∧
        r.assembler.expectedIndex + 1 < 2 ^ 32 ∧ r' = r.extend [chunk] := by
  unfold validateAndWriteChunk SnapshotAssembler.writeChunk
  split_ifs with hsum hseq hfi
  · simp [hsum]
  · simp [hseq]
  · have hex : r.extend [chunk] = ⟨⟨r.assembler.tempFile ++ chunk.data,
        r.assembler.expectedIndex + 1, (r.assembler.receivedChunks + 1) % 2 ^ 32⟩,
        r.acks ++ [⟨chunk.seq.toNat, .accepted, chunk.seq.toNat + 1⟩]⟩ := by
      rw [hco, Nat.mod_eq_of_lt hfi]
      simp [Reception.extend, hco]
    rw [hex]
    exact ⟨fun h => ⟨not_not.mp hseq, Bool.of_not_eq_false hsum, hfi, (Except.ok.inj h).symm⟩,
      fun ⟨_, _, _, h⟩ => congrArg Except.ok h.symm⟩
  · exact ⟨nofun, fun h => absurd h.2.2.1 hfi⟩

/-- The loop accepts what follows, and leaves all of it. -/
theorem receiveChunks_eq_ok (hyi : receiverYieldEveryNChunks % 2 ^ 32 ≠ 0) {count : Nat}
    (hin : r.assembler.expectedIndex = count) (hco : r.assembler.receivedChunks = count)
    (hfi : count < 2 ^ 32) :
    receiveChunks crc receiverYieldEveryNChunks term leaderId count r rest = .ok r' ↔
      Follows crc term leaderId count rest ∧ count + rest.length < 2 ^ 32 ∧
        r' = r.extend rest := by
  induction rest generalizing r count with
  | nil =>
    have hem : r.extend [] = r := by simp [Reception.extend]
    rw [receiveChunks, hem, Except.ok.injEq, eq_comm]
    exact ⟨fun h => ⟨⟨by simp, rfl, by simp⟩, hfi, h⟩, fun h => h.2.2⟩
  | cons chunk rest ih =>
    rw [receiveChunks, follows_cons, extend_cons, List.length_cons]
    by_cases hld : chunk.leaderTerm = term ∧ chunk.leaderId = leaderId
    swap
    · rw [if_pos (by tauto)]
      exact ⟨nofun, fun h => absurd h.1.1 hld⟩
    rw [if_neg (by tauto)]
    have hwr {next : Reception} : validateAndWriteChunk crc r chunk = .ok next ↔ _ :=
      validateAndWriteChunk_eq_ok (hco.trans hin.symm)
    cases hva : validateAndWriteChunk crc r chunk with
    | error e =>
      refine ⟨nofun, fun ⟨⟨_, hseq, hsum, _⟩, hlen, _⟩ => ?_⟩
      exact absurd (hwr.mpr ⟨hseq.trans hin.symm, hsum, by omega, rfl⟩) (by simp [hva])
    | ok next =>
      obtain ⟨hseq, hsum, hnx, rfl⟩ := hwr.mp hva
      rw [hin] at hseq hnx
      dsimp only
      rw [if_neg (by omega), ih (congrArg (· + 1) hin) (congrArg (· + 1) hco) hnx,
        Nat.add_assoc, Nat.add_comm 1]
      exact ⟨fun ⟨hre, hr'⟩ => ⟨⟨hld, hseq, hsum, hre⟩, hr'⟩,
        fun ⟨⟨_, _, _, hre⟩, hr'⟩ => ⟨hre, hr'⟩⟩

/-- A number of chunks that is cast to zero ends the loop behind its first chunk. -/
theorem prepareSnapshotStream_ne_ok (hze : receiverYieldEveryNChunks % 2 ^ 32 = 0)
    (p : SnapshotMetadata × Reception) :
    prepareSnapshotStream crc receiverYieldEveryNChunks first (chunk :: rest) ≠ .ok p := by
  have hlo (r r' : Reception) (count : Nat) : receiveChunks crc receiverYieldEveryNChunks
      first.leaderTerm first.leaderId count r (chunk :: rest) ≠ .ok r' := by
    rw [receiveChunks]
    split_ifs with hld hpa
    · nofun
    · split <;> nofun
    · exact absurd (.inr hze) hpa
  intro h
  unfold prepareSnapshotStream at h
  split at h
  · cases h
  · split at h
    · cases h
    · split at h
      · cases h
      · exact hlo _ _ _ ‹_›

/-- What reaches `finalize`. -/
theorem prepareSnapshotStream_eq_ok (hyi : receiverYieldEveryNChunks % 2 ^ 32 ≠ 0)
    {metadata : SnapshotMetadata} :
    prepareSnapshotStream crc receiverYieldEveryNChunks first rest = .ok (metadata, r) ↔
      first.metadata = some metadata ∧
        Follows crc first.leaderTerm first.leaderId 0 (first :: rest) ∧
        (first :: rest).length = first.totalChunks.toNat ∧
        r = Reception.extend ⟨.new, []⟩ (first :: rest) := by
  have hwr {next : Reception} : validateAndWriteChunk crc ⟨.new, []⟩ first = .ok next ↔ _ :=
    validateAndWriteChunk_eq_ok rfl
  have hto := first.totalChunks.toNat_lt
  rw [prepareSnapshotStream, follows_cons, extend_cons, List.length_cons]
  cases hme : first.metadata with
  | none => simp
  | some m =>
    cases hva : validateAndWriteChunk crc ⟨.new, []⟩ first with
    | error e =>
      refine ⟨nofun, fun ⟨_, ⟨_, hseq, hsum, _⟩, _⟩ => ?_⟩
      exact absurd (hwr.mpr ⟨hseq, hsum, by decide, rfl⟩) (by simp [hva])
    | ok next =>
      obtain ⟨hseq, hsum, -, rfl⟩ := hwr.mp hva
      have hlo {r' : Reception} : receiveChunks crc receiverYieldEveryNChunks first.leaderTerm
          first.leaderId 1 (Reception.extend ⟨.new, []⟩ [first]) rest = .ok r' ↔ _ :=
        receiveChunks_eq_ok hyi rfl rfl (by decide)
      dsimp only
      cases hre : receiveChunks crc receiverYieldEveryNChunks first.leaderTerm first.leaderId 1
          (Reception.extend ⟨.new, []⟩ [first]) rest with
      | error e =>
        refine ⟨nofun, fun ⟨_, ⟨_, _, _, hfo⟩, hlen, _⟩ => ?_⟩
        exact absurd (hlo.mpr ⟨hfo, by omega, rfl⟩) (by simp [hre])
      | ok last =>
        obtain ⟨hfo, hlen, rfl⟩ := hlo.mp hre
        have hrc : ((Reception.extend ⟨.new, []⟩ [first]).extend
            rest).assembler.receivedChunks = rest.length + 1 := Nat.add_comm _ _
        simp only [hrc]
        split_ifs with hne
        · exact ⟨nofun, fun h => absurd h.2.2.1 hne⟩
        · simp only [Except.ok.injEq, Prod.mk.injEq, Option.some.injEq, not_not.mp hne, hseq, hsum,
            hfo, SnapshotAssembler.new, and_self, true_and, eq_comm]

end Accepted

/-! ## What is sent -/

section Sent

variable {crc : Bytes → Nat} {chunkSize : Nat} {file : Bytes}

/-- The chunks of a file are the file. -/
theorem flatten_chunkData (n : Nat) :
    (List.range n).flatMap (chunkData chunkSize file) = file.take (n * chunkSize) := by
  induction n with
  | zero => simp
  | succ n ih =>
    have hpi : chunkData chunkSize file n =
        (file.take ((n + 1) * chunkSize)).drop (n * chunkSize) := by
      rw [chunkData, Nat.succ_mul, ← List.take_eq_take_min]
    have hfr : file.take (n * chunkSize) =
        (file.take ((n + 1) * chunkSize)).take (n * chunkSize) := by
      rw [List.take_take, Nat.min_eq_left (Nat.mul_le_mul_right _ n.le_succ)]
    rw [List.range_succ, List.flatMap_append, ih, List.flatMap_singleton, hpi, hfr,
      List.take_append_drop]

theorem chunkCount_spec (hsi : 0 < chunkSize) (hfi : file ≠ []) :
    0 < chunkCount file.length chunkSize ∧
      file.length ≤ chunkCount file.length chunkSize * chunkSize ∧
      ∀ seq < chunkCount file.length chunkSize, seq * chunkSize < file.length := by
  have hpos := List.length_pos_of_ne_nil hfi
  have hdiv := Nat.div_add_mod (file.length + chunkSize - 1) chunkSize
  have hmod := Nat.mod_lt (file.length + chunkSize - 1) hsi
  rw [Nat.mul_comm] at hdiv
  refine ⟨Nat.div_pos (by omega) hsi, by unfold chunkCount; omega, fun seq hseq => ?_⟩
  have hle : (seq + 1) * chunkSize ≤ _ := Nat.mul_le_mul_right chunkSize hseq
  rw [chunkCount, Nat.succ_mul] at hle
  omega

/-- The stream of a file is accepted, and leaves the file. -/
theorem receive_loaded {receiverYieldEveryNChunks nodeId leaderTerm : Nat}
    (hyi : receiverYieldEveryNChunks % 2 ^ 32 ≠ 0) (hsi : 0 < chunkSize) (hfi : file ≠ [])
    (hcn : chunkCount file.length chunkSize ≤ 2 ^ 32 - 1) {metadata : SnapshotMetadata}
    {chunks : List SnapshotChunk}
    (hlo : loadSnapshotData crc nodeId chunkSize metadata leaderTerm file = .ok chunks) :
    ∃ first rest r, chunks = first :: rest ∧
      prepareSnapshotStream crc receiverYieldEveryNChunks first rest = .ok (metadata, r) ∧
      r.assembler.tempFile = file := by
  obtain ⟨hpos, hlen, hst⟩ := chunkCount_spec hsi hfi
  obtain ⟨n, hn⟩ : ∃ n, chunkCount file.length chunkSize = n + 1 :=
    ⟨_, (Nat.sub_add_cancel hpos).symm⟩
  unfold loadSnapshotData at hlo
  split at hlo
  · cases hlo
  rw [hn] at hlo hlen hst hcn
  have hto : (UInt32.ofNat (n + 1)).toNat = n + 1 :=
    UInt32.toNat_ofNat_of_lt' (lt_of_le_of_lt hcn (by decide))
  have hall : (List.range (n + 1)).takeWhile (· * chunkSize < file.length) = List.range (n + 1) :=
    List.takeWhile_eq_self_iff.mpr fun seq hseq =>
      decide_eq_true (hst seq (List.mem_range.mp hseq))
  simp only [hto, hall, Except.ok.injEq] at hlo
  have hco := hlo
  rw [List.range_succ_eq_map, List.map_cons] at hco
  refine ⟨_, _, _, hco.symm, (prepareSnapshotStream_eq_ok hyi).mpr ⟨rfl, ?_, ?_, rfl⟩, ?_⟩
  · rw [hco, ← hlo]
    refine ⟨by simp, ?_, by simp [validateChecksum]⟩
    rw [List.map_map, List.length_map, List.length_range, ← List.range_eq_range']
    refine (List.map_congr_left fun seq hseq => ?_).trans (List.map_id _)
    exact UInt32.toNat_ofNat_of_lt'
      (((List.mem_range.mp hseq).trans_le hcn).trans_le (by decide))
  · rw [hco, ← hlo, List.length_map, List.length_range]
    exact hto.symm
  · rw [hco, ← hlo]
    change [] ++ List.flatMap _ _ = file
    rw [List.nil_append, List.flatMap_map]
    exact (flatten_chunkData (n + 1)).trans (List.take_of_length_le hlen)

end Sent

/-- Acceptance is exact and files come through as they are, unless the number of chunks between
two yields is cast to zero. -/
theorem transfer_exact_iff (crc : Bytes → Nat) (receiverYieldEveryNChunks : Nat) :
    ((∀ first rest,
        ((∃ metadata r,
            prepareSnapshotStream crc receiverYieldEveryNChunks first rest = .ok (metadata, r)) ↔
          first.metadata.isSome ∧
            (∀ c ∈ rest, c.leaderTerm = first.leaderTerm ∧ c.leaderId = first.leaderId) ∧
            (first :: rest).map (·.seq.toNat) = List.range first.totalChunks.toNat ∧
            ∀ c ∈ first :: rest, validateChecksum crc c.data c.chunkChecksum) ∧
        ∀ metadata r,
          prepareSnapshotStream crc receiverYieldEveryNChunks first rest = .ok (metadata, r) →
          r.assembler.tempFile = (first :: rest).flatMap (·.data)) ∧
      ∀ nodeId chunkSize metadata leaderTerm file chunks, 0 < chunkSize → file ≠ [] →
        chunkCount file.length chunkSize ≤ 2 ^ 32 - 1 →
        loadSnapshotData crc nodeId chunkSize metadata leaderTerm file = .ok chunks →
        ∃ first rest r, chunks = first :: rest ∧
          prepareSnapshotStream crc receiverYieldEveryNChunks first rest = .ok (metadata, r) ∧
          r.assembler.tempFile = file) ↔
      receiverYieldEveryNChunks % 2 ^ 32 ≠ 0 := by
  constructor
  · rintro ⟨hex, -⟩ hze
    let chunk (metadata : Option SnapshotMetadata) (seq : UInt32) : SnapshotChunk :=
      ⟨1, 1, metadata, seq, 2, [], toBigEndian 4 (crc [])⟩
    obtain ⟨metadata, r, hr⟩ := (hex (chunk (some ⟨none, []⟩) 0) [chunk none 1]).1.mpr
      ⟨rfl, by simp [chunk], by rfl, by simp [chunk, validateChecksum]⟩
    exact prepareSnapshotStream_ne_ok hze _ hr
  · intro hyi
    refine ⟨fun first rest => ⟨?_, ?_⟩, fun _ _ _ _ _ _ hsi hfi hco hlo =>
      receive_loaded hyi hsi hfi hco hlo⟩
    · simp only [prepareSnapshotStream_eq_ok hyi]
      constructor
      · rintro ⟨metadata, r, hme, ⟨hld, hse, hsu⟩, hlen, -⟩
        rw [hlen, ← List.range_eq_range'] at hse
        exact ⟨by simp [hme], (List.forall_mem_cons.mp hld).2, hse, hsu⟩
      · rintro ⟨hme, hld, hse, hsu⟩
        obtain ⟨metadata, hme⟩ := Option.isSome_iff_exists.mp hme
        have hlen : (first :: rest).length = first.totalChunks.toNat := by
          simpa using congrArg List.length hse
        refine ⟨metadata, _, hme, ⟨List.forall_mem_cons.mpr ⟨⟨rfl, rfl⟩, hld⟩, ?_, hsu⟩,
          hlen, rfl⟩
        rw [hlen, ← List.range_eq_range']
        exact hse
    · intro metadata r hr
      obtain ⟨-, -, -, rfl⟩ := (prepareSnapshotStream_eq_ok hyi).mp hr
      rfl

/-- A number that the configuration admits is cast to zero: the stream of a file of two bytes is
not accepted. -/
theorem yield_count_cast_to_zero :
    ∃ first second,
      loadSnapshotData (fun _ => 0) 1 1 ⟨some ⟨1, 1⟩, []⟩ 1 [7, 8] = .ok [first, second] ∧
      prepareSnapshotStream (fun _ => 0) (2 ^ 32) first [second] =
        .error (.panic, [⟨0, .accepted, 1⟩, ⟨1, .accepted, 2⟩]) :=
  ⟨_, _, rfl, by decide⟩

end DEngine.Apply

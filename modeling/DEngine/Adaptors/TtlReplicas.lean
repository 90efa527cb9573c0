import DEngine.Adaptors.FileApply
import DEngine.Adaptors.LeasedKeys
import DEngine.Adaptors.RocksDBStateMachine
import DEngine.Library.Transition

/-!
# Replicas with a time to live

Two replicas apply the same entries. Each one registers the leases by its own clock,
and a background task runs `lease_background_cleanup` at moments of its own: it
collects the expired keys from the lease, and deletes them from the store.

## Implementation notes

A chunk of the file store is evaluated first and updates values and leases later; one
of RocksDB changes the leases while it builds its batch, and writes the batch later.
Reads and writes of the database succeed.
-/

namespace DEngine.Adaptors

open Apply Library RocksDBStateMachine

/-- The first half of `lease_background_cleanup`: the keys to delete, if there are any. -/
def TtlLease.collect (lease : TtlLease) (order : List Bytes) (now : Nat) :
    Option (List Bytes) × TtlLease :=
  if ¬lease.hasLeaseKeys then (none, lease)
  else if ¬lease.mayHaveExpiredKeys order now then (none, lease)
  else
    let (expiredKeys, lease) := lease.getExpiredKeys now
    (if expiredKeys = [] then none else some expiredKeys, lease)

/-- The keys that have a lease. -/
def TtlLease.keys (lease : TtlLease) : List Bytes := lease.keyToExpiry.toList.map Prod.fst

/-- Every lease that is left has run out. -/
def RunOut (now : Nat) (lease : Option TtlLease) : Prop :=
  ∀ l ∈ lease, ∀ p ∈ l.keyToExpiry.toList, p.2 ≤ now
deriving Decidable

/-- All expired keys are cleaned up. -/
def CleanedUp (now : Nat) (lease : Option TtlLease) (collected : List (List Bytes)) : Prop :=
  collected = [] ∧ ∀ l ∈ lease, ∀ p ∈ l.keyToExpiry.toList, now < p.2

instance (now : Nat) (lease : Option TtlLease) (collected : List (List Bytes)) :
    Decidable (CleanedUp now lease collected) :=
  inferInstanceAs (Decidable (_ ∧ ∀ l ∈ lease, ∀ p ∈ l.keyToExpiry.toList, now < p.2))

/-! ## What a replica holds -/

section Progress

variable {V : Type} (wrap : Nat → Bytes → V) (unwrap : V → Bytes)

/-- A replica that has applied the given entries. -/
structure Replicated (leased : List Bytes) (values : KeyMap Bytes V) (done : List ApplyEntry)
    (data : KeyMap Bytes V) (lease : Option TtlLease) (collected : List (List Bytes))
    (results : List ApplyResult) : Prop where
  store : ∃ l, lease = some l ∧
    UpToCleanup (done.foldl leasedAfter leased) (serialRun wrap unwrap values done).2 data
      l.keyToExpiry collected
  results : results = List.zipWith entryResult done (serialRun wrap unwrap values done).1

variable {wrap unwrap} {leased : List Bytes} {values data data' : KeyMap Bytes V}
  {done chunk rest : List ApplyEntry} {lease lease' : Option TtlLease}
  {collected : List (List Bytes)} {results results' : List ApplyResult}

theorem replicated_start {l : TtlLease} :
    Replicated wrap unwrap l.keys values [] values (some l) [] [] := by
  have hke : ∀ k, k ∈ l.keys ↔ (l.keyToExpiry[k]?).isSome := by
    intro k
    simp only [TtlLease.keys, List.mem_map, Prod.exists, exists_and_right, exists_eq_right,
      Std.ExtTreeMap.mem_toList_iff_getElem?_eq_some, Option.isSome_iff_exists]
  refine ⟨⟨l, rfl, fun _ _ => rfl, fun k hk => ?_, nofun,
    fun k hk => .inr (.inl ((hke k).mp hk))⟩, rfl⟩
  exact Option.not_isSome_iff_eq_none.mp fun hso => hk ((hke k).mpr hso)

/-- A chunk of entries that keep leased keys apart. -/
theorem Replicated.applied (h : Replicated wrap unwrap leased values done data lease [] results)
    (hun : Unmixed leased (done ++ chunk ++ rest)) (registeredAt : Nat → Nat) :
    Replicated wrap unwrap leased values (done ++ chunk) (serialRun wrap unwrap data chunk).2
      (leaseAfter registeredAt lease chunk) []
      (results ++ List.zipWith entryResult chunk (serialRun wrap unwrap data chunk).1) := by
  obtain ⟨⟨l, rfl, hst⟩, hres⟩ := h
  have hch : Unmixed (done.foldl leasedAfter leased) chunk :=
    (unmixed_append.mp (unmixed_append.mp hun).1).2
  obtain ⟨hou, l', hl', hst'⟩ := hst.serialRun hch wrap unwrap registeredAt
  have hse : serialRun wrap unwrap values (done ++ chunk) =
      ((serialRun wrap unwrap values done).1 ++
        (serialRun wrap unwrap (serialRun wrap unwrap values done).2 chunk).1,
        (serialRun wrap unwrap (serialRun wrap unwrap values done).2 chunk).2) :=
    serial_append values done chunk
  constructor
  · refine ⟨l', hl', ?_⟩
    rw [hse, List.foldl_append]
    exact hst'
  · rw [hse, hres, hou]
    exact (List.zipWith_append (length_serial values done).symm).symm

theorem Replicated.collect {l : TtlLease}
    (h : Replicated wrap unwrap leased values done data (some l) collected results)
    (order : List Bytes) (now : Nat) :
    Replicated wrap unwrap leased values done data (some (l.collect order now).2)
      (collected ++ (l.collect order now).1.toList) results := by
  obtain ⟨⟨l', heq, hst⟩, hres⟩ := h
  cases heq
  refine ⟨⟨_, rfl, ?_⟩, hres⟩
  have hsk : UpToCleanup (done.foldl leasedAfter leased) (serialRun wrap unwrap values done).2
      data l.keyToExpiry (collected ++ (none : Option (List Bytes)).toList) := by
    rwa [Option.toList_none, List.append_nil]
  have hco := hst.collect now
  unfold TtlLease.collect
  by_cases hke : l.hasLeaseKeys = true
  · by_cases hmay : l.mayHaveExpiredKeys order now = true
    · rw [if_neg (not_not.mpr hke), if_neg (not_not.mpr hmay)]
      by_cases hem : l.expiredKeys now = []
      · rw [hem] at hco
        simp only [TtlLease.getExpiredKeys, hem, if_true, Option.toList_none, List.append_nil]
        simpa only [TtlLease.getExpiredKeys, hem] using hco.of_nil
      · simp only [TtlLease.getExpiredKeys, hem, if_false, Option.toList_some]
        exact hco
    · rw [if_neg (not_not.mpr hke), if_pos hmay]
      exact hsk
  · rw [if_pos hke]
    exact hsk

theorem Replicated.delete
    (h : Replicated wrap unwrap leased values done data lease collected results) {task : Nat}
    {keys : List Bytes} (hta : collected[task]? = some keys) :
    Replicated wrap unwrap leased values done (data.writeAll (keys.map fun k => (k, none))) lease
      (collected.eraseIdx task) results := by
  obtain ⟨⟨l, hl, hst⟩, hres⟩ := h
  exact ⟨⟨l, hl, hst.eraseIdx hta⟩, hres⟩

/-- Replicas that applied the same entries agree. -/
theorem Replicated.agree (h : Replicated wrap unwrap leased values done data lease collected results)
    {collected' : List (List Bytes)}
    (h' : Replicated wrap unwrap leased values done data' lease' collected' results') :
    results = results' ∧ ∀ now, RunOut now lease → RunOut now lease' →
      CleanedUp now lease collected → CleanedUp now lease' collected' → data = data' := by
  obtain ⟨⟨l, rfl, hst⟩, hres⟩ := h
  obtain ⟨⟨l', rfl, hst'⟩, hre'⟩ := h'
  have hem : ∀ {now : Nat} {l : TtlLease}, RunOut now (some l) →
      (∀ m ∈ some l, ∀ p ∈ m.keyToExpiry.toList, now < p.2) →
      ∀ k : Bytes, l.keyToExpiry[k]? = none := by
    intro now l hout hcl k
    cases hget : l.keyToExpiry[k]? with
    | none => rfl
    | some expireAt =>
      have hmem : (k, expireAt) ∈ l.keyToExpiry.toList :=
        Std.ExtTreeMap.mem_toList_iff_getElem?_eq_some.mpr hget
      exact absurd (hout l rfl _ hmem) (Nat.not_le_of_lt (hcl l rfl _ hmem))
  refine ⟨hres.trans hre'.symm, fun now hout hout' hcl hcl' => ?_⟩
  obtain ⟨rfl, hla⟩ := hcl
  obtain ⟨rfl, hla'⟩ := hcl'
  apply Std.ExtTreeMap.ext_getElem?
  intro k
  rw [hst.getElem?_data (hem hout hla) k, hst'.getElem?_data (hem hout' hla') k]

end Progress

/-! ## The file store -/

/-- A chunk between its evaluation and its update. -/
structure FileEvaluated where
  clock : ApplyClock
  chunk : List ApplyEntry
  highest : Option LogId
  outcomes : List Bool

structure FileReplica where
  machine : FileStateMachine
  remaining : List ApplyEntry
  evaluated : Option FileEvaluated
  /-- The keys that running cleanups have collected. -/
  collected : List (List Bytes)
  results : List ApplyResult

inductive FileReplicaLabel where
  | evaluate (clock : ApplyClock) (count : Nat)
  | update
  | collect (order : List Bytes) (now : Nat)
  | delete (task : Nat)

namespace FileReplica

variable (s : FileReplica)

def step : FileReplicaLabel → Option FileReplica
  | .evaluate clock count =>
    let chunk := s.remaining.take count
    match s.evaluated, chunk.foldlM nextHighest none with
    | none, .ok highest =>
      some { s with
        remaining := s.remaining.drop count
        evaluated := some ⟨clock, chunk, highest,
          (s.machine.evaluateChunk clock.encodedAt chunk).1⟩ }
    | _, _ => none
  | .update =>
    match s.evaluated with
    | none => none
    | some ⟨clock, chunk, highest, outcomes⟩ =>
      match s.machine.updateChunk clock.registeredAt chunk outcomes with
      | .error _ => none
      | .ok (results, updated) =>
        some { s with
          machine := (updated.finishChunk clock.sinceCheckpointSecs highest chunk.length).1
          evaluated := none
          results := s.results ++ results }
  | .collect order now =>
    s.machine.lease.map fun lease =>
      { s with
        machine := { s.machine with lease := some (lease.collect order now).2 }
        collected := s.collected ++ (lease.collect order now).1.toList }
  | .delete task =>
    s.collected[task]?.map fun keys =>
      { s with
        machine := { s.machine with
          data := s.machine.data.writeAll (keys.map fun k => (k, none)) }
        collected := s.collected.eraseIdx task }

/-- The replica has applied all entries. -/
def Done : Prop := s.remaining = [] ∧ s.evaluated.isNone
deriving Decidable

end FileReplica

/-- The runs of a replica that starts from the given machine. -/
def fileReplica (init : FileStateMachine) (entries : List ApplyEntry) :
    Machine FileReplica FileReplicaLabel where
  init s := s = ⟨init, entries, none, [], []⟩
  step := FileReplica.step

/-- A chunk begins while no cleanup is between collecting and deleting, and a cleanup does not
collect between the evaluation and the update of a chunk. -/
def FileApart (s : FileReplica) : FileReplicaLabel → Prop
  | .evaluate _ _ => s.collected = []
  | .collect _ _ => s.evaluated.isNone
  | _ => True

instance (s : FileReplica) (l : FileReplicaLabel) : Decidable (FileApart s l) := by
  cases l <;> dsimp only [FileApart] <;> infer_instance

section FileRuns

variable {init : FileStateMachine} {leased : List Bytes} {entries : List ApplyEntry}
  {s t : FileReplica}

/-- The chunk under way comes next and is evaluated on the values that it will update. -/
def ComesNext (entries done : List ApplyEntry) (s : FileReplica) : Prop :=
  match s.evaluated with
  | none => entries = done ++ s.remaining
  | some e =>
    entries = done ++ e.chunk ++ s.remaining ∧ s.collected = [] ∧
      e.outcomes = (serialRun withTerm Prod.fst s.machine.data e.chunk).1

def FileReplicaOk (init : FileStateMachine) (leased : List Bytes) (entries : List ApplyEntry)
    (s : FileReplica) : Prop :=
  ∃ done, Replicated withTerm Prod.fst leased init.data done s.machine.data s.machine.lease
    s.collected s.results ∧ ComesNext entries done s

theorem FileReplicaOk.step (h : FileReplicaOk init leased entries s)
    (hun : Unmixed leased entries) {l : FileReplicaLabel} (hap : FileApart s l)
    (hst : s.step l = some t) : FileReplicaOk init leased entries t := by
  obtain ⟨done, hre, hnx⟩ := h
  cases l with
  | evaluate clock =>
    simp only [FileReplica.step] at hst
    split at hst
    · next highest hid _ =>
        cases hst
        simp only [ComesNext, hid] at hnx
        refine ⟨done, hre, ?_, hap, ?_⟩
        · rw [List.append_assoc, List.take_append_drop]
          exact hnx
        · exact FileStateMachine.evaluateChunk_outcomes s.machine clock.encodedAt _
    · cases hst
  | update =>
    simp only [FileReplica.step] at hst
    cases hev : s.evaluated with
    | none => simp [hev] at hst
    | some e =>
      obtain ⟨clock, chunk, highest, outcomes⟩ := e
      simp only [ComesNext, hev] at hnx
      obtain ⟨hen, hco, hou⟩ := hnx
      have hls : s.machine.lease.isSome := by
        obtain ⟨l, hl, _⟩ := hre.store
        rw [hl]
        rfl
      simp only [hev, hou, FileStateMachine.updateChunk_eq
        fun e _ => registers_of_lease hls e] at hst
      cases hst
      rw [hco] at hre
      refine ⟨done ++ chunk, ?_, hen⟩
      rw [FileStateMachine.finishChunk_data, FileStateMachine.finishChunk_lease]
      dsimp only
      rw [hco]
      exact hre.applied (hen ▸ hun) clock.registeredAt
  | collect order now =>
    obtain ⟨lease, hls, ht⟩ := Option.map_eq_some_iff.mp hst
    subst ht
    rw [hls] at hre
    refine ⟨done, hre.collect order now, ?_⟩
    simp only [ComesNext, Option.isNone_iff_eq_none.mp hap] at hnx ⊢
    exact hnx
  | delete =>
    obtain ⟨keys, hta, ht⟩ := Option.map_eq_some_iff.mp hst
    subst ht
    refine ⟨done, hre.delete hta, ?_⟩
    cases hev : s.evaluated with
    | none =>
      simp only [ComesNext, hev] at hnx ⊢
      exact hnx
    | some =>
      -- A chunk is under way, so that no cleanup has anything to delete.
      simp only [ComesNext, hev] at hnx
      rw [hnx.2.1] at hta
      cases hta

theorem replicated_of_fileReplica {lease : TtlLease} (hls : init.lease = some lease)
    (hun : Unmixed lease.keys entries) (h : (fileReplica init entries).Reach FileApart s)
    (hdn : s.Done) :
    Replicated withTerm Prod.fst lease.keys init.data entries s.machine.data s.machine.lease
      s.collected s.results := by
  obtain ⟨done, hre, hnx⟩ : FileReplicaOk init lease.keys entries s := by
    refine h.invariant ?_ ?_
    · rintro s rfl
      refine ⟨[], ?_, rfl⟩
      change Replicated _ _ _ _ _ _ init.lease _ _
      rw [hls]
      exact replicated_start
    · exact fun s l t hs hap hst => hs.step hun hap hst
  simp only [ComesNext, Option.isNone_iff_eq_none.mp hdn.2, hdn.1, List.append_nil] at hnx
  rw [hnx]
  exact hre

end FileRuns

/-! ## RocksDB -/

structure RocksReplica where
  machine : RocksDBStateMachine
  remaining : List ApplyEntry
  /-- The batch of a chunk that is not written yet. -/
  batched : Option RocksDBStateMachine.Batching
  collected : List (List Bytes)
  results : List ApplyResult

inductive RocksReplicaLabel where
  | batch (registeredAt : Nat → Nat) (count : Nat)
  | write
  | collect (order : List Bytes) (now : Nat)
  | delete (task : Nat)

namespace RocksReplica

variable (s : RocksReplica)

def step : RocksReplicaLabel → Option RocksReplica
  | .batch registeredAt count =>
    match s.batched, s.machine.db.bind Db.stateMachineCf with
    | none, some cf =>
      match RocksDBStateMachine.batchChunk cf.content .none registeredAt
          ⟨⟨∅, none⟩, none, s.machine.lease, []⟩ (s.remaining.take count) with
      | .error _ => none
      | .ok b =>
        some { s with
          machine := { s.machine with lease := b.lease }
          remaining := s.remaining.drop count
          batched := some b }
    | _, _ => none
  | .write =>
    match s.batched, s.machine.db with
    | some b, some db =>
      let machine := { s.machine with
        db := some (db.writeWbwi { b.batch with lastApplied := b.highest }) }
      some { s with
        machine := b.highest.elim machine machine.updateLastApplied
        batched := none
        results := s.results ++ b.results }
    | _, _ => none
  | .collect order now =>
    s.machine.lease.map fun lease =>
      { s with
        machine := { s.machine with lease := some (lease.collect order now).2 }
        collected := s.collected ++ (lease.collect order now).1.toList }
  | .delete task =>
    match s.collected[task]?, s.machine.db with
    | some keys, some db =>
      some { s with
        machine := { s.machine with db := some (RocksDBStateMachine.deleteKeys db keys) }
        collected := s.collected.eraseIdx task }
    | _, _ => none

def Done : Prop := s.remaining = [] ∧ s.batched.isNone
deriving Decidable

end RocksReplica

def rocksReplica (init : RocksDBStateMachine) (entries : List ApplyEntry) :
    Machine RocksReplica RocksReplicaLabel where
  init s := s = ⟨init, entries, none, [], []⟩
  step := RocksReplica.step

/-- A chunk begins while no cleanup is between collecting and deleting, and a cleanup does not
collect between the batch of a chunk and its write. -/
def RocksApart (s : RocksReplica) : RocksReplicaLabel → Prop
  | .batch _ _ => s.collected = []
  | .collect _ _ => s.batched.isNone
  | _ => True

instance (s : RocksReplica) (l : RocksReplicaLabel) : Decidable (RocksApart s l) := by
  cases l <;> dsimp only [RocksApart] <;> infer_instance

section RocksRuns

variable {values : KeyMap Bytes Bytes} {leased : List Bytes} {entries : List ApplyEntry}
  {s t : RocksReplica}

/-- The store and the leases, while the batch of a chunk may be under way: its leases are there
and its values are not. -/
def RocksReplicated (values : KeyMap Bytes Bytes) (leased : List Bytes)
    (entries done : List ApplyEntry) (content : KeyMap Bytes Bytes) (s : RocksReplica) : Prop :=
  match s.batched with
  | none =>
    entries = done ++ s.remaining ∧
      Replicated (fun _ v => v) id leased values done content s.machine.lease s.collected s.results
  | some b =>
    ∃ chunk lease registeredAt, entries = done ++ chunk ++ s.remaining ∧ s.collected = [] ∧
      Replicated (fun _ v => v) id leased values done content lease [] s.results ∧
      s.machine.lease = leaseAfter registeredAt lease chunk ∧
      b.batch.stateMachine = (RocksDBStateMachine.chunkBatch content chunk).stateMachine ∧
      b.results =
        List.zipWith entryResult chunk (serialRun (fun _ v => v) id content chunk).1

def RocksReplicaOk (values : KeyMap Bytes Bytes) (leased : List Bytes)
    (entries : List ApplyEntry) (s : RocksReplica) : Prop :=
  ∃ done db cf, s.machine.db = some db ∧ db.stateMachineCf = some cf ∧
    RocksReplicated values leased entries done cf.content s

theorem RocksReplicaOk.batch (h : RocksReplicaOk values leased entries s)
    (hasc : entries.Pairwise fun a b => a.index < b.index) {registeredAt : Nat → Nat}
    {count : Nat} (hap : s.collected = []) (hst : s.step (.batch registeredAt count) = some t) :
    RocksReplicaOk values leased entries t := by
  obtain ⟨done, db, cf, hdb, hcf, hre⟩ := h
  simp only [RocksReplica.step] at hst
  cases hba : s.batched with
  | some => simp [hba] at hst
  | none =>
    simp only [RocksReplicated, hba, hap] at hre
    obtain ⟨hen, hre⟩ := hre
    obtain ⟨l, hl, _⟩ := hre.store
    have hls : s.machine.lease.isSome := by
      rw [hl]
      rfl
    have hch : (s.remaining.take count).Pairwise fun a b => a.index < b.index := by
      rw [hen] at hasc
      exact (List.pairwise_append.mp hasc).2.1.sublist (List.take_sublist count _)
    simp only [hba, hdb, Option.bind_some, hcf, batchChunk_start
      cf.content hch fun e _ => registers_of_lease hls e] at hst
    cases hst
    refine ⟨done, db, cf, rfl, hcf, s.remaining.take count, s.machine.lease, registeredAt, ?_,
      hap, hre, rfl, rfl, rfl⟩
    rw [List.append_assoc, List.take_append_drop]
    exact hen

theorem RocksReplicaOk.write (h : RocksReplicaOk values leased entries s)
    (hun : Unmixed leased entries) (hst : s.step .write = some t) :
    RocksReplicaOk values leased entries t := by
  obtain ⟨done, db, cf, hdb, hcf, hre⟩ := h
  simp only [RocksReplica.step, hdb] at hst
  cases hba : s.batched with
  | none => simp [hba] at hst
  | some b =>
    simp only [RocksReplicated, hba] at hre
    obtain ⟨chunk, lease, registeredAt, hen, hco, hre, hls, hbt,
      hres⟩ := hre
    simp only [hba] at hst
    cases hst
    have happ := hre.applied (hen ▸ hun) registeredAt
    refine ⟨done ++ chunk, db.writeWbwi { b.batch with lastApplied := b.highest },
      { cf with content := b.batch.stateMachine.commit cf.content },
      db_moved _, ?_, hen, ?_⟩
    · rw [Db.writeWbwi, hcf]
      rfl
    · rw [lease_moved]
      dsimp only
      rw [hco, hls, hbt, hres, commit_chunkBatch]
      exact happ

theorem RocksReplicaOk.step (h : RocksReplicaOk values leased entries s)
    (hasc : entries.Pairwise fun a b => a.index < b.index)
    (hun : Unmixed leased entries) {l : RocksReplicaLabel} (hap : RocksApart s l)
    (hst : s.step l = some t) : RocksReplicaOk values leased entries t := by
  cases l with
  | batch => exact h.batch hasc hap hst
  | write => exact h.write hun hst
  | collect order now =>
    obtain ⟨done, db, cf, hdb, hcf, hre⟩ := h
    obtain ⟨lease, hls, ht⟩ := Option.map_eq_some_iff.mp hst
    subst ht
    simp only [RocksReplicated, Option.isNone_iff_eq_none.mp hap, hls] at hre
    refine ⟨done, db, cf, hdb, hcf, ?_⟩
    simp only [RocksReplicated, Option.isNone_iff_eq_none.mp hap]
    exact ⟨hre.1, hre.2.collect order now⟩
  | delete task =>
    obtain ⟨done, db, cf, hdb, hcf, hre⟩ := h
    simp only [RocksReplica.step, hdb] at hst
    cases hta : s.collected[task]? with
    | none => simp [hta] at hst
    | some keys =>
      simp only [hta] at hst
      cases hst
      refine ⟨done, deleteKeys db keys,
        { cf with content := cf.content.writeAll (keys.map fun k => (k, none)) }, rfl, ?_, ?_⟩
      · rw [deleteKeys, hcf]
        rfl
      · cases hba : s.batched with
        | none =>
          simp only [RocksReplicated, hba] at hre ⊢
          exact ⟨hre.1, hre.2.delete hta⟩
        | some =>
          -- A chunk is under way, so that no cleanup has anything to delete.
          simp only [RocksReplicated, hba] at hre
          obtain ⟨_, _, _, _, hco, _⟩ := hre
          rw [hco] at hta
          cases hta

theorem replicated_of_rocksReplica {init : RocksDBStateMachine} {lease : TtlLease}
    (hop : init.IsOpen) (hls : init.lease = some lease)
    (hasc : entries.Pairwise fun a b => a.index < b.index)
    (hun : Unmixed lease.keys entries) (h : (rocksReplica init entries).Reach RocksApart s)
    (hdn : s.Done) :
    Replicated (fun _ v => v) id lease.keys init.values entries s.machine.values s.machine.lease
      s.collected s.results := by
  have hok : RocksReplicaOk init.values lease.keys entries s := by
    refine h.invariant ?_ ?_
    · rintro s rfl
      obtain ⟨db, cf, metaCf, hdb, hcf, _⟩ := hop.exists_db
      have hva : init.values = cf.content := by
        simp only [values, hdb, Option.bind_some, hcf]
      refine ⟨[], db, cf, hdb, hcf, rfl, ?_⟩
      rw [hls, hva]
      exact replicated_start
    · exact fun s l t hs hap hst => hs.step hasc hun hap hst
  obtain ⟨done, db, cf, hdb, hcf, hre⟩ := hok
  simp only [RocksReplicated, Option.isNone_iff_eq_none.mp hdn.2, hdn.1,
    List.append_nil] at hre
  have hva : s.machine.values = cf.content := by
    simp only [values, hdb, Option.bind_some, hcf]
  rw [hva, hre.1]
  exact hre.2

end RocksRuns

/-! ## Both stores -/

/-- Both stores answer alike on every replica, and end with the same values when all leases have run
out and are cleaned up, if the entries keep leased keys and other keys apart and cleanups do not
overlap with chunks. -/
theorem replicas_agree (entries : List ApplyEntry)
    (hascending : entries.Pairwise fun a b => a.index < b.index) (lease : TtlLease)
    (hunmixed : Unmixed lease.keys entries) :
    (∀ init : FileStateMachine, init.lease = some lease → ∀ s t : FileReplica,
      (fileReplica init entries).Reach FileApart s →
      (fileReplica init entries).Reach FileApart t → s.Done → t.Done →
      s.results = t.results ∧ ∀ now, RunOut now s.machine.lease → RunOut now t.machine.lease →
        CleanedUp now s.machine.lease s.collected → CleanedUp now t.machine.lease t.collected →
        s.machine.data = t.machine.data) ∧
    (∀ init : RocksDBStateMachine, init.IsOpen → init.lease = some lease → ∀ s t : RocksReplica,
      (rocksReplica init entries).Reach RocksApart s →
      (rocksReplica init entries).Reach RocksApart t → s.Done → t.Done →
      s.results = t.results ∧ ∀ now, RunOut now s.machine.lease → RunOut now t.machine.lease →
        CleanedUp now s.machine.lease s.collected → CleanedUp now t.machine.lease t.collected →
        s.machine.values = t.machine.values) := by
  constructor
  · intro init hls s t hs ht hsd htd
    exact (replicated_of_fileReplica hls hunmixed hs hsd).agree
      (replicated_of_fileReplica hls hunmixed ht htd)
  · intro init hop hls s t hs ht hsd htd
    exact (replicated_of_rocksReplica hop hls hascending hunmixed hs hsd).agree
      (replicated_of_rocksReplica hop hls hascending hunmixed ht htd)

/-! ## Replicas on fixed entries -/

/-- All entries are applied, all leases have run out, and all expired keys are cleaned up. -/
def FileReplica.Settled (now : Nat) (s : FileReplica) : Prop :=
  s.Done ∧ RunOut now s.machine.lease ∧ CleanedUp now s.machine.lease s.collected
deriving Decidable

def RocksReplica.Settled (now : Nat) (s : RocksReplica) : Prop :=
  s.Done ∧ RunOut now s.machine.lease ∧ CleanedUp now s.machine.lease s.collected
deriving Decidable

/-- An empty file store with a lease. -/
def emptyFile : FileStateMachine := { FileStateMachine.fresh with lease := some .empty }

/-- An empty database with a lease. -/
def emptyRocks : RocksDBStateMachine := { RocksDBStateMachine.fresh with lease := some .empty }

/-- A key gets a value with a time to live of one second. -/
def shortLived : ApplyEntry := ⟨1, 1, .insert [1] [7] (some 1)⟩

/-- A leased key, and a key that is compared. -/
def apartEntries : List ApplyEntry :=
  [shortLived, ⟨2, 1, .insert [2] [5] none⟩, ⟨3, 1, .compareAndSwap [2] (some [5]) [6]⟩]

/-- A leased key is deleted and then used without a lease. -/
def reusedKey : List ApplyEntry :=
  [shortLived, ⟨2, 1, .delete [1]⟩, ⟨3, 1, .insert [1] [8] none⟩]

/-- A cleanup runs behind the first chunk, or behind the last one. -/
theorem apart_replicas_agree :
    (∃ s t : FileReplica, s.results = t.results ∧ s.machine.data = t.machine.data ∧
      s.results = [.success 1, .success 2, .success 3] ∧
      s.machine.values.toList = [([2], [6])]) ∧
    (∃ s t : RocksReplica, s.results = t.results ∧ s.machine.values = t.machine.values ∧
      s.results = [.success 1, .success 2, .success 3] ∧
      s.machine.values.toList = [([2], [6])]) := by
  have hbo := replicas_agree apartEntries (by decide) .empty (by decide +kernel)
  constructor
  · have hru : ∃ s t, (fileReplica emptyFile apartEntries).Reach FileApart s ∧
        (fileReplica emptyFile apartEntries).Reach FileApart t ∧ s.Settled nanosPerSec ∧ t.Settled nanosPerSec ∧
        s.results = [.success 1, .success 2, .success 3] ∧
        s.machine.values.toList = [([2], [6])] := Machine.exists_reach_pair_of_runIf
      [.evaluate .still 1, .update, .collect [[1]] nanosPerSec, .delete 0, .evaluate .still 2, .update]
      [.evaluate .still 3, .update, .collect [[1]] nanosPerSec, .delete 0] rfl (by decide +kernel)
    obtain ⟨s, t, hs, ht, hse, hse', hre, hva⟩ := hru
    obtain ⟨hsa, hda⟩ := hbo.1 emptyFile rfl s t hs ht hse.1 hse'.1
    exact ⟨s, t, hsa, hda nanosPerSec hse.2.1 hse'.2.1 hse.2.2 hse'.2.2, hre,
      hva⟩
  · have hru : ∃ s t, (rocksReplica emptyRocks apartEntries).Reach RocksApart s ∧
        (rocksReplica emptyRocks apartEntries).Reach RocksApart t ∧ s.Settled nanosPerSec ∧ t.Settled nanosPerSec ∧
        s.results = [.success 1, .success 2, .success 3] ∧
        s.machine.values.toList = [([2], [6])] := Machine.exists_reach_pair_of_runIf
      [.batch (fun _ => 0) 1, .write, .collect [[1]] nanosPerSec, .delete 0, .batch (fun _ => 0) 2, .write]
      [.batch (fun _ => 0) 3, .write, .collect [[1]] nanosPerSec, .delete 0] rfl (by decide +kernel)
    obtain ⟨s, t, hs, ht, hse, hse', hre, hva⟩ := hru
    obtain ⟨hsa, hda⟩ := hbo.2 emptyRocks ⟨rfl, rfl⟩ rfl s t hs ht hse.1 hse'.1
    exact ⟨s, t, hsa, hda nanosPerSec hse.2.1 hse'.2.1 hse.2.2 hse'.2.2, hre,
      hva⟩

/-- A compare-and-swap sees whether a cleanup has run; a value without a time to live is deleted
by the lease of the value before it; a value is deleted that was written while a cleanup was under
way; a replica that applies an entry later keeps its key longer; a lease of RocksDB is cleaned up
before the value is written. -/
theorem replicas_diverge :
    (∃ s t, (fileReplica emptyFile [shortLived, ⟨2, 1, .compareAndSwap [1] none [8]⟩]).Reach
        FileApart s ∧
      (fileReplica emptyFile [shortLived, ⟨2, 1, .compareAndSwap [1] none [8]⟩]).Reach
        FileApart t ∧
      s.Settled nanosPerSec ∧ t.Settled nanosPerSec ∧ s.results ≠ t.results) ∧
    (∃ s t, (fileReplica emptyFile [shortLived, ⟨2, 1, .insert [1] [8] none⟩]).Reach FileApart s ∧
      (fileReplica emptyFile [shortLived, ⟨2, 1, .insert [1] [8] none⟩]).Reach FileApart t ∧
      s.Settled nanosPerSec ∧ t.Settled nanosPerSec ∧ s.machine.values ≠ t.machine.values) ∧
    (Unmixed [] reusedKey ∧
      ∃ s t, (fileReplica emptyFile reusedKey).Reach (fun _ _ => True) s ∧
        (fileReplica emptyFile reusedKey).Reach (fun _ _ => True) t ∧
        s.Settled nanosPerSec ∧ t.Settled nanosPerSec ∧ s.machine.values ≠ t.machine.values) ∧
    (∃ s t, (fileReplica emptyFile [⟨1, 1, .insert [1] [7] (some 1)⟩]).Reach FileApart s ∧
      (fileReplica emptyFile [⟨1, 1, .insert [1] [7] (some 1)⟩]).Reach FileApart t ∧
      s.Done ∧ t.Done ∧ CleanedUp (5 * nanosPerSec) s.machine.lease s.collected ∧
      CleanedUp (5 * nanosPerSec) t.machine.lease t.collected ∧
      s.machine.values ≠ t.machine.values) ∧
    (∃ s t, (rocksReplica emptyRocks [shortLived]).Reach (fun _ _ => True) s ∧
      (rocksReplica emptyRocks [shortLived]).Reach (fun _ _ => True) t ∧
      s.Settled nanosPerSec ∧ t.Settled nanosPerSec ∧ s.machine.values ≠ t.machine.values) := by
  refine ⟨?_, ?_, ⟨by decide, ?_⟩, ?_, ?_⟩
  · exact Machine.exists_reach_pair_of_runIf
      [.evaluate .still 1, .update, .collect [[1]] nanosPerSec, .delete 0, .evaluate .still 1, .update]
      [.evaluate .still 2, .update, .collect [[1]] nanosPerSec, .delete 0] rfl (by decide +kernel)
  · exact Machine.exists_reach_pair_of_runIf
      [.evaluate .still 1, .update, .collect [[1]] nanosPerSec, .delete 0, .evaluate .still 1, .update]
      [.evaluate .still 2, .update, .collect [[1]] nanosPerSec, .delete 0] rfl (by decide +kernel)
  · exact Machine.exists_reach_pair_of_runIf
      [.evaluate .still 1, .update, .collect [[1]] nanosPerSec, .evaluate .still 2, .update, .delete 0]
      [.evaluate .still 3, .update] rfl (by decide +kernel)
  · exact Machine.exists_reach_pair_of_runIf
      [.evaluate .still 1, .update, .collect [[1]] (5 * nanosPerSec), .delete 0]
      [.evaluate ⟨fun _ => 0, fun _ => 9 * nanosPerSec, 0⟩ 1, .update] rfl (by decide +kernel)
  · exact Machine.exists_reach_pair_of_runIf
      [.batch (fun _ => 0) 1, .collect [[1]] nanosPerSec, .delete 0, .write]
      [.batch (fun _ => 0) 1, .write, .collect [[1]] nanosPerSec, .delete 0] rfl (by decide +kernel)

end DEngine.Adaptors

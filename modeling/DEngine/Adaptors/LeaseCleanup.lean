import DEngine.Adaptors.TtlReplicas

/-!
# What cleanups delete

A cleanup collects the keys whose lease has run out, and deletes them later, whatever they hold by
then. A write without a time to live leaves the lease of its key alone.

## Implementation notes

The results are about states in which no chunk is under way, as behind the update of the file
store and behind the write of RocksDB, and about all runs from there.
-/

namespace DEngine.Adaptors

open Apply Library
open FileStateMachine (finishChunk_lease finishChunk_data updateAll_eq updateChunk updateChunk_eq
  evaluateChunk_outcomes)
open RocksDBStateMachine (batchChunk_start lease_moved db_moved deleteKeys chunkBatch)

/-! ## Entries that do not write a key -/

/-- The keys that an entry may write. -/
def writtenKeys (entry : ApplyEntry) : List Bytes := (entryWrites withTerm entry true).map Prod.fst

section Entries

variable {k : Bytes} {entry : ApplyEntry}

theorem getElem?_apply (h : k ∉ writtenKeys entry) (l : TtlLease) (now : Nat) :
    (l.apply now entry).keyToExpiry[k]? = l.keyToExpiry[k]? := by
  obtain ⟨index, term, command⟩ := entry
  cases command with
  | noop | compareAndSwap => rfl
  | insert key value ttlSecs =>
    have hne : key ≠ k := fun heq => h (by simp [writtenKeys, entryWrites, heq])
    cases ttlSecs with
    | none => rfl
    | some => exact (KeyMap.getElem?_insert_eq ..).trans (if_neg hne)
  | delete key =>
    have hne : key ≠ k := fun heq => h (by simp [writtenKeys, entryWrites, heq])
    exact (getElem?_unregister l key k).trans (if_neg hne)
  | batch ops =>
    change (ops.foldl TtlLease.unregisterOp l).keyToExpiry[k]? = _
    induction ops generalizing l with
    | nil => rfl
    | cons op rest ih =>
      obtain ⟨hop, hre⟩ : k ≠ (opWrite withTerm term op).1 ∧
          k ∉ writtenKeys ⟨index, term, .batch rest⟩ := by
        simpa [writtenKeys, entryWrites] using h
      rw [List.foldl_cons, ih _ hre]
      cases op with
      | insert => rfl
      | delete key => exact (getElem?_unregister l key k).trans (if_neg (Ne.symm hop))

/-- The moment when a key expires. -/
def deadline (lease : Option TtlLease) (k : Bytes) : Option Nat :=
  lease.bind fun l => l.keyToExpiry[k]?

theorem deadline_leaseAfter {entries : List ApplyEntry} (h : ∀ e ∈ entries, k ∉ writtenKeys e)
    (registeredAt : Nat → Nat) (lease : Option TtlLease) :
    deadline (leaseAfter registeredAt lease entries) k = deadline lease k := by
  induction entries generalizing lease with
  | nil => rfl
  | cons entry rest ih =>
    refine (ih (fun e he => h e (List.mem_cons_of_mem _ he)) _).trans ?_
    cases lease with
    | none => rfl
    | some l => exact getElem?_apply (h entry List.mem_cons_self) l _

/-- The operations of a batch delete a key, or leave its lease alone. -/
theorem ops_cases (k : Bytes) (ops : List BatchOp) :
    (∀ (leased : List Bytes) (l : TtlLease), k ∉ ops.foldl leasedAfterOp leased ∧
      (ops.foldl TtlLease.unregisterOp l).keyToExpiry[k]? = none) ∨
    ∀ (leased : List Bytes) (l : TtlLease), (k ∈ ops.foldl leasedAfterOp leased ↔ k ∈ leased) ∧
      (ops.foldl TtlLease.unregisterOp l).keyToExpiry[k]? = l.keyToExpiry[k]? ∧
      (ops.foldl TtlLease.unregisterOp l).hasKeys = l.hasKeys := by
  induction ops with
  | nil => exact .inr fun _ _ => ⟨Iff.rfl, rfl, rfl⟩
  | cons op rest ih =>
    simp only [List.foldl_cons]
    rcases ih with ih | ih
    · exact .inl fun _ _ => ih _ _
    cases op with
    | insert => exact .inr fun _ _ => ih _ _
    | delete key =>
      have hun (l : TtlLease) := getElem?_unregister l key k
      by_cases hk : key = k
      · refine .inl fun leased l => ⟨fun hin => ?_, ?_⟩
        · exact (mem_leasedAfterOp_delete.mp ((ih _ l).1.mp hin)).2 hk.symm
        · exact (ih leased _).2.1.trans ((hun l).trans (if_pos hk))
      · refine .inr fun leased l => ⟨?_, ?_, (ih leased _).2.2⟩
        · rw [(ih _ l).1, mem_leasedAfterOp_delete]
          exact and_iff_left (Ne.symm hk)
        · exact (ih leased _).2.1.trans ((hun l).trans (if_neg hk))

/-- An entry leases a key, deletes it, or leaves its lease alone. -/
theorem entry_cases (k : Bytes) (entry : ApplyEntry) (now : Nat) :
    (∀ (leased : List Bytes) (l : TtlLease), k ∈ leasedAfter leased entry ∧
      ((l.apply now entry).keyToExpiry[k]?).isSome ∧ (l.apply now entry).hasKeys = true) ∨
    (∀ (leased : List Bytes) (l : TtlLease), k ∉ leasedAfter leased entry ∧
      (l.apply now entry).keyToExpiry[k]? = none) ∨
    ∀ (leased : List Bytes) (l : TtlLease), (k ∈ leasedAfter leased entry ↔ k ∈ leased) ∧
      (l.apply now entry).keyToExpiry[k]? = l.keyToExpiry[k]? ∧
      (l.hasKeys = true → (l.apply now entry).hasKeys = true) := by
  obtain ⟨index, term, command⟩ := entry
  cases command with
  | noop | compareAndSwap => exact .inr (.inr fun _ _ => ⟨Iff.rfl, rfl, id⟩)
  | insert key value ttlSecs =>
    cases ttlSecs with
    | none => exact .inr (.inr fun _ _ => ⟨Iff.rfl, rfl, id⟩)
    | some ttlSecs =>
      have hre (l : TtlLease) : ((l.register now key ttlSecs).keyToExpiry[k]?) =
          if key = k then some _ else l.keyToExpiry[k]? := KeyMap.getElem?_insert_eq ..
      by_cases hk : key = k
      · refine .inl fun leased l => ⟨hk ▸ List.mem_cons_self, ?_, rfl⟩
        change ((l.register now key ttlSecs).keyToExpiry[k]?).isSome
        rw [hre, if_pos hk]
        rfl
      · refine .inr (.inr fun leased l => ⟨?_, (hre l).trans (if_neg hk), fun _ => rfl⟩)
        exact List.mem_cons.trans (or_iff_right (Ne.symm hk))
  | delete key =>
    exact .inr ((ops_cases k [.delete key]).imp_right fun h leased l =>
      ⟨(h leased l).1, (h leased l).2.1, (h leased l).2.2.trans⟩)
  | batch ops =>
    exact .inr ((ops_cases k ops).imp_right fun h leased l =>
      ⟨(h leased l).1, (h leased l).2.1, (h leased l).2.2.trans⟩)

/-- Leases that follow the entries: a key that they do not lease has none. -/
def LeasedBy (done : List ApplyEntry) (k : Bytes) (lease : Option TtlLease) : Prop :=
  ∃ l, lease = some l ∧ (k ∉ done.foldl leasedAfter [] → l.keyToExpiry[k]? = none)

theorem LeasedBy.applied {done : List ApplyEntry} {lease : Option TtlLease}
    (h : LeasedBy done k lease) (registeredAt : Nat → Nat) (chunk : List ApplyEntry) :
    LeasedBy (done ++ chunk) k (leaseAfter registeredAt lease chunk) := by
  induction chunk generalizing done lease with
  | nil => rwa [List.append_nil]
  | cons e rest ih =>
    obtain ⟨l, rfl, hno⟩ := h
    rw [List.append_cons]
    refine ih (⟨_, rfl, fun hk => ?_⟩ : LeasedBy _ k (some (l.apply (registeredAt e.index) e)))
    rw [List.foldl_append] at hk
    rcases entry_cases k e (registeredAt e.index) with hc | hc | hc
    · exact absurd (hc _ l).1 hk
    · exact (hc [] l).2
    · rw [(hc [] l).2.1]
      exact hno fun hin => hk ((hc _ l).1.mpr hin)

/-- Entries that lease a key leave it with a lease. -/
theorem leased_leaseAfter {leased : List Bytes} {l : TtlLease} {entries : List ApplyEntry}
    (h : k ∈ leased → (l.keyToExpiry[k]?).isSome ∧ l.hasKeys = true)
    (hk : k ∈ entries.foldl leasedAfter leased) (registeredAt : Nat → Nat) :
    ∃ l', leaseAfter registeredAt (some l) entries = some l' ∧
      (l'.keyToExpiry[k]?).isSome ∧ l'.hasKeys = true := by
  induction entries generalizing leased l with
  | nil => exact ⟨l, rfl, h hk⟩
  | cons e rest ih =>
    refine ih (fun hin : k ∈ leasedAfter leased e => ?_) hk
    rcases entry_cases k e (registeredAt e.index) with hc | hc | hc
    · exact (hc leased l).2
    · exact absurd hin (hc leased l).1
    · obtain ⟨hso, hfl⟩ := h ((hc leased l).1.mp hin)
      rw [(hc leased l).2.1]
      exact ⟨hso, (hc leased l).2.2 hfl⟩

/-- A collection that comes too early for a key leaves it alone. -/
theorem collect_early {l : TtlLease} {now : Nat} (order : List Bytes)
    (h : ∀ e ∈ l.keyToExpiry[k]?, now < e) :
    (l.collect order now).2.keyToExpiry[k]? = l.keyToExpiry[k]? ∧
      ∀ keys ∈ (l.collect order now).1, k ∉ keys := by
  have hnot : k ∉ l.expiredKeys now := by
    rw [TtlLease.mem_expiredKeys]
    rintro ⟨e, he, hle⟩
    exact absurd (h e he) hle.not_gt
  have hkp : (l.getExpiredKeys now).2.keyToExpiry[k]? = l.keyToExpiry[k]? := by
    rw [TtlLease.getExpiredKeys, KeyMap.getElem?_writeAll_none, if_neg hnot]
  unfold TtlLease.collect
  split_ifs
  · refine ⟨hkp, fun keys hke => ?_⟩
    dsimp only [TtlLease.getExpiredKeys] at hke
    split_ifs at hke <;> cases hke
    exact hnot
  · exact ⟨rfl, by simp⟩
  · exact ⟨rfl, by simp⟩

theorem LeasedBy.collect {done : List ApplyEntry} {l : TtlLease} (h : LeasedBy done k (some l))
    (order : List Bytes) (now : Nat) : LeasedBy done k (some (l.collect order now).2) := by
  obtain ⟨_, ⟨⟩, hno⟩ := h
  refine ⟨_, rfl, fun hk => ?_⟩
  rw [(collect_early order (by simp [hno hk])).1]
  exact hno hk

end Entries

/-! ## A replica as its cleanups see it -/

/-- The cleanups of a replica, and what else happens to its leases and values. -/
structure LeasedReplica (S L : Type) where
  machine : Machine S L
  value : S → Bytes → Option Bytes
  lease : S → Option TtlLease
  collected : S → List (List Bytes)
  collect : List Bytes → Nat → L
  delete : Nat → L
  Open : S → Prop
  /-- The entries whose leases are not registered yet. -/
  pending : S → List ApplyEntry
  /-- The writes that are batched leave the key alone. -/
  Unbatched : Bytes → S → Prop
  isSome_lease {s : S} (h : Open s) : (lease s).isSome
  step_collect {s : S} {l : TtlLease} (h : Open s) (hlease : lease s = some l)
    (order : List Bytes) (now : Nat) : ∃ t, machine.step s (collect order now) = some t ∧
      Open t ∧ pending t = pending s ∧ (∀ k, Unbatched k s → Unbatched k t) ∧
      (∀ k, value t k = value s k) ∧ lease t = some (l.collect order now).2 ∧
      collected t = collected s ++ (l.collect order now).1.toList
  step_delete {s : S} {task : Nat} {keys : List Bytes} (h : Open s)
    (htask : (collected s)[task]? = some keys) : ∃ t, machine.step s (delete task) = some t ∧
      Open t ∧ pending t = pending s ∧ (∀ k, Unbatched k s → Unbatched k t) ∧
      (∀ k, (k ∈ keys → value t k = none) ∧ (k ∉ keys → value t k = value s k)) ∧
      lease t = lease s ∧ collected t = (collected s).eraseIdx task
  step_cases {s t : S} {l : L} (h : Open s) (hstep : machine.step s l = some t) :
    (∃ order now, l = collect order now) ∨
    (∃ task keys, l = delete task ∧ (collected s)[task]? = some keys) ∨
    Open t ∧ collected t = collected s ∧ ∃ registeredAt chunk, pending s = chunk ++ pending t ∧
      lease t = leaseAfter registeredAt (lease s) chunk ∧
      ∀ k, (∀ e ∈ chunk, k ∉ writtenKeys e) → Unbatched k s →
        Unbatched k t ∧ value t k = value s k

namespace LeasedReplica

variable {S L : Type} {r : LeasedReplica S L} {k v : Bytes} {s t : S} {D : Nat → Prop}

/-- No entry under way or to come writes the key. -/
structure Unwritten (r : LeasedReplica S L) (k : Bytes) (s : S) : Prop where
  isOpen : r.Open s
  pending : ∀ e ∈ r.pending s, k ∉ writtenKeys e
  unbatched : r.Unbatched k s

/-- No cleanup removes the key, as long as cleanups run at the given moments. -/
structure Keeps (r : LeasedReplica S L) (D : Nat → Prop) (k v : Bytes) (s : S) : Prop where
  unwritten : r.Unwritten k s
  value : r.value s k = some v
  later : ∀ e ∈ deadline (r.lease s) k, ∀ now, D now → now < e
  uncollected : ∀ keys ∈ r.collected s, k ∉ keys

/-- Cleanups run at the given moments. -/
def CollectsAt (r : LeasedReplica S L) (D : Nat → Prop) (_ : S) (l : L) : Prop :=
  ∀ order now, l = r.collect order now → D now

theorem Keeps.step {l : L} (h : r.Keeps D k v s) (hcn : r.CollectsAt D s l)
    (hst : r.machine.step s l = some t) : r.Keeps D k v t := by
  obtain ⟨⟨hop, hpe, hun⟩, hval, hla, hno⟩ := h
  rcases r.step_cases hop hst with ⟨order, now, rfl⟩ | ⟨task, keys, rfl, hta⟩ |
    ⟨hop', hco, registeredAt, chunk, hch, hle, hke⟩
  · obtain ⟨l, hls⟩ := Option.isSome_iff_exists.mp (r.isSome_lease hop)
    obtain ⟨_, hso, hop', hpe', hun', hval', hle, hco⟩ := r.step_collect hop hls order now
    cases hso.symm.trans hst
    rw [hls] at hla
    obtain ⟨hkp, hnot⟩ :=
      collect_early order fun e he => hla e he now (hcn order now rfl)
    refine ⟨⟨hop', hpe' ▸ hpe, hun' k hun⟩, (hval' k).trans hval, ?_, ?_⟩
    · rw [hle]
      exact fun e he => hla e (hkp.symm.trans he)
    · rw [hco]
      intro keys hke
      rcases List.mem_append.mp hke with hke | hke
      · exact hno keys hke
      · exact hnot keys (Option.mem_toList.mp hke)
  · obtain ⟨_, hso, hop', hpe', hun', hval', hle, hco⟩ := r.step_delete hop hta
    cases hso.symm.trans hst
    refine ⟨⟨hop', hpe' ▸ hpe, hun' k hun⟩, ?_, hle ▸ hla, ?_⟩
    · exact ((hval' k).2 (hno keys (List.mem_of_getElem? hta))).trans hval
    · rw [hco]
      exact fun keys hke => hno keys (List.mem_of_mem_eraseIdx hke)
  · rw [hch] at hpe
    have hwr : ∀ e ∈ chunk, k ∉ writtenKeys e := fun e he => hpe e (List.mem_append_left _ he)
    obtain ⟨hun', hval'⟩ := hke k hwr hun
    refine ⟨⟨hop', fun e he => hpe e (List.mem_append_right _ he), hun'⟩, hval'.trans hval, ?_,
      hco ▸ hno⟩
    rw [hle, deadline_leaseAfter hwr]
    exact hla

theorem Keeps.run {cond : S → L → Prop} (h : r.Keeps D k v s)
    (hco : ∀ s l, cond s l → r.CollectsAt D s l) (hrun : r.machine.Run cond s t) :
    r.Keeps D k v t := by
  induction hrun with
  | refl => exact h
  | tail _ hla ih =>
    obtain ⟨l, hl, hst⟩ := hla
    exact ih.step (hco _ l hl) hst

/-- The cleanups under way can come to their end. -/
theorem exists_run_deleted {cond : S → L → Prop} (hcn : ∀ s task, cond s (r.delete task))
    (h : r.Unwritten k s) : ∃ t, r.machine.Run cond s t ∧ r.collected t = [] ∧
      r.value t k = if k ∈ (r.collected s).flatten then none else r.value s k := by
  generalize hall : r.collected s = all
  induction all generalizing s with
  | nil => exact ⟨s, .refl, hall, by simp⟩
  | cons keys rest ih =>
    have hta : (r.collected s)[0]? = some keys := by simp [hall]
    obtain ⟨t, hst, hop, hpe, hun, hval, -, hco⟩ := r.step_delete h.isOpen hta
    obtain ⟨u, hrun, hno, hval'⟩ :=
      ih ⟨hop, hpe ▸ h.pending, hun k h.unbatched⟩ (by rw [hco, hall]; rfl)
    refine ⟨u, .head ⟨_, hcn s 0, hst⟩ hrun, hno, ?_⟩
    rw [hval']
    by_cases hke : k ∈ keys <;> simp [hke, hval]

theorem renewed_kept_iff {e : Nat} (hde : ∀ s task, r.CollectsAt (· < e) s (r.delete task))
    (h : r.Unwritten k s) (hval : r.value s k = some v) (hls : deadline (r.lease s) k = some e) :
    (∀ t, r.machine.Run (r.CollectsAt (· < e)) s t → r.collected t = [] → r.value t k = some v) ↔
      ∀ keys ∈ r.collected s, k ∉ keys := by
  constructor
  · intro hke keys hky hk
    obtain ⟨t, hrun, hno, hval'⟩ := exists_run_deleted hde h
    rw [if_pos (List.mem_flatten.mpr ⟨keys, hky, hk⟩)] at hval'
    cases hval'.symm.trans (hke t hrun hno)
  · intro hnot t hrun _
    refine (Keeps.run ⟨h, hval, ?_, hnot⟩ (fun _ _ hl => hl) hrun).value
    rw [hls]
    rintro _ ⟨⟩ now hnow
    exact hnow

/-- A cleanup at the deadline that looks at the key first removes it. -/
theorem exists_cleaned (h : r.Open s) (hno : r.collected s = []) {l : TtlLease}
    (hls : r.lease s = some l) (hso : (l.keyToExpiry[k]?).isSome) (hfl : l.hasKeys = true) :
    ∃ t, r.machine.Run (fun _ _ => True) s t ∧ r.value t k = none := by
  obtain ⟨e, hget⟩ := Option.isSome_iff_exists.mp hso
  have hmem : k ∈ l.expiredKeys e := TtlLease.mem_expiredKeys.mpr ⟨e, hget, le_rfl⟩
  have hcl : (l.collect [k] e).1 = some (l.expiredKeys e) := by
    simp [TtlLease.collect, TtlLease.hasLeaseKeys, TtlLease.mayHaveExpiredKeys,
      TtlLease.getExpiredKeys, hfl, hget, List.ne_nil_of_mem hmem]
  obtain ⟨t, hst, hop, -, -, -, -, hco⟩ := r.step_collect h hls [k] e
  have hta : (r.collected t)[0]? = some (l.expiredKeys e) := by simp [hco, hno, hcl]
  obtain ⟨u, hst', -, -, -, hgo, -⟩ := r.step_delete hop hta
  exact ⟨u, .tail (.single ⟨_, trivial, hst⟩) ⟨_, trivial, hst'⟩, (hgo k).1 hmem⟩

/-- The leases follow the entries that are not pending. -/
theorem leasedBy_of_reach {entries : List ApplyEntry}
    (hin : ∀ s, r.machine.init s → r.Open s ∧ r.pending s = entries ∧ r.lease s = some .empty)
    (h : r.machine.Reach (fun _ _ => True) s) :
    r.Open s ∧ ∃ done, entries = done ++ r.pending s ∧ LeasedBy done k (r.lease s) := by
  refine h.invariant (I := fun s => r.Open s ∧
    ∃ done, entries = done ++ r.pending s ∧ LeasedBy done k (r.lease s)) ?_ ?_
  · intro s hs
    obtain ⟨hop, hpe, hls⟩ := hin s hs
    exact ⟨hop, [], hpe.symm, _, hls, fun _ => by simp [TtlLease.empty]⟩
  rintro s l t ⟨hop, done, hen, hle⟩ - hst
  rcases r.step_cases hop hst with ⟨order, now, rfl⟩ | ⟨task, keys, rfl, hta⟩ |
    ⟨hop', -, registeredAt, chunk, hch, hle', -⟩
  · obtain ⟨l, hls⟩ := Option.isSome_iff_exists.mp (r.isSome_lease hop)
    obtain ⟨_, hso, hop', hpe, -, -, hle', -⟩ := r.step_collect hop hls order now
    cases hso.symm.trans hst
    rw [hls] at hle
    exact ⟨hop', done, hpe ▸ hen, hle' ▸ hle.collect order now⟩
  · obtain ⟨_, hso, hop', hpe, -, -, hle', -⟩ := r.step_delete hop hta
    cases hso.symm.trans hst
    exact ⟨hop', done, hpe ▸ hen, hle' ▸ hle⟩
  · refine ⟨hop', done ++ chunk, ?_, hle' ▸ hle.applied registeredAt chunk⟩
    rw [List.append_assoc, ← hch]
    exact hen

/-- A key that the entries applied so far do not lease keeps its value. -/
theorem kept_of_unleased {entries applied : List ApplyEntry}
    (hin : ∀ s, r.machine.init s → r.Open s ∧ r.pending s = entries ∧ r.lease s = some .empty)
    (h : r.machine.Reach (fun _ _ => True) s) (hen : entries = applied ++ r.pending s)
    (hk : k ∉ applied.foldl leasedAfter []) (hno : ∀ keys ∈ r.collected s, k ∉ keys)
    (hpe : ∀ e ∈ r.pending s, k ∉ writtenKeys e) (hun : r.Unbatched k s)
    (hval : r.value s k = some v) (hrun : r.machine.Run (fun _ _ => True) s t) :
    r.value t k = some v := by
  obtain ⟨hop, done, hen', l, hls, hnone⟩ := leasedBy_of_reach (k := k) hin h
  obtain rfl := List.append_cancel_right (hen.symm.trans hen')
  have hke : r.Keeps (fun _ => True) k v s := by
    refine ⟨⟨hop, hpe, hun⟩, hval, ?_, hno⟩
    rw [hls]
    intro e he
    cases (hnone hk).symm.trans he
  exact (hke.run (fun _ _ _ _ _ _ => trivial) hrun).value

end LeasedReplica

/-! ## Both stores -/

theorem ne_of_writtenKeys {k : Bytes} {V : Type} {wrap : Nat → Bytes → V} {e : ApplyEntry}
    (h : k ∉ writtenKeys e) {casSuccess : Bool} {w : Write Bytes V}
    (hw : w ∈ entryWrites wrap e casSuccess) : w.1 ≠ k := by
  rintro rfl
  obtain ⟨index, term, command⟩ := e
  cases command with
  | batch ops =>
    obtain ⟨op, hop, rfl⟩ := List.mem_map.mp hw
    refine h (List.mem_map.mpr ⟨_, List.mem_map_of_mem hop, ?_⟩)
    cases op <;> rfl
  | _ => simp_all [writtenKeys, entryWrites]

def fileLeased (init : FileStateMachine) (entries : List ApplyEntry) :
    LeasedReplica FileReplica FileReplicaLabel where
  machine := fileReplica init entries
  value s k := s.machine.values[k]?
  lease s := s.machine.lease
  collected := FileReplica.collected
  collect := .collect
  delete := .delete
  Open s := s.machine.lease.isSome ∧ ∀ c ∈ s.evaluated, c.chunk.length ≤ c.outcomes.length
  pending s := s.evaluated.elim [] FileEvaluated.chunk ++ s.remaining
  Unbatched _ _ := True
  isSome_lease h := h.1
  step_collect h hlease order now :=
    ⟨_, Option.map_eq_some_iff.mpr ⟨_, hlease, rfl⟩, ⟨rfl, h.2⟩, rfl, fun _ => id, fun _ => rfl,
      rfl, rfl⟩
  step_delete h htask := by
    refine ⟨_, Option.map_eq_some_iff.mpr ⟨_, htask, rfl⟩, h, rfl, fun _ => id, fun k => ?_, rfl,
      rfl⟩
    simp only [FileStateMachine.values, KeyMap.getElem?_mapValues, KeyMap.getElem?_writeAll_none]
    exact ⟨fun hin => by simp [hin], fun hno => by simp [hno]⟩
  step_cases {s t l} h hstep := by
    obtain ⟨hlease, heval⟩ := h
    cases l with
    | collect order now => exact .inl ⟨order, now, rfl⟩
    | delete task =>
      obtain ⟨keys, htask, -⟩ := Option.map_eq_some_iff.mp hstep
      exact .inr (.inl ⟨task, keys, rfl, htask⟩)
    | evaluate clock count =>
      refine .inr (.inr ?_)
      simp only [fileReplica, FileReplica.step] at hstep
      split at hstep
      · next hid _ =>
          cases hstep
          refine ⟨⟨hlease, ?_⟩, rfl, clock.registeredAt, [], ?_, rfl, fun _ _ h => ⟨h, rfl⟩⟩
          · rintro _ ⟨⟩
            rw [evaluateChunk_outcomes]
            exact (length_serial _ _).ge
          · simp [hid]
      · cases hstep
    | update =>
      refine .inr (.inr ?_)
      simp only [fileReplica, FileReplica.step] at hstep
      cases hevaluated : s.evaluated with
      | none => simp [hevaluated] at hstep
      | some c =>
        obtain ⟨clock, chunk, highest, outcomes⟩ := c
        simp only [hevaluated, updateChunk, updateAll_eq
          (u := ⟨s.machine.data, s.machine.lease, []⟩) fun p _ => registers_of_lease hlease p.1,
          List.map_fst_zip (heval _ hevaluated)] at hstep
        cases hstep
        refine ⟨⟨?_, by rintro _ ⟨⟩⟩, rfl, clock.registeredAt, chunk, rfl, ?_,
          fun k hchunk h => ⟨h, ?_⟩⟩
        · rw [finishChunk_lease, isSome_leaseAfter]
          exact hlease
        · rw [finishChunk_lease]
        · simp only [FileStateMachine.values, finishChunk_data,
            KeyMap.getElem?_mapValues]
          rw [KeyMap.getElem?_writeAll_of_not_mem]
          intro w hw
          obtain ⟨p, hp, hw⟩ := List.mem_flatMap.mp hw
          exact ne_of_writtenKeys (hchunk p.1 (List.of_mem_zip hp).1) hw

def rocksLeased (init : RocksDBStateMachine) (entries : List ApplyEntry) :
    LeasedReplica RocksReplica RocksReplicaLabel where
  machine := rocksReplica init entries
  value s k := s.machine.values[k]?
  lease s := s.machine.lease
  collected := RocksReplica.collected
  collect := .collect
  delete := .delete
  Open s := s.machine.lease.isSome ∧ s.machine.db.isSome ∧
    s.remaining.Pairwise fun a b => a.index < b.index
  pending := RocksReplica.remaining
  Unbatched k s := ∀ b ∈ s.batched, b.batch.stateMachine[k]? = none
  isSome_lease h := h.1
  step_collect h hlease order now :=
    ⟨_, Option.map_eq_some_iff.mpr ⟨_, hlease, rfl⟩, ⟨rfl, h.2⟩, rfl, fun _ => id, fun _ => rfl,
      rfl, rfl⟩
  step_delete {s task keys} h htask := by
    obtain ⟨db, hdb⟩ := Option.isSome_iff_exists.mp h.2.1
    refine ⟨{ s with
      machine := { s.machine with db := some (deleteKeys db keys) }
      collected := s.collected.eraseIdx task }, ?_, ⟨h.1, rfl, h.2.2⟩, rfl, fun _ => id,
      fun k => ?_, rfl, rfl⟩
    · simp only [rocksReplica, RocksReplica.step, htask, hdb]
    · constructor <;> intro hmem <;> cases hcf : db.stateMachineCf <;>
        simp [RocksDBStateMachine.values, deleteKeys, hdb, hcf, hmem,
          KeyMap.getElem?_writeAll_none]
  step_cases {s t l} h hstep := by
    obtain ⟨hlease, hopen, hasc⟩ := h
    cases l with
    | collect order now => exact .inl ⟨order, now, rfl⟩
    | delete task =>
      simp only [rocksReplica, RocksReplica.step] at hstep
      split at hstep
      · next keys _ htask _ => exact .inr (.inl ⟨task, keys, rfl, htask⟩)
      · cases hstep
    | batch registeredAt count =>
      refine .inr (.inr ?_)
      simp only [rocksReplica, RocksReplica.step] at hstep
      split at hstep
      · next cf _ hcf =>
          rw [batchChunk_start cf.content (hasc.sublist (List.take_sublist ..))
            fun e _ => registers_of_lease hlease e] at hstep
          cases hstep
          refine ⟨⟨?_, hopen, hasc.sublist (List.drop_sublist ..)⟩, rfl, registeredAt,
            s.remaining.take count, (List.take_append_drop ..).symm, rfl,
            fun k hchunk _ => ⟨?_, rfl⟩⟩
          · rw [isSome_leaseAfter]
            exact hlease
          · rintro _ ⟨⟩
            refine (getElem?_deferred_of_not_mem (fun e he _ w hw => ?_) ∅).trans (by simp)
            exact ne_of_writtenKeys (hchunk e he) hw
      · cases hstep
    | write =>
      refine .inr (.inr ?_)
      simp only [rocksReplica, RocksReplica.step] at hstep
      split at hstep
      · next b db hbatched hdb =>
          cases hstep
          refine ⟨⟨?_, ?_, hasc⟩, rfl, fun _ => 0, [], rfl, lease_moved _,
            fun k _ hbat => ⟨nofun, ?_⟩⟩
          · rw [lease_moved]
            exact hlease
          · rw [db_moved]
            rfl
          · have hget : ∀ m : KeyMap Bytes Bytes, (b.batch.stateMachine.commit m)[k]? = m[k]? := by
              simp [Overlay.getElem?_commit, Overlay.get, hbat b hbatched]
            cases hcf : db.stateMachineCf <;>
              simp [RocksDBStateMachine.values, db_moved, Db.writeWbwi, hdb, hcf,
                hget]
      · cases hstep

/-! ## Runs without cleanups -/

section Straight

variable {entries : List ApplyEntry} {k : Bytes}

/-- A replica may apply all entries in one chunk. -/
theorem exists_applied_file {init : FileStateMachine} {l : TtlLease} (hls : init.lease = some l)
    (hasc : entries.Pairwise fun a b => a.index < b.index) :
    ∃ s, (fileReplica init entries).Reach (fun _ _ => True) s ∧ s.Done ∧ s.collected = [] ∧
      s.machine.values = (init.interpreter.run entries).2.values ∧
      s.machine.lease = leaseAfter ApplyClock.still.registeredAt (some l) entries := by
  have hre : ∀ e ∈ entries, Registers init.lease e := fun e _ =>
    registers_of_lease (by rw [hls]; rfl) e
  obtain ⟨sm', writes, hap, hin, -⟩ := FileStateMachine.applyChunk_refines hasc hre .still
  rw [FileStateMachine.applyChunk_eq hasc hre] at hap
  simp only [Except.ok.injEq, Prod.mk.injEq] at hap
  obtain ⟨hrs, hsm, -⟩ := hap
  refine ⟨⟨sm', [], none, [], (init.interpreter.run entries).1⟩, ⟨_, rfl, .tail (b := ⟨init, [], some ⟨.still, entries, highestAfter none entries,
      (serialRun withTerm Prod.fst init.data entries).1⟩, [], []⟩)
    (.single ⟨.evaluate .still entries.length, trivial, ?_⟩) ⟨.update, trivial, ?_⟩⟩,
    ⟨rfl, rfl⟩, rfl, congrArg Interpreter.values hin, ?_⟩
  · simp only [fileReplica, FileReplica.step, List.take_length, List.drop_length,
      foldlM_nextHighest hasc (by simp : ∀ prev ∈ (none : Option LogId), _),
      evaluateChunk_outcomes]
  · simp only [fileReplica, FileReplica.step, updateChunk_eq hre, hrs,
      List.nil_append]
    rw [← hsm]
    rfl
  · rw [← hsm, finishChunk_lease, ← hls]
    rfl

theorem exists_applied_rocks {init : RocksDBStateMachine} {l : TtlLease} (hop : init.IsOpen)
    (hls : init.lease = some l) (hasc : entries.Pairwise fun a b => a.index < b.index) :
    ∃ s, (rocksReplica init entries).Reach (fun _ _ => True) s ∧ s.Done ∧ s.collected = [] ∧
      s.machine.IsOpen ∧ s.machine.values = (init.interpreter.run entries).2.values ∧
      s.machine.lease = leaseAfter (fun _ => 0) (some l) entries := by
  have hre : ∀ e ∈ entries, Registers init.lease e := fun e _ =>
    registers_of_lease (by rw [hls]; rfl) e
  obtain ⟨sm', hap, hin, hop', hls'⟩ :=
    RocksDBStateMachine.applyChunk_refines hop hasc hre fun _ => 0
  obtain ⟨db, cf, metaCf, hdb, hcf, hme⟩ := hop.exists_db
  rw [RocksDBStateMachine.applyChunk_eq hdb hcf hme hasc hre] at hap
  simp only [Except.ok.injEq, Prod.mk.injEq] at hap
  obtain ⟨hrs, hsm⟩ := hap
  refine ⟨⟨sm', [], none, [], (init.interpreter.run entries).1⟩, ⟨_, rfl, .tail
    (b := ⟨{ init with lease := leaseAfter (fun _ => 0) init.lease entries }, [],
      some ⟨⟨(chunkBatch cf.content entries).stateMachine, none⟩,
        highestAfter none entries, leaseAfter (fun _ => 0) init.lease entries,
        List.zipWith entryResult entries (serialRun (fun _ v => v) id cf.content entries).1⟩,
      [], []⟩)
    (.single ⟨.batch (fun _ => 0) entries.length, trivial, ?_⟩) ⟨.write, trivial, ?_⟩⟩,
    ⟨rfl, rfl⟩, rfl, hop', congrArg Interpreter.values hin, hls ▸ hls'⟩
  · simp only [rocksReplica, RocksReplica.step, hdb, Option.bind_some, hcf, List.take_length,
      List.drop_length, batchChunk_start cf.content hasc hre]
  · simp only [rocksReplica, RocksReplica.step, hdb, hrs, List.nil_append]
    rw [← hsm]
    rfl

end Straight

section Results

variable (init : FileStateMachine) (rocks : RocksDBStateMachine) (entries : List ApplyEntry)
  {k v : Bytes}

/-- From empty leases: behind its last write a key keeps its value in every run, if no value with a
time to live was written to it since its last deletion and no cleanup under way has collected it.
Otherwise a cleanup may remove it behind the last entry. -/
theorem unleased_key_kept (hasc : entries.Pairwise fun a b => a.index < b.index) :
    (init.lease = some .empty →
      (∀ applied s, (fileReplica init entries).Reach (fun _ _ => True) s →
        entries = applied ++ s.remaining → s.evaluated = none →
        k ∉ applied.foldl leasedAfter [] → (∀ keys ∈ s.collected, k ∉ keys) →
        (∀ e ∈ s.remaining, k ∉ writtenKeys e) → s.machine.values[k]? = some v →
        ∀ t, (fileReplica init entries).Run (fun _ _ => True) s t →
          t.machine.values[k]? = some v) ∧
      (k ∈ entries.foldl leasedAfter [] →
        ∃ s t, (fileReplica init entries).Reach (fun _ _ => True) s ∧ s.Done ∧
          s.machine.values = (init.interpreter.run entries).2.values ∧
          (fileReplica init entries).Run (fun _ _ => True) s t ∧
          t.machine.values[k]? = none)) ∧
    (rocks.IsOpen → rocks.lease = some .empty →
      (∀ applied s, (rocksReplica rocks entries).Reach (fun _ _ => True) s →
        entries = applied ++ s.remaining → s.batched = none →
        k ∉ applied.foldl leasedAfter [] → (∀ keys ∈ s.collected, k ∉ keys) →
        (∀ e ∈ s.remaining, k ∉ writtenKeys e) → s.machine.values[k]? = some v →
        ∀ t, (rocksReplica rocks entries).Run (fun _ _ => True) s t →
          t.machine.values[k]? = some v) ∧
      (k ∈ entries.foldl leasedAfter [] →
        ∃ s t, (rocksReplica rocks entries).Reach (fun _ _ => True) s ∧ s.Done ∧
          s.machine.values = (rocks.interpreter.run entries).2.values ∧
          (rocksReplica rocks entries).Run (fun _ _ => True) s t ∧
          t.machine.values[k]? = none)) := by
  have hnil {l : TtlLease} : k ∈ ([] : List Bytes) →
      (l.keyToExpiry[k]?).isSome ∧ l.hasKeys = true := fun hin => absurd hin List.not_mem_nil
  refine ⟨fun hls => ⟨?_, fun hk => ?_⟩, fun hop hls => ⟨?_, fun hk => ?_⟩⟩
  · intro applied s hs hen hid hk hno hrem hval t hrun
    have hpe : (fileLeased init entries).pending s = s.remaining := by simp [fileLeased, hid]
    refine (fileLeased init entries).kept_of_unleased ?_ hs (hpe ▸ hen) hk hno (hpe ▸ hrem)
      trivial hval hrun
    rintro _ rfl
    exact ⟨⟨by rw [hls]; rfl, nofun⟩, rfl, hls⟩
  · obtain ⟨s, hs, hdn, hno, hva, hle⟩ := exists_applied_file hls hasc
    obtain ⟨l, hl, hso, hfl⟩ := leased_leaseAfter hnil hk ApplyClock.still.registeredAt
    rw [hl] at hle
    obtain ⟨t, hrun, hgo⟩ := (fileLeased init entries).exists_cleaned
      ⟨by rw [hle]; rfl, by simp [Option.isNone_iff_eq_none.mp hdn.2]⟩ hno hle hso hfl
    exact ⟨s, t, hs, hdn, hva, hrun, hgo⟩
  · obtain ⟨db, -, -, hdb, -⟩ := hop.exists_db
    intro applied s hs hen hid hk hno hrem hval t hrun
    refine (rocksLeased rocks entries).kept_of_unleased ?_ hs hen hk hno hrem ?_ hval hrun
    · rintro _ rfl
      exact ⟨⟨by rw [hls]; rfl, by rw [hdb]; rfl, hasc⟩, rfl, hls⟩
    · simp [rocksLeased, hid]
  · obtain ⟨s, hs, hdn, hno, hop', hva, hle⟩ := exists_applied_rocks hop hls hasc
    obtain ⟨l, hl, hso, hfl⟩ := leased_leaseAfter hnil hk fun _ => 0
    rw [hl] at hle
    obtain ⟨db, -, -, hdb, -⟩ := hop'.exists_db
    obtain ⟨t, hrun, hgo⟩ := (rocksLeased rocks entries).exists_cleaned
      ⟨by rw [hle]; rfl, by rw [hdb]; rfl, by simp [hdn.1]⟩ hno hle hso hfl
    exact ⟨s, t, hs, hdn, hva, hrun, hgo⟩

/-- A key that had a time to live is deleted and used without one. -/
theorem reused_key_kept :
    ∃ s, (fileReplica emptyFile reusedKey).Reach (fun _ _ => True) s ∧ s.Done ∧
      ∀ t, (fileReplica emptyFile reusedKey).Run (fun _ _ => True) s t →
        t.machine.values[([1] : Bytes)]? = some [8] := by
  have hre : ∃ s, (fileReplica emptyFile reusedKey).Reach (fun _ _ => True) s ∧
      (s.Done ∧ s.collected = [] ∧ s.machine.values[([1] : Bytes)]? = some [8]) :=
    Machine.exists_reach_of_runIf [.evaluate .still 3, .update] rfl (by decide +kernel)
  obtain ⟨s, hs, hdn, hno, hval⟩ := hre
  refine ⟨s, hs, hdn, fun t hrun => ?_⟩
  exact ((unleased_key_kept emptyFile emptyRocks reusedKey (by decide)).1 rfl).1 reusedKey s hs
    (by rw [hdn.1, List.append_nil]) (Option.isNone_iff_eq_none.mp hdn.2) (by decide +kernel)
    (by simp [hno]) (by simp [hdn.1]) hval t hrun

/-- A value without a time to live is cleaned up by the lease of the value before it. -/
theorem overwritten_key_cleaned_up :
    (∃ t, (fileReplica emptyFile [shortLived, ⟨2, 1, .insert [1] [8] none⟩]).Reach FileApart t ∧
      t.Done ∧ t.results = [.success 1, .success 2] ∧
      t.machine.values[([1] : Bytes)]? = none) ∧
    ∃ t, (rocksReplica emptyRocks [shortLived, ⟨2, 1, .insert [1] [8] none⟩]).Reach RocksApart t ∧
      t.Done ∧ t.results = [.success 1, .success 2] ∧
      t.machine.values[([1] : Bytes)]? = none :=
  ⟨Machine.exists_reach_of_runIf [.evaluate .still 2, .update, .collect [[1]] nanosPerSec, .delete 0] rfl
      (by decide +kernel),
    Machine.exists_reach_of_runIf [.batch (fun _ => 0) 2, .write, .collect [[1]] nanosPerSec, .delete 0] rfl
      (by decide +kernel)⟩

/-- A key with a lease that runs out behind every collection is there when all cleanups are at
their end if and only if none of those under way has collected it. -/
theorem renewed_key_kept_iff {e : Nat} :
    (∀ s : FileReplica, deadline s.machine.lease k = some e → s.evaluated = none →
      (∀ e ∈ s.remaining, k ∉ writtenKeys e) → s.machine.values[k]? = some v →
      ((∀ t, (fileReplica init entries).Run
          (fun _ l => ∀ order now, l = .collect order now → now < e) s t → t.collected = [] →
        t.machine.values[k]? = some v) ↔ ∀ keys ∈ s.collected, k ∉ keys)) ∧
    ∀ s : RocksReplica, deadline s.machine.lease k = some e → s.machine.db.isSome →
      s.batched = none → (s.remaining.Pairwise fun a b => a.index < b.index) →
      (∀ e ∈ s.remaining, k ∉ writtenKeys e) → s.machine.values[k]? = some v →
      ((∀ t, (rocksReplica rocks entries).Run
          (fun _ l => ∀ order now, l = .collect order now → now < e) s t → t.collected = [] →
        t.machine.values[k]? = some v) ↔ ∀ keys ∈ s.collected, k ∉ keys) := by
  have hso : ∀ {lease : Option TtlLease}, deadline lease k = some e → lease.isSome := by
    rintro (_ | _) h
    · cases h
    · rfl
  constructor
  · intro s hls hid hrem hval
    exact (fileLeased init entries).renewed_kept_iff (fun _ _ _ _ => nofun)
      ⟨⟨hso hls, by simp [hid]⟩, by simpa [fileLeased, hid], trivial⟩ hval hls
  · intro s hls hop hid hasc hrem hval
    exact (rocksLeased rocks entries).renewed_kept_iff (fun _ _ _ _ => nofun)
      ⟨⟨hso hls, hop, hasc⟩, hrem, by simp [rocksLeased, hid]⟩ hval hls

/-- Cleanups in the first second keep a value with a time to live of one second. -/
theorem early_cleanups_keep :
    ∃ s, (fileReplica emptyFile [shortLived]).Reach (fun _ _ => True) s ∧ s.Done ∧
      ∀ t, (fileReplica emptyFile [shortLived]).Run
          (fun _ l => ∀ order now, l = .collect order now → now < nanosPerSec) s t →
        t.collected = [] → t.machine.values[([1] : Bytes)]? = some [7] := by
  have hre : ∃ s, (fileReplica emptyFile [shortLived]).Reach (fun _ _ => True) s ∧
      (s.Done ∧ s.collected = [] ∧ deadline s.machine.lease [1] = some nanosPerSec ∧
        s.machine.values[([1] : Bytes)]? = some [7]) :=
    Machine.exists_reach_of_runIf [.evaluate .still 1, .update] rfl (by decide +kernel)
  obtain ⟨s, hs, hdn, hno, hde, hval⟩ := hre
  refine ⟨s, hs, hdn, ((renewed_key_kept_iff emptyFile emptyRocks [shortLived]).1 s hde
    (Option.isNone_iff_eq_none.mp hdn.2) (by simp [hdn.1]) hval).mpr (by simp [hno])⟩

/-- A key is collected, gets a value with a time to live of five seconds, and is deleted. -/
theorem renewed_key_deleted :
    (∃ t, (fileReplica emptyFile [shortLived, ⟨2, 1, .insert [1] [8] (some 5)⟩]).Reach
        (fun _ _ => True) t ∧ t.Done ∧ t.collected = [] ∧
      deadline t.machine.lease [1] = some (6 * nanosPerSec) ∧
      t.machine.values[([1] : Bytes)]? = none) ∧
    ∃ t, (rocksReplica emptyRocks [shortLived, ⟨2, 1, .insert [1] [8] (some 5)⟩]).Reach
        (fun _ _ => True) t ∧ t.Done ∧ t.collected = [] ∧
      deadline t.machine.lease [1] = some (6 * nanosPerSec) ∧
      t.machine.values[([1] : Bytes)]? = none :=
  ⟨Machine.exists_reach_of_runIf [.evaluate .still 1, .update, .collect [[1]] nanosPerSec,
      .evaluate ⟨fun _ => 1, fun _ => nanosPerSec, 1⟩ 1, .update, .delete 0] rfl (by decide +kernel),
    Machine.exists_reach_of_runIf [.batch (fun _ => 0) 1, .write, .collect [[1]] nanosPerSec,
      .batch (fun _ => nanosPerSec) 1, .write, .delete 0] rfl (by decide +kernel)⟩

end Results

end DEngine.Adaptors

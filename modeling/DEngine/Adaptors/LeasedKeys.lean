import DEngine.Adaptors.Interpreter

/-!
# Keys with a time to live

Which keys have a time to live is decided by the entries alone: a value with one
makes its key leased, a deletion ends that. A cleanup forgets the lease of a key and
deletes the key, at moments that the clock of the replica decides. What the cleanups
of a replica cannot change are the values of the keys that are not leased, as long as
no entry compares a leased key or overwrites it without a time to live.

## Main definitions

* `Unmixed`: the entries keep leased keys and other keys apart.
* `UpToCleanup`: a store holds the values of a sequence of entries, apart from leased
  keys that it has deleted or is about to delete.
-/

namespace DEngine.Adaptors

open Apply Library

/-! ## Which keys are leased -/

def leasedAfterOp (leased : List Bytes) : BatchOp → List Bytes
  | .insert _ _ => leased
  | .delete key => leased.filter fun k => decide (k ≠ key)

def leasedAfter (leased : List Bytes) (entry : ApplyEntry) : List Bytes :=
  match entry.command with
  | .insert key _ (some _) => key :: leased
  | .delete key => leased.filter fun k => decide (k ≠ key)
  | .batch ops => ops.foldl leasedAfterOp leased
  | _ => leased

/-- An insertion of the batch leaves leased keys alone. -/
def OpsUnmixed : List Bytes → List BatchOp → Prop
  | _, [] => True
  | leased, .insert key _ :: rest => key ∉ leased ∧ OpsUnmixed leased rest
  | leased, .delete key :: rest => OpsUnmixed (leasedAfterOp leased (.delete key)) rest

def decidableOpsUnmixed : ∀ (leased : List Bytes) (ops : List BatchOp),
    Decidable (OpsUnmixed leased ops)
  | _, [] => inferInstanceAs (Decidable True)
  | leased, .insert _ _ :: rest =>
    have := decidableOpsUnmixed leased rest
    inferInstanceAs (Decidable (_ ∧ _))
  | leased, .delete key :: rest => decidableOpsUnmixed (leasedAfterOp leased (.delete key)) rest

instance (leased : List Bytes) (ops : List BatchOp) : Decidable (OpsUnmixed leased ops) :=
  decidableOpsUnmixed leased ops

/-- A leased key is not compared, and not written without a time to live. -/
def EntryUnmixed (leased : List Bytes) (entry : ApplyEntry) : Prop :=
  match entry.command with
  | .insert key _ none => key ∉ leased
  | .compareAndSwap key _ _ => key ∉ leased
  | .batch ops => OpsUnmixed leased ops
  | _ => True

instance (leased : List Bytes) : ∀ entry : ApplyEntry, Decidable (EntryUnmixed leased entry)
  | ⟨_, _, .insert key _ none⟩ => inferInstanceAs (Decidable (key ∉ leased))
  | ⟨_, _, .compareAndSwap key _ _⟩ => inferInstanceAs (Decidable (key ∉ leased))
  | ⟨_, _, .batch ops⟩ => inferInstanceAs (Decidable (OpsUnmixed leased ops))
  | ⟨_, _, .insert _ _ (some _)⟩ | ⟨_, _, .delete _⟩ | ⟨_, _, .noop⟩ => isTrue trivial

def Unmixed : List Bytes → List ApplyEntry → Prop
  | _, [] => True
  | leased, entry :: rest => EntryUnmixed leased entry ∧ Unmixed (leasedAfter leased entry) rest

def decidableUnmixed : ∀ (leased : List Bytes) (entries : List ApplyEntry),
    Decidable (Unmixed leased entries)
  | _, [] => inferInstanceAs (Decidable True)
  | leased, entry :: rest =>
    have := decidableUnmixed (leasedAfter leased entry) rest
    inferInstanceAs (Decidable (_ ∧ _))

instance (leased : List Bytes) (entries : List ApplyEntry) : Decidable (Unmixed leased entries) :=
  decidableUnmixed leased entries

theorem unmixed_append {leased : List Bytes} {a b : List ApplyEntry} :
    Unmixed leased (a ++ b) ↔ Unmixed leased a ∧ Unmixed (a.foldl leasedAfter leased) b := by
  induction a generalizing leased with
  | nil => exact (and_iff_right trivial).symm
  | cons entry rest ih =>
    rw [List.cons_append, Unmixed, Unmixed, ih, List.foldl_cons, and_assoc]

/-! ## A store with cleanups -/

/-- The store holds the values, apart from leased keys that it has deleted. A leased key that it
still holds has a lease, or a cleanup has collected it. -/
structure UpToCleanup {V : Type} (leased : List Bytes) (values data : KeyMap Bytes V)
    (keyToExpiry : KeyMap Bytes Nat) (collected : List (List Bytes)) : Prop where
  value : ∀ k, k ∉ leased → data[k]? = values[k]?
  unregistered : ∀ k, k ∉ leased → keyToExpiry[k]? = none
  kept : ∀ k, k ∉ leased → ∀ keys ∈ collected, k ∉ keys
  due : ∀ k, k ∈ leased →
    data[k]? = none ∨ (keyToExpiry[k]?).isSome ∨ ∃ keys ∈ collected, k ∈ keys

section Store

variable {V : Type} {leased : List Bytes} {values data values' data' : KeyMap Bytes V}
  {lease : TtlLease} {collected : List (List Bytes)}

/-- Behind the last cleanup the leased keys are gone. -/
theorem UpToCleanup.getElem?_data (h : UpToCleanup leased values data lease.keyToExpiry [])
    (hem : ∀ k : Bytes, lease.keyToExpiry[k]? = none) (k : Bytes) :
    data[k]? = if k ∈ leased then none else values[k]? := by
  split_ifs with hk
  · rcases h.due k hk with hno | hso | ⟨keys, hke, _⟩
    · exact hno
    · rw [hem k] at hso
      cases hso
    · exact absurd hke List.not_mem_nil
  · exact h.value k hk

/-! ### Entries -/

theorem mem_leasedAfterOp_delete {key k : Bytes} :
    k ∈ leasedAfterOp leased (.delete key) ↔ k ∈ leased ∧ k ≠ key := by
  simp [leasedAfterOp]

theorem getElem?_unregister (lease : TtlLease) (key k : Bytes) :
    (lease.unregister key).keyToExpiry[k]? = if key = k then none else lease.keyToExpiry[k]? :=
  KeyMap.getElem?_erase_eq lease.keyToExpiry key k

/-- A key that is not leased gets a value. -/
theorem UpToCleanup.insert (h : UpToCleanup leased values data lease.keyToExpiry []) {key : Bytes}
    (hkey : key ∉ leased) (v : V) :
    UpToCleanup leased (values.insert key v) (data.insert key v) lease.keyToExpiry [] where
  value := fun k hk => by
    rw [KeyMap.getElem?_insert_eq, KeyMap.getElem?_insert_eq, h.value k hk]
  unregistered := h.unregistered
  kept := h.kept
  due := fun k hk => by
    have hne : key ≠ k := fun heq => hkey (heq ▸ hk)
    rw [KeyMap.getElem?_insert_eq, if_neg hne]
    exact h.due k hk

/-- A key gets a value and a lease. -/
theorem UpToCleanup.register (h : UpToCleanup leased values data lease.keyToExpiry [])
    (now : Nat) (key : Bytes) (ttlSecs : Nat) (v : V) :
    UpToCleanup (key :: leased) (values.insert key v) (data.insert key v)
      (lease.register now key ttlSecs).keyToExpiry [] where
  value := fun k hk => by
    rw [KeyMap.getElem?_insert_eq, KeyMap.getElem?_insert_eq,
      h.value k fun hmem => hk (List.mem_cons_of_mem key hmem)]
  unregistered := fun k hk => by
    have hne : key ≠ k := fun heq => hk (heq ▸ List.mem_cons_self)
    rw [TtlLease.register, KeyMap.getElem?_insert_eq, if_neg hne]
    exact h.unregistered k fun hmem => hk (List.mem_cons_of_mem key hmem)
  kept := nofun
  due := fun k hk => by
    rw [TtlLease.register, KeyMap.getElem?_insert_eq, KeyMap.getElem?_insert_eq]
    by_cases hkey : key = k
    · rw [if_pos hkey, if_pos hkey]
      exact .inr (.inl rfl)
    · rw [if_neg hkey, if_neg hkey]
      exact h.due k ((List.mem_cons.mp hk).resolve_left (Ne.symm hkey))

/-- A key is deleted, and its lease with it. -/
theorem UpToCleanup.delete (h : UpToCleanup leased values data lease.keyToExpiry [])
    (key : Bytes) :
    UpToCleanup (leasedAfterOp leased (.delete key)) (values.erase key) (data.erase key)
      (lease.unregister key).keyToExpiry [] where
  value := fun k hk => by
    rw [KeyMap.getElem?_erase_eq, KeyMap.getElem?_erase_eq]
    split_ifs with hkey
    · rfl
    · exact h.value k fun hmem => hk (mem_leasedAfterOp_delete.mpr ⟨hmem, Ne.symm hkey⟩)
  unregistered := fun k hk => by
    rw [getElem?_unregister]
    split_ifs with hkey
    · rfl
    · exact h.unregistered k fun hmem => hk (mem_leasedAfterOp_delete.mpr ⟨hmem, Ne.symm hkey⟩)
  kept := nofun
  due := fun k hk => by
    obtain ⟨hmem, hkey⟩ := mem_leasedAfterOp_delete.mp hk
    rw [KeyMap.getElem?_erase_eq, getElem?_unregister, if_neg (Ne.symm hkey),
      if_neg (Ne.symm hkey)]
    exact h.due k hmem

theorem UpToCleanup.batch {wrap : Nat → Bytes → V}
    (h : UpToCleanup leased values data lease.keyToExpiry []) {ops : List BatchOp}
    (hops : OpsUnmixed leased ops) (term : Nat) :
    UpToCleanup (ops.foldl leasedAfterOp leased) (values.writeAll (ops.map (opWrite wrap term)))
      (data.writeAll (ops.map (opWrite wrap term)))
      (ops.foldl TtlLease.unregisterOp lease).keyToExpiry [] := by
  induction ops generalizing leased values data lease with
  | nil => exact h
  | cons op rest ih =>
    cases op with
    | insert => exact ih (h.insert hops.1 _) hops.2
    | delete key => exact ih (h.delete key) hops

/-- An entry decides alike on the values and on the store, and keeps them up to cleanups. -/
theorem UpToCleanup.entry (h : UpToCleanup leased values data lease.keyToExpiry [])
    {entry : ApplyEntry} (hen : EntryUnmixed leased entry) (wrap : Nat → Bytes → V)
    (unwrap : V → Bytes) (now : Nat) :
    casSucceeds unwrap entry (fun k => data[k]?) =
      casSucceeds unwrap entry (fun k => values[k]?) ∧
    ∀ outcome, UpToCleanup (leasedAfter leased entry)
      (values.writeAll (entryWrites wrap entry outcome))
      (data.writeAll (entryWrites wrap entry outcome)) (lease.apply now entry).keyToExpiry [] := by
  obtain ⟨index, term, command⟩ := entry
  cases command with
  | noop => exact ⟨rfl, fun _ => h⟩
  | insert key value ttlSecs =>
    cases ttlSecs with
    | none => exact ⟨rfl, fun _ => h.insert hen _⟩
    | some ttlSecs => exact ⟨rfl, fun _ => h.register now key ttlSecs _⟩
  | delete key => exact ⟨rfl, fun _ => h.delete key⟩
  | batch => exact ⟨rfl, fun _ => h.batch hen term⟩
  | compareAndSwap key expected value =>
    constructor
    · simp only [casSucceeds, h.value key hen]
    · rintro (_ | _)
      · exact h
      · exact h.insert hen _

/-- A chunk decides alike on the values and on the store, and keeps them up to cleanups. -/
theorem UpToCleanup.serialRun (h : UpToCleanup leased values data lease.keyToExpiry [])
    {entries : List ApplyEntry} (hen : Unmixed leased entries) (wrap : Nat → Bytes → V)
    (unwrap : V → Bytes) (registeredAt : Nat → Nat) :
    (serialRun wrap unwrap data entries).1 = (serialRun wrap unwrap values entries).1 ∧
    ∃ lease', leaseAfter registeredAt (some lease) entries = some lease' ∧
      UpToCleanup (entries.foldl leasedAfter leased) (serialRun wrap unwrap values entries).2
        (serialRun wrap unwrap data entries).2 lease'.keyToExpiry [] := by
  induction entries generalizing leased values data lease with
  | nil => exact ⟨rfl, lease, rfl, h⟩
  | cons entry rest ih =>
    obtain ⟨hde, hwr⟩ := h.entry hen.1 wrap unwrap (registeredAt entry.index)
    obtain ⟨hou, lease', hle', hre⟩ :=
      ih (hwr (casSucceeds unwrap entry fun k => values[k]?)) hen.2
    simp only [serial, hde]
    exact ⟨congrArg (List.cons _) hou, lease', hle', hre⟩

/-! ### Cleanups -/

/-- A cleanup collects keys and forgets their leases. -/
theorem UpToCleanup.collect (h : UpToCleanup leased values data lease.keyToExpiry collected)
    (now : Nat) :
    UpToCleanup leased values data (lease.getExpiredKeys now).2.keyToExpiry
      (collected ++ [lease.expiredKeys now]) where
  value := h.value
  unregistered := fun k hk => by
    rw [TtlLease.getExpiredKeys, KeyMap.getElem?_writeAll_none, h.unregistered k hk, ite_self]
  kept := fun k hk keys hke => by
    rcases List.mem_append.mp hke with hold | hnew
    · exact h.kept k hk keys hold
    · rw [List.mem_singleton.mp hnew, TtlLease.mem_expiredKeys]
      rintro ⟨expireAt, hget, _⟩
      rw [h.unregistered k hk] at hget
      cases hget
  due := fun k hk => by
    rw [TtlLease.getExpiredKeys, KeyMap.getElem?_writeAll_none]
    by_cases hexp : k ∈ lease.expiredKeys now
    · exact .inr (.inr ⟨_, List.mem_append_right collected List.mem_cons_self, hexp⟩)
    · rw [if_neg hexp]
      rcases h.due k hk with hno | hso | ⟨keys, hke, hmem⟩
      · exact .inl hno
      · exact .inr (.inl hso)
      · exact .inr (.inr ⟨keys, List.mem_append_left _ hke, hmem⟩)

/-- A cleanup that collected nothing can be left out. -/
theorem UpToCleanup.of_nil {keyToExpiry : KeyMap Bytes Nat}
    (h : UpToCleanup leased values data keyToExpiry (collected ++ [[]])) :
    UpToCleanup leased values data keyToExpiry collected where
  value := h.value
  unregistered := h.unregistered
  kept := fun k hk keys hke => h.kept k hk keys (List.mem_append_left _ hke)
  due := fun k hk => by
    rcases h.due k hk with hno | hso | ⟨keys, hke, hmem⟩
    · exact .inl hno
    · exact .inr (.inl hso)
    · rcases List.mem_append.mp hke with hold | hnew
      · exact .inr (.inr ⟨keys, hold, hmem⟩)
      · rw [List.mem_singleton.mp hnew] at hmem
        exact absurd hmem List.not_mem_nil

/-- A cleanup deletes what it has collected. -/
theorem UpToCleanup.eraseIdx (h : UpToCleanup leased values data lease.keyToExpiry collected)
    {task : Nat} {keys : List Bytes} (hta : collected[task]? = some keys) :
    UpToCleanup leased values (data.writeAll (keys.map fun k => (k, none))) lease.keyToExpiry
      (collected.eraseIdx task) where
  value := fun k hk => by
    rw [KeyMap.getElem?_writeAll_none, if_neg (h.kept k hk keys (List.mem_of_getElem? hta)),
      h.value k hk]
  unregistered := h.unregistered
  kept := fun k hk other hot => h.kept k hk other (List.mem_of_mem_eraseIdx hot)
  due := fun k hk => by
    rw [KeyMap.getElem?_writeAll_none]
    by_cases hke : k ∈ keys
    · exact .inl (if_pos hke)
    · rw [if_neg hke]
      rcases h.due k hk with hno | hso | ⟨other, hot, hmem⟩
      · exact .inl hno
      · exact .inr (.inl hso)
      · have hne : other ≠ keys := fun heq => hke (heq ▸ hmem)
        obtain ⟨j, hj⟩ := List.mem_iff_getElem?.mp hot
        have hjne : j ≠ task := by
          rintro rfl
          exact hne (Option.some.inj (hj.symm.trans hta))
        exact .inr (.inr ⟨other, List.mem_eraseIdx_iff_getElem?.mpr ⟨j, hjne, hj⟩, hmem⟩)

end Store

end DEngine.Adaptors

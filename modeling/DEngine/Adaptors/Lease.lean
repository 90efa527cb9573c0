import DEngine.Apply.Command
import DEngine.Library.KeyMap

/-!
# Leases

A lease keeps the moment when each registered key expires. It never touches the
values themselves: a cleanup asks for the keys that have expired, which forgets
them, and deletes them from the store.

## Implementation notes

A moment is a number of nanoseconds without an upper bound. The iteration order of
the concurrent map is a choice of its surroundings: it decides which ten entries the
quick check looks at.
-/

namespace DEngine.Adaptors

open Apply Library

def nanosPerSec : Nat := 1000000000

structure TtlLease where
  keyToExpiry : KeyMap Bytes Nat
  hasKeys : Bool

/-- The leases that have not run out. -/
def unexpired (now : Nat) (leases : KeyMap Bytes Nat) : KeyMap Bytes Nat :=
  leases.filter fun _ expireAt => decide (now < expireAt)

namespace TtlLease

/-- A lease without a registered key. -/
def empty : TtlLease := ⟨∅, false⟩

def register (l : TtlLease) (now : Nat) (key : Bytes) (ttlSecs : Nat) : TtlLease where
  keyToExpiry := l.keyToExpiry.insert key (now + ttlSecs * nanosPerSec)
  hasKeys := true

def unregister (l : TtlLease) (key : Bytes) : TtlLease :=
  { l with keyToExpiry := l.keyToExpiry.erase key }

def hasLeaseKeys (l : TtlLease) : Bool := l.hasKeys

/-- The keys whose moment has come. -/
def expiredKeys (l : TtlLease) (now : Nat) : List Bytes :=
  (l.keyToExpiry.toList.filter fun p => decide (p.2 ≤ now)).map Prod.fst

/-- Collect the expired keys, then remove them. -/
def getExpiredKeys (l : TtlLease) (now : Nat) : List Bytes × TtlLease :=
  let toRemove := l.expiredKeys now
  (toRemove, { l with keyToExpiry := l.keyToExpiry.writeAll (toRemove.map fun k => (k, none)) })

/-- Look at the first ten entries of the iteration order. -/
def mayHaveExpiredKeys (l : TtlLease) (order : List Bytes) (now : Nat) : Bool :=
  l.hasLeaseKeys &&
    (order.take 10).any fun k => (l.keyToExpiry[k]?).any fun expireAt => decide (expireAt ≤ now)

/-- Leases that have run out are not reloaded. -/
def reloaded (l : TtlLease) (now : Nat) (leases : KeyMap Bytes Nat) : TtlLease where
  keyToExpiry := unexpired now leases
  hasKeys := if (unexpired now leases).isEmpty then l.hasKeys else true

/-! ## Applying -/

def unregisterOp (l : TtlLease) : BatchOp → TtlLease
  | .insert _ _ => l
  | .delete key => l.unregister key

/-- What an applied entry does to the lease: a value with a time to live is registered, a deletion
unregisters its key, and every other write leaves the lease of its key as it is. -/
def apply (l : TtlLease) (now : Nat) (entry : ApplyEntry) : TtlLease :=
  match entry.command with
  | .insert key _ (some ttlSecs) => l.register now key ttlSecs
  | .delete key => l.unregister key
  | .batch ops => ops.foldl unregisterOp l
  | _ => l

/-! ## Which keys expire -/

theorem mem_expiredKeys {l : TtlLease} {now : Nat} {k : Bytes} :
    k ∈ l.expiredKeys now ↔ ∃ expireAt, l.keyToExpiry[k]? = some expireAt ∧ expireAt ≤ now := by
  unfold expiredKeys
  simp only [List.mem_map, List.mem_filter, decide_eq_true_eq, Prod.exists,
    Std.ExtTreeMap.mem_toList_iff_getElem?_eq_some]
  constructor
  · rintro ⟨j, expireAt, ⟨hget, hdue⟩, rfl⟩
    exact ⟨expireAt, hget, hdue⟩
  · rintro ⟨expireAt, hget, hdue⟩
    exact ⟨k, expireAt, ⟨hget, hdue⟩, rfl⟩

end TtlLease

/-- The part of `apply_chunk` that both stores share: a value with a time to live needs a lease. -/
def registerTtl (lease : Option TtlLease) (now : Nat) (key : Bytes) :
    Option Nat → Except Fault (Option TtlLease)
  | none => .ok lease
  | some ttlSecs =>
    match lease with
    | none => .error (.panic "lease always initialized by NodeBuilder")
    | some l => .ok (some (l.register now key ttlSecs))

/-- The entry can be registered: it has no time to live, or there is a lease. -/
def Registers (lease : Option TtlLease) (entry : ApplyEntry) : Prop :=
  match entry.command with
  | .insert _ _ (some _) => lease.isSome
  | _ => True

/-- The time to live that an entry asks for. -/
def ttlSecs (entry : ApplyEntry) : Option Nat :=
  match entry.command with
  | .insert _ _ ttlSecs => ttlSecs
  | _ => none

variable {entry : ApplyEntry}

theorem registers_of_ttlSecs (h : ttlSecs entry = none)
    (lease : Option TtlLease) : Registers lease entry := by
  obtain ⟨index, term, command⟩ := entry
  cases command with
  | insert =>
    cases h
    trivial
  | _ => trivial

variable {lease : Option TtlLease}

theorem registers_of_lease (h : lease.isSome) (entry : ApplyEntry) : Registers lease entry := by
  unfold Registers
  split
  · exact h
  · trivial

theorem Registers.of_isSome {lease' : Option TtlLease}
    (h : Registers lease entry) (hso : lease.isSome → lease'.isSome) : Registers lease' entry := by
  unfold Registers at *
  split at h
  · exact hso h
  · trivial

/-- The leases behind a sequence of applied entries. -/
def leaseAfter (registeredAt : Nat → Nat) (lease : Option TtlLease) (entries : List ApplyEntry) :
    Option TtlLease :=
  entries.foldl (fun lease entry => lease.map (TtlLease.apply · (registeredAt entry.index) entry))
    lease

theorem isSome_leaseAfter (registeredAt : Nat → Nat) (lease : Option TtlLease)
    (entries : List ApplyEntry) :
    (leaseAfter registeredAt lease entries).isSome = lease.isSome := by
  unfold leaseAfter
  induction entries generalizing lease with
  | nil => rfl
  | cons entry rest ih =>
    rw [List.foldl_cons, ih, Option.isSome_map]

/-- The lease follows an entry that can be registered. -/
theorem registerTtl_of_registers {index term : Nat} {key value : Bytes}
    {ttlSecs : Option Nat} (h : Registers lease ⟨index, term, .insert key value ttlSecs⟩)
    (now : Nat) :
    registerTtl lease now key ttlSecs =
      .ok (lease.map (TtlLease.apply · now ⟨index, term, .insert key value ttlSecs⟩)) := by
  cases ttlSecs with
  | none => cases lease <;> rfl
  | some =>
    cases lease with
    | none => cases h
    | some => rfl

end DEngine.Adaptors

import DEngine.Proto
import Mathlib.Data.Nat.Bitwise

/-!
# The read lease

A lease packs the lower sixteen bits of a term and a deadline of 48 bits into one
word. It is renewed when a quorum is confirmed, revoked when the term changes,
and holds for a leader of its term until the deadline.
-/

namespace DEngine.Client

/-- The word that holds the lease; zero stands for no lease. -/
structure ReadLease where
  packed : Nat
deriving DecidableEq, Repr

namespace ReadLease

def deadlineMask : Nat := 1 <<< 48 - 1

def termShift : Nat := 48

def termMask : Nat := 0xFFFF

/-- A deadline that does not fit is a failed assertion. -/
def pack (term deadlineMs : Nat) : Except Fault Nat :=
  if deadlineMs ≤ deadlineMask then
    .ok (((term &&& termMask) <<< termShift) ||| (deadlineMs &&& deadlineMask))
  else .error (.panic ("deadline_ms overflows 48 bits: " ++ toString deadlineMs))

def unpack (v : Nat) : Nat × Nat := (v >>> termShift, v &&& deadlineMask)

def new : ReadLease := ⟨0⟩

def renew (term deadlineMs : Nat) : Except Fault ReadLease :=
  match pack term deadlineMs with
  | .ok packed => .ok ⟨packed⟩
  | .error fault => .error fault

def revoke : ReadLease := ⟨0⟩

def isValidForLeader (lease : ReadLease) (currentTerm nowMs : Nat) : Bool :=
  let (term, deadline) := unpack lease.packed
  decide (term = currentTerm &&& termMask ∧ nowMs < deadline)

/-- The two parts of a packed word do not overlap. -/
theorem unpack_pack {term deadlineMs packed : Nat} (h : pack term deadlineMs = .ok packed) :
    unpack packed = (term &&& termMask, deadlineMs) := by
  unfold pack at h
  split_ifs at h with hle
  cases h
  have hlt : deadlineMs < 2 ^ 48 := by
    simp only [deadlineMask] at hle
    omega
  have hde : deadlineMs &&& deadlineMask = deadlineMs := by
    rw [deadlineMask, Nat.one_shiftLeft, Nat.and_two_pow_sub_one_eq_mod, Nat.mod_eq_of_lt hlt]
  rw [hde, unpack, termShift, ← Nat.shiftLeft_add_eq_or_of_lt hlt, deadlineMask,
    Nat.one_shiftLeft, Nat.and_two_pow_sub_one_eq_mod, Nat.shiftLeft_eq, Nat.shiftRight_eq_div_pow]
  generalize term &&& termMask = low
  rw [Prod.mk.injEq]
  omega

/-- A renewed lease holds for a leader of its term exactly until the deadline. -/
theorem isValidForLeader_renew {lease : ReadLease} {term deadlineMs : Nat}
    (h : renew term deadlineMs = .ok lease) (nowMs : Nat) :
    lease.isValidForLeader term nowMs = decide (nowMs < deadlineMs) := by
  unfold renew at h
  cases hpa : pack term deadlineMs with
  | error => simp [hpa] at h
  | ok =>
    rw [hpa] at h
    cases h
    simp [isValidForLeader, unpack_pack hpa]

end ReadLease

end DEngine.Client

import Mathlib.Data.List.Basic
import Mathlib.Data.List.Range
import Mathlib.Data.List.Infix

/-!
# Bounded channels

Two channels of fixed size that never make the sender wait. A broadcast channel
overwrites its oldest value, and the receiver is told how many it has missed. A mailbox
refuses what does not fit.

## Implementation notes

Both keep what has gone through them. A position in a broadcast channel is the place of
a value in the list of all values sent; only the last `capacity` of them can still be
read, and `recv` reads no other.
-/

namespace DEngine.Library

/-! ## Broadcast -/

/-- A broadcast channel with one receiver. -/
structure Broadcast (α : Type*) where
  capacity : Nat
  /-- Every value that was sent, the oldest first. -/
  sent : List α
  /-- The position that the receiver reads next. -/
  next : Nat
  /-- The positions that the receiver was told it has missed. -/
  missed : List Nat
  next_le : next ≤ sent.length
  missed_lt : ∀ p ∈ missed, p < next
  /-- A value is missed only if it was overwritten. -/
  overwritten : ∀ p ∈ missed, p + capacity < sent.length

/-- What the receiver of a broadcast channel is given. -/
inductive Received (α : Type*) where
  | value (a : α)
  | lagged (n : Nat)

namespace Broadcast

variable {α : Type*}

def new (capacity : Nat) : Broadcast α where
  capacity := capacity
  sent := []
  next := 0
  missed := []
  next_le := le_rfl
  missed_lt := nofun
  overwritten := nofun

def send (c : Broadcast α) (a : α) : Broadcast α where
  capacity := c.capacity
  sent := c.sent ++ [a]
  next := c.next
  missed := c.missed
  next_le := by
    rw [List.length_append]
    exact c.next_le.trans (Nat.le_add_right _ _)
  missed_lt := c.missed_lt
  overwritten p hp := by
    rw [List.length_append]
    exact Nat.lt_add_right _ (c.overwritten p hp)

/-- The oldest position that is not overwritten. -/
def oldest (c : Broadcast α) : Nat := c.sent.length - c.capacity

/-- The receiver skips what was overwritten. -/
def skip (c : Broadcast α) (h : c.next < c.oldest) : Broadcast α where
  capacity := c.capacity
  sent := c.sent
  next := c.oldest
  missed := c.missed ++ List.range' c.next (c.oldest - c.next)
  next_le := Nat.sub_le _ _
  missed_lt p hp := by
    rcases List.mem_append.mp hp with hold | hnew
    · exact (c.missed_lt p hold).trans h
    · have := List.mem_range'_1.mp hnew
      omega
  overwritten p hp := by
    rcases List.mem_append.mp hp with hold | hnew
    · exact c.overwritten p hold
    · have := List.mem_range'_1.mp hnew
      have holdest : c.oldest = c.sent.length - c.capacity := rfl
      omega

/-- The receiver takes the value at its position. -/
def advance (c : Broadcast α) (h : c.next < c.sent.length) : Broadcast α where
  capacity := c.capacity
  sent := c.sent
  next := c.next + 1
  missed := c.missed
  next_le := h
  missed_lt p hp := (c.missed_lt p hp).trans (Nat.lt_succ_self _)
  overwritten := c.overwritten

/-- A receiver that lags behind is told so first, and then goes on with the oldest value left. -/
def recv (c : Broadcast α) : Option (Received α × Broadcast α) :=
  if hlag : c.next < c.oldest then some (.lagged (c.oldest - c.next), c.skip hlag)
  else if hnext : c.next < c.sent.length then
    some (.value (c.sent.get ⟨c.next, hnext⟩), c.advance hnext)
  else none

/-- The values at the positions from `start` up to `stop`, without those that were missed. -/
def kept (c : Broadcast α) (start stop : Nat) : List α :=
  ((List.range' start (stop - start)).filter (· ∉ c.missed)).filterMap (c.sent[·]?)

variable {c c' : Broadcast α} {start stop : Nat} {a : α}

theorem kept_self : c.kept start start = [] := by
  simp [kept]

theorem kept_append {mid : Nat} (hst : start ≤ mid) (hsp : mid ≤ stop) :
    c.kept start stop = c.kept start mid ++ c.kept mid stop := by
  have hra : List.range' start (stop - start) =
      List.range' start (mid - start) ++ List.range' mid (stop - mid) := by
    have hmid : start + (mid - start) = mid := by omega
    have hlen : stop - start = mid - start + (stop - mid) := by omega
    rw [hlen, ← List.range'_append_1, hmid]
  simp only [kept, hra, List.filter_append, List.filterMap_append]

theorem kept_send (hst : stop ≤ c.sent.length) :
    (c.send a).kept start stop = c.kept start stop := by
  apply List.filterMap_congr
  intro p hp
  have hmem := List.mem_range'_1.mp (List.mem_filter.mp hp).1
  exact List.getElem?_append_left (by omega)

/-- What lies behind the receiver is not touched by the skip. -/
theorem kept_skip_of_le (h : c.next < c.oldest) (hst : stop ≤ c.next) :
    (c.skip h).kept start stop = c.kept start stop := by
  unfold kept
  congr 1
  apply List.filter_congr
  intro p hp
  have hmem := List.mem_range'_1.mp hp
  have hnew : p ∉ List.range' c.next (c.oldest - c.next) := by
    intro hin
    have := List.mem_range'_1.mp hin
    omega
  simp [skip, hnew]

/-- Nothing is kept of what is skipped. -/
theorem kept_skip (h : c.next < c.oldest) (hst : start ≤ c.next) :
    (c.skip h).kept start (c.skip h).next = c.kept start c.next := by
  have hsk : (c.skip h).kept c.next (c.skip h).next = [] := by
    have hno : (List.range' c.next (c.oldest - c.next)).filter
        (· ∉ (c.skip h).missed) = [] := by
      apply List.filter_eq_nil_iff.mpr
      intro p hp
      simp [skip, hp]
    unfold kept
    change List.filterMap _ ((List.range' c.next (c.oldest - c.next)).filter
      (· ∉ (c.skip h).missed)) = []
    rw [hno]
    rfl
  have hle : c.next ≤ (c.skip h).next := Nat.le_of_lt h
  rw [kept_append hst hle, hsk, List.append_nil, kept_skip_of_le h le_rfl]

theorem kept_advance (h : c.next < c.sent.length) (hst : start ≤ c.next) :
    (c.advance h).kept start (c.advance h).next =
      c.kept start c.next ++ [c.sent.get ⟨c.next, h⟩] := by
  have hnx : c.next ∉ c.missed := fun hin => absurd (c.missed_lt _ hin) (lt_irrefl _)
  have hla : c.kept c.next (c.next + 1) = [c.sent.get ⟨c.next, h⟩] := by
    simp [kept, hnx, h]
  change c.kept start (c.next + 1) = _
  rw [kept_append hst (Nat.le_succ _), hla]

/-- Whatever the receiver is given, it is given in order: a value is put behind what was kept,
and a lag leaves it as it was. -/
theorem recv_cases {r : Received α} (h : c.recv = some (r, c')) :
    c.next ≤ c'.next ∧ c'.sent = c.sent ∧ ((∃ n, r = .lagged n ∧
      ∀ start ≤ c.next, c'.kept start c'.next = c.kept start c.next) ∨
    (∃ a ∈ c.sent, r = .value a ∧ c'.next = c.next + 1 ∧
      ∀ start ≤ c.next, c'.kept start c'.next = c.kept start c.next ++ [a])) := by
  unfold recv at h
  split_ifs at h with hlag hnx
  · cases h
    exact ⟨Nat.le_of_lt hlag, rfl, Or.inl ⟨_, rfl, fun start => kept_skip hlag⟩⟩
  · cases h
    exact ⟨Nat.le_succ _, rfl, Or.inr ⟨_, List.get_mem _ _, rfl, rfl,
      fun start => kept_advance hnx⟩⟩

end Broadcast

/-! ## Mailboxes -/

inductive TrySendError where
  | closed
  | full
deriving DecidableEq

/-- A channel to one receiver, with what the receiver has taken from it. -/
structure Mailbox (α : Type*) where
  bound : Nat
  buffer : List α
  received : List α
  /-- The receiver is not dropped. -/
  alive : Bool

namespace Mailbox

variable {α : Type*}

def new (bound : Nat) : Mailbox α := ⟨bound, [], [], true⟩

def capacity (m : Mailbox α) : Nat := m.bound - m.buffer.length

def trySend (m : Mailbox α) (a : α) : Except TrySendError (Mailbox α) :=
  if m.alive = false then .error .closed
  else if m.capacity = 0 then .error .full
  else .ok { m with buffer := m.buffer ++ [a] }

def recv (m : Mailbox α) : Option (Mailbox α) :=
  match m.alive, m.buffer with
  | true, a :: rest => some { m with buffer := rest, received := m.received ++ [a] }
  | _, _ => none

/-- What waits for a receiver is dropped with it. -/
def dropReceiver (m : Mailbox α) : Mailbox α := { m with buffer := [], alive := false }

/-- Everything that was put into the mailbox and not dropped with the receiver. -/
def put (m : Mailbox α) : List α := m.received ++ m.buffer

variable {m m' : Mailbox α} {a : α}

theorem received_prefix_put : m.received <+: m.put := List.prefix_append _ _

theorem trySend_of_not_alive (h : m.alive = false) (a : α) :
    m.trySend a = .error .closed := if_pos h

theorem trySend_of_capacity (h : m.alive = true) (hro : 0 < m.capacity) (a : α) :
    m.trySend a = .ok { m with buffer := m.buffer ++ [a] } := by
  unfold trySend
  rw [if_neg (by simp [h]), if_neg (by omega)]

theorem recv_cases (h : m.recv = some m') : ∃ a rest, m.alive = true ∧ m.buffer = a :: rest ∧
    m' = { m with buffer := rest, received := m.received ++ [a] } := by
  unfold recv at h
  split at h <;> cases h
  rename_i a rest hal hbuf
  exact ⟨a, rest, hal, hbuf, rfl⟩

theorem put_recv (h : m.recv = some m') : m'.put = m.put := by
  obtain ⟨a, rest, -, hbuf, rfl⟩ := recv_cases h
  simp [put, hbuf]

theorem capacity_recv (h : m.recv = some m') : m.capacity ≤ m'.capacity := by
  obtain ⟨a, rest, -, hbuf, rfl⟩ := recv_cases h
  simp only [capacity, hbuf, List.length_cons]
  omega

theorem put_dropReceiver_sublist (m : Mailbox α) : m.dropReceiver.put.Sublist m.put := by
  rw [put, dropReceiver, List.append_nil]
  exact List.sublist_append_left _ _

theorem alive_recv (h : m.recv = some m') : m'.alive = m.alive := by
  obtain ⟨a, rest, -, -, rfl⟩ := recv_cases h
  rfl

end Mailbox

end DEngine.Library

import DEngine.Library.Transition
import DEngine.Watch.Registry
import Mathlib.Algebra.Order.BigOperators.Group.List

/-!
# The counters of the registry

A registration reserves its slot in `total_count` before it knows whether there is one, and
inserts its watcher several steps later. A removal takes the watcher out of its map first and
lowers the counters afterwards. Registrations and removals run side by side, and a watcher may be
removed by its dropped handle and by the dispatcher.

## Implementation notes

Each access to a counter or to a map is a step of its own. The comparison of `fetch_add`'s
result with the limit is local to the call. A handle that was dropped sends the id and the key of
its watcher to the dispatcher; one that was turned into a receiver sends nothing. The dispatcher
may remove any id at any time, so nothing is assumed about the state of the channels.
-/

namespace DEngine.Watch

open Apply Library

/-! ## Calls -/

/-- A call of `do_register` or of `unregister`, by its next step. -/
inductive Call where
  | reserve (key : Bytes) (isPrefix prevKv : Bool)
  /-- The limit was reached, and the slot is given back. -/
  | giveBack
  | countPrevKv (key : Bytes) (isPrefix prevKv : Bool)
  | takeId (key : Bytes) (isPrefix prevKv : Bool)
  | insert (w : Watcher) (isPrefix : Bool)
  | removeExact (id : Nat) (key : Bytes)
  | removePrefix (id : Nat) (key : Bytes)
  /-- A watcher was found and removed. -/
  | uncount (hadPrevKv : Bool)
  | uncountPrevKv
deriving DecidableEq

namespace WatchRegistry

/-- The watchers of one of the two maps are replaced. -/
def setSide (r : WatchRegistry) (isPrefix : Bool) (watchers : List Watcher) : WatchRegistry :=
  if isPrefix then { r with prefixWatchers := watchers } else { r with exactWatchers := watchers }

/-- `remove_if_mut`: the watcher that was removed. -/
def removeIf (r : WatchRegistry) (isPrefix : Bool) (id : Nat) (key : Bytes) :
    Option Watcher × WatchRegistry :=
  let hit (w : Watcher) : Bool := w.key = key && w.id = id
  match (r.side isPrefix).find? hit with
  | some w => (some w, r.setSide isPrefix ((r.side isPrefix).eraseP hit))
  | none => (none, r)

def watcherCount (r : WatchRegistry) : Nat := r.exactWatchers.length + r.prefixWatchers.length

def prevKvCount (r : WatchRegistry) : Nat :=
  r.exactWatchers.countP (·.prevKv) + r.prefixWatchers.countP (·.prevKv)

end WatchRegistry

namespace Call

/-- The next step of a call: the registry, the call if it goes on, and the watcher whose handle it
returns. -/
def step (r : WatchRegistry) : Call → WatchRegistry × Option Call × Option Watcher
  | reserve key isPrefix prevKv =>
    ({ r with totalCount := r.totalCount + 1 },
      some (if r.maxWatcherCount ≤ r.totalCount then giveBack
        else countPrevKv key isPrefix prevKv), none)
  | giveBack => ({ r with totalCount := r.totalCount - 1 }, none, none)
  | countPrevKv key isPrefix prevKv =>
    (if prevKv then { r with prevKvWatcherCount := r.prevKvWatcherCount + 1 } else r,
      some (takeId key isPrefix prevKv), none)
  | takeId key isPrefix prevKv =>
    ({ r with nextId := r.nextId + 1 }, some (insert ⟨r.nextId, key, prevKv⟩ isPrefix), none)
  | insert w isPrefix => (r.setSide isPrefix (r.side isPrefix ++ [w]), none, some w)
  | removeExact id key =>
    match r.removeIf false id key with
    | (some w, r) => (r, some (uncount w.prevKv), none)
    | (none, r) => (r, some (removePrefix id key), none)
  | removePrefix id key =>
    match r.removeIf true id key with
    | (some w, r) => (r, some (uncount w.prevKv), none)
    | (none, r) => (r, none, none)
  | uncount hadPrevKv =>
    ({ r with totalCount := r.totalCount - 1 },
      if hadPrevKv then some uncountPrevKv else none, none)
  | uncountPrevKv => ({ r with prevKvWatcherCount := r.prevKvWatcherCount - 1 }, none, none)

/-- What the call has added to `total_count` and not yet inserted or taken back. -/
def slots : Call → Nat
  | reserve .. | removeExact .. | removePrefix .. | uncountPrevKv => 0
  | giveBack | countPrevKv .. | takeId .. | insert .. | uncount .. => 1

/-- What the call has added to `prev_kv_watcher_count` and not yet inserted or taken back. -/
def prevKvSlots : Call → Nat
  | takeId _ _ prevKv => if prevKv then 1 else 0
  | insert w _ => if w.prevKv then 1 else 0
  | uncount hadPrevKv => if hadPrevKv then 1 else 0
  | uncountPrevKv => 1
  | _ => 0

/-- The call will insert a watcher. -/
def admitted : Call → Nat
  | countPrevKv .. | takeId .. | insert .. => 1
  | _ => 0

/-- What is left by a call that nothing comes between. -/
def finish : Nat → WatchRegistry → Option Call → WatchRegistry
  | n + 1, r, some c => finish n (c.step r).1 (c.step r).2.1
  | _, r, _ => r

theorem finish_reserve (r : WatchRegistry) (key : Bytes) (isPrefix prevKv : Bool) :
    finish 4 r (some (reserve key isPrefix prevKv)) =
      ((r.doRegister key isPrefix prevKv).toOption.map Prod.snd).getD r := by
  by_cases hfu : r.maxWatcherCount ≤ r.totalCount
  · simp [finish, step, WatchRegistry.doRegister, hfu, Except.toOption]
  · cases isPrefix <;> cases prevKv <;>
      simp [finish, step, WatchRegistry.doRegister, hfu, Except.toOption,
        WatchRegistry.setSide, WatchRegistry.side]

theorem finish_removeExact (r : WatchRegistry) (id : Nat) (key : Bytes) :
    finish 4 r (some (removeExact id key)) = r.unregister id key := by
  unfold WatchRegistry.unregister
  cases hex : r.exactWatchers.find? fun w => w.key = key && w.id = id with
  | some w =>
    cases hpr : w.prevKv <;>
      simp [finish, step, WatchRegistry.removeIf, WatchRegistry.side, WatchRegistry.setSide,
        WatchRegistry.uncount, hex, hpr]
  | none =>
    cases hpa : r.prefixWatchers.find? fun w => w.key = key && w.id = id with
    | some w =>
      cases hpr : w.prevKv <;>
        simp [finish, step, WatchRegistry.removeIf, WatchRegistry.side, WatchRegistry.setSide,
          WatchRegistry.uncount, hex, hpa, hpr]
    | none =>
      simp [finish, step, WatchRegistry.removeIf, WatchRegistry.side, hex, hpa]

theorem admitted_le_slots (c : Call) : c.admitted ≤ c.slots := by
  cases c <;> simp [admitted, slots]

end Call

section Steps

variable {r r' : WatchRegistry} {c : Call} {next : Option Call} {handle : Option Watcher}

theorem setSide_counts (r : WatchRegistry) (isPrefix : Bool) (watchers : List Watcher) :
    (r.setSide isPrefix watchers).watcherCount + (r.side isPrefix).length =
        r.watcherCount + watchers.length ∧
      (r.setSide isPrefix watchers).prevKvCount + (r.side isPrefix).countP (·.prevKv) =
        r.prevKvCount + watchers.countP (·.prevKv) ∧
      (r.setSide isPrefix watchers).totalCount = r.totalCount ∧
      (r.setSide isPrefix watchers).prevKvWatcherCount = r.prevKvWatcherCount ∧
      (r.setSide isPrefix watchers).maxWatcherCount = r.maxWatcherCount := by
  cases isPrefix <;>
    simp only [WatchRegistry.side, WatchRegistry.setSide, WatchRegistry.watcherCount,
      WatchRegistry.prevKvCount, Bool.false_eq_true, if_true, if_false, and_true] <;>
    omega

/-- Nothing is found, or one watcher is taken out. -/
theorem removeIf_counts (r : WatchRegistry) (isPrefix : Bool) (id : Nat) (key : Bytes) :
    r.removeIf isPrefix id key = (none, r) ∨
      ∃ w r', r.removeIf isPrefix id key = (some w, r') ∧ r'.watcherCount + 1 = r.watcherCount ∧
        r'.prevKvCount + (if w.prevKv then 1 else 0) = r.prevKvCount ∧
        r'.totalCount = r.totalCount ∧
        r'.prevKvWatcherCount = r.prevKvWatcherCount ∧ r'.maxWatcherCount = r.maxWatcherCount := by
  unfold WatchRegistry.removeIf
  dsimp only
  cases hfi : (r.side isPrefix).find? fun w => w.key = key && w.id = id with
  | none => exact .inl rfl
  | some w =>
    refine .inr ⟨w, _, rfl, ?_⟩
    obtain ⟨hhit, front, back, hsi, hfr⟩ := List.find?_eq_some_iff_append.mp hfi
    rw [hsi, List.eraseP_append_right _ (by simpa [← not_and_or] using hfr),
      List.eraseP_cons_of_pos (p := fun w : Watcher => w.key = key && w.id = id) hhit]
    obtain ⟨hlen, hco, hsa⟩ := setSide_counts r isPrefix (front ++ back)
    rw [hsi] at hlen hco
    simp only [List.length_append, List.length_cons, List.countP_append, List.countP_cons]
      at hlen hco
    exact ⟨by omega, by omega, hsa⟩

/-- One step of a call moves the counters, the maps and what the call still owes together. The
number of watchers that are or will be there grows only below the limit. -/
theorem Call.step_counts (hsl : c.slots ≤ r.totalCount)
    (hpr : c.prevKvSlots ≤ r.prevKvWatcherCount) (hst : c.step r = (r', next, handle)) :
    r'.totalCount + r.watcherCount + c.slots =
        r.totalCount + r'.watcherCount + next.elim 0 slots ∧
      r'.prevKvWatcherCount + r.prevKvCount + c.prevKvSlots =
        r.prevKvWatcherCount + r'.prevKvCount + next.elim 0 prevKvSlots ∧
      r'.maxWatcherCount = r.maxWatcherCount ∧
      (r'.watcherCount + next.elim 0 admitted ≤ r.watcherCount + c.admitted ∨
        r'.watcherCount + next.elim 0 admitted ≤ r.watcherCount + c.admitted + 1 ∧
          r.totalCount < r.maxWatcherCount) := by
  cases c with
  | reserve key isPrefix prevKv =>
    cases hst
    split_ifs with hfu
    · simp [slots, prevKvSlots, admitted, WatchRegistry.watcherCount, WatchRegistry.prevKvCount]
      omega
    · simp [slots, prevKvSlots, admitted, WatchRegistry.watcherCount, WatchRegistry.prevKvCount]
      omega
  | countPrevKv key isPrefix prevKv =>
    cases hst
    cases prevKv <;> simp [slots, prevKvSlots, admitted, WatchRegistry.watcherCount,
      WatchRegistry.prevKvCount]
    omega
  | takeId key isPrefix prevKv =>
    cases hst
    simp [slots, prevKvSlots, admitted, WatchRegistry.watcherCount, WatchRegistry.prevKvCount]
  | insert w isPrefix =>
    cases hst
    obtain ⟨hlen, hco, hto, hke, hmax⟩ :=
      setSide_counts r isPrefix (r.side isPrefix ++ [w])
    simp only [List.length_append, List.length_singleton, List.countP_append,
      List.countP_singleton] at hlen hco
    simp only [slots, prevKvSlots, admitted, Option.elim_none]
    omega
  | removeExact id key =>
    rcases removeIf_counts r false id key with hno | ⟨w, r', hso, hcn⟩
    · simp only [step, hno] at hst
      cases hst
      simp [slots, prevKvSlots, admitted]
    · simp only [step, hso] at hst
      cases hst
      simp only [slots, prevKvSlots, admitted, Option.elim_some]
      omega
  | removePrefix id key =>
    rcases removeIf_counts r true id key with hno | ⟨w, r', hso, hcn⟩
    · simp only [step, hno] at hst
      cases hst
      simp [slots, prevKvSlots, admitted]
    · simp only [step, hso] at hst
      cases hst
      simp only [slots, prevKvSlots, admitted, Option.elim_some]
      omega
  | giveBack | uncountPrevKv =>
    cases hst
    simp [slots, prevKvSlots, admitted, WatchRegistry.watcherCount,
      WatchRegistry.prevKvCount] at hsl hpr ⊢
    omega
  | uncount had =>
    cases hst
    cases had <;> simp [slots, prevKvSlots, admitted, WatchRegistry.watcherCount,
      WatchRegistry.prevKvCount] at hsl ⊢ <;> omega

end Steps

/-! ## Runs -/

/-- The registry, the calls in progress, the handles that clients hold and the channel of dropped
ones. -/
structure WatchCalls where
  registry : WatchRegistry
  calls : List Call
  handles : List Watcher
  unregisters : List (Nat × Bytes)
deriving DecidableEq

inductive CallLabel where
  | register (key : Bytes) (prevKv : Bool)
  | registerPrefix (path : Bytes) (prevKv : Bool)
  /-- The next step of a call in progress. -/
  | advance (call : Nat)
  | dropHandle (handle : Nat)
  | intoReceiver (handle : Nat)
  /-- The dispatcher takes a dropped handle from its channel. -/
  | unregister
  /-- The dispatcher removes a watcher that it found full or closed. -/
  | removeDead (id : Nat) (key : Bytes)

namespace WatchCalls

def start (s : WatchCalls) (call : Call) : WatchCalls := { s with calls := s.calls ++ [call] }

def step (s : WatchCalls) : CallLabel → Option WatchCalls
  | .register key prevKv => some (s.start (.reserve key false prevKv))
  | .registerPrefix path prevKv =>
    if path.head? ≠ some slash ∨ path.getLast? ≠ some slash then some s
    else some (s.start (.reserve path true prevKv))
  | .advance call =>
    s.calls[call]?.map fun c =>
      let (registry, next, handle) := c.step s.registry
      { s with
        registry := registry
        calls := s.calls.take call ++ next.toList ++ s.calls.drop (call + 1)
        handles := s.handles ++ handle.toList }
  | .dropHandle handle =>
    s.handles[handle]?.map fun w =>
      { s with
        handles := s.handles.eraseIdx handle
        unregisters := s.unregisters ++ [(w.id, w.key)] }
  | .intoReceiver handle =>
    s.handles[handle]?.map fun _ => { s with handles := s.handles.eraseIdx handle }
  | .unregister =>
    match s.unregisters with
    | [] => none
    | (id, key) :: rest => some ({ s with unregisters := rest }.start (.removeExact id key))
  | .removeDead id key => some (s.start (.removeExact id key))

/-- The counters count the watchers and what the calls in progress still owe. -/
structure Accounted (maxWatcherCount : Nat) (s : WatchCalls) : Prop where
  total : s.registry.totalCount = s.registry.watcherCount + (s.calls.map Call.slots).sum
  prevKv :
    s.registry.prevKvWatcherCount = s.registry.prevKvCount + (s.calls.map Call.prevKvSlots).sum
  bound : s.registry.maxWatcherCount = maxWatcherCount
  limit : s.registry.watcherCount + (s.calls.map Call.admitted).sum ≤ maxWatcherCount

end WatchCalls

def watchCalls (watcherBufferSize maxWatcherCount : Nat) : Machine WatchCalls CallLabel where
  init s := s = ⟨.newWithLimits watcherBufferSize maxWatcherCount, [], [], []⟩
  step := WatchCalls.step

namespace WatchCalls

variable {maxWatcherCount watcherBufferSize : Nat} {s t : WatchCalls}

theorem Accounted.start (h : s.Accounted maxWatcherCount) {call : Call} (hsl : call.slots = 0)
    (hpr : call.prevKvSlots = 0) : (s.start call).Accounted maxWatcherCount := by
  have had := call.admitted_le_slots
  obtain ⟨hto, hpv, hbo, hli⟩ := h
  refine ⟨?_, ?_, hbo, ?_⟩ <;>
    simp only [WatchCalls.start, List.map_append, List.sum_append, List.map_cons, List.map_nil,
      List.sum_singleton] <;> omega

/-- A call is replaced by what is left of it. -/
theorem sum_replaced (f : Call → Nat) {calls : List Call} {i : Nat} {c : Call}
    (hc : calls[i]? = some c) (next : Option Call) :
    ((calls.take i ++ next.toList ++ calls.drop (i + 1)).map f).sum + f c =
      (calls.map f).sum + next.elim 0 f := by
  obtain ⟨hi, rfl⟩ := List.getElem?_eq_some_iff.mp hc
  have hsp : (calls.map f).sum =
      ((calls.take i).map f).sum + (f calls[i] + ((calls.drop (i + 1)).map f).sum) := by
    rw [← List.sum_cons, ← List.map_cons, ← List.drop_eq_getElem_cons hi, ← List.sum_append,
      ← List.map_append, List.take_append_drop]
  cases next <;> simp [hsp] <;> omega

theorem Accounted.advance (h : s.Accounted maxWatcherCount) {i : Nat} {c : Call}
    (hc : s.calls[i]? = some c) {r' : WatchRegistry} {next : Option Call}
    {handle : Option Watcher} (hst : c.step s.registry = (r', next, handle))
    (handles : List Watcher) :
    Accounted maxWatcherCount { s with
      registry := r'
      calls := s.calls.take i ++ next.toList ++ s.calls.drop (i + 1)
      handles := handles } := by
  obtain ⟨hto, hpr, hbo, hli⟩ := h
  have hsl := sum_replaced Call.slots hc next
  have hpv := sum_replaced Call.prevKvSlots hc next
  have had := sum_replaced Call.admitted hc next
  have hmem (f : Call → Nat) : f c ≤ (s.calls.map f).sum :=
    (Nat.le_add_left _ _).trans_eq (sum_replaced f hc none)
  have hle : (s.calls.map Call.admitted).sum ≤ (s.calls.map Call.slots).sum :=
    List.sum_le_sum fun c _ => c.admitted_le_slots
  obtain ⟨hmo, hmv, hmax, hgr⟩ := Call.step_counts
    ((hmem Call.slots).trans (by omega)) ((hmem Call.prevKvSlots).trans (by omega)) hst
  exact ⟨by dsimp only; omega, by dsimp only; omega, hmax.trans hbo, by dsimp only; omega⟩

theorem accounted_of_step {l : CallLabel} (h : s.Accounted maxWatcherCount)
    (hst : s.step l = some t) : t.Accounted maxWatcherCount := by
  have hsa (handles : List Watcher) (unregisters : List (Nat × Bytes)) :
      Accounted maxWatcherCount { s with handles, unregisters } := ⟨h.1, h.2, h.3, h.4⟩
  cases l with
  | register key prevKv =>
    cases hst
    exact h.start rfl rfl
  | registerPrefix path prevKv =>
    simp only [step] at hst
    split_ifs at hst <;> cases hst
    · exact h
    · exact h.start rfl rfl
  | advance call =>
    obtain ⟨c, hc, rfl⟩ := Option.map_eq_some_iff.mp hst
    exact h.advance hc rfl _
  | dropHandle handle =>
    obtain ⟨w, -, rfl⟩ := Option.map_eq_some_iff.mp hst
    exact hsa _ _
  | intoReceiver handle =>
    obtain ⟨w, -, rfl⟩ := Option.map_eq_some_iff.mp hst
    exact hsa _ _
  | unregister =>
    simp only [step] at hst
    split at hst <;> cases hst
    exact Accounted.start (hsa _ _) rfl rfl
  | removeDead id key =>
    cases hst
    exact h.start rfl rfl

end WatchCalls

/-- In every run the limit holds, and the counters are exact whenever no call is in progress. -/
theorem registry_accounting {s : WatchCalls} {watcherBufferSize maxWatcherCount : Nat}
    (h : (watchCalls watcherBufferSize maxWatcherCount).Reach (fun _ _ => True) s) :
    s.registry.watcherCount ≤ maxWatcherCount ∧
      (s.calls = [] → s.registry.totalCount = s.registry.watcherCount ∧
        s.registry.prevKvWatcherCount = s.registry.prevKvCount) := by
  obtain ⟨hto, hpr, -, hli⟩ :
      s.Accounted maxWatcherCount := by
    refine h.invariant ?_ fun s l t hs _ hst => WatchCalls.accounted_of_step hs hst
    rintro s rfl
    exact ⟨rfl, rfl, rfl, Nat.zero_le _⟩
  refine ⟨le_of_add_le_left hli, fun hid => ?_⟩
  rw [hid] at hto hpr
  exact ⟨hto, hpr⟩

/-- A watcher is removed by its dropped handle and by the dispatcher, and its slot is used again. -/
theorem removed_twice_accounted :
    ∃ s, (watchCalls 1 1).Reach (fun _ _ => True) s ∧ s.calls = [] ∧
      s.registry.watcherCount = 1 ∧ s.registry.totalCount = 1 ∧
      s.registry.prevKvWatcherCount = 1 := by
  have hre : ∃ s, (watchCalls 1 1).Reach (fun _ _ => True) s ∧ s.calls = [] ∧
      s.registry.watcherCount = 1 ∧ s.registry.prevKvCount = 1 :=
    Machine.exists_reach_of_runIf
      ([.register [1] true] ++ List.replicate 4 (.advance 0) ++ [.dropHandle 0, .unregister,
        .removeDead 1 [1], .advance 0, .advance 1, .advance 1, .register [1] true] ++
        List.replicate 6 (.advance 0))
      rfl (by decide +kernel)
  obtain ⟨s, hs, hid, hco, hpr⟩ := hre
  obtain ⟨-, hex⟩ := registry_accounting hs
  exact ⟨s, hs, hid, hco, (hex hid).1.trans hco, (hex hid).2.trans hpr⟩

end DEngine.Watch

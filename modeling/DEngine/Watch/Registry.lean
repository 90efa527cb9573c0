import DEngine.Adaptors.Interpreter
import DEngine.Library.Channel

/-!
# Watchers and their registry

A client watches one key or every key under a path. The registry keeps the two kinds of
watchers apart. Every write that the state machine has applied is told to the watchers
as an event: `broadcastWatchEvents` lists the events of a chunk.

## Implementation notes

Each of the two maps of the source takes a key to its watchers. Here a map is one list of
watchers in the order of registration, and the watchers under a key are those of the list
that carry it. The sender of a watcher is alive as long as the watcher is in the
registry, so its channel is kept outside of the registry, under the watcher's id.
-/

namespace DEngine.Watch

open Apply Adaptors

/-! ## Events -/

inductive WatchEventType where
  | put
  | delete
  | canceled
  | progress
deriving DecidableEq, Repr

/-- An event as it is broadcast. -/
structure WatchResponse where
  key : Bytes
  value : Bytes
  prevValue : Bytes
  eventType : WatchEventType
  error : Nat
  revision : Nat
deriving DecidableEq, Repr

/-- An event as a watcher receives it. -/
structure WatchEvent where
  eventType : WatchEventType
  key : Bytes
  value : Bytes
  prevValue : Option Bytes
  revision : Nat
deriving DecidableEq, Repr

def protoToEvent (proto : WatchResponse) (prevKv : Bool) : WatchEvent where
  eventType := proto.eventType
  key := proto.key
  value := proto.value
  prevValue := if prevKv then some proto.prevValue else none
  revision := proto.revision

/-- The sentinel of a watcher that is unregistered because its buffer is full. -/
def makeCancelEvent (key : Bytes) : WatchEvent where
  eventType := .canceled
  key := key
  value := []
  prevValue := none
  revision := 0

/-- A put or a delete. -/
def WatchEventType.isData : WatchEventType → Bool
  | .put => true
  | .delete => true
  | .canceled => false
  | .progress => false

/-! ## Events of a chunk -/

/-- A batch gives one event for each of its operations, without previous values. -/
def batchOpEvent (index : Nat) : BatchOp → WatchResponse
  | .insert key value => ⟨key, value, [], .put, 0, index⟩
  | .delete key => ⟨key, [], [], .delete, 0, index⟩

/-- A compare-and-swap that failed gives no event. -/
def entryEvents (entry : ApplyEntry) (result : Option ApplyResult) (prevValue : Bytes) :
    List WatchResponse :=
  match entry.command with
  | .insert key value _ => [⟨key, value, prevValue, .put, 0, entry.index⟩]
  | .delete key => [⟨key, [], prevValue, .delete, 0, entry.index⟩]
  | .compareAndSwap key _ value =>
    if result.any ApplyResult.succeeded then
      [⟨key, value, prevValue, .put, 0, entry.index⟩]
    else []
  | .noop => []
  | .batch ops => ops.map (batchOpEvent entry.index)

/-- The events of a chunk, in the order in which they are sent. -/
def broadcastWatchEvents (chunk : List ApplyEntry) (results : List ApplyResult)
    (prevValues : Option (List (Option Bytes))) : List WatchResponse :=
  chunk.zipIdx.flatMap fun (entry, i) =>
    entryEvents entry results[i]? (((prevValues.bind (·[i]?)).join).getD [])

theorem isData_of_mem_entryEvents {entry : ApplyEntry} {result : Option ApplyResult}
    {prevValue : Bytes} {event : WatchResponse}
    (h : event ∈ entryEvents entry result prevValue) : event.eventType.isData := by
  unfold entryEvents at h
  split at h
  · rw [List.mem_singleton.mp h]
    rfl
  · rw [List.mem_singleton.mp h]
    rfl
  · split_ifs at h
    · rw [List.mem_singleton.mp h]
      rfl
    · cases h
  · cases h
  · obtain ⟨op, -, rfl⟩ := List.mem_map.mp h
    cases op <;> rfl

theorem isData_of_mem_broadcastWatchEvents {chunk : List ApplyEntry} {results : List ApplyResult}
    {prevValues : Option (List (Option Bytes))} {event : WatchResponse}
    (h : event ∈ broadcastWatchEvents chunk results prevValues) : event.eventType.isData := by
  obtain ⟨⟨entry, i⟩, -, hen⟩ := List.mem_flatMap.mp h
  exact isData_of_mem_entryEvents hen

/-! ## Path prefixes -/

/-- The byte of `/`. -/
def slash : UInt8 := 47

/-- The slash-terminated prefixes of a key, the shortest first. -/
def prefixSegments (key : Bytes) : List Bytes :=
  (key.zipIdx.filter fun p => p.1 = slash).map fun p => key.take (p.2 + 1)

theorem mem_prefixSegments {key segment : Bytes} :
    segment ∈ prefixSegments key ↔ segment <+: key ∧ segment.getLast? = some slash := by
  simp only [prefixSegments, List.mem_map, List.mem_filter, Prod.exists,
    List.mem_zipIdx_iff_getElem?, decide_eq_true_eq]
  constructor
  · rintro ⟨b, i, ⟨hi, rfl⟩, rfl⟩
    refine ⟨List.take_prefix _ _, ?_⟩
    rw [List.getLast?_take, if_neg (Nat.succ_ne_zero i), Nat.add_sub_cancel, hi]
    rfl
  · rintro ⟨hpa, hla⟩
    have hne : segment ≠ [] := by
      rintro rfl
      cases hla
    have hpos : 0 < segment.length := List.length_pos_of_ne_nil hne
    have hta : key.take segment.length = segment := (List.prefix_iff_eq_take.mp hpa).symm
    refine ⟨slash, segment.length - 1, ⟨?_, rfl⟩, ?_⟩
    · obtain ⟨rest, rfl⟩ := hpa
      rw [List.getLast?_eq_getElem?] at hla
      rw [List.getElem?_append_left (by omega), hla]
    · rw [Nat.sub_add_cancel hpos, hta]

theorem nodup_prefixSegments (key : Bytes) : (prefixSegments key).Nodup := by
  have hzip : key.zipIdx.Nodup := by
    apply List.Nodup.of_map Prod.snd
    rw [List.zipIdx_map_snd]
    exact List.nodup_range'
  apply (hzip.filter _).map_on
  rintro ⟨a, i⟩ ha ⟨b, j⟩ hb heq
  have hi := List.mem_zipIdx_iff_getElem?.mp (List.mem_filter.mp ha).1
  have hj := List.mem_zipIdx_iff_getElem?.mp (List.mem_filter.mp hb).1
  have hlen := congrArg List.length heq
  simp only [List.length_take] at hlen
  have hi' := (List.getElem?_eq_some_iff.mp hi).1
  have hj' := (List.getElem?_eq_some_iff.mp hj).1
  have hij : i = j := by omega
  subst hij
  have hab : a = b := Option.some.inj (hi.symm.trans hj)
  rw [hab]

/-! ## The registry -/

inductive WatchError where
  | limitExceeded (maxWatcherCount : Nat)
  | invalidPrefix
deriving DecidableEq, Repr

structure Watcher where
  id : Nat
  /-- The key or the path prefix that is watched. -/
  key : Bytes
  prevKv : Bool
deriving DecidableEq, Repr

structure WatchRegistry where
  exactWatchers : List Watcher
  prefixWatchers : List Watcher
  nextId : Nat
  totalCount : Nat
  prevKvWatcherCount : Nat
  watcherBufferSize : Nat
  maxWatcherCount : Nat
deriving DecidableEq, Repr

namespace WatchRegistry

def newWithLimits (watcherBufferSize maxWatcherCount : Nat) : WatchRegistry where
  exactWatchers := []
  prefixWatchers := []
  nextId := 1
  totalCount := 0
  prevKvWatcherCount := 0
  watcherBufferSize := watcherBufferSize
  maxWatcherCount := maxWatcherCount

/-- The watchers of one of the two maps. -/
def side (r : WatchRegistry) (isPrefix : Bool) : List Watcher :=
  if isPrefix then r.prefixWatchers else r.exactWatchers

def doRegister (r : WatchRegistry) (key : Bytes) (isPrefix prevKv : Bool) :
    Except WatchError (Watcher × WatchRegistry) :=
  if r.maxWatcherCount ≤ r.totalCount then .error (.limitExceeded r.maxWatcherCount)
  else
    let watcher : Watcher := ⟨r.nextId, key, prevKv⟩
    .ok (watcher, { r with
      totalCount := r.totalCount + 1
      prevKvWatcherCount := if prevKv then r.prevKvWatcherCount + 1 else r.prevKvWatcherCount
      nextId := r.nextId + 1
      prefixWatchers := if isPrefix then r.prefixWatchers ++ [watcher] else r.prefixWatchers
      exactWatchers := if isPrefix then r.exactWatchers else r.exactWatchers ++ [watcher] })

def register (r : WatchRegistry) (key : Bytes) (prevKv : Bool) :
    Except WatchError (Watcher × WatchRegistry) :=
  r.doRegister key false prevKv

/-- A prefix starts and ends with a slash. -/
def registerPrefix (r : WatchRegistry) (path : Bytes) (prevKv : Bool) :
    Except WatchError (Watcher × WatchRegistry) :=
  if path.head? ≠ some slash ∨ path.getLast? ≠ some slash then .error .invalidPrefix
  else r.doRegister path true prevKv

/-- The counters without a watcher that was found and removed. -/
def uncount (r : WatchRegistry) (watcher : Watcher) : WatchRegistry :=
  { r with
    totalCount := r.totalCount - 1
    prevKvWatcherCount :=
      if watcher.prevKv then r.prevKvWatcherCount - 1 else r.prevKvWatcherCount }

/-- The exact watchers are tried first. -/
def unregister (r : WatchRegistry) (id : Nat) (key : Bytes) : WatchRegistry :=
  let hit (w : Watcher) : Bool := w.key = key && w.id = id
  match r.exactWatchers.find? hit with
  | some watcher => { r with exactWatchers := r.exactWatchers.eraseP hit }.uncount watcher
  | none =>
    match r.prefixWatchers.find? hit with
    | some watcher => { r with prefixWatchers := r.prefixWatchers.eraseP hit }.uncount watcher
    | none => r

variable {r r' : WatchRegistry} {w w' : Watcher} {key : Bytes} {isPrefix prevKv side : Bool}

theorem doRegister_cases (h : r.doRegister key isPrefix prevKv = .ok (w, r')) :
    w = ⟨r.nextId, key, prevKv⟩ ∧ r'.nextId = r.nextId + 1 ∧
      r'.watcherBufferSize = r.watcherBufferSize ∧
      ∀ side, r'.side side = if side = isPrefix then r.side side ++ [w] else r.side side := by
  by_cases hfu : r.maxWatcherCount ≤ r.totalCount
  · rw [doRegister, if_pos hfu] at h
    cases h
  rw [doRegister, if_neg hfu] at h
  cases h
  refine ⟨rfl, rfl, rfl, ?_⟩
  intro side
  cases side <;> cases isPrefix <;> rfl

/-- The two maps together hold a watcher for an id only once. -/
structure UniqueIds (r : WatchRegistry) : Prop where
  nodup : ∀ side, (r.side side).Nodup
  eq_of_id : ∀ {side side' : Bool} {w w' : Watcher}, w ∈ r.side side → w' ∈ r.side side' →
    w.id = w'.id → side = side' ∧ w = w'

theorem unregister_nextId (r : WatchRegistry) (id : Nat) (key : Bytes) :
    (r.unregister id key).nextId = r.nextId ∧
      (r.unregister id key).watcherBufferSize = r.watcherBufferSize := by
  unfold unregister
  dsimp only
  split
  · exact ⟨rfl, rfl⟩
  · split
    · exact ⟨rfl, rfl⟩
    · exact ⟨rfl, rfl⟩

/-- Removing the first hit from a list without repetitions in which the hit is unique. -/
theorem mem_eraseP_unique {l : List Watcher} {hit : Watcher → Bool} (hno : l.Nodup)
    (hun : ∀ w ∈ l, ∀ w' ∈ l, hit w → hit w' → w = w') :
    w ∈ l.eraseP hit ↔ w ∈ l ∧ hit w = false := by
  induction l with
  | nil => simp
  | cons a l ih =>
    have hta := ih (List.nodup_cons.mp hno).2
      fun w hw w' hw' => hun w (List.mem_cons_of_mem a hw) w' (List.mem_cons_of_mem a hw')
    cases ha : hit a with
    | false =>
      rw [List.eraseP_cons_of_neg (by simp [ha]), List.mem_cons, hta, List.mem_cons]
      constructor
      · rintro (rfl | ⟨hw, hhit⟩)
        · exact ⟨Or.inl rfl, ha⟩
        · exact ⟨Or.inr hw, hhit⟩
      · rintro ⟨rfl | hw, hhit⟩
        · exact .inl rfl
        · exact .inr ⟨hw, hhit⟩
    | true =>
      rw [List.eraseP_cons_of_pos ha, List.mem_cons]
      constructor
      · intro hw
        refine ⟨Or.inr hw, Bool.eq_false_iff.mpr fun hhit => ?_⟩
        have heq := hun a List.mem_cons_self w (List.mem_cons_of_mem a hw) ha hhit
        exact (List.nodup_cons.mp hno).1 (heq ▸ hw)
      · rintro ⟨rfl | hw, hhit⟩
        · rw [ha] at hhit
          cases hhit
        · exact hw

/-- Exactly the watcher with the id and the key is removed, in whichever map it is. -/
theorem mem_side_unregister (h : r.UniqueIds) {id : Nat} :
    w ∈ (r.unregister id key).side side ↔ w ∈ r.side side ∧ ¬(w.key = key ∧ w.id = id) := by
  have hno {l : List Watcher} (hfi : l.find? (fun w => w.key = key && w.id = id) = none)
      (hw : w ∈ l) : ¬(w.key = key ∧ w.id = id) := by
    simpa using List.find?_eq_none.mp hfi w hw
  have her {b : Bool} : w ∈ (r.side b).eraseP (fun w => w.key = key && w.id = id) ↔
      w ∈ r.side b ∧ ¬(w.key = key ∧ w.id = id) := by
    rw [mem_eraseP_unique (h.nodup b)]
    · simp
    · intro w hw w' hw' hhit hhit'
      simp only [Bool.and_eq_true, decide_eq_true_eq] at hhit hhit'
      exact (h.eq_of_id hw hw' (hhit.2.trans hhit'.2.symm)).2
  have hot (b b' : Bool) (hb : b ≠ b') {found : Watcher}
      (hfi : (r.side b).find? (fun w => w.key = key && w.id = id) = some found)
      (hw : w ∈ r.side b') : ¬(w.key = key ∧ w.id = id) := by
    rintro ⟨-, hid⟩
    have hfo := List.find?_some hfi
    simp only [Bool.and_eq_true, decide_eq_true_eq] at hfo
    exact hb (h.eq_of_id (List.mem_of_find?_eq_some hfi) hw (hfo.2.trans hid.symm)).1
  unfold unregister
  dsimp only
  split
  · rename_i found hfi
    cases side with
    | false => exact @her false
    | true => exact ⟨fun hw => ⟨hw, hot false true nofun hfi hw⟩, fun hw => hw.1⟩
  · rename_i hex
    split
    · rename_i found hfi
      cases side with
      | false => exact ⟨fun hw => ⟨hw, hno hex hw⟩, fun hw => hw.1⟩
      | true => exact @her true
    · rename_i hpa
      cases side with
      | false => exact ⟨fun hw => ⟨hw, hno hex hw⟩, fun hw => hw.1⟩
      | true => exact ⟨fun hw => ⟨hw, hno hpa hw⟩, fun hw => hw.1⟩

theorem sublist_side_unregister (r : WatchRegistry) (id : Nat) (key : Bytes) (side : Bool) :
    ((r.unregister id key).side side).Sublist (r.side side) := by
  unfold unregister
  dsimp only
  split
  · cases side with
    | false => exact List.eraseP_sublist
    | true => exact List.Sublist.refl _
  · split
    · cases side with
      | false => exact List.Sublist.refl _
      | true => exact List.eraseP_sublist
    · exact List.Sublist.refl _

theorem UniqueIds.unregister (h : r.UniqueIds) (id : Nat) (key : Bytes) :
    (r.unregister id key).UniqueIds where
  nodup side := (h.nodup side).sublist (sublist_side_unregister r id key side)
  eq_of_id hw hw' := h.eq_of_id ((sublist_side_unregister r id key _).subset hw)
    ((sublist_side_unregister r id key _).subset hw')

theorem UniqueIds.doRegister (h : r.UniqueIds) (hids : ∀ side, ∀ w ∈ r.side side, w.id < r.nextId)
    (hreg : r.doRegister key isPrefix prevKv = .ok (w, r')) : r'.UniqueIds := by
  obtain ⟨rfl, -, -, hsi⟩ := doRegister_cases hreg
  have hfr {side : Bool} {w : Watcher} (hw : w ∈ r.side side) : w.id ≠ r.nextId :=
    (hids side w hw).ne
  refine ⟨fun side => ?_, fun {side side' w w'} hw hw' hid => ?_⟩
  · rw [hsi]
    split_ifs
    · exact List.nodup_append.mpr ⟨h.nodup side, List.nodup_singleton _, fun a ha b hb hab =>
        hfr ha (by rw [hab, List.mem_singleton.mp hb])⟩
    · exact h.nodup side
  · have hca {b : Bool} {v : Watcher} (hv : v ∈ r'.side b) :
        v ∈ r.side b ∨ b = isPrefix ∧ v = ⟨r.nextId, key, prevKv⟩ := by
      rw [hsi] at hv
      split_ifs at hv with heq
      · rcases List.mem_append.mp hv with hold | hnew
        · exact .inl hold
        · exact .inr ⟨heq, List.mem_singleton.mp hnew⟩
      · exact .inl hv
    rcases hca hw with hold | ⟨rfl, rfl⟩
    · rcases hca hw' with hold' | ⟨rfl, rfl⟩
      · exact h.eq_of_id hold hold' hid
      · exact absurd hid (hfr hold)
    · rcases hca hw' with hold' | ⟨rfl, rfl⟩
      · exact absurd hid.symm (hfr hold')
      · exact ⟨rfl, rfl⟩

end WatchRegistry

end DEngine.Watch

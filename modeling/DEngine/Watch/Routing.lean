import DEngine.Watch.Streams

/-!
# The routing of events

A prefix watcher is found by looking up every slash-terminated segment of the key. When nothing
comes between the steps of `dispatch_event`, an event is put once into the channel of each watcher
that watches its key or a path above it and has room, and into no other channel.
-/

namespace DEngine.Watch

open Apply Library

/-- A visit of one watcher in `dispatch_to_map`. -/
def visitWatcher (event : WatchResponse) (p : WatchSystem × List Nat) (w : Watcher) :
    WatchSystem × List Nat :=
  let (channel, dead) := visit event w (p.1.channels w.id).capacity (p.1.channels w.id)
  (p.1.setChannel w.id channel, if dead then p.2 ++ [w.id] else p.2)

/-- The dead watchers of a lookup are removed. -/
def WatchRegistry.unregisterAll (r : WatchRegistry) (key : Bytes) (dead : List Nat) :
    WatchRegistry :=
  dead.foldl (fun registry id => registry.unregister id key) r

def dispatchToMap (event : WatchResponse) (s : WatchSystem) (lookup : Lookup) : WatchSystem :=
  let (s, deadWatchers) := (s.registry.watchers lookup).foldl (visitWatcher event) (s, [])
  { s with registry := s.registry.unregisterAll lookup.key deadWatchers }

def dispatchEvent (s : WatchSystem) (event : WatchResponse) : WatchSystem :=
  (dispatchLookups event.key).foldl (dispatchToMap event) s

variable {s t : WatchSystem} {event : WatchResponse} {eventQueueSize watcherBufferSize : Nat}
  {maxWatcherCount : Nat}

/-! ## The steps of a call -/

section Steps

/-- Only the dispatcher takes steps. -/
def Undisturbed (_ : WatchSystem) (l : WatchLabel) : Prop := l = .dispatch

variable {key : Bytes} {lookups : List Lookup} {dead : List Nat}

theorem run_dispatch {d : Dispatch} (hph : s.phase = .dispatching d)
    (hrun : (watchLoop eventQueueSize watcherBufferSize maxWatcherCount).Run Undisturbed
      (s.dispatchStep d) t) :
    (watchLoop eventQueueSize watcherBufferSize maxWatcherCount).Run Undisturbed s t := by
  refine .head ⟨.dispatch, rfl, ?_⟩ hrun
  simp [watchLoop, WatchSystem.step, hph]

theorem run_visits (watchers : List Watcher) (s : WatchSystem) (dead : List Nat)
    (hrun : (watchLoop eventQueueSize watcherBufferSize maxWatcherCount).Run Undisturbed
      { (watchers.foldl (visitWatcher event) (s, dead)).1 with
        phase := .dispatching ⟨event, key, [], none,
          (watchers.foldl (visitWatcher event) (s, dead)).2, lookups⟩ } t) :
    (watchLoop eventQueueSize watcherBufferSize maxWatcherCount).Run Undisturbed
      { s with phase := .dispatching ⟨event, key, watchers, none, dead, lookups⟩ } t := by
  induction watchers generalizing s dead with
  | nil => exact hrun
  | cons w rest ih =>
    -- The capacity is read in one step, and the next one sends.
    exact run_dispatch rfl (run_dispatch rfl (ih (visitWatcher event (s, dead) w).1 _ hrun))

theorem run_unregisters (dead : List Nat) (s : WatchSystem)
    (hrun : (watchLoop eventQueueSize watcherBufferSize maxWatcherCount).Run Undisturbed
      { s with
        registry := s.registry.unregisterAll key dead
        phase := .dispatching ⟨event, key, [], none, [], lookups⟩ } t) :
    (watchLoop eventQueueSize watcherBufferSize maxWatcherCount).Run Undisturbed
      { s with phase := .dispatching ⟨event, key, [], none, dead, lookups⟩ } t := by
  induction dead generalizing s with
  | nil => exact hrun
  | cons id rest ih => exact run_dispatch rfl (ih { s with registry := _ } hrun)

theorem run_lookups (lookups : List Lookup) (s : WatchSystem) (key : Bytes) :
    (watchLoop eventQueueSize watcherBufferSize maxWatcherCount).Run Undisturbed
      { s with phase := .dispatching ⟨event, key, [], none, [], lookups⟩ }
      { lookups.foldl (dispatchToMap event) s with phase := .selecting } := by
  induction lookups generalizing s key with
  | nil => exact run_dispatch rfl .refl
  | cons lookup rest ih =>
    exact run_dispatch rfl (run_visits _ s [] (run_unregisters _ _
      (ih (dispatchToMap event s lookup) lookup.key)))

/-- The steps of the dispatcher are a run of the whole call. -/
theorem run_dispatchEvent (s : WatchSystem) (event : WatchResponse) :
    (watchLoop eventQueueSize watcherBufferSize maxWatcherCount).Run Undisturbed
      { s with phase := .dispatching (.start event (dispatchLookups event.key)) }
      { dispatchEvent s event with phase := .selecting } :=
  run_lookups _ s []

end Steps

/-! ## The channels behind a call -/

/-- What a visit leaves in the channel of a watcher. -/
def visited (event : WatchResponse) (w : Watcher) (channel : Mailbox WatchEvent) :
    Mailbox WatchEvent :=
  (visit event w channel.capacity channel).1

theorem visited_of_room {w : Watcher} {channel : Mailbox WatchEvent} (hal : channel.alive)
    (hro : 1 < channel.capacity) : visited event w channel =
      { channel with buffer := channel.buffer ++ [protoToEvent event w.prevKv] } := by
  rw [visited, visit, if_neg hro.not_ge, Mailbox.trySend_of_capacity hal (by omega)]

theorem dataEvents_visited {w : Watcher} {channel : Mailbox WatchEvent}
    (h : ¬(channel.alive ∧ 1 < channel.capacity)) :
    dataEvents (visited event w channel).put = dataEvents channel.put := by
  rw [visited, visit]
  cases hal : channel.alive with
  | false => simp [Mailbox.trySend_of_not_alive hal]
  | true =>
    rw [if_pos (by simpa [hal] using h)]
    split_ifs with hone
    · rw [Mailbox.trySend_of_capacity hal (by omega)]
      simp [dataEvents, Mailbox.put, makeCancelEvent, WatchEventType.isData]
    · rfl

theorem channels_visits {watchers : List Watcher} (hids : watchers.Pairwise (·.id ≠ ·.id))
    (s : WatchSystem) (dead : List Nat) {p : WatchSystem × List Nat}
    (hp : watchers.foldl (visitWatcher event) (s, dead) = p) :
    p.1.registry = s.registry ∧
      (∀ w ∈ watchers, p.1.channels w.id = visited event w (s.channels w.id)) ∧
      (∀ id, (∀ w ∈ watchers, w.id ≠ id) → p.1.channels id = s.channels id) ∧
      ∀ id ∈ p.2, id ∈ dead ∨ ∃ w ∈ watchers, w.id = id := by
  induction watchers generalizing s dead with
  | nil =>
    subst hp
    exact ⟨rfl, by simp, fun _ _ => rfl, fun id hid => .inl hid⟩
  | cons w rest ih =>
    obtain ⟨hne, hre⟩ := List.pairwise_cons.mp hids
    obtain ⟨hreg, hin, hout, hde⟩ := ih hre (visitWatcher event (s, dead) w).1
      (visitWatcher event (s, dead) w).2 hp
    refine ⟨hreg, ?_, fun id hid => ?_, fun id hid => ?_⟩
    · rintro v (_ | ⟨_, hv⟩)
      · exact (hout w.id fun v hv => (hne v hv).symm).trans (Function.update_self ..)
      · rw [hin v hv]
        exact congrArg (visited event v) (Function.update_of_ne (hne v hv).symm _ _)
    · obtain ⟨hw, hid⟩ := List.forall_mem_cons.mp hid
      exact (hout id hid).trans (Function.update_of_ne hw.symm _ _)
    · rcases hde id hid with hid | ⟨v, hv, rfl⟩
      · simp only [visitWatcher] at hid
        split_ifs at hid
        · rcases List.mem_append.mp hid with hid | hid
          · exact .inl hid
          · exact .inr ⟨w, List.mem_cons_self, (List.mem_singleton.mp hid).symm⟩
        · exact .inl hid
      · exact .inr ⟨v, List.mem_cons_of_mem w hv, rfl⟩

/-- The lookups that were made visited their watchers once, and the other watchers are still
registered. -/
structure Routed (s : WatchSystem) (event : WatchResponse) (made : List Lookup)
    (t : WatchSystem) : Prop where
  unique : t.registry.UniqueIds
  old : ∀ side, ∀ w ∈ t.registry.side side, w ∈ s.registry.side side
  done : ∀ side, ∀ w ∈ s.registry.side side, ⟨side, w.key⟩ ∈ made →
    t.channels w.id = visited event w (s.channels w.id)
  waiting : ∀ side, ∀ w ∈ s.registry.side side, ⟨side, w.key⟩ ∉ made →
    w ∈ t.registry.side side ∧ t.channels w.id = s.channels w.id
  free : ∀ id, (∀ side, ∀ w ∈ s.registry.side side, w.id ≠ id) → t.channels id = s.channels id

theorem unregisterAll_spec {r : WatchRegistry} (h : r.UniqueIds) (key : Bytes) (dead : List Nat) :
    (r.unregisterAll key dead).UniqueIds ∧ ∀ side w, w ∈ (r.unregisterAll key dead).side side ↔
      w ∈ r.side side ∧ ¬(w.key = key ∧ w.id ∈ dead) := by
  induction dead generalizing r with
  | nil => exact ⟨h, by simp [WatchRegistry.unregisterAll]⟩
  | cons id rest ih =>
    obtain ⟨hun, hiff⟩ := ih (h.unregister id key)
    refine ⟨hun, fun side w => (hiff side w).trans ?_⟩
    rw [WatchRegistry.mem_side_unregister h, List.mem_cons]
    tauto

theorem Routed.step (hs : s.registry.UniqueIds) {made : List Lookup} {lookup : Lookup}
    (h : Routed s event made t) (hnew : lookup ∉ made) :
    Routed s event (made ++ [lookup]) (dispatchToMap event t lookup) := by
  have hmem {w : Watcher} : w ∈ t.registry.watchers lookup ↔
      w ∈ t.registry.side lookup.isPrefix ∧ w.key = lookup.key := by
    simp [WatchRegistry.watchers]
  have hids : (t.registry.watchers lookup).Pairwise (·.id ≠ ·.id) :=
    ((h.unique.nodup _).filter _).imp_of_mem fun hv hw hne hid =>
      hne (h.unique.eq_of_id (hmem.mp hv).1 (hmem.mp hw).1 hid).2
  obtain ⟨hreg, hin, hout, hde⟩ := channels_visits hids t []
    (rfl : (t.registry.watchers lookup).foldl (visitWatcher event) (t, []) = _)
  -- A watcher with another lookup has another id than those that were visited.
  have hot {side : Bool} {v : Watcher} (hv : v ∈ s.registry.side side)
      (hne : ⟨side, v.key⟩ ≠ lookup) : ∀ w ∈ t.registry.watchers lookup, w.id ≠ v.id := by
    intro w hw hid
    obtain ⟨hw, hkey⟩ := hmem.mp hw
    obtain ⟨rfl, rfl⟩ := hs.eq_of_id (h.old _ w hw) hv hid
    exact hne (by rw [hkey])
  obtain ⟨hun, hlf⟩ := unregisterAll_spec h.unique lookup.key
    ((t.registry.watchers lookup).foldl (visitWatcher event) (t, [])).2
  have haf : (dispatchToMap event t lookup).registry = t.registry.unregisterAll lookup.key
      ((t.registry.watchers lookup).foldl (visitWatcher event) (t, [])).2 :=
    congrArg (WatchRegistry.unregisterAll · _ _) hreg
  constructor
  · exact haf ▸ hun
  · intro side w hw
    rw [haf] at hw
    exact h.old side w ((hlf side w).mp hw).1
  · intro side w hw hma
    rcases List.mem_append.mp hma with hma | hma
    · exact (hout w.id (hot hw fun heq => hnew (heq ▸ hma))).trans (h.done side w hw hma)
    · obtain rfl := List.mem_singleton.mp hma
      obtain ⟨hst, hsa⟩ := h.waiting side w hw hnew
      exact (hin w (hmem.mpr ⟨hst, rfl⟩)).trans (by rw [hsa])
  · intro side w hw hma
    obtain ⟨hma, hne⟩ := not_or.mp (mt List.mem_append.mpr hma)
    replace hne := mt List.mem_singleton.mpr hne
    obtain ⟨hst, hsa⟩ := h.waiting side w hw hma
    refine ⟨?_, (hout w.id (hot hw hne)).trans hsa⟩
    rw [haf]
    refine (hlf side w).mpr ⟨hst, ?_⟩
    rintro ⟨-, hid⟩
    obtain ⟨v, hv, hid⟩ := (hde _ hid).resolve_left List.not_mem_nil
    exact hot hw hne v hv hid
  · intro id hid
    exact (hout id fun w hw => hid _ w (h.old _ w (hmem.mp hw).1)).trans (h.free id hid)

theorem routed_lookups (hs : s.registry.UniqueIds) {made lookups : List Lookup}
    (hno : (made ++ lookups).Nodup) (h : Routed s event made t) :
    Routed s event (made ++ lookups) (lookups.foldl (dispatchToMap event) t) := by
  induction lookups generalizing made t with
  | nil => rwa [List.append_nil]
  | cons lookup rest ih =>
    have hnew : lookup ∉ made := fun hmem =>
      (List.nodup_append.mp hno).2.2 lookup hmem lookup List.mem_cons_self rfl
    rw [List.append_cons] at hno ⊢
    exact ih hno (h.step hs hnew)

/-- An event is put once into the channel of each watcher that watches its key or a path
above it, has more than one free slot and a receiver, and into no other channel: the other
watchers are given nothing, or a cancellation. -/
theorem routed_exactly
    (h : (watchLoop eventQueueSize watcherBufferSize maxWatcherCount).Reach (fun _ _ => True) s)
    (event : WatchResponse) :
    ∃ t, (watchLoop eventQueueSize watcherBufferSize maxWatcherCount).Run Undisturbed
        { s with phase := .dispatching (.start event (dispatchLookups event.key)) } t ∧
      t.phase = .selecting ∧
      (∀ side, ∀ w ∈ s.registry.side side,
        let channel := s.channels w.id
        if w.key = event.key ∧ side = false ∨ w.key <+: event.key ∧ side = true then
          if channel.alive ∧ 1 < channel.capacity then
            t.channels w.id =
              { channel with buffer := channel.buffer ++ [protoToEvent event w.prevKv] }
          else dataEvents (t.channels w.id).put = dataEvents channel.put
        else t.channels w.id = channel) ∧
      ∀ id, (∀ side, ∀ w ∈ s.registry.side side, w.id ≠ id) → t.channels id = s.channels id := by
  have hde := WatchSystem.delivers_of_reach h
  have hst : Routed s event [] s := {
    unique := hde.unique
    old := fun _ _ hw => hw
    done := by simp
    waiting := fun _ _ hw _ => ⟨hw, rfl⟩
    free := fun _ _ => rfl }
  have hro := routed_lookups hde.unique (nodup_dispatchLookups event.key) hst
  refine ⟨_, run_dispatchEvent s event, rfl, fun side w hw => ?_, hro.free⟩
  have hlo : ⟨side, w.key⟩ ∈ dispatchLookups event.key ↔
      (w.key = event.key ∧ side = false ∨ w.key <+: event.key ∧ side = true) := by
    obtain ⟨r, hr, rfl, rfl⟩ := hde.known side w hw
    refine (lookup_mem_dispatchLookups (hde.valid r hr)).trans ?_
    cases hsi : r.isPrefix <;> simp [Registration.Matches, hsi, eq_comm]
  simp only [← hlo]
  split_ifs with hma hrm
  · exact (hro.done side w hw hma).trans (visited_of_room hrm.1 hrm.2)
  · exact (congrArg (dataEvents ·.put) (hro.done side w hw hma)).trans
      (dataEvents_visited hrm)
  · exact (hro.waiting side w hw hma).2

/-- A put below a path. -/
def putBelow : WatchResponse := ⟨[47, 1], [7], [], .put, 0, 1⟩

/-- The watchers of the key and of the path are given the event, each in its form. -/
theorem routed_to_key_and_path :
    ∃ s t : WatchSystem, (watchLoop 1 2 2).Reach (fun _ _ => True) s ∧
      (watchLoop 1 2 2).Run Undisturbed
        { s with phase := .dispatching (.start putBelow (dispatchLookups putBelow.key)) } t ∧
      (t.channels 1).buffer = [⟨.put, [47, 1], [7], none, 1⟩] ∧
      (t.channels 2).buffer = [⟨.put, [47, 1], [7], some [], 1⟩] := by
  have hre : ∃ s : WatchSystem, (watchLoop 1 2 2).Reach (fun _ _ => True) s ∧
      ⟨1, [47, 1], false⟩ ∈ s.registry.side false ∧ ⟨2, [47], true⟩ ∈ s.registry.side true ∧
      ∀ id ∈ [1, 2], (s.channels id).alive ∧ 1 < (s.channels id).capacity ∧
        (s.channels id).buffer = [] :=
    Machine.exists_reach_of_runIf [.register [47, 1] false, .registerPrefix [47] true]
      ⟨1, le_rfl, rfl⟩ (by decide +kernel)
  obtain ⟨s, hs, hex, hpa, hro⟩ := hre
  obtain ⟨hal, hfr, hem⟩ := hro 1 (by decide)
  obtain ⟨hal', hfr', hem'⟩ := hro 2 (by decide)
  obtain ⟨t, hrun, -, hput, -⟩ := routed_exactly hs putBelow
  have hfi := hput false _ hex
  have hse := hput true _ hpa
  rw [if_pos (by decide), if_pos ⟨hal, hfr⟩] at hfi
  rw [if_pos (by decide), if_pos ⟨hal', hfr'⟩] at hse
  refine ⟨s, t, hs, hrun, ?_, ?_⟩
  · rw [hfi, hem]
    rfl
  · rw [hse, hem']
    rfl

end DEngine.Watch

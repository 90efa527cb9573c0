import DEngine.Library.Transition
import DEngine.Watch.Registry

/-!
# The watch dispatcher

The apply worker sends the events of a chunk into a broadcast channel. A dispatcher task
takes them from there and puts each one into the channels of the watchers that match its
key: first those of the key itself, then those of every path above it. A watcher whose
channel is full is sent a cancellation into a slot that is reserved for it, and is
unregistered.

## Implementation notes

The dispatcher, the worker, the clients that register and the receivers of the watchers
are tasks of their own. A step of the machine is what one of them does without being
interrupted: in particular the dispatcher reads the capacity of a channel in one step and
sends in the next, and registrations and receivers may come in between. The branches of
the dispatcher's `select!` are three labels. It polls them in order, but a source that
becomes ready behind its poll is taken later, so no order of the labels is assumed.

A heartbeat visits the keys of both maps in the order of the map's iterator, which is part
of the label, and so is the applied index that it reads.
-/

namespace DEngine.Watch

open Apply Adaptors Library

/-! ## Dispatch -/

/-- One call of `dispatch_to_map`: the map and the key that is looked up in it. -/
structure Lookup where
  isPrefix : Bool
  key : Bytes
deriving DecidableEq, Repr

def WatchRegistry.watchers (r : WatchRegistry) (lookup : Lookup) : List Watcher :=
  (r.side lookup.isPrefix).filter fun w => w.key = lookup.key

/-- The calls that `dispatch_event` makes for a key. -/
def dispatchLookups (key : Bytes) : List Lookup :=
  ⟨false, key⟩ :: (prefixSegments key).map (⟨true, ·⟩)

/-- The event of a heartbeat. -/
def progressEvent (revision : Nat) : WatchResponse := ⟨[], [], [], .progress, 0, revision⟩

/-- A watcher is visited with the capacity that was read before: what becomes of its channel, and
whether it is dead. -/
def visit (event : WatchResponse) (watcher : Watcher) (available : Nat)
    (channel : Mailbox WatchEvent) : Mailbox WatchEvent × Bool :=
  if available ≤ 1 then
    (if available = 1 then
      match channel.trySend (makeCancelEvent event.key) with
      | .ok channel => channel
      | .error _ => channel
    else channel, true)
  else
    match channel.trySend (protoToEvent event watcher.prevKv) with
    | .ok channel => (channel, false)
    | .error .closed => (channel, true)
    | .error .full => (channel, false)

/-- The dispatcher inside of `dispatch_event` or `broadcast_progress`. -/
structure Dispatch where
  event : WatchResponse
  /-- The key of the current call of `dispatch_to_map`. -/
  lookupKey : Bytes
  /-- The watchers that the current call has still to visit. -/
  watchers : List Watcher
  /-- The capacity that was read for the first of them. -/
  available : Option Nat
  deadWatchers : List Nat
  /-- The calls that are still to be made. -/
  lookups : List Lookup
deriving DecidableEq

def Dispatch.start (event : WatchResponse) (lookups : List Lookup) : Dispatch where
  event := event
  lookupKey := []
  watchers := []
  available := none
  deadWatchers := []
  lookups := lookups

inductive Phase where
  /-- The dispatcher waits in its loop. -/
  | selecting
  | dispatching (d : Dispatch)
  | stopped
deriving DecidableEq

/-! ## The system -/

/-- A registration, and how far the dispatcher and the worker were at that time. -/
structure Registration where
  watcher : Watcher
  isPrefix : Bool
  /-- The position of the event that the dispatcher was handing out or would read next. -/
  cursor : Nat
  /-- The number of events that had been broadcast. -/
  broadcast : Nat
deriving DecidableEq

def Registration.lookup (r : Registration) : Lookup := ⟨r.isPrefix, r.watcher.key⟩

structure WatchSystem where
  /-- What `broadcast_watch_events` has still to send. -/
  outbox : List WatchResponse
  queue : Broadcast WatchResponse
  /-- The sender of the broadcast channel is dropped. -/
  closed : Bool
  registry : WatchRegistry
  /-- The ids and keys of dropped handles. -/
  unregisters : List (Nat × Bytes)
  phase : Phase
  /-- The channels of the watchers, by id. -/
  channels : Nat → Mailbox WatchEvent
  registrations : List Registration

inductive WatchLabel where
  /-- The worker has applied a chunk. -/
  | apply (chunk : List ApplyEntry) (results : List ApplyResult)
      (prevValues : Option (List (Option Bytes)))
  | send
  /-- The worker stops. -/
  | close
  | register (key : Bytes) (prevKv : Bool)
  | registerPrefix (path : Bytes) (prevKv : Bool)
  | unregister
  | receive
  | heartbeat (lastApplied : Nat) (exactKeys prefixKeys : List Bytes)
  | dispatch
  /-- A client receives the next event of its watcher. -/
  | recv (id : Nat)
  | dropHandle (r : Registration)
  /-- The receiver is dropped behind `into_receiver`. -/
  | dropReceiver (id : Nat)

namespace WatchSystem

def new (capacity watcherBufferSize maxWatcherCount : Nat) : WatchSystem where
  outbox := []
  queue := Broadcast.new capacity
  closed := false
  registry := WatchRegistry.newWithLimits watcherBufferSize maxWatcherCount
  unregisters := []
  phase := .selecting
  channels := fun _ => Mailbox.new 0
  registrations := []

def setChannel (s : WatchSystem) (id : Nat) (channel : Mailbox WatchEvent) : WatchSystem :=
  { s with channels := Function.update s.channels id channel }

/-- The position of the event that the dispatcher is handing out or reads next. -/
def cursor (s : WatchSystem) : Nat :=
  match s.phase with
  | .dispatching d => if d.event.eventType.isData then s.queue.next - 1 else s.queue.next
  | _ => s.queue.next

/-- A registration that has returned; one that fails changes nothing. -/
def registered (s : WatchSystem) (isPrefix : Bool) :
    Except WatchError (Watcher × WatchRegistry) → WatchSystem
  | .error _ => s
  | .ok (watcher, registry) =>
    { s with
      registry := registry
      channels := Function.update s.channels watcher.id
        (Mailbox.new (registry.watcherBufferSize + 1))
      registrations :=
        ⟨watcher, isPrefix, s.cursor, s.queue.sent.length⟩ :: s.registrations }

/-- The next step of a dispatch. -/
def dispatchStep (s : WatchSystem) (d : Dispatch) : WatchSystem :=
  match d.watchers, d.deadWatchers, d.lookups with
  | watcher :: rest, _, _ =>
    match d.available with
    | none =>
      { s with phase := .dispatching { d with
          available := some (s.channels watcher.id).capacity } }
    | some available =>
      let (channel, dead) := visit d.event watcher available (s.channels watcher.id)
      { s.setChannel watcher.id channel with
        phase := .dispatching { d with
          watchers := rest
          available := none
          deadWatchers :=
            if dead then d.deadWatchers ++ [watcher.id] else d.deadWatchers } }
  | [], id :: rest, _ =>
    { s with
      registry := s.registry.unregister id d.lookupKey
      phase := .dispatching { d with deadWatchers := rest } }
  | [], [], lookup :: rest =>
    { s with phase := .dispatching { d with
        lookupKey := lookup.key
        watchers := s.registry.watchers lookup
        lookups := rest } }
  | [], [], [] => { s with phase := .selecting }

def step (s : WatchSystem) : WatchLabel → Option WatchSystem
  | .apply chunk results prevValues =>
    if s.outbox = [] ∧ s.closed = false then
      some { s with outbox := broadcastWatchEvents chunk results prevValues }
    else none
  | .send =>
    match s.outbox with
    | event :: rest => some { s with outbox := rest, queue := s.queue.send event }
    | [] => none
  | .close => if s.outbox = [] then some { s with closed := true } else none
  | .register key prevKv => some (s.registered false (s.registry.register key prevKv))
  | .registerPrefix path prevKv =>
    some (s.registered true (s.registry.registerPrefix path prevKv))
  | .unregister =>
    match s.phase, s.unregisters with
    | .selecting, (id, key) :: rest =>
      some { s with registry := s.registry.unregister id key, unregisters := rest }
    | _, _ => none
  | .receive =>
    match s.phase, s.queue.recv with
    | .selecting, some (.value event, queue) =>
      some { s with
        queue := queue
        phase := .dispatching (Dispatch.start event (dispatchLookups event.key)) }
    | .selecting, some (.lagged _, queue) => some { s with queue := queue }
    | .selecting, none => if s.closed then some { s with phase := .stopped } else none
    | _, _ => none
  | .heartbeat lastApplied exactKeys prefixKeys =>
    match s.phase with
    | .selecting =>
      some { s with phase := .dispatching (Dispatch.start (progressEvent lastApplied)
        (exactKeys.map (⟨false, ·⟩) ++ prefixKeys.map (⟨true, ·⟩))) }
    | _ => none
  | .dispatch =>
    match s.phase with
    | .dispatching d => some (s.dispatchStep d)
    | _ => none
  | .recv id => (s.channels id).recv.map (s.setChannel id)
  | .dropHandle r =>
    if r ∈ s.registrations ∧ (s.channels r.watcher.id).alive then
      some { s.setChannel r.watcher.id (s.channels r.watcher.id).dropReceiver with
        unregisters := s.unregisters ++ [(r.watcher.id, r.watcher.key)] }
    else none
  | .dropReceiver id => some (s.setChannel id (s.channels id).dropReceiver)

end WatchSystem

/-- The watch system of a node. The broadcast channel has room for at least the events that the
configuration asks for. -/
def watchLoop (eventQueueSize watcherBufferSize maxWatcherCount : Nat) :
    Machine WatchSystem WatchLabel where
  init s := ∃ capacity, eventQueueSize ≤ capacity ∧
    s = WatchSystem.new capacity watcherBufferSize maxWatcherCount
  step := WatchSystem.step

/-! ## What a lookup finds -/

/-- The watcher watches the key itself or a path above it. -/
def Registration.Matches (r : Registration) (key : Bytes) : Prop :=
  if r.isPrefix then r.watcher.key <+: key else key = r.watcher.key
deriving Decidable

/-- A prefix that was accepted ends with a slash. -/
def Registration.Valid (r : Registration) : Prop :=
  r.isPrefix → r.watcher.key.getLast? = some slash

/-- The lookups of a key reach exactly the watchers that match it. -/
theorem lookup_mem_dispatchLookups {r : Registration} (h : r.Valid) {key : Bytes} :
    r.lookup ∈ dispatchLookups key ↔ r.Matches key := by
  obtain ⟨⟨id, watched, prevKv⟩, isPrefix, cursor, broadcast⟩ := r
  cases isPrefix with
  | false => simp [Registration.lookup, dispatchLookups, Registration.Matches, eq_comm]
  | true =>
    have hla : watched.getLast? = some slash := h rfl
    simp [Registration.lookup, dispatchLookups, Registration.Matches, mem_prefixSegments, hla]

theorem nodup_dispatchLookups (key : Bytes) : (dispatchLookups key).Nodup := by
  apply List.nodup_cons.mpr
  constructor
  · simp
  · exact (nodup_prefixSegments key).map fun a b h => congrArg Lookup.key h

end DEngine.Watch

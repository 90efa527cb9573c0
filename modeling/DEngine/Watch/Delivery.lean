import DEngine.Watch.Dispatcher

/-!
# What a watcher is due

The events that reach a watcher are those that the dispatcher takes from the broadcast
channel, in their order and without a gap, from the registration on. This is an invariant
of the watch system: `Delivers`.

## Implementation notes

A watcher is *due* the event that the dispatcher is handing out as long as the lookup that
finds it is still to be made or its visit is still to come. What was put into the channel
of an active watcher, and what it is due, are together all it expects of what the
dispatcher has read.
-/

namespace DEngine.Watch

open Apply Library

def dataEvents (events : List WatchEvent) : List WatchEvent :=
  events.filter fun event => event.eventType.isData

theorem dataEvents_append (events more : List WatchEvent) :
    dataEvents (events ++ more) = dataEvents events ++ dataEvents more :=
  List.filter_append ..

/-- What a watcher expects of a list of broadcast events. -/
def Registration.expects (r : Registration) (events : List WatchResponse) : List WatchEvent :=
  (events.filter fun event => r.Matches event.key).map (protoToEvent · r.watcher.prevKv)

theorem Registration.expects_append (r : Registration) (events more : List WatchResponse) :
    r.expects (events ++ more) = r.expects events ++ r.expects more := by
  simp [Registration.expects]

theorem Registration.expects_singleton (r : Registration) (event : WatchResponse) :
    r.expects [event] =
      if r.Matches event.key then [protoToEvent event r.watcher.prevKv] else [] := by
  unfold Registration.expects
  by_cases h : r.Matches event.key
  · simp [h]
  · simp [h]

/-! ## One channel -/

/-- The channel of a watcher holds its part of what is expected of it. While the watcher is active
only what is due is missing, and there is room for a cancellation; otherwise the last event is
one. -/
structure Serves (expected due : List WatchEvent) (active : Prop)
    (channel : Mailbox WatchEvent) : Prop where
  run : dataEvents channel.put <+: expected
  whole : active → channel.alive = true → dataEvents channel.put ++ due = expected
  room : active → channel.alive = true → 0 < channel.capacity
  ended : ¬active → channel.alive = true →
    ∃ event ∈ channel.put.getLast?, event.eventType = .canceled

namespace Serves

variable {expected due due' : List WatchEvent} {active active' : Prop}
  {channel channel' : Mailbox WatchEvent}

theorem of_same (h : Serves expected due active channel) (hact : active' ↔ active)
    (hdue : active → due' = due) : Serves expected due' active' channel where
  run := h.run
  whole ha hal := by
    rw [hdue (hact.mp ha)]
    exact h.whole (hact.mp ha) hal
  room ha := h.room (hact.mp ha)
  ended ha := h.ended fun hin => ha (hact.mpr hin)

theorem of_inactive (h : Serves expected due active channel) (hact : ¬active)
    (hac' : ¬active') : Serves expected due' active' channel :=
  ⟨h.run, fun ha => absurd ha hac', fun ha => absurd ha hac', fun _ => h.ended hact⟩

theorem of_not_alive (h : Serves expected due active channel) (hde : channel.alive = false) :
    Serves expected due' active' channel := by
  refine ⟨h.run, ?_, ?_, ?_⟩
  all_goals
    intro _ hal
    rw [hde] at hal
    cases hal

/-- The dispatcher reads one more event. -/
theorem read (h : Serves expected [] active channel) :
    Serves (expected ++ due) due active channel where
  run := h.run.trans (List.prefix_append _ _)
  whole ha hal := by
    have hwh := h.whole ha hal
    rw [List.append_nil] at hwh
    rw [hwh]
  room := h.room
  ended := h.ended

theorem recv (h : Serves expected due active channel) (hre : channel.recv = some channel') :
    Serves expected due active channel' where
  run := (Mailbox.put_recv hre).symm ▸ h.run
  whole ha hal := by
    rw [Mailbox.put_recv hre]
    exact h.whole ha (Mailbox.alive_recv hre ▸ hal)
  room ha hal :=
    (h.room ha (Mailbox.alive_recv hre ▸ hal)).trans_le (Mailbox.capacity_recv hre)
  ended ha hal := by
    rw [Mailbox.put_recv hre]
    exact h.ended ha (Mailbox.alive_recv hre ▸ hal)

theorem dropReceiver (h : Serves expected due active channel) :
    Serves expected due active channel.dropReceiver where
  run := by
    have hput : channel.dropReceiver.put = channel.received := List.append_nil _
    rw [hput]
    exact (Mailbox.received_prefix_put.filter _).trans h.run
  whole _ hal := by cases hal
  room _ hal := by cases hal
  ended _ hal := by cases hal

/-- A watcher registers while it is due what is expected of it. -/
theorem new (bound : Nat) : Serves due due True (Mailbox.new (bound + 1)) where
  run := List.nil_prefix
  whole _ _ := List.nil_append _
  room _ _ := Nat.succ_pos bound
  ended ha := absurd trivial ha

theorem put_append (event : WatchEvent) :
    { channel with buffer := channel.buffer ++ [event] : Mailbox WatchEvent }.put =
      channel.put ++ [event] :=
  (List.append_assoc _ _ _).symm

/-- A visit to an active watcher: if there was room for more than the cancellation, the event is
put into the channel, and otherwise the watcher is canceled. -/
theorem visit (h : Serves expected due active channel) (hact : active)
    {event : WatchResponse} {watcher : Watcher} {available : Nat} {dead : Bool}
    (hdue : due = dataEvents [protoToEvent event watcher.prevKv])
    (hav : channel.alive = true → 0 < available ∧ available ≤ channel.capacity)
    (hvi : Watch.visit event watcher available channel = (channel', dead)) :
    Serves expected [] (dead = false) channel' := by
  unfold Watch.visit at hvi
  by_cases hal : channel.alive = true
  · obtain ⟨hpos, hle⟩ := hav hal
    have hro := h.room hact hal
    have hwh := h.whole hact hal
    by_cases hone : available ≤ 1
    · have heq : available = 1 := by omega
      rw [if_pos hone, if_pos heq, Mailbox.trySend_of_capacity hal hro] at hvi
      cases hvi
      refine ⟨?_, nofun, nofun, fun _ _ => ?_⟩
      · rw [put_append, dataEvents_append]
        change dataEvents channel.put ++ [] <+: expected
        rw [List.append_nil]
        exact h.run
      · refine ⟨makeCancelEvent event.key, ?_, rfl⟩
        rw [put_append, List.getLast?_concat]
        rfl
    · rw [if_neg hone, Mailbox.trySend_of_capacity hal hro] at hvi
      cases hvi
      have hput : dataEvents ({ channel with
          buffer := channel.buffer ++ [protoToEvent event watcher.prevKv] } :
            Mailbox WatchEvent).put = expected := by
        rw [put_append, dataEvents_append, ← hdue, hwh]
      refine ⟨hput ▸ List.prefix_rfl, fun _ _ => ?_, fun _ _ => ?_, absurd rfl⟩
      · rw [List.append_nil, hput]
      · simp only [Mailbox.capacity, List.length_append, List.length_singleton] at hle ⊢
        omega
  · -- the receiver is gone, and whatever was read, nothing is put into the channel
    have hde : channel.alive = false := by simpa using hal
    have hsa : channel' = channel := by
      rw [Mailbox.trySend_of_not_alive hde, Mailbox.trySend_of_not_alive hde] at hvi
      split_ifs at hvi
      all_goals
        cases hvi
        rfl
    rw [hsa]
    exact h.of_not_alive hde

end Serves

/-! ## The system -/

namespace WatchSystem

/-- The watcher is registered, and the dispatcher is not about to remove it. -/
def Active (s : WatchSystem) (r : Registration) : Prop :=
  r.watcher ∈ s.registry.side r.isPrefix ∧
    ∀ d, s.phase = .dispatching d → r.watcher.id ∉ d.deadWatchers

end WatchSystem

/-- The dispatcher has still to hand its event to the watcher. -/
def Dispatch.Pending (d : Dispatch) (r : Registration) : Prop :=
  r.watcher ∈ d.watchers ∨ r.lookup ∈ d.lookups
deriving Decidable

def Dispatch.due (d : Dispatch) (r : Registration) : List WatchEvent :=
  if d.Pending r then dataEvents [protoToEvent d.event r.watcher.prevKv] else []

theorem Dispatch.due_congr {d d' : Dispatch} {r : Registration} (hev : d'.event = d.event)
    (hpe : d'.Pending r ↔ d.Pending r) : d'.due r = d.due r := by
  unfold Dispatch.due
  rw [hev]
  exact if_congr hpe rfl rfl

def Phase.due (r : Registration) : Phase → List WatchEvent
  | .dispatching d => d.due r
  | .selecting => []
  | .stopped => []

namespace WatchSystem

/-- What is behind a dispatch: the watchers to visit are registered and not yet dead, the dead ones
are found under the key of the lookup, and a put or a delete was the last event that was read. -/
structure Handing (s : WatchSystem) (d : Dispatch) : Prop where
  nodup : d.watchers.Nodup
  watched : ∀ w ∈ d.watchers, w.key = d.lookupKey ∧ w.id ∉ d.deadWatchers ∧
    ∃ side, w ∈ s.registry.side side
  dead : ∀ id ∈ d.deadWatchers, id < s.registry.nextId ∧
    ∀ r ∈ s.registrations, r.watcher.id = id → r.watcher.key = d.lookupKey
  available : ∀ n ∈ d.available, ∀ w ∈ d.watchers.head?, (s.channels w.id).alive = true →
    0 < n ∧ n ≤ (s.channels w.id).capacity
  idle : d.watchers = [] → d.available = none
  read : d.event.eventType.isData →
    0 < s.queue.next ∧ s.queue.kept (s.queue.next - 1) s.queue.next = [d.event]
  /-- A put or a delete is handed to each watcher by one lookup. -/
  lookups : d.event.eventType.isData → d.lookups.Nodup ∧
    (∀ l ∈ d.lookups, l ∈ dispatchLookups d.event.key) ∧
    ∀ r ∈ s.registrations, r.watcher ∈ d.watchers → r.lookup ∉ d.lookups

/-- A channel serves its watcher from some position on, at or before the registration. -/
def ServesFrom (s : WatchSystem) (r : Registration) (start : Nat) : Prop :=
  r.cursor ≤ start ∧ start ≤ r.broadcast ∧ start ≤ s.queue.next ∧
    Serves (r.expects (s.queue.kept start s.queue.next)) (s.phase.due r) (s.Active r)
      (s.channels r.watcher.id)

structure Delivers (s : WatchSystem) : Prop where
  outbox : ∀ event ∈ s.outbox, event.eventType.isData
  sent : ∀ event ∈ s.queue.sent, event.eventType.isData
  unique : s.registry.UniqueIds
  known : ∀ side, ∀ w ∈ s.registry.side side,
    ∃ r ∈ s.registrations, r.watcher = w ∧ r.isPrefix = side
  fresh : ∀ r ∈ s.registrations, r.watcher.id < s.registry.nextId
  eq_of_id : ∀ r ∈ s.registrations, ∀ r' ∈ s.registrations, r.watcher.id = r'.watcher.id → r = r'
  valid : ∀ r ∈ s.registrations, r.Valid
  /-- Only a dropped handle asks to be unregistered. -/
  dropped : ∀ p ∈ s.unregisters, p.1 < s.registry.nextId ∧ (s.channels p.1).alive = false
  handing : ∀ d, s.phase = .dispatching d → s.Handing d
  serves : ∀ r ∈ s.registrations, ∃ start, s.ServesFrom r start

variable {s t : WatchSystem} {d : Dispatch} {r : Registration}

/-- A watcher that is to be visited is an active one, and its registration is known. -/
theorem Delivers.exists_registration (h : s.Delivers) (hph : s.phase = .dispatching d)
    {w : Watcher} (hw : w ∈ d.watchers) : ∃ r ∈ s.registrations, r.watcher = w ∧ s.Active r := by
  obtain ⟨-, hde, side, hsi⟩ := (h.handing d hph).watched w hw
  obtain ⟨r, hr, rfl, rfl⟩ := h.known side w hsi
  refine ⟨r, hr, rfl, hsi, fun d' hd' => ?_⟩
  cases hph.symm.trans hd'
  exact hde

/-! ## Steps outside of the dispatcher -/

/-- Only one channel changes, and whatever it served before it still serves. -/
theorem Delivers.setChannel (h : s.Delivers) {id : Nat} {channel : Mailbox WatchEvent}
    (hse : ∀ {expected due active}, Serves expected due active (s.channels id) →
      Serves expected due active channel)
    (hal : channel.alive = true →
      (s.channels id).alive = true ∧ (s.channels id).capacity ≤ channel.capacity) :
    (s.setChannel id channel).Delivers := by
  refine { h with dropped := fun p hp => ?_, handing := fun d hd => ?_, serves := fun r hr => ?_ }
  · obtain ⟨hlt, hde⟩ := h.dropped p hp
    refine ⟨hlt, ?_⟩
    simp only [WatchSystem.setChannel, Function.update_apply]
    split_ifs with heq
    · rw [heq] at hde
      exact Bool.eq_false_iff.mpr fun hin => by simp [(hal hin).1] at hde
    · exact hde
  · have hha := h.handing d hd
    refine { hha with available := fun n hn w hw => ?_ }
    simp only [WatchSystem.setChannel, Function.update_apply]
    split_ifs with heq
    · intro hin
      obtain ⟨hpos, hle⟩ := hha.available n hn w hw (heq ▸ (hal hin).1)
      exact ⟨hpos, hle.trans (heq ▸ (hal hin).2)⟩
    · exact hha.available n hn w hw
  · obtain ⟨start, hcur, hca, hnx, hold⟩ := h.serves r hr
    refine ⟨start, hcur, hca, hnx, ?_⟩
    change Serves _ _ (s.Active r) (Function.update s.channels id channel r.watcher.id)
    rw [Function.update_apply]
    split_ifs with heq
    · exact hse (heq ▸ hold)
    · exact hold

variable {event : WatchResponse}

theorem Delivers.send (h : s.Delivers) {rest : List WatchResponse}
    (hou : s.outbox = event :: rest) :
    ({ s with outbox := rest, queue := s.queue.send event } : WatchSystem).Delivers := by
  refine { h with outbox := fun e he => ?_, sent := fun e he => ?_, handing := fun d hd => ?_,
                  serves := fun r hr => ?_ }
  · exact h.outbox e (hou ▸ List.mem_cons_of_mem _ he)
  · rcases List.mem_append.mp he with hold | hnew
    · exact h.sent e hold
    · rw [List.mem_singleton.mp hnew]
      exact h.outbox event (hou ▸ List.mem_cons_self)
  · have hha := h.handing d hd
    exact { hha with read := fun hda =>
      ⟨(hha.read hda).1, (Broadcast.kept_send s.queue.next_le).trans
        (hha.read hda).2⟩ }
  · obtain ⟨start, hcur, hca, hnx, hold⟩ := h.serves r hr
    refine ⟨start, hcur, hca, hnx, ?_⟩
    change Serves (r.expects ((s.queue.send event).kept start s.queue.next)) _ _ _
    rw [Broadcast.kept_send s.queue.next_le]
    exact hold

/-- The ids in the registry were given out. -/
theorem Delivers.id_lt (h : s.Delivers) (side : Bool) :
    ∀ w ∈ s.registry.side side, w.id < s.registry.nextId := by
  intro w hw
  obtain ⟨r, hr, rfl, -⟩ := h.known side w hw
  exact h.fresh r hr

/-- A new watcher starts with the event that is being handed out if its lookup is still to be
made, and with the next one otherwise. -/
theorem Delivers.exists_start (h : s.Delivers) {r : Registration} (hva : r.Valid)
    (hcur : r.cursor = s.cursor) (hnew : r.watcher.id = s.registry.nextId) :
    ∃ start, r.cursor ≤ start ∧ start ≤ s.queue.next ∧
      r.expects (s.queue.kept start s.queue.next) = s.phase.due r := by
  have hno : r.expects (s.queue.kept s.queue.next s.queue.next) = [] := by
    rw [Broadcast.kept_self]
    rfl
  cases hph : s.phase with
  | selecting | stopped =>
    have hst : s.cursor = s.queue.next := by simp [cursor, hph]
    exact ⟨s.queue.next, (hcur.trans hst).le, le_rfl, hno⟩
  | dispatching d =>
    have hha := h.handing d hph
    have hnt : r.watcher ∉ d.watchers := by
      intro hin
      obtain ⟨-, -, side, hsi⟩ := hha.watched _ hin
      exact absurd (h.id_lt side _ hsi) (by omega)
    cases hda : d.event.eventType.isData with
    | false =>
      have hst : s.cursor = s.queue.next := by simp [cursor, hph, hda]
      refine ⟨s.queue.next, (hcur.trans hst).le, le_rfl, ?_⟩
      have hdue : d.due r = [] := by
        simp [Dispatch.due, dataEvents, protoToEvent, hda]
      exact hno.trans hdue.symm
    | true =>
      have hst : s.cursor = s.queue.next - 1 := by simp [cursor, hph, hda]
      by_cases hlo : r.lookup ∈ d.lookups
      · refine ⟨s.queue.next - 1, (hcur.trans hst).le, Nat.sub_le _ _, ?_⟩
        have hma : r.Matches d.event.key := (lookup_mem_dispatchLookups hva).mp
          ((hha.lookups hda).2.1 _ hlo)
        rw [(hha.read hda).2, Registration.expects_singleton, if_pos hma]
        simp [Phase.due, Dispatch.due, Dispatch.Pending, hlo, dataEvents, protoToEvent,
          hda]
      · refine ⟨s.queue.next, (hcur.trans hst).le.trans (Nat.sub_le _ _), le_rfl, ?_⟩
        rw [hno]
        simp [Phase.due, Dispatch.due, Dispatch.Pending, hlo, hnt]

theorem Delivers.registered (h : s.Delivers) {key : Bytes} {isPrefix prevKv : Bool} {w : Watcher}
    {registry : WatchRegistry}
    (hreg : s.registry.doRegister key isPrefix prevKv = .ok (w, registry))
    (hva : isPrefix → key.getLast? = some slash) :
    (s.registered isPrefix (.ok (w, registry))).Delivers := by
  have hun := h.unique.doRegister h.id_lt hreg
  obtain ⟨rfl, hnt, hbuf, hsi⟩ := WatchRegistry.doRegister_cases hreg
  have hold (r : Registration) (hr : r ∈ s.registrations) : r.watcher.id ≠ s.registry.nextId :=
    (h.fresh r hr).ne
  have hla {id : Nat} (hid : id < s.registry.nextId) : id < registry.nextId :=
    hnt ▸ hid.trans (Nat.lt_succ_self _)
  have hmem {side : Bool} {v : Watcher} (hv : v.id ≠ s.registry.nextId) :
      v ∈ registry.side side ↔ v ∈ s.registry.side side := by
    rw [hsi]
    split_ifs
    · simp only [List.mem_append, List.mem_singleton, or_iff_left_iff_imp]
      rintro rfl
      exact absurd rfl hv
    · exact Iff.rfl
  refine ⟨h.outbox, h.sent, hun, ?_, ?_, ?_, ?_, ?_, ?_, ?_⟩
  · intro side v hv
    change v ∈ registry.side side at hv
    by_cases hid : v.id = s.registry.nextId
    · rw [hsi] at hv
      split_ifs at hv with heq
      · rcases List.mem_append.mp hv with hin | hin
        · exact absurd hid (h.id_lt side v hin).ne
        · exact ⟨_, List.mem_cons_self, (List.mem_singleton.mp hin).symm, heq.symm⟩
      · exact absurd hid (h.id_lt side v hv).ne
    · obtain ⟨r, hr, hwa⟩ := h.known side v ((hmem hid).mp hv)
      exact ⟨r, List.mem_cons_of_mem _ hr, hwa⟩
  · exact List.forall_mem_cons.mpr ⟨hnt ▸ Nat.lt_succ_self _, fun r hr => hla (h.fresh r hr)⟩
  · intro r hr r' hr' hid
    rcases List.mem_cons.mp hr with rfl | hr
    · rcases List.mem_cons.mp hr' with rfl | hr'
      · rfl
      · exact absurd hid.symm (hold r' hr')
    · rcases List.mem_cons.mp hr' with rfl | hr'
      · exact absurd hid (hold r hr)
      · exact h.eq_of_id r hr r' hr' hid
  · exact List.forall_mem_cons.mpr ⟨hva, h.valid⟩
  · intro p hp
    obtain ⟨hlt, hde⟩ := h.dropped p hp
    refine ⟨hla hlt, ?_⟩
    change (Function.update s.channels s.registry.nextId _ p.1).alive = false
    rw [Function.update_of_ne hlt.ne]
    exact hde
  · intro d hd
    have hha := h.handing d hd
    have hvi (v : Watcher) (hv : v ∈ d.watchers) : v.id ≠ s.registry.nextId := by
      obtain ⟨-, -, side, hin⟩ := hha.watched v hv
      exact (h.id_lt side v hin).ne
    refine ⟨hha.nodup, ?_, ?_, ?_, hha.idle, hha.read, ?_⟩
    · intro v hv
      obtain ⟨hkey, hde, side, hin⟩ := hha.watched v hv
      exact ⟨hkey, hde, side, (hmem (hvi v hv)).mpr hin⟩
    · intro id hid
      obtain ⟨hlt, hkey⟩ := hha.dead id hid
      exact ⟨hla hlt, List.forall_mem_cons.mpr ⟨fun heq => absurd heq.symm hlt.ne, hkey⟩⟩
    · intro n hn v hv
      have hne := hvi v (List.mem_of_mem_head? hv)
      change (Function.update s.channels s.registry.nextId _ v.id).alive = true → _ ∧
        _ ≤ (Function.update s.channels s.registry.nextId _ v.id).capacity
      rw [Function.update_of_ne hne]
      exact hha.available n hn v hv
    · intro hda
      obtain ⟨hno, hlo, hon⟩ := hha.lookups hda
      exact ⟨hno, hlo,
        List.forall_mem_cons.mpr ⟨fun hin => absurd rfl (hvi _ hin), hon⟩⟩
  · intro r hr
    rcases List.mem_cons.mp hr with rfl | hr
    · obtain ⟨start, hcur, hnx, hdue⟩ := h.exists_start
        (r := ⟨⟨s.registry.nextId, key, prevKv⟩, isPrefix, s.cursor, s.queue.sent.length⟩)
        hva rfl rfl
      refine ⟨start, hcur, hnx.trans s.queue.next_le, hnx, ?_⟩
      change Serves (Registration.expects _ (s.queue.kept start s.queue.next)) (s.phase.due _) _
        (Function.update s.channels s.registry.nextId _ s.registry.nextId)
      rw [hdue, Function.update_self]
      apply (Serves.new registry.watcherBufferSize).of_same _ fun _ => rfl
      refine ⟨fun _ => trivial, fun _ => ⟨?_, ?_⟩⟩
      · change _ ∈ registry.side isPrefix
        rw [hsi, if_pos rfl]
        exact List.mem_append_right _ (List.mem_singleton_self _)
      · intro d hd hin
        exact absurd rfl ((h.handing d hd).dead _ hin).1.ne
    · obtain ⟨start, hcur, hca, hnx, hse⟩ := h.serves r hr
      refine ⟨start, hcur, hca, hnx, ?_⟩
      change Serves _ _ _ (Function.update s.channels s.registry.nextId _ r.watcher.id)
      rw [Function.update_of_ne (hold r hr)]
      exact hse.of_same (and_congr_left' (hmem (hold r hr))) fun _ => rfl

/-! ## Steps of the dispatcher -/

theorem Delivers.known_unregister (h : s.Delivers) (id : Nat) (key : Bytes) (side : Bool) :
    ∀ w ∈ (s.registry.unregister id key).side side,
      ∃ r ∈ s.registrations, r.watcher = w ∧ r.isPrefix = side := fun w hw =>
  h.known side w ((WatchRegistry.sublist_side_unregister _ _ _ _).subset hw)

/-- The receiver of a handle is dropped before the watcher is unregistered. -/
theorem Delivers.unregister (h : s.Delivers) (hph : s.phase = .selecting) {id : Nat}
    {key : Bytes} {rest : List (Nat × Bytes)} (hun : s.unregisters = (id, key) :: rest) :
    ({ s with registry := s.registry.unregister id key, unregisters := rest } :
      WatchSystem).Delivers := by
  have hnx := (WatchRegistry.unregister_nextId s.registry id key).1
  have hde := (h.dropped (id, key) (hun ▸ List.mem_cons_self)).2
  refine { h with
    unique := h.unique.unregister id key
    known := h.known_unregister id key
    fresh := fun r hr => hnx ▸ h.fresh r hr
    dropped := fun p hp => ?_
    handing := fun d hd => ?_
    serves := fun r hr => ?_ }
  · exact hnx ▸ h.dropped p (hun ▸ List.mem_cons_of_mem _ hp)
  · cases hph.symm.trans hd
  · obtain ⟨start, hcur, hca, hnt, hse⟩ := h.serves r hr
    refine ⟨start, hcur, hca, hnt, ?_⟩
    by_cases hid : r.watcher.id = id
    · exact hse.of_not_alive (hid ▸ hde)
    · apply hse.of_same (and_congr_left' ?_) fun _ => rfl
      change r.watcher ∈ (s.registry.unregister id key).side r.isPrefix ↔ _
      rw [WatchRegistry.mem_side_unregister h.unique]
      exact and_iff_left fun hin => hid hin.2

/-- The dispatcher begins to hand out an event: nothing was found yet. -/
theorem handing_start {lookups : List Lookup}
    (hre : event.eventType.isData →
      0 < s.queue.next ∧ s.queue.kept (s.queue.next - 1) s.queue.next = [event])
    (hlo : event.eventType.isData → lookups = dispatchLookups event.key) :
    s.Handing (Dispatch.start event lookups) where
  nodup := List.nodup_nil
  watched := nofun
  dead := nofun
  available := nofun
  idle _ := rfl
  read := hre
  lookups hda := by
    have heq : (Dispatch.start event lookups).lookups = dispatchLookups event.key :=
      hlo hda
    rw [heq]
    exact ⟨nodup_dispatchLookups _, fun _ hl => hl, nofun⟩

theorem active_of_selecting (hph : s.phase = .selecting) {phase : Phase}
    (hde : ∀ d, phase = .dispatching d → d.deadWatchers = []) {queue : Broadcast WatchResponse} :
    ({ s with phase := phase, queue := queue } : WatchSystem).Active r ↔ s.Active r := by
  apply and_congr_right'
  constructor
  · intro _ d hd
    cases hph.symm.trans hd
  · intro _ d hd
    rw [hde d hd]
    exact List.not_mem_nil

theorem Delivers.receive (h : s.Delivers) (hph : s.phase = .selecting)
    {queue : Broadcast WatchResponse} (hre : s.queue.recv = some (.value event, queue)) :
    ({ s with
      queue := queue
      phase := .dispatching (Dispatch.start event (dispatchLookups event.key)) } :
        WatchSystem).Delivers := by
  obtain ⟨hle, hsn, ⟨n, hlg, -⟩ | ⟨event', hin, hva, hnx, hke⟩⟩ :=
    Broadcast.recv_cases hre
  · cases hlg
  cases hva
  have hda : event.eventType.isData := h.sent event hin
  refine { h with sent := hsn.symm ▸ h.sent, handing := fun d hd => ?_, serves := fun r hr => ?_ }
  · cases hd
    refine handing_start (fun _ => ?_) fun _ => rfl
    change 0 < queue.next ∧ queue.kept (queue.next - 1) queue.next = [event]
    have hla := hke s.queue.next le_rfl
    rw [Broadcast.kept_self] at hla
    rw [hnx] at hla ⊢
    exact ⟨Nat.succ_pos _, hla⟩
  · obtain ⟨start, hcur, hca, hst, hse⟩ := h.serves r hr
    refine ⟨start, hcur, hca, hst.trans hle, ?_⟩
    have hdue : r.expects [event] =
        (Dispatch.start event (dispatchLookups event.key)).due r := by
      rw [Registration.expects_singleton]
      have hpe : (Dispatch.start event (dispatchLookups event.key)).Pending r ↔
          r.Matches event.key := by
        rw [← lookup_mem_dispatchLookups (h.valid r hr)]
        exact ⟨fun hor => hor.resolve_left nofun, Or.inr⟩
      have hone : dataEvents [protoToEvent event r.watcher.prevKv] =
          [protoToEvent event r.watcher.prevKv] := by
        simp [dataEvents, protoToEvent, hda]
      simp only [Dispatch.due, hpe]
      rw [← hone]
      rfl
    change Serves (r.expects (queue.kept start queue.next)) _ _ _
    rw [hke start hst, Registration.expects_append, hdue]
    rw [hph] at hse
    exact hse.read.of_same (active_of_selecting hph (by
      rintro d ⟨⟩
      rfl)) fun _ => rfl

theorem Delivers.lag (h : s.Delivers) (hph : s.phase = .selecting) {n : Nat}
    {queue : Broadcast WatchResponse} (hre : s.queue.recv = some (.lagged n, queue)) :
    ({ s with queue := queue } : WatchSystem).Delivers := by
  obtain ⟨hle, hse, ⟨n, -, hke⟩ | ⟨event', -, hva, -⟩⟩ := Broadcast.recv_cases hre
  · refine { h with
      sent := hse.symm ▸ h.sent, handing := fun d hd => ?_, serves := fun r hr => ?_ }
    · cases hph.symm.trans hd
    · obtain ⟨start, hcur, hca, hst, hsr⟩ := h.serves r hr
      refine ⟨start, hcur, hca, hst.trans hle, ?_⟩
      change Serves (r.expects (queue.kept start queue.next)) _ _ _
      rw [hke start hst]
      exact hsr
  · cases hva

/-- A phase in which nothing is due and nobody is to be removed. -/
theorem Delivers.setPhase (h : s.Delivers) (hse : s.phase = .selecting) {phase : Phase}
    (hdue : ∀ r, phase.due r = []) (hde : ∀ d, phase = .dispatching d → d.deadWatchers = [])
    (hha : ∀ d, phase = .dispatching d → s.Handing d) :
    ({ s with phase := phase } : WatchSystem).Delivers := by
  refine { h with handing := fun d hd => ?_, serves := fun r hr => ?_ }
  · exact { hha d hd with }
  · obtain ⟨start, hcur, hca, hnx, hsr⟩ := h.serves r hr
    refine ⟨start, hcur, hca, hnx, ?_⟩
    apply hsr.of_same (active_of_selecting hse hde)
    intro _
    rw [hse]
    exact hdue r

theorem Delivers.heartbeat (h : s.Delivers) (hph : s.phase = .selecting) (lastApplied : Nat)
    (lookups : List Lookup) :
    ({ s with phase := .dispatching (Dispatch.start (progressEvent lastApplied) lookups) } :
      WatchSystem).Delivers := by
  refine h.setPhase hph (fun r => ?_) (fun d hd => ?_) fun d hd => ?_
  · simp [Phase.due, Dispatch.due, Dispatch.start, dataEvents, protoToEvent, progressEvent,
      WatchEventType.isData]
  · cases hd
    rfl
  · cases hd
    exact handing_start nofun nofun

end WatchSystem

end DEngine.Watch

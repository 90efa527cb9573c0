import DEngine.Watch.Delivery

/-!
# What a watcher receives

Two things make what a watcher receives less, or other, than all events that are broadcast
for it after its registration. What the broadcast channel has overwritten before the
dispatcher came to it reaches nobody: the dispatcher only notes that it lags behind. And an
event that was broadcast earlier reaches a watcher that registers before it is handed out.
Apart from them there are no gaps, and a full channel ends in a cancellation.
-/

namespace DEngine.Watch

open Apply Library

namespace WatchSystem

variable {s t : WatchSystem} {d : Dispatch} {r : Registration}

/-! ## A dispatch -/

theorem active_iff (hph : s.phase = .dispatching d) : s.Active r ↔
    r.watcher ∈ s.registry.side r.isPrefix ∧ r.watcher.id ∉ d.deadWatchers := by
  apply and_congr_right'
  constructor
  · intro h
    exact h d hph
  · intro h d' hd'
    cases hph.symm.trans hd'
    exact h

theorem alive_visit {event : WatchResponse} {watcher : Watcher} {available : Nat}
    {channel channel' : Mailbox WatchEvent} {dead : Bool}
    (h : Watch.visit event watcher available channel = (channel', dead)) :
    channel'.alive = channel.alive := by
  have htry {event : WatchEvent} {channel' : Mailbox WatchEvent}
      (hok : channel.trySend event = .ok channel') : channel'.alive = channel.alive := by
    unfold Mailbox.trySend at hok
    split_ifs at hok
    cases hok
    rfl
  unfold Watch.visit at h
  split_ifs at h
  · split at h <;> cases h
    · exact htry ‹_›
    · rfl
  · cases h
    rfl
  · split at h <;> cases h
    · exact htry ‹_›
    · rfl
    · rfl

/-- The capacity of the channel of the next watcher is read. -/
theorem Delivers.readCapacity (h : s.Delivers) (hph : s.phase = .dispatching d) {w : Watcher}
    {rest : List Watcher} (hwa : d.watchers = w :: rest) :
    ({ s with phase := .dispatching { d with
        available := some (s.channels w.id).capacity } } : WatchSystem).Delivers := by
  have hha := h.handing d hph
  refine { h with handing := fun d' hd' => ?_, serves := fun r hr => ?_ }
  · cases hd'
    refine { hha with
      available := fun n hn v hv hal => ?_
      idle := fun hnil => absurd (hwa.symm.trans hnil) (List.cons_ne_nil _ _) }
    cases hn
    have hvw : v = w := by simpa [hwa] using hv.symm
    subst hvw
    obtain ⟨r, hr, rfl, hact⟩ :=
      h.exists_registration hph (w := v) (hwa ▸ List.mem_cons_self)
    obtain ⟨start, -, -, -, hse⟩ := h.serves r hr
    exact ⟨hse.room hact hal, le_rfl⟩
  · obtain ⟨start, hcur, hca, hnx, hse⟩ := h.serves r hr
    refine ⟨start, hcur, hca, hnx, hse.of_same ?_ fun _ => ?_⟩
    · refine (active_iff rfl).trans ?_
      exact (active_iff hph).symm
    · rw [hph]
      rfl

/-- The next watcher is visited. -/
theorem Delivers.visit (h : s.Delivers) (hph : s.phase = .dispatching d) {w : Watcher}
    {rest : List Watcher} (hwa : d.watchers = w :: rest) {available : Nat}
    (hav : d.available = some available) {channel : Mailbox WatchEvent} {dead : Bool}
    (hvi : Watch.visit d.event w available (s.channels w.id) = (channel, dead)) :
    ({ s.setChannel w.id channel with
        phase := .dispatching { d with
          watchers := rest
          available := none
          deadWatchers := if dead then d.deadWatchers ++ [w.id] else d.deadWatchers } } :
      WatchSystem).Delivers := by
  have hha := h.handing d hph
  have hw : w ∈ d.watchers := hwa ▸ List.mem_cons_self
  have hno : (w :: rest).Nodup := hwa ▸ hha.nodup
  have hre (v : Watcher) (hv : v ∈ rest) : v ∈ d.watchers :=
    hwa ▸ List.mem_cons_of_mem _ hv
  obtain ⟨r₀, hr₀, hr₀w, hactive₀⟩ := h.exists_registration hph hw
  have hde (id : Nat) : id ∈ (if dead then d.deadWatchers ++ [w.id] else d.deadWatchers) ↔
      id ∈ d.deadWatchers ∨ dead = true ∧ id = w.id := by
    cases dead <;> simp
  generalize (if dead then d.deadWatchers ++ [w.id] else d.deadWatchers) = deadWatchers at hde ⊢
  have hsa (r : Registration) (hr : r ∈ s.registrations) (hid : r.watcher.id = w.id) : r = r₀ :=
    h.eq_of_id r hr r₀ hr₀ (hid.trans (congrArg Watcher.id hr₀w).symm)
  refine { h with dropped := fun p hp => ?_, handing := fun d' hd' => ?_, serves := fun r hr => ?_ }
  · obtain ⟨hlt, hal⟩ := h.dropped p hp
    refine ⟨hlt, ?_⟩
    change (Function.update s.channels w.id channel p.1).alive = false
    rw [Function.update_apply]
    split_ifs with heq
    · rw [alive_visit hvi, ← heq, hal]
    · exact hal
  · cases hd'
    refine ⟨(List.nodup_cons.mp hno).2, fun v hv => ?_, fun id hid => ?_, nofun,
      fun _ => rfl, hha.read, fun hda => ?_⟩
    · obtain ⟨hkey, hnt, side, hsi⟩ := hha.watched v (hre v hv)
      refine ⟨hkey, fun hin => ?_, side, hsi⟩
      rcases (hde v.id).mp hin with hin | ⟨-, hid⟩
      · exact hnt hin
      · obtain ⟨-, -, side', hsi'⟩ := hha.watched w hw
        have hvw : v = w := (h.unique.eq_of_id hsi hsi' hid).2
        exact (List.nodup_cons.mp hno).1 (hvw ▸ hv)
    · rcases (hde id).mp hid with hid | ⟨-, rfl⟩
      · exact hha.dead id hid
      · refine ⟨hr₀w ▸ h.fresh r₀ hr₀, fun r hr hid => ?_⟩
        rw [hsa r hr hid, hr₀w]
        exact (hha.watched w hw).1
    · obtain ⟨hlo, hhit, hon⟩ := hha.lookups hda
      exact ⟨hlo, hhit, fun r hr hin => hon r hr (hre _ hin)⟩
  · obtain ⟨start, hcur, hca, hnx, hse⟩ := h.serves r hr
    refine ⟨start, hcur, hca, hnx, ?_⟩
    change Serves (r.expects (s.queue.kept start s.queue.next)) _ _
      (Function.update s.channels w.id channel r.watcher.id)
    rw [hph] at hse
    by_cases hid : r.watcher.id = w.id
    · -- the watcher that is visited: it is no longer due the event
      obtain rfl := hsa r hr hid
      rw [hid, Function.update_self]
      rw [hid] at hse
      have hpe : d.Pending r := Or.inl (hr₀w.symm ▸ hw)
      have hvs := hse.visit hactive₀ (by
        rw [← hr₀w]
        exact if_pos hpe) (hha.available available hav w (by simp [hwa]))
        hvi
      apply hvs.of_same
      · rw [active_iff rfl]
        change r.watcher ∈ s.registry.side r.isPrefix ∧ r.watcher.id ∉ deadWatchers ↔ dead = false
        rw [hde, not_or]
        have hold := (active_iff hph).mp hactive₀
        rw [hid] at hold ⊢
        simp [hold]
      · intro _
        change Dispatch.due _ r = []
        unfold Dispatch.due
        by_cases hda : d.event.eventType.isData
        · have hdn : ¬(Dispatch.Pending { d with
              watchers := rest
              available := none
              deadWatchers := deadWatchers } r) := by
            rintro (hin | hin)
            · exact (List.nodup_cons.mp hno).1 (hr₀w ▸ hin)
            · exact (hha.lookups hda).2.2 r hr (hr₀w.symm ▸ hw) hin
          exact if_neg hdn
        · simp [dataEvents, protoToEvent, hda]
    · rw [Function.update_of_ne hid]
      have hne : r.watcher ≠ w := fun heq => hid (congrArg Watcher.id heq)
      apply hse.of_same
      · rw [active_iff rfl, active_iff hph]
        change r.watcher ∈ s.registry.side r.isPrefix ∧ r.watcher.id ∉ deadWatchers ↔ _
        rw [hde]
        simp [hid]
      · intro _
        change Dispatch.due _ r = d.due r
        apply Dispatch.due_congr
        · rfl
        · simp [Dispatch.Pending, hwa, hne]

/-- A dead watcher is removed. -/
theorem Delivers.bury (h : s.Delivers) (hph : s.phase = .dispatching d)
    (hwa : d.watchers = []) {id : Nat} {rest : List Nat} (hde : d.deadWatchers = id :: rest) :
    ({ s with
        registry := s.registry.unregister id d.lookupKey
        phase := .dispatching { d with deadWatchers := rest } } : WatchSystem).Delivers := by
  have hha := h.handing d hph
  have hnx := (WatchRegistry.unregister_nextId s.registry id d.lookupKey).1
  refine { h with
    unique := h.unique.unregister id d.lookupKey
    known := h.known_unregister id d.lookupKey
    fresh := fun r hr => hnx ▸ h.fresh r hr
    dropped := fun p hp => hnx ▸ h.dropped p hp
    handing := fun d' hd' => ?_
    serves := fun r hr => ?_ }
  · cases hd'
    refine { hha with watched := fun w hw => ?_, dead := fun id' hid' => ?_ }
    · rw [hwa] at hw
      cases hw
    · exact hnx ▸ hha.dead id' (hde ▸ List.mem_cons_of_mem _ hid')
  · obtain ⟨start, hcur, hca, hnt, hse⟩ := h.serves r hr
    refine ⟨start, hcur, hca, hnt, ?_⟩
    have hsi : r.watcher ∈ (s.registry.unregister id d.lookupKey).side r.isPrefix ↔
        r.watcher ∈ s.registry.side r.isPrefix ∧
          ¬(r.watcher.key = d.lookupKey ∧ r.watcher.id = id) :=
      WatchRegistry.mem_side_unregister h.unique
    by_cases hid : r.watcher.id = id
    · have hkey := (hha.dead id (hde ▸ List.mem_cons_self)).2 r hr hid
      apply hse.of_inactive
      · rw [active_iff hph, hde, hid]
        simp
      · intro hact
        exact (hsi.mp hact.1).2 ⟨hkey, hid⟩
    · apply hse.of_same
      · rw [active_iff rfl, active_iff hph, hde]
        change r.watcher ∈ (s.registry.unregister id d.lookupKey).side r.isPrefix ∧
          r.watcher.id ∉ rest ↔ _
        rw [hsi]
        simp [hid]
      · intro _
        rw [hph]
        rfl

/-- The next map is looked up. -/
theorem Delivers.look (h : s.Delivers) (hph : s.phase = .dispatching d)
    (hwa : d.watchers = []) (hde : d.deadWatchers = []) {lookup : Lookup}
    {rest : List Lookup} (hlo : d.lookups = lookup :: rest) :
    ({ s with phase := .dispatching { d with
        lookupKey := lookup.key
        watchers := s.registry.watchers lookup
        lookups := rest } } : WatchSystem).Delivers := by
  have hha := h.handing d hph
  have hfo {w : Watcher} : w ∈ s.registry.watchers lookup ↔
      w ∈ s.registry.side lookup.isPrefix ∧ w.key = lookup.key := by
    simp [WatchRegistry.watchers]
  -- a registered watcher is found by its own lookup and by no other
  have hown (r : Registration) (hr : r ∈ s.registrations) :
      r.watcher ∈ s.registry.watchers lookup → r.lookup = lookup := by
    intro hin
    obtain ⟨hsi, hkey⟩ := hfo.mp hin
    obtain ⟨r', hr', hwt, hpr⟩ := h.known _ _ hsi
    obtain rfl := h.eq_of_id r hr r' hr' (congrArg Watcher.id hwt.symm)
    simp [Registration.lookup, hpr, hkey]
  refine { h with handing := fun d' hd' => ?_, serves := fun r hr => ?_ }
  · cases hd'
    refine ⟨(h.unique.nodup _).filter _, fun w hw => ?_, fun id hid => ?_, fun n hn => ?_,
      fun _ => hha.idle hwa, hha.read, fun hda => ?_⟩
    · obtain ⟨hsi, hkey⟩ := hfo.mp hw
      exact ⟨hkey, hde ▸ List.not_mem_nil, _, hsi⟩
    · exact absurd (hde ▸ hid) List.not_mem_nil
    · cases (hha.idle hwa).symm.trans hn
    · obtain ⟨hno, hhit, -⟩ := hha.lookups hda
      rw [hlo] at hno hhit
      refine ⟨(List.nodup_cons.mp hno).2, fun l hl => hhit l (List.mem_cons_of_mem _ hl),
        fun r hr hin => ?_⟩
      rw [hown r hr hin]
      exact (List.nodup_cons.mp hno).1
  · obtain ⟨start, hcur, hca, hnx, hse⟩ := h.serves r hr
    refine ⟨start, hcur, hca, hnx, hse.of_same ?_ fun hact => ?_⟩
    · refine (active_iff rfl).trans ?_
      exact (active_iff hph).symm
    · rw [hph]
      change Dispatch.due _ r = d.due r
      apply Dispatch.due_congr
      · rfl
      · simp only [Dispatch.Pending, hwa, hlo, List.not_mem_nil, false_or, List.mem_cons]
        apply or_congr_left
        refine ⟨hown r hr, fun heq => hfo.mpr ?_⟩
        rw [← heq]
        exact ⟨hact.1, rfl⟩

/-- The event is handed out. -/
theorem Delivers.finish (h : s.Delivers) (hph : s.phase = .dispatching d)
    (hwa : d.watchers = []) (hde : d.deadWatchers = []) (hlo : d.lookups = []) :
    ({ s with phase := .selecting } : WatchSystem).Delivers := by
  refine { h with handing := nofun, serves := fun r hr => ?_ }
  obtain ⟨start, hcur, hca, hnx, hse⟩ := h.serves r hr
  refine ⟨start, hcur, hca, hnx, hse.of_same ?_ fun _ => ?_⟩
  · rw [active_iff hph, hde]
    exact and_congr_right' ⟨fun _ => List.not_mem_nil, fun _ => nofun⟩
  · rw [hph]
    simp [Phase.due, Dispatch.due, Dispatch.Pending, hwa, hlo]

theorem Delivers.dispatchStep (h : s.Delivers) (hph : s.phase = .dispatching d) :
    (s.dispatchStep d).Delivers := by
  unfold WatchSystem.dispatchStep
  split
  · rename_i w rest hwa
    split
    · exact h.readCapacity hph hwa
    · rename_i available hav
      exact h.visit hph hwa hav rfl
  · rename_i id rest hwa hde
    exact h.bury hph hwa hde
  · rename_i lookup rest hwa hde hlo
    exact h.look hph hwa hde hlo
  · rename_i hwa hde hlo
    exact h.finish hph hwa hde hlo

theorem delivers_of_step {l : WatchLabel} (h : s.Delivers) (hst : s.step l = some t) :
    t.Delivers := by
  cases l
  all_goals simp only [step] at hst
  case apply chunk results prevValues =>
    split_ifs at hst
    cases hst
    exact { h with
      outbox := fun event he => isData_of_mem_broadcastWatchEvents he
      handing := fun d hd => { h.handing d hd with } }
  case send =>
    split at hst <;> cases hst
    exact h.send ‹_›
  case close =>
    split_ifs at hst
    cases hst
    exact { h with handing := fun d hd => { h.handing d hd with } }
  case register key prevKv =>
    cases hst
    cases hreg : s.registry.register key prevKv with
    | error => exact h
    | ok => exact h.registered hreg (absurd · Bool.false_ne_true)
  case registerPrefix path prevKv =>
    cases hst
    cases hreg : s.registry.registerPrefix path prevKv with
    | error => exact h
    | ok =>
      unfold WatchRegistry.registerPrefix at hreg
      split_ifs at hreg with hiv
      refine h.registered hreg fun _ => ?_
      simpa using (not_or.mp hiv).2
  case unregister =>
    split at hst <;> cases hst
    rename_i id key rest hph hun
    exact h.unregister hph hun
  case receive =>
    split at hst
    · rename_i event queue hph hre
      cases hst
      exact h.receive hph hre
    · rename_i n queue hph hre
      cases hst
      exact h.lag hph hre
    · rename_i hph hre
      split_ifs at hst
      cases hst
      have hsp : ∀ d, Phase.stopped ≠ .dispatching d := fun d hd => by cases hd
      exact h.setPhase hph (fun _ => rfl) (fun d hd => absurd hd (hsp d))
        fun d hd => absurd hd (hsp d)
    · cases hst
  case heartbeat lastApplied exactKeys prefixKeys =>
    split at hst <;> cases hst
    rename_i hph
    exact h.heartbeat hph lastApplied _
  case dispatch =>
    split at hst <;> cases hst
    rename_i d hph
    exact h.dispatchStep hph
  case recv id =>
    obtain ⟨channel, hre, rfl⟩ := Option.map_eq_some_iff.mp hst
    exact h.setChannel (fun hse => hse.recv hre) fun hal =>
      ⟨Mailbox.alive_recv hre ▸ hal, Mailbox.capacity_recv hre⟩
  case dropHandle r =>
    split_ifs at hst with hin
    cases hst
    have hset : (s.setChannel r.watcher.id _).Delivers :=
      h.setChannel (fun hse => hse.dropReceiver) (absurd · Bool.false_ne_true)
    refine { hset with
      dropped := fun p hp => ?_
      handing := fun d hd => { hset.handing d hd with } }
    rcases List.mem_append.mp hp with hold | hnew
    · exact hset.dropped p hold
    · rw [List.mem_singleton.mp hnew]
      refine ⟨h.fresh r hin.1, ?_⟩
      simp [WatchSystem.setChannel, Mailbox.dropReceiver]
  case dropReceiver id =>
    cases hst
    exact h.setChannel (fun hse => hse.dropReceiver) (absurd · Bool.false_ne_true)

theorem delivers_new (capacity watcherBufferSize maxWatcherCount : Nat) :
    (WatchSystem.new capacity watcherBufferSize maxWatcherCount).Delivers where
  outbox := nofun
  sent := nofun
  unique := by
    refine ⟨fun side => ?_, fun {side side' w w'} hw => ?_⟩
    · cases side <;> exact List.nodup_nil
    · cases side <;> cases hw
  known side w hw := by
    cases side <;> cases hw
  fresh := nofun
  eq_of_id := nofun
  valid := nofun
  dropped := nofun
  handing := nofun
  serves := nofun

/-! ## Runs -/

/-- What the watcher receives before a cancellation is a run without gaps of what was broadcast
for it after its registration. -/
def NoSilentGap (s : WatchSystem) (r : Registration) : Prop :=
  dataEvents ((s.channels r.watcher.id).received.takeWhile fun event =>
    event.eventType ≠ .canceled) <:+: r.expects (s.queue.sent.drop r.broadcast)

/-- What the watcher receives is a run without gaps of what was broadcast for it and not missed by
the dispatcher. It starts no later than with the first event behind the registration, and no
earlier than with the event that the dispatcher was handing out or would read next. -/
def ReceivesRun (s : WatchSystem) (r : Registration) : Prop :=
  ∃ start, r.cursor ≤ start ∧ start ≤ r.broadcast ∧
    dataEvents (s.channels r.watcher.id).received <+:
      r.expects (s.queue.kept start s.queue.sent.length)

instance (s : WatchSystem) (r : Registration) : Decidable (s.NoSilentGap r) :=
  inferInstanceAs (Decidable (_ <:+: _))

variable {eventQueueSize watcherBufferSize maxWatcherCount : Nat}
  {cond : WatchSystem → WatchLabel → Prop}

theorem delivers_of_reach
    (hs : (watchLoop eventQueueSize watcherBufferSize maxWatcherCount).Reach cond s) :
    s.Delivers := by
  apply hs.invariant
  · rintro s ⟨capacity, -, rfl⟩
    exact delivers_new capacity watcherBufferSize maxWatcherCount
  · intro s l t h _ hst
    exact delivers_of_step h hst

/-- While a watcher is registered and the dispatcher hands nothing out, the channel has been given
everything that the dispatcher has read for it. -/
theorem delivered_of_reach
    (hs : (watchLoop eventQueueSize watcherBufferSize maxWatcherCount).Reach cond s)
    (hr : r ∈ s.registrations) (hse : s.phase = .selecting)
    (hsi : r.watcher ∈ s.registry.side r.isPrefix) (hal : (s.channels r.watcher.id).alive = true) :
    ∃ start, r.cursor ≤ start ∧ start ≤ r.broadcast ∧
      dataEvents (s.channels r.watcher.id).put = r.expects (s.queue.kept start s.queue.next) := by
  obtain ⟨start, hcur, hca, -, hsr⟩ := (delivers_of_reach hs).serves r hr
  have hact : s.Active r := ⟨hsi, fun d hd => by cases hse.symm.trans hd⟩
  have hwh := hsr.whole hact hal
  rw [hse] at hwh
  exact ⟨start, hcur, hca, (List.append_nil _).symm.trans hwh⟩

/-- A watcher whose receiver is alive is unregistered only behind a cancellation. -/
theorem canceled_of_unregistered
    (hs : (watchLoop eventQueueSize watcherBufferSize maxWatcherCount).Reach cond s)
    (hr : r ∈ s.registrations) (hsi : r.watcher ∉ s.registry.side r.isPrefix)
    (hal : (s.channels r.watcher.id).alive = true) :
    ∃ event ∈ (s.channels r.watcher.id).put.getLast?, event.eventType = .canceled := by
  obtain ⟨start, -, -, -, hse⟩ := (delivers_of_reach hs).serves r hr
  exact hse.ended (fun hact => hsi hact.1) hal

end WatchSystem

/-- In every run, what a watcher receives is a run without gaps of the events that the dispatcher
did not miss. -/
theorem received_run_of_reach {eventQueueSize watcherBufferSize maxWatcherCount : Nat}
    {s : WatchSystem} {r : Registration}
    (hs : (watchLoop eventQueueSize watcherBufferSize maxWatcherCount).Reach (fun _ _ => True) s)
    (hr : r ∈ s.registrations) : s.ReceivesRun r := by
  obtain ⟨start, hcu, hbr, hnx, hse⟩ :=
    (WatchSystem.delivers_of_reach hs).serves r hr
  refine ⟨start, hcu, hbr, ?_⟩
  have hre : dataEvents (s.channels r.watcher.id).received <+:
      r.expects (s.queue.kept start s.queue.next) :=
    (Mailbox.received_prefix_put.filter _).trans hse.run
  rw [Broadcast.kept_append hnx s.queue.next_le, Registration.expects_append]
  exact hre.trans (List.prefix_append _ _)

/-- The worker applies an insert of the key and sends its event. -/
def insertOf (index : Nat) : List WatchLabel :=
  [.apply [⟨index, 1, .insert [1] [2] none⟩] [⟨index, true⟩] none, .send]

/-- The next event is taken and handed to the one watcher of its key. -/
def handOut : List WatchLabel := [.receive, .dispatch, .dispatch, .dispatch, .dispatch]

def putOf (index : Nat) : WatchEvent := ⟨.put, [1], [2], none, index⟩

/-- The second event is broadcast when the dispatcher has handed out the first. -/
def inTurn : List WatchLabel :=
  [.register [1] false] ++ insertOf 1 ++ handOut ++ insertOf 2 ++ handOut ++ [.recv 1, .recv 1]

theorem received_in_turn :
    ∃ s : WatchSystem, (watchLoop 1 2 1).Reach (fun _ _ => True) s ∧
      ∃ r ∈ s.registrations, s.ReceivesRun r ∧
        (s.channels r.watcher.id).received = [putOf 1, putOf 2] := by
  have hre : ∃ s : WatchSystem, (watchLoop 1 2 1).Reach (fun _ _ => True) s ∧
      ∃ r ∈ s.registrations, (s.channels r.watcher.id).received = [putOf 1, putOf 2] :=
    Machine.exists_reach_of_runIf inTurn ⟨1, le_rfl, rfl⟩ (by decide +kernel)
  obtain ⟨s, hs, r, hr, hrc⟩ := hre
  exact ⟨s, hs, r, hr, received_run_of_reach hs hr, hrc⟩

/-- Both events have been put into the channel of the watcher. -/
theorem delivered_in_turn :
    ∃ s : WatchSystem, (watchLoop 1 2 1).Reach (fun _ _ => True) s ∧
      ∃ r ∈ s.registrations, ∃ start, r.cursor ≤ start ∧ start ≤ r.broadcast ∧
        [putOf 1, putOf 2] = r.expects (s.queue.kept start s.queue.next) := by
  have hre : ∃ s : WatchSystem, (watchLoop 1 2 1).Reach (fun _ _ => True) s ∧
      ∃ r ∈ s.registrations, s.phase = .selecting ∧ r.watcher ∈ s.registry.side r.isPrefix ∧
        (s.channels r.watcher.id).alive = true ∧
        dataEvents (s.channels r.watcher.id).put = [putOf 1, putOf 2] :=
    Machine.exists_reach_of_runIf inTurn ⟨1, le_rfl, rfl⟩ (by decide +kernel)
  obtain ⟨s, hs, r, hr, hse, hsi, hal, hpu⟩ := hre
  exact ⟨s, hs, r, hr, hpu ▸ WatchSystem.delivered_of_reach hs hr hse hsi hal⟩

/-- Nothing is read, and the channel is full when the third event comes. -/
def unread : List WatchLabel :=
  [.register [1] false] ++ insertOf 1 ++ handOut ++ insertOf 2 ++ handOut ++ insertOf 3 ++ handOut

theorem canceled_when_full :
    ∃ s : WatchSystem, (watchLoop 1 2 1).Reach (fun _ _ => True) s ∧
      ∃ r ∈ s.registrations, r.watcher ∉ s.registry.side r.isPrefix ∧
        ∃ event ∈ (s.channels r.watcher.id).put.getLast?, event.eventType = .canceled := by
  have hre : ∃ s : WatchSystem, (watchLoop 1 2 1).Reach (fun _ _ => True) s ∧
      ∃ r ∈ s.registrations, r.watcher ∉ s.registry.side r.isPrefix ∧
        (s.channels r.watcher.id).alive = true :=
    Machine.exists_reach_of_runIf unread ⟨1, le_rfl, rfl⟩ (by decide +kernel)
  obtain ⟨s, hs, r, hr, hsi, hal⟩ := hre
  exact ⟨s, hs, r, hr, hsi, WatchSystem.canceled_of_unregistered hs hr hsi hal⟩

/-- Two events are broadcast into a channel for one before the dispatcher comes to them. -/
def overrun : List WatchLabel :=
  [.register [1] false] ++ insertOf 1 ++ handOut ++ insertOf 2 ++ insertOf 3 ++ [.receive] ++
    handOut ++ [.recv 1, .recv 1]

/-- The watcher registers when the event is on its way. -/
def registeredLate : List WatchLabel :=
  insertOf 1 ++ [.register [1] false] ++ handOut ++ [.recv 1]

/-- A watcher that stays registered receives the first and the third of three events; another one
receives an event from before its registration. -/
theorem overwritten_without_cancel :
    (∃ s : WatchSystem, (watchLoop 1 2 1).Reach (fun _ _ => True) s ∧
      ∃ r ∈ s.registrations, ¬s.NoSilentGap r ∧ r.watcher ∈ s.registry.exactWatchers ∧
        r.expects (s.queue.sent.drop r.broadcast) = [putOf 1, putOf 2, putOf 3] ∧
        (s.channels r.watcher.id).received = [putOf 1, putOf 3]) ∧
    ∃ s : WatchSystem, (watchLoop 1 2 1).Reach (fun _ _ => True) s ∧
      ∃ r ∈ s.registrations, ¬s.NoSilentGap r ∧
        r.expects (s.queue.sent.drop r.broadcast) = [] ∧
        (s.channels r.watcher.id).received = [putOf 1] :=
  ⟨Machine.exists_reach_of_runIf overrun ⟨1, le_rfl, rfl⟩ (by decide +kernel),
    Machine.exists_reach_of_runIf registeredLate ⟨1, le_rfl, rfl⟩ (by decide +kernel)⟩

end DEngine.Watch

import DEngine.Watch.Streams

/-!
# Revisions of progress events

A heartbeat sends every watcher a progress event with the applied index. It reads that
index from a counter which the builder of the node creates at the index of the start and
gives to the dispatcher alone: the writer of the state machine advances another one. So
every progress event has the revision of the start, and goes back behind an event of an
entry that was applied since. It does not as long as every heartbeat finds only watchers
that have been sent no such event.
-/

namespace DEngine.Watch

open Apply Adaptors Library

/-- In a node that was built at the applied index `start`, a heartbeat reads what the counter had
at the start. -/
def BuiltAt (start : Nat) : WatchSystem → WatchLabel → Prop
  | _, .heartbeat lastApplied _ _ => lastApplied = start
  | _, _ => True

instance (start : Nat) (s : WatchSystem) (l : WatchLabel) : Decidable (BuiltAt start s l) := by
  cases l <;> dsimp only [BuiltAt] <;> infer_instance

/-- No event of an entry was put into the channel. -/
def Quiet (channel : Mailbox WatchEvent) : Prop := ∀ e ∈ channel.put, e.eventType.isData = false
deriving Decidable

/-- A heartbeat finds no registered watcher that was sent an event of an entry. -/
def FindsQuiet (s : WatchSystem) : WatchLabel → Prop
  | .heartbeat _ _ _ => ∀ side, ∀ w ∈ s.registry.side side, Quiet (s.channels w.id)
  | _ => True

instance (s : WatchSystem) (l : WatchLabel) : Decidable (FindsQuiet s l) := by
  cases l <;> dsimp only [FindsQuiet] <;> infer_instance

namespace WatchSystem

/-- The progress events of a channel do not go back, and only events of entries are behind the
start. -/
structure Forward (start : Nat) (events : List WatchEvent) : Prop where
  ordered : events.Pairwise fun a b => b.eventType = .progress → a.revision ≤ b.revision
  stamped : ∀ e ∈ events, e.eventType.isData ∨ e.revision ≤ start

/-- While progress is handed out, no watcher that may be visited was sent an event of an entry. -/
structure Steady (start : Nat) (s : WatchSystem) : Prop where
  outbox : ∀ event ∈ s.outbox, event.eventType.isData
  sent : ∀ event ∈ s.queue.sent, event.eventType.isData
  dispatching : ∀ d, s.phase = .dispatching d → d.event.eventType.isData ∨
    d.event = progressEvent start ∧
      ∀ w, (w ∈ d.watchers ∨ ∃ side, w ∈ s.registry.side side) → Quiet (s.channels w.id)
  channels : ∀ id, Forward start (s.channels id).put

variable {start : Nat} {s t : WatchSystem}

/-- An event may be put behind others unless it is progress behind an event of an entry. -/
theorem Forward.append {events : List WatchEvent} (h : Forward start events) {e : WatchEvent}
    (hpr : e.eventType = .progress → e.revision = start ∧ ∀ a ∈ events, a.eventType.isData = false)
    (hst : e.eventType.isData ∨ e.revision ≤ start) : Forward start (events ++ [e]) where
  ordered := by
    refine List.pairwise_append.mpr ⟨h.ordered, List.pairwise_singleton _ _, ?_⟩
    rintro a ha _ hb hty
    obtain rfl := List.mem_singleton.mp hb
    obtain ⟨hrev, hqu⟩ := hpr hty
    have hno := hqu a ha
    rcases h.stamped a ha with hda | hle
    · rw [hno] at hda
      cases hda
    · exact hle.trans hrev.ge
  stamped := by
    intro a ha
    rcases List.mem_append.mp ha with hold | hnew
    · exact h.stamped a hold
    · exact List.mem_singleton.mp hnew ▸ hst

theorem Forward.sublist {events events' : List WatchEvent} (h : Forward start events)
    (hsu : events'.Sublist events) : Forward start events' :=
  ⟨h.ordered.sublist hsu, fun e he => h.stamped e (hsu.subset he)⟩

theorem Steady.update (h : s.Steady start) {id : Nat} {channel : Mailbox WatchEvent}
    (hch : Forward start channel.put) (i : Nat) :
    Forward start (Function.update s.channels id channel i).put := by
  rw [Function.update_apply]
  split_ifs
  · exact hch
  · exact h.channels i

theorem quiet_update {channels : Nat → Mailbox WatchEvent} {id i : Nat}
    {channel : Mailbox WatchEvent} (hqu : Quiet (channels i)) (hch : i = id → Quiet channel) :
    Quiet (Function.update channels id channel i) := by
  rw [Function.update_apply]
  split_ifs with hid
  · exact hch hid
  · exact hqu

/-- A receiver that takes an event or is dropped puts nothing into the channel. -/
theorem Steady.shrink (h : s.Steady start) {id : Nat} {channel : Mailbox WatchEvent}
    (hsu : channel.put.Sublist (s.channels id).put) : (s.setChannel id channel).Steady start where
  outbox := h.outbox
  sent := h.sent
  dispatching := fun d hd => (h.dispatching d hd).imp_right fun hpr =>
    ⟨hpr.1, fun w hw => quiet_update (hpr.2 w hw) fun hid e he =>
      hpr.2 w hw e (hid ▸ hsu.subset he)⟩
  channels := h.update ((h.channels id).sublist hsu)

/-- A visit puts the event or a cancellation into the channel, or nothing. -/
theorem put_visit (event : WatchResponse) (w : Watcher) (available : Nat)
    (channel : Mailbox WatchEvent) :
    (visit event w available channel).1.put = channel.put ∨
      ∃ e, (e = makeCancelEvent event.key ∨ e = protoToEvent event w.prevKv) ∧
        (visit event w available channel).1.put = channel.put ++ [e] := by
  have hsend {a : WatchEvent} {next : Mailbox WatchEvent} (h : channel.trySend a = .ok next) :
      next.put = channel.put ++ [a] := by
    unfold Mailbox.trySend at h
    split_ifs at h
    cases h
    exact (List.append_assoc _ _ _).symm
  unfold visit
  split_ifs
  · split
    · exact .inr ⟨_, .inl rfl, hsend ‹_›⟩
    · exact .inl rfl
  · exact .inl rfl
  · split
    · exact .inr ⟨_, .inr rfl, hsend ‹_›⟩
    · exact .inl rfl
    · exact .inl rfl

/-- A visit keeps the channel in order, and quiet if progress is handed out. -/
theorem Steady.visit (h : s.Steady start) {d : Dispatch} (hph : s.phase = .dispatching d)
    {w : Watcher} (hw : w ∈ d.watchers) (available : Nat) :
    Forward start (Watch.visit d.event w available (s.channels w.id)).1.put ∧
      (d.event.eventType.isData = false →
        Quiet (Watch.visit d.event w available (s.channels w.id)).1) := by
  have hqu : d.event.eventType.isData = false →
      d.event = progressEvent start ∧ Quiet (s.channels w.id) := fun hno => by
    rcases h.dispatching d hph with hda | ⟨hev, hqu⟩
    · rw [hno] at hda
      cases hda
    · exact ⟨hev, hqu w (.inl hw)⟩
  unfold Quiet at *
  rcases put_visit d.event w available (s.channels w.id) with hsa | ⟨e, he, hap⟩
  · rw [hsa]
    exact ⟨h.channels w.id, fun hno => (hqu hno).2⟩
  rw [hap]
  refine ⟨(h.channels w.id).append ?_ ?_, fun hno a ha => ?_⟩
  · intro hpr
    rcases he with rfl | rfl
    · cases hpr
    · have hty : d.event.eventType = .progress := hpr
      obtain ⟨hev, hno⟩ := hqu (by rw [hty]; rfl)
      exact ⟨congrArg WatchResponse.revision hev, hno⟩
  · rcases he with rfl | rfl
    · exact .inr (Nat.zero_le start)
    · rcases h.dispatching d hph with hda | ⟨hev, -⟩
      · exact .inl hda
      · exact .inr (congrArg WatchResponse.revision hev).le
  · rcases List.mem_append.mp ha with hold | hnew
    · exact (hqu hno).2 a hold
    · obtain rfl := List.mem_singleton.mp hnew
      rcases he with rfl | rfl
      · rfl
      · exact hno

theorem Steady.dispatchStep (h : s.Steady start) {d : Dispatch}
    (hph : s.phase = .dispatching d) : (s.dispatchStep d).Steady start := by
  have hev := h.dispatching d hph
  unfold WatchSystem.dispatchStep
  split
  · next _ _ w rest hws =>
    split
    · exact { h with dispatching := by rintro _ ⟨⟩; exact hev }
    · next available _ =>
      have hw : w ∈ d.watchers := hws ▸ List.mem_cons_self
      obtain ⟨hfo, hqu⟩ := h.visit hph hw available
      refine { h with dispatching := ?_, channels := h.update hfo }
      rintro _ ⟨⟩
      refine hev.imp_right fun hpr => ⟨hpr.1, fun w' hw' => ?_⟩
      refine quiet_update (hpr.2 w' (hw'.imp_left fun hin => hws ▸ List.mem_cons_of_mem w hin))
        fun _ => hqu ?_
      rw [hpr.1]
      rfl
  · refine { h with dispatching := ?_ }
    rintro _ ⟨⟩
    refine hev.imp_right fun hpr => ⟨hpr.1, fun w hw => hpr.2 w (hw.imp_right ?_)⟩
    rintro ⟨side, hin⟩
    exact ⟨side, (WatchRegistry.sublist_side_unregister _ _ _ side).subset hin⟩
  · refine { h with dispatching := ?_ }
    rintro _ ⟨⟩
    refine hev.imp_right fun hpr => ⟨hpr.1, fun w hw => hpr.2 w ?_⟩
    rcases hw with hlo | hin
    · exact .inr ⟨_, List.mem_of_mem_filter hlo⟩
    · exact .inr hin
  · exact { h with dispatching := by rintro _ ⟨⟩ }

/-- A new watcher has an empty channel. -/
theorem Steady.registered (h : s.Steady start) {key : Bytes} {isPrefix prevKv : Bool}
    {w : Watcher} {registry : WatchRegistry}
    (hreg : s.registry.doRegister key isPrefix prevKv = .ok (w, registry)) :
    (s.registered isPrefix (.ok (w, registry))).Steady start := by
  have hem : ∀ bound, (Mailbox.new bound : Mailbox WatchEvent).put = [] := fun _ => rfl
  refine { h with
    dispatching := fun d hd => ?_
    channels := h.update (by rw [hem]; exact ⟨.nil, by rintro _ ⟨⟩⟩) }
  refine (h.dispatching d hd).imp_right fun hpr => ⟨hpr.1, fun w' hw' => ?_⟩
  by_cases hid : w'.id = w.id
  · intro e he
    have hput : ((s.registered isPrefix (.ok (w, registry))).channels w'.id).put = [] := by
      simp only [WatchSystem.registered, hid, Function.update_self]
      rfl
    rw [hput] at he
    cases he
  · refine quiet_update (hpr.2 w' (hw'.imp_right ?_)) fun heq => absurd heq hid
    rintro ⟨side, hin⟩
    have hin : w' ∈ registry.side side := hin
    rw [(WatchRegistry.doRegister_cases hreg).2.2.2 side] at hin
    split_ifs at hin
    · rcases List.mem_append.mp hin with hold | hnew
      · exact ⟨side, hold⟩
      · exact absurd (congrArg Watcher.id (List.mem_singleton.mp hnew)) hid
    · exact ⟨side, hin⟩

theorem steady_of_step {l : WatchLabel} (h : s.Steady start) (hbu : BuiltAt start s l)
    (hfi : FindsQuiet s l) (hst : s.step l = some t) : t.Steady start := by
  cases l
  all_goals simp only [step] at hst
  case apply =>
    split_ifs at hst
    cases hst
    exact { h with outbox := fun event he => isData_of_mem_broadcastWatchEvents he }
  case send =>
    split at hst <;> cases hst
    rename_i event rest hout
    obtain ⟨hfi, hre⟩ := List.forall_mem_cons.mp (hout ▸ h.outbox)
    refine { h with outbox := hre, sent := fun e he => ?_ }
    rcases List.mem_append.mp he with hold | hnew
    · exact h.sent e hold
    · exact List.mem_singleton.mp hnew ▸ hfi
  case close =>
    split_ifs at hst
    cases hst
    exact { h with }
  case register key prevKv =>
    cases hst
    cases hreg : s.registry.register key prevKv with
    | error => exact h
    | ok => exact h.registered hreg
  case registerPrefix path prevKv =>
    cases hst
    cases hreg : s.registry.registerPrefix path prevKv with
    | error => exact h
    | ok =>
      unfold WatchRegistry.registerPrefix at hreg
      split_ifs at hreg
      exact h.registered hreg
  case unregister =>
    split at hst <;> cases hst
    rename_i hph _
    exact { h with dispatching := fun d hd => by rw [hph] at hd; cases hd }
  case receive =>
    split at hst
    · rename_i event queue hph hre
      cases hst
      obtain ⟨-, hsent, ⟨_, ⟨⟩, -⟩ | ⟨_, hin, ⟨⟩, -⟩⟩ := Broadcast.recv_cases hre
      exact { h with
        sent := hsent ▸ h.sent
        dispatching := by rintro _ ⟨⟩; exact .inl (h.sent event hin) }
    · rename_i hre
      cases hst
      exact { h with sent := (Broadcast.recv_cases hre).2.1 ▸ h.sent }
    · split_ifs at hst
      cases hst
      exact { h with dispatching := by rintro _ ⟨⟩ }
    · cases hst
  case heartbeat lastApplied exactKeys prefixKeys =>
    split at hst <;> cases hst
    refine { h with dispatching := ?_ }
    rintro _ ⟨⟩
    refine .inr ⟨congrArg progressEvent hbu, fun w hw => ?_⟩
    rcases hw with hno | ⟨side, hin⟩
    · cases hno
    · exact hfi side w hin
  case dispatch =>
    split at hst <;> cases hst
    rename_i d hph
    exact h.dispatchStep hph
  case recv id =>
    obtain ⟨channel, hre, rfl⟩ := Option.map_eq_some_iff.mp hst
    exact h.shrink (Mailbox.put_recv hre ▸ List.Sublist.refl _)
  case dropHandle =>
    split_ifs at hst
    cases hst
    exact { h.shrink (Mailbox.put_dropReceiver_sublist _) with }
  case dropReceiver =>
    cases hst
    exact h.shrink (Mailbox.put_dropReceiver_sublist _)

end WatchSystem

variable {eventQueueSize watcherBufferSize maxWatcherCount start : Nat} {s : WatchSystem}

/-- In every run in which heartbeats find only watchers that have been sent no event of an entry,
the revisions of the progress events of a channel never go back. -/
theorem progress_never_back
    (h : (watchLoop eventQueueSize watcherBufferSize maxWatcherCount).Reach
      (fun s l => BuiltAt start s l ∧ FindsQuiet s l) s) (id : Nat) :
    (s.channels id).put.Pairwise fun a b =>
      b.eventType = .progress → a.revision ≤ b.revision := by
  have hst : s.Steady start := by
    refine h.invariant ?_ fun s l t hs hco hst =>
      WatchSystem.steady_of_step hs hco.1 hco.2 hst
    rintro _ ⟨capacity, -, rfl⟩
    exact ⟨by rintro _ ⟨⟩, by rintro _ ⟨⟩, by rintro _ ⟨⟩, fun _ => ⟨.nil, by rintro _ ⟨⟩⟩⟩
  exact (hst.channels id).ordered

/-- Two heartbeats before the first event. -/
theorem progress_before_events :
    ∃ s : WatchSystem, (watchLoop 1 3 1).Reach (fun s l => BuiltAt 4 s l ∧ FindsQuiet s l) s ∧
      (s.channels 1).put =
        [⟨.progress, [], [], none, 4⟩, ⟨.progress, [], [], none, 4⟩, putOf 5] ∧
      ((s.channels 1).put.Pairwise fun a b =>
        b.eventType = .progress → a.revision ≤ b.revision) :=
  let beat : List WatchLabel :=
    [.heartbeat 4 [[1]] [], .dispatch, .dispatch, .dispatch, .dispatch]
  Machine.exists_reach_and_of_runIf ([.register [1] false] ++ beat ++ beat ++ insertOf 5 ++ handOut)
    ⟨1, le_rfl, rfl⟩ (by decide +kernel) fun _ hre => progress_never_back hre 1

/-- The entry 5 is reported, and then the applied index 4. -/
theorem progress_goes_back :
    ∃ s : WatchSystem, (watchLoop 1 3 1).Reach (BuiltAt 4) s ∧
      (s.channels 1).put = [putOf 5, ⟨.progress, [], [], none, 4⟩] :=
  Machine.exists_reach_of_runIf
    ([.register [1] false] ++ insertOf 5 ++ handOut ++ [.heartbeat 4 [[1]] []] ++ handOut.tail)
    ⟨1, le_rfl, rfl⟩ (by decide +kernel)

end DEngine.Watch

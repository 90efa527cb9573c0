import DEngine.Apply.Pipeline

/-!
# The way of the entries

The entries that the commit handler sends are those behind the applied index, and
the applied index moves only when the worker has applied a chunk. As long as a new
range is read only while no chunk is on its way, the entries between the log and the
state machine follow the last one that the state machine was given. The invariant
follows them from the handler through the queue to the state machine.
-/

namespace DEngine.Apply

open Library Library.PartialLog Storage
open Raft (NewCommitData InternalEvent)

variable {setup : Setup} {s t : Pipeline} {l : Label}

def HasPayload (entry : Entry) : Prop := (entry.payload.bind EntryPayload.payload).isSome
deriving Decidable

/-- The entries that the handler has read and not sent yet. -/
def HandlerPhase.entries : HandlerPhase → List Entry
  | .processing rest commandBatch _ => commandBatch ++ rest
  | .changing _ rest => rest
  | _ => []

/-- The entries that the handler has still to look at. -/
def HandlerPhase.unread : HandlerPhase → List Entry
  | .processing rest _ _ => rest
  | .changing _ rest => rest
  | _ => []

def HandlerPhase.lastError : HandlerPhase → Option Fault
  | .processing _ _ lastError => lastError
  | _ => none

def WorkerPhase.isApplying : WorkerPhase → Bool
  | .applying _ _ => true
  | _ => false

namespace Pipeline

/-- The entries that the state machine was given, in order. -/
def passed (s : Pipeline) : List ApplyEntry := s.stateMachine.passed.flatten

/-- The index of the last entry that the state machine was given. -/
def front (setup : Setup) (s : Pipeline) : Nat := setup.start + s.passed.length

/-- The entries between the log and the state machine. -/
def onTheWay (s : Pipeline) : List Entry := s.commands.flatten ++ s.handler.entries

/-- The range that the next pass of the handler's loop processes. -/
def nextRange (setup : Setup) (s : Pipeline) : Option (Nat × Nat) :=
  match s.newCommits with
  | [] => none
  | data :: rest => pendingRange s.applied (s.received setup data rest).pendingCommit

/-- A new range is read only while no chunk is on its way, and its entries have payloads;
changes of the membership succeed. -/
def SendsApart (setup : Setup) (s : Pipeline) : Label → Prop
  | .recv => ∀ range ∈ s.nextRange setup, s.commands = [] ∧ s.worker.isApplying = false ∧
      ∀ e ∈ setup.log.getEntriesRange range.1 range.2, HasPayload e
  | .configured result => result.isOk
  | _ => True

instance (setup : Setup) (s : Pipeline) (l : Label) : Decidable (s.SendsApart setup l) := by
  cases l <;> dsimp only [SendsApart] <;> infer_instance

/-! ## The invariant -/

/-- The highest index of the announcements in a queue and of those taken before. -/
def announced (pendingCommit : Nat) (queue : List NewCommitData) : Nat :=
  queue.foldl (fun p data => updatePending p data.newCommitIndex) pendingCommit

/-- The applied indexes follow what the state machine was given. -/
def Follows (setup : Setup) (s : Pipeline) : Prop :=
  match s.worker with
  | .waiting => s.applied = s.front setup ∧ s.stateMachine.lastApplied.index = s.applied
  | .applying entries lastIndex =>
    lastIndex = some (s.front setup) ∧
      entries.getLast?.map ApplyEntry.index = some (s.front setup) ∧
      s.applied ≤ s.front setup ∧ s.stateMachine.lastApplied.index = s.applied
  | .stopped => True

/-- A new range is read only while no chunk is on its way, and its entries have payloads. -/
def StartsApart (setup : Setup) (s : Pipeline) : Label → Prop
  | .recv => s.SendsApart setup .recv
  | _ => True

instance (setup : Setup) (s : Pipeline) (l : Label) : Decidable (s.StartsApart setup l) := by
  cases l <;> dsimp only [StartsApart] <;> infer_instance

/-- The entries on their way follow the last one that the state machine was given. -/
structure Trail (setup : Setup) (s : Pipeline) : Prop where
  consecutive : Consecutive Entry.index s.onTheWay (s.front setup + 1)
  held : ∀ e ∈ s.onTheWay, setup.log.entry e.index = some e
  chunks : ∀ chunk ∈ s.commands, chunk ≠ []
  total_le : s.front setup + s.onTheWay.length ≤ max setup.start s.pendingCommit
  payloads : ∀ e ∈ s.handler.unread, HasPayload e

/-! A failed change of the membership breaks only a part of the invariant: the entries that the
handler gives up behind it are the last ones on their way. -/

/-- No change has failed, and the entries on their way reach up to the commit index that the
handler knows. -/
structure Full (setup : Setup) (s : Pipeline) : Prop where
  total : s.handler ≠ .stopped →
    s.front setup + s.onTheWay.length = max setup.start s.pendingCommit
  noError : s.handler.lastError = none

structure Tracked (setup : Setup) (s : Pipeline) : Prop where
  announced : announced s.pendingCommit s.newCommits = s.committed
  committed_le : s.committed ≤ setup.last
  start_le : setup.start ≤ s.applied
  consecutive : Consecutive ApplyEntry.index s.passed (setup.start + 1)
  decoded : ∀ a ∈ s.passed, ∃ e, setup.log.entry a.index = some e ∧
    decodeEntry setup.decode e = .ok a
  front_le : s.front setup ≤ max setup.start s.pendingCommit
  follows : s.Follows setup
  trail : s.worker ≠ .stopped → s.Trail setup

structure Ordered (setup : Setup) (s : Pipeline) : Prop extends s.Tracked setup where
  full : s.worker ≠ .stopped → s.Full setup

/-- A worker that has stopped has also left nothing in its queue. -/
structure Accounted (setup : Setup) (s : Pipeline) : Prop extends s.Tracked setup where
  stopped : s.worker = .stopped → s.commands = []

end Pipeline

open Pipeline

/-! ## Announcements -/

theorem updatePending_eq_max (p n : Nat) : updatePending p n = max p n := by
  unfold updatePending
  split_ifs <;> omega

theorem announced_append (p : Nat) (queue : List NewCommitData) (data : NewCommitData) :
    announced p (queue ++ [data]) = max (announced p queue) data.newCommitIndex := by
  rw [announced, List.foldl_append, List.foldl_cons, List.foldl_nil, updatePending_eq_max]
  rfl

theorem le_announced (p : Nat) (queue : List NewCommitData) : p ≤ announced p queue := by
  induction queue generalizing p with
  | nil => exact le_rfl
  | cons data rest ih =>
    calc p ≤ updatePending p data.newCommitIndex := by
          rw [updatePending_eq_max]
          exact le_max_left _ _
      _ ≤ announced p (data :: rest) := ih _

/-- Draining the queue loses no announcement. -/
theorem announced_drain (room p : Nat) (queue : List NewCommitData) :
    announced (drain room p queue).1 (drain room p queue).2 = announced p queue := by
  induction room generalizing p queue with
  | zero => rfl
  | succ room ih =>
    cases queue with
    | nil => rfl
    | cons => exact ih _ _

theorem le_drain (room p : Nat) (queue : List NewCommitData) : p ≤ (drain room p queue).1 := by
  induction room generalizing p queue with
  | zero => exact le_rfl
  | succ room ih =>
    cases queue with
    | nil => exact le_rfl
    | cons =>
      refine le_trans ?_ (ih _ _)
      rw [updatePending_eq_max]
      exact le_max_left _ _

/-! ## The entries of a range -/

theorem Setup.getEntriesRange_spec {lo hi : Nat} (hlo : setup.start ≤ lo) (hhi : hi ≤ setup.last) :
    Consecutive Entry.index (setup.log.getEntriesRange (lo + 1) hi) (lo + 1) ∧
      (setup.log.getEntriesRange (lo + 1) hi).length = hi - lo ∧
      ∀ e ∈ setup.log.getEntriesRange (lo + 1) hi, setup.log.entry e.index = some e := by
  have hen : ∀ p ∈ setup.log.entries.range (lo + 1) hi,
      setup.log.entry p.1 = some p.2 ∧ p.2.index = p.1 := by
    rintro ⟨k, e⟩ hp
    have he : setup.log.entry k = some e := ((OrderedMap.mem_range_iff _ _ _ _ _).mp hp).1
    exact ⟨he, setup.wellFormed.entry_index k e he⟩
  have hke : (setup.log.getEntriesRange (lo + 1) hi).map Entry.index =
      List.range' (lo + 1) (hi - lo) := by
    calc (setup.log.getEntriesRange (lo + 1) hi).map Entry.index
        = (setup.log.entries.range (lo + 1) hi).map fun p => p.2.index := List.map_map
      _ = (setup.log.entries.range (lo + 1) hi).map Prod.fst :=
          List.map_congr_left fun p hp => (hen p hp).2
      _ = List.range' (lo + 1) (hi + 1 - (lo + 1)) :=
          OrderedMap.range_keys_of_bound _ _ _
            fun k hk hk' => setup.held k (by omega) (hk'.trans hhi)
      _ = List.range' (lo + 1) (hi - lo) := by rw [Nat.add_sub_add_right]
  have hlen : (setup.log.getEntriesRange (lo + 1) hi).length = hi - lo := by
    simpa using congrArg List.length hke
  refine ⟨by rw [Consecutive, hke, hlen], hlen, fun e he => ?_⟩
  obtain ⟨p, hp, rfl⟩ := List.mem_map.mp he
  rw [(hen p hp).2]
  exact (hen p hp).1

/-! ## The steps of the handler -/

namespace Pipeline

/-- A step of the handler within its batch. Entries move from the handler to the queue and keep
their order; those that are given up are the last ones. -/
structure Turned (s t : Pipeline) (dropped : List Entry) : Prop where
  same : ∃ handler commands events shutdown,
    t = { s with
      handler := handler
      commands := commands
      events := events
      shutdown := shutdown }
  way : s.worker ≠ .stopped → s.onTheWay = t.onTheWay ++ dropped
  chunks : ∀ chunk ∈ t.commands, chunk ∈ s.commands ∨ chunk ≠ []
  queued : s.worker = .stopped → t.commands = s.commands
  unread : t.handler.unread ⊆ s.handler.unread
  running : t.handler ≠ .stopped → s.handler ≠ .stopped

theorem Turned.tracked {dropped : List Entry} (h : Turned s t dropped) (hs : s.Tracked setup) :
    t.Tracked setup := by
  obtain ⟨handler, commands, events, shutdown, rfl⟩ := h.same
  refine { hs with trail := fun hal => ?_ }
  have htr := hs.trail hal
  have hway := h.way hal
  have hto := htr.total_le
  rw [hway, List.length_append] at hto
  constructor
  · exact ((consecutive_append _ _ _ _).mp (hway ▸ htr.consecutive)).1
  · exact fun e he => htr.held e (hway ▸ List.mem_append_left dropped he)
  · exact fun chunk hch => (h.chunks chunk hch).elim (htr.chunks chunk) id
  · exact (Nat.add_le_add_left (Nat.le_add_right _ _) _).trans hto
  · exact fun e he => htr.payloads e (h.unread he)

/-- As long as nothing is given up, the entries reach as far as before. -/
theorem Turned.full (h : Turned s t []) (hs : s.Full setup) (hal : s.worker ≠ .stopped)
    (herr : t.handler.lastError = none) : t.Full setup := by
  refine ⟨fun hhdl => ?_, herr⟩
  have hto := hs.total (h.running hhdl)
  rw [h.way hal, List.append_nil] at hto
  obtain ⟨handler, commands, events, shutdown, rfl⟩ := h.same
  exact hto

theorem Turned.worker_eq {dropped : List Entry} (h : Turned s t dropped) : t.worker = s.worker := by
  obtain ⟨handler, commands, events, shutdown, rfl⟩ := h.same
  rfl

/-- The handler keeps its queue and goes on with the entries that it has. -/
theorem turned_handler (next : HandlerPhase) {dropped : List Entry}
    (hen : s.worker ≠ .stopped → s.handler.entries = next.entries ++ dropped)
    (hun : next.unread ⊆ s.handler.unread) (hrun : next ≠ .stopped → s.handler ≠ .stopped)
    (events : List InternalEvent) (shutdown : Bool) :
    Turned s { s with handler := next, events, shutdown } dropped := by
  refine ⟨⟨_, _, _, _, rfl⟩, fun hal => ?_, fun _ h => .inl h, fun _ => rfl, hun, hrun⟩
  rw [onTheWay, onTheWay, hen hal, List.append_assoc]

/-- A batch is empty, or the worker has stopped, or the batch is queued. -/
theorem sendThen_cases (s : Pipeline) (batch : List Entry) (next : HandlerPhase) :
    (batch = [] ∧ s.sendThen batch next = { s with handler := next }) ∨
      (s.worker = .stopped ∧ s.sendThen batch next = { s with handler := .waiting }) ∨
      (batch ≠ [] ∧ s.worker ≠ .stopped ∧ s.sendThen batch next =
        { s with handler := next, commands := s.commands ++ [batch] }) := by
  unfold Pipeline.sendThen sendToSmWorker
  by_cases hnil : batch = []
  · rw [if_pos hnil]
    exact .inl ⟨hnil, rfl⟩
  rw [if_neg hnil]
  by_cases hst : s.worker = .stopped
  · rw [if_pos hst]
    exact .inr (.inl ⟨hst, rfl⟩)
  · rw [if_neg hst]
    exact .inr (.inr ⟨hnil, hst, rfl⟩)

/-- What the handler sends leaves it at the front. -/
theorem turned_sendThen {batch : List Entry} {next : HandlerPhase}
    (hen : batch ++ next.entries = s.handler.entries)
    (hun : next.unread ⊆ s.handler.unread) (hrun : s.handler ≠ .stopped) :
    Turned s (s.sendThen batch next) [] := by
  obtain ⟨hnil, heq⟩ | ⟨hst, heq⟩ | ⟨hne, hal, heq⟩ := sendThen_cases s batch next
  · rw [heq]
    refine turned_handler next (fun _ => ?_) hun (fun _ => hrun) s.events s.shutdown
    rw [← hen, hnil, List.nil_append, List.append_nil]
  · rw [heq]
    exact turned_handler .waiting (absurd hst) (List.nil_subset _) (fun _ => hrun) s.events
      s.shutdown
  · rw [heq]
    refine ⟨⟨_, _, _, _, rfl⟩, fun _ => ?_, fun chunk hch => ?_,
      fun hst => absurd hst hal, hun, fun _ => hrun⟩
    · rw [List.append_nil, onTheWay, onTheWay, ← hen, List.flatten_concat, List.append_assoc]
    · refine (List.mem_append.mp hch).imp_right fun h => ?_
      rw [List.mem_singleton.mp h]
      exact hne

variable {entry : Entry} {rest commandBatch : List Entry} {lastError : Option Fault}

theorem turned_handleEntry (hhdl : s.handler = .processing (entry :: rest) commandBatch lastError)
    (hpay : s.worker ≠ .stopped → HasPayload entry) :
    Turned s (s.handleEntry entry rest commandBatch lastError) [] := by
  have hrun : s.handler ≠ .stopped := by
    rw [hhdl]
    nofun
  have hnot : s.worker ≠ .stopped → entry.payload.bind EntryPayload.payload ≠ none :=
    fun hal => Option.isSome_iff_ne_none.mp (hpay hal)
  have hen : commandBatch ++ [entry] ++ rest = s.handler.entries := by
    rw [hhdl]
    simp [HandlerPhase.entries]
  have hun : rest ⊆ s.handler.unread := by
    rw [hhdl]
    exact List.subset_cons_self entry rest
  unfold handleEntry
  split
  · rename_i hno
    rw [hno] at hnot
    exact turned_handler (.processing rest commandBatch lastError)
      (fun hal => absurd rfl (hnot hal)) hun (fun _ => hrun) _ _
  · refine turned_handler (.processing rest (commandBatch ++ [entry]) lastError) (fun _ => ?_)
      hun (fun _ => hrun) _ _
    rw [List.append_nil, ← hen]
    rfl
  · apply turned_sendThen _ _ hrun
    · split_ifs <;> exact hen
    · split_ifs <;> exact hun
  · exact turned_sendThen hen hun hrun
  · rename_i hno
    rw [hno] at hnot
    exact turned_handler .stopped (fun hal => absurd rfl (hnot hal)) (List.nil_subset _)
      (fun _ => hrun) _ _

theorem lastError_sendThen {batch : List Entry} {next : HandlerPhase}
    (hnx : next.lastError = none) : (s.sendThen batch next).handler.lastError = none := by
  obtain ⟨-, heq⟩ | ⟨-, heq⟩ | ⟨-, -, heq⟩ := sendThen_cases s batch next
  all_goals rw [heq]
  exacts [hnx, rfl, hnx]

theorem lastError_handleEntry (entry : Entry) (rest commandBatch : List Entry) :
    (s.handleEntry entry rest commandBatch none).handler.lastError = none := by
  unfold handleEntry
  split
  · rfl
  · rfl
  · exact lastError_sendThen rfl
  · exact lastError_sendThen rfl
  · rfl

/-- The commands that were collected behind a failed change are given up. -/
theorem turned_endBatch_error (fault : Fault)
    (hhdl : s.handler = .processing [] commandBatch lastError) :
    Turned s (s.endBatch commandBatch (some fault)) commandBatch := by
  refine turned_handler .waiting (fun _ => ?_) (List.nil_subset _) (fun _ => ?_) _ _
  · rw [hhdl]
    exact List.append_nil _
  · rw [hhdl]
    nofun

theorem turned_endBatch_none (hhdl : s.handler = .processing [] commandBatch lastError) :
    Turned s (s.endBatch commandBatch none) [] := by
  apply turned_sendThen
  · rw [hhdl]
    rfl
  · exact List.nil_subset _
  · rw [hhdl]
    nofun

theorem exists_turned_endBatch (hhdl : s.handler = .processing [] commandBatch lastError) :
    ∃ dropped, Turned s (s.endBatch commandBatch lastError) dropped := by
  cases lastError with
  | some fault => exact ⟨_, turned_endBatch_error fault hhdl⟩
  | none => exact ⟨_, turned_endBatch_none hhdl⟩

theorem configApplied_eq (setup : Setup) (s : Pipeline) (entry : Entry) (rest : List Entry)
    (result : Except Fault Unit) :
    ∃ lastError events, s.configApplied setup entry rest result =
        { s with handler := .processing rest [] lastError, events := events } ∧
      (result = .ok () → lastError = none) := by
  unfold configApplied
  cases result with
  | error fault => exact ⟨some fault, s.events, rfl, nofun⟩
  | ok _ =>
    dsimp only
    split
    · exact ⟨none, _, rfl, fun _ => rfl⟩
    · exact ⟨none, s.events, rfl, fun _ => rfl⟩

theorem turned_configApplied (result : Except Fault Unit)
    (hhdl : s.handler = .changing entry rest) :
    Turned s (s.configApplied setup entry rest result) [] := by
  obtain ⟨lastError, events, heq, -⟩ := configApplied_eq setup s entry rest result
  rw [heq]
  refine turned_handler (.processing rest [] lastError) (fun _ => ?_) ?_ (fun _ => ?_) _ _
  · rw [List.append_nil, hhdl]
    rfl
  · rw [hhdl]
    exact List.Subset.refl rest
  · rw [hhdl]
    nofun

theorem lastError_configApplied (setup : Setup) (entry : Entry) (rest : List Entry) :
    (s.configApplied setup entry rest (.ok ())).handler.lastError = none := by
  obtain ⟨lastError, events, heq, hno⟩ := configApplied_eq setup s entry rest (.ok ())
  rw [heq]
  exact hno rfl

theorem Follows.applied_le (h : s.Follows setup) (hal : s.worker ≠ .stopped) :
    s.applied ≤ s.front setup := by
  unfold Follows at h
  cases hwo : s.worker with
  | waiting =>
    rw [hwo] at h
    exact h.1.le
  | applying =>
    rw [hwo] at h
    exact h.2.2.1
  | stopped => exact absurd hwo hal

theorem Follows.applied_eq (h : s.Follows setup) (hal : s.worker ≠ .stopped)
    (hid : s.worker.isApplying = false) : s.applied = s.front setup := by
  unfold Follows at h
  cases hwo : s.worker with
  | waiting =>
    rw [hwo] at h
    exact h.1
  | applying =>
    rw [hwo] at hid
    cases hid
  | stopped => exact absurd hwo hal

variable {data : NewCommitData}

theorem received_spec (hs : s.Tracked setup) {rest : List NewCommitData}
    (hnew : s.newCommits = data :: rest) :
    Pipeline.announced (s.received setup data rest).pendingCommit
        (s.received setup data rest).newCommits = s.committed ∧
      s.pendingCommit ≤ (s.received setup data rest).pendingCommit := by
  constructor
  · rw [← hs.announced, hnew]
    exact announced_drain _ _ _
  · refine le_trans ?_ (le_drain _ _ _)
    rw [updatePending_eq_max]
    exact le_max_left _ _

/-- Only the handler's side changes when announcements are taken. -/
theorem Tracked.opened (hs : s.Tracked setup) {pendingCommit : Nat}
    {newCommits : List NewCommitData} {handler : HandlerPhase}
    (hann : Pipeline.announced pendingCommit newCommits = s.committed)
    (hpe : s.pendingCommit ≤ pendingCommit)
    (htr : s.worker ≠ .stopped → Trail setup { s with pendingCommit, newCommits, handler }) :
    Tracked setup { s with pendingCommit, newCommits, handler } :=
  { hs with
    announced := hann
    front_le := hs.front_le.trans (max_le_max_left _ hpe)
    trail := htr }

/-- A range that starts behind the last entry that was passed fills an empty lane. -/
theorem trail_of_range (hla : s.pendingCommit ≤ setup.last)
    (hlt : s.front setup < s.pendingCommit) (hcm : s.commands = [])
    (hhdl : s.handler = .processing
      (setup.log.getEntriesRange (s.front setup + 1) s.pendingCommit) [] none)
    (hpay : ∀ e ∈ setup.log.getEntriesRange (s.front setup + 1) s.pendingCommit,
      HasPayload e) : s.Trail setup ∧ s.Full setup := by
  have hst : setup.start ≤ s.front setup := Nat.le_add_right _ _
  obtain ⟨hco, hlen, hhe⟩ := Setup.getEntriesRange_spec hst hla
  have hway : s.onTheWay = setup.log.getEntriesRange (s.front setup + 1) s.pendingCommit := by
    rw [onTheWay, hcm, hhdl]
    rfl
  have hto : s.front setup + s.onTheWay.length = max setup.start s.pendingCommit := by
    rw [hway, hlen]
    omega
  constructor
  · constructor
    · rw [hway]
      exact hco
    · rw [hway]
      exact hhe
    · rw [hcm]
      nofun
    · exact hto.le
    · rw [hhdl]
      exact hpay
  · exact ⟨fun _ => hto, by rw [hhdl]; rfl⟩

/-- The next range is read when everything before it has reached the state machine, or there
is no next range. -/
theorem beginBatch_spec (hs : s.Tracked setup)
    {rest : List NewCommitData} (hhdl : s.handler = .waiting)
    (hnew : s.newCommits = data :: rest) (hco : s.SendsApart setup .recv) :
    ((s.received setup data rest).beginBatch setup).Tracked setup ∧
      (s.worker ≠ .stopped → s.Full setup →
        ((s.received setup data rest).beginBatch setup).Full setup) := by
  obtain ⟨hann, hpe⟩ := received_spec hs hnew
  have hra : s.nextRange setup =
      pendingRange s.applied (s.received setup data rest).pendingCommit := by
    rw [nextRange, hnew]
  unfold beginBatch
  split
  · rename_i hno
    have hid : (s.received setup data rest).pendingCommit ≤ s.applied := by
      unfold pendingRange at hno
      split_ifs at hno with hlt
      exact Nat.le_of_not_lt hlt
    constructor
    · apply hs.opened hann hpe
      intro hal
      have htr := hs.trail hal
      exact ⟨htr.consecutive, htr.held, htr.chunks,
        htr.total_le.trans (max_le_max_left _ hpe), htr.payloads⟩
    · intro hal hfu
      have hto := hfu.total (by rw [hhdl]; nofun)
      have happ := hs.follows.applied_le hal
      have hsa : s.front setup + s.onTheWay.length =
          max setup.start (s.received setup data rest).pendingCommit := by omega
      exact ⟨fun _ => hsa, hfu.noError⟩
  · rename_i lo hi hso
    obtain ⟨hem, hid, hpay⟩ := hco (lo, hi) (hra.trans hso)
    unfold pendingRange at hso
    split_ifs at hso with hlt
    cases hso
    have hla : (s.received setup data rest).pendingCommit ≤ setup.last :=
      (le_announced _ _).trans (hann.le.trans hs.committed_le)
    let began : Pipeline := { s.received setup data rest with
      handler := .processing (setup.log.getEntriesRange (s.applied + 1)
        (s.received setup data rest).pendingCommit) [] none }
    have hfi : s.worker ≠ .stopped → began.Trail setup ∧ began.Full setup := by
      intro hal
      have happ : s.applied = began.front setup := hs.follows.applied_eq hal hid
      refine trail_of_range hla ?_ hem ?_ ?_
      · exact happ ▸ hlt
      · rw [← happ]
      · exact happ ▸ hpay
    exact ⟨hs.opened hann hpe fun hal => (hfi hal).1,
      fun hal _ => (hfi hal).2⟩

/-! ## The steps of the worker -/

/-- A worker that has stopped passes nothing on any more. -/
theorem Tracked.workerStopped (hs : s.Tracked setup) (commands : List (List Entry))
    (lastApplied : LogId) (events : List InternalEvent) :
    Tracked setup { s with
      commands, events, worker := .stopped, stateMachine.lastApplied := lastApplied } :=
  { hs with follows := trivial, trail := fun h => absurd rfl h }

variable {chunk : List Entry} {entries : List ApplyEntry}

/-- The decoded entries of a chunk carry its indexes and come from the log. -/
theorem decoded_spec {n : Nat} (hde : decodeEntries setup.decode chunk = .ok entries)
    (hch : Consecutive Entry.index chunk n) (hhe : ∀ e ∈ chunk, setup.log.entry e.index = some e) :
    entries.length = chunk.length ∧ Consecutive ApplyEntry.index entries n ∧
      ∀ a ∈ entries, ∃ e, setup.log.entry a.index = some e ∧
        decodeEntry setup.decode e = .ok a := by
  have hmap := index_of_decodeEntries hde
  have hlen : entries.length = chunk.length := by
    simpa using congrArg List.length hmap
  refine ⟨hlen, by rw [Consecutive, hmap, hlen, hch], fun a ha => ?_⟩
  obtain ⟨e, he, hea⟩ := exists_of_mem_decodeEntries hde ha
  have hidx : a.index = e.index := congrArg LogId.index (logId_of_decodeEntry hea)
  exact ⟨e, hidx ▸ hhe e he, hea⟩

theorem passed_giveChunk (rest : List (List Entry)) (entries : List ApplyEntry)
    (lastIndex : Option Nat) : (s.giveChunk rest entries lastIndex).passed = s.passed ++ entries :=
  List.flatten_concat

theorem front_giveChunk (rest : List (List Entry)) (entries : List ApplyEntry)
    (lastIndex : Option Nat) :
    (s.giveChunk rest entries lastIndex).front setup = s.front setup + entries.length := by
  rw [front, passed_giveChunk, List.length_append, front, Nat.add_assoc]

/-- The first chunk of the queue is what the state machine has to be given next. -/
theorem tracked_takeChunk (hs : s.Tracked setup) {rest : List (List Entry)}
    (hwo : s.worker = .waiting) (hcm : s.commands = chunk :: rest) :
    (s.takeChunk setup chunk rest).Tracked setup := by
  unfold takeChunk
  split
  · exact hs.workerStopped [] s.stateMachine.lastApplied _
  rename_i entries hde
  have htr := hs.trail (by rw [hwo]; nofun)
  have hne : chunk ≠ [] := htr.chunks chunk (hcm ▸ List.mem_cons_self)
  have hway : s.onTheWay = chunk ++ (rest.flatten ++ s.handler.entries) := by
    rw [onTheWay, hcm, List.flatten_cons, List.append_assoc]
  obtain ⟨hch, hre⟩ := (consecutive_append _ _ _ _).mp (hway ▸ htr.consecutive)
  obtain ⟨hlen, hen, hdec⟩ := decoded_spec hde hch
    fun e he => htr.held e (hway ▸ List.mem_append_left _ he)
  have hfr : (s.giveChunk rest entries (chunk.getLast?.map Entry.index)).front setup =
      s.front setup + chunk.length := by
    rw [front_giveChunk, hlen]
  have hto := htr.total_le
  rw [hway, List.length_append] at hto
  have hfo := hs.follows
  rw [Follows, hwo] at hfo
  refine { hs with
    consecutive := ?_, decoded := ?_, front_le := ?_, follows := ?_, trail := fun _ => ?_ }
  · rw [passed_giveChunk, consecutive_append]
    refine ⟨hs.consecutive, ?_⟩
    rw [Nat.add_right_comm]
    exact hen
  · rw [passed_giveChunk]
    intro a ha
    rcases List.mem_append.mp ha with hold | hnew
    · exact hs.decoded a hold
    · exact hdec a hnew
  · rw [hfr]
    change _ ≤ max setup.start s.pendingCommit
    omega
  · change _ = some _ ∧ _ = some _ ∧ s.applied ≤ _ ∧ _ = s.applied
    rw [hfr, hch.getLast?_map_key hne, hfo.1]
    refine ⟨rfl, ?_, Nat.le_add_right _ _, hfo.2.trans hfo.1⟩
    rw [← hlen]
    exact hen.getLast?_map_key (by rwa [← List.length_pos_iff, hlen, List.length_pos_iff])
  · constructor
    · rw [hfr, Nat.add_right_comm]
      exact hre
    · exact fun e he => htr.held e (hway ▸ List.mem_append_right _ he)
    · exact fun c hc => htr.chunks c (hcm ▸ List.mem_cons_of_mem _ hc)
    · rw [hfr, Nat.add_assoc]
      exact hto
    · exact htr.payloads

theorem full_takeChunk (hs : s.Full setup) {rest : List (List Entry)}
    (hcm : s.commands = chunk :: rest) (hal : (s.takeChunk setup chunk rest).worker ≠ .stopped) :
    (s.takeChunk setup chunk rest).Full setup := by
  unfold takeChunk at hal ⊢
  split at hal
  · exact absurd rfl hal
  rename_i entries hde
  have hlen : entries.length = chunk.length := by
    simpa using congrArg List.length (index_of_decodeEntries hde)
  refine ⟨fun hhdl => ?_, hs.noError⟩
  have hto := hs.total hhdl
  rw [onTheWay, hcm, List.flatten_cons, List.append_assoc, List.length_append] at hto
  rw [front_giveChunk, hlen, Nat.add_assoc]
  exact hto

theorem lastAppliedAfter_index {n : Nat} (current : LogId)
    (h : entries.getLast?.map ApplyEntry.index = some n) :
    (lastAppliedAfter current entries).index = n := by
  obtain ⟨a, ha, rfl⟩ := Option.map_eq_some_iff.mp h
  rw [lastAppliedAfter, ha]
  rfl

theorem tracked_chunkReturned (hs : s.Tracked setup)
    {lastIndex : Option Nat} {outcome : ApplyOutcome}
    (hwo : s.worker = .applying entries lastIndex) :
    (s.chunkReturned entries lastIndex outcome).Tracked setup := by
  have hfo := hs.follows
  rw [Follows, hwo] at hfo
  obtain ⟨rfl, hla, hle, -⟩ := hfo
  cases outcome with
  | err => exact hs.workerStopped [] _ _
  | ok =>
    have happ : advance s.applied (s.front setup) = s.front setup := by
      unfold advance
      split_ifs with hlt
      · rfl
      · exact le_antisymm hle (Nat.le_of_not_lt hlt)
    have htr := hs.trail (by rw [hwo]; nofun)
    exact { hs with
      start_le := (Nat.le_add_right _ _).trans happ.ge
      follows := ⟨happ, (lastAppliedAfter_index _ hla).trans happ.symm⟩
      trail := fun _ => { htr with } }

/-! ## Runs -/

theorem tracked_announce (hs : s.Tracked setup) (hle : data.newCommitIndex ≤ setup.last) :
    Tracked setup { s with
      newCommits := s.newCommits ++ [data]
      committed := max s.committed data.newCommitIndex } :=
  { hs with
    announced := by rw [announced_append, hs.announced]
    committed_le := max_le hs.committed_le hle
    trail := fun hal => { hs.trail hal with } }

/-- What the step of a label does, and where the two tasks stand before it. -/
inductive Effect (setup : Setup) (s : Pipeline) : Label → Pipeline → Prop where
  | announced (data : NewCommitData) (hle : data.newCommitIndex ≤ setup.last) :
      Effect setup s (.announce data)
        { s with
          newCommits := s.newCommits ++ [data]
          committed := max s.committed data.newCommitIndex }
  | began (data : NewCommitData) (rest : List NewCommitData) (hhandler : s.handler = .waiting)
      (hnew : s.newCommits = data :: rest) :
      Effect setup s .recv ((s.received setup data rest).beginBatch setup)
  | handled (entry : Entry) (rest commandBatch : List Entry) (lastError : Option Fault)
      (hhandler : s.handler = .processing (entry :: rest) commandBatch lastError) :
      Effect setup s .handle (s.handleEntry entry rest commandBatch lastError)
  | ended (commandBatch : List Entry) (lastError : Option Fault)
      (hhandler : s.handler = .processing [] commandBatch lastError) :
      Effect setup s .handle (s.endBatch commandBatch lastError)
  | changed (entry : Entry) (rest : List Entry) (result : Except Fault Unit)
      (hhandler : s.handler = .changing entry rest) :
      Effect setup s (.configured result) (s.configApplied setup entry rest result)
  | took (chunk : List Entry) (rest : List (List Entry)) (hworker : s.worker = .waiting)
      (hcommands : s.commands = chunk :: rest) :
      Effect setup s .take (s.takeChunk setup chunk rest)
  | returned (entries : List ApplyEntry) (lastIndex : Option Nat) (outcome : ApplyOutcome)
      (hworker : s.worker = .applying entries lastIndex) :
      Effect setup s (.applyReturned outcome) (s.chunkReturned entries lastIndex outcome)
  | shutDown : Effect setup s .shutdown { s with shutdown := true }
  | handlerStopped (hhandler : s.handler = .waiting) :
      Effect setup s .handlerStops { s with handler := .stopped }
  | workerStopped : Effect setup s .workerStops { s with worker := .stopped }

theorem effect_of_step (hst : s.step setup l = some t) : Effect setup s l t := by
  cases l
  all_goals simp only [step, Option.ite_none_right_eq_some, Option.some.injEq] at hst
  case announce data =>
    obtain ⟨hle, rfl⟩ := hst
    exact .announced data hle
  case recv =>
    split at hst <;> cases hst
    rename_i data rest hhdl hnew
    exact .began data rest hhdl hnew
  case handle =>
    split at hst <;> cases hst
    · rename_i hhdl
      exact .handled _ _ _ _ hhdl
    · rename_i hhdl
      exact .ended _ _ hhdl
  case configured result =>
    split at hst <;> cases hst
    rename_i hhdl
    exact .changed _ _ result hhdl
  case take =>
    split at hst <;> cases hst
    rename_i hwo hcm
    exact .took _ _ hwo hcm
  case applyReturned outcome =>
    split at hst <;> cases hst
    rename_i hwo
    exact .returned _ _ outcome hwo
  case shutdown =>
    cases hst
    exact .shutDown
  case handlerStops =>
    obtain ⟨⟨hhdl, -⟩, rfl⟩ := hst
    exact .handlerStopped hhdl
  case workerStops =>
    obtain ⟨-, rfl⟩ := hst
    exact .workerStopped

theorem turned_shutdown : Turned s { s with shutdown := true } [] :=
  turned_handler _ (fun _ => (List.append_nil _).symm) (List.Subset.refl _) id s.events true

theorem turned_handlerStopped (hhdl : s.handler = .waiting) :
    Turned s { s with handler := .stopped } [] :=
  turned_handler _ (fun _ => by rw [hhdl]; rfl) (List.nil_subset _) (absurd rfl) s.events
    s.shutdown

/-- An entry that the handler comes to has a payload, as long as the worker lives. -/
theorem Tracked.hasPayload (hs : s.Tracked setup)
    (hhdl : s.handler = .processing (entry :: rest) commandBatch lastError)
    (hal : s.worker ≠ .stopped) : HasPayload entry := by
  apply (hs.trail hal).payloads
  rw [hhdl]
  exact List.mem_cons_self

theorem tracked_of_step (hs : s.Tracked setup) (hco : s.StartsApart setup l)
    (hst : s.step setup l = some t) : t.Tracked setup := by
  cases effect_of_step hst with
  | announced data hle => exact tracked_announce hs hle
  | began data rest hhdl hnew => exact (beginBatch_spec hs hhdl hnew hco).1
  | handled entry rest commandBatch lastError hhdl =>
    exact (turned_handleEntry hhdl (hs.hasPayload hhdl)).tracked hs
  | ended commandBatch lastError hhdl =>
    obtain ⟨_, htu⟩ := exists_turned_endBatch hhdl
    exact htu.tracked hs
  | changed entry rest result hhdl => exact (turned_configApplied result hhdl).tracked hs
  | took chunk rest hwo hcm => exact tracked_takeChunk hs hwo hcm
  | returned entries lastIndex outcome hwo => exact tracked_chunkReturned hs hwo
  | shutDown => exact turned_shutdown.tracked hs
  | handlerStopped hhdl => exact (turned_handlerStopped hhdl).tracked hs
  | workerStopped => exact hs.workerStopped s.commands s.stateMachine.lastApplied s.events

theorem accounted_of_step (hs : s.Accounted setup) (hco : s.StartsApart setup l)
    (hsp : s.step setup l = some t) : t.Accounted setup := by
  refine ⟨tracked_of_step hs.toTracked hco hsp, fun hst => ?_⟩
  have hem := hs.stopped
  have htu : ∀ {dropped}, Turned s t dropped → t.commands = [] := by
    intro dropped h
    have hwo : s.worker = .stopped := h.worker_eq ▸ hst
    rw [h.queued hwo, hem hwo]
  cases effect_of_step hsp with
  | announced => exact hem hst
  | began =>
    unfold beginBatch at hst ⊢
    split at hst
    · exact hem hst
    · exact hem hst
  | handled entry rest commandBatch lastError hhdl =>
    exact htu (turned_handleEntry hhdl (hs.toTracked.hasPayload hhdl))
  | ended commandBatch lastError hhdl => exact (exists_turned_endBatch hhdl).elim fun _ => htu
  | changed entry rest result hhdl => exact htu (turned_configApplied result hhdl)
  | took =>
    unfold takeChunk at hst ⊢
    split at hst
    · rfl
    · cases hst
  | returned entries lastIndex outcome =>
    cases outcome with
    | ok => cases hst
    | err => rfl
  | shutDown => exact htu turned_shutdown
  | handlerStopped hhdl => exact htu (turned_handlerStopped hhdl)
  | workerStopped =>
    simp only [step, Option.ite_none_right_eq_some] at hsp
    exact hsp.1.2.1

theorem Full.lastError_eq (h : s.Full setup)
    (hhdl : s.handler = .processing rest commandBatch lastError) : lastError = none := by
  have hno := h.noError
  rwa [hhdl] at hno

/-- As long as changes succeed, nothing is given up. -/
theorem full_of_step (hs : s.Tracked setup) (hfu : s.worker ≠ .stopped → s.Full setup)
    (hco : s.SendsApart setup l) (hst : s.step setup l = some t)
    (hal : t.worker ≠ .stopped) : t.Full setup := by
  cases effect_of_step hst with
  | announced => exact ⟨(hfu hal).total, (hfu hal).noError⟩
  | began data rest hhdl hnew =>
    have hwo : s.worker ≠ .stopped := by
      unfold beginBatch at hal
      split at hal
      · exact hal
      · exact hal
    exact (beginBatch_spec hs hhdl hnew hco).2 hwo (hfu hwo)
  | handled entry rest commandBatch lastError hhdl =>
    have htu := turned_handleEntry hhdl (hs.hasPayload hhdl)
    have hwo := htu.worker_eq ▸ hal
    obtain rfl := (hfu hwo).lastError_eq hhdl
    exact htu.full (hfu hwo) hwo (lastError_handleEntry entry rest commandBatch)
  | ended commandBatch lastError hhdl =>
    obtain ⟨_, htu⟩ := exists_turned_endBatch hhdl
    have hwo := htu.worker_eq ▸ hal
    obtain rfl := (hfu hwo).lastError_eq hhdl
    exact (turned_endBatch_none hhdl).full (hfu hwo) hwo (lastError_sendThen rfl)
  | changed entry rest result hhdl =>
    have htu : Turned s (s.configApplied setup entry rest result) [] :=
      turned_configApplied result hhdl
    have hwo := htu.worker_eq ▸ hal
    cases result with
    | error => cases hco
    | ok =>
      exact htu.full (hfu hwo) hwo (lastError_configApplied setup entry rest)
  | took chunk rest hwo hcm =>
    exact full_takeChunk (hfu (by rw [hwo]; nofun)) hcm hal
  | returned entries lastIndex outcome hwo =>
    have hbe := hfu (by rw [hwo]; nofun)
    cases outcome with
    | err => exact absurd rfl hal
    | ok => exact ⟨hbe.total, hbe.noError⟩
  | shutDown => exact turned_shutdown.full (hfu hal) hal (hfu hal).noError
  | handlerStopped hhdl =>
    exact (turned_handlerStopped hhdl).full (hfu hal) hal rfl
  | workerStopped => exact absurd rfl hal

theorem SendsApart.startsApart (h : s.SendsApart setup l) : s.StartsApart setup l := by
  cases l with
  | recv => exact h
  | _ => trivial

theorem ordered_of_step (hs : s.Ordered setup) (hco : s.SendsApart setup l)
    (hst : s.step setup l = some t) : t.Ordered setup where
  toTracked := tracked_of_step hs.toTracked hco.startsApart hst
  full := full_of_step hs.toTracked hs.full hco hst

theorem tracked_atStart (setup : Setup) (term : Nat) : (atStart setup term).Tracked setup where
  announced := rfl
  committed_le := Nat.zero_le _
  start_le := le_rfl
  consecutive := consecutive_nil _ _
  decoded := nofun
  front_le := le_max_left _ _
  follows := ⟨rfl, rfl⟩
  trail := fun _ => ⟨consecutive_nil _ _, nofun, nofun, le_max_left _ _, nofun⟩

theorem ordered_of_reach (hs : (applyLoop setup).Reach (SendsApart setup) s) : s.Ordered setup := by
  apply hs.invariant
  · rintro u ⟨term, rfl⟩
    exact ⟨tracked_atStart setup term, fun _ =>
      ⟨fun _ => (max_eq_left (Nat.zero_le _)).symm, rfl⟩⟩
  · exact fun u l v hu hco hst => ordered_of_step hu hco hst

end Pipeline

end DEngine.Apply

import DEngine.Raft.Frames

/-!
# The order of internal events

Internal events wait in a channel and then in a buffer of the loop, and are handled one by
one. A commit notification merges those that wait behind it in the channel: the first other
event that is met is sent again, which puts it behind all that wait. The events of one sender
are handled in the order in which they were sent, as long as no other event of that sender
waits behind the one that is sent again.

## Implementation notes

Every event that is sent gets a ticket with its number and its sender, and the tickets move
as the events do. An event that is sent again keeps its ticket. Merging is one step: it never
waits, and what a task sends meanwhile comes as if it were sent before the step or after.
-/

namespace DEngine.Raft

open Library Library.Handler Storage

variable {myId : Nat}

def InternalEvent.notifies : InternalEvent → Bool
  | .notifyNewCommitIndex _ => true
  | _ => false

def Label.handlesInternal : Label → Bool
  | .internalEvent _ => true
  | _ => false

/-! ## Tickets -/

/-- The loop itself, or a task outside of it. -/
inductive Sender where
  | loop
  | task (id : Nat)
  deriving DecidableEq

structure Ticket where
  number : Nat
  sender : Sender
  event : InternalEvent

/-- The tickets of a sender, those of commit notifications apart. -/
def Ticket.of (sender : Sender) (ticket : Ticket) : Bool :=
  decide (ticket.sender = sender) && !ticket.event.notifies

/-- Tickets for new events, numbered on. -/
def issue (sender : Sender) : Nat → List InternalEvent → List Ticket
  | _, [] => []
  | number, event :: rest => ⟨number, sender, event⟩ :: issue sender (number + 1) rest

theorem map_event_issue (sender : Sender) (number : Nat) (events : List InternalEvent) :
    (issue sender number events).map Ticket.event = events := by
  induction events generalizing number with
  | nil => rfl
  | cons event rest ih => rw [issue, List.map_cons, ih]

variable {sender : Sender}

theorem number_of_mem_issue {number : Nat} {events : List InternalEvent}
    {ticket : Ticket} (h : ticket ∈ issue sender number events) :
    number ≤ ticket.number ∧ ticket.number < number + events.length := by
  induction events generalizing number with
  | nil => cases h
  | cons event rest ih =>
    rw [List.length_cons]
    rcases List.mem_cons.mp h with rfl | hre
    · dsimp only
      omega
    · have := ih hre
      omega

theorem pairwise_issue (sender : Sender) (number : Nat) (events : List InternalEvent) :
    (issue sender number events).Pairwise fun a b => a.number < b.number := by
  induction events generalizing number with
  | nil => exact List.Pairwise.nil
  | cons event rest ih =>
    refine List.Pairwise.cons (fun later hla => ?_) (ih (number + 1))
    exact (number_of_mem_issue hla).1

/-! ## Merging -/

/-- What is left of the channel behind the merge of a commit notification. -/
def mergeTickets : Nat → List Ticket → List Ticket
  | 0, channel => channel
  | _ + 1, [] => []
  | budget + 1, ticket :: rest =>
    if ticket.event.notifies then mergeTickets budget rest else rest ++ [ticket]

/-- The ticket that a merge sends again, with those that wait behind it. -/
def displaced : Nat → List Ticket → Option (Ticket × List Ticket)
  | 0, _ => none
  | _ + 1, [] => none
  | budget + 1, ticket :: rest =>
    if ticket.event.notifies then displaced budget rest else some (ticket, rest)

theorem map_event_mergeTickets (budget : Nat) (data : NewCommitData) (channel : List Ticket) :
    (mergeTickets budget channel).map Ticket.event =
      (mergeNotifications budget data (channel.map Ticket.event)).2 := by
  induction channel generalizing budget data with
  | nil => cases budget <;> rfl
  | cons ticket rest ih =>
    cases budget with
    | zero => rfl
    | succ budget =>
      obtain ⟨number, sender, event⟩ := ticket
      rw [mergeTickets, List.map_cons]
      cases event with
      | notifyNewCommitIndex => exact ih budget _
      | _ => exact List.map_append

variable {channel : List Ticket}

/-- A merge keeps the order of a sender unless it moves one of its tickets behind another. -/
theorem filter_mergeTickets {budget : Nat}
    (h : ∀ moved ∈ displaced budget channel, ∀ later ∈ moved.2, later.sender = moved.1.sender →
      later.event.notifies = true) :
    (mergeTickets budget channel).filter (Ticket.of sender) =
      channel.filter (Ticket.of sender) := by
  induction channel generalizing budget with
  | nil => cases budget <;> rfl
  | cons ticket rest ih =>
    cases budget with
    | zero => rfl
    | succ =>
      rw [mergeTickets]
      rw [displaced] at h
      split_ifs at h ⊢ with hnt
      · rw [ih h, List.filter_cons_of_neg]
        simp [Ticket.of, hnt]
      · rw [List.filter_append]
        by_cases hof : Ticket.of sender ticket = true
        · -- No ticket of the sender is behind the one that is moved.
          have hno : rest.filter (Ticket.of sender) = [] := by
            rw [List.filter_eq_nil_iff]
            intro later hla hco
            simp only [Ticket.of, Bool.and_eq_true, decide_eq_true_eq,
              Bool.not_eq_true'] at hof hco
            have hag := h _ rfl later hla (hco.1.trans hof.1.symm)
            rw [hco.2] at hag
            cases hag
          rw [hno, List.filter_cons_of_pos hof, List.filter_cons_of_pos hof, hno,
            List.filter_nil, List.nil_append]
        · rw [List.filter_cons_of_neg hof, List.filter_cons_of_neg hof, List.filter_nil,
            List.append_nil]

/-! ## What the loop appends -/

/-- Events are sent, and those that wait stay where they are. -/
def Appends (s t : Node myId) : Prop :=
  t.bufferedInternalEvent = s.bufferedInternalEvent ∧
    ∃ new, t.internalRx = s.internalRx ++ new

theorem Appends.of_same {s t : Node myId} (hbuf : t.bufferedInternalEvent = s.bufferedInternalEvent)
    (hch : t.internalRx = s.internalRx) : Appends s t :=
  ⟨hbuf, [], by rw [hch, List.append_nil]⟩

instance : Frame (@Appends myId) where
  refl _ := .of_same rfl rfl
  trans s t u hst htu := by
    obtain ⟨hbuffer, new, hnew⟩ := hst
    obtain ⟨hbuffer', more, hmore⟩ := htu
    exact ⟨hbuffer'.trans hbuffer, new ++ more, by rw [hmore, hnew, List.append_assoc]⟩
  sent _ event := ⟨rfl, [event], rfl⟩
  recorded _ _ _ := .of_same rfl rfl
  log _ _ := .of_same rfl rfl
  hardState _ _ _ := .of_same rfl rfl
  currentLeader _ _ := .of_same rfl rfl
  commitIndex _ _ _ := .of_same rfl rfl
  leader _ _ _ := .of_same rfl rfl
  purge _ _ _ := .of_same rfl rfl
  loop _ _ _ _ _ _ := .of_same rfl rfl

section Handlers

variable {s : Node myId} {env : Env}

theorem appends_becomeFollower : Ensures becomeFollower s fun _ t => Appends s t := by
  unfold becomeFollower
  rw [ensures_get_bind]
  cases s.role <;> exact .of_same rfl rfl

theorem appends_becomeCandidate : Ensures becomeCandidate s fun _ t => Appends s t := by
  unfold becomeCandidate
  rw [ensures_get_bind]
  cases s.role <;> exact .of_same rfl rfl

theorem appends_becomeLearner : Ensures becomeLearner s fun _ t => Appends s t := by
  unfold becomeLearner
  rw [ensures_get_bind]
  cases s.role <;> exact .of_same rfl rfl

theorem appends_handleBecomeLeader : Ensures (handleBecomeLeader env) s fun _ t => Appends s t := by
  by_cases hro : s.role = .candidate
  · exact (frame_handleBecomeLeader hro).mono fun _ t ht =>
      IsTrans.trans s s.entered t (Appends.of_same rfl rfl) ht
  · refine (handleBecomeLeader_refused hro).mono ?_
    rintro _ t rfl
    exact Appends.of_same rfl rfl

theorem appends_handleInternalEvent {event : InternalEvent} {rest : List InternalEvent}
    (hbuf : s.bufferedInternalEvent = event :: rest) (hno : event.notifies = false) :
    Ensures (handleInternalEvent env event) (s.popped rest) fun _ t =>
      Appends (s.popped rest) t := by
  cases event with
  | becomeFollower =>
    refine Ensures.chain frame_drainReadBuffer fun _ u _ => ?_
    exact Ensures.chain appends_becomeFollower fun _ _ _ =>
      ensures_frame (p := .quiet 0) does_commitVoteReset
  | becomeCandidate =>
    exact Ensures.chain frame_drainReadBuffer fun _ u _ => appends_becomeCandidate
  | becomeLeader => exact appends_handleBecomeLeader
  | becomeLearner =>
    exact Ensures.chain frame_drainReadBuffer fun _ u _ => appends_becomeLearner
  | notifyNewCommitIndex => cases hno
  | _ =>
    apply frame_internalEvent hbuf rfl
    · rintro data ⟨⟩
    · exact fun _ u _ => Appends.of_same rfl rfl

/-- A commit notification leaves what its merge leaves. -/
theorem handleInternalEvent_notify (env : Env) {event : InternalEvent}
    (hno : event.notifies = true) (s : Node myId) :
    Ensures (handleInternalEvent env event) s fun _ t =>
      t.bufferedInternalEvent = s.bufferedInternalEvent ∧
        ∃ data, t.internalRx =
          (mergeNotifications (s.config.maxBatchSize - 1) data s.internalRx).2 := by
  cases event with
  | notifyNewCommitIndex data => exact ⟨rfl, data, rfl⟩
  | _ => cases hno

theorem Node.settle_queues (stops : Fault → Bool) (next : Phase)
    (outcome : Except Fault Unit × Node myId) :
    (settle stops next outcome).bufferedInternalEvent = outcome.2.bufferedInternalEvent ∧
      (settle stops next outcome).internalRx = outcome.2.internalRx := by
  unfold settle
  cases outcome.1 <;> exact ⟨rfl, rfl⟩

end Handlers

/-! ## The loop with tickets -/

/-- A node, with the tickets of the events that wait and of those that were handled. -/
structure Traced (myId : Nat) where
  node : Node myId
  buffer : List Ticket
  channel : List Ticket
  handled : List Ticket
  next : Nat

namespace Traced

/-- What the node has sent behind the given channel gets its tickets. -/
def issued (s : Traced myId) (sender : Sender) (node : Node myId) (channel : List Ticket) :
    Traced myId :=
  let new := node.internalRx.drop channel.length
  { s with
    node := node
    channel := channel ++ issue sender s.next new
    next := s.next + new.length }

/-- The tickets follow a step of the node, in which the given task sends, if any does. -/
def follow (s : Traced myId) (task : Nat) (node : Node myId) : Label → Traced myId
  | .recvInternal =>
    { s with
      node := node
      buffer := s.buffer ++ s.channel.take (s.node.config.maxBatchSize + 1)
      channel := s.channel.drop (s.node.config.maxBatchSize + 1) }
  | .internalEvent _ =>
    match s.buffer with
    | [] => { s with node := node }
    | ticket :: rest =>
      { s with buffer := rest, handled := s.handled ++ [ticket] }.issued .loop node
        (if ticket.event.notifies then
          mergeTickets (s.node.config.maxBatchSize - 1) s.channel
        else s.channel)
  | .push _ => s.issued (.task task) node s.channel
  | .poison => s.issued (.task task) node s.channel
  | _ => s.issued .loop node s.channel

def step (s : Traced myId) (l : Nat × Label) : Option (Traced myId) :=
  (s.node.step l.2).map fun node => s.follow l.1 node l.2

structure Init (s : Traced myId) : Prop where
  node : s.node.Init
  buffer : s.buffer = []
  channel : s.channel = []
  handled : s.handled = []

/-- The tickets are those of the events that wait. -/
structure Matches (s : Traced myId) : Prop where
  buffer : s.buffer.map Ticket.event = s.node.bufferedInternalEvent
  channel : s.channel.map Ticket.event = s.node.internalRx

/-- What a sender has sent, in the order in which it is handled. -/
def turn (s : Traced myId) (sender : Sender) : List Ticket :=
  (s.handled ++ s.buffer ++ s.channel).filter (Ticket.of sender)

structure Ordered (s : Traced myId) : Prop where
  sorted : ∀ sender, (s.turn sender).Pairwise fun a b => a.number < b.number
  numbered : ∀ sender, ∀ ticket ∈ s.turn sender, ticket.number < s.next

/-- A commit notification that is handled sends no event again behind which another one of the
same sender waits. -/
def KeepsTurn (s : Traced myId) (l : Nat × Label) : Prop :=
  l.2.handlesInternal = true → (s.buffer.head?.any fun ticket => ticket.event.notifies) = true →
    ∀ moved ∈ displaced (s.node.config.maxBatchSize - 1) s.channel, ∀ later ∈ moved.2,
      later.sender = moved.1.sender → later.event.notifies = true

instance (s : Traced myId) (l : Nat × Label) : Decidable (s.KeepsTurn l) := by
  unfold KeepsTurn
  infer_instance

variable {s t : Traced myId} {l : Nat × Label}

/-! ### Tickets and events -/

variable {node : Node myId}

theorem Matches.issued {u : Traced myId} (new : List InternalEvent)
    (hbuf : u.buffer.map Ticket.event = node.bufferedInternalEvent)
    (hch : node.internalRx = channel.map Ticket.event ++ new) :
    (u.issued sender node channel).Matches := by
  refine ⟨hbuf, ?_⟩
  have hdr : node.internalRx.drop channel.length = new := by
    rw [hch]
    exact List.drop_left' (List.length_map _)
  simp only [Traced.issued]
  rw [List.map_append, map_event_issue, hdr, hch]

theorem Matches.of_appends (h : s.Matches)
    (hap : Appends s.node node) : (s.issued sender node s.channel).Matches := by
  obtain ⟨hbuf, new, hnew⟩ := hap
  exact .issued new (h.buffer.trans hbuf.symm) (by rw [h.channel]; exact hnew)

/-- Steps that leave the queues alone only issue tickets. -/
theorem follow_eq_issued (s : Traced myId) (task : Nat) (node : Node myId) {l : Label}
    (hre : l ≠ .recvInternal) (hev : ∀ env, l ≠ .internalEvent env) :
    ∃ sender, s.follow task node l = s.issued sender node s.channel := by
  cases l with
  | recvInternal => exact absurd rfl hre
  | internalEvent env => exact absurd rfl (hev env)
  | push event | poison => exact ⟨.task task, rfl⟩
  | _ => exact ⟨.loop, rfl⟩

variable {task : Nat}

theorem Matches.recvInternal (h : s.Matches) :
    (s.follow task s.node.recvInternal .recvInternal).Matches := by
  refine ⟨?_, ?_⟩
  · simp only [follow, Node.recvInternal, List.map_append, List.map_take, h.buffer, h.channel]
  · simp only [follow, Node.recvInternal, List.map_drop, h.channel]

theorem Matches.handle (h : s.Matches) {env : Env} {event : InternalEvent}
    {rest : List InternalEvent} (hbuf : s.node.bufferedInternalEvent = event :: rest) :
    (s.follow task (.settle Fault.isFatal .internal
      (handleInternalEvent env event (s.node.popped rest))) (.internalEvent env)).Matches := by
  have hbu := h.buffer.trans hbuf
  obtain ⟨ticket, tickets, hqu, rfl, rfl⟩ := List.map_eq_cons_iff.mp hbu
  simp only [follow, hqu]
  split_ifs with hno
  · obtain ⟨hke, data, hrx⟩ := handleInternalEvent_notify env hno
      (s.node.popped (tickets.map Ticket.event))
    obtain ⟨hbu', hch'⟩ := Node.settle_queues Fault.isFatal .internal
      (handleInternalEvent env ticket.event (s.node.popped (tickets.map Ticket.event)))
    refine Matches.issued [] (hbu'.trans hke).symm ?_
    rw [hch', hrx, map_event_mergeTickets _ data, h.channel, List.append_nil]
    rfl
  · have hap : Appends (s.node.popped (tickets.map Ticket.event))
        (.settle Fault.isFatal .internal (handleInternalEvent env ticket.event
          (s.node.popped (tickets.map Ticket.event)))) :=
      frame_settle (appends_handleInternalEvent hbuf (Bool.eq_false_iff.mpr hno))
    obtain ⟨hke, new, hnew⟩ := hap
    refine Matches.issued new hke.symm ?_
    rw [h.channel]
    exact hnew

theorem Matches.step (h : s.Matches) (hst : s.step l = some t) : t.Matches := by
  obtain ⟨node, hno, rfl⟩ := Option.map_eq_some_iff.mp hst
  obtain ⟨task, l⟩ := l
  by_cases hre : l = .recvInternal
  · subst hre
    simp only [Node.step, Option.ite_none_right_eq_some, Option.some.injEq] at hno
    obtain ⟨-, rfl⟩ := hno
    exact h.recvInternal
  by_cases hev : ∀ env, l ≠ .internalEvent env
  · obtain ⟨sender, hfo⟩ := follow_eq_issued s task node hre hev
    dsimp only
    rw [hfo]
    exact h.of_appends (frame_of_step hno hre hev)
  · push Not at hev
    obtain ⟨env, rfl⟩ := hev
    simp only [Node.step] at hno
    split at hno <;> cases hno
    rename_i event rest _ hbuf
    exact h.handle hbuf

/-! ### The order of the tickets -/

/-- New tickets go behind those that were issued before. -/
theorem Ordered.issued (h : s.Ordered) {u : Traced myId} (hnx : u.next = s.next)
    (htu : ∀ k, (u.handled ++ u.buffer ++ channel).filter (Ticket.of k) = s.turn k) :
    (u.issued sender node channel).Ordered := by
  have his : ∀ k, (u.issued sender node channel).turn k = s.turn k ++
      (issue sender s.next (node.internalRx.drop channel.length)).filter (Ticket.of k) := by
    intro k
    rw [← htu k, ← List.filter_append, ← hnx, List.append_assoc]
    rfl
  refine ⟨fun k => ?_, fun k ticket hti => ?_⟩
  · rw [his k, List.pairwise_append]
    refine ⟨h.sorted k, (pairwise_issue _ _ _).filter _, fun a ha b hb => ?_⟩
    exact (h.numbered k a ha).trans_le (number_of_mem_issue (List.mem_filter.mp hb).1).1
  · change ticket.number < u.next + _
    rw [his k] at hti
    rw [hnx]
    rcases List.mem_append.mp hti with hold | hnew
    · exact (h.numbered k ticket hold).trans_le (Nat.le_add_right _ _)
    · exact (number_of_mem_issue (List.mem_filter.mp hnew).1).2

/-- Tickets that keep their order stay in order. -/
theorem Ordered.of_turn (h : s.Ordered) (hnx : t.next = s.next)
    (htu : ∀ k, t.turn k = s.turn k) : t.Ordered :=
  ⟨fun k => (htu k) ▸ h.sorted k, fun k => by rw [htu k, hnx]; exact h.numbered k⟩

theorem Ordered.handle (h : s.Ordered) {env : Env} (hke : s.KeepsTurn (task, .internalEvent env)) :
    (s.follow task node (.internalEvent env)).Ordered := by
  cases hbuf : s.buffer with
  | nil =>
    simp only [follow, hbuf]
    exact h.of_turn rfl fun k => by rw [turn, turn, hbuf]
  | cons ticket rest =>
    simp only [follow, hbuf]
    refine h.issued rfl fun k => ?_
    -- The handled ticket only moves from the buffer to those that were handled.
    have hmo : ∀ channel : List Ticket, s.handled ++ [ticket] ++ rest ++ channel =
        s.handled ++ s.buffer ++ channel := by
      intro channel
      rw [hbuf, List.append_assoc s.handled, List.singleton_append]
    dsimp only
    rw [hmo, turn, List.filter_append, List.filter_append (s.handled ++ s.buffer)]
    congr 1
    split_ifs with hno
    · apply filter_mergeTickets
      exact hke rfl (by rw [hbuf]; exact hno)
    · rfl

theorem Ordered.step (h : s.Ordered) (hke : s.KeepsTurn l) (hst : s.step l = some t) :
    t.Ordered := by
  obtain ⟨node, hno, rfl⟩ := Option.map_eq_some_iff.mp hst
  obtain ⟨task, l⟩ := l
  by_cases hre : l = .recvInternal
  · subst hre
    refine h.of_turn rfl fun k => ?_
    simp only [follow, turn]
    rw [← List.append_assoc s.handled, List.append_assoc (s.handled ++ s.buffer),
      List.take_append_drop]
  by_cases hev : ∀ env, l ≠ .internalEvent env
  · obtain ⟨sender, hfo⟩ := follow_eq_issued s task node hre hev
    dsimp only
    rw [hfo]
    exact h.issued rfl fun k => rfl
  · push Not at hev
    obtain ⟨env, rfl⟩ := hev
    exact h.handle hke

end Traced

/-- The main loop, with a ticket for every internal event. -/
def traced (myId : Nat) : Machine (Traced myId) (Nat × Label) where
  init := Traced.Init
  step := Traced.step

namespace Traced

variable {s : Traced myId} {cond : Traced myId → Nat × Label → Prop}

theorem Init.matches (h : s.Init) : s.Matches := by
  obtain ⟨config, role, shared, diskLen, loaded, boundary, membership, hno, -⟩ := h.node
  refine ⟨?_, ?_⟩
  · rw [h.buffer, hno]
    rfl
  · rw [h.channel, hno]
    rfl

theorem Init.ordered (h : s.Init) : s.Ordered := by
  have htu : ∀ k, s.turn k = [] := by
    intro k
    rw [turn, h.buffer, h.channel, h.handled]
    rfl
  refine ⟨fun k => ?_, fun k ticket hti => ?_⟩
  · rw [htu k]
    exact List.Pairwise.nil
  · rw [htu k] at hti
    cases hti

theorem matches_of_reach (h : (traced myId).Reach cond s) : s.Matches :=
  h.invariant (fun _ => Init.matches) fun _ _ _ hs _ hst => hs.step hst

/-- In every run in which no notification moves an event behind another one of its sender, the
events of each sender are handled in the order in which they were sent. -/
theorem handled_in_order (h : (traced myId).Reach KeepsTurn s) :
    s.Matches ∧ ∀ sender, (s.handled.filter (Ticket.of sender)).Pairwise fun a b =>
      a.number < b.number := by
  refine ⟨matches_of_reach h, fun sender => ?_⟩
  have hor : s.Ordered :=
    h.invariant (fun _ => Init.ordered) fun _ _ _ hs hke hst => hs.step hke hst
  have hso := hor.sorted sender
  rw [turn, List.append_assoc, List.filter_append] at hso
  exact (List.pairwise_append.mp hso).1

/-- A follower that starts with nothing stored. -/
def atStart : Traced 1 := ⟨.firstStart .small .trio, [], [], [], 0⟩

theorem init_atStart : atStart.Init := ⟨Node.init_firstStart _ _, rfl, rfl, rfl⟩

/-- A follower learns that an entry is committed, and receives the notification. -/
def notifiedRun : List (Nat × Label) :=
  [.arrive (.appendEntries ⟨1, 2, 0, 0, [⟨1, 1, none⟩], 1⟩), .recvInbound, .flush {},
    .inboundEvent {}, .nextRound, .recvInternal].map (Prod.mk 0)

/-- Handle what is buffered, and then what waits in the channel. -/
def handlingRun : List (Nat × Label) :=
  [.internalEvent {}, .internalEvent {}, .flush {}, .nextRound, .recvInternal, .internalEvent {},
    .internalEvent {}].map (Prod.mk 0)

/-- Two tasks send while the notification is handled: the event of the first one is moved behind
that of the second, which is no matter. -/
theorem two_tasks_in_order :
    ∃ s : Traced 1, (traced 1).Reach KeepsTurn s ∧
      s.handled.map (fun ticket => (ticket.number, ticket.sender)) =
        [(0, .loop), (1, .loop), (3, .task 8), (2, .task 7)] ∧
      ∀ sender, (s.handled.filter (Ticket.of sender)).Pairwise fun a b => a.number < b.number :=
  Machine.exists_reach_and_of_runIf (notifiedRun ++ [(7, .push (.applyCompleted 1)),
    (8, .push (.peerStreamError 2))] ++ handlingRun) init_atStart (by decide +kernel)
    fun _ hre => (handled_in_order hre).2

/-- One task sends two events while a notification is handled, and the second one is handled
first. -/
theorem second_event_handled_first :
    ∃ s : Traced 1, (traced 1).Reach (fun _ _ => True) s ∧
      (s.handled.filter (Ticket.of (.task 7))).map
        (fun ticket => (ticket.number, ticket.event)) =
        [(3, .applyCompleted 2), (2, .applyCompleted 1)] ∧
      ¬ (s.handled.filter (Ticket.of (.task 7))).Pairwise fun a b => a.number < b.number :=
  Machine.exists_reach_of_runIf (notifiedRun ++ [(7, .push (.applyCompleted 1)),
    (7, .push (.applyCompleted 2))] ++ handlingRun) init_atStart (by decide +kernel)

end Traced

end DEngine.Raft

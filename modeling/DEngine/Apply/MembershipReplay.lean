import DEngine.Apply.InstalledState
import DEngine.Apply.Membership

/-!
# The membership follows the log

The commit handler applies the changes of the membership while it hands the entries
to the worker, and a restarted node begins again with the configured cluster. The
nodes that it knows are those of the committed log as long as a range is not read
again while it is on its way, a change that fails is the last one of its range, no
change outside the log is admitted, no snapshot is installed over a change, and a node
restarts before its state machine has applied a change.

## Implementation notes

The committed log is the same over all restarts. A restarted state machine reports
an index up to the last entry that it was given; which one is chosen by the label.
Installing the snapshot at the front of the worker's queue is one step.
The leader and the term that a request outside the log is checked against belong to
the label as well.
-/

namespace DEngine.Apply

open Library Library.PartialLog Storage

/-! ## The changes of the committed log -/

/-- The change that a configuration entry carries. -/
def configChange (e : Entry) : Option (Option MembershipChange) :=
  match e.payload.bind EntryPayload.payload with
  | some (.config change) => some change
  | _ => none

/-- A node with its whole committed log and the cluster that it is configured with. -/
structure Cluster extends Setup where
  fresh : start = 0
  initialCluster : List (Nat × NodeMeta)

namespace InnerState

/-- The changes of the given entries, one after the other, whether or not they succeed. -/
def replay (m : InnerState) (entries : List Entry) : InnerState :=
  (entries.filterMap configChange).foldl (fun m change => (m.applyConfigChange change).2) m

/-- `apply_config_change` of the commit handler. -/
def applyEntry (m : InnerState) (entry : Entry) : Except Fault Unit × InnerState :=
  match configChange entry with
  | some change => m.applyConfigChange change
  | none => (.ok (), m)

variable {m : InnerState}

theorem replay_append (entries rest : List Entry) :
    m.replay (entries ++ rest) = (m.replay entries).replay rest := by
  rw [replay, List.filterMap_append, List.foldl_append]
  rfl

theorem replay_of_noChange {entries : List Entry} (h : ∀ e ∈ entries, configChange e = none) :
    m.replay entries = m := by
  rw [replay, List.filterMap_eq_nil_iff.mpr h]
  rfl

theorem applyEntry_snd (entry : Entry) : (m.applyEntry entry).2 = m.replay [entry] := by
  unfold applyEntry replay
  split
  · rename_i change hch
    rw [List.filterMap_cons_some hch]
    rfl
  · rename_i hno
    rw [List.filterMap_cons_none hno]
    rfl

theorem applyEntry_ok {entry : Entry} (h : ∀ change ∈ configChange entry, m.Applicable change) :
    (m.applyEntry entry).1 = .ok () := by
  unfold applyEntry
  split
  · rename_i change hch
    exact applyConfigChange_ok (h change hch)
  · rfl

end InnerState

namespace Cluster

variable {c : Cluster}

/-- The node as it runs behind a start in which its state machine reports `lastApplied`. -/
def startedAt (c : Cluster) (lastApplied : Nat) : Setup where
  toCommittedLog := {
    log := c.log
    start := lastApplied
    last := c.last
    wellFormed := c.wellFormed
    held := by
      intro i hlo hhi
      apply c.held i _ hhi
      rw [c.fresh]
      exact Nat.zero_lt_of_lt hlo }
  myId := c.myId
  maxBatchSize := c.maxBatchSize
  decode := c.decode

/-- The changes of the committed entries up to `i`, in the order of the log. -/
def changesUpTo (c : Cluster) (i : Nat) : List (Option MembershipChange) :=
  (List.range' 1 i).filterMap fun k => (c.log.entry k).bind configChange

/-- The membership that the committed entries up to `i` determine: their changes are applied once
each to the configured cluster, whether or not they succeed. -/
def membershipAt (c : Cluster) (i : Nat) : InnerState :=
  (c.changesUpTo i).foldl (fun m change => (m.applyConfigChange change).2)
    (InnerState.new c.initialCluster)

variable {i : Nat}

theorem changesUpTo_add {entries : List Entry} (hco : Consecutive Entry.index entries (i + 1))
    (hhe : ∀ e ∈ entries, c.log.entry e.index = some e) :
    c.changesUpTo (i + entries.length) = c.changesUpTo i ++ entries.filterMap configChange := by
  have hen : (List.range' (1 + i) entries.length).filterMap
      (fun k => (c.log.entry k).bind configChange) = entries.filterMap configChange := by
    rw [Nat.add_comm 1 i, ← hco, List.filterMap_map]
    apply List.filterMap_congr
    intro e he
    rw [Function.comp_apply, hhe e he]
    rfl
  rw [changesUpTo, changesUpTo, ← hen, ← List.filterMap_append]
  rw [List.range'_append_1]

theorem membershipAt_add {entries : List Entry} (hco : Consecutive Entry.index entries (i + 1))
    (hhe : ∀ e ∈ entries, c.log.entry e.index = some e) :
    c.membershipAt (i + entries.length) = (c.membershipAt i).replay entries := by
  rw [membershipAt, changesUpTo_add hco hhe, List.foldl_append]
  rfl

theorem membershipAt_of_noChange (h : c.changesUpTo i = []) :
    c.membershipAt i = InnerState.new c.initialCluster := by
  rw [membershipAt, h]
  rfl

end Cluster

/-! ## A node and its restarts -/

/-- A running node: the index that its state machine started from or that its last snapshot reaches,
its two tasks with what they did since, and the nodes that it knows. -/
structure Member where
  start : Nat
  pipeline : Pipeline
  membership : InnerState
deriving DecidableEq

/-- A step of a task other than the end of a change, the end of a change, the install of a snapshot,
a request outside the log, or a restart. -/
inductive MemberLabel where
  | task (l : Label)
  | configured
  | install (lastIncluded : LogId) (restored : Except Fault Unit)
  | confUpdate (currentLeaderId : Option Nat) (myCurrentTerm : Nat) (req : ClusterConfChangeRequest)
  | restart (lastApplied : LogId)

namespace Member

def setup (c : Cluster) (s : Member) : Setup := c.startedAt s.start

/-- `RaftMembership::new` and the tasks behind it. -/
def started (c : Cluster) (lastApplied : LogId) : Member where
  start := lastApplied.index
  pipeline := Pipeline.atStart (c.startedAt lastApplied.index) lastApplied.term
  membership := InnerState.new c.initialCluster

/-- `install_prepared_snapshot`: the applied index moves, and the nodes stay as they are. -/
def installed (s : Member) (lastIncluded : LogId) : Member :=
  { s with
    start := lastIncluded.index
    pipeline := { s.pipeline with
      applied := advance s.pipeline.applied lastIncluded.index
      stateMachine := ⟨lastIncluded, []⟩ } }

/-- A state machine recovers at most what it was given. -/
def MayRecover (s : Member) (lastApplied : LogId) : Prop :=
  lastApplied.index ≤ s.start ∨ ∃ a ∈ s.pipeline.passed, lastApplied.index ≤ a.index
deriving Decidable

def step (c : Cluster) (s : Member) : MemberLabel → Option Member
  | .task (.configured _) => none
  | .task l => (s.pipeline.step (s.setup c) l).map fun p => { s with pipeline := p }
  | .configured =>
    match s.pipeline.handler with
    | .changing entry rest =>
      some { s with
        pipeline := s.pipeline.configApplied (s.setup c) entry rest
          (s.membership.applyEntry entry).1
        membership := (s.membership.applyEntry entry).2 }
    | _ => none
  | .install incoming restored =>
    if s.pipeline.worker = .waiting ∧ incoming.index ≤ c.last then
      match applySnapshotFromFile s.pipeline.stateMachine.lastApplied incoming restored with
      | .ok (.applied lastIncluded) => some (s.installed lastIncluded)
      | _ => some s
    else none
  | .confUpdate currentLeaderId myCurrentTerm req =>
    some { s with
      membership := (s.membership.updateClusterConfFromLeader c.myId myCurrentTerm
        s.membership.clusterConfVersion currentLeaderId req).2 }
  | .restart lastApplied => if s.MayRecover lastApplied then some (started c lastApplied) else none

end Member

/-- A node over its restarts, from the first start with an empty state machine. -/
def memberRuns (c : Cluster) : Machine Member MemberLabel where
  init s := s = Member.started c ⟨0, 0⟩
  step := Member.step c

namespace Member

variable {c : Cluster} {s t : Member}

/-- The indexes of the entries that were handed over in this run: those that the state machine was
given, and those that its worker has in its queue. -/
def handed (s : Member) : List Nat :=
  s.pipeline.passed.map ApplyEntry.index ++ s.pipeline.commands.flatten.map Entry.index

/-- The commit handler is idle, and the entries that were handed over to the state machine, now or
before the last restart or with a snapshot, are those up to `i`. -/
structure HandedUpTo (s : Member) (i : Nat) : Prop where
  idle : s.pipeline.handler = .waiting
  start_le : s.start ≤ i
  handed : ∀ j ≤ i, s.start < j → j ∈ s.handed
  nothingBehind : ∀ j ∈ s.handed, j ≤ i

/-! ## When the membership follows -/

/-- The chunks that a failing worker leaves behind carry no change. -/
def LosesNoChange (c : Cluster) (s : Member) : Label → Prop
  | .take => (∀ chunk ∈ s.pipeline.commands.head?, (decodeEntries c.decode chunk).isOk) ∨
      ∀ e ∈ s.pipeline.commands.flatten, configChange e = none
  | .applyReturned (.err _) => ∀ e ∈ s.pipeline.commands.flatten, configChange e = none
  | _ => True

/-- The change that is about to end succeeds, or it is the last one of its range. -/
def ChangesApart (m : InnerState) : HandlerPhase → Prop
  | .changing entry rest => (∀ change ∈ configChange entry, m.Applicable change) ∨
      ∀ e ∈ rest, configChange e = none
  | _ => True

def Orderly (c : Cluster) (s : Member) : MemberLabel → Prop
  | .task l => s.pipeline.StartsApart (s.setup c) l ∧ s.LosesNoChange c l
  | .configured => ChangesApart s.membership s.pipeline.handler
  | .install incoming _ =>
    let applied := s.pipeline.stateMachine.lastApplied.index
    applied < incoming.index →
      s.pipeline.onTheWay = [] ∧ c.changesUpTo incoming.index = c.changesUpTo applied
  | .confUpdate currentLeaderId myCurrentTerm req =>
    s.membership.Admits myCurrentTerm currentLeaderId req → req.change.join = none
  | .restart lastApplied => c.changesUpTo lastApplied.index = []

instance (c : Cluster) (s : Member) (l : Label) : Decidable (s.LosesNoChange c l) := by
  unfold LosesNoChange
  split <;> infer_instance

instance (m : InnerState) (phase : HandlerPhase) : Decidable (ChangesApart m phase) := by
  cases phase <;> dsimp only [ChangesApart] <;> infer_instance

instance (c : Cluster) (s : Member) (l : MemberLabel) : Decidable (s.Orderly c l) := by
  cases l <;> dsimp only [Orderly] <;> infer_instance

end Member

/-! ## The invariant -/

/-- The index of the last entry that was handed over to the worker. -/
def Pipeline.sent (setup : Setup) (p : Pipeline) : Nat := p.front setup + p.commands.flatten.length

/-- The commands that the handler has collected and not sent yet. -/
def HandlerPhase.commandBatch : HandlerPhase → List Entry
  | .processing _ commandBatch _ => commandBatch
  | _ => []

/-- The membership once the change that is under way has ended. -/
def InnerState.behind (m : InnerState) : HandlerPhase → InnerState
  | .changing entry _ => m.replay [entry]
  | _ => m

namespace Member

variable {c : Cluster} {s t : Member}

/-- The membership is that of the entries that were handed over. Behind a failed change the handler
comes to no other one, and it sends every change as soon as it comes to it. -/
structure Keeps (c : Cluster) (s : Member) : Prop where
  accounted : s.pipeline.Accounted (s.setup c)
  member : s.membership.behind s.pipeline.handler =
    c.membershipAt (s.pipeline.sent (s.setup c))
  batch : ∀ e ∈ s.pipeline.handler.commandBatch, configChange e = none
  skipped : s.pipeline.handler.lastError ≠ none →
    ∀ e ∈ s.pipeline.handler.unread, configChange e = none

variable {rest : List Entry}

/-- Within a batch no change is under way. -/
theorem Keeps.processing (hs : s.Keeps c) {commandBatch : List Entry} {lastError : Option Fault}
    (hhdl : s.pipeline.handler = .processing rest commandBatch lastError) :
    s.membership = c.membershipAt (s.pipeline.sent (s.setup c)) ∧
      (∀ e ∈ commandBatch, configChange e = none) ∧
      (lastError ≠ none → ∀ e ∈ rest, configChange e = none) := by
  obtain ⟨-, hnow, hba, hsk⟩ := hs
  rw [hhdl] at hnow hba hsk
  exact ⟨hnow, hba, hsk⟩

theorem membershipAt_sending (hs : s.Keeps c) (hal : s.pipeline.worker ≠ .stopped)
    {sending : List Entry} (hen : sending ++ rest = s.pipeline.handler.entries) :
    c.membershipAt (s.pipeline.sent (s.setup c) + sending.length) =
      (c.membershipAt (s.pipeline.sent (s.setup c))).replay sending := by
  have htr := hs.accounted.trail hal
  have hway : s.pipeline.onTheWay = s.pipeline.commands.flatten ++ (sending ++ rest) := by
    rw [hen]
    rfl
  have hco := htr.consecutive
  rw [hway, consecutive_append, consecutive_append, Nat.add_right_comm] at hco
  apply Cluster.membershipAt_add hco.2.1
  intro e he
  apply htr.held
  rw [hway]
  exact List.mem_append_right _ (List.mem_append_left _ he)

/-- Chunks without a change can be lost. -/
theorem membershipAt_front (hs : s.Keeps c) (hal : s.pipeline.worker ≠ .stopped)
    (hlo : ∀ e ∈ s.pipeline.commands.flatten, configChange e = none) :
    c.membershipAt (s.pipeline.sent (s.setup c)) =
      c.membershipAt (s.pipeline.front (s.setup c)) := by
  have htr := hs.accounted.trail hal
  have hco := ((consecutive_append _ _ _ _).mp htr.consecutive).1
  have hadd := Cluster.membershipAt_add (c := c) hco
    fun e he => htr.held e (List.mem_append_left _ he)
  rw [InnerState.replay_of_noChange hlo] at hadd
  exact hadd

/-- What the handler sends is followed by the membership as soon as the change under way, if there
is one, has ended. -/
theorem Keeps.sendThen (hs : s.Keeps c) {batch : List Entry} {next : HandlerPhase}
    (hac : (s.pipeline.sendThen batch next).Accounted (s.setup c))
    (hnow : s.membership = c.membershipAt (s.pipeline.sent (s.setup c)))
    (hen : batch ++ next.entries = s.pipeline.handler.entries)
    (hnx : s.membership.behind next = s.membership.replay batch) (hba : next.commandBatch = [])
    (hsk : next.lastError ≠ none → ∀ e ∈ next.unread, configChange e = none) :
    Keeps c { s with pipeline := s.pipeline.sendThen batch next } := by
  have hba : ∀ e ∈ next.commandBatch, configChange e = none := by
    rw [hba]
    exact fun e he => absurd he List.not_mem_nil
  obtain ⟨hnil, heq⟩ | ⟨-, heq⟩ | ⟨-, hal, heq⟩ := Pipeline.sendThen_cases s.pipeline batch next
  all_goals rw [heq] at hac ⊢
  · rw [hnil] at hnx
    exact ⟨hac, hnx.trans hnow, hba, hsk⟩
  · exact ⟨hac, hnow, fun e he => absurd he List.not_mem_nil,
      fun h => absurd rfl h⟩
  · refine ⟨hac, ?_, hba, hsk⟩
    have hse : Pipeline.sent (s.setup c)
        { s.pipeline with handler := next, commands := s.pipeline.commands ++ [batch] } =
        s.pipeline.sent (s.setup c) + batch.length := by
      rw [Pipeline.sent, List.flatten_concat, List.length_append, ← Nat.add_assoc]
      rfl
    calc s.membership.behind next
        = s.membership.replay batch := hnx
      _ = (c.membershipAt (s.pipeline.sent (s.setup c))).replay batch := by rw [← hnow]
      _ = c.membershipAt (s.pipeline.sent (s.setup c) + batch.length) :=
          (membershipAt_sending hs hal hen).symm
      _ = _ := congrArg c.membershipAt hse.symm

theorem keeps_handleEntry (hs : s.Keeps c) {entry : Entry} {commandBatch : List Entry}
    {lastError : Option Fault}
    (hhdl : s.pipeline.handler = .processing (entry :: rest) commandBatch lastError)
    (hac : (s.pipeline.handleEntry entry rest commandBatch lastError).Accounted (s.setup c)) :
    Keeps c { s with pipeline := s.pipeline.handleEntry entry rest commandBatch lastError } := by
  obtain ⟨hnow, hba, hsk⟩ := hs.processing hhdl
  have hen : commandBatch ++ [entry] ++ rest = s.pipeline.handler.entries := by
    rw [hhdl]
    simp [HandlerPhase.entries]
  have hre : lastError ≠ none → ∀ e ∈ rest, configChange e = none :=
    fun h e he => hsk h e (List.mem_cons_of_mem _ he)
  unfold Pipeline.handleEntry at hac ⊢
  split at hac
  · exact ⟨hac, hnow, hba, hre⟩
  · rename_i hpay
    refine ⟨hac, hnow, fun e he => ?_, hre⟩
    rcases List.mem_append.mp he with hold | hnew
    · exact hba e hold
    · rw [List.mem_singleton.mp hnew, configChange, hpay]
      rfl
  · rename_i change hpay
    have hch : configChange entry = some change := by
      rw [configChange, hpay]
      rfl
    -- a change is never skipped: behind a failed one there is none
    have hno : lastError = none := by
      by_contra h
      have := hsk h entry List.mem_cons_self
      rw [hch] at this
      cases this
    subst hno
    apply Keeps.sendThen hs hac hnow hen _ rfl (fun h => absurd rfl h)
    rw [InnerState.replay_append, InnerState.replay_of_noChange hba]
    rfl
  · rename_i hpay
    apply Keeps.sendThen hs hac hnow hen _ rfl hre
    refine (InnerState.replay_of_noChange fun e he => ?_).symm
    rcases List.mem_append.mp he with hold | hnew
    · exact hba e hold
    · rw [List.mem_singleton.mp hnew, configChange, hpay]
      rfl
  · exact ⟨hac, hnow, fun e he => absurd he List.not_mem_nil,
      fun h => absurd rfl h⟩

/-- A step of one of the tasks, other than the end of a change. -/
theorem keeps_task (hs : s.Keeps c) {l : Label} {p : Pipeline}
    (hla : ∀ result, l ≠ .configured result)
    (hco : s.Orderly c (.task l)) (hst : s.pipeline.step (s.setup c) l = some p) :
    Keeps c { s with pipeline := p } := by
  have hac := Pipeline.accounted_of_step hs.accounted hco.1 hst
  cases Pipeline.effect_of_step hst with
  | announced => exact ⟨hac, hs.member, hs.batch, hs.skipped⟩
  | began data rest hhdl =>
    have hnow := hs.member
    rw [hhdl] at hnow
    unfold Pipeline.beginBatch at hac ⊢
    split at hac
    · exact ⟨hac, hs.member, hs.batch, hs.skipped⟩
    · exact ⟨hac, hnow, fun e he => absurd he List.not_mem_nil,
        fun h => absurd rfl h⟩
  | handled entry rest commandBatch lastError hhdl =>
    exact keeps_handleEntry hs hhdl hac
  | ended commandBatch lastError hhdl =>
    obtain ⟨hnow, hba, -⟩ := hs.processing hhdl
    cases lastError with
    | some =>
      exact ⟨hac, hnow, fun e he => absurd he List.not_mem_nil,
        fun h => absurd rfl h⟩
    | none =>
      apply Keeps.sendThen hs hac hnow _ _ rfl (fun h => absurd rfl h)
      · rw [hhdl]
        rfl
      · exact (InnerState.replay_of_noChange hba).symm
  | changed entry rest result => exact absurd rfl (hla result)
  | took chunk rest hwo hcm =>
    have hal : s.pipeline.worker ≠ .stopped := by
      rw [hwo]
      nofun
    unfold Pipeline.takeChunk at hac ⊢
    split at hac
    · rename_i fault hfa
      refine ⟨hac, ?_, hs.batch, hs.skipped⟩
      -- the chunks of the queue are lost with the one that cannot be decoded
      have hlo : ∀ e ∈ s.pipeline.commands.flatten, configChange e = none := by
        refine hco.2.resolve_left fun hdc => ?_
        have hok := hdc chunk (by rw [hcm]; rfl)
        rw [show c.decode = (s.setup c).decode from rfl, hfa] at hok
        cases hok
      exact hs.member.trans (membershipAt_front hs hal hlo)
    · rename_i entries hde
      refine ⟨hac, ?_, hs.batch, hs.skipped⟩
      have hlen : entries.length = chunk.length := by
        simpa using congrArg List.length (index_of_decodeEntries hde)
      refine hs.member.trans (congrArg c.membershipAt ?_)
      rw [Pipeline.sent, Pipeline.sent, Pipeline.front_giveChunk, hlen, hcm,
        List.flatten_cons, List.length_append, Nat.add_assoc]
      rfl
  | returned entries lastIndex outcome hwo =>
    have hal : s.pipeline.worker ≠ .stopped := by
      rw [hwo]
      nofun
    cases outcome with
    | ok => exact ⟨hac, hs.member, hs.batch, hs.skipped⟩
    | err =>
      exact ⟨hac, hs.member.trans (membershipAt_front hs hal hco.2),
        hs.batch, hs.skipped⟩
  | shutDown => exact ⟨hac, hs.member, hs.batch, hs.skipped⟩
  | handlerStopped hhdl =>
    have hnow := hs.member
    rw [hhdl] at hnow
    exact ⟨hac, hnow, fun e he => absurd he List.not_mem_nil,
      fun h => absurd rfl h⟩
  | workerStopped => exact ⟨hac, hs.member, hs.batch, hs.skipped⟩

theorem keeps_configured (hs : s.Keeps c) {entry : Entry}
    (hhdl : s.pipeline.handler = .changing entry rest) (hco : s.Orderly c .configured) :
    Keeps c { s with
      pipeline := s.pipeline.configApplied (s.setup c) entry rest (s.membership.applyEntry entry).1
      membership := (s.membership.applyEntry entry).2 } := by
  have hac : (s.pipeline.configApplied (s.setup c) entry rest
      (s.membership.applyEntry entry).1).Accounted (s.setup c) := by
    apply Pipeline.accounted_of_step hs.accounted
      (l := .configured (s.membership.applyEntry entry).1) trivial
    simp only [Pipeline.step, hhdl]
  have hnow := hs.member
  rw [hhdl] at hnow
  have hap : ChangesApart s.membership (.changing entry rest) := hhdl ▸ hco
  obtain ⟨lastError, events, heq, hno⟩ := Pipeline.configApplied_eq (s.setup c) s.pipeline entry
    rest (s.membership.applyEntry entry).1
  rw [heq] at hac ⊢
  refine ⟨hac, ?_, fun e he => absurd he List.not_mem_nil, fun herr => ?_⟩
  · exact (InnerState.applyEntry_snd entry).trans hnow
  · refine hap.resolve_left fun hal => herr ?_
    exact hno (InnerState.applyEntry_ok hal)

theorem keeps_started {lastApplied : LogId} (hno : c.changesUpTo lastApplied.index = []) :
    (started c lastApplied).Keeps c := by
  refine ⟨⟨Pipeline.tracked_atStart _ _, fun _ => rfl⟩, ?_,
    fun e he => absurd he List.not_mem_nil, fun h => absurd rfl h⟩
  exact (Cluster.membershipAt_of_noChange hno).symm

/-- A snapshot without a change leaves the membership of the entries that it covers. -/
theorem keeps_installed (hs : s.Keeps c) {incoming : LogId} (hwo : s.pipeline.worker = .waiting)
    (hlt : s.pipeline.stateMachine.lastApplied.index < incoming.index)
    (hway : s.pipeline.onTheWay = [])
    (hch : c.changesUpTo incoming.index =
      c.changesUpTo s.pipeline.stateMachine.lastApplied.index) :
    (s.installed incoming).Keeps c := by
  have htr := hs.accounted.trail (by simp [hwo])
  obtain ⟨happ, hla⟩ : s.pipeline.applied = s.pipeline.front (s.setup c) ∧
      s.pipeline.stateMachine.lastApplied.index = s.pipeline.applied := by
    have hfo := hs.accounted.follows
    simpa only [Pipeline.Follows, hwo] using hfo
  have hcm : s.pipeline.commands.flatten = [] := (List.append_eq_nil_iff.mp hway).1
  have had : advance s.pipeline.applied incoming.index = incoming.index := if_pos (hla ▸ hlt)
  refine ⟨⟨?_, fun h => WorkerPhase.noConfusion (hwo.symm.trans h)⟩, ?_, hs.batch, hs.skipped⟩
  · exact {
      announced := hs.accounted.announced
      committed_le := hs.accounted.committed_le
      start_le := had.ge
      consecutive := rfl
      decoded := fun a ha => absurd ha List.not_mem_nil
      front_le := le_max_left _ _
      follows := by
        simp only [Pipeline.Follows, installed, hwo]
        exact ⟨had, had.symm⟩
      trail := fun _ => {
        consecutive := hway ▸ rfl
        held := fun e he => absurd (hway ▸ he : e ∈ []) List.not_mem_nil
        chunks := htr.chunks
        total_le := by
          have hno : (s.installed incoming).pipeline.onTheWay.length = 0 := congrArg _ hway
          rw [hno]
          exact le_max_left _ _
        payloads := htr.payloads } }
  · have hold : s.pipeline.sent (s.setup c) = s.pipeline.stateMachine.lastApplied.index := by
      rw [Pipeline.sent, hcm, hla, happ]
      rfl
    have hnew : (s.installed incoming).pipeline.sent ((s.installed incoming).setup c) =
        incoming.index := by
      change incoming.index + 0 + s.pipeline.commands.flatten.length = incoming.index
      rw [hcm]
      rfl
    rw [hnew, Cluster.membershipAt, hch, ← Cluster.membershipAt, ← hold]
    exact hs.member

theorem keeps_of_step {l : MemberLabel} (hs : s.Keeps c) (hco : s.Orderly c l)
    (hst : s.step c l = some t) : t.Keeps c := by
  cases l with
  | task l =>
    cases l with
    | configured => cases hst
    | _ =>
      simp only [step, Option.map_eq_some_iff] at hst
      obtain ⟨p, hp, rfl⟩ := hst
      exact keeps_task hs (fun _ h => by cases h) hco hp
  | configured =>
    simp only [step] at hst
    split at hst <;> cases hst
    rename_i entry rest hhdl
    exact keeps_configured hs hhdl hco
  | install incoming restored =>
    simp only [step, Option.ite_none_right_eq_some] at hst
    obtain ⟨⟨hwo, -⟩, hst⟩ := hst
    split at hst <;> cases hst
    · next hap =>
        obtain ⟨rfl, hlt⟩ := applySnapshotFromFile_applied hap
        obtain ⟨hway, hch⟩ := hco hlt
        exact keeps_installed hs hwo hlt hway hch
    · exact hs
  | confUpdate =>
    cases hst
    rw [InnerState.updateClusterConfFromLeader_refused hco]
    exact hs
  | restart =>
    simp only [step, Option.ite_none_right_eq_some, Option.some.injEq] at hst
    obtain ⟨-, rfl⟩ := hst
    exact keeps_started hco

/-- The entries that were handed over follow the index that the state machine started from. -/
theorem Keeps.handed_eq (hs : s.Keeps c) : s.handed = List.range' (s.start + 1)
    (s.pipeline.passed.length + s.pipeline.commands.flatten.length) := by
  have hpa : s.pipeline.passed.map ApplyEntry.index =
      List.range' (s.start + 1) s.pipeline.passed.length := hs.accounted.consecutive
  have hcm : s.pipeline.commands.flatten.map Entry.index =
      List.range' (s.start + 1 + s.pipeline.passed.length)
        s.pipeline.commands.flatten.length := by
    by_cases hst : s.pipeline.worker = .stopped
    · rw [hs.accounted.stopped hst]
      rfl
    · have hco := (hs.accounted.trail hst).consecutive
      rw [Nat.add_right_comm]
      exact ((consecutive_append _ _ _ _).mp hco).1
  rw [handed, hpa, hcm, List.range'_append_1]

/-- Nothing is handed over twice or out of order, so the last index tells how much was. -/
theorem HandedUpTo.eq_sent {i : Nat} (h : s.HandedUpTo i) (hs : s.Keeps c) :
    i = s.pipeline.sent (s.setup c) := by
  have hse : s.pipeline.sent (s.setup c) =
      s.start + (s.pipeline.passed.length + s.pipeline.commands.flatten.length) :=
    Nat.add_assoc _ _ _
  have hmem : ∀ j, j ∈ s.handed ↔ s.start < j ∧ j ≤ s.pipeline.sent (s.setup c) := by
    intro j
    rw [hs.handed_eq, List.mem_range'_1, hse]
    omega
  have hst := h.start_le
  apply le_antisymm
  · by_contra hlt
    have hla := h.handed i le_rfl
    rw [hmem] at hla
    omega
  · by_contra hlt
    have hla := h.nothingBehind (s.pipeline.sent (s.setup c))
    rw [hmem] at hla
    omega

theorem handedUpTo_of_handed {n : Nat} (hid : s.pipeline.handler = .waiting)
    (hha : s.handed = List.range' (s.start + 1) n) : s.HandedUpTo (s.start + n) := by
  refine ⟨hid, Nat.le_add_right _ _, fun j hj hlt => ?_, fun j hj => ?_⟩
  · rw [hha, List.mem_range'_1]
    omega
  · rw [hha, List.mem_range'_1] at hj
    omega

end Member

/-- In every run in which no range is read twice, a failed change is the last one of its range, no
change outside the log is admitted, no snapshot is installed over a change and a node restarts
before its state machine has applied a change, an idle node knows the nodes that the entries handed over so far determine. -/
theorem nodes_eq_membershipAt {c : Cluster} {s : Member} {i : Nat}
    (hs : (memberRuns c).Reach (Member.Orderly c) s) (hi : s.HandedUpTo i) :
    s.membership.nodes = (c.membershipAt i).nodes := by
  have hke : s.Keeps c := by
    apply hs.invariant
    · rintro u rfl
      exact Member.keeps_started rfl
    · exact fun u l v hu hco hst => Member.keeps_of_step hu hco hst
  have hme := hke.member
  rw [hi.idle, ← hi.eq_sent hke] at hme
  exact congrArg InnerState.nodes hme

/-! ## Two changes -/

/-- The promotion of a node that is not known, a new learner, and an entry without a change. -/
def twoChanges : List Entry :=
  [⟨1, 1, some ⟨some (.config (some (.promote 9 .active)))⟩⟩,
    ⟨2, 1, some ⟨some (.config (some (.addNode 4 "node-4" .promotable)))⟩⟩,
    ⟨3, 1, some ⟨some .noop⟩⟩]

theorem twoChanges_batch : Batch twoChanges :=
  ⟨by decide, by decide, by decide, by decide⟩

theorem twoChanges_held (i : Nat) (hlo : 0 < i) (hhi : i ≤ 3) :
    ∃ e, (BufferedRaftLog.new 3 twoChanges none).entry i = some e := by
  rw [BufferedRaftLog.entry_new twoChanges_batch.ascending]
  obtain rfl | rfl | rfl : i = 1 ∨ i = 2 ∨ i = 3 := by omega
  all_goals exact ⟨_, rfl⟩

def Cluster.twoChanges : Cluster where
  log := BufferedRaftLog.new 3 Apply.twoChanges none
  start := 0
  last := 3
  wellFormed := BufferedRaftLog.wellFormed_new none twoChanges_batch (by decide)
  held := twoChanges_held
  myId := 1
  maxBatchSize := 10
  decode := fun bytes => .ok ⟨some (.delete bytes)⟩
  fresh := rfl
  initialCluster := [(1, ⟨"node-1", .follower, .active⟩)]

/-- The entry behind the applied ones is announced, handed over, and applied. -/
def changeAlone (index : Nat) : List MemberLabel :=
  [.task (.announce ⟨index, .follower, 1⟩), .task .recv, .task .handle, .configured, .task .handle,
    .task .take, .task (.applyReturned .ok)]

theorem learner_known_behind_failed_promotion :
    ∃ s : Member, (memberRuns .twoChanges).Reach (Member.Orderly .twoChanges) s ∧ s.start = 3 ∧
      s.HandedUpTo 3 ∧ (s.membership.nodes[4]?).isSome ∧
      s.membership.nodes = (Cluster.twoChanges.membershipAt 3).nodes := by
  have hre : ∃ s : Member, (memberRuns .twoChanges).Reach (Member.Orderly .twoChanges) s ∧
      (s.pipeline.handler = .waiting ∧ s.start = 3 ∧ s.handed = List.range' 4 0 ∧
        (s.membership.nodes[4]?).isSome) :=
    Machine.exists_reach_of_runIf (changeAlone 1 ++ [.restart ⟨0, 0⟩] ++ changeAlone 1 ++
      changeAlone 2 ++ [.install ⟨1, 3⟩ (.ok ())]) rfl (by decide +kernel)
  obtain ⟨s, hs, hid, hst, hha, hlr⟩ := hre
  have hi : s.HandedUpTo 3 := by
    have h := Member.handedUpTo_of_handed (n := 0) hid (by rw [hst]; exact hha)
    rwa [hst] at h
  exact ⟨s, hs, hst, hi, hlr, nodes_eq_membershipAt hs hi⟩

/-- Both entries are announced at once, so they are of one range. -/
def changesTogether : List MemberLabel :=
  [.task (.announce ⟨2, .follower, 1⟩), .task .recv, .task .handle, .configured, .task .handle,
    .task .handle, .task .take, .task (.applyReturned .ok), .task .take, .task (.applyReturned .ok)]

/-- A learner is forgotten when the node restarts, and is not added at all when another change of
its range has failed or a snapshot is installed over its entry. -/
theorem learner_unknown_behind_its_entry :
    (∃ s : Member, (memberRuns .twoChanges).Reach (fun _ _ => True) s ∧ s.start = 2 ∧
      s.HandedUpTo 2 ∧ s.membership.nodes ≠ (Cluster.twoChanges.membershipAt 2).nodes) ∧
    (∃ s : Member, (memberRuns .twoChanges).Reach (fun _ _ => True) s ∧ s.start = 0 ∧
      s.HandedUpTo 2 ∧ s.membership.nodes ≠ (Cluster.twoChanges.membershipAt 2).nodes) ∧
    ∃ s : Member, (memberRuns .twoChanges).Reach (fun _ _ => True) s ∧ s.start = 3 ∧
      s.HandedUpTo 3 ∧ s.membership.nodes ≠ (Cluster.twoChanges.membershipAt 3).nodes := by
  have hlost (start n i : Nat) (hi : start + n = i)
      (hre : ∃ s : Member, (memberRuns .twoChanges).Reach (fun _ _ => True) s ∧
        (s.pipeline.handler = .waiting ∧ s.start = start ∧
          s.handed = List.range' (start + 1) n ∧
          s.membership.nodes ≠ (Cluster.twoChanges.membershipAt i).nodes)) :
      ∃ s : Member, (memberRuns .twoChanges).Reach (fun _ _ => True) s ∧ s.start = start ∧
        s.HandedUpTo i ∧ s.membership.nodes ≠ (Cluster.twoChanges.membershipAt i).nodes := by
    obtain ⟨s, hs, hid, rfl, hha, hne⟩ := hre
    exact ⟨s, hs, rfl, hi ▸ Member.handedUpTo_of_handed hid hha, hne⟩
  refine ⟨hlost 2 0 2 rfl ?_, hlost 0 2 2 rfl ?_, hlost 3 0 3 rfl ?_⟩
  · exact Machine.exists_reach_of_runIf (changeAlone 1 ++ changeAlone 2 ++ [.restart ⟨1, 2⟩]) rfl
      (by decide +kernel)
  · exact Machine.exists_reach_of_runIf changesTogether rfl (by decide +kernel)
  · exact Machine.exists_reach_of_runIf [.install ⟨1, 3⟩ (.ok ())] rfl (by decide +kernel)

end DEngine.Apply

import DEngine.Apply.Lane

/-!
# Every committed entry is applied once

The chunks that the state machine is given are the committed entries behind its
start, in order and without repetition, and its applied index does not go back, as
long as a new range is read only while no chunk is on its way. Two running tasks come
to rest, and all announced entries are applied then.
-/

namespace DEngine.Apply

open Library Library.PartialLog Storage
open Raft (NewCommitData InternalEvent)

variable {setup : Setup} {s t : Pipeline} {l : Label}

namespace Pipeline

/-- Both tasks wait and have nothing left to do. -/
def Settled (s : Pipeline) : Prop :=
  s.handler = .waiting ∧ s.newCommits = [] ∧ s.commands = [] ∧ s.worker = .waiting
deriving Decidable

/-- The state machine was given the committed entries behind its start, each of them once, in
order and without a gap, and all of them once both tasks have come to rest. -/
structure AppliedInOrder (setup : Setup) (s : Pipeline) : Prop where
  consecutive : Consecutive ApplyEntry.index s.passed (setup.start + 1)
  decoded : ∀ a ∈ s.passed, ∃ e, setup.log.entry a.index = some e ∧
    decodeEntry setup.decode e = .ok a
  committed : ∀ a ∈ s.passed, a.index ≤ s.committed
  complete : s.Settled → ∀ i, setup.start < i → i ≤ s.committed → ∃ a ∈ s.passed, a.index = i

theorem Ordered.pendingCommit_le (hs : s.Ordered setup) : s.pendingCommit ≤ s.committed :=
  (le_announced _ _).trans hs.announced.le

theorem Ordered.appliedInOrder (hs : s.Ordered setup) : s.AppliedInOrder setup where
  consecutive := hs.consecutive
  decoded := hs.decoded
  committed := by
    intro a ha
    have hbo := hs.consecutive.bounds ha
    have hfr := hs.front_le
    have hpe := hs.pendingCommit_le
    unfold front at hfr
    omega
  complete := by
    rintro ⟨hhdl, hnew, hcm, hwo⟩ i hlo hhi
    have hto := (hs.full (by rw [hwo]; nofun)).total (by rw [hhdl]; nofun)
    have hway : s.onTheWay = [] := by
      rw [onTheWay, hcm, hhdl]
      rfl
    have hpe : s.pendingCommit = s.committed := by
      rw [← hs.announced, hnew]
      rfl
    rw [hway, List.length_nil, hpe, front] at hto
    exact (hs.consecutive.mem_iff i).mpr (by omega)

/-! ## The applied index of the state machine -/

theorem lastApplied_le_chunkReturned (hs : s.Ordered setup) {entries : List ApplyEntry}
    {lastIndex : Option Nat} {outcome : ApplyOutcome}
    (hwo : s.worker = .applying entries lastIndex) :
    s.stateMachine.lastApplied.index ≤
      (s.chunkReturned entries lastIndex outcome).stateMachine.lastApplied.index := by
  have hfo := hs.follows
  rw [Follows, hwo] at hfo
  obtain ⟨-, hla, hle, hsa⟩ := hfo
  have haf : s.stateMachine.lastApplied.index ≤
      (lastAppliedAfter s.stateMachine.lastApplied entries).index := by
    rw [lastAppliedAfter_index _ hla, hsa]
    exact hle
  cases outcome with
  | ok => exact haf
  | err updated =>
    cases updated with
    | true => exact haf
    | false => exact le_rfl

/-- Only the return of a chunk moves the applied index of the state machine. -/
theorem lastApplied_le_of_step (hs : s.Ordered setup) (hst : s.step setup l = some t) :
    s.stateMachine.lastApplied.index ≤ t.stateMachine.lastApplied.index := by
  have htu : ∀ {dropped}, Turned s t dropped →
      s.stateMachine.lastApplied.index ≤ t.stateMachine.lastApplied.index := by
    intro dropped h
    obtain ⟨handler, commands, events, shutdown, rfl⟩ := h.same
    exact le_rfl
  cases effect_of_step hst with
  | announced => exact le_rfl
  | began =>
    unfold beginBatch
    split <;> exact le_rfl
  | handled entry rest commandBatch lastError hhdl =>
    exact htu (turned_handleEntry hhdl (hs.hasPayload hhdl))
  | ended commandBatch lastError hhdl => exact (exists_turned_endBatch hhdl).elim fun _ => htu
  | changed entry rest result hhdl => exact htu (turned_configApplied result hhdl)
  | took =>
    unfold takeChunk
    split <;> exact le_rfl
  | returned entries lastIndex outcome hwo => exact lastApplied_le_chunkReturned hs hwo
  | shutDown | handlerStopped hhdl | workerStopped => exact le_rfl

/-! ## Progress -/

/-- The steps that the handler has left in its batch, at most. -/
def handlerWork : HandlerPhase → Nat
  | .processing rest _ _ => 2 * rest.length + 1
  | .changing _ rest => 2 * rest.length + 2
  | _ => 0

def workerWork : WorkerPhase → Nat
  | .applying _ _ => 1
  | _ => 0

/-- What is left to do: announcements, the handler's batch and the worker's queue. -/
def work (s : Pipeline) : Nat × Nat × Nat :=
  (s.newCommits.length, handlerWork s.handler, 2 * s.commands.length + workerWork s.worker)

/-- Neither task has stopped. -/
structure Running (s : Pipeline) : Prop where
  handler : s.handler ≠ .stopped
  worker : s.worker ≠ .stopped

/-- A step of one of the tasks that keeps both running and leaves less to do. -/
structure Progress (setup : Setup) (s t : Pipeline) : Prop where
  step : (applyLoop setup).StepIf (SendsApart setup) s t
  running : t.Running
  committed_eq : t.committed = s.committed
  less : Prod.Lex (· < ·) (Prod.Lex (· < ·) (· < ·)) t.work s.work

theorem progress_worker (hs : s.Ordered setup) (hrun : s.Running)
    (hde : ∀ i e, setup.log.entry i = some e → ∃ a, decodeEntry setup.decode e = .ok a)
    (hbu : s.worker.isApplying ∨ s.commands ≠ []) : ∃ t, Progress setup s t := by
  cases hwo : s.worker with
  | applying entries lastIndex =>
    refine ⟨s.chunkReturned entries lastIndex .ok, ⟨.applyReturned .ok, trivial, ?_⟩,
      ⟨hrun.handler, by rintro ⟨⟩⟩, rfl, ?_⟩
    · simp only [applyLoop, Pipeline.step, hwo]
    · apply Prod.Lex.right
      apply Prod.Lex.right
      simp [workerWork, hwo, chunkReturned]
  | waiting =>
    rw [hwo] at hbu
    obtain ⟨chunk, rest, hcm⟩ :=
      List.exists_cons_of_ne_nil (hbu.resolve_left Bool.false_ne_true)
    have hch : ∀ e ∈ chunk, ∃ a, decodeEntry setup.decode e = .ok a := by
      intro e he
      have hway : e ∈ s.onTheWay := by
        rw [onTheWay, hcm, List.flatten_cons, List.append_assoc]
        exact List.mem_append_left _ he
      exact hde e.index e ((hs.trail hrun.worker).held e hway)
    obtain ⟨entries, hen⟩ := exists_decodeEntries hch
    have hta : s.takeChunk setup chunk rest =
        s.giveChunk rest entries (chunk.getLast?.map Entry.index) := by
      rw [takeChunk, hen]
    refine ⟨s.takeChunk setup chunk rest, ⟨.take, trivial, ?_⟩, ?_, ?_, ?_⟩
    · simp only [applyLoop, Pipeline.step, hwo, hcm]
    · rw [hta]
      exact ⟨hrun.handler, by rintro ⟨⟩⟩
    · rw [hta]
      rfl
    · rw [hta]
      apply Prod.Lex.right
      apply Prod.Lex.right
      simp only [giveChunk, workerWork, hwo, hcm, List.length_cons]
      omega
  | stopped => exact absurd hwo hrun.worker

/-- While the worker lives, what the handler sends is queued. -/
theorem handler_sendThen (hwo : s.worker ≠ .stopped) (batch : List Entry)
    (next : HandlerPhase) : (s.sendThen batch next).handler = next := by
  obtain ⟨-, heq⟩ | ⟨hst, -⟩ | ⟨-, -, heq⟩ := sendThen_cases s batch next
  · rw [heq]
  · exact absurd hst hwo
  · rw [heq]

/-- A step of the handler within its batch makes progress if it leaves a smaller rest. -/
theorem Progress.of_turned {dropped : List Entry} (hrun : s.Running)
    (hst : (applyLoop setup).StepIf (SendsApart setup) s t) (htu : Turned s t dropped)
    (hnx : t.handler ≠ .stopped ∧ handlerWork t.handler < handlerWork s.handler) :
    Progress setup s t := by
  obtain ⟨handler, commands, events, shutdown, rfl⟩ := htu.same
  exact ⟨hst, ⟨hnx.1, hrun.worker⟩, rfl, Prod.Lex.right _ (Prod.Lex.left _ _ hnx.2)⟩

theorem progress_handleEntry (hs : s.Ordered setup) (hrun : s.Running) {entry : Entry}
    {rest commandBatch : List Entry} {lastError : Option Fault}
    (hhdl : s.handler = .processing (entry :: rest) commandBatch lastError) :
    Progress setup s (s.handleEntry entry rest commandBatch lastError) := by
  have hpay := hs.hasPayload hhdl
  refine Progress.of_turned hrun ⟨.handle, trivial, ?_⟩ (turned_handleEntry hhdl hpay) ?_
  · simp only [applyLoop, Pipeline.step, hhdl]
  have hwo : handlerWork s.handler = 2 * rest.length + 3 := by
    rw [hhdl]
    rfl
  have hpay := hpay hrun.worker
  have hls : 2 * rest.length + 1 < 2 * rest.length + 3 := by omega
  rw [hwo]
  unfold handleEntry
  split
  · rename_i hno
    simp [HasPayload, hno] at hpay
  · exact ⟨by simp, hls⟩
  · rw [handler_sendThen hrun.worker]
    split_ifs
    · exact ⟨by simp, Nat.lt_succ_self _⟩
    · exact ⟨by simp, hls⟩
  · rw [handler_sendThen hrun.worker]
    exact ⟨by simp, hls⟩
  · rename_i hno
    simp [HasPayload, hno] at hpay

theorem drain_length_le (room p : Nat) (queue : List NewCommitData) :
    (drain room p queue).2.length ≤ queue.length := by
  induction room generalizing p queue with
  | zero => exact le_rfl
  | succ room ih =>
    cases queue with
    | nil => exact le_rfl
    | cons => exact (ih _ _).trans (Nat.le_succ _)

theorem hasPayload_of_decodeEntry {entry : Entry} {a : ApplyEntry}
    (h : decodeEntry setup.decode entry = .ok a) : HasPayload entry := by
  unfold HasPayload
  unfold decodeEntry at h
  split at h
  · cases h
  all_goals
    rename_i hpay
    rw [hpay]
    rfl

/-- The handler can always take an announcement when the worker has nothing to do. -/
theorem progress_beginBatch (hrun : s.Running)
    (hde : ∀ i e, setup.log.entry i = some e → ∃ a, decodeEntry setup.decode e = .ok a)
    (hid : s.worker.isApplying = false) (hcm : s.commands = [])
    (hhdl : s.handler = .waiting) {data : NewCommitData} {rest : List NewCommitData}
    (hnew : s.newCommits = data :: rest) :
    Progress setup s ((s.received setup data rest).beginBatch setup) := by
  have hco : s.SendsApart setup .recv := by
    refine fun range _ => ⟨hcm, hid, fun e he => ?_⟩
    obtain ⟨p, hp, rfl⟩ := List.mem_map.mp he
    obtain ⟨a, ha⟩ := hde p.1 p.2 ((OrderedMap.mem_range_iff _ _ _ _ _).mp hp).1
    exact hasPayload_of_decodeEntry ha
  have hls : (s.received setup data rest).newCommits.length < s.newCommits.length := by
    rw [hnew]
    exact Nat.lt_succ_of_le (drain_length_le _ _ _)
  refine ⟨⟨.recv, hco, ?_⟩, ?_, ?_, ?_⟩
  · simp only [applyLoop, Pipeline.step, hhdl, hnew]
  · unfold beginBatch
    split
    · exact ⟨hrun.handler, hrun.worker⟩
    · exact ⟨by simp, hrun.worker⟩
  · unfold beginBatch
    split <;> rfl
  · unfold beginBatch
    split
    · exact Prod.Lex.left _ _ hls
    · exact Prod.Lex.left _ _ hls

/-- Two running tasks are settled or one of them can take a step. -/
theorem settled_or_progress (hs : s.Ordered setup) (hrun : s.Running)
    (hde : ∀ i e, setup.log.entry i = some e → ∃ a, decodeEntry setup.decode e = .ok a) :
    s.Settled ∨ ∃ t, Progress setup s t := by
  by_cases hbu : s.worker.isApplying ∨ s.commands ≠ []
  · exact .inr (progress_worker hs hrun hde hbu)
  obtain ⟨happ, hcm⟩ := not_or.mp hbu
  have hid : s.worker.isApplying = false := Bool.eq_false_iff.mpr happ
  have hem : s.commands = [] := not_not.mp hcm
  cases hhdl : s.handler with
  | waiting =>
    cases hnew : s.newCommits with
    | nil =>
      refine .inl ⟨hhdl, hnew, hem, ?_⟩
      cases hwo : s.worker with
      | waiting => rfl
      | applying =>
        rw [hwo] at hid
        cases hid
      | stopped => exact absurd hwo hrun.worker
    | cons =>
      exact .inr ⟨_, progress_beginBatch hrun hde hid hem hhdl hnew⟩
  | processing entries commandBatch lastError =>
    cases entries with
    | nil =>
      obtain rfl := (hs.full hrun.worker).lastError_eq hhdl
      refine .inr ⟨s.endBatch commandBatch none, Progress.of_turned hrun
        ⟨.handle, trivial, ?_⟩ (turned_endBatch_none hhdl) ?_⟩
      · simp only [applyLoop, Pipeline.step, hhdl]
      · rw [endBatch, handler_sendThen hrun.worker, hhdl]
        exact ⟨by simp, Nat.zero_lt_one⟩
    | cons => exact .inr ⟨_, progress_handleEntry hs hrun hhdl⟩
  | changing entry rest =>
    refine .inr ⟨s.configApplied setup entry rest (.ok ()), Progress.of_turned hrun
      ⟨.configured (.ok ()), rfl, ?_⟩ (turned_configApplied _ hhdl) ?_⟩
    · simp only [applyLoop, Pipeline.step, hhdl]
    · obtain ⟨lastError, events, heq, -⟩ := configApplied_eq setup s entry rest (.ok ())
      rw [heq, hhdl]
      exact ⟨by simp, Nat.lt_succ_self _⟩
  | stopped => exact absurd hhdl hrun.handler

/-- Two running tasks whose entries can be decoded come to rest, without any more
announcements. -/
theorem exists_settled_run (hs : s.Ordered setup) (hru : s.Running)
    (hde : ∀ i e, setup.log.entry i = some e → ∃ a, decodeEntry setup.decode e = .ok a) :
    ∃ t, (applyLoop setup).Run (SendsApart setup) s t ∧ t.Settled ∧ t.committed = s.committed := by
  have hst : ∀ u : Pipeline, u.Ordered setup ∧ u.Running ∧ u.committed = s.committed →
      u.Settled ∨ ∃ t, (applyLoop setup).StepIf (SendsApart setup) u t ∧
        (t.Ordered setup ∧ t.Running ∧ t.committed = s.committed) ∧
        Prod.Lex (· < ·) (Prod.Lex (· < ·) (· < ·)) t.work u.work := by
    rintro u ⟨hu, hrun, hcom⟩
    apply (settled_or_progress hu hrun hde).imp_right
    rintro ⟨t, hpr⟩
    obtain ⟨l, hco, hla⟩ := hpr.step
    exact ⟨t, hpr.step, ⟨ordered_of_step hu hco hla, hpr.running,
      hpr.committed_eq.trans hcom⟩, hpr.less⟩
  have hwf : WellFounded (Prod.Lex (· < ·) (Prod.Lex (· < ·) (· < ·)) :
      Nat × Nat × Nat → Nat × Nat × Nat → Prop) :=
    wellFounded_lt.prod_lex (wellFounded_lt.prod_lex wellFounded_lt)
  obtain ⟨t, hrun, ⟨-, -, hcom⟩, hse⟩ :=
    Machine.exists_run_of_progress hwf work hst ⟨hs, hru, rfl⟩
  exact ⟨t, hrun, hse, hcom⟩

end Pipeline

/-- In every run in which a new range is read only while no chunk is on its way, the state
machine is given the committed entries once and in order, its applied index does not go back,
and two running tasks whose entries can be decoded come to rest. -/
theorem applied_once_of_reach (hs : (applyLoop setup).Reach (Pipeline.SendsApart setup) s) :
    s.AppliedInOrder setup ∧
      (∀ t, (applyLoop setup).Run (Pipeline.SendsApart setup) s t →
        s.stateMachine.lastApplied.index ≤ t.stateMachine.lastApplied.index) ∧
      (s.Running →
        (∀ i e, setup.log.entry i = some e → ∃ a, decodeEntry setup.decode e = .ok a) →
        ∃ t, (applyLoop setup).Run (Pipeline.SendsApart setup) s t ∧ t.Settled ∧
          t.committed = s.committed) := by
  have hor := Pipeline.ordered_of_reach hs
  refine ⟨hor.appliedInOrder, fun t hrun => ?_, Pipeline.exists_settled_run hor⟩
  apply hs.le_of_run (fun u : Pipeline => u.stateMachine.lastApplied.index) ?_ hrun
  intro u l v hu _ hst
  exact Pipeline.lastApplied_le_of_step (Pipeline.ordered_of_reach hu) hst

/-- A no-op and two commands. -/
def threeEntries : List Entry :=
  [⟨1, 1, some ⟨some .noop⟩⟩, ⟨2, 1, some ⟨some (.command [2])⟩⟩,
    ⟨3, 1, some ⟨some (.command [3])⟩⟩]

theorem threeEntries_batch : Batch threeEntries :=
  ⟨by decide, by decide, by decide, by decide⟩

/-- A log of three entries, none of them applied yet. -/
def Setup.threeEntries : Setup where
  log := BufferedRaftLog.new 3 Apply.threeEntries none
  start := 0
  last := 3
  wellFormed := BufferedRaftLog.wellFormed_new none threeEntries_batch (by decide)
  held := by
    intro i hlo hhi
    rw [BufferedRaftLog.entry_new threeEntries_batch.ascending]
    obtain rfl | rfl | rfl : i = 1 ∨ i = 2 ∨ i = 3 := by omega
    all_goals exact ⟨_, rfl⟩
  myId := 1
  maxBatchSize := 10
  decode := fun bytes => .ok ⟨some (.delete bytes)⟩

/-- The first two entries are announced, and the third one only when they are applied. -/
def apartRun : List Label :=
  [.announce ⟨2, .follower, 1⟩, .recv, .handle, .handle, .handle, .take, .applyReturned .ok,
    .take, .applyReturned .ok, .announce ⟨3, .follower, 1⟩, .recv, .handle, .handle, .take,
    .applyReturned .ok]

theorem three_entries_applied_once :
    ∃ s : Pipeline, (applyLoop .threeEntries).Reach (Pipeline.SendsApart .threeEntries) s ∧
      s.Settled ∧ s.committed = 3 ∧ s.AppliedInOrder .threeEntries ∧
      s.passed.map ApplyEntry.index = [1, 2, 3] := by
  have hre : ∃ s : Pipeline,
      (applyLoop .threeEntries).Reach (Pipeline.SendsApart .threeEntries) s ∧
        (s.Settled ∧ s.committed = 3 ∧ s.passed.map ApplyEntry.index = [1, 2, 3]) :=
    Machine.exists_reach_of_runIf apartRun ⟨1, rfl⟩ (by decide +kernel)
  obtain ⟨s, hs, hse, hco, hpa⟩ := hre
  exact ⟨s, hs, hse, hco, (applied_once_of_reach hs).1, hpa⟩

/-- The third entry is announced while the first two are still in the queue. -/
def overtakingRun : List Label :=
  [.announce ⟨2, .follower, 1⟩, .recv, .handle, .handle, .handle,
    .announce ⟨3, .follower, 1⟩, .recv, .handle, .handle, .handle, .handle,
    .take, .applyReturned .ok, .take, .applyReturned .ok]

/-- The entries of the first range are sent again with the second one: the state machine is
given the first entry after the second, and its applied index goes back. -/
theorem queued_entries_applied_twice :
    ∃ s t : Pipeline, (applyLoop .threeEntries).Reach (fun _ _ => True) s ∧
      (applyLoop .threeEntries).Run (fun _ _ => True) s t ∧
      t.passed.map ApplyEntry.index = [1, 2, 1] ∧ s.stateMachine.lastApplied.index = 2 ∧
      t.stateMachine.lastApplied.index = 1 := by
  have hre : ∃ s : Pipeline, (applyLoop .threeEntries).Reach (fun _ _ => True) s ∧
      (s.stateMachine.lastApplied.index = 2 ∧
        ((applyLoop .threeEntries).runIf (fun _ _ => True) s [.take, .applyReturned .ok]).any
          fun t => decide (t.passed.map ApplyEntry.index = [1, 2, 1] ∧
            t.stateMachine.lastApplied.index = 1)) :=
    Machine.exists_reach_of_runIf overtakingRun ⟨1, rfl⟩ (by decide +kernel)
  obtain ⟨s, hs, hin, hla⟩ := hre
  obtain ⟨t, hrun, hpa, hlo⟩ := Machine.exists_run_of_runIf _ hla
  exact ⟨s, t, hs, hrun, hpa, hin, hlo⟩

end DEngine.Apply

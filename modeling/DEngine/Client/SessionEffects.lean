import DEngine.Client.Session

/-!
# What the handlers of a session do for clients

`Adds` relates the states before and behind a handler by the reads that it serves
from the state machine and by the renewals of the lease; `Keeps` says further that
the channels of the proposals stay where they are. Both compose, so they follow
for a handler from its steps.
-/

namespace DEngine.Client

open Library Library.Handler Storage Replication Raft

variable {myId : Nat} {s t u : Session myId}

/-! ## Reads and renewals -/

/-- Whatever is served or renewed between two states meets the given requirements. -/
structure Adds (P : ServedRead → Prop) (Q : Renewal → Prop) (s t : Session myId) : Prop where
  served : ∀ r ∈ t.served, r ∈ s.served ∨ P r
  renewals : ∀ r ∈ t.renewals, r ∈ s.renewals ∨ Q r

/-- The channels of the proposals: those that were accepted, where they wait and how they were
answered, with the indexes whose results have been handled. -/
structure WriteView where
  nextSender : Nat
  accepted : List Nat
  proposeSenders : List Nat
  pendingClientWrites : OrderedMap WriteMetadata
  pendingWriteApply : OrderedMap Nat
  writeReplies : List (Nat × Reply)
  covered : List Nat

def Session.writes (s : Session myId) : WriteView :=
  ⟨s.nextSender, s.accepted, s.proposeSenders, s.pendingClientWrites, s.pendingWriteApply,
    s.writeReplies, s.covered⟩

/-- Nothing happens to the channels of the proposals. -/
structure Keeps (P : ServedRead → Prop) (Q : Renewal → Prop) (s t : Session myId) : Prop
    extends Adds P Q s t where
  writes : t.writes = s.writes

section Relations

variable {P : ServedRead → Prop} {Q : Renewal → Prop}

instance : Std.Refl (Adds P Q : Session myId → Session myId → Prop) :=
  ⟨fun _ => ⟨fun _ hr => Or.inl hr, fun _ hr => Or.inl hr⟩⟩

instance : IsTrans (Session myId) (Adds P Q) :=
  ⟨fun _ _ _ hst htu =>
    ⟨fun r hr => (htu.served r hr).elim (hst.served r) Or.inr,
      fun r hr => (htu.renewals r hr).elim (hst.renewals r) Or.inr⟩⟩

instance : Std.Refl (Keeps P Q : Session myId → Session myId → Prop) :=
  ⟨fun s => ⟨Std.Refl.refl s, rfl⟩⟩

instance : IsTrans (Session myId) (Keeps P Q) :=
  ⟨fun _ _ _ hst htu =>
    ⟨IsTrans.trans _ _ _ hst.toAdds htu.toAdds, htu.writes.trans hst.writes⟩⟩

/-- An operation on neither list adds nothing. -/
theorem Adds.of_eq (hse : t.served = s.served) (hre : t.renewals = s.renewals) : Adds P Q s t :=
  ⟨fun _ hr => Or.inl (hse ▸ hr), fun _ hr => Or.inl (hre ▸ hr)⟩

theorem Keeps.of_eq (hse : t.served = s.served) (hre : t.renewals = s.renewals)
    (hwr : t.writes = s.writes) : Keeps P Q s t :=
  ⟨.of_eq hse hre, hwr⟩

end Relations

/-- The fields that decide about reads and the lease. -/
structure SameReads (s t : Session myId) : Prop where
  node : t.node = s.node
  clock : t.clock = s.clock
  leaseDurationMs : t.leaseDurationMs = s.leaseDurationMs
  lastApplied : t.lastApplied = s.lastApplied
  lastHeartbeatSendTs : t.lastHeartbeatSendTs = s.lastHeartbeatSendTs
  pendingReads : t.pendingReads = s.pendingReads
  acks : t.acks = s.acks
  lease : t.lease = s.lease

instance : Std.Refl (SameReads : Session myId → Session myId → Prop) :=
  ⟨fun _ => ⟨rfl, rfl, rfl, rfl, rfl, rfl, rfl, rfl⟩⟩

instance : IsTrans (Session myId) SameReads :=
  ⟨fun _ _ _ h h' => ⟨h'.node.trans h.node, h'.clock.trans h.clock,
    h'.leaseDurationMs.trans h.leaseDurationMs, h'.lastApplied.trans h.lastApplied,
    h'.lastHeartbeatSendTs.trans h.lastHeartbeatSendTs, h'.pendingReads.trans h.pendingReads,
    h'.acks.trans h.acks, h'.lease.trans h.lease⟩⟩

theorem SameReads.serve (h : SameReads s t) : t.serve = s.serve := by
  funext readIndex request
  simp only [Session.serve, Session.isLeaseValid, Session.singleVoter, Session.voters, h.node,
    h.clock, h.lastApplied, h.acks, h.lease]

theorem sameReads_drainPendingClientWrites (newCommit : Nat) :
    Ensures (drainPendingClientWrites newCommit) s fun _ t => SameReads s t := by
  unfold drainPendingClientWrites
  rw [ensures_get_bind]
  refine Ensures.chain (R := SameReads) ⟨rfl, rfl, rfl, rfl, rfl, rfl, rfl, rfl⟩ fun _ t _ => ?_
  refine Ensures.each fun p _ u _ => ?_
  unfold settleBatch
  split_ifs
  · exact ⟨rfl, rfl, rfl, rfl, rfl, rfl, rfl, rfl⟩
  · exact ⟨rfl, rfl, rfl, rfl, rfl, rfl, rfl, rfl⟩

theorem sameReads_answerApplied (result : ApplyResult) :
    Ensures (answerApplied result) s fun _ t => SameReads s t := by
  unfold answerApplied
  rw [ensures_get_bind]
  split
  · exact ⟨rfl, rfl, rfl, rfl, rfl, rfl, rfl, rfl⟩
  · exact Std.Refl.refl s

/-- A read that is answered while the state machine has reached its index and the lease holds,
or the leader is the only voter, meets the requirement. -/
def AllowsLeased (P : ServedRead → Prop) : Prop :=
  ∀ r : ServedRead, r.readIndex ≤ r.lastApplied → (r.singleVoter = true ∨ r.leaseValid = true) → P r

section Handlers

variable {P : ServedRead → Prop} {Q : Renewal → Prop}

/-! ## Operations on reads and on the lease -/

theorem keeps_onNode {α : Type} (x : NodeM myId α) :
    Ensures (onNode x) s fun _ t => Keeps P Q s t :=
  .of_eq rfl rfl rfl

theorem keeps_answerReads (senders : List Nat) (reply : Reply) :
    Ensures (answerReads senders reply) s fun _ t => Keeps P Q s t :=
  .of_eq rfl rfl rfl

theorem keeps_executePendingReads {readIndex : Nat} {requests : List ReadRequest}
    (h : ∀ r ∈ requests, P (s.serve readIndex r)) :
    Ensures (executePendingReads readIndex requests) s fun _ t => Keeps P Q s t := by
  refine ⟨⟨fun r hr => ?_, fun r hr => Or.inl hr⟩, rfl⟩
  rcases List.mem_append.mp hr with hnew | hold
  · obtain ⟨request, hreq, rfl⟩ := List.mem_map.mp hnew
    exact .inr (h request hreq)
  · exact .inl hold

/-- Serving one batch does not change what holds for the next one. -/
theorem keeps_executeBatches {batches : List (Nat × PendingReadBatch)}
    (h : ∀ p ∈ batches, ∀ r ∈ p.2.requests, P (s.serve p.1 r)) :
    Ensures (Handler.each (fun p => executePendingReads p.1 p.2.requests) batches) s
      fun _ t => Keeps P Q s t := by
  induction batches generalizing s with
  | nil => exact Std.Refl.refl s
  | cons p rest ih =>
    have hfi : Ensures (executePendingReads p.1 p.2.requests) s fun _ t =>
        Keeps P Q s t ∧ t.serve = s.serve :=
      ⟨keeps_executePendingReads (h p List.mem_cons_self), rfl⟩
    refine hfi.bind (fun _ _ ht => ht.1) fun _ t ht => ?_
    refine Ensures.mono (ih fun q hq r hr => ?_) fun _ u hu => IsTrans.trans _ _ _ ht.1 hu
    rw [ht.2]
    exact h q (List.mem_cons_of_mem p hq) r hr

theorem keeps_servePendingReads {upTo : Nat}
    (h : ∀ p ∈ s.pendingReads.range 0 upTo, ∀ r ∈ p.2.requests, P (s.serve p.1 r)) :
    Ensures (servePendingReads upTo) s fun _ t => Keeps P Q s t := by
  unfold servePendingReads
  rw [ensures_get_bind, ensures_modify_bind]
  refine Ensures.mono (keeps_executeBatches (Q := Q) h) fun _ u hu => ?_
  exact ⟨⟨hu.served, hu.renewals⟩, hu.writes⟩

theorem keeps_drainPendingLeaseReads : Ensures drainPendingLeaseReads s fun _ t => Keeps P Q s t :=
  .of_eq rfl rfl rfl

theorem keeps_updateLeaseTimestamp (sendTs : Nat) :
    Ensures (updateLeaseTimestamp sendTs) s fun _ t => Keeps P Q s t := by
  unfold updateLeaseTimestamp
  rw [ensures_get_bind]
  split
  · exact Keeps.of_eq rfl rfl rfl
  · exact Keeps.of_eq rfl rfl rfl

theorem keeps_routeReads (hP : AllowsLeased P) (reads : List ReadRequest) :
    Ensures (routeReads reads) s fun _ t => Keeps P Q s t := by
  unfold routeReads
  rw [ensures_get_bind]
  dsimp only
  split_ifs with hno hse
  · exact keeps_answerReads _ _
  · exact keeps_executePendingReads fun r _ => hP _ hse.2 (Bool.or_eq_true_iff.mp hse.1)
  · exact Keeps.of_eq rfl rfl rfl

/-! ## Requests without proposals -/

/-- An execution without proposals leaves their channels alone. -/
theorem keeps_executeAndProcessRaftRpc (hP : AllowsLeased P) (env : Env)
    (payloads : List EntryPayload) (readBatch : Option (List ReadRequest)) :
    Ensures (executeAndProcessRaftRpc env payloads none readBatch) s
      fun _ t => Keeps P Q s t := by
  unfold executeAndProcessRaftRpc
  refine Ensures.chain (ensures_attempt.mpr (keeps_onNode _)) fun outcome t _ => ?_
  cases outcome with
  | error => exact Keeps.of_eq rfl rfl rfl
  | ok =>
    refine Ensures.chain (R := Keeps P Q) (Std.Refl.refl t) fun _ u _ => ?_
    exact Ensures.each fun reads _ v _ => keeps_routeReads hP reads

theorem keeps_processLeaseRead (hP : AllowsLeased P) (env : Env) (sender : Nat) :
    Ensures (processLeaseRead env sender) s fun _ t => Keeps P Q s t := by
  unfold processLeaseRead
  rw [ensures_get_bind]
  split_ifs
  · exact keeps_answerReads _ _
  · exact Ensures.chain (keeps_updateLeaseTimestamp _) fun _ _ _ => keeps_answerReads _ _
  · refine Ensures.chain (R := Keeps P Q) (.of_eq rfl rfl rfl) fun _ _ _ => ?_
    exact keeps_executeAndProcessRaftRpc hP env [] none

theorem keeps_processLeaseReads (hP : AllowsLeased P) (env : Env) :
    Ensures (processLeaseReads env) s fun _ t => Keeps P Q s t := by
  unfold processLeaseReads
  rw [ensures_get_bind]
  refine Ensures.chain (keeps_onNode _) fun _ t _ => ?_
  refine Ensures.chain (R := Keeps P Q) (.of_eq rfl rfl rfl) fun _ u _ => ?_
  refine Ensures.each fun sender _ v _ => ?_
  exact Ensures.chain (ensures_attempt.mpr (keeps_processLeaseRead hP env sender))
    fun _ w _ => Std.Refl.refl w

/-- The steps of a handler that leave the channels of the proposals alone add what they add. -/
theorem adds_of_keeps {α : Type} {x : SessionM myId α}
    (h : Ensures x s fun _ t => Keeps P Q s t) : Ensures x s fun _ t => Adds P Q s t :=
  h.mono fun _ _ ht => ht.toAdds

/-! ## Proposals -/

theorem adds_recordWrites (metadata : WriteMetadata) :
    Ensures (recordWrites metadata) s fun _ t => Adds P Q s t := by
  unfold recordWrites
  split_ifs
  · exact Adds.of_eq rfl rfl
  · exact Adds.of_eq rfl rfl

theorem adds_executeAndProcessRaftRpc (hP : AllowsLeased P) (env : Env)
    (payloads : List EntryPayload) (writeMetadata : Option WriteMetadata)
    (readBatch : Option (List ReadRequest)) :
    Ensures (executeAndProcessRaftRpc env payloads writeMetadata readBatch) s
      fun _ t => Adds P Q s t := by
  unfold executeAndProcessRaftRpc
  refine Ensures.chain (ensures_attempt.mpr (adds_of_keeps (keeps_onNode _))) fun outcome t _ => ?_
  cases outcome with
  | error => exact Adds.of_eq rfl rfl
  | ok =>
    refine Ensures.chain (R := Adds P Q) (Ensures.each fun metadata _ _ _ =>
      adds_recordWrites metadata) fun _ u _ => ?_
    exact Ensures.each fun reads _ v _ => adds_of_keeps (keeps_routeReads hP reads)

theorem adds_processBatch (hP : AllowsLeased P) (env : Env) (batch : List RaftRequestWithSignal) :
    Ensures (processBatch env batch) s fun _ t => Adds P Q s t :=
  adds_executeAndProcessRaftRpc hP env _ _ _

theorem adds_flushProposeBuffer : Ensures flushProposeBuffer s fun _ t => Adds P Q s t := by
  unfold flushProposeBuffer
  rw [ensures_get_bind]
  split_ifs
  · exact Adds.of_eq rfl rfl
  · exact Adds.of_eq rfl rfl

theorem adds_flushCmdBuffers (hP : AllowsLeased P) (env : Env) :
    Ensures (flushCmdBuffers env) s fun _ t => Adds P Q s t := by
  unfold flushCmdBuffers unifiedWriteAndLinearRead
  rw [ensures_get_bind]
  split_ifs
  · refine Ensures.chain adds_flushProposeBuffer fun request t _ => ?_
    refine Ensures.chain (adds_processBatch hP env _) fun _ u _ => ?_
    exact adds_of_keeps (keeps_processLeaseReads hP env)
  · refine Ensures.chain (R := Adds P Q) ?_ fun _ _ _ =>
      adds_of_keeps (keeps_processLeaseReads hP env)
    refine Ensures.chain adds_flushProposeBuffer fun request t _ => ?_
    rw [ensures_get_bind]
    refine Ensures.chain (R := Adds P Q) (.of_eq rfl rfl) fun _ u _ => ?_
    refine Ensures.chain (R := Adds P Q) (.of_eq rfl rfl) fun _ v _ => ?_
    exact adds_executeAndProcessRaftRpc hP env _ _ _
  · exact adds_of_keeps (keeps_processLeaseReads hP env)

theorem adds_tick (hP : AllowsLeased P) (env : Env) :
    Ensures (tick env) s fun _ t => Adds P Q s t := by
  unfold tick
  rw [ensures_get_bind]
  split_ifs
  · refine Ensures.chain (R := Adds P Q) (.of_eq rfl rfl) fun _ t _ => ?_
    refine Ensures.chain (R := Adds P Q) (.of_eq rfl rfl) fun _ u _ => ?_
    refine Ensures.chain adds_flushProposeBuffer fun request v _ => ?_
    refine Ensures.chain (R := Adds P Q) ?_ fun _ w _ => Adds.of_eq rfl rfl
    cases request with
    | none => exact adds_executeAndProcessRaftRpc hP env _ _ _
    | some => exact adds_processBatch hP env _
  · refine Ensures.chain (R := Adds P Q) (.of_eq rfl rfl) fun _ t _ => ?_
    exact Ensures.chain (R := Adds P Q) (.of_eq rfl rfl) fun _ _ _ => Adds.of_eq rfl rfl
  · exact Adds.of_eq rfl rfl

theorem adds_pushClientCmd (cmd : ClientCmd) :
    Ensures (pushClientCmd cmd) s fun _ t => Adds P Q s t := by
  unfold pushClientCmd
  rw [ensures_get_bind, ensures_modify_bind]
  refine Ensures.mono (Q := fun _ t => t.served = s.served ∧ t.renewals = s.renewals) ?_
    fun _ _ ht => .of_eq ht.1 ht.2
  cases cmd with
  | scan => exact ⟨rfl, rfl⟩
  | propose command =>
    refine Ensures.bind (R := fun _ t => t.served = s.served ∧ t.renewals = s.renewals)
      ⟨rfl, rfl⟩ (fun _ _ ht => ht) fun _ t ht => ?_
    dsimp only
    split_ifs
    · exact ht
    · cases command with
      | none | some _ => exact ht
  | read =>
    refine Ensures.bind (R := fun _ t => t.served = s.served ∧ t.renewals = s.renewals)
      ⟨rfl, rfl⟩ (fun _ _ ht => ht) fun _ t ht => ?_
    dsimp only
    split
    · split_ifs
      · exact ht
      · exact ht
    · split_ifs
      · exact ht
      · exact ht
    · exact ht

/-! ## Commits, results and role changes -/

theorem adds_drainPendingClientWrites (newCommit : Nat) :
    Ensures (drainPendingClientWrites newCommit) s fun _ t => Adds P Q s t := by
  unfold drainPendingClientWrites
  rw [ensures_get_bind]
  refine Ensures.chain (R := Adds P Q) (.of_eq rfl rfl) fun _ t _ => ?_
  refine Ensures.each fun p _ u _ => ?_
  unfold settleBatch
  split_ifs
  · exact Adds.of_eq rfl rfl
  · exact Adds.of_eq rfl rfl

theorem adds_handleLogFlushed : Ensures handleLogFlushed s fun _ t => Adds P Q s t := by
  unfold handleLogFlushed
  rw [ensures_get_bind]
  refine Ensures.chain (R := Adds P Q) (.of_eq rfl rfl) fun _ t _ => ?_
  split
  · refine Ensures.chain (adds_drainPendingClientWrites _) fun _ u _ => ?_
    split_ifs
    · exact Ensures.chain (adds_of_keeps (keeps_updateLeaseTimestamp _)) fun _ v _ =>
        adds_of_keeps keeps_drainPendingLeaseReads
    · exact Adds.of_eq rfl rfl
  · exact Adds.of_eq rfl rfl

theorem adds_answerApplied (result : ApplyResult) :
    Ensures (answerApplied result) s fun _ t => Adds P Q s t := by
  unfold answerApplied
  rw [ensures_get_bind]
  split
  · exact Adds.of_eq rfl rfl
  · exact Adds.of_eq rfl rfl

/-- Completed results serve the reads that wait for an index up to the last one. -/
theorem adds_handleApplyCompleted {env : Env} {lastIndex : Nat} {results : List ApplyResult}
    (h : ∀ p ∈ s.pendingReads.range 0 lastIndex, ∀ r ∈ p.2.requests, P (s.serve p.1 r)) :
    Ensures (handleApplyCompleted env lastIndex results) s fun _ t => Adds P Q s t := by
  unfold handleApplyCompleted
  refine Ensures.bind (R := fun _ t => Adds P Q s t ∧ SameReads s t)
    ⟨Ensures.each fun result _ _ _ => adds_answerApplied result,
      Ensures.each fun result _ _ _ => sameReads_answerApplied result⟩
    (fun _ _ ht => ht.1) fun _ t ht => ?_
  refine Ensures.mono ?_ fun _ u hu => IsTrans.trans _ _ _ ht.1 hu
  rw [ensures_modify_bind]
  refine Ensures.bind (R := fun _ u => Adds P Q t u) ?_ (fun _ _ hu => hu) fun _ u hu =>
    IsTrans.trans _ _ _ hu (.of_eq rfl rfl)
  refine Ensures.mono (keeps_servePendingReads (P := P) (Q := Q) ?_) fun _ u hu =>
    ⟨hu.served, hu.renewals⟩
  intro p hp r hr
  change P (t.serve p.1 r)
  rw [ht.2.serve]
  exact h p (ht.2.pendingReads ▸ hp) r hr

theorem adds_drainReadBuffer : Ensures drainReadBuffer s fun _ t => Adds P Q s t := by
  unfold drainReadBuffer
  rw [ensures_get_bind]
  split_ifs
  · exact Adds.of_eq rfl rfl
  · exact Adds.of_eq rfl rfl

theorem adds_handleBecomeFollower (env : Env) :
    Ensures (handleBecomeFollower env) s fun _ t => Adds P Q s t := by
  unfold handleBecomeFollower
  refine Ensures.chain adds_drainReadBuffer fun _ t _ => ?_
  rw [ensures_get_bind]
  refine Ensures.chain (R := Adds P Q) (.of_eq rfl rfl) fun _ u _ => ?_
  split_ifs
  · exact Adds.of_eq rfl rfl
  · exact Adds.of_eq rfl rfl

theorem adds_handleInboundEvent (env : Env) (event : InboundEvent) :
    Ensures (handleInboundEvent env event) s fun _ t => Adds P Q s t := by
  unfold handleInboundEvent
  rw [ensures_get_bind]
  split_ifs
  · exact Adds.of_eq rfl rfl
  · refine Ensures.chain (R := Adds P Q) (.of_eq rfl rfl) fun _ u _ => ?_
    exact Adds.of_eq rfl rfl
  · refine Ensures.chain (R := Adds P Q) (.of_eq rfl rfl) fun _ u _ => ?_
    exact Adds.of_eq rfl rfl

theorem adds_handleInternalEvent (env : Env) (event : InternalEvent) :
    Ensures (handleInternalEvent env event) s fun _ t => Adds P Q s t := by
  cases event with
  | becomeFollower => exact adds_handleBecomeFollower env
  | becomeCandidate | becomeLearner =>
    exact Ensures.chain adds_drainReadBuffer fun _ _ _ => Adds.of_eq rfl rfl
  | logFlushed =>
    unfold handleInternalEvent
    rw [ensures_get_bind]
    split_ifs
    · exact adds_handleLogFlushed
    · exact Adds.of_eq rfl rfl
  | fatalError => exact Adds.of_eq rfl rfl
  | _ => exact Adds.of_eq rfl rfl

/-- What a step serves and renews, from what the handlers of answers and results do. -/
theorem adds_step {l : SessionLabel} (hP : AllowsLeased P)
    (happ : ∀ env followerId result sentAt, s.node.role = .leader →
      l = .appendResult env followerId result sentAt →
        Ensures (handleAppendResult env followerId result sentAt) s fun _ t => Adds P Q s t)
    (hap : ∀ env lastIndex results, l = .applyCompleted env lastIndex results →
      lastIndex ≤ s.lastApplied →
        ∀ p ∈ s.pendingReads.range 0 lastIndex, ∀ r ∈ p.2.requests, P (s.serve p.1 r))
    (hst : s.step l = some t) : Adds P Q s t := by
  cases l
  all_goals
    simp only [Session.step, Option.ite_none_right_eq_some, Option.some.injEq] at hst
    obtain ⟨hgu, rfl⟩ := hst
  case elapse | apply => exact Adds.of_eq rfl rfl
  case submit cmd => exact adds_pushClientCmd cmd
  case flush env => exact adds_flushCmdBuffers hP env
  case tick env => exact adds_tick hP env
  case appendResult env followerId result sentAt =>
    exact happ env followerId result sentAt hgu.1 rfl
  case applyCompleted env lastIndex results =>
    exact adds_handleApplyCompleted (hap env lastIndex results rfl hgu.2)
  case internal env event => exact adds_handleInternalEvent env event
  case inbound env event => exact adds_handleInboundEvent env event

end Handlers

end DEngine.Client

import DEngine.Raft.HandlerEffects

/-!
# Purges that failed

A purge is scheduled by a watermark, which stays until the completion of the purge is
handled, so that a failed purge is tried again. The completion of an earlier purge may
come late, when the watermark has moved on, and clears the later watermark with it. That
is as intended exactly if the later purge has succeeded as well.

## Implementation notes

The node keeps its role. The channel holds completions only, in the order in which they
were sent, and a completion may wait for any time. Between two purges the log and the
commit index move on in any way.
-/

namespace DEngine.Raft

open Library Library.Handler Storage

variable {myId : Nat}

/-! ## Runs of purges -/

/-- A node, with the cutoffs of the purges that succeeded. -/
structure Purging (myId : Nat) where
  node : Node myId
  succeeded : List Nat

inductive PurgeLabel where
  /-- A local snapshot was created. -/
  | created (io : Except Fault Unit) (lastIncluded : LogId)
  | installed (io : Except Fault Unit) (target : LogId)
  /-- The next completion is handled. -/
  | completed
  | proceed (log : BufferedRaftLog) (commitIndex : Nat)

/-- The cutoff of a purge that is reported as completed. -/
def purgedIndex? : InternalEvent → Option Nat
  | .logPurgeCompleted purgedId => some purgedId.index
  | _ => none

namespace Purging

/-- The state behind a handler that may purge. -/
def after (s : Purging myId) (x : NodeM myId Unit) : Purging myId where
  node := (x s.node).2
  succeeded :=
    s.succeeded ++ ((x s.node).2.internalRx.drop s.node.internalRx.length).filterMap purgedIndex?

def step (s : Purging myId) : PurgeLabel → Option (Purging myId)
  | .created io lastIncluded =>
    some (s.after (logged Fault.isFatal (scheduleAndExecutePurge io lastIncluded)))
  | .installed io target => some (s.after (scheduleInstalledSnapshotPurge io target))
  | .completed =>
    match s.node.internalRx with
    | .logPurgeCompleted purgedId :: rest =>
      some { s with node := (handleInternalEvent {} (.logPurgeCompleted purgedId)
        { s.node with internalRx := rest }).2 }
    | _ => none
  | .proceed log commitIndex =>
    some { s with node :=
      { s.node with log := log, shared := { s.node.shared with commitIndex := commitIndex } } }

/-- A follower, learner or leader without a scheduled purge. -/
structure Init (s : Purging myId) : Prop where
  role : s.node.role ≠ .candidate
  pending : s.node.pendingPurgeUpto = none
  channel : s.node.internalRx = []
  succeeded : s.succeeded = []

end Purging

def purging (myId : Nat) : Machine (Purging myId) PurgeLabel where
  init := Purging.Init
  step := Purging.step

/-! ## Scheduling -/

/-- The watermark is no lower than before. -/
def Keeps (s t : Node myId) : Prop :=
  ∀ id ∈ s.pendingPurgeUpto, ∃ kept ∈ t.pendingPurgeUpto, id.index ≤ kept.index

/-- What scheduling a purge does: the watermark goes no lower, and a purge that succeeds is
reported. -/
structure Schedules (s t : Node myId) : Prop where
  role_eq : t.role = s.role
  purged_eq : t.lastPurgedIndex = s.lastPurgedIndex
  pending : Keeps s t
  sent : ∃ ids : List LogId, t.internalRx = s.internalRx ++ ids.map .logPurgeCompleted

theorem Keeps.rfl' (s : Node myId) : Keeps s s := fun id hid => ⟨id, hid, le_rfl⟩

theorem Schedules.rfl' (s : Node myId) : Schedules s s := ⟨rfl, rfl, .rfl' s, [], by simp⟩

variable {s : Node myId}

theorem schedules_executePendingPurge (io : Except Fault Unit) :
    Ensures (executePendingPurge io) s fun _ t => Schedules s t := by
  unfold executePendingPurge
  rw [ensures_get_bind]
  cases s.pendingPurgeUpto with
  | none => exact Schedules.rfl' s
  | some scheduled =>
    cases io with
    | ok => exact ⟨rfl, rfl, .rfl' s, [scheduled], rfl⟩
    | error => exact ⟨rfl, rfl, .rfl' s, [], (List.append_nil _).symm⟩

/-- A higher watermark is set before the purge is executed. -/
theorem schedules_with_watermark (io : Except Fault Unit) {watermark : LogId}
    (hhi : ∀ id ∈ s.pendingPurgeUpto, id.index < watermark.index) :
    Ensures (executePendingPurge io) { s with pendingPurgeUpto := some watermark } fun _ t =>
      Schedules s t := by
  refine (schedules_executePendingPurge io).mono ?_
  rintro r t ⟨hro, hpu, hpe, hse⟩
  refine ⟨hro, hpu, fun id hid => ?_, hse⟩
  obtain ⟨kept, hke, hle⟩ := hpe watermark rfl
  exact ⟨kept, hke, (hhi id hid).le.trans hle⟩

theorem schedules_scheduleAndExecutePurge (io : Except Fault Unit) (lastIncluded : LogId) :
    Ensures (scheduleAndExecutePurge io lastIncluded) s fun _ t => Schedules s t := by
  unfold scheduleAndExecutePurge
  rw [ensures_get_bind]
  dsimp only
  split
  · exact Schedules.rfl' s
  · cases s.log.entryTerm (lastIncluded.index - s.config.retainedLogEntries) with
    | error => exact Schedules.rfl' s
    | ok found =>
      cases found with
      | none => exact schedules_executePendingPurge io
      | some =>
        split_ifs with hpu
        · exact schedules_with_watermark io hpu.2.2
        · exact schedules_executePendingPurge io

theorem schedules_scheduleInstalledSnapshotPurge (io : Except Fault Unit) (target : LogId) :
    Ensures (scheduleInstalledSnapshotPurge io target) s fun _ t => Schedules s t := by
  unfold scheduleInstalledSnapshotPurge
  rw [ensures_modify_bind]
  split_ifs with hhi
  · exact schedules_with_watermark io hhi
  · exact schedules_executePendingPurge io

/-! ## Completions -/

theorem handleInternalEvent_logPurgeCompleted (hro : s.role ≠ .candidate) (purgedId : LogId) :
    (handleInternalEvent {} (.logPurgeCompleted purgedId) s).2 =
      if ∀ id ∈ s.lastPurgedIndex, id.index < purgedId.index then
        { s with lastPurgedIndex := some purgedId, pendingPurgeUpto := none }
      else s := by
  have hha : handleLogPurgeCompleted purgedId s =
      (.ok (), if ∀ id ∈ s.lastPurgedIndex, id.index < purgedId.index then
        { s with lastPurgedIndex := some purgedId, pendingPurgeUpto := none } else s) := by
    unfold handleLogPurgeCompleted
    rw [get_bind_apply, if_neg hro]
    split_ifs <;> rfl
  have hlo : Ensures (handleInternalEvent {} (.logPurgeCompleted purgedId)) s fun _ t =>
      t = (handleLogPurgeCompleted purgedId s).2 := ensures_logged rfl
  rw [hha] at hlo
  exact hlo

/-! ## Runs -/

namespace Purging

variable {s t : Purging myId} {l : PurgeLabel}

/-- The completions that wait are those of the purges that succeeded and are not yet noted. -/
structure Accounted (s : Purging myId) : Prop where
  role : s.node.role ≠ .candidate
  channel : ∃ ids : List LogId, s.node.internalRx = ids.map .logPurgeCompleted
  waiting : ∀ purgedId, .logPurgeCompleted purgedId ∈ s.node.internalRx →
    purgedId.index ∈ s.succeeded
  known : ∀ cutoff ∈ s.succeeded, (∃ id ∈ s.node.lastPurgedIndex, cutoff ≤ id.index) ∨
    ∃ purgedId, .logPurgeCompleted purgedId ∈ s.node.internalRx ∧ purgedId.index = cutoff

theorem Accounted.after (h : Accounted s) {x : NodeM myId Unit}
    (hx : Ensures x s.node fun _ t => Schedules s.node t) : Accounted (s.after x) := by
  obtain ⟨hro, hpu, -, ids, hse⟩ := hx
  have hsu : (s.after x).succeeded = s.succeeded ++ ids.map LogId.index := by
    simp only [Purging.after, hse, List.drop_left, List.filterMap_map]
    congr 1
    exact congrFun (List.filterMap_eq_map (f := LogId.index)) ids
  have hch : (s.after x).node.internalRx = s.node.internalRx ++ ids.map .logPurgeCompleted :=
    hse
  refine ⟨?_, ?_, ?_, ?_⟩
  · change (x s.node).2.role ≠ .candidate
    rw [hro]
    exact h.role
  · obtain ⟨before, hbe⟩ := h.channel
    exact ⟨before ++ ids, by rw [hch, hbe, List.map_append]⟩
  · intro purgedId hmem
    rw [hsu]
    rw [hch] at hmem
    rcases List.mem_append.mp hmem with hold | hnew
    · exact List.mem_append_left _ (h.waiting purgedId hold)
    · obtain ⟨id, hid, heq⟩ := List.mem_map.mp hnew
      cases heq
      exact List.mem_append_right _ (List.mem_map_of_mem hid)
  · intro cutoff hcut
    rw [hsu] at hcut
    change (∃ id ∈ (x s.node).2.lastPurgedIndex, cutoff ≤ id.index) ∨ _
    rw [hpu, hch]
    rcases List.mem_append.mp hcut with hold | hnew
    · refine (h.known cutoff hold).imp_right ?_
      rintro ⟨purgedId, hmem, hidx⟩
      exact ⟨purgedId, List.mem_append_left _ hmem, hidx⟩
    · obtain ⟨id, hid, hidx⟩ := List.mem_map.mp hnew
      exact .inr ⟨id, List.mem_append_right _ (List.mem_map_of_mem hid), hidx⟩

/-- A completion that is not outdated moves the purged index and takes the watermark away. -/
theorem step_completed (hro : s.node.role ≠ .candidate) (hst : s.step .completed = some t) :
    ∃ purgedId rest, s.node.internalRx = .logPurgeCompleted purgedId :: rest ∧
      t.succeeded = s.succeeded ∧
      t.node = if ∀ id ∈ s.node.lastPurgedIndex, id.index < purgedId.index then
        { s.node with
          internalRx := rest, lastPurgedIndex := some purgedId, pendingPurgeUpto := none }
        else { s.node with internalRx := rest } := by
  simp only [step] at hst
  split at hst <;> cases hst
  rename_i purgedId rest hch
  exact ⟨purgedId, rest, hch, rfl,
    handleInternalEvent_logPurgeCompleted (s := { s.node with internalRx := rest }) hro
      purgedId⟩

theorem Accounted.completed (h : Accounted s) (hst : s.step .completed = some t) : Accounted t := by
  obtain ⟨purgedId, rest, hch, hsu, hno⟩ := step_completed h.role hst
  have hre : t.node.internalRx = rest := by
    rw [hno]
    split_ifs <;> rfl
  -- What was noted is noted still, and the handled completion is noted now.
  have hnt : ∀ cutoff, (cutoff = purgedId.index ∨
      ∃ id ∈ s.node.lastPurgedIndex, cutoff ≤ id.index) →
      ∃ id ∈ t.node.lastPurgedIndex, cutoff ≤ id.index := by
    intro cutoff hcut
    rw [hno]
    split_ifs with hnw
    · refine ⟨purgedId, rfl, ?_⟩
      rcases hcut with rfl | ⟨id, hid, hle⟩
      · exact le_rfl
      · exact hle.trans (hnw id hid).le
    · rcases hcut with rfl | hkn
      · push Not at hnw
        exact hnw
      · exact hkn
  refine ⟨?_, ?_, ?_, ?_⟩
  · rw [hno]
    split_ifs <;> exact h.role
  · obtain ⟨ids, hids⟩ := h.channel
    cases ids with
    | nil => rw [hids] at hch; cases hch
    | cons id ids =>
      rw [hids] at hch
      exact ⟨ids, hre.trans (List.cons.inj hch).2.symm⟩
  · intro later hla
    rw [hsu]
    rw [hre] at hla
    exact h.waiting later (hch ▸ List.mem_cons_of_mem _ hla)
  · intro cutoff hcut
    rw [hsu] at hcut
    rcases h.known cutoff hcut with hkn | ⟨later, hla, rfl⟩
    · exact .inl (hnt cutoff (.inr hkn))
    · rw [hch] at hla
      rcases List.mem_cons.mp hla with heq | hbe
      · cases heq
        exact .inl (hnt _ (.inl rfl))
      · exact .inr ⟨later, hre ▸ hbe, rfl⟩

theorem Accounted.step (h : Accounted s) (hst : s.step l = some t) : Accounted t := by
  cases l with
  | created io lastIncluded =>
    cases hst
    exact h.after (ensures_logged (schedules_scheduleAndExecutePurge io lastIncluded))
  | installed io target =>
    cases hst
    exact h.after (schedules_scheduleInstalledSnapshotPurge io target)
  | completed => exact h.completed hst
  | proceed =>
    cases hst
    exact ⟨h.role, h.channel, h.waiting, h.known⟩

theorem accounted_of_reach (h : (purging myId).Reach (fun _ _ => True) s) : Accounted s := by
  apply h.invariant (I := Accounted)
  · rintro u ⟨hro, -, hch, hsu⟩
    refine ⟨hro, ⟨[], hch⟩, fun purgedId hmem => ?_, fun cutoff hmem => ?_⟩
    · rw [hch] at hmem
      cases hmem
    · rw [hsu] at hmem
      cases hmem
  · exact fun u l v hu _ hst => hu.step hst

/-- A watermark stays or gives way to a higher one, unless a purge that reaches it has
succeeded. -/
def ClearedAfterSuccess (s t : Purging myId) : Prop :=
  ∀ id ∈ s.node.pendingPurgeUpto, (∃ kept ∈ t.node.pendingPurgeUpto, id.index ≤ kept.index) ∨
    ∃ cutoff ∈ s.succeeded, id.index ≤ cutoff

/-- When a completion that is not outdated is handled, it reaches the watermark, or one that
waits behind it does. -/
def CompletionCovers (s : Purging myId) : PurgeLabel → Prop
  | .completed => ∀ purgedId rest, s.node.internalRx = .logPurgeCompleted purgedId :: rest →
      (∀ id ∈ s.node.lastPurgedIndex, id.index < purgedId.index) →
      ∀ id ∈ s.node.pendingPurgeUpto, id.index ≤ purgedId.index ∨
        ∃ later, .logPurgeCompleted later ∈ rest ∧ id.index ≤ later.index
  | _ => True

/-- Scheduling a purge takes no watermark away. -/
theorem clearedAfterSuccess_after {x : NodeM myId Unit}
    (hx : Ensures x s.node fun _ t => Schedules s.node t) : ClearedAfterSuccess s (s.after x) :=
  fun id hid => Or.inl (hx.pending id hid)

theorem clearedAfterSuccess_completed_iff (h : Accounted s) (hst : s.step .completed = some t) :
    ClearedAfterSuccess s t ↔ CompletionCovers s .completed := by
  obtain ⟨purgedId, rest, hch, -, hno⟩ := step_completed h.role hst
  constructor
  · intro hcl purgedId' rest' hch' hnw id hid
    cases hch.symm.trans hch'
    rw [if_pos hnw] at hno
    have hgo : ¬ ∃ kept ∈ t.node.pendingPurgeUpto, id.index ≤ kept.index := by
      rw [hno]
      simp
    obtain ⟨cutoff, hcut, hle⟩ := (hcl id hid).resolve_left hgo
    rcases h.known cutoff hcut with ⟨noted, hnt, hle'⟩ | ⟨later, hla, rfl⟩
    · exact .inl ((hle.trans hle').trans (hnw noted hnt).le)
    · rw [hch] at hla
      rcases List.mem_cons.mp hla with heq | hbe
      · cases heq
        exact .inl hle
      · exact .inr ⟨later, hbe, hle⟩
  · intro hcov id hid
    by_cases hnw : ∀ id ∈ s.node.lastPurgedIndex, id.index < purgedId.index
    · right
      rcases hcov purgedId rest hch hnw id hid with hle | ⟨later, hla, hle⟩
      · exact ⟨_, h.waiting purgedId (hch ▸ List.mem_cons_self), hle⟩
      · exact ⟨_, h.waiting later (hch ▸ List.mem_cons_of_mem _ hla), hle⟩
    · left
      rw [hno, if_neg hnw]
      exact ⟨id, hid, le_rfl⟩

/-- In every run of purges that succeed or fail and of completions that come late, a watermark
is given up only behind a purge that reaches it, exactly if the completion that takes it away,
or one behind it, is that of such a purge. -/
theorem clearedAfterSuccess_iff (h : (purging myId).Reach (fun _ _ => True) s)
    (hstep : s.step l = some t) : ClearedAfterSuccess s t ↔ CompletionCovers s l := by
  cases l with
  | created io lastIncluded =>
    cases hstep
    refine iff_of_true (clearedAfterSuccess_after ?_) trivial
    exact ensures_logged (schedules_scheduleAndExecutePurge io lastIncluded)
  | installed io target =>
    cases hstep
    exact iff_of_true (clearedAfterSuccess_after
      (schedules_scheduleInstalledSnapshotPurge io target)) trivial
  | completed => exact clearedAfterSuccess_completed_iff (accounted_of_reach h) hstep
  | proceed =>
    cases hstep
    exact iff_of_true (fun id hid => Or.inl ⟨id, hid, le_rfl⟩) trivial

/-- A follower that has not purged anything. -/
def idle : Purging 1 := ⟨.firstStart .small .trio, []⟩

theorem init_idle : idle.Init := ⟨by decide, rfl, rfl, rfl⟩

/-- Two purges succeed before the first completion comes, which takes the watermark of the
second away. -/
theorem late_completion_of_two_successes :
    ∃ s t : Purging 1, (purging 1).Reach (fun _ _ => True) s ∧ s.step .completed = some t ∧
      s.node.pendingPurgeUpto = some ⟨1, 10⟩ ∧ t.node.pendingPurgeUpto = none ∧
      CompletionCovers s .completed ∧ ClearedAfterSuccess s t := by
  have hrun : ∃ s : Purging 1, (purging 1).Reach (fun _ _ => True) s ∧
      (s.node.pendingPurgeUpto = some ⟨1, 10⟩ ∧
        s.node.internalRx = [.logPurgeCompleted ⟨1, 5⟩, .logPurgeCompleted ⟨1, 10⟩] ∧
        (s.step .completed).any fun t => decide (t.node.pendingPurgeUpto = none)) :=
    Machine.exists_reach_of_runIf [.installed (.ok ()) ⟨1, 5⟩, .installed (.ok ()) ⟨1, 10⟩]
      init_idle (by decide +kernel)
  obtain ⟨s, hre, hpe, hch, hany⟩ := hrun
  obtain ⟨t, hst, hcl⟩ := (Option.any_eq_true _ _).mp hany
  have hco : CompletionCovers s .completed := by
    intro purgedId rest hnx _ id hid
    cases hch.symm.trans hnx
    cases hpe.symm.trans (Option.mem_def.mp hid)
    exact .inr ⟨⟨1, 10⟩, List.mem_singleton_self _, le_rfl⟩
  exact ⟨s, t, hre, hst, hpe, of_decide_eq_true hcl, hco,
    (clearedAfterSuccess_iff hre hst).mpr hco⟩

/-- A purge up to 5 succeeds, one up to 10 fails, and the completion of the first one takes the
watermark of the second away. -/
theorem failed_purge_forgotten :
    ∃ s t : Purging 1, (purging 1).Reach (fun _ _ => True) s ∧ s.step .completed = some t ∧
      s.node.role = .follower ∧ s.node.pendingPurgeUpto = some ⟨1, 10⟩ ∧
      t.node.pendingPurgeUpto = none ∧ s.succeeded = [5] ∧ ¬ ClearedAfterSuccess s t := by
  have hrun : ∃ s : Purging 1, (purging 1).Reach (fun _ _ => True) s ∧
      (s.node.role = .follower ∧ s.node.pendingPurgeUpto = some ⟨1, 10⟩ ∧ s.succeeded = [5] ∧
        (s.step .completed).any fun t => decide (t.node.pendingPurgeUpto = none)) :=
    Machine.exists_reach_of_runIf
      [.installed (.ok ()) ⟨1, 5⟩, .installed (.error .snapshotFailed) ⟨1, 10⟩]
      init_idle (by decide +kernel)
  obtain ⟨s, hrc, hro, hpe, hsu, hany⟩ := hrun
  obtain ⟨t, hst, hcl⟩ := (Option.any_eq_true _ _).mp hany
  have hno : t.node.pendingPurgeUpto = none := of_decide_eq_true hcl
  refine ⟨s, t, hrc, hst, hro, hpe, hno, hsu, fun haf => ?_⟩
  have hre := haf ⟨1, 10⟩ hpe
  rw [hno, hsu] at hre
  simp at hre

end Purging

end DEngine.Raft

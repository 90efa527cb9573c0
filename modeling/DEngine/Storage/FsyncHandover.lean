import DEngine.Storage.FsyncCoordinator
import Mathlib.Data.List.Nodup

/-!
# Nothing is left behind in the coordinator

A `submit` call that finds a task in flight leaves its work to that task. The task
looks once more after it has cleared the flag, so that what slipped in is seen; only
the exit of a task that finds the log poisoned does not. As long as that exit leaves
nothing that nobody else looks at, the coordinator comes to rest with no work pending
and with every sender answered once.
-/

namespace DEngine.Storage.Fsync

open Library Thread
open scoped List

/-! ## Who looks at pending work -/

/-- The thread will set `inflight`, or find it set, if an index is pending. -/
def Thread.seesMax : Thread → Bool
  | .submit (.queue _) => true
  | .submit .claim => true
  | .task .recheckMax => true
  | .task .rearm => true
  | _ => false

/-- The thread will set `inflight`, or find it set, if senders are pending. -/
def Thread.seesReplies : Thread → Bool
  | .submit .claim => true
  | .task .recheckMax => true
  | .task .recheckReplies => true
  | .task .rearm => true
  | _ => false

/-- Some thread looks at what is pending. -/
@[mk_iff]
structure Attended (shared : Shared) (threads : List Thread) : Prop where
  pendingMax : 0 < shared.pendingMax → ∃ thread ∈ threads, thread.seesMax = true
  pendingReplies : shared.pendingReplies ≠ [] → ∃ thread ∈ threads, thread.seesReplies = true

instance (shared : Shared) (threads : List Thread) : Decidable (Attended shared threads) :=
  decidable_of_iff' _ (attended_iff shared threads)

/-- A task that has found the log poisoned clears `inflight` only while some other thread looks
at what is pending. -/
def ReleasesAttended (s : State) : Label → Prop
  | .run i _ => s.threads[i]? = some (.task .release) → Attended s.shared s.threads
  | _ => True

instance (s : State) (l : Label) : Decidable (ReleasesAttended s l) := by
  cases l <;> dsimp only [ReleasesAttended] <;> infer_instance

variable {isWriteDurable : Bool} {s t : State} {l : Label} {shared : Shared}
  {threads rest : List Thread} {thread : Thread}

theorem Attended.mono (h : Attended shared threads) (hsub : threads ⊆ rest) :
    Attended shared rest := by
  refine ⟨fun hpos => ?_, fun hne => ?_⟩
  · obtain ⟨thread, hmem, hse⟩ := h.pendingMax hpos
    exact ⟨thread, hsub hmem, hse⟩
  · obtain ⟨thread, hmem, hse⟩ := h.pendingReplies hne
    exact ⟨thread, hsub hmem, hse⟩

/-- A thread that looks at both kinds of work attends to them. -/
theorem attended_of_sees {after : Shared} (thread : Thread) (hmem : thread ∈ threads)
    (hmax : thread.seesMax = true) (hre : thread.seesReplies = true) : Attended after threads :=
  ⟨fun _ => ⟨thread, hmem, hmax⟩, fun _ => ⟨thread, hmem, hre⟩⟩

/-- A thread that looks at neither is not missed. -/
theorem Attended.of_cons (h : Attended shared (thread :: rest)) (hmax : thread.seesMax = false)
    (hrp : thread.seesReplies = false) : Attended shared rest := by
  refine ⟨fun hpos => ?_, fun hne => ?_⟩
  · obtain ⟨other, hmem, hse⟩ := h.pendingMax hpos
    rcases List.mem_cons.mp hmem with rfl | hre
    · exact absurd hse (by rw [hmax]; decide)
    · exact ⟨other, hre, hse⟩
  · obtain ⟨other, hmem, hse⟩ := h.pendingReplies hne
    rcases List.mem_cons.mp hmem with rfl | hre
    · exact absurd hse (by rw [hrp]; decide)
    · exact ⟨other, hre, hse⟩

/-- Pending work is taken by whoever takes it as a whole. -/
theorem Attended.of_le {after : Shared} (h : Attended shared threads)
    (hmax : after.pendingMax = shared.pendingMax ∨ after.pendingMax = 0)
    (hre : after.pendingReplies = shared.pendingReplies ∨ after.pendingReplies = []) :
    Attended after threads := by
  refine ⟨fun hpos => ?_, fun hne => ?_⟩
  · rcases hmax with hsa | hze
    · exact h.pendingMax (hsa ▸ hpos)
    · omega
  · rcases hre with hsa | hnil
    · exact h.pendingReplies (hsa ▸ hne)
    · exact absurd hnil hne

/-! ## Work stays attended -/

/-- While no task is in flight, somebody looks at what is pending. -/
def Watched (shared : Shared) (threads : List Thread) : Prop :=
  shared.inflight = false → Attended shared threads

theorem SubmitStage.watched_step {stage : SubmitStage}
    (how : (submit stage).owns = true → shared.inflight = true)
    (h : Watched shared (.submit stage :: rest)) :
    Watched (stage.step shared).1 (rest ++ (stage.step shared).2) := by
  intro hid
  cases stage with
  | record maxIndex replies =>
    -- The call goes on to look at the index; the senders are as they were.
    have hnew : submit (.queue replies) ∈ rest ++ [.submit (.queue replies)] := by simp
    refine ⟨fun _ => ⟨_, hnew, rfl⟩, fun hne => ?_⟩
    have hbe : Attended shared (.submit (.record maxIndex replies) :: rest) := by
      apply h
      simp only [SubmitStage.step] at hid
      split_ifs at hid <;> exact hid
    have hne' : shared.pendingReplies ≠ [] := by
      simp only [SubmitStage.step] at hne
      split_ifs at hne <;> exact hne
    exact ((hbe.of_cons rfl rfl).mono (List.subset_append_left _ _)).pendingReplies hne'
  | queue => exact attended_of_sees (.submit .claim) (by simp [step]) rfl rfl
  | claim =>
    simp only [SubmitStage.step] at hid
    split_ifs at hid with hfl
    exact absurd hid (by rw [hfl]; decide)
  | spawn => exact absurd hid (by simp [SubmitStage.step, how rfl])

theorem FenceStage.watched_step {stage : FenceStage} (h : Watched shared (.fence stage :: rest)) :
    Watched (stage.step shared).1 (rest ++ (stage.step shared).2) := by
  intro hid
  have hbe : Attended shared rest := by
    cases stage <;> exact (h hid).of_cons rfl rfl
  refine (hbe.mono (List.subset_append_left _ _)).of_le ?_ ?_
  · cases stage <;> first | exact .inl rfl | exact .inr rfl
  · cases stage <;> first | exact .inl rfl | exact .inr rfl

theorem TaskStage.watched_step {stage : TaskStage} {outcome : Except String Unit}
    (how : (task stage).owns = true → shared.inflight = true)
    (hre : stage = .release → Attended shared (.task stage :: rest))
    (h : Watched shared (.task stage :: rest)) :
    Watched (stage.step isWriteDurable outcome shared).1
      (rest ++ (stage.step isWriteDurable outcome shared).2) := by
  intro hid
  cases stage with
  | release =>
    rw [show (TaskStage.release.step isWriteDurable outcome shared).2 = [] from rfl,
      List.append_nil]
    exact ((hre rfl).of_cons rfl rfl).of_le (.inl rfl) (.inl rfl)
  | retire => exact attended_of_sees (.task .recheckMax) (by simp [step]) rfl rfl
  | recheckMax =>
    by_cases hpos : 0 < shared.pendingMax
    · exact attended_of_sees (.task .rearm) (by simp [step, hpos]) rfl rfl
    · have hnew : task .recheckReplies ∈
          rest ++ (TaskStage.recheckMax.step isWriteDurable outcome shared).2 := by
        simp [step, hpos]
      exact ⟨fun h => absurd h hpos, fun _ => ⟨_, hnew, rfl⟩⟩
  | recheckReplies =>
    by_cases hnil : shared.pendingReplies = []
    · -- Whoever recorded an index since the last look is still there.
      have hmax : 0 < shared.pendingMax → ∃ thread ∈ rest, thread.seesMax = true := by
        intro hpos
        obtain ⟨other, hmem, hse⟩ := (h hid).pendingMax hpos
        rcases List.mem_cons.mp hmem with rfl | hrs
        · cases hse
        · exact ⟨other, hrs, hse⟩
      simp only [TaskStage.step, if_pos hnil, List.append_nil]
      exact ⟨hmax, fun hne => absurd hnil hne⟩
    · exact attended_of_sees (.task .rearm) (by simp [step, hnil]) rfl rfl
  | rearm =>
    simp only [TaskStage.step] at hid
    split_ifs at hid with hfl
    exact absurd hid (by rw [hfl]; decide)
  | checkPoisoned =>
    simp only [TaskStage.step] at hid
    split_ifs at hid <;> exact absurd hid (by simp [how rfl])
  | startFlush =>
    simp only [TaskStage.step] at hid
    split_ifs at hid <;> exact absurd hid (by simp [how rfl])
  | checkFence generation maxIndex replies result =>
    simp only [TaskStage.step] at hid
    cases result <;> split_ifs at hid <;> exact absurd hid (by simp [how rfl])
  | _ => exact absurd hid (by simp [step, Shared.answer, Shared.advanceDurable, how rfl])

theorem Watched.step (hex : Exclusive s) (h : Watched s.shared s.threads)
    (hre : ReleasesAttended s l) (hst : s.step isWriteDurable l = some t) :
    Watched t.shared t.threads := by
  obtain ⟨maxIndex, replies, -, rfl⟩ | ⟨-, rfl⟩ | ⟨-, rfl⟩ |
    ⟨i, outcome, thread, rest, rfl, hget, hpe, rfl⟩ := step_cases hst
  · intro hid
    exact ((h hid).mono (List.subset_append_left _ _)).of_le (.inl rfl) (.inl rfl)
  · intro hid
    exact (h hid).mono (List.subset_append_left _ _)
  · intro hid
    exact (h hid).of_le (.inl rfl) (.inl rfl)
  · have how := hex.inflight_of_mem (List.mem_of_getElem? hget)
    have hbe : Watched s.shared (thread :: rest) :=
      fun hid => (h hid).mono hpe.subset
    cases thread with
    | submit stage => exact stage.watched_step how hbe
    | fence stage => exact stage.watched_step hbe
    | task stage =>
      refine stage.watched_step how ?_ hbe
      rintro rfl
      exact (hre hget).mono hpe.subset

/-! ## Senders are not lost -/

/-- The senders in the hands of a thread. -/
def Thread.held : Thread → List Nat
  | .submit (.record _ replies) => replies
  | .submit (.queue replies) => replies
  | .task (.checkPoisoned _ _ replies) => replies
  | .task (.refuse replies) => replies
  | .task (.startFlush _ _ replies) => replies
  | .task (.flushing _ _ _ replies) => replies
  | .task (.checkFence _ _ replies _) => replies
  | .task (.discard replies) => replies
  | .task (.advance _ replies) => replies
  | .task (.poison replies _) => replies
  | .task (.answer replies _) => replies
  | .fence (.answer replies) => replies
  | _ => []

/-- The senders that were answered, and those that wait. -/
def Shared.known (shared : Shared) : List Nat :=
  shared.answered.map Prod.fst ++ shared.pendingReplies

@[simp]
theorem Shared.known_answer (shared : Shared) (replies : List Nat) (result : Except Fault Unit) :
    (shared.answer replies result).known.Perm (shared.known ++ replies) := by
  have hfst : (replies.map fun reply => (reply, result)).map Prod.fst = replies := by
    rw [List.map_map]
    exact List.map_id replies
  simp only [Shared.known, Shared.answer, List.map_append, hfst, List.append_assoc]
  exact List.perm_append_comm.append_left _

/-- A step passes senders on. -/
theorem Thread.perm_step (isWriteDurable : Bool) (outcome : Except String Unit) (shared : Shared)
    (thread : Thread) :
    ((thread.step isWriteDurable outcome shared).1.known ++
      (thread.step isWriteDurable outcome shared).2.flatMap held).Perm
        (shared.known ++ thread.held) := by
  cases thread with
  | submit stage =>
    cases stage with
    | record =>
      simp only [step, SubmitStage.step]
      split_ifs <;> simp [held, Shared.known]
    | claim =>
      simp only [step, SubmitStage.step]
      split_ifs <;> simp [held, Shared.known]
    | _ => simp [step, SubmitStage.step, held, Shared.known]
  | fence stage =>
    cases stage with
    | answer => simp [step, FenceStage.step, held]
    | _ => simp [step, FenceStage.step, held, Shared.known]
  | task stage =>
    cases stage with
    | checkPoisoned =>
      simp only [step, TaskStage.step]
      split_ifs with _ hno
      · simp [held]
      · simp [held, hno.2]
      · simp [held]
    | recheckMax =>
      simp only [step, TaskStage.step]
      split_ifs <;> simp [held]
    | recheckReplies =>
      simp only [step, TaskStage.step]
      split_ifs <;> simp [held]
    | rearm =>
      simp only [step, TaskStage.step]
      split_ifs <;> simp [held, Shared.known]
    | startFlush =>
      simp only [step, TaskStage.step]
      split_ifs <;> simp [held, Shared.known]
    | checkFence generation maxIndex replies result =>
      simp only [step, TaskStage.step]
      cases result <;> split_ifs <;> simp [held]
    | refuse => simp [step, TaskStage.step, held]
    | discard => simp [step, TaskStage.step, held]
    | answer => simp [step, TaskStage.step, held]
    | _ =>
      simp [step, TaskStage.step, held, Shared.known, Shared.advanceDurable]

/-- Every sender that was given to `submit` was answered, waits or is in somebody's hands, and
that once. -/
def Conserved (s : State) : Prop :=
  (s.shared.known ++ s.threads.flatMap Thread.held).Perm (List.range s.shared.senders)

theorem Thread.senders_step (isWriteDurable : Bool) (outcome : Except String Unit)
    (shared : Shared) (thread : Thread) :
    (thread.step isWriteDurable outcome shared).1.senders = shared.senders := by
  cases thread with
  | submit stage =>
    cases stage <;> simp only [step, SubmitStage.step] <;> split_ifs <;> rfl
  | fence stage => cases stage <;> rfl
  | task stage =>
    cases stage with
    | checkFence generation maxIndex replies result =>
      simp only [step, TaskStage.step]
      cases result <;> split_ifs <;> rfl
    | _ =>
      simp only [step, TaskStage.step]
      try split_ifs
      all_goals rfl

theorem Conserved.step (h : Conserved s) (hst : s.step isWriteDurable l = some t) :
    Conserved t := by
  obtain ⟨maxIndex, replies, -, rfl⟩ | ⟨-, rfl⟩ | ⟨-, rfl⟩ |
    ⟨i, outcome, thread, rest, -, -, hpe, rfl⟩ := step_cases hst
  · -- The new senders are the next numbers.
    have hra : List.range (s.shared.senders + replies) =
        List.range s.shared.senders ++ List.range' s.shared.senders replies := by
      rw [List.range_eq_range', List.range_eq_range', ← List.range'_append_1, Nat.zero_add]
    change (s.shared.known ++ (s.threads ++ _).flatMap held).Perm
      (List.range (s.shared.senders + replies))
    rw [hra, List.flatMap_append, ← List.append_assoc]
    exact h.append (by simp [held])
  · change (s.shared.known ++ (s.threads ++ _).flatMap held).Perm _
    simpa [held, Conserved] using h
  · exact h
  · have hnx := thread.perm_step isWriteDurable outcome s.shared
    change ((thread.step isWriteDurable outcome s.shared).1.known ++
      (rest ++ (thread.step isWriteDurable outcome s.shared).2).flatMap held).Perm
        (List.range (thread.step isWriteDurable outcome s.shared).1.senders)
    rw [senders_step]
    calc (thread.step isWriteDurable outcome s.shared).1.known ++
          (rest ++ (thread.step isWriteDurable outcome s.shared).2).flatMap held
        _ ~ ((thread.step isWriteDurable outcome s.shared).1.known ++
            (thread.step isWriteDurable outcome s.shared).2.flatMap held) ++
            rest.flatMap held := by
          rw [List.flatMap_append, List.append_assoc]
          exact List.perm_append_comm.append_left _
        _ ~ (s.shared.known ++ thread.held) ++ rest.flatMap held :=
          hnx.append_right _
        _ ~ s.shared.known ++ s.threads.flatMap held := by
          rw [List.append_assoc]
          exact ((hpe.flatMap_right held).append_left _).symm
        _ ~ List.range s.shared.senders := h

/-! ## The coordinator at rest -/

theorem handover_of_reach (h : (machine isWriteDurable).Reach ReleasesAttended s) :
    Exclusive s ∧ Watched s.shared s.threads ∧ Conserved s := by
  refine h.invariant
    (I := fun s => Exclusive s ∧ Watched s.shared s.threads ∧ Conserved s) ?_ ?_
  · rintro s ⟨durableIndex, rfl⟩
    refine ⟨rfl, fun _ => ⟨fun hpos => ?_, fun hne => ?_⟩, .nil⟩
    · exact absurd hpos (lt_irrefl 0)
    · exact absurd rfl hne
  · rintro s l t ⟨hex, hwa, hco⟩ hre hst
    exact ⟨hex.step hst, hwa.step hex hre hst, hco.step hst⟩

/-- No `submit` call and no task is under way. -/
def State.Idle (s : State) : Prop :=
  s.shared.inflight = false ∧ ∀ thread ∈ s.threads, ∃ stage, thread = .fence stage

/-- At rest nothing is pending, and every sender was answered once, those apart that a
`fence_reset` call is about to answer. -/
theorem nothing_pending_at_rest (h : (machine isWriteDurable).Reach ReleasesAttended s)
    (hidle : s.Idle) :
    s.shared.pendingMax = 0 ∧ s.shared.pendingReplies = [] ∧
      ∀ reply < s.shared.senders, (s.shared.answered.map Prod.fst).count reply =
        if reply ∈ s.threads.flatMap Thread.held then 0 else 1 := by
  obtain ⟨-, hwa, hcn⟩ := handover_of_reach h
  have hat := hwa hidle.1
  have hmax : s.shared.pendingMax = 0 := by
    by_contra hne
    obtain ⟨thread, hmem, hse⟩ := hat.pendingMax (Nat.pos_of_ne_zero hne)
    obtain ⟨stage, rfl⟩ := hidle.2 thread hmem
    cases hse
  have hre : s.shared.pendingReplies = [] := by
    by_contra hne
    obtain ⟨thread, hmem, hse⟩ := hat.pendingReplies hne
    obtain ⟨stage, rfl⟩ := hidle.2 thread hmem
    cases hse
  refine ⟨hmax, hre, ?_⟩
  intro reply hrp
  have hone : (s.shared.answered.map Prod.fst).count reply +
      (s.threads.flatMap Thread.held).count reply = 1 := by
    have hco := hcn.count_eq reply
    rw [Shared.known, hre, List.append_nil, List.count_append] at hco
    rw [hco]
    exact List.count_eq_one_of_mem List.nodup_range (List.mem_range.mpr hrp)
  split_ifs with hhe
  · have hpos := List.count_pos_iff.mpr hhe
    omega
  · have hze := List.count_eq_zero.mpr hhe
    omega

/-- The task of a first submission, whose flush fails, up to where it has taken the work of its
second round. -/
def untilSecondRound (replies : Nat) : List Label :=
  [.submit 3 replies] ++ runs 0 9 ++ [.run 0 (.error "disk full")] ++ runs 0 6

/-- A submission that comes while the task is on its way to the poisoned exit, but looks at the
flag behind it, is refused by a task of its own. -/
theorem late_submission_is_refused :
    ∃ s, (machine false).Reach ReleasesAttended s ∧ s.Idle ∧ s.shared.senders = 2 ∧
      s.shared.pendingMax = 0 ∧ s.shared.pendingReplies = [] ∧
      ∀ reply < s.shared.senders, (s.shared.answered.map Prod.fst).count reply =
        if reply ∈ s.threads.flatMap Thread.held then 0 else 1 := by
  have hrun : ∃ s, (machine false).Reach ReleasesAttended s ∧
      (s.shared.inflight = false ∧ s.threads = [] ∧ s.shared.senders = 2) :=
    Machine.exists_reach_of_runIf
      (untilSecondRound 1 ++ [.submit 5 1] ++ runs 1 2 ++ runs 0 1 ++ runs 1 2 ++ runs 0 8)
      (show (machine false).init ⟨.new 0, []⟩ from ⟨0, rfl⟩) (by decide +kernel)
  obtain ⟨s, hre, hfl, hth, htwo⟩ := hrun
  have hid : s.Idle := ⟨hfl, by simp [hth]⟩
  exact ⟨s, hre, hid, htwo, nothing_pending_at_rest hre hid⟩

/-- A submission that finds the flag set after the task has taken its work is left behind by the
poisoned exit. -/
theorem submission_left_behind :
    ∃ s, (machine false).Reach (fun _ _ => True) s ∧ s.Idle ∧ s.threads = [] ∧
      s.shared.senders = 1 ∧ s.shared.answered = [] ∧ s.shared.pendingMax = 5 ∧
      s.shared.pendingReplies = [0] := by
  have hrun : ∃ s, (machine false).Reach (fun _ _ => True) s ∧
      (s.shared.inflight = false ∧ s.threads = [] ∧ s.shared.senders = 1 ∧
        s.shared.answered.map Prod.fst = [] ∧ s.shared.pendingMax = 5 ∧
        s.shared.pendingReplies = [0]) :=
    Machine.exists_reach_of_runIf
      (untilSecondRound 0 ++ [.submit 5 1] ++ runs 1 3 ++ runs 0 3)
      (show (machine false).init ⟨.new 0, []⟩ from ⟨0, rfl⟩) (by decide +kernel)
  obtain ⟨s, hre, hfl, hth, hse, han, hpe⟩ := hrun
  exact ⟨s, hre, ⟨hfl, by simp [hth]⟩, hth, hse,
    List.map_eq_nil_iff.mp han, hpe⟩

end DEngine.Storage.Fsync

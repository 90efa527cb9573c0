import DEngine.Storage.IoThread

/-!
# What the steps of the storage threads do

Most steps move a thread from one stage to the next and touch nothing that the others
rely on (`Quiet`). The other ones are listed with what they change (`Effect`): the
invariants of the system are proved against this list, once for every way in which the
log, the store, a watermark or an unfinished operation changes.
-/

namespace DEngine.Storage

open Library

/-- The raft thread waits for the task to be carried out. -/
def IoTask.isControl : IoTask → Bool
  | .replaceRange _ _ => true
  | .purge _ => true
  | .reset => true
  | .flush => false
  | .shutdown => false

namespace RaftStage

/-- The raft thread is in no operation that changes the log. -/
def isPlain : RaftStage → Bool
  | .idle => true
  | .flushing => true
  | .returned _ => true
  | .closed => true
  | _ => false

/-- The task that the raft thread sends next. -/
def sends : RaftStage → Option IoTask
  | .replaced truncateFrom newEntries => some (.replaceRange truncateFrom newEntries)
  | .advanced cutoff => some (.purge cutoff)
  | .cleared => some .reset
  | _ => none

/-- The tasks that the raft thread waits for. -/
def awaited : RaftStage → List IoTask
  | .waiting task => [task]
  | _ => []

end RaftStage

namespace IoStage

/-- The storage thread holds no range of the log. -/
def isSettled : IoStage → Bool
  | .select => true
  | .loadStart _ => true
  | .drain _ _ => true
  | .submit _ => true
  | _ => false

/-- The storage thread takes commands out of the channel. -/
def isReceiving : IoStage → Bool
  | .select => true
  | .drain _ _ => true
  | _ => false

theorem ne_exited_of_isReceiving {io : IoStage} (h : io.isReceiving = true) : io ≠ .exited := by
  rintro rfl
  cases h

end IoStage

/-- The fsync task holds no watermark, and no generation but the current one. -/
def TaskStage.isBare (current : Nat) : TaskStage → Bool
  | .none => true
  | .top => true
  | .loaded generation => decide (generation = current)
  | .advanced _ => true
  | _ => false

/-- The operation of the store that belongs to the step fails. -/
def IoLabel.fails {σ : Type} : IoLabel σ → Bool
  | .receive (.failed _) => true
  | .io (.failed _) => true
  | .fsync (.failed _) => true
  | _ => false

namespace LogSystem

variable {σ : Type} {L : LogStore σ} {s t : LogSystem σ}

/-- No watermark has changed, and no operation of the raft thread has moved on, unless the
storage thread is gone. -/
structure Unmarked (s t : LogSystem σ) : Prop where
  log : t.log = { s.log with poisoned := t.log.poisoned }
  pendingMax : t.pendingMax = s.pendingMax
  submitted : t.fsync.pendingMax = s.fsync.pendingMax
  generation : t.fsync.generation = s.fsync.generation
  flushed : t.flushed = s.flushed
  wipes : t.wipes = s.wipes
  resets : t.resets = s.resets
  durableEpoch : t.durableEpoch = s.durableEpoch
  exited : s.io = .exited → t.io = .exited
  commands : t.io ≠ .exited →
    t.commands.filter IoTask.isControl = s.commands.filter IoTask.isControl
  raft : t.raft = s.raft ∨ t.raft.isPlain = true ∧ (s.raft.isPlain = true ∨ t.io = .exited)
  task : t.task = s.task ∨ t.task.isBare s.fsync.generation = true ∨
    ∃ generation mark reply, s.task = .taken generation mark reply ∧
      t.task = .synced generation mark reply false

/-- Only stages, wakeups and commands that nobody waits for have changed. -/
structure Quiet (s t : LogSystem σ) : Prop extends Unmarked s t where
  log_eq : t.log = s.log
  store : t.store = s.store
  io : t.io = s.io ∨ t.io.isSettled = true
  task_eq : t.task = s.task ∨ t.task.isBare s.fsync.generation = true

/-- The task is carried out on a store that does not fail. -/
def carriedOut (L : LogStore σ) (s : LogSystem σ) : IoTask → LogSystem σ
  | .replaceRange truncateFrom newEntries =>
    let maxIdx := (newEntries.getLast?.map Entry.index).getD 0
    { s.done (.replaceRange truncateFrom newEntries) with
      store := L.replaceRange truncateFrom newEntries s.store
      pendingMax := s.pendingMax.raise ⟨maxIdx, s.wipes⟩ }
  | .purge cutoff => { s.done (.purge cutoff) with store := L.purge cutoff s.store }
  | .reset =>
    { s.done .reset with
      store := L.reset s.store, pendingMax := .zero, wipes := s.wipes + 1 }
  | .flush => s
  | .shutdown => s

/-- What a step can change. -/
inductive Effect (L : LogStore σ) (s : LogSystem σ) : IoLabel σ → LogSystem σ → Prop where
  | quiet {l : IoLabel σ} {t : LogSystem σ} : Quiet s t → Effect L s l t
  | appended {entries : List Entry} : s.raft = .idle →
      (∀ e ∈ entries, e.index < u64Max) →
      Effect L s (.append entries)
        { s with log := s.log.insertToMemory entries, notified := true }
  | truncated {truncateFrom : Nat} {newEntries : List Entry} : s.raft = .idle →
      truncateFrom ≤ s.log.maxIndex → Suffix truncateFrom newEntries →
      Effect L s (.truncate truncateFrom newEntries)
        { s with
          log := s.log.removeRange truncateFrom u64Max
          raft := .truncated truncateFrom newEntries }
  | inserted {truncateFrom : Nat} {newEntries : List Entry} :
      s.raft = .truncated truncateFrom newEntries →
      Effect L s .raft
        { s with
          log := s.log.insertToMemory newEntries, raft := .replaced truncateFrom newEntries }
  | purged {cutoff : LogId} : s.raft = .idle → cutoff.index < u64Max →
      Effect L s (.purge cutoff) { s with log := s.log.purgePrefix cutoff, raft := .purged cutoff }
  | cutoffDurable {cutoff : LogId} {durableEpoch : Nat} : s.raft = .purged cutoff →
      durableEpoch = s.durableEpoch ∨ durableEpoch = s.resets →
      Effect L s .raft
        { s with
          log := { s.log with durableIndex := max s.log.durableIndex cutoff.index }
          durableEpoch := durableEpoch
          raft := .advanced cutoff }
  | fencing : s.raft = .idle →
      Effect L s .reset
        { s with
          fsync := { s.fsync with generation := s.fsync.generation + 1 }, raft := .fencing }
  | fenced : s.raft = .fencing →
      Effect L s .raft
        { s with
          fsync := { s.fsync with pendingMax := .zero, pendingReply := false }, raft := .fenced }
  | cleared : s.raft = .fenced →
      Effect L s .raft
        { s with
          log := (s.log.reset (.ok ())).2
          resets := s.resets + 1
          durableEpoch := s.resets + 1
          raft := .cleared }
  | sent {task : IoTask} : s.raft.sends = some task → Effect L s .raft (s.send task)
  | startLoaded {turn : Turn} {outcome : Outcome σ} {start : Nat} : s.io = .loadStart turn →
      (start = s.log.durableIndex + 1 ∨ start = s.pendingMax.index + 1) →
      Effect L s (.io outcome) { s with io := .loadEnd turn start }
  | endLoaded {turn : Turn} {start : Nat} {outcome : Outcome σ} : s.io = .loadEnd turn start →
      Effect L s (.io outcome) { s with io := .readRange turn start s.log.maxIndex }
  | read {turn : Turn} {start stop : Nat} {outcome : Outcome σ} :
      s.io = .readRange turn start stop → start ≤ stop →
      Effect L s (.io outcome) { s with io := .persist turn stop (s.entriesRange start stop) }
  | persisted {turn : Turn} {stop : Nat} {entries : List Entry} {t : LogSystem σ} :
      s.io = .persist turn stop entries →
      Quiet { s with
        store := L.persistEntries entries s.store
        pendingMax := s.pendingMax.raise ⟨stop, s.wipes⟩ } t → t.io.isSettled = true →
      Effect L s (.io .ok) t
  | carried {l : IoLabel σ} {task : IoTask} {rest : List IoTask} : s.io.isReceiving = true →
      s.commands = task :: rest → task.isControl = true → l = .receive .ok ∨ l = .io .ok →
      Effect L s l (carriedOut L { s with commands := rest } task)
  | submitted {turn : Turn} {outcome : Outcome σ} : s.io = .submit turn →
      Effect L s (.io outcome)
        { s with
          fsync := { s.fsync with pendingMax := s.fsync.pendingMax.raise s.pendingMax }
          io := .signal turn }
  | signalled {turn : Turn} {outcome : Outcome σ} {fsync : FsyncCoordinator} {task : TaskStage}
      {stage : IoStage} : s.io = .signal turn → fsync.pendingMax = s.fsync.pendingMax →
      fsync.generation = s.fsync.generation → task = s.task ∨ task = .top →
      stage = .exited ∨ stage = .select →
      Effect L s (.io outcome)
        { s with fsync := fsync, task := task, pendingMax := .zero, io := stage }
  | swapped {generation : Nat} {outcome : Outcome σ} : s.task = .loaded generation →
      Effect L s (.fsync outcome)
        { s with
          fsync := { s.fsync with pendingMax := .zero }
          task := .swapped generation s.fsync.pendingMax }
  | taken {generation : Nat} {mark : Mark} {outcome : Outcome σ} :
      s.task = .swapped generation mark →
      Effect L s (.fsync outcome)
        { s with
          fsync := { s.fsync with pendingReply := false }
          task := .taken generation mark s.fsync.pendingReply }
  | synced {generation : Nat} {mark : Mark} {reply : Bool} {outcome : Outcome σ} :
      s.task = .taken generation mark reply →
      Effect L s (.fsync outcome)
        { s with flushed := L.content s.store, task := .synced generation mark reply true }
  | checked {mark : Mark} {reply : Bool} {outcome : Outcome σ} :
      s.task = .synced s.fsync.generation mark reply true →
      Effect L s (.fsync outcome) { s with task := .checked mark reply }
  | advanced {mark : Mark} {reply : Bool} {outcome : Outcome σ} {durableEpoch : Nat} :
      s.task = .checked mark reply →
      durableEpoch = s.durableEpoch ∨ mark.index ≠ 0 ∧ durableEpoch = mark.epoch →
      Effect L s (.fsync outcome)
        { s with
          log := { s.log with durableIndex := max s.log.durableIndex mark.index }
          durableEpoch := durableEpoch
          task := .advanced reply }
  /-- An operation of the store has failed. -/
  | broken {l : IoLabel σ} {t : LogSystem σ} : Unmarked s t →
      l.fails = true ∨ s.log.poisoned = true ∨
        (∃ generation mark reply, s.task = .synced generation mark reply false) →
      Effect L s l t

/-! ## Every step has one of the effects -/

variable {raft : RaftStage}

theorem quiet_stages {commands : List IoTask} {notified : Bool}
    {io : IoStage} {fsync : FsyncCoordinator} {task : TaskStage} {rechecking : Nat}
    (hra : raft = s.raft ∨ raft.isPlain = true ∧ (s.raft.isPlain = true ∨ io = .exited))
    (hcm : commands.filter IoTask.isControl = s.commands.filter IoTask.isControl)
    (hio : io = s.io ∨ io.isSettled = true ∧ s.io ≠ .exited)
    (hsu : fsync.pendingMax = s.fsync.pendingMax) (hgen : fsync.generation = s.fsync.generation)
    (hta : task = s.task ∨ task.isBare s.fsync.generation = true) :
    Quiet s { s with
      raft := raft, commands := commands, notified := notified, io := io, fsync := fsync
      task := task, rechecking := rechecking } where
  log := rfl
  pendingMax := rfl
  submitted := hsu
  generation := hgen
  flushed := rfl
  wipes := rfl
  resets := rfl
  durableEpoch := rfl
  exited := fun hex => hio.elim (·.trans hex) fun h => absurd hex h.2
  commands := fun _ => hcm
  raft := hra
  task := hta.imp_right .inl
  log_eq := rfl
  store := rfl
  io := hio.imp_right And.left
  task_eq := hta

/-- A failed operation leaves any store and a poisoned log behind. -/
theorem Quiet.unmarked_of_failed {store : σ} {poisoned : Bool}
    (h : Quiet { s with store := store, log := { s.log with poisoned := poisoned } } t) :
    Unmarked s t := { h with log := by rw [h.log_eq] }

/-- An answer reaches a waiting flush only. -/
theorem answer_raft (reply ok : Bool) {io : IoStage} :
    (s.answer reply ok).raft = s.raft ∨
      (s.answer reply ok).raft.isPlain = true ∧ (s.raft.isPlain = true ∨ io = .exited) := by
  unfold answer
  split
  · rename_i hfl
    right
    refine ⟨rfl, .inl ?_⟩
    rw [hfl.2]
    rfl
  · left
    rfl

theorem afterPersist_settled (turn : Turn) (failed : Bool) :
    (s.afterPersist turn failed).io.isSettled = true := by
  unfold afterPersist
  split
  · split <;> rfl
  · rfl
  · split <;> rfl

theorem quiet_afterPersist (hio : s.io ≠ .exited) (turn : Turn) (failed : Bool) :
    Quiet s (s.afterPersist turn failed) := by
  have hst : ∀ {stage : IoStage}, stage.isSettled = true → Quiet s { s with io := stage } :=
    fun hse => quiet_stages (.inl rfl) rfl (.inr ⟨hse, hio⟩) rfl rfl (.inl rfl)
  unfold afterPersist
  split
  · split
    · exact quiet_stages (answer_raft _ _) rfl (.inr ⟨rfl, hio⟩) rfl rfl (.inl rfl)
    · exact hst rfl
  · exact hst rfl
  · split
    · exact hst rfl
    · exact hst rfl

variable {task : IoTask}

/-- A task that the raft thread waits for is carried out, or ends the storage thread. -/
theorem handleNonWriteCmd_cases (outcome : Outcome σ) (hct : task.isControl = true) :
    outcome = .ok ∧ handleNonWriteCmd L s task outcome = (s.carriedOut L task, false) ∨
      (outcome ≠ .ok ∨ s.log.poisoned = true) ∧ ∃ store poisoned,
        handleNonWriteCmd L s task outcome =
          ({ s.done task with store := store, log := { s.log with poisoned := poisoned } },
            true) := by
  have hpo : ∀ {poisoned : Bool}, s.log.poisoned = poisoned →
      s.done task =
        { s.done task with store := s.store, log := { s.log with poisoned := poisoned } } := by
    rintro _ rfl
    rfl
  cases task with
  | flush | shutdown => cases hct
  | reset =>
    cases outcome with
    | ok => exact .inl ⟨rfl, rfl⟩
    | failed left => exact .inr ⟨.inl nofun, left, true, rfl⟩
  | purge | replaceRange =>
    by_cases hlog : s.log.poisoned = true
    · refine .inr ⟨.inr hlog, s.store, true, ?_⟩
      rw [handleNonWriteCmd.eq_def, ← hpo hlog]
      exact if_pos hlog
    · cases outcome with
      | ok => exact .inl ⟨rfl, by rw [handleNonWriteCmd, if_neg hlog]; rfl⟩
      | failed left =>
        exact .inr ⟨.inl nofun, left, true, by rw [handleNonWriteCmd, if_neg hlog]; rfl⟩

theorem done_raft (task : IoTask) :
    (s.done task).raft = s.raft ∨ (s.done task).raft.isPlain = true := by
  unfold done
  split
  · exact .inr rfl
  · exact .inl rfl

theorem carriedOut_with_io {commands : List IoTask} (task : IoTask) :
    { carriedOut L { s with commands := commands } task with io := s.io } =
      carriedOut L { s with commands := commands } task := by
  cases task <;> rfl

/-- The storage thread ends with a task that it could not carry out. -/
theorem unmarked_exited {commands : List IoTask} {store : σ}
    {poisoned : Bool} (hra : raft = s.raft ∨ raft.isPlain = true) :
    Unmarked s { s with
      raft := raft, commands := commands, store := store
      log := { s.log with poisoned := poisoned }, io := .exited } where
  log := rfl
  pendingMax := rfl
  submitted := rfl
  generation := rfl
  flushed := rfl
  wipes := rfl
  resets := rfl
  durableEpoch := rfl
  exited := fun _ => rfl
  commands := fun h => absurd rfl h
  raft := hra.imp_right fun hpl => ⟨hpl, .inr rfl⟩
  task := .inl rfl

theorem advanceDurable_eq (mark : Mark) : ∃ durableEpoch,
    (durableEpoch = s.durableEpoch ∨ mark.index ≠ 0 ∧ durableEpoch = mark.epoch) ∧
      s.advanceDurable mark =
        { s with
          log := { s.log with durableIndex := max s.log.durableIndex mark.index }
          durableEpoch := durableEpoch } := by
  unfold advanceDurable
  split
  · rename_i hlt
    refine ⟨mark.epoch, .inr ⟨by omega, rfl⟩, ?_⟩
    rw [max_eq_right hlt.le]
  · rename_i hle
    refine ⟨s.durableEpoch, .inl rfl, ?_⟩
    rw [max_eq_left (not_lt.mp hle)]

theorem raftStep_effect (h : s.raftStep = some t) : Effect L s .raft t := by
  unfold raftStep at h
  split at h
  · rename_i hra; cases h; exact .inserted hra
  · rename_i hra; cases h; exact .sent (by rw [hra]; rfl)
  · rename_i cutoff hra
    cases h
    obtain ⟨durableEpoch, hep, hadv⟩ := s.advanceDurable_eq ⟨cutoff.index, s.resets⟩
    rw [hadv]
    exact .cutoffDurable hra (hep.imp_right And.right)
  · rename_i hra; cases h; exact .sent (by rw [hra]; rfl)
  · rename_i hra; cases h; exact .fenced hra
  · rename_i hra; cases h; exact .cleared hra
  · rename_i hra; cases h; exact .sent (by rw [hra]; rfl)
  · split at h <;> cases h
    rename_i hex
    exact .quiet (quiet_stages (.inr ⟨rfl, .inr hex⟩) rfl (.inl rfl) rfl rfl (.inl rfl))
  · split at h <;> cases h
    rename_i hra hex
    refine .quiet (quiet_stages (.inr ⟨rfl, .inr hex.1⟩) ?_ (.inl rfl) rfl rfl (.inl rfl))
    rw [List.filter_filter]
    refine List.filter_congr fun task _ => ?_
    cases task <;> rfl
  · rename_i hra
    cases h
    have hpl : s.raft.isPlain = true := by rw [hra]; rfl
    exact .quiet (quiet_stages (.inr ⟨rfl, .inl hpl⟩) rfl (.inl rfl) rfl rfl (.inl rfl))
  · cases h
  · cases h

variable {l : IoLabel σ}

/-- A task out of the channel is carried out where the storage thread stands, or ends it. -/
theorem handled_effect {rest : List IoTask} (outcome : Outcome σ)
    (hre : s.io.isReceiving = true) (hcm : s.commands = task :: rest)
    (hct : task.isControl = true) (hl : l = .receive outcome ∨ l = .io outcome)
    {handled : LogSystem σ × Bool}
    (hha : handleNonWriteCmd L { s with commands := rest } task outcome = handled) :
    (handled.2 = false → Effect L s l { handled.1 with io := s.io }) ∧
      (handled.2 = true → ∀ reply,
        Effect L s l { handled.1.answer reply false with io := .exited }) := by
  obtain ⟨rfl, hca⟩ | ⟨hfa, store, poisoned, hbr⟩ :=
    handleNonWriteCmd_cases (L := L) (s := { s with commands := rest }) outcome hct
  · subst hha
    rw [hca]
    refine ⟨fun _ => ?_, nofun⟩
    rw [carriedOut_with_io]
    exact .carried hre hcm hct hl
  · subst hha
    rw [hbr]
    refine ⟨nofun, fun _ reply => .broken (unmarked_exited ?_) ?_⟩
    · dsimp only [answer]
      split
      · exact .inr rfl
      · exact done_raft (s := { s with commands := rest }) task
    · refine hfa.imp (fun hne => ?_) .inl
      cases outcome with
      | ok => exact absurd rfl hne
      | failed =>
        obtain rfl | rfl := hl
        · rfl
        · rfl

theorem isControl_of_ne (hsh : task ≠ .shutdown) (hfl : task ≠ .flush) : task.isControl = true := by
  cases task with
  | replaceRange truncateFrom newEntries | purge cutoff | reset => rfl
  | flush => exact absurd rfl hfl
  | shutdown => exact absurd rfl hsh

variable {outcome : Outcome σ}

theorem drainCommand_effect {turn : Turn} {failed : Bool} (hio : s.io = .drain turn failed) :
    Effect L s (.io outcome) (s.drainCommand L turn failed outcome) := by
  have hal : s.io ≠ .exited := by rw [hio]; nofun
  have hst : ∀ {commands : List IoTask} {stage : IoStage}, stage.isSettled = true →
      commands.filter IoTask.isControl = s.commands.filter IoTask.isControl →
      Quiet s { s with commands := commands, io := stage } := fun hse hcm =>
    quiet_stages (.inl rfl) hcm (.inr ⟨hse, hal⟩) rfl rfl (.inl rfl)
  unfold drainCommand
  split
  · split
    · exact .quiet (hst rfl rfl)
    · exact .quiet (hst rfl rfl)
  · rename_i hcm
    exact .quiet (hst rfl (by rw [hcm]; rfl))
  · rename_i hcm
    exact .quiet (hst rfl (by rw [hcm]; rfl))
  · rename_i task rest hsh hfl hcm
    have hct : task.isControl = true := isControl_of_ne hsh hfl
    obtain ⟨hca, hbr⟩ := handled_effect (L := L) outcome (by rw [hio]; rfl)
      hcm hct (.inr rfl) rfl
    dsimp only
    split
    · exact hbr ‹_› turn.reply
    · rw [← hio]
      exact hca (Bool.eq_false_iff.mpr ‹_›)

theorem receive_effect (h : s.receive L outcome = some t) : Effect L s (.receive outcome) t := by
  unfold receive at h
  split at h
  · rename_i hio
    have hal : s.io ≠ .exited := by rw [hio]; nofun
    split at h <;> cases h
    · rename_i hcm
      exact .quiet (quiet_stages (.inl rfl) (by rw [hcm]; rfl) (.inr ⟨rfl, hal⟩) rfl rfl
        (.inl rfl))
    · rename_i hcm
      exact .quiet (quiet_stages (.inl rfl) (by rw [hcm]; rfl) (.inr ⟨rfl, hal⟩) rfl rfl
        (.inl rfl))
    · rename_i task rest hsh hfl hcm
      have hct : task.isControl = true := isControl_of_ne hsh hfl
      obtain ⟨hca, hbr⟩ := handled_effect (L := L) outcome
        (by rw [hio]; rfl) hcm hct (.inl rfl) rfl
      dsimp only
      split
      · exact hbr ‹_› false
      · rw [← hio]
        exact hca (Bool.eq_false_iff.mpr ‹_›)
  · cases h

theorem ioStep_effect (h : s.ioStep L outcome = some t) : Effect L s (.io outcome) t := by
  unfold ioStep at h
  split at h
  · rename_i hio
    cases h
    refine .startLoaded hio ?_
    split
    · exact .inr rfl
    · exact .inl rfl
  · rename_i hio; cases h; exact .endLoaded hio
  · rename_i turn start stop hio
    have hal : s.io ≠ .exited := by rw [hio]; nofun
    split at h
    · cases h
      exact .quiet (quiet_afterPersist hal turn true)
    · split at h
      · cases h
        exact .quiet (quiet_afterPersist hal turn false)
      · rename_i hra
        cases h
        exact .read hio (by omega)
  · rename_i turn stop entries hio
    have hal : s.io ≠ .exited := by rw [hio]; nofun
    cases outcome with
    | ok =>
      cases h
      exact .persisted hio (quiet_afterPersist (by exact hal) turn false)
        (afterPersist_settled turn false)
    | failed =>
      cases h
      exact .broken (quiet_afterPersist (by exact hal) turn true).unmarked_of_failed
        (.inl rfl)
  · rename_i hio; cases h; exact drainCommand_effect hio
  · rename_i hio; cases h; exact .submitted hio
  · rename_i turn hio
    cases h
    refine .signalled hio rfl rfl ?_ ?_
    · split
      · exact .inl rfl
      · exact .inr rfl
    · split
      · exact .inl rfl
      · exact .inr rfl
  · cases h
  · cases h

theorem unmarked_syncFailed {generation : Nat} {mark : Mark} {reply : Bool}
    (hta : s.task = .taken generation mark reply) :
    Unmarked s { s with task := .synced generation mark reply false } where
  log := rfl
  pendingMax := rfl
  submitted := rfl
  generation := rfl
  flushed := rfl
  wipes := rfl
  resets := rfl
  durableEpoch := rfl
  exited := id
  commands := fun _ => rfl
  raft := .inl rfl
  task := .inr (.inr ⟨generation, mark, reply, hta, rfl⟩)

theorem taskStep_effect (h : s.taskStep L outcome = some t) : Effect L s (.fsync outcome) t := by
  have hba : ∀ {raft : RaftStage} {fsync : FsyncCoordinator} {task : TaskStage}
      {rechecking : Nat},
      (raft = s.raft ∨ raft.isPlain = true ∧ (s.raft.isPlain = true ∨ s.io = .exited)) →
      fsync.pendingMax = s.fsync.pendingMax → fsync.generation = s.fsync.generation →
      task.isBare s.fsync.generation = true →
      Quiet s { s with raft := raft, fsync := fsync, task := task, rechecking := rechecking } :=
    fun hra hsu hgen hta =>
      quiet_stages hra rfl (.inl rfl) hsu hgen (.inr hta)
  unfold taskStep at h
  split at h
  · cases h
  · cases h
    exact .quiet (hba (.inl rfl) rfl rfl (decide_eq_true rfl))
  · rename_i hta; cases h; exact .swapped hta
  · rename_i hta; cases h; exact .taken hta
  · rename_i generation mark reply hta
    split at h
    · cases h
      exact .quiet (hba (answer_raft _ _) rfl rfl rfl)
    · split at h
      · cases h
        exact .quiet (hba (.inl rfl) rfl rfl rfl)
      · split at h
        · cases h
          exact .broken (unmarked_syncFailed hta) (.inl rfl)
        · cases h
          exact .synced hta
  · rename_i generation mark reply ok hta
    split at h
    · cases h
      exact .quiet (hba (answer_raft _ _) rfl rfl rfl)
    · rename_i hcu
      split at h
      · rename_i hok
        cases h
        refine .checked ?_
        rw [hta, hok, not_not.mp hcu]
      · rename_i hok
        cases h
        have hqu : Quiet s.markPoisoned
            { s.markPoisoned.answer reply false with task := .top } :=
          quiet_stages (answer_raft _ _) rfl (.inl rfl) rfl rfl (.inr rfl)
        refine .broken hqu.unmarked_of_failed (.inr (.inr ⟨generation, mark, reply, ?_⟩))
        rw [hta, Bool.eq_false_iff.mpr hok]
  · rename_i mark reply hta
    cases h
    obtain ⟨durableEpoch, hep, hadv⟩ := s.advanceDurable_eq mark
    rw [hadv]
    exact .advanced hta hep
  · cases h
    exact .quiet (hba (answer_raft _ _) rfl rfl rfl)

/-- Every step has one of the effects. -/
theorem step_effect (h : s.step L l = some t) : Effect L s l t := by
  have hra : ∀ {raft : RaftStage} {commands : List IoTask}, s.raft = .idle →
      raft.isPlain = true →
      commands.filter IoTask.isControl = s.commands.filter IoTask.isControl →
      Quiet s { s with raft := raft, commands := commands } := fun hid hpl hcm =>
    quiet_stages (.inr ⟨hpl, .inl (by rw [hid]; rfl)⟩) hcm (.inl rfl) rfl rfl (.inl rfl)
  cases l with
  | append =>
    obtain ⟨⟨hid, hbo⟩, h⟩ := Option.ite_none_right_eq_some.mp h
    unfold appendEntries at h
    split at h
    · cases h
      exact .quiet (quiet_stages (.inl rfl) rfl (.inl rfl) rfl rfl (.inl rfl))
    · cases h
      exact .appended hid hbo
  | truncate =>
    obtain ⟨⟨hid, hmax, hsuf⟩, h⟩ := Option.ite_none_right_eq_some.mp h
    cases h
    exact .truncated hid hmax hsuf
  | purge =>
    obtain ⟨⟨hid, hbo⟩, h⟩ := Option.ite_none_right_eq_some.mp h
    cases h
    exact .purged hid hbo
  | reset =>
    obtain ⟨hid, h⟩ := Option.ite_none_right_eq_some.mp h
    cases h
    exact .fencing hid
  | flush =>
    obtain ⟨hid, h⟩ := Option.ite_none_right_eq_some.mp h
    unfold flush at h
    split at h
    · cases h
      exact .quiet (hra hid rfl rfl)
    · cases h
      exact .quiet (hra hid rfl (by simp [List.filter_append, IoTask.isControl]))
  | close =>
    obtain ⟨hid, h⟩ := Option.ite_none_right_eq_some.mp h
    cases h
    exact .quiet (hra hid rfl (by simp [List.filter_append, IoTask.isControl]))
  | raft => exact raftStep_effect h
  | wake =>
    obtain ⟨⟨hio, -⟩, h⟩ := Option.ite_none_right_eq_some.mp h
    cases h
    exact .quiet (quiet_stages (.inl rfl) rfl (.inr ⟨rfl, by rw [hio]; nofun⟩) rfl rfl (.inl rfl))
  | receive => exact receive_effect h
  | timer =>
    obtain ⟨hio, h⟩ := Option.ite_none_right_eq_some.mp h
    cases h
    exact .quiet (quiet_stages (.inl rfl) rfl (.inr ⟨rfl, by rw [hio]; nofun⟩) rfl rfl (.inl rfl))
  | io => exact ioStep_effect h
  | fsync => exact taskStep_effect h
  | recheck =>
    obtain ⟨-, h⟩ := Option.ite_none_left_eq_some.mp h
    split at h
    · cases h
      exact .quiet (quiet_stages (.inl rfl) rfl (.inl rfl) rfl rfl (.inr rfl))
    · cases h
      exact .quiet (quiet_stages (.inl rfl) rfl (.inl rfl) rfl rfl (.inl rfl))

/-! ## One task at a time -/

/-- While the storage thread lives, the channel holds the task that the raft thread waits for. -/
def Orderly (s : LogSystem σ) : Prop :=
  s.io ≠ .exited → s.commands.filter IoTask.isControl = s.raft.awaited

theorem awaited_of_isPlain (h : raft.isPlain = true) : raft.awaited = [] := by
  cases raft <;> first | rfl | cases h

theorem awaited_of_sends (h : raft.sends = some task) :
    raft.awaited = [] ∧ task.isControl = true := by
  cases raft <;> cases h <;> exact ⟨rfl, rfl⟩

theorem Orderly.of_stages (hs : Orderly s) (hcm : t.commands = s.commands)
    (hra : t.raft.awaited = s.raft.awaited) (hio : s.io = .exited → t.io = .exited) :
    Orderly t := by
  intro hal
  rw [hcm, hra]
  exact hs fun hex => hal (hio hex)

theorem Orderly.unmarked (hs : Orderly s) (h : Unmarked s t) : Orderly t := by
  intro hal
  rw [h.commands hal, hs fun hex => hal (h.exited hex)]
  obtain hra | ⟨hpl, hbe⟩ := h.raft
  · rw [hra]
  · rw [awaited_of_isPlain hpl, awaited_of_isPlain (hbe.resolve_right hal)]

/-- The task at the head of the channel is the one that the raft thread waits for. -/
theorem Orderly.waiting (hs : Orderly s) {rest : List IoTask}
    (hre : s.io.isReceiving = true) (hcm : s.commands = task :: rest)
    (hct : task.isControl = true) : s.raft = .waiting task ∧ rest.filter IoTask.isControl = [] := by
  have hal := IoStage.ne_exited_of_isReceiving hre
  have hfi := hs hal
  rw [hcm, List.filter_cons_of_pos hct] at hfi
  generalize s.raft = raft at hfi ⊢
  cases raft with
  | waiting =>
    obtain ⟨rfl, hrs⟩ := List.cons_eq_cons.mp hfi
    exact ⟨rfl, hrs⟩
  | _ => cases hfi

/-- The raft thread goes on when the task that it waits for is done. -/
theorem done_of_waiting (hwa : s.raft = .waiting task) (rest : List IoTask) :
    ({ s with commands := rest } : LogSystem σ).done task =
      { s with commands := rest, raft := .idle } := by
  rw [done, if_pos hwa]

theorem carriedOut_commands (task : IoTask) : (s.carriedOut L task).commands = s.commands := by
  cases task <;> rfl

theorem carriedOut_io (task : IoTask) : (s.carriedOut L task).io = s.io := by
  cases task <;> rfl

theorem carriedOut_raft (hct : task.isControl = true)
    (hra : s.raft = .waiting task) : (s.carriedOut L task).raft = .idle := by
  have hdn : (s.done task).raft = .idle := if_pos hra
  cases task with
  | flush | shutdown => cases hct
  | _ => exact hdn

theorem Orderly.effect (hs : Orderly s) (h : Effect L s l t) : Orderly t := by
  have hra : ∀ {raft}, s.raft = raft → raft.awaited = [] → s.raft.awaited = [] := by
    rintro _ rfl
    exact id
  cases h with
  | quiet h => exact hs.unmarked h.toUnmarked
  | broken h => exact hs.unmarked h
  | appended => exact hs.of_stages rfl rfl id
  | truncated hid => exact hs.of_stages rfl (hra hid rfl).symm id
  | inserted htr => exact hs.of_stages rfl (hra htr rfl).symm id
  | purged hid => exact hs.of_stages rfl (hra hid rfl).symm id
  | cutoffDurable hpu => exact hs.of_stages rfl (hra hpu rfl).symm id
  | fencing hid => exact hs.of_stages rfl (hra hid rfl).symm id
  | fenced hfe => exact hs.of_stages rfl (hra hfe rfl).symm id
  | cleared hfn => exact hs.of_stages rfl (hra hfn rfl).symm id
  | sent hse =>
    intro hal
    obtain ⟨hno, hct⟩ := awaited_of_sends hse
    have hbe := hs hal
    rw [hno] at hbe
    dsimp only [send, RaftStage.awaited]
    rw [List.filter_append, hbe, List.filter_cons_of_pos hct]
    rfl
  | startLoaded hio | endLoaded hio | read hio =>
    exact hs.of_stages rfl rfl fun h => by rw [hio] at h; cases h
  | persisted hio hqu =>
    refine Orderly.unmarked ?_ hqu.toUnmarked
    exact hs.of_stages rfl rfl id
  | @carried _ task rest hre hcm hct =>
    intro _
    obtain ⟨hwa, hrs⟩ := hs.waiting hre hcm hct
    have hid := carriedOut_raft (L := L) (s := { s with commands := rest }) hct hwa
    rw [carriedOut_commands, hid]
    exact hrs
  | submitted hio | signalled hio => exact hs.of_stages rfl rfl fun h => by rw [hio] at h; cases h
  | swapped | taken | synced | checked | advanced => exact hs.of_stages rfl rfl id

end LogSystem

end DEngine.Storage

import DEngine.Storage.Durability

/-!
# What a flush answers

A flush that returns successfully has made every entry of the log durable. Its channel
passes from the command queue to a turn of the storage thread, to the coordinator and to a
round of the fsync task. It is in one place at a time, and only while the raft thread
waits; so the log stays the same all the way, and each place adds what the next one needs.
-/

namespace DEngine.Storage

open Library

/-- Every entry of the log is held. -/
def Full (content : OrderedMap Entry) (log : BufferedRaftLog) : Prop :=
  content.Covers log.entries log.maxIndex

namespace IoStage

/-- The turn carries the channel of a waiting flush. -/
def reply : IoStage → Bool
  | .loadStart turn => turn.reply
  | .loadEnd turn _ => turn.reply
  | .readRange turn _ _ => turn.reply
  | .persist turn _ _ => turn.reply
  | .drain turn _ => turn.reply
  | .submit turn => turn.reply
  | .signal turn => turn.reply
  | .select => false
  | .exited => false

/-- A turn with a waiting flush hands over a watermark only behind a catch-up that has read the
whole log. -/
def Answering (content : OrderedMap Entry) (log : BufferedRaftLog) : IoStage → Prop
  | .loadStart turn => turn.kind = .safetyNet → turn.reply = false
  | .loadEnd turn _ => turn.kind = .safetyNet → turn.reply = false
  | .readRange turn _ stop => (turn.kind = .safetyNet → turn.reply = false) ∧
      (turn.kind = .catchUp → turn.reply = true → stop = log.maxIndex)
  | .persist turn stop _ => (turn.kind = .safetyNet → turn.reply = false) ∧
      (turn.kind = .catchUp → turn.reply = true → stop = log.maxIndex)
  | .drain _ persistFailed => persistFailed = false
  | .submit turn => turn.reply = true → Full content log
  | .signal turn => turn.reply = true → Full content log
  | .select => True
  | .exited => True

/-- Nothing depends on the log while no flush waits. -/
theorem Answering.of_silent {content content' : OrderedMap Entry} {log log' : BufferedRaftLog}
    {io : IoStage} (h : io.Answering content log) (hsi : io.reply = false) :
    io.Answering content' log' := by
  have hnot : ∀ {P : Prop}, io.reply = true → P := fun hre =>
    absurd (hsi.symm.trans hre) Bool.false_ne_true
  cases io with
  | readRange turn start stop | persist turn stop entries => exact ⟨h.1, fun _ => hnot⟩
  | submit turn | signal turn => exact hnot
  | _ => exact h

/-- The stages keep what they rely on when the store only gains what is in memory. -/
theorem Answering.of_full {content content' : OrderedMap Entry} {log log' : BufferedRaftLog}
    {io : IoStage} (h : io.Answering content log) (hmax : log'.maxIndex = log.maxIndex)
    (hfu : Full content log → Full content' log') : io.Answering content' log' := by
  cases io with
  | readRange turn start stop | persist turn stop entries =>
    exact ⟨h.1, fun hk hr => (h.2 hk hr).trans hmax.symm⟩
  | submit turn | signal turn => exact fun hr => hfu (h hr)
  | _ => exact h

end IoStage

namespace TaskStage

/-- The round carries the channel of a waiting flush. -/
def reply : TaskStage → Bool
  | .taken _ _ reply => reply
  | .synced _ _ reply _ => reply
  | .checked _ reply => reply
  | .advanced reply => reply
  | _ => false

/-- The round carries the channel of a waiting flush behind its own flush of the store. -/
def syncedReply : TaskStage → Bool
  | .synced _ _ reply _ => reply
  | .checked _ reply => reply
  | .advanced reply => reply
  | _ => false

theorem reply_of_syncedReply {task : TaskStage} (h : task.syncedReply = true) :
    task.reply = true := by
  cases task <;> first | exact h | cases h

end TaskStage

namespace LogSystem

variable {σ : Type} {L : LogStore σ} {s t : LogSystem σ}

/-- The channels of waiting flushes, wherever they are. -/
def replies (s : LogSystem σ) : Nat :=
  s.commands.count .flush + s.io.reply.toNat + s.fsync.pendingReply.toNat + s.task.reply.toNat

/-- One flush waits at a time, and each place that its channel has reached knows enough. -/
structure Answered (L : LogStore σ) (s : LogSystem σ) : Prop where
  single : s.replies ≤ if s.raft = .flushing then 1 else 0
  turn : s.io.Answering (L.content s.store) s.log
  stored : s.fsync.pendingReply = true ∨ s.task.reply = true → Full (L.content s.store) s.log
  synced : s.task.syncedReply = true → Full s.flushed s.log
  returned : s.raft = .returned true → Full (L.content s.store) s.log ∧ Full s.flushed s.log

/-- Without a waiting flush there is no channel. -/
theorem Answered.silent (hs : Answered L s) (hra : s.raft ≠ .flushing) :
    s.commands.count .flush = 0 ∧ s.io.reply = false ∧ s.fsync.pendingReply = false ∧
      s.task.reply = false := by
  have hsi := hs.single
  rw [if_neg hra, Nat.le_zero, replies] at hsi
  simp only [Nat.add_eq_zero_iff, Bool.toNat_eq_zero] at hsi
  obtain ⟨⟨⟨hco, htu⟩, hpe⟩, hro⟩ := hsi
  exact ⟨hco, htu, hpe, hro⟩

/-- No channel is left when the raft thread moves on. -/
theorem Answered.of_none (hs : Answered L s) (htu : s.io.reply = false)
    (hpe : s.fsync.pendingReply = false) (hro : s.task.reply = false)
    (hra : t.raft ≠ .returned true) (hio : t.io = s.io) (hta : t.task = s.task)
    (hre : t.fsync.pendingReply = true → s.fsync.pendingReply = true)
    (hcm : t.commands.count .flush = 0) : Answered L t := by
  have hpe' : t.fsync.pendingReply = false := by
    rw [Bool.eq_false_iff]
    exact fun h => absurd (hpe.symm.trans (hre h)) Bool.false_ne_true
  have hro' : t.task.reply = false := by rw [hta, hro]
  exact {
    single := by
      have hze : t.replies = 0 := by
        rw [replies, hcm, hio, htu, hpe', hro']
        rfl
      rw [hze]
      exact Nat.zero_le _
    turn := by
      rw [hio]
      exact hs.turn.of_silent htu
    stored := by
      rw [hpe', hro']
      rintro (h | h) <;> cases h
    synced := fun h =>
      absurd (hro'.symm.trans (TaskStage.reply_of_syncedReply h)) Bool.false_ne_true
    returned := fun h => absurd h hra }

/-- A step of the raft thread outside a flush. -/
theorem Answered.of_silent (hs : Answered L s) (hra : s.raft ≠ .flushing)
    (hra' : t.raft ≠ .returned true) (hio : t.io = s.io) (hta : t.task = s.task)
    (hre : t.fsync.pendingReply = true → s.fsync.pendingReply = true)
    (hcm : t.commands.count .flush ≤ s.commands.count .flush) : Answered L t := by
  obtain ⟨hco, htu, hpe, hro⟩ := hs.silent hra
  exact hs.of_none htu hpe hro hra' hio hta hre (by omega)

/-- A step that moves the channel on, or does not touch it. -/
theorem Answered.of_moves (hs : Answered L s) (hra : t.raft = s.raft)
    (hre : t.replies ≤ s.replies)
    (hret : s.raft = .returned true → Full (L.content t.store) t.log ∧ Full t.flushed t.log)
    (htu : t.io.Answering (L.content t.store) t.log)
    (hpe : t.fsync.pendingReply = true ∨ t.task.reply = true →
      Full (L.content t.store) t.log)
    (hsy : t.task.syncedReply = true → Full t.flushed t.log) : Answered L t where
  single := by
    rw [hra]
    exact hre.trans hs.single
  turn := htu
  stored := hpe
  synced := hsy
  returned := by
    rw [hra]
    exact hret

/-- A step of the storage thread to another stage, which may drop commands. -/
theorem Answered.toStage (hs : Answered L s) {reply : Bool} (hre : s.io.reply = reply)
    {commands : List IoTask} {stage : IoStage}
    (hle : commands.count .flush + stage.reply.toNat ≤ s.commands.count .flush + reply.toNat)
    (hst : stage.Answering (L.content s.store) s.log) :
    Answered L { s with commands := commands, io := stage } := by
  refine hs.of_moves rfl ?_ hs.returned hst hs.stored hs.synced
  simp only [replies, hre]
  omega

/-- A round answers the flush whose channel it carries. -/
theorem Answered.answer (hs : Answered L s) {reply ok : Bool} (hre : s.task.reply = reply)
    (hok : reply = true → ok = true → Full s.flushed s.log) :
    Answered L { s.answer reply ok with task := .top } := by
  have hrp : LogSystem.replies { s.answer reply ok with task := .top } + reply.toNat =
      s.replies := by
    simp only [replies, hre]
    rfl
  have hst : s.fsync.pendingReply = true ∨ false = true → Full (L.content s.store) s.log := by
    rintro (h | h)
    · exact hs.stored (.inl h)
    · cases h
  by_cases hwa : reply = true ∧ s.raft = .flushing
  · obtain ⟨rfl, hfl⟩ := hwa
    have hsi := hs.single
    rw [if_pos hfl, ← hrp] at hsi
    have hze : LogSystem.replies { s.answer true ok with task := .top } = 0 :=
      Nat.le_zero.mp (Nat.le_of_succ_le_succ hsi)
    have hra : (s.answer true ok).raft = .returned ok := if_pos ⟨rfl, hfl⟩
    refine ⟨by rw [hze]; exact Nat.zero_le _, hs.turn, hst, nofun, ?_⟩
    intro hret
    cases hra.symm.trans hret
    exact ⟨hs.stored (.inr hre), hok rfl rfl⟩
  · have hra : (s.answer reply ok).raft = s.raft := if_neg hwa
    have hle := Nat.le.intro hrp
    exact hs.of_moves hra hle hs.returned hs.turn hst nofun

/-! ## The storage thread -/

variable {turn : Turn}

/-- A turn with nothing left to store goes on. -/
theorem Answered.afterPersist (hs : Answered L s) (hre : s.io.reply = turn.reply)
    (hsa : turn.kind = .safetyNet → turn.reply = false)
    (hca : turn.kind = .catchUp → turn.reply = true → Full (L.content s.store) s.log) :
    Answered L (s.afterPersist turn false) := by
  unfold LogSystem.afterPersist
  split
  · rw [if_neg Bool.false_ne_true]
    exact hs.toStage hre le_rfl rfl
  · rename_i hki
    exact hs.toStage hre le_rfl (hca hki)
  · rename_i hki
    split
    · exact hs.toStage hre le_rfl fun hr =>
        absurd ((hsa hki).symm.trans hr) Bool.false_ne_true
    · exact hs.toStage hre (Nat.add_le_add_left (Nat.zero_le _) _) trivial

/-- A task is carried out while no flush waits. -/
theorem Answered.carried (hord : Orderly s) (hs : Answered L s) {task : IoTask}
    {rest : List IoTask} (hre : s.io.isReceiving = true)
    (hcm : s.commands = task :: rest) (hct : task.isControl = true) :
    Answered L (carriedOut L { s with commands := rest } task) := by
  obtain ⟨hwa, -⟩ := hord.waiting hre hcm hct
  have hid := carriedOut_raft (L := L) (s := { s with commands := rest }) hct hwa
  have hco : rest.count .flush ≤ s.commands.count .flush := by
    rw [hcm]
    exact List.count_le_count_cons
  refine hs.of_silent (by rw [hwa]; nofun) (by rw [hid]; nofun) (carriedOut_io task) ?_ ?_ ?_
  · cases task <;> rfl
  · cases task <;> exact id
  · rw [carriedOut_commands]
    exact hco

theorem handleNonWriteCmd_ok {task : IoTask} (hso : s.log.poisoned = false)
    (hct : task.isControl = true) :
    handleNonWriteCmd L s task .ok = (s.carriedOut L task, false) := by
  obtain ⟨-, h⟩ | ⟨hne | hpo, -⟩ := handleNonWriteCmd_cases (L := L) (s := s) .ok hct
  · exact h
  · exact absurd rfl hne
  · exact absurd (hso.symm.trans hpo) Bool.false_ne_true

theorem Answered.drainCommand (hord : Orderly s) (hs : Answered L s)
    (hso : s.log.poisoned = false) {failed : Bool}
    (hio : s.io = .drain turn failed) : Answered L (s.drainCommand L turn failed .ok) := by
  have htu := hs.turn
  have hre : s.io.reply = turn.reply := by rw [hio, IoStage.reply]
  rw [hio] at htu
  obtain rfl : failed = false := htu
  unfold LogSystem.drainCommand
  split
  · split
    · exact hs.toStage hre le_rfl nofun
    · rename_i hnot
      exact hs.toStage hre le_rfl fun hr => absurd ⟨hr, Bool.false_ne_true⟩ hnot
  · rename_i rest hcm
    refine hs.toStage hre ?_ rfl
    rw [hcm]
    exact Nat.add_le_add_right List.count_le_count_cons _
  · rename_i rest hcm
    refine hs.toStage hre ?_ rfl
    rw [hcm, List.count_cons_self]
    exact Nat.le_add_right _ _
  · rename_i task rest hsh hfl hcm
    have hct := isControl_of_ne hsh hfl
    have hha := handleNonWriteCmd_ok (L := L) (s := { s with commands := rest }) hso hct
    dsimp only
    rw [hha, if_neg Bool.false_ne_true, ← hio, carriedOut_with_io]
    exact hs.carried hord (by rw [hio]; rfl) hcm hct

theorem Answered.receive (hord : Orderly s) (hs : Answered L s)
    (hso : s.log.poisoned = false) (h : s.receive L .ok = some t) : Answered L t := by
  obtain ⟨hio, h⟩ := Option.ite_none_right_eq_some.mp h
  have hre : s.io.reply = false := by rw [hio, IoStage.reply]
  split at h <;> cases h
  · rename_i rest hcm
    refine hs.toStage hre ?_ nofun
    rw [hcm]
    exact Nat.add_le_add_right List.count_le_count_cons _
  · rename_i rest hcm
    refine hs.toStage hre ?_ nofun
    rw [hcm, List.count_cons_self]
    rfl
  · rename_i task rest hsh hfl hcm
    have hct := isControl_of_ne hsh hfl
    have hha := handleNonWriteCmd_ok (L := L) (s := { s with commands := rest }) hso hct
    dsimp only
    rw [hha, if_neg Bool.false_ne_true, ← hio, carriedOut_with_io]
    exact hs.carried hord (by rw [hio]; rfl) hcm hct

/-- What the storage thread has read is stored. -/
theorem Answered.persisted (htr : Truthful L s) (hs : Answered L s)
    {stop : Nat} {entries : List Entry} (hio : s.io = .persist turn stop entries) :
    Answered L (LogSystem.afterPersist
      { s with
        store := L.persistEntries entries s.store
        pendingMax := s.pendingMax.raise ⟨stop, s.wipes⟩ } turn false) := by
  have htu := hs.turn
  have hfl := htr.flight
  rw [hio] at htu hfl
  have hfu : Full (L.content s.store) s.log →
      Full (L.content (L.persistEntries entries s.store)) s.log := by
    intro h
    rw [L.content_persistEntries]
    exact OrderedMap.Covers.insertBy_content Entry.index h fun e he => (hfl.2 e he).2.2
  have hst : Answered L { s with
      store := L.persistEntries entries s.store
      pendingMax := s.pendingMax.raise ⟨stop, s.wipes⟩ } :=
    hs.of_moves rfl le_rfl (fun h => (hs.returned h).imp_left hfu) (hs.turn.of_full rfl hfu)
      (fun h => hfu (hs.stored h)) hs.synced
  refine hst.afterPersist (by rw [hio]; rfl) htu.1 fun hki hr => ?_
  refine (htr.persisted hio).stored.mono ?_
  rw [← htu.2 hki hr]
  simp only [reached, Mark.index_raise]
  omega

/-- The channel is left with the coordinator. -/
theorem Answered.signalled (hs : Answered L s) (hio : s.io = .signal turn) :
    Answered L { s with
      fsync :=
        { s.fsync with pendingReply := s.fsync.pendingReply || turn.reply, inflight := true }
      task := if s.fsync.inflight then s.task else .top
      pendingMax := .zero
      io := if turn.seenShutdown then .exited else .select } := by
  have htu := hs.turn
  rw [hio] at htu
  have hre : s.io.reply = turn.reply := by rw [hio, IoStage.reply]
  have hor : ∀ a b : Bool, (a || b).toNat ≤ a.toNat + b.toNat := by decide
  have hta : (if s.fsync.inflight then s.task else .top).reply.toNat ≤ s.task.reply.toNat := by
    split
    · exact le_rfl
    · exact Nat.zero_le _
  have hst : (if turn.seenShutdown then IoStage.exited else .select).reply.toNat = 0 := by
    split <;> rfl
  refine hs.of_moves rfl ?_ hs.returned ?_ ?_ ?_
  · have := hor s.fsync.pendingReply turn.reply
    simp only [replies, hre, hst]
    omega
  · dsimp only
    split <;> trivial
  · rintro (hpe | hro)
    · obtain hpe | hr := (Bool.or_eq_true _ _).mp hpe
      · exact hs.stored (.inl hpe)
      · exact htu hr
    · dsimp only at hro
      split at hro
      · exact hs.stored (.inr hro)
      · cases hro
  · intro hsy
    dsimp only at hsy
    split at hsy
    · exact hs.synced hsy
    · cases hsy

theorem Answered.ioStep (hord : Orderly s) (htr : Truthful L s) (hs : Answered L s)
    (h : s.ioStep L .ok = some t) : Answered L t := by
  have htu := hs.turn
  have hfl := htr.flight
  unfold LogSystem.ioStep at h
  split at h
  · rename_i turn hio
    rw [hio] at htu
    cases h
    exact hs.toStage (by rw [hio]; rfl) le_rfl htu
  · rename_i turn start hio
    rw [hio] at htu
    cases h
    exact hs.toStage (by rw [hio]; rfl) le_rfl ⟨htu, fun _ _ => rfl⟩
  · rename_i turn start stop hio
    rw [hio] at htu hfl
    have hre : s.io.reply = turn.reply := by rw [hio, IoStage.reply]
    rw [htr.sound, if_neg Bool.false_ne_true] at h
    split at h
    · rename_i hra
      cases h
      refine hs.afterPersist hre htu.1 fun hki hr => ?_
      have hsp : stop = s.log.maxIndex := htu.2 hki hr
      intro i e he hi
      by_cases hst : start ≤ i
      · exfalso
        obtain hlt | hnil := hra
        · omega
        · have hmem : e ∈ s.entriesRange start stop := List.mem_map.mpr
            ⟨(i, e), (OrderedMap.mem_range_iff _ _ _ _ _).mpr ⟨he, hst, hsp ▸ hi⟩, rfl⟩
          rw [hnil] at hmem
          cases hmem
      · exact hfl i e he (by omega)
    · cases h
      exact hs.toStage (by rw [hio]; rfl) le_rfl htu
  · rename_i turn stop entries hio
    cases h
    exact hs.persisted htr hio
  · rename_i turn failed hio
    cases h
    exact hs.drainCommand hord htr.sound hio
  · rename_i turn hio
    rw [hio] at htu
    cases h
    refine hs.of_moves rfl ?_ hs.returned htu hs.stored hs.synced
    simp only [replies, hio]
    exact le_rfl
  · rename_i turn hio
    rw [hio] at htu
    cases h
    exact hs.signalled hio
  · cases h
  · cases h

/-! ## The fsync task -/

theorem Answered.taskStep (htr : Truthful L s) (hs : Answered L s)
    (h : s.taskStep L .ok = some t) : Answered L t := by
  have hmo : ∀ {fsync : FsyncCoordinator} {task : TaskStage} {rechecking : Nat},
      fsync.pendingReply.toNat + task.reply.toNat ≤
        s.fsync.pendingReply.toNat + s.task.reply.toNat →
      (fsync.pendingReply = true ∨ task.reply = true →
        s.fsync.pendingReply = true ∨ s.task.reply = true) →
      (task.syncedReply = true → s.task.syncedReply = true) →
      Answered L { s with fsync := fsync, task := task, rechecking := rechecking } := by
    intro fsync task rechecking hle hst hsy
    refine hs.of_moves rfl ?_ hs.returned hs.turn
      (fun h => hs.stored (hst h)) fun h => hs.synced (hsy h)
    simp only [replies]
    omega
  unfold LogSystem.taskStep at h
  split at h
  · cases h
  · rename_i hta
    cases h
    refine hmo (Nat.le_add_right _ _) ?_ nofun
    exact fun h => h.imp_right nofun
  · rename_i generation hta
    cases h
    refine hmo (Nat.le_add_right _ _) ?_ nofun
    exact fun h => h.imp_right nofun
  · rename_i generation mark hta
    cases h
    refine hmo ?_ ?_ nofun
    · simp only [TaskStage.reply, Bool.toNat_false]
      omega
    · rintro (hnot | hpe)
      · cases hnot
      · exact .inl hpe
  · rename_i generation mark reply hta
    rw [htr.sound, if_neg Bool.false_ne_true] at h
    have hre : s.task.reply = reply := by rw [hta, TaskStage.reply]
    split at h
    · cases h
      refine hmo (Nat.le_add_right _ _) ?_ nofun
      exact fun h => h.imp_right nofun
    · have hst : reply = true → Full (L.content s.store) s.log := fun hr =>
        hs.stored (.inr (hre.trans hr))
      cases h
      refine hs.of_moves rfl ?_ (fun h => ⟨(hs.returned h).1, (hs.returned h).1⟩) hs.turn ?_ hst
      · simp only [replies, hre]
        exact le_rfl
      · exact fun h => hs.stored (h.imp_right hre.trans)
  · rename_i generation mark reply ok hta
    have hre : s.task.reply = reply := by rw [hta, TaskStage.reply]
    have hsy : s.task.syncedReply = reply := by rw [hta, TaskStage.syncedReply]
    split at h
    · cases h
      exact hs.answer hre nofun
    · split at h
      · cases h
        refine hmo ?_ (fun h => h.imp_right hre.trans) hsy.trans
        rw [hre]
        exact le_rfl
      · rename_i hok
        rw [Bool.eq_false_iff.mpr hok] at hta
        exact absurd hta (htr.flushing generation mark reply)
  · rename_i mark reply hta
    have hre : s.task.reply = reply := by rw [hta, TaskStage.reply]
    have hsy : s.task.syncedReply = reply := by rw [hta, TaskStage.syncedReply]
    cases h
    obtain ⟨durableEpoch, -, hadv⟩ := s.advanceDurable_eq mark
    rw [hadv]
    refine hs.of_moves rfl ?_ hs.returned ?_
      (fun h => hs.stored (h.imp_right hre.trans)) fun h => hs.synced (hsy.trans h)
    · simp only [replies, hre]
      exact le_rfl
    · exact hs.turn.of_full rfl id
  · rename_i reply hta
    cases h
    refine hs.answer (by rw [hta, TaskStage.reply]) fun hr _ => hs.synced ?_
    rw [hta]
    exact hr

/-! ## The raft thread -/

theorem Answered.raftStep (hs : Answered L s) (h : s.raftStep = some t) : Answered L t := by
  have hra : ∀ {raft}, s.raft = raft → raft ≠ .flushing → s.raft ≠ .flushing := by
    rintro _ rfl
    exact id
  have hco : ∀ {task : IoTask}, task ≠ .flush →
      (s.commands ++ [task]).count .flush ≤ s.commands.count .flush := by
    intro task hne
    rw [List.count_append, List.count_singleton, if_neg (by simpa using hne)]
    exact le_rfl
  unfold LogSystem.raftStep at h
  split at h
  · rename_i htr
    cases h
    exact hs.of_silent (hra htr nofun) nofun rfl rfl id le_rfl
  · rename_i hrp
    cases h
    exact hs.of_silent (hra hrp nofun) nofun rfl rfl id (hco nofun)
  · rename_i cutoff hpu
    cases h
    obtain ⟨durableEpoch, -, hadv⟩ := s.advanceDurable_eq ⟨cutoff.index, s.resets⟩
    rw [hadv]
    exact hs.of_silent (hra hpu nofun) nofun rfl rfl id le_rfl
  · rename_i hadv
    cases h
    exact hs.of_silent (hra hadv nofun) nofun rfl rfl id (hco nofun)
  · rename_i hfe
    cases h
    exact hs.of_silent (hra hfe nofun) nofun rfl rfl nofun le_rfl
  · rename_i hfn
    cases h
    exact hs.of_silent (hra hfn nofun) nofun rfl rfl id le_rfl
  · rename_i hcl
    cases h
    exact hs.of_silent (hra hcl nofun) nofun rfl rfl id (hco nofun)
  · rename_i hwa
    obtain ⟨-, h⟩ := Option.ite_none_right_eq_some.mp h
    cases h
    exact hs.of_silent (hra hwa nofun) nofun rfl rfl id le_rfl
  · rename_i hfl
    obtain ⟨⟨-, hmem⟩, h⟩ := Option.ite_none_right_eq_some.mp h
    cases h
    have hsi := hs.single
    have hpos : 0 < s.commands.count .flush := List.count_pos_iff.mpr hmem
    rw [if_pos hfl, replies] at hsi
    have hre : s.io.reply.toNat + s.fsync.pendingReply.toNat + s.task.reply.toNat = 0 := by
      omega
    simp only [Nat.add_eq_zero_iff, Bool.toNat_eq_zero] at hre
    obtain ⟨⟨htu, hpe⟩, hro⟩ := hre
    refine hs.of_none htu hpe hro nofun rfl rfl id (List.count_eq_zero.mpr ?_)
    exact fun h => absurd rfl (of_decide_eq_true (List.mem_filter.mp h).2)
  · rename_i hret
    cases h
    exact hs.of_silent (hra hret nofun) nofun rfl rfl id le_rfl
  · cases h
  · cases h

theorem Answered.flush (htr : Truthful L s) (hs : Answered L s) (hid : s.raft = .idle) :
    Answered L s.flush := by
  obtain ⟨hco, htu, hpe, hro⟩ := hs.silent (by rw [hid]; nofun)
  have hre : s.replies = 0 := by
    rw [replies, hco, htu, hpe, hro]
    rfl
  unfold LogSystem.flush
  split
  · rename_i hdn
    have hle : s.log.maxIndex ≤ s.log.durableIndex := by omega
    have hst : Full (L.content s.store) s.log :=
      htr.stored.mono (hle.trans ((le_max_left _ _).trans (le_max_left _ _)))
    have hfl : Full s.flushed s.log :=
      htr.flushed.mono (hle.trans (le_max_left _ _))
    exact { hs with
      single := hre.le.trans (Nat.zero_le _), returned := fun _ => ⟨hst, hfl⟩ }
  · refine { hs with single := ?_, returned := nofun }
    rw [if_pos rfl]
    simp only [replies, List.count_append, List.count_singleton_self] at hre ⊢
    omega

/-- Every step keeps the channels in order. -/
theorem Answered.step (hord : Orderly s) (htr : Truthful L s) (hs : Answered L s)
    {l : IoLabel σ} (hl : Cautious L s l) (h : s.step L l = some t) : Answered L t := by
  have hid : ∀ {raft}, s.raft = raft → raft ≠ .flushing → s.raft ≠ .flushing := by
    rintro _ rfl
    exact id
  have hwa : ∀ {turn : Turn} {notified : Bool}, s.io = .select → turn.reply = false →
      Answered L { s with notified := notified, io := .loadStart turn } := by
    intro turn notified hio hre
    refine hs.of_moves rfl ?_ hs.returned (fun _ => hre) hs.stored hs.synced
    simp only [replies, hio, IoStage.reply, hre, le_refl]
  cases l with
  | append =>
    obtain ⟨⟨hra, -⟩, h⟩ := Option.ite_none_right_eq_some.mp h
    unfold appendEntries at h
    split at h
    · cases h
      exact hs
    · cases h
      exact hs.of_silent (hid hra nofun) (by rw [hra]; nofun) rfl rfl id le_rfl
  | truncate truncateFrom newEntries | purge cutoff =>
    obtain ⟨⟨hra, -⟩, h⟩ := Option.ite_none_right_eq_some.mp h
    cases h
    exact hs.of_silent (hid hra nofun) nofun rfl rfl id le_rfl
  | reset =>
    obtain ⟨hra, h⟩ := Option.ite_none_right_eq_some.mp h
    cases h
    exact hs.of_silent (hid hra nofun) nofun rfl rfl id le_rfl
  | flush =>
    obtain ⟨hra, h⟩ := Option.ite_none_right_eq_some.mp h
    cases h
    exact hs.flush htr hra
  | close =>
    obtain ⟨hra, h⟩ := Option.ite_none_right_eq_some.mp h
    cases h
    refine hs.of_silent (hid hra nofun) nofun rfl rfl id ?_
    simp [List.count_append]
  | raft => exact hs.raftStep h
  | wake =>
    obtain ⟨⟨hio, -⟩, h⟩ := Option.ite_none_right_eq_some.mp h
    cases h
    exact hwa hio rfl
  | receive outcome =>
    cases outcome with
    | ok => exact hs.receive hord htr.sound h
    | failed => cases hl
  | timer =>
    obtain ⟨hio, h⟩ := Option.ite_none_right_eq_some.mp h
    cases h
    exact hwa hio rfl
  | io outcome =>
    cases outcome with
    | ok => exact hs.ioStep hord htr h
    | failed => cases hl
  | fsync outcome =>
    cases outcome with
    | ok => exact hs.taskStep htr h
    | failed => cases hl
  | recheck =>
    obtain ⟨-, h⟩ := Option.ite_none_left_eq_some.mp h
    split at h
    · cases h
      refine hs.of_moves rfl ?_ hs.returned hs.turn ?_ nofun
      · simp only [replies, TaskStage.reply, Bool.toNat_false]
        omega
      · exact fun h => hs.stored (h.imp_right nofun)
    · cases h
      exact { hs with }

/-! ## Whole runs -/

theorem truthful_start {store : σ} (hst : Indexed (L.content store)) :
    Truthful L (start L store) := by
  have hsub := L.newLog_sub hst
  exact {
    sound := rfl
    flushing := nofun
    memory := hst.of_sub hsub
    indexed := hst
    stored := fun i e he _ => hsub i e he
    flushed := fun i e he _ => hsub i e he
    operation := trivial
    flight := trivial }

theorem answered_start (store : σ) : Answered L (start L store) where
  single := Nat.zero_le _
  turn := trivial
  stored := by rintro (h | h) <;> cases h
  synced := nofun
  returned := nofun

theorem truthful_of_reach (h : (logSystem L).Reach (Cautious L) s) :
    Orderly s ∧ Truthful L s ∧ Answered L s := by
  apply h.invariant (I := fun s => Orderly s ∧ Truthful L s ∧ Answered L s)
  · rintro _ ⟨store, hsr, rfl⟩
    exact ⟨fun _ => rfl, truthful_start hsr, answered_start store⟩
  · rintro s l t ⟨hord, htr, hans⟩ hl hst
    have heff := step_effect hst
    exact ⟨hord.effect heff, htr.effect hord hl heff,
      hans.step hord htr hl hst⟩

end LogSystem

/-- In a run of cautious appends and truncations, every entry up to the durable index is stored and
flushed, and a flush that succeeds has made every entry of the log so. -/
theorem durable_index_truthful_of_reach {σ : Type} {L : LogStore σ} {s : LogSystem σ}
    (h : (logSystem L).Reach (Cautious L) s) :
    (∀ i e, s.log.entry i = some e → i ≤ s.log.durableIndex →
      (L.content s.store)[i]? = some e ∧ s.flushed[i]? = some e) ∧
    (s.raft = .returned true → ∀ i e, s.log.entry i = some e → i ≤ s.log.maxIndex →
      (L.content s.store)[i]? = some e ∧ s.flushed[i]? = some e) := by
  obtain ⟨-, htr, han⟩ := LogSystem.truthful_of_reach h
  constructor
  · intro i e he hi
    have hre : s.log.durableIndex ≤ s.reached := (le_max_left _ _).trans (le_max_left _ _)
    exact ⟨htr.stored i e he (hi.trans hre),
      htr.flushed i e he (hi.trans (le_max_left _ _))⟩
  · intro hrt i e he hi
    obtain ⟨hst, hfl⟩ := han.returned hrt
    exact ⟨hst i e he hi, hfl i e he hi⟩

instance {σ : Type} (L : LogStore σ) (s : LogSystem σ) (l : IoLabel σ) :
    Decidable (Cautious L s l) := by
  unfold Cautious
  split <;> infer_instance

/-- The last of three entries is replaced before it is persisted, and a flush waits for the
replacement. -/
theorem replaced_entry_flushed :
    ∃ s, (logSystem RocksDBLogStore.logStore).Reach (Cautious RocksDBLogStore.logStore) s ∧
      (s.raft = .returned true ∧ s.log.entry 3 = some ⟨3, 2, none⟩ ∧ s.log.maxIndex = 3) ∧
      s.store.log[3]? = some ⟨3, 2, none⟩ ∧ s.flushed[3]? = some ⟨3, 2, none⟩ := by
  have hrun : ∃ s, (logSystem RocksDBLogStore.logStore).Reach
      (Cautious RocksDBLogStore.logStore) s ∧
      s.raft = .returned true ∧ s.log.entry 3 = some ⟨3, 2, none⟩ ∧ s.log.maxIndex = 3 :=
    Machine.exists_reach_of_runIf
      (.append [⟨1, 1, none⟩, ⟨2, 1, none⟩] :: persistTurn ++ syncRound ++
        [.append [⟨3, 1, none⟩], .truncate 3 [⟨3, 2, none⟩], .raft, .raft, .receive .ok, .flush,
          .receive .ok] ++ List.replicate 8 (.io .ok) ++ syncRound)
      init_emptyRocksDB (by decide +kernel)
  obtain ⟨s, hre, hra, hen, hmax⟩ := hrun
  exact ⟨s, hre, ⟨hra, hen, hmax⟩,
    (durable_index_truthful_of_reach hre).2 hra 3 _ hen hmax.ge⟩

/-- Over a store that never fails, an entry below the durable index is not stored and no thread
has anything left to do: the entry took the place of a durable one, or it lay below a
suffix that was replaced in the middle of a turn. -/
theorem durable_entry_missing :
    (∃ s, (logSystem RocksDBLogStore.logStore).Reach (fun _ l => l.fails = false) s ∧
      s.log.entry 3 = some ⟨3, 2, none⟩ ∧ s.log.durableIndex = 3 ∧ s.raft = .returned true ∧
      s.io = .select ∧ s.notified = false ∧ s.commands = [] ∧ s.store.log[3]? = none) ∧
    ∃ s, (logSystem RocksDBLogStore.logStore).Reach (fun _ l => l.fails = false) s ∧
      s.log.entry 2 = some ⟨2, 1, none⟩ ∧ s.log.durableIndex = 3 ∧ s.raft = .returned true ∧
      s.io = .select ∧ s.notified = false ∧ s.commands = [] ∧ s.store.log[2]? = none := by
  constructor
  · exact Machine.exists_reach_of_runIf
      (.append [⟨1, 1, none⟩, ⟨2, 1, none⟩, ⟨3, 1, none⟩] :: persistTurn ++ syncRound ++
        [.truncate 2 [⟨2, 2, none⟩], .raft, .raft, .receive .ok, .append [⟨3, 2, none⟩], .wake] ++
        List.replicate 6 (.io .ok) ++ [.flush])
      init_emptyRocksDB (by decide +kernel)
  · exact Machine.exists_reach_of_runIf
      ([.append [⟨1, 1, none⟩], .wake, .io .ok, .io .ok, .io .ok,
        .append [⟨2, 1, none⟩, ⟨3, 1, none⟩], .truncate 3 [⟨3, 2, none⟩], .raft, .raft,
        .io .ok, .io .ok, .io .ok] ++ syncRound ++ [.wake] ++ List.replicate 6 (.io .ok) ++ [.flush])
      init_emptyRocksDB (by decide +kernel)

end DEngine.Storage

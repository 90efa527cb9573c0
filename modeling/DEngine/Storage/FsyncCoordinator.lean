import DEngine.Library.Transition
import DEngine.Proto
import Mathlib.Data.List.Perm.Basic

/-!
# The fsync coordinator

Any number of `submit` calls, fsync tasks and `fence_reset` calls share the
coordinator. A call records its work and spawns a task if none is running; a task
takes the recorded work, flushes the log store, and goes on until it finds nothing
left.

## Implementation notes

Every access to a shared variable is a step of its own. A thread that has returned is
gone; a step replaces a thread by what is left of it and by the threads it spawns.
The loop that answers the senders in hand is one step, since nobody else has them.
Senders are numbered in the order in which they are given to `submit`. The history
serves the statements and is read by no step.
-/

namespace DEngine.Storage.Fsync

open Library

/-! ## The shared state -/

inductive Event where
  /-- A `submit` call has recorded an index. -/
  | recorded (maxIndex : Nat)
  | flushStarted (call : Nat)
  | flushReturned (call : Nat) (ok : Bool)
deriving DecidableEq, Repr

structure Shared where
  inflight : Bool
  pendingMax : Nat
  pendingReplies : List Nat
  generation : Nat
  poisoned : Bool
  durableIndex : Nat
  /-- How many reply senders were given to `submit`. -/
  senders : Nat
  /-- The senders that were answered. -/
  answered : List (Nat × Except Fault Unit)
  /-- How often the log store was flushed. -/
  flushes : Nat
  /-- The newest event comes first. -/
  history : List Event

def Shared.new (durableIndex : Nat) : Shared where
  inflight := false
  pendingMax := 0
  pendingReplies := []
  generation := 0
  poisoned := false
  durableIndex := durableIndex
  senders := 0
  answered := []
  flushes := 0
  history := []

namespace Shared

def answer (s : Shared) (replies : List Nat) (result : Except Fault Unit) : Shared :=
  { s with answered := s.answered ++ replies.map fun reply => (reply, result) }

def advanceDurable (s : Shared) (newDurable : Nat) : Shared :=
  { s with durableIndex := max s.durableIndex newDurable }

def stalePoisoned : Fault := .fatal "raft log storage is poisoned"

def staleGeneration : Fault := .fatal "stale fsync generation, superseded by reset"

end Shared

/-! ## Threads -/

/-- Where a `submit` call stands, by what it does next. -/
inductive SubmitStage where
  | record (maxIndex : Nat) (replies : List Nat)
  | queue (replies : List Nat)
  /-- The compare-exchange of `inflight`. -/
  | claim
  | spawn
deriving DecidableEq, Repr

/-- Where a fsync task stands, by what it does next. -/
inductive TaskStage where
  | loadGeneration
  | swapMax (generation : Nat)
  | takeReplies (generation maxIndex : Nat)
  | checkPoisoned (generation maxIndex : Nat) (replies : List Nat)
  /-- The log was found poisoned: the senders are refused, and `inflight` is cleared. -/
  | refuse (replies : List Nat)
  | release
  /-- Nothing was found: `inflight` is cleared, and the task looks once more. -/
  | retire
  | recheckMax
  | recheckReplies
  | rearm
  | startFlush (generation maxIndex : Nat) (replies : List Nat)
  | flushing (call generation maxIndex : Nat) (replies : List Nat)
  | checkFence (generation maxIndex : Nat) (replies : List Nat) (result : Except String Unit)
  | discard (replies : List Nat)
  | advance (maxIndex : Nat) (replies : List Nat)
  | poison (replies : List Nat) (error : String)
  | answer (replies : List Nat) (result : Except Fault Unit)
deriving DecidableEq, Repr

/-- Where a `fence_reset` call stands, by what it does next. -/
inductive FenceStage where
  | bump
  | clearMax
  | takeReplies
  | answer (replies : List Nat)
deriving DecidableEq, Repr

inductive Thread where
  | submit (stage : SubmitStage)
  | task (stage : TaskStage)
  | fence (stage : FenceStage)
deriving DecidableEq, Repr

def SubmitStage.step (s : Shared) : SubmitStage → Shared × List Thread
  | .record maxIndex replies =>
    (if 0 < maxIndex then
      { s with
        pendingMax := max s.pendingMax maxIndex, history := .recorded maxIndex :: s.history }
     else s, [.submit (.queue replies)])
  | .queue replies =>
    ({ s with pendingReplies := s.pendingReplies ++ replies }, [.submit .claim])
  | .claim =>
    if s.inflight then (s, []) else ({ s with inflight := true }, [.submit .spawn])
  | .spawn => (s, [.task .loadGeneration])

/-- The outcome is that of the flush, for the step in which it returns. -/
def TaskStage.step (isWriteDurable : Bool) (outcome : Except String Unit) (s : Shared) :
    TaskStage → Shared × List Thread
  | .loadGeneration => (s, [.task (.swapMax s.generation)])
  | .swapMax generation =>
    ({ s with pendingMax := 0 }, [.task (.takeReplies generation s.pendingMax)])
  | .takeReplies generation maxIndex =>
    ({ s with pendingReplies := [] },
      [.task (.checkPoisoned generation maxIndex s.pendingReplies)])
  | .checkPoisoned generation maxIndex replies =>
    if s.poisoned then (s, [.task (.refuse replies)])
    else if maxIndex = 0 ∧ replies = [] then (s, [.task .retire])
    else (s, [.task (.startFlush generation maxIndex replies)])
  | .refuse replies => (s.answer replies (.error Shared.stalePoisoned), [.task .release])
  | .release => ({ s with inflight := false }, [])
  | .retire => ({ s with inflight := false }, [.task .recheckMax])
  | .recheckMax => (s, [.task (if 0 < s.pendingMax then .rearm else .recheckReplies)])
  | .recheckReplies => (s, if s.pendingReplies = [] then [] else [.task .rearm])
  | .rearm =>
    if s.inflight then (s, []) else ({ s with inflight := true }, [.task .loadGeneration])
  | .startFlush generation maxIndex replies =>
    if isWriteDurable then (s, [.task (.checkFence generation maxIndex replies (.ok ()))])
    else
      ({ s with flushes := s.flushes + 1, history := .flushStarted s.flushes :: s.history },
        [.task (.flushing s.flushes generation maxIndex replies)])
  | .flushing call generation maxIndex replies =>
    ({ s with history := .flushReturned call outcome.toBool :: s.history },
      [.task (.checkFence generation maxIndex replies outcome)])
  | .checkFence generation maxIndex replies result =>
    if s.generation ≠ generation then (s, [.task (.discard replies)])
    else
      match result with
      | .ok () => (s, [.task (.advance maxIndex replies)])
      | .error e => (s, [.task (.poison replies e)])
  | .discard replies =>
    (s.answer replies (.error Shared.staleGeneration), [.task .loadGeneration])
  | .advance maxIndex replies => (s.advanceDurable maxIndex, [.task (.answer replies (.ok ()))])
  | .poison replies e =>
    ({ s with poisoned := true },
      [.task (.answer replies (.error (.fatal s!"WAL fsync failed: {e}")))])
  | .answer replies result => (s.answer replies result, [.task .loadGeneration])

def FenceStage.step (s : Shared) : FenceStage → Shared × List Thread
  | .bump => ({ s with generation := s.generation + 1 }, [.fence .clearMax])
  | .clearMax => ({ s with pendingMax := 0 }, [.fence .takeReplies])
  | .takeReplies => ({ s with pendingReplies := [] }, [.fence (.answer s.pendingReplies)])
  | .answer replies => (s.answer replies (.error Shared.staleGeneration), [])

/-- What a thread does next to the shared state, and the threads that take its place. -/
def Thread.step (isWriteDurable : Bool) (outcome : Except String Unit) (s : Shared) :
    Thread → Shared × List Thread
  | .submit stage => stage.step s
  | .task stage => stage.step isWriteDurable outcome s
  | .fence stage => stage.step s

/-! ## Runs -/

structure State where
  shared : Shared
  threads : List Thread

inductive Label where
  /-- Call `submit` with an index and a number of reply senders. -/
  | submit (maxIndex replies : Nat)
  | fenceReset
  /-- The storage thread fails to write an entry. -/
  | poison
  /-- The thread at a position takes its next step. -/
  | run (i : Nat) (outcome : Except String Unit)

def State.step (isWriteDurable : Bool) (s : State) : Label → Option State
  | .submit maxIndex replies =>
    some ⟨{ s.shared with senders := s.shared.senders + replies },
      s.threads ++ [.submit (.record maxIndex (List.range' s.shared.senders replies))]⟩
  | .fenceReset => some { s with threads := s.threads ++ [.fence .bump] }
  | .poison => some { s with shared := { s.shared with poisoned := true } }
  | .run i outcome =>
    s.threads[i]?.map fun thread =>
      let next := thread.step isWriteDurable outcome s.shared
      ⟨next.1, s.threads.eraseIdx i ++ next.2⟩

/-- The coordinator of a log that was opened with some durable index. -/
def machine (isWriteDurable : Bool) : Machine State Label where
  init := fun s => ∃ durableIndex, s = ⟨.new durableIndex, []⟩
  step := State.step isWriteDurable

/-- The steps of a thread at a position, in a row. -/
def runs (i n : Nat) : List Label := List.replicate n (.run i (.ok ()))

variable {isWriteDurable : Bool} {s t : State} {l : Label}

/-- Call by call: a step adds a call, poisons the log, or moves one thread of the pool. -/
theorem step_cases (h : s.step isWriteDurable l = some t) :
    (∃ maxIndex replies, l = .submit maxIndex replies ∧
      t = ⟨{ s.shared with senders := s.shared.senders + replies },
        s.threads ++ [.submit (.record maxIndex (List.range' s.shared.senders replies))]⟩) ∨
    (l = .fenceReset ∧ t = { s with threads := s.threads ++ [.fence .bump] }) ∨
    (l = .poison ∧ t = { s with shared := { s.shared with poisoned := true } }) ∨
    ∃ i outcome thread rest, l = .run i outcome ∧ s.threads[i]? = some thread ∧
      s.threads.Perm (thread :: rest) ∧
      t = ⟨(thread.step isWriteDurable outcome s.shared).1,
        rest ++ (thread.step isWriteDurable outcome s.shared).2⟩ := by
  cases l with
  | submit maxIndex replies =>
    cases h
    exact .inl ⟨maxIndex, replies, rfl, rfl⟩
  | fenceReset =>
    cases h
    exact .inr (.inl ⟨rfl, rfl⟩)
  | poison =>
    cases h
    exact .inr (.inr (.inl ⟨rfl, rfl⟩))
  | run i outcome =>
    obtain ⟨thread, hthr, rfl⟩ := Option.map_eq_some_iff.mp h
    obtain ⟨hi, hget⟩ := List.getElem?_eq_some_iff.mp hthr
    have hpe : s.threads.Perm (thread :: s.threads.eraseIdx i) :=
      hget ▸ (List.getElem_cons_eraseIdx_perm hi).symm
    exact .inr (.inr (.inr ⟨i, outcome, thread, _, rfl, hthr, hpe, rfl⟩))

/-! ## One task at a time -/

/-- The thread has set `inflight`, or was spawned by one that has, and not cleared it since. -/
def Thread.owns : Thread → Bool
  | .submit .spawn => true
  | .submit _ => false
  | .task .recheckMax => false
  | .task .recheckReplies => false
  | .task .rearm => false
  | .task _ => true
  | .fence _ => false

/-- The task is inside of a flush of the log store. -/
def Thread.isFlushing : Thread → Bool
  | .task (.flushing _ _ _ _) => true
  | _ => false

variable {thread : Thread}

theorem Thread.owns_of_isFlushing (h : thread.isFlushing = true) : thread.owns = true := by
  cases thread with
  | task stage => cases stage <;> first | rfl | cases h
  | submit stage | fence stage => cases h

/-- The flag is set exactly while one thread owns it. -/
def Exclusive (s : State) : Prop := s.threads.countP Thread.owns = s.shared.inflight.toNat

theorem Exclusive.inflight_of_mem (h : Exclusive s) (hmem : thread ∈ s.threads)
    (how : thread.owns = true) : s.shared.inflight = true := by
  have hpos : 0 < s.threads.countP Thread.owns := List.countP_pos_iff.mpr ⟨thread, hmem, how⟩
  rw [Exclusive.eq_1] at h
  rw [h] at hpos
  cases hfl : s.shared.inflight with
  | true => rfl
  | false => simp [hfl] at hpos

/-- A step hands the flag on, sets it when it is clear, or clears it when it owns it. -/
theorem Thread.countP_owns_step (isWriteDurable : Bool) (outcome : Except String Unit)
    {shared : Shared} (h : thread.owns = true → shared.inflight = true) :
    (thread.step isWriteDurable outcome shared).2.countP Thread.owns + shared.inflight.toNat =
      thread.owns.toNat + (thread.step isWriteDurable outcome shared).1.inflight.toNat := by
  cases thread with
  | submit stage =>
    cases stage with
    | record =>
      simp only [Thread.step, SubmitStage.step]
      split_ifs <;> simp [Thread.owns]
    | claim =>
      simp only [Thread.step, SubmitStage.step]
      split_ifs with hfl <;> simp [Thread.owns, hfl]
    | _ => simp [Thread.step, SubmitStage.step, Thread.owns]
  | task stage =>
    cases stage with
    | release | retire => simp [Thread.step, TaskStage.step, Thread.owns, h rfl]
    | checkPoisoned generation maxIndex replies | recheckMax | recheckReplies =>
      simp only [Thread.step, TaskStage.step]
      split_ifs <;> simp [Thread.owns]
    | rearm =>
      simp only [Thread.step, TaskStage.step]
      split_ifs with hfl <;> simp [Thread.owns, hfl]
    | startFlush =>
      simp only [Thread.step, TaskStage.step]
      split_ifs <;> simp [Thread.owns]
    | checkFence generation maxIndex replies result =>
      simp only [Thread.step, TaskStage.step]
      cases result <;> split_ifs <;> simp [Thread.owns]
    | _ => simp [Thread.step, TaskStage.step, Thread.owns, Shared.answer, Shared.advanceDurable]
  | fence stage => cases stage <;> simp [Thread.step, FenceStage.step, Thread.owns, Shared.answer]

theorem Exclusive.step (h : Exclusive s) (hst : s.step isWriteDurable l = some t) :
    Exclusive t := by
  obtain ⟨maxIndex, replies, -, rfl⟩ | ⟨-, rfl⟩ | ⟨-, rfl⟩ |
    ⟨i, outcome, thread, rest, -, hget, hpe, rfl⟩ := step_cases hst
  · simpa [Exclusive, Thread.owns] using h
  · simpa [Exclusive, Thread.owns] using h
  · exact h
  · have hco := Thread.countP_owns_step isWriteDurable outcome
      (h.inflight_of_mem (List.mem_of_getElem? hget))
    have hall : s.threads.countP Thread.owns = rest.countP Thread.owns + thread.owns.toNat := by
      rw [hpe.countP_eq, List.countP_cons]
      cases thread.owns <;> rfl
    rw [Exclusive, hall] at h
    change (rest ++ _).countP Thread.owns =
      (thread.step isWriteDurable outcome s.shared).1.inflight.toNat
    rw [List.countP_append]
    omega

theorem exclusive_of_reach (h : (machine isWriteDurable).Reach (fun _ _ => True) s) :
    Exclusive s := by
  refine h.invariant (I := Exclusive) ?_ ?_
  · rintro s ⟨durableIndex, rfl⟩
    rfl
  · intro s l t hs _ hst
    exact hs.step hst

/-- At most one task is inside of a flush. -/
theorem Exclusive.countP_isFlushing (h : Exclusive s) : s.threads.countP Thread.isFlushing ≤ 1 := by
  have hmo : s.threads.countP Thread.isFlushing ≤ s.threads.countP Thread.owns :=
    List.countP_mono_left fun _ _ => Thread.owns_of_isFlushing
  rw [Exclusive] at h
  have hle := Bool.toNat_le s.shared.inflight
  omega

/-! ## Every advance is behind a flush -/

def Recorded (history : List Event) (maxIndex : Nat) : Prop :=
  maxIndex = 0 ∨ .recorded maxIndex ∈ history

/-- The flush was started behind the record of the index. -/
def StartedBehind (history : List Event) (call maxIndex : Nat) : Prop :=
  ∃ before, .flushStarted call :: before <:+ history ∧ Recorded before maxIndex

/-- A flush that returned `Ok` was started behind the record of the index. -/
def Flushed (history : List Event) (maxIndex : Nat) : Prop :=
  ∃ call, StartedBehind history call maxIndex ∧ .flushReturned call true ∈ history

/-- What is known of the index that a task has in hand. -/
def Thread.Backed (history : List Event) : Thread → Prop
  | .task (.takeReplies _ maxIndex) => Recorded history maxIndex
  | .task (.checkPoisoned _ maxIndex _) => Recorded history maxIndex
  | .task (.startFlush _ maxIndex _) => Recorded history maxIndex
  | .task (.flushing call _ maxIndex _) => StartedBehind history call maxIndex
  | .task (.checkFence _ maxIndex _ (.ok ())) => Flushed history maxIndex
  | .task (.advance maxIndex _) => Flushed history maxIndex
  | _ => True

variable {history later : List Event} {maxIndex call : Nat}

theorem Recorded.mono (h : Recorded history maxIndex) (hla : history <:+ later) :
    Recorded later maxIndex := h.imp_right fun hmem => hla.subset hmem

theorem StartedBehind.mono (h : StartedBehind history call maxIndex) (hla : history <:+ later) :
    StartedBehind later call maxIndex := by
  obtain ⟨before, hst, hrec⟩ := h
  exact ⟨before, hst.trans hla, hrec⟩

theorem Flushed.mono (h : Flushed history maxIndex) (hla : history <:+ later) :
    Flushed later maxIndex := by
  obtain ⟨call, hst, hret⟩ := h
  exact ⟨call, hst.mono hla, hla.subset hret⟩

theorem Thread.Backed.mono (h : thread.Backed history)
    (hla : history <:+ later) : thread.Backed later := by
  unfold Thread.Backed at h ⊢
  split at h
  · exact Recorded.mono h hla
  · exact Recorded.mono h hla
  · exact Recorded.mono h hla
  · exact StartedBehind.mono h hla
  · exact Flushed.mono h hla
  · exact Flushed.mono h hla
  · trivial

section Steps

variable {shared after : Shared} {threads : List Thread}

/-- A step keeps the history and what it backs. -/
structure Backs (shared : Shared) (next : Shared × List Thread) : Prop where
  pendingMax : Recorded next.1.history next.1.pendingMax
  grows : shared.history <:+ next.1.history
  backed : ∀ thread ∈ next.2, thread.Backed next.1.history

/-- A step that notes nothing. -/
theorem Backs.of_same (h : Recorded shared.history shared.pendingMax)
    (hhi : after.history = shared.history)
    (hpe : after.pendingMax = shared.pendingMax ∨ after.pendingMax = 0)
    (hba : ∀ thread ∈ threads, thread.Backed shared.history) : Backs shared (after, threads) := by
  refine ⟨?_, ?_, ?_⟩
  · rcases hpe with hsa | hze
    · exact hsa.symm ▸ hhi.symm ▸ h
    · exact .inl hze
  · exact hhi ▸ List.suffix_rfl
  · exact hhi.symm ▸ hba

/-- A step that notes an event. -/
theorem Backs.of_event (h : Recorded shared.history shared.pendingMax) {event : Event}
    (hhi : after.history = event :: shared.history) (hpe : after.pendingMax = shared.pendingMax)
    (hba : ∀ thread ∈ threads, thread.Backed after.history) : Backs shared (after, threads) := by
  have hgr : shared.history <:+ after.history := hhi ▸ List.suffix_cons _ _
  exact ⟨(hpe.symm ▸ h).mono hgr, hgr, hba⟩

theorem SubmitStage.backs_step (h : Recorded shared.history shared.pendingMax)
    (stage : SubmitStage) : Backs shared (stage.step shared) := by
  cases stage with
  | record maxIndex =>
    simp only [SubmitStage.step]
    split_ifs with hpos
    · refine ⟨?_, List.suffix_cons _ _, by simp [Thread.Backed]⟩
      rcases max_choice shared.pendingMax maxIndex with hmax | hmax
      · exact Recorded.mono (hmax.symm ▸ h) (List.suffix_cons _ _)
      · exact .inr (hmax.symm ▸ List.mem_cons_self)
    · exact .of_same h rfl (.inl rfl) (by simp [Thread.Backed])
  | claim =>
    simp only [SubmitStage.step]
    split_ifs
    · exact .of_same h rfl (.inl rfl) (by simp)
    · exact .of_same h rfl (.inl rfl) (by simp [Thread.Backed])
  | _ => exact .of_same h rfl (.inl rfl) (by simp [Thread.Backed])

theorem FenceStage.backs_step (h : Recorded shared.history shared.pendingMax)
    (stage : FenceStage) : Backs shared (stage.step shared) := by
  cases stage with
  | clearMax => exact .of_same h rfl (.inr rfl) (by simp [Thread.Backed])
  | _ => exact .of_same h rfl (.inl rfl) (by simp [Thread.Backed])

/-- What a task has in hand is recorded when it is taken and flushed when it is advanced to. -/
theorem TaskStage.backs_step (h : Recorded shared.history shared.pendingMax) {stage : TaskStage}
    (hba : (Thread.task stage).Backed shared.history) (outcome : Except String Unit) :
    Backs shared (stage.step false outcome shared) := by
  cases stage with
  | swapMax => exact .of_same h rfl (.inr rfl) (by simpa [Thread.Backed] using h)
  | takeReplies =>
    exact .of_same h rfl (.inl rfl) (by simpa [Thread.Backed] using hba)
  | checkPoisoned =>
    simp only [TaskStage.step]
    split_ifs
    · exact .of_same h rfl (.inl rfl) (by simp [Thread.Backed])
    · exact .of_same h rfl (.inl rfl) (by simp [Thread.Backed])
    · exact .of_same h rfl (.inl rfl) (by simpa [Thread.Backed] using hba)
  | recheckMax | recheckReplies =>
    refine .of_same h rfl (.inl rfl) ?_
    split_ifs <;> simp [Thread.Backed]
  | rearm =>
    simp only [TaskStage.step]
    split_ifs
    · exact .of_same h rfl (.inl rfl) (by simp)
    · exact .of_same h rfl (.inl rfl) (by simp [Thread.Backed])
  | startFlush =>
    refine .of_event h rfl rfl ?_
    intro thread hthr
    rw [List.mem_singleton.mp hthr]
    exact ⟨shared.history, List.suffix_rfl, hba⟩
  | flushing call =>
    refine .of_event h rfl rfl ?_
    intro thread hthr
    rw [List.mem_singleton.mp hthr]
    cases outcome with
    | error => trivial
    | ok _ => exact ⟨call, StartedBehind.mono hba (List.suffix_cons _ _), List.mem_cons_self⟩
  | checkFence generation maxIndex replies result =>
    simp only [TaskStage.step]
    split_ifs
    · exact .of_same h rfl (.inl rfl) (by simp [Thread.Backed])
    · cases result with
      | error => exact .of_same h rfl (.inl rfl) (by simp [Thread.Backed])
      | ok => exact .of_same h rfl (.inl rfl) (by simpa [Thread.Backed] using hba)
  | _ => exact .of_same h rfl (.inl rfl) (by simp [Thread.Backed])

theorem Thread.backs_step (h : Recorded shared.history shared.pendingMax)
    (hba : thread.Backed shared.history) (outcome : Except String Unit) :
    Backs shared (thread.step false outcome shared) := by
  cases thread with
  | submit stage => exact stage.backs_step h
  | task stage => exact stage.backs_step h hba outcome
  | fence stage => exact stage.backs_step h

end Steps

/-- What is pending or in the hands of a task was recorded, and flushed where it has to be. -/
structure Backing (s : State) : Prop where
  pendingMax : Recorded s.shared.history s.shared.pendingMax
  threads : ∀ thread ∈ s.threads, thread.Backed s.shared.history

theorem Backing.step (h : Backing s) (hst : s.step false l = some t) : Backing t := by
  obtain ⟨maxIndex, replies, -, rfl⟩ | ⟨-, rfl⟩ | ⟨-, rfl⟩ |
    ⟨i, outcome, thread, rest, -, hget, hpe, rfl⟩ := step_cases hst
  · refine ⟨h.pendingMax, fun thread hthr => ?_⟩
    rcases List.mem_append.mp hthr with hold | hnew
    · exact h.threads thread hold
    · rw [List.mem_singleton.mp hnew]
      trivial
  · refine ⟨h.pendingMax, fun thread hthr => ?_⟩
    rcases List.mem_append.mp hthr with hold | hnew
    · exact h.threads thread hold
    · rw [List.mem_singleton.mp hnew]
      trivial
  · exact ⟨h.pendingMax, h.threads⟩
  · have hba := Thread.backs_step h.pendingMax
      (h.threads thread (List.mem_of_getElem? hget)) outcome
    refine ⟨hba.pendingMax, fun other hot => ?_⟩
    rcases List.mem_append.mp hot with hold | hnew
    · exact (h.threads other (hpe.mem_iff.mpr (List.mem_cons_of_mem _ hold))).mono hba.grows
    · exact hba.backed other hnew

theorem backing_of_reach (h : (machine false).Reach (fun _ _ => True) s) : Backing s := by
  refine h.invariant (I := Backing) ?_ ?_
  · rintro s ⟨durableIndex, rfl⟩
    exact ⟨.inl rfl, fun thread hthr => absurd hthr List.not_mem_nil⟩
  · intro s l t hs _ hst
    exact hs.step hst

/-- Only a task that advances to the index in its hand moves the durable index. -/
theorem Thread.exists_advance {shared : Shared} {outcome : Except String Unit}
    (h : (thread.step isWriteDurable outcome shared).1.durableIndex ≠ shared.durableIndex) :
    shared.durableIndex < (thread.step isWriteDurable outcome shared).1.durableIndex ∧
      ∃ replies, thread = .task
        (.advance (thread.step isWriteDurable outcome shared).1.durableIndex replies) := by
  cases thread with
  | submit stage =>
    refine absurd ?_ h
    cases stage <;> simp only [Thread.step, SubmitStage.step] <;> split_ifs <;> rfl
  | fence stage =>
    refine absurd ?_ h
    cases stage <;> rfl
  | task stage =>
    cases stage with
    | advance maxIndex replies =>
      have hmax : max shared.durableIndex maxIndex = maxIndex :=
        (max_choice _ _).resolve_left h
      have hlt : shared.durableIndex < max shared.durableIndex maxIndex :=
        lt_of_le_of_ne (le_max_left _ _) h.symm
      refine ⟨hlt, replies, ?_⟩
      change _ = Thread.task (.advance (max shared.durableIndex maxIndex) replies)
      rw [hmax]
    | checkFence generation maxIndex replies result =>
      refine absurd ?_ h
      simp only [Thread.step, TaskStage.step]
      cases result <;> split_ifs <;> rfl
    | _ =>
      refine absurd ?_ h
      simp only [Thread.step, TaskStage.step]
      try split_ifs
      all_goals rfl

/-- No two flushes overlap, and the durable index is advanced only to an index that was recorded
before the start of a flush that returned `Ok`. -/
theorem flushed_before_advance (h : (machine false).Reach (fun _ _ => True) s) :
    s.threads.countP Thread.isFlushing ≤ 1 ∧
      ∀ l t, s.step false l = some t → t.shared.durableIndex ≠ s.shared.durableIndex →
        ∃ call before, .flushStarted call :: before <:+ s.shared.history ∧
          .recorded t.shared.durableIndex ∈ before ∧
          .flushReturned call true ∈ s.shared.history := by
  refine ⟨(exclusive_of_reach h).countP_isFlushing, ?_⟩
  intro l t hsp had
  obtain ⟨maxIndex, replies, -, rfl⟩ | ⟨-, rfl⟩ | ⟨-, rfl⟩ |
    ⟨i, outcome, thread, rest, -, hget, -, rfl⟩ := step_cases hsp
  · exact absurd rfl had
  · exact absurd rfl had
  · exact absurd rfl had
  · obtain ⟨hls, replies, hth⟩ := Thread.exists_advance had
    have hba := (backing_of_reach h).threads thread (List.mem_of_getElem? hget)
    rw [hth] at hba
    obtain ⟨call, ⟨before, hst, hre⟩, hrt⟩ := hba
    exact ⟨call, before, hst, hre.resolve_left (Nat.ne_zero_of_lt hls), hrt⟩

/-- A second index is recorded while the first is being flushed, and the same task flushes again
for it. -/
theorem second_flush_covers_second_index :
    ∃ s t, (machine false).Reach (fun _ _ => True) s ∧
      s.step false (.run 0 (.ok ())) = some t ∧ s.shared.durableIndex = 3 ∧
      t.shared.durableIndex = 5 ∧
      ∃ call before, .flushStarted call :: before <:+ s.shared.history ∧
        .recorded 5 ∈ before ∧ .flushReturned call true ∈ s.shared.history := by
  have hrun : ∃ s, (machine false).Reach (fun _ _ => True) s ∧
      (s.step false (.run 0 (.ok ()))).any fun t =>
        decide (s.shared.durableIndex = 3 ∧ t.shared.durableIndex = 5) :=
    Machine.exists_reach_of_runIf
      ([.submit 3 0] ++ runs 0 4 ++ runs 0 5 ++ [.submit 5 1] ++ runs 1 3 ++ runs 0 11)
      (show (machine false).init ⟨.new 0, []⟩ from ⟨0, rfl⟩) (by decide +kernel)
  obtain ⟨s, hre, hany⟩ := hrun
  obtain ⟨t, hst, hin⟩ := (Option.any_eq_true _ _).mp hany
  obtain ⟨hth, hfi⟩ := of_decide_eq_true hin
  have hco := (flushed_before_advance hre).2 _ t hst (by rw [hth, hfi]; decide)
  rw [hfi] at hco
  exact ⟨s, t, hre, hst, hth, hfi, hco⟩

end DEngine.Storage.Fsync

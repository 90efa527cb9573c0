import DEngine.Proto
import DEngine.Library.History
import DEngine.Library.Transition

/-!
# Captures and installs of snapshots

The worker handles its commands one after the other. It installs a snapshot of the
leader itself, and waits for the lock of captures and installs to do so. A local
snapshot is captured by a task of its own, which takes the lock only if it is free,
remembers the install epoch, and reports through the queue of the worker when it is
done. The worker answers such a report with the snapshot if the epoch is still the
same.

## Implementation notes

A label is one step of the worker or of one task. An install that will return `Applied`
takes effect at some moment of its call. The epoch is a natural number. What is
captured and installed is left out, and so are the entries that are applied.
-/

namespace DEngine.Apply

open Library

/-! ## The worker and its tasks -/

inductive SnapshotRequest where
  | applyEntries
  | installSnapshot
  | captureLocalSnapshot
deriving DecidableEq, Repr

inductive StateMachineCommand where
  | request (request : SnapshotRequest)
  | localSnapshotReady (task : Nat) (captured : Except String Unit) (epochBefore : Nat)

/-- The worker between two steps of `handle_command`. -/
inductive CommandPhase where
  | idle
  | waitsForLock
  | installing
  /-- The install took effect and will return `Applied`. -/
  | tookEffect
  /-- The epoch is up to date, and the lock is still held. -/
  | responding
  | stopped
deriving DecidableEq, Repr

/-- A capture task between two of its steps. -/
inductive CapturePhase where
  | spawned
  | cleanupLocked
  | bothLocked
  | loaded (epochBefore : Nat)
  | capturing (epochBefore : Nat)
  | captured (epochBefore : Nat) (captured : Except String Unit)
  | unlocked (epochBefore : Nat) (captured : Except String Unit)
  | reported
  /-- The directory of a superseded capture is removed. -/
  | removing
  | finished

inductive CaptureAnswer where
  | ok
  | captureSkipped
  | captureSuperseded
  | operationFailed (message : String)
  | failed (message : String)
deriving DecidableEq, Repr

inductive SnapshotEvent where
  | installed
  | captureBegan (task : Nat)
  | answered (task : Nat) (answer : CaptureAnswer)
deriving DecidableEq, Repr

inductive LockHolder where
  | worker
  | task (task : Nat)
deriving DecidableEq, Repr

structure SnapshotWorker where
  queue : List StateMachineCommand
  phase : CommandPhase
  captureInstallLock : Option LockHolder
  captureCleanupLock : Option Nat
  installEpoch : Nat
  tasks : List CapturePhase
  /-- What happened, the newest event first. -/
  journal : List SnapshotEvent

inductive SnapshotLabel where
  | submit (request : SnapshotRequest)
  /-- The worker takes its next command; entries are applied or fail. -/
  | recv (applied : Bool)
  | acquire
  | takeEffect
  /-- The install returns without being applied. -/
  | notApplied
  | bumpEpoch
  | release
  /-- A task takes its next step. The result is that of its capture or of its removal. -/
  | advance (task : Nat) (result : Except String Unit)

namespace SnapshotWorker

variable (s : SnapshotWorker)

def answer (task : Nat) (answer : CaptureAnswer) : SnapshotWorker :=
  { s with journal := .answered task answer :: s.journal }

/-- The worker decides about a finished capture. -/
def localSnapshotReady (task : Nat) (captured : Except String Unit) (epochBefore : Nat) :
    SnapshotWorker :=
  match captured with
  | .error e =>
    { s with captureCleanupLock := none, tasks := s.tasks.set task .finished }.answer task
      (.failed e)
  | .ok () =>
    if s.installEpoch ≠ epochBefore then { s with tasks := s.tasks.set task .removing }
    else
      { s with captureCleanupLock := none, tasks := s.tasks.set task .finished }.answer task .ok

def recv (applied : Bool) : StateMachineCommand → SnapshotWorker
  | .request .applyEntries => if applied then s else { s with phase := .stopped }
  | .request .installSnapshot => { s with phase := .waitsForLock }
  | .request .captureLocalSnapshot => { s with tasks := s.tasks ++ [.spawned] }
  | .localSnapshotReady task captured epochBefore =>
    s.localSnapshotReady task captured epochBefore

/-- The answer to a superseded capture, given the removal of its directory. -/
def superseded : Except String Unit → CaptureAnswer
  | .ok () => .captureSuperseded
  | .error e =>
    .operationFailed ("capture superseded, but failed to synchronously remove its " ++
      s!"reusable temp directory: {e}")

/-- One step of a capture task, or of the removal behind it. -/
def advance (task : Nat) (result : Except String Unit) : CapturePhase → Option SnapshotWorker
  | .spawned =>
    if s.captureCleanupLock = none then
      some { s with
        captureCleanupLock := some task, tasks := s.tasks.set task .cleanupLocked }
    else some ({ s with tasks := s.tasks.set task .finished }.answer task .captureSkipped)
  | .cleanupLocked =>
    if s.captureInstallLock = none then
      some { s with
        captureInstallLock := some (.task task), tasks := s.tasks.set task .bothLocked }
    else
      some ({ s with captureCleanupLock := none, tasks := s.tasks.set task .finished }.answer
        task .captureSkipped)
  | .bothLocked => some { s with tasks := s.tasks.set task (.loaded s.installEpoch) }
  | .loaded epochBefore =>
    some { s with
      tasks := s.tasks.set task (.capturing epochBefore)
      journal := .captureBegan task :: s.journal }
  | .capturing epochBefore =>
    some { s with tasks := s.tasks.set task (.captured epochBefore result) }
  | .captured epochBefore captured =>
    some { s with
      captureInstallLock := none, tasks := s.tasks.set task (.unlocked epochBefore captured) }
  | .unlocked epochBefore captured =>
    some { s with
      queue := s.queue ++ [.localSnapshotReady task captured epochBefore]
      tasks := s.tasks.set task .reported }
  | .removing =>
    some ({ s with captureCleanupLock := none, tasks := s.tasks.set task .finished }.answer task
      (superseded result))
  | .reported | .finished => none

def step : SnapshotLabel → Option SnapshotWorker
  | .submit request => some { s with queue := s.queue ++ [.request request] }
  | .recv applied =>
    match s.phase, s.queue with
    | .idle, command :: rest => some ({ s with queue := rest }.recv applied command)
    | _, _ => none
  | .acquire =>
    if s.phase = .waitsForLock ∧ s.captureInstallLock = none then
      some { s with phase := .installing, captureInstallLock := some .worker }
    else none
  | .takeEffect =>
    if s.phase = .installing then
      some { s with phase := .tookEffect, journal := .installed :: s.journal }
    else none
  | .notApplied =>
    if s.phase = .installing then some { s with phase := .responding } else none
  | .bumpEpoch =>
    if s.phase = .tookEffect then
      some { s with phase := .responding, installEpoch := s.installEpoch + 1 }
    else none
  | .release =>
    if s.phase = .responding then some { s with phase := .idle, captureInstallLock := none }
    else none
  | .advance task result => s.tasks[task]?.bind (s.advance task result)

def start : SnapshotWorker := ⟨[], .idle, none, none, 0, [], []⟩

end SnapshotWorker

/-- The runs of the worker and its capture tasks. -/
def snapshotWorker : Machine SnapshotWorker SnapshotLabel where
  init s := s = .start
  step := SnapshotWorker.step

/-- The task began its capture, and no install took effect since. -/
def MeetsNoInstall (task : Nat) (earlier : List SnapshotEvent) : Prop :=
  .captureBegan task ∈ earlier ∧
    ∀ since before, earlier = since ++ .captureBegan task :: before → .installed ∉ since

/-- Every capture that was answered with its snapshot met no install. -/
def NeverStraddles (journal : List SnapshotEvent) : Prop :=
  Justified (fun event earlier => ∀ task, event = .answered task .ok → MeetsNoInstall task earlier)
    journal

/-! ## Counting installs -/

/-- The task began its capture behind the given number of installs. -/
def BeganAfter (journal : List SnapshotEvent) (task epoch : Nat) : Prop :=
  .captureBegan task ∈ journal ∧
    ∀ since before, journal = since ++ .captureBegan task :: before →
      before.count .installed = epoch

section Journal

variable {journal : List SnapshotEvent} {event : SnapshotEvent} {task epoch : Nat}

theorem BeganAfter.cons (h : BeganAfter journal task epoch) (hne : event ≠ .captureBegan task) :
    BeganAfter (event :: journal) task epoch := by
  constructor
  · exact List.mem_cons_of_mem event h.1
  · intro since before heq
    cases since with
    | nil => exact absurd (List.cons.inj heq).1 hne
    | cons first since => exact h.2 since before (List.cons.inj heq).2

theorem beganAfter_cons (h : .captureBegan task ∉ journal) :
    BeganAfter (.captureBegan task :: journal) task (journal.count .installed) := by
  constructor
  · exact List.mem_cons_self
  · intro since before heq
    cases since with
    | nil => rw [(List.cons.inj heq).2]
    | cons first since =>
      have hmem : .captureBegan task ∈ journal := by
        rw [(List.cons.inj heq).2]
        exact List.mem_append_right since List.mem_cons_self
      exact absurd hmem h

/-- If no install was counted since the capture began, none took effect. -/
theorem BeganAfter.meetsNoInstall (h : BeganAfter journal task epoch)
    (hco : journal.count .installed = epoch) : MeetsNoInstall task journal := by
  constructor
  · exact h.1
  · intro since before heq hin
    have hpo : 0 < since.count .installed := List.count_pos_iff.mpr hin
    have hbe := h.2 since before heq
    rw [heq, List.count_append, List.count_cons_of_ne (by simp), hbe] at hco
    omega

end Journal

/-! ## Steps -/

namespace CapturePhase

/-- The task holds the lock of captures and installs. -/
def holdsLock : CapturePhase → Bool
  | .bothLocked | .loaded _ | .capturing _ | .captured _ _ => true
  | _ => false

/-- The capture has not begun. -/
def isEarly : CapturePhase → Bool
  | .spawned | .cleanupLocked | .bothLocked | .loaded _ => true
  | _ => false

/-- The epoch in front of a capture that has begun and is not reported. -/
def epochBefore : CapturePhase → Option Nat
  | .capturing epochBefore | .captured epochBefore _ | .unlocked epochBefore _ => some epochBefore
  | _ => none

end CapturePhase

/-- The worker holds the lock of captures and installs. -/
def CommandPhase.holdsLock : CommandPhase → Bool
  | .installing | .tookEffect | .responding => true
  | _ => false

/-- What a task in the given phase relies on. -/
structure InPhase (captureInstallLock : Option LockHolder) (installEpoch : Nat)
    (journal : List SnapshotEvent) (i : Nat) (phase : CapturePhase) : Prop where
  lock : phase.holdsLock → captureInstallLock = some (.task i)
  early : phase.isEarly → .captureBegan i ∉ journal
  loaded : ∀ epoch, phase = .loaded epoch → epoch = installEpoch
  began : ∀ epoch, phase.epochBefore = some epoch → BeganAfter journal i epoch

structure Coordinated (s : SnapshotWorker) : Prop where
  epoch : s.journal.count .installed =
    s.installEpoch + if s.phase = .tookEffect then 1 else 0
  workerLock : s.phase.holdsLock → s.captureInstallLock = some .worker
  tasks : ∀ i phase, s.tasks[i]? = some phase →
    InPhase s.captureInstallLock s.installEpoch s.journal i phase
  absent : ∀ i, s.tasks[i]? = none → .captureBegan i ∉ s.journal
  ready : ∀ i captured epoch, .localSnapshotReady i captured epoch ∈ s.queue →
    BeganAfter s.journal i epoch
  answers : NeverStraddles s.journal

theorem coordinated_start : Coordinated .start where
  epoch := rfl
  workerLock := nofun
  tasks := fun _ _ h => nomatch h
  absent := fun _ _ => List.not_mem_nil
  ready := fun _ _ _ h => nomatch h
  answers := justified_nil

section Steps

variable {s t : SnapshotWorker} {i : Nat} {phase phase' : CapturePhase}

/-- An event of a task that is no answer with a snapshot. -/
def OwnEvent (i : Nat) (event : SnapshotEvent) : Prop :=
  event = .captureBegan i ∨ ∃ answer, event = .answered i answer ∧ answer ≠ .ok

variable {event : SnapshotEvent}

theorem OwnEvent.ne_installed (h : OwnEvent i event) : event ≠ .installed := by
  rcases h with rfl | ⟨answer, rfl, _⟩ <;> simp

variable {j : Nat}

theorem OwnEvent.ne_captureBegan (h : OwnEvent i event) (hj : j ≠ i) : event ≠ .captureBegan j := by
  rcases h with rfl | ⟨answer, rfl, _⟩
  · simpa using hj.symm
  · simp

variable {journal : List SnapshotEvent}

theorem neverStraddles_cons
    (h : NeverStraddles journal) (hev : ∀ task, event ≠ .answered task .ok) :
    NeverStraddles (event :: journal) :=
  justified_cons.mpr ⟨fun task heq => absurd heq (hev task), h⟩

theorem OwnEvent.neverStraddles (h : OwnEvent i event) (hjo : NeverStraddles journal) :
    NeverStraddles (event :: journal) := by
  refine neverStraddles_cons hjo fun task heq => ?_
  rcases h with rfl | ⟨answer, rfl, hne⟩
  · cases heq
  · cases heq
    exact hne rfl

/-- What a task may do to the rest: it moves on, adds at most one event of its own, and takes or
returns no lock but its own. -/
structure Moves (s t : SnapshotWorker) (i : Nat) (phase' : CapturePhase) : Prop where
  tasks : t.tasks = s.tasks.set i phase'
  phase : t.phase = s.phase
  installEpoch : t.installEpoch = s.installEpoch
  lock : ∀ holder, holder ≠ .task i → s.captureInstallLock = some holder →
    t.captureInstallLock = some holder
  journal : t.journal = s.journal ∨ ∃ event, OwnEvent i event ∧ t.journal = event :: s.journal

namespace Moves

theorem count_installed (h : Moves s t i phase') :
    t.journal.count .installed = s.journal.count .installed := by
  rcases h.journal with heq | ⟨event, hown, heq⟩
  · rw [heq]
  · rw [heq, List.count_cons_of_ne hown.ne_installed]

theorem not_mem (h : Moves s t i phase') (hj : j ≠ i)
    (hbe : .captureBegan j ∉ s.journal) : .captureBegan j ∉ t.journal := by
  rcases h.journal with heq | ⟨event, hown, heq⟩
  · rwa [heq]
  · rw [heq, List.mem_cons, not_or]
    exact ⟨(hown.ne_captureBegan hj).symm, hbe⟩

theorem beganAfter (h : Moves s t i phase') {epoch : Nat} (hj : j ≠ i)
    (hbe : BeganAfter s.journal j epoch) : BeganAfter t.journal j epoch := by
  rcases h.journal with heq | ⟨event, hown, heq⟩
  · rwa [heq]
  · rw [heq]
    exact hbe.cons (hown.ne_captureBegan hj)

theorem neverStraddles (h : Moves s t i phase') (hbe : NeverStraddles s.journal) :
    NeverStraddles t.journal := by
  rcases h.journal with heq | ⟨event, hown, heq⟩
  · rwa [heq]
  · rw [heq]
    exact hown.neverStraddles hbe

theorem inPhase (h : Moves s t i phase') (hj : j ≠ i) {other : CapturePhase}
    (hbe : InPhase s.captureInstallLock s.installEpoch s.journal j other) :
    InPhase t.captureInstallLock t.installEpoch t.journal j other where
  lock := fun hho => h.lock (.task j) (by simpa using hj) (hbe.lock hho)
  early := fun his => h.not_mem hj (hbe.early his)
  loaded := fun epoch heq => (hbe.loaded epoch heq).trans h.installEpoch.symm
  began := fun epoch heq => h.beganAfter hj (hbe.began epoch heq)

/-- The tasks behind a move. -/
theorem getElem?_tasks (h : Moves s t i phase') {other : CapturePhase}
    (hot : t.tasks[j]? = some other) :
    j = i ∧ other = phase' ∨ j ≠ i ∧ s.tasks[j]? = some other := by
  rw [h.tasks, List.getElem?_set] at hot
  split_ifs at hot with hji hlt
  · exact .inl ⟨hji.symm, (Option.some.inj hot).symm⟩
  · exact .inr ⟨Ne.symm hji, hot⟩

end Moves

/-- A task that moves keeps the coordination if its own new phase does. -/
theorem Coordinated.moves (h : Coordinated s) (hmo : Moves s t i phase')
    (hi : s.tasks[i]? = some phase)
    (hown : InPhase t.captureInstallLock t.installEpoch t.journal i phase')
    (hre : ∀ j captured epoch, .localSnapshotReady j captured epoch ∈ t.queue →
      BeganAfter t.journal j epoch) : Coordinated t where
  epoch := by rw [hmo.count_installed, hmo.installEpoch, hmo.phase, h.epoch]
  workerLock := fun hho => by
    rw [hmo.phase] at hho
    exact hmo.lock .worker (by simp) (h.workerLock hho)
  tasks := fun j other hot => by
    rcases hmo.getElem?_tasks hot with ⟨rfl, rfl⟩ | ⟨hj, hbe⟩
    · exact hown
    · exact hmo.inPhase hj (h.tasks j other hbe)
  absent := fun j hno => by
    rw [hmo.tasks, List.getElem?_eq_none_iff, List.length_set] at hno
    have hj : j ≠ i := by
      rintro rfl
      rw [List.getElem?_eq_none hno] at hi
      cases hi
    exact hmo.not_mem hj (h.absent j (List.getElem?_eq_none hno))
  ready := hre
  answers := hmo.neverStraddles h.answers

variable {epoch : Nat}

/-- An answer does not change what began. -/
theorem BeganAfter.of_answered {task : Nat}
    (h : BeganAfter journal task epoch) (answer : CaptureAnswer) :
    BeganAfter (.answered i answer :: journal) task epoch :=
  h.cons (by simp)

theorem InPhase.cons {lock : Option LockHolder} (h : InPhase lock epoch journal i phase)
    (hne : event ≠ .captureBegan i) : InPhase lock epoch (event :: journal) i phase :=
  { h with
    early := fun his hmem => h.early his (List.mem_of_ne_of_mem hne.symm hmem)
    began := fun epoch heq => (h.began epoch heq).cons hne }

/-- A task that is answered without a snapshot is done. -/
theorem Coordinated.finishes (h : Coordinated s) (hi : s.tasks[i]? = some phase)
    (cleanupLock : Option Nat) {answer : CaptureAnswer} (hans : answer ≠ .ok) :
    Coordinated ({ s with
      captureCleanupLock := cleanupLock, tasks := s.tasks.set i .finished }.answer i answer) :=
  h.moves ⟨rfl, rfl, rfl, fun _ _ hlo => hlo, .inr ⟨_, .inr ⟨_, rfl, hans⟩, rfl⟩⟩ hi
    ⟨nofun, nofun, nofun, nofun⟩
    fun j captured epoch hmem => (h.ready j captured epoch hmem).of_answered _

theorem Coordinated.advance (h : Coordinated s) {result : Except String Unit}
    (hi : s.tasks[i]? = some phase) (hst : s.advance i result phase = some t) : Coordinated t := by
  have hph := h.tasks i phase hi
  cases phase with
  | spawned =>
    simp only [SnapshotWorker.advance] at hst
    split_ifs at hst
    · cases hst
      exact h.moves ⟨rfl, rfl, rfl, fun _ _ hlo => hlo, .inl rfl⟩ hi
        ⟨nofun, hph.early, nofun, nofun⟩ h.ready
    · cases hst
      exact h.finishes hi s.captureCleanupLock (by simp)
  | cleanupLocked =>
    simp only [SnapshotWorker.advance] at hst
    split_ifs at hst with hfr
    · cases hst
      refine h.moves ⟨rfl, rfl, rfl, fun holder _ hlo => ?_, .inl rfl⟩ hi
        ⟨fun _ => rfl, hph.early, nofun, nofun⟩ h.ready
      cases hfr.symm.trans hlo
    · cases hst
      exact h.finishes hi none (by simp)
  | bothLocked =>
    cases hst
    exact h.moves ⟨rfl, rfl, rfl, fun _ _ hlo => hlo, .inl rfl⟩ hi
      ⟨hph.lock, hph.early, fun _ heq => (CapturePhase.loaded.inj heq).symm, nofun⟩ h.ready
  | loaded epochBefore =>
    cases hst
    -- The task holds the lock, so that no install is under way: the epoch counts them all.
    have hqu : s.phase ≠ .tookEffect := by
      intro heq
      have hwo := h.workerLock (by rw [heq]; rfl)
      cases hwo.symm.trans (hph.lock rfl)
    have hco : s.journal.count .installed = epochBefore := by
      rw [h.epoch, if_neg hqu, Nat.add_zero, hph.loaded epochBefore rfl]
    refine h.moves ⟨rfl, rfl, rfl, fun _ _ hlo => hlo, .inr ⟨_, .inl rfl, rfl⟩⟩ hi
      ⟨hph.lock, nofun, nofun, fun epoch heq => ?_⟩ (fun j captured epoch hmem => ?_)
    · cases heq
      exact hco ▸ beganAfter_cons (hph.early rfl)
    · have hre := h.ready j captured epoch hmem
      refine hre.cons fun heq => ?_
      cases heq
      exact hph.early rfl hre.1
  | capturing =>
    cases hst
    exact h.moves ⟨rfl, rfl, rfl, fun _ _ hlo => hlo, .inl rfl⟩ hi
      ⟨hph.lock, nofun, nofun, hph.began⟩ h.ready
  | captured =>
    cases hst
    refine h.moves ⟨rfl, rfl, rfl, fun holder hne hlo => ?_, .inl rfl⟩ hi
      ⟨nofun, nofun, nofun, hph.began⟩ h.ready
    rw [hph.lock rfl] at hlo
    exact absurd (Option.some.inj hlo).symm hne
  | unlocked epochBefore captured =>
    cases hst
    refine h.moves ⟨rfl, rfl, rfl, fun _ _ hlo => hlo, .inl rfl⟩ hi
      ⟨nofun, nofun, nofun, nofun⟩ (fun j other epoch hmem => ?_)
    rcases List.mem_append.mp hmem with hold | hnew
    · exact h.ready j other epoch hold
    · cases List.mem_singleton.mp hnew
      exact hph.began epochBefore rfl
  | removing =>
    cases hst
    have hans : SnapshotWorker.superseded result ≠ .ok := by
      cases result <;> simp [SnapshotWorker.superseded]
    exact h.finishes hi none hans
  | reported | finished => cases hst

/-- The task of a report is known. -/
theorem Coordinated.exists_phase (h : Coordinated s)
    (hbe : BeganAfter s.journal i epoch) : ∃ phase, s.tasks[i]? = some phase := by
  cases hi : s.tasks[i]? with
  | none => exact absurd hbe.1 (h.absent i hi)
  | some phase => exact ⟨phase, rfl⟩

/-- The commands that are left are a part of the queue. -/
theorem Coordinated.dequeue (h : Coordinated s) {command : StateMachineCommand}
    {rest : List StateMachineCommand} (hqu : s.queue = command :: rest) :
    Coordinated { s with queue := rest } :=
  { h with ready := fun j captured epoch hmem =>
      h.ready j captured epoch (hqu ▸ List.mem_cons_of_mem command hmem) }

/-- The snapshot of a capture may be handed over while the epoch is the one in front of it. -/
theorem Coordinated.answer_ok (h : Coordinated s) (hid : s.phase = .idle)
    (hbe : BeganAfter s.journal i s.installEpoch) : Coordinated (s.answer i .ok) := by
  have hco : s.journal.count .installed = s.installEpoch := by
    rw [h.epoch, hid, if_neg (by simp), Nat.add_zero]
  exact {
    epoch := (List.count_cons_of_ne (by simp)).trans h.epoch
    workerLock := h.workerLock
    tasks := fun j other hot => (h.tasks j other hot).cons (by simp)
    absent := fun j hno hmem => h.absent j hno (List.mem_of_ne_of_mem (by simp) hmem)
    ready := fun j captured epoch hmem => (h.ready j captured epoch hmem).of_answered _
    answers := justified_cons.mpr ⟨fun task heq => by
      cases heq
      exact hbe.meetsNoInstall hco, h.answers⟩ }

theorem Coordinated.localSnapshotReady (h : Coordinated s) (hid : s.phase = .idle)
    {captured : Except String Unit} (hbe : BeganAfter s.journal i epoch) :
    Coordinated (s.localSnapshotReady i captured epoch) := by
  obtain ⟨phase, hi⟩ := h.exists_phase hbe
  cases captured with
  | error => exact h.finishes hi none (by simp)
  | ok =>
    simp only [SnapshotWorker.localSnapshotReady]
    split_ifs with hep
    · exact h.moves ⟨rfl, rfl, rfl, fun _ _ hlo => hlo, .inl rfl⟩ hi
        ⟨nofun, nofun, nofun, nofun⟩ h.ready
    · have hdn : Coordinated { s with
          captureCleanupLock := none, tasks := s.tasks.set i .finished } :=
        h.moves ⟨rfl, rfl, rfl, fun _ _ hlo => hlo, .inl rfl⟩ hi
          ⟨nofun, nofun, nofun, nofun⟩ h.ready
      exact hdn.answer_ok hid (not_not.mp hep ▸ hbe)

theorem Coordinated.spawn (h : Coordinated s) :
    Coordinated { s with tasks := s.tasks ++ [.spawned] } := by
  refine { h with tasks := fun j other hot => ?_, absent := fun j hno => ?_ }
  · rw [List.getElem?_append] at hot
    split_ifs at hot with hlt
    · exact h.tasks j other hot
    · rw [List.getElem?_singleton] at hot
      split_ifs at hot
      cases hot
      exact ⟨nofun, fun _ => h.absent j (List.getElem?_eq_none (Nat.le_of_not_lt hlt)), nofun,
        nofun⟩
  · rw [List.getElem?_eq_none_iff, List.length_append] at hno
    exact h.absent j (List.getElem?_eq_none (Nat.le_of_add_right_le hno))

theorem Coordinated.recv (h : Coordinated s) (hid : s.phase = .idle)
    {command : StateMachineCommand} {rest : List StateMachineCommand}
    (hqu : s.queue = command :: rest) (applied : Bool) :
    Coordinated ({ s with queue := rest }.recv applied command) := by
  have hre := h.dequeue hqu
  cases command with
  | localSnapshotReady task captured epoch =>
    exact hre.localSnapshotReady hid
      (h.ready task captured epoch (hqu ▸ List.mem_cons_self))
  | request request =>
    have hep : s.journal.count .installed = s.installEpoch := by
      rw [h.epoch, hid, if_neg (by simp), Nat.add_zero]
    cases request with
    | applyEntries =>
      cases applied with
      | true => exact hre
      | false => exact { hre with epoch := hep, workerLock := nofun }
    | installSnapshot =>
      exact { hre with epoch := hep, workerLock := nofun }
    | captureLocalSnapshot => exact hre.spawn

/-- A step of the worker that the tasks do not see. -/
theorem Coordinated.acquire (h : Coordinated s) (hwa : s.phase = .waitsForLock)
    (hfr : s.captureInstallLock = none) :
    Coordinated { s with phase := .installing, captureInstallLock := some .worker } := by
  refine { h with epoch := ?_, workerLock := fun _ => rfl, tasks := ?_ }
  · have hep := h.epoch
    rwa [hwa, if_neg (by simp)] at hep
  · intro j other hot
    have hph := h.tasks j other hot
    refine { hph with lock := fun hho => ?_ }
    cases hfr.symm.trans (hph.lock hho)

theorem Coordinated.takeEffect (h : Coordinated s) (hin : s.phase = .installing) :
    Coordinated { s with phase := .tookEffect, journal := .installed :: s.journal } where
  epoch := by
    have hep := h.epoch
    rw [hin, if_neg (by simp), Nat.add_zero] at hep
    rw [List.count_cons_self, hep, if_pos rfl]
  workerLock := fun _ => h.workerLock (by rw [hin]; rfl)
  tasks := fun j other hot => (h.tasks j other hot).cons (by simp)
  absent := fun j hno hmem => h.absent j hno (List.mem_of_ne_of_mem (by simp) hmem)
  ready := fun j captured epoch hmem => (h.ready j captured epoch hmem).cons (by simp)
  answers := neverStraddles_cons h.answers (by simp)

/-- While the worker holds the lock, no task has an epoch that it did not use yet. -/
theorem Coordinated.bumpEpoch (h : Coordinated s) (heff : s.phase = .tookEffect) :
    Coordinated { s with phase := .responding, installEpoch := s.installEpoch + 1 } := by
  have hwo := h.workerLock (by rw [heff]; rfl)
  refine { h with epoch := ?_, workerLock := fun _ => hwo, tasks := ?_ }
  · have hep := h.epoch
    rw [heff, if_pos rfl] at hep
    rw [hep, if_neg (by simp), Nat.add_zero]
  · intro j other hot
    have hph := h.tasks j other hot
    refine { hph with loaded := ?_ }
    rintro epoch rfl
    cases hwo.symm.trans (hph.lock rfl)

theorem Coordinated.release (h : Coordinated s) (hre : s.phase = .responding) :
    Coordinated { s with phase := .idle, captureInstallLock := none } := by
  have hwo := h.workerLock (by rw [hre]; rfl)
  refine { h with epoch := ?_, workerLock := nofun, tasks := ?_ }
  · have hep := h.epoch
    rwa [hre, if_neg (by simp)] at hep
  · intro j other hot
    have hph := h.tasks j other hot
    refine { hph with lock := fun hho => ?_ }
    cases hwo.symm.trans (hph.lock hho)

theorem Coordinated.step (h : Coordinated s) {l : SnapshotLabel} (hst : s.step l = some t) :
    Coordinated t := by
  cases l
  all_goals
    simp only [SnapshotWorker.step, Option.ite_none_right_eq_some, Option.some.injEq] at hst
  case submit request =>
    cases hst
    refine { h with ready := fun j captured epoch hmem => ?_ }
    rcases List.mem_append.mp hmem with hold | hnew
    · exact h.ready j captured epoch hold
    · cases List.mem_singleton.mp hnew
  case recv applied =>
    split at hst <;> cases hst
    rename_i hid hqu
    exact h.recv hid hqu applied
  case acquire =>
    obtain ⟨hco, rfl⟩ := hst
    exact h.acquire hco.1 hco.2
  case takeEffect =>
    obtain ⟨hin, rfl⟩ := hst
    exact h.takeEffect hin
  case notApplied =>
    obtain ⟨hin, rfl⟩ := hst
    refine { h with
      epoch := ?_, workerLock := fun _ => h.workerLock (by rw [hin]; rfl) }
    have hep := h.epoch
    rwa [hin, if_neg (by simp)] at hep
  case bumpEpoch =>
    obtain ⟨heff, rfl⟩ := hst
    exact h.bumpEpoch heff
  case release =>
    obtain ⟨hre, rfl⟩ := hst
    exact h.release hre
  case advance task result =>
    obtain ⟨phase, hi, had⟩ := Option.bind_eq_some_iff.mp hst
    exact h.advance hi had

/-- In every interleaving, a capture that is answered with its snapshot began behind every install
that took effect before the answer. -/
theorem capture_meets_no_install (h : snapshotWorker.Reach (fun _ _ => True) s) :
    NeverStraddles s.journal := by
  have hok : Coordinated s := by
    refine h.invariant ?_ ?_
    · rintro s rfl
      exact coordinated_start
    · exact fun s l t hs _ hst => hs.step hst
  exact hok.answers

end Steps

/-- A capture task takes the given number of steps. -/
def advances (task count : Nat) : List SnapshotLabel :=
  List.replicate count (.advance task (.ok ()))

/-- One capture is answered with its snapshot; an install takes effect between the capture of the
next one and its report. -/
theorem second_capture_superseded :
    ∃ s : SnapshotWorker, NeverStraddles s.journal ∧
      s.journal = [.answered 1 .captureSuperseded, .installed, .captureBegan 1, .answered 0 .ok,
        .captureBegan 0] := by
  have hrun : ∃ s, snapshotWorker.Reach (fun _ _ => True) s ∧
      s.journal = [.answered 1 .captureSuperseded, .installed, .captureBegan 1, .answered 0 .ok,
        .captureBegan 0] := Machine.exists_reach_of_runIf
    ([.submit .captureLocalSnapshot, .recv true] ++ advances 0 7 ++
      [.recv true, .submit .captureLocalSnapshot, .recv true] ++ advances 1 6 ++
      [.submit .installSnapshot, .recv true, .acquire, .takeEffect, .bumpEpoch, .release] ++
      advances 1 1 ++ [.recv true] ++ advances 1 1) rfl (by decide +kernel)
  obtain ⟨s, hre, hjo⟩ := hrun
  exact ⟨s, capture_meets_no_install hre, hjo⟩

end DEngine.Apply

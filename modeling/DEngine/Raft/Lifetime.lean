import DEngine.Raft.PersistedVote

/-!
# Terms over the whole life of a node

A node may stop at any time and be built again from what it stored. Within a life no
handler of any role takes the term back. Over a restart the term is kept by a follower
that finds its last term written, so two restarts lose it: one as a learner, which does
not read the hard state, and one behind a write that failed and left the new term in
memory only.
-/

namespace DEngine.Raft

open Library Storage

variable {myId : Nat} {s t : Node myId}

/-! ## Restarts -/

/-- What a node is built from, apart from its stored hard state. -/
structure Boot where
  config : Config
  isLearner : Bool
  lastApplied : Nat
  diskLen : Nat
  loaded : List Entry
  boundary : Option LogId
  membership : Membership

namespace Node

/-- The hard state that was written last. -/
def loadHardState (s : Node myId) : Option HardState := s.metaStore.head?.map MetaWrite.hardState

/-- A learner starts without the stored hard state. -/
def build (boot : Boot) (hardStateFromDb : Option HardState) : Node myId :=
  let log := BufferedRaftLog.new boot.diskLen boot.loaded boot.boundary
  if boot.isLearner then
    start boot.config .learner (SharedState.new none none) log boot.membership
  else
    start boot.config .follower (SharedState.new hardStateFromDb (some boot.lastApplied)) log
      boot.membership

/-- The node built again. The writes of the lives before are older than all it will do. -/
def restart (s : Node myId) (boot : Boot) : Node myId :=
  { build boot s.loadHardState with
    metaStore := s.metaStore.map fun w => { w with journalLength := 0 } }

end Node

inductive LifeLabel where
  | run (l : Label)
  | restart (boot : Boot)

/-- The main loop of a node, stopped and started again at any point. -/
def lifetime (myId : Nat) : Machine (Node myId) LifeLabel where
  init := Node.Init
  step := fun s l => match l with
    | .run l => s.step l
    | .restart boot => some (s.restart boot)

/-- A node starts again as a follower, and not while its log is poisoned. -/
def Node.RestartsWritten (s : Node myId) : LifeLabel → Prop
  | .run _ => True
  | .restart boot => boot.isLearner = false ∧ s.log.poisoned = false

instance (s : Node myId) (l : LifeLabel) : Decidable (s.RestartsWritten l) := by
  cases l <;> dsimp only [Node.RestartsWritten] <;> infer_instance

/-! ## The term -/

/-- No step of the loop takes the term back. -/
theorem term_le_of_step {l : Label} (hst : s.step l = some t) : s.currentTerm ≤ t.currentTerm := by
  cases stepEffect_of_step hst with
  | calm h => exact h.term_le
  | turned v hv h => exact hv.term_eq.ge.trans h.term_le
  | entered rest hbuf hrl h | unwritten hro h => exact h.term_le
  | won env hro hans hwon h | lost env hro incoming h =>
    exact (Nat.le_succ s.currentTerm).trans h.term_le
  | ended rest hbuf ht =>
    subst ht
    exact le_rfl

/-- A follower starts again with the hard state that was written last. -/
theorem Node.restart_hardState {boot : Boot} (hro : boot.isLearner = false) {w : MetaWrite}
    (hw : w ∈ s.metaStore.head?) : (s.restart boot).shared.hardState = w.hardState := by
  simp [Node.restart, Node.build, hro, Node.loadHardState, Option.mem_def.mp hw, Node.start,
    SharedState.new]

theorem Node.InSync.restart {boot : Boot} (hs : s.InSync)
    (hwr : s.RestartsWritten (.restart boot)) :
    (s.restart boot).InSync ∧ (s.restart boot).shared.hardState = s.shared.hardState := by
  obtain ⟨hro, hpo⟩ := hwr
  obtain ⟨w, hw, hst, -⟩ := hs hpo
  have hre := Node.restart_hardState hro hw
  refine ⟨fun _ => ⟨{ w with journalLength := 0 }, ?_, hre.symm, Nat.zero_le _⟩,
    hre.trans hst⟩
  simp [Node.restart, Option.mem_def.mp hw]

theorem inSync_of_reach (hs : (lifetime myId).Reach Node.RestartsWritten s) : s.InSync := by
  apply hs.invariant
  · exact fun u hin => Node.Init.inSync hin
  · intro u l v hu hwr hst
    cases l with
    | run => exact inSync_of_step hst hu
    | restart =>
      cases hst
      exact (hu.restart hwr).1

/-- In every life in which the node starts again as a follower, and not while its log is
poisoned, the term never goes back. -/
theorem currentTerm_le_of_run (hs : (lifetime myId).Reach Node.RestartsWritten s)
    (hrun : (lifetime myId).Run Node.RestartsWritten s t) : s.currentTerm ≤ t.currentTerm := by
  apply hs.le_of_run Node.currentTerm ?_ hrun
  intro u l v hu hwr hst
  cases l with
  | run => exact term_le_of_step hst
  | restart =>
    cases hst
    exact (congrArg HardState.currentTerm ((inSync_of_reach hu).restart hwr).2).ge

/-! ## Lives -/

/-- A node without entries, started again with an empty log. -/
def Boot.empty (isLearner : Bool) : Boot where
  config := .small
  isLearner := isLearner
  lastApplied := 0
  diskLen := 0
  loaded := []
  boundary := none
  membership := .trio

/-- The node gives its vote in term 2. -/
def voteRun (save : Except Fault Unit) : List LifeLabel :=
  [.run (.arrive (.receiveVoteRequest ⟨2, 2, 0, 0⟩)), .run .recvInbound, .run (.flush {}),
    .run (.inboundEvent { save := save })]

/-- The vote outlives the restart, and the node stands in term 3 behind it. -/
def restartRun : List LifeLabel :=
  voteRun (.ok ()) ++ [.restart (.empty false), .run (.tick { timerExpired := true }),
    .run (.flush {}), .run .nextRound, .run .recvInternal, .run (.internalEvent {}),
    .run (.flush {}), .run .nextRound,
    .run (.tick { timerExpired := true, voteResponses := [(2, none), (3, none)] })]

theorem term_kept_over_restart :
    ∃ s : Node 1, (lifetime 1).Run Node.RestartsWritten (Node.firstStart .small .trio) s ∧
      s.currentTerm = 3 ∧ s.metaStore.map (fun w => w.hardState.currentTerm) = [3, 2, 1] ∧
      (Node.firstStart .small .trio : Node 1).currentTerm ≤ s.currentTerm := by
  have hrun : ∃ s : Node 1,
      (lifetime 1).Run Node.RestartsWritten (Node.firstStart .small .trio) s ∧
        (s.currentTerm = 3 ∧ s.metaStore.map (fun w => w.hardState.currentTerm) = [3, 2, 1]) :=
    Machine.exists_run_of_runIf restartRun (by decide +kernel)
  obtain ⟨s, hrun, hte, hst⟩ := hrun
  refine ⟨s, hrun, hte, hst, currentTerm_le_of_run (Machine.reach_of_init ?_) hrun⟩
  exact Node.init_firstStart .small .trio

/-- From term 2 the node goes back to term 1: as a learner with the term written, and as a
follower with the term in memory only. -/
theorem term_goes_back :
    (∃ s : Node 1, (lifetime 1).Reach (fun _ _ => True) s ∧ s.currentTerm = 2 ∧
      s.loadHardState = some ⟨2, some ⟨2, 2, false⟩⟩ ∧
      (s.restart (.empty true)).currentTerm = 1) ∧
    ∃ s : Node 1, (lifetime 1).Reach (fun _ _ => True) s ∧ s.currentTerm = 2 ∧
      (s.restart (.empty false)).currentTerm = 1 := by
  constructor
  · exact Machine.exists_reach_of_runIf (voteRun (.ok ())) (Node.init_firstStart .small .trio)
      (by decide +kernel)
  · exact Machine.exists_reach_of_runIf (voteRun (.error .storage))
      (Node.init_firstStart .small .trio) (by decide +kernel)

end DEngine.Raft

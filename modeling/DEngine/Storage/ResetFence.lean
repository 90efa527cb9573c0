import DEngine.Storage.IoEffects

/-!
# The fence of a reset

A reset of the log bumps the generation of the fsync coordinator, clears its watermark,
stores zero in the durable index and only then asks the storage thread to wipe the store.
The durable index carries the number of wipes that its entries came after: it belongs to
the log since the last reset if that number agrees with the number of resets.

## Implementation notes

A watermark above zero is stale between the reset of the durable index and the wipe. It
passes the fence in two ways: it lies with the coordinator or with a round of the current
generation when zero is stored, or the storage thread hands it over before it gets to the
task of the reset. `Fenced` excludes both and restricts nothing else.
-/

namespace DEngine.Storage

open Library

/-- The resets of the durable index whose wipe of the store is still to come. -/
def RaftStage.unwiped : RaftStage → Nat
  | .cleared => 1
  | .waiting .reset => 1
  | _ => 0

def IoStage.isSubmitting : IoStage → Bool
  | .submit _ => true
  | _ => false

namespace TaskStage

/-- The index that the fsync task is going to report, unless the generation changes. -/
def reports (current : Nat) : TaskStage → Nat
  | .swapped generation mark => if generation = current then mark.index else 0
  | .taken generation mark _ => if generation = current then mark.index else 0
  | .synced generation mark _ _ => if generation = current then mark.index else 0
  | .checked mark _ => mark.index
  | _ => 0

/-- The wipes that the reported index came after. -/
def epoch : TaskStage → Nat
  | .swapped _ mark => mark.epoch
  | .taken _ mark _ => mark.epoch
  | .synced _ mark _ _ => mark.epoch
  | .checked mark _ => mark.epoch
  | _ => 0

/-- The generation that the fsync task has loaded. -/
def generation : TaskStage → Nat
  | .loaded generation => generation
  | .swapped generation _ => generation
  | .taken generation _ _ => generation
  | .synced generation _ _ _ => generation
  | _ => 0

variable {task : TaskStage} {current : Nat}

theorem reports_of_isBare (h : task.isBare current = true) : task.reports current = 0 := by
  cases task <;> first | rfl | cases h

theorem generation_of_isBare (h : task.isBare current = true) : task.generation ≤ current := by
  cases task with
  | loaded => exact (of_decide_eq_true h).le
  | none | top | advanced reply => exact Nat.zero_le _
  | _ => cases h

/-- A round of an older generation reports nothing behind the fence. -/
theorem reports_succ (h : task.generation ≤ current)
    (hre : task.reports (current + 1) ≠ 0) : task.reports current ≠ 0 := by
  cases task with
  | swapped generation mark | taken generation mark reply | synced generation mark reply ok =>
    exact absurd (if_neg (Nat.ne_of_lt (Nat.lt_succ_of_le h))) hre
  | _ => exact hre

end TaskStage

/-- No stale watermark passes the fence of a reset: when zero is stored in the durable index, the
coordinator and the running round hold none, and the storage thread hands none over before
it has wiped the store. -/
def Fenced {σ : Type} (s : LogSystem σ) : IoLabel σ → Prop
  | .raft => s.raft = .fenced →
      s.fsync.pendingMax.index = 0 ∧ s.task.reports s.fsync.generation = 0
  | .io _ => s.io.isSubmitting = true → s.raft.unwiped = 1 → s.pendingMax.index = 0
  | _ => True

instance {σ : Type} (s : LogSystem σ) : (l : IoLabel σ) → Decidable (Fenced s l)
  | .raft => inferInstanceAs (Decidable (_ → _ ∧ _))
  | .io _ => inferInstanceAs (Decidable (_ → _ → _ = _))
  | .append _ | .truncate _ _ | .purge _ | .reset | .flush | .close | .wake | .receive _ | .timer
  | .fsync _ | .recheck => isTrue trivial

namespace LogSystem

variable {σ : Type} {L : LogStore σ} {s t : LogSystem σ}

/-- Every watermark on its way to the durable index comes from behind the last wipe. -/
structure Current (s : LogSystem σ) : Prop where
  wiped : s.io ≠ .exited → s.wipes + s.raft.unwiped = s.resets
  durable : s.durableEpoch = s.resets
  persisted : s.pendingMax.index ≠ 0 → s.pendingMax.epoch = s.wipes
  submitted : s.fsync.pendingMax.index ≠ 0 → s.fsync.pendingMax.epoch = s.resets
  loaded : s.task.generation ≤ s.fsync.generation
  reported : s.task.reports s.fsync.generation ≠ 0 → s.task.epoch = s.resets

theorem unwiped_of_isPlain {raft : RaftStage} (h : raft.isPlain = true) : raft.unwiped = 0 := by
  cases raft <;> first | rfl | cases h

theorem unwiped_le_one (raft : RaftStage) : raft.unwiped ≤ 1 := by
  unfold RaftStage.unwiped
  split <;> omega

theorem unwiped_of_sends {raft : RaftStage} {task : IoTask} (h : raft.sends = some task) :
    (RaftStage.waiting task).unwiped = raft.unwiped := by
  cases raft <;> cases h <;> rfl

theorem Current.unmarked (hs : Current s) (h : Unmarked s t) : Current t where
  wiped := by
    intro hal
    have hbe := hs.wiped fun hex => hal (h.exited hex)
    rw [h.wipes, h.resets, ← hbe]
    obtain hra | ⟨hpl, hpl'⟩ := h.raft
    · rw [hra]
    · rw [unwiped_of_isPlain hpl, unwiped_of_isPlain (hpl'.resolve_right hal)]
  durable := by rw [h.durableEpoch, h.resets, hs.durable]
  persisted := by rw [h.pendingMax, h.wipes]; exact hs.persisted
  submitted := by rw [h.submitted, h.resets]; exact hs.submitted
  loaded := by
    rw [h.generation]
    obtain hta | hba | ⟨generation, mark, reply, hta, hta'⟩ := h.task
    · rw [hta]
      exact hs.loaded
    · exact TaskStage.generation_of_isBare hba
    · have hlo := hs.loaded
      rw [hta] at hlo
      rw [hta']
      exact hlo
  reported := by
    rw [h.generation, h.resets]
    obtain hta | hba | ⟨generation, mark, reply, hta, hta'⟩ := h.task
    · rw [hta]
      exact hs.reported
    · intro hre
      exact absurd (TaskStage.reports_of_isBare hba) hre
    · have hrep := hs.reported
      rw [hta] at hrep
      rw [hta']
      exact hrep

theorem Mark.raise_cases (mark other : Mark) :
    mark.raise other = mark ∨ other.index ≠ 0 ∧ mark.raise other = other := by
  unfold Mark.raise
  split
  · exact .inr ⟨by omega, rfl⟩
  · exact .inl rfl

theorem Current.persist (hs : Current s) {store : σ} (stop : Nat) :
    Current { s with
      store := store, pendingMax := s.pendingMax.raise ⟨stop, s.wipes⟩ } := by
  refine { hs with persisted := ?_ }
  obtain hra | ⟨-, hra⟩ := Mark.raise_cases s.pendingMax ⟨stop, s.wipes⟩
  · dsimp only
    rw [hra]
    exact hs.persisted
  · dsimp only
    rw [hra]
    exact fun _ => rfl

theorem Current.carried (hord : Orderly s) (hs : Current s) {task : IoTask}
    {rest : List IoTask} (hre : s.io.isReceiving = true)
    (hcm : s.commands = task :: rest) (hct : task.isControl = true) :
    Current (carriedOut L { s with commands := rest } task) := by
  obtain ⟨hwa, -⟩ := hord.waiting hre hcm hct
  have hal := IoStage.ne_exited_of_isReceiving hre
  have hdn := done_of_waiting hwa rest
  have hwi := hs.wiped hal
  rw [hwa] at hwi
  cases task with
  | replaceRange =>
    dsimp only [carriedOut]
    rw [hdn]
    have hid : Current { s with commands := rest, raft := .idle } :=
      { hs with wiped := fun _ => hwi }
    exact hid.persist _
  | purge =>
    dsimp only [carriedOut]
    rw [hdn]
    exact { hs with wiped := fun _ => hwi }
  | reset =>
    dsimp only [carriedOut]
    rw [hdn]
    exact { hs with wiped := fun _ => hwi, persisted := nofun }
  | flush | shutdown => cases hct

theorem Current.effect (hord : Orderly s) (hs : Current s) {l : IoLabel σ}
    (hl : Fenced s l) (h : Effect L s l t) : Current t := by
  have hwi : ∀ {raft}, s.raft = raft → raft.unwiped = 0 →
      s.io ≠ .exited → s.wipes + 0 = s.resets := by
    intro raft hrf hze hal
    have hbe := hs.wiped hal
    rw [hrf, hze] at hbe
    exact hbe
  have hst : ∀ {stage}, s.io = stage → stage ≠ .exited →
      s.wipes + s.raft.unwiped = s.resets := by
    rintro _ rfl hal
    exact hs.wiped hal
  cases h with
  | quiet h => exact hs.unmarked h.toUnmarked
  | broken h => exact hs.unmarked h
  | appended => exact { hs with }
  | truncated hid => exact { hs with wiped := hwi hid rfl }
  | inserted htr => exact { hs with wiped := hwi htr rfl }
  | purged hid => exact { hs with wiped := hwi hid rfl }
  | cutoffDurable hpu hep =>
    refine { hs with wiped := hwi hpu rfl, durable := ?_ }
    exact hep.elim (·.trans hs.durable) id
  | fencing hid =>
    refine { hs with wiped := hwi hid rfl, loaded := ?_, reported := ?_ }
    · exact hs.loaded.trans (Nat.le_succ _)
    · intro hre
      exact hs.reported (TaskStage.reports_succ hs.loaded hre)
  | fenced hfn => exact { hs with wiped := hwi hfn rfl, submitted := nofun }
  | cleared hfe =>
    obtain ⟨hsu, hre⟩ := hl hfe
    refine { hs with wiped := ?_, durable := rfl, submitted := ?_, reported := ?_ }
    · intro hal
      exact congrArg (· + 1) (hwi hfe rfl hal)
    · exact fun hne => absurd hsu hne
    · exact fun hne => absurd hre hne
  | sent hse =>
    refine { hs with wiped := ?_ }
    intro hal
    exact (congrArg (s.wipes + ·) (unwiped_of_sends hse)).trans (hs.wiped hal)
  | startLoaded hio | endLoaded hio | read hio =>
    exact { hs with wiped := fun _ => hst hio nofun }
  | persisted hio hqu => exact (hs.persist _).unmarked hqu.toUnmarked
  | carried hrc hcm hct =>
    exact hs.carried hord hrc hcm hct
  | submitted hio =>
    have hun := hst hio nofun
    refine { hs with wiped := fun _ => hun, submitted := ?_ }
    dsimp only
    obtain hra | ⟨hne, hra⟩ := Mark.raise_cases s.fsync.pendingMax s.pendingMax
    · rw [hra]
      exact hs.submitted
    · intro _
      rw [hra, hs.persisted hne]
      have hwp : s.raft.unwiped ≠ 1 := fun hone => hne (hl (by rw [hio]; rfl) hone)
      have hle := unwiped_le_one s.raft
      omega
  | signalled hio hma hgen hta =>
    refine { hs with
      wiped := fun _ => hst hio nofun, persisted := nofun, submitted := ?_, loaded := ?_
      reported := ?_ }
    · rw [hma]
      exact hs.submitted
    · rw [hgen]
      obtain rfl | rfl := hta
      · exact hs.loaded
      · exact Nat.zero_le _
    · rw [hgen]
      obtain rfl | rfl := hta
      · exact hs.reported
      · exact fun hne => absurd rfl hne
  | @swapped generation _ hta =>
    have hlo := hs.loaded
    rw [hta] at hlo
    refine { hs with submitted := nofun, loaded := hlo, reported := ?_ }
    intro hre
    exact hs.submitted fun hze => hre (by simp [TaskStage.reports, hze])
  | taken hta | synced hta =>
    have hlo := hs.loaded
    have hrep := hs.reported
    rw [hta] at hlo hrep
    exact { hs with loaded := hlo, reported := hrep }
  | checked hta =>
    refine { hs with loaded := Nat.zero_le _, reported := ?_ }
    have hrep := hs.reported
    rw [hta, TaskStage.reports, if_pos rfl] at hrep
    exact hrep
  | advanced hta hep =>
    have hrep := hs.reported
    rw [hta] at hrep
    refine { hs with
      durable := ?_, loaded := Nat.zero_le _, reported := fun hne => absurd rfl hne }
    exact hep.elim (·.trans hs.durable) fun h => h.2.trans (hrep h.1)

theorem current_start (store : σ) : Orderly (start L store) ∧ Current (start L store) := by
  refine ⟨fun _ => rfl, ?_⟩
  exact {
    wiped := fun _ => rfl
    durable := rfl
    persisted := nofun
    submitted := nofun
    loaded := le_rfl
    reported := fun hne => absurd rfl hne }

theorem current_of_reach (h : (logSystem L).Reach Fenced s) : Orderly s ∧ Current s := by
  apply h.invariant (I := fun s => Orderly s ∧ Current s)
  · rintro _ ⟨store, -, rfl⟩
    exact current_start store
  · rintro s l t ⟨hord, hs⟩ hl hst
    have heff := step_effect hst
    exact ⟨hord.effect heff, hs.effect hord hl heff⟩

/-- A turn that begins now hands the entries above the durable index to the store. -/
theorem exists_run_persist (hio : ∃ turn, s.io = .loadStart turn ∧ turn.kind ≠ .catchUp)
    (hhe : s.log.poisoned = false) {i : Nat} {e : Entry} (he : s.log.entry i = some e)
    (hdur : s.log.durableIndex < i) (hmax : i ≤ s.log.maxIndex) :
    ∃ t turn stop entries, (logSystem L).Run Fenced s t ∧
      t.io = .persist turn stop entries ∧ e ∈ entries := by
  obtain ⟨turn, hio, hki⟩ := hio
  have hmem : e ∈ s.entriesRange (s.log.durableIndex + 1) s.log.maxIndex :=
    List.mem_map.mpr ⟨(i, e), (OrderedMap.mem_range_iff _ _ _ _ _).mpr ⟨he, hdur, hmax⟩, rfl⟩
  have hra : ¬ (s.log.maxIndex < s.log.durableIndex + 1 ∨
      s.entriesRange (s.log.durableIndex + 1) s.log.maxIndex = []) := by
    rintro (hlt | hnil)
    · omega
    · rw [hnil] at hmem
      cases hmem
  let loaded : LogSystem σ := { s with io := .loadEnd turn (s.log.durableIndex + 1) }
  let ready : LogSystem σ :=
    { s with io := .readRange turn (s.log.durableIndex + 1) s.log.maxIndex }
  let last : LogSystem σ :=
    { s with
      io := .persist turn s.log.maxIndex
        (s.entriesRange (s.log.durableIndex + 1) s.log.maxIndex) }
  have hfe : ∀ {u : LogSystem σ}, u.io.isSubmitting = false → Fenced u (.io .ok) :=
    fun hst hsu => absurd (hst.symm.trans hsu) Bool.false_ne_true
  have hlo : (logSystem L).StepIf Fenced s loaded := by
    refine ⟨.io .ok, hfe (by rw [hio]; rfl), ?_⟩
    dsimp only [logSystem, step]
    rw [ioStep, hio]
    dsimp only
    rw [if_neg hki]
  have hend : (logSystem L).StepIf Fenced loaded ready := ⟨.io .ok, hfe rfl, rfl⟩
  have hre : (logSystem L).StepIf Fenced ready last := by
    refine ⟨.io .ok, hfe rfl, ?_⟩
    change (if s.log.poisoned = true then _ else _) = _
    rw [hhe, if_neg Bool.false_ne_true]
    exact if_neg hra
  exact ⟨last, turn, _, _, ((Relation.ReflTransGen.single hlo).tail hend).tail hre, rfl, hmem⟩

end LogSystem

section Fence

variable {σ : Type} {L : LogStore σ}

/-- In a run whose resets are fenced, the durable index belongs to the log since the last reset,
and every entry above it is handed to the store by the next turn. -/
theorem durable_since_reset_of_reach {s : LogSystem σ} (h : (logSystem L).Reach Fenced s) :
    s.durableEpoch = s.resets ∧
      ((∃ turn, s.io = .loadStart turn ∧ turn.kind ≠ .catchUp) → s.log.poisoned = false →
        ∀ i e, s.log.entry i = some e → s.log.durableIndex < i → i ≤ s.log.maxIndex →
          ∃ t turn stop entries, (logSystem L).Run Fenced s t ∧
            t.io = .persist turn stop entries ∧ e ∈ entries) := by
  obtain ⟨-, hcu⟩ := LogSystem.current_of_reach h
  refine ⟨hcu.durable, ?_⟩
  intro hio hhe i e he hdu hmax
  exact LogSystem.exists_run_persist hio hhe he hdu hmax

end Fence

/-- Zero is stored in the durable index. -/
def resetDurable : List (IoLabel RocksDBLogStore) := [.reset, .raft, .raft]

theorem reset_between_rounds_reached :
    ∃ s, (logSystem RocksDBLogStore.logStore).Reach Fenced s ∧
      (s.resets = 1 ∧ s.log.durableIndex = 1) ∧ s.durableEpoch = s.resets :=
  Machine.exists_reach_and_of_runIf
    (.append [⟨1, 1, none⟩] :: persistTurn ++ syncRound ++ resetDurable ++
      [.raft, .receive .ok, .append [⟨1, 2, none⟩]] ++ persistTurn ++ syncRound)
    init_emptyRocksDB (by decide +kernel) fun _ hre => (durable_since_reset_of_reach hre).1

/-- The watermark of an entry from before the reset is handed over behind the reset: the entry
that takes its place is never given to the store. -/
theorem stale_watermark_advances_durable :
    ∃ s, (logSystem RocksDBLogStore.logStore).Reach (fun _ _ => True) s ∧
      s.durableEpoch ≠ s.resets ∧ s.log.durableIndex = 1 ∧ s.log.entry 1 = some ⟨1, 2, none⟩ ∧
      s.io = .select ∧ s.notified = false ∧ s.store.log[1]? = none :=
  Machine.exists_reach_of_runIf
    (.append [⟨1, 1, none⟩] :: persistTurn ++ resetDurable ++ syncRound ++
      [.raft, .receive .ok, .append [⟨1, 2, none⟩], .wake] ++ List.replicate 6 (.io .ok))
    init_emptyRocksDB (by decide +kernel)

end DEngine.Storage

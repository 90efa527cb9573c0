import DEngine.Storage.IoEffects

/-!
# The durable index tells the truth

Every entry in memory up to the durable index is to be found in the store and to be
covered by a completed flush. The watermarks on their way to the durable index (of the
storage thread, of the coordinator, of the running round) each stand for the same promise
about the store, and the range that the storage thread has loaded for the promise that
it is about to make.

## Implementation notes

No watermark is ever lowered. A truncation below one of them breaks the promise: the
entries that take the place of the removed ones lie under it before they are stored, and
the storage thread never looks below its start index for them. `Cautious` is the
condition on appends and truncations that excludes this.
-/

namespace DEngine.Storage

open Library OrderedMap

/-- The largest index of the range that the storage thread has loaded. -/
def IoStage.bound : IoStage → Nat
  | .loadEnd _ start => start - 1
  | .readRange _ start stop => max (start - 1) stop
  | .persist _ stop _ => stop
  | _ => 0

namespace TaskStage

/-- The index of the watermark that the fsync task holds. -/
def held : TaskStage → Nat
  | .swapped _ mark => mark.index
  | .taken _ mark _ => mark.index
  | .synced _ mark _ _ => mark.index
  | .checked mark _ => mark.index
  | _ => 0

/-- The index of the watermark that has been flushed. -/
def heldSynced : TaskStage → Nat
  | .synced _ mark _ _ => mark.index
  | .checked mark _ => mark.index
  | _ => 0

@[simp] theorem held_synced (generation : Nat) (mark : Mark) (reply ok : Bool) :
    (synced generation mark reply ok).held = mark.index := rfl

@[simp] theorem heldSynced_synced (generation : Nat) (mark : Mark) (reply ok : Bool) :
    (synced generation mark reply ok).heldSynced = mark.index := rfl

@[simp] theorem held_advanced (reply : Bool) : (advanced reply).held = 0 := rfl

@[simp] theorem heldSynced_advanced (reply : Bool) : (advanced reply).heldSynced = 0 := rfl

theorem heldSynced_le_held (task : TaskStage) : task.heldSynced ≤ task.held := by
  cases task <;> first | exact le_rfl | exact Nat.zero_le _

theorem held_of_isBare {task : TaskStage} {current : Nat} (h : task.isBare current = true) :
    task.held = 0 ∧ task.heldSynced = 0 := by
  cases task <;> first | exact ⟨rfl, rfl⟩ | cases h

end TaskStage

namespace LogSystem

variable {σ : Type} {L : LogStore σ} {s t : LogSystem σ}

/-- The largest watermark. -/
def reached (s : LogSystem σ) : Nat :=
  max (max s.log.durableIndex s.pendingMax.index) (max s.fsync.pendingMax.index s.task.held)

/-- The largest index up to which some thread believes the entries to be stored, or has loaded
them in order to store them. -/
def horizon (s : LogSystem σ) : Nat := max s.reached s.io.bound

/-- The largest flushed watermark. -/
def synced (s : LogSystem σ) : Nat := max s.log.durableIndex s.task.heldSynced

theorem synced_le_reached : s.synced ≤ s.reached := by
  have := s.task.heldSynced_le_held
  unfold synced reached
  omega

end LogSystem

/-- The store never fails, entries are appended above everything that a thread holds to be stored,
and a truncation starts above that and finds the entries below it in the store. -/
def Cautious {σ : Type} (L : LogStore σ) (s : LogSystem σ) : IoLabel σ → Prop
  | .append entries => ∀ e ∈ entries, s.horizon < e.index
  | .truncate truncateFrom _ => s.horizon < truncateFrom ∧
      ∀ p ∈ s.log.entries.range 0 (truncateFrom - 1), (L.content s.store)[p.1]? = some p.2
  | .receive (.failed _) | .io (.failed _) | .fsync (.failed _) => False
  | _ => True

/-- What the storage thread relies on within a turn. -/
def IoStage.Backed (content memory : OrderedMap Entry) : IoStage → Prop
  | .loadEnd _ start => content.Covers memory (start - 1)
  | .readRange _ start _ => content.Covers memory (start - 1)
  | .persist _ stop entries =>
    (∀ (i : Nat) (e : Entry), memory[i]? = some e → i ≤ stop →
      content[i]? = some e ∨ e ∈ entries) ∧
    ∀ e ∈ entries, e.index ≤ stop ∧ e.index < u64Max ∧
      ∀ w, memory[e.index]? = some w → w = e
  | _ => True

/-- What the raft thread relies on within an operation, with the largest index that may become a
watermark. -/
def RaftStage.Backed (content memory : OrderedMap Entry) (limit : Nat) : RaftStage → Prop
  | .truncated truncateFrom newEntries =>
    Suffix truncateFrom newEntries ∧ limit < truncateFrom ∧
      content.Covers memory (truncateFrom - 1) ∧
      ∀ (i : Nat) (e : Entry), memory[i]? = some e → i < truncateFrom
  | .replaced truncateFrom newEntries | .waiting (.replaceRange truncateFrom newEntries) =>
    Suffix truncateFrom newEntries ∧ content.Covers memory (truncateFrom - 1) ∧
      ∀ (i : Nat) (e : Entry), memory[i]? = some e → truncateFrom ≤ i → e ∈ newEntries
  | .purged cutoff | .advanced cutoff | .waiting (.purge cutoff) =>
    cutoff.index < u64Max ∧ ∀ (i : Nat) (e : Entry), memory[i]? = some e → cutoff.index < i
  | .cleared | .waiting .reset => ∀ (i : Nat) (e : Entry), memory[i]? ≠ some e
  | _ => True

namespace LogSystem

variable {σ : Type} {L : LogStore σ} {s t : LogSystem σ}

/-- The largest index that may become a watermark before the raft thread moves on. -/
def limit (s : LogSystem σ) : Nat := max s.horizon s.log.maxIndex

/-- Every watermark keeps its promise. -/
structure Promises (L : LogStore σ) (s : LogSystem σ) : Prop where
  sound : s.log.poisoned = false
  flushing : ∀ generation mark reply, s.task ≠ .synced generation mark reply false
  memory : Indexed s.log.entries
  indexed : Indexed (L.content s.store)
  stored : (L.content s.store).Covers s.log.entries s.reached
  flushed : s.flushed.Covers s.log.entries s.synced
  operation : s.raft.Backed (L.content s.store) s.log.entries s.limit

/-- Every watermark keeps its promise, and so does the range that the storage thread has loaded. -/
structure Truthful (L : LogStore σ) (s : LogSystem σ) : Prop extends Promises L s where
  flight : s.io.Backed (L.content s.store) s.log.entries

end LogSystem

/-! ## The steps that only move watermarks -/

theorem Mark.index_raise (mark other : Mark) :
    (mark.raise other).index = max mark.index other.index := by
  unfold Mark.raise
  split <;> omega

variable {content memory : OrderedMap Entry} {limit : Nat} {raft : RaftStage}

theorem RaftStage.Backed.mono {smaller : Nat}
    (h : raft.Backed content memory limit) (hle : smaller ≤ limit) :
    raft.Backed content memory smaller := by
  cases raft with
  | truncated => exact ⟨h.1, by have := h.2.1; omega, h.2.2⟩
  | waiting task => cases task <;> exact h
  | _ => exact h

theorem RaftStage.backed_of_isPlain
    (h : raft.isPlain = true) : raft.Backed content memory limit := by
  cases raft <;> trivial

theorem RaftStage.Backed.sends {task : IoTask} (h : raft.Backed content memory limit)
    (hse : raft.sends = some task) : (RaftStage.waiting task).Backed content memory limit := by
  cases raft <;> cases hse <;> exact h

variable {io : IoStage}

theorem IoStage.backed_of_isSettled (h : io.isSettled = true) : io.Backed content memory := by
  cases io <;> trivial

theorem IoStage.backed_of_isReceiving (h : io.isReceiving = true) : io.Backed content memory := by
  cases io <;> trivial

theorem IoStage.bound_of_isSettled (h : io.isSettled = true) : io.bound = 0 := by
  cases io <;> first | rfl | cases h

namespace LogSystem

variable {σ : Type} {L : LogStore σ} {s t : LogSystem σ}

theorem Promises.of_marks (hs : Promises L s) (hen : t.log.entries = s.log.entries)
    (hmax : t.log.maxIndex = s.log.maxIndex) (hpo : t.log.poisoned = s.log.poisoned)
    (hst : t.store = s.store) (hfl : t.flushed = s.flushed)
    (hta : ∀ generation mark reply, t.task ≠ .synced generation mark reply false)
    (hre : t.reached ≤ s.reached) (hsy : t.synced ≤ s.synced)
    (hbo : t.io.bound ≤ s.limit) (hra : t.raft = s.raft ∨ t.raft.isPlain = true) :
    Promises L t where
  sound := hpo.trans hs.sound
  flushing := hta
  memory := hen ▸ hs.memory
  indexed := hst ▸ hs.indexed
  stored := by
    rw [hst, hen]
    exact hs.stored.mono hre
  flushed := by
    rw [hfl, hen]
    exact hs.flushed.mono hsy
  operation := by
    obtain hra | hpl := hra
    · rw [hra, hst, hen]
      refine hs.operation.mono ?_
      unfold limit horizon at *
      omega
    · exact RaftStage.backed_of_isPlain hpl

theorem Promises.quiet (hs : Promises L s) (h : Quiet s t) : Promises L t := by
  have hhe : t.task.held ≤ s.task.held ∧ t.task.heldSynced ≤ s.task.heldSynced := by
    obtain hta | hba := h.task_eq
    · rw [hta]
      exact ⟨le_rfl, le_rfl⟩
    · rw [(TaskStage.held_of_isBare hba).1, (TaskStage.held_of_isBare hba).2]
      exact ⟨Nat.zero_le _, Nat.zero_le _⟩
  have hre : t.reached ≤ s.reached := by
    unfold reached
    rw [h.log_eq, h.pendingMax, h.submitted]
    omega
  refine hs.of_marks (by rw [h.log_eq]) (by rw [h.log_eq]) (by rw [h.log_eq]) h.store h.flushed
    ?_ hre ?_ ?_ (h.raft.imp_right And.left)
  · intro generation mark reply hsy
    obtain hta | hba := h.task_eq
    · exact hs.flushing generation mark reply (hta ▸ hsy)
    · rw [hsy] at hba
      cases hba
  · unfold synced
    rw [h.log_eq]
    omega
  · obtain hio | hse := h.io
    · rw [hio]
      unfold limit horizon
      omega
    · rw [IoStage.bound_of_isSettled hse]
      exact Nat.zero_le _

end LogSystem

/-! ## The storage thread -/

variable {entries : List Entry}

theorem indexed_insertBy (h : Indexed content) (hen : ∀ e ∈ entries, e.index < u64Max) :
    Indexed (content.insertBy Entry.index entries) := by
  intro i e he
  obtain ⟨v, hv, rfl, hlo⟩ | ⟨-, hlo⟩ :=
    getElem?_insertBy_cases Entry.index content entries i
  · rw [hlo] at he
    cases he
    exact ⟨rfl, hen _ hv⟩
  · rw [hlo] at he
    exact h i e he

theorem Indexed.of_sub {fewer : OrderedMap Entry} (h : Indexed content)
    (hsub : ∀ (i : Nat) (e : Entry), fewer[i]? = some e → content[i]? = some e) : Indexed fewer :=
  fun i e he => h i e (hsub i e he)

theorem sub_eraseRange (m : OrderedMap Entry) (lo hi : Nat) :
    ∀ (i : Nat) (e : Entry), (m.eraseRange lo hi)[i]? = some e → m[i]? = some e := by
  intro i e he
  rw [getElem?_eraseRange] at he
  split at he
  · cases he
  · exact he

theorem sub_eraseFrom (m : OrderedMap Entry) (lo : Nat) :
    ∀ (i : Nat) (e : Entry), (m.eraseFrom lo)[i]? = some e → m[i]? = some e := by
  intro i e he
  rw [getElem?_eraseFrom] at he
  split at he
  · cases he
  · exact he

variable {truncateFrom : Nat}

theorem Suffix.le_index {newEntries : List Entry}
    (h : Suffix truncateFrom newEntries) : ∀ e ∈ newEntries, truncateFrom ≤ e.index := by
  obtain ⟨hhe, hasc, -⟩ := h
  cases newEntries with
  | nil => cases hhe
  | cons =>
    cases hhe
    intro e he
    obtain rfl | hre := List.mem_cons.mp he
    · exact le_rfl
    · exact ((List.pairwise_cons.mp hasc).1 e hre).le

/-- Behind the replacement of a suffix, the store holds everything in memory. -/
theorem Suffix.covers {newEntries : List Entry} (h : Suffix truncateFrom newEntries)
    (hme : Indexed memory) (hcov : content.Covers memory (truncateFrom - 1))
    (hab : ∀ (i : Nat) (e : Entry), memory[i]? = some e → truncateFrom ≤ i → e ∈ newEntries)
    (n : Nat) :
    ((content.eraseFrom truncateFrom).insertBy Entry.index newEntries).Covers memory n := by
  intro i e he _
  obtain rfl := (hme i e he).1
  by_cases hfr : truncateFrom ≤ e.index
  · exact getElem?_insertBy_of_mem Entry.index _ newEntries h.2.1 e
      (hab _ e he hfr)
  · have hno : ∀ v ∈ newEntries, v.index ≠ e.index := fun v hv heq =>
      hfr (heq ▸ h.le_index v hv)
    rw [getElem?_insertBy_of_not_mem Entry.index _ newEntries _ hno,
      getElem?_eraseFrom, if_neg hfr]
    exact hcov _ e he (by omega)

theorem RaftStage.Backed.insertBy (h : raft.Backed content memory limit)
    (hag : ∀ e ∈ entries, ∀ w, memory[e.index]? = some w → w = e) :
    raft.Backed (content.insertBy Entry.index entries) memory limit := by
  cases raft with
  | truncated =>
    obtain ⟨hsuf, hli, hcov, hbe⟩ := h
    exact ⟨hsuf, hli, hcov.insertBy_content _ hag, hbe⟩
  | replaced =>
    obtain ⟨hsuf, hcov, hab⟩ := h
    exact ⟨hsuf, hcov.insertBy_content _ hag, hab⟩
  | waiting task =>
    cases task with
    | replaceRange =>
      obtain ⟨hsuf, hcov, hab⟩ := h
      exact ⟨hsuf, hcov.insertBy_content _ hag, hab⟩
    | _ => exact h
  | _ => exact h

namespace LogSystem

variable {σ : Type} {L : LogStore σ} {s t : LogSystem σ}

/-- What the storage thread has read is stored. -/
theorem Truthful.persisted (hs : Truthful L s) {turn : Turn} {stop : Nat}
    (hio : s.io = .persist turn stop entries) :
    Promises L { s with
      store := L.persistEntries entries s.store
      pendingMax := s.pendingMax.raise ⟨stop, s.wipes⟩ } := by
  have hfl := hs.flight
  rw [hio] at hfl
  obtain ⟨hrd, hen⟩ := hfl
  have hag : ∀ e ∈ entries, ∀ w, s.log.entries[e.index]? = some w → w = e :=
    fun e he => (hen e he).2.2
  have hre : LogSystem.reached { s with
      store := L.persistEntries entries s.store
      pendingMax := s.pendingMax.raise ⟨stop, s.wipes⟩ } ≤ max s.reached stop := by
    simp only [reached, Mark.index_raise]
    omega
  have hho : max s.reached stop = s.horizon := by
    rw [horizon, hio]
    rfl
  exact {
    sound := hs.sound
    flushing := hs.flushing
    memory := hs.memory
    indexed := by
      rw [L.content_persistEntries]
      exact indexed_insertBy hs.indexed fun e he => (hen e he).2.1
    stored := by
      rw [L.content_persistEntries]
      intro i e he hi
      obtain ⟨v, hv, rfl, hlo⟩ | ⟨hno, hlo⟩ :=
        getElem?_insertBy_cases Entry.index (L.content s.store) entries i
      · rw [hlo, hag v hv e he]
      · rw [hlo]
        obtain hi | hi := le_max_iff.mp (hi.trans hre)
        · exact hs.stored i e he hi
        · exact (hrd i e he hi).resolve_right fun hmem =>
            hno e hmem (hs.memory i e he).1
    flushed := hs.flushed
    operation := by
      rw [L.content_persistEntries]
      refine (hs.operation.insertBy hag).mono (max_le_max ?_ le_rfl)
      exact max_le (hre.trans hho.le) (le_max_right _ _) }

theorem Promises.carried (hord : Orderly s) (hs : Promises L s) {task : IoTask}
    {rest : List IoTask} (hre : s.io.isReceiving = true)
    (hcm : s.commands = task :: rest) (hct : task.isControl = true) :
    Promises L (carriedOut L { s with commands := rest } task) := by
  obtain ⟨hwa, -⟩ := hord.waiting hre hcm hct
  have hdn := done_of_waiting hwa rest
  have hop := hs.operation
  rw [hwa] at hop
  cases task with
  | replaceRange =>
    obtain ⟨hsuf, hcov, hab⟩ := hop
    dsimp only [carriedOut]
    rw [hdn]
    refine { hs with indexed := ?_, stored := ?_, operation := trivial }
    · rw [L.content_replaceRange _ _ _ hs.indexed]
      exact indexed_insertBy (hs.indexed.of_sub (sub_eraseFrom _ _)) hsuf.2.2
    · rw [L.content_replaceRange _ _ _ hs.indexed]
      exact hsuf.covers hs.memory hcov hab _
  | purge =>
    obtain ⟨hcut, hab⟩ := hop
    dsimp only [carriedOut]
    rw [hdn]
    refine { hs with indexed := ?_, stored := ?_, operation := trivial }
    · rw [L.content_purge _ _ hcut]
      exact hs.indexed.of_sub (sub_eraseRange _ _ _)
    · rw [L.content_purge _ _ hcut]
      exact hs.stored.eraseRange_content hab
  | reset =>
    dsimp only [carriedOut]
    rw [hdn]
    refine { hs with indexed := ?_, stored := ?_, operation := trivial }
    · rw [L.content_reset]
      intro i e he
      rw [Std.ExtTreeMap.getElem?_empty] at he
      cases he
    · intro i e he
      exact absurd he (hop i e)
  | flush | shutdown => cases hct

end LogSystem

/-! ## The raft thread -/

/-- Entries above what a thread has loaded do not concern it. -/
theorem IoStage.Backed.insertBy_memory (h : io.Backed content memory)
    (hab : ∀ e ∈ entries, io.bound < e.index) :
    io.Backed content (memory.insertBy Entry.index entries) := by
  cases io with
  | loadEnd => exact OrderedMap.Covers.insertBy_memory _ h hab
  | readRange =>
    exact OrderedMap.Covers.insertBy_memory _ h fun e he =>
      (le_max_left _ _).trans_lt (hab e he)
  | persist turn stop =>
    obtain ⟨hre, hag⟩ := h
    have hold : ∀ {i : Nat}, i ≤ stop →
        (memory.insertBy Entry.index entries)[i]? = memory[i]? := fun hi =>
      getElem?_insertBy_of_not_mem Entry.index memory entries _ fun e he heq =>
        absurd (hab e he) (by rw [heq]; exact Nat.not_lt.mpr hi)
    refine ⟨fun i e he hi => hre i e ((hold hi).symm.trans he) hi, fun e he => ?_⟩
    obtain ⟨hst, hbo, hsa⟩ := hag e he
    exact ⟨hst, hbo, fun w hw => hsa w ((hold hst).symm.trans hw)⟩
  | _ => trivial

/-- Entries that are no longer in memory need not be stored. -/
theorem IoStage.Backed.of_sub {fewer : OrderedMap Entry} (h : io.Backed content memory)
    (hsub : ∀ (i : Nat) (e : Entry), fewer[i]? = some e → memory[i]? = some e) :
    io.Backed content fewer := by
  cases io with
  | loadEnd turn start | readRange turn start stop => exact OrderedMap.Covers.of_sub h hsub
  | persist =>
    obtain ⟨hre, hag⟩ := h
    refine ⟨fun i e he hi => hre i e (hsub i e he) hi, fun e he => ?_⟩
    obtain ⟨hst, hbo, hsa⟩ := hag e he
    exact ⟨hst, hbo, fun w hw => hsa w (hsub _ w hw)⟩
  | _ => trivial

namespace LogSystem

variable {σ : Type} {L : LogStore σ} {s t : LogSystem σ}

/-- Entries above every watermark and every loaded range are inserted. -/
theorem Truthful.insert (hs : Truthful L s)
    {notified : Bool} (hbo : ∀ e ∈ entries, e.index < u64Max)
    (hab : ∀ e ∈ entries, s.horizon < e.index) (hop : ∀ limit, raft.Backed (L.content s.store)
      (s.log.entries.insertBy Entry.index entries) limit) :
    Truthful L
      { s with log := s.log.insertToMemory entries, raft := raft, notified := notified } where
  sound := hs.sound
  flushing := hs.flushing
  memory := indexed_insertBy hs.memory hbo
  indexed := hs.indexed
  stored := hs.stored.insertBy_memory _ fun e he =>
    (le_max_left s.reached _).trans_lt (hab e he)
  flushed := hs.flushed.insertBy_memory _ fun e he =>
    (synced_le_reached.trans (le_max_left s.reached _)).trans_lt (hab e he)
  operation := hop _
  flight := hs.flight.insertBy_memory fun e he => (le_max_right _ _).trans_lt (hab e he)

/-- Entries are removed from memory. -/
theorem Truthful.shrink (hs : Truthful L s) {log : BufferedRaftLog}
    {resets durableEpoch : Nat} (hpo : log.poisoned = s.log.poisoned)
    (hdur : log.durableIndex ≤ s.log.durableIndex)
    (hsub : ∀ (i : Nat) (e : Entry), log.entries[i]? = some e → s.log.entries[i]? = some e)
    (hop : raft.Backed (L.content s.store) log.entries (max s.horizon log.maxIndex)) :
    Truthful L
      { s with log := log, raft := raft, resets := resets, durableEpoch := durableEpoch } where
  sound := hpo.trans hs.sound
  flushing := hs.flushing
  memory := hs.memory.of_sub hsub
  indexed := hs.indexed
  stored := (hs.stored.of_sub hsub).mono (max_le_max (max_le_max hdur le_rfl) le_rfl)
  flushed := (hs.flushed.of_sub hsub).mono (max_le_max hdur le_rfl)
  operation := by
    refine hop.mono (max_le_max (max_le_max ?_ le_rfl) le_rfl)
    exact max_le_max (max_le_max hdur le_rfl) le_rfl
  flight := hs.flight.of_sub hsub

/-- A truncation leaves only smaller indexes. -/
theorem maxIndex_removeRange_lt {log : BufferedRaftLog} (h : Indexed log.entries)
    (hpos : 0 < truncateFrom) :
    (log.removeRange truncateFrom u64Max).maxIndex < truncateFrom ∧
      ∀ (i : Nat) (e : Entry), (log.removeRange truncateFrom u64Max).entries[i]? = some e →
        i < truncateFrom := by
  have hbe : ∀ (i : Nat) (e : Entry),
      (log.removeRange truncateFrom u64Max).entries[i]? = some e → i < truncateFrom := by
    intro i e he
    change (log.entries.eraseRange truncateFrom u64Max)[i]? = some e at he
    have hlt := (h i e (sub_eraseRange _ _ _ i e he)).2
    rw [getElem?_eraseRange] at he
    split at he
    · cases he
    · omega
  refine ⟨?_, hbe⟩
  change (lastKey (log.entries.eraseRange truncateFrom u64Max)).getD 0 < truncateFrom
  cases hla : lastKey (log.entries.eraseRange truncateFrom u64Max) with
  | none => exact hpos
  | some last =>
    obtain ⟨⟨e, he⟩, -⟩ := lastKey_spec hla
    exact hbe last e he

variable {l : IoLabel σ}

theorem cautious_fails (hl : Cautious L s l) : l.fails = false := by
  cases l with
  | receive outcome | io outcome | fsync outcome => cases outcome <;> trivial
  | _ => rfl

theorem Truthful.quiet (hs : Truthful L s) (h : Quiet s t) : Truthful L t := by
  refine { hs.toPromises.quiet h with flight := ?_ }
  obtain hio | hse := h.io
  · rw [hio, h.store, h.log_eq]
    exact hs.flight
  · exact IoStage.backed_of_isSettled hse

/-- Nothing has failed so far, and nothing fails in a cautious step. -/
theorem Promises.not_broken (hs : Promises L s) (hl : Cautious L s l) :
    ¬ (l.fails = true ∨ s.log.poisoned = true ∨
      ∃ generation mark reply, s.task = .synced generation mark reply false) := by
  rintro (hfa | hpo | ⟨generation, mark, reply, hta⟩)
  · rw [cautious_fails hl] at hfa
    cases hfa
  · rw [hs.sound] at hpo
    cases hpo
  · exact hs.flushing generation mark reply hta

/-- A watermark is handed on, or loaded by the storage thread. -/
theorem Truthful.of_marks (hs : Truthful L s) {pendingMax : Mark}
    {fsync : FsyncCoordinator} {task : TaskStage}
    (hta : ∀ generation mark reply, task ≠ .synced generation mark reply false)
    (hre : max pendingMax.index (max fsync.pendingMax.index task.held) ≤ s.reached)
    (hsy : task.heldSynced ≤ s.synced) (hbo : io.bound ≤ s.limit)
    (hfl : io.Backed (L.content s.store) s.log.entries) :
    Truthful L { s with io := io, pendingMax := pendingMax, fsync := fsync, task := task } := by
  refine ⟨hs.toPromises.of_marks rfl rfl rfl rfl rfl hta ?_ ?_ hbo (.inl rfl), hfl⟩
  · have hdur : s.log.durableIndex ≤ s.reached := (le_max_left _ _).trans (le_max_left _ _)
    simp only [reached] at hre hdur ⊢
    omega
  · exact max_le (le_max_left _ _) hsy

/-- The durable index is raised to a cutoff below every entry in memory. -/
theorem Truthful.cutoffDurable (hs : Truthful L s) {cutoff : LogId} {durableEpoch : Nat}
    (hcut : cutoff.index < u64Max)
    (hab : ∀ (i : Nat) (e : Entry), s.log.entries[i]? = some e → cutoff.index < i) :
    Truthful L { s with
      log := { s.log with durableIndex := max s.log.durableIndex cutoff.index }
      durableEpoch := durableEpoch
      raft := .advanced cutoff } := by
  refine { hs with stored := ?_, flushed := ?_, operation := ⟨hcut, hab⟩ }
  · intro i e he hi
    have hlt := hab i e he
    refine hs.stored i e he ?_
    simp only [reached] at hi ⊢
    omega
  · intro i e he hi
    have hlt := hab i e he
    refine hs.flushed i e he ?_
    simp only [synced] at hi ⊢
    omega

/-- What the storage thread reads is what it is about to store. -/
theorem backed_entriesRange {turn : Turn} {start stop : Nat} (hme : Indexed s.log.entries)
    (hfl : (L.content s.store).Covers s.log.entries (start - 1)) :
    (IoStage.persist turn stop (s.entriesRange start stop)).Backed (L.content s.store)
      s.log.entries := by
  refine ⟨?_, ?_⟩
  · intro i e he hi
    by_cases hst : start ≤ i
    · right
      exact List.mem_map.mpr
        ⟨(i, e), (mem_range_iff _ _ _ _ _).mpr ⟨he, hst, hi⟩, rfl⟩
    · left
      exact hfl i e he (by omega)
  · intro e he
    obtain ⟨⟨i, v⟩, hmem, rfl⟩ := List.mem_map.mp he
    obtain ⟨hlo, -, hi⟩ := (mem_range_iff _ _ _ _ _).mp hmem
    obtain ⟨rfl, hbo⟩ := hme i v hlo
    refine ⟨hi, hbo, fun w hw => ?_⟩
    rw [hlo] at hw
    exact (Option.some.inj hw).symm

theorem Truthful.effect (hord : Orderly s) (hs : Truthful L s)
    (hl : Cautious L s l) (h : Effect L s l t) : Truthful L t := by
  have hst : ∀ {stage}, s.io = stage → stage.Backed (L.content s.store) s.log.entries := by
    rintro _ rfl
    exact hs.flight
  have hra : ∀ {raft}, s.raft = raft →
      raft.Backed (L.content s.store) s.log.entries s.limit := by
    rintro _ rfl
    exact hs.operation
  have hli : s.io.bound ≤ s.limit := (le_max_right _ _).trans (le_max_left _ _)
  cases h with
  | quiet h => exact hs.quiet h
  | broken h hfa => exact absurd hfa (hs.not_broken hl)
  | appended hid hbo => exact hs.insert hbo hl fun _ => by rw [hid]; trivial
  | @truncated truncateFrom newEntries hid hmax hsuf =>
    obtain ⟨hho, hsr⟩ := hl
    obtain ⟨hmax', hbe⟩ := maxIndex_removeRange_lt hs.memory (by omega : 0 < truncateFrom)
    have hsub := sub_eraseRange s.log.entries truncateFrom u64Max
    refine hs.shrink rfl le_rfl hsub ⟨hsuf, max_lt hho hmax', ?_, hbe⟩
    intro i e he hi
    exact hsr (i, e)
      ((mem_range_iff _ _ _ _ _).mpr ⟨hsub i e he, Nat.zero_le _, hi⟩)
  | @inserted truncateFrom newEntries htr =>
    obtain ⟨hsuf, hab, hcov, hbe⟩ := hra htr
    have hlt : ∀ e ∈ newEntries, s.limit < e.index := fun e he =>
      hab.trans_le (hsuf.le_index e he)
    refine hs.insert hsuf.2.2 (fun e he => (le_max_left _ _).trans_lt (hlt e he)) ?_
    refine fun _ => ⟨hsuf, hcov.insertBy_memory _ fun e he => ?_, ?_⟩
    · have := hsuf.le_index e he
      omega
    · intro i e he hi
      obtain ⟨v, hv, -, hlo⟩ | ⟨-, hlo⟩ :=
        getElem?_insertBy_cases Entry.index s.log.entries newEntries i
      · rw [hlo] at he
        cases he
        exact hv
      · rw [hlo] at he
        exact absurd (hbe i e he) (Nat.not_lt.mpr hi)
  | @purged cutoff hid hcut =>
    refine hs.shrink rfl le_rfl (sub_eraseRange s.log.entries 0 cutoff.index) ⟨hcut, ?_⟩
    intro i e he
    change (s.log.entries.eraseRange 0 cutoff.index)[i]? = some e at he
    rw [getElem?_eraseRange] at he
    split at he
    · cases he
    · omega
  | @cutoffDurable cutoff _ hpu =>
    obtain ⟨hcut, hab⟩ := hra hpu
    exact hs.cutoffDurable hcut hab
  | fencing => exact { hs with operation := trivial }
  | fenced =>
    refine { hs with stored := hs.stored.mono ?_, operation := trivial }
    simp only [Mark.zero, reached]
    omega
  | cleared =>
    have hno : ∀ (i : Nat) (e : Entry), (∅ : OrderedMap Entry)[i]? ≠ some e := by
      intro i e
      rw [Std.ExtTreeMap.getElem?_empty]
      nofun
    exact hs.shrink rfl (Nat.zero_le _) (fun i e he => absurd he (hno i e)) hno
  | sent hse =>
    exact { hs with operation := hs.operation.sends hse }
  | @startLoaded turn _ start =>
    have hle : start - 1 ≤ s.reached := by
      unfold reached
      omega
    refine hs.of_marks hs.flushing ?_ (le_max_right _ _) ?_ (hs.stored.mono hle)
    · exact max_le ((le_max_right _ _).trans (le_max_left _ _)) (le_max_right _ _)
    · exact hle.trans ((le_max_left _ _).trans (le_max_left _ _))
  | endLoaded hio =>
    have hfl := hst hio
    rw [hio] at hli
    refine hs.of_marks hs.flushing ?_ (le_max_right _ _) ?_ hfl
    · exact max_le ((le_max_right _ _).trans (le_max_left _ _)) (le_max_right _ _)
    · exact max_le hli (le_max_right _ _)
  | @read turn start stop _ hio =>
    have hfl := hst hio
    rw [hio] at hli
    refine hs.of_marks hs.flushing ?_ (le_max_right _ _) ((le_max_right _ _).trans hli) ?_
    · exact max_le ((le_max_right _ _).trans (le_max_left _ _)) (le_max_right _ _)
    · exact backed_entriesRange hs.memory hfl
  | persisted hio hqu hstt =>
    exact ⟨(hs.persisted hio).quiet hqu, IoStage.backed_of_isSettled hstt⟩
  | @carried _ task rest hre hcm hct =>
    refine ⟨hs.toPromises.carried hord hre hcm hct, ?_⟩
    rw [carriedOut_io]
    exact IoStage.backed_of_isReceiving hre
  | submitted =>
    refine hs.of_marks hs.flushing ?_ (le_max_right _ _) (Nat.zero_le _) trivial
    rw [Mark.index_raise]
    unfold reached
    omega
  | @signalled turn _ fsync task stage hio hma hgen hta hst' =>
    have hhe : task.held ≤ s.task.held ∧ task.heldSynced ≤ s.task.heldSynced := by
      obtain rfl | rfl := hta
      · exact ⟨le_rfl, le_rfl⟩
      · exact ⟨Nat.zero_le _, Nat.zero_le _⟩
    have hnot : ∀ generation mark reply, task ≠ .synced generation mark reply false := by
      obtain rfl | rfl := hta
      · exact hs.flushing
      · nofun
    refine hs.of_marks hnot ?_ (hhe.2.trans (le_max_right _ _)) ?_ ?_
    · rw [hma]
      simp only [Mark.zero, reached]
      omega
    · obtain rfl | rfl := hst' <;> exact Nat.zero_le _
    · obtain rfl | rfl := hst' <;> trivial
  | swapped =>
    refine hs.of_marks nofun ?_ (Nat.zero_le _) hli hs.flight
    simp only [Mark.zero, TaskStage.held, reached]
    omega
  | taken hta =>
    refine hs.of_marks nofun ?_ (Nat.zero_le _) hli hs.flight
    unfold reached
    rw [hta]
    exact max_le ((le_max_right _ _).trans (le_max_left _ _)) (le_max_right _ _)
  | @synced generation mark reply _ hta =>
    have hhe : s.task.held = mark.index := by rw [hta, TaskStage.held]
    refine { hs with
      flushing := nofun, stored := hs.stored.mono ?_, flushed := hs.stored.mono ?_
      operation := hs.operation.mono ?_ }
    · simp only [reached, hhe, TaskStage.held_synced, le_refl]
    · simp only [LogSystem.synced, reached, hhe, TaskStage.heldSynced_synced]
      omega
    · simp only [limit, horizon, reached, hhe, TaskStage.held_synced, le_refl]
  | checked hta =>
    refine hs.of_marks nofun ?_ ?_ hli hs.flight
    · unfold reached
      rw [hta]
      exact max_le ((le_max_right _ _).trans (le_max_left _ _)) (le_max_right _ _)
    · unfold LogSystem.synced
      rw [hta]
      exact le_max_right _ _
  | @advanced mark reply _ _ hta =>
    have hhe : s.task.held = mark.index ∧ s.task.heldSynced = mark.index := by
      rw [hta]
      exact ⟨rfl, rfl⟩
    refine ⟨hs.toPromises.of_marks rfl rfl rfl rfl rfl nofun ?_ ?_ hli (.inl rfl), hs.flight⟩
    · simp only [reached, hhe.1, TaskStage.held_advanced]
      omega
    · simp only [LogSystem.synced, hhe.2, TaskStage.heldSynced_advanced]
      omega

end LogSystem

end DEngine.Storage

import DEngine.Raft.Leader
import DEngine.Storage.TermIndex

/-!
# Probing for a common position

A leader that does not know how far a follower's log agrees with its own asks with
the predecessor of its next index. A follower that rejects it answers with the term
that it holds there and the first index of that term, and the leader jumps to its
own last entry of that term. The jump goes back, so that the probing ends, if the
entries of a term have one origin: a term that both logs hold does not start later
in the leader's log than in the follower's. That two entries of one index and term
imply equal logs up to there is not enough.

## Implementation notes

The next index behind a rejection is the one that the conflict response computes. A
term lookup may panic in a log that saw more term changes than its index has slots
for; then there is no answer.
-/

namespace DEngine.Raft

open Library Storage Replication Storage.BufferedRaftLog

/-! ## Positions -/

/-- The log has the position: an entry of the term, or its purge boundary. -/
def TermAt (log : BufferedRaftLog) (i term : Nat) : Prop :=
  (∃ e, log.entry i = some e ∧ e.term = term) ∨
    0 < log.lastPurgedIndex ∧ i = log.lastPurgedIndex ∧ term = log.lastPurgedTerm

/-- The log holds every index behind its purge boundary up to its last one. -/
structure Gapless (log : BufferedRaftLog) : Prop where
  wellFormed : log.WellFormed
  held_iff : ∀ i, (∃ e, log.entry i = some e) ↔ log.lastPurgedIndex < i ∧ i ≤ log.maxIndex

/-- The fields of the log describe its entries, which follow the purge boundary without a
hole. -/
structure Whole (log : BufferedRaftLog) : Prop where
  wellFormed : log.WellFormed
  indexed : log.TermIndexed
  spans : log.Spans
  start : log.maxIndex ≠ 0 → log.minIndex = log.lastPurgedIndex + 1

/-- Terms never fall along the log, its purge boundary included. -/
def Rising (log : BufferedRaftLog) : Prop :=
  ∀ i j t u, TermAt log i t → TermAt log j u → i ≤ j → t ≤ u

/-- The leader's log has the follower's purge boundary, and a term that both hold does not start
later in it than in the follower's, as far as the leader has not purged it. -/
structure SharesTerms (leader follower : BufferedRaftLog) : Prop where
  boundary : 0 < follower.lastPurgedIndex → leader.lastPurgedIndex ≤ follower.lastPurgedIndex →
    TermAt leader follower.lastPurgedIndex follower.lastPurgedTerm
  origin : ∀ i j t, TermAt leader i t → TermAt follower j t → j ≤ i →
    leader.lastPurgedIndex ≤ j → TermAt leader j t

section Positions

variable {log : BufferedRaftLog} {i t u : Nat}

theorem termAt_of_entry {e : Entry} (he : log.entry i = some e) : TermAt log i e.term :=
  Or.inl ⟨e, he, rfl⟩

theorem termAt_boundary (hpos : 0 < log.lastPurgedIndex) :
    TermAt log log.lastPurgedIndex log.lastPurgedTerm :=
  Or.inr ⟨hpos, rfl, rfl⟩

/-- Behind the purge boundary a position is an entry. -/
theorem entry_of_termAt (ht : TermAt log i t) (hlt : log.lastPurgedIndex < i) :
    ∃ e, log.entry i = some e ∧ e.term = t := by
  rcases ht with hen | ⟨-, rfl, -⟩
  · exact hen
  · exact absurd hlt (lt_irrefl _)

namespace Gapless

theorem bounds_of_termAt (h : Gapless log) (ht : TermAt log i t) :
    1 ≤ i ∧ log.lastPurgedIndex ≤ i := by
  rcases ht with ⟨e, he, -⟩ | ⟨hpos, rfl, -⟩
  · have := (h.held_iff i).mp ⟨e, he⟩
    omega
  · omega

theorem termAt_unique (h : Gapless log) (ht : TermAt log i t) (hu : TermAt log i u) : t = u := by
  rcases ht with ⟨e, he, rfl⟩ | ⟨hpos, rfl, rfl⟩
  · have hlt := ((h.held_iff i).mp ⟨e, he⟩).1
    obtain ⟨e', he', rfl⟩ := entry_of_termAt hu hlt
    rw [he] at he'
    cases he'
    rfl
  · rcases hu with ⟨e, he, -⟩ | ⟨-, -, rfl⟩
    · exact absurd ((h.held_iff _).mp ⟨e, he⟩).1 (lt_irrefl _)
    · rfl

theorem exists_termAt (h : Gapless log) (hpos : 1 ≤ i) (hle : log.lastPurgedIndex ≤ i)
    (hmax : i ≤ log.maxIndex) : ∃ t, TermAt log i t := by
  rcases Nat.lt_or_eq_of_le hle with hlt | rfl
  · obtain ⟨e, he⟩ := (h.held_iff i).mpr ⟨hlt, hmax⟩
    exact ⟨e.term, termAt_of_entry he⟩
  · exact ⟨_, termAt_boundary hpos⟩

/-- A lookup that does not panic finds the positions of the log. -/
theorem entryTerm_iff (h : Gapless log) {answer : Option Nat}
    (hok : log.entryTerm i = .ok answer) : answer = some t ↔ TermAt log i t := by
  by_cases hhe : ∃ e, log.entry i = some e
  · obtain ⟨e, he⟩ := hhe
    rw [h.wellFormed.entryTerm_of_entry he hok, Option.some_inj]
    exact ⟨fun heq => heq ▸ termAt_of_entry he, h.termAt_unique (termAt_of_entry he)⟩
  · -- an index that is not held lies outside of the bounds
    have hout : log.maxIndex = 0 ∨ i < log.minIndex ∨ log.maxIndex < i := by
      rw [h.held_iff] at hhe
      rcases Nat.eq_zero_or_pos log.maxIndex with hze | hpos
      · exact .inl hze
      · obtain ⟨e, he⟩ := h.wellFormed.min_held (by omega)
        have hmin := (h.held_iff _).mp ⟨e, he⟩
        omega
    rw [entryTerm, if_pos hout] at hok
    have hon : TermAt log i t ↔
        (0 < log.lastPurgedIndex ∧ i = log.lastPurgedIndex) ∧ t = log.lastPurgedTerm := by
      have hnot : ¬∃ e, log.entry i = some e ∧ e.term = t := by
        rintro ⟨e, he, -⟩
        exact hhe ⟨e, he⟩
      unfold TermAt
      rw [or_iff_right hnot, and_assoc]
    rw [hon]
    split_ifs at hok with hpu
    · cases hok
      simp [hpu, eq_comm]
    · cases hok
      simp [hpu]

end Gapless

namespace Whole

theorem gapless (h : Whole log) : Gapless log where
  wellFormed := h.wellFormed
  held_iff := by
    intro i
    rw [h.spans.held_iff]
    have hst := h.start
    have hbo := h.spans.bounds
    omega

theorem lastPosition_bounds (h : Whole log) :
    log.lastPurgedIndex ≤ log.lastPosition ∧
      ∀ i, log.lastPurgedIndex < i → log.maxIndex < i → log.lastPosition < i := by
  have hst := h.start
  have hbo := h.spans.bounds
  rw [h.spans.lastPosition_eq]
  split_ifs with hze
  · exact ⟨le_rfl, fun i hlt _ => hlt⟩
  · exact ⟨by omega, fun i _ hlt => hlt⟩

end Whole

/-- A log that its operations keep in position, with the start of the log behind the purge
boundary also where nothing was purged. -/
theorem whole_of_reach {log : BufferedRaftLog}
    (hre : logOps.Reach (fun s op => PositiveTerms s op ∧ KeepsPosition s op) (some log))
    (hst : log.maxIndex ≠ 0 → log.lastPurgedIndex = 0 → log.minIndex = 1) : Whole log := by
  have hps := hre.mono fun _ _ hco => hco.1
  have hpo := positioned_of_reach (hre.mono fun _ _ hco => hco.2)
  refine ⟨(healthy_of_reach hps).wellFormed, termIndexed_of_reach hps,
    hpo.toSpans, fun hne => ?_⟩
  rcases Nat.eq_zero_or_pos log.lastPurgedIndex with hze | hpos
  · rw [hze]
    exact hst hne hze
  · exact hpo.boundary hne hpos

end Positions

/-! ## One rejection -/

section Rejection

variable {leader follower : BufferedRaftLog} {myId peer peerTerm n : Nat} {entries : List Entry}
  {data : ReplicationData} {request : AppendEntriesRequest} {response : AppendEntriesResponse}
  {conflictTerm conflictIndex : Option Nat}

/-- A request asks with the predecessor of the effective next index. -/
theorem buildAppendRequest_append (hl : Whole leader)
    (hbu : buildAppendRequest myId leader peer entries data = .ok (.append request n)) :
    n = min ((data.peerNextIndices[peer]?).getD 1) (leader.lastEntryId + 1) ∧
      request.prevLogIndex = n - 1 ∧ request.term = data.currentTerm ∧
      (TermAt leader (n - 1) request.prevLogTerm ∨ n - 1 = 0 ∧ request.prevLogTerm = 0) := by
  unfold buildAppendRequest at hbu
  dsimp only at hbu
  generalize min ((data.peerNextIndices[peer]?).getD 1) (leader.lastEntryId + 1) = next at hbu ⊢
  cases hterm : leader.entryTerm (next - 1) with
  | error => simp [hterm] at hbu
  | ok answer =>
    cases answer with
    | some =>
      simp only [hterm] at hbu
      cases hbu
      exact ⟨rfl, rfl, rfl, Or.inl ((hl.gapless.entryTerm_iff hterm).mp rfl)⟩
    | none =>
      simp only [hterm] at hbu
      split_ifs at hbu with hze
      · cases hbu
        exact ⟨rfl, rfl, rfl, Or.inr ⟨hze.1, rfl⟩⟩
      · cases hbu

/-- A follower rejects with the term that it holds in the place of the predecessor, or with its
own end. -/
theorem checkAppendEntriesRequestIsLegal_conflict
    (hch : checkAppendEntriesRequestIsLegal peer peerTerm request follower = .ok response)
    (hres : response.result = some (.conflict conflictTerm conflictIndex)) :
    ¬ (request.prevLogIndex = 0 ∧ request.prevLogTerm = 0) ∧
      ((∃ term, follower.entryTerm request.prevLogIndex = .ok (some term) ∧
          term ≠ request.prevLogTerm ∧ conflictTerm = some term ∧
          conflictIndex =
            some ((follower.firstIndexForTerm term).getD (request.prevLogIndex - 1))) ∨
        follower.entryTerm request.prevLogIndex = .ok none ∧ conflictTerm = none ∧
          conflictIndex = some (follower.lastPosition + 1)) := by
  by_cases hst : request.term < peerTerm
  · rw [checkAppendEntriesRequestIsLegal, if_pos hst] at hch
    cases hch
    cases hres
  rcases checkAppendEntriesRequestIsLegal_eq peer request follower (Nat.le_of_not_lt hst) with
    ⟨-, _, hsu⟩ | ⟨hnot, hco⟩
  · rw [hsu] at hch
    cases hch
    cases hres
  · obtain ⟨hze, hot⟩ := not_or.mp hnot
    refine ⟨hze, ?_⟩
    rw [hco] at hch
    rcases hlo : follower.entryTerm request.prevLogIndex with _ | _ | term <;>
      rw [hlo] at hch hot <;> cases hch <;> cases hres
    · exact .inr ⟨rfl, rfl, rfl⟩
    · exact .inl ⟨term, rfl, fun heq => hot (by rw [heq]), rfl, rfl⟩

/-- The first index of a term that the follower holds somewhere. -/
theorem Whole.firstIndexForTerm_bounds {log : BufferedRaftLog} (h : Whole log) {i : Nat}
    {e : Entry} (he : log.entry i = some e) :
    ∃ first, log.firstIndexForTerm e.term = some first ∧ log.lastPurgedIndex < first ∧
      first ≤ i := by
  have hre := h.indexed.firsts e.term
  have hmem : i ∈ log.indexesOf e.term := ⟨e, he, rfl⟩
  change Records IsLeast _ (log.firstIndexForTerm e.term) at hre
  cases hfi : log.firstIndexForTerm e.term with
  | none =>
    rw [hfi] at hre
    rw [show log.indexesOf e.term = ∅ from hre] at hmem
    cases hmem
  | some first =>
    rw [hfi] at hre
    obtain ⟨⟨e', he', -⟩, hls⟩ := show IsLeast _ first from hre
    exact ⟨first, rfl, ((h.gapless.held_iff first).mp ⟨e', he'⟩).1, hls hmem⟩

/-- The leader's last entry of a term that it holds in another place than the follower lies
before that place, and not before the follower's purge boundary. -/
theorem lastIndexForTerm_bounds (hl : Whole leader) (hrising : Rising leader)
    (hrising' : Rising follower) (hshares : SharesTerms leader follower)
    {prev own term last : Nat} (hown : TermAt leader prev own) (hterm : TermAt follower prev term)
    (hne : term ≠ own) (hbe : follower.lastPurgedIndex < prev)
    (hls : leader.lastIndexForTerm term = some last) :
    follower.lastPurgedIndex ≤ last ∧ last < prev := by
  have hre := hl.indexed.lasts term
  change Records IsGreatest _ (leader.lastIndexForTerm term) at hre
  rw [hls] at hre
  obtain ⟨⟨e, he, het⟩, hgr⟩ := show IsGreatest _ last from hre
  have hla : TermAt leader last term := het ▸ termAt_of_entry he
  constructor
  · -- otherwise the boundary is an entry of this term as well, behind the last one
    by_contra hlt
    have hhe := (hl.gapless.held_iff last).mp ⟨e, he⟩
    have hbo := hshares.boundary (by omega) (by omega)
    have hle := hrising _ _ _ _ hla hbo (by omega)
    have hge := hrising' _ _ _ _ (termAt_boundary (by omega)) hterm hbe.le
    have heq : follower.lastPurgedTerm = term := le_antisymm hge hle
    obtain ⟨e', he', het'⟩ := entry_of_termAt hbo (by omega)
    have hup := hgr ⟨e', he', het'.trans heq⟩
    omega
  · by_contra hle
    have hbn := hl.gapless.bounds_of_termAt hown
    have hth := hshares.origin last prev term hla hterm (by omega) hbn.2
    exact hne (hl.gapless.termAt_unique hth hown)

/-- A rejection takes the next index back, but not to the follower's purge boundary. -/
theorem conflict_next_bounds (hl : Whole leader) (hf : Whole follower) (hrising : Rising leader)
    (hrising' : Rising follower) (hshares : SharesTerms leader follower)
    (hbu : buildAppendRequest myId leader peer entries data = .ok (.append request n))
    (hn : follower.lastPurgedIndex ≤ n - 1)
    (hch : checkAppendEntriesRequestIsLegal peer peerTerm request follower = .ok response)
    (hres : response.result = some (.conflict conflictTerm conflictIndex)) (current : Nat) :
    follower.lastPurgedIndex + 1 ≤
        (handleConflictResponse conflictTerm conflictIndex leader current).nextIndex ∧
      (handleConflictResponse conflictTerm conflictIndex leader current).nextIndex ≤ n - 1 := by
  obtain ⟨-, hpr, -, hpo⟩ := buildAppendRequest_append hl hbu
  obtain ⟨hre, hans⟩ := checkAppendEntriesRequestIsLegal_conflict hch hres
  rw [hpr] at hre hans
  have hown : TermAt leader (n - 1) request.prevLogTerm := by
    rcases hpo with hown | hvi
    · exact hown
    · exact absurd hvi hre
  have hpos := (hl.gapless.bounds_of_termAt hown).1
  rcases hans with ⟨term, hterm, hne, rfl, rfl⟩ | ⟨hterm, rfl, rfl⟩
  · have hfo : TermAt follower (n - 1) term := (hf.gapless.entryTerm_iff hterm).mp rfl
    have hbe : follower.lastPurgedIndex < n - 1 := by
      refine lt_of_le_of_ne hn fun heq => ?_
      -- at the boundary the logs agree
      have hld := (hl.gapless.bounds_of_termAt hown).2
      have hbo := hshares.boundary (by omega) (by omega)
      rw [heq] at hbo
      have hpu := hf.gapless.termAt_unique (heq ▸ termAt_boundary (by omega)) hfo
      rw [hpu] at hbo
      exact hne (hl.gapless.termAt_unique hbo hown)
    obtain ⟨e, he, rfl⟩ := entry_of_termAt hfo hbe
    obtain ⟨first, hfi, hlow, hhi⟩ := hf.firstIndexForTerm_bounds he
    rw [hfi, Option.getD_some]
    simp only [handleConflictResponse]
    cases hla : leader.lastIndexForTerm e.term with
    | none =>
      dsimp only
      omega
    | some =>
      have hbn :=
        lastIndexForTerm_bounds hl hrising hrising' hshares hown hfo hne hbe hla
      dsimp only
      omega
  · have hno : ∀ t, ¬ TermAt follower (n - 1) t := by
      intro t ht
      cases (hf.gapless.entryTerm_iff hterm).mpr ht
    have hbe : follower.lastPurgedIndex < n - 1 := by
      refine lt_of_le_of_ne hn fun heq => hno follower.lastPurgedTerm ?_
      exact heq ▸ termAt_boundary (by omega)
    have hmi : follower.maxIndex < n - 1 := by
      by_contra hle
      obtain ⟨t, ht⟩ := hf.gapless.exists_termAt hpos hn (by omega)
      exact hno t ht
    have hlow := hf.lastPosition_bounds.1
    have hhi := hf.lastPosition_bounds.2 (n - 1) hbe hmi
    simp only [handleConflictResponse]
    omega

end Rejection

/-! ## Repeated rejections -/

/-- What comes of one request. -/
inductive Probe where
  | accepted (prevLogIndex : Nat)
  | rejected (nextIndex : Nat)
  /-- The leader has purged the position that it would have to ask with. -/
  | needSnapshot
  /-- The follower has a higher term, or it answers with nothing. -/
  | refused
deriving DecidableEq, Repr

section Rounds

variable (leader follower : BufferedRaftLog) (myId peer peerTerm : Nat)
  (entriesFor : Nat → List Entry) (data : ReplicationData)

/-- The state that a request is built from, with the next index of the peer. -/
def askingFrom (next : Nat) : ReplicationData :=
  { data with peerNextIndices := data.peerNextIndices.insert peer next }

/-- One request, the follower's answer, and the next index that the leader computes from it. -/
def probeOnce (next : Nat) : Except Fault Probe :=
  match buildAppendRequest myId leader peer (entriesFor next) (askingFrom peer data next) with
  | .error fault => .error fault
  | .ok .needSnapshot => .ok .needSnapshot
  | .ok (.append request _) =>
    match checkAppendEntriesRequestIsLegal peer peerTerm request follower with
    | .error fault => .error fault
    | .ok response =>
      match response.result with
      | some (.success _) => .ok (.accepted request.prevLogIndex)
      | some (.conflict conflictTerm conflictIndex) =>
        .ok (.rejected (handleConflictResponse conflictTerm conflictIndex leader next).nextIndex)
      | _ => .ok .refused

/-- Ask until a request is not rejected; nothing if that takes more than `rounds` rounds. -/
def probe : Nat → Nat → Except Fault (Option Probe)
  | 0, _ => .ok none
  | rounds + 1, next =>
    match probeOnce leader follower myId peer peerTerm entriesFor data next with
    | .ok (.rejected next') => probe rounds next'
    | .ok outcome => .ok (some outcome)
    | .error fault => .error fault

/-- The probing ended with a request behind the follower's purge boundary that it accepts, or at
a position that the leader has purged. -/
def Settled (next : Nat) : Option Probe → Prop
  | some (.accepted prev) => follower.lastPurgedIndex ≤ prev ∧ prev < next
  | some .needSnapshot => follower.lastPurgedIndex < leader.lastPurgedIndex
  | _ => False

variable {leader follower myId peer peerTerm entriesFor data}

variable (myId peer data) in
/-- The leader builds a request unless it has purged the predecessor. -/
theorem buildAppendRequest_cases (hl : Whole leader)
    (hslots : leader.termSegments.segCount ≤ maxTermSegments) (entries : List Entry) (next : Nat) :
    (∃ request, buildAppendRequest myId leader peer entries (askingFrom peer data next) =
        .ok (.append request (min next (leader.lastEntryId + 1)))) ∨
      buildAppendRequest myId leader peer entries (askingFrom peer data next) =
          .ok .needSnapshot ∧ min next (leader.lastEntryId + 1) - 1 < leader.lastPurgedIndex := by
  have hrec : ((askingFrom peer data next).peerNextIndices[peer]?).getD 1 = next := by
    rw [askingFrom, OrderedMap.getElem?_insert_eq, if_pos rfl, Option.getD_some]
  unfold buildAppendRequest
  rw [hrec]
  dsimp only
  have hle : min next (leader.lastEntryId + 1) - 1 ≤ leader.maxIndex := by
    change min next (leader.maxIndex + 1) - 1 ≤ leader.maxIndex
    omega
  generalize hpr : min next (leader.lastEntryId + 1) - 1 = prev at hle ⊢
  obtain ⟨answer, hans⟩ := entryTerm_ok hslots prev
  rw [hans]
  cases answer with
  | some => exact .inl ⟨_, rfl⟩
  | none =>
    have hno : ∀ t, ¬ TermAt leader prev t := by
      intro t ht
      cases (hl.gapless.entryTerm_iff hans).mpr ht
    dsimp only
    split_ifs with hze hbe
    · exact .inl ⟨_, rfl⟩
    · refine .inr ⟨rfl, ?_⟩
      have hst := hl.start
      have hbo := hl.spans.bounds
      change prev < leader.minIndex at hbe
      change ¬ (prev = 0 ∧ leader.minIndex ≤ 1) at hze
      have hne : prev ≠ leader.lastPurgedIndex := by
        rintro rfl
        exact hno _ (termAt_boundary (by omega))
      omega
    · exfalso
      have hst := hl.start
      have hbo := hl.spans.bounds
      change ¬ prev < leader.minIndex at hbe
      change ¬ (prev = 0 ∧ leader.minIndex ≤ 1) at hze
      obtain ⟨t, ht⟩ := hl.gapless.exists_termAt (i := prev) (by omega) (by omega) hle
      exact hno t ht

variable (peer) in
/-- A follower that is not ahead in its term accepts or rejects. -/
theorem checkAppendEntriesRequestIsLegal_answers
    (hslots : follower.termSegments.segCount ≤ maxTermSegments) {request : AppendEntriesRequest}
    (hterm : peerTerm ≤ request.term) :
    ∃ response, checkAppendEntriesRequestIsLegal peer peerTerm request follower = .ok response ∧
      ((∃ id, response.result = some (.success id)) ∨
        ∃ conflictTerm conflictIndex,
          response.result = some (.conflict conflictTerm conflictIndex)) := by
  rcases checkAppendEntriesRequestIsLegal_eq peer request follower hterm with
    ⟨-, _, hsu⟩ | ⟨-, hco⟩
  · exact ⟨_, hsu, Or.inl ⟨_, rfl⟩⟩
  · obtain ⟨answer, hans⟩ := entryTerm_ok hslots request.prevLogIndex
    rw [hans] at hco
    exact ⟨_, hco, Or.inr ⟨_, _, rfl⟩⟩

section Progress

variable (hl : Whole leader) (hf : Whole follower) (hrising : Rising leader)
  (hrising' : Rising follower) (hshares : SharesTerms leader follower)
  (hslots : leader.termSegments.segCount ≤ maxTermSegments)
  (hslots' : follower.termSegments.segCount ≤ maxTermSegments)
  (hterm : peerTerm ≤ data.currentTerm)

include hl hf hrising hrising' hshares hslots hslots' hterm

variable (myId peer entriesFor) in
/-- A round settles the probing, or takes the next index back. -/
theorem probeOnce_cases {next : Nat}
    (hnx : follower.lastPurgedIndex + 1 ≤ min next (leader.lastEntryId + 1)) :
    ∃ outcome, probeOnce leader follower myId peer peerTerm entriesFor data next = .ok outcome ∧
      (Settled leader follower next (some outcome) ∨
        ∃ next', outcome = .rejected next' ∧ follower.lastPurgedIndex + 1 ≤ next' ∧
          next' ≤ min next (leader.lastEntryId + 1) - 1) := by
  unfold probeOnce
  rcases buildAppendRequest_cases myId peer data hl hslots (entriesFor next) next with
    ⟨request, hbu⟩ | ⟨hbu, hpu⟩
  · obtain ⟨-, hpr, hreq, -⟩ := buildAppendRequest_append hl hbu
    obtain ⟨response, hch, hres⟩ :=
      checkAppendEntriesRequestIsLegal_answers peer hslots' (hreq ▸ hterm)
    rw [hbu]
    dsimp only
    rw [hch]
    rcases hres with ⟨id, hres⟩ | ⟨conflictTerm, conflictIndex, hres⟩
    · refine ⟨.accepted request.prevLogIndex, by simp [hres], Or.inl ?_⟩
      change follower.lastPurgedIndex ≤ request.prevLogIndex ∧ request.prevLogIndex < next
      omega
    · have hbo := conflict_next_bounds hl hf hrising hrising' hshares hbu (by omega) hch
        hres next
      exact ⟨_, by simp only [hres], Or.inr ⟨_, rfl, hbo⟩⟩
  · rw [hbu]
    refine ⟨.needSnapshot, rfl, Or.inl ?_⟩
    change follower.lastPurgedIndex < leader.lastPurgedIndex
    omega

/-- The probing settles after at most as many rounds as there are indexes above the follower's
purge boundary. -/
theorem probe_settles {rounds next : Nat} (hrn : next ≤ follower.lastPurgedIndex + rounds)
    (hnx : follower.lastPurgedIndex + 1 ≤ min next (leader.lastEntryId + 1)) :
    ∃ outcome, probe leader follower myId peer peerTerm entriesFor data rounds next =
      .ok outcome ∧ Settled leader follower next outcome := by
  induction rounds generalizing next with
  | zero => omega
  | succ rounds ih =>
    obtain ⟨outcome, hro, hse | ⟨next', rfl, hlow, hhi⟩⟩ :=
      probeOnce_cases myId peer entriesFor hl hf hrising hrising' hshares hslots hslots' hterm
        hnx
    · refine ⟨some outcome, ?_, hse⟩
      cases outcome with
      | rejected => exact absurd hse id
      | accepted prev | needSnapshot | refused =>
        rw [probe, hro]
    · obtain ⟨outcome, hpr, hse⟩ := @ih next' (by omega) (by omega)
      refine ⟨outcome, ?_, ?_⟩
      · rw [probe, hro]
        exact hpr
      · cases outcome with
        | none => exact hse
        | some outcome =>
          cases outcome with
          | accepted =>
            obtain ⟨hle, hlt⟩ := hse
            exact ⟨hle, by omega⟩
          | rejected | needSnapshot | refused => exact hse

end Progress

end Rounds

/-- Between a leader and a follower whose terms have one origin, a rejected request takes the
next index back to a value above the follower's purge boundary, and repeated rejections end: with
a request that the follower accepts, or below the leader's own purge boundary. -/
theorem conflict_probing_progress {leader follower : BufferedRaftLog} (hl : Whole leader)
    (hf : Whole follower) (hrising : Rising leader) (hrising' : Rising follower)
    (hshares : SharesTerms leader follower) (myId peer peerTerm : Nat) (data : ReplicationData) :
    (∀ entries n request response conflictTerm conflictIndex current,
      follower.lastPurgedIndex ≤ n - 1 →
      buildAppendRequest myId leader peer entries data = .ok (.append request n) →
      checkAppendEntriesRequestIsLegal peer peerTerm request follower = .ok response →
      response.result = some (.conflict conflictTerm conflictIndex) →
      follower.lastPurgedIndex + 1 ≤
          (handleConflictResponse conflictTerm conflictIndex leader current).nextIndex ∧
        (handleConflictResponse conflictTerm conflictIndex leader current).nextIndex ≤ n - 1) ∧
    (leader.termSegments.segCount ≤ maxTermSegments →
      follower.termSegments.segCount ≤ maxTermSegments → peerTerm ≤ data.currentTerm →
      ∀ entriesFor n, follower.lastPurgedIndex + 1 ≤ min n (leader.lastEntryId + 1) →
        ∃ outcome, probe leader follower myId peer peerTerm entriesFor data
          (n - follower.lastPurgedIndex) n = .ok outcome ∧
          Settled leader follower n outcome) := by
  constructor
  · intro entries n request response conflictTerm conflictIndex current hn hbu hch hre
    exact conflict_next_bounds hl hf hrising hrising' hshares hbu hn hch hre current
  · intro hslots hslots' hterm entriesFor n hn
    exact probe_settles hl hf hrising hrising' hshares hslots hslots' hterm (by omega) hn

/-! ## Two pairs of logs -/

section Examples

/-- The positions of a log that is opened over a store. -/
def storedPositions (loaded : List Entry) (boundary : Option LogId) : List (Nat × Nat) :=
  boundary.toList.map (fun id => (id.index, id.term)) ++ loaded.map fun e => (e.index, e.term)

variable {diskLen : Nat} {loaded : List Entry} {boundary : Option LogId}

theorem termAt_new (hlo : loaded.Pairwise fun a b => a.index < b.index)
    (hbo : ∀ id ∈ boundary, 0 < id.index) (i t : Nat) :
    TermAt (new diskLen loaded boundary) i t ↔ (i, t) ∈ storedPositions loaded boundary := by
  have hen : (∃ e, (new diskLen loaded boundary).entry i = some e ∧ e.term = t) ↔
      ∃ e ∈ loaded, (e.index, e.term) = (i, t) := by
    rw [entry_new hlo]
    constructor
    · rintro ⟨e, he, rfl⟩
      obtain ⟨hmem, rfl⟩ := PartialLog.ofList_eq_some_imp he
      exact ⟨e, hmem, rfl⟩
    · rintro ⟨e, hmem, heq⟩
      cases heq
      exact ⟨e, PartialLog.ofList_of_mem hlo hmem, rfl⟩
  unfold TermAt storedPositions
  rw [hen, List.mem_append, List.mem_map, List.mem_map, or_comm]
  refine or_congr ?_ Iff.rfl
  cases boundary with
  | none => simp [new]
  | some id =>
    have hpos : 0 < id.index := hbo id rfl
    simp [new, hpos, eq_comm]

theorem whole_new (hba : Batch loaded) (hle : ∀ e ∈ loaded, e.index ≤ diskLen)
    (hsr : StoreInPosition diskLen loaded boundary)
    (hst : (new diskLen loaded boundary).lastPurgedIndex = 0 →
      (new diskLen loaded boundary).minIndex = 1) : Whole (new diskLen loaded boundary) := by
  apply whole_of_reach
  · refine ⟨none, rfl, Relation.ReflTransGen.single ?_⟩
    exact ⟨.openLog diskLen loaded boundary, ⟨⟨hba, hle⟩, hsr⟩, rfl⟩
  · exact fun _ hze => hst hze

theorem rising_new (hlo : loaded.Pairwise fun a b => a.index < b.index)
    (hbo : ∀ id ∈ boundary, 0 < id.index)
    (h : ∀ p ∈ storedPositions loaded boundary, ∀ q ∈ storedPositions loaded boundary,
      p.1 ≤ q.1 → p.2 ≤ q.2) : Rising (new diskLen loaded boundary) := by
  intro i j t u ht hu hle
  rw [termAt_new hlo hbo] at ht hu
  exact h (i, t) ht (j, u) hu hle

def replacedSuffix : List Entry := [⟨2, 1, none⟩, ⟨3, 2, none⟩, ⟨4, 2, none⟩]

def newerLeader : List Entry := [⟨1, 1, none⟩, ⟨2, 1, none⟩, ⟨3, 3, none⟩, ⟨4, 3, none⟩]

def peerless : ReplicationData := ⟨4, 3, 0, ∅⟩

/-- A follower that purged its first entry and holds two entries of a term that the leader does
not have: the leader jumps back to the follower's first one, and is accepted there. -/
theorem probing_settles_behind_purge :
    probeOnce (new 4 newerLeader none) (new 4 replacedSuffix (some ⟨1, 1⟩)) 1 2 3 (fun _ => [])
        peerless 5 = .ok (.rejected 3) ∧
      ∃ outcome, probe (new 4 newerLeader none) (new 4 replacedSuffix (some ⟨1, 1⟩)) 1 2 3
        (fun _ => []) peerless 4 5 = .ok outcome ∧
        Settled (new 4 newerLeader none) (new 4 replacedSuffix (some ⟨1, 1⟩)) 5 outcome := by
  have hasc : newerLeader.Pairwise fun a b => a.index < b.index := by decide
  have hasc' : replacedSuffix.Pairwise fun a b => a.index < b.index := by decide
  have hpos : ∀ id ∈ (none : Option LogId), 0 < id.index := nofun
  have hpos' : ∀ id ∈ some (⟨1, 1⟩ : LogId), 0 < id.index := by decide
  have hshares : SharesTerms (new 4 newerLeader none) (new 4 replacedSuffix (some ⟨1, 1⟩)) := by
    constructor
    · intro _ _
      exact (termAt_new hasc hpos 1 1).mpr (by decide)
    · intro i j t hi hj hle _
      rw [termAt_new hasc hpos] at hi ⊢
      rw [termAt_new hasc' hpos'] at hj
      have hall : ∀ p ∈ storedPositions newerLeader none,
          ∀ q ∈ storedPositions replacedSuffix (some ⟨1, 1⟩), p.2 = q.2 → q.1 ≤ p.1 →
            q ∈ storedPositions newerLeader none := by decide
      exact hall (i, t) hi (j, t) hj rfl hle
  have hpr := conflict_probing_progress
    (whole_new (by decide) (by decide) (by decide) (by decide +kernel))
    (whole_new (by decide) (by decide) (by decide) (by decide +kernel))
    (rising_new hasc hpos (by decide)) (rising_new hasc' hpos' (by decide)) hshares 1 2 3 peerless
  refine ⟨by decide +kernel, ?_⟩
  exact hpr.2 (by decide +kernel) (by decide +kernel) (by decide) (fun _ => []) 5
    (by decide +kernel)

def lateTerm : List Entry := [⟨1, 1, none⟩, ⟨2, 1, none⟩, ⟨3, 2, none⟩]

def earlyTerm : List Entry := [⟨1, 1, none⟩, ⟨2, 2, none⟩]

/-- Two logs with rising terms and log matching in which a term starts later in the leader's log:
a rejection takes the next index forward, and the probing goes round forever. -/
theorem log_matching_probing_diverges :
    Whole (new 3 lateTerm none) ∧ Whole (new 2 earlyTerm none) ∧
      Rising (new 3 lateTerm none) ∧ Rising (new 2 earlyTerm none) ∧
      PartialLog.LogMatching Entry.term 0 (new 3 lateTerm none).entry
        (new 2 earlyTerm none).entry ∧
      probeOnce (new 3 lateTerm none) (new 2 earlyTerm none) 1 2 3 (fun _ => []) peerless 3 =
        .ok (.rejected 4) ∧
      ∀ rounds, probe (new 3 lateTerm none) (new 2 earlyTerm none) 1 2 3 (fun _ => []) peerless
        rounds 3 = .ok none := by
  have hasc : lateTerm.Pairwise fun a b => a.index < b.index := by decide
  have hasc' : earlyTerm.Pairwise fun a b => a.index < b.index := by decide
  have hfo : probeOnce (new 3 lateTerm none) (new 2 earlyTerm none) 1 2 3 (fun _ => [])
      peerless 3 = .ok (.rejected 4) := by decide +kernel
  have hba : probeOnce (new 3 lateTerm none) (new 2 earlyTerm none) 1 2 3 (fun _ => [])
      peerless 4 = .ok (.rejected 3) := by decide +kernel
  refine ⟨whole_new (by decide) (by decide) (by decide) (by decide +kernel),
    whole_new (by decide) (by decide) (by decide) (by decide +kernel),
    rising_new hasc nofun (by decide), rising_new hasc' nofun (by decide), ?_, hfo, ?_⟩
  · intro i a b ha hb hterm j hlt hle
    rw [entry_new hasc] at ha ⊢
    rw [entry_new hasc'] at hb ⊢
    obtain ⟨hmem, rfl⟩ := PartialLog.ofList_eq_some_imp ha
    obtain ⟨hmem', hin⟩ := PartialLog.ofList_eq_some_imp hb
    have hall : ∀ x ∈ lateTerm, ∀ y ∈ earlyTerm, y.index = x.index → x.term = y.term →
        x.index = 1 := by decide
    have hone := hall a hmem b hmem' hin hterm
    have hj : j = 1 := by omega
    rw [hj]
    rfl
  · have hbo : ∀ rounds, probe (new 3 lateTerm none) (new 2 earlyTerm none) 1 2 3
          (fun _ => []) peerless rounds 3 = .ok none ∧
        probe (new 3 lateTerm none) (new 2 earlyTerm none) 1 2 3 (fun _ => []) peerless
          rounds 4 = .ok none := by
      intro rounds
      induction rounds with
      | zero => exact ⟨rfl, rfl⟩
      | succ rounds ih =>
        rw [probe, hfo, probe, hba]
        exact ⟨ih.2, ih.1⟩
    exact fun rounds => (hbo rounds).1

end Examples

end DEngine.Raft

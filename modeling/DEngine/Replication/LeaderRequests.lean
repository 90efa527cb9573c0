import DEngine.Replication.LeaderBatch

/-!
# When the requests of a leader are well formed

A request is well formed when its entries follow its predecessor without a gap,
are the leader's own, and its predecessor is a position the leader can vouch
for. The main result characterises the well-formed requests of a batch by the
leader's log before the batch and the next index recorded for the peer.
-/

namespace DEngine.Replication

open Library Library.PartialLog Storage BufferedRaftLog

/-! ## The new entries -/

variable {term next : Nat} {payloads : List EntryPayload} {entries : List Entry}

/-- The payloads become entries in their order. -/
theorem numberPayloads_eq {stop : Nat} (h : numberPayloads term stop next payloads = .ok entries) :
    entries = (payloads.zipIdx next).map fun p => ⟨p.2, term, some p.1⟩ := by
  induction payloads generalizing next entries with
  | nil =>
    cases h
    rfl
  | cons payload rest ih =>
    rw [numberPayloads] at h
    split_ifs at h
    cases hre : numberPayloads term stop (next + 1) rest with
    | error => simp [hre] at h
    | ok =>
      simp only [hre, Except.ok.injEq] at h
      rw [← h, ih hre]
      rfl

theorem numberPayloads_ok {stop : Nat} (h : numberPayloads term stop next payloads = .ok entries) :
    entries.length = payloads.length ∧ Consecutive Entry.index entries next ∧
      ∀ e ∈ entries, e.term = term := by
  have hlen : entries.length = payloads.length := by simp [numberPayloads_eq h]
  refine ⟨hlen, ?_, ?_⟩
  · rw [Consecutive, hlen, numberPayloads_eq h, List.map_map]
    exact List.zipIdx_map_snd _ _
  · intro e he
    rw [numberPayloads_eq h] at he
    obtain ⟨p, -, rfl⟩ := List.mem_map.mp he
    rfl

/-- What a leader's log is once it holds a batch. -/
structure Generated (log after : BufferedRaftLog) (count : Nat) (entries : List Entry) :
    Prop where
  length_eq : entries.length = count
  consecutive : Consecutive Entry.index entries log.nextId
  wellFormed : after.WellFormed
  entry_new : ∀ e ∈ entries, after.entry e.index = some e
  entry_old : ∀ i, i < log.nextId → after.entry i = log.entry i
  last_eq : after.lastEntryId = if count = 0 then log.lastEntryId else log.nextId + count - 1
  first_eq : after.firstEntryId =
    if count = 0 ∨ log.lastEntryId ≠ 0 then log.firstEntryId else log.nextId
  purgedIndex_eq : after.lastPurgedIndex = log.lastPurgedIndex
  purgedTerm_eq : after.lastPurgedTerm = log.lastPurgedTerm
  segments : ∀ i t, i < log.nextId → after.termSegments.get i = .ok (some t) →
    log.termSegments.get i = .ok (some t)

variable {log : BufferedRaftLog}

theorem generated_nil (h : log.WellFormed) : Generated log log 0 [] where
  length_eq := rfl
  consecutive := consecutive_nil _ _
  wellFormed := h
  entry_new := fun e he => by cases he
  entry_old := fun _ _ => rfl
  last_eq := (if_pos rfl).symm
  first_eq := (if_pos (.inl rfl)).symm
  purgedIndex_eq := rfl
  purgedTerm_eq := rfl
  segments := fun _ _ _ ht => ht

/-- Inserting consecutive entries from the next identifier on. -/
theorem generated_insert {reserved : BufferedRaftLog}
    (h : log.WellFormed) (hre : reserved = { log with nextId := log.nextId + entries.length })
    (hes : Batch entries) (hco : Consecutive Entry.index entries log.nextId)
    (hne : entries ≠ []) :
    Generated log (reserved.insertToMemory entries) entries.length entries := by
  have hwf : reserved.WellFormed := by
    rw [hre]
    exact h.of_same rfl rfl rfl rfl (Nat.le_add_right _ _)
  have hmax : reserved.maxIndex = log.maxIndex := by rw [hre]
  have hnx := h.max_lt_next
  have hab : ∀ e ∈ entries, reserved.maxIndex < e.index := by
    intro e he
    have := (hco.bounds he).1
    omega
  have hpos : 0 < entries.length := List.length_pos_iff.mpr hne
  obtain ⟨last, hla⟩ : ∃ last, entries.getLast? = some last :=
    ⟨_, List.getLast?_eq_some_getLast hne⟩
  obtain ⟨first, hfi⟩ : ∃ first, entries.head? = some first :=
    ⟨_, List.head?_eq_some_head hne⟩
  have hfirst_eq : first.index = log.nextId := by
    have hhe := congrArg List.head? hco
    obtain ⟨k, hk⟩ := Nat.exists_eq_succ_of_ne_zero (Nat.ne_of_gt hpos)
    simpa [hfi, hk, List.range'_succ] using hhe
  exact {
    length_eq := rfl
    consecutive := hco
    wellFormed := hwf.insertToMemory hes hab
    entry_new := fun e he => entry_insertToMemory_of_mem hes he
    entry_old := by
      intro i hi
      rw [entry_insertToMemory_of_not_mem, hre]
      · rfl
      · intro e he
        have := (hco.bounds he).1
        omega
    last_eq := by
      have hkey := hco.getLast_key hla
      rw [if_neg (Nat.ne_of_gt hpos), lastEntryId,
        maxIndex_insertToMemory hla
          (hab last (List.mem_of_getLast? hla))]
      omega
    first_eq := by
      rw [firstEntryId, hwf.minIndex_insertToMemory hfi
        (hab first (List.mem_of_head? hfi)), hfirst_eq, hre]
      have hlen : entries.length ≠ 0 := Nat.ne_of_gt hpos
      by_cases hze : log.maxIndex = 0 <;>
        simp [firstEntryId, lastEntryId, hze, hlen]
    purgedIndex_eq := by rw [hre]; rfl
    purgedTerm_eq := by rw [hre]; rfl
    segments := by
      intro i t hi ht
      rw [hre] at ht
      refine TermSegments.get_of_get_onAppend h.fresh hes.term_pos (fun e he => ?_) ht
      have := (hco.bounds he).1
      omega }

/-- How a batch can end: nothing to do, a failure that has at most reserved the identifiers, or
the numbered entries behind the log. -/
theorem generateNewEntries_cases (payloads : List EntryPayload) (term : Nat)
    (log : BufferedRaftLog) :
    payloads = [] ∧ generateNewEntries payloads term log = (.ok [], log) ∨
      (∃ fault, generateNewEntries payloads term log =
        (.error fault, (log.preAllocateIdRange payloads.length).2)) ∨
      ∃ stop entries, numberPayloads term stop log.nextId payloads = .ok entries ∧
        entries ≠ [] ∧ log.nextId ≤ u64Max - payloads.length ∧
        generateNewEntries payloads term log = (.ok entries,
          { log with nextId := log.nextId + payloads.length }.insertToMemory entries) := by
  unfold generateNewEntries
  split_ifs with hnil
  · exact .inl ⟨hnil, rfl⟩
  have hco : payloads.length ≠ 0 := fun hz => hnil (List.length_eq_zero_iff.mp hz)
  apply Or.inr
  rcases hra : log.preAllocateIdRange payloads.length with ⟨_ | ⟨start, stop⟩, reserved⟩
  · exact .inl ⟨_, rfl⟩
  obtain ⟨hst, hov, rfl⟩ := preAllocateIdRange_ok hco hra
  obtain rfl : start = log.nextId := congrArg Prod.fst hst
  dsimp only
  cases hnum : numberPayloads term stop log.nextId payloads with
  | error fault => exact .inl ⟨fault, rfl⟩
  | ok entries =>
    have hne : entries ≠ [] := by
      rintro rfl
      exact hco (numberPayloads_ok hnum).1.symm
    dsimp only [appendEntries]
    by_cases hpo : log.poisoned = true
    · rw [if_pos hpo]
      exact .inl ⟨_, rfl⟩
    · rw [if_neg hpo, if_neg hne]
      exact .inr ⟨stop, entries, hnum, hne, hov, rfl⟩

/-- The payloads of a batch become entries from the next identifier on. -/
theorem generateNewEntries_eq (hok : (generateNewEntries payloads term log).1 = .ok entries) :
    entries = (payloads.zipIdx log.nextId).map fun p => ⟨p.2, term, some p.1⟩ := by
  rcases generateNewEntries_cases payloads term log with
    ⟨rfl, heq⟩ | ⟨fault, heq⟩ | ⟨stop, numbered, hnum, -, -, heq⟩ <;>
    rw [heq] at hok <;> cases hok
  · rfl
  · exact numberPayloads_eq hnum

/-- A batch that was appended is numbered from the next identifier on. -/
theorem generateNewEntries_ok (h : log.WellFormed) (hte : 1 ≤ term)
    (hok : (generateNewEntries payloads term log).1 = .ok entries) :
    Generated log (generateNewEntries payloads term log).2 payloads.length entries := by
  rcases generateNewEntries_cases payloads term log with
    ⟨rfl, heq⟩ | ⟨fault, heq⟩ | ⟨stop, numbered, hnum, hne, hov, heq⟩ <;>
    rw [heq] at hok ⊢ <;> cases hok
  · exact generated_nil h
  · obtain ⟨hlen, hco, htr⟩ := numberPayloads_ok hnum
    have hpos : 0 < entries.length := List.length_pos_iff.mpr hne
    have hnx := h.max_lt_next
    rw [← hlen] at hov ⊢
    refine generated_insert h rfl
      ⟨hco.ascending, fun e he => ?_, fun e he => ?_, fun e he => ?_⟩ hco hne
    · have := (hco.bounds he).1
      omega
    · have := (hco.bounds he).2
      omega
    · rw [htr e he]
      exact hte

/-! ## From the requests back to the peers -/

variable {myId id : Nat} {request : AppendEntriesRequest}

/-- A request of the result was built for its target from the entries ready for it. -/
theorem mem_buildRequests {data : ReplicationData}
    {skipPeers ids : List Nat} {entriesPerPeer : OrderedMap (List Entry)}
    {result : PrepareResult} (hno : ids.Nodup)
    (hok : buildRequests myId log data skipPeers ids entriesPerPeer = .ok result)
    (hmem : (id, request, next) ∈ result.appendRequests) :
    id ∈ ids ∧ id ∉ skipPeers ∧
      buildAppendRequest myId log id ((entriesPerPeer[id]?).getD []) data =
        .ok (.append request next) := by
  induction ids generalizing entriesPerPeer result with
  | nil =>
    cases hok
    cases hmem
  | cons peer rest ih =>
    rw [List.nodup_cons] at hno
    have hre : ∀ {entries : OrderedMap (List Entry)} {tail : PrepareResult},
        buildRequests myId log data skipPeers rest entries = .ok tail →
        (id, request, next) ∈ tail.appendRequests →
        id ∈ peer :: rest ∧ id ∉ skipPeers ∧ id ≠ peer ∧
          buildAppendRequest myId log id ((entries[id]?).getD []) data =
            .ok (.append request next) := by
      intro entries tail hta hin
      obtain ⟨hid, hsk, hbu⟩ := ih hno.2 hta hin
      refine ⟨List.mem_cons_of_mem peer hid, hsk, ?_, hbu⟩
      rintro rfl
      exact hno.1 hid
    rw [buildRequests] at hok
    by_cases hsk : peer ∈ skipPeers
    · rw [if_pos hsk] at hok
      obtain ⟨hid, hnot, -, hbu⟩ := hre hok hmem
      exact ⟨hid, hnot, hbu⟩
    rw [if_neg hsk] at hok
    cases hbl : buildAppendRequest myId log peer ((entriesPerPeer[peer]?).getD []) data with
    | error fault =>
      rw [hbl] at hok
      cases fault <;> simp only [reduceCtorEq] at hok <;>
        exact ⟨(hre hok hmem).1, (hre hok hmem).2.1, (hre hok hmem).2.2.2⟩
    | ok outcome =>
      rw [hbl] at hok
      cases outcome with
      | needSnapshot =>
        cases hta : buildRequests myId log data skipPeers rest entriesPerPeer with
        | error =>
          rw [hta] at hok
          cases hok
        | ok =>
          rw [hta] at hok
          cases hok
          obtain ⟨hid, hnot, -, hbu⟩ := hre hta hmem
          exact ⟨hid, hnot, hbu⟩
      | append =>
        cases hta : buildRequests myId log data skipPeers rest
            (entriesPerPeer.erase peer) with
        | error fault =>
          simp only [hta] at hok
          cases hok
        | ok tail =>
          simp only [hta] at hok
          cases hok
          rcases List.mem_cons.mp hmem with heq | hin
          · cases heq
            exact ⟨List.mem_cons_self, hsk, hbl⟩
          · obtain ⟨hid, hnot, hne, hbu⟩ := hre hta hin
            rw [OrderedMap.getElem?_erase_eq, if_neg hne] at hbu
            exact ⟨hid, hnot, hbu⟩

variable {newEntries : List Entry} {maxLegacyEntries : Nat}

theorem mem_retrieveToBeSyncedLogsForPeers
    {leaderLastIndexBefore firstIndex : Nat} {peerNextIndices : OrderedMap Nat}
    {result : PeerEntriesResult} :
    (id, result) ∈ retrieveToBeSyncedLogsForPeers myId newEntries leaderLastIndexBefore
        maxLegacyEntries peerNextIndices log firstIndex ↔
      id ≠ myId ∧ ∃ n, peerNextIndices[id]? = some n ∧
        entriesForPeer newEntries leaderLastIndexBefore maxLegacyEntries log firstIndex n =
          some result := by
  rw [retrieveToBeSyncedLogsForPeers, List.mem_filterMap]
  constructor
  · rintro ⟨⟨peer, n⟩, hmem, hso⟩
    by_cases hse : peer = myId
    · simp [hse] at hso
    · rw [if_neg hse, Option.map_eq_some_iff] at hso
      obtain ⟨found, hfo, heq⟩ := hso
      cases heq
      exact ⟨hse, n, (OrderedMap.mem_toList_iff _ _ _).mp hmem, hfo⟩
  · rintro ⟨hse, n, hn, hfo⟩
    refine ⟨(id, n), (OrderedMap.mem_toList_iff _ _ _).mpr hn, ?_⟩
    simp [hse, hfo]

theorem retrieve_pairwise (myId : Nat) (newEntries : List Entry)
    (leaderLastIndexBefore maxLegacyEntries : Nat) (peerNextIndices : OrderedMap Nat)
    (log : BufferedRaftLog) (firstIndex : Nat) :
    (retrieveToBeSyncedLogsForPeers myId newEntries leaderLastIndexBefore maxLegacyEntries
      peerNextIndices log firstIndex).Pairwise fun a b => a.1 < b.1 := by
  refine (OrderedMap.toList_pairwise peerNextIndices).filterMap _ ?_
  rintro ⟨a, n⟩ ⟨b, m⟩ hab p hp q hq
  have hpa : p.1 = a := by
    by_cases hse : a = myId
    · simp [hse] at hp
    · simp only [if_neg hse, Option.map_eq_some_iff] at hp
      obtain ⟨_, _, rfl⟩ := hp
      rfl
  have hqb : q.1 = b := by
    by_cases hse : b = myId
    · simp [hse] at hq
    · simp only [if_neg hse, Option.map_eq_some_iff] at hq
      obtain ⟨_, _, rfl⟩ := hq
      rfl
  rw [hpa, hqb]
  exact hab

theorem getElem?_insertReady_of_ne (acc : OrderedMap (List Entry)) (p : Nat × PeerEntriesResult)
    (h : ∀ es, p ≠ (id, .ready es)) : (insertReady acc p)[id]? = acc[id]? := by
  obtain ⟨peer, result⟩ := p
  cases result with
  | ready entries =>
    have hne : id ≠ peer := by
      rintro rfl
      exact h entries rfl
    change (acc.insert peer entries)[id]? = _
    rw [OrderedMap.getElem?_insert_eq, if_neg hne]
  | needSnapshot | corruptGap _ _ _ _ _ => rfl

variable {results : List (Nat × PeerEntriesResult)}

/-- A peer without ready entries has none in the map. -/
theorem getElem?_ready_of_not_mem
    (acc : OrderedMap (List Entry)) (h : ∀ es, (id, .ready es) ∉ results) :
    (results.foldl insertReady acc)[id]? = acc[id]? := by
  induction results generalizing acc with
  | nil => rfl
  | cons p rest ih =>
    rw [List.foldl_cons, ih _ fun es hes => h es (List.mem_cons_of_mem p hes),
      getElem?_insertReady_of_ne]
    rintro es rfl
    exact h es List.mem_cons_self

/-- A peer with ready entries has them in the map. -/
theorem getElem?_ready_of_mem (acc : OrderedMap (List Entry)) {es : List Entry}
    (hs : results.Pairwise fun a b => a.1 < b.1) (h : (id, .ready es) ∈ results) :
    (results.foldl insertReady acc)[id]? = some es := by
  induction results generalizing acc with
  | nil => cases h
  | cons p rest ih =>
    rw [List.pairwise_cons] at hs
    rcases List.mem_cons.mp h with rfl | hre
    · rw [List.foldl_cons, getElem?_ready_of_not_mem]
      · change (acc.insert id es)[id]? = some es
        rw [OrderedMap.getElem?_insert_eq, if_pos rfl]
      · intro es' hes'
        have hlt := hs.1 (id, .ready es') hes'
        exact lt_irrefl id hlt
    · exact ih _ hs.2 hre

/-- The entries that a request carries for a peer with the given recorded next index. -/
def Carries (newEntries : List Entry) (leaderLastIndexBefore maxLegacyEntries : Nat)
    (log : BufferedRaftLog) (recorded : Option Nat) (carried : List Entry) : Prop :=
  match recorded with
  | none => carried = []
  | some n =>
    entriesForPeer newEntries leaderLastIndexBefore maxLegacyEntries log log.firstEntryId n =
      if carried = [] then none else some (.ready carried)

theorem entriesForPeer_ready_ne_nil {leaderLastIndexBefore firstIndex n : Nat}
    (h : entriesForPeer newEntries leaderLastIndexBefore maxLegacyEntries log firstIndex n =
      some (.ready entries)) : entries ≠ [] := by
  unfold entriesForPeer at h
  dsimp only at h
  split_ifs at h <;> first | (cases h; assumption) | cases h

variable {cap : Nat}

/-- What is ready for a peer that is not skipped is what its next index asks for. -/
theorem carries_of_not_skipped {last : Nat} {nextIndex : OrderedMap Nat}
    (hres : results = retrieveToBeSyncedLogsForPeers myId newEntries last cap nextIndex log
      log.firstEntryId) (hse : id ≠ myId) (hsk : id ∉ (results.filter skipsPeer).map Prod.fst) :
    Carries newEntries last cap log nextIndex[id]?
      (((results.foldl insertReady ∅)[id]?).getD []) := by
  have hpa : results.Pairwise fun a b => a.1 < b.1 :=
    hres ▸ retrieve_pairwise myId newEntries last cap nextIndex log log.firstEntryId
  have hiff : ∀ r, (id, r) ∈ results ↔ id ≠ myId ∧ ∃ n, nextIndex[id]? = some n ∧
      entriesForPeer newEntries last cap log log.firstEntryId n = some r :=
    fun r => hres ▸ mem_retrieveToBeSyncedLogsForPeers
  -- Nothing is ready for a peer whose next index asks for nothing.
  have hno : (∀ n, nextIndex[id]? = some n →
      entriesForPeer newEntries last cap log log.firstEntryId n = none) →
      ((results.foldl insertReady ∅)[id]?).getD [] = [] := by
    intro hn
    have hnot : ∀ es, (id, PeerEntriesResult.ready es) ∉ results := by
      intro es hes
      obtain ⟨-, n, hrec, hre⟩ := (hiff _).mp hes
      rw [hn n hrec] at hre
      cases hre
    simp [getElem?_ready_of_not_mem ∅ hnot]
  unfold Carries
  cases hrec : nextIndex[id]? with
  | none => exact hno fun n hn => by cases hrec.symm.trans hn
  | some n =>
    cases hen : entriesForPeer newEntries last cap log log.firstEntryId n with
    | none =>
      have hnil := hno fun n' hn' => by
        cases hrec.symm.trans hn'
        exact hen
      exact hen.trans (if_pos hnil).symm
    | some r =>
      have hin : (id, r) ∈ results := (hiff r).mpr ⟨hse, n, hrec, hen⟩
      have hre : skipsPeer (id, r) = false := by
        by_contra hne
        exact hsk (List.mem_map.mpr ⟨(id, r),
          List.mem_filter.mpr ⟨hin, Bool.eq_true_of_not_eq_false hne⟩, rfl⟩)
      cases r with
      | ready =>
        have hne := entriesForPeer_ready_ne_nil hen
        rw [getElem?_ready_of_mem ∅ hpa hin]
        exact hen.trans (if_neg hne).symm
      | needSnapshot | corruptGap _ _ _ _ _ => cases hre

/-- Every request of a batch was built from the log behind the batch and the entries
that are ready for its peer. -/
theorem mem_prepareBatchRequests
    {snapshot : StateSnapshot} {nextIndex : OrderedMap Nat} {targets : ReplicationTargets myId}
    {result : PrepareResult}
    (hok : (prepareBatchRequests myId maxLegacyEntries payloads snapshot nextIndex targets
      log).1 = .ok result) (hmem : (id, request, next) ∈ result.appendRequests) :
    ∃ newEntries after carried,
      generateNewEntries payloads snapshot.currentTerm log = (.ok newEntries, after) ∧
      (prepareBatchRequests myId maxLegacyEntries payloads snapshot nextIndex targets log).2 =
        after ∧
      Carries newEntries log.lastEntryId maxLegacyEntries after nextIndex[id]? carried ∧
      buildAppendRequest myId after id carried
          ⟨log.lastEntryId, snapshot.currentTerm, snapshot.commitIndex, nextIndex⟩ =
        .ok (.append request next) := by
  unfold prepareBatchRequests at hok ⊢
  cases hgen : generateNewEntries payloads snapshot.currentTerm log with
  | mk generated after =>
    rw [hgen] at hok
    cases generated with
    | error => cases hok
    | ok newEntries =>
      simp only at hok
      by_cases hno : targets.ids = []
      · rw [if_pos hno] at hok
        cases hok
        cases hmem
      rw [if_neg hno] at hok
      generalize hres : retrieveToBeSyncedLogsForPeers myId newEntries log.lastEntryId
        maxLegacyEntries nextIndex after after.firstEntryId = results at hok
      cases hbu : buildRequests myId after
          ⟨log.lastEntryId, snapshot.currentTerm, snapshot.commitIndex, nextIndex⟩
          ((results.filter skipsPeer).map Prod.fst) targets.ids
          (results.foldl insertReady ∅) with
      | error fault =>
        simp only [hbu] at hok
        cases hok
      | ok built =>
        simp only [hbu] at hok
        cases hok
        obtain ⟨hid, hsk, hreq⟩ := mem_buildRequests targets.nodup hbu hmem
        have hse : id ≠ myId := by
          rintro rfl
          exact targets.not_self hid
        exact ⟨newEntries, after, _, rfl, by simp only [if_neg hno],
          carries_of_not_skipped hres.symm hse hsk, hreq⟩

/-! ## Entries behind the predecessor -/

/-- For a peer within the old log the request carries old entries from its next index on,
up to the cap, and then the batch; for any other peer it carries the batch. -/
theorem carries_some {carried : List Entry} {last n : Nat} (hwf : log.WellFormed) (hcap : 0 < cap)
    (h : Carries newEntries last cap log (some n) carried) :
    (last < n ∧ carried = newEntries) ∨
      (n ≤ last ∧ ∃ legacy, carried = legacy ++ newEntries ∧
        Consecutive Entry.index legacy n ∧ n + legacy.length = min (n + cap) (last + 1) ∧
        ∀ e ∈ legacy, log.entry e.index = some e) := by
  unfold Carries entriesForPeer at h
  dsimp only at h
  by_cases hlt : last < n
  · refine .inl ⟨hlt, ?_⟩
    rw [if_pos hlt] at h
    split_ifs at h with hnew hnil hnil
    · rw [hnil, hnew]
    · cases h
      rfl
  rw [if_neg hlt] at h
  by_cases hfi : n < log.firstEntryId
  · rw [if_pos hfi] at h
    split_ifs at h
    cases h
  rw [if_neg hfi, if_neg (Nat.ne_of_gt hcap)] at h
  refine .inr ⟨Nat.le_of_not_lt hlt, ?_⟩
  generalize hun : (if cap ≤ last - n then n + cap - 1 else last) = stop at h
  have hst : stop + 1 = min (n + cap) (last + 1) := by
    rw [← hun]
    split_ifs <;> omega
  by_cases hco : entriesAreContiguousInRange (log.getEntriesRange n stop) n stop = true
  · rw [if_pos hco] at h
    obtain ⟨hle, hlen, hcn⟩ := of_decide_eq_true hco
    refine ⟨log.getEntriesRange n stop, ?_, hcn, by omega, ?_⟩
    · split_ifs at h with happ hnil hnil
      · rw [hnil, happ]
      · cases h
        rfl
    · intro e he
      obtain ⟨⟨k, v⟩, hkv, rfl⟩ := List.mem_map.mp he
      have hen : log.entry k = some v := ((OrderedMap.mem_range_iff _ _ _ _ _).mp hkv).1
      have hidx := hwf.entry_index k v hen
      simpa only [hidx] using hen
  · rw [if_neg hco] at h
    split_ifs at h
    cases h

/-- The batch continues what the request says about the peer's log. -/
def BatchFits (log : BufferedRaftLog) (count cap : Nat) (recorded : Option Nat) : Prop :=
  count = 0 ∨
    match recorded with
    | none => True
    | some n =>
      (n ≤ log.lastEntryId ∧ log.nextId = log.lastEntryId + 1 ∧ log.lastEntryId - n < cap) ∨
        (log.lastEntryId < n ∧ n = log.nextId)

/-- The last index of the leader's log once it holds a batch of `count` entries. -/
def lastBehindBatch (log : BufferedRaftLog) (count : Nat) : Nat :=
  if count = 0 then log.lastEntryId else log.nextId + count - 1

/-- The predecessor index of a request for a peer with the given recorded next index. -/
def predecessorIndex (log : BufferedRaftLog) (count : Nat) (recorded : Option Nat) : Nat :=
  min (recorded.getD 1) (lastBehindBatch log count + 1) - 1

section Requests

variable {log after : BufferedRaftLog} {count cap : Nat} {newEntries carried : List Entry}
  {recorded : Option Nat}

theorem Generated.lastEntryId_eq (g : Generated log after count newEntries) :
    after.lastEntryId = lastBehindBatch log count := g.last_eq

theorem Generated.carried_held (g : Generated log after count newEntries) (hcap : 0 < cap)
    (hca : Carries newEntries log.lastEntryId cap after recorded carried) :
    ∀ e ∈ carried, after.entry e.index = some e := by
  cases recorded with
  | none =>
    have hnil : carried = [] := hca
    simp [hnil]
  | some =>
    rcases carries_some g.wellFormed hcap hca with ⟨-, rfl⟩ | ⟨-, legacy, rfl, -, -, hhe⟩
    · exact g.entry_new
    · intro e he
      rcases List.mem_append.mp he with hold | hnew
      · exact hhe e hold
      · exact g.entry_new e hnew

/-- The carried entries follow the predecessor exactly when the batch fits. -/
theorem Generated.consecutive_iff (hwf : log.WellFormed)
    (g : Generated log after count newEntries) (hcap : 0 < cap)
    (hca : Carries newEntries log.lastEntryId cap after recorded carried) :
    Consecutive Entry.index carried (predecessorIndex log count recorded + 1) ↔
      BatchFits log count cap recorded := by
  have hnx : log.lastEntryId < log.nextId := hwf.max_lt_next
  have hlen := g.length_eq
  have hcn : count = 0 ↔ newEntries = [] := by
    rw [← hlen, List.length_eq_zero_iff]
  have hst : ∀ start, Consecutive Entry.index newEntries start ↔
      count = 0 ∨ start = log.nextId := by
    intro start
    by_cases hze : count = 0
    · simp [hze, hcn.mp hze, consecutive_nil]
    · have hne : newEntries ≠ [] := fun hnil => hze (hcn.mpr hnil)
      simp only [hze, false_or]
      exact ⟨fun h => h.start_unique g.consecutive hne, fun h => h ▸ g.consecutive⟩
  cases recorded with
  | none =>
    have hnil : carried = [] := hca
    simp [hnil, consecutive_nil, BatchFits]
  | some n =>
    simp only [predecessorIndex, lastBehindBatch, BatchFits, Option.getD_some]
    rcases carries_some g.wellFormed hcap hca with
      ⟨hlt, rfl⟩ | ⟨hle, legacy, rfl, hco, hlg, hhe⟩
    · rw [hst]
      by_cases hze : count = 0
      · simp [hze]
      · simp only [hze, if_false, false_or]
        omega
    · have hpos : 1 ≤ n := by
        have hlo : 0 < legacy.length := by omega
        obtain ⟨e, he, hidx⟩ := (hco.mem_iff n).mpr ⟨le_rfl, by omega⟩
        exact hidx ▸ g.wellFormed.index_pos _ e (hhe e he)
      have hpr : min n ((if count = 0 then log.lastEntryId else log.nextId + count - 1) + 1)
          - 1 + 1 = n := by
        split_ifs <;> omega
      rw [hpr, consecutive_append, hst]
      simp only [hco, true_and]
      by_cases hze : count = 0
      · simp [hze]
      · simp only [hze, false_or]
        omega

/-! ## The predecessor -/

/-- The leader can vouch for an index before the batch: nothing was purged below index
one, it holds the entry, or the index is the purge boundary and not shadowed by an answer
of the term boundary index. -/
def PredecessorKnown (log : BufferedRaftLog) (index : Nat) : Prop :=
  if index = 0 then log.lastPurgedIndex = 0
  else
    (∃ e, log.entry index = some e) ∨
      (index = log.lastPurgedIndex ∧
        (log.lastEntryId ≠ 0 → log.firstEntryId ≤ index →
          log.termSegments.get index = .ok (some log.lastPurgedTerm)))

/-- The position is the virtual start of a log that was never purged, or the position of
an entry or of the purge boundary of the leader. -/
def PredecessorOk (log : BufferedRaftLog) (index term : Nat) : Prop :=
  if index = 0 ∧ term = 0 then log.lastPurgedIndex = 0
  else
    (∃ e, log.entry index = some e ∧ e.term = term) ∨
      (index = log.lastPurgedIndex ∧ term = log.lastPurgedTerm)

theorem entryTerm_zero (hwf : log.WellFormed) : log.entryTerm 0 = .ok none := by
  have hout : log.maxIndex = 0 ∨ 0 < log.minIndex ∨ log.maxIndex < 0 := by
    have := hwf.minIndex_eq_zero_iff
    omega
  rw [entryTerm, if_pos hout, if_neg (by omega)]

variable {index : Nat}

/-- Inside the bounds the recorded term comes from the term boundary index or the entry. -/
theorem entryTerm_inside (hze : log.lastEntryId ≠ 0)
    (hlo : log.firstEntryId ≤ index) (hhi : index ≤ log.lastEntryId)
    (h : log.entryTerm index = .ok (some term)) :
    log.termSegments.get index = .ok (some term) ∨
      ∃ e, log.entry index = some e ∧ e.term = term := by
  have hin : ¬ (log.maxIndex = 0 ∨ index < log.minIndex ∨ log.maxIndex < index) := by
    simp only [lastEntryId, firstEntryId] at hze hlo hhi
    omega
  rw [entryTerm, if_neg hin] at h
  cases hget : log.termSegments.get index with
  | error => simp [hget] at h
  | ok answer =>
    cases answer with
    | some =>
      simp only [hget] at h
      exact .inl h
    | none =>
      simp only [hget, Except.ok.injEq, Option.map_eq_some_iff] at h
      exact .inr h

/-- Outside the bounds only the purge boundary has a recorded term. -/
theorem entryTerm_outside
    (hout : log.lastEntryId = 0 ∨ index < log.firstEntryId ∨ log.lastEntryId < index)
    (h : log.entryTerm index = .ok (some term)) :
    index = log.lastPurgedIndex ∧ term = log.lastPurgedTerm := by
  simp only [lastEntryId, firstEntryId] at hout
  rw [entryTerm, if_pos hout] at h
  split_ifs at h with hpu
  · cases h
    exact ⟨hpu.2, rfl⟩
  · cases h

/-- For an index below the batch, what the request says about it is right exactly when
the leader could vouch for it before the batch. -/
theorem Generated.predecessorOk_iff (g : Generated log after count newEntries)
    (hlt : index < log.nextId) (hle : index ≤ after.lastEntryId)
    (hpos : index ≠ 0) (hte : after.entryTerm index = .ok (some term)) :
    PredecessorOk after index term ↔ PredecessorKnown log index := by
  have hen := g.entry_old index hlt
  rw [PredecessorOk, if_neg fun h => hpos h.1, PredecessorKnown, if_neg hpos, hen,
    g.purgedIndex_eq, g.purgedTerm_eq]
  have hold : ∀ e, log.entry index = some e → e.term = term := by
    intro e he
    have := g.wellFormed.entryTerm_of_entry (hen.trans he) hte
    exact (Option.some.inj this).symm
  cases hhe : log.entry index with
  | some e => simp [hold e hhe]
  | none =>
    simp only [reduceCtorEq, false_and, exists_false, false_or]
    by_cases hin : log.lastEntryId ≠ 0 ∧ log.firstEntryId ≤ index
    · have hfi : after.firstEntryId = log.firstEntryId := by
        rw [g.first_eq, if_pos (.inr hin.1)]
      have hget : log.termSegments.get index = .ok (some term) := by
        rcases entryTerm_inside (by omega) (hfi ▸ hin.2) hle hte with hget | ⟨e, he, -⟩
        · exact g.segments index term hlt hget
        · rw [hen, hhe] at he
          cases he
      simp [hget, hin.1, hin.2]
    · have hout : after.lastEntryId = 0 ∨ index < after.firstEntryId ∨
          after.lastEntryId < index := by
        rw [g.first_eq, g.last_eq]
        split_ifs <;> omega
      obtain ⟨hidx, hbo⟩ := entryTerm_outside hout hte
      rw [g.purgedIndex_eq] at hidx
      rw [g.purgedTerm_eq] at hbo
      simp only [hidx, hbo, true_and, and_true, true_iff]
      intro hze hfi
      exact absurd ⟨hze, hidx ▸ hfi⟩ hin

end Requests

/-! ## Well-formed requests -/

/-- Consecutive entries of the leader behind a predecessor that the leader vouches for. -/
structure RequestWellFormed (log : BufferedRaftLog) (request : AppendEntriesRequest) : Prop where
  contiguous : Contiguous request
  held : ∀ e ∈ request.entries, log.entry e.index = some e
  predecessor : PredecessorOk log request.prevLogIndex request.prevLogTerm

theorem buildAppendRequest_append {peerId : Nat} {data : ReplicationData}
    (h : buildAppendRequest myId log peerId entries data = .ok (.append request next)) :
    request.term = data.currentTerm ∧ request.entries = entries ∧
      request.prevLogIndex =
        min ((data.peerNextIndices[peerId]?).getD 1) (log.lastEntryId + 1) - 1 ∧
      (log.entryTerm request.prevLogIndex = .ok (some request.prevLogTerm) ∨
        (request.prevLogIndex = 0 ∧ request.prevLogTerm = 0)) := by
  unfold buildAppendRequest at h
  dsimp only at h
  cases hte : log.entryTerm
      (min ((data.peerNextIndices[peerId]?).getD 1) (log.lastEntryId + 1) - 1) with
  | error fault => simp [hte] at h
  | ok recorded =>
    cases recorded with
    | some =>
      simp only [hte, Except.ok.injEq, BuildAppendOutcome.append.injEq] at h
      obtain ⟨rfl, -⟩ := h
      exact ⟨rfl, rfl, rfl, Or.inl hte⟩
    | none =>
      simp only [hte] at h
      split_ifs at h with hst
      · simp only [Except.ok.injEq, BuildAppendOutcome.append.injEq] at h
        obtain ⟨rfl, -⟩ := h
        exact ⟨rfl, rfl, rfl, Or.inr ⟨hst.1, rfl⟩⟩
      · cases h

theorem predecessorIndex_lt_nextId (hwf : log.WellFormed)
    {count : Nat} {recorded : Option Nat} (hfi : BatchFits log count cap recorded) :
    predecessorIndex log count recorded < log.nextId := by
  have hnx : log.lastEntryId < log.nextId := hwf.max_lt_next
  unfold predecessorIndex lastBehindBatch
  rcases hfi with rfl | hfi
  · rw [if_pos rfl]
    omega
  · cases recorded with
    | none =>
      simp only [Option.getD_none]
      omega
    | some =>
      simp only [Option.getD_some]
      rcases hfi with ⟨hle, -, -⟩ | ⟨-, rfl⟩
      · omega
      · omega

/-- A request of a batch is well formed exactly when the batch fits behind what is
recorded for its peer and the leader can vouch for the predecessor. -/
theorem requestWellFormed_iff {myId cap : Nat} {payloads : List EntryPayload}
    {snapshot : StateSnapshot} {nextIndex : OrderedMap Nat} {targets : ReplicationTargets myId}
    {log : BufferedRaftLog} {result : PrepareResult} {id next : Nat}
    {request : AppendEntriesRequest} (hwf : log.WellFormed) (hterm : 1 ≤ snapshot.currentTerm)
    (hcap : 0 < cap)
    (hok : (prepareBatchRequests myId cap payloads snapshot nextIndex targets log).1 =
      .ok result) (hmem : (id, request, next) ∈ result.appendRequests) :
    RequestWellFormed
        (prepareBatchRequests myId cap payloads snapshot nextIndex targets log).2 request ↔
      BatchFits log payloads.length cap nextIndex[id]? ∧
        PredecessorKnown log (predecessorIndex log payloads.length nextIndex[id]?) := by
  obtain ⟨newEntries, after, carried, hgen, haf, hca, hbu⟩ :=
    mem_prepareBatchRequests hok hmem
  have hge : (generateNewEntries payloads snapshot.currentTerm log).1 = .ok newEntries := by
    rw [hgen]
  have g : Generated log after payloads.length newEntries := by
    have := generateNewEntries_ok hwf hterm hge
    rwa [hgen] at this
  obtain ⟨-, hen, hpr, hre⟩ := buildAppendRequest_append hbu
  rw [g.lastEntryId_eq] at hpr
  change request.prevLogIndex = predecessorIndex log payloads.length nextIndex[id]? at hpr
  have hco : Contiguous request ↔ BatchFits log payloads.length cap nextIndex[id]? := by
    rw [Contiguous, hen, hpr]
    exact g.consecutive_iff hwf hcap hca
  have hpd : BatchFits log payloads.length cap nextIndex[id]? →
      (PredecessorOk after request.prevLogIndex request.prevLogTerm ↔
        PredecessorKnown log (predecessorIndex log payloads.length nextIndex[id]?)) := by
    intro hfi
    have hlt := predecessorIndex_lt_nextId hwf hfi
    rw [← hpr] at hlt ⊢
    by_cases hze : request.prevLogIndex = 0
    · have hst : request.prevLogTerm = 0 := by
        rcases hre with hterm | ⟨-, hterm⟩
        · rw [hze, entryTerm_zero g.wellFormed] at hterm
          cases hterm
        · exact hterm
      rw [PredecessorOk, if_pos ⟨hze, hst⟩, PredecessorKnown, if_pos hze,
        g.purgedIndex_eq]
    · refine g.predecessorOk_iff hlt ?_ hze (hre.resolve_right fun h => hze h.1)
      rw [hpr, g.lastEntryId_eq, predecessorIndex]
      omega
  rw [haf]
  constructor
  · intro hrq
    have hfi := hco.mp hrq.contiguous
    exact ⟨hfi, (hpd hfi).mp hrq.predecessor⟩
  · rintro ⟨hfi, hkn⟩
    refine ⟨hco.mpr hfi, ?_, (hpd hfi).mpr hkn⟩
    rw [hen]
    exact g.carried_held hcap hca

/-- A leader with three entries, one peer and a cap of one old entry in each request. -/
def cappedBatch (peerNextIndex : Nat) : Except Fault PrepareResult × BufferedRaftLog :=
  prepareBatchRequests 1 1 [⟨some .noop⟩] ⟨1, 0⟩
    ((∅ : OrderedMap Nat).insert 2 peerNextIndex) ⟨[2], by decide, by decide⟩
    (loadedLog threeEntries)

/-- A peer that misses more than the cap is sent its first missing entry and the new one,
without those between them. -/
theorem capped_request_has_gap :
    ∃ result request next, (cappedBatch 1).1 = .ok result ∧
      (2, request, next) ∈ result.appendRequests ∧
      request.prevLogIndex = 0 ∧ request.entries.map Entry.index = [1, 4] ∧
      ¬ RequestWellFormed (cappedBatch 1).2 request := by
  refine ⟨_, _, _, rfl, List.mem_cons_self, rfl, by decide, ?_⟩
  intro hre
  have hco := hre.contiguous
  revert hco
  decide

/-- A peer that holds the whole old log is sent a well-formed request. -/
theorem caught_up_request_wellFormed :
    ∃ result request next, (cappedBatch 4).1 = .ok result ∧
      (2, request, next) ∈ result.appendRequests ∧
      RequestWellFormed (cappedBatch 4).2 request := by
  have hwf : (loadedLog threeEntries).WellFormed :=
    BufferedRaftLog.wellFormed_new none (by decide) (by decide)
  obtain ⟨result, request, next, hok, hmem⟩ : ∃ result request next,
      (cappedBatch 4).1 = .ok result ∧ (2, request, next) ∈ result.appendRequests :=
    ⟨_, _, _, rfl, List.mem_cons_self⟩
  refine ⟨result, request, next, hok, hmem, ?_⟩
  refine (requestWellFormed_iff hwf (by decide) (by decide) hok hmem).mpr ⟨?_, ?_⟩
  · exact .inr (.inr ⟨by decide, by decide⟩)
  · exact .inl ⟨⟨3, 1, none⟩, by decide⟩

end DEngine.Replication

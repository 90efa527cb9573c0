import DEngine.Client.Leadership
import DEngine.Library.MapEntries
import Mathlib.Tactic.Abel

/-!
# Every proposal is answered once

The channel of an accepted proposal waits in the buffer, then with its batch under
the index of the last entry, then under the index of its own entry, until it is
answered. The places are changed by flushes, commits, results, deadlines and role
changes, in any order. As long as no place is overwritten and none is dropped with
something in it, every channel is in one place or answered once.
-/

namespace DEngine.Client

open Library Library.Handler Library.OrderedMap Storage
open Replication Raft

variable {myId : Nat} {s t u : Session myId}

/-! ## Where channels wait -/

/-- The indexes of the entries of a batch. -/
def WriteMetadata.indexes (m : WriteMetadata) : List Nat := List.range' m.startIdx m.senders.length

namespace WriteView

/-- The channels that wait. -/
def waiting (w : WriteView) : Multiset Nat :=
  (w.proposeSenders : Multiset Nat) +
    (entries w.pendingClientWrites).bind (fun p => (p.2.senders : Multiset Nat)) +
      (entries w.pendingWriteApply).map Prod.snd

/-- The channels that were answered, as often as they were. -/
def answered (w : WriteView) : Multiset Nat := (w.writeReplies.map Prod.fst : List Nat)

/-- The indexes under which channels wait for a commit or a result. -/
def recorded (w : WriteView) : Multiset Nat :=
  (entries w.pendingClientWrites).bind (fun p => (p.2.indexes : Multiset Nat)) +
    (entries w.pendingWriteApply).map Prod.fst

/-- The view behind an answer to the given channels. -/
def reply (w : WriteView) (senders : List Nat) (reply : Reply) : WriteView :=
  { w with writeReplies := senders.map (fun sender => (sender, reply)) ++ w.writeReplies }

/-- The view with other batches that wait for their commit. -/
def withBatches (w : WriteView) (batches : OrderedMap WriteMetadata) : WriteView :=
  { w with pendingClientWrites := batches }

/-- The view with other channels that wait for results. -/
def withApply (w : WriteView) (pending : OrderedMap Nat) : WriteView :=
  { w with pendingWriteApply := pending }

/-- The view with another buffer of proposals. -/
def withBuffer (w : WriteView) (senders : List Nat) : WriteView :=
  { w with proposeSenders := senders }

theorem answered_reply (w : WriteView) (senders : List Nat) (reply : Reply) :
    (w.reply senders reply).answered = (senders : Multiset Nat) + w.answered := by
  simp [WriteView.reply, answered, Function.comp_def]

end WriteView

/-- No channel is answered twice, no accepted one is lost, and none waits for a result that has
been handled. -/
@[mk_iff]
structure RepliesConserved (s : Session myId) : Prop where
  once : (s.writeReplies.map Prod.fst).Nodup
  kept : ∀ sender ∈ s.accepted, sender ∈ s.writes.waiting ∨ sender ∈ s.writes.answered
  settled : ∀ p ∈ s.pendingWriteApply.toList, p.1 ∉ s.covered

instance (s : Session myId) : Decidable (RepliesConserved s) :=
  decidable_of_iff' _ (repliesConserved_iff s)

/-! ## The invariant -/

/-- The channels that the handler has in hand, those of batches that it moves, those that wait
and those that were answered. -/
def channels (hand : List Nat) (due : List WriteMetadata) (w : WriteView) : Multiset Nat :=
  (hand : Multiset Nat) + (due.flatMap WriteMetadata.senders : List Nat) + (w.waiting + w.answered)

/-- The indexes of the batches that the handler moves and those of the waiting channels. -/
def places (due : List WriteMetadata) (w : WriteView) : Multiset Nat :=
  (due.flatMap WriteMetadata.indexes : List Nat) + w.recorded

/-- Every channel is in one place, and so is every index. -/
structure Tidy (hand : List Nat) (due : List WriteMetadata) (w : WriteView) : Prop where
  nodup : (channels hand due w).Nodup
  below : ∀ sender ∈ channels hand due w, sender < w.nextSender
  kept : ∀ sender ∈ w.accepted, sender ∈ channels hand due w
  distinct : (places due w).Nodup
  uncovered : ∀ index ∈ places due w, index ∉ w.covered
  batches : ∀ (key : Nat) (m : WriteMetadata), w.pendingClientWrites[key]? = some m →
    m.senders ≠ [] ∧ key = m.startIdx + m.senders.length - 1

namespace Tidy

open WriteView

variable {hand hand' : List Nat} {due due' : List WriteMetadata} {w w' : WriteView}

/-- Moving channels and indexes around keeps everything in one place; indexes may go. -/
theorem move (h : Tidy hand due w) (hnx : w'.nextSender = w.nextSender)
    (hacc : w'.accepted = w.accepted) (hcov : w'.covered = w.covered)
    (hch : channels hand' due' w' = channels hand due w)
    (hpl : places due' w' ≤ places due w)
    (hba : ∀ (key : Nat) (m : WriteMetadata), w'.pendingClientWrites[key]? = some m →
      w.pendingClientWrites[key]? = some m) : Tidy hand' due' w' where
  nodup := hch ▸ h.nodup
  below := by
    rw [hch, hnx]
    exact h.below
  kept := by
    rw [hch, hacc]
    exact h.kept
  distinct := Multiset.nodup_of_le hpl h.distinct
  uncovered := fun index hidx => by
    rw [hcov]
    exact h.uncovered index (Multiset.mem_of_le hpl hidx)
  batches := fun key m hm => h.batches key m (hba key m hm)

theorem conserved (h : Tidy [] [] s.writes) : RepliesConserved s where
  once := by
    have hle : s.writes.answered ≤ channels [] [] s.writes :=
      (Multiset.le_add_left _ _).trans (Multiset.le_add_left _ _)
    exact Multiset.coe_nodup.mp (Multiset.nodup_of_le hle h.nodup)
  kept := fun sender hse => by
    have hmem := h.kept sender hse
    rw [channels, Multiset.mem_add, Multiset.mem_add] at hmem
    rcases hmem with hno | hmem
    · simp at hno
    · exact Multiset.mem_add.mp hmem
  settled := fun p hp => by
    refine h.uncovered p.1 ?_
    rw [places, recorded, Multiset.mem_add, Multiset.mem_add]
    exact .inr (.inr (Multiset.mem_map_of_mem Prod.fst hp))

theorem answer (h : Tidy hand due w) (reply : Reply) : Tidy [] due (w.reply hand reply) := by
  refine h.move rfl rfl rfl ?_ le_rfl fun _ _ hm => hm
  simp only [channels, answered_reply, Multiset.coe_nil]
  change _ + (w.waiting + _) = _
  abel

/-- The committed batches are taken out of the map. -/
theorem takeDue (h : Tidy hand [] w) (newCommit : Nat) :
    Tidy hand ((w.pendingClientWrites.range 0 newCommit).map Prod.snd)
      (w.withBatches (w.pendingClientWrites.eraseRange 0 newCommit)) := by
  have hsp := range_add_entries_eraseRange w.pendingClientWrites 0 newCommit
  refine h.move rfl rfl rfl ?_ (le_of_eq ?_) fun key m hm => ?_
  · simp only [channels, waiting, answered, withBatches, ← hsp, Multiset.add_bind,
      Multiset.coe_bind, List.flatMap_map, List.flatMap_nil, Multiset.coe_nil]
    abel
  · simp only [places, recorded, withBatches, ← hsp, Multiset.add_bind, Multiset.coe_bind,
      List.flatMap_map, List.flatMap_nil, Multiset.coe_nil]
    abel
  · change (w.pendingClientWrites.eraseRange 0 newCommit)[key]? = some m at hm
    rw [getElem?_eraseRange] at hm
    split_ifs at hm
    exact hm

variable {m : WriteMetadata}

/-- A batch without a wait is answered. -/
theorem answerBatch (h : Tidy hand (m :: due) w) (reply : Reply) :
    Tidy hand due (w.reply m.senders reply) := by
  refine h.move rfl rfl rfl ?_ ?_ fun _ _ hm => hm
  · simp only [channels, answered_reply, List.flatMap_cons, ← Multiset.coe_add]
    change _ + (w.waiting + _) = _
    abel
  · simp only [places, List.flatMap_cons, ← Multiset.coe_add, add_assoc]
    exact Multiset.le_add_left _ _

theorem numbered_fst (m : WriteMetadata) : m.numbered.map Prod.fst = m.indexes := by
  rw [WriteMetadata.numbered, List.map_fst_zip]
  · rfl
  · rw [List.length_range']

theorem numbered_snd (m : WriteMetadata) : m.numbered.map Prod.snd = m.senders := by
  rw [WriteMetadata.numbered, List.map_snd_zip]
  rw [List.length_range']

/-- The channels of a batch are moved under the indexes of its entries. -/
theorem settle (h : Tidy hand (m :: due) w) :
    Tidy hand due (w.withApply
      (m.numbered.foldl (fun acc p => acc.insert p.1 p.2) w.pendingWriteApply)) := by
  have hdi := h.distinct
  rw [places, List.flatMap_cons, ← Multiset.coe_add, add_assoc, Multiset.nodup_add] at hdi
  obtain ⟨hin, -, hds⟩ := hdi
  have hfr : ∀ e ∈ m.numbered, w.pendingWriteApply[e.1]? = none := by
    intro e he
    cases hlo : w.pendingWriteApply[e.1]? with
    | none => rfl
    | some sender =>
      have hidx : e.1 ∈ (m.indexes : Multiset Nat) := by
        rw [Multiset.mem_coe, ← numbered_fst]
        exact List.mem_map_of_mem he
      refine absurd ?_ (Multiset.disjoint_left.mp hds hidx)
      rw [recorded, Multiset.mem_add, Multiset.mem_add]
      refine .inr (.inr ?_)
      exact Multiset.mem_map.mpr ⟨(e.1, sender), mem_entries.mpr hlo, rfl⟩
  have hen := entries_foldl_insert hfr (by
    rw [numbered_fst]
    exact Multiset.coe_nodup.mp hin)
  refine h.move rfl rfl rfl ?_ (le_of_eq ?_) fun _ _ hm => hm
  · simp only [channels, waiting, answered, withApply, hen, Multiset.map_add, Multiset.map_coe,
      numbered_snd, List.flatMap_cons, ← Multiset.coe_add]
    abel
  · simp only [places, recorded, withApply, hen, Multiset.map_add, Multiset.map_coe,
      numbered_fst, List.flatMap_cons, ← Multiset.coe_add]
    abel

/-- Every index in use lies below the batch. -/
def Behind (m : WriteMetadata) (w : WriteView) : Prop :=
  (∀ index ∈ w.recorded, index < m.startIdx) ∧ ∀ index ∈ w.covered, index < m.startIdx

/-- No batch waits under the last index of a batch behind everything in use. -/
theorem fresh_key (h : Tidy hand due w) (hne : m.senders ≠ []) (hbe : Behind m w) :
    w.pendingClientWrites[m.startIdx + m.senders.length - 1]? = none := by
  have hpos : 0 < m.senders.length := List.length_pos_iff.mpr hne
  cases hlo : w.pendingClientWrites[m.startIdx + m.senders.length - 1]? with
  | none => rfl
  | some other =>
    obtain ⟨hot, hkey⟩ := h.batches _ other hlo
    have hlen : 0 < other.senders.length := List.length_pos_iff.mpr hot
    have hmem : m.startIdx + m.senders.length - 1 ∈ w.recorded := by
      rw [recorded, Multiset.mem_add, Multiset.mem_bind]
      refine .inl ⟨_, mem_entries.mpr hlo, ?_⟩
      rw [Multiset.mem_coe, WriteMetadata.indexes, List.mem_range'_1]
      dsimp only
      omega
    have hlt := hbe.1 _ hmem
    omega

/-- A batch is recorded behind everything in use. -/
theorem recordBatch (h : Tidy m.senders [] w) (hne : m.senders ≠ []) (hbe : Behind m w) :
    Tidy [] [] (w.withBatches
      (w.pendingClientWrites.insert (m.startIdx + m.senders.length - 1) m)) := by
  have hen := entries_insert (h.fresh_key hne hbe) m
  generalize haf : w.pendingClientWrites.insert (m.startIdx + m.senders.length - 1) m = after
    at hen
  have hpl : places [] (w.withBatches after) = (m.indexes : Multiset Nat) + places [] w := by
    simp only [places, recorded, withBatches, hen, Multiset.cons_bind]
    abel
  have hch : channels [] [] (w.withBatches after) = channels m.senders [] w := by
    simp only [channels, waiting, answered, withBatches, hen, Multiset.cons_bind,
      Multiset.coe_nil]
    abel
  have hlow : ∀ index ∈ m.indexes, m.startIdx ≤ index := fun index hidx =>
    (List.mem_range'_1.mp hidx).1
  have hpc : ∀ index ∈ places [] w, index < m.startIdx := by
    intro index hidx
    rw [places, List.flatMap_nil, Multiset.coe_nil, zero_add] at hidx
    exact hbe.1 index hidx
  refine ⟨hch ▸ h.nodup, hch ▸ h.below, hch ▸ h.kept, ?_, ?_, ?_⟩
  · rw [hpl, Multiset.nodup_add]
    refine ⟨Multiset.coe_nodup.mpr List.nodup_range', h.distinct, ?_⟩
    rw [Multiset.disjoint_left]
    intro index hidx hold
    exact absurd (hlow index hidx) (Nat.not_le.mpr (hpc index hold))
  · intro index hidx hcov
    rw [hpl, Multiset.mem_add] at hidx
    rcases hidx with hnew | hold
    · exact absurd (hlow index hnew) (Nat.not_le.mpr (hbe.2 index hcov))
    · exact h.uncovered index hold hcov
  · intro key other hlo
    change after[key]? = some other at hlo
    rw [← haf, getElem?_insert_eq] at hlo
    split_ifs at hlo with hkey
    · cases hlo
      exact ⟨hne, hkey⟩
    · exact h.batches key other hlo

/-- The channel of an applied entry is answered. -/
theorem applied {index sender : Nat} (h : Tidy hand due w)
    (hlo : w.pendingWriteApply[index]? = some sender) (reply : Reply) :
    Tidy hand due ((w.withApply (w.pendingWriteApply.erase index)).reply [sender] reply) := by
  have hen := entries_erase hlo
  refine h.move rfl rfl rfl ?_ ?_ fun _ _ hm => hm
  · simp only [channels, answered_reply]
    simp only [waiting, answered, WriteView.reply, withApply, ← hen, Multiset.map_cons,
      Multiset.coe_singleton]
    rw [← Multiset.singleton_add]
    abel
  · simp only [places, recorded, WriteView.reply, withApply, ← hen, Multiset.map_cons]
    gcongr
    exact Multiset.le_cons_self _ _

/-- Batches are answered and taken out of the map. -/
theorem answerBatches (h : Tidy hand due w) (p : Nat × WriteMetadata → Bool) (reply : Reply) :
    Tidy hand due
      ((w.withBatches (w.pendingClientWrites.eraseKeys
          ((w.pendingClientWrites.toList.filter p).map Prod.fst))).reply
        ((w.pendingClientWrites.toList.filter p).flatMap fun e => e.2.senders) reply) := by
  have hsp := filter_add_entries_eraseKeys w.pendingClientWrites p
  refine h.move rfl rfl rfl ?_ ?_ fun key m hm => ?_
  · simp only [channels, answered_reply]
    simp only [waiting, answered, WriteView.reply, withBatches, ← hsp, Multiset.add_bind,
      Multiset.coe_bind]
    abel
  · simp only [places, recorded, WriteView.reply, withBatches, ← hsp, Multiset.add_bind]
    gcongr
    exact Multiset.le_add_left _ _
  · change (w.pendingClientWrites.eraseKeys _)[key]? = some m at hm
    rw [getElem?_eraseKeys] at hm
    split_ifs at hm
    exact hm

/-- All batches that wait for their commit are answered. -/
theorem answerAllBatches (h : Tidy hand due w) (reply : Reply) :
    Tidy hand due ((w.withBatches ∅).reply
      (w.pendingClientWrites.toList.flatMap fun e => e.2.senders) reply) := by
  have hen : entries w.pendingClientWrites = (w.pendingClientWrites.toList : Multiset _) := rfl
  refine h.move rfl rfl rfl ?_ ?_ fun key m hm => ?_
  · simp only [channels, answered_reply]
    simp only [waiting, answered, WriteView.reply, withBatches, entries_empty, Multiset.zero_bind,
      hen, Multiset.coe_bind]
    abel
  · simp only [places, recorded, WriteView.reply, withBatches, entries_empty, Multiset.zero_bind,
      zero_add]
    gcongr
    exact Multiset.le_add_left _ _
  · change (∅ : OrderedMap WriteMetadata)[key]? = some m at hm
    simp at hm

/-- A new channel is answered or buffered. -/
theorem enter (h : Tidy hand due w) (hnx : w'.nextSender = w.nextSender + 1)
    (hacc : ∀ sender ∈ w'.accepted, sender = w.nextSender ∨ sender ∈ w.accepted)
    (hcov : w'.covered = w.covered)
    (hch : channels hand due w' = w.nextSender ::ₘ channels hand due w)
    (hpl : places due w' = places due w)
    (hba : w'.pendingClientWrites = w.pendingClientWrites) : Tidy hand due w' where
  nodup := by
    rw [hch, Multiset.nodup_cons]
    exact ⟨fun hmem => absurd (h.below _ hmem) (Nat.lt_irrefl _), h.nodup⟩
  below := by
    rw [hch, hnx]
    intro sender hse
    rcases Multiset.mem_cons.mp hse with rfl | hold
    · exact Nat.lt_succ_self _
    · exact Nat.lt_succ_of_lt (h.below sender hold)
  kept := by
    rw [hch]
    intro sender hse
    rcases hacc sender hse with rfl | hold
    · exact Multiset.mem_cons_self _ _
    · exact Multiset.mem_cons_of_mem (h.kept sender hold)
  distinct := hpl ▸ h.distinct
  uncovered := by
    rw [hpl, hcov]
    exact h.uncovered
  batches := hba ▸ h.batches

/-- A new channel is turned away. -/
theorem reject (h : Tidy hand due w) (reply : Reply) :
    Tidy hand due ({ w with nextSender := w.nextSender + 1 }.reply [w.nextSender] reply) := by
  refine h.enter rfl (fun _ hold => Or.inr hold) rfl ?_ rfl rfl
  rw [channels, channels, answered_reply, ← Multiset.singleton_add,
    ← Multiset.coe_singleton]
  change _ + (w.waiting + (_ + w.answered)) = _
  abel

/-- A new channel is buffered. -/
theorem accept (h : Tidy hand due w) :
    Tidy hand due { w with
      nextSender := w.nextSender + 1
      accepted := w.nextSender :: w.accepted
      proposeSenders := w.proposeSenders ++ [w.nextSender] } := by
  refine h.enter rfl (fun _ hnew => List.mem_cons.mp hnew) rfl ?_ rfl rfl
  rw [channels, channels, waiting, waiting, ← Multiset.singleton_add,
    ← Multiset.coe_singleton]
  change _ + (((w.proposeSenders ++ [w.nextSender] : List Nat) : Multiset Nat) + _ + _ +
    w.answered) = _
  rw [← Multiset.coe_add]
  abel

/-- A channel that no proposal has. -/
theorem skip (h : Tidy hand due w) : Tidy hand due { w with nextSender := w.nextSender + 1 } :=
  { h with below := fun sender hse => Nat.lt_succ_of_lt (h.below sender hse) }

/-- The results of entries that no channel waits for are handled. -/
theorem cover (h : Tidy hand due w) {indexes : List Nat}
    (hfr : ∀ index ∈ places due w, index ∉ indexes) :
    Tidy hand due { w with covered := indexes ++ w.covered } :=
  { h with uncovered := fun index hidx hmem =>
      (List.mem_append.mp hmem).elim (hfr index hidx) (h.uncovered index hidx) }

/-- All channels that wait for results are answered. -/
theorem answerAllApply (h : Tidy hand due w) (reply : Reply) :
    Tidy hand due ((w.withApply ∅).reply (w.pendingWriteApply.toList.map Prod.snd) reply) := by
  have hen : entries w.pendingWriteApply = (w.pendingWriteApply.toList : Multiset _) := rfl
  refine h.move rfl rfl rfl ?_ ?_ fun _ _ hm => hm
  · simp only [channels, answered_reply]
    simp only [waiting, answered, WriteView.reply, withApply, entries_empty, Multiset.map_zero,
      ← Multiset.map_coe, hen]
    abel
  · simp only [places, recorded, WriteView.reply, withApply, entries_empty, Multiset.map_zero,
      add_zero]
    gcongr
    exact Multiset.le_add_right _ _

/-- The buffered channels are taken in hand. -/
theorem takeBuffer (h : Tidy [] due w) : Tidy w.proposeSenders due (w.withBuffer []) := by
  refine h.move rfl rfl rfl ?_ le_rfl fun _ _ hm => hm
  simp only [channels, waiting, answered, withBuffer, Multiset.coe_nil]
  abel

end Tidy

/-! ## Handlers -/

section Handlers

variable {hand : List Nat} {due : List WriteMetadata} {env : Env}

/-- The channels of the proposals are left alone. -/
abbrev Untouched (s t : Session myId) : Prop := Keeps (fun _ => True) (fun _ => True) s t

theorem allowsLeased_true : AllowsLeased fun _ => True := fun _ _ _ => trivial

/-- Every channel is in one place behind, if it was before. -/
def StaysTidy (s t : Session myId) : Prop := Tidy [] [] s.writes → Tidy [] [] t.writes

instance : IsTrans (Session myId) StaysTidy := ⟨fun _ _ _ hst htu h => htu (hst h)⟩

theorem tidy_of_untouched {α : Type} {x : SessionM myId α}
    (hx : Ensures x s fun _ t => Untouched s t) : Ensures x s fun _ t => StaysTidy s t :=
  hx.mono fun _ t ht h => by rwa [ht.writes]

theorem tidy_onNode {α : Type} (x : NodeM myId α) :
    Ensures (onNode x) s fun _ t => StaysTidy s t := id

theorem tidy_settleBatches {batches : List (Nat × WriteMetadata)}
    (h : Tidy [] (batches.map Prod.snd) s.writes) :
    Ensures (Handler.each (fun p => settleBatch p.2) batches) s fun _ t => Tidy [] [] t.writes := by
  induction batches generalizing s with
  | nil => exact h
  | cons p rest ih =>
    have hfi : Returns (settleBatch p.2) s fun _ t =>
        Tidy [] (rest.map Prod.snd) t.writes := by
      unfold settleBatch
      split_ifs
      · exact ⟨(), rfl, h.settle⟩
      · exact ⟨(), rfl, h.answerBatch _⟩
    exact hfi.bind fun _ t ht => ih ht

theorem tidy_drainPendingClientWrites (newCommit : Nat) :
    Ensures (drainPendingClientWrites newCommit) s fun _ t => StaysTidy s t :=
  fun h => tidy_settleBatches (h.takeDue newCommit)

theorem tidy_drainPendingWritesWithError (code : ErrorCode) :
    Ensures (drainPendingWritesWithError code) s fun _ t => StaysTidy s t :=
  fun h => h.answerAllBatches _

/-- Phase 2 records the batch in hand, if there is one. -/
theorem tidy_recordWrites {metadata : WriteMetadata} (h : Tidy metadata.senders [] s.writes)
    (hbe : metadata.senders ≠ [] → Tidy.Behind metadata s.writes) :
    Returns (recordWrites metadata) s fun _ t => Tidy [] [] t.writes := by
  unfold recordWrites
  split_ifs with hne
  · exact ⟨(), rfl, Tidy.recordBatch
      (m := { metadata with deadline := s.clock + s.generalRaftTimeoutMs }) h hne (hbe hne)⟩
  · rw [not_not.mp hne] at h
    exact ⟨(), rfl, h⟩

/-- A batch in hand is recorded behind everything in use, or answered. -/
theorem tidy_executeAndProcessRaftRpc {payloads : List EntryPayload}
    {writeMetadata : Option WriteMetadata} {readBatch : Option (List ReadRequest)}
    (h : Tidy ((writeMetadata.map WriteMetadata.senders).getD []) [] s.writes)
    (hbe : ∀ m ∈ writeMetadata, m.senders ≠ [] → Tidy.Behind m s.writes) :
    Ensures (executeAndProcessRaftRpc env payloads writeMetadata readBatch) s
      fun _ t => Tidy [] [] t.writes := by
  unfold executeAndProcessRaftRpc
  refine Returns.bind (R := fun _ t => t.writes = s.writes) ⟨_, rfl, rfl⟩ fun outcome t ht => ?_
  rw [← ht] at h hbe
  cases outcome with
  | error => exact h.answer _
  | ok =>
    refine Returns.bind (R := fun _ u => Tidy [] [] u.writes) ?_ fun _ u hu => ?_
    · cases writeMetadata with
      | none => exact ⟨(), rfl, h⟩
      | some metadata =>
        exact (tidy_recordWrites h (hbe metadata rfl)).bind fun _ u hu => ⟨(), rfl, hu⟩
    · have hre : Ensures (Handler.each routeReads readBatch.toList) u fun _ v =>
          Untouched u v := Ensures.each fun reads _ v _ => keeps_routeReads allowsLeased_true reads
      exact tidy_of_untouched hre hu

/-! ### Flushes and ticks -/

/-- Every index in use lies within the log. -/
def InLog (s : Session myId) : Prop :=
  (∀ index ∈ s.writes.recorded, index ≤ s.node.log.lastEntryId) ∧
    ∀ index ∈ s.covered, index ≤ s.node.log.lastEntryId
deriving Decidable

theorem InLog.behind (h : InLog s) {m : WriteMetadata}
    (hst : m.startIdx = s.node.log.lastEntryId + 1) : Tidy.Behind m s.writes :=
  ⟨fun index hidx => by
      have := h.1 index hidx
      omega,
    fun index hidx => by
      have := h.2 index hidx
      omega⟩

/-- The buffer is empty, or its channels are taken in hand and the log stays as it is. -/
theorem flushProposeBuffer_cases (h : Tidy [] [] s.writes) (hor : s.proposeSenders = [] ∨ InLog s) :
    Returns flushProposeBuffer s fun request t =>
      Tidy ((request.map RaftRequestWithSignal.senders).getD []) [] t.writes ∧
        ∀ m ∈ request, m.senders ≠ [] → InLog t := by
  unfold flushProposeBuffer Returns
  rw [ensures_get_bind]
  split_ifs
  · exact ⟨none, rfl, h, nofun⟩
  · refine ⟨_, rfl, h.takeBuffer, ?_⟩
    rintro m hm hne
    cases hm
    exact hor.resolve_left hne

theorem tidy_processBatch {request : RaftRequestWithSignal}
    (h : Tidy request.senders [] s.writes) (hor : request.senders ≠ [] → InLog s) :
    Ensures (processBatch env [request]) s fun _ t => Tidy [] [] t.writes := by
  unfold processBatch mergeBatchToWriteMetadata
  rw [ensures_get_bind]
  simp only [List.flatMap_cons, List.flatMap_nil, List.append_nil]
  apply tidy_executeAndProcessRaftRpc
  · split_ifs with hem
    · rwa [hem.2] at h
    · exact h
  · intro m hm hne
    split_ifs at hm with hem
    · cases hm
    · cases hm
      exact (hor hne).behind rfl

theorem tidy_sendHeartbeatOrBatch {request : Option RaftRequestWithSignal}
    (h : Tidy ((request.map RaftRequestWithSignal.senders).getD []) [] s.writes)
    (hin : ∀ m ∈ request, m.senders ≠ [] → InLog s) :
    Ensures (sendHeartbeatOrBatch env request) s fun _ t => Tidy [] [] t.writes := by
  cases request with
  | none => exact tidy_executeAndProcessRaftRpc h nofun
  | some taken => exact tidy_processBatch h (hin taken rfl)

theorem tidy_unifiedWriteAndLinearRead (h : Tidy [] [] s.writes)
    (hor : s.proposeSenders = [] ∨ InLog s) :
    Ensures (unifiedWriteAndLinearRead env) s fun _ t => Tidy [] [] t.writes := by
  unfold unifiedWriteAndLinearRead
  refine (flushProposeBuffer_cases h hor).bind ?_
  rintro request t ⟨ht, hin⟩
  refine tidy_executeAndProcessRaftRpc ?_ ?_
  · cases request with
    | none | some taken => exact ht
  · intro m hm hne
    cases request with
    | none => cases hm
    | some taken =>
      cases hm
      exact (hin taken rfl hne).behind rfl

theorem tidy_flushCmdBuffers (h : Tidy [] [] s.writes) (hor : s.proposeSenders = [] ∨ InLog s) :
    Ensures (flushCmdBuffers env) s fun _ t => Tidy [] [] t.writes := by
  have hls : ∀ t : Session myId, Ensures (processLeaseReads env) t fun _ u => StaysTidy t u :=
    fun t => tidy_of_untouched (keeps_processLeaseReads allowsLeased_true env)
  unfold flushCmdBuffers
  rw [ensures_get_bind]
  split_ifs
  · refine (flushProposeBuffer_cases h hor).bind ?_
    rintro request t ⟨ht, hin⟩
    refine Ensures.keep ?_ fun _ u hu => hls u hu
    cases request with
    | none => exact tidy_executeAndProcessRaftRpc ht nofun
    | some taken => exact tidy_processBatch ht (hin taken rfl)
  · exact (tidy_unifiedWriteAndLinearRead h hor).keep fun _ t ht => hls t ht
  · exact hls s h

/-- Deadlines answer whole batches. -/
theorem tidy_expireRequests : Ensures expireRequests s fun _ t => StaysTidy s t :=
  fun h => h.answerBatches _ _

/-- The node only moves the end of its log on. -/
def Grows (s t : Node myId) : Prop := s.log.lastEntryId ≤ t.log.lastEntryId

instance : Std.Refl (@Grows myId) := ⟨fun _ => le_rfl⟩

instance : IsTrans (Node myId) Grows := ⟨fun _ _ _ => le_trans⟩

theorem grows_executeAndProcessRaftRpc (payloads : List EntryPayload) (node : Node myId) :
    Ensures (Raft.executeAndProcessRaftRpc env payloads) node fun _ t => Grows node t := by
  unfold Raft.executeAndProcessRaftRpc
  rw [ensures_get_bind]
  refine Ensures.chain (R := Grows) le_rfl fun _ t _ => ?_
  refine Ensures.chain (R := Grows) ?_ fun requests u _ => ?_
  · change t.log.lastEntryId ≤ BufferedRaftLog.lastEntryId (prepareBatchRequests _ _ _ _ _ _ _).2
    rw [log_prepareBatchRequests]
    exact lastEntryId_le_generateNewEntries _ _ _
  · refine Ensures.chain (R := Grows) (Ensures.each fun _ _ _ _ => le_rfl) fun _ v _ => ?_
    refine Ensures.chain (R := Grows) le_rfl fun _ w _ => ?_
    split_ifs
    · exact le_rfl
    · exact le_rfl

theorem grows_checkAndPurgeStaleFront (env : Env) (node : Node myId) :
    Ensures (checkAndPurgeStaleFront env) node fun _ t => Grows node t := by
  unfold checkAndPurgeStaleFront
  rw [ensures_get_bind]
  refine Ensures.chain (R := Grows) le_rfl fun _ t _ => ?_
  refine Ensures.each fun id _ u _ => ?_
  exact Ensures.chain (R := Grows) (ensures_attempt.mpr (grows_executeAndProcessRaftRpc _ u))
    fun _ _ _ => le_rfl

theorem InLog.grows (h : InLog s) (hwr : t.writes = s.writes) (hgr : Grows s.node t.node) :
    InLog t := by
  have hcov : t.covered = s.covered := congrArg WriteView.covered hwr
  refine ⟨fun index hidx => ?_, fun index hidx => ?_⟩
  · exact (h.1 index (hwr ▸ hidx)).trans hgr
  · exact (h.2 index (hcov ▸ hidx)).trans hgr

theorem tidy_tick (h : Tidy [] [] s.writes) (hor : s.proposeSenders = [] ∨ InLog s) :
    Ensures (tick env) s fun _ t => Tidy [] [] t.writes := by
  have hex : ∀ t : Session myId, Ensures (do
      expireRequests
      onNode (Leader.expireActions env)) t fun _ u => StaysTidy t u := fun t =>
    Ensures.chain (R := StaysTidy) tidy_expireRequests fun _ _ _ => tidy_onNode _
  unfold tick
  rw [ensures_get_bind]
  by_cases hro : s.node.role = .leader
  · rw [if_pos hro]
    refine Ensures.bind (R := fun _ t => t.writes = s.writes ∧ Grows s.node t.node)
      ⟨rfl, le_rfl⟩ (fun _ _ ht => ht.1 ▸ h) fun _ t ht => ?_
    have hgr : Ensures (onNode (checkAndPurgeStaleFront env)) t fun _ u =>
        Grows t.node u.node := grows_checkAndPurgeStaleFront env t.node
    have hpu : Ensures (onNode (checkAndPurgeStaleFront env)) t fun _ u =>
        u.writes = s.writes ∧ Grows s.node u.node := ⟨ht.1, IsTrans.trans _ _ _ ht.2 hgr⟩
    refine hpu.bind (fun _ _ hu => hu.1 ▸ h) fun _ u hu => ?_
    have hti : Tidy [] [] u.writes := hu.1 ▸ h
    dsimp only
    split_ifs
    · have hor' : u.proposeSenders = [] ∨ InLog u := hor.imp
        (fun hem => (congrArg WriteView.proposeSenders hu.1).trans hem)
        fun hin => hin.grows hu.1 hu.2
      refine (flushProposeBuffer_cases hti hor').bind ?_
      rintro request v ⟨hv, hil⟩
      exact (tidy_sendHeartbeatOrBatch hv hil).keep fun _ x hx => hex x hx
    · exact hex u hti
  · rw [if_neg hro]
    exact h

/-! ### Commands -/

theorem tidy_pushClientCmd (cmd : ClientCmd) :
    Ensures (pushClientCmd cmd) s fun _ t => StaysTidy s t := by
  unfold pushClientCmd
  rw [ensures_get_bind, ensures_modify_bind]
  intro h
  cases cmd with
  | scan => exact h.skip
  | propose command =>
    dsimp only
    split_ifs
    · exact h.reject _
    · cases command with
      | none => exact h.reject _
      | some => exact h.accept
  | read =>
    dsimp only
    split
    · split_ifs
      · exact h.skip
      · exact h.skip
    · split_ifs
      · exact h.skip
      · exact h.skip
    · exact h.skip

/-! ### Commits, answers and results -/

theorem tidy_handleLogFlushed : Ensures handleLogFlushed s fun _ t => StaysTidy s t := by
  unfold handleLogFlushed
  rw [ensures_get_bind]
  refine Ensures.chain (R := StaysTidy) (tidy_onNode _) fun _ t _ => ?_
  split
  · refine Ensures.chain (R := StaysTidy) (tidy_drainPendingClientWrites _) fun _ u _ => ?_
    split_ifs
    · exact tidy_of_untouched (Ensures.chain (keeps_updateLeaseTimestamp _)
        fun _ v _ => keeps_drainPendingLeaseReads)
    · exact id
  · exact id

theorem tidy_confirmLeadership : Ensures confirmLeadership s fun _ t => StaysTidy s t := by
  unfold confirmLeadership
  rw [ensures_get_bind]
  apply tidy_of_untouched
  refine Ensures.chain (keeps_updateLeaseTimestamp _) fun _ t _ => ?_
  refine Ensures.chain (R := Untouched) ?_ fun _ u _ => ?_
  · exact ⟨⟨fun r hr => Or.inl hr, fun r _ => Or.inr trivial⟩, rfl⟩
  · refine Ensures.chain keeps_drainPendingLeaseReads fun _ v _ => ?_
    exact keeps_servePendingReads fun _ _ _ _ => trivial

theorem tidy_settleAcknowledgement (commitBefore : Nat) :
    Ensures (settleAcknowledgement commitBefore) s fun _ t => StaysTidy s t := by
  unfold settleAcknowledgement
  rw [ensures_get_bind]
  have hco : ∀ t : Session myId, Ensures (if s.quorumConfirmed then confirmLeadership
      else pure ()) t fun _ u => StaysTidy t u := fun t => by
    split_ifs
    · exact tidy_confirmLeadership
    · exact id
  by_cases hcom : commitBefore < s.node.commitIndex
  · rw [if_pos hcom]
    exact Ensures.chain (tidy_drainPendingClientWrites _) fun _ t _ => hco t
  · rw [if_neg hcom]
    exact hco s

theorem tidy_handleAppendResult {followerId : Nat} {result : Option AppendEntriesResponse}
    {sentAt : Nat} :
    Ensures (handleAppendResult env followerId result sentAt) s fun _ t => StaysTidy s t := by
  unfold handleAppendResult
  rw [ensures_get_bind]
  refine Ensures.chain (R := StaysTidy) (ensures_attempt.mpr (tidy_onNode _)) fun outcome t _ => ?_
  split
  · exact Ensures.chain (R := StaysTidy) (tidy_drainPendingWritesWithError _) fun _ _ _ => id
  · exact id
  · split_ifs
    · rw [ensures_modify_bind]
      exact fun ht => tidy_settleAcknowledgement _ (by exact ht)
    · exact id
    · exact id

/-- Behind the results of a list no channel waits for one of them, and no batch has moved. -/
theorem tidy_answerResults {results : List ApplyResult} (h : Tidy hand due s.writes) :
    Returns (Handler.each answerApplied results) s fun _ t =>
      Tidy hand due t.writes ∧ t.pendingClientWrites = s.pendingClientWrites ∧
      (∀ index : Nat, s.pendingWriteApply[index]? = none → t.pendingWriteApply[index]? = none) ∧
      ∀ result ∈ results, t.pendingWriteApply[result.index]? = none := by
  induction results generalizing s with
  | nil => exact ⟨(), rfl, h, rfl, fun _ hno => hno, nofun⟩
  | cons result rest ih =>
    have hfi : Returns (answerApplied result) s fun _ t =>
        Tidy hand due t.writes ∧ t.pendingClientWrites = s.pendingClientWrites ∧
        (∀ index : Nat, s.pendingWriteApply[index]? = none → t.pendingWriteApply[index]? = none) ∧
        t.pendingWriteApply[result.index]? = none := by
      unfold answerApplied Returns
      rw [ensures_get_bind]
      split
      · rename_i sender hlo
        refine ⟨(), rfl, h.applied hlo _, rfl, fun index hno => ?_, ?_⟩
        · change (s.pendingWriteApply.erase result.index)[index]? = none
          rw [getElem?_erase_eq, hno, ite_self]
        · change (s.pendingWriteApply.erase result.index)[result.index]? = none
          rw [getElem?_erase_eq, if_pos rfl]
      · rename_i hlo
        exact ⟨(), rfl, h, rfl, fun _ hno => hno, hlo⟩
    refine hfi.bind ?_
    rintro _ t ⟨ht, hba, hno, hgo⟩
    refine (ih ht).mono ?_
    rintro r u ⟨_, hok, hu, hba', hno', hgo'⟩
    refine ⟨(), hok, hu, hba'.trans hba, fun index hidx => hno' _ (hno _ hidx), ?_⟩
    rintro other hot
    rcases List.mem_cons.mp hot with rfl | hre
    · exact hno' _ hgo
    · exact hgo' other hre

/-- No batch that waits for its commit has an entry among the results. -/
def BatchesAside (s : Session myId) (results : List ApplyResult) : Prop :=
  ∀ p ∈ s.pendingClientWrites.toList, ∀ result ∈ results, result.index ∉ p.2.indexes
deriving Decidable

theorem tidy_handleApplyCompleted {lastIndex : Nat} {results : List ApplyResult}
    (h : Tidy [] [] s.writes) (has : BatchesAside s results) :
    Ensures (handleApplyCompleted env lastIndex results) s fun _ t => Tidy [] [] t.writes := by
  unfold handleApplyCompleted
  refine (tidy_answerResults h).bind ?_
  rintro _ t ⟨ht, hbt, -, hgo⟩
  have hfr : ∀ index ∈ places [] t.writes, index ∉ results.map ApplyResult.index := by
    intro index hidx hmem
    obtain ⟨result, hres, rfl⟩ := List.mem_map.mp hmem
    rw [places, WriteView.recorded, Multiset.mem_add, Multiset.mem_add] at hidx
    rcases hidx with hno | hba | hwa
    · simp at hno
    · obtain ⟨p, hp, hin⟩ := Multiset.mem_bind.mp hba
      refine has p ?_ result hres (Multiset.mem_coe.mp hin)
      rw [← hbt]
      exact Multiset.mem_coe.mp hp
    · obtain ⟨p, hp, heq⟩ := Multiset.mem_map.mp hwa
      have hso := mem_entries.mp hp
      rw [heq] at hso
      exact absurd (hso.symm.trans (hgo result hres)) nofun
  rw [ensures_modify_bind]
  have hse : ∀ u : Session myId, Ensures (do
      servePendingReads lastIndex
      onNode (Raft.handleInternalEvent env (.applyCompleted lastIndex))) u
      fun _ v => StaysTidy u v := fun u =>
    Ensures.chain (tidy_of_untouched (keeps_servePendingReads fun _ _ _ _ => trivial))
      fun _ _ _ => tidy_onNode _
  exact hse _ (ht.cover hfr)

/-! ### Role changes and failures -/

/-- Turning the clients away leaves only channels that wait for results. -/
theorem tidy_drainReadBuffer (h : Tidy [] [] s.writes) :
    Returns drainReadBuffer s fun _ t => Tidy [] [] t.writes ∧
      t.node.role = s.node.role ∧ t.pendingWriteApply = s.pendingWriteApply ∧
      (s.node.role = .leader → t.proposeSenders = [] ∧ t.pendingClientWrites = ∅) := by
  have hro : ∀ node : Node myId, (Raft.drainReadBuffer node).2.role = node.role := by
    intro node
    unfold Raft.drainReadBuffer Handler.modify
    dsimp only
    split_ifs <;> rfl
  unfold drainReadBuffer Returns
  rw [ensures_get_bind]
  split_ifs with hld
  · exact ⟨(), rfl, (h.takeBuffer.answer _).answerAllBatches _, hro s.node, rfl,
      fun _ => ⟨rfl, rfl⟩⟩
  · exact ⟨(), rfl, h, hro s.node, rfl, fun hro => absurd hro hld⟩

/-- Nothing is lost with the state of a leader for whom nothing waits. -/
theorem tidy_dropLeaderState (h : Tidy [] [] s.writes) (hbuf : s.proposeSenders = [])
    (hba : s.pendingClientWrites = ∅) (hap : s.pendingWriteApply = ∅) :
    Ensures dropLeaderState s fun _ t => Tidy [] [] t.writes := by
  have hsa : ((s.writes.withBuffer []).withBatches ∅).withApply ∅ = s.writes := by
    rw [← hbuf, ← hba, ← hap]
    rfl
  change Tidy [] [] (((s.writes.withBuffer []).withBatches ∅).withApply ∅)
  rwa [hsa]

theorem tidy_handleBecomeFollower (h : Tidy [] [] s.writes)
    (hap : s.node.role = .leader → s.pendingWriteApply = ∅) :
    Ensures (handleBecomeFollower env) s fun _ t => Tidy [] [] t.writes := by
  unfold handleBecomeFollower
  refine (tidy_drainReadBuffer h).bind ?_
  rintro _ t ⟨ht, hro, hke, hdr⟩
  rw [ensures_get_bind]
  have hfo : Ensures (onNode becomeFollower) t fun _ u => u.writes = t.writes := rfl
  refine hfo.bind (fun _ u hu => hu ▸ ht) fun _ u hu => ?_
  have hti : Tidy [] [] u.writes := hu ▸ ht
  split_ifs with hld
  · rw [hro] at hld
    obtain ⟨hbuf, hba⟩ := hdr hld
    have hdp := tidy_dropLeaderState (s := { u with lease := .revoke }) hti
      ((congrArg WriteView.proposeSenders hu).trans hbuf)
      ((congrArg WriteView.pendingClientWrites hu).trans hba)
      ((congrArg WriteView.pendingWriteApply hu).trans (hke.trans (hap hld)))
    exact hdp.keep fun _ _ hv => tidy_onNode _ hv
  · exact hti

theorem tidy_handleFatalError (h : Tidy [] [] s.writes) (hbuf : s.proposeSenders = [])
    (hba : s.pendingClientWrites = ∅) :
    Ensures (handleFatalError env) s fun _ t => Tidy [] [] t.writes := by
  have hans := h.answerAllApply (.failed .nodeFatalError)
  have hsa : ((s.writes.withBuffer []).withBatches ∅) = s.writes := by
    rw [← hbuf, ← hba]
    rfl
  rw [← hsa] at hans
  exact hans

/-! ## Runs -/

/-- The step finds no place that it would overwrite, and drops none with something in it. -/
def KeepsReplies (s : Session myId) : SessionLabel → Prop
  | .flush _ => s.proposeSenders = [] ∨ InLog s
  | .tick _ => s.proposeSenders = [] ∨ InLog s
  | .applyCompleted _ _ results => BatchesAside s results
  | .internal _ (.becomeFollower _) => s.node.role = .leader → s.pendingWriteApply.toList = []
  | .internal _ .fatalError =>
    s.proposeSenders = [] ∧ s.pendingClientWrites.toList = [] ∧ s.pendingWriteApply.toList = []
  | .inbound _ .fatalError =>
    s.node.role = .leader → s.proposeSenders = [] ∧ s.pendingClientWrites.toList = []
  | _ => True

instance (l : SessionLabel) : Decidable (KeepsReplies s l) := by
  unfold KeepsReplies
  split <;> infer_instance

theorem eq_empty_of_toList {V : Type} {m : OrderedMap V} (h : m.toList = []) : m = ∅ :=
  Std.ExtTreeMap.toList_eq_nil_iff.mp h

theorem tidy_handleInternalEvent {event : InternalEvent} (h : Tidy [] [] s.writes)
    (hke : KeepsReplies s (.internal env event)) :
    Ensures (handleInternalEvent env event) s fun _ t => Tidy [] [] t.writes := by
  cases event with
  | becomeFollower =>
    exact tidy_handleBecomeFollower h fun hro => eq_empty_of_toList (hke hro)
  | becomeCandidate | becomeLearner =>
    exact (tidy_drainReadBuffer h).bind fun _ _ ht => ht.1
  | logFlushed =>
    unfold handleInternalEvent
    rw [ensures_get_bind]
    split_ifs
    · exact tidy_handleLogFlushed h
    · exact h
  | fatalError =>
    obtain ⟨hbuf, hba, hap⟩ := hke
    refine (tidy_dropLeaderState h hbuf (eq_empty_of_toList hba)
      (eq_empty_of_toList hap)).keep fun _ _ ht => ht
  | _ => exact h

theorem tidy_handleInboundEvent {event : InboundEvent} (h : Tidy [] [] s.writes)
    (hke : KeepsReplies s (.inbound env event)) :
    Ensures (handleInboundEvent env event) s fun _ t => Tidy [] [] t.writes := by
  unfold handleInboundEvent
  rw [ensures_get_bind]
  split_ifs with hfa
  · obtain ⟨hro, rfl⟩ := hfa
    exact tidy_handleFatalError h (hke hro).1 (eq_empty_of_toList (hke hro).2)
  · exact Ensures.chain (R := StaysTidy) (tidy_onNode _) (fun _ _ _ => id) h
  · exact Ensures.chain (R := StaysTidy) (tidy_onNode _) (fun _ _ _ => id) h

theorem tidy_step {l : SessionLabel} (h : Tidy [] [] s.writes) (hke : KeepsReplies s l)
    (hst : s.step l = some t) : Tidy [] [] t.writes := by
  cases l
  all_goals
    simp only [Session.step, Option.ite_none_right_eq_some, Option.some.injEq] at hst
    obtain ⟨-, rfl⟩ := hst
  case elapse | apply => exact h
  case submit cmd => exact tidy_pushClientCmd cmd h
  case flush env => exact tidy_flushCmdBuffers h hke
  case tick env => exact tidy_tick h hke
  case appendResult env followerId result sentAt => exact tidy_handleAppendResult h
  case applyCompleted env lastIndex results => exact tidy_handleApplyCompleted h hke
  case internal env event => exact tidy_handleInternalEvent h hke
  case inbound env event => exact tidy_handleInboundEvent h hke

/-- Nothing waits when nothing has been asked. -/
theorem tidy_start {w : WriteView} (hbuf : w.proposeSenders = [])
    (hba : w.pendingClientWrites = ∅) (hap : w.pendingWriteApply = ∅)
    (hre : w.writeReplies = []) (hacc : w.accepted = []) : Tidy [] [] w := by
  have hch : channels [] [] w = 0 := by
    simp [channels, WriteView.waiting, WriteView.answered, hbuf, hba, hap, hre,
      entries_empty]
  have hpl : places [] w = 0 := by
    simp [places, WriteView.recorded, hba, hap, entries_empty]
  refine ⟨?_, ?_, ?_, ?_, ?_, ?_⟩
  · rw [hch]
    exact Multiset.nodup_zero
  · simp [hch]
  · simp [hacc]
  · rw [hpl]
    exact Multiset.nodup_zero
  · simp [hpl]
  · simp [hba]

theorem tidy_of_reach (h : (sessions myId).Reach KeepsReplies s) : Tidy [] [] s.writes := by
  apply h.invariant (I := fun s => Tidy [] [] s.writes)
  · rintro s ⟨node, clock, leaseDurationMs, generalRaftTimeoutMs, lastApplied, rfl⟩
    exact tidy_start rfl rfl rfl rfl rfl
  · intro s l t hti hke hst
    exact tidy_step hti hke hst

end Handlers

/-- In every run whose steps find no place that they would overwrite or drop, no proposal is
answered twice, lost, or left behind when the result of its entry is handled. -/
theorem conserved_replies_of_reach (h : (sessions myId).Reach KeepsReplies s) :
    RepliesConserved s :=
  (tidy_of_reach h).conserved

/-- The leader has committed its no-op and proposed two commands, at the indexes 2 and 3. -/
def twoProposals : List SessionLabel :=
  electedRun ++ [successOfTwo 1 1, .apply 1, .submit (.propose (some [])),
    .submit (.propose (some [])), .flush {}]

/-- Both proposals are committed at once and answered with their results. -/
theorem two_proposals_answered :
    ∃ s, (sessions 1).Reach KeepsReplies s ∧
      s.writeReplies = [(1, .writeSuccess), (0, .casFailure)] ∧ RepliesConserved s :=
  Machine.exists_reach_and_of_runIf (twoProposals ++ [successOfTwo 3 1, .apply 3,
    .applyCompleted {} 3 [⟨2, false⟩, ⟨3, true⟩]]) Session.init_ofTrio (by decide +kernel)
    fun _ hre => conserved_replies_of_reach hre

/-- A commit that ends within the batch leaves the first channel waiting for a result that has
been handled; a committed channel is lost when the leader steps down; and a channel that waits for
its commit is lost in a fatal error. -/
theorem channels_left_and_lost :
    (∃ s, (sessions 1).Reach (fun _ _ => True) s ∧
      s.covered = [3, 2] ∧ s.pendingWriteApply.toList = [(2, 0)] ∧ ¬ RepliesConserved s) ∧
    (∃ s, (sessions 1).Reach (fun _ _ => True) s ∧
      s.accepted = [1, 0] ∧ s.writeReplies = [] ∧ s.node.role = .follower ∧
      ¬ RepliesConserved s) ∧
    ∃ s, (sessions 1).Reach (fun _ _ => True) s ∧
      s.accepted = [1, 0] ∧ s.writeReplies = [] ∧ ¬ RepliesConserved s := by
  refine ⟨?_, ?_, ?_⟩
  · exact Machine.exists_reach_of_runIf (twoProposals ++ [successOfTwo 2 1, .apply 2,
      .applyCompleted {} 2 [⟨2, true⟩], successOfTwo 3 1, .apply 3,
      .applyCompleted {} 3 [⟨3, true⟩]]) Session.init_ofTrio (by decide +kernel)
  · exact Machine.exists_reach_of_runIf (twoProposals ++ [successOfTwo 3 1,
      .internal {} (.becomeFollower none)]) Session.init_ofTrio (by decide +kernel)
  · exact Machine.exists_reach_of_runIf (twoProposals ++ [.inbound {} .fatalError])
      Session.init_ofTrio (by decide +kernel)

end DEngine.Client

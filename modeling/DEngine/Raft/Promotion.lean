import DEngine.Apply.Membership
import DEngine.Library.Quorum
import DEngine.Raft.HandlerEffects

/-!
# Promotions and the quorums before and after

A leader promotes as many waiting learners at once as keep the number of voters
odd. The change takes effect when it is applied, so a later promotion may be
proposed while an earlier one is still on its way; quorums are counted with the
voters of the applied membership until then.

## Implementation notes

The applied membership is replaced even when a change fails half way: the nodes
promoted before the unknown one stay promoted.
-/

namespace DEngine.Raft

open Library Library.Handler Storage Replication

variable {myId : Nat}

/-! ## Applying a promotion -/

namespace Membership

/-- Make every given node a follower with the given status, up to the first unknown one. -/
def applyBatchPromote (newStatus : NodeStatus) :
    List Nat → Membership → Except Fault Unit × Membership
  | [], m => (.ok (), m)
  | id :: rest, m =>
    match m.nodes[id]? with
    | none => (.error (.noMetadataFoundForNode id), m)
    | some _ =>
      applyBatchPromote newStatus rest { m with nodes := m.nodes.insert id ⟨.follower, newStatus⟩ }

/-- The nodes are those that the commit handler changes, without their addresses. -/
def Views (view : Membership) (m : Apply.InnerState) : Prop :=
  ∀ id : Nat, view.nodes[id]? = (m.nodes[id]?).map fun node => ⟨node.role, node.status⟩

/-- Both views of the membership change alike. -/
theorem Views.batchPromote {view : Membership} {m : Apply.InnerState} (h : view.Views m)
    (newStatus : NodeStatus) (ids : List Nat) :
    (applyBatchPromote newStatus ids view).1 = (m.batchPromote newStatus ids).1 ∧
      (applyBatchPromote newStatus ids view).2.Views (m.batchPromote newStatus ids).2 := by
  induction ids generalizing view m with
  | nil => exact ⟨rfl, h⟩
  | cons id rest ih =>
    have hid := h id
    cases hno : m.nodes[id]? with
    | none =>
      rw [hno] at hid
      simp only [applyBatchPromote, Apply.InnerState.batchPromote, hno, hid, Option.map_none]
      exact ⟨trivial, h⟩
    | some node =>
      rw [hno] at hid
      simp only [applyBatchPromote, Apply.InnerState.batchPromote, hno, hid, Option.map_some]
      refine ih fun j => ?_
      simp only [OrderedMap.getElem?_insert_eq]
      split_ifs
      · rfl
      · exact h j

/-- The membership behind the application of promotions, one after the other. -/
def promoteAll (m : Membership) (batches : List (List Nat)) : Membership :=
  batches.foldl (fun m ids => (applyBatchPromote .active ids m).2) m

/-- The voters of a node's cluster, itself included. -/
def voterSet (m : Membership) (myId : Nat) : Finset Nat := insert myId (m.voters myId).toFinset

theorem mem_voters_iff {m : Membership} {id : Nat} :
    id ∈ m.voters myId ↔
      id ≠ myId ∧ ∃ node, m.nodes[id]? = some node ∧ node.status = .active := by
  simp only [voters, List.mem_map, List.mem_filter, decide_eq_true_eq, Prod.exists,
    OrderedMap.mem_toList_iff]
  constructor
  · rintro ⟨id, node, ⟨hno, hne, hact⟩, rfl⟩
    exact ⟨hne, node, hno, hact⟩
  · rintro ⟨hne, node, hno, hact⟩
    exact ⟨id, node, ⟨hno, hne, hact⟩, rfl⟩

theorem voterSet_nonempty (m : Membership) (myId : Nat) : (m.voterSet myId).Nonempty :=
  ⟨myId, Finset.mem_insert_self myId _⟩

theorem card_voterSet (m : Membership) : (m.voterSet myId).card = (m.voters myId).length + 1 := by
  rw [voterSet, Finset.card_insert_of_notMem, List.toFinset_card_of_nodup (m.voters_nodup myId)]
  rw [List.mem_toFinset]
  exact m.self_not_mem_voters myId

/-- A node that becomes active is a voter from then on. -/
theorem voterSet_insert_active (m : Membership) (id : Nat) (role : NodeRole) :
    ({ m with nodes := m.nodes.insert id ⟨role, .active⟩ } : Membership).voterSet myId =
      insert id (m.voterSet myId) := by
  ext x
  simp only [voterSet, Finset.mem_insert, List.mem_toFinset, mem_voters_iff,
    OrderedMap.getElem?_insert_eq]
  by_cases hx : x = id
  · simp [hx, em]
  · simp [hx]

/-- A promotion of known nodes adds exactly these to the voters. -/
theorem voterSet_applyBatchPromote {ids : List Nat} {m : Membership}
    (hkn : ∀ id ∈ ids, ∃ node, m.nodes[id]? = some node) :
    ((applyBatchPromote .active ids m).2.voterSet myId = m.voterSet myId ∪ ids.toFinset) ∧
      ∀ (id : Nat) (node : NodeMeta), m.nodes[id]? = some node →
        ∃ node', (applyBatchPromote .active ids m).2.nodes[id]? = some node' := by
  induction ids generalizing m with
  | nil => exact ⟨by simp [applyBatchPromote], fun id node hno => ⟨node, hno⟩⟩
  | cons first rest ih =>
    obtain ⟨found, hfo⟩ := hkn first List.mem_cons_self
    -- Later nodes stay known when the first one is promoted.
    have hke : ∀ (id : Nat) (node : NodeMeta), m.nodes[id]? = some node →
        ∃ node', (m.nodes.insert first ⟨.follower, .active⟩)[id]? = some node' := by
      intro id node hno
      rw [OrderedMap.getElem?_insert_eq]
      split_ifs
      · exact ⟨_, rfl⟩
      · exact ⟨node, hno⟩
    obtain ⟨hvo, hst⟩ := @ih { m with nodes := m.nodes.insert first ⟨.follower, .active⟩ }
      fun id hid => by
        obtain ⟨node, hno⟩ := hkn id (List.mem_cons_of_mem first hid)
        exact hke id node hno
    simp only [applyBatchPromote, hfo]
    constructor
    · rw [hvo, voterSet_insert_active, List.toFinset_cons, Finset.insert_union,
        Finset.union_insert]
    · intro id node hno
      obtain ⟨node', hno'⟩ := hke id node hno
      exact hst id node' hno'

theorem voterSet_promoteAll {batches : List (List Nat)} {m : Membership}
    (hkn : ∀ id ∈ batches.flatten, ∃ node, m.nodes[id]? = some node) :
    (m.promoteAll batches).voterSet myId = m.voterSet myId ∪ batches.flatten.toFinset := by
  induction batches generalizing m with
  | nil => simp [promoteAll]
  | cons ids rest ih =>
    have hfi : ∀ id ∈ ids, ∃ node, m.nodes[id]? = some node := fun id hid =>
      hkn id (List.mem_flatten.mpr ⟨ids, List.mem_cons_self, hid⟩)
    obtain ⟨hvo, hst⟩ := @voterSet_applyBatchPromote myId ids m hfi
    have hre : ∀ id ∈ rest.flatten,
        ∃ node, (applyBatchPromote .active ids m).2.nodes[id]? = some node := by
      intro id hid
      obtain ⟨node, hno⟩ := hkn id (by
        rw [List.flatten_cons]
        exact List.mem_append_right ids hid)
      exact hst id node hno
    change ((applyBatchPromote .active ids m).2.promoteAll rest).voterSet myId = _
    rw [ih hre, hvo, List.flatten_cons, List.toFinset_append, Finset.union_assoc]

end Membership

/-! ## What a leader proposes -/

/-- The nodes that a log entry promotes. -/
def promotion (e : Entry) : Option (List Nat) :=
  match e.payload with
  | some ⟨some (.config (some (.batchPromote ids .active)))⟩ => some ids
  | _ => none

def Action.promotions : Action → List (List Nat)
  | .generated entries => entries.filterMap promotion
  | _ => []

/-- The promotions that a node proposed on the way from one state to another. -/
def proposedPromotions (s t : Node myId) : List (List Nat) :=
  (t.journal.take (t.journal.length - s.journal.length)).flatMap Action.promotions

/-- Every promotion that is proposed on the way is one of the allowed ones. -/
def Proposes (allowed : List Nat → Prop) (s t : Node myId) : Prop :=
  ∃ done, t.journal = done ++ s.journal ∧ ∀ a ∈ done, ∀ ids ∈ a.promotions, allowed ids

section Proposes

variable {allowed : List Nat → Prop} {s t : Node myId}

theorem Proposes.of_journal_eq (h : t.journal = s.journal) : Proposes allowed s t :=
  ⟨[], h, nofun⟩

instance : Std.Refl (Proposes allowed : Node myId → Node myId → Prop) :=
  ⟨fun _ => .of_journal_eq rfl⟩

instance : IsTrans (Node myId) (Proposes allowed) where
  trans := by
    rintro s t u ⟨done, ht, hdone⟩ ⟨done', hu, hdone'⟩
    refine ⟨done' ++ done, by rw [hu, ht, List.append_assoc], fun a ha => ?_⟩
    rcases List.mem_append.mp ha with hlate | hearly
    · exact hdone' a hlate
    · exact hdone a hearly

theorem Proposes.allowed_of_mem (h : Proposes allowed s t) {ids : List Nat}
    (hids : ids ∈ proposedPromotions s t) : allowed ids := by
  obtain ⟨done, hjo, hdn⟩ := h
  have hta : t.journal.take (t.journal.length - s.journal.length) = done := by
    rw [hjo, List.length_append, Nat.add_sub_cancel, List.take_left]
  rw [proposedPromotions, hta, List.mem_flatMap] at hids
  obtain ⟨a, ha, hmem⟩ := hids
  exact hdn a ha ids hmem

theorem proposes_record {action : Action} (h : ∀ ids ∈ action.promotions, allowed ids) :
    Ensures (record action) s fun _ t => Proposes allowed s t :=
  ⟨[action], rfl, fun a ha => by rwa [List.mem_singleton.mp ha]⟩

variable {payloads : List EntryPayload}

theorem payload_generatedEntries {e : Entry}
    (he : e ∈ generatedEntries s payloads) : ∃ payload ∈ payloads, e.payload = some payload := by
  unfold generatedEntries at he
  cases hgen : (generateNewEntries payloads s.currentTerm s.log).1 with
  | error => simp [hgen] at he
  | ok =>
    rw [hgen, generateNewEntries_eq hgen] at he
    obtain ⟨p, hp, rfl⟩ := List.mem_map.mp he
    exact ⟨p.1, List.fst_mem_of_mem_zipIdx hp, rfl⟩

theorem payload_of_promotion {e : Entry} {ids : List Nat} (h : promotion e = some ids) :
    e.payload = some (configPayload (.batchPromote ids .active)) := by
  unfold promotion at h
  split at h <;> cases h
  rename_i heq
  exact heq

/-- A batch of payloads proposes no promotion but those it carries. -/
theorem proposes_executeAndProcessRaftRpc {env : Env}
    (h : ∀ ids, configPayload (.batchPromote ids .active) ∈ payloads → allowed ids) :
    Ensures (executeAndProcessRaftRpc env payloads) s fun _ t => Proposes allowed s t := by
  unfold executeAndProcessRaftRpc
  rw [ensures_get_bind]
  refine Ensures.chain (proposes_record ?_) fun _ t _ => ?_
  · intro ids hids
    obtain ⟨e, he, hpr⟩ := List.mem_filterMap.mp hids
    obtain ⟨payload, hpay, heq⟩ := payload_generatedEntries he
    have hsa : payload = configPayload (.batchPromote ids .active) :=
      Option.some.inj (heq.symm.trans (payload_of_promotion hpr))
    exact h ids (hsa ▸ hpay)
  refine Ensures.chain (R := Proposes allowed) (.of_journal_eq rfl) fun requests u _ => ?_
  refine Ensures.chain (Ensures.each fun request _ v _ => proposes_record ?_) fun _ v _ => ?_
  · exact fun ids hids => absurd hids List.not_mem_nil
  · refine Ensures.chain (R := Proposes allowed) (.of_journal_eq rfl) fun _ w _ => ?_
    split_ifs
    · exact Proposes.of_journal_eq rfl
    · exact Proposes.of_journal_eq rfl

/-- The learners that a leader promotes at once, from the front of its queue. -/
def promotionBatch (myId : Nat) (m : Membership) (pending : List Nat) : List Nat :=
  pending.take (calculateSafeBatchSize ((m.voters myId).length + 1) pending.length)

/-- The handler proposes one promotion at most: that of the chosen batch, if there is one. -/
theorem proposes_handlePromoteReadyLearners (env : Env) (s : Node myId) :
    Ensures (handlePromoteReadyLearners env) s fun _ t =>
      Proposes (fun ids => ids ≠ [] ∧ ids = promotionBatch myId s.membership
        (s.leader.pendingPromotions.drop env.staleLearners)) s t := by
  unfold handlePromoteReadyLearners modifyLeader
  rw [ensures_modify_bind, ensures_get_bind]
  dsimp only
  split
  · rename_i hba
    rw [ensures_modify_bind]
    refine Ensures.chain (R := Proposes _) (ensures_attempt.mpr
      (proposes_executeAndProcessRaftRpc ?_)) fun outcome t _ => ?_
    · intro ids hids
      rw [List.mem_singleton, configPayload, configPayload] at hids
      cases hids
      refine ⟨?_, rfl⟩
      rw [Ne, List.take_eq_nil_iff]
      exact not_or.mpr ⟨hba.2, hba.1⟩
    · cases outcome with
      | ok =>
        dsimp only
        split_ifs
        · exact Proposes.of_journal_eq rfl
        · exact Proposes.of_journal_eq rfl
      | error => exact Proposes.of_journal_eq rfl
  · exact Proposes.of_journal_eq rfl

end Proposes

/-! ## Quorums before and after -/

/-- The learners of a leader's promotions, those on their way and those that wait: known nodes
that do not vote yet, each waiting once. -/
structure LearnerQueue (myId : Nat) (m : Membership) (outstanding : List (List Nat))
    (pending : List Nat) : Prop where
  nodup : pending.Nodup
  learner : ∀ id ∈ outstanding.flatten ++ pending,
    id ≠ myId ∧ ∃ node, m.nodes[id]? = some node ∧ node.status ≠ .active

/-- The number of voters is even, so that one learner is promoted at a time, at most two learners
wait, and the next of them and those on their way are no more than two. -/
def OneByOne (myId : Nat) (m : Membership) (outstanding : List (List Nat)) (pending : List Nat) :
    Prop :=
  Even ((m.voters myId).length + 1) ∧ pending.length ≤ 2 ∧
    (outstanding.flatten ++ pending.take 1).toFinset.card ≤ 2

variable {m : Membership} {outstanding : List (List Nat)} {pending : List Nat}

/-- A chosen batch makes the number of voters odd. -/
theorem calculateSafeBatchSize_spec (current available : Nat) :
    calculateSafeBatchSize current available ≤ available ∧
      (available ≤ calculateSafeBatchSize current available + 1) ∧
      (calculateSafeBatchSize current available ≠ 0 →
        (current + calculateSafeBatchSize current available) % 2 = 1) := by
  unfold calculateSafeBatchSize
  split_ifs <;> omega

namespace LearnerQueue

variable (hqueue : LearnerQueue myId m outstanding pending) (count : Nat)

include hqueue

theorem learner_of_mem {id : Nat} (hid : id ∈ outstanding.flatten ++ pending.take count) :
    id ≠ myId ∧ ∃ node, m.nodes[id]? = some node ∧ node.status ≠ .active := by
  apply hqueue.learner
  rw [List.mem_append] at hid ⊢
  exact hid.imp_right List.mem_of_mem_take

/-- The voters behind the promotions are those before and the promoted learners. -/
theorem voterSet_promoteAll :
    (m.promoteAll (outstanding ++ [pending.take count])).voterSet myId =
      m.voterSet myId ∪ (outstanding.flatten ++ pending.take count).toFinset := by
  have hfl : (outstanding ++ [pending.take count]).flatten =
      outstanding.flatten ++ pending.take count := by simp
  rw [Membership.voterSet_promoteAll, hfl]
  intro id hid
  obtain ⟨-, node, hno, -⟩ := hqueue.learner_of_mem count (hfl ▸ hid)
  exact ⟨node, hno⟩

/-- None of the promoted learners voted before. -/
theorem card_added :
    ((m.promoteAll (outstanding ++ [pending.take count])).voterSet myId \ m.voterSet myId).card =
      (outstanding.flatten ++ pending.take count).toFinset.card := by
  rw [hqueue.voterSet_promoteAll, Finset.union_sdiff_left, Finset.sdiff_eq_self_of_disjoint]
  rw [Finset.disjoint_left]
  intro id hid hvo
  obtain ⟨hne, node, hno, hst⟩ := hqueue.learner_of_mem count (List.mem_toFinset.mp hid)
  rw [Membership.voterSet, Finset.mem_insert, List.mem_toFinset,
    Membership.mem_voters_iff] at hvo
  rcases hvo with hse | ⟨-, node', hno', hact⟩
  · exact hne hse
  · rw [hno, Option.some.injEq] at hno'
    exact hst (hno' ▸ hact)

/-- A promotion from the front of the queue adds at least its own learners. -/
theorem le_card_promoted (hco : count ≤ pending.length) :
    count ≤ (outstanding.flatten ++ pending.take count).toFinset.card := by
  calc
    count = (pending.take count).toFinset.card := by
      rw [List.toFinset_card_of_nodup (hqueue.nodup.sublist (List.take_sublist count pending)),
        List.length_take, Nat.min_eq_left hco]
    _ ≤ _ := by
      rw [List.toFinset_append]
      exact Finset.card_le_card Finset.subset_union_right

end LearnerQueue

/-- Whenever a leader proposes a promotion, the majorities of the voters in force and of the
voters behind this promotion and all those on their way meet exactly under `OneByOne`. -/
theorem majoritiesMeet_iff_of_proposed {env : Env} {s : Node myId} {ids : List Nat}
    (hqueue : LearnerQueue myId s.membership outstanding
      (s.leader.pendingPromotions.drop env.staleLearners))
    (hids : ids ∈ proposedPromotions s (handlePromoteReadyLearners env s).2) :
    MajoritiesMeet (s.membership.voterSet myId)
        ((s.membership.promoteAll (outstanding ++ [ids])).voterSet myId) ↔
      OneByOne myId s.membership outstanding
        (s.leader.pendingPromotions.drop env.staleLearners) := by
  obtain ⟨hne, hba⟩ := (proposes_handlePromoteReadyLearners env s).allowed_of_mem hids
  generalize hp : s.leader.pendingPromotions.drop env.staleLearners = pending at *
  rw [promotionBatch] at hba
  generalize hn : (s.membership.voters myId).length + 1 = n at *
  obtain ⟨hle, hla, hodd⟩ := calculateSafeBatchSize_spec n pending.length
  generalize calculateSafeBatchSize n pending.length = size at *
  subst hba
  have hsi : size ≠ 0 := fun hze => hne (by rw [hze, List.take_zero])
  have hpa := hodd hsi
  have had := hqueue.le_card_promoted size hle
  rw [majoritiesMeet_iff_card_sdiff (s.membership.voterSet_nonempty myId), hqueue.card_added,
    Membership.card_voterSet, hn, OneByOne, hn, Nat.even_iff]
  · by_cases hone : size = 1
    · rw [hone] at hpa hla ⊢
      omega
    · omega
  · rw [hqueue.voterSet_promoteAll]
    exact Finset.subset_union_left

/-- A leader whose learners wait for promotion, in a cluster of the given membership. -/
def Node.promoting (membership : Membership) (pending : List Nat) : Node 1 :=
  { (Node.start Config.small .leader (SharedState.new none none)
      (BufferedRaftLog.new 0 [] none) membership : Node 1) with
    leader := { LeaderState.fresh with pendingPromotions := pending } }

/-- The membership with learners added. -/
def Membership.withLearners (m : Membership) (ids : List Nat) : Membership :=
  { m with nodes := ids.foldl (fun nodes id => nodes.insert id ⟨.learner, .promotable⟩) m.nodes }

/-- Voters 1 and 2, and learner 3. -/
def Membership.pairAndLearner : Membership :=
  let voter : NodeMeta := ⟨.follower, .active⟩
  Membership.withLearners ⟨((∅ : OrderedMap NodeMeta).insert 1 voter).insert 2 voter, 2⟩ [3]

theorem single_promotion_majorities_meet :
    LearnerQueue 1 Membership.pairAndLearner [] [3] ∧
      [3] ∈ proposedPromotions (Node.promoting Membership.pairAndLearner [3])
        (handlePromoteReadyLearners {} (Node.promoting Membership.pairAndLearner [3])).2 ∧
      MajoritiesMeet (Membership.pairAndLearner.voterSet 1)
        ((Membership.pairAndLearner.promoteAll [[3]]).voterSet 1) := by
  have hqueue : LearnerQueue 1 Membership.pairAndLearner [] [3] := by
    refine ⟨List.nodup_singleton 3, fun id hid => ?_⟩
    rw [List.flatten_nil, List.nil_append, List.mem_singleton] at hid
    subst hid
    exact ⟨by decide, ⟨.learner, .promotable⟩, by decide +kernel, by decide⟩
  have hids : [3] ∈ proposedPromotions (Node.promoting Membership.pairAndLearner [3])
      (handlePromoteReadyLearners {} (Node.promoting Membership.pairAndLearner [3])).2 := by
    decide +kernel
  have hiff := @majoritiesMeet_iff_of_proposed 1 [] {}
    (Node.promoting Membership.pairAndLearner [3]) [3] hqueue hids
  refine ⟨hqueue, hids, hiff.mpr ?_⟩
  exact ⟨by decide +kernel, by decide +kernel, by decide +kernel⟩

/-- Two learners at once turn three voters into five: voters 1 and 2 are a majority before, and
3, 4 and 5 are one after. -/
theorem double_promotion_majorities_apart :
    [4, 5] ∈ proposedPromotions (Node.promoting (Membership.trio.withLearners [4, 5]) [4, 5])
        (handlePromoteReadyLearners {}
          (Node.promoting (Membership.trio.withLearners [4, 5]) [4, 5])).2 ∧
      ¬ MajoritiesMeet ((Membership.trio.withLearners [4, 5]).voterSet 1)
        (((Membership.trio.withLearners [4, 5]).promoteAll [[4, 5]]).voterSet 1) := by
  refine ⟨by decide +kernel, fun hme => ?_⟩
  have hbe : StrictMajority ((Membership.trio.withLearners [4, 5]).voterSet 1) {1, 2} := by
    decide +kernel
  have haf : StrictMajority
      (((Membership.trio.withLearners [4, 5]).promoteAll [[4, 5]]).voterSet 1) {3, 4, 5} := by
    decide +kernel
  have hco := hme _ _ hbe haf
  revert hco
  decide

end DEngine.Raft

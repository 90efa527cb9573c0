import DEngine.Library.OrderedMap
import DEngine.Proto

/-!
# The membership of a node

The nodes that a node knows, with their addresses, roles and states. They change in
two ways: by the changes that committed entries carry, and by a request that the
leader may send outside the log. The two treat the same change differently.

## Implementation notes

A write of the guarded state is replaced as a whole, also when it fails half way: the
nodes that a batch promoted before the unknown one stay promoted. The connections to
the nodes and the subscribers of the membership are left out.
-/

namespace DEngine.Apply

open Library

structure NodeMeta where
  address : String
  role : NodeRole
  status : NodeStatus
deriving DecidableEq, Repr

/-- The state that the membership guards. A node is found under its id. -/
structure InnerState where
  nodes : OrderedMap NodeMeta
  clusterConfVersion : Nat
deriving DecidableEq

namespace InnerState

variable {m : InnerState}

def new (initialNodes : List (Nat × NodeMeta)) : InnerState where
  nodes := initialNodes.foldl (fun nodes node => nodes.insert node.1 node.2) ∅
  clusterConfVersion := 0

/-! ## Writes -/

/-- A node that is a learner already is left as it is, with the address that it has. -/
def addLearner (m : InnerState) (nodeId : Nat) (address : String) (status : NodeStatus) :
    Except Fault Unit × InnerState :=
  match m.nodes[nodeId]? with
  | some existing =>
    if existing.role = .learner then (.ok (), m)
    else (.error (.nodeAlreadyExists nodeId), m)
  | none => (.ok (), { m with nodes := m.nodes.insert nodeId ⟨address, .learner, status⟩ })

def removeNode (m : InnerState) (nodeId : Nat) : InnerState where
  nodes := m.nodes.erase nodeId
  clusterConfVersion := m.clusterConfVersion + 1

def updateSingleNode (m : InnerState) (nodeId : Nat) (f : NodeMeta → Except Fault NodeMeta) :
    Except Fault Unit × InnerState :=
  match m.nodes[nodeId]? with
  | none => (.error (.noMetadataFoundForNode nodeId), m)
  | some node =>
    match f node with
    | .error fault => (.error fault, m)
    | .ok changed => (.ok (), { m with nodes := m.nodes.insert nodeId changed })

/-- Every known node of the list is changed; unknown ones are passed over. -/
def updateMultipleNodes (f : NodeMeta → NodeMeta) : List Nat → InnerState → InnerState
  | [], m => m
  | id :: rest, m =>
    match m.nodes[id]? with
    | none => updateMultipleNodes f rest m
    | some node =>
      updateMultipleNodes f rest { m with nodes := m.nodes.insert id (f node) }

/-- The nodes are promoted one after the other, up to the first unknown one. -/
def batchPromote (newStatus : NodeStatus) : List Nat → InnerState → Except Fault Unit × InnerState
  | [], m => (.ok (), m)
  | id :: rest, m =>
    match m.nodes[id]? with
    | none => (.error (.noMetadataFoundForNode id), m)
    | some node =>
      let promoted := { node with role := .follower, status := newStatus }
      batchPromote newStatus rest { m with nodes := m.nodes.insert id promoted }

/-! ## Changes of the log -/

/-- What the commit handler does with the change of a committed entry. -/
def applyConfigChange (m : InnerState) : Option MembershipChange → Except Fault Unit × InnerState
  | some (.addNode nodeId address status) => m.addLearner nodeId address status
  | some (.removeNode nodeId) => (.ok (), m.removeNode nodeId)
  | some (.promote nodeId _) =>
    m.updateSingleNode nodeId fun node => .ok { node with role := .follower, status := .active }
  | some (.batchPromote nodeIds newStatus) => m.batchPromote newStatus nodeIds
  | some (.batchRemove nodeIds) =>
    (.ok (), ⟨m.nodes.eraseKeys nodeIds, m.clusterConfVersion + 1⟩)
  | none => (.ok (), m)

/-- A node can be added if it is new or a learner, and promoted if it is known. -/
def Applicable (m : InnerState) : Option MembershipChange → Prop
  | some (.addNode nodeId _ _) => ∀ node ∈ m.nodes[nodeId]?, node.role = .learner
  | some (.promote nodeId _) => (m.nodes[nodeId]?).isSome
  | some (.batchPromote nodeIds _) => ∀ id ∈ nodeIds, (m.nodes[id]?).isSome
  | _ => True

instance (m : InnerState) (change : Option MembershipChange) : Decidable (m.Applicable change) := by
  unfold Applicable
  split <;> infer_instance

/-- The nodes of a batch before the first unknown one. -/
def knownPart (m : InnerState) (nodeIds : List Nat) : List Nat :=
  nodeIds.takeWhile fun id => (m.nodes[id]?).isSome

theorem isSome_insert {nodes : OrderedMap NodeMeta} {key : Nat} (hkey : (nodes[key]?).isSome)
    (node : NodeMeta) (id : Nat) : ((nodes.insert key node)[id]?).isSome = (nodes[id]?).isSome := by
  rw [OrderedMap.getElem?_insert_eq]
  split_ifs with heq
  · rw [heq, hkey]
    rfl
  · rfl

/-- A batch succeeds exactly if it knows all its nodes, and changes those before the first
unknown one in any case. -/
theorem batchPromote_spec (newStatus : NodeStatus) (nodeIds : List Nat) (m : InnerState) :
    ((batchPromote newStatus nodeIds m).1 = .ok () ↔ ∀ id ∈ nodeIds, (m.nodes[id]?).isSome) ∧
      (batchPromote newStatus nodeIds m).2.clusterConfVersion = m.clusterConfVersion ∧
      ∀ j, (batchPromote newStatus nodeIds m).2.nodes[j]? =
        (m.nodes[j]?).map fun node =>
          if j ∈ m.knownPart nodeIds then { node with role := .follower, status := newStatus }
          else node := by
  induction nodeIds generalizing m with
  | nil => simp [batchPromote, knownPart]
  | cons id rest ih =>
    cases hno : m.nodes[id]? with
    | none =>
      have hem : m.knownPart (id :: rest) = [] := by
        rw [knownPart, List.takeWhile_cons, hno]
        rfl
      simp only [batchPromote, hno]
      refine ⟨iff_of_false nofun fun hall => ?_, trivial, fun j => by simp [hem]⟩
      have hid := hall id List.mem_cons_self
      rw [hno] at hid
      cases hid
    | some node =>
      have hkn := isSome_insert (Option.isSome_iff_exists.mpr ⟨node, hno⟩)
        { node with role := .follower, status := newStatus }
      obtain ⟨hok, hve, hget⟩ := ih
        { m with nodes := m.nodes.insert id { node with role := .follower, status := newStatus } }
      simp only [batchPromote, hno]
      refine ⟨?_, hve, fun j => ?_⟩
      · rw [hok]
        simp only [hkn, List.forall_mem_cons, hno, Option.isSome_some, true_and]
      rw [hget, OrderedMap.getElem?_insert_eq]
      simp only [knownPart, hkn, List.takeWhile_cons, hno, Option.isSome_some, if_true,
        List.mem_cons]
      by_cases hj : j = id
      · simp [hj, hno]
      · simp only [hj, if_false, false_or]

/-- An applicable change succeeds. -/
theorem applyConfigChange_ok {change : Option MembershipChange} (h : m.Applicable change) :
    (m.applyConfigChange change).1 = .ok () := by
  match change with
  | none => rfl
  | some (.addNode nodeId address status) =>
    simp only [applyConfigChange, addLearner]
    split
    · rename_i existing hex
      rw [if_pos (h existing hex)]
    · rfl
  | some (.removeNode nodeId) => rfl
  | some (.promote nodeId status) =>
    obtain ⟨node, hno⟩ := Option.isSome_iff_exists.mp h
    simp only [applyConfigChange, updateSingleNode, hno]
  | some (.batchPromote nodeIds newStatus) => exact (batchPromote_spec newStatus nodeIds m).1.mpr h
  | some (.batchRemove nodeIds) => rfl

/-! ## Failed changes of the log -/

/-- The change is no batch of promotions, or it succeeds, or the nodes before the unknown one
are already as it makes them. -/
def FailsUnchanged (m : InnerState) : Option MembershipChange → Prop
  | some (.batchPromote nodeIds newStatus) => (∀ id ∈ nodeIds, (m.nodes[id]?).isSome) ∨
    ∀ id ∈ m.knownPart nodeIds, ∀ node ∈ m.nodes[id]?,
      node.role = .follower ∧ node.status = newStatus
  | _ => True

/-- A change that fails changes nothing, except a batch that promotes a node before it comes
to an unknown one. -/
theorem failed_change_unchanged_iff (m : InnerState) (change : Option MembershipChange) :
    ((m.applyConfigChange change).1 ≠ .ok () → (m.applyConfigChange change).2 = m) ↔
      m.FailsUnchanged change := by
  match change with
  | none | some (.removeNode _) | some (.batchRemove _) =>
    exact iff_of_true (absurd rfl) trivial
  | some (.addNode nodeId address status) =>
    refine iff_of_true ?_ trivial
    simp only [applyConfigChange, addLearner]
    split
    · split_ifs
      · exact fun _ => rfl
      · exact fun _ => rfl
    · exact absurd rfl
  | some (.promote nodeId status) =>
    refine iff_of_true ?_ trivial
    simp only [applyConfigChange, updateSingleNode]
    split
    · exact fun _ => rfl
    · exact absurd rfl
  | some (.batchPromote nodeIds newStatus) =>
    obtain ⟨hok, hve, hget⟩ := batchPromote_spec newStatus nodeIds m
    change ((batchPromote newStatus nodeIds m).1 ≠ _ → (batchPromote newStatus nodeIds m).2 = m) ↔
      _ ∨ _
    rw [Ne, hok, ← or_iff_not_imp_left]
    refine or_congr_right ⟨fun hsa id hid node hno => ?_, fun hpr => ?_⟩
    · have hno' := hget id
      rw [hsa, hno, Option.map_some, if_pos hid, Option.some.injEq] at hno'
      rw [hno']
      exact ⟨rfl, rfl⟩
    · generalize batchPromote newStatus nodeIds m = result at hve hget ⊢
      obtain ⟨_, nodes, version⟩ := result
      obtain rfl : nodes = m.nodes := by
        refine Std.ExtTreeMap.ext_getElem? fun j => (hget j).trans ?_
        cases hj : m.nodes[j]? with
        | none => rfl
        | some node =>
          rw [Option.map_some]
          split_ifs with hid
          · obtain ⟨hro, hst⟩ := hpr j hid node hj
            rw [← hro, ← hst]
          · rfl
      obtain rfl : version = m.clusterConfVersion := hve
      rfl

/-- Node 2 is promoted by a batch that fails at the unknown node 9. -/
theorem failed_batch_promotes :
    let m := new [(2, ⟨"127.0.0.1:9002", .learner, .promotable⟩)]
    let result := m.applyConfigChange (some (.batchPromote [2, 9] .active))
    result.1 = .error (.noMetadataFoundForNode 9) ∧
      result.2.nodes[2]? = some ⟨"127.0.0.1:9002", .follower, .active⟩ ∧
      m.nodes[2]? = some ⟨"127.0.0.1:9002", .learner, .promotable⟩ := by
  decide +kernel

end InnerState

/-! ## Requests of the leader -/

/-- The change of a request may be missing, or be there and be empty. -/
structure ClusterConfChangeRequest where
  id : Nat
  term : Nat
  version : Nat
  change : Option (Option MembershipChange)
deriving DecidableEq, Repr

inductive ConfErrorCode where
  | unspecified
  | notLeader
  | versionConflict
  | termOutdated
deriving DecidableEq, Repr

structure ClusterConfUpdateResponse where
  id : Nat
  term : Nat
  version : Nat
  success : Bool
  errorCode : ConfErrorCode
deriving DecidableEq, Repr

namespace InnerState

/-- The change of a request. Unlike a change of the log, a promotion wants a learner, and a batch
promotes only the nodes that wait for it. -/
def changeFromLeader (m : InnerState) (leaderId : Nat) :
    Option MembershipChange → Except Fault Unit × InnerState
  | some (.addNode nodeId address status) => m.addLearner nodeId address status
  | some (.removeNode nodeId) => (.ok (), m.removeNode nodeId)
  | some (.promote nodeId _) =>
    m.updateSingleNode nodeId fun node =>
      if node.role = .learner then .ok { node with role := .follower }
      else .error (.invalidPromotion nodeId node.role)
  | some (.batchPromote nodeIds newStatus) =>
    (.ok (), updateMultipleNodes
      (fun node =>
        if node.status = .promotable then { node with role := .follower, status := newStatus }
        else node)
      nodeIds m)
  | some (.batchRemove nodeIds) =>
    if leaderId ∈ nodeIds then (.error (.removeNodeIsLeader leaderId), m)
    else (.ok (), { m with nodes := m.nodes.eraseKeys nodeIds })
  | none => (.error .invalidChangeRequest, m)

/-- The sender is the leader that the node knows, and neither its term nor its version of the
configuration is behind. -/
@[mk_iff]
structure Admits (m : InnerState) (myCurrentTerm : Nat) (currentLeaderId : Option Nat)
    (req : ClusterConfChangeRequest) : Prop where
  leader : currentLeaderId = some req.id
  term : myCurrentTerm ≤ req.term
  version : m.clusterConfVersion ≤ req.version

instance (m : InnerState) (myCurrentTerm : Nat) (currentLeaderId : Option Nat)
    (req : ClusterConfChangeRequest) : Decidable (m.Admits myCurrentTerm currentLeaderId req) :=
  decidable_of_iff' _ (admits_iff ..)

def updateClusterConfFromLeader (m : InnerState) (myId myCurrentTerm currentConfVersion : Nat)
    (currentLeaderId : Option Nat) (req : ClusterConfChangeRequest) :
    Except Fault ClusterConfUpdateResponse × InnerState :=
  match currentLeaderId with
  | none => (.error .noLeaderFound, m)
  | some leaderId =>
    if leaderId ≠ req.id then
      (.ok ⟨myId, myCurrentTerm, currentConfVersion, false, .notLeader⟩, m)
    else if req.term < myCurrentTerm then
      (.ok ⟨myId, myCurrentTerm, currentConfVersion, false, .termOutdated⟩, m)
    else if req.version < m.clusterConfVersion then
      (.ok ⟨myId, myCurrentTerm, currentConfVersion, false, .versionConflict⟩, m)
    else
      match m.changeFromLeader leaderId req.change.join with
      | (.error fault, m) => (.error fault, m)
      | (.ok (), m) =>
        (.ok ⟨myId, myCurrentTerm, req.version, true, .unspecified⟩,
          { m with clusterConfVersion := req.version })

/-- A request that is not admitted, or that has no change, changes nothing. -/
theorem updateClusterConfFromLeader_refused {m : InnerState}
    {myId myCurrentTerm currentConfVersion : Nat} {currentLeaderId : Option Nat}
    {req : ClusterConfChangeRequest}
    (h : m.Admits myCurrentTerm currentLeaderId req → req.change.join = none) :
    (m.updateClusterConfFromLeader myId myCurrentTerm currentConfVersion currentLeaderId req).2 =
      m := by
  unfold updateClusterConfFromLeader
  cases currentLeaderId with
  | none => rfl
  | some =>
    dsimp only
    split_ifs with hld hte hve
    · rfl
    · rfl
    · rfl
    · rw [h ⟨congrArg some (not_not.mp hld), Nat.le_of_not_lt hte,
        Nat.le_of_not_lt hve⟩]
      rfl

end InnerState

end DEngine.Apply

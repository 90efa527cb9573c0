import DEngine.Library.Interleaving
import DEngine.Library.Quorum
import DEngine.Raft.ElectedLeader
import DEngine.Raft.OneVote
import DEngine.Raft.TermOwnership

/-!
# Election safety

The nodes of a cluster run side by side, in any order. The granted votes that a
candidate counts are votes that its peers gave, and every round is held among the
same members. Then a term has at most one leader, and what carries a term was
produced by one node.

## Implementation notes

A vote round is one step of its candidate: it is taken when all answers are in. What
the peers did meanwhile are steps before it.
-/

namespace DEngine.Raft

open Library Storage Replication

variable {myId : Nat} {s t : Node myId} {l : Label}

/-! ## Journals grow -/

theorem Calm.journal_suffix {p : Permit} (h : Calm p s t) : s.journal <:+ t.journal := by
  obtain ⟨done, hjo, -⟩ := h.acts
  exact ⟨done, hjo.symm⟩

theorem journal_suffix_of_step (hst : s.step l = some t) : s.journal <:+ t.journal := by
  have hro : ∀ env, s.journal <:+ (s.inRound env).journal := fun env =>
    (List.suffix_cons _ _).trans (List.suffix_cons _ _)
  cases stepEffect_of_step hst with
  | calm h => exact h.journal_suffix
  | turned v hv h => exact hv.journal_eq ▸ h.journal_suffix
  | entered rest hbuf hrl h => exact (List.suffix_cons _ _).trans h.journal_suffix
  | unwritten hrn h => exact h.journal_suffix
  | won env hrn hans hwon h => exact (hro env).trans h.journal_suffix
  | lost env hrn incoming h => exact (hro env).trans h.journal_suffix
  | ended rest hbuf ht => exact ht ▸ List.suffix_rfl

/-! ## The cluster -/

/-- The nodes of a cluster by their ids. -/
abbrev Cluster := ∀ id : Nat, Node id

/-- The main loops of all nodes. -/
def cluster : Machine Cluster (Nat × Label) := Machine.interleave raftLoop

variable {members : Finset Nat} {c : Cluster}

/-- A vote round of the node is held among the members, and the votes it counts were given. -/
def RoundBacked (members : Finset Nat) (c : Cluster) (id : Nat) : Action → Prop
  | .voteRound term voters granted =>
    id ∈ members ∧ voters.toFinset = members.erase id ∧ ∀ peer ∈ granted, (c peer).Gave term id
  | _ => True

instance (id : Nat) : DecidablePred (RoundBacked members c id) := fun a => by
  cases a <;> unfold RoundBacked <;> infer_instance

/-- The node keeps its vote and its request for the leader role, and its rounds are backed. -/
def Cluster.VotesFairly (members : Finset Nat) (c : Cluster) (l : Nat × Label) : Prop :=
  (c l.1).VoteKept l.2 ∧ (c l.1).ElectionKept l.2 ∧
    ∀ t ∈ (c l.1).step l.2, ∀ a ∈ t.journal, RoundBacked members c l.1 a
deriving Decidable

theorem roundBacked_of_reach (hc : cluster.Reach (Cluster.VotesFairly members) c) (id : Nat) :
    ∀ a ∈ (c id).journal, RoundBacked members c id a := by
  apply Machine.Reach.backed hc (P := fun c id s => ∀ a ∈ s.journal, RoundBacked members c id a)
  · intro c hin id a ha
    obtain ⟨config, role, shared, diskLen, loaded, boundary, membership, heq, -⟩ := hin id
    rw [heq] at ha
    exact absurd ha List.not_mem_nil
  · intro c id l u hfa hst
    refine ⟨hfa.2.2 u hst, fun other s hs a ha => ?_⟩
    have hold := hs a ha
    cases a with
    | voteRound term voters granted =>
      refine ⟨hold.1, hold.2.1, fun peer hpe => ?_⟩
      obtain ⟨vote, hvo, hgi⟩ := hold.2.2 peer hpe
      by_cases heq : peer = id
      · subst heq
        rw [Function.update_self]
        exact ⟨vote, (journal_suffix_of_step hst).subset hvo, hgi⟩
      · rw [Function.update_of_ne heq]
        exact ⟨vote, hvo, hgi⟩
    | _ => trivial

theorem kept_of_reach (hc : cluster.Reach (Cluster.VotesFairly members) c) (id : Nat) :
    (c id).OneVote ∧ (c id).Elected := by
  apply (Machine.Reach.member (fun _ s l => s.VoteKept l ∧ s.ElectionKept l) hc
    (fun _ _ _ hfa => ⟨hfa.1, hfa.2.1⟩) id).invariant (I := fun s => s.OneVote ∧ s.Elected)
  · exact fun _ hin => ⟨Node.Init.oneVote hin, Node.Init.elected hin⟩
  · exact fun _ _ _ hu hke hst =>
      ⟨oneVote_of_step hst hke.1 hu.1, (stepEffect_of_step hst).elected hke.2 hu.2⟩

/-! ## Majorities -/

/-- A majority of the members gave the node their vote of the term. -/
def Elects (members : Finset Nat) (c : Cluster) (term id : Nat) : Prop :=
  ∃ votes, StrictMajority members votes ∧ ∀ peer ∈ votes, (c peer).Gave term id

variable {term leader other : Nat}

theorem elects_of_enteredLeader (hc : cluster.Reach (Cluster.VotesFairly members) c)
    (hen : .enteredLeader term ∈ (c leader).journal) : Elects members c term leader := by
  obtain ⟨later, earlier, hjo⟩ := List.append_of_mem hen
  have hsu : .enteredLeader term :: earlier <:+ (c leader).journal := ⟨later, hjo.symm⟩
  have hwon : WonRound (c leader).journal term :=
    WonRound.mono ((kept_of_reach hc leader).2.entries _ _ hsu) ((List.suffix_cons _ _).trans hsu)
  obtain ⟨hse, voters, granted, hro, hnd, hsub, hmaj⟩ := hwon
  obtain ⟨hid, hvo, hgr⟩ := roundBacked_of_reach hc leader _ hro
  have hgs : granted.toFinset ⊆ members.erase leader := by
    intro peer hpe
    rw [← hvo, List.mem_toFinset]
    exact hsub (List.mem_toFinset.mp hpe)
  refine ⟨insert leader granted.toFinset, ⟨?_, ?_⟩, ?_⟩
  · exact Finset.insert_subset hid (hgs.trans (Finset.erase_subset leader members))
  · have hno : leader ∉ granted.toFinset := fun hmem =>
      Finset.notMem_erase leader members (hgs hmem)
    have hle : (members.erase leader).card ≤ voters.length := hvo ▸ voters.toFinset_card_le
    rw [Finset.card_insert_of_notMem hno, List.toFinset_card_of_nodup hnd]
    have := Finset.card_erase_add_one hid
    omega
  · intro peer hpe
    rcases Finset.mem_insert.mp hpe with rfl | hmem
    · exact ⟨_, hse, rfl⟩
    · exact hgr peer (List.mem_toFinset.mp hmem)

/-- Some voter of one majority is a voter of the other, and it gave one vote of the term. -/
theorem Elects.unique (hc : cluster.Reach (Cluster.VotesFairly members) c)
    (h : Elects members c term leader) (h' : Elects members c term other) : leader = other := by
  obtain ⟨votes, hmaj, hvo⟩ := h
  obtain ⟨votes', hmaj', hvo'⟩ := h'
  obtain ⟨voter, hmem⟩ := hmaj.inter_nonempty hmaj'
  obtain ⟨hin, hin'⟩ := Finset.mem_inter.mp hmem
  exact (kept_of_reach hc voter).1.unique term _ _ (hvo voter hin) (hvo' voter hin')

/-! ## One leader of a term -/

/-- In every run of a cluster that votes fairly, no two nodes ever enter the leader role in one
term. -/
theorem leader_unique_of_reach (hc : cluster.Reach (Cluster.VotesFairly members) c)
    (hle : .enteredLeader term ∈ (c leader).journal)
    (hot : .enteredLeader term ∈ (c other).journal) : leader = other :=
  Elects.unique hc (elects_of_enteredLeader hc hle) (elects_of_enteredLeader hc hot)

/-- Three nodes that start for the first time. -/
def Cluster.trio : Cluster := fun _ => Node.firstStart .small .trio

theorem cluster_init_trio : cluster.init Cluster.trio := fun _ => Node.init_firstStart _ _

/-- Node 2 grants its vote of term 2 to node 1, which wins its round with it and leads. -/
def grantedElectionRun : List (Nat × Label) :=
  [(2, .arrive (.receiveVoteRequest ⟨2, 1, 0, 0⟩)), (2, .recvInbound), (2, .flush {}),
    (2, .inboundEvent {})] ++
    winningRun.map (Prod.mk 1) ++ [(1, .recvInternal), (1, .internalEvent {})]

theorem granted_election_leader_unique :
    ∃ c, cluster.Reach (Cluster.VotesFairly {1, 2, 3}) c ∧
      .enteredLeader 2 ∈ (c 1).journal ∧
      ∀ other, .enteredLeader 2 ∈ (c other).journal → 1 = other := by
  have hre : ∃ c, cluster.Reach (Cluster.VotesFairly {1, 2, 3}) c ∧
      .enteredLeader 2 ∈ (c 1).journal :=
    Machine.exists_reach_of_runIf grantedElectionRun cluster_init_trio (by decide +kernel)
  obtain ⟨c, hc, hen⟩ := hre
  exact ⟨c, hc, hen, fun other hot => leader_unique_of_reach hc hen hot⟩

/-! ## One producer of a term -/

/-- The cluster votes fairly, and no leader with a step down in its queue produces. -/
def Cluster.LeadsFairly (members : Finset Nat) (c : Cluster) (l : Nat × Label) : Prop :=
  c.VotesFairly members l ∧ (c l.1).HoldsBack l.2
deriving Decidable

theorem owned_of_reach (hc : cluster.Reach (Cluster.LeadsFairly members) c) (id : Nat) :
    Justified Owned (c id).journal := by
  have hre := Machine.Reach.member (fun _ => Node.HoldsBack) hc (fun _ _ _ hfa => hfa.2) id
  have hinv : Justified Owned (c id).journal ∧ ((c id).phase ≠ .stopped → (c id).Owner) := by
    apply hre.invariant (I := fun s => Justified Owned s.journal ∧ (s.phase ≠ .stopped → s.Owner))
    · exact fun _ hin => ⟨(Node.Init.owner hin).owned, fun _ => Node.Init.owner hin⟩
    · intro u l v hu hho hst
      exact owner_of_step hst hho (hu.2 (phase_ne_stopped_of_step hst))
  exact hinv.1

theorem elects_of_producesUnder (hc : cluster.Reach (Cluster.LeadsFairly members) c)
    (hpr : producesUnder (c leader).journal term = true) : Elects members c term leader := by
  obtain ⟨a, earlier, hsu, hte⟩ := exists_of_producesUnder hpr
  apply elects_of_enteredLeader (hc.mono fun _ _ hfa => hfa.1)
  exact hsu.subset (List.mem_cons_of_mem a (owned_of_reach hc leader a earlier hsu term hte))

/-- In every run of a cluster that votes fairly and in which no leader with a step down in its
queue produces, all entries and requests of a term come from one node. -/
theorem producer_unique_of_reach (hc : cluster.Reach (Cluster.LeadsFairly members) c)
    (hpr : producesUnder (c leader).journal term = true)
    (hot : producesUnder (c other).journal term = true) : leader = other :=
  Elects.unique (hc.mono fun _ _ hfa => hfa.1) (elects_of_producesUnder hc hpr)
    (elects_of_producesUnder hc hot)

theorem granted_election_producer_unique :
    ∃ c, cluster.Reach (Cluster.LeadsFairly {1, 2, 3}) c ∧
      producesUnder (c 1).journal 2 = true ∧
      ∀ other, producesUnder (c other).journal 2 = true → 1 = other := by
  have hre : ∃ c, cluster.Reach (Cluster.LeadsFairly {1, 2, 3}) c ∧
      producesUnder (c 1).journal 2 = true :=
    Machine.exists_reach_of_runIf grantedElectionRun cluster_init_trio (by decide +kernel)
  obtain ⟨c, hc, hpr⟩ := hre
  exact ⟨c, hc, hpr, fun other hot => producer_unique_of_reach hc hpr hot⟩

end DEngine.Raft

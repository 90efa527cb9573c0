import Mathlib.Data.List.Dedup
import DEngine.Library.History
import DEngine.Raft.StepEffects

/-!
# Leaders are elected

A node that enters the leader role has won a vote round of the term it enters in.
The request for the role carries no term and waits in a queue, so this holds as
long as the term stays while it waits. A tick has priority over the queue: a second
round that fails raises the term, and the node then leads a term that nobody voted
for.
-/

namespace DEngine.Raft

open Library Storage Replication

variable {myId : Nat} {s t : Node myId} {l : Label}

/-! ## Winning a round -/

/-- A round of the term in which more than half of the voters, the node itself included,
granted their vote. -/
def WonRound (journal : List Action) (term : Nat) : Prop :=
  .selfVote term ∈ journal ∧
    ∃ voters granted, .voteRound term voters granted ∈ journal ∧ granted.Nodup ∧
      granted ⊆ voters ∧ voters.length + 1 < 2 * (granted.length + 1)

/-- The action is a round of the term with a majority of the votes. -/
def Action.winsRound (term : Nat) : Action → Bool
  | .voteRound roundTerm voters granted =>
    decide (roundTerm = term ∧ voters.length + 1 < 2 * (granted.length + 1))
  | _ => false

variable {term : Nat}

theorem WonRound.any_winsRound {journal : List Action} (h : WonRound journal term) :
    journal.any (Action.winsRound term) = true := by
  obtain ⟨-, voters, granted, hro, -, -, hmaj⟩ := h
  exact List.any_eq_true.mpr ⟨_, hro, decide_eq_true ⟨rfl, hmaj⟩⟩

theorem WonRound.mono {before after : List Action} (h : WonRound before term)
    (hsuf : before <:+ after) : WonRound after term := by
  obtain ⟨hse, voters, granted, hro, hmaj⟩ := h
  exact ⟨hsuf.subset hse, voters, granted, hsuf.subset hro, hmaj⟩

theorem askedPeers_voters (membership : Membership) :
    askedPeers myId (membership.voters myId) = membership.voters myId := by
  have hfi : (membership.voters myId).filter (fun id => decide (id ≠ myId)) =
      membership.voters myId := by
    apply List.filter_eq_self.mpr
    intro id hid
    have hne : id ≠ myId := fun heq => membership.self_not_mem_voters myId (heq ▸ hid)
    exact decide_eq_true hne
  rw [askedPeers, hfi, List.dedup_eq_self.mpr (membership.voters_nodup myId)]

/-- The count of a round is the own vote and the granted ones. -/
theorem countVotes_ok {lastLogIndex lastLogTerm succeed total : Nat}
    {responses : List (Nat × Option VoteResponse)}
    (h : countVotes term lastLogIndex lastLogTerm succeed (responses.map Prod.snd) = .ok total) :
    total = succeed + (grantingPeers responses).length := by
  induction responses generalizing succeed with
  | nil =>
    cases h
    rfl
  | cons response rest ih =>
    obtain ⟨peer, outcome⟩ := response
    cases outcome with
    | none => exact ih h
    | some =>
      simp only [List.map_cons, countVotes] at h
      split_ifs at h with hgr
      · rw [ih h]
        simp only [grantingPeers, List.filter_cons, Option.any_some, hgr, if_true,
          List.map_cons, List.length_cons]
        omega
      · rw [ih h]
        simp [grantingPeers, hgr]

/-- A round that is won has the votes of more than half of the voters. -/
theorem majority_of_broadcast {membership : Membership} {log : BufferedRaftLog}
    {responses : List (Nat × Option VoteResponse)}
    (hsi : membership.isSingleNodeCluster = true → membership.voters myId = [])
    (hwon : broadcastVoteRequests myId term membership log responses = .ok ()) :
    (membership.voters myId).length + 1 < 2 * ((grantingPeers responses).length + 1) := by
  unfold broadcastVoteRequests at hwon
  dsimp only at hwon
  split_ifs at hwon with hcl hvo
  · rw [hsi hcl, List.length_nil]
    omega
  · split at hwon
    · cases hwon
    · rename_i succeed hco
      split_ifs at hwon with hmaj
      have hsu := countVotes_ok hco
      simp only [isMajority, decide_eq_true_eq, askedPeers_voters] at hmaj
      omega

theorem wonRound_of_broadcast {env : Env} (hans : s.answersFit env = true)
    (hsi : s.membership.isSingleNodeCluster = true → s.membership.voters myId = [])
    (hwon : broadcastVoteRequests myId (s.currentTerm + 1) s.membership s.log
      env.voteResponses = .ok ()) : WonRound (s.inRound env).journal (s.currentTerm + 1) := by
  have hel : s.electorate = s.membership.voters myId := by
    unfold Node.electorate
    split_ifs with hcl
    · exact (hsi hcl).symm
    · exact askedPeers_voters s.membership
  have hfit : (env.voteResponses.map Prod.fst).Perm (s.membership.voters myId) :=
    hel ▸ List.isPerm_iff.mp hans
  have hsu : (grantingPeers env.voteResponses).Sublist (env.voteResponses.map Prod.fst) :=
    List.filter_sublist.map Prod.fst
  refine ⟨?_, s.membership.voters myId, grantingPeers env.voteResponses, ?_, ?_, ?_, ?_⟩
  · exact List.mem_cons_of_mem _ List.mem_cons_self
  · exact List.mem_cons_self
  · exact (hfit.nodup_iff.mpr (s.membership.voters_nodup myId)).sublist hsu
  · exact fun peer hpe => hfit.mem_iff.mp (hsu.subset hpe)
  · exact majority_of_broadcast hsi hwon

/-! ## The request for the leader role -/

/-- While the request for the leader role waits, no newer term is adopted and no round is
started. A node that takes itself for a whole cluster has no other voters. -/
def Node.ElectionKept (s : Node myId) (l : Label) : Prop :=
  (s.LeaderAsked → s.incomingTerm l ≤ s.currentTerm ∧ s.startsRound l = false) ∧
    (s.startsRound l = true → s.membership.isSingleNodeCluster = true →
      s.membership.voters myId = [])
deriving Decidable

/-- An entry into the leader role is preceded by a won round of its term. -/
def EntryWon : Action → List Action → Prop
  | .enteredLeader term, earlier => WonRound earlier term
  | _, _ => True

/-- Every entry was won, and the request for the role that waits was won in this term. -/
structure Node.Elected (s : Node myId) : Prop where
  entries : Justified EntryWon s.journal
  asked : s.LeaderAsked → WonRound s.journal s.currentTerm

theorem Permit.Allows.entryWon {p : Permit} {a : Action} (h : p.Allows a)
    (earlier : List Action) : EntryWon a earlier := by
  cases a with
  | enteredLeader => cases h
  | _ => trivial

/-- A handler that adopts no term while the role is asked for keeps the invariant. -/
theorem Calm.elected {p : Permit} (h : Calm p s t)
    (hte : s.LeaderAsked → p.incoming ≤ s.currentTerm) (hs : s.Elected) : t.Elected := by
  obtain ⟨done, hjo, hdn⟩ := h.acts
  constructor
  · rw [hjo]
    exact hs.entries.append fun a ha before _ => (hdn a ha).entryWon before
  · intro has
    have hbe := h.asked has
    rw [h.term_eq (hte hbe), hjo]
    exact (hs.asked hbe).mono (List.suffix_append done s.journal)

theorem Node.Init.elected (h : s.Init) : s.Elected := by
  obtain ⟨config, role, shared, diskLen, loaded, boundary, membership, rfl, -⟩ := h
  exact ⟨justified_nil, fun has => absurd has List.not_mem_nil⟩

/-- A round that is over has added no entry to the journal. -/
theorem Node.Elected.inRound (hs : s.Elected) (env : Env) :
    Justified EntryWon (s.inRound env).journal :=
  justified_cons.mpr ⟨trivial, justified_cons.mpr ⟨trivial, hs.entries⟩⟩

theorem StepEffect.elected (h : StepEffect s l t) (hke : s.ElectionKept l) (hs : s.Elected) :
    t.Elected := by
  cases h with
  | calm h => exact h.elected (fun has => (hke.1 has).1) hs
  | turned v hv h =>
    refine h.elected (fun _ => Nat.zero_le _) ⟨hv.journal_eq ▸ hs.entries, fun has => ?_⟩
    rw [hv.journal_eq, hv.term_eq]
    exact hs.asked (hv.asked has)
  | entered rest hbuf hrl h =>
    have hwon : WonRound s.journal s.currentTerm :=
      hs.asked ((mem_queue_popped hbuf).mpr (.inl rfl))
    refine h.elected (fun _ => Nat.zero_le _) ⟨justified_cons.mpr ⟨hwon, hs.entries⟩, fun _ => ?_⟩
    exact hwon.mono (List.suffix_cons _ _)
  | unwritten hro h =>
    refine h.elected (fun has => ?_) hs
    exact absurd hro (by simp [(hke.1 has).2])
  | won env hro hans hwon h =>
    refine h.elected (fun _ => Nat.zero_le _) ⟨hs.inRound env, fun _ => ?_⟩
    exact wonRound_of_broadcast hans (hke.2 hro) hwon
  | lost env hro incoming h =>
    -- Nobody asks for the role: nobody did before, and a lost round does not.
    have hnot : ¬ (s.inRound env).LeaderAsked := fun has =>
      absurd hro (by simp [(hke.1 has).2])
    refine h.elected (fun has => absurd has hnot) ⟨hs.inRound env, ?_⟩
    exact fun has => absurd has hnot
  | ended rest hbuf ht =>
    subst ht
    refine ⟨hs.entries, fun has => hs.asked ?_⟩
    exact (mem_queue_popped hbuf).mpr (.inr has)

/-- In every run that leaves the term alone while the request for the leader role waits, a
node enters the leader role only in a term in which it won a round. -/
theorem wonRound_of_enteredLeader (hs : (raftLoop myId).Reach Node.ElectionKept s) :
    ∀ term earlier, .enteredLeader term :: earlier <:+ s.journal → WonRound earlier term := by
  have hel : s.Elected := by
    apply hs.invariant (fun _ hin => Node.Init.elected hin)
    intro u l v hu hke hst
    exact (stepEffect_of_step hst).elected hke hu
  exact fun term earlier hen => hel.entries _ earlier hen

/-- The request for the leader role is handled at once. -/
theorem elected_node_wonRound :
    ∃ s : Node 1, (raftLoop 1).Reach Node.ElectionKept s ∧ s.role = .leader ∧
      ∃ earlier, .enteredLeader 2 :: earlier <:+ s.journal ∧ WonRound earlier 2 := by
  have hre : ∃ s : Node 1, (raftLoop 1).Reach Node.ElectionKept s ∧
      (s.role = .leader ∧ .enteredLeader 2 ∈ s.journal) :=
    Machine.exists_reach_of_runIf (winningRun ++ [.recvInternal, .internalEvent {}])
      (Node.init_firstStart .small .trio) (by decide +kernel)
  obtain ⟨s, hs, hro, hen⟩ := hre
  obtain ⟨later, earlier, hjo⟩ := List.append_of_mem hen
  have hsu : .enteredLeader 2 :: earlier <:+ s.journal := ⟨later, hjo.symm⟩
  exact ⟨s, hs, hro, earlier, hsu, wonRound_of_enteredLeader hs 2 earlier hsu⟩

/-- A second round starts before the request of the first is handled and nobody answers it:
the node leads a term in which nobody voted for it. -/
theorem late_request_leads_unwon_term :
    ∃ s : Node 1, (raftLoop 1).Reach (fun _ _ => True) s ∧ s.role = .leader ∧
      s.currentTerm = 3 ∧
      ∃ earlier, .enteredLeader 3 :: earlier <:+ s.journal ∧ ¬ WonRound earlier 3 := by
  have hre : ∃ s : Node 1, (raftLoop 1).Reach (fun _ _ => True) s ∧
      (s.role = .leader ∧ s.currentTerm = 3 ∧ .enteredLeader 3 ∈ s.journal ∧
        s.journal.any (Action.winsRound 3) = false) :=
    Machine.exists_reach_of_runIf
      (winningRun ++ [.tick { timerExpired := true, voteResponses := [(2, none), (3, none)] }] ++
        restOfRound ++ [.recvInternal, .internalEvent {}])
      (Node.init_firstStart .small .trio) (by decide +kernel)
  obtain ⟨s, hs, hro, hte, hen, hno⟩ := hre
  obtain ⟨later, earlier, hjo⟩ := List.append_of_mem hen
  have hsu : .enteredLeader 3 :: earlier <:+ s.journal := ⟨later, hjo.symm⟩
  refine ⟨s, hs, hro, hte, earlier, hsu, fun hwon => ?_⟩
  have hall := (hwon.mono ((List.suffix_cons _ _).trans hsu)).any_winsRound
  rw [hno] at hall
  cases hall

end DEngine.Raft

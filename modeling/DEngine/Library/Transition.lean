import Mathlib.Logic.Relation
import Mathlib.Order.Basic

/-!
# Machines and conditional runs

A machine takes a step for a label, and the label carries every choice of its
surroundings. A run may be restricted by a condition on each step: what is
proved of the states that such runs reach is proved by one induction rule.

## Implementation notes

The condition sees the state before a step and the label, never the state
behind it. A run that is given as a list of labels is evaluated by `runIf`,
which checks the condition on the way.
-/

namespace DEngine.Library

/-- A machine with a set of start states and a partial step function. -/
structure Machine (S L : Type*) where
  init : S → Prop
  step : S → L → Option S

namespace Machine

variable {S L : Type*} (m : Machine S L) (cond : S → L → Prop)

/-- One step whose label meets the condition in the state before it. -/
def StepIf (s t : S) : Prop := ∃ l, cond s l ∧ m.step s l = some t

/-- One state is reached from another by steps that all meet the condition. -/
def Run (s t : S) : Prop := Relation.ReflTransGen (m.StepIf cond) s t

/-- The state is reached from a start state by steps that all meet the condition. -/
def Reach (t : S) : Prop := ∃ s, m.init s ∧ m.Run cond s t

/-- Take the steps of a list of labels and check the condition before each of them. -/
def runIf [∀ s l, Decidable (cond s l)] : S → List L → Option S
  | s, [] => some s
  | s, l :: rest =>
    if cond s l then
      match m.step s l with
      | none => none
      | some t => runIf t rest
    else none

variable {m cond}

variable {s t : S}

theorem Reach.of_run (hs : m.Reach cond s) (hrun : m.Run cond s t) : m.Reach cond t := by
  obtain ⟨start, hin, hbe⟩ := hs
  exact ⟨start, hin, hbe.trans hrun⟩

/-- A weaker condition reaches no fewer states. -/
theorem Reach.mono {cond' : S → L → Prop} (hco : ∀ s l, cond s l → cond' s l)
    (hs : m.Reach cond s) : m.Reach cond' s := by
  obtain ⟨start, hin, hrun⟩ := hs
  refine ⟨start, hin, Relation.ReflTransGen.mono (fun s t hst => ?_) _ _ hrun⟩
  exact hst.imp fun l hl => ⟨hco s l hl.1, hl.2⟩

/-- What holds of the start states and is kept by every step of a run that meets the
condition holds of every state that is reached. -/
theorem Reach.invariant {I : S → Prop} (hin : ∀ s, m.init s → I s)
    (hst : ∀ s l t, I s → cond s l → m.step s l = some t → I t) (ht : m.Reach cond t) : I t := by
  obtain ⟨s, hs, hrun⟩ := ht
  induction hrun with
  | refl => exact hin s hs
  | tail _ hla ih =>
    obtain ⟨l, hco, hst'⟩ := hla
    exact hst _ l _ ih hco hst'

/-- A quantity that no step from a reached state decreases does not decrease along any
run from a reached state. -/
theorem Reach.le_of_run {α : Type*} [Preorder α] (f : S → α)
    (hst : ∀ s l t, m.Reach cond s → cond s l → m.step s l = some t → f s ≤ f t)
    (hs : m.Reach cond s) (hrun : m.Run cond s t) : f s ≤ f t := by
  induction hrun with
  | refl => exact le_rfl
  | tail hbe hla ih =>
    obtain ⟨l, hco, hst'⟩ := hla
    exact ih.trans (hst _ l _ (hs.of_run hbe) hco hst')

/-- If every state of an invariant is at rest or has a step that lowers a well-founded measure,
some run comes to rest. -/
theorem exists_run_of_progress {α : Type*} {r : α → α → Prop} (hr : WellFounded r) (f : S → α)
    {I rest : S → Prop} (hst : ∀ s, I s → rest s ∨ ∃ t, m.StepIf cond s t ∧ I t ∧ r (f t) (f s))
    (hs : I s) : ∃ t, m.Run cond s t ∧ I t ∧ rest t := by
  have hall : ∀ a s, f s = a → I s → ∃ t, m.Run cond s t ∧ I t ∧ rest t := by
    intro a
    induction a using hr.induction with
    | _ a ih =>
      rintro s rfl hs
      rcases hst s hs with hre | ⟨u, hsu, hu, hls⟩
      · exact ⟨s, Relation.ReflTransGen.refl, hs, hre⟩
      · obtain ⟨t, hrun, ht, hre⟩ := ih (f u) hls u rfl hu
        exact ⟨t, Relation.ReflTransGen.head hsu hrun, ht, hre⟩
  exact hall (f s) s rfl hs

theorem reach_of_init (hin : m.init s) : m.Reach cond s :=
  ⟨s, hin, Relation.ReflTransGen.refl⟩

/-- A list of labels that meets the condition leads along a run. -/
theorem run_of_runIf [∀ s l, Decidable (cond s l)] {labels : List L}
    (h : m.runIf cond s labels = some t) : m.Run cond s t := by
  induction labels generalizing s with
  | nil =>
    cases h
    exact Relation.ReflTransGen.refl
  | cons l rest ih =>
    unfold runIf at h
    split_ifs at h with hco
    cases hst : m.step s l with
    | none => simp [hst] at h
    | some =>
      simp only [hst] at h
      exact Relation.ReflTransGen.head ⟨l, hco, hst⟩ (ih h)

/-- What is found at the end of a list of labels is found along a run. -/
theorem exists_run_of_runIf [∀ s l, Decidable (cond s l)] (labels : List L)
    {P : S → Prop} [DecidablePred P] (h : (m.runIf cond s labels).any (fun t => decide (P t))) :
    ∃ t, m.Run cond s t ∧ P t := by
  cases hrun : m.runIf cond s labels with
  | none => simp [hrun] at h
  | some t => exact ⟨t, run_of_runIf hrun, by simpa [hrun] using h⟩

/-- What is found at the end of a list of labels from a start state is reached. -/
theorem exists_reach_of_runIf [∀ s l, Decidable (cond s l)] (labels : List L)
    {P : S → Prop} [DecidablePred P] (hin : m.init s)
    (h : (m.runIf cond s labels).any (fun t => decide (P t))) : ∃ t, m.Reach cond t ∧ P t := by
  obtain ⟨t, hrun, ht⟩ := exists_run_of_runIf labels h
  exact ⟨t, ⟨s, hin, hrun⟩, ht⟩

/-- What holds in every reached state holds at the end of a list of labels. -/
theorem exists_reach_and_of_runIf [∀ s l, Decidable (cond s l)] (labels : List L)
    {P C : S → Prop} [DecidablePred P] (hin : m.init s)
    (h : (m.runIf cond s labels).any (fun t => decide (P t))) (hall : ∀ t, m.Reach cond t → C t) :
    ∃ t, m.Reach cond t ∧ P t ∧ C t := by
  obtain ⟨t, hre, ht⟩ := exists_reach_of_runIf labels hin h
  exact ⟨t, hre, ht, hall t hre⟩

/-- Two lists of labels from one start state lead to a pair of reached states. -/
theorem exists_reach_pair_of_runIf [∀ s l, Decidable (cond s l)] (labels labels' : List L)
    {P : S → S → Prop} [∀ t u, Decidable (P t u)] (hin : m.init s)
    (h : (m.runIf cond s labels).any fun t =>
      (m.runIf cond s labels').any fun u => decide (P t u)) :
    ∃ t u, m.Reach cond t ∧ m.Reach cond u ∧ P t u := by
  obtain ⟨t, hrun, hany⟩ := exists_run_of_runIf
    (P := fun t => (m.runIf cond s labels').any fun u => decide (P t u)) labels (by simpa using h)
  obtain ⟨u, hrun', hP⟩ := exists_run_of_runIf (P := P t) labels' hany
  exact ⟨t, u, ⟨s, hin, hrun⟩, ⟨s, hin, hrun'⟩, hP⟩

end Machine

end DEngine.Library

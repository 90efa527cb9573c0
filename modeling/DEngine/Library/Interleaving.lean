import DEngine.Library.Transition
import Mathlib.Logic.Function.Basic

/-!
# Machines side by side

The members of a family of machines take their steps one at a time, in any order.
The condition on a step sees the whole family: what one member may do can depend on
what the others have done.
-/

namespace DEngine.Library.Machine

variable {ι L : Type*} [DecidableEq ι] {S : ι → Type*}

/-- One member of the family takes a step, the others stay as they are. -/
def interleave (m : ∀ i, Machine (S i) L) : Machine (∀ i, S i) (ι × L) where
  init s := ∀ i, (m i).init (s i)
  step s l := ((m l.1).step (s l.1) l.2).map (Function.update s l.1)

variable {m : ∀ i, Machine (S i) L} {cond : (∀ i, S i) → ι × L → Prop} {s t : ∀ i, S i}

theorem interleave_step_eq_some {i : ι} {l : L} (h : (interleave m).step s (i, l) = some t) :
    ∃ u, (m i).step (s i) l = some u ∧ t = Function.update s i u := by
  obtain ⟨u, hst, heq⟩ := Option.map_eq_some_iff.mp h
  exact ⟨u, hst, heq.symm⟩

/-- Each member of a family goes through a run of its own. -/
theorem Reach.member (own : ∀ i, S i → L → Prop) (hs : (interleave m).Reach cond s)
    (hown : ∀ s i l, cond s (i, l) → own i (s i) l) (i : ι) : (m i).Reach (own i) (s i) := by
  apply hs.invariant (I := fun s => (m i).Reach (own i) (s i))
  · exact fun s hin => reach_of_init (hin i)
  · rintro s ⟨j, l⟩ t hre hco hst
    obtain ⟨u, hju, rfl⟩ := interleave_step_eq_some hst
    by_cases hij : i = j
    · subst hij
      rw [Function.update_self]
      exact hre.of_run (Relation.ReflTransGen.single ⟨l, hown s i l hco, hju⟩)
    · rwa [Function.update_of_ne hij]

/-- What each step establishes of its own member and keeps of all others holds in every state
that is reached. -/
theorem Reach.backed {P : (∀ i, S i) → ∀ i, S i → Prop} (hs : (interleave m).Reach cond s)
    (hin : ∀ s, (∀ i, (m i).init (s i)) → ∀ i, P s i (s i))
    (hst : ∀ s i l u, cond s (i, l) → (m i).step (s i) l = some u →
      P s i u ∧ ∀ j v, P s j v → P (Function.update s i u) j v) (i : ι) : P s i (s i) := by
  revert i
  apply hs.invariant (I := fun s => ∀ i, P s i (s i)) hin
  rintro s ⟨j, l⟩ t hall hco hjt i
  obtain ⟨u, hju, rfl⟩ := interleave_step_eq_some hjt
  obtain ⟨hown, hke⟩ := hst s j l u hco hju
  apply hke
  by_cases hij : i = j
  · subst hij
    rwa [Function.update_self]
  · rw [Function.update_of_ne hij]
    exact hall i

end DEngine.Library.Machine

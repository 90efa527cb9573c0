import Mathlib.Data.List.Infix

/-!
# Histories

A history lists events, the newest first. It is justified when every event has a
reason in what was before it. Histories only grow, so what justifies an event stays
and an invariant about histories is proved for the new events alone.
-/

namespace DEngine.Library

variable {α : Type*} {P : α → List α → Prop} {a : α} {history : List α}

/-- Every event is justified by the history before it. -/
def Justified (P : α → List α → Prop) (history : List α) : Prop :=
  ∀ a earlier, a :: earlier <:+ history → P a earlier

theorem justified_nil : Justified P [] := by
  intro a earlier h
  exact absurd (List.suffix_nil.mp h) (List.cons_ne_nil a earlier)

theorem justified_cons : Justified P (a :: history) ↔ P a history ∧ Justified P history := by
  constructor
  · intro h
    exact ⟨h a history List.suffix_rfl, fun b earlier hb =>
      h b earlier (hb.trans (List.suffix_cons a _))⟩
  · rintro ⟨ha, hre⟩ b earlier hb
    rcases List.suffix_cons_iff.mp hb with heq | hsuf
    · cases heq
      exact ha
    · exact hre b earlier hsuf

/-- New events that are justified by the history they extend keep it justified. -/
theorem Justified.append (h : Justified P history) {done : List α}
    (hdn : ∀ a ∈ done, ∀ before, history <:+ before → P a before) :
    Justified P (done ++ history) := by
  induction done with
  | nil => exact h
  | cons a rest ih =>
    rw [List.cons_append, justified_cons]
    constructor
    · exact hdn a List.mem_cons_self _ (List.suffix_append rest history)
    · exact ih fun b hb => hdn b (List.mem_cons_of_mem a hb)

end DEngine.Library

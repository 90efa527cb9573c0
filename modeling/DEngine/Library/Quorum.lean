import Mathlib.Algebra.Group.Nat.Even
import Mathlib.Data.Finset.Card

/-!
# Strict majorities of two sets

A strict majority of a set is a part with more than half of its members. When a
set grows, a majority of the smaller one need not meet every majority of the
larger one: how many members may be added depends on the parity of the size
before.
-/

namespace DEngine.Library

variable {α : Type*} {before after part : Finset α}

/-- The part has more than half of the members of the whole. -/
def StrictMajority (whole part : Finset α) : Prop :=
  part ⊆ whole ∧ whole.card < 2 * part.card

theorem StrictMajority.half_lt_card (h : StrictMajority before part) :
    before.card / 2 < part.card := by
  have := h.2
  omega

variable [DecidableEq α]

instance (whole part : Finset α) : Decidable (StrictMajority whole part) :=
  inferInstanceAs (Decidable (_ ∧ _))

/-- Every strict majority of one set has a member in common with every strict majority of
the other. -/
def MajoritiesMeet (before after : Finset α) : Prop :=
  ∀ a b, StrictMajority before a → StrictMajority after b → (a ∩ b).Nonempty

/-- Majorities of a set and of a larger one meet exactly when the two smallest ones do not fit
into the larger set side by side. -/
theorem majoritiesMeet_iff_of_subset (hne : before.Nonempty) (hsub : before ⊆ after) :
    MajoritiesMeet before after ↔ after.card < (before.card / 2 + 1) + (after.card / 2 + 1) := by
  constructor
  · intro hme
    by_contra hfit
    have hpos : 0 < before.card := hne.card_pos
    obtain ⟨a, ha, hac⟩ : ∃ a ⊆ before, a.card = before.card / 2 + 1 :=
      Finset.exists_subset_card_eq (by omega)
    have hre : (after \ a).card = after.card - a.card :=
      Finset.card_sdiff_of_subset (ha.trans hsub)
    obtain ⟨b, hb, hbc⟩ : ∃ b ⊆ after \ a, b.card = after.card / 2 + 1 :=
      Finset.exists_subset_card_eq (by omega)
    have hma : StrictMajority before a := ⟨ha, by omega⟩
    have hma' : StrictMajority after b := ⟨hb.trans Finset.sdiff_subset, by omega⟩
    obtain ⟨x, hx⟩ := hme a b hma hma'
    obtain ⟨hxa, hxb⟩ := Finset.mem_inter.mp hx
    exact (Finset.mem_sdiff.mp (hb hxb)).2 hxa
  · intro hlt a b ha hb
    by_contra hdi
    rw [Finset.not_nonempty_iff_eq_empty, ← Finset.disjoint_iff_inter_eq_empty] at hdi
    have hun : (a ∪ b).card ≤ after.card :=
      Finset.card_le_card (Finset.union_subset (ha.1.trans hsub) hb.1)
    rw [Finset.card_union_of_disjoint hdi] at hun
    have := ha.half_lt_card
    have := hb.half_lt_card
    omega

/-- One member may always be added, two only to a set of even size. -/
theorem majoritiesMeet_iff_card_sdiff (hne : before.Nonempty) (hsub : before ⊆ after) :
    MajoritiesMeet before after ↔
      (after \ before).card ≤ 1 ∨ (after \ before).card = 2 ∧ Even before.card := by
  have hca : (after \ before).card + before.card = after.card :=
    Finset.card_sdiff_add_card_eq_card hsub
  rw [majoritiesMeet_iff_of_subset hne hsub, Nat.even_iff]
  omega

/-- Two strict majorities of one set have a member in common. -/
theorem StrictMajority.inter_nonempty {whole a b : Finset α} (ha : StrictMajority whole a)
    (hb : StrictMajority whole b) : (a ∩ b).Nonempty := by
  have hne : whole.Nonempty := by
    have hle := Finset.card_le_card ha.1
    have hlt := ha.2
    exact Finset.card_pos.mp (by omega)
  exact (majoritiesMeet_iff_card_sdiff hne subset_rfl).mpr (.inl (by simp)) a b ha hb

end DEngine.Library

import Mathlib.Data.List.GetD
import Mathlib.Data.List.Sort
import Mathlib.Order.Bounds.Basic

/-!
# Values by rank

In a list that is sorted from the largest value down, the value at position `k` has
at least `k + 1` values that are as large as it, and a larger value has at most `k`.
The counts are the same in the list before it was sorted.
-/

namespace DEngine.Library

variable {α : Type*} [LinearOrder α]

/-- In a descending list the values up to a position are as large as the value there. -/
theorem lt_countP_of_descending {ys : List α} (hys : ys.Pairwise (· ≥ ·)) {k : Nat}
    (hk : k < ys.length) : k < ys.countP fun y => decide (ys[k] ≤ y) := by
  have hta : (ys.take (k + 1)).countP (fun y => decide (ys[k] ≤ y)) = k + 1 := by
    rw [List.countP_eq_length.mpr, List.length_take, min_eq_left hk]
    intro y hy
    obtain ⟨i, hi, rfl⟩ := List.mem_iff_getElem.mp hy
    rw [List.getElem_take, decide_eq_true_eq]
    rw [List.length_take] at hi
    rcases Nat.lt_or_ge i k with hlt | hge
    · exact List.pairwise_iff_getElem.mp hys i k (by omega) hk hlt
    · have : i = k := by omega
      subst this
      exact le_rfl
  calc
    k < k + 1 := Nat.lt_succ_self k
    _ = (ys.take (k + 1)).countP fun y => decide (ys[k] ≤ y) := hta.symm
    _ ≤ ys.countP fun y => decide (ys[k] ≤ y) := (List.take_sublist (k + 1) ys).countP_le

/-- A value above the one at a position of a descending list has only values before that
position that are as large as it. -/
theorem countP_le_of_descending {ys : List α} (hys : ys.Pairwise (· ≥ ·)) {k : Nat}
    (hk : k < ys.length) {n : α} (hn : ys[k] < n) : (ys.countP fun y => decide (n ≤ y)) ≤ k := by
  have hdr : (ys.drop k).countP (fun y => decide (n ≤ y)) = 0 := by
    rw [List.countP_eq_zero]
    intro y hy hle
    obtain ⟨i, hi, rfl⟩ := List.mem_iff_getElem.mp hy
    rw [List.getElem_drop] at hle
    rw [List.length_drop] at hi
    have hge : ys[k + i] ≤ ys[k] := by
      rcases Nat.eq_zero_or_pos i with rfl | hpos
      · exact le_rfl
      · exact List.pairwise_iff_getElem.mp hys k (k + i) hk _ (by omega)
    exact absurd (of_decide_eq_true hle) (not_le.mpr (hge.trans_lt hn))
  rw [← List.take_append_drop k ys, List.countP_append, hdr]
  exact List.countP_le_length.trans (List.length_take_le k ys)

/-- More than `k` values of a list are as large as the one at position `k` of its descending
order. -/
theorem lt_countP_of_insertionSort (xs : List α) {k : Nat} (hk : k < xs.length) (default : α) :
    k < xs.countP fun x => decide ((xs.insertionSort (· ≥ ·)).getD k default ≤ x) := by
  have hpe := xs.perm_insertionSort (· ≥ ·)
  have hk' : k < (xs.insertionSort (· ≥ ·)).length := hpe.length_eq ▸ hk
  rw [← hpe.countP_eq, List.getD_eq_getElem _ default hk']
  exact lt_countP_of_descending (xs.pairwise_insertionSort (· ≥ ·)) hk'

/-- The value at position `k` of the descending order is the largest one that more than `k`
values of the list reach. -/
theorem isGreatest_insertionSort (xs : List α) {k : Nat} (hk : k < xs.length) (default : α) :
    IsGreatest {n | k < xs.countP fun x => decide (n ≤ x)}
      ((xs.insertionSort (· ≥ ·)).getD k default) := by
  refine ⟨lt_countP_of_insertionSort xs hk default, fun n hn => ?_⟩
  have hpe := xs.perm_insertionSort (· ≥ ·)
  have hk' : k < (xs.insertionSort (· ≥ ·)).length := hpe.length_eq ▸ hk
  rw [Set.mem_ofPred_eq, ← hpe.countP_eq] at hn
  rw [List.getD_eq_getElem _ default hk']
  by_contra hlt
  exact absurd (countP_le_of_descending (xs.pairwise_insertionSort (· ≥ ·)) hk' (not_le.mp hlt))
    (not_le.mpr hn)

theorem countP_lt_length {β : Type*} {f : β → α} {l : List β} {x : β} (hx : x ∈ l) :
    (l.countP fun y => decide (f x < f y)) < l.length :=
  List.countP_le_length.lt_of_ne fun heq =>
    lt_irrefl _ (of_decide_eq_true (List.countP_eq_length.mp heq x hx))

/-- The first `k` members of an ascending list are those that at least the rest exceeds. -/
theorem mem_take_iff_le_countP {β : Type*} {f : β → α} {l : List β}
    (hl : l.Pairwise fun a b => f a < f b) {x : β} (hx : x ∈ l) (k : Nat) :
    x ∈ l.take k ↔ l.length - k ≤ l.countP fun y => decide (f x < f y) := by
  have hsplit : (l.countP fun y => decide (f x < f y)) =
      (l.take k).countP (fun y => decide (f x < f y)) +
        (l.drop k).countP fun y => decide (f x < f y) := by
    rw [← List.countP_append, List.take_append_drop]
  rw [← List.take_append_drop k l, List.pairwise_append] at hl
  obtain ⟨-, -, hless⟩ := hl
  rw [hsplit, ← List.length_drop]
  constructor
  · intro hta
    rw [List.countP_eq_length (l := l.drop k) |>.mpr fun y hy => decide_eq_true (hless x hta y hy)]
    exact Nat.le_add_left _ _
  · intro hle
    by_contra hta
    have hdr : x ∈ l.drop k := by
      rw [← List.take_append_drop k l] at hx
      exact (List.mem_append.mp hx).resolve_left hta
    have hze : (l.take k).countP (fun y => decide (f x < f y)) = 0 :=
      List.countP_eq_zero.mpr fun y hy hlt =>
        lt_asymm (hless y hy x hdr) (of_decide_eq_true hlt)
    have hlt : (l.drop k).countP (fun y => decide (f x < f y)) < (l.drop k).length :=
      countP_lt_length hdr
    omega

end DEngine.Library

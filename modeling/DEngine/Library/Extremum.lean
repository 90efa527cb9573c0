import DEngine.Library.OrderedMap
import Mathlib.Order.Bounds.Basic

/-!
# Tables of least and greatest members

A table answers for each of its keys with the least, or with the greatest, member
of a set, and with nothing where the set is empty. The file says how an answer
follows the set when a member is added or members are taken away, and how a pass
that looks at one key at a time settles a whole table.
-/

namespace DEngine.Library

/-- The answer about a set is the member that `extremal` singles out, or that it is empty. -/
def Records (extremal : Set Nat → Nat → Prop) (members : Set Nat) : Option Nat → Prop
  | some i => extremal members i
  | none => members = ∅

variable {members removed : Set Nat} {answer : Option Nat}

namespace Records

theorem insert_least (h : Records IsLeast members answer) {bound i : Nat} (hi : i ≤ bound) :
    Records IsLeast (insert i members) (some (min (answer.getD bound) i)) := by
  cases answer with
  | none =>
    change members = ∅ at h
    rw [h, Option.getD_none, min_eq_right hi, insert_empty_eq]
    exact isLeast_singleton
  | some =>
    rw [Option.getD_some, min_comm]
    exact IsLeast.insert i h

theorem insert_greatest (h : Records IsGreatest members answer) (i : Nat) :
    Records IsGreatest (insert i members) (some (max (answer.getD 0) i)) := by
  cases answer with
  | none =>
    change members = ∅ at h
    rw [h, Option.getD_none, Nat.zero_max, insert_empty_eq]
    exact isGreatest_singleton
  | some =>
    rw [Option.getD_some, max_comm]
    exact IsGreatest.insert i h

/-- A least member below everything that is taken away stays the least one. -/
theorem diff_least {first lo : Nat} (h : IsLeast members first) (hlo : IsLeast removed lo)
    (hlt : first < lo) : IsLeast (members \ removed) first := by
  refine ⟨⟨h.1, fun hin => ?_⟩, fun i hi => h.2 hi.1⟩
  exact Nat.not_le_of_lt hlt (hlo.2 hin)

theorem diff_greatest {last hi : Nat} (h : IsGreatest members last) (hhi : IsGreatest removed hi)
    (hlt : hi < last) : IsGreatest (members \ removed) last := by
  refine ⟨⟨h.1, fun hin => ?_⟩, fun i hi => h.2 hi.1⟩
  exact Nat.not_le_of_lt hlt (hhi.2 hin)

end Records

namespace OrderedMap

variable {V β : Type*}

/-- The keys whose values pass a test. -/
def keysWhere (m : OrderedMap V) (p : V → Prop) : Set Nat := {k | ∃ v, m[k]? = some v ∧ p v}

section Search

variable (m : OrderedMap V) (p : V → Prop) [DecidablePred p]

theorem keysWhere_eq_empty_of_find? {bindings : List (Nat × V)}
    (hmem : ∀ k v, (k, v) ∈ bindings ↔ m[k]? = some v)
    (h : bindings.find? (fun b => decide (p b.2)) = none) : m.keysWhere p = ∅ := by
  rw [Set.eq_empty_iff_forall_notMem]
  rintro k ⟨v, hv, hp⟩
  have hnot := List.find?_eq_none.mp h (k, v) ((hmem k v).mpr hv)
  exact hnot (decide_eq_true hp)

/-- The first hit of a search in the order of a relation is in relation with every other key. -/
theorem mem_keysWhere_of_find? {bindings : List (Nat × V)} {r : Nat → Nat → Prop}
    (hmem : ∀ k v, (k, v) ∈ bindings ↔ m[k]? = some v) (hre : ∀ k, r k k)
    (hs : bindings.Pairwise fun a b => r a.1 b.1) {b : Nat × V}
    (h : bindings.find? (fun b => decide (p b.2)) = some b) :
    b.1 ∈ m.keysWhere p ∧ ∀ k ∈ m.keysWhere p, r b.1 k := by
  obtain ⟨hb, before, after, rfl, hbe⟩ := List.find?_eq_some_iff_append.mp h
  refine ⟨⟨b.2, (hmem b.1 b.2).mp (by simp), of_decide_eq_true hb⟩, ?_⟩
  rintro k ⟨v, hv, hp⟩
  rcases List.mem_append.mp ((hmem k v).mpr hv) with hin | hin
  · have hnot := hbe _ hin
    simp [hp] at hnot
  · rcases List.mem_cons.mp hin with heq | haf
    · rw [← heq]
      exact hre k
    · exact (List.pairwise_cons.mp (List.pairwise_append.mp hs).2.1).1 _ haf

theorem records_find?_least : Records IsLeast (m.keysWhere p)
    ((m.toList.find? fun b => decide (p b.2)).map Prod.fst) := by
  cases h : m.toList.find? fun b => decide (p b.2) with
  | none => exact keysWhere_eq_empty_of_find? m p (mem_toList_iff m) h
  | some b =>
    have hs : m.toList.Pairwise fun a b => a.1 ≤ b.1 := (toList_pairwise m).imp le_of_lt
    exact mem_keysWhere_of_find? m p (mem_toList_iff m) le_refl hs h

theorem records_find?_greatest : Records IsGreatest (m.keysWhere p)
    ((m.toList.reverse.find? fun b => decide (p b.2)).map Prod.fst) := by
  have hmem : ∀ k v, (k, v) ∈ m.toList.reverse ↔ m[k]? = some v := by
    intro k v
    rw [List.mem_reverse, mem_toList_iff]
  cases h : m.toList.reverse.find? fun b => decide (p b.2) with
  | none => exact keysWhere_eq_empty_of_find? m p hmem h
  | some b =>
    have hs : m.toList.reverse.Pairwise fun a b => a.1 ≥ b.1 :=
      List.pairwise_reverse.mpr ((toList_pairwise m).imp le_of_lt)
    exact mem_keysWhere_of_find? m p (r := (· ≥ ·)) hmem le_refl hs h

end Search

/-- A pass over distinct keys that changes one key at a time: a key that it meets is settled by
its own step, the others stay as they are. -/
theorem foldl_keys {step : OrderedMap V → Nat × β → OrderedMap V} {P : Nat → Option V → Prop}
    {pairs : List (Nat × β)} (hs : pairs.Pairwise fun a b => a.1 < b.1) {old : OrderedMap V}
    (hot : ∀ m p k, k ≠ p.1 → (step m p)[k]? = m[k]?)
    (hse : ∀ m, ∀ p ∈ pairs, m[p.1]? = old[p.1]? → P p.1 (step m p)[p.1]?)
    (hre : ∀ k, (∀ p ∈ pairs, p.1 ≠ k) → P k old[k]?) (k : Nat) :
    P k (pairs.foldl step old)[k]? := by
  -- what is settled stays settled, and what lies ahead is still as in the old map
  have hpa : ∀ m : OrderedMap V, (∀ p ∈ pairs, m[p.1]? = old[p.1]?) →
      (∀ k, (∀ p ∈ pairs, p.1 ≠ k) → P k m[k]?) → P k (pairs.foldl step m)[k]? := by
    clear hre
    induction pairs with
    | nil => exact fun m _ hdn => hdn k nofun
    | cons p rest ih =>
      intro m hold hdn
      rw [List.pairwise_cons] at hs
      refine ih hs.2 (fun m q hq => hse m q (List.mem_cons_of_mem p hq)) (step m p) ?_ ?_
      · intro q hq
        rw [hot m p q.1 (Nat.ne_of_gt (hs.1 q hq))]
        exact hold q (List.mem_cons_of_mem p hq)
      · intro j hj
        by_cases hp : j = p.1
        · rw [hp]
          exact hse m p List.mem_cons_self (hold p List.mem_cons_self)
        · rw [hot m p j hp]
          refine hdn j fun q hq => ?_
          rcases List.mem_cons.mp hq with rfl | hin
          · exact fun heq => hp heq.symm
          · exact hj q hin
  exact hpa old (fun _ _ => rfl) hre

end OrderedMap

end DEngine.Library

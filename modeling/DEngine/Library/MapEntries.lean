import DEngine.Library.OrderedMap
import Mathlib.Data.Multiset.Bind

/-!
# The bindings of an ordered map as a multiset

What goes into a map and what is taken out of it is counted by the multiset of its
bindings: a fresh binding adds one, and the bindings that a removal takes out make
up the map together with those that stay.
-/

namespace DEngine.Library.OrderedMap

variable {V : Type*}

/-- The bindings of a map, each once. -/
def entries (m : OrderedMap V) : Multiset (Nat × V) := m.toList

theorem nodup_entries (m : OrderedMap V) : (entries m).Nodup := by
  refine Multiset.coe_nodup.mpr (List.nodup_iff_pairwise_ne.mpr ?_)
  exact (toList_pairwise m).imp fun hlt heq => absurd (congrArg Prod.fst heq) (Nat.ne_of_lt hlt)

variable {m : OrderedMap V} {k : Nat}

@[simp] theorem mem_entries {v : V} : (k, v) ∈ entries m ↔ m[k]? = some v :=
  mem_toList_iff m k v

@[simp] theorem entries_empty : entries (∅ : OrderedMap V) = 0 := rfl

/-- A map is determined by its bindings, each of which occurs once. -/
theorem entries_eq_iff {es : Multiset (Nat × V)} (hes : es.Nodup) :
    entries m = es ↔ ∀ k v, m[k]? = some v ↔ (k, v) ∈ es := by
  rw [Multiset.Nodup.ext (nodup_entries m) hes]
  simp only [Prod.forall, mem_entries]

theorem entries_insert (hk : m[k]? = none) (v : V) :
    entries (m.insert k v) = (k, v) ::ₘ entries m := by
  have hfr : (k, v) ∉ entries m := by simp [hk]
  rw [entries_eq_iff (Multiset.nodup_cons.mpr ⟨hfr, nodup_entries m⟩)]
  intro j w
  rw [Multiset.mem_cons, mem_entries, getElem?_insert_eq, Prod.mk.injEq]
  by_cases hj : j = k
  · simp [hj, hk, eq_comm]
  · simp [hj]

/-- The bindings of some keys are taken out with the keys. -/
theorem filter_add_entries_eraseKeys (m : OrderedMap V) (p : Nat × V → Bool) :
    ((m.toList.filter p : List (Nat × V)) : Multiset (Nat × V)) +
      entries (m.eraseKeys ((m.toList.filter p).map Prod.fst)) = entries m := by
  have hre : entries (m.eraseKeys ((m.toList.filter p).map Prod.fst)) =
      (entries m).filter fun e => ¬ p e = true := by
    rw [entries_eq_iff ((nodup_entries m).filter _)]
    intro k v
    rw [Multiset.mem_filter, mem_entries, getElem?_eraseKeys]
    cases hk : m[k]? with
    | none => simp
    | some w =>
      have hmem : k ∈ (m.toList.filter p).map Prod.fst ↔ p (k, w) = true := by
        rw [List.mem_map]
        constructor
        · rintro ⟨⟨j, u⟩, hju, rfl⟩
          obtain ⟨hmem, hp⟩ := List.mem_filter.mp hju
          rw [mem_toList_iff, hk, Option.some.injEq] at hmem
          rwa [hmem]
        · intro hp
          exact ⟨(k, w), List.mem_filter.mpr ⟨(mem_toList_iff m k w).mpr hk, hp⟩, rfl⟩
      rw [if_congr hmem rfl rfl]
      split_ifs with hp
      · simp only [Option.some.injEq, false_iff, not_and, not_not]
        rintro rfl
        exact hp
      · rw [Option.some.injEq]
        constructor
        · rintro rfl
          exact ⟨rfl, hp⟩
        · exact fun h => h.1
  have hta : ((m.toList.filter p : List (Nat × V)) : Multiset (Nat × V)) =
      (entries m).filter fun e => p e = true := by
    rw [entries, Multiset.filter_coe]
    simp
  rw [hre, hta]
  exact Multiset.filter_add_not _ _

theorem range_add_entries_eraseRange (m : OrderedMap V) (lo hi : Nat) :
    (m.range lo hi : Multiset (Nat × V)) + entries (m.eraseRange lo hi) = entries m :=
  filter_add_entries_eraseKeys m _

theorem entries_erase {v : V} (hk : m[k]? = some v) :
    (k, v) ::ₘ entries (m.erase k) = entries m := by
  have hgo : (m.erase k)[k]? = none := by rw [getElem?_erase_eq, if_pos rfl]
  rw [← entries_insert hgo]
  congr 1
  refine Std.ExtTreeMap.ext_getElem? fun j => ?_
  rw [getElem?_insert_eq, getElem?_erase_eq]
  split_ifs with hj
  · rw [hj, hk]
  · rfl

/-- Bindings of distinct fresh keys are added one by one. -/
theorem entries_foldl_insert {es : List (Nat × V)}
    (hfr : ∀ e ∈ es, m[e.1]? = none) (hke : (es.map Prod.fst).Nodup) :
    entries (es.foldl (fun acc e => acc.insert e.1 e.2) m) = es + entries m := by
  induction es generalizing m with
  | nil => rw [List.foldl_nil, Multiset.coe_nil, zero_add]
  | cons e rest ih =>
    rw [List.map_cons, List.nodup_cons] at hke
    have hk := hfr e List.mem_cons_self
    rw [List.foldl_cons, ih ?_ hke.2, entries_insert hk, Multiset.add_cons,
      ← Multiset.cons_coe, Multiset.cons_add]
    intro f hf
    rw [getElem?_insert_eq, if_neg, hfr f (List.mem_cons_of_mem e hf)]
    exact fun heq => hke.1 (heq ▸ List.mem_map_of_mem hf)

end DEngine.Library.OrderedMap

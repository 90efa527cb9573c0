import Mathlib.Data.List.Sort
import Mathlib.Tactic.Linarith

/-!
# Ordered maps with inclusive key ranges

An ordered map keyed by natural numbers is the extensional tree map of the
standard library. This file adds the operations that a concurrent skip list
offers on top of lookup and insertion: the first and the last key, the values
whose keys lie in an inclusive range, and the removal of such a range.
-/

namespace DEngine.Library

open Std (ExtTreeMap)

/-- An ordered map from natural-number keys. -/
abbrev OrderedMap (V : Type*) := ExtTreeMap Nat V compare

namespace OrderedMap

variable {V : Type*}

/-- The smallest key, if there is one. -/
def firstKey (m : OrderedMap V) : Option Nat := m.toList.head?.map Prod.fst

/-- The largest key, if there is one. -/
def lastKey (m : OrderedMap V) : Option Nat := m.toList.getLast?.map Prod.fst

/-- The bindings with keys from `lo` to `hi`, both included, in key order. -/
def range (m : OrderedMap V) (lo hi : Nat) : List (Nat × V) :=
  m.toList.filter fun p => decide (lo ≤ p.1 ∧ p.1 ≤ hi)

/-- Remove a list of keys, one after the other. -/
def eraseKeys (m : OrderedMap V) (keys : List Nat) : OrderedMap V :=
  keys.foldl (fun acc k => acc.erase k) m

/-- Insert a list of values under the keys they carry, one after the other. -/
def insertBy (key : V → Nat) (m : OrderedMap V) (values : List V) : OrderedMap V :=
  values.foldl (fun acc v => acc.insert (key v) v) m

theorem insertBy_append (key : V → Nat) (m : OrderedMap V) (a b : List V) :
    m.insertBy key (a ++ b) = (m.insertBy key a).insertBy key b :=
  List.foldl_append

theorem getElem?_insert_eq (m : OrderedMap V) (k : Nat) (v : V) (j : Nat) :
    (m.insert k v)[j]? = if j = k then some v else m[j]? := by
  rw [ExtTreeMap.getElem?_insert]
  simp only [Nat.compare_eq_eq, eq_comm (a := k)]

theorem getElem?_erase_eq (m : OrderedMap V) (k j : Nat) :
    (m.erase k)[j]? = if j = k then none else m[j]? := by
  rw [ExtTreeMap.getElem?_erase]
  simp only [Nat.compare_eq_eq, eq_comm (a := k)]

theorem getElem?_eraseKeys (m : OrderedMap V) (keys : List Nat) (j : Nat) :
    (m.eraseKeys keys)[j]? = if j ∈ keys then none else m[j]? := by
  induction keys generalizing m with
  | nil => simp [eraseKeys]
  | cons k rest ih =>
    change (eraseKeys (m.erase k) rest)[j]? = _
    rw [ih, getElem?_erase_eq]
    by_cases hk : j = k <;> by_cases hr : j ∈ rest <;> simp [hk, hr]

/-- Keys that no inserted value carries keep their binding. -/
theorem getElem?_insertBy_of_not_mem (key : V → Nat) (m : OrderedMap V) (values : List V)
    (j : Nat) (h : ∀ v ∈ values, key v ≠ j) : (m.insertBy key values)[j]? = m[j]? := by
  induction values generalizing m with
  | nil => rfl
  | cons v rest ih =>
    change (insertBy key (m.insert (key v) v) rest)[j]? = _
    rw [ih _ fun w hw => h w (List.mem_cons_of_mem v hw), getElem?_insert_eq,
      if_neg (h v List.mem_cons_self).symm]

/-- With strictly ascending keys every inserted value is found under its key. -/
theorem getElem?_insertBy_of_mem (key : V → Nat) (m : OrderedMap V) (values : List V)
    (hs : values.Pairwise fun a b => key a < key b) (v : V) (hv : v ∈ values) :
    (m.insertBy key values)[key v]? = some v := by
  induction values generalizing m with
  | nil => cases hv
  | cons w rest ih =>
    change (insertBy key (m.insert (key w) w) rest)[key v]? = _
    rw [List.pairwise_cons] at hs
    rcases List.mem_cons.mp hv with rfl | hmem
    · rw [getElem?_insertBy_of_not_mem, getElem?_insert_eq, if_pos rfl]
      intro w hw
      have := hs.1 w hw
      omega
    · exact ih _ hs.2 hmem

/-- What is found behind insertions was inserted last under its key, or was there before and no
insertion has its key. -/
theorem getElem?_insertBy_cases (key : V → Nat) (m : OrderedMap V) (values : List V) (j : Nat) :
    (∃ v ∈ values, key v = j ∧ (m.insertBy key values)[j]? = some v) ∨
      (∀ v ∈ values, key v ≠ j) ∧ (m.insertBy key values)[j]? = m[j]? := by
  induction values generalizing m with
  | nil => exact .inr ⟨nofun, rfl⟩
  | cons w rest ih =>
    change (∃ v ∈ w :: rest, key v = j ∧ (insertBy key (m.insert (key w) w) rest)[j]? = some v) ∨
      (∀ v ∈ w :: rest, key v ≠ j) ∧ (insertBy key (m.insert (key w) w) rest)[j]? = m[j]?
    rcases ih (m.insert (key w) w) with ⟨v, hv, hkey, hlo⟩ | ⟨hno, hlo⟩
    · exact .inl ⟨v, List.mem_cons_of_mem w hv, hkey, hlo⟩
    · rw [hlo, getElem?_insert_eq]
      by_cases hw : j = key w
      · exact .inl ⟨w, List.mem_cons_self, hw.symm, if_pos hw⟩
      · refine .inr ⟨?_, if_neg hw⟩
        rintro v hv
        rcases List.mem_cons.mp hv with rfl | hre
        · exact fun heq => hw heq.symm
        · exact hno v hre

theorem exists_getElem?_insertBy (key : V → Nat) (m : OrderedMap V) (values : List V) (j : Nat) :
    (∃ v, (m.insertBy key values)[j]? = some v) ↔
      (∃ v, m[j]? = some v) ∨ j ∈ values.map key := by
  rw [List.mem_map]
  rcases getElem?_insertBy_cases key m values j with ⟨v, hv, hkey, hlo⟩ | ⟨hno, hlo⟩
  · exact iff_of_true ⟨v, hlo⟩ (.inr ⟨v, hv, hkey⟩)
  · rw [hlo]
    exact ⟨Or.inl, fun h => h.resolve_right fun ⟨v, hv, hkey⟩ => hno v hv hkey⟩

theorem toList_pairwise (m : OrderedMap V) : m.toList.Pairwise fun a b => a.1 < b.1 := by
  have h := ExtTreeMap.ordered_keys_toList (t := m)
  exact h.imp fun hab => Nat.compare_eq_lt.mp hab

theorem mem_toList_iff (m : OrderedMap V) (k : Nat) (v : V) : (k, v) ∈ m.toList ↔ m[k]? = some v :=
  ExtTreeMap.mem_toList_iff_getElem?_eq_some

theorem mem_range_iff (m : OrderedMap V) (lo hi k : Nat) (v : V) :
    (k, v) ∈ m.range lo hi ↔ m[k]? = some v ∧ lo ≤ k ∧ k ≤ hi := by
  rw [range, List.mem_filter, mem_toList_iff, decide_eq_true_eq]

theorem range_pairwise (m : OrderedMap V) (lo hi : Nat) :
    (m.range lo hi).Pairwise fun a b => a.1 < b.1 :=
  (toList_pairwise m).filter _

/-- A range whose keys are all bound counts up from its lower end. -/
theorem range_keys_of_bound (m : OrderedMap V) (lo hi : Nat)
    (hbo : ∀ k, lo ≤ k → k ≤ hi → ∃ v, m[k]? = some v) :
    (m.range lo hi).map Prod.fst = List.range' lo (hi + 1 - lo) := by
  have hke : ((m.range lo hi).map Prod.fst).Pairwise (· < ·) := by
    rw [List.pairwise_map]
    exact range_pairwise m lo hi
  apply hke.eq_of_mem_iff List.pairwise_lt_range'
  intro k
  rw [List.mem_map, List.mem_range'_1]
  constructor
  · rintro ⟨⟨j, v⟩, hjv, rfl⟩
    have := ((mem_range_iff m lo hi j v).mp hjv).2
    omega
  · intro hk
    obtain ⟨v, hv⟩ := hbo k hk.1 (by omega)
    exact ⟨(k, v), (mem_range_iff m lo hi k v).mpr ⟨hv, by omega⟩, rfl⟩

/-- Remove every binding whose key lies in the inclusive range. -/
def eraseRange (m : OrderedMap V) (lo hi : Nat) : OrderedMap V :=
  m.eraseKeys ((m.range lo hi).map Prod.fst)

theorem getElem?_eraseRange (m : OrderedMap V) (lo hi j : Nat) :
    (m.eraseRange lo hi)[j]? = if lo ≤ j ∧ j ≤ hi then none else m[j]? := by
  rw [eraseRange, getElem?_eraseKeys]
  have hmem : j ∈ (m.range lo hi).map Prod.fst ↔ (∃ v, m[j]? = some v) ∧ lo ≤ j ∧ j ≤ hi := by
    constructor
    · intro h
      obtain ⟨⟨k, v⟩, hkv, rfl⟩ := List.mem_map.mp h
      obtain ⟨hv, hlo, hhi⟩ := (mem_range_iff m lo hi k v).mp hkv
      exact ⟨⟨v, hv⟩, hlo, hhi⟩
    · rintro ⟨⟨v, hv⟩, hlo, hhi⟩
      exact List.mem_map.mpr ⟨(j, v), (mem_range_iff m lo hi j v).mpr ⟨hv, hlo, hhi⟩, rfl⟩
  by_cases hr : lo ≤ j ∧ j ≤ hi
  · cases hv : m[j]? with
    | none => simp
    | some => simp [hmem, hv, hr]
  · simp [hmem, hr]

variable {m : OrderedMap V} {lo : Nat}

theorem exists_getElem?_eraseRange {hi j : Nat} :
    (∃ v, (m.eraseRange lo hi)[j]? = some v) ↔ (∃ v, m[j]? = some v) ∧ ¬(lo ≤ j ∧ j ≤ hi) := by
  rw [getElem?_eraseRange]
  split_ifs with hra
  · simp [hra]
  · simp [hra]

/-- Remove every binding from a key on. -/
def eraseFrom (m : OrderedMap V) (lo : Nat) : OrderedMap V :=
  m.eraseKeys ((m.toList.filter fun p => decide (lo ≤ p.1)).map Prod.fst)

theorem mem_keysFrom {j : Nat} :
    j ∈ (m.toList.filter fun p => decide (lo ≤ p.1)).map Prod.fst ↔
      lo ≤ j ∧ ∃ v, m[j]? = some v := by
  rw [List.mem_map]
  constructor
  · rintro ⟨⟨k, v⟩, hp, rfl⟩
    obtain ⟨hin, hk⟩ := List.mem_filter.mp hp
    exact ⟨of_decide_eq_true hk, v, (mem_toList_iff m k v).mp hin⟩
  · rintro ⟨hj, v, hv⟩
    exact ⟨(j, v), List.mem_filter.mpr ⟨(mem_toList_iff m j v).mpr hv, decide_eq_true hj⟩, rfl⟩

theorem getElem?_eraseFrom (m : OrderedMap V) (lo j : Nat) :
    (m.eraseFrom lo)[j]? = if lo ≤ j then none else m[j]? := by
  rw [eraseFrom, getElem?_eraseKeys]
  by_cases hj : lo ≤ j
  · cases hv : m[j]? with
    | none => simp
    | some v => rw [if_pos hj, if_pos (mem_keysFrom.mpr ⟨hj, v, hv⟩)]
  · rw [if_neg hj, if_neg fun hmem => hj (mem_keysFrom.mp hmem).1]

/-- A map without a first key has no bindings. -/
theorem getElem?_of_firstKey_none (h : firstKey m = none) (j : Nat) : m[j]? = none := by
  have hnil : m.toList = [] := by simpa [firstKey] using h
  cases hv : m[j]? with
  | none => rfl
  | some v =>
    have := (mem_toList_iff m j v).mpr hv
    simp [hnil] at this

variable {k : Nat}

/-- The first key is bound and no bound key is smaller. -/
theorem firstKey_spec (h : firstKey m = some k) :
    (∃ v, m[k]? = some v) ∧ ∀ j v, m[j]? = some v → k ≤ j := by
  have hs := toList_pairwise m
  have hmem := mem_toList_iff m
  cases hl : m.toList with
  | nil => simp [firstKey, hl] at h
  | cons p =>
    obtain ⟨a, v⟩ := p
    have hk : a = k := by simpa [firstKey, hl] using h
    subst hk
    rw [hl] at hs hmem
    refine ⟨⟨v, (hmem a v).mp List.mem_cons_self⟩, ?_⟩
    intro j w hw
    rcases List.mem_cons.mp ((hmem j w).mpr hw) with heq | hta
    · exact le_of_eq (congrArg Prod.fst heq).symm
    · exact le_of_lt ((List.pairwise_cons.mp hs).1 (j, w) hta)

/-- The last key is bound and no bound key is larger. -/
theorem lastKey_spec (h : lastKey m = some k) :
    (∃ v, m[k]? = some v) ∧ ∀ j v, m[j]? = some v → j ≤ k := by
  have hs := toList_pairwise m
  have hmem := mem_toList_iff m
  rcases List.eq_nil_or_concat m.toList with hnil | ⟨front, ⟨a, v⟩, hl⟩
  · simp [lastKey, hnil] at h
  · rw [List.concat_eq_append] at hl
    have hk : a = k := by simpa [lastKey, hl] using h
    subst hk
    rw [hl] at hs hmem
    refine ⟨⟨v, (hmem a v).mp (by simp)⟩, ?_⟩
    intro j w hw
    rcases List.mem_append.mp ((hmem j w).mpr hw) with hfr | hla
    · exact le_of_lt ((List.pairwise_append.mp hs).2.2 (j, w) hfr (a, v) (by simp))
    · exact le_of_eq (congrArg Prod.fst (List.mem_singleton.mp hla))

/-- The last binding below a bound is the one with the largest key. -/
theorem getLast?_filter_lt {bound : Nat} {v : V} (hk : m[k]? = some v)
    (hlt : k < bound) (hmax : ∀ j w, m[j]? = some w → j < bound → j ≤ k) :
    (m.toList.filter fun p => decide (p.1 < bound)).getLast? = some (k, v) := by
  have hmem : (k, v) ∈ m.toList.filter fun p => decide (p.1 < bound) :=
    List.mem_filter.mpr ⟨(mem_toList_iff m k v).mpr hk, decide_eq_true hlt⟩
  have hso := (toList_pairwise m).filter fun p => decide (p.1 < bound)
  have hbo : ∀ p ∈ m.toList.filter (fun p => decide (p.1 < bound)), p.1 ≤ k := by
    rintro ⟨j, w⟩ hp
    obtain ⟨hin, hj⟩ := List.mem_filter.mp hp
    exact hmax j w ((mem_toList_iff m j w).mp hin) (of_decide_eq_true hj)
  generalize m.toList.filter (fun p => decide (p.1 < bound)) = kept at hmem hso hbo
  rcases List.eq_nil_or_concat kept with rfl | ⟨front, last, rfl⟩
  · cases hmem
  · rw [List.concat_eq_append] at hmem hso hbo ⊢
    rcases List.mem_append.mp hmem with hfr | hla
    · have hls := (List.pairwise_append.mp hso).2.2 (k, v) hfr last (by simp)
      have hle := hbo last (by simp)
      omega
    · rw [List.getLast?_append, List.mem_singleton.mp hla]
      rfl

theorem firstKey_eq_none_iff (m : OrderedMap V) : firstKey m = none ↔ lastKey m = none := by
  simp [firstKey, lastKey]

/-! ## One map covers another up to a key -/

/-- Up to a key, the first map holds what the second one holds. -/
def Covers (content memory : OrderedMap V) (n : Nat) : Prop :=
  ∀ (i : Nat) (v : V), memory[i]? = some v → i ≤ n → content[i]? = some v

namespace Covers

variable {content memory : OrderedMap V} {n : Nat}

theorem mono (h : Covers content memory n) (hk : k ≤ n) : Covers content memory k :=
  fun i v hv hi => h i v hv (hi.trans hk)

/-- Fewer bindings are covered by the same map. -/
theorem of_sub (h : Covers content memory n) {fewer : OrderedMap V}
    (hsub : ∀ (i : Nat) (v : V), fewer[i]? = some v → memory[i]? = some v) : Covers content fewer n :=
  fun i v hv hi => h i v (hsub i v hv) hi

/-- Bindings that the covered map does not contradict may be written. -/
theorem insertBy_content (key : V → Nat) {values : List V} (h : Covers content memory n)
    (hag : ∀ v ∈ values, ∀ w, memory[key v]? = some w → w = v) :
    Covers (content.insertBy key values) memory n := by
  intro i w hw hi
  obtain ⟨v, hv, rfl, hlo⟩ | ⟨-, hlo⟩ := getElem?_insertBy_cases key content values i
  · rw [hlo, hag v hv w hw]
  · rw [hlo]
    exact h i w hw hi

/-- Bindings above the key may be added to the covered map. -/
theorem insertBy_memory (key : V → Nat) {values : List V} (h : Covers content memory n)
    (hab : ∀ v ∈ values, n < key v) : Covers content (memory.insertBy key values) n := by
  intro i w hw hi
  obtain ⟨v, hv, rfl, -⟩ | ⟨-, hlo⟩ := getElem?_insertBy_cases key memory values i
  · exact absurd hi (Nat.not_le.mpr (hab v hv))
  · rw [hlo] at hw
    exact h i w hw hi

/-- Bindings that the covered map does not have may be erased. -/
theorem eraseRange_content (h : Covers content memory n) {hi : Nat}
    (hno : ∀ (i : Nat) (v : V), memory[i]? = some v → hi < i) :
    Covers (content.eraseRange lo hi) memory n := by
  intro i v hv hi'
  rw [getElem?_eraseRange, if_neg]
  · exact h i v hv hi'
  · rintro ⟨-, hle⟩
    exact absurd hle (Nat.not_le.mpr (hno i v hv))

end Covers

end OrderedMap

end DEngine.Library

import Mathlib.Tactic.Linarith

/-!
# Logs as partial functions on indexes

A log with a discarded prefix, possibly with holes, is a partial function from
indexes to records. The file states agreement of two logs on a range, the log
matching property above a base index, and the splice that replaces everything
from a cut on by another log, which is how a replica takes over a batch. The
receiver rule says what a replica should hold behind a batch.
-/

namespace DEngine.Library

namespace PartialLog

variable {E : Type*}

/-- The logs hold the same above `lo` and up to `hi`, holes included. -/
def Agree (f g : Nat → Option E) (lo hi : Nat) : Prop :=
  ∀ j, lo < j → j ≤ hi → f j = g j

/-- Records of one index and one term imply agreement from the base up to that index. -/
def LogMatching (term : E → Nat) (base : Nat) (f g : Nat → Option E) : Prop :=
  ∀ i a b, f i = some a → g i = some b → term a = term b → Agree f g base i

/-- Replace everything from the cut on; without a cut nothing is replaced. -/
def splice (f : Nat → Option E) (cut : Option Nat) (g : Nat → Option E) (i : Nat) : Option E :=
  match cut with
  | none => f i
  | some c => if c ≤ i then g i else f i

/-- The index lies below the cut. -/
def Kept (cut : Option Nat) (i : Nat) : Prop := ∀ c, cut = some c → i < c

instance (cut : Option Nat) (i : Nat) : Decidable (Kept cut i) :=
  match cut with
  | none => isTrue fun _ h => by cases h
  | some c => decidable_of_iff (i < c) ⟨fun h _ hc => Option.some.inj hc ▸ h, fun h => h c rfl⟩

theorem kept_none (i : Nat) : Kept none i := fun _ h => by cases h

theorem kept_some (c i : Nat) : Kept (some c) i ↔ i < c :=
  ⟨fun h => h c rfl, fun h _ hc => Option.some.inj hc ▸ h⟩

variable {i : Nat}

theorem splice_of_kept {cut : Option Nat} (h : Kept cut i) (f g : Nat → Option E) :
    splice f cut g i = f i := by
  cases cut with
  | none => rfl
  | some c =>
    have := (kept_some c i).mp h
    exact if_neg (by omega)

theorem splice_of_not_kept {cut : Option Nat} (h : ¬ Kept cut i)
    (f g : Nat → Option E) : splice f cut g i = g i := by
  cases cut with
  | none => exact absurd (kept_none i) h
  | some =>
    rw [kept_some] at h
    exact if_pos (by omega)

/-- A splice agrees with a log exactly when both of its parts do. -/
theorem agree_splice_iff (f g l : Nat → Option E) (cut : Option Nat) (lo hi : Nat) :
    Agree (splice f cut g) l lo hi ↔
      ∀ j, lo < j → j ≤ hi → (Kept cut j → f j = l j) ∧ (¬ Kept cut j → g j = l j) := by
  constructor
  · intro h j hlo hhi
    refine ⟨fun hk => ?_, fun hk => ?_⟩
    · rw [← splice_of_kept hk f g]
      exact h j hlo hhi
    · rw [← splice_of_not_kept hk f g]
      exact h j hlo hhi
  · intro h j hlo hhi
    by_cases hk : Kept cut j
    · rw [splice_of_kept hk]
      exact (h j hlo hhi).1 hk
    · rw [splice_of_not_kept hk]
      exact (h j hlo hhi).2 hk

/-- A list of records as a log, each record under its key. -/
def ofList (key : E → Nat) (records : List E) (i : Nat) : Option E :=
  records.find? fun r => decide (key r = i)

variable {r : E}

theorem ofList_eq_some_imp {key : E → Nat} {records : List E}
    (h : ofList key records i = some r) : r ∈ records ∧ key r = i :=
  ⟨List.mem_of_find?_eq_some h, by simpa using List.find?_some h⟩

theorem ofList_eq_none_iff {key : E → Nat} {records : List E} :
    ofList key records i = none ↔ ∀ r ∈ records, key r ≠ i := by
  simp [ofList]

/-- With ascending keys a record is found under its key. -/
theorem ofList_of_mem {key : E → Nat} {records : List E}
    (hs : records.Pairwise fun a b => key a < key b) (hr : r ∈ records) :
    ofList key records (key r) = some r := by
  induction records with
  | nil => cases hr
  | cons a rest ih =>
    rw [List.pairwise_cons] at hs
    rcases List.mem_cons.mp hr with rfl | hre
    · simp [ofList]
    · have hne : key a ≠ key r := Nat.ne_of_lt (hs.1 r hre)
      simpa [ofList, hne] using ih hs.2 hre

/-! ## Consecutive records -/

/-- The keys of the records count up from `start`. -/
def Consecutive (key : E → Nat) (records : List E) (start : Nat) : Prop :=
  records.map key = List.range' start records.length

instance (key : E → Nat) (records : List E) (start : Nat) :
    Decidable (Consecutive key records start) :=
  inferInstanceAs (Decidable (_ = _))

theorem consecutive_nil (key : E → Nat) (start : Nat) : Consecutive key [] start := rfl

theorem consecutive_append (key : E → Nat) (a b : List E) (start : Nat) :
    Consecutive key (a ++ b) start ↔
      Consecutive key a start ∧ Consecutive key b (start + a.length) := by
  unfold Consecutive
  rw [List.map_append, List.length_append, ← List.range'_append_1]
  constructor
  · intro h
    exact List.append_inj h (by simp)
  · rintro ⟨ha, hb⟩
    rw [ha, hb]

variable {key : E → Nat} {records : List E} {start : Nat}

namespace Consecutive

theorem mem_iff (h : Consecutive key records start) (i : Nat) :
    (∃ r ∈ records, key r = i) ↔ start ≤ i ∧ i < start + records.length := by
  have hmem : (∃ r ∈ records, key r = i) ↔ i ∈ records.map key := by simp
  rw [hmem, h, List.mem_range'_1]

theorem bounds (h : Consecutive key records start) (hr : r ∈ records) :
    start ≤ key r ∧ key r < start + records.length :=
  (h.mem_iff (key r)).mp ⟨r, hr, rfl⟩

theorem ascending (h : Consecutive key records start) :
    records.Pairwise fun a b => key a < key b := by
  have hra : (records.map key).Pairwise (· < ·) := h ▸ List.pairwise_lt_range'
  rwa [List.pairwise_map] at hra

/-- Records that count up from two starts are none. -/
theorem start_unique (h : Consecutive key records start) {start' : Nat}
    (h' : Consecutive key records start') (hne : records ≠ []) : start = start' := by
  obtain ⟨r, rest, rfl⟩ := List.exists_cons_of_ne_nil hne
  have hr : key r = start := by
    have := congrArg List.head? h
    simpa [List.range'_succ] using this
  have hr' : key r = start' := by
    have := congrArg List.head? h'
    simpa [List.range'_succ] using this
  exact hr.symm.trans hr'

theorem getLast_key (h : Consecutive key records start) {last : E}
    (hla : records.getLast? = some last) : key last + 1 = start + records.length := by
  have hend : (records.map key).getLast? = some (key last) := by simp [hla]
  rw [h, List.getLast?_range'] at hend
  split_ifs at hend
  have := Option.some.inj hend
  omega

/-- Consecutive records end at the key that their number says. -/
theorem getLast?_map_key {n : Nat} (h : Consecutive key records (n + 1)) (hne : records ≠ []) :
    records.getLast?.map key = some (n + records.length) := by
  have hla := List.getLast?_eq_some_getLast hne
  have hkey := h.getLast_key hla
  rw [hla, Option.map_some]
  exact congrArg some (by omega)

end Consecutive

/-! ## The receiver rule -/

section Receive

variable (key term : E → Nat) (f : Nat → Option E)

/-- The log holds a record of another term in the place of `r`. -/
def clashes (r : E) : Bool := (f (key r)).any fun held => decide (term held ≠ term r)

/-- What is held is kept and what is missing is added, unless a record clashes; then everything
from the first such record on is replaced. -/
def receive (records : List E) (i : Nat) : Option E :=
  match records.find? (clashes key term f) with
  | some r => splice f (some (key r)) (ofList key records) i
  | none => (f i).or (ofList key records i)

variable {key term f}

theorem clashes_iff :
    clashes key term f r = true ↔ ∃ held, f (key r) = some held ∧ term held ≠ term r := by
  rw [clashes, Option.any_eq_true_iff_get]
  constructor
  · rintro ⟨hso, hne⟩
    exact ⟨_, (Option.some_get hso).symm, of_decide_eq_true hne⟩
  · rintro ⟨held, hhe, hne⟩
    exact ⟨by rw [hhe]; rfl, by simpa [hhe] using hne⟩

/-- A search over ascending records finds the smallest one. -/
theorem exists_find?_le {records : List E} (hs : records.Pairwise fun a b => key a < key b)
    {p : E → Bool} (hr : r ∈ records) (hp : p r = true) :
    ∃ b, records.find? p = some b ∧ key b ≤ key r := by
  obtain ⟨b, hb⟩ := Option.isSome_iff_exists.mp (List.find?_isSome.mpr ⟨r, hr, hp⟩)
  refine ⟨b, hb, ?_⟩
  obtain ⟨-, before, after, rfl, hbe⟩ := List.find?_eq_some_iff_append.mp hb
  rcases List.mem_append.mp hr with hin | hin
  · have hnot := hbe r hin
    rw [hp] at hnot
    cases hnot
  · rcases List.mem_cons.mp hin with rfl | haf
    · exact le_rfl
    · exact le_of_lt ((List.pairwise_cons.mp (List.pairwise_append.mp hs).2.1).1 r haf)

/-- A search that stops at the first record that clashes or lies behind the log follows the
receiver rule, if the log has no hole where the records lie. -/
theorem splice_eq_receive {records : List E} {last : Nat} {p : E → Bool}
    (hs : records.Pairwise fun a b => key a < key b) (hla : ∀ i r, f i = some r → i ≤ last)
    (hhe : ∀ r ∈ records, key r ≤ last → ∃ held, f (key r) = some held)
    (hp : ∀ r ∈ records, p r = true ↔ last < key r ∨ clashes key term f r = true) :
    splice f ((records.find? p).map key) (ofList key records) = receive key term f records := by
  -- below the first record that is not held, the records are held
  have hmi : ∀ i, f i = none → i ≤ last → ofList key records i = none := by
    intro i hno hle
    rw [ofList_eq_none_iff]
    rintro r hr rfl
    obtain ⟨held, hfo⟩ := hhe r hr hle
    rw [hno] at hfo
    cases hfo
  cases hcl : records.find? (clashes key term f) with
  | some r =>
    obtain ⟨hr, before, after, rfl, hbf⟩ := List.find?_eq_some_iff_append.mp hcl
    obtain ⟨held, hfo, -⟩ := clashes_iff.mp hr
    have hfs : (before ++ r :: after).find? p = some r := by
      refine List.find?_eq_some_iff_append.mpr ⟨?_, before, after, rfl, fun a ha => ?_⟩
      · exact (hp r (by simp)).mpr (.inr hr)
      · have hlt := (List.pairwise_append.mp hs).2.2 a ha r List.mem_cons_self
        have hle := hla _ _ hfo
        rw [Bool.not_eq_true', Bool.eq_false_iff]
        intro hpa
        rcases (hp a (List.mem_append_left _ ha)).mp hpa with hbe | hcs
        · omega
        · have := hbf a ha
          rw [hcs] at this
          cases this
    funext i
    rw [receive, hcl, hfs]
    rfl
  | none =>
    have hfr : ∀ r ∈ records, p r = true ↔ last < key r := by
      intro r hr
      rw [hp r hr, or_iff_left]
      exact fun h => by simpa [h] using List.find?_eq_none.mp hcl r hr
    funext i
    rw [receive, hcl]
    dsimp only
    cases hfi : f i with
    | some held =>
      rw [Option.some_or, splice_of_kept, hfi]
      intro cut hcut
      obtain ⟨b, hb, rfl⟩ := Option.map_eq_some_iff.mp hcut
      have hbe := (hfr b (List.mem_of_find?_eq_some hb)).mp (List.find?_some hb)
      exact lt_of_le_of_lt (hla i held hfi) hbe
    | none =>
      rw [Option.none_or]
      by_cases hke : Kept ((records.find? p).map key) i
      · rw [splice_of_kept hke, hfi, eq_comm]
        by_cases hle : i ≤ last
        · exact hmi i hfi hle
        · rw [ofList_eq_none_iff]
          rintro r hr rfl
          obtain ⟨b, hb, hle'⟩ := exists_find?_le hs hr ((hfr r hr).mpr (Nat.lt_of_not_le hle))
          have hlt : key r < key b := hke (key b) (by rw [hb]; rfl)
          exact absurd hle' (Nat.not_le_of_lt hlt)
      · rw [splice_of_not_kept hke]

end Receive

end PartialLog

end DEngine.Library

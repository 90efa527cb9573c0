import DEngine.Library.Median
import DEngine.Proto

/-!
# Which snapshots are kept

Behind a new snapshot the archives are listed, their names are parsed, and all but
those with the largest indexes are deleted. A name is a prefix from the configuration,
an index and a term; the parser takes the prefix for nine bytes long, whatever the
configuration says. A shorter prefix loses the first digits of the index or panics, and
what a longer one has behind its ninth byte is read as digits of the index.

## Implementation notes

Names are lists of characters, sliced by the bytes that the characters take. The results
are about listings of all archives; with a slash in the prefix archives are outside of the
directory that is listed. The removal of a file succeeds.
-/

namespace DEngine.Apply

open Library

abbrev FileName := List Char

/-- The slice `&name[n..]`, if it does not panic. -/
def sliceFrom (n : Nat) : FileName → Option FileName
  | [] => if n = 0 then some [] else none
  | c :: rest =>
    if n = 0 then some (c :: rest)
    else if c.utf8Size ≤ n then sliceFrom (n - c.utf8Size) rest
    else none

/-- What `parse::<u64>` returns. A plus sign may stand before the digits. -/
def parseU64 (text : FileName) : Option Nat :=
  let digits := if text.head? = some '+' then text.tail else text
  if digits ≠ [] ∧ digits.all Char.isDigit ∧ Nat.ofDigitChars 10 digits 0 ≤ u64Max then
    some (Nat.ofDigitChars 10 digits 0)
  else none

/-- The index and the term, split at the first dash. -/
def parseCore (core : FileName) : Option (Nat × Nat) :=
  match core.dropWhile (· ≠ '-') with
  | [] => none
  | _ :: term => do
    let index ← parseU64 (core.takeWhile (· ≠ '-'))
    let term ← parseU64 term
    return (index, term)

def parseSnapshotDirname (name snapshotDirPrefix : FileName) : Except Fault (Option (Nat × Nat)) :=
  if ¬ snapshotDirPrefix <+: name then .ok none
  else
    match sliceFrom 9 name with
    | none => .error (.panic "byte index 9 is out of bounds or no char boundary")
    | some core => .ok (parseCore core)

def archiveSuffix : FileName := ['.', 't', 'a', 'r', '.', 'g', 'z']

def snapshotStem (logId : LogId) : FileName :=
  Nat.toDigits 10 logId.index ++ '-' :: Nat.toDigits 10 logId.term

def finalSnapshotName (snapshotPrefix : FileName) (logId : LogId) : FileName :=
  snapshotPrefix ++ (snapshotStem logId ++ archiveSuffix)

/-- The name as it is, and then without the suffix of an archive. -/
def parseArchive (fileName snapshotDirPrefix : FileName) : Except Fault (Option (Nat × Nat)) :=
  match parseSnapshotDirname fileName snapshotDirPrefix with
  | .error fault => .error fault
  | .ok (some pair) => .ok (some pair)
  | .ok none =>
    if archiveSuffix <:+ fileName then
      parseSnapshotDirname (fileName.take (fileName.length - archiveSuffix.length))
        snapshotDirPrefix
    else .ok none

/-- The indexes and names of the archives that are found. -/
def collectSnapshots (snapshotDirPrefix : FileName) :
    List FileName → Except Fault (List (Nat × FileName))
  | [] => .ok []
  | name :: rest =>
    if ['.', 'g', 'z'] <:+ name then
      match parseArchive name snapshotDirPrefix, collectSnapshots snapshotDirPrefix rest with
      | .error fault, _ => .error fault
      | _, .error fault => .error fault
      | .ok none, .ok later => .ok later
      | .ok (some (index, _)), .ok later => .ok ((index, name) :: later)
    else collectSnapshots snapshotDirPrefix rest

/-- The names that are deleted. -/
def cleanupSnapshot (retainCount : Nat) (directory : List FileName)
    (snapshotDirPrefix : FileName) : Except Fault (List FileName) :=
  match collectSnapshots snapshotDirPrefix directory with
  | .error fault => .error fault
  | .ok snapshots =>
    if snapshots.length ≤ retainCount then .ok []
    else .ok (((snapshots.mergeSort fun a b => decide (a.1 ≤ b.1)).take
      (snapshots.length - retainCount)).map Prod.snd)

/-! ## The selection -/

/-- The archives are deleted that at least `retainCount` others have passed. -/
def RetainsNewest (snapshotPrefix : FileName) (retainCount : Nat) (ids : List LogId) : Prop :=
  ∃ deleted, cleanupSnapshot retainCount (ids.map (finalSnapshotName snapshotPrefix))
      snapshotPrefix = .ok deleted ∧
    ∀ name, name ∈ deleted ↔ ∃ id ∈ ids, finalSnapshotName snapshotPrefix id = name ∧
      retainCount ≤ ids.countP fun other => decide (id.index < other.index)

variable {pre : FileName} {ids : List LogId}

theorem gz_suffix (pre : FileName) (id : LogId) : ['.', 'g', 'z'] <:+ finalSnapshotName pre id :=
  ⟨pre ++ (snapshotStem id ++ ['.', 't', 'a', 'r']), by simp [finalSnapshotName, archiveSuffix]⟩

theorem collectSnapshots_of_parsed
    (h : ∀ id ∈ ids, parseArchive (finalSnapshotName pre id) pre = .ok (some (id.index, id.term))) :
    collectSnapshots pre (ids.map (finalSnapshotName pre)) =
      .ok (ids.map fun id => (id.index, finalSnapshotName pre id)) := by
  induction ids with
  | nil => rfl
  | cons id rest ih =>
    obtain ⟨hid, hre⟩ := List.forall_mem_cons.mp h
    rw [List.map_cons, collectSnapshots, if_pos (gz_suffix pre id), hid, ih hre]
    rfl

/-- Names that are read back are selected by their indexes. -/
theorem retainsNewest_of_parsed (hno : (ids.map LogId.index).Nodup) (retainCount : Nat)
    (h : ∀ id ∈ ids, parseArchive (finalSnapshotName pre id) pre = .ok (some (id.index, id.term))) :
    RetainsNewest pre retainCount ids := by
  let snapshots := ids.map fun id => (id.index, finalSnapshotName pre id)
  let sorted := snapshots.mergeSort fun a b => decide (a.1 ≤ b.1)
  have hpe : sorted.Perm snapshots := List.mergeSort_perm _ _
  have hkeys : snapshots.map Prod.fst = ids.map LogId.index := by simp [snapshots]
  have hasc : sorted.Pairwise fun a b => a.1 < b.1 := by
    have hle : sorted.Pairwise fun a b => decide (a.1 ≤ b.1) = true :=
      List.pairwise_mergeSort (fun a b c hab hbc => by simp_all; omega)
        (fun a b => by simp; omega) snapshots
    have hne : sorted.Pairwise fun a b => a.1 ≠ b.1 :=
      List.pairwise_map.mp ((hpe.map Prod.fst).nodup_iff.mpr (hkeys ▸ hno))
    exact (hle.and hne).imp fun hab => lt_of_le_of_ne (of_decide_eq_true hab.1) hab.2
  have hcount (n : Nat) : (sorted.countP fun p => decide (n < p.1)) =
      ids.countP fun other => decide (n < other.index) := by
    rw [hpe.countP_eq, List.countP_map]
    rfl
  refine ⟨(sorted.take (ids.length - retainCount)).map Prod.snd, ?_, fun name => ?_⟩
  · unfold cleanupSnapshot
    rw [collectSnapshots_of_parsed h]
    dsimp only
    rw [List.length_map]
    split_ifs with hle
    · rw [Nat.sub_eq_zero_of_le hle]
      rfl
    · rfl
  · have hmem (p : Nat × FileName) (hp : p ∈ sorted) :
        p ∈ sorted.take (ids.length - retainCount) ↔
          retainCount ≤ ids.countP fun other => decide (p.1 < other.index) := by
      have hlen : sorted.length = ids.length := by rw [hpe.length_eq, List.length_map]
      have hlt := countP_lt_length (f := Prod.fst) hp
      rw [mem_take_iff_le_countP hasc hp, hlen]
      rw [hcount, hlen] at hlt
      rw [hcount]
      omega
    rw [List.mem_map]
    constructor
    · rintro ⟨p, hp, rfl⟩
      have hin := List.mem_of_mem_take hp
      have hco := (hmem p hin).mp hp
      obtain ⟨id, hid, rfl⟩ := List.mem_map.mp (hpe.mem_iff.mp hin)
      exact ⟨id, hid, rfl, hco⟩
    · rintro ⟨id, hid, rfl, hco⟩
      have hin := hpe.mem_iff.mpr (List.mem_map_of_mem (f := fun id : LogId =>
        (id.index, finalSnapshotName pre id)) hid)
      exact ⟨_, (hmem _ hin).mpr hco, rfl⟩

/-! ## Names that are read back -/

/-- What follows the ninth byte of the prefix does not change a number that it precedes. -/
def ReadsBack (snapshotPrefix : FileName) : Prop :=
  ∃ tail zeros, sliceFrom 9 snapshotPrefix = some tail ∧
    (tail = List.replicate zeros '0' ∨ tail = '+' :: List.replicate zeros '0')

theorem sliceFrom_append {n : Nat} {text tail : FileName} (h : sliceFrom n text = some tail)
    (more : FileName) : sliceFrom n (text ++ more) = some (tail ++ more) := by
  induction text generalizing n with
  | nil =>
    unfold sliceFrom at h
    split_ifs at h with hn
    cases h
    subst hn
    cases more <;> rfl
  | cons c rest ih =>
    rw [List.cons_append]
    unfold sliceFrom at h ⊢
    split_ifs at h ⊢ with hn hc
    · cases h
      rfl
    · exact ih h

theorem isDigit_of_parseU64 {text : FileName} {n : Nat} (h : parseU64 text = some n) :
    ∀ c ∈ text.tail, c.isDigit = true := by
  unfold parseU64 at h
  dsimp only at h
  split_ifs at h with hsign hdig hdig
  · exact List.all_eq_true.mp hdig.2.1
  · exact fun c hc => List.all_eq_true.mp hdig.2.1 c (List.mem_of_mem_tail hc)

theorem isDigit_toDigits {n : Nat} : ∀ c ∈ Nat.toDigits 10 n, c.isDigit = true :=
  fun _ => Nat.isDigit_of_mem_toDigits (by decide) (by decide)

theorem parseU64_of_digits {digits : FileName} (hne : digits ≠ [])
    (hall : ∀ c ∈ digits, c.isDigit = true) (hle : Nat.ofDigitChars 10 digits 0 ≤ u64Max) :
    parseU64 digits = some (Nat.ofDigitChars 10 digits 0) ∧
      parseU64 ('+' :: digits) = some (Nat.ofDigitChars 10 digits 0) := by
  have hsign : digits.head? ≠ some '+' := fun hhe =>
    absurd (hall '+' (List.mem_of_head? hhe)) (by decide)
  have hco : digits ≠ [] ∧ digits.all Char.isDigit ∧ Nat.ofDigitChars 10 digits 0 ≤ u64Max :=
    ⟨hne, List.all_eq_true.mpr hall, hle⟩
  constructor
  · simp only [parseU64, if_neg hsign, if_pos hco]
  · simp only [parseU64, List.head?_cons, if_true, List.tail_cons, if_pos hco]

theorem parseCore_eq {before : FileName} (hno : '-' ∉ before) (after : FileName) :
    parseCore (before ++ '-' :: after) =
      (parseU64 before).bind fun index => (parseU64 after).bind fun term => some (index, term) := by
  have hall : ∀ c ∈ before, decide (c ≠ '-') = true := fun c hc =>
    decide_eq_true fun heq => hno (heq ▸ hc)
  unfold parseCore
  rw [List.dropWhile_append_of_pos hall, List.takeWhile_append_of_pos hall]
  simp

theorem parseSnapshotDirname_of_slice {tail : FileName} (h : sliceFrom 9 pre = some tail)
    (more : FileName) :
    parseSnapshotDirname (pre ++ more) pre = .ok (parseCore (tail ++ more)) := by
  unfold parseSnapshotDirname
  rw [if_neg (not_not.mpr (List.prefix_append pre more)), sliceFrom_append h]

theorem parseArchive_final (pre : FileName) (id : LogId) :
    parseArchive (finalSnapshotName pre id) pre =
      match parseSnapshotDirname (pre ++ (snapshotStem id ++ archiveSuffix)) pre with
      | .error fault => .error fault
      | .ok (some pair) => .ok (some pair)
      | .ok none => parseSnapshotDirname (pre ++ (snapshotStem id ++ [])) pre := by
  have hsuf : archiveSuffix <:+ finalSnapshotName pre id :=
    ⟨pre ++ snapshotStem id, by simp [finalSnapshotName]⟩
  have hta : (finalSnapshotName pre id).take
      ((finalSnapshotName pre id).length - archiveSuffix.length) =
        pre ++ (snapshotStem id ++ []) := by
    rw [finalSnapshotName, ← List.append_assoc, List.append_nil, List.length_append,
      Nat.add_sub_cancel, List.take_left]
  unfold parseArchive
  rw [if_pos hsuf, hta]
  rfl

theorem ofDigitChars_padded (zeros n : Nat) :
    Nat.ofDigitChars 10 (List.replicate zeros '0' ++ Nat.toDigits 10 n) 0 = n := by
  have hze : Nat.ofDigitChars 10 (List.replicate zeros '0') 0 = 0 := by
    induction zeros with
    | zero => rfl
    | succ zeros ih => exact ih
  rw [Nat.ofDigitChars_append, hze, Nat.ofDigitChars_toDigits (by decide) (by decide)]

/-- Zeros and a plus sign before a number are read over. -/
theorem parseU64_padded {tail : FileName} {zeros n : Nat}
    (htail : tail = List.replicate zeros '0' ∨ tail = '+' :: List.replicate zeros '0')
    (hn : n ≤ u64Max) : parseU64 (tail ++ Nat.toDigits 10 n) = some n := by
  have hdig := parseU64_of_digits
    (List.append_ne_nil_of_right_ne_nil (List.replicate zeros '0') (Nat.toDigits_ne_nil (n := n)))
    (fun c hc => (List.mem_append.mp hc).elim
      (fun hze => List.eq_of_mem_replicate hze ▸ rfl) (isDigit_toDigits c))
    (by rwa [ofDigitChars_padded])
  rw [ofDigitChars_padded] at hdig
  rcases htail with rfl | rfl
  · exact hdig.1
  · exact hdig.2

theorem parseArchive_of_readsBack (h : ReadsBack pre) {id : LogId} (hin : id.index ≤ u64Max)
    (hte : id.term ≤ u64Max) :
    parseArchive (finalSnapshotName pre id) pre = .ok (some (id.index, id.term)) := by
  obtain ⟨tail, zeros, hsl, htail⟩ := h
  have hno : '-' ∉ tail ++ Nat.toDigits 10 id.index := by
    rw [List.mem_append]
    rintro (hmem | hmem)
    · rcases htail with rfl | rfl <;> simp at hmem
    · exact absurd (isDigit_toDigits _ hmem) (by decide)
  have hcore (more : FileName) : parseCore (tail ++ (snapshotStem id ++ more)) =
      (parseU64 (Nat.toDigits 10 id.term ++ more)).bind fun term => some (id.index, term) := by
    have hsplit : tail ++ (snapshotStem id ++ more) = (tail ++ Nat.toDigits 10 id.index) ++
        '-' :: (Nat.toDigits 10 id.term ++ more) := by simp [snapshotStem]
    rw [hsplit, parseCore_eq hno, parseU64_padded htail hin, Option.bind_some]
  have hfull : parseU64 (Nat.toDigits 10 id.term ++ archiveSuffix) = none := by
    rw [Option.eq_none_iff_forall_ne_some]
    intro n hn
    have hdot : '.' ∈ (Nat.toDigits 10 id.term ++ archiveSuffix).tail := by
      rw [List.tail_append_of_ne_nil Nat.toDigits_ne_nil]
      exact List.mem_append_right _ (by decide)
    exact absurd (isDigit_of_parseU64 hn _ hdot) (by decide)
  have hterm : parseU64 (Nat.toDigits 10 id.term ++ []) = some id.term := by
    rw [List.append_nil]
    exact parseU64_padded (.inl (List.replicate_zero).symm) hte
  rw [parseArchive_final, parseSnapshotDirname_of_slice hsl, hcore, hfull]
  dsimp only [Option.bind_none]
  rw [parseSnapshotDirname_of_slice hsl, hcore, hterm]
  rfl

/-! ## Other prefixes -/

theorem collectSnapshots_nil {names : List FileName} {found : List (Nat × FileName)}
    (hno : ∀ name ∈ names, ∀ pair, parseArchive name pre ≠ .ok (some pair))
    (h : collectSnapshots pre names = .ok found) : found = [] := by
  induction names generalizing found with
  | nil =>
    cases h
    rfl
  | cons name rest ih =>
    obtain ⟨hfi, hre⟩ := List.forall_mem_cons.mp hno
    unfold collectSnapshots at h
    split_ifs at h
    · split at h <;> cases h
      · rename_i hla
        exact ih hre hla
      · rename_i hpa _
        exact absurd hpa (hfi _)
    · exact ih hre h

/-- Two archives whose names are not read are both kept. -/
theorem not_retainsNewest (id id' : LogId) (hlt : id.index < id'.index)
    (h : ∀ x ∈ [id, id'], ∀ more ∈ [archiveSuffix, []],
      (sliceFrom 9 (pre ++ (snapshotStem x ++ more))).bind parseCore = none) :
    ¬ RetainsNewest pre 1 [id, id'] := by
  rintro ⟨deleted, hok, hiff⟩
  have hslice {name : FileName} {pair : Nat × Nat}
      (hpa : parseSnapshotDirname name pre = .ok (some pair)) :
      (sliceFrom 9 name).bind parseCore = some pair := by
    unfold parseSnapshotDirname at hpa
    cases hsl : sliceFrom 9 name with
    | none =>
      rw [hsl] at hpa
      split_ifs at hpa
      cases hpa
    | some core =>
      rw [hsl] at hpa
      split_ifs at hpa
      · exact Except.ok.inj hpa
      · cases hpa
  have hno : ∀ name ∈ [id, id'].map (finalSnapshotName pre), ∀ pair,
      parseArchive name pre ≠ .ok (some pair) := by
    rw [List.forall_mem_map]
    intro x hx pair hpa
    rw [parseArchive_final] at hpa
    split at hpa
    · cases hpa
    · rename_i hfull
      cases (h x hx _ List.mem_cons_self).symm.trans (hslice hfull)
    · cases (h x hx _ (List.mem_cons_of_mem _ List.mem_cons_self)).symm.trans (hslice hpa)
  have hnil : deleted = [] := by
    unfold cleanupSnapshot at hok
    split at hok
    · cases hok
    · rename_i found hfo
      rw [collectSnapshots_nil hno hfo] at hok
      cases hok
      rfl
  have hin := (hiff (finalSnapshotName pre id)).mpr
    ⟨id, List.mem_cons_self, rfl, by simp [hlt]⟩
  rw [hnil] at hin
  cases hin

/-- A slice ends in the text, or at no boundary of it, or goes on behind it. -/
theorem sliceFrom_cases (n : Nat) (text : FileName) :
    (∃ tail, sliceFrom n text = some tail) ∨ (∀ more, sliceFrom n (text ++ more) = none) ∨
      ∃ m, 1 ≤ m ∧ m ≤ n ∧ ∀ more, sliceFrom n (text ++ more) = sliceFrom m more := by
  induction text generalizing n with
  | nil =>
    rcases Nat.eq_zero_or_pos n with rfl | hpos
    · exact .inl ⟨[], rfl⟩
    · exact .inr (.inr ⟨n, hpos, le_rfl, fun _ => rfl⟩)
  | cons c rest ih =>
    simp only [List.cons_append, sliceFrom]
    split_ifs with hn hc
    · exact .inl ⟨_, rfl⟩
    · rcases ih (n - c.utf8Size) with hin | hno | ⟨m, hpos, hle, heq⟩
      · exact .inl hin
      · exact .inr (.inl hno)
      · exact .inr (.inr ⟨m, hpos, hle.trans (Nat.sub_le _ _), heq⟩)
    · exact .inr (.inl fun _ => rfl)

theorem eq_zero_of_ofDigitChars {digits : FileName} (hall : ∀ c ∈ digits, c.isDigit = true)
    (h : Nat.ofDigitChars 10 digits 0 = 0) : ∀ c ∈ digits, c = '0' := by
  induction digits with
  | nil => exact fun c hc => absurd hc List.not_mem_nil
  | cons c rest ih =>
    obtain ⟨hc, hre⟩ := List.forall_mem_cons.mp hall
    rw [Nat.ofDigitChars_cons, Nat.ofDigitChars_eq_ofDigitChars_zero, Nat.add_eq_zero_iff] at h
    refine List.forall_mem_cons.mpr ⟨?_, ih hre h.2⟩
    have hval : c.toNat - '0'.toNat = 0 := by simpa using h.1
    have hge := (Char.isDigit_iff_toNat.mp hc).1
    exact Char.toNat_inj.mp (by omega)

/-- Before a number of twenty digits only zeros and a plus sign leave room in 64 bits. -/
theorem padding_of_parseU64 {tail digits : FileName} {n : Nat} (hlen : digits.length = 20)
    (h : parseU64 (tail ++ digits) = some n) :
    ∃ zeros, tail = List.replicate zeros '0' ∨ tail = '+' :: List.replicate zeros '0' := by
  have hzeros {text : FileName} (hall : (text ++ digits).all Char.isDigit = true)
      (hle : Nat.ofDigitChars 10 (text ++ digits) 0 ≤ u64Max) :
      text = List.replicate text.length '0' := by
    rw [Nat.ofDigitChars_append, Nat.ofDigitChars_eq_ofDigitChars_zero, hlen] at hle
    refine List.eq_replicate_of_mem (eq_zero_of_ofDigitChars (fun c hc =>
      List.all_eq_true.mp hall c (List.mem_append_left _ hc)) ?_)
    simp only [u64Max] at hle
    omega
  cases tail with
  | nil => exact ⟨0, .inl rfl⟩
  | cons c rest =>
    unfold parseU64 at h
    simp only [List.cons_append, List.head?_cons, List.tail_cons, Option.some.injEq] at h
    split_ifs at h with hsign hdig hdig
    · rw [hsign, hzeros hdig.2.1 hdig.2.2]
      exact ⟨_, .inr rfl⟩
    · exact ⟨_, .inl (hzeros hdig.2.1 hdig.2.2)⟩

theorem padding_of_parseCore {tail more : FileName} {id : LogId} {pair : Nat × Nat}
    (hlen : (Nat.toDigits 10 id.index).length = 20)
    (h : parseCore (tail ++ (snapshotStem id ++ more)) = some pair) :
    ∃ zeros, tail = List.replicate zeros '0' ∨ tail = '+' :: List.replicate zeros '0' := by
  have hsplit (text : FileName) : text ++ (snapshotStem id ++ more) =
      (text ++ Nat.toDigits 10 id.index) ++ '-' :: (Nat.toDigits 10 id.term ++ more) := by
    simp [snapshotStem]
  by_cases hda : '-' ∈ tail
  · -- the number behind the first dash has the dash of the name in it
    obtain ⟨before, after, rfl, hno⟩ := List.eq_append_cons_of_mem hda
    rw [List.append_assoc, List.cons_append, parseCore_eq hno] at h
    obtain ⟨_, -, hse⟩ := Option.bind_eq_some_iff.mp h
    obtain ⟨n, hn, -⟩ := Option.bind_eq_some_iff.mp hse
    have hin : '-' ∈ (after ++ (snapshotStem id ++ more)).tail := by
      rw [hsplit, List.tail_append_of_ne_nil
        (List.append_ne_nil_of_right_ne_nil _ Nat.toDigits_ne_nil)]
      exact List.mem_append_right _ List.mem_cons_self
    exact absurd (isDigit_of_parseU64 hn _ hin) (by decide)
  · have hno : '-' ∉ tail ++ Nat.toDigits 10 id.index := fun hmem =>
      (List.mem_append.mp hmem).elim hda fun hdig =>
        absurd (isDigit_toDigits _ hdig) (by decide)
    rw [hsplit, parseCore_eq hno] at h
    obtain ⟨n, hn, -⟩ := Option.bind_eq_some_iff.mp h
    exact padding_of_parseU64 hlen hn

/-- For every number of archives to keep and every set of archives with distinct indexes exactly
the newest are kept, if and only if the prefix takes nine bytes, up to zeros and a plus sign. -/
theorem retention_exact_iff (snapshotPrefix : FileName) :
    (∀ retainCount ids, 1 ≤ retainCount → (ids.map LogId.index).Nodup →
      (∀ id ∈ ids, id.index ≤ u64Max ∧ id.term ≤ u64Max) →
      RetainsNewest snapshotPrefix retainCount ids) ↔ ReadsBack snapshotPrefix := by
  constructor
  · intro hall
    rcases sliceFrom_cases 9 snapshotPrefix with ⟨tail, hsl⟩ | hno | ⟨m, hpos, hle, heq⟩
    · by_contra hpad
      refine not_retainsNewest ⟨1, u64Max - 1⟩ ⟨1, u64Max⟩ (by decide) ?_
        (hall 1 _ le_rfl (by decide) (by decide))
      intro x hx more _
      rw [sliceFrom_append hsl, Option.bind_some, Option.eq_none_iff_forall_ne_some]
      intro pair hpa
      have hlen : (Nat.toDigits 10 x.index).length = 20 := by
        rcases List.mem_pair.mp hx with rfl | rfl <;> decide +kernel
      obtain ⟨zeros, htail⟩ := padding_of_parseCore hlen hpa
      exact hpad ⟨tail, zeros, hsl, htail⟩
    · refine absurd (hall 1 _ le_rfl (by decide) (by decide))
        (not_retainsNewest ⟨1, 1⟩ ⟨1, 2⟩ (by decide) fun x _ more _ => ?_)
      rw [hno]
      rfl
    · refine absurd (hall 1 _ le_rfl (by decide) (by decide))
        (not_retainsNewest ⟨1, 1⟩ ⟨1, 2⟩ (by decide) fun x hx more hmo => ?_)
      have hshort : ∀ m ∈ List.range' 1 9, ∀ x ∈ [(⟨1, 1⟩ : LogId), ⟨1, 2⟩],
          ∀ more ∈ [archiveSuffix, []],
          (sliceFrom m (snapshotStem x ++ more)).bind parseCore = none := by decide +kernel
      rw [heq]
      exact hshort m (List.mem_range'_1.mpr (by omega)) x hx more hmo
  · intro h retainCount ids _ hno hle
    exact retainsNewest_of_parsed hno retainCount fun id hid =>
      parseArchive_of_readsBack h (hle id hid).1 (hle id hid).2

/-- With the prefix `snapshots-` no name is read, and with `snap-` the slice panics. -/
theorem retention_of_other_prefixes :
    cleanupSnapshot 1 ([⟨1, 1⟩, ⟨1, 2⟩].map (finalSnapshotName "snapshots-".toList))
        "snapshots-".toList = .ok [] ∧
      cleanupSnapshot 1 ([⟨1, 1⟩, ⟨1, 2⟩].map (finalSnapshotName "snap-".toList))
        "snap-".toList = .error (.panic "byte index 9 is out of bounds or no char boundary") := by
  decide +kernel

end DEngine.Apply

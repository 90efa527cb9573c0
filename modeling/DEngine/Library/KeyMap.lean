import Mathlib.Data.List.Sort
import Mathlib.Tactic.Linarith

/-!
# Key-value maps and writes

A key-value map is the extensional tree map of the standard library over any ordered
key type. A write sets a key or deletes it. An overlay collects writes in front of a
map, the last one for each key, and is read through to what lies behind it.

The second part runs commands that decide by what they read and then write. Run one
after the other on a map, or against an overlay whose writes are made later, they
decide alike and leave the same map.
-/

namespace DEngine.Library

open Std (ExtTreeMap TransOrd LawfulEqOrd)

/-- A map from the keys of an ordered type. -/
abbrev KeyMap (K V : Type) [Ord K] := ExtTreeMap K V compare

/-- A write to a key: a new value, or a deletion. -/
abbrev Write (K V : Type) := K × Option V

/-- The last write to each key. -/
abbrev Overlay (K V : Type) [Ord K] := KeyMap K (Option V)

namespace KeyMap

variable {K V : Type} [Ord K] [TransOrd K] [LawfulEqOrd K] [DecidableEq K]

theorem getElem?_insert_eq (m : KeyMap K V) (k : K) (v : V) (j : K) :
    (m.insert k v)[j]? = if k = j then some v else m[j]? := by
  rw [ExtTreeMap.getElem?_insert]
  simp only [Std.compare_eq_iff_eq]

theorem getElem?_erase_eq (m : KeyMap K V) (k j : K) :
    (m.erase k)[j]? = if k = j then none else m[j]? := by
  rw [ExtTreeMap.getElem?_erase]
  simp only [Std.compare_eq_iff_eq]

/-! ## Writes -/

def write (m : KeyMap K V) (w : Write K V) : KeyMap K V :=
  match w.2 with
  | some v => m.insert w.1 v
  | none => m.erase w.1

def writeAll (m : KeyMap K V) (ws : List (Write K V)) : KeyMap K V := ws.foldl write m

theorem getElem?_write (m : KeyMap K V) (w : Write K V) (k : K) :
    (m.write w)[k]? = if w.1 = k then w.2 else m[k]? := by
  obtain ⟨j, v⟩ := w
  cases v with
  | none => exact getElem?_erase_eq m j k
  | some v => exact getElem?_insert_eq m j v k

omit [LawfulEqOrd K] [DecidableEq K] in
theorem writeAll_append (m : KeyMap K V) (a b : List (Write K V)) :
    m.writeAll (a ++ b) = (m.writeAll a).writeAll b :=
  List.foldl_append

/-- A key that no write names keeps its value. -/
theorem getElem?_writeAll_of_not_mem (m : KeyMap K V) {ws : List (Write K V)} {k : K}
    (h : ∀ w ∈ ws, w.1 ≠ k) : (m.writeAll ws)[k]? = m[k]? := by
  induction ws generalizing m with
  | nil => rfl
  | cons w rest ih =>
    change ((m.write w).writeAll rest)[k]? = _
    rw [ih (m.write w) fun x hx => h x (List.mem_cons_of_mem w hx), getElem?_write,
      if_neg (h w List.mem_cons_self)]

/-- What a list of deletions leaves. -/
theorem getElem?_writeAll_none (m : KeyMap K V) (keys : List K) (k : K) :
    (m.writeAll (keys.map fun j => (j, none)))[k]? = if k ∈ keys then none else m[k]? := by
  induction keys generalizing m with
  | nil => rfl
  | cons j rest ih =>
    change ((m.write (j, none)).writeAll (rest.map fun j => (j, none)))[k]? = _
    rw [ih, getElem?_write]
    by_cases hre : k ∈ rest
    · rw [if_pos hre, if_pos (List.mem_cons_of_mem j hre)]
    · by_cases hj : j = k
      · rw [if_neg hre, if_pos hj, if_pos (hj ▸ List.mem_cons_self)]
      · have hco : k ∉ j :: rest := by simp [hre, Ne.symm hj]
        rw [if_neg hre, if_neg hj, if_neg hco]

/-! ## Values -/

variable {W : Type}

/-- Change every value in the same way. -/
def mapValues (f : V → W) (m : KeyMap K V) : KeyMap K W := m.map fun _ v => f v

omit [DecidableEq K] in
theorem getElem?_mapValues (f : V → W) (m : KeyMap K V) (k : K) :
    (m.mapValues f)[k]? = m[k]?.map f :=
  ExtTreeMap.getElem?_map

theorem mapValues_write (f : V → W) (m : KeyMap K V) (w : Write K V) :
    (m.write w).mapValues f = (m.mapValues f).write (w.1, w.2.map f) := by
  apply ExtTreeMap.ext_getElem?
  intro k
  rw [getElem?_mapValues, getElem?_write, getElem?_write, getElem?_mapValues]
  split_ifs <;> rfl

theorem mapValues_writeAll (f : V → W) (m : KeyMap K V) (ws : List (Write K V)) :
    (m.writeAll ws).mapValues f = (m.mapValues f).writeAll (ws.map fun w => (w.1, w.2.map f)) := by
  induction ws generalizing m with
  | nil => rfl
  | cons w rest ih =>
    change ((m.write w).writeAll rest).mapValues f = _
    rw [ih, mapValues_write]
    rfl

end KeyMap

/-! ## Overlays -/

namespace Overlay

variable {K V : Type} [Ord K] [TransOrd K] [LawfulEqOrd K] [DecidableEq K]

/-- Read a key through an overlay. -/
def get (o : Overlay K V) (base : K → Option V) (k : K) : Option V := (o[k]?).getD (base k)

def put (o : Overlay K V) (w : Write K V) : Overlay K V := o.insert w.1 w.2

def putAll (o : Overlay K V) (ws : List (Write K V)) : Overlay K V := ws.foldl put o

/-- Make the writes of an overlay. -/
def commit (o : Overlay K V) (m : KeyMap K V) : KeyMap K V := m.writeAll o.toList

theorem get_put (o : Overlay K V) (base : K → Option V) (w : Write K V) (k : K) :
    (o.put w).get base k = if w.1 = k then w.2 else o.get base k := by
  unfold get put
  rw [KeyMap.getElem?_insert_eq]
  split_ifs <;> rfl

/-- An overlay and a map that agree at a key still do behind the same writes. -/
theorem get_putAll {o : Overlay K V} {base : K → Option V} {m : KeyMap K V} {k : K}
    (h : o.get base k = m[k]?) (ws : List (Write K V)) :
    (o.putAll ws).get base k = (m.writeAll ws)[k]? := by
  induction ws generalizing o m with
  | nil => exact h
  | cons w rest ih =>
    apply ih
    rw [get_put, KeyMap.getElem?_write, h]

theorem getElem?_putAll_of_not_mem (o : Overlay K V) {ws : List (Write K V)} {k : K}
    (h : ∀ w ∈ ws, w.1 ≠ k) : (o.putAll ws)[k]? = o[k]? := by
  induction ws generalizing o with
  | nil => rfl
  | cons w rest ih =>
    refine (ih (o.put w) fun x hx => h x (List.mem_cons_of_mem w hx)).trans ?_
    exact (KeyMap.getElem?_insert_eq o w.1 w.2 k).trans (if_neg (h w List.mem_cons_self))

theorem getElem?_commit (o : Overlay K V) (m : KeyMap K V) (k : K) :
    (o.commit m)[k]? = o.get (fun j => m[j]?) k := by
  have hmem : ∀ w : Write K V, w ∈ o.toList ↔ o[w.1]? = some w.2 := fun w =>
    ExtTreeMap.mem_toList_iff_getElem?_eq_some
  unfold commit get
  cases hk : o[k]? with
  | none =>
    refine KeyMap.getElem?_writeAll_of_not_mem m fun w hw hkey => ?_
    cases hk.symm.trans (hkey ▸ (hmem w).mp hw)
  | some v =>
    obtain ⟨front, back, hsp⟩ := List.append_of_mem ((hmem (k, v)).mpr hk)
    have hba : ∀ w ∈ back, w.1 ≠ k := by
      intro w hw hkey
      have hdi : (front ++ (k, v) :: back).Pairwise fun a b => ¬compare a.1 b.1 = .eq :=
        hsp ▸ ExtTreeMap.distinct_keys_toList
      refine (List.pairwise_cons.mp (List.pairwise_append.mp hdi).2.1).1 w hw ?_
      exact Std.compare_eq_iff_eq.mpr hkey.symm
    rw [hsp, KeyMap.writeAll_append]
    change (((m.writeAll front).write (k, v)).writeAll back)[k]? = v
    rw [KeyMap.getElem?_writeAll_of_not_mem _ hba, KeyMap.getElem?_write, if_pos rfl]

end Overlay

/-! ## Commands that decide and write -/

section Commands

variable {K V C : Type} [Ord K] [TransOrd K] [LawfulEqOrd K] [DecidableEq K]

/-- Run commands one after the other: each one decides by the current values and writes what
belongs to its decision. -/
def serial (check : C → (K → Option V) → Bool) (writes : C → Bool → List (Write K V)) :
    KeyMap K V → List C → List Bool × KeyMap K V
  | m, [] => ([], m)
  | m, c :: rest =>
    let outcome := check c fun k => m[k]?
    let later := serial check writes (m.writeAll (writes c outcome)) rest
    (outcome :: later.1, later.2)

/-- Run commands against an overlay in front of the values that are there. -/
def deferred (check : C → (K → Option V) → Bool) (writes : C → Bool → List (Write K V))
    (base : K → Option V) : Overlay K V → List C → List Bool × Overlay K V
  | o, [] => ([], o)
  | o, c :: rest =>
    let outcome := check c (o.get base)
    let later := deferred check writes base (o.putAll (writes c outcome)) rest
    (outcome :: later.1, later.2)

variable {check : C → (K → Option V) → Bool} {writes : C → Bool → List (Write K V)}

omit [LawfulEqOrd K] [DecidableEq K] in
theorem serial_append (m : KeyMap K V) (a b : List C) :
    serial check writes m (a ++ b) =
      ((serial check writes m a).1 ++ (serial check writes (serial check writes m a).2 b).1,
        (serial check writes (serial check writes m a).2 b).2) := by
  induction a generalizing m with
  | nil => rfl
  | cons c rest ih =>
    rw [List.cons_append, serial, ih]
    rfl

omit [LawfulEqOrd K] [DecidableEq K] in
theorem length_serial (m : KeyMap K V) (cs : List C) :
    (serial check writes m cs).1.length = cs.length := by
  induction cs generalizing m with
  | nil => rfl
  | cons c rest ih =>
    rw [serial, List.length_cons, ih, List.length_cons]

theorem getElem?_deferred_of_not_mem {base : K → Option V} {cs : List C} {k : K}
    (h : ∀ c ∈ cs, ∀ outcome, ∀ w ∈ writes c outcome, w.1 ≠ k) (o : Overlay K V) :
    (deferred check writes base o cs).2[k]? = o[k]? := by
  induction cs generalizing o with
  | nil => rfl
  | cons c rest ih =>
    refine (ih (fun d hd => h d (List.mem_cons_of_mem c hd)) _).trans ?_
    exact Overlay.getElem?_putAll_of_not_mem o (h c List.mem_cons_self _)

/-- The decisions are those of the serial run if the overlay agrees with the map on every key that
a command reads. -/
theorem deferred_outcomes (reads : C → List K)
    (hlo : ∀ c f g, (∀ k ∈ reads c, f k = g k) → check c f = check c g)
    {base : K → Option V} {o : Overlay K V} {m : KeyMap K V} {cs : List C}
    (h : ∀ c ∈ cs, ∀ k ∈ reads c, o.get base k = m[k]?) :
    (deferred check writes base o cs).1 = (serial check writes m cs).1 := by
  induction cs generalizing o m with
  | nil => rfl
  | cons c rest ih =>
    have hch : check c (o.get base) = check c fun k => m[k]? :=
      hlo c _ _ (h c List.mem_cons_self)
    have hre := ih (o := o.putAll (writes c (check c fun k => m[k]?)))
      (m := m.writeAll (writes c (check c fun k => m[k]?))) fun d hd k hk =>
        Overlay.get_putAll (h d (List.mem_cons_of_mem c hd) k hk) _
    rw [deferred, serial, hch]
    exact congrArg (List.cons _) hre

/-- The overlay then stands for the map of the serial run. -/
theorem deferred_get {base : K → Option V} {o : Overlay K V} {m : KeyMap K V}
    (hlo : ∀ c f g, (∀ k, f k = g k) → check c f = check c g)
    (h : ∀ k, o.get base k = m[k]?) (cs : List C) (k : K) :
    (deferred check writes base o cs).2.get base k = (serial check writes m cs).2[k]? := by
  induction cs generalizing o m with
  | nil => exact h k
  | cons c rest ih =>
    have hch : check c (o.get base) = check c fun k => m[k]? := hlo c _ _ h
    rw [deferred, serial, hch]
    exact ih fun j => Overlay.get_putAll (h j) _

omit [LawfulEqOrd K] [DecidableEq K] in
/-- The map of a serial run comes from the writes that belong to its decisions. -/
theorem serial_writes (m : KeyMap K V) (cs : List C) :
    (serial check writes m cs).2 =
      m.writeAll ((cs.zip (serial check writes m cs).1).flatMap fun p => writes p.1 p.2) := by
  induction cs generalizing m with
  | nil => rfl
  | cons c rest ih =>
    rw [serial, List.zip_cons_cons, List.flatMap_cons, KeyMap.writeAll_append]
    exact ih _

/-- Commands that see and write values only through a change of them run alike on the changed
values. -/
theorem serial_mapValues {W : Type} {f : V → W} {check' : C → (K → Option W) → Bool}
    {writes' : C → Bool → List (Write K W)}
    (hch : ∀ c (g : K → Option V), check' c (fun k => (g k).map f) = check c g)
    (hwr : ∀ c outcome, writes' c outcome = (writes c outcome).map fun w => (w.1, w.2.map f))
    (m : KeyMap K V) (cs : List C) :
    serial check' writes' (m.mapValues f) cs =
      ((serial check writes m cs).1, (serial check writes m cs).2.mapValues f) := by
  induction cs generalizing m with
  | nil => rfl
  | cons c rest ih =>
    have hout : check' c (fun k => (m.mapValues f)[k]?) = check c fun k => m[k]? := by
      simp only [KeyMap.getElem?_mapValues]
      exact hch c _
    rw [serial, serial, hout, hwr, ← KeyMap.mapValues_writeAll, ih]

end Commands

end DEngine.Library

import Mathlib.Data.List.Basic
import Mathlib.Tactic.Ring

/-!
# Length-prefixed frames

A sequence of byte strings is written down as frames, each with a length field of a
fixed width in front of it. A scan reads the frames back, with the position where each
of them ends; a frame that is not complete ends the scan.
-/

namespace DEngine.Library.Framing

/-! ## Length fields -/

/-- The lowest bytes of a number, the most significant one first. -/
def toBigEndian : Nat → Nat → List UInt8
  | 0, _ => []
  | width + 1, n => UInt8.ofNat (n / 256 ^ width) :: toBigEndian width n

def ofBigEndian (bytes : List UInt8) : Nat := bytes.foldl (fun acc b => acc * 256 + b.toNat) 0

@[simp] theorem length_toBigEndian (width n : Nat) : (toBigEndian width n).length = width := by
  induction width with
  | zero => rfl
  | succ width ih => rw [toBigEndian, List.length_cons, ih]

theorem foldl_toBigEndian (width n acc : Nat) :
    (toBigEndian width n).foldl (fun acc b => acc * 256 + b.toNat) acc =
      acc * 256 ^ width + n % 256 ^ width := by
  induction width generalizing acc with
  | zero => simp [toBigEndian, Nat.mod_one]
  | succ width ih =>
    have hsp : n % 256 ^ (width + 1) =
        n % 256 ^ width + 256 ^ width * (n / 256 ^ width % 256) := by
      rw [pow_succ]
      exact Nat.mod_mul
    rw [toBigEndian, List.foldl_cons, ih, hsp, UInt8.toNat_ofNat']
    ring

variable {n : Nat}

/-- A number that fits into the field is read back. -/
theorem ofBigEndian_toBigEndian {width : Nat} (h : n < 256 ^ width) :
    ofBigEndian (toBigEndian width n) = n := by
  rw [ofBigEndian, foldl_toBigEndian, Nat.mod_eq_of_lt h, Nat.zero_mul, Nat.zero_add]

/-! ## Frames -/

variable {width limit : Nat}

def frame (width : Nat) (payload : List UInt8) : List UInt8 :=
  toBigEndian width payload.length ++ payload

/-- Read a number from the front. -/
def takeNumber (width : Nat) (bytes : List UInt8) : Option (Nat × List UInt8) :=
  if bytes.length < width then none
  else some (ofBigEndian (bytes.take width), bytes.drop width)

/-- Read a frame from the front. -/
def takeFrame (width : Nat) (bytes : List UInt8) : Option (List UInt8 × List UInt8) :=
  match takeNumber width bytes with
  | none => none
  | some (size, rest) =>
    if rest.length < size then none else some (rest.take size, rest.drop size)

theorem takeNumber_append (h : n < 256 ^ width) (rest : List UInt8) :
    takeNumber width (toBigEndian width n ++ rest) = some (n, rest) := by
  have hlen := length_toBigEndian width n
  unfold takeNumber
  rw [if_neg (by simp), List.take_left' hlen, List.drop_left' hlen,
    ofBigEndian_toBigEndian h]

variable {payload : List UInt8}

theorem takeFrame_append (h : payload.length < 256 ^ width)
    (rest : List UInt8) : takeFrame width (frame width payload ++ rest) = some (payload, rest) := by
  unfold takeFrame frame
  rw [List.append_assoc, takeNumber_append h]
  simp

/-- The frames of a sequence of byte strings. -/
def frames (width : Nat) (payloads : List (List UInt8)) : List UInt8 :=
  payloads.flatMap (frame width)

/-- The byte strings, each with the position where its frame ends. -/
def stops (width : Nat) : Nat → List (List UInt8) → List (Nat × List UInt8)
  | _, [] => []
  | pos, payload :: rest =>
    (pos + (width + payload.length), payload) :: stops width (pos + (width + payload.length)) rest

/-- Read frames as long as they are complete. A frame whose end exceeds the limit cannot be
addressed. -/
def scan (width limit : Nat) : Nat → Nat → List UInt8 → Option (List (Nat × List UInt8))
  | 0, _, _ => some []
  | fuel + 1, pos, bytes =>
    if bytes.length < width then some []
    else
      let size := width + ofBigEndian (bytes.take width)
      if limit < pos + size then none
      else if bytes.length < size then some []
      else
        (scan width limit fuel (pos + size) (bytes.drop size)).map
          ((pos + size, (bytes.take size).drop width) :: ·)

@[simp] theorem length_frame (payload : List UInt8) :
    (frame width payload).length = width + payload.length := by
  simp [frame]

variable {part missing rest : List UInt8}

/-- A part of the bytes ends inside of the first field or behind it. -/
theorem part_cases {field : List UInt8} (h : part ++ missing = field ++ rest) :
    (part.length < field.length ∧ missing ≠ []) ∨
      ∃ left, part = field ++ left ∧ left ++ missing = rest := by
  by_cases hsh : part.length < field.length
  · refine .inl ⟨hsh, ?_⟩
    rintro rfl
    have hlen := congrArg List.length h
    rw [List.append_nil, List.length_append] at hlen
    omega
  · obtain ⟨left, rfl⟩ := List.prefix_of_prefix_length_le ⟨rest, rfl⟩ ⟨missing, h⟩
      (Nat.not_lt.mp hsh)
    rw [List.append_assoc] at h
    exact .inr ⟨left, rfl, List.append_cancel_left h⟩

/-- From a part of the bytes the same number is read, or the part ends inside of its field. -/
theorem takeNumber_part (hn : n < 256 ^ width) (h : part ++ missing = toBigEndian width n ++ rest) :
    (takeNumber width part = none ∧ missing ≠ []) ∨
      ∃ left, takeNumber width part = some (n, left) ∧ left ++ missing = rest := by
  rcases part_cases h with ⟨hsh, hmi⟩ | ⟨left, rfl, hlf⟩
  · rw [length_toBigEndian] at hsh
    exact .inl ⟨if_pos hsh, hmi⟩
  · exact .inr ⟨left, takeNumber_append hn left, hlf⟩

theorem takeFrame_part
    (hfi : payload.length < 256 ^ width) (h : part ++ missing = frame width payload ++ rest) :
    (takeFrame width part = none ∧ missing ≠ []) ∨
      ∃ left, takeFrame width part = some (payload, left) ∧ left ++ missing = rest := by
  rw [frame, List.append_assoc] at h
  unfold takeFrame
  rcases takeNumber_part hfi h with ⟨hno, hmi⟩ | ⟨behind, hre, hbe⟩
  · rw [hno]
    exact .inl ⟨rfl, hmi⟩
  · rw [hre]
    rcases part_cases hbe with ⟨hsh, hmi⟩ | ⟨left, rfl, hlf⟩
    · exact .inl ⟨if_pos hsh, hmi⟩
    · refine .inr ⟨left, ?_, hlf⟩
      simp

@[simp] theorem frames_nil : frames width [] = [] := rfl

theorem frames_cons (payload : List UInt8) (rest : List (List UInt8)) :
    frames width (payload :: rest) = frame width payload ++ frames width rest := rfl

theorem frames_append (a b : List (List UInt8)) :
    frames width (a ++ b) = frames width a ++ frames width b :=
  List.flatMap_append

/-- Without empty length fields there are at most as many frames as bytes. -/
theorem length_le_length_frames (hwi : 0 < width) (payloads : List (List UInt8)) :
    payloads.length ≤ (frames width payloads).length := by
  induction payloads with
  | nil => rfl
  | cons =>
    rw [frames_cons, List.length_append, length_frame, List.length_cons]
    omega

variable {fuel pos : Nat}

/-- A scan reads the frames that come first, and goes on behind them. -/
theorem scan_frames_append {payloads : List (List UInt8)}
    (hfu : payloads.length ≤ fuel) (hfi : ∀ payload ∈ payloads, payload.length < 256 ^ width)
    (hli : pos + (frames width payloads).length ≤ limit) (rest : List UInt8) :
    scan width limit fuel pos (frames width payloads ++ rest) =
      (scan width limit (fuel - payloads.length) (pos + (frames width payloads).length) rest).map
        (stops width pos payloads ++ ·) := by
  induction payloads generalizing fuel pos with
  | nil => simp [stops]
  | cons payload more ih =>
    cases fuel with
    | zero => exact absurd hfu (Nat.not_succ_le_zero _)
    | succ =>
      have hby : frames width (payload :: more) ++ rest =
          frame width payload ++ (frames width more ++ rest) := by
        rw [frames_cons, List.append_assoc]
      have hlen : (frames width (payload :: more)).length =
          width + payload.length + (frames width more).length := by
        rw [frames_cons, List.length_append, length_frame]
      have hsi : ofBigEndian ((frames width (payload :: more) ++ rest).take width) =
          payload.length := by
        rw [hby, frame, List.append_assoc, List.take_left' (length_toBigEndian _ _)]
        exact ofBigEndian_toBigEndian (hfi payload List.mem_cons_self)
      have hta : ((frames width (payload :: more) ++ rest).take
          (width + payload.length)).drop width = payload := by
        rw [hby, List.take_left' (length_frame payload), frame,
          List.drop_left' (length_toBigEndian _ _)]
      have hdr : (frames width (payload :: more) ++ rest).drop (width + payload.length) =
          frames width more ++ rest := by
        rw [hby, List.drop_left' (length_frame payload)]
      have hro : pos + (width + payload.length) + (frames width more).length ≤ limit := by
        omega
      have hmo := ih (Nat.le_of_succ_le_succ hfu)
        (fun p hp => hfi p (List.mem_cons_of_mem _ hp)) hro
      rw [scan, hsi]
      dsimp only
      rw [hta, hdr, List.length_append, hlen, if_neg (by omega), if_neg (by omega),
        if_neg (by omega), hmo, Option.map_map, List.length_cons, Nat.add_sub_add_right,
        Nat.add_assoc pos]
      rfl

/-- A scan reads the frames that were written. -/
theorem scan_frames {payloads : List (List UInt8)} (hwi : 0 < width) (hfu : payloads.length ≤ fuel)
    (hfi : ∀ payload ∈ payloads, payload.length < 256 ^ width)
    (hli : pos + (frames width payloads).length ≤ limit) :
    scan width limit fuel pos (frames width payloads) = some (stops width pos payloads) := by
  have hnil : ∀ fuel pos, scan width limit fuel pos [] = some [] := by
    intro fuel pos
    cases fuel with
    | zero => rfl
    | succ => simp [scan, hwi]
  have happ := scan_frames_append hfu hfi hli []
  rw [List.append_nil, hnil, Option.map_some, List.append_nil] at happ
  exact happ

/-- A scan reads nothing of a frame that was not written to its end. -/
theorem scan_torn {torn : List UInt8}
    (hto : torn ++ missing = frame width payload) (hmi : missing ≠ [])
    (hfi : payload.length < 256 ^ width) (hli : pos + (frame width payload).length ≤ limit) :
    scan width limit fuel pos torn = some [] := by
  have hlen := congrArg List.length hto
  have hpos : 0 < missing.length := List.length_pos_iff.mpr hmi
  rw [List.length_append, length_frame] at hlen
  rw [length_frame] at hli
  cases fuel with
  | zero => rfl
  | succ =>
    rw [scan]
    by_cases hsh : torn.length < width
    · rw [if_pos hsh]
    · have hsi : ofBigEndian (torn.take width) = payload.length := by
        have hta : (torn ++ missing).take width = torn.take width :=
          List.take_append_of_le_length (Nat.not_lt.mp hsh)
        rw [← hta, hto, frame, List.take_left' (length_toBigEndian _ _)]
        exact ofBigEndian_toBigEndian hfi
      rw [if_neg hsh, hsi]
      dsimp only
      rw [if_neg (by omega), if_pos (by omega)]

/-- The first frame that a scan reads starts where the scan starts. -/
theorem scan_first {bytes : List UInt8} {stop : Nat} {more : List (Nat × List UInt8)}
    (h : scan width limit fuel pos bytes = some ((stop, payload) :: more)) :
    stop = pos + (width + payload.length) := by
  cases fuel with
  | zero => cases h
  | succ =>
    rw [scan] at h
    dsimp only at h
    split_ifs at h with hsh hli hsi
    · cases h
    · cases h
    obtain ⟨found, -, hfo⟩ := Option.map_eq_some_iff.mp h
    obtain ⟨hst, hpay⟩ := Prod.mk.inj (List.cons.inj hfo).1
    rw [← hst, ← hpay, List.length_drop, List.length_take]
    omega

end DEngine.Library.Framing

import DouyinCaption.Library.Utf16
import DouyinCaption.Library.Validation

/-!
# Values on their way between JavaScript and Python

A JavaScript string is a list of UTF-16 code units, and any list is one; a Python string is a
list of code points. `JSON.stringify` and `json.loads` turn the one into the other: surrogates
that pair up become a code point, others stay on their own (`decode`). On the way back a code
point becomes its code units (`ofStr`).

The numbers are the whole ones.
-/

namespace DouyinCaption.Js

open Python
open Utf16 (isHigh isLow)

/-- A string. -/
structure Str where
  units : List ℕ
  /-- a code unit has 16 bits -/
  lt : ∀ u ∈ units, u < 0x10000

/-- A value JSON can carry. -/
inductive Value where
  | null
  | boolean (b : Bool)
  | number (n : Int)
  | string (s : Str)
  | array (xs : List Value)
  /-- the properties in the order they are written -/
  | object (properties : List (Str × Value))

/-- The code units of a code point of a `str`. A surrogate is one; the code points end before
`0x110000`. -/
def units (n : ℕ) : List ℕ :=
  if n < 0x10000 then [n]
  else [0xd800 + (n - 0x10000) / 0x400 % 0x400, 0xdc00 + (n - 0x10000) % 0x400]

theorem lt_of_mem_units {n u : ℕ} (h : u ∈ units n) : u < 0x10000 := by
  unfold units at h
  split at h
  · rw [List.mem_singleton.mp h]
    assumption
  · rcases List.mem_pair.mp h with hu | hu <;> omega

/-- The string of a `str`. -/
def ofStr (s : Python.Str) : Str where
  units := s.flatMap units
  lt u h := by
    obtain ⟨n, -, hn⟩ := List.mem_flatMap.mp h
    exact lt_of_mem_units hn

/-- A literal. -/
def lit (s : String) : Str := ofStr (Python.lit s)

instance : DecidableEq Str := fun s t =>
  decidable_of_iff (s.units = t.units)
    ⟨fun h => by cases s; cases t; cases h; rfl, fun h => h ▸ rfl⟩

/-! ## Python's view -/

/-- The code point of a pair of surrogates. -/
def pair (u v : ℕ) : ℕ := 0x10000 + (u - 0xd800) * 0x400 + (v - 0xdc00)

/-- The code points of a list of code units, an unpaired surrogate one of its own. -/
def decode : List ℕ → List ℕ
  | [] => []
  | [u] => [u]
  | u :: v :: rest =>
    if isHigh u && isLow v then pair u v :: decode rest else u :: decode (v :: rest)

mutual

/-- What `json.loads` makes of what `JSON.stringify` writes for a value. -/
def Value.received : Value → Python.Value
  | .null => .null
  | .boolean b => .bool b
  | .number n => .int n
  | .string s => .str (decode s.units)
  | .array xs => .list (receivedItems xs)
  | .object properties => .dict (receivedMembers properties)

def receivedItems : List Value → List Python.Value
  | [] => []
  | x :: xs => x.received :: receivedItems xs

def receivedMembers : List (Str × Value) → List (Python.Str × Python.Value)
  | [] => []
  | (k, x) :: properties => (decode k.units, x.received) :: receivedMembers properties

end

/-! ## JavaScript's view -/

/-- `value[key]`, none for `undefined`: of two properties with one name the later counts. -/
def Value.property (v : Value) (key : String) : Option Value :=
  match v with
  | .object properties => properties.reverse.lookup (lit key)
  | _ => none

/-! ## Strings there and back -/

/-- A pair of surrogates is the units of its code point. -/
theorem units_pair {u v : ℕ} (hu : isHigh u = true) (hv : isLow v = true) :
    units (pair u v) = [u, v] := by
  simp only [isHigh, isLow, Bool.and_eq_true, decide_eq_true_eq] at hu hv
  have hlarge : ¬ pair u v < 0x10000 := by
    unfold pair
    omega
  have hhigh : 0xd800 + (pair u v - 0x10000) / 0x400 % 0x400 = u := by
    unfold pair
    omega
  have hlow : 0xdc00 + (pair u v - 0x10000) % 0x400 = v := by
    unfold pair
    omega
  rw [units, if_neg hlarge, hhigh, hlow]

/-- What arrives is sent back unit by unit. -/
theorem flatMap_decode {us : List ℕ} (hus : ∀ u ∈ us, u < 0x10000) :
    (decode us).flatMap units = us := by
  induction us using decode.induct with
  | case1 => rfl
  | case2 u =>
    rw [decode, List.flatMap_singleton, units, if_pos (hus u (by simp))]
  | case3 u v rest hpair ih =>
    obtain ⟨hu, hv⟩ := Bool.and_eq_true _ _ ▸ hpair
    rw [decode, if_pos hpair, List.flatMap_cons, units_pair hu hv,
      ih fun w hw => hus w (by simp [hw])]
    rfl
  | case4 u v rest hpair ih =>
    rw [decode, if_neg hpair, List.flatMap_cons, units, if_pos (hus u (by simp)),
      ih fun w hw => hus w (List.mem_cons_of_mem _ hw)]
    rfl

/-- **A string comes back as it was sent.** -/
theorem ofStr_decode (s : Str) : ofStr (decode s.units) = s := by
  obtain ⟨us, hus⟩ := s
  simp only [ofStr, flatMap_decode hus]

/-- A `str` that was decoded: no high surrogate stands right before a low one. -/
def Decoded (c : Python.Str) : Prop := ∃ s : Str, c = decode s.units

/-- Such a `str` comes back as it was sent, too. -/
theorem Decoded.decode_ofStr {c : Python.Str} (h : Decoded c) : decode (ofStr c).units = c := by
  obtain ⟨s, rfl⟩ := h
  rw [ofStr_decode]

end DouyinCaption.Js

import Mathlib.Data.Nat.Notation
import Mathlib.Data.List.Basic

/-!
# The values `json.loads` makes, and what Python does with them

Code that walks a decoded answer subscripts, iterates and hashes values of any type. Each
operation is total here and names the exception it raises, so that what escapes a handler is a
matter of cases.

A string is a list of code points: a decoder that meets an unpaired surrogate keeps it.
-/

namespace DouyinCaption.Python

/-- The exceptions of the operations below, and those of the decoder. -/
inductive PyError where
  | valueError
  | keyError
  | indexError
  | typeError
  | attributeError
  | recursionError
  deriving DecidableEq, Repr

/-- `str`: code points, unpaired surrogates among them -/
abbrev Str : Type := List ℕ

/-- The `str` of a text. -/
def ofText (text : List Char) : Str := text.map Char.toNat

/-- A literal. -/
def lit (s : String) : Str := ofText s.toList

/-- The code point of a number, none for a surrogate. -/
def toChar (n : ℕ) : Option Char := if n.isValidChar then some (Char.ofNat n) else none

/-- The text of a `str` without surrogates. -/
def toText (s : Str) : Option (List Char) := s.mapM toChar

/-- A value of `json.loads`. -/
inductive Value where
  /-- `None` -/
  | null
  | bool (b : Bool)
  | int (n : Int)
  /-- a `float`, by its bits -/
  | float (bits : UInt64)
  | str (s : Str)
  | list (xs : List Value)
  /-- a `dict`, with the members of the object in the order they are written -/
  | dict (members : List (Str × Value))

/-- What a `dict` has for a key: of two members with one key the later counts. -/
def find (members : List (Str × Value)) (key : Str) : Option Value := members.reverse.lookup key

namespace Value

/-- `isinstance(v, dict)` -/
def isDict : Value → Bool
  | dict _ => true
  | _ => false

/-- `bool(v)` -/
def truthy : Value → Bool
  | null => false
  | bool b => b
  | int n => n ≠ 0
  -- both zeros are false
  | float bits => bits ≠ 0 ∧ bits ≠ 0x8000000000000000
  | str s => !s.isEmpty
  | list xs => !xs.isEmpty
  | dict members => !members.isEmpty

/-- `v[key]` for a `str` key -/
def item (key : Str) : Value → Except PyError Value
  | dict members =>
      match find members key with
      | some v => .ok v
      | none => .error .keyError
  | _ => .error .typeError

/-- `v[0]` -/
def first : Value → Except PyError Value
  | list (x :: _) => .ok x
  | str (c :: _) => .ok (str [c])
  | list [] | str [] => .error .indexError
  -- the keys of a `dict` are strings
  | dict _ => .error .keyError
  | _ => .error .typeError

/-- `v.get(key, default)` -/
def get (v : Value) (key : Str) (default : Value) : Except PyError Value :=
  match v with
  | dict members => .ok ((find members key).getD default)
  | _ => .error .attributeError

/-- `iter(v)` -/
def iter : Value → Except PyError (List Value)
  | list xs => .ok xs
  | str s => .ok (s.map fun c => str [c])
  | dict members => .ok ((members.map Prod.fst).dedup.map str)
  | _ => .error .typeError

/-- `hash(v)` -/
def hash : Value → Except PyError Unit
  | list _ | dict _ => .error .typeError
  | _ => .ok ()

/-- `v == s` for a `str` -/
def eqStr (s : Str) : Value → Bool
  | str t => t = s
  | _ => false

end Value

/-! ## What an operation finds -/

/-- A sequence of two computations fails where the first does, or else the second. -/
theorem bind_eq_error {ε α β : Type} {x : Except ε α} {f : α → Except ε β} {e : ε} :
    (x >>= f) = .error e ↔ x = .error e ∨ ∃ a, x = .ok a ∧ f a = .error e := by
  cases x with
  | error e' => simp [bind, Except.bind]
  | ok a => simp [bind, Except.bind]

/-- What a comprehension over a list collects. -/
theorem mem_of_mapM_ok {ε α β : Type} {f : α → Except ε β} :
    ∀ {l : List α} {l' : List β}, l.mapM f = .ok l' → ∀ b, b ∈ l' ↔ ∃ a ∈ l, f a = .ok b
  | [], l', h, b => by
      obtain rfl := Except.ok.inj h
      simp
  | a :: l, l', h, b => by
      rw [List.mapM_cons] at h
      rcases ha : f a with e | b'
      · rw [ha] at h
        cases h
      · rcases hl : l.mapM f with e | rest
        · rw [ha, hl] at h
          cases h
        · rw [ha, hl] at h
          obtain rfl := Except.ok.inj h
          rw [List.mem_cons, mem_of_mapM_ok hl, List.exists_mem_cons_iff, ha, Except.ok.injEq,
            eq_comm]

/-- A comprehension that raises nothing has computed every member. -/
theorem ok_of_mapM_ok {ε α β : Type} {f : α → Except ε β} :
    ∀ {l : List α} {l' : List β}, l.mapM f = .ok l' → ∀ a ∈ l, ∃ b, f a = .ok b
  | a :: l, l', h, a', ha' => by
      rw [List.mapM_cons] at h
      rcases ha : f a with e | b
      · rw [ha] at h
        cases h
      · rcases hl : l.mapM f with e | rest
        · rw [ha, hl] at h
          cases h
        · rcases List.mem_cons.mp ha' with rfl | hmem
          · exact ⟨b, ha⟩
          · exact ok_of_mapM_ok hl a' hmem

/-- A comprehension over a list raises what its first failing member raises. -/
theorem mapM_eq_error {ε α β : Type} {f : α → Except ε β} {e : ε} :
    ∀ {l : List α}, l.mapM f = .error e ↔
      ∃ before a after, l = before ++ a :: after ∧ (∀ b ∈ before, ∃ c, f b = .ok c) ∧
        f a = .error e
  | [] => by
      refine ⟨fun h => (by cases h), fun ⟨before, a, after, h, _⟩ => ?_⟩
      simp at h
  | a :: l => by
      rw [List.mapM_cons, bind_eq_error]
      constructor
      · rintro (h | ⟨b, hb, h⟩)
        · exact ⟨[], a, l, rfl, by simp, h⟩
        · rcases bind_eq_error.mp h with h | ⟨rest, -, h⟩
          · obtain ⟨before, a', after, rfl, hbefore, ha'⟩ := mapM_eq_error.mp h
            refine ⟨a :: before, a', after, rfl, fun c hc => ?_, ha'⟩
            rcases List.mem_cons.mp hc with rfl | hc
            · exact ⟨b, hb⟩
            · exact hbefore c hc
          · cases h
      · rintro ⟨_ | ⟨b, before⟩, a', after, h, hbefore, ha'⟩
        · obtain ⟨rfl, rfl⟩ := List.cons.inj h
          exact .inl ha'
        · obtain ⟨rfl, rfl⟩ := List.cons.inj h
          obtain ⟨c, hc⟩ := hbefore a List.mem_cons_self
          refine .inr ⟨c, hc, bind_eq_error.mpr (.inl ?_)⟩
          exact mapM_eq_error.mpr
            ⟨before, a', after, rfl, fun b hb => hbefore b (List.mem_cons_of_mem _ hb), ha'⟩

namespace Value

variable {v w : Value} {key : Str} {e : PyError}

/-- Only a `dict` has items. -/
theorem item_eq_ok :
    v.item key = .ok w ↔ ∃ members, v = dict members ∧ find members key = some w := by
  cases v with
  | dict members =>
    rw [item]
    rcases h : find members key with _ | u <;> simp [h]
  | _ => simp [item]

/-- A subscript fails with one of two exceptions. -/
theorem item_error (h : v.item key = .error e) : e = .keyError ∨ e = .typeError := by
  cases v with
  | dict members =>
    rw [item] at h
    split at h
    · cases h
    · exact .inl (Except.error.inj h).symm
  | _ => exact .inr (Except.error.inj h).symm

theorem first_error (h : v.first = .error e) :
    e = .keyError ∨ e = .indexError ∨ e = .typeError := by
  simp only [first] at h
  split at h <;> cases h <;> simp

/-- Only a list or a `str` has a first member, and of a `str` it is one. -/
theorem first_eq_ok (h : v.first = .ok w) : (∃ xs, v = list (w :: xs)) ∨ ∃ c, w = str [c] := by
  simp only [first] at h
  split at h
  · obtain rfl := Except.ok.inj h
    exact .inl ⟨_, rfl⟩
  · exact .inr ⟨_, (Except.ok.inj h).symm⟩
  all_goals cases h

theorem get_error {default : Value} (h : v.get key default = .error e) :
    e = .attributeError ∧ v.isDict = false := by
  cases v with
  | dict members => cases h
  | _ => exact ⟨(Except.error.inj h).symm, rfl⟩

end Value

end DouyinCaption.Python

import DouyinCaption.Library.Json
import DouyinCaption.Library.PythonValues

/-!
# Schemas over decoded JSON

The values a decoder makes of an encoded one (`Json.value`), and the pieces a schema is written
with: the members of an object, a text, a list, a field that may be missing or `null`. A
validator of a type `α` is a function `Value → Option α`; with each piece stands what it makes
of the encoding of a value its parts accept again.

A `str` without constraints is any string. To check a constraint the validator reads its
characters, and refuses a string with an unpaired surrogate, which has none.
-/

namespace DouyinCaption

open Python

/-! ## Decoding what was encoded -/

namespace Json

mutual

/-- What `json.loads` makes of the text of a value. -/
def value : Json → Value
  | .null => .null
  | .bool b => .bool b
  | .int n => .int n
  | .str s => .str (ofText s)
  | .arr xs => .list (values xs)
  | .obj fields => .dict (members fields)

def values : List Json → List Value
  | [] => []
  | x :: xs => x.value :: values xs

def members : List (List Char × Json) → List (Str × Value)
  | [] => []
  | (k, x) :: fields => (ofText k, x.value) :: members fields

end

theorem values_eq_map : ∀ xs : List Json, values xs = xs.map value
  | [] => rfl
  | x :: xs => by rw [values, values_eq_map xs, List.map_cons]

end Json

namespace Validation

variable {α : Type}

/-! ## The pieces -/

/-- `str` -/
def str : Value → Option Str
  | .str s => some s
  | _ => none

/-- `str` with a constraint -/
def text (v : Value) : Option (List Char) := (str v).bind toText

/-- A model: the members of a `dict`. -/
def model : Value → Option (List (Str × Value))
  | .dict members => some members
  | _ => none

/-- A model with `extra="forbid"`. -/
def strictModel (names : List String) (v : Value) : Option (List (Str × Value)) :=
  (model v).filter fun members => members.all fun m => names.any fun n => m.1 = lit n

/-- A required field. -/
def required (f : Value → Option α) (members : List (Str × Value)) (name : String) : Option α :=
  (find members (lit name)).bind f

/-- A field with a default. -/
def defaulted (default : α) (f : Value → Option α) (members : List (Str × Value))
    (name : String) : Option α :=
  match find members (lit name) with
  | none => some default
  | some v => f v

/-- `T | None` -/
def nullable (f : Value → Option α) : Value → Option (Option α)
  | .null => some none
  | v => (f v).map some

/-- `list[T]` -/
def items (f : Value → Option α) : Value → Option (List α)
  | .list xs => xs.mapM f
  | _ => none

/-- A constraint on a validated value, part of its type from there on. -/
def constrain (p : α → Prop) [DecidablePred p] (a : α) : Option { a : α // p a } :=
  if h : p a then some ⟨a, h⟩ else none

/-! ## What they make of an encoding -/

theorem toChar_toNat (c : Char) : toChar c.toNat = some c := by
  rw [toChar, if_pos (show c.toNat.isValidChar from c.valid), Char.ofNat_toNat]

theorem toText_ofText (t : List Char) : toText (ofText t) = some t := by
  induction t with
  | nil => rfl
  | cons c t ih =>
    rw [ofText, List.map_cons, toText, List.mapM_cons, toChar_toNat]
    rw [toText, ofText] at ih
    rw [ih]
    rfl

@[simp] theorem text_value (t : List Char) : text (Json.str t).value = some t := toText_ofText t

theorem constrain_eq_some {p : α → Prop} [DecidablePred p] {a : α} (h : p a) :
    constrain p a = some ⟨a, h⟩ := dif_pos h

theorem constrain_val {p : α → Prop} [DecidablePred p] (a : { a : α // p a }) :
    constrain p a.1 = some a := constrain_eq_some a.2

/-- A list of encoded items that are each accepted again. -/
theorem items_value {f : Value → Option α} {g : α → Json} {as : List α}
    (h : ∀ a ∈ as, f (g a).value = some a) : items f (Json.arr (as.map g)).value = some as := by
  rw [Json.value, Json.values_eq_map, items]
  induction as with
  | nil => rfl
  | cons a as ih =>
    rw [List.map_cons, List.map_cons, List.mapM_cons, h a List.mem_cons_self,
      ih fun b hb => h b (List.mem_cons_of_mem _ hb)]
    rfl

/-- A field that may be `null` and is not. -/
theorem nullable_eq_some {f : Value → Option α} {v : Value} {a : α} (hv : v ≠ .null)
    (h : f v = some a) : nullable f v = some (some a) := by
  cases v with
  | null => exact absurd rfl hv
  | _ => rw [nullable, h, Option.map_some]; simp

/-! ## What the validated values are -/

theorem mem_of_items {f : Value → Option α} {v : Value} {as : List α} (h : items f v = some as) :
    ∀ a ∈ as, ∃ w, f w = some a := by
  cases v with
  | list xs =>
    rw [items] at h
    induction xs generalizing as with
    | nil =>
      obtain rfl := Option.some.inj h
      simp
    | cons x xs ih =>
      rw [List.mapM_cons] at h
      obtain ⟨a, ha, h⟩ := Option.bind_eq_some_iff.mp h
      obtain ⟨rest, hrest, h⟩ := Option.bind_eq_some_iff.mp h
      obtain rfl := Option.some.inj h
      intro b hb
      rcases List.mem_cons.mp hb with rfl | hb
      · exact ⟨x, ha⟩
      · exact ih hrest b hb
  | _ => cases h

theorem of_required {f : Value → Option α} {members : List (Str × Value)} {name : String} {a : α}
    (h : required f members name = some a) : ∃ v, f v = some a := by
  obtain ⟨v, -, hv⟩ := Option.bind_eq_some_iff.mp h
  exact ⟨v, hv⟩

theorem of_nullable {f : Value → Option α} {v : Value} {a : α}
    (h : nullable f v = some (some a)) : f v = some a := by
  unfold nullable at h
  split at h
  · cases h
  · obtain ⟨b, hb, hab⟩ := Option.map_eq_some_iff.mp h
    rw [hb, hab]

/-- A field with the default `None` that has a value. -/
theorem of_defaulted {f : Value → Option α} {members : List (Str × Value)}
    {name : String} {a : α} (h : defaulted none (nullable f) members name = some (some a)) :
    ∃ w, f w = some a := by
  rw [defaulted] at h
  split at h
  · cases h
  · exact ⟨_, of_nullable h⟩

end Validation

end DouyinCaption

import Mathlib.Data.Nat.Notation
import Mathlib.Data.List.Basic
import Mathlib.Data.List.Sort

/-!
# JSON values and their compact text

The values of JSON with integers for numbers, and the text a compact encoder writes for
them: no blanks, `,` and `:` as separators, and everything outside the quote, the
backslash and the control characters written as it is.

The main result is that the text is *self-delimiting*: where two texts followed by anything
agree, the values agree and so do the rests (`dumps_append_inj`). So a text decodes in at
most one way, wherever it stands in a longer one.
-/

namespace DouyinCaption

/-- A JSON value. -/
inductive Json where
  /-- `null` -/
  | null
  /-- `true` and `false` -/
  | bool (b : Bool)
  /-- an integer -/
  | int (n : Int)
  /-- a string of Unicode code points -/
  | str (s : List Char)
  /-- an array -/
  | arr (xs : List Json)
  /-- an object, with its members in the order they are written -/
  | obj (fields : List (List Char × Json))

namespace Json

/-! ## Strings -/

/-- One code point inside a JSON string. -/
def escapeChar (c : Char) : List Char :=
  if c = '"' then ['\\', '"']
  else if c = '\\' then ['\\', '\\']
  else if c = '\n' then ['\\', 'n']
  else if c = '\r' then ['\\', 'r']
  else if c = '\t' then ['\\', 't']
  else if c = '\x08' then ['\\', 'b']
  else if c = '\x0c' then ['\\', 'f']
  else if c.toNat < 32 then
    ['\\', 'u', '0', '0', Nat.digitChar (c.toNat / 16), Nat.digitChar (c.toNat % 16)]
  else [c]

/-- The text of a string between its quotes. -/
def escape (s : List Char) : List Char := s.flatMap escapeChar

/-- A JSON string. -/
def strText (s : List Char) : List Char := '"' :: (escape s ++ ['"'])

/-- The value of a hexadecimal digit in lower case. -/
def hexValue (c : Char) : Nat :=
  if c.isDigit then c.toNat - '0'.toNat else c.toNat - 'a'.toNat + 10

/-- Read one code point back; the closing quote is none. -/
def unescape : List Char → Option (Char × List Char)
  | '\\' :: '"' :: r => some ('"', r)
  | '\\' :: '\\' :: r => some ('\\', r)
  | '\\' :: 'n' :: r => some ('\n', r)
  | '\\' :: 'r' :: r => some ('\r', r)
  | '\\' :: 't' :: r => some ('\t', r)
  | '\\' :: 'b' :: r => some ('\x08', r)
  | '\\' :: 'f' :: r => some ('\x0c', r)
  | '\\' :: 'u' :: '0' :: '0' :: a :: b :: r =>
      some (Char.ofNat (hexValue a * 16 + hexValue b), r)
  | c :: r => if c = '"' ∨ c = '\\' then none else some (c, r)
  | [] => none

theorem hexValue_digits :
    ∀ n < 32, hexValue (Nat.digitChar (n / 16)) * 16 + hexValue (Nat.digitChar (n % 16)) = n := by
  decide

/-- Reading back a written code point gives it again. -/
theorem unescape_escapeChar (c : Char) (r : List Char) :
    unescape (escapeChar c ++ r) = some (c, r) := by
  rw [escapeChar]
  split_ifs with h₁ h₂ h₃ h₄ h₅ h₆ h₇ h₈
  · subst h₁; rfl
  · subst h₂; rfl
  · subst h₃; rfl
  · subst h₄; rfl
  · subst h₅; rfl
  · subst h₆; rfl
  · subst h₇; rfl
  · simp [unescape, hexValue_digits _ h₈]
  · rw [List.singleton_append, unescape.eq_9]
    · simp [h₁, h₂]
    all_goals
      intro r' hc
      simp_all

/-- The closing quote is no code point of the string. -/
theorem unescape_quote (r : List Char) : unescape ('"' :: r) = none := by
  simp [unescape]

/-- **A string text ends where its string ends.** -/
theorem escape_append_inj :
    ∀ {s t x y : List Char},
      escape s ++ '"' :: x = escape t ++ '"' :: y → s = t ∧ x = y := by
  intro s
  induction s with
  | nil =>
    intro t x y h
    cases t with
    | nil => exact ⟨rfl, by simpa [escape] using h⟩
    | cons d t =>
      have hd := congrArg unescape h
      simp only [escape, List.flatMap_cons, List.flatMap_nil, List.nil_append,
        List.append_assoc, unescape_escapeChar, unescape_quote] at hd
      cases hd
  | cons c s ih =>
    intro t x y h
    have hc := congrArg unescape h
    cases t with
    | nil =>
      simp only [escape, List.flatMap_cons, List.flatMap_nil, List.nil_append,
        List.append_assoc, unescape_escapeChar, unescape_quote] at hc
      cases hc
    | cons d t =>
      simp only [escape, List.flatMap_cons, List.append_assoc, unescape_escapeChar,
        Option.some.injEq, Prod.mk.injEq] at hc
      obtain ⟨rfl, hrest⟩ := hc
      obtain ⟨rfl, rfl⟩ := ih hrest
      exact ⟨rfl, rfl⟩

theorem strText_append_inj {s t x y : List Char} (h : strText s ++ x = strText t ++ y) :
    s = t ∧ x = y := by
  simp only [strText, List.cons_append, List.append_assoc, List.cons.injEq, true_and,
    List.nil_append] at h
  exact escape_append_inj h

/-! ## Numbers -/

/-- An integer in decimal. -/
def intText : Int → List Char
  | .ofNat n => Nat.toDigits 10 n
  | .negSucc n => '-' :: Nat.toDigits 10 (n + 1)

/-- What follows a number does not go on with a digit. -/
def Ends (x : List Char) : Prop := ∀ c ∈ x.head?, c.isDigit = false

theorem ends_cons {c : Char} {x : List Char} (h : c.isDigit = false) : Ends (c :: x) := by
  intro d hd
  obtain rfl : c = d := Option.some.inj hd
  exact h

/-- Runs of digits followed by no digit are equal with what follows them. -/
theorem digits_append_inj :
    ∀ {a b x y : List Char}, (∀ c ∈ a, c.isDigit) → (∀ c ∈ b, c.isDigit) → Ends x → Ends y →
      a ++ x = b ++ y → a = b ∧ x = y := by
  intro a
  induction a with
  | nil =>
    intro b x y _ hb hx _ h
    cases b with
    | nil => exact ⟨rfl, h⟩
    | cons d b =>
      subst h
      have := hx d rfl
      rw [hb d List.mem_cons_self] at this
      cases this
  | cons c a ih =>
    intro b x y ha hb hx hy h
    cases b with
    | nil =>
      have := hy c (by rw [← show c :: (a ++ x) = y from h]; rfl)
      rw [ha c List.mem_cons_self] at this
      cases this
    | cons d b =>
      obtain ⟨rfl, hr⟩ := List.cons.inj h
      obtain ⟨rfl, rfl⟩ := ih (fun e he => ha e (List.mem_cons_of_mem _ he))
        (fun e he => hb e (List.mem_cons_of_mem _ he)) hx hy hr
      exact ⟨rfl, rfl⟩

theorem isDigit_of_mem_toDigits {n : Nat} {c : Char} (h : c ∈ Nat.toDigits 10 n) : c.isDigit :=
  Nat.isDigit_of_mem_toDigits (by decide) (by decide) h

theorem toDigits_injective {m n : Nat} (h : Nat.toDigits 10 m = Nat.toDigits 10 n) : m = n := by
  have := congrArg (fun l => Nat.ofDigitChars 10 l 0) h
  simpa [Nat.ofDigitChars_ten_toDigits] using this

/-- A number starts with a sign or a digit. -/
theorem intText_head (n : Int) :
    ∃ c r, intText n = c :: r ∧ (c = '-' ∨ c.isDigit = true) := by
  cases n with
  | ofNat n =>
    rcases h : Nat.toDigits 10 n with _ | ⟨c, r⟩
    · exact absurd h Nat.toDigits_ne_nil
    · exact ⟨c, r, h, Or.inr (isDigit_of_mem_toDigits (n := n) (by rw [h]; simp))⟩
  | negSucc n => exact ⟨'-', _, rfl, Or.inl rfl⟩

theorem not_minus_toDigits {m n : Nat} {x y : List Char} :
    Nat.toDigits 10 m ++ x ≠ '-' :: (Nat.toDigits 10 n ++ y) := by
  intro h
  rcases hm : Nat.toDigits 10 m with _ | ⟨c, r⟩
  · exact Nat.toDigits_ne_nil hm
  · have hc : c.isDigit := isDigit_of_mem_toDigits (n := m) (by rw [hm]; simp)
    rw [hm, List.cons_append] at h
    obtain ⟨rfl, -⟩ := List.cons.inj h
    cases hc

theorem intText_append_inj {m n : Int} {x y : List Char} (hx : Ends x) (hy : Ends y)
    (h : intText m ++ x = intText n ++ y) : m = n ∧ x = y := by
  have digits : ∀ {k l : Nat}, Nat.toDigits 10 k ++ x = Nat.toDigits 10 l ++ y →
      k = l ∧ x = y := by
    intro k l hkl
    obtain ⟨he, hr⟩ := digits_append_inj (fun _ => isDigit_of_mem_toDigits)
      (fun _ => isDigit_of_mem_toDigits) hx hy hkl
    exact ⟨toDigits_injective he, hr⟩
  cases m with
  | ofNat m =>
    cases n with
    | ofNat n =>
      obtain ⟨rfl, hr⟩ := digits h
      exact ⟨rfl, hr⟩
    | negSucc n => exact absurd h not_minus_toDigits
  | negSucc m =>
    cases n with
    | ofNat n => exact absurd h.symm not_minus_toDigits
    | negSucc n =>
      obtain ⟨he, hr⟩ := digits (List.cons.inj h).2
      obtain rfl : m = n := by omega
      exact ⟨rfl, hr⟩

/-! ## Values -/

mutual

/-- The compact text of a value. -/
def dumps : Json → List Char
  | .null => ['n', 'u', 'l', 'l']
  | .bool true => ['t', 'r', 'u', 'e']
  | .bool false => ['f', 'a', 'l', 's', 'e']
  | .int n => intText n
  | .str s => strText s
  | .arr [] => ['[', ']']
  | .arr (x :: xs) => '[' :: (dumps x ++ dumpsItems xs)
  | .obj [] => ['{', '}']
  | .obj (f :: fs) => '{' :: (dumpsField f ++ dumpsFields fs)
termination_by structural j => j

/-- The items of an array after the first, with its closing bracket. -/
def dumpsItems : List Json → List Char
  | [] => [']']
  | x :: xs => ',' :: (dumps x ++ dumpsItems xs)
termination_by structural xs => xs

/-- One member of an object. -/
def dumpsField : List Char × Json → List Char
  | (k, v) => strText k ++ ':' :: dumps v
termination_by structural f => f

/-- The members of an object after the first, with its closing brace. -/
def dumpsFields : List (List Char × Json) → List Char
  | [] => ['}']
  | f :: fs => ',' :: (dumpsField f ++ dumpsFields fs)
termination_by structural fs => fs

end

/-- What closes or continues an array is no digit. -/
theorem ends_dumpsItems (xs : List Json) (x : List Char) : Ends (dumpsItems xs ++ x) := by
  cases xs with
  | nil => exact ends_cons rfl
  | cons y ys => exact ends_cons rfl

/-- What closes or continues an object is no digit. -/
theorem ends_dumpsFields (fs : List (List Char × Json)) (x : List Char) :
    Ends (dumpsFields fs ++ x) := by
  cases fs with
  | nil => exact ends_cons rfl
  | cons f fs => exact ends_cons rfl

/-- The kinds of values that different first characters start. -/
inductive Kind where
  /-- `null` -/
  | null
  /-- one of the two truth values -/
  | bool (b : Bool)
  /-- an integer -/
  | int
  /-- a string -/
  | str
  /-- an array -/
  | arr
  /-- an object -/
  | obj
  deriving DecidableEq

/-- The kind of a value. -/
def kind : Json → Kind
  | .null => .null
  | .bool b => .bool b
  | .int _ => .int
  | .str _ => .str
  | .arr _ => .arr
  | .obj _ => .obj

/-- The kind of the values whose text starts with a character. -/
def leadKind (c : Char) : Kind :=
  if c = 'n' then .null
  else if c = 't' then .bool true
  else if c = 'f' then .bool false
  else if c = '"' then .str
  else if c = '[' then .arr
  else if c = '{' then .obj
  else .int

theorem leadKind_digit {c : Char} (h : c = '-' ∨ c.isDigit = true) : leadKind c = .int := by
  rcases h with rfl | h
  · rfl
  · have hne : ∀ d : Char, d.isDigit = false → c ≠ d := by
      rintro d hd rfl
      rw [h] at hd
      cases hd
    simp [leadKind, hne]

theorem dumps_head (j : Json) : ∃ c r, dumps j = c :: r ∧ leadKind c = j.kind := by
  match j with
  | .null => exact ⟨_, _, rfl, rfl⟩
  | .bool true => exact ⟨_, _, rfl, rfl⟩
  | .bool false => exact ⟨_, _, rfl, rfl⟩
  | .int n =>
    obtain ⟨c, r, hr, hc⟩ := intText_head n
    exact ⟨c, r, hr, leadKind_digit hc⟩
  | .str s => exact ⟨_, _, rfl, rfl⟩
  | .arr [] => exact ⟨_, _, rfl, rfl⟩
  | .arr (x :: xs) => exact ⟨_, _, rfl, rfl⟩
  | .obj [] => exact ⟨_, _, rfl, rfl⟩
  | .obj (f :: fs) => exact ⟨_, _, rfl, rfl⟩

/-- Texts that agree are texts of values of one kind. -/
theorem kind_eq {a b : Json} {x y : List Char} (h : dumps a ++ x = dumps b ++ y) :
    a.kind = b.kind := by
  obtain ⟨c, r, hc, hac⟩ := dumps_head a
  obtain ⟨d, t, hd, hbd⟩ := dumps_head b
  rw [hc, hd, List.cons_append, List.cons_append] at h
  obtain ⟨rfl, -⟩ := List.cons.inj h
  rw [← hac, hbd]

/-- No text starts with the bracket that closes an empty array. -/
theorem dumps_ne_close {a : Json} {x y : List Char} : dumps a ++ x ≠ ']' :: y := by
  intro h
  obtain ⟨c, r, hc, hk⟩ := dumps_head a
  rw [hc, List.cons_append] at h
  obtain ⟨rfl, -⟩ := List.cons.inj h
  cases a with
  | int n =>
    obtain ⟨d, t, hd, hdig⟩ := intText_head n
    rw [dumps, hd] at hc
    obtain ⟨rfl, -⟩ := List.cons.inj hc
    revert hdig
    decide
  | _ => cases hk

mutual

/-- **Texts are self-delimiting**: where the texts of two values agree with what follows
them, the values agree and so do the rests. Only a number needs to know that what follows
it is no digit. -/
theorem dumps_append_inj : ∀ (a b : Json) {x y : List Char}, Ends x → Ends y →
    dumps a ++ x = dumps b ++ y → a = b ∧ x = y
  | .null, b, x, y, _, _, h => by
      cases b <;> cases kind_eq h
      exact ⟨rfl, by simpa [dumps] using h⟩
  | .bool true, b, x, y, _, _, h => by
      cases b <;> cases kind_eq h
      exact ⟨rfl, by simpa [dumps] using h⟩
  | .bool false, b, x, y, _, _, h => by
      cases b <;> cases kind_eq h
      exact ⟨rfl, by simpa [dumps] using h⟩
  | .int n, b, x, y, hx, hy, h => by
      cases b <;> cases kind_eq h
      obtain ⟨rfl, hr⟩ := intText_append_inj hx hy h
      exact ⟨rfl, hr⟩
  | .str s, b, x, y, _, _, h => by
      cases b <;> cases kind_eq h
      obtain ⟨rfl, hr⟩ := strText_append_inj h
      exact ⟨rfl, hr⟩
  | .arr [], b, x, y, _, _, h => by
      cases b <;> cases kind_eq h
      rename_i ys
      cases ys with
      | nil => exact ⟨rfl, by simpa [dumps] using h⟩
      | cons z zs =>
        simp only [dumps, List.cons_append, List.append_assoc, List.cons.injEq, true_and] at h
        exact absurd h.symm dumps_ne_close
  | .arr (x₁ :: xs), b, x, y, _, _, h => by
      cases b <;> cases kind_eq h
      rename_i ys
      cases ys with
      | nil =>
        simp only [dumps, List.cons_append, List.append_assoc, List.cons.injEq, true_and] at h
        exact absurd h dumps_ne_close
      | cons z zs =>
        simp only [dumps, List.cons_append, List.append_assoc, List.cons.injEq, true_and] at h
        obtain ⟨rfl, hr⟩ := dumps_append_inj x₁ z (ends_dumpsItems _ _) (ends_dumpsItems _ _) h
        obtain ⟨rfl, he⟩ := dumpsItems_append_inj xs zs hr
        exact ⟨rfl, he⟩
  | .obj [], b, x, y, _, _, h => by
      cases b <;> cases kind_eq h
      rename_i gs
      cases gs with
      | nil => exact ⟨rfl, by simpa [dumps] using h⟩
      | cons g gs =>
        obtain ⟨k, v⟩ := g
        simp [dumps, dumpsField, strText] at h
  | .obj (f :: fs), b, x, y, _, _, h => by
      cases b <;> cases kind_eq h
      rename_i gs
      cases gs with
      | nil =>
        obtain ⟨k, v⟩ := f
        simp [dumps, dumpsField, strText] at h
      | cons g gs =>
        simp only [dumps, List.cons_append, List.append_assoc, List.cons.injEq, true_and] at h
        obtain ⟨rfl, hr⟩ :=
          dumpsField_append_inj f g (ends_dumpsFields _ _) (ends_dumpsFields _ _) h
        obtain ⟨rfl, he⟩ := dumpsFields_append_inj fs gs hr
        exact ⟨rfl, he⟩

theorem dumpsItems_append_inj : ∀ (xs ys : List Json) {x y : List Char},
    dumpsItems xs ++ x = dumpsItems ys ++ y → xs = ys ∧ x = y
  | [], [], x, y, h => ⟨rfl, by simpa [dumpsItems] using h⟩
  | [], _ :: _, x, y, h => by simp [dumpsItems] at h
  | _ :: _, [], x, y, h => by simp [dumpsItems] at h
  | a :: xs, b :: ys, x, y, h => by
      simp only [dumpsItems, List.cons_append, List.append_assoc, List.cons.injEq,
        true_and] at h
      obtain ⟨rfl, hr⟩ := dumps_append_inj a b (ends_dumpsItems _ _) (ends_dumpsItems _ _) h
      obtain ⟨rfl, he⟩ := dumpsItems_append_inj xs ys hr
      exact ⟨rfl, he⟩

theorem dumpsField_append_inj : ∀ (f g : List Char × Json) {x y : List Char}, Ends x → Ends y →
    dumpsField f ++ x = dumpsField g ++ y → f = g ∧ x = y
  | (k, v), (l, w), x, y, hx, hy, h => by
      simp only [dumpsField, List.append_assoc, List.cons_append] at h
      obtain ⟨rfl, hr⟩ := strText_append_inj h
      obtain ⟨rfl, he⟩ := dumps_append_inj v w hx hy (List.cons.inj hr).2
      exact ⟨rfl, he⟩

theorem dumpsFields_append_inj : ∀ (fs gs : List (List Char × Json)) {x y : List Char},
    dumpsFields fs ++ x = dumpsFields gs ++ y → fs = gs ∧ x = y
  | [], [], x, y, h => ⟨rfl, by simpa [dumpsFields] using h⟩
  | [], _ :: _, x, y, h => by simp [dumpsFields] at h
  | _ :: _, [], x, y, h => by simp [dumpsFields] at h
  | f :: fs, g :: gs, x, y, h => by
      simp only [dumpsFields, List.cons_append, List.append_assoc, List.cons.injEq,
        true_and] at h
      obtain ⟨rfl, hr⟩ :=
        dumpsField_append_inj f g (ends_dumpsFields _ _) (ends_dumpsFields _ _) h
      obtain ⟨rfl, he⟩ := dumpsFields_append_inj fs gs hr
      exact ⟨rfl, he⟩

end

/-- **The text of a value determines it.** -/
theorem dumps_injective {a b : Json} (h : dumps a = dumps b) : a = b := by
  have hends : Ends [] := fun c hc => nomatch hc
  exact (dumps_append_inj a b hends hends (congrArg (· ++ []) h)).1

/-! ## Writing values -/

/-- A member of an object. -/
def field (name : String) (value : Json) : List Char × Json := (name.toList, value)

/-- `null` for a missing value. -/
def ofOption {α : Type} (f : α → Json) : Option α → Json
  | none => .null
  | some a => f a

/-- A list of strings. -/
def texts (ts : List (List Char)) : Json := .arr (ts.map .str)

/-- A natural number. -/
def nat (n : Nat) : Json := .int n

mutual

/-- The value with the members of every object sorted by name. -/
def sortKeys : Json → Json
  | .arr xs => .arr (sortItems xs)
  | .obj fields =>
      .obj ((sortFields fields).insertionSort fun a b => a.1 ≤ b.1)
  | j => j

/-- The items, each sorted. -/
def sortItems : List Json → List Json
  | [] => []
  | x :: xs => sortKeys x :: sortItems xs

/-- The members, the values sorted. -/
def sortFields : List (List Char × Json) → List (List Char × Json)
  | [] => []
  | (k, v) :: fields => (k, sortKeys v) :: sortFields fields

end

end Json

end DouyinCaption

import DouyinCaption.Library.Json

/-!
# Reading JSON

A reader for the values of JSON with integers for numbers: blanks between the tokens, all
escapes of a string, surrogate pairs among them. It gives back every value from its compact
text (`loads_dumps`).

Each call of the reader goes past at least one character, so the length of the text is fuel
enough.
-/

namespace DouyinCaption.Json

/-! ## Tokens -/

/-- The blanks of JSON. -/
def isBlank (c : Char) : Bool := c = ' ' || c = '\t' || c = '\n' || c = '\r'

/-- Go past the blanks. -/
def skip (s : List Char) : List Char := s.dropWhile isBlank

/-- The value of a hexadecimal digit. -/
def hexDigit (c : Char) : Option ℕ :=
  if c.isDigit then some (c.toNat - '0'.toNat)
  else if 'a' ≤ c ∧ c ≤ 'f' then some (c.toNat - 'a'.toNat + 10)
  else if 'A' ≤ c ∧ c ≤ 'F' then some (c.toNat - 'A'.toNat + 10)
  else none

/-- Four hexadecimal digits. -/
def hexUnit : List Char → Option (ℕ × List Char)
  | a :: b :: c :: d :: r => do
      let a ← hexDigit a
      let b ← hexDigit b
      let c ← hexDigit c
      let d ← hexDigit d
      return (((a * 16 + b) * 16 + c) * 16 + d, r)
  | _ => none

/-- The code point after `\u`: one unit, or a pair of surrogates. -/
def readUnits (s : List Char) : Option (Char × List Char) := do
  let (high, r) ← hexUnit s
  if 0xd800 ≤ high ∧ high < 0xdc00 then
    match r with
    | '\\' :: 'u' :: r => do
        let (low, r) ← hexUnit r
        if 0xdc00 ≤ low ∧ low < 0xe000 then
          return (Char.ofNat (0x10000 + (high - 0xd800) * 0x400 + (low - 0xdc00)), r)
        else none
    | _ => none
  else if 0xdc00 ≤ high ∧ high < 0xe000 then none
  else return (Char.ofNat high, r)

/-- The code point after a backslash. -/
def readEscape : List Char → Option (Char × List Char)
  | [] => none
  | e :: r =>
      if e = '"' ∨ e = '\\' ∨ e = '/' then some (e, r)
      else if e = 'n' then some ('\n', r)
      else if e = 'r' then some ('\r', r)
      else if e = 't' then some ('\t', r)
      else if e = 'b' then some ('\x08', r)
      else if e = 'f' then some ('\x0c', r)
      else if e = 'u' then readUnits r
      else none

/-- One code point of a string; the closing quote is none, and neither is a control
character. -/
def readChar : List Char → Option (Char × List Char)
  | [] => none
  | c :: r =>
      if c = '\\' then readEscape r
      else if c = '"' ∨ c.toNat < 32 then none
      else some (c, r)

/-- The rest of a string after its opening quote. -/
def readString : ℕ → List Char → Option (List Char × List Char)
  | 0, _ => none
  | _ + 1, [] => none
  | n + 1, c :: r =>
      if c = '"' then some ([], r)
      else do
        let (c, r) ← readChar (c :: r)
        let (cs, r) ← readString n r
        return (c :: cs, r)

/-- An integer. -/
def readNumber : List Char → Option (Json × List Char)
  | [] => none
  | c :: r =>
      if c = '-' then
        if r.takeWhile Char.isDigit = [] then none
        else some (.int (-(Nat.ofDigitChars 10 (r.takeWhile Char.isDigit) 0 : ℤ)),
          r.dropWhile Char.isDigit)
      else if c.isDigit then
        some (.int (Nat.ofDigitChars 10 ((c :: r).takeWhile Char.isDigit) 0 : ℕ),
          (c :: r).dropWhile Char.isDigit)
      else none

/-- A fixed word. -/
def readWord (w : List Char) (j : Json) (s : List Char) : Option (Json × List Char) :=
  if w.isPrefixOf s then some (j, s.drop w.length) else none

/-! ## Values -/

mutual

/-- A value. -/
def readValue : ℕ → List Char → Option (Json × List Char)
  | 0, _ => none
  | n + 1, s =>
      match skip s with
      | [] => none
      | c :: r =>
          if c = 'n' then readWord ['u', 'l', 'l'] .null r
          else if c = 't' then readWord ['r', 'u', 'e'] (.bool true) r
          else if c = 'f' then readWord ['a', 'l', 's', 'e'] (.bool false) r
          else if c = '"' then (readString (r.length + 1) r).map fun (s, r) => (.str s, r)
          else if c = '[' then
            if (skip r).head? = some ']' then some (.arr [], (skip r).tail)
            else do
              let (x, r) ← readValue n r
              let (xs, r) ← readItems n r
              return (.arr (x :: xs), r)
          else if c = '{' then
            if (skip r).head? = some '}' then some (.obj [], (skip r).tail)
            else do
              let (f, r) ← readField n r
              let (fs, r) ← readFields n r
              return (.obj (f :: fs), r)
          else readNumber (c :: r)
termination_by structural n => n

/-- The items of an array after the first. -/
def readItems : ℕ → List Char → Option (List Json × List Char)
  | 0, _ => none
  | n + 1, s =>
      match skip s with
      | [] => none
      | c :: r =>
          if c = ']' then some ([], r)
          else if c = ',' then do
            let (x, r) ← readValue n r
            let (xs, r) ← readItems n r
            return (x :: xs, r)
          else none
termination_by structural n => n

/-- One member of an object. -/
def readField : ℕ → List Char → Option ((List Char × Json) × List Char)
  | 0, _ => none
  | n + 1, s =>
      match skip s with
      | [] => none
      | c :: r =>
          if c = '"' then do
            let (k, r) ← readString (r.length + 1) r
            match skip r with
            | [] => none
            | c :: r =>
                if c = ':' then do
                  let (v, r) ← readValue n r
                  return ((k, v), r)
                else none
          else none
termination_by structural n => n

/-- The members of an object after the first. -/
def readFields : ℕ → List Char → Option (List (List Char × Json) × List Char)
  | 0, _ => none
  | n + 1, s =>
      match skip s with
      | [] => none
      | c :: r =>
          if c = '}' then some ([], r)
          else if c = ',' then do
            let (f, r) ← readField n r
            let (fs, r) ← readFields n r
            return (f :: fs, r)
          else none
termination_by structural n => n

end

/-- Decode a text. -/
def loads (s : List Char) : Option Json :=
  match readValue (s.length + 1) s with
  | some (j, r) => if skip r = [] then some j else none
  | none => none

/-! ## Reading back what is written -/

theorem hexDigit_digits : ∀ n < 32, hexUnit ['0', '0', Nat.digitChar (n / 16),
    Nat.digitChar (n % 16)] = some (n, []) := by
  decide

theorem hexUnit_append {s r : List Char} {n : ℕ} (h : hexUnit s = some (n, [])) :
    hexUnit (s ++ r) = some (n, r) := by
  match s, h with
  | [a, b, c, d], h =>
    simp only [hexUnit, List.cons_append, List.nil_append] at h ⊢
    cases ha : hexDigit a <;> simp_all
    cases hb : hexDigit b <;> simp_all
    cases hc : hexDigit c <;> simp_all
    cases hd : hexDigit d <;> simp_all
  | a :: b :: c :: d :: e :: r', h =>
    simp only [hexUnit] at h
    cases ha : hexDigit a <;> simp_all
    cases hb : hexDigit b <;> simp_all
    cases hc : hexDigit c <;> simp_all
    cases hd : hexDigit d <;> simp_all

/-- A written code point is read back. -/
theorem readChar_escapeChar (c : Char) (r : List Char) :
    readChar (escapeChar c ++ r) = some (c, r) := by
  rw [escapeChar]
  split_ifs with h₁ h₂ h₃ h₄ h₅ h₆ h₇ h₈
  · subst h₁; rfl
  · subst h₂; rfl
  · subst h₃; rfl
  · subst h₄; rfl
  · subst h₅; rfl
  · subst h₆; rfl
  · subst h₇; rfl
  · have hunit : hexUnit ('0' :: '0' :: Nat.digitChar (c.toNat / 16) ::
        Nat.digitChar (c.toNat % 16) :: r) = some (c.toNat, r) :=
      hexUnit_append (hexDigit_digits c.toNat h₈)
    have hread : readUnits ('0' :: '0' :: Nat.digitChar (c.toNat / 16) ::
        Nat.digitChar (c.toNat % 16) :: r) = some (Char.ofNat c.toNat, r) := by
      simp only [readUnits, hunit, Option.bind_eq_bind, Option.bind_some]
      rw [if_neg (by omega), if_neg (by omega)]
      rfl
    rw [Char.ofNat_toNat] at hread
    exact hread
  · rw [List.singleton_append, readChar, if_neg h₂, if_neg (by simp [h₁, h₈])]

theorem readString_cons {n : ℕ} {c d : Char} {cs r r' s : List Char} (hne : c ≠ '"')
    (hc : readChar (c :: r) = some (d, r')) (hs : readString n r' = some (cs, s)) :
    readString (n + 1) (c :: r) = some (d :: cs, s) := by
  simp only [readString, if_neg hne, hc, hs, Option.bind_eq_bind, Option.bind_some]
  rfl

/-- The text of a code point does not start with the quote. -/
theorem escapeChar_head (c : Char) : ∃ d e, escapeChar c = d :: e ∧ d ≠ '"' := by
  rw [escapeChar]
  split_ifs <;> refine ⟨_, _, rfl, ?_⟩ <;> first
    | decide
    | assumption

/-- A written string is read back up to its closing quote. -/
theorem readString_escape : ∀ (s : List Char) {n : ℕ} {x : List Char}, s.length < n →
    readString n (escape s ++ '"' :: x) = some (s, x) := by
  intro s
  induction s with
  | nil =>
    rintro (_ | n) x hn
    · cases hn
    · rfl
  | cons c s ih =>
    rintro (_ | n) x hn
    · cases hn
    · have hread := readChar_escapeChar c (escape s ++ '"' :: x)
      have hrest := ih (n := n) (x := x) (Nat.lt_of_succ_lt_succ hn)
      obtain ⟨d, e, he, hne⟩ := escapeChar_head c
      have htext : escape (c :: s) ++ '"' :: x = d :: (e ++ (escape s ++ '"' :: x)) := by
        rw [escape, List.flatMap_cons, he, List.append_assoc, List.cons_append]
        rfl
      rw [he, List.cons_append] at hread
      rw [htext]
      exact readString_cons hne hread hrest

/-- A string is as short as its text. -/
theorem length_le_escape (s : List Char) : s.length ≤ (escape s).length := by
  induction s with
  | nil => exact le_rfl
  | cons c s ih =>
    obtain ⟨d, e, he, -⟩ := escapeChar_head c
    rw [escape, List.flatMap_cons, he, List.length_append, List.length_cons, List.length_cons]
    have : (List.flatMap escapeChar s).length = (escape s).length := rfl
    omega

theorem takeWhile_append_of_ends {a x : List Char} (ha : ∀ c ∈ a, c.isDigit) (hx : Ends x) :
    (a ++ x).takeWhile Char.isDigit = a ∧ (a ++ x).dropWhile Char.isDigit = x := by
  have hx' : x.takeWhile Char.isDigit = [] ∧ x.dropWhile Char.isDigit = x := by
    cases x with
    | nil => exact ⟨rfl, rfl⟩
    | cons c x =>
      have hc := hx c rfl
      rw [List.takeWhile_cons, List.dropWhile_cons, hc]
      exact ⟨rfl, rfl⟩
  rw [List.takeWhile_append_of_pos ha, List.dropWhile_append_of_pos ha, hx'.1, hx'.2,
    List.append_nil]
  exact ⟨rfl, rfl⟩

/-- A written integer is read back. -/
theorem readNumber_intText (m : ℤ) {x : List Char} (hx : Ends x) :
    readNumber (intText m ++ x) = some (.int m, x) := by
  cases m with
  | ofNat m =>
    obtain ⟨ht, hd⟩ := takeWhile_append_of_ends
      (fun c hc => isDigit_of_mem_toDigits (n := m) hc) hx
    have hvalue := Nat.ofDigitChars_ten_toDigits (n := m)
    rcases hm : Nat.toDigits 10 m with _ | ⟨c, r⟩
    · exact absurd hm Nat.toDigits_ne_nil
    · have hc : c.isDigit = true := isDigit_of_mem_toDigits (n := m) (by rw [hm]; simp)
      have hne : c ≠ '-' := by
        rintro rfl
        cases hc
      rw [hm, List.cons_append] at ht hd
      rw [hm] at hvalue
      simp only [intText, hm, List.cons_append, readNumber, if_neg hne, if_pos hc, ht, hd, hvalue]
      rfl
  | negSucc m =>
    obtain ⟨ht, hd⟩ := takeWhile_append_of_ends
      (fun c hc => isDigit_of_mem_toDigits (n := m + 1) hc) hx
    have hvalue := Nat.ofDigitChars_ten_toDigits (n := m + 1)
    simp only [intText, List.cons_append, readNumber, if_pos, ht, hd, hvalue,
      if_neg Nat.toDigits_ne_nil]
    rfl

/-! ## Values -/

theorem readWord_append (w x : List Char) (j : Json) : readWord w j (w ++ x) = some (j, x) := by
  rw [readWord, if_pos (List.isPrefixOf_iff_prefix.mpr (List.prefix_append w x)),
    List.drop_left]

theorem skip_cons {c : Char} {r : List Char} (h : isBlank c = false) : skip (c :: r) = c :: r := by
  rw [skip, List.dropWhile_cons, h]
  rfl

/-- What starts a number starts no other value. -/
theorem ne_of_number {c : Char} (h : c = '-' ∨ c.isDigit = true) :
    isBlank c = false ∧ c ≠ 'n' ∧ c ≠ 't' ∧ c ≠ 'f' ∧ c ≠ '"' ∧ c ≠ '[' ∧ c ≠ '{' ∧ c ≠ ']' := by
  rcases h with rfl | h
  · decide
  · have hne : ∀ d : Char, d.isDigit = false → c ≠ d := by
      rintro d hd rfl
      rw [h] at hd
      cases hd
    simp [isBlank, hne]

/-- The first character of a value is no blank, and closes nothing. -/
theorem dumps_lead (j : Json) : ∃ c r, dumps j = c :: r ∧ isBlank c = false ∧ c ≠ ']' := by
  match j with
  | .null | .bool true | .bool false | .str s | .arr [] | .arr (x :: xs) | .obj []
  | .obj (f :: fs) => exact ⟨_, _, rfl, rfl, by decide⟩
  | .int n =>
    obtain ⟨c, r, hr, hc⟩ := intText_head n
    obtain ⟨hblank, -, -, -, -, -, -, hclose⟩ := ne_of_number hc
    exact ⟨c, r, hr, hblank, hclose⟩

theorem dumpsField_lead (f : List Char × Json) : ∃ r, dumpsField f = '"' :: r := by
  obtain ⟨k, v⟩ := f
  exact ⟨_, rfl⟩

theorem readString_strText (s x : List Char) :
    ∃ r, strText s ++ x = '"' :: r ∧ readString (r.length + 1) r = some (s, x) := by
  refine ⟨escape s ++ '"' :: x, by simp [strText], readString_escape s ?_⟩
  have := length_le_escape s
  rw [List.length_append]
  omega

mutual

/-- **What is written is read back**, with the length of the text for fuel. -/
theorem readValue_dumps : ∀ (j : Json) {n : ℕ} {x : List Char}, (dumps j).length ≤ n → Ends x →
    readValue n (dumps j ++ x) = some (j, x)
  | .null, n + 1, x, _, _ => by
      simp only [dumps, List.cons_append, readValue, skip_cons (rfl : isBlank 'n' = false)]
      exact readWord_append ['u', 'l', 'l'] x .null
  | .bool true, n + 1, x, _, _ => by
      simp only [dumps, List.cons_append, readValue, skip_cons (rfl : isBlank 't' = false)]
      exact readWord_append ['r', 'u', 'e'] x (.bool true)
  | .bool false, n + 1, x, _, _ => by
      simp only [dumps, List.cons_append, readValue, skip_cons (rfl : isBlank 'f' = false)]
      exact readWord_append ['a', 'l', 's', 'e'] x (.bool false)
  | .int m, n + 1, x, _, hx => by
      obtain ⟨c, r, hr, hc⟩ := intText_head m
      obtain ⟨hb, hn, ht, hf, hq, ha, ho, -⟩ := ne_of_number hc
      have hread := readNumber_intText m hx
      rw [hr, List.cons_append] at hread
      simp only [dumps, hr, List.cons_append, readValue, skip_cons hb, if_neg hn, if_neg ht,
        if_neg hf, if_neg hq, if_neg ha, if_neg ho]
      exact hread
  | .str s, n + 1, x, _, _ => by
      obtain ⟨r, htext, hread⟩ := readString_strText s x
      simp only [dumps, htext, readValue, skip_cons (rfl : isBlank '"' = false)]
      rw [if_neg (by decide), if_neg (by decide), if_neg (by decide), if_pos trivial, hread]
      rfl
  | .arr [], n + 1, x, _, _ => by
      simp only [dumps, List.cons_append, List.nil_append, readValue,
        skip_cons (rfl : isBlank '[' = false), skip_cons (rfl : isBlank ']' = false)]
      rfl
  | .arr (y :: ys), n + 1, x, hn, _ => by
      simp only [dumps, List.length_cons, List.length_append, Nat.add_le_add_iff_right] at hn
      have hy := readValue_dumps y (n := n) (x := dumpsItems ys ++ x) (by omega)
        (ends_dumpsItems ys x)
      have hys := readItems_dumps ys (n := n) (x := x) (by omega)
      obtain ⟨c, r, hc, hblank, hclose⟩ := dumps_lead y
      have hnot : (skip (dumps y ++ (dumpsItems ys ++ x))).head? ≠ some ']' := by
        rw [hc, List.cons_append, skip_cons hblank]
        exact fun e => hclose (Option.some.inj e)
      simp only [dumps, List.cons_append, List.append_assoc, readValue,
        skip_cons (rfl : isBlank '[' = false)]
      rw [if_neg (by decide), if_neg (by decide), if_neg (by decide), if_neg (by decide),
        if_pos trivial, if_neg hnot, hy]
      simp only [Option.bind_eq_bind, Option.bind_some, hys]
      rfl
  | .obj [], n + 1, x, _, _ => by
      simp only [dumps, List.cons_append, List.nil_append, readValue,
        skip_cons (rfl : isBlank '{' = false), skip_cons (rfl : isBlank '}' = false)]
      rfl
  | .obj (f :: fs), n + 1, x, hn, _ => by
      simp only [dumps, List.length_cons, List.length_append, Nat.add_le_add_iff_right] at hn
      have hf := readField_dumps f (n := n) (x := dumpsFields fs ++ x) (by omega)
        (ends_dumpsFields fs x)
      have hfs := readFields_dumps fs (n := n) (x := x) (by omega)
      obtain ⟨r, hr⟩ := dumpsField_lead f
      have hnot : (skip (dumpsField f ++ (dumpsFields fs ++ x))).head? ≠ some '}' := by
        rw [hr, List.cons_append, skip_cons rfl]
        exact fun e => absurd (Option.some.inj e) (by decide)
      simp only [dumps, List.cons_append, List.append_assoc, readValue,
        skip_cons (rfl : isBlank '{' = false)]
      rw [if_neg (by decide), if_neg (by decide), if_neg (by decide), if_neg (by decide),
        if_neg (by decide), if_pos trivial, if_neg hnot, hf]
      simp only [Option.bind_eq_bind, Option.bind_some, hfs]
      rfl
  | j, 0, x, hn, _ => by
      obtain ⟨c, r, hc, -⟩ := dumps_lead j
      rw [hc] at hn
      cases hn

theorem readItems_dumps : ∀ (xs : List Json) {n : ℕ} {x : List Char},
    (dumpsItems xs).length ≤ n → readItems n (dumpsItems xs ++ x) = some (xs, x)
  | [], n + 1, x, _ => by
      simp only [dumpsItems, List.cons_append, List.nil_append, readItems,
        skip_cons (rfl : isBlank ']' = false)]
      rfl
  | y :: ys, n + 1, x, hn => by
      simp only [dumpsItems, List.length_cons, List.length_append, Nat.add_le_add_iff_right] at hn
      have hy := readValue_dumps y (n := n) (x := dumpsItems ys ++ x) (by omega)
        (ends_dumpsItems ys x)
      have hys := readItems_dumps ys (n := n) (x := x) (by omega)
      simp only [dumpsItems, List.cons_append, List.append_assoc, readItems,
        skip_cons (rfl : isBlank ',' = false)]
      rw [if_neg (by decide), if_pos trivial, hy]
      simp only [Option.bind_eq_bind, Option.bind_some, hys]
      rfl
  | xs, 0, x, hn => by
      cases xs <;> cases hn

theorem readField_dumps : ∀ (f : List Char × Json) {n : ℕ} {x : List Char},
    (dumpsField f).length ≤ n → Ends x → readField n (dumpsField f ++ x) = some (f, x)
  | (k, v), n + 1, x, hn, hx => by
      simp only [dumpsField, strText, List.length_cons, List.length_append,
        List.length_nil] at hn
      have hv := readValue_dumps v (n := n) (x := x) (by omega) hx
      obtain ⟨r, htext, hread⟩ := readString_strText k (':' :: (dumps v ++ x))
      simp only [dumpsField, List.cons_append, List.append_assoc, htext, readField,
        skip_cons (rfl : isBlank '"' = false)]
      rw [if_pos trivial, hread]
      simp only [Option.bind_eq_bind, Option.bind_some,
        skip_cons (rfl : isBlank ':' = false), hv]
      rfl
  | f, 0, x, hn, _ => by
      obtain ⟨r, hr⟩ := dumpsField_lead f
      rw [hr] at hn
      cases hn

theorem readFields_dumps : ∀ (fs : List (List Char × Json)) {n : ℕ} {x : List Char},
    (dumpsFields fs).length ≤ n → readFields n (dumpsFields fs ++ x) = some (fs, x)
  | [], n + 1, x, _ => by
      simp only [dumpsFields, List.cons_append, List.nil_append, readFields,
        skip_cons (rfl : isBlank '}' = false)]
      rfl
  | f :: fs, n + 1, x, hn => by
      simp only [dumpsFields, List.length_cons, List.length_append,
        Nat.add_le_add_iff_right] at hn
      have hf := readField_dumps f (n := n) (x := dumpsFields fs ++ x) (by omega)
        (ends_dumpsFields fs x)
      have hfs := readFields_dumps fs (n := n) (x := x) (by omega)
      simp only [dumpsFields, List.cons_append, List.append_assoc, readFields,
        skip_cons (rfl : isBlank ',' = false)]
      rw [if_neg (by decide), if_pos trivial, hf]
      simp only [Option.bind_eq_bind, Option.bind_some, hfs]
      rfl
  | fs, 0, x, hn => by
      cases fs <;> cases hn

end

/-- **The compact text of a value decodes to it.** -/
theorem loads_dumps (j : Json) : loads (dumps j) = some j := by
  have hends : Ends [] := fun c hc => nomatch hc
  have hread := readValue_dumps j (n := (dumps j).length + 1) (Nat.le_succ _) hends
  rw [List.append_nil] at hread
  rw [loads, hread]
  rfl

end DouyinCaption.Json

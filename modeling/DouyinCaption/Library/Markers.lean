import DouyinCaption.Library.Json
import DouyinCaption.Library.Occurrences

/-!
# Markers around a JSON text

A marker is a word that stands in the compact text of a value only inside its strings: it has
no character a string escapes or the syntax uses, and its first character, which it has only
once, is in no number, name or escape. So a value's text contains a marker exactly where one of
its strings does (`marker_infix_iff`), and the first marker after a text that contains none is
the one written behind it (`findFrom_marker`).
-/

namespace DouyinCaption

open Occurrences

/-! ## Words between separators -/

theorem infix_cons_of_ne {α : Type*} {w l : List α} {c d : α} {v : List α} (hw : w = d :: v)
    (hne : d ≠ c) : w <:+: c :: l ↔ w <:+: l := by
  rw [List.infix_cons_iff]
  refine ⟨fun h => h.resolve_left fun hp => ?_, .inr⟩
  rw [hw, List.cons_prefix_cons] at hp
  exact hne hp.1

/-- A word without the separator stands before it or after it. -/
theorem infix_of_separator {α : Type*} {w a b : List α} {s : α} (hs : s ∉ w)
    (h : w <:+: a ++ s :: b) : w <:+: a ∨ w <:+: b := by
  induction a with
  | nil =>
    rw [List.nil_append, List.infix_cons_iff] at h
    rcases h with h | h
    · cases w with
      | nil => exact .inr List.nil_infix
      | cons c w =>
        rw [List.cons_prefix_cons] at h
        exact absurd (h.1 ▸ List.mem_cons_self) hs
    · exact .inr h
  | cons c a ih =>
    rw [List.cons_append, List.infix_cons_iff] at h
    rcases h with h | h
    · -- the word ends before the separator
      obtain ⟨rest, hrest⟩ := h
      rcases List.append_eq_append_iff.mp
        (show w ++ rest = (c :: a) ++ s :: b from hrest) with ⟨m, hm, -⟩ | ⟨m, hm, hm'⟩
      · exact .inl ⟨[], m, by rw [List.nil_append, hm]⟩
      · cases m with
        | nil => exact .inl ⟨[], [], by rw [hm]; simp⟩
        | cons d m =>
          obtain ⟨rfl, -⟩ := List.cons.inj hm'
          exact absurd (hm ▸ by simp) hs
    · exact (ih h).imp_left fun h => h.trans (List.infix_cons (List.infix_refl a))

namespace Json

/-! ## Markers -/

/-- The characters of the syntax around strings. -/
def syntaxChars : List Char := ['"', '\\', ',', ':', '[', ']', '{', '}']

/-- The characters of numbers, names and escapes. -/
def lexemeChars : List Char :=
  ['-', '0', '1', '2', '3', '4', '5', '6', '7', '8', '9', 'a', 'b', 'c', 'd', 'e', 'f', 'l', 'n',
    'r', 's', 't', 'u', '"', '\\']

/-- The characters of a fixed text can be checked one by one. -/
theorem mem_lexemeChars_of_all {l : List Char} (h : l.all (· ∈ lexemeChars) = true) :
    ∀ c ∈ l, c ∈ lexemeChars := fun c hc => of_decide_eq_true (List.all_eq_true.mp h c hc)

/-- A word that is neither escaped nor part of the syntax. -/
structure Marker (w : List Char) : Prop where
  /-- no character is escaped or separates -/
  plain : ∀ c ∈ w, escapeChar c = [c] ∧ c ∉ syntaxChars
  /-- the first character is in no number, name or escape, and only there -/
  lead : ∃ c v, w = c :: v ∧ c ∉ lexemeChars ∧ c ∉ v

theorem plain_of_all {w : List Char}
    (h : w.all (fun c => escapeChar c == [c] && decide (c ∉ syntaxChars)) = true) :
    ∀ c ∈ w, escapeChar c = [c] ∧ c ∉ syntaxChars := by
  intro c hc
  obtain ⟨hescape, hsyntax⟩ := Bool.and_eq_true_iff.mp (List.all_eq_true.mp h c hc)
  exact ⟨beq_iff_eq.mp hescape, of_decide_eq_true hsyntax⟩

mutual

/-- The strings of a value, the names of members among them. -/
def strings : Json → List (List Char)
  | .str s => [s]
  | .arr xs => itemStrings xs
  | .obj fs => fieldStrings fs
  | .null | .bool _ | .int _ => []
termination_by structural j => j

/-- The strings of the items. -/
def itemStrings : List Json → List (List Char)
  | [] => []
  | x :: xs => strings x ++ itemStrings xs
termination_by structural xs => xs

/-- The strings of one member. -/
def memberStrings : List Char × Json → List (List Char)
  | (k, v) => k :: strings v
termination_by structural f => f

/-- The strings of the members. -/
def fieldStrings : List (List Char × Json) → List (List Char)
  | [] => []
  | f :: fs => memberStrings f ++ fieldStrings fs
termination_by structural fs => fs

end

section Marked

variable {w : List Char} (hw : Marker w)
include hw

theorem Marker.not_mem_syntax {c : Char} (hc : c ∈ syntaxChars) : c ∉ w := fun h =>
  (hw.plain c h).2 hc

theorem Marker.escape_eq : escape w = w := by
  have hall : ∀ v : List Char, (∀ c ∈ v, escapeChar c = [c]) → escape v = v := by
    intro v
    induction v with
    | nil => exact fun _ => rfl
    | cons c v ih =>
      intro h
      have hc := h c List.mem_cons_self
      have hv := ih fun d hd => h d (List.mem_cons_of_mem _ hd)
      rw [escape, List.flatMap_cons, hc, List.singleton_append]
      exact congrArg (c :: ·) hv
  exact hall w fun c hc => (hw.plain c hc).1

end Marked

/-- The text of a code point is the code point or an escape. -/
theorem escapeChar_cases (c : Char) : escapeChar c = [c] ∨
    ∃ e, escapeChar c = '\\' :: e ∧ ∀ d ∈ e, d ∈ lexemeChars := by
  have hhex : ∀ n < 32, Nat.digitChar (n / 16) ∈ lexemeChars ∧
      Nat.digitChar (n % 16) ∈ lexemeChars := by decide
  rw [escapeChar]
  split_ifs with h₁ h₂ h₃ h₄ h₅ h₆ h₇ h₈
  · exact .inr ⟨_, rfl, mem_lexemeChars_of_all (by decide)⟩
  · exact .inr ⟨_, rfl, mem_lexemeChars_of_all (by decide)⟩
  · exact .inr ⟨_, rfl, mem_lexemeChars_of_all (by decide)⟩
  · exact .inr ⟨_, rfl, mem_lexemeChars_of_all (by decide)⟩
  · exact .inr ⟨_, rfl, mem_lexemeChars_of_all (by decide)⟩
  · exact .inr ⟨_, rfl, mem_lexemeChars_of_all (by decide)⟩
  · exact .inr ⟨_, rfl, mem_lexemeChars_of_all (by decide)⟩
  · obtain ⟨ha, hb⟩ := hhex c.toNat h₈
    refine .inr ⟨_, rfl, fun d hd => ?_⟩
    simp only [List.mem_cons, List.not_mem_nil, or_false] at hd
    rcases hd with rfl | rfl | rfl | rfl | rfl
    · decide
    · decide
    · decide
    · exact ha
    · exact hb
  · exact .inl rfl

/-- A plain word at the front of a written string is at the front of the string. -/
theorem prefix_of_prefix_escape : ∀ {v s : List Char},
    (∀ c ∈ v, escapeChar c = [c] ∧ c ∉ syntaxChars) → v <+: escape s → v <+: s := by
  intro v
  induction v with
  | nil => exact fun _ _ => List.nil_prefix
  | cons a v ih =>
    intro s hplain h
    cases s with
    | nil => exact h
    | cons c s =>
      rw [escape, List.flatMap_cons] at h
      rcases escapeChar_cases c with hc | ⟨e, hc, -⟩
      · rw [hc, List.singleton_append, List.cons_prefix_cons] at h
        obtain ⟨rfl, h⟩ := h
        exact List.cons_prefix_cons.mpr
          ⟨rfl, ih (fun d hd => hplain d (List.mem_cons_of_mem _ hd)) h⟩
      · rw [hc, List.cons_append, List.cons_prefix_cons] at h
        obtain ⟨rfl, -⟩ := h
        exact absurd (by decide) (hplain '\\' List.mem_cons_self).2

/-- A marker stands in a written string exactly where it stands in the string. -/
theorem infix_escape_iff {w : List Char} (hw : Marker w) (s : List Char) :
    w <:+: escape s ↔ w <:+: s := by
  constructor
  · obtain ⟨d, v, hd, hlead, -⟩ := hw.lead
    induction s with
    | nil => exact id
    | cons c s ih =>
      intro h
      rw [escape, List.flatMap_cons] at h
      rcases escapeChar_cases c with hc | ⟨e, hc, he⟩
      · rw [hc, List.singleton_append, List.infix_cons_iff] at h
        rcases h with h | h
        · have hprefix : w <+: escape (c :: s) := by
            rw [escape, List.flatMap_cons, hc]
            exact h
          exact (prefix_of_prefix_escape hw.plain hprefix).isInfix
        · exact (ih h).trans (List.infix_cons (List.infix_refl s))
      · -- the marker starts behind the escape
        have hbehind : ∀ l : List Char, (∀ x ∈ l, x ∈ lexemeChars) →
            w <:+: l ++ escape s → w <:+: escape s := by
          intro l
          induction l with
          | nil => exact fun _ h => h
          | cons x l ih' =>
            intro hl h
            rw [List.cons_append, infix_cons_of_ne hd fun e =>
              hlead (e ▸ hl x List.mem_cons_self)] at h
            exact ih' (fun y hy => hl y (List.mem_cons_of_mem _ hy)) h
        have hall : ∀ x ∈ '\\' :: e, x ∈ lexemeChars := by
          intro x hx
          rcases List.mem_cons.mp hx with rfl | hx
          · decide
          · exact he x hx
        rw [hc] at h
        exact (ih (hbehind _ hall h)).trans (List.infix_cons (List.infix_refl s))
  · rintro ⟨a, b, rfl⟩
    refine ⟨escape a, escape b, ?_⟩
    rw [escape, escape, escape, List.flatMap_append, List.flatMap_append]
    exact congrArg (fun x => List.flatMap escapeChar a ++ x ++ List.flatMap escapeChar b)
      hw.escape_eq.symm

/-- A marker is no part of a number or a name. -/
theorem Marker.not_infix {w l : List Char} (hw : Marker w) (hl : ∀ c ∈ l, c ∈ lexemeChars) :
    ¬ w <:+: l := by
  obtain ⟨d, v, rfl, hd, -⟩ := hw.lead
  exact fun h => hd (hl d (h.subset List.mem_cons_self))

/-- A marker is not cut by the syntax. -/
theorem Marker.infix_append {w a b : List Char} (hw : Marker w)
    (hb : ∃ c r, b = c :: r ∧ c ∈ syntaxChars) (h : w <:+: a ++ b) : w <:+: a ∨ w <:+: b := by
  obtain ⟨c, r, rfl, hc⟩ := hb
  refine (infix_of_separator (hw.not_mem_syntax hc) h).imp_right fun h => ?_
  exact h.trans (List.infix_cons (List.infix_refl r))

theorem Marker.infix_cons {w l : List Char} {c : Char} (hw : Marker w) (hc : c ∈ syntaxChars) :
    w <:+: c :: l ↔ w <:+: l := by
  obtain ⟨d, v, hd, -, -⟩ := hw.lead
  refine infix_cons_of_ne hd ?_
  rintro rfl
  exact hw.not_mem_syntax hc (hd ▸ List.mem_cons_self)

theorem Marker.infix_strText_iff {w : List Char} (hw : Marker w) (s : List Char) :
    w <:+: strText s ↔ w <:+: s := by
  rw [strText, hw.infix_cons (by decide)]
  refine Iff.trans ⟨fun h => ?_, fun h => h.trans (List.prefix_append _ _).isInfix⟩
    (infix_escape_iff hw s)
  rcases hw.infix_append ⟨'"', [], rfl, by decide⟩ h with h | h
  · exact h
  · exact absurd h (hw.not_infix (mem_lexemeChars_of_all (by decide)))

theorem dumpsItems_cons (xs : List Json) : ∃ c r, dumpsItems xs = c :: r ∧ c ∈ syntaxChars := by
  cases xs with
  | nil => exact ⟨_, _, rfl, by decide⟩
  | cons x xs => exact ⟨_, _, rfl, by decide⟩

theorem dumpsFields_cons (fs : List (List Char × Json)) :
    ∃ c r, dumpsFields fs = c :: r ∧ c ∈ syntaxChars := by
  cases fs with
  | nil => exact ⟨_, _, rfl, by decide⟩
  | cons f fs => exact ⟨_, _, rfl, by decide⟩

theorem intText_lexemes (n : ℤ) : ∀ c ∈ intText n, c ∈ lexemeChars := by
  have hdigit : ∀ c : Char, c.isDigit = true → c ∈ lexemeChars := by
    intro c hc
    have hbounds : 48 ≤ c.toNat ∧ c.toNat ≤ 57 := by
      simpa [Char.isDigit, Char.le_def, UInt32.le_iff_toNat_le] using hc
    have hall : ∀ n < 58, 48 ≤ n → Char.ofNat n ∈ lexemeChars := by decide
    rw [← Char.ofNat_toNat c]
    exact hall _ (by omega) hbounds.1
  cases n with
  | ofNat n => exact fun c hc => hdigit c (isDigit_of_mem_toDigits hc)
  | negSucc n =>
    intro c hc
    rcases List.mem_cons.mp hc with rfl | hc
    · decide
    · exact hdigit c (isDigit_of_mem_toDigits hc)

mutual

/-- A marker in the text of a value stands in one of its strings. -/
theorem infix_of_dumps {w : List Char} (hw : Marker w) :
    ∀ j : Json, w <:+: dumps j → ∃ t ∈ strings j, w <:+: t
  | .null, h => absurd h (hw.not_infix (mem_lexemeChars_of_all (by decide)))
  | .bool true, h => absurd h (hw.not_infix (mem_lexemeChars_of_all (by decide)))
  | .bool false, h => absurd h (hw.not_infix (mem_lexemeChars_of_all (by decide)))
  | .int n, h => absurd h (hw.not_infix (intText_lexemes n))
  | .str s, h => ⟨s, List.mem_singleton_self s, (hw.infix_strText_iff s).mp h⟩
  | .arr [], h => by
      rw [dumps, hw.infix_cons (by decide), hw.infix_cons (by decide)] at h
      exact absurd h (hw.not_infix (by simp))
  | .arr (x :: xs), h => by
      rw [dumps, hw.infix_cons (by decide)] at h
      rcases hw.infix_append (dumpsItems_cons xs) h with h | h
      · obtain ⟨t, ht, hwt⟩ := infix_of_dumps hw x h
        exact ⟨t, List.mem_append_left _ ht, hwt⟩
      · obtain ⟨t, ht, hwt⟩ := infix_of_dumpsItems hw xs h
        exact ⟨t, List.mem_append_right _ ht, hwt⟩
  | .obj [], h => by
      rw [dumps, hw.infix_cons (by decide), hw.infix_cons (by decide)] at h
      exact absurd h (hw.not_infix (by simp))
  | .obj (f :: fs), h => by
      rw [dumps, hw.infix_cons (by decide)] at h
      rcases hw.infix_append (dumpsFields_cons fs) h with h | h
      · obtain ⟨t, ht, hwt⟩ := infix_of_dumpsField hw f h
        exact ⟨t, List.mem_append_left _ ht, hwt⟩
      · obtain ⟨t, ht, hwt⟩ := infix_of_dumpsFields hw fs h
        exact ⟨t, List.mem_append_right _ ht, hwt⟩

theorem infix_of_dumpsItems {w : List Char} (hw : Marker w) :
    ∀ xs : List Json, w <:+: dumpsItems xs → ∃ t ∈ itemStrings xs, w <:+: t
  | [], h => by
      rw [dumpsItems, hw.infix_cons (by decide)] at h
      exact absurd h (hw.not_infix (by simp))
  | x :: xs, h => by
      rw [dumpsItems, hw.infix_cons (by decide)] at h
      rcases hw.infix_append (dumpsItems_cons xs) h with h | h
      · obtain ⟨t, ht, hwt⟩ := infix_of_dumps hw x h
        exact ⟨t, List.mem_append_left _ ht, hwt⟩
      · obtain ⟨t, ht, hwt⟩ := infix_of_dumpsItems hw xs h
        exact ⟨t, List.mem_append_right _ ht, hwt⟩

theorem infix_of_dumpsField {w : List Char} (hw : Marker w) :
    ∀ f : List Char × Json, w <:+: dumpsField f → ∃ t ∈ memberStrings f, w <:+: t
  | (k, v), h => by
      rw [dumpsField] at h
      rcases hw.infix_append ⟨':', dumps v, rfl, by decide⟩ h with h | h
      · exact ⟨k, List.mem_cons_self, (hw.infix_strText_iff k).mp h⟩
      · rw [hw.infix_cons (by decide)] at h
        obtain ⟨t, ht, hwt⟩ := infix_of_dumps hw v h
        exact ⟨t, List.mem_cons_of_mem _ ht, hwt⟩

theorem infix_of_dumpsFields {w : List Char} (hw : Marker w) :
    ∀ fs : List (List Char × Json), w <:+: dumpsFields fs → ∃ t ∈ fieldStrings fs, w <:+: t
  | [], h => by
      rw [dumpsFields, hw.infix_cons (by decide)] at h
      exact absurd h (hw.not_infix (by simp))
  | f :: fs, h => by
      rw [dumpsFields, hw.infix_cons (by decide)] at h
      rcases hw.infix_append (dumpsFields_cons fs) h with h | h
      · obtain ⟨t, ht, hwt⟩ := infix_of_dumpsField hw f h
        exact ⟨t, List.mem_append_left _ ht, hwt⟩
      · obtain ⟨t, ht, hwt⟩ := infix_of_dumpsFields hw fs h
        exact ⟨t, List.mem_append_right _ ht, hwt⟩

end

mutual

/-- Every string of a value is written in its text. -/
theorem strText_infix_dumps : ∀ (j : Json), ∀ t ∈ strings j, strText t <:+: dumps j
  | .null, _, h | .bool true, _, h | .bool false, _, h | .int _, _, h | .arr [], _, h
  | .obj [], _, h => nomatch h
  | .str s, t, h => by
      obtain rfl := List.mem_singleton.mp h
      exact List.infix_refl _
  | .arr (x :: xs), t, h => by
      refine List.IsInfix.trans ?_ (List.infix_cons (List.infix_refl _))
      rcases List.mem_append.mp h with h | h
      · exact (strText_infix_dumps x t h).trans (List.prefix_append _ _).isInfix
      · exact (strText_infix_dumpsItems xs t h).trans (List.suffix_append _ _).isInfix
  | .obj (f :: fs), t, h => by
      refine List.IsInfix.trans ?_ (List.infix_cons (List.infix_refl _))
      rcases List.mem_append.mp h with h | h
      · exact (strText_infix_dumpsField f t h).trans (List.prefix_append _ _).isInfix
      · exact (strText_infix_dumpsFields fs t h).trans (List.suffix_append _ _).isInfix

theorem strText_infix_dumpsItems : ∀ (xs : List Json), ∀ t ∈ itemStrings xs,
    strText t <:+: dumpsItems xs
  | [], _, h => nomatch h
  | x :: xs, t, h => by
      refine List.IsInfix.trans ?_ (List.infix_cons (List.infix_refl _))
      rcases List.mem_append.mp h with h | h
      · exact (strText_infix_dumps x t h).trans (List.prefix_append _ _).isInfix
      · exact (strText_infix_dumpsItems xs t h).trans (List.suffix_append _ _).isInfix

theorem strText_infix_dumpsField : ∀ (f : List Char × Json), ∀ t ∈ memberStrings f,
    strText t <:+: dumpsField f
  | (k, v), t, h => by
      rcases List.mem_cons.mp h with rfl | h
      · exact (List.prefix_append _ _).isInfix
      · refine (strText_infix_dumps v t h).trans ?_
        exact (List.infix_cons (List.infix_refl _)).trans (List.suffix_append _ _).isInfix

theorem strText_infix_dumpsFields : ∀ (fs : List (List Char × Json)), ∀ t ∈ fieldStrings fs,
    strText t <:+: dumpsFields fs
  | [], _, h => nomatch h
  | f :: fs, t, h => by
      refine List.IsInfix.trans ?_ (List.infix_cons (List.infix_refl _))
      rcases List.mem_append.mp h with h | h
      · exact (strText_infix_dumpsField f t h).trans (List.prefix_append _ _).isInfix
      · exact (strText_infix_dumpsFields fs t h).trans (List.suffix_append _ _).isInfix

end

/-- **A text contains a marker exactly where one of the strings does.** -/
theorem marker_infix_iff {w : List Char} (hw : Marker w) (j : Json) :
    w <:+: dumps j ↔ ∃ t ∈ strings j, w <:+: t := by
  refine ⟨infix_of_dumps hw j, ?_⟩
  rintro ⟨t, ht, hwt⟩
  exact ((hw.infix_strText_iff t).mpr hwt).trans (strText_infix_dumps j t ht)

/-! ## The first marker -/

/-- Two places of a marker do not overlap: its first character is at its start only. -/
theorem Marker.eq_of_overlap {w a m r : List Char} (hw : Marker w) (ha : a ≠ [])
    (h : w = a ++ m) (h' : w = m ++ r) : w = a := by
  obtain ⟨c, v, hv, -, hc⟩ := hw.lead
  cases m with
  | nil => rw [h, List.append_nil]
  | cons d m =>
    obtain ⟨e, a, rfl⟩ := List.exists_cons_of_ne_nil ha
    obtain ⟨rfl, -⟩ := List.cons.inj (hv.symm.trans h')
    obtain ⟨-, rfl⟩ := List.cons.inj (hv.symm.trans h)
    exact absurd (List.mem_append_right a List.mem_cons_self) hc

/-- A marker behind a text that contains none is the first. -/
theorem Marker.findFrom_iff {w : List Char} (hw : Marker w) (p : List Char) :
    findFrom (p ++ w) w 0 = some p.length ↔ ¬ w <:+: p := by
  have hocc : OccursAt (p ++ w) w p.length := by
    rw [OccursAt, List.drop_left]
  obtain ⟨j, hj, hf⟩ := findFrom_le (Nat.zero_le _) (by simp) hocc
  rw [hf]
  constructor
  · rintro he ⟨a, b, rfl⟩
    -- an earlier marker would be found first
    have hearly : OccursAt (a ++ w ++ b ++ w) w a.length := by
      rw [OccursAt, List.append_assoc, List.append_assoc, List.drop_left]
      exact List.prefix_append _ _
    obtain ⟨i, hi, hf'⟩ := findFrom_le (Nat.zero_le _) (by simp) hearly
    obtain rfl := Option.some.inj (hf.symm.trans hf')
    have hlen := Option.some.inj he
    obtain ⟨d, v, rfl, -⟩ := hw.lead
    simp only [List.length_append, List.length_cons] at hlen
    omega
  · intro hnot
    have hle : p.length ≤ j := by
      by_contra hlt
      refine hnot ?_
      obtain ⟨-, hoccj⟩ := findFrom_some hf
      rw [OccursAt, List.drop_append_of_le_length (by omega)] at hoccj
      obtain ⟨rest, hrest⟩ := hoccj
      rcases List.append_eq_append_iff.mp hrest with ⟨m, hm, -⟩ | ⟨m, hm, hm'⟩
      · exact List.IsInfix.trans ⟨[], m, hm.symm⟩ (List.drop_suffix j p).isInfix
      · have hpos : p.drop j ≠ [] := by
          rw [Ne, List.drop_eq_nil_iff]
          omega
        rw [hw.eq_of_overlap hpos hm hm']
        exact (List.drop_suffix j p).isInfix
    rw [Nat.le_antisymm hj hle]

end Json

end DouyinCaption

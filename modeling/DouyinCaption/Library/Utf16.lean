import Mathlib.Tactic.Common
import DouyinCaption.Library.Occurrences

/-!
# Texts in UTF-16

A text is a list of code points, and `encode` is the list of its UTF-16 code units: one for a
code point below `0x10000` and a pair of surrogates above. A low surrogate never starts a
code point, so a word that occurs in an encoded text occurs at the border of a code point:
searching in units and searching in code points find the same occurrences
(`occursAt_encode_iff`, `hasOccurrences_encode_iff`).
-/

namespace DouyinCaption.Utf16

open Occurrences

/-- The code units of a code point. -/
def units (c : Char) : List ℕ :=
  if c.toNat < 0x10000 then [c.toNat]
  else [0xd800 + (c.toNat - 0x10000) / 0x400, 0xdc00 + (c.toNat - 0x10000) % 0x400]

/-- The code units of a text. -/
def encode (s : List Char) : List ℕ := s.flatMap units

/-- The first half of a surrogate pair. -/
def isHigh (u : ℕ) : Bool := 0xd800 ≤ u && u < 0xdc00

/-- The second half of a surrogate pair. -/
def isLow (u : ℕ) : Bool := 0xdc00 ≤ u && u < 0xe000

/-- The code units of each code point, lone surrogates on their own. -/
def points : List ℕ → List (List ℕ)
  | [] => []
  | [u] => [[u]]
  | u :: v :: rest =>
    if isHigh u && isLow v then [u, v] :: points rest else [u] :: points (v :: rest)

@[simp] theorem encode_nil : encode [] = [] := rfl

@[simp] theorem encode_cons (c : Char) (s : List Char) : encode (c :: s) = units c ++ encode s :=
  rfl

@[simp] theorem encode_append (s t : List Char) : encode (s ++ t) = encode s ++ encode t :=
  List.flatMap_append

/-! ## One code point -/

/-- The two shapes of a code point. -/
theorem units_cases (c : Char) :
    (units c = [c.toNat] ∧ isHigh c.toNat = false ∧ isLow c.toNat = false) ∨
    ∃ u v, units c = [u, v] ∧ isHigh u = true ∧ isLow v = true ∧
      c.toNat = 0x10000 + (u - 0xd800) * 0x400 + (v - 0xdc00) := by
  have hvalid : c.toNat < 0xd800 ∨ 0xdfff < c.toNat ∧ c.toNat < 0x110000 := c.valid
  by_cases h : c.toNat < 0x10000
  · refine .inl ⟨if_pos h, ?_, ?_⟩
    · simp only [isHigh, Bool.and_eq_false_iff, decide_eq_false_iff_not]
      omega
    · simp only [isLow, Bool.and_eq_false_iff, decide_eq_false_iff_not]
      omega
  · refine .inr ⟨_, _, if_neg h, ?_, ?_, ?_⟩
    · simp only [isHigh, Bool.and_eq_true, decide_eq_true_eq]
      omega
    · simp only [isLow, Bool.and_eq_true, decide_eq_true_eq]
      omega
    · omega

theorem units_ne_nil (c : Char) : units c ≠ [] := by
  rcases units_cases c with ⟨h, -⟩ | ⟨u, v, h, -⟩ <;> simp [h]

theorem isLow_of_isHigh {u : ℕ} (h : isHigh u = true) : isLow u = false := by
  simp only [isHigh, isLow, Bool.and_eq_true, Bool.and_eq_false_iff, decide_eq_true_eq,
    decide_eq_false_iff_not] at h ⊢
  omega

/-- No code point starts with a low surrogate. -/
theorem isLow_head {c : Char} {u : ℕ} {us : List ℕ} (h : units c = u :: us) :
    isLow u = false := by
  rcases units_cases c with ⟨hc, -, hlow⟩ | ⟨u', v', hc, hhigh, -⟩
  · rw [hc] at h
    obtain ⟨rfl, -⟩ := List.cons.inj h
    exact hlow
  · rw [hc] at h
    obtain ⟨rfl, -⟩ := List.cons.inj h
    exact isLow_of_isHigh hhigh

/-- The units of a code point tell where it ends and which it is. -/
theorem units_append_inj {a b : Char} {s t : List ℕ} (h : units a ++ s = units b ++ t) :
    a = b ∧ s = t := by
  rcases units_cases a with ⟨ha, hha, -⟩ | ⟨u, v, ha, hu, hv, hau⟩ <;>
    rcases units_cases b with ⟨hb, hhb, -⟩ | ⟨u', v', hb, hu', hv', hbu⟩ <;>
    rw [ha, hb] at h
  · obtain ⟨hn, rfl⟩ := List.cons.inj h
    exact ⟨Char.toNat_inj.mp hn, rfl⟩
  · -- a high surrogate is no code point of its own
    obtain ⟨hn, -⟩ := List.cons.inj h
    rw [hn, hu'] at hha
    cases hha
  · obtain ⟨hn, -⟩ := List.cons.inj h
    rw [← hn, hu] at hhb
    cases hhb
  · obtain ⟨hn, h⟩ := List.cons.inj h
    obtain ⟨hn', rfl⟩ := List.cons.inj h
    rw [← hn, ← hn'] at hbu
    exact ⟨Char.toNat_inj.mp (hau.trans hbu.symm), rfl⟩

/-! ## Texts -/

/-- Taking an encoded text apart. -/
theorem points_encode (s : List Char) : points (encode s) = s.map units := by
  induction s with
  | nil => rfl
  | cons c s ih =>
    rw [encode_cons, List.map_cons]
    rcases units_cases c with ⟨hc, hhigh, -⟩ | ⟨u, v, hc, hu, hv, -⟩
    · rw [hc, ← ih]
      rcases encode s with _ | ⟨w, rest⟩
      · rfl
      · simp [points, hhigh]
    · rw [hc, ← ih]
      simp [points, hu, hv]

theorem prefix_of_encode_prefix {w s : List Char} (h : encode w <+: encode s) : w <+: s := by
  induction w generalizing s with
  | nil => exact List.nil_prefix
  | cons a w ih =>
    cases s with
    | nil =>
      have := List.prefix_nil.mp h
      simp [units_ne_nil] at this
    | cons b s =>
      obtain ⟨t, ht⟩ := h
      rw [encode_cons, encode_cons, List.append_assoc] at ht
      obtain ⟨rfl, hrest⟩ := units_append_inj ht
      exact (List.prefix_cons_inj a).mpr (ih ⟨t, hrest⟩)

theorem encode_injective : Function.Injective encode := by
  intro s t h
  obtain ⟨r, rfl⟩ := prefix_of_encode_prefix (w := s) (s := t) ⟨[], by simpa using h⟩
  have hr : encode r = [] := by simpa using h
  cases r with
  | nil => simp
  | cons c r => simp [units_ne_nil] at hr

/-- The number of units before the code point at a position. -/
def offset (s : List Char) (k : ℕ) : ℕ := (encode (s.take k)).length

@[simp] theorem offset_zero (s : List Char) : offset s 0 = 0 := by simp [offset]

theorem offset_cons_succ (c : Char) (s : List Char) (k : ℕ) :
    offset (c :: s) (k + 1) = (units c).length + offset s k := by
  simp [offset]

theorem offset_mono (s : List Char) {j k : ℕ} (h : j ≤ k) : offset s j ≤ offset s k := by
  obtain ⟨r, hr⟩ := List.take_prefix_take_left (l := s) h
  rw [offset, offset, ← hr, encode_append, List.length_append]
  exact Nat.le_add_right _ _

/-- The units from a border of a code point on. -/
theorem drop_offset (s : List Char) (k : ℕ) : (encode s).drop (offset s k) = encode (s.drop k) := by
  have h : encode s = encode (s.take k) ++ encode (s.drop k) := by
    rw [← encode_append, List.take_append_drop]
  rw [h, offset, List.drop_left]

/-- Over a word that occurs there the offset grows by the units of the word. -/
theorem offset_add {s w : List Char} {k : ℕ} (h : OccursAt s w k) :
    offset s (k + w.length) = offset s k + (encode w).length := by
  obtain ⟨r, hr⟩ := h
  rw [offset, offset, List.take_add, ← hr, List.take_left, encode_append, List.length_append]

/-- **Words occur at the borders of code points.** -/
theorem occursAt_encode {s w : List Char} (hw : w ≠ []) {i : ℕ}
    (h : OccursAt (encode s) (encode w) i) : ∃ k, i = offset s k ∧ OccursAt s w k := by
  induction s generalizing i with
  | nil =>
    have := List.prefix_nil.mp (show encode w <+: [] by simpa [OccursAt] using h)
    cases w with
    | nil => exact absurd rfl hw
    | cons a w => simp [units_ne_nil] at this
  | cons c s ih =>
    by_cases hi : i < (units c).length
    · rcases Nat.eq_zero_or_pos i with rfl | hpos
      · exact ⟨0, rfl, prefix_of_encode_prefix (by simpa [OccursAt] using h)⟩
      · -- inside the code point stands a low surrogate, where no word starts
        exfalso
        rcases units_cases c with ⟨hc, -⟩ | ⟨u, v, hc, -, hv, -⟩
        · rw [hc] at hi
          exact absurd hi (by simp; omega)
        · obtain rfl : i = 1 := by
            rw [hc] at hi
            simp only [List.length_cons, List.length_nil] at hi
            omega
          cases w with
          | nil => exact absurd rfl hw
          | cons a w =>
            obtain ⟨r, hr⟩ := h
            rw [encode_cons, encode_cons, hc] at hr
            rcases ha : units a with _ | ⟨x, xs⟩
            · exact units_ne_nil a ha
            · rw [ha] at hr
              obtain ⟨rfl, -⟩ := List.cons.inj hr
              exact absurd hv (by simp [isLow_head ha])
    · obtain ⟨j, rfl⟩ := Nat.exists_eq_add_of_le (Nat.le_of_not_lt hi)
      have hdrop : (encode (c :: s)).drop ((units c).length + j) = (encode s).drop j := by
        rw [encode_cons, ← List.drop_drop, List.drop_left]
      have h' : OccursAt (encode s) (encode w) j := by
        rwa [OccursAt, hdrop] at h
      obtain ⟨k, rfl, hk⟩ := ih h'
      exact ⟨k + 1, (offset_cons_succ c s k).symm, hk⟩

theorem occursAt_offset {s w : List Char} {k : ℕ} (h : OccursAt s w k) :
    OccursAt (encode s) (encode w) (offset s k) := by
  obtain ⟨r, hr⟩ := h
  exact ⟨encode r, by rw [drop_offset, ← hr, encode_append]⟩

/-- Within the text the offset tells the position. -/
theorem offset_strictMono {s : List Char} {j k : ℕ} (h : j < k) (hj : j < s.length) :
    offset s j < offset s k := by
  have hone : OccursAt s [s[j]] j := ⟨s.drop (j + 1), by simp⟩
  have hadd := offset_add hone
  have hpos : 0 < (encode [s[j]]).length := by
    have := List.length_pos_iff.mpr (units_ne_nil s[j])
    simpa using this
  have hle : offset s (j + 1) ≤ offset s k := offset_mono s h
  rw [List.length_singleton] at hadd
  omega

/-- Stretches of the text that do not overlap do not overlap in units, and the other way
round. -/
theorem offset_add_le_iff {s w : List Char} {j k : ℕ} (h : OccursAt s w j)
    (hk : k < s.length) :
    offset s j + (encode w).length ≤ offset s k ↔ j + w.length ≤ k := by
  rw [← offset_add h]
  constructor
  · intro hle
    by_contra hlt
    exact absurd (offset_strictMono (Nat.lt_of_not_le hlt) hk) hle.not_gt
  · exact fun hle => offset_mono s hle

/-- **Searching in units and searching in code points find as much.** -/
theorem hasOccurrences_encode_iff {s w : List Char} (hw : w ≠ []) {n : ℕ} :
    HasOccurrences (encode s) (encode w) n ↔ HasOccurrences s w n := by
  constructor
  · rintro ⟨ps, hlen, hocc, hpw⟩
    have hpos : ∃ ks : List ℕ, ps = ks.map (offset s) ∧ ∀ k ∈ ks, OccursAt s w k := by
      clear hlen hpw
      induction ps with
      | nil => exact ⟨[], rfl, by simp⟩
      | cons i ps ih =>
        obtain ⟨k, rfl, hk⟩ := occursAt_encode hw (hocc i List.mem_cons_self)
        obtain ⟨ks, rfl, hks⟩ := ih fun j hj => hocc j (List.mem_cons_of_mem _ hj)
        exact ⟨k :: ks, rfl, List.forall_mem_cons.mpr ⟨hk, hks⟩⟩
    obtain ⟨ks, rfl, hks⟩ := hpos
    refine ⟨ks, by simpa using hlen, hks, (List.pairwise_map.mp hpw).imp_of_mem ?_⟩
    intro j k hj hk hle
    exact (offset_add_le_iff (hks j hj) ((hks k hk).lt_length hw)).mp hle
  · rintro ⟨ks, hlen, hocc, hpw⟩
    refine ⟨ks.map (offset s), by simpa using hlen, ?_, List.pairwise_map.mpr ?_⟩
    · intro i hi
      obtain ⟨k, hk, rfl⟩ := List.mem_map.mp hi
      exact occursAt_offset (hocc k hk)
    · refine hpw.imp_of_mem fun {j k} hj hk hle => ?_
      exact (offset_add_le_iff (hocc j hj) ((hocc k hk).lt_length hw)).mpr hle

end DouyinCaption.Utf16

import DouyinCaption.Library.Cells
import DouyinCaption.Located

/-!
# The sentences of a text in the workbench

`sentenceSelections` of `src/frontend/src/features/workbench/sentences.ts`: the sentences of a
text with the blanks around them, their offsets in code points for the server, and their parts,
cut where a lock begins or ends. `Intl.Segmenter` is a parameter: it splits the text into
consecutive pieces (`Segmentation`).

Nothing of the text gets lost (`flatMap_sentenceSelections`), and a sentence shows what is
locked of it (`SentenceSelection.Faithful`).
-/

namespace DouyinCaption

open Occurrences

/-! ## Blanks -/

/-- The units `trim` removes: white space and line terminators. -/
def isJsSpace (u : ℕ) : Bool :=
  (9 ≤ u && u ≤ 13) || u == 0x20 || u == 0xa0 || u == 0x1680 || (0x2000 ≤ u && u ≤ 0x200a) ||
    u == 0x2028 || u == 0x2029 || u == 0x202f || u == 0x205f || u == 0x3000 || u == 0xfeff

/-- `s.trimStart()` -/
def trimStart (s : JsString) : JsString := s.dropWhile isJsSpace

/-- `s.trimEnd()` -/
def trimEnd (s : JsString) : JsString := (s.reverse.dropWhile isJsSpace).reverse

/-- `s.trim()` -/
def trim (s : JsString) : JsString := trimEnd (trimStart s)

/-! ## Sentences -/

/-- A part of a sentence. -/
structure SentencePart where
  text : JsString
  locked : Bool
  deriving DecidableEq

/-- `SentenceSelection` and what `sentenceSelections` adds to it. -/
structure SentenceSelection where
  text : JsString
  start : ℕ
  stop : ℕ
  leading : JsString
  trailing : JsString
  parts : List SentencePart
  lockIds : List Uuid
  deriving DecidableEq

/-- `boundaries`: the cut points of a sentence, each once and in order. -/
def boundaries (start stop : ℕ) (overlaps : List LockRange) : List ℕ :=
  (start :: stop :: overlaps.flatMap fun r =>
    [max start r.start, min stop r.stop]).eraseDups.insertionSort (· ≤ ·)

/-- The body of the map in `sentenceSelections`, for a segment and its index. -/
def sentenceSelection (text : JsString) (ranges : List LockRange) (segment : JsString)
    (index : ℕ) : SentenceSelection :=
  let leading := jsSlice segment 0 (segment.length - (trimStart segment).length)
  let trailing := if trim segment ≠ [] then segment.drop (trimEnd segment).length else []
  let sentence := trim segment
  let start := index + leading.length
  let stop := start + sentence.length
  let overlaps := ranges.filter fun r => r.start < stop && r.stop > start
  { text := sentence
    start := codePointOffset text start
    stop := codePointOffset text stop
    leading, trailing
    parts := (cells (boundaries start stop overlaps)).map fun c =>
      { text := jsSlice text c.1 c.2
        locked := overlaps.any fun r => r.start ≤ c.1 && r.stop ≥ c.2 }
    lockIds := overlaps.map (·.id) }

/-- The segments with their indices. -/
def indexed : ℕ → List JsString → List (JsString × ℕ)
  | _, [] => []
  | index, segment :: segments => (segment, index) :: indexed (index + segment.length) segments

/-- `sentenceSelections`, for what `Intl.Segmenter` makes of a text. -/
def sentenceSelections (segmenter : JsString → List JsString) (text : JsString)
    (locks : List TextLock) (versionId : Option Uuid) : List SentenceSelection :=
  let ranges := locateLocks text locks versionId
  (indexed 0 (segmenter text)).map fun s => sentenceSelection text ranges s.1 s.2

/-! ## Segmentations -/

/-- A border between these texts would part the surrogates of a pair. -/
def CutsPair (before after : JsString) : Prop :=
  ∃ a u v b, before = a ++ [u] ∧ after = v :: b ∧ Utf16.isHigh u = true ∧ Utf16.isLow v = true

/-- The pieces are consecutive, and no pair of surrogates is cut. -/
structure Segmentation (text : JsString) (pieces : List JsString) : Prop where
  joined : pieces.flatten = text
  uncut : ∀ before after, pieces = before ++ after → ¬ CutsPair before.flatten after.flatten

/-- A border that cuts no pair is the border of a code point. -/
theorem border_of_uncut : ∀ {content : Text} {before after : JsString},
    Utf16.encode content = before ++ after → ¬ CutsPair before after →
      ∃ k ≤ content.length, before = Utf16.encode (content.take k) ∧
        after = Utf16.encode (content.drop k) := by
  intro content
  induction content with
  | nil =>
    intro before after h _
    obtain ⟨rfl, rfl⟩ := List.append_eq_nil_iff.mp h.symm
    exact ⟨0, le_rfl, rfl, rfl⟩
  | cons c content ih =>
    intro before after h huncut
    cases before with
    | nil => exact ⟨0, Nat.zero_le _, rfl, h.symm⟩
    | cons u before =>
      have hnext : ∀ before', Utf16.encode content = before' ++ after →
          u :: before = Utf16.units c ++ before' →
          ∃ k ≤ (c :: content).length, u :: before = Utf16.encode ((c :: content).take k) ∧
            after = Utf16.encode ((c :: content).drop k) := by
        intro before' hrest hbefore
        have huncut' : ¬ CutsPair before' after := by
          rintro ⟨a, x, y, b, hx, hy⟩
          exact huncut
            ⟨Utf16.units c ++ a, x, y, b, by rw [hbefore, hx, List.append_assoc], hy⟩
        obtain ⟨k, hk, htake, hdrop⟩ := ih hrest huncut'
        refine ⟨k + 1, Nat.succ_le_succ hk, ?_, hdrop⟩
        rw [hbefore, htake, List.take_succ_cons, Utf16.encode_cons]
      rw [Utf16.encode_cons] at h
      rcases Utf16.units_cases c with ⟨hc, -⟩ | ⟨x, y, hc, hx, hy, -⟩
      · rw [hc] at h
        obtain ⟨hu, hrest⟩ := List.cons.inj h
        exact hnext before hrest (by rw [hc, hu]; rfl)
      · rw [hc] at h
        obtain ⟨hu, hrest⟩ := List.cons.inj h
        cases before with
        | nil =>
          -- the border would part the two units of `c`
          exact absurd ⟨[], u, y, _, rfl, hrest.symm, hu ▸ hx, hy⟩ huncut
        | cons v before =>
          obtain ⟨hv, hrest⟩ := List.cons.inj hrest
          exact hnext before hrest (by rw [hc, hu, hv]; rfl)

/-! ## Trimming -/

theorem isHigh_of_isJsSpace {u : ℕ} (h : isJsSpace u = true) :
    Utf16.isHigh u = false ∧ Utf16.isLow u = false := by
  simp only [isJsSpace, Bool.or_eq_true, Bool.and_eq_true, decide_eq_true_eq, beq_iff_eq] at h
  simp only [Utf16.isHigh, Utf16.isLow, Bool.and_eq_false_iff, decide_eq_false_iff_not]
  omega

/-- A string is the blanks in front and what `trimStart` leaves. -/
theorem trimStart_spec (s : JsString) : ∃ blanks, s = blanks ++ trimStart s ∧
    (∀ u ∈ blanks, isJsSpace u = true) ∧ ∀ u r, trimStart s = u :: r → isJsSpace u = false := by
  refine ⟨s.takeWhile isJsSpace, List.takeWhile_append_dropWhile.symm,
    fun u hu => List.mem_takeWhile_imp hu, fun u r h => ?_⟩
  have hhead := List.head?_dropWhile_not isJsSpace s
  rw [← trimStart, h] at hhead
  simpa using hhead

/-- A string is what `trimEnd` leaves and the blanks behind. -/
theorem trimEnd_spec (s : JsString) : ∃ blanks, s = trimEnd s ++ blanks ∧
    (∀ u ∈ blanks, isJsSpace u = true) ∧ ∀ r u, trimEnd s = r ++ [u] → isJsSpace u = false := by
  obtain ⟨blanks, hs, hblanks, hhead⟩ := trimStart_spec s.reverse
  refine ⟨blanks.reverse, ?_, fun u hu => hblanks u (List.mem_reverse.mp hu), fun r u h => ?_⟩
  · have h := congrArg List.reverse hs
    rwa [List.reverse_reverse, List.reverse_append] at h
  · refine hhead u r.reverse ?_
    have h' := congrArg List.reverse h
    rwa [trimEnd, List.reverse_reverse, List.reverse_append] at h'

theorem trimEnd_append_blanks {s blanks : JsString} (h : ∀ u ∈ blanks, isJsSpace u = true) :
    trimEnd (s ++ blanks) = trimEnd s := by
  rw [trimEnd, List.reverse_append, List.dropWhile_append_of_pos, trimEnd]
  exact fun u hu => h u (List.mem_reverse.mp hu)

theorem trimEnd_of_last {s : JsString} {u : ℕ} (h : isJsSpace u = false) :
    trimEnd (s ++ [u]) = s ++ [u] := by
  rw [trimEnd, List.reverse_append, List.reverse_singleton, List.singleton_append,
    List.dropWhile_cons_of_neg (by simpa using h), List.reverse_cons, List.reverse_reverse]

/-- A segment is its leading blanks, the sentence and its trailing blanks. -/
theorem segment_spec (segment : JsString) : ∃ leading trailing,
    segment = leading ++ trim segment ++ trailing ∧
    jsSlice segment 0 (segment.length - (trimStart segment).length) = leading ∧
    (if trim segment ≠ [] then segment.drop (trimEnd segment).length else []) = trailing ∧
    (∀ u ∈ leading, isJsSpace u = true) ∧ ∀ u ∈ trailing, isJsSpace u = true := by
  obtain ⟨leading, hsegment, hleading, hhead⟩ := trimStart_spec segment
  obtain ⟨trailing, hrest, htrailing, hlast⟩ := trimEnd_spec (trimStart segment)
  have hslice : jsSlice segment 0 (segment.length - (trimStart segment).length) = leading := by
    have hlen := congrArg List.length hsegment
    rw [List.length_append] at hlen
    rw [jsSlice, List.drop_zero, hlen, Nat.add_sub_cancel]
    conv_lhs => rw [hsegment]
    rw [List.take_left]
  by_cases hblank : trim segment = []
  · -- what `trimStart` leaves has no blank in front, so there is nothing left
    have htrailing' : trailing = [] := by
      rw [show trimEnd (trimStart segment) = [] from hblank, List.nil_append] at hrest
      cases trailing with
      | nil => rfl
      | cons u r =>
        have hu := hhead u r hrest
        rw [htrailing u List.mem_cons_self] at hu
        cases hu
    refine ⟨leading, [], ?_, hslice, if_neg (not_not.mpr hblank), hleading,
      fun u hu => absurd hu List.not_mem_nil⟩
    rw [hblank, List.append_nil, List.append_nil]
    rwa [hrest, htrailing', show trimEnd (trimStart segment) = [] from hblank, List.append_nil,
      List.append_nil] at hsegment
  · have hwhole : segment = leading ++ trim segment ++ trailing := by
      rw [List.append_assoc, trim, ← hrest]
      exact hsegment
    refine ⟨leading, trailing, hwhole, hslice, ?_, hleading, htrailing⟩
    have hend : trimEnd segment = leading ++ trim segment := by
      obtain ⟨r, u, hr⟩ := (List.eq_nil_or_concat' _).resolve_left hblank
      conv_lhs => rw [hwhole]
      rw [trimEnd_append_blanks htrailing, hr, ← List.append_assoc, trimEnd_of_last (hlast r u hr)]
    rw [if_pos hblank, hend]
    exact (congrArg (List.drop _) hwhole).trans List.drop_left

/-! ## Parts -/

/-- Position `k` of the sentence lies in a part marked locked. -/
def lockedAt : List SentencePart → ℕ → Bool
  | [], _ => false
  | p :: parts, k => if k < p.text.length then p.locked else lockedAt parts (k - p.text.length)

/-- A position is locked when its cell is marked. -/
theorem lockedAt_cells (text : JsString) (marked : ℕ × ℕ → Bool) :
    ∀ {x : ℕ} {points : List ℕ} {k : ℕ}, (x :: points).Pairwise (· < ·) →
      (∀ b ∈ x :: points, b ≤ text.length) →
      (lockedAt ((cells (x :: points)).map fun c => ⟨jsSlice text c.1 c.2, marked c⟩) k = true ↔
        ∃ c ∈ cells (x :: points), marked c = true ∧ c.1 ≤ x + k ∧ x + k < c.2) := by
  intro x points
  induction points generalizing x with
  | nil =>
    intro k _ _
    simp [lockedAt]
  | cons y points ih =>
    intro k h hle
    obtain ⟨hx, hpoints⟩ := List.pairwise_cons.mp h
    have hxy := hx y List.mem_cons_self
    have hy := hle y (List.mem_cons_of_mem _ List.mem_cons_self)
    have hlen : (jsSlice text x y).length = y - x := by
      rw [jsSlice, List.length_drop, List.length_take, Nat.min_eq_left hy]
    rw [cells_cons_cons, List.map_cons, lockedAt]
    simp only [hlen]
    split
    · constructor
      · exact fun hm => ⟨(x, y), List.mem_cons_self, hm, Nat.le_add_right x k, by omega⟩
      · rintro ⟨c, hc, hm, hck, hkc⟩
        rcases List.mem_cons.mp hc with rfl | hc
        · exact hm
        · have := (bounds_of_cell hpoints c hc).1
          omega
    · have hshift : y + (k - (y - x)) = x + k := by omega
      rw [ih hpoints fun b hb => hle b (List.mem_cons_of_mem _ hb), hshift]
      constructor
      · rintro ⟨c, hc, h⟩
        exact ⟨c, List.mem_cons_of_mem _ hc, h⟩
      · rintro ⟨c, hc, hm, hck, hkc⟩
        rcases List.mem_cons.mp hc with rfl | hc
        · simp only at hkc
          omega
        · exact ⟨c, hc, hm, hck, hkc⟩

theorem mem_boundaries {start stop : ℕ} {overlaps : List LockRange} {b : ℕ} :
    b ∈ boundaries start stop overlaps ↔ b = start ∨ b = stop ∨
      ∃ r ∈ overlaps, b = max start r.start ∨ b = min stop r.stop := by
  simp only [boundaries, List.mem_insertionSort, List.mem_eraseDups, List.mem_cons,
    List.mem_flatMap, List.not_mem_nil, or_false]

/-- A set has each element once. -/
theorem nodup_eraseDups (l : List ℕ) : l.eraseDups.Nodup := by
  induction hn : l.length using Nat.strong_induction_on generalizing l with
  | _ n ih =>
    cases l with
    | nil => exact List.nodup_nil
    | cons a l =>
      have hlt : (l.filter fun b => !b == a).length < n := by
        rw [← hn]
        exact Nat.lt_succ_of_le (List.length_filter_le _ l)
      rw [List.eraseDups_cons]
      refine List.nodup_cons.mpr ⟨fun h => ?_, ih _ hlt _ rfl⟩
      simpa using (List.mem_filter.mp (List.mem_eraseDups.mp h)).2

theorem pairwise_boundaries (start stop : ℕ) (overlaps : List LockRange) :
    (boundaries start stop overlaps).Pairwise (· < ·) := by
  have hnodup : (boundaries start stop overlaps).Nodup :=
    (List.perm_insertionSort _ _).nodup_iff.mpr (nodup_eraseDups _)
  exact ((List.pairwise_insertionSort (· ≤ ·) _).and hnodup).imp fun h =>
    lt_of_le_of_ne h.1 h.2

/-- The first cut point is the start of the sentence, the last its end. -/
theorem boundaries_spec {start stop : ℕ} {overlaps : List LockRange} (hlt : start < stop)
    (hoverlap : ∀ r ∈ overlaps, r.start < stop ∧ start < r.stop) :
    (∃ points, boundaries start stop overlaps = start :: points) ∧
      ∀ b ∈ boundaries start stop overlaps, b ≤ stop := by
  have hmem : ∀ b ∈ boundaries start stop overlaps, start ≤ b ∧ b ≤ stop := by
    intro b hb
    rcases mem_boundaries.mp hb with rfl | rfl | ⟨r, hr, rfl | rfl⟩
    · exact ⟨le_rfl, hlt.le⟩
    · exact ⟨hlt.le, le_rfl⟩
    · have := hoverlap r hr
      omega
    · have := hoverlap r hr
      omega
  refine ⟨?_, fun b hb => (hmem b hb).2⟩
  have hstart : start ∈ boundaries start stop overlaps := mem_boundaries.mpr (.inl rfl)
  have hsorted := pairwise_boundaries start stop overlaps
  rcases hb : boundaries start stop overlaps with _ | ⟨b, points⟩
  · rw [hb] at hstart
    exact absurd hstart List.not_mem_nil
  · -- the first one is not above the start, and none is below
    rw [hb] at hstart hsorted hmem
    refine ⟨points, ?_⟩
    rcases List.mem_cons.mp hstart with rfl | hstart
    · rfl
    · have hle := (hmem b List.mem_cons_self).1
      have := (List.pairwise_cons.mp hsorted).1 start hstart
      omega

/-! ## What a sentence shows -/

/-- What a sentence that is not blank shows of the text and the locks. -/
structure SentenceSelection.Faithful (content : Text) (ranges : List LockRange)
    (s : SentenceSelection) : Prop where
  /-- the code points at the offsets are the sentence -/
  slice : Utf16.encode ((content.take s.stop).drop s.start) = s.text
  /-- the parts are the sentence -/
  parts : (s.parts.map SentencePart.text).flatten = s.text
  /-- a position is in a locked part exactly when it is in a range -/
  locked : ∀ k < s.text.length, (lockedAt s.parts k = true ↔
    ∃ r ∈ ranges, r.start ≤ Utf16.offset content s.start + k ∧
      Utf16.offset content s.start + k < r.stop)
  /-- the locks are those whose range has a position of the sentence, -/
  lockIds : ∀ id, id ∈ s.lockIds ↔ ∃ r ∈ ranges, r.id = id ∧ ∃ k < s.text.length,
    r.start ≤ Utf16.offset content s.start + k ∧ Utf16.offset content s.start + k < r.stop
  /-- each of them once -/
  once : s.lockIds.Sublist (ranges.map LockRange.id)

/-- The parts of a stretch of the text, and which positions are in locked ones. -/
theorem parts_spec {text : JsString} (ranges : List LockRange) {start stop : ℕ}
    (hlt : start < stop) (hstop : stop ≤ text.length) :
    let overlaps := ranges.filter fun r => r.start < stop && r.stop > start
    let parts : List SentencePart := (cells (boundaries start stop overlaps)).map fun c =>
      { text := jsSlice text c.1 c.2
        locked := overlaps.any fun r => r.start ≤ c.1 && r.stop ≥ c.2 }
    (parts.map SentencePart.text).flatten = jsSlice text start stop ∧
      ∀ k < stop - start, (lockedAt parts k = true ↔
        ∃ r ∈ ranges, r.start ≤ start + k ∧ start + k < r.stop) := by
  intro overlaps parts
  have hoverlap : ∀ r ∈ overlaps, r.start < stop ∧ start < r.stop := by
    intro r hr
    simpa only [Bool.and_eq_true, decide_eq_true_eq, gt_iff_lt] using (List.mem_filter.mp hr).2
  obtain ⟨⟨points, hpoints⟩, hmax⟩ := boundaries_spec hlt hoverlap
  have hsorted := pairwise_boundaries start stop overlaps
  have hmemStop : stop ∈ boundaries start stop overlaps := mem_boundaries.mpr (.inr (.inl rfl))
  have hborder : ∀ c ∈ cells (boundaries start stop overlaps), ∀ r ∈ overlaps,
      (r.start ≤ c.1 ∨ c.2 ≤ r.start) ∧ (r.stop ≤ c.1 ∨ c.2 ≤ r.stop) := by
    intro c hc r hr
    have hstart : max start r.start ∈ boundaries start stop overlaps :=
      mem_boundaries.mpr (.inr (.inr ⟨r, hr, .inl rfl⟩))
    have hend : min stop r.stop ∈ boundaries start stop overlaps :=
      mem_boundaries.mpr (.inr (.inr ⟨r, hr, .inr rfl⟩))
    rw [hpoints] at hc hsorted hstart hend hmax
    have hbounds := bounds_of_cell hsorted c hc
    have hle := hmax c.2 hbounds.2.2
    have h₁ := not_inside_cell hsorted c hc _ hstart
    have h₂ := not_inside_cell hsorted c hc _ hend
    omega
  constructor
  · rw [List.map_map]
    rw [hpoints] at hsorted hmemStop hmax ⊢
    exact flatten_cells text hsorted stop hmemStop hmax
  · intro k hk
    have hle : ∀ b ∈ start :: points, b ≤ text.length := by
      rw [← hpoints]
      exact fun b hb => (hmax b hb).trans hstop
    have hcells := lockedAt_cells text (k := k)
      (fun c => overlaps.any fun r => r.start ≤ c.1 && r.stop ≥ c.2) (hpoints ▸ hsorted) hle
    rw [← hpoints] at hcells
    refine hcells.trans ?_
    constructor
    · rintro ⟨c, -, hmarked, hck, hkc⟩
      obtain ⟨r, hr, hin⟩ := List.any_eq_true.mp hmarked
      simp only [Bool.and_eq_true, decide_eq_true_eq, ge_iff_le] at hin
      exact ⟨r, (List.mem_filter.mp hr).1, hin.1.trans hck, hkc.trans_le hin.2⟩
    · rintro ⟨r, hr, hrk, hkr⟩
      have hmem : r ∈ overlaps := by
        refine List.mem_filter.mpr ⟨hr, ?_⟩
        simp only [Bool.and_eq_true, decide_eq_true_eq, gt_iff_lt]
        omega
      obtain ⟨c, hc, hck, hkc⟩ := exists_cell (hpoints ▸ hmemStop) (Nat.le_add_right start k)
        (show start + k < stop by omega)
      rw [← hpoints] at hc
      refine ⟨c, hc, List.any_eq_true.mpr ⟨r, hmem, ?_⟩, hck, hkc⟩
      have := hborder c hc r hmem
      simp only [Bool.and_eq_true, decide_eq_true_eq, ge_iff_le]
      omega

theorem uncut_behind_blanks {before blanks after : JsString}
    (hblanks : ∀ u ∈ blanks, isJsSpace u = true) (h : ¬ CutsPair before (blanks ++ after)) :
    ¬ CutsPair (before ++ blanks) after := by
  rintro ⟨p, u, v, q, hp, hq, hu, hv⟩
  rcases List.eq_nil_or_concat' blanks with rfl | ⟨blanks, x, rfl⟩
  · exact h ⟨p, u, v, q, by simpa using hp, hq, hu, hv⟩
  · rw [← List.append_assoc] at hp
    obtain rfl := List.singleton_inj.mp (List.append_inj' hp rfl).2
    rw [(isHigh_of_isJsSpace (hblanks x (by simp))).1] at hu
    cases hu

theorem uncut_before_blanks {before blanks after : JsString}
    (hblanks : ∀ u ∈ blanks, isJsSpace u = true) (h : ¬ CutsPair (before ++ blanks) after) :
    ¬ CutsPair before (blanks ++ after) := by
  rintro ⟨p, u, v, q, hp, hq, hu, hv⟩
  cases blanks with
  | nil => exact h ⟨p, u, v, q, by simpa using hp, hq, hu, hv⟩
  | cons x blanks =>
    obtain ⟨rfl, -⟩ := List.cons.inj hq
    rw [(isHigh_of_isJsSpace (hblanks x List.mem_cons_self)).2] at hv
    cases hv

/-- A sentence that is not blank, between the texts before and behind its segment. -/
theorem faithful_sentenceSelection {content : Text} {ranges : List LockRange}
    {before segment after : JsString} (htext : Utf16.encode content = before ++ segment ++ after)
    (hfirst : ¬ CutsPair before (segment ++ after)) (hlast : ¬ CutsPair (before ++ segment) after)
    (hpos : ∀ r ∈ ranges, r.start < r.stop) (hne : trim segment ≠ []) :
    (sentenceSelection (Utf16.encode content) ranges segment before.length).Faithful content
      ranges := by
  obtain ⟨leading, trailing, hsegment, hleading, -, hblankFirst, hblankLast⟩ :=
    segment_spec segment
  have hbehind : segment ++ after = leading ++ (trim segment ++ (trailing ++ after)) := by
    refine (congrArg (· ++ after) hsegment).trans ?_
    simp only [List.append_assoc]
  have hbefore : before ++ segment = before ++ leading ++ trim segment ++ trailing := by
    refine (congrArg (before ++ ·) hsegment).trans ?_
    simp only [List.append_assoc]
  have hwhole : Utf16.encode content =
      before ++ leading ++ trim segment ++ (trailing ++ after) := by
    rw [htext, List.append_assoc, hbehind]
    simp only [List.append_assoc]
  -- the sentence starts and ends at the border of a code point
  rw [hbehind] at hfirst
  rw [hbefore] at hlast
  obtain ⟨a, ha, htakea, -⟩ := border_of_uncut (hwhole.trans (List.append_assoc _ _ _))
    (uncut_behind_blanks hblankFirst hfirst)
  obtain ⟨b, hb, htakeb, -⟩ := border_of_uncut hwhole (uncut_before_blanks hblankLast hlast)
  have hstart : Utf16.offset content a = before.length + leading.length := by
    rw [Utf16.offset, ← htakea, List.length_append]
  have hstop : Utf16.offset content b =
      before.length + leading.length + (trim segment).length := by
    rw [Utf16.offset, ← htakeb, List.length_append, List.length_append]
  have hlen := List.length_pos_iff.mpr hne
  have hle : before.length + leading.length + (trim segment).length ≤
      (Utf16.encode content).length := by
    rw [hwhole]
    simp only [List.length_append]
    omega
  have hslice : jsSlice (Utf16.encode content) (before.length + leading.length)
      (before.length + leading.length + (trim segment).length) = trim segment := by
    refine jsSlice_of_occursAt ?_
    rw [OccursAt, hwhole, List.append_assoc, ← List.length_append, List.drop_left]
    exact List.prefix_append _ _
  obtain ⟨hparts, hlocked⟩ := parts_spec ranges (Nat.lt_add_of_pos_right hlen) hle
  have hoffset : (sentenceSelection (Utf16.encode content) ranges segment before.length).start =
      a := by
    simp only [sentenceSelection, hleading, ← hstart]
    exact codePointOffset_encode content ha
  have hoffset' : (sentenceSelection (Utf16.encode content) ranges segment before.length).stop =
      b := by
    simp only [sentenceSelection, hleading, ← hstop]
    exact codePointOffset_encode content hb
  constructor
  · have hab : a ≤ b := by
      by_contra hlt
      have := Utf16.offset_mono content (Nat.le_of_not_le hlt)
      omega
    have hsplit : content.take b = content.take a ++ (content.take b).drop a := by
      rw [← Nat.min_eq_left hab, ← List.take_take, Nat.min_eq_left hab, List.take_append_drop]
    rw [hsplit, Utf16.encode_append, ← htakea] at htakeb
    rw [hoffset, hoffset']
    exact (List.append_cancel_left htakeb).symm
  · simp only [sentenceSelection, hleading]
    exact hparts.trans hslice
  · intro k hk
    rw [hoffset, hstart]
    simp only [sentenceSelection, hleading] at hk ⊢
    exact hlocked k (by omega)
  · intro id
    rw [hoffset, hstart]
    simp only [sentenceSelection, hleading, List.mem_map, List.mem_filter, Bool.and_eq_true,
      decide_eq_true_eq, gt_iff_lt]
    constructor
    · rintro ⟨r, ⟨hr, hrstop, hrstart⟩, hid⟩
      -- the first position of both
      have := hpos r hr
      exact ⟨r, hr, hid, max (before.length + leading.length) r.start -
        (before.length + leading.length), by omega, by omega, by omega⟩
    · rintro ⟨r, hr, hid, k, hk, hrk, hkr⟩
      exact ⟨r, ⟨hr, by omega, by omega⟩, hid⟩
  · simp only [sentenceSelection, hleading]
    exact List.filter_sublist.map _

/-! ## The view -/

/-- What holds of each segment where it stands. -/
theorem forall₂_indexed {R : JsString → JsString × ℕ → Prop} : ∀ {pieces : List JsString} {i : ℕ},
    (∀ before segment after, pieces = before ++ segment :: after →
      R segment (segment, i + before.flatten.length)) →
    List.Forall₂ R pieces (indexed i pieces) := by
  intro pieces
  induction pieces with
  | nil => exact fun _ => .nil
  | cons piece pieces ih =>
    intro i h
    refine .cons (h [] piece pieces rfl) (ih fun before segment after hpieces => ?_)
    have hnext := h (piece :: before) segment after (by rw [hpieces]; rfl)
    rwa [List.flatten_cons, List.length_append, ← Nat.add_assoc] at hnext

/-- A sentence with the blanks around it is its segment. -/
structure SentenceSelection.Of (segment : JsString) (s : SentenceSelection) : Prop where
  whole : s.leading ++ s.text ++ s.trailing = segment
  text : s.text = trim segment
  leading : ∀ u ∈ s.leading, isJsSpace u = true
  trailing : ∀ u ∈ s.trailing, isJsSpace u = true

theorem sentenceSelection_of (text : JsString) (ranges : List LockRange) (segment : JsString)
    (index : ℕ) : (sentenceSelection text ranges segment index).Of segment := by
  obtain ⟨leading, trailing, hsegment, hleading, htrailing, hblankFirst, hblankLast⟩ :=
    segment_spec segment
  constructor
  · simp only [sentenceSelection, hleading, htrailing]
    exact hsegment.symm
  · rfl
  · simp only [sentenceSelection, hleading]
    exact hblankFirst
  · simp only [sentenceSelection, htrailing]
    exact hblankLast

/-- Something else than blanks is left of by trimming. -/
theorem trim_ne_nil {segment : JsString} (h : ∃ u ∈ segment, isJsSpace u = false) :
    trim segment ≠ [] := by
  intro hnil
  obtain ⟨leading, trailing, hsegment, -, -, hblankFirst, hblankLast⟩ := segment_spec segment
  obtain ⟨u, hu, hspace⟩ := h
  rw [hsegment, hnil, List.append_nil] at hu
  have hblank := (List.mem_append.mp hu).elim (hblankFirst u) (hblankLast u)
  rw [hspace] at hblank
  cases hblank

/-- **Sentence view is lossless.** -/
theorem flatMap_sentenceSelection (text : JsString) (ranges : List LockRange) :
    ∀ (pieces : List JsString) (i : ℕ),
      (((indexed i pieces).map fun s => sentenceSelection text ranges s.1 s.2).flatMap
        fun s => s.leading ++ s.text ++ s.trailing) = pieces.flatten := by
  intro pieces
  induction pieces with
  | nil => exact fun _ => rfl
  | cons piece pieces ih =>
    intro i
    rw [indexed, List.map_cons, List.flatMap_cons, ih, List.flatten_cons]
    exact congrArg (· ++ pieces.flatten) (sentenceSelection_of text ranges piece i).whole

/-- **Sentence view.** Whatever the segmentation, there is a sentence for each segment, which
with the blanks around it is that segment, so together they are the text; and the sentence of a
segment that is not blank shows its part of the text and of the locks. -/
theorem sentenceSelections_faithful (segmenter : JsString → List JsString) (content : Text)
    (locks : List TextLock) (versionId : Option Uuid)
    (hsegmenter : Segmentation (Utf16.encode content) (segmenter (Utf16.encode content)))
    (hne : ∀ l ∈ locks, l.text ≠ []) :
    let text := Utf16.encode content
    let sentences := sentenceSelections segmenter text locks versionId
    (sentences.flatMap fun s => s.leading ++ s.text ++ s.trailing) = text ∧
    List.Forall₂ (fun segment (s : SentenceSelection) => s.Of segment ∧
        ((∃ u ∈ segment, isJsSpace u = false) →
          s.text ≠ [] ∧ s.Faithful content (locateLocks text locks versionId)))
      (segmenter text) sentences := by
  intro text sentences
  refine ⟨(flatMap_sentenceSelection _ _ _ 0).trans hsegmenter.joined, ?_⟩
  refine List.forall₂_map_right_iff.mpr (forall₂_indexed fun before segment after hpieces => ?_)
  refine ⟨sentenceSelection_of _ _ _ _, fun hblank => ⟨trim_ne_nil hblank, ?_⟩⟩
  have htext : Utf16.encode content = before.flatten ++ segment ++ after.flatten := by
    rw [← hsegmenter.joined, hpieces]
    simp
  have hfirst := hsegmenter.uncut before (segment :: after) hpieces
  have hlast := hsegmenter.uncut (before ++ [segment]) after (by rw [hpieces]; simp)
  have hpos : ∀ r ∈ locateLocks (Utf16.encode content) locks versionId, r.start < r.stop :=
    (located_locateLocks versionId hne).start_lt_stop
  rw [Nat.zero_add]
  refine faithful_sentenceSelection htext ?_ ?_ hpos (trim_ne_nil hblank)
  · exact hfirst
  · simpa using hlast

/-- A lock that reaches from one sentence into the next, in two segments. -/
theorem sentenceSelections_faithful_spanning :
    let text := Utf16.encode "甲。 乙".toList
    let locks : List TextLock := [⟨1, Utf16.encode "。 乙".toList, none, none, none⟩]
    ∃ first second,
      sentenceSelections (fun text => [text.take 3, text.drop 3]) text locks none =
        [first, second] ∧
      first.text = Utf16.encode "甲。".toList ∧
      first.Faithful "甲。 乙".toList (locateLocks text locks none) ∧
      second.text = Utf16.encode "乙".toList ∧
      second.Faithful "甲。 乙".toList (locateLocks text locks none) := by
  intro text locks
  have hjoined : ([text.take 3, text.drop 3] : List JsString).flatten = text := by decide
  have huncut : ∀ before after, [text.take 3, text.drop 3] = before ++ after →
      ¬ CutsPair before.flatten after.flatten := by
    rintro before after hpieces ⟨a, u, v, b, ha, -, hu, -⟩
    have hhigh : ∀ u ∈ text, Utf16.isHigh u = false := by decide
    have hmem : u ∈ ([text.take 3, text.drop 3] : List JsString).flatten := by
      rw [hpieces, List.flatten_append, ha]
      simp
    rw [hjoined] at hmem
    rw [hhigh u hmem] at hu
    cases hu
  obtain ⟨-, hsentences⟩ := sentenceSelections_faithful (fun text => [text.take 3, text.drop 3])
    "甲。 乙".toList locks none ⟨hjoined, huncut⟩ (by decide)
  obtain ⟨first, rest, ⟨hof, hfirst⟩, hrest, hall⟩ := List.forall₂_cons_left_iff.mp hsentences
  obtain ⟨second, rest, ⟨hof', hsecond⟩, hrest', rfl⟩ := List.forall₂_cons_left_iff.mp hrest
  obtain rfl := List.forall₂_nil_left_iff.mp hrest'
  exact ⟨first, second, hall, hof.text.trans (by decide), (hfirst (by decide)).2,
    hof'.text.trans (by decide), (hsecond (by decide)).2⟩

end DouyinCaption

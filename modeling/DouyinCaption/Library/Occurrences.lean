import Mathlib.Data.List.Basic
import Mathlib.Data.List.Count
import Mathlib.Data.List.Sort
import Mathlib.Logic.Function.Basic
import Mathlib.Data.List.Perm.Subperm
import Mathlib.Order.Lattice.Nat

/-!
# Disjoint occurrences of a word

`HasOccurrences xs w n` says that `xs` contains `n` pairwise disjoint occurrences of `w`,
listed from left to right. `scan` is the greedy search for a list of wanted words that
keeps one cursor per word: an occurrence found for a word moves only that word's cursor,
past its end, so occurrences of different words may overlap and those of one word may not.

`scan_missing_iff`: a scan misses nothing exactly where every word has as many disjoint
occurrences as it is wanted.
-/

namespace DouyinCaption.Occurrences

universe u v

variable {α : Type u} {ι : Type v}

/-- `w` stands in `xs` at position `i`. -/
def OccursAt (xs w : List α) (i : ℕ) : Prop := w <+: xs.drop i

instance [DecidableEq α] (xs w : List α) (i : ℕ) : Decidable (OccursAt xs w i) :=
  inferInstanceAs (Decidable (w <+: xs.drop i))

/-- A word that is not empty occurs within the text. -/
theorem OccursAt.lt_length {xs w : List α} {i : ℕ} (h : OccursAt xs w i) (hw : w ≠ []) :
    i < xs.length := by
  by_contra hlt
  rw [OccursAt, List.drop_of_length_le (Nat.le_of_not_lt hlt), List.prefix_nil] at h
  exact hw h

/-- `xs` has `n` pairwise disjoint occurrences of `w`. -/
def HasOccurrences (xs w : List α) (n : ℕ) : Prop :=
  ∃ ps : List ℕ, ps.length = n ∧ (∀ i ∈ ps, OccursAt xs w i) ∧
    ps.Pairwise fun i j => i + w.length ≤ j

theorem HasOccurrences.zero (xs w : List α) : HasOccurrences xs w 0 :=
  ⟨[], rfl, by simp, List.Pairwise.nil⟩

/-- Having more occurrences is having fewer. -/
theorem HasOccurrences.mono {xs w : List α} {m n : ℕ} (h : HasOccurrences xs w n)
    (hmn : m ≤ n) : HasOccurrences xs w m := by
  obtain ⟨ps, hlen, hocc, hpw⟩ := h
  refine ⟨ps.take m, by simp [hlen, hmn], fun i hi => hocc i (List.mem_of_mem_take hi), ?_⟩
  exact hpw.sublist (List.take_sublist m ps)

/-- The cursor of `w` stands past `n` disjoint occurrences of `w`. -/
def Behind (xs w : List α) (cursor n : ℕ) : Prop :=
  ∃ ps : List ℕ, ps.length = n ∧ (∀ i ∈ ps, OccursAt xs w i ∧ i + w.length ≤ cursor) ∧
    ps.Pairwise fun i j => i + w.length ≤ j

theorem Behind.hasOccurrences {xs w : List α} {cursor n : ℕ} (h : Behind xs w cursor n) :
    HasOccurrences xs w n := by
  obtain ⟨ps, hlen, hps, hpw⟩ := h
  exact ⟨ps, hlen, fun i hi => (hps i hi).1, hpw⟩

/-- Finding the word once more from its cursor on. -/
theorem Behind.found {xs w : List α} {cursor n i : ℕ} (h : Behind xs w cursor n)
    (hle : cursor ≤ i) (hocc : OccursAt xs w i) : Behind xs w (i + w.length) (n + 1) := by
  obtain ⟨ps, hlen, hps, hpw⟩ := h
  refine ⟨ps ++ [i], by simp [hlen], ?_, ?_⟩
  · intro j hj
    rcases List.mem_append.mp hj with hj | hj
    · obtain ⟨ho, hc⟩ := hps j hj
      exact ⟨ho, by omega⟩
    · obtain rfl := List.mem_singleton.mp hj
      exact ⟨hocc, Nat.le_refl _⟩
  · rw [List.pairwise_append]
    refine ⟨hpw, List.pairwise_singleton _ _, fun j hj k hk => ?_⟩
    obtain rfl := List.mem_singleton.mp hk
    exact Nat.le_trans (hps j hj).2 hle

variable [DecidableEq α]

/-- The lowest position from `start` on where `w` stands in `xs`. -/
def findFrom (xs w : List α) (start : ℕ) : Option ℕ :=
  (List.range (xs.length + 1)).find? fun i => decide (start ≤ i) && w.isPrefixOf (xs.drop i)

theorem findFrom_some {xs w : List α} {start i : ℕ} (h : findFrom xs w start = some i) :
    start ≤ i ∧ OccursAt xs w i := by
  have hp := List.find?_some h
  simp only [Bool.and_eq_true, decide_eq_true_eq] at hp
  exact ⟨hp.1, List.isPrefixOf_iff_prefix.mp hp.2⟩

/-- The state of a scan: where the search for each word goes on, and what was missed. -/
structure Scan (α : Type u) (ι : Type v) where
  /-- the position from which a word is searched next -/
  cursors : List α → ℕ
  /-- the wanted items whose word was not found -/
  missing : List ι

/-- Search for one wanted item. -/
def Scan.step (xs : List α) (word : ι → List α) (s : Scan α ι) (a : ι) : Scan α ι :=
  match findFrom xs (word a) (s.cursors (word a)) with
  | none => { s with missing := s.missing ++ [a] }
  | some i =>
      { s with cursors := Function.update s.cursors (word a) (i + (word a).length) }

/-- The greedy search for a list of wanted items, in their order. -/
def scan (xs : List α) (word : ι → List α) (wanted : List ι) : Scan α ι :=
  wanted.foldl (Scan.step xs word) ⟨fun _ => 0, []⟩

/-! ## Soundness -/

/-- A step never forgets what was missed. -/
theorem Scan.missing_of_step {xs : List α} {word : ι → List α} {s : Scan α ι} {a : ι}
    (h : (s.step xs word a).missing = []) :
    s.missing = [] ∧ ∃ i, findFrom xs (word a) (s.cursors (word a)) = some i := by
  rw [Scan.step] at h
  rcases hf : findFrom xs (word a) (s.cursors (word a)) with _ | i
  · rw [hf] at h
    simp at h
  · rw [hf] at h
    exact ⟨h, i, rfl⟩

theorem missing_of_foldl {xs : List α} {word : ι → List α} :
    ∀ (wanted : List ι) (s : Scan α ι),
      (wanted.foldl (Scan.step xs word) s).missing = [] → s.missing = [] := by
  intro wanted
  induction wanted with
  | nil => exact fun s h => h
  | cons a rest ih => exact fun s h => (Scan.missing_of_step (ih _ h)).1

/-- What a scan from any state has found when it misses nothing: for every word its cursor
has moved past one more occurrence for each time it is wanted. The induction is on the
wanted items; the occurrences counted so far are the invariant. -/
theorem behind_foldl {xs : List α} {word : ι → List α} {w : List α} :
    ∀ (wanted : List ι) (s : Scan α ι) (n : ℕ),
      Behind xs w (s.cursors w) n → (wanted.foldl (Scan.step xs word) s).missing = [] →
      Behind xs w ((wanted.foldl (Scan.step xs word) s).cursors w)
        (n + (wanted.map word).count w) := by
  intro wanted
  induction wanted with
  | nil => exact fun s n hb _ => hb
  | cons a rest ih =>
    intro s n hb hm
    obtain ⟨-, i, hi⟩ := Scan.missing_of_step (missing_of_foldl rest _ hm)
    obtain ⟨hle, hocc⟩ := findFrom_some hi
    by_cases ha : word a = w
    · subst ha
      have hb' : Behind xs (word a) ((s.step xs word a).cursors (word a)) (n + 1) := by
        simpa [Scan.step, hi] using hb.found hle hocc
      rw [List.foldl_cons, List.map_cons, List.count_cons_self, Nat.add_comm _ 1,
        ← Nat.add_assoc]
      exact ih _ _ hb' hm
    · have hb' : Behind xs w ((s.step xs word a).cursors w) n := by
        simpa [Scan.step, hi, Function.update_of_ne (Ne.symm ha)] using hb
      rw [List.foldl_cons, List.map_cons, List.count_cons_of_ne ha]
      exact ih _ _ hb' hm

/-- **Soundness of the greedy search**: where nothing is missing, every word has as many
disjoint occurrences as it is wanted. -/
theorem scan_sound {xs : List α} {word : ι → List α} {wanted : List ι}
    (h : (scan xs word wanted).missing = []) (w : List α) :
    HasOccurrences xs w ((wanted.map word).count w) := by
  have h₀ : Behind xs w 0 0 := ⟨[], rfl, by simp, List.Pairwise.nil⟩
  have := behind_foldl wanted ⟨fun _ => 0, []⟩ 0 h₀ h
  rw [Nat.zero_add] at this
  exact this.hasOccurrences

/-! ## Completeness -/

theorem findFrom_le {xs w : List α} {start i : ℕ} (hs : start ≤ i) (hi : i ≤ xs.length)
    (h : OccursAt xs w i) : ∃ j ≤ i, findFrom xs w start = some j := by
  have hp : (decide (start ≤ i) && w.isPrefixOf (xs.drop i)) = true := by
    rw [Bool.and_eq_true, decide_eq_true_eq]
    exact ⟨hs, List.isPrefixOf_iff_prefix.mpr h⟩
  rcases hf : findFrom xs w start with _ | j
  · have := List.find?_eq_none.mp hf i (List.mem_range.mpr (Nat.lt_succ_of_le hi))
    exact absurd hp this
  · refine ⟨j, ?_, rfl⟩
    by_contra hlt
    have hbefore := (List.find?_range_eq_some.mp hf).2.2 i (Nat.lt_of_not_le hlt)
    rw [hp] at hbefore
    cases hbefore

/-- From the cursor on there are `n` disjoint occurrences of `w`. -/
def Ahead (xs w : List α) (cursor n : ℕ) : Prop :=
  ∃ ps : List ℕ, ps.length = n ∧ (∀ i ∈ ps, OccursAt xs w i ∧ cursor ≤ i ∧ i ≤ xs.length) ∧
    ps.Pairwise fun i j => i + w.length ≤ j

omit [DecidableEq α] in
theorem HasOccurrences.ahead {xs w : List α} {n : ℕ} (h : HasOccurrences xs w n) :
    Ahead xs w 0 n := by
  obtain ⟨ps, hlen, hocc, hpw⟩ := h
  by_cases hw : w = []
  · subst hw
    refine ⟨List.replicate n 0, List.length_replicate, fun i hi => ?_,
      List.pairwise_replicate.mpr (.inr (Nat.le_refl _))⟩
    obtain rfl := List.eq_of_mem_replicate hi
    exact ⟨List.nil_prefix, Nat.le_refl _, Nat.zero_le _⟩
  · exact ⟨ps, hlen, fun i hi => ⟨hocc i hi, Nat.zero_le _, ((hocc i hi).lt_length hw).le⟩, hpw⟩

/-- The lowest occurrence from the cursor on leaves the others ahead. -/
theorem Ahead.found {xs w : List α} {cursor n : ℕ} (h : Ahead xs w cursor (n + 1)) :
    ∃ i, findFrom xs w cursor = some i ∧ Ahead xs w (i + w.length) n := by
  obtain ⟨_ | ⟨p, ps⟩, hlen, hps, hpw⟩ := h
  · cases hlen
  · obtain ⟨hocc, hle, hlt⟩ := hps p List.mem_cons_self
    obtain ⟨i, hi, hf⟩ := findFrom_le hle hlt hocc
    refine ⟨i, hf, ps, Nat.succ.inj hlen, fun j hj => ?_, (List.pairwise_cons.mp hpw).2⟩
    obtain ⟨hoccj, -, hltj⟩ := hps j (List.mem_cons_of_mem _ hj)
    have := (List.pairwise_cons.mp hpw).1 j hj
    exact ⟨hoccj, by omega, hltj⟩

/-- A scan misses nothing while every word has as many occurrences ahead as it is wanted. -/
theorem missing_foldl {xs : List α} {word : ι → List α} :
    ∀ (wanted : List ι) (s : Scan α ι), s.missing = [] →
      (∀ w, Ahead xs w (s.cursors w) ((wanted.map word).count w)) →
      (wanted.foldl (Scan.step xs word) s).missing = [] := by
  intro wanted
  induction wanted with
  | nil => exact fun s hs _ => hs
  | cons a rest ih =>
    intro s hs hahead
    have ha := hahead (word a)
    rw [List.map_cons, List.count_cons_self] at ha
    obtain ⟨i, hf, ha'⟩ := ha.found
    refine ih _ ?_ fun w => ?_
    · simpa [Scan.step, hf] using hs
    · by_cases hw : w = word a
      · subst hw
        simpa [Scan.step, hf] using ha'
      · have hb := hahead w
        rw [List.map_cons, List.count_cons_of_ne (Ne.symm hw)] at hb
        simpa [Scan.step, hf, Function.update_of_ne hw] using hb

/-- **Completeness of the greedy search**: it misses nothing exactly where every word has as
many disjoint occurrences as it is wanted. -/
theorem scan_missing_iff {xs : List α} {word : ι → List α} {wanted : List ι} :
    (scan xs word wanted).missing = [] ↔
      ∀ w, HasOccurrences xs w ((wanted.map word).count w) :=
  ⟨scan_sound, fun h => missing_foldl wanted _ rfl fun w => (h w).ahead⟩

/-! ## How much is missing -/

omit [DecidableEq α] in
/-- Disjoint occurrences of a word start at different positions of the text. -/
theorem HasOccurrences.le_length {xs w : List α} {n : ℕ} (h : HasOccurrences xs w n)
    (hw : w ≠ []) : n ≤ xs.length := by
  obtain ⟨ps, rfl, hocc, hpw⟩ := h
  have hpos := List.length_pos_iff.mpr hw
  have hnodup : ps.Nodup := hpw.imp fun {i j} hij => by omega
  have hsub : ps ⊆ List.range xs.length := fun i hi =>
    List.mem_range.mpr ((hocc i hi).lt_length hw)
  have hle := (List.Nodup.subperm hnodup hsub).length_le
  rwa [List.length_range] at hle

/-- The most pairwise disjoint occurrences a text has of a word. -/
noncomputable def maxOccurrences (xs w : List α) : ℕ := sSup {n | HasOccurrences xs w n}

omit [DecidableEq α] in
theorem isGreatest_maxOccurrences (xs : List α) {w : List α} (hw : w ≠ []) :
    IsGreatest {n | HasOccurrences xs w n} (maxOccurrences xs w) := by
  have hbound : BddAbove {n | HasOccurrences xs w n} := ⟨xs.length, fun n h => h.le_length hw⟩
  exact ⟨Nat.sSup_mem ⟨0, .zero xs w⟩ hbound, fun n h => le_csSup hbound h⟩

omit [DecidableEq α] in
theorem ahead_zero_iff {xs w : List α} {n : ℕ} : Ahead xs w 0 n ↔ HasOccurrences xs w n := by
  refine ⟨?_, HasOccurrences.ahead⟩
  rintro ⟨ps, hlen, hps, hpw⟩
  exact ⟨ps, hlen, fun i hi => (hps i hi).1, hpw⟩

/-- The occurrence found comes before the ones after it. -/
theorem Ahead.of_found {xs w : List α} {cursor i n : ℕ} (hf : findFrom xs w cursor = some i)
    (h : Ahead xs w (i + w.length) n) : Ahead xs w cursor (n + 1) := by
  obtain ⟨hle, hocc⟩ := findFrom_some hf
  have hi : i ≤ xs.length := by
    have := List.mem_of_find?_eq_some hf
    have := List.mem_range.mp this
    omega
  obtain ⟨ps, hlen, hps, hpw⟩ := h
  refine ⟨i :: ps, by rw [List.length_cons, hlen], fun j hj => ?_,
    List.pairwise_cons.mpr ⟨fun j hj => (hps j hj).2.1, hpw⟩⟩
  rcases List.mem_cons.mp hj with rfl | hj
  · exact ⟨hocc, hle, hi⟩
  · obtain ⟨hoccj, hlej, hltj⟩ := hps j hj
    exact ⟨hoccj, by omega, hltj⟩

/-- What a scan from any state misses of a word: what is wanted beyond the occurrences ahead
of its cursor. The greedy choice is optimal because the lowest occurrence leaves all but one of
the others ahead. -/
theorem count_missing_foldl {xs : List α} {word : ι → List α} {w : List α} :
    ∀ (wanted : List ι) (s : Scan α ι) (n : ℕ),
      IsGreatest {k | Ahead xs w (s.cursors w) k} n →
      ((wanted.foldl (Scan.step xs word) s).missing.map word).count w =
        (s.missing.map word).count w + ((wanted.map word).count w - n) := by
  intro wanted
  induction wanted with
  | nil =>
    intro s n _
    rw [List.foldl_nil, List.map_nil, List.count_nil, Nat.zero_sub, Nat.add_zero]
  | cons a rest ih =>
    intro s n hn
    rw [List.foldl_cons, List.map_cons]
    by_cases ha : word a = w
    · subst ha
      rw [List.count_cons_self]
      rcases hf : findFrom xs (word a) (s.cursors (word a)) with _ | i
      · -- nothing ahead: this one is missed, and so are the rest
        have hzero : n = 0 := by
          rcases n with _ | n
          · rfl
          · obtain ⟨i, hi, -⟩ := Ahead.found hn.1
            cases hf.symm.trans hi
        have hstep : s.step xs word a = { s with missing := s.missing ++ [a] } := by
          rw [Scan.step, hf]
        have hrest := ih { s with missing := s.missing ++ [a] } n hn
        rw [hstep, hrest, List.map_append, List.count_append, List.map_singleton,
          List.count_singleton_self]
        omega
      · have hstep : s.step xs word a = { s with
            cursors := Function.update s.cursors (word a) (i + (word a).length) } := by
          rw [Scan.step, hf]
        obtain ⟨m, rfl⟩ : ∃ m, n = m + 1 := by
          have hone : Ahead xs (word a) (s.cursors (word a)) (0 + 1) :=
            Ahead.of_found hf ⟨[], rfl, by simp, List.Pairwise.nil⟩
          exact ⟨n - 1, (Nat.sub_add_cancel (hn.2 hone)).symm⟩
        obtain ⟨j, hj, hahead⟩ := Ahead.found hn.1
        obtain rfl := Option.some.inj (hf.symm.trans hj)
        have hm : IsGreatest {k | Ahead xs (word a) (Function.update s.cursors (word a)
            (i + (word a).length) (word a)) k} m := by
          rw [Function.update_self]
          refine ⟨hahead, fun k hk => ?_⟩
          have := hn.2 (Ahead.of_found hf hk)
          omega
        have hrest := ih { s with
          cursors := Function.update s.cursors (word a) (i + (word a).length) } m hm
        rw [hstep, hrest]
        dsimp only
        omega
    · rw [List.count_cons_of_ne ha]
      have hcursor : (s.step xs word a).cursors w = s.cursors w := by
        rw [Scan.step]
        split
        · rfl
        · exact Function.update_of_ne (Ne.symm ha) _ _
      have hmissing : ((s.step xs word a).missing.map word).count w =
          (s.missing.map word).count w := by
        rw [Scan.step]
        split
        · rw [List.map_append, List.count_append, List.map_singleton,
            List.count_eq_zero_of_not_mem fun h => ha (List.mem_singleton.mp h).symm, Nat.add_zero]
        · rfl
      rw [ih _ n (by rwa [hcursor]), hmissing]

/-- **The greedy search misses as little as can be**: of each word what is wanted of it beyond
the most disjoint occurrences the text has. -/
theorem count_missing_scan {xs : List α} {word : ι → List α} {wanted : List ι} {w : List α}
    (hw : w ≠ []) : ((scan xs word wanted).missing.map word).count w =
      (wanted.map word).count w - maxOccurrences xs w := by
  have hmax := isGreatest_maxOccurrences xs hw
  have hahead : IsGreatest {k | Ahead xs w 0 k} (maxOccurrences xs w) :=
    ⟨ahead_zero_iff.mpr hmax.1, fun n hn => hmax.2 (ahead_zero_iff.mp hn)⟩
  have h : ((scan xs word wanted).missing.map word).count w = _ :=
    count_missing_foldl wanted ⟨fun _ => 0, []⟩ _ hahead
  rwa [List.map_nil, List.count_nil, Nat.zero_add] at h

/-- A scan for items of another type with the same words misses the same. -/
theorem missing_scan_map {κ : Type*} {xs : List α} {word : κ → List α} (f : ι → κ)
    (wanted : List ι) : (scan xs word (wanted.map f)).missing =
      (scan xs (fun a => word (f a)) wanted).missing.map f := by
  have hfold : ∀ (wanted : List ι) (s : Scan α κ) (s' : Scan α ι), s.cursors = s'.cursors →
      s.missing = s'.missing.map f →
      ((wanted.map f).foldl (Scan.step xs word) s).missing =
        (wanted.foldl (Scan.step xs fun a => word (f a)) s').missing.map f := by
    intro wanted
    induction wanted with
    | nil => exact fun s s' _ hm => hm
    | cons a rest ih =>
      intro s s' hc hm
      rw [List.map_cons, List.foldl_cons, List.foldl_cons]
      rcases hf : findFrom xs (word (f a)) (s'.cursors (word (f a))) with _ | i
      · refine ih _ _ ?_ ?_
        · simp only [Scan.step, hc, hf]
        · simp only [Scan.step, hc, hf, hm, List.map_append, List.map_singleton]
      · refine ih _ _ ?_ ?_
        · simp only [Scan.step, hc, hf]
        · simp only [Scan.step, hc, hf, hm]
  exact hfold wanted _ _ rfl rfl

/-- What a scan misses it was asked for, in this order. -/
theorem missing_scan_sublist {xs : List α} {word : ι → List α} (wanted : List ι) :
    (scan xs word wanted).missing.Sublist wanted := by
  have hfold : ∀ (wanted : List ι) (s : Scan α ι),
      (wanted.foldl (Scan.step xs word) s).missing.Sublist (s.missing ++ wanted) := by
    intro wanted
    induction wanted with
    | nil => exact fun s => (List.append_nil s.missing).symm ▸ List.Sublist.refl _
    | cons a rest ih =>
      intro s
      refine (ih (s.step xs word a)).trans ?_
      rw [Scan.step]
      split
      · rw [List.append_assoc, List.singleton_append]
      · exact (List.sublist_cons_self a rest).append_left s.missing
  exact hfold wanted ⟨fun _ => 0, []⟩

/-! ## Occurrences in any order -/

omit [DecidableEq α] in
/-- Disjoint occurrences can be listed from left to right. -/
theorem HasOccurrences.of_disjoint {xs w : List α} {ps : List ℕ}
    (hocc : ∀ i ∈ ps, OccursAt xs w i)
    (hpw : ps.Pairwise fun i j => i + w.length ≤ j ∨ j + w.length ≤ i) :
    HasOccurrences xs w ps.length := by
  have hperm := List.perm_insertionSort (· ≤ ·) ps
  have hsorted := List.pairwise_insertionSort (fun a b : ℕ => a ≤ b) ps
  have hdisj := (hperm.pairwise_iff fun {i j} h => h.symm).mpr hpw
  refine ⟨ps.insertionSort (· ≤ ·), hperm.length_eq, fun i hi => hocc i (hperm.mem_iff.mp hi), ?_⟩
  refine (hsorted.and hdisj).imp fun {i j} ⟨hle, h⟩ => ?_
  omega

end DouyinCaption.Occurrences

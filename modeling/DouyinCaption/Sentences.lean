import Mathlib.Data.List.Infix
import Mathlib.Data.List.Perm.Subperm
import Mathlib.Tactic.IntervalCases
import DouyinCaption.Domain
import DouyinCaption.Library.Utf16

/-!
# The locks of a text in the workbench

`src/frontend/src/features/workbench/sentences.ts`: where the locked texts stand in the text of
the editor. A string of the browser is the list of its UTF-16 code units, and `slice`,
`indexOf` and `length` count units.

`locateLocks` gives every lock a stretch of its own: a position another lock has is occupied.
The server asks for less (`validateLockConstraints`): every text must occur disjointly as often
as it is locked, but different texts may share characters. `locateLocks_agrees` says how far
the two checks agree.
-/

namespace DouyinCaption

open Occurrences

/-- A string of the browser: its UTF-16 code units. -/
abbrev JsString : Type := List ℕ

/-- `TextLock` of `shared/types.ts` -/
structure TextLock where
  id : Uuid
  text : JsString
  sourceVersionId : Option Uuid := none
  startOffset : Option ℕ := none
  endOffset : Option ℕ := none
  deriving DecidableEq, Repr

/-- `text.slice(start, end)` -/
def jsSlice (text : JsString) (start stop : ℕ) : JsString := (text.take stop).drop start

/-- `codePointOffset` -/
def codePointOffset (text : JsString) (utf16Offset : ℕ) : ℕ :=
  (Utf16.points (jsSlice text 0 utf16Offset)).length

/-- `utf16Offset` -/
def utf16Offset (text : JsString) (pointOffset : ℕ) : ℕ :=
  ((Utf16.points text).take pointOffset).flatten.length

/-- A range `locateLocks` found for a lock. -/
structure LockRange where
  id : Uuid
  start : ℕ
  stop : ℕ
  deriving DecidableEq, Repr

/-- `occupied`: a text of that length at the position overlaps a range. -/
def occupied (ranges : List LockRange) (length position : ℕ) : Bool :=
  ranges.any fun r => position < r.stop && position + length > r.start

/-- `text.indexOf(word)` and the `while` that goes on from the next position as long as what
was found is occupied. The fuel is the number of positions left. -/
def firstFree (text word : JsString) (occ : ℕ → Bool) : ℕ → ℕ → Option ℕ
  | 0, _ => none
  | fuel + 1, position =>
    match findFrom text word position with
    | none => none
    | some start => if occ start then firstFree text word occ fuel (start + 1) else some start

/-- Where the offsets of a lock of this version find its text. -/
def storedStart (text : JsString) (versionId : Option Uuid) (lock : TextLock) : Option ℕ :=
  if lock.sourceVersionId = versionId then
    match lock.startOffset, lock.endOffset with
    | some start, some stop =>
      let offset := utf16Offset text start
      if jsSlice text offset (utf16Offset text stop) = lock.text then some offset else none
    | _, _ => none
  else none

/-- The body of the loop of `locateLocks`. -/
def placeLock (text : JsString) (versionId : Option Uuid) (ranges : List LockRange)
    (lock : TextLock) : List LockRange :=
  let occ := occupied ranges lock.text.length
  let free := firstFree text lock.text occ (text.length + 1) 0
  let start := match storedStart text versionId lock with
    | none => free
    | some start => if occ start then free else some start
  match start with
  | none => ranges
  | some start => ranges ++ [⟨lock.id, start, start + lock.text.length⟩]

/-- The order of `locateLocks`: the locks of this version first. `Array.sort` is stable. -/
def sortLocks (versionId : Option Uuid) (locks : List TextLock) : List TextLock :=
  locks.insertionSort fun a b => b.sourceVersionId = versionId → a.sourceVersionId = versionId

/-- `locateLocks` -/
def locateLocks (text : JsString) (locks : List TextLock) (versionId : Option Uuid) :
    List LockRange :=
  (sortLocks versionId locks).foldl (placeLock text versionId) []

/-! ## Offsets -/

theorem codePointOffset_encode (text : Text) {k : ℕ} (hk : k ≤ text.length) :
    codePointOffset (Utf16.encode text) (Utf16.offset text k) = k := by
  have hslice : jsSlice (Utf16.encode text) 0 (Utf16.offset text k)
      = Utf16.encode (text.take k) := by
    have hsplit : Utf16.encode text = Utf16.encode (text.take k) ++ Utf16.encode (text.drop k) := by
      rw [← Utf16.encode_append, List.take_append_drop]
    rw [jsSlice, List.drop_zero, hsplit, Utf16.offset, List.take_left]
  rw [codePointOffset, hslice, Utf16.points_encode, List.length_map, List.length_take,
    Nat.min_eq_left hk]

theorem utf16Offset_encode (text : Text) (k : ℕ) :
    utf16Offset (Utf16.encode text) k = Utf16.offset text k := by
  rw [utf16Offset, Utf16.points_encode, ← List.map_take, Utf16.offset, Utf16.encode,
    List.flatMap_def]

/-! ## The search for a free position -/

section Search

variable {text word : JsString} {occ : ℕ → Bool}

theorem firstFree_some : ∀ {fuel position start : ℕ},
    firstFree text word occ fuel position = some start →
      OccursAt text word start ∧ occ start = false := by
  intro fuel
  induction fuel with
  | zero => exact fun h => nomatch h
  | succ fuel ih =>
    intro position start h
    simp only [firstFree] at h
    split at h
    · cases h
    · rename_i i hi
      split at h
      · exact ih h
      · rename_i hocc
        obtain rfl := Option.some.inj h
        exact ⟨(findFrom_some hi).2, by simpa using hocc⟩

/-- The search misses no free position: each turn of the loop starts further right. -/
theorem firstFree_isSome : ∀ {fuel position i : ℕ}, position ≤ i → i ≤ text.length →
    OccursAt text word i → occ i = false → text.length < position + fuel →
      ∃ start, firstFree text word occ fuel position = some start := by
  intro fuel
  induction fuel with
  | zero =>
    intro position i hle hlt _ _ hfuel
    omega
  | succ fuel ih =>
    intro position i hle hlt hocc hfree hfuel
    obtain ⟨j, hj, hf⟩ := findFrom_le hle hlt hocc
    have hge := (findFrom_some hf).1
    simp only [firstFree, hf]
    by_cases hoccj : occ j = true
    · rw [if_pos hoccj]
      have hne : j ≠ i := by
        rintro rfl
        rw [hoccj] at hfree
        cases hfree
      exact ih (Nat.lt_of_le_of_ne hj hne) hlt hocc hfree (by omega)
    · rw [if_neg hoccj]
      exact ⟨j, rfl⟩

end Search

/-! ## One lock -/

/-- The lock has this range of the text. -/
def TextLock.At (text : JsString) (lock : TextLock) (r : LockRange) : Prop :=
  OccursAt text lock.text r.start ∧ r.stop = r.start + lock.text.length

/-- Two ranges share no position. -/
def LockRange.Disjoint (r r' : LockRange) : Prop := r.stop ≤ r'.start ∨ r'.stop ≤ r.start

theorem storedStart_some {text : JsString} {versionId : Option Uuid} {lock : TextLock}
    {start : ℕ} (h : storedStart text versionId lock = some start) :
    OccursAt text lock.text start := by
  rw [storedStart] at h
  split at h
  · split at h
    · simp only at h
      split at h
      · rename_i i k _ _ hs
        obtain rfl := Option.some.inj h
        have hprefix := List.IsPrefix.drop (List.take_prefix (utf16Offset text k) text)
          (utf16Offset text i)
        rwa [← jsSlice, hs] at hprefix
      · cases h
    · cases h
  · cases h

theorem occupied_eq_false {ranges : List LockRange} {length position : ℕ} :
    occupied ranges length position = false ↔
      ∀ r ∈ ranges, r.stop ≤ position ∨ position + length ≤ r.start := by
  simp only [occupied, List.any_eq_false, Bool.and_eq_true, decide_eq_true_eq]
  refine forall₂_congr fun r _ => ?_
  omega

/-- What the loop does with one lock: nothing, or it gives it a range next to the others. -/
theorem placeLock_cases (text : JsString) (versionId : Option Uuid) (ranges : List LockRange)
    (lock : TextLock) :
    placeLock text versionId ranges lock = ranges ∨
    ∃ r, placeLock text versionId ranges lock = ranges ++ [r] ∧ r.id = lock.id ∧
      lock.At text r ∧ ∀ r' ∈ ranges, r'.Disjoint r := by
  have hplaced : ∀ start, OccursAt text lock.text start →
      occupied ranges lock.text.length start = false →
      ∃ r, ranges ++ [⟨lock.id, start, start + lock.text.length⟩] = ranges ++ [r] ∧
        r.id = lock.id ∧ lock.At text r ∧ ∀ r' ∈ ranges, r'.Disjoint r :=
    fun start hocc hfree => ⟨_, rfl, rfl, ⟨hocc, rfl⟩, occupied_eq_false.mp hfree⟩
  unfold placeLock
  simp only
  split
  · exact .inl rfl
  · rename_i start hstart
    refine .inr ?_
    split at hstart
    · obtain ⟨hocc, hfree⟩ := firstFree_some hstart
      exact hplaced start hocc hfree
    · rename_i i hi
      split at hstart
      · obtain ⟨hocc, hfree⟩ := firstFree_some hstart
        exact hplaced start hocc hfree
      · rename_i hfree
        obtain rfl := Option.some.inj hstart
        exact hplaced i (storedStart_some hi) (by simpa using hfree)

/-- A lock with a free position gets a range. -/
theorem placeLock_of_free {text : JsString} (versionId : Option Uuid) {ranges : List LockRange}
    {lock : TextLock} {i : ℕ} (hne : lock.text ≠ []) (hocc : OccursAt text lock.text i)
    (hfree : occupied ranges lock.text.length i = false) :
    (placeLock text versionId ranges lock).length = ranges.length + 1 := by
  obtain ⟨start, hstart⟩ := firstFree_isSome (Nat.zero_le i) (hocc.lt_length hne).le hocc
    hfree (show text.length < 0 + (text.length + 1) by omega)
  rw [placeLock]
  simp only [hstart]
  split
  · rename_i h
    split at h
    · cases h
    · split at h <;> cases h
  · simp

/-! ## All locks -/

/-- The ranges given so far: one for each of these locks, in their order and disjoint. -/
structure Placed (text : JsString) (locks : List TextLock) (ranges : List LockRange) : Prop where
  at_ : List.Forall₂ (TextLock.At text) locks ranges
  disjoint : ranges.Pairwise LockRange.Disjoint

theorem Placed.snoc {text : JsString} {locks : List TextLock} {ranges : List LockRange}
    {lock : TextLock} {r : LockRange} (h : Placed text locks ranges) (hat : lock.At text r)
    (hdisjoint : ∀ r' ∈ ranges, r'.Disjoint r) :
    Placed text (locks ++ [lock]) (ranges ++ [r]) where
  at_ := List.rel_append h.at_ (.cons hat .nil)
  disjoint := by
    refine List.pairwise_append.mpr ⟨h.disjoint, List.pairwise_singleton _ _, ?_⟩
    intro r' hr' k hk
    obtain rfl := List.mem_singleton.mp hk
    exact hdisjoint r' hr'

/-- The loop gives at most one range to each lock, and where it gives as many as there are
locks, each lock has its own. -/
theorem placed_of_foldl {text : JsString} {versionId : Option Uuid} :
    ∀ (rest done : List TextLock) (ranges : List LockRange), ranges.length ≤ done.length →
      (ranges.length = done.length → Placed text done ranges) →
      (rest.foldl (placeLock text versionId) ranges).length ≤ (done ++ rest).length ∧
      ((rest.foldl (placeLock text versionId) ranges).length = (done ++ rest).length →
        Placed text (done ++ rest) (rest.foldl (placeLock text versionId) ranges)) := by
  intro rest
  induction rest with
  | nil =>
    intro done ranges hle hplaced
    rw [List.append_nil]
    exact ⟨hle, hplaced⟩
  | cons lock rest ih =>
    intro done ranges hle hplaced
    have happend : done ++ lock :: rest = (done ++ [lock]) ++ rest := by simp
    rw [List.foldl_cons, happend]
    rcases placeLock_cases text versionId ranges lock with hsame | ⟨r, hr, -, hat, hdisjoint⟩
    · rw [hsame]
      refine ih _ _ ?_ fun heq => ?_
      · rw [List.length_append]
        exact hle.trans (Nat.le_add_right _ _)
      · rw [List.length_append, List.length_singleton] at heq
        omega
    · rw [hr]
      refine ih _ _ ?_ fun heq => ?_
      · simpa using hle
      · refine (hplaced ?_).snoc hat hdisjoint
        simpa using heq

/-- Where every lock has a range, each text occurs disjointly as often as it is locked. -/
theorem Placed.hasOccurrences {text : JsString} {locks : List TextLock}
    {ranges : List LockRange} (h : Placed text locks ranges) (word : JsString) :
    HasOccurrences text word ((locks.map TextLock.text).count word) := by
  obtain ⟨ps, hps, hocc, hpw, -⟩ : ∃ ps : List ℕ,
      ps.length = (locks.map TextLock.text).count word ∧
      (∀ i ∈ ps, OccursAt text word i) ∧
      (ps.Pairwise fun i j => i + word.length ≤ j ∨ j + word.length ≤ i) ∧
      ∀ i ∈ ps, ∃ r ∈ ranges, r.start = i ∧ r.stop = i + word.length := by
    obtain ⟨hat, hdisjoint⟩ := h
    induction hat with
    | nil => exact ⟨[], rfl, by simp, .nil, by simp⟩
    | @cons lock r locks ranges hlock hat ih =>
      obtain ⟨hr, hdisjoint⟩ := List.pairwise_cons.mp hdisjoint
      obtain ⟨ps, hps, hocc, hpw, hrange⟩ := ih hdisjoint
      have hlift : ∀ i ∈ ps, ∃ r' ∈ r :: ranges, r'.start = i ∧ r'.stop = i + word.length := by
        intro i hi
        obtain ⟨r', hr', h⟩ := hrange i hi
        exact ⟨r', List.mem_cons_of_mem _ hr', h⟩
      by_cases hword : lock.text = word
      · subst hword
        refine ⟨r.start :: ps, ?_, List.forall_mem_cons.mpr ⟨hlock.1, hocc⟩,
          List.pairwise_cons.mpr ⟨fun i hi => ?_, hpw⟩,
          List.forall_mem_cons.mpr ⟨⟨r, List.mem_cons_self, rfl, hlock.2⟩, hlift⟩⟩
        · rw [List.length_cons, hps, List.map_cons, List.count_cons_self]
        · obtain ⟨r', hr', rfl, hstop⟩ := hrange i hi
          have hd := hr r' hr'
          rw [LockRange.Disjoint, hlock.2, hstop] at hd
          exact hd
      · refine ⟨ps, ?_, hocc, hpw, hlift⟩
        rw [hps, List.map_cons, List.count_cons_of_ne hword]
  rw [← hps]
  exact .of_disjoint hocc hpw

/-- The locks of a text keep apart: an occurrence of one and an occurrence of another overlap
only where both locks have the same text and it is the same occurrence. -/
def Apart {α : Type} (text a b : List α) : Prop :=
  ∀ i j, OccursAt text a i → OccursAt text b j → i < j + b.length → j < i + a.length →
    a = b ∧ i = j

theorem Apart.symm {α : Type} {text a b : List α} (h : Apart text a b) : Apart text b a := by
  intro i j hi hj h₁ h₂
  obtain ⟨he, rfl⟩ := h j i hj hi h₂ h₁
  exact ⟨he.symm, rfl⟩

/-- The starts of the ranges given to locks of a text. -/
theorem starts_of_at {text : JsString} {locks : List TextLock} {ranges : List LockRange}
    (h : List.Forall₂ (TextLock.At text) locks ranges) (word : JsString) :
    ∃ starts : List ℕ, starts.length = (locks.map TextLock.text).count word ∧
      ∀ r ∈ ranges, ∃ lock ∈ locks, lock.At text r ∧ (lock.text = word → r.start ∈ starts) := by
  induction h with
  | nil => exact ⟨[], rfl, by simp⟩
  | @cons lock r locks ranges hlock _ ih =>
    obtain ⟨starts, hlen, hstarts⟩ := ih
    by_cases hword : lock.text = word
    · refine ⟨r.start :: starts, ?_, List.forall_mem_cons.mpr
        ⟨⟨lock, List.mem_cons_self, hlock, fun _ => List.mem_cons_self⟩, fun r' hr' => ?_⟩⟩
      · rw [List.length_cons, hlen, List.map_cons, hword, List.count_cons_self]
      · obtain ⟨lock', hl, hat, hmem⟩ := hstarts r' hr'
        exact ⟨lock', List.mem_cons_of_mem _ hl, hat, fun h => List.mem_cons_of_mem _ (hmem h)⟩
    · refine ⟨starts, ?_, List.forall_mem_cons.mpr
        ⟨⟨lock, List.mem_cons_self, hlock, fun h => absurd h hword⟩, fun r' hr' => ?_⟩⟩
      · rw [hlen, List.map_cons, List.count_cons_of_ne hword]
      · obtain ⟨lock', hl, hat, hmem⟩ := hstarts r' hr'
        exact ⟨lock', List.mem_cons_of_mem _ hl, hat, hmem⟩

/-- A lock whose text occurs more often than it has been given away has a free position. -/
theorem exists_free {text : JsString} {done : List TextLock} {ranges : List LockRange}
    {lock : TextLock} (hne : lock.text ≠ [])
    (hat : List.Forall₂ (TextLock.At text) done ranges)
    (hapart : ∀ l ∈ done, Apart text l.text lock.text)
    (hocc : HasOccurrences text lock.text ((done.map TextLock.text).count lock.text + 1)) :
    ∃ i, OccursAt text lock.text i ∧ occupied ranges lock.text.length i = false := by
  obtain ⟨ps, hlen, hps, hpw⟩ := hocc
  obtain ⟨starts, hstarts, hranges⟩ := starts_of_at hat lock.text
  by_contra hno
  -- every occurrence would be one already given to a lock of this text
  have hsub : ps ⊆ starts := by
    intro i hi
    have hocci : occupied ranges lock.text.length i = true := by
      by_contra hfree
      exact hno ⟨i, hps i hi, by simpa using hfree⟩
    obtain ⟨r, hr, hover⟩ := List.any_eq_true.mp hocci
    simp only [Bool.and_eq_true, decide_eq_true_eq] at hover
    obtain ⟨l, hl, ⟨hlocc, hstop⟩, hmem⟩ := hranges r hr
    obtain ⟨he, rfl⟩ := hapart l hl r.start i hlocc (hps i hi) hover.2 (by omega)
    exact hmem he
  have hnodup : ps.Nodup := by
    have hpos := List.length_pos_iff.mpr hne
    exact hpw.imp fun {i j} hij => by omega
  have := (List.Nodup.subperm hnodup hsub).length_le
  omega

/-- Where the locks keep apart and each text occurs as often as it is locked, the loop gives
every lock a range. -/
theorem length_of_foldl {text : JsString} (versionId : Option Uuid) :
    ∀ (rest done : List TextLock) (ranges : List LockRange), Placed text done ranges →
      (∀ l ∈ rest, l.text ≠ []) →
      (done ++ rest).Pairwise (fun a b => Apart text a.text b.text) →
      (∀ word, word ≠ [] →
        HasOccurrences text word (((done ++ rest).map TextLock.text).count word)) →
      (rest.foldl (placeLock text versionId) ranges).length = (done ++ rest).length := by
  intro rest
  induction rest with
  | nil =>
    intro done ranges hplaced _ _ _
    rw [List.append_nil]
    exact hplaced.at_.length_eq.symm
  | cons lock rest ih =>
    intro done ranges hplaced hne hapart hocc
    have happend : done ++ lock :: rest = (done ++ [lock]) ++ rest := by simp
    have hnelock := hne lock List.mem_cons_self
    have hfree : ∃ i, OccursAt text lock.text i ∧
        occupied ranges lock.text.length i = false := by
      refine exists_free hnelock hplaced.at_ (fun l hl => ?_) ((hocc _ hnelock).mono ?_)
      · exact (List.pairwise_append.mp hapart).2.2 l hl lock List.mem_cons_self
      · rw [List.map_append, List.count_append, List.map_cons, List.count_cons_self]
        omega
    obtain ⟨i, hi, hfreei⟩ := hfree
    have hlen := placeLock_of_free versionId hnelock hi hfreei
    rw [List.foldl_cons, happend]
    rw [happend] at hapart hocc
    refine ih _ _ ?_ (fun l hl => hne l (List.mem_cons_of_mem _ hl)) hapart hocc
    rcases placeLock_cases text versionId ranges lock with hsame | ⟨r, hr, -, hat, hdisjoint⟩
    · rw [hsame] at hlen
      omega
    · rw [hr]
      exact hplaced.snoc hat hdisjoint

/-! ## The two checks -/

/-- A lock as both sides know it: the browser with what it knows of its source, the server
with its place among the locks of the task. -/
structure Lock where
  id : Uuid
  text : Text
  orderIndex : ℕ
  sourceVersionId : Option Uuid := none
  startOffset : Option ℕ := none
  endOffset : Option ℕ := none

/-- The lock in the browser. -/
def Lock.shown (l : Lock) : TextLock where
  id := l.id
  text := Utf16.encode l.text
  sourceVersionId := l.sourceVersionId
  startOffset := l.startOffset
  endOffset := l.endOffset

/-- The lock in the check of the server. -/
def Lock.constraint (l : Lock) : LockConstraint := ⟨l.text, l.orderIndex⟩

theorem sortLocks_perm (versionId : Option Uuid) (locks : List TextLock) :
    (sortLocks versionId locks).Perm locks :=
  List.perm_insertionSort _ _

/-- Locks that keep apart in code points keep apart in units. -/
theorem Apart.encode {text a b : Text} (ha : a ≠ []) (hb : b ≠ []) (h : Apart text a b) :
    Apart (Utf16.encode text) (Utf16.encode a) (Utf16.encode b) := by
  intro i j hi hj h₁ h₂
  obtain ⟨k, rfl, hk⟩ := Utf16.occursAt_encode ha hi
  obtain ⟨l, rfl, hl⟩ := Utf16.occursAt_encode hb hj
  have h₁' : ¬ l + b.length ≤ k := fun hle =>
    h₁.not_ge ((Utf16.offset_add_le_iff hl (hk.lt_length ha)).mpr hle)
  have h₂' : ¬ k + a.length ≤ l := fun hle =>
    h₂.not_ge ((Utf16.offset_add_le_iff hk (hl.lt_length hb)).mpr hle)
  obtain ⟨rfl, rfl⟩ := h k l hk hl (Nat.lt_of_not_le h₁') (Nat.lt_of_not_le h₂')
  exact ⟨rfl, rfl⟩

theorem encode_ne_nil {t : Text} (h : t ≠ []) : Utf16.encode t ≠ [] := fun he =>
  h (Utf16.encode_injective he)

theorem count_shown (locks : List Lock) (t : Text) :
    ((locks.map Lock.shown).map TextLock.text).count (Utf16.encode t)
      = (locks.map Lock.text).count t := by
  rw [List.map_map, show TextLock.text ∘ Lock.shown = Utf16.encode ∘ Lock.text from rfl,
    ← List.map_map, List.count_map_of_injective _ _ Utf16.encode_injective]

/-- What the workbench finds in full, the server misses nothing of. -/
theorem honours_of_locateLocks {text : Text} {locks : List Lock} {versionId : Option Uuid}
    (hne : ∀ l ∈ locks, l.text ≠ [])
    (h : (locateLocks (Utf16.encode text) (locks.map Lock.shown) versionId).length
      = locks.length) : Honours text (locks.map Lock.text) := by
  have hperm := sortLocks_perm versionId (locks.map Lock.shown)
  have hplaced : Placed (Utf16.encode text) (sortLocks versionId (locks.map Lock.shown))
      (locateLocks (Utf16.encode text) (locks.map Lock.shown) versionId) := by
    refine (placed_of_foldl (sortLocks versionId (locks.map Lock.shown)) [] [] (Nat.le_refl _)
      fun _ => ⟨.nil, .nil⟩).2 (h.trans ?_)
    rw [List.nil_append, hperm.length_eq, List.length_map]
  intro t
  by_cases ht : t = []
  · -- no lock is empty
    have hzero : (locks.map Lock.text).count t = 0 := by
      refine List.count_eq_zero.mpr fun hm => ?_
      obtain ⟨l, hl, rfl⟩ := List.mem_map.mp hm
      exact hne l hl ht
    rw [hzero]
    exact .zero text t
  · refine (Utf16.hasOccurrences_encode_iff ht).mp ?_
    rw [← count_shown, ← (hperm.map TextLock.text).count_eq]
    exact hplaced.hasOccurrences _

/-- What honours locks that keep apart, the workbench finds in full. -/
theorem locateLocks_of_honours {text : Text} {locks : List Lock} (versionId : Option Uuid)
    (hne : ∀ l ∈ locks, l.text ≠ [])
    (hapart : locks.Pairwise fun a b => Apart text a.text b.text)
    (h : Honours text (locks.map Lock.text)) :
    (locateLocks (Utf16.encode text) (locks.map Lock.shown) versionId).length
      = locks.length := by
  have hperm := sortLocks_perm versionId (locks.map Lock.shown)
  have hunits : (locks.map Lock.shown).Pairwise
      fun a b => Apart (Utf16.encode text) a.text b.text := by
    refine List.pairwise_map.mpr (hapart.imp_of_mem fun {a b} ha hb h => ?_)
    exact h.encode (hne a ha) (hne b hb)
  have hlen := length_of_foldl versionId (sortLocks versionId (locks.map Lock.shown))
    [] [] ⟨.nil, .nil⟩ (fun l hl => ?_) ((hperm.pairwise_iff fun {a b} h => h.symm).mpr hunits)
    (fun word hword => ?_)
  · refine hlen.trans ?_
    rw [List.nil_append, hperm.length_eq, List.length_map]
  · obtain ⟨l', hl', rfl⟩ := List.mem_map.mp (hperm.mem_iff.mp hl)
    exact encode_ne_nil (hne l' hl')
  · rw [List.nil_append, (hperm.map TextLock.text).count_eq]
    by_cases hm : word ∈ (locks.map Lock.shown).map TextLock.text
    · obtain ⟨l, hl, rfl⟩ := List.mem_map.mp hm
      obtain ⟨l', hl', rfl⟩ := List.mem_map.mp hl
      have hcount : ((locks.map Lock.shown).map TextLock.text).count l'.shown.text
          = (locks.map Lock.text).count l'.text := count_shown locks l'.text
      rw [hcount]
      exact (Utf16.hasOccurrences_encode_iff (hne l' hl')).mpr (h l'.text)
    · rw [List.count_eq_zero.mpr hm]
      exact .zero _ _

/-- **How far the two checks agree.** Where the workbench finds every lock, the server misses
none. Where the server misses none and no occurrence of one lock's text overlaps an occurrence
of another's, the same stretch of two locks of one text apart, the workbench finds every
lock. -/
theorem locateLocks_agrees (text : Text) (locks : List Lock) (versionId : Option Uuid)
    (hne : ∀ l ∈ locks, l.text ≠ []) :
    ((locateLocks (Utf16.encode text) (locks.map Lock.shown) versionId).length = locks.length →
      validateLockConstraints text (locks.map Lock.constraint) = []) ∧
    ((locks.Pairwise fun a b => Apart text a.text b.text) →
      validateLockConstraints text (locks.map Lock.constraint) = [] →
        (locateLocks (Utf16.encode text) (locks.map Lock.shown) versionId).length
          = locks.length) := by
  have hiff : validateLockConstraints text (locks.map Lock.constraint) = [] ↔
      Honours text ((locks.map Lock.constraint).map LockConstraint.text) :=
    validateLockConstraints_eq_nil
  rw [List.map_map] at hiff
  refine ⟨fun h => hiff.mpr (honours_of_locateLocks hne h), fun hapart h => ?_⟩
  exact locateLocks_of_honours versionId hne hapart (hiff.mp h)

/-- A text locked twice in a text that has it twice. -/
theorem locateLocks_agrees_repeated :
    validateLockConstraints "abab".toList [⟨"ab".toList, 0⟩, ⟨"ab".toList, 1⟩] = [] ∧
    (locateLocks (Utf16.encode "abab".toList) [⟨1, Utf16.encode "ab".toList, none, none, none⟩,
      ⟨2, Utf16.encode "ab".toList, none, none, none⟩] none).length = 2 := by
  have hagree := locateLocks_agrees "abab".toList
    [⟨1, "ab".toList, 0, none, none, none⟩, ⟨2, "ab".toList, 1, none, none, none⟩] none (by decide)
  have hmissing := hagree.1 (by decide)
  refine ⟨hmissing, hagree.2 ?_ hmissing⟩
  have hapart : Apart "abab".toList "ab".toList "ab".toList := by
    intro i j hi hj h₁ h₂
    have hi' : i < 4 := hi.lt_length (by decide)
    have hj' : j < 4 := hj.lt_length (by decide)
    revert hi hj h₁ h₂
    interval_cases i <;> interval_cases j <;> decide
  exact .cons (by simpa using hapart) (List.pairwise_singleton _ _)

/-- Two locks that share a character: the server misses none, the workbench finds one. -/
theorem locateLocks_disagrees :
    ¬ ∀ (text : Text) (locks : List Lock) (versionId : Option Uuid), (∀ l ∈ locks, l.text ≠ []) →
      ((locateLocks (Utf16.encode text) (locks.map Lock.shown) versionId).length = locks.length ↔
        validateLockConstraints text (locks.map Lock.constraint) = []) := by
  intro h
  have hiff := h "abc".toList [⟨1, "ab".toList, 0, none, none, none⟩,
    ⟨2, "bc".toList, 1, none, none, none⟩] none (by decide)
  have hlen := hiff.mpr (by decide)
  revert hlen
  decide

end DouyinCaption

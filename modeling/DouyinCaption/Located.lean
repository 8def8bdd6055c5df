import Mathlib.Data.List.Sort
import DouyinCaption.Sentences

/-!
# Where the locks of a text are found

`locateLocks` gives a lock at most one range, a range has the text of its lock and no position
in common with another (`Located`). The locks of the version on screen come first, so as long
as its text is unedited they stand where the server stored them, whatever other locks the list
has (`mem_locateLocks_of_stored`).
-/

namespace DouyinCaption

open Occurrences

/-! ## The search ends -/

/-- The loop that looks for a free position, turn by turn: `Searches text word occ p result`
when it ends with this result from position `p` on. -/
inductive Searches (text word : JsString) (occ : ℕ → Bool) : ℕ → Option ℕ → Prop where
  | missing {p : ℕ} : findFrom text word p = none → Searches text word occ p none
  | free {p start : ℕ} : findFrom text word p = some start → occ start = false →
      Searches text word occ p (some start)
  | next {p start : ℕ} {result : Option ℕ} : findFrom text word p = some start →
      occ start = true → Searches text word occ (start + 1) result →
      Searches text word occ p result

/-- A turn for each position left is enough. -/
theorem searches_firstFree {text word : JsString} {occ : ℕ → Bool} (hne : word ≠ []) :
    ∀ {fuel p : ℕ}, text.length ≤ p + fuel →
      Searches text word occ p (firstFree text word occ fuel p) := by
  intro fuel
  induction fuel with
  | zero =>
    intro p hp
    refine .missing (Option.eq_none_iff_forall_not_mem.mpr fun i hi => ?_)
    obtain ⟨hle, hocc⟩ := findFrom_some hi
    have := hocc.lt_length hne
    omega
  | succ fuel ih =>
    intro p hp
    rw [firstFree]
    split
    · exact .missing ‹_›
    · rename_i start hstart
      have hle := (findFrom_some hstart).1
      split
      · exact .next hstart ‹_› (ih (by omega))
      · exact .free hstart (by simpa using ‹¬ occ start = true›)

/-! ## One range for a lock -/

/-- Some of the locks have a range, each one at most, with its text and no shared position. -/
structure Located (text : JsString) (locks : List TextLock) (ranges : List LockRange) : Prop where
  own : ∃ placed : List TextLock, placed.Subperm locks ∧
    List.Forall₂ (fun l r => r.id = l.id ∧ r.start < r.stop ∧
      jsSlice text r.start r.stop = l.text) placed ranges
  disjoint : ranges.Pairwise LockRange.Disjoint

theorem jsSlice_of_occursAt {text word : JsString} {i : ℕ} (h : OccursAt text word i) :
    jsSlice text i (i + word.length) = word := by
  obtain ⟨rest, hrest⟩ := h
  rw [jsSlice, List.drop_take, ← hrest, Nat.add_sub_cancel_left, List.take_left]

/-- What is true of the ranges before a lock is true of them with its range. -/
theorem Located.placeLock {text : JsString} {versionId : Option Uuid} {locks : List TextLock}
    {ranges : List LockRange} {lock : TextLock} (h : Located text locks ranges)
    (hne : lock.text ≠ []) :
    Located text (locks ++ [lock]) (DouyinCaption.placeLock text versionId ranges lock) := by
  obtain ⟨⟨placed, hsub, hown⟩, hdisjoint⟩ := h
  rcases placeLock_cases text versionId ranges lock with hsame | ⟨r, hr, hid, hat, hapart⟩
  · rw [hsame]
    exact ⟨⟨placed, hsub.trans (List.sublist_append_left _ _).subperm, hown⟩, hdisjoint⟩
  · have hpos := List.length_pos_iff.mpr hne
    have hslice : jsSlice text r.start r.stop = lock.text := by
      rw [hat.2, jsSlice_of_occursAt hat.1]
    have hlt : r.start < r.stop := by
      rw [hat.2]
      omega
    rw [hr]
    refine ⟨⟨placed ++ [lock], hsub.append (List.Subperm.refl _),
      List.rel_append hown (.cons ⟨hid, hlt, hslice⟩ .nil)⟩, ?_⟩
    refine List.pairwise_append.mpr ⟨hdisjoint, List.pairwise_singleton _ _, fun r' hr' k hk => ?_⟩
    obtain rfl := List.mem_singleton.mp hk
    exact hapart r' hr'

theorem located_foldl {text : JsString} (versionId : Option Uuid) :
    ∀ (rest done : List TextLock) (ranges : List LockRange), Located text done ranges →
      (∀ l ∈ rest, l.text ≠ []) →
      Located text (done ++ rest) (rest.foldl (placeLock text versionId) ranges) := by
  intro rest
  induction rest with
  | nil =>
    intro done ranges h _
    rwa [List.append_nil]
  | cons lock rest ih =>
    intro done ranges h hne
    rw [show done ++ lock :: rest = (done ++ [lock]) ++ rest by simp]
    exact ih _ _ (h.placeLock (hne lock List.mem_cons_self))
      fun l hl => hne l (List.mem_cons_of_mem _ hl)

theorem located_locateLocks {text : JsString} {locks : List TextLock}
    (versionId : Option Uuid) (hne : ∀ l ∈ locks, l.text ≠ []) :
    Located text locks (locateLocks text locks versionId) := by
  have hperm := sortLocks_perm versionId locks
  have hempty : Located text [] [] := ⟨⟨[], List.Subperm.refl _, .nil⟩, .nil⟩
  obtain ⟨⟨placed, hsub, hown⟩, hdisjoint⟩ := located_foldl versionId
    (sortLocks versionId locks) [] [] hempty fun l hl => hne l (hperm.mem_iff.mp hl)
  exact ⟨⟨placed, hsub.trans hperm.subperm, hown⟩, hdisjoint⟩

theorem Located.start_lt_stop {text : JsString} {locks : List TextLock}
    {ranges : List LockRange} (h : Located text locks ranges) : ∀ r ∈ ranges, r.start < r.stop := by
  obtain ⟨⟨placed, -, hown⟩, -⟩ := h
  induction hown with
  | nil => exact fun r hr => absurd hr List.not_mem_nil
  | cons hlr _ ih => exact List.forall_mem_cons.mpr ⟨hlr.2.1, ih⟩

/-- Locks with names of their own have ranges with names of their own. -/
theorem Located.ids_nodup {text : JsString} {locks : List TextLock} {ranges : List LockRange}
    (h : Located text locks ranges) (hids : (locks.map TextLock.id).Nodup) :
    (ranges.map LockRange.id).Nodup := by
  obtain ⟨⟨placed, ⟨chosen, hperm, hsub⟩, hown⟩, -⟩ := h
  have hsame : ranges.map LockRange.id = placed.map TextLock.id := by
    clear hperm
    induction hown with
    | nil => rfl
    | cons hlr _ ih => rw [List.map_cons, List.map_cons, hlr.1, ih]
  rw [hsame]
  exact (hperm.map TextLock.id).nodup_iff.mp ((hsub.map TextLock.id).nodup hids)

/-! ## The locks of the version on screen -/

/-- What the server guarantees of the locks created on a version: the text of a lock is the
slice of the content at its offsets, and no two have a position in common. -/
structure StoredLocks (content : Text) (versionId : Option Uuid) (locks : List TextLock) :
    Prop where
  slice : ∀ l ∈ locks, l.sourceVersionId = versionId → ∃ start stop, l.startOffset = some start ∧
    l.endOffset = some stop ∧ l.text = Utf16.encode ((content.take stop).drop start)
  disjoint : locks.Pairwise fun a b => a.sourceVersionId = versionId →
    b.sourceVersionId = versionId → ∀ start stop start' stop', a.startOffset = some start →
      a.endOffset = some stop → b.startOffset = some start' → b.endOffset = some stop' →
      stop ≤ start' ∨ stop' ≤ start

/-- The stored range of a lock, in units. -/
def storedRange (content : Text) (lock : TextLock) : LockRange where
  id := lock.id
  start := Utf16.offset content (lock.startOffset.getD 0)
  stop := Utf16.offset content (lock.endOffset.getD 0)

/-- The slice of a content occurs at its offset, up to the offset of its end. -/
theorem slice_occursAt {content : Text} {start stop : ℕ}
    (hne : Utf16.encode ((content.take stop).drop start) ≠ []) :
    OccursAt (Utf16.encode content) (Utf16.encode ((content.take stop).drop start))
        (Utf16.offset content start) ∧
      Utf16.offset content start + (Utf16.encode ((content.take stop).drop start)).length =
        Utf16.offset content stop := by
  have hlt : start < (content.take stop).length := by
    by_contra hle
    rw [List.drop_eq_nil_of_le (Nat.le_of_not_lt hle)] at hne
    exact hne rfl
  have hocc : OccursAt content ((content.take stop).drop start) start :=
    List.IsPrefix.drop (List.take_prefix stop content) start
  refine ⟨Utf16.occursAt_offset hocc, ?_⟩
  rw [← Utf16.offset_add hocc, List.length_drop, Nat.add_sub_cancel' hlt.le, Utf16.offset,
    Utf16.offset, List.length_take, ← List.take_eq_take_min]

/-- The stored range of a lock of the version, read off its offsets. -/
theorem StoredLocks.range {content : Text} {versionId : Option Uuid} {locks : List TextLock}
    (h : StoredLocks content versionId locks) {l : TextLock} (hl : l ∈ locks)
    (hv : l.sourceVersionId = versionId) (hne : l.text ≠ []) :
    storedStart (Utf16.encode content) versionId l = some (storedRange content l).start ∧
      (storedRange content l).stop = (storedRange content l).start + l.text.length := by
  obtain ⟨start, stop, hstart, hstop, htext⟩ := h.slice l hl hv
  have hne' : Utf16.encode ((content.take stop).drop start) ≠ [] := htext ▸ hne
  have hocc := slice_occursAt hne'
  rw [← htext] at hocc
  have hrange : storedRange content l =
      ⟨l.id, Utf16.offset content start, Utf16.offset content stop⟩ := by
    rw [storedRange, hstart, hstop]
    rfl
  rw [hrange]
  refine ⟨?_, hocc.2.symm⟩
  have hslice := jsSlice_of_occursAt hocc.1
  rw [hocc.2] at hslice
  simp only [storedStart, if_pos hv, hstart, hstop, utf16Offset_encode, if_pos hslice]

/-- The stored ranges of two locks of the version do not meet. -/
theorem StoredLocks.apart {content : Text} {versionId : Option Uuid} {locks : List TextLock}
    (h : StoredLocks content versionId locks) :
    locks.Pairwise fun a b => a.sourceVersionId = versionId → b.sourceVersionId = versionId →
      (storedRange content a).Disjoint (storedRange content b) := by
  refine h.disjoint.imp_of_mem fun {a b} ha hb hab hva hvb => ?_
  obtain ⟨start, stop, hstart, hstop, -⟩ := h.slice a ha hva
  obtain ⟨start', stop', hstart', hstop', -⟩ := h.slice b hb hvb
  simp only [LockRange.Disjoint, storedRange, hstart, hstop, hstart', hstop', Option.getD_some]
  exact (hab hva hvb _ _ _ _ hstart hstop hstart' hstop').imp (Utf16.offset_mono content)
    (Utf16.offset_mono content)

/-- A lock of the version goes to its stored range when that is free. -/
theorem StoredLocks.placeLock {content : Text} {versionId : Option Uuid} {locks : List TextLock}
    (h : StoredLocks content versionId locks) {l : TextLock} (hl : l ∈ locks)
    (hv : l.sourceVersionId = versionId) (hne : l.text ≠ []) {ranges : List LockRange}
    (hfree : ∀ r ∈ ranges, r.Disjoint (storedRange content l)) :
    DouyinCaption.placeLock (Utf16.encode content) versionId ranges l =
      ranges ++ [storedRange content l] := by
  obtain ⟨hstart, hstop⟩ := h.range hl hv hne
  have hocc : occupied ranges l.text.length (storedRange content l).start = false := by
    refine occupied_eq_false.mpr fun r hr => ?_
    rw [← hstop]
    exact hfree r hr
  have hrange : (⟨l.id, (storedRange content l).start,
      (storedRange content l).start + l.text.length⟩ : LockRange) = storedRange content l := by
    rw [← hstop]
    rfl
  simp only [DouyinCaption.placeLock, hstart, hocc, Bool.false_eq_true, if_false]
  rw [hrange]

/-- While only locks of the version were placed, each has its stored range. -/
theorem StoredLocks.foldl {content : Text} {versionId : Option Uuid} {locks : List TextLock}
    (h : StoredLocks content versionId locks) (done : List TextLock) :
    (∀ l ∈ done, l ∈ locks ∧ l.sourceVersionId = versionId ∧ l.text ≠ []) →
    (done.Pairwise fun a b => a.sourceVersionId = versionId → b.sourceVersionId = versionId →
      (storedRange content a).Disjoint (storedRange content b)) →
    done.foldl (DouyinCaption.placeLock (Utf16.encode content) versionId) [] =
      done.map (storedRange content) := by
  induction done using List.reverseRecOn with
  | nil => exact fun _ _ => rfl
  | append_singleton done l ih =>
    intro hall hapart
    obtain ⟨hl, hv, hne⟩ := hall l (List.mem_append_right _ (List.mem_singleton_self l))
    obtain ⟨hdone, -, hlast⟩ := List.pairwise_append.mp hapart
    rw [List.foldl_append, ih (fun a ha => hall a (List.mem_append_left _ ha)) hdone,
      List.foldl_cons, List.foldl_nil, List.map_append, h.placeLock hl hv hne]
    · rfl
    · intro r hr
      obtain ⟨a, ha, rfl⟩ := List.mem_map.mp hr
      have hva := (hall a (List.mem_append_left _ ha)).2.1
      exact hlast a ha l (List.mem_singleton_self l) hva hv

/-- Later locks leave the ranges that are there. -/
theorem prefix_foldl_placeLock {text : JsString} {versionId : Option Uuid} :
    ∀ (rest : List TextLock) (ranges : List LockRange),
      ranges <+: rest.foldl (placeLock text versionId) ranges := by
  intro rest
  induction rest with
  | nil => exact fun ranges => List.prefix_refl ranges
  | cons lock rest ih =>
    intro ranges
    refine List.IsPrefix.trans ?_ (ih (placeLock text versionId ranges lock))
    rcases placeLock_cases text versionId ranges lock with hsame | ⟨r, hr, -⟩
    · rw [hsame]
    · rw [hr]
      exact List.prefix_append _ _

/-- The locks of the version come first. -/
theorem sortLocks_first {versionId : Option Uuid} {locks pre post : List TextLock}
    {lock : TextLock} (hv : lock.sourceVersionId = versionId)
    (h : sortLocks versionId locks = pre ++ lock :: post) :
    ∀ l ∈ pre, l.sourceVersionId = versionId := by
  let r := fun a b : TextLock => b.sourceVersionId = versionId → a.sourceVersionId = versionId
  have : Std.Total r := ⟨fun a b => by
    by_cases ha : a.sourceVersionId = versionId
    · exact .inl fun _ => ha
    · exact .inr fun h => absurd h ha⟩
  have : IsTrans TextLock r := ⟨fun a b c hab hbc hc => hab (hbc hc)⟩
  have hsorted : (sortLocks versionId locks).Pairwise r := List.pairwise_insertionSort r locks
  rw [h] at hsorted
  exact fun l hl => (List.pairwise_append.mp hsorted).2.2 l hl lock List.mem_cons_self hv

/-- **A lock created on an unedited version is found where it was stored.** -/
theorem mem_locateLocks_of_stored {content : Text} {versionId : Option Uuid}
    {locks : List TextLock} (h : StoredLocks content versionId locks)
    (hne : ∀ l ∈ locks, l.text ≠ []) {l : TextLock} (hl : l ∈ locks)
    (hv : l.sourceVersionId = versionId) :
    storedRange content l ∈ locateLocks (Utf16.encode content) locks versionId := by
  have hperm := sortLocks_perm versionId locks
  obtain ⟨pre, post, hsplit⟩ := List.append_of_mem (hperm.mem_iff.mpr hl)
  have hfirst := sortLocks_first hv hsplit
  have hapart := (hperm.pairwise_iff (fun {a b} hab hvb hva => (hab hva hvb).symm)).mpr h.apart
  have hmem : ∀ a ∈ pre ++ [l], a ∈ locks ∧ a.sourceVersionId = versionId ∧ a.text ≠ [] := by
    intro a ha
    have halocks : a ∈ locks := by
      refine hperm.mem_iff.mp (hsplit ▸ ?_)
      rw [List.append_cons]
      exact List.mem_append_left _ ha
    refine ⟨halocks, ?_, hne a halocks⟩
    rcases List.mem_append.mp ha with ha | ha
    · exact hfirst a ha
    · exact List.mem_singleton.mp ha ▸ hv
  rw [hsplit, List.append_cons] at hapart
  have hplaced := h.foldl (pre ++ [l]) hmem (List.pairwise_append.mp hapart).1
  rw [locateLocks, hsplit, List.append_cons, List.foldl_append, hplaced]
  refine (prefix_foldl_placeLock post _).subset (List.mem_map_of_mem ?_)
  exact List.mem_append_right _ (List.mem_singleton_self l)

/-- **Where the locks are found.** Every search of the loop ends. The ranges have no position in
common, each belongs to a lock of its own and holds its text. And on the unedited text of a
version each lock created on it has the range it was stored with, whatever else is locked. -/
theorem locateLocks_located (text : JsString) (locks : List TextLock) (versionId : Option Uuid)
    (hne : ∀ l ∈ locks, l.text ≠ []) :
    (∀ done lock rest, sortLocks versionId locks = done ++ lock :: rest →
      let occ := occupied (done.foldl (placeLock text versionId) []) lock.text.length
      Searches text lock.text occ 0 (firstFree text lock.text occ (text.length + 1) 0)) ∧
    Located text locks (locateLocks text locks versionId) ∧
    ((locks.map TextLock.id).Nodup →
      ((locateLocks text locks versionId).map LockRange.id).Nodup) ∧
    ∀ content : Text, text = Utf16.encode content → StoredLocks content versionId locks →
      ∀ l ∈ locks, l.sourceVersionId = versionId → ∃ start stop, l.startOffset = some start ∧
        l.endOffset = some stop ∧
        ⟨l.id, Utf16.offset content start, Utf16.offset content stop⟩ ∈
          locateLocks text locks versionId := by
  have hlocated : Located text locks (locateLocks text locks versionId) :=
    located_locateLocks versionId hne
  refine ⟨fun done lock rest hsplit => ?_, hlocated, hlocated.ids_nodup, ?_⟩
  · have hmem : lock ∈ sortLocks versionId locks := by
      rw [hsplit]
      exact List.mem_append_right _ List.mem_cons_self
    exact searches_firstFree (hne lock ((sortLocks_perm versionId locks).mem_iff.mp hmem))
      (by omega)
  · rintro content rfl hstored l hl hv
    obtain ⟨start, stop, hstart, hstop, -⟩ := hstored.slice l hl hv
    refine ⟨start, stop, hstart, hstop, ?_⟩
    have hmem := mem_locateLocks_of_stored hstored hne hl hv
    rwa [storedRange, hstart, hstop] at hmem

/-- Two locks of a version that repeats a sentence, and a lock of another version. -/
def repeatedLocks : List TextLock :=
  [⟨3, Utf16.encode "复。".toList, some 8, some 4, some 6⟩,
    ⟨2, Utf16.encode "重复。".toList, some 7, some 6, some 9⟩,
    ⟨1, Utf16.encode "开头。".toList, some 7, some 0, some 3⟩]

/-- The lock of the second repetition keeps its place; the other version's lock gives way. -/
theorem locateLocks_located_repeated :
    ⟨2, 6, 9⟩ ∈ locateLocks (Utf16.encode "开头。重复。重复。".toList) repeatedLocks (some 7) := by
  have hstored : StoredLocks "开头。重复。重复。".toList (some 7) repeatedLocks := by
    constructor
    · intro l hl hv
      simp only [repeatedLocks, List.mem_cons, List.not_mem_nil, or_false] at hl
      rcases hl with rfl | rfl | rfl
      · exact absurd hv (by decide)
      · exact ⟨6, 9, rfl, rfl, by decide⟩
      · exact ⟨0, 3, rfl, rfl, by decide⟩
    · refine .cons (fun b _ h => absurd h (by decide)) (.cons (fun b hb _ _ => ?_) (.cons ?_ .nil))
      · obtain rfl := List.mem_singleton.mp hb
        intro start stop start' stop' h₁ h₂ h₃ h₄
        obtain rfl := Option.some.inj h₁
        obtain rfl := Option.some.inj h₄
        exact .inr (by decide)
      · exact fun b hb => absurd hb List.not_mem_nil
  obtain ⟨start, stop, hstart, hstop, hmem⟩ :=
    (locateLocks_located _ repeatedLocks (some 7) (by decide)).2.2.2 _ rfl hstored
      ⟨2, Utf16.encode "重复。".toList, some 7, some 6, some 9⟩ (by decide) rfl
  obtain rfl := Option.some.inj hstart
  obtain rfl := Option.some.inj hstop
  exact hmem

end DouyinCaption

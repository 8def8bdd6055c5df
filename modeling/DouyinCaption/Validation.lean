import DouyinCaption.Results

/-!
# The checks of an answer

Both lock checks miss of each text what is locked of it beyond the most disjoint occurrences
the content has, and they miss the same texts in the same order (`lock_checks_agree`). The
revision of a selection returns a version exactly for an answer that leaves the rest of its
parent in place and keeps the locks (`reviseSelection_accepts_iff`).
-/

namespace DouyinCaption

open Occurrences

/-! ## The lock checks -/

/-- The constraint of a lock. -/
def LockedFragmentSnapshot.constraint (l : LockedFragmentSnapshot) : LockConstraint :=
  ⟨l.text, l.orderIndex⟩

/-- The constraints in the order of their indices. -/
theorem insertionSort_constraint (locks : List LockedFragmentSnapshot) :
    (locks.map LockedFragmentSnapshot.constraint).insertionSort
        (fun a b => a.orderIndex ≤ b.orderIndex) =
      (locks.insertionSort fun a b => a.orderIndex ≤ b.orderIndex).map
        LockedFragmentSnapshot.constraint :=
  (List.map_insertionSort (fun a b : LockedFragmentSnapshot => a.orderIndex ≤ b.orderIndex)
    (fun a b : LockConstraint => a.orderIndex ≤ b.orderIndex) LockedFragmentSnapshot.constraint
    locks fun _ _ _ _ => Iff.rfl).symm

/-- Locks with texts are passed on. -/
theorem exists_toAiLocks {locks : List LockedFragmentSnapshot} (hne : ∀ l ∈ locks, l.text ≠ []) :
    ∃ ordered, toAiLocks locks = .ok ordered := by
  have hmap : ∀ ls : List LockedFragmentSnapshot, (∀ l ∈ ls, l.text ≠ []) →
      ∃ ordered, (ls.mapM fun l => do
        return { fragmentId := uuidText l.id, text := ← nonBlank l.text :
          AiLockedFragment }) = (.ok ordered : Except AiFailure _) := by
    intro ls
    induction ls with
    | nil => exact fun _ => ⟨[], rfl⟩
    | cons l ls ih =>
      intro hls
      obtain ⟨rest, hrest⟩ := ih fun l' hl' => hls l' (List.mem_cons_of_mem _ hl')
      have htext := hls l List.mem_cons_self
      refine ⟨⟨uuidText l.id, ⟨l.text, htext⟩⟩ :: rest, ?_⟩
      rw [List.mapM_cons]
      refine bind_eq_ok.mpr ⟨_, bind_eq_ok.mpr ⟨_, dif_pos htext, rfl⟩, ?_⟩
      exact bind_eq_ok.mpr ⟨rest, hrest, rfl⟩
  refine hmap _ fun l hl => hne l ?_
  exact (List.perm_insertionSort _ locks).mem_iff.mp hl

/-- The texts a check of the constraints misses, by what it misses of the texts alone. -/
theorem validateLockConstraints_eq (content : Text) (locks : List LockedFragmentSnapshot) :
    validateLockConstraints content (locks.map LockedFragmentSnapshot.constraint) =
      (scan content id ((locks.insertionSort fun a b => a.orderIndex ≤ b.orderIndex).map
        LockedFragmentSnapshot.text)).missing := by
  rw [validateLockConstraints, insertionSort_constraint, missing_scan_map,
    missing_scan_map, List.map_map]
  rfl

/-- The check of the constraints reports of each text what is locked of it beyond the most
disjoint occurrences. -/
theorem count_validateLockConstraints (content : Text) {locks : List LockedFragmentSnapshot}
    (hne : ∀ l ∈ locks, l.text ≠ []) (t : Text) :
    (validateLockConstraints content (locks.map LockedFragmentSnapshot.constraint)).count t =
      (locks.map LockedFragmentSnapshot.text).count t - maxOccurrences content t := by
  have hperm := (List.perm_insertionSort
    (fun a b : LockedFragmentSnapshot => a.orderIndex ≤ b.orderIndex) locks).map
      LockedFragmentSnapshot.text
  rw [validateLockConstraints_eq, ← hperm.count_eq]
  generalize (locks.insertionSort fun a b => a.orderIndex ≤ b.orderIndex).map
    LockedFragmentSnapshot.text = texts at hperm ⊢
  by_cases ht : t = []
  · -- no lock has an empty text
    have hnot : t ∉ texts := by
      intro hm
      obtain ⟨l, hl, he⟩ := List.mem_map.mp (hperm.mem_iff.mp hm)
      exact hne l hl (he.trans ht)
    have hmissed : t ∉ (scan content id texts).missing := fun hm =>
      hnot ((missing_scan_sublist texts).subset hm)
    rw [List.count_eq_zero_of_not_mem hmissed, List.count_eq_zero_of_not_mem hnot,
      Nat.zero_sub]
  · have hcount : ((scan content id texts).missing.map id).count t =
        (texts.map id).count t - maxOccurrences content t := count_missing_scan ht
    rwa [List.map_id, List.map_id] at hcount

/-- The check of an answer misses fragments with the texts the check of the constraints
reports, in the same order. -/
theorem missing_of_toAiLocks (content : Text) {locks : List LockedFragmentSnapshot}
    {ordered : List AiLockedFragment} (h : toAiLocks locks = .ok ordered) :
    (scan content (fun l : AiLockedFragment => l.text.1) ordered).missing.map
        (fun l => l.text.1) =
      validateLockConstraints content (locks.map LockedFragmentSnapshot.constraint) := by
  rw [validateLockConstraints_eq, ← texts_of_mapM h, missing_scan_map]
  rfl

/-- **Both lock checks compute what is missing.** For each text the check of the constraints
reports what is locked of it beyond the most disjoint occurrences; the check of an answer is
valid where nothing is reported, and names locks with the reported texts, in the same order. -/
theorem lock_checks_agree (content : Text) (locks : List LockedFragmentSnapshot)
    (hne : ∀ l ∈ locks, l.text ≠ []) :
    (∀ t, (validateLockConstraints content
        (locks.map LockedFragmentSnapshot.constraint)).count t =
      (locks.map LockedFragmentSnapshot.text).count t - maxOccurrences content t) ∧
    ∃ ordered, toAiLocks locks = .ok ordered ∧
      ((validateLockedFragments content ordered).valid = true ↔
        validateLockConstraints content (locks.map LockedFragmentSnapshot.constraint) = []) ∧
      ∃ named : List AiLockedFragment, named.Sublist ordered ∧
        (validateLockedFragments content ordered).violations.map ValidationViolation.fragmentId =
          named.map (fun l => some l.fragmentId) ∧
        named.map (fun l => l.text.1) =
          validateLockConstraints content (locks.map LockedFragmentSnapshot.constraint) := by
  obtain ⟨ordered, hordered⟩ := exists_toAiLocks hne
  have hmissing := missing_of_toAiLocks content hordered
  refine ⟨count_validateLockConstraints content hne, ordered, hordered, ?_, _,
    missing_scan_sublist ordered, ?_, hmissing⟩
  · rw [← hmissing, List.map_eq_nil_iff]
    exact List.isEmpty_iff
  · rw [validateLockedFragments, List.map_map]
    rfl

/-- A text locked twice in a content that has it twice, but only once disjointly. -/
theorem lock_checks_agree_overlapping :
    (validateLockConstraints "aaa".toList (([⟨1, "aa".toList, 0⟩, ⟨2, "aa".toList, 1⟩] :
      List LockedFragmentSnapshot).map LockedFragmentSnapshot.constraint)).count "aa".toList =
        2 - maxOccurrences "aaa".toList "aa".toList :=
  (lock_checks_agree "aaa".toList [⟨1, "aa".toList, 0⟩, ⟨2, "aa".toList, 1⟩] (by decide)).1
    "aa".toList

/-! ## The selection check -/

/-- What a revision of a selection has to leave in place. -/
def Selection.Keeps (selection : Selection) (parent candidate : Text) : Prop :=
  ∃ m, candidate = parent.take selection.start ++ m ++ parent.drop selection.stop

/-- Front and back of a text without overlap leave a middle. -/
theorem exists_middle_iff {α : Type} [DecidableEq α] {front back xs : List α} :
    (front.length + back.length ≤ xs.length ∧ front <+: xs ∧ back <:+ xs) ↔
      ∃ m, xs = front ++ m ++ back := by
  constructor
  · rintro ⟨hlen, ⟨rest, rfl⟩, hback⟩
    have hrest : back <:+ rest := by
      refine List.suffix_of_suffix_length_le hback (List.suffix_append front rest) ?_
      rw [List.length_append] at hlen
      omega
    obtain ⟨m, rfl⟩ := hrest
    exact ⟨m, (List.append_assoc front m back).symm⟩
  · rintro ⟨m, rfl⟩
    refine ⟨by simp only [List.length_append]; omega, ?_, List.suffix_append _ back⟩
    exact ⟨m ++ back, (List.append_assoc front m back).symm⟩

/-- The violations of a selection check: a change outside the selection, and missed locks. -/
theorem violations_validateSelectionRevision (parent candidate : Text) (selection : Selection)
    (locks : List AiLockedFragment) :
    ∃ changed : List ValidationViolation,
      (validateSelectionRevision parent candidate selection locks).violations =
        changed ++ (validateLockedFragments candidate locks).violations ∧
      (changed = [] ↔ selection.Keeps parent candidate) ∧
      ∀ x ∈ changed, x.code = .selectionOutsideChanged := by
  have hkeeps : ((parent.take selection.start).length + (parent.drop selection.stop).length ≤
      candidate.length && (parent.take selection.start).isPrefixOf candidate &&
      (parent.drop selection.stop).isSuffixOf candidate) = true ↔
        selection.Keeps parent candidate := by
    rw [Selection.Keeps, ← exists_middle_iff, Bool.and_eq_true, Bool.and_eq_true,
      decide_eq_true_eq, List.isPrefixOf_iff_prefix, List.isSuffixOf_iff_suffix, and_assoc]
  refine ⟨_, rfl, ?_, ?_⟩
  · rw [← hkeeps]
    split
    · rename_i h
      exact ⟨fun _ => h, fun _ => rfl⟩
    · rename_i h
      exact ⟨fun e => (nomatch e), fun e => absurd e h⟩
  · split
    · simp
    · simp

theorem code_of_missingFragment {candidate : Text} {locks : List AiLockedFragment} :
    ∀ x ∈ (validateLockedFragments candidate locks).violations, x.code = .missingFragment := by
  intro x hx
  obtain ⟨l, -, rfl⟩ := List.mem_map.mp hx
  rfl

/-- The check of a selection reports a change outside exactly where there is one. -/
theorem selectionOutsideChanged_iff {parent candidate : Text} {selection : Selection}
    {locks : List AiLockedFragment} :
    (∃ x ∈ (validateSelectionRevision parent candidate selection locks).violations,
      x.code = .selectionOutsideChanged) ↔ ¬ selection.Keeps parent candidate := by
  obtain ⟨changed, hviolations, hnil, hcode⟩ :=
    violations_validateSelectionRevision parent candidate selection locks
  rw [hviolations, ← hnil]
  constructor
  · rintro ⟨x, hx, hxc⟩ rfl
    rw [List.nil_append] at hx
    cases hxc.symm.trans (code_of_missingFragment x hx)
  · intro hne
    obtain ⟨x, hx⟩ := List.exists_mem_of_ne_nil changed hne
    exact ⟨x, List.mem_append_left _ hx, hcode x hx⟩

/-- A selection check is passed by what leaves the rest in place and keeps the locks. -/
theorem validateSelectionRevision_valid_iff {parent candidate : Text} {selection : Selection}
    {locks : List LockedFragmentSnapshot} {ordered : List AiLockedFragment}
    (h : toAiLocks locks = .ok ordered) :
    (validateSelectionRevision parent candidate selection ordered).valid = true ↔
      selection.Keeps parent candidate ∧
        Honours candidate (locks.map LockedFragmentSnapshot.text) := by
  obtain ⟨changed, hviolations, hnil, -⟩ :=
    violations_validateSelectionRevision parent candidate selection ordered
  have hvalid : (validateSelectionRevision parent candidate selection ordered).valid =
      (validateSelectionRevision parent candidate selection ordered).violations.isEmpty := rfl
  have htexts : (locks.map LockedFragmentSnapshot.constraint).map LockConstraint.text =
      locks.map LockedFragmentSnapshot.text := List.map_map
  rw [hvalid, List.isEmpty_iff, hviolations, List.append_eq_nil_iff, hnil, ← htexts,
    ← validateLockConstraints_eq_nil, ← missing_of_toAiLocks candidate h, validateLockedFragments,
    List.map_eq_nil_iff, List.map_eq_nil_iff]

/-! ## The revision of a selection -/

/-- A task in editing or finalized that has a first draft may be revised. -/
theorem exists_revisionPlan {task : TaskAiSnapshot}
    (hstate : task.state = .editing ∨ task.state = .finalized) (h : task.hasFirstDraft = true) :
    ∃ plan, revisionPlan task = .ok plan := by
  rw [revisionPlan, if_pos h]
  rcases hstate with hstate | hstate
  · exact ⟨_, by rw [hstate]; rfl⟩
  · exact ⟨_, by rw [hstate]; rfl⟩

/-- The call of a selection revision: the model it asks and what it makes of an answer. -/
theorem resume_of_reviseSelection {task : TaskAiSnapshot} {parent : VersionAiSnapshot}
    {selection : Selection} {instruction model : Text} {locks : List LockedFragmentSnapshot}
    {call : ModelCall}
    (h : reviseSelection task parent selection instruction locks model = .ok call) :
    call.request.model = model ∧
    ∃ plan ordered, toAiLocks locks = .ok ordered ∧ ∀ response, call.resume response =
      (requireNonemptyText response).bind fun _ => revisionResult plan parent instruction response
        (validateSelectionRevision parent.content response.text selection ordered) model
        (revisionProvenance "selection" locks ++ [
          Json.field "selection" (.obj [Json.field "start" (.nat selection.start),
            Json.field "end" (.nat selection.stop)])]) := by
  obtain ⟨plan, -, h⟩ := bind_eq_ok.mp h
  obtain ⟨ordered, hordered, h⟩ := bind_eq_ok.mp h
  obtain ⟨input, -, h⟩ := bind_eq_ok.mp h
  obtain ⟨_, -, h⟩ := bind_eq_ok.mp h
  obtain rfl := Except.ok.inj h
  exact ⟨rfl, plan, ordered, hordered, fun _ => rfl⟩

/-- A selection within its version is put to the model with any instruction. -/
theorem exists_reviseSelection_iff {task : TaskAiSnapshot} {parent : VersionAiSnapshot}
    {selection : Selection} {instruction model : Text} {locks : List LockedFragmentSnapshot}
    (hstate : task.state = .editing ∨ task.state = .finalized) (hdraft : task.hasFirstDraft = true)
    (hstop : selection.stop ≤ parent.content.length) (hne : ∀ l ∈ locks, l.text ≠ []) :
    (∃ call, reviseSelection task parent selection instruction locks model = .ok call) ↔
      instruction ≠ [] := by
  constructor
  · rintro ⟨call, h⟩
    obtain ⟨plan, -, h⟩ := bind_eq_ok.mp h
    obtain ⟨ordered, -, h⟩ := bind_eq_ok.mp h
    obtain ⟨input, hinput, -⟩ := bind_eq_ok.mp h
    obtain ⟨_, -, hinput⟩ := bind_eq_ok.mp hinput
    obtain ⟨text, htext, -⟩ := bind_eq_ok.mp hinput
    rw [nonBlank] at htext
    split at htext
    · assumption
    · cases htext
  · intro hinstruction
    obtain ⟨plan, hplan⟩ := exists_revisionPlan hstate hdraft
    obtain ⟨ordered, hordered⟩ := exists_toAiLocks hne
    have hcontent : parent.content ≠ [] := by
      have := selection.order
      exact List.ne_nil_of_length_pos (by omega)
    have hinput : fullRevisionInput task parent instruction ordered = .ok {
        parentText := parent.content, instruction
        settings := toAiSettings task.creativeSettings, lockedFragments := ordered } :=
      bind_eq_ok.mpr ⟨⟨_, hcontent⟩, dif_pos hcontent,
        bind_eq_ok.mpr ⟨⟨_, hinstruction⟩, dif_pos hinstruction, rfl⟩⟩
    refine ⟨_, bind_eq_ok.mpr ⟨plan, hplan, bind_eq_ok.mpr ⟨ordered, hordered,
      bind_eq_ok.mpr ⟨_, hinput, bind_eq_ok.mpr ⟨(), ?_, rfl⟩⟩⟩⟩⟩
    exact ensure_eq_ok.mpr hstop

/-- **The revision of a selection changes only the selection.** It asks the model, which has a
name, for every instruction that is not empty. An answer becomes a version, with the answer as its
content, exactly where it is not blank, is the parent with the selection replaced, and has each
locked text disjointly as often as it is locked; what replaces the selection is determined. Any
other answer ends in an error, and for one that is not blank it reports a change outside the
selection exactly where the answer is not the parent with the selection replaced. -/
theorem reviseSelection_accepts_iff (task : TaskAiSnapshot) (parent : VersionAiSnapshot)
    (selection : Selection) (instruction : Text) (locks : List LockedFragmentSnapshot)
    (model : Text) (hmodel : model ≠ [])
    (hstate : task.state = .editing ∨ task.state = .finalized)
    (hdraft : task.hasFirstDraft = true) (hstop : selection.stop ≤ parent.content.length)
    (hne : ∀ l ∈ locks, l.text ≠ []) :
    ((∃ call, reviseSelection task parent selection instruction locks model = .ok call) ↔
      instruction ≠ []) ∧
    ∀ call, reviseSelection task parent selection instruction locks model = .ok call →
      call.request.model ≠ [] ∧
      ∀ response : CompletionResult,
        ((∃ result, call.resume response = .ok result) ↔
          strip response.text ≠ [] ∧ selection.Keeps parent.content response.text ∧
            Honours response.text (locks.map LockedFragmentSnapshot.text)) ∧
        (∀ m m', response.text =
            parent.content.take selection.start ++ m ++ parent.content.drop selection.stop →
          response.text =
            parent.content.take selection.start ++ m' ++ parent.content.drop selection.stop →
          m = m') ∧
        (∀ result, call.resume response = .ok result →
          ∃ v, result.output = .version v ∧ v.content = response.text) ∧
        (strip response.text = [] → call.resume response =
          .error (.failed ⟨.invalidResponse, true,
            [Json.field "reason" (.str "empty_content".toList)]⟩)) ∧
        (strip response.text ≠ [] → ∀ failure, call.resume response = .error failure →
          ∃ validation : ValidationResult,
            failure = .failed ⟨.preservationFailed, true, validation.toJson⟩ ∧
            ((∃ x ∈ validation.violations, x.code = .selectionOutsideChanged) ↔
              ¬ selection.Keeps parent.content response.text)) := by
  refine ⟨exists_reviseSelection_iff hstate hdraft hstop hne, fun call hcall => ?_⟩
  obtain ⟨hasked, plan, ordered, hordered, hresume⟩ := resume_of_reviseSelection hcall
  refine ⟨hasked ▸ hmodel, fun response => ?_⟩
  have hvalid : (validateSelectionRevision parent.content response.text selection ordered).valid =
      true ↔ selection.Keeps parent.content response.text ∧
        Honours response.text (locks.map LockedFragmentSnapshot.text) :=
    validateSelectionRevision_valid_iff hordered
  have hmiddle : ∀ m m', response.text =
        parent.content.take selection.start ++ m ++ parent.content.drop selection.stop →
      response.text =
        parent.content.take selection.start ++ m' ++ parent.content.drop selection.stop →
      m = m' := by
    intro m m' hm hm'
    rw [hm, List.append_left_inj, List.append_right_inj] at hm'
    exact hm'
  by_cases hblank : strip response.text = []
  · have hrefused : call.resume response = .error (.failed ⟨.invalidResponse, true,
        [Json.field "reason" (.str "empty_content".toList)]⟩) := by
      rw [hresume, requireNonemptyText, if_pos hblank]
      rfl
    refine ⟨⟨?_, fun h => absurd hblank h.1⟩, hmiddle, ?_, fun _ => hrefused,
      fun h => absurd hblank h⟩
    · rintro ⟨result, hresult⟩
      cases hrefused.symm.trans hresult
    · intro result hresult
      cases hrefused.symm.trans hresult
  · have hchecked : call.resume response = revisionResult plan parent instruction response
        (validateSelectionRevision parent.content response.text selection ordered) model
        (revisionProvenance "selection" locks ++ [
          Json.field "selection" (.obj [Json.field "start" (.nat selection.start),
            Json.field "end" (.nat selection.stop)])]) := by
      rw [hresume, requireNonemptyText, if_neg hblank]
      rfl
    rw [revisionResult] at hchecked
    by_cases hv : (validateSelectionRevision parent.content response.text selection
        ordered).valid = true
    · rw [if_pos hv] at hchecked
      refine ⟨⟨fun _ => ⟨hblank, hvalid.mp hv⟩, fun _ => ⟨_, hchecked⟩⟩, hmiddle, ?_,
        fun h => absurd h hblank, ?_⟩
      · intro result hresult
        obtain rfl := Except.ok.inj (hchecked.symm.trans hresult)
        exact ⟨_, rfl, rfl⟩
      · intro _ failure hfailure
        cases hchecked.symm.trans hfailure
    · rw [if_neg hv] at hchecked
      refine ⟨⟨?_, fun h => absurd (hvalid.mpr h.2) hv⟩, hmiddle, ?_,
        fun h => absurd h hblank, ?_⟩
      · rintro ⟨result, hresult⟩
        cases hchecked.symm.trans hresult
      · intro result hresult
        cases hchecked.symm.trans hresult
      · intro _ failure hfailure
        obtain rfl := Except.error.inj (hchecked.symm.trans hfailure)
        exact ⟨_, rfl, selectionOutsideChanged_iff⟩

namespace Sample

/-- A task in editing. -/
def editing : TaskAiSnapshot := ⟨1, .editing, "s".toList, settings, true⟩

end Sample

/-- The middle of a text is rewritten. -/
theorem reviseSelection_accepts_middle : ∃ call,
    reviseSelection Sample.editing ⟨11, "abc".toList⟩ ⟨1, 2, by decide⟩ "i".toList
        [⟨1, "a".toList, 0⟩] "m".toList = .ok call ∧
      ∃ result, call.resume ⟨"axyc".toList, none⟩ = .ok result := by
  obtain ⟨hcall, haccepts⟩ := reviseSelection_accepts_iff Sample.editing ⟨11, "abc".toList⟩
    ⟨1, 2, by decide⟩ "i".toList [⟨1, "a".toList, 0⟩] "m".toList (by decide) (.inl rfl) rfl
    (by decide) (by decide)
  obtain ⟨call, h⟩ := hcall.mpr (by decide)
  refine ⟨call, h, ((haccepts call h).2 ⟨"axyc".toList, none⟩).1.mpr ⟨by decide, ?_, ?_⟩⟩
  · exact ⟨"xy".toList, rfl⟩
  · have hlocks : Honours "axyc".toList
        (([⟨"a".toList, 0⟩] : List LockConstraint).map LockConstraint.text) :=
      honours_of_validateLockConstraints (by decide)
    exact hlocks

end DouyinCaption

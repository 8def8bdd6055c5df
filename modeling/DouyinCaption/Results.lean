import DouyinCaption.AiOperations

/-!
# What a model call results in

A result leaves the task in a settled state, and it is what its operation prepared for: a
first draft, a revision that honours the locks it was prepared with, or no version
(`fits_of_invoke`).
-/

namespace DouyinCaption

/-- A state an operation leaves its task in when it succeeds. -/
def TaskState.isSettled : TaskState → Bool
  | .analysisReady | .suggestionsReady | .editing => true
  | _ => false

/-- No operation leaves its task in the archive. -/
theorem TaskState.ne_archived_of_isSettled {s : TaskState} (h : s.isSettled = true) :
    s ≠ .archived := by
  rintro rfl
  cases h

/-- A version is of the kind its operation makes, and has the parent it was made from. -/
def Prepared.Makes : Prepared → VersionResult → Prop
  | .firstDraft _ _ _ hasFirstDraft, v =>
      hasFirstDraft = false ∧ v.kind = .firstDraft ∧ v.parentVersionId = none
  | .revision _ parent locks .., v =>
      v.kind = .aiRevision ∧ v.parentVersionId = some parent.id ∧
        Honours v.content (locks.map LockedFragment.text)
  | _, _ => False

/-- Suggestions refer to the analysis they were made for. -/
def Prepared.Finds : Prepared → SuggestionSet → Prop
  | .suggestions _ record .., set =>
      ∀ s ∈ set.suggestions, ∀ i ∈ s.analysisIssueIds.1, i ∈ analysisReferenceIds record.payload
  | _, _ => False

/-- The state an operation leaves its task in when it succeeds. -/
def Prepared.succeeded : Prepared → TaskState
  | .analysis _ => .analysisReady
  | .suggestions .. => .suggestionsReady
  | .firstDraft .. | .revision .. => .editing

/-- A result is one its operation prepared for. -/
structure ServiceResult.Fits (prepared : Prepared) (result : ServiceResult) : Prop where
  state : result.state.succeeded = prepared.succeeded
  version : ∀ v, result.output = .version v → prepared.Makes v
  suggestions : ∀ set, result.output = .suggestions set → prepared.Finds set

/-- A result that fits leaves its task in a settled state. -/
theorem ServiceResult.Fits.settled {prepared : Prepared} {result : ServiceResult}
    (h : result.Fits prepared) : result.state.succeeded.isSettled = true := by
  rw [h.state]
  cases prepared <;> rfl

/-! ## The lock checks -/

/-- A candidate that passes the check of the locks honours them: the greedy scan counts no more
disjoint occurrences than there are. -/
theorem honours_of_validateLockedFragments {candidate : Text} {locks : List AiLockedFragment}
    (h : (validateLockedFragments candidate locks).valid = true) :
    Honours candidate (locks.map fun l => l.text.1) := by
  intro t
  have hmissing : (Occurrences.scan candidate (fun l : AiLockedFragment => l.text.1)
      locks).missing = [] := List.isEmpty_iff.mp h
  exact Occurrences.scan_sound hmissing t

/-- The check of a selection includes that of the locks. -/
theorem honours_of_validateSelectionRevision {parent candidate : Text} {selection : Selection}
    {locks : List AiLockedFragment}
    (h : (validateSelectionRevision parent candidate selection locks).valid = true) :
    Honours candidate (locks.map fun l => l.text.1) := by
  have hnil := List.isEmpty_iff.mp h
  have hviolations := (List.append_eq_nil_iff.mp hnil).2
  refine honours_of_validateLockedFragments ?_
  exact List.isEmpty_iff.mpr (List.map_eq_nil_iff.mp hviolations)

/-- In which order the locked texts stand does not matter. -/
theorem Honours.perm {content : Text} {xs ys : List Text} (h : Honours content xs)
    (hp : xs.Perm ys) : Honours content ys := by
  intro t
  rw [← hp.count_eq]
  exact h t

/-- The locks the model is given have the texts of the snapshots, in their order. -/
theorem texts_of_mapM {locks : List LockedFragmentSnapshot} {ordered : List AiLockedFragment}
    (h : (locks.mapM fun l => do
      return { fragmentId := uuidText l.id, text := ← nonBlank l.text :
        AiLockedFragment }) = (.ok ordered : Except AiFailure _)) :
    ordered.map (fun l => l.text.1) = locks.map LockedFragmentSnapshot.text := by
  refine map_of_mapM_ok (fun {l x} hx => ?_) h
  obtain ⟨text, htext, hx⟩ := bind_eq_ok.mp hx
  obtain rfl := Except.ok.inj hx
  rw [nonBlank] at htext
  split at htext
  · obtain rfl := Except.ok.inj htext
    rfl
  · cases htext

/-- What honours the locks the model was given honours the stored locks. -/
theorem honours_of_toAiLocks {locks : List LockedFragment} {ordered : List AiLockedFragment}
    {content : Text} (h : toAiLocks (locks.map LockedFragment.snapshot) = .ok ordered)
    (hon : Honours content (ordered.map fun l => l.text.1)) :
    Honours content (locks.map LockedFragment.text) := by
  rw [texts_of_mapM h] at hon
  -- the model is given the locks by `order_index`
  refine hon.perm ?_
  have hperm := (List.perm_insertionSort
    (fun a b : LockedFragmentSnapshot => a.orderIndex ≤ b.orderIndex)
    (locks.map LockedFragment.snapshot)).map LockedFragmentSnapshot.text
  rwa [List.map_map] at hperm

/-! ## The results of the operations -/

/-- A plan ends in the state it was made for. -/
theorem plan_of_statePlan {initial running succeeded : TaskState} {plan : StatePlan}
    (h : statePlan initial running succeeded = .ok plan) : plan.succeeded = succeeded := by
  rw [statePlan] at h
  split at h
  · obtain rfl := Except.ok.inj h
    rfl
  · cases h

/-- Every revision ends in editing. -/
theorem plan_of_revisionPlan {task : TaskAiSnapshot} {plan : StatePlan}
    (h : revisionPlan task = .ok plan) : plan.succeeded = .editing := by
  rw [revisionPlan] at h
  split at h
  · exact plan_of_statePlan h
  · cases h

section Calls

variable {cfg : Config} {task : TaskAiSnapshot} {model : Text} {call : ModelCall}
  {response : CompletionResult} {result : ServiceResult} {locks : List LockedFragment}
  {parent : VersionAiSnapshot} {instruction : Text}

/-- An analysis results in an analysis, and the task in `analysis_ready`. -/
theorem result_of_analyze (h : analyze task model = .ok call)
    (hr : call.resume response = .ok result) :
    result.state.succeeded = .analysisReady ∧ ∃ a, result.output = .analysis a := by
  obtain ⟨plan, hplan, h⟩ := bind_eq_ok.mp h
  obtain ⟨source, -, h⟩ := bind_eq_ok.mp h
  obtain rfl := Except.ok.inj h
  obtain ⟨_, -, hr⟩ := bind_eq_ok.mp hr
  obtain ⟨text, -, hr⟩ := bind_eq_ok.mp hr
  obtain rfl := Except.ok.inj hr
  exact ⟨plan_of_statePlan hplan, _, rfl⟩

/-- A round of suggestions results in a set whose references the analysis has. -/
theorem result_of_suggest {analysis : AnalysisResult} {context : Text}
    {previous : List Suggestion} {fixed : List SelectedSuggestion}
    (h : suggest cfg task analysis model context previous fixed = .ok call)
    (hr : call.resume response = .ok result) :
    result.state.succeeded = .suggestionsReady ∧ ∃ set, result.output = .suggestions set ∧
      ∀ s ∈ set.suggestions, ∀ i ∈ s.analysisIssueIds.1, i ∈ analysisReferenceIds analysis := by
  obtain ⟨plan, hplan, h⟩ := bind_eq_ok.mp h
  obtain ⟨source, -, h⟩ := bind_eq_ok.mp h
  obtain rfl := Except.ok.inj h
  dsimp only at hr
  split at hr
  · cases hr
  · rename_i set _
    -- the references were checked against the analysis of the request
    split at hr
    · rename_i hrefs
      obtain rfl := Except.ok.inj hr
      refine ⟨plan_of_statePlan hplan, set, rfl, fun s hs i hi => ?_⟩
      have hknown := List.all_eq_true.mp (List.all_eq_true.mp hrefs s hs) i hi
      exact of_decide_eq_true hknown
    · cases hr

/-- A first draft results in a version without a parent, and only for a task that has none. -/
theorem result_of_createFirstDraft {analysis : AnalysisResult}
    {selected : List SelectedSuggestion} {requirements : Text}
    (h : createFirstDraft task analysis selected model requirements = .ok call)
    (hr : call.resume response = .ok result) :
    result.state.succeeded = .editing ∧ task.hasFirstDraft = false ∧
      ∃ v, result.output = .version v ∧ v.kind = .firstDraft ∧ v.parentVersionId = none := by
  -- `FirstDraftAlreadyExists` is raised before anything else
  obtain ⟨_, hnone, h⟩ := bind_eq_ok.mp h
  obtain ⟨plan, hplan, h⟩ := bind_eq_ok.mp h
  obtain ⟨_, -, h⟩ := bind_eq_ok.mp h
  obtain ⟨source, -, h⟩ := bind_eq_ok.mp h
  obtain rfl := Except.ok.inj h
  obtain ⟨_, -, hr⟩ := bind_eq_ok.mp hr
  obtain rfl := Except.ok.inj hr
  exact ⟨plan_of_statePlan hplan, ensure_eq_ok.mp hnone, _, rfl, rfl, rfl⟩

/-- A revision whose validation has checked the locks honours them. -/
theorem result_of_revisionResult {plan : StatePlan} {validation : ValidationResult}
    {provenance : List (Text × Json)} (hplan : plan.succeeded = .editing)
    (hvalid : validation.valid = true →
      Honours response.text (locks.map LockedFragment.text))
    (h : revisionResult plan parent instruction response validation model provenance =
      .ok result) :
    result.state.succeeded = .editing ∧ ∃ v, result.output = .version v ∧
      v.kind = .aiRevision ∧ v.parentVersionId = some parent.id ∧
        Honours v.content (locks.map LockedFragment.text) := by
  rw [revisionResult] at h
  split at h
  · rename_i hv
    obtain rfl := Except.ok.inj h
    exact ⟨hplan, _, rfl, rfl, rfl, hvalid hv⟩
  · cases h

/-- A full revision results in a version of its parent that honours the locks. -/
theorem result_of_reviseFull
    (h : reviseFull task parent instruction (locks.map LockedFragment.snapshot) model = .ok call)
    (hr : call.resume response = .ok result) :
    result.state.succeeded = .editing ∧ ∃ v, result.output = .version v ∧
      v.kind = .aiRevision ∧ v.parentVersionId = some parent.id ∧
        Honours v.content (locks.map LockedFragment.text) := by
  obtain ⟨plan, hplan, h⟩ := bind_eq_ok.mp h
  obtain ⟨ordered, hlocks, h⟩ := bind_eq_ok.mp h
  obtain ⟨input, -, h⟩ := bind_eq_ok.mp h
  obtain rfl := Except.ok.inj h
  obtain ⟨_, -, hr⟩ := bind_eq_ok.mp hr
  refine result_of_revisionResult (plan_of_revisionPlan hplan) (fun hv => ?_) hr
  exact honours_of_toAiLocks hlocks (honours_of_validateLockedFragments hv)

/-- So does a regeneration from suggestions. -/
theorem result_of_regenerateFromSuggestions {analysis : AnalysisResult}
    {selected : List SelectedSuggestion}
    (h : regenerateFromSuggestions task parent analysis selected instruction
      (locks.map LockedFragment.snapshot) model = .ok call)
    (hr : call.resume response = .ok result) :
    result.state.succeeded = .editing ∧ ∃ v, result.output = .version v ∧
      v.kind = .aiRevision ∧ v.parentVersionId = some parent.id ∧
        Honours v.content (locks.map LockedFragment.text) := by
  obtain ⟨plan, hplan, h⟩ := bind_eq_ok.mp h
  obtain ⟨_, -, h⟩ := bind_eq_ok.mp h
  obtain ⟨ordered, hlocks, h⟩ := bind_eq_ok.mp h
  obtain ⟨source, -, h⟩ := bind_eq_ok.mp h
  obtain rfl := Except.ok.inj h
  obtain ⟨_, -, hr⟩ := bind_eq_ok.mp hr
  refine result_of_revisionResult (plan_of_revisionPlan hplan) (fun hv => ?_) hr
  exact honours_of_toAiLocks hlocks (honours_of_validateLockedFragments hv)

/-- So does the revision of a selection, whose own check includes the locks. -/
theorem result_of_reviseSelection {selection : Selection}
    (h : reviseSelection task parent selection instruction (locks.map LockedFragment.snapshot)
      model = .ok call)
    (hr : call.resume response = .ok result) :
    result.state.succeeded = .editing ∧ ∃ v, result.output = .version v ∧
      v.kind = .aiRevision ∧ v.parentVersionId = some parent.id ∧
        Honours v.content (locks.map LockedFragment.text) := by
  obtain ⟨plan, hplan, h⟩ := bind_eq_ok.mp h
  obtain ⟨ordered, hlocks, h⟩ := bind_eq_ok.mp h
  obtain ⟨input, -, h⟩ := bind_eq_ok.mp h
  obtain ⟨_, -, h⟩ := bind_eq_ok.mp h
  obtain rfl := Except.ok.inj h
  obtain ⟨_, -, hr⟩ := bind_eq_ok.mp hr
  refine result_of_revisionResult (plan_of_revisionPlan hplan) (fun hv => ?_) hr
  exact honours_of_toAiLocks hlocks (honours_of_validateSelectionRevision hv)

end Calls

/-- The snapshot carries the flag the operation has read. -/
theorem hasFirstDraft_of_taskSnapshot {task : RewriteTask} {hasFirstDraft : Bool}
    {state : TaskState} {snapshot : TaskAiSnapshot}
    (h : taskSnapshot task hasFirstDraft state = .ok snapshot) :
    snapshot.hasFirstDraft = hasFirstDraft := by
  rw [taskSnapshot] at h
  split at h
  · cases h
  · obtain rfl := Except.ok.inj h
    rfl

/-- **A result is one its operation prepared for.** -/
theorem fits_of_invoke {cfg : Config} {task : RewriteTask} {initial : TaskState} {model : Text}
    {prepared : Prepared} {call : ModelCall} {response : CompletionResult}
    {result : ServiceResult} (h : invoke cfg task initial model prepared = .ok call)
    (hr : call.resume response = .ok result) : result.Fits prepared := by
  cases prepared with
  | analysis hasFirstDraft =>
    obtain ⟨snapshot, -, h⟩ := bind_eq_ok.mp h
    obtain ⟨hstate, a, hout⟩ := result_of_analyze h hr
    exact ⟨hstate, fun v hv => (nomatch hout.symm.trans hv),
      fun set hs => (nomatch hout.symm.trans hs)⟩
  | suggestions payload analysis hasFirstDraft previous fixed =>
    obtain ⟨snapshot, -, h⟩ := bind_eq_ok.mp h
    obtain ⟨before, -, h⟩ := bind_eq_ok.mp h
    obtain ⟨kept, -, h⟩ := bind_eq_ok.mp h
    obtain ⟨hstate, set, hout, hrefs⟩ := result_of_suggest h hr
    refine ⟨hstate, fun v hv => (nomatch hout.symm.trans hv), fun set' hs => ?_⟩
    obtain rfl := ServiceOutput.suggestions.inj (hout.symm.trans hs)
    exact hrefs
  | firstDraft payload analysis selected hasFirstDraft =>
    obtain ⟨snapshot, hsnapshot, h⟩ := bind_eq_ok.mp h
    obtain ⟨hstate, hnone, v, hout, hmakes⟩ := result_of_createFirstDraft h hr
    refine ⟨hstate, fun v' hv => ?_, fun set hs => (nomatch hout.symm.trans hs)⟩
    obtain rfl := ServiceOutput.version.inj (hout.symm.trans hv)
    exact ⟨(hasFirstDraft_of_taskSnapshot hsnapshot).symm.trans hnone, hmakes⟩
  | revision payload parent locks hasFirstDraft basis =>
    obtain ⟨snapshot, -, h⟩ := bind_eq_ok.mp h
    have hfits : (result.state.succeeded = .editing ∧ ∃ v, result.output = .version v ∧
        v.kind = .aiRevision ∧ v.parentVersionId = some parent.id ∧
          Honours v.content (locks.map LockedFragment.text)) →
        result.Fits (.revision payload parent locks hasFirstDraft basis) := by
      rintro ⟨hstate, v, hout, hmakes⟩
      refine ⟨hstate, fun v' hv => ?_, fun set hs => (nomatch hout.symm.trans hs)⟩
      obtain rfl := ServiceOutput.version.inj (hout.symm.trans hv)
      exact hmakes
    dsimp only at h
    split at h
    · exact hfits (result_of_regenerateFromSuggestions h hr)
    · cases h
    · exact hfits (result_of_reviseFull h hr)
    · exact hfits (result_of_reviseSelection h hr)

end DouyinCaption

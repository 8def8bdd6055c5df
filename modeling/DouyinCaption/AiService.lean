import DouyinCaption.Workflow

/-!
# The AI service

`app/modules/tasks/ai_service.py`: from the data of a task to a model call and from the
answer to a result. Each operation is a `ModelCall`: the request sent and what happens to
the answer, the two halves of the coroutine around its only await.
-/

namespace DouyinCaption

/-- `PROMPT_TEMPLATE_VERSION` -/
def promptTemplateVersion : Text := "ai-workflow-v5".toList

/-- The exceptions an operation of the service ends with. -/
inductive AiFailure where
  /-- `AiOperationFailed` -/
  | failed (error : AiError)
  /-- `ValueError` and pydantic's `ValidationError` -/
  | value

/-! ## Snapshots and results -/

/-- `TaskAiSnapshot` -/
structure TaskAiSnapshot where
  id : Uuid
  state : TaskState
  sourceText : Text
  creativeSettings : CreativeSettings
  hasFirstDraft : Bool

/-- `VersionAiSnapshot` -/
structure VersionAiSnapshot where
  id : Uuid
  content : Text

/-- `LockedFragmentSnapshot` -/
structure LockedFragmentSnapshot where
  id : Uuid
  text : Text
  orderIndex : ℕ

/-- `StatePlan`; its `failed` is its `initial`. -/
structure StatePlan where
  initial : TaskState
  running : TaskState
  succeeded : TaskState
  deriving DecidableEq

/-- `ProviderMetadata`, without the token counts, which nothing stores. -/
structure ProviderMetadata where
  modelIdentifier : Text
  promptTemplateVersion : Text
  providerRequestId : Option Text

/-- `VersionServiceResult`, without the plan and the metadata all results share. -/
structure VersionResult where
  parentVersionId : Option Uuid
  kind : VersionKind
  content : Text
  instruction : Option Text
  validationStatus : ValidationStatus
  validation : ValidationResult
  provenance : List (Text × Json)

/-- What a call produced: the differing parts of the three service results. -/
inductive ServiceOutput where
  | analysis (a : TextAnalysis)
  | suggestions (s : SuggestionSet)
  | version (v : VersionResult)

/-- `AnalysisServiceResult`, `SuggestionsServiceResult` and `VersionServiceResult`. -/
structure ServiceResult where
  state : StatePlan
  output : ServiceOutput
  metadata : ProviderMetadata

/-- A coroutine of the service, cut at its await: the request, and what it makes of the
answer. -/
structure ModelCall where
  request : CompletionRequest
  resume : CompletionResult → Except AiFailure ServiceResult

/-! ## Helpers -/

/-- `_state_plan` -/
def statePlan (initial running succeeded : TaskState) : Except AiFailure StatePlan :=
  match assertTransition initial running, assertTransition running succeeded with
  | .ok (), .ok () => .ok ⟨initial, running, succeeded⟩
  | _, _ => .error .value

/-- `_to_ai_settings` -/
def toAiSettings (s : CreativeSettings) : AiCreativeSettings where
  targetLengthMode := s.targetLengthMode
  targetCharacterCount := s.targetCharacters.1
  persona := s.persona.modelDump.toJson.dumps
  audience := s.audience.modelDump.toJson.dumps
  languageStyle := s.languageStyle.modelDump.toJson.dumps
  contentStructure := s.contentStructure.modelDump.toJson.dumps
  outputSpecification := s.outputSpecification.modelDump.toJson.dumps
  hardConstraints := s.hardConstraints.modelDump.toJson.dumps

/-- A text for a `NonBlank` field. -/
def nonBlank (s : Text) : Except AiFailure NonBlank :=
  if h : s ≠ [] then .ok ⟨s, h⟩ else .error .value

/-- The bounds of the `source_text` of an input. -/
def sourceText (s : Text) : Except AiFailure Text :=
  if s ≠ [] ∧ s.length ≤ 20000 then .ok s else .error .value

/-- `_to_ai_locks` -/
def toAiLocks (locks : List LockedFragmentSnapshot) : Except AiFailure (List AiLockedFragment) :=
  (locks.insertionSort fun a b => a.orderIndex ≤ b.orderIndex).mapM fun l => do
    return { fragmentId := uuidText l.id, text := ← nonBlank l.text }

/-- `_metadata` -/
def metadata (model : Text) (response : CompletionResult) : ProviderMetadata where
  modelIdentifier := model
  promptTemplateVersion := promptTemplateVersion
  providerRequestId := response.providerRequestId

/-- `_require_nonempty_text` -/
def requireNonemptyText (response : CompletionResult) : Except AiFailure Unit :=
  if strip response.text = [] then
    .error (.failed ⟨.invalidResponse, true,
      [Json.field "reason" (.str "empty_content".toList)]⟩)
  else .ok ()

/-- `_assert_selected_suggestions_reference_analysis` -/
def assertSelectedSuggestions (analysis : AnalysisResult) (selected : List SelectedSuggestion) :
    Except AiFailure Unit :=
  let issueIds := analysisReferenceIds analysis
  if ¬ (selected.map fun s => s.suggestion.suggestionId.1).Nodup then .error .value
  else ensure (∀ s ∈ selected, ∀ i ∈ s.suggestion.analysisIssueIds.1, i ∈ issueIds) .value

/-! ## The operations -/

/-- `TaskAiService.analyze` -/
def analyze (task : TaskAiSnapshot) (model : Text) : Except AiFailure ModelCall := do
  let plan ← statePlan task.state .analyzing .analysisReady
  let source ← sourceText task.sourceText
  return {
    request := analysisRequest model source
    resume := fun response => do
      requireNonemptyText response
      return ⟨plan, .analysis ⟨← nonBlank response.text⟩, metadata model response⟩ }

/-- `TaskAiService.suggest` -/
def suggest (cfg : Config) (task : TaskAiSnapshot) (analysis : AnalysisResult) (model : Text)
    (memberContext : Text) (previous : List Suggestion) (fixed : List SelectedSuggestion) :
    Except AiFailure ModelCall := do
  let plan ← statePlan task.state .suggesting .suggestionsReady
  let source ← sourceText task.sourceText
  return {
    request := suggestionsRequest cfg model {
      sourceText := source, settings := toAiSettings task.creativeSettings, analysis
      memberContext, previousSuggestions := previous, fixedSuggestions := fixed }
    resume := fun response =>
      match cfg.parseSuggestionSet response.text with
      | none => .error (.failed ⟨.invalidResponse, true, []⟩)
      | some set =>
          if validateSuggestionReferences analysis set then
            .ok ⟨plan, .suggestions set, metadata model response⟩
          else
            .error (.failed ⟨.invalidResponse, true,
              [Json.field "reason" (.str "unknown_analysis_issue".toList)]⟩) }

/-- `TaskAiService.create_first_draft` -/
def createFirstDraft (task : TaskAiSnapshot) (analysis : AnalysisResult)
    (selected : List SelectedSuggestion) (model : Text) (memberRequirements : Text) :
    Except AiFailure ModelCall := do
  -- `FirstDraftAlreadyExists` is a `ValueError`
  ensure (task.hasFirstDraft = false) .value
  let plan ← statePlan task.state .generating .editing
  assertSelectedSuggestions analysis selected
  let source ← sourceText task.sourceText
  return {
    request := firstDraftRequest model {
      sourceText := source, settings := toAiSettings task.creativeSettings, analysis
      selectedSuggestions := selected, memberRequirements }
    resume := fun response => do
      requireNonemptyText response
      return ⟨plan, .version {
        parentVersionId := none, kind := .firstDraft, content := response.text
        instruction := orNone memberRequirements
        validationStatus := .notChecked, validation := { valid := true }
        provenance := [
          Json.field "analysis_issue_ids" (.texts (match analysis with
            | .structured a => a.conclusion.keyIssueIds
            | .text _ => ["analysis".toList])),
          Json.field "selected_suggestion_ids"
            (.texts (selected.map fun s => s.suggestion.suggestionId.1))] },
        metadata model response⟩ }

/-- `TaskAiService._revision_plan` -/
def revisionPlan (task : TaskAiSnapshot) : Except AiFailure StatePlan :=
  if task.hasFirstDraft then statePlan task.state .revising .editing else .error .value

/-- `ValidationResult.model_dump(mode="json")`, the members. -/
def ValidationResult.toJson (v : ValidationResult) : List (Text × Json) :=
  [Json.field "valid" (.bool v.valid),
    Json.field "violations" (.arr (v.violations.map fun x => .obj [
      Json.field "code" (.str (match x.code with
        | .missingFragment => "missing_fragment".toList
        | .selectionOutsideChanged => "selection_outside_changed".toList)),
      Json.field "fragment_id" (.ofOption .str x.fragmentId),
      Json.field "message" (.str x.message)]))]

/-- `_revision_result` -/
def revisionResult (plan : StatePlan) (parent : VersionAiSnapshot) (instruction : Text)
    (response : CompletionResult) (validation : ValidationResult) (model : Text)
    (provenance : List (Text × Json)) : Except AiFailure ServiceResult :=
  if validation.valid then
    .ok ⟨plan, .version {
      parentVersionId := some parent.id, kind := .aiRevision, content := response.text
      instruction := some instruction, validationStatus := .satisfied, validation
      provenance }, metadata model response⟩
  else .error (.failed ⟨.preservationFailed, true, validation.toJson⟩)

/-- The members of a revision's provenance all scopes write. -/
def revisionProvenance (scope : String) (locks : List LockedFragmentSnapshot) :
    List (Text × Json) :=
  [Json.field "scope" (.str scope.toList),
    Json.field "locked_fragment_ids" (.arr (locks.map fun l => .uuid l.id))]

/-- The checks of a `FullRevisionInput`. -/
def fullRevisionInput (task : TaskAiSnapshot) (parent : VersionAiSnapshot) (instruction : Text)
    (locks : List AiLockedFragment) : Except AiFailure FullRevisionInput := do
  let parentText ← nonBlank parent.content
  let instruction ← nonBlank instruction
  return {
    parentText := parentText.1, instruction := instruction.1
    settings := toAiSettings task.creativeSettings, lockedFragments := locks }

/-- `TaskAiService.revise_full` -/
def reviseFull (task : TaskAiSnapshot) (parent : VersionAiSnapshot) (instruction : Text)
    (locks : List LockedFragmentSnapshot) (model : Text) : Except AiFailure ModelCall := do
  let plan ← revisionPlan task
  let ordered ← toAiLocks locks
  let input ← fullRevisionInput task parent instruction ordered
  return {
    request := fullRevisionRequest model input
    resume := fun response => do
      requireNonemptyText response
      revisionResult plan parent instruction response
        (validateLockedFragments response.text ordered) model (revisionProvenance "full" locks) }

/-- `TaskAiService.regenerate_from_suggestions` -/
def regenerateFromSuggestions (task : TaskAiSnapshot) (parent : VersionAiSnapshot)
    (analysis : AnalysisResult) (selected : List SelectedSuggestion) (memberRequirements : Text)
    (locks : List LockedFragmentSnapshot) (model : Text) : Except AiFailure ModelCall := do
  let plan ← revisionPlan task
  assertSelectedSuggestions analysis selected
  let ordered ← toAiLocks locks
  let source ← sourceText task.sourceText
  return {
    request := suggestionRegenerationRequest model {
      sourceText := source, settings := toAiSettings task.creativeSettings, analysis
      selectedSuggestions := selected, memberRequirements } ordered
    resume := fun response => do
      requireNonemptyText response
      revisionResult plan parent (orElse memberRequirements "按当前优化方案重新生成".toList) response
        (validateLockedFragments response.text ordered) model
        (revisionProvenance "suggestions" locks ++ [
          Json.field "selected_suggestion_ids"
            (.texts (selected.map fun s => s.suggestion.suggestionId.1))]) }

/-- `TaskAiService.revise_selection` -/
def reviseSelection (task : TaskAiSnapshot) (parent : VersionAiSnapshot) (selection : Selection)
    (instruction : Text) (locks : List LockedFragmentSnapshot) (model : Text) :
    Except AiFailure ModelCall := do
  let plan ← revisionPlan task
  let ordered ← toAiLocks locks
  let input ← fullRevisionInput task parent instruction ordered
  -- `validate_selection_bounds`
  ensure (selection.stop ≤ input.parentText.length) .value
  return {
    request := selectionRevisionRequest model input selection
    resume := fun response => do
      requireNonemptyText response
      revisionResult plan parent instruction response
        (validateSelectionRevision parent.content response.text selection ordered) model
        (revisionProvenance "selection" locks ++ [
          Json.field "selection" (.obj [Json.field "start" (.nat selection.start),
            Json.field "end" (.nat selection.stop)])]) }

end DouyinCaption

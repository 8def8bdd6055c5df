import DouyinCaption.AiService
import DouyinCaption.Writes

/-!
# AI operations

`app/modules/tasks/ai_operations.py`: what `analyze`, `suggest`, `create_first_draft` and
`revise` read before they execute, the model call each of them makes (`invoke`), how its
result is stored (`persist`), and the writes that end an operation.

The order in which `_execute` strings these together, and where others may come between,
is in `Worker`.
-/

namespace DouyinCaption

open Tables

/-- What a transaction takes from its surroundings: the clock, and the identifiers it
draws. -/
structure Stamp where
  now : ℕ
  ids : List Uuid

/-- The `n`-th identifier drawn. -/
def Stamp.id (st : Stamp) (n : ℕ) : Uuid := st.ids.getD n 0

/-- `TaskAiExecutionError` -/
structure ExecutionError where
  code : Text
  message : Text
  statusCode : ℕ
  details : List (Text × Json) := []

/-- The exceptions of the part of an operation before `_execute`. -/
inductive PreparationError where
  /-- `TaskAiExecutionError` -/
  | execution (error : ExecutionError)
  /-- `ValidationError` -/
  | value
  /-- any other exception, such as a `KeyError` -/
  | other

/-! ## Reading the inputs -/

/-- The queries the four operations make, one statement each. -/
inductive Query where
  /-- `_has_first_draft` -/
  | hasFirstDraft
  /-- `_analysis` -/
  | analysis
  /-- the suggestions of the analysis -/
  | suggestions
  /-- the parent version of a revision -/
  | parent
  /-- the locks of the task -/
  | locks
  deriving DecidableEq

/-- What the queries made so far have returned. -/
structure Reads where
  hasFirstDraft : Bool := false
  analysis : Option AnalysisRecord := none
  suggestions : List SuggestionRecord := []
  parent : Option ScriptVersion := none
  locks : List LockedFragment := []

/-- The queries of an operation, in the order it makes them. -/
def Payload.queries : Payload → List Query
  | .analysis => [.hasFirstDraft]
  | .suggestions _ => [.analysis, .hasFirstDraft, .suggestions]
  | .firstDraft _ => [.analysis, .suggestions, .hasFirstDraft]
  | .revision p => [.parent, .locks, .hasFirstDraft] ++ match p.scope with
      | .suggestions .. => [.analysis, .suggestions]
      | _ => []

/-- `payload.analysis_id` -/
def Payload.analysisId : Payload → Option Uuid
  | .suggestions p => some p.analysisId
  | .firstDraft p => some p.analysisId
  | .revision { scope := .suggestions analysisId _, .. } => some analysisId
  | _ => none

/-- `payload.suggestion_decisions` -/
def Payload.decisions : Payload → List SuggestionDecisionSubmit
  | .suggestions p => p.suggestionDecisions.1
  | .firstDraft p => p.suggestionDecisions.1
  | .revision { scope := .suggestions _ decisions, .. } => decisions.1
  | _ => []

/-- `payload.parent_version_id` -/
def Payload.parentVersionId : Payload → Option Uuid
  | .revision p => some p.parentVersionId
  | _ => none

/-- The suggestions of an analysis of a task. -/
def Db.suggestionsOf (db : Db) (taskId : Uuid) (analysisId : Option Uuid) :
    List SuggestionRecord :=
  db.suggestions.select fun r => r.taskId = taskId && some r.analysisId = analysisId

/-- `ORDER BY created_at, id` -/
def SuggestionRecord.before (a b : SuggestionRecord) : Prop :=
  a.createdAt < b.createdAt ∨ a.createdAt = b.createdAt ∧ a.id ≤ b.id

instance : DecidableRel SuggestionRecord.before := fun _ _ =>
  inferInstanceAs (Decidable (_ ∨ _ ∧ _))

/-- `_has_first_draft` -/
def Db.hasFirstDraft (db : Db) (taskId : Uuid) : Bool :=
  (db.versions.scalar fun v => v.taskId = taskId && v.kind = .firstDraft).isSome

/-- The locks of a task, by `order_index`. -/
def Db.locksOf (db : Db) (taskId : Uuid) : List LockedFragment :=
  (db.locks.select fun l => l.taskId = taskId).insertionSort fun a b => a.orderIndex ≤ b.orderIndex

/-- The error of an operation without its analysis. -/
def noAnalysis : ExecutionError :=
  ⟨"analysis_not_found".toList, "Analysis was not found".toList, 404, []⟩

/-- The error of a revision without its parent version. -/
def noParent : ExecutionError :=
  ⟨"version_not_found".toList, "Version was not found".toList, 404, []⟩

/-- The error of a round of suggestions with nothing left to improve. -/
def allSuggestionsFixed : ExecutionError :=
  ⟨"all_suggestions_fixed".toList, "所有方案均已固定，请先取消勾选需要优化的方案".toList, 409, []⟩

/-- One query of an operation with a payload on a task. -/
def Query.run (db : Db) (taskId : Uuid) (p : Payload) (r : Reads) :
    Query → Except PreparationError Reads
  | .hasFirstDraft => .ok { r with hasFirstDraft := db.hasFirstDraft taskId }
  | .analysis =>
      match db.analyses.scalar fun a => a.taskId = taskId && some a.id = p.analysisId with
      | none => .error (.execution noAnalysis)
      | some a => .ok { r with analysis := some a }
  | .suggestions =>
      -- only `suggest` orders the rows
      let rows := db.suggestionsOf taskId p.analysisId
      .ok { r with
        suggestions := match p with
          | .suggestions _ => rows.insertionSort SuggestionRecord.before
          | _ => rows }
  | .parent =>
      match db.versions.scalar fun v =>
          some v.id = p.parentVersionId && v.taskId = taskId with
      | none => .error (.execution noParent)
      | some v => .ok { r with parent := some v }
  | .locks => .ok { r with locks := db.locksOf taskId }

/-- All queries of an operation against one state of the database. -/
def readAll (db : Db) (taskId : Uuid) (p : Payload) : Except PreparationError Reads :=
  p.queries.foldlM (fun r q => q.run db taskId p r) {}

/-! ## Stored suggestions -/

/-- `_stored_suggestion`; `none` for its `ValidationError`. -/
def storedSuggestion (r : SuggestionRecord) : Option Suggestion :=
  if h : r.suggestionKey ≠ [] ∧ r.title ≠ [] ∧ r.analysisIssueIds ≠ [] ∧ r.problem ≠ [] ∧
      r.direction ≠ [] ∧ r.reason ≠ [] ∧ r.impactScope ≠ [] then
    some {
      suggestionId := ⟨r.suggestionKey, h.1⟩, priority := r.priority, title := ⟨r.title, h.2.1⟩
      analysisIssueIds := ⟨r.analysisIssueIds, h.2.2.1⟩, problem := ⟨r.problem, h.2.2.2.1⟩
      direction := ⟨r.direction, h.2.2.2.2.1⟩, rationale := ⟨r.reason, h.2.2.2.2.2.1⟩
      impactScope := ⟨r.impactScope, h.2.2.2.2.2.2⟩
      example_ := match r.example_ with
        | some (c :: e) => ⟨c :: e, by simp⟩
        | _ => ⟨"无".toList, by decide⟩ }
  else none

/-- The decision `by_id[record.id]`, `none` for its `KeyError`. -/
def decisionOf (ds : List SuggestionDecisionSubmit) (r : SuggestionRecord) :
    Option SuggestionDecisionSubmit :=
  ds.find? fun d => d.suggestionId = r.id

/-- A `ValidationError` for a missing value. -/
def orInvalid {α : Type} : Option α → Except PreparationError α
  | none => .error .value
  | some a => .ok a

/-- A `KeyError` for a missing value. -/
def orKeyError {α : Type} : Option α → Except PreparationError α
  | none => .error .other
  | some a => .ok a

/-- The rows whose decision in the payload is selected. -/
def selectedRows (ds : List SuggestionDecisionSubmit) :
    List SuggestionRecord → Except PreparationError (List (SuggestionRecord × Text))
  | [] => .ok []
  | r :: rs => do
      let d ← orKeyError (decisionOf ds r)
      let rest ← selectedRows ds rs
      return if d.selected then (r, (d.memberNote.map (·.1)).getD []) :: rest else rest

/-- `_selected_suggestions`: the note is the one of the payload. -/
def selectedSuggestions (records : List SuggestionRecord) (ds : List SuggestionDecisionSubmit) :
    Except PreparationError (List SelectedSuggestion) := do
  let rows ← selectedRows ds records
  rows.mapM fun row => do return ⟨← orInvalid (storedSuggestion row.1), row.2⟩

/-- The re-validation `SuggestionSet(suggestions=[…])`. -/
def checkSuggestionSet (records : List SuggestionRecord) : Except PreparationError Unit := do
  let suggestions ← records.mapM fun r => orInvalid (storedSuggestion r)
  ensure (SuggestionSet.Valid suggestions) .value

/-! ## What an operation holds while it executes -/

/-- The values the closures `invoke` and `persist` of an operation capture. -/
inductive Prepared where
  /-- `analyze` -/
  | analysis (hasFirstDraft : Bool)
  /-- `suggest` -/
  | suggestions (payload : SuggestionsSubmit) (analysis : AnalysisRecord)
      (hasFirstDraft : Bool) (previous fixed : List SuggestionRecord)
  /-- `create_first_draft` -/
  | firstDraft (payload : FirstDraftSubmit) (analysis : AnalysisRecord)
      (selected : List SelectedSuggestion) (hasFirstDraft : Bool)
  /-- `revise` -/
  | revision (payload : RevisionSubmit) (parent : ScriptVersion) (locks : List LockedFragment)
      (hasFirstDraft : Bool) (basis : Option (AnalysisRecord × List SelectedSuggestion))

/-- What the operations make of their reads before `_execute`. -/
def assemble (p : Payload) (r : Reads) : Except PreparationError Prepared :=
  match p with
  | .analysis => .ok (.analysis r.hasFirstDraft)
  | .suggestions payload => do
      let analysis ← orKeyError r.analysis
      let fixed ← selectedRows payload.suggestionDecisions.1 r.suggestions
      ensure (¬ (r.suggestions ≠ [] ∧ fixed.length = r.suggestions.length))
        (.execution allSuggestionsFixed)
      return .suggestions payload analysis r.hasFirstDraft r.suggestions (fixed.map (·.1))
  | .firstDraft payload => do
      let analysis ← orKeyError r.analysis
      checkSuggestionSet r.suggestions
      let selected ← selectedSuggestions r.suggestions payload.suggestionDecisions.1
      return .firstDraft payload analysis selected r.hasFirstDraft
  | .revision payload => do
      let parent ← orKeyError r.parent
      match payload.scope with
      | .suggestions _ decisions =>
          let analysis ← orKeyError r.analysis
          checkSuggestionSet r.suggestions
          let selected ← selectedSuggestions r.suggestions decisions.1
          return .revision payload parent r.locks r.hasFirstDraft (some (analysis, selected))
      | _ => return .revision payload parent r.locks r.hasFirstDraft none

/-- The part of an operation before `_execute`, against one state of the database. -/
def prepare (db : Db) (taskId : Uuid) (p : Payload) : Except PreparationError Prepared := do
  assemble p (← readAll db taskId p)

/-! ## `invoke` -/

/-- `_task_snapshot` -/
def taskSnapshot (task : RewriteTask) (hasFirstDraft : Bool) (state : TaskState) :
    Except AiFailure TaskAiSnapshot :=
  match task.creativeSettings with
  | none => .error .value
  | some settings =>
      .ok ⟨task.id, state, task.sourceText, settings, hasFirstDraft⟩

/-- A `ValidationError` inside a call. -/
def orValue {α : Type} : Option α → Except AiFailure α
  | none => .error .value
  | some a => .ok a

/-- The note a fixed suggestion goes to the model with: the one of the row. -/
def SuggestionRecord.fixed (r : SuggestionRecord) : Except AiFailure SelectedSuggestion := do
  return ⟨← orValue (storedSuggestion r), r.memberNote.getD []⟩

/-- `LockedFragmentSnapshot(…)` of a lock. -/
def LockedFragment.snapshot (l : LockedFragment) : LockedFragmentSnapshot :=
  ⟨l.id, l.text, l.orderIndex⟩

/-- `invoke`: the model call of an operation on a task in its initial state. -/
def invoke (cfg : Config) (task : RewriteTask) (initial : TaskState) (model : Text) :
    Prepared → Except AiFailure ModelCall
  | .analysis hasFirstDraft => do
      analyze (← taskSnapshot task hasFirstDraft initial) model
  | .suggestions payload analysis hasFirstDraft previous fixed => do
      let snapshot ← taskSnapshot task hasFirstDraft initial
      let before ← previous.mapM fun r => orValue (storedSuggestion r)
      let kept ← fixed.mapM SuggestionRecord.fixed
      suggest cfg snapshot analysis.payload model payload.memberContext.1 before kept
  | .firstDraft payload analysis selected hasFirstDraft => do
      createFirstDraft (← taskSnapshot task hasFirstDraft initial) analysis.payload selected
        model payload.memberRequirements.1
  | .revision payload parent locks hasFirstDraft basis => do
      let snapshot ← taskSnapshot task hasFirstDraft initial
      let version : VersionAiSnapshot := ⟨parent.id, parent.content⟩
      let locks := locks.map LockedFragment.snapshot
      match payload.scope, basis with
      | .suggestions .., some (analysis, selected) =>
          regenerateFromSuggestions snapshot version analysis.payload selected
            payload.instruction.1 locks model
      | .suggestions .., none => .error .value
      | .full, _ => reviseFull snapshot version payload.instruction.1 locks model
      | .selection range, _ =>
          reviseSelection snapshot version range payload.instruction.1 locks model

/-! ## `persist` -/

/-- `xs[:n]`, where a negative `n` counts from the end. -/
def pySlice {α : Type} (xs : List α) : ℤ → List α
  | .ofNat n => xs.take n
  | .negSucc n => xs.take (xs.length - (n + 1))

theorem sublist_pySlice {α : Type} (xs : List α) (n : ℤ) : (pySlice xs n).Sublist xs := by
  cases n with
  | ofNat n => exact List.take_sublist _ _
  | negSucc n => exact List.take_sublist _ _

theorem length_pySlice {α : Type} (xs : List α) {n : ℤ} (h : 0 ≤ n) :
    ((pySlice xs n).length : ℤ) ≤ n := by
  cases n with
  | ofNat n =>
    rw [pySlice, Int.ofNat_eq_natCast]
    exact_mod_cast List.length_take_le n xs
  | negSucc n => exact absurd h (by simp)

/-- The suggestions of a set that join the fixed ones. -/
def replacements (previous fixed : List SuggestionRecord) (set : SuggestionSet) :
    List Suggestion :=
  let fixedKeys := fixed.map SuggestionRecord.suggestionKey
  let fixedTitles := fixed.map fun r => strip r.title
  let capacity : ℤ :=
    (if previous = [] then 8 else max 5 (min 8 (previous.length : ℤ))) - fixed.length
  pySlice (set.suggestions.filter fun s =>
    s.suggestionId.1 ∉ fixedKeys && strip s.title.1 ∉ fixedTitles) capacity

/-- The row of a new suggestion. -/
def suggestionRecord (taskId analysisId id : Uuid) (now : ℕ) (s : Suggestion) :
    SuggestionRecord where
  id := id
  taskId := taskId
  analysisId := analysisId
  suggestionKey := s.suggestionId.1
  analysisIssueIds := s.analysisIssueIds.1
  priority := s.priority
  title := s.title.1
  problem := s.problem.1
  direction := s.direction.1
  reason := s.rationale.1
  impactScope := s.impactScope.1
  example_ := some s.example_.1
  decision := .pending
  memberNote := none
  createdAt := now

/-- `_version_record` -/
def versionRecord (taskId id : Uuid) (now : ℕ) (v : VersionResult) (m : ProviderMetadata) :
    ScriptVersion where
  id := id
  taskId := taskId
  parentId := v.parentVersionId
  kind := v.kind
  content := v.content
  instruction := v.instruction
  provenance := .obj (v.provenance ++
    [Json.field "model_identifier" (.str m.modelIdentifier),
      Json.field "prompt_template_version" (.str m.promptTemplateVersion)])
  validationStatus := v.validationStatus
  validationDetails := .obj v.validation.toJson
  isCurrentFinal := false
  createdAt := now

/-- The next sequence number of a task's analyses. -/
def Db.nextSequence (db : Db) (taskId : Uuid) : ℕ :=
  ((db.analyses.select fun r => r.taskId = taskId).map AnalysisRecord.sequence).foldl max 0 + 1

/-- `persist`: the writes that store a result, and the resource they make. -/
def persist (db : Db) (taskId : Uuid) (st : Stamp) (prep : Prepared) (result : ServiceResult) :
    Except AiFailure (List Write × (ResourceType × Uuid)) :=
  match prep, result.output with
  | .analysis _, .analysis a =>
      .ok ([.deselectAnalyses taskId, .addAnalysis {
        id := st.id 0, taskId, sequence := db.nextSequence taskId, payload := .text a
        promptTemplateVersion := result.metadata.promptTemplateVersion
        modelIdentifier := result.metadata.modelIdentifier, createdAt := st.now }],
        (.analysis, st.id 0))
  | .suggestions _ analysis _ previous fixed, .suggestions set => do
      let new := replacements previous fixed set
      let kept ← fixed.mapM fun r => orValue (storedSuggestion r)
      ensure (SuggestionSet.Valid (kept ++ new)) .value
      return ([.dropSuggestions taskId analysis.id (fixed.map SuggestionRecord.id),
        .addSuggestions (new.zipIdx.map fun s =>
          suggestionRecord taskId analysis.id (st.id s.2) st.now s.1)],
        (.suggestions, analysis.id))
  | .firstDraft .., .version v | .revision .., .version v =>
      .ok ([.addVersion (versionRecord taskId (st.id 0) st.now v result.metadata)],
        (.version, st.id 0))
  | _, _ => .error .value

/-! ## Ending an operation -/

/-- The writes of a success: those of `persist`, the task's state and the operation. -/
def successWrites (task : RewriteTask) (op : AiOperation) (result : ServiceResult) (now : ℕ)
    (stored : List Write) (resource : ResourceType × Uuid) : List Write :=
  stored ++
    [.setTask task.id { state := assign task.state result.state.succeeded } now,
      .setOperation op.id
        (.succeed result.state.succeeded resource result.metadata.providerRequestId now)]

/-- `_record_failure` -/
def recordFailure (task : RewriteTask) (op : AiOperation) (error : OperationError)
    (status : AiOperationStatus) (now : ℕ) : List Write :=
  [.setTask task.id { state := assign task.state op.initialTaskState } now,
    .setOperation op.id (.fail status error now)]

/-- The error of a `ValueError` during a call. -/
def invalidOperation : OperationError where
  code := "invalid_ai_operation".toList
  message := "AI operation inputs do not match the task state or constraints".toList

/-- The error of any other exception during a call. -/
def internalError : OperationError where
  code := "ai_operation_internal_error".toList
  message := "The AI operation could not be completed".toList

/-- The error of `_record_cancellation`. -/
def cancelledError : OperationError where
  code := "ai_operation_cancelled".toList
  message := "The AI operation was cancelled".toList

/-- The error `_record_failure` gets for an exception of the service. -/
def AiFailure.error : AiFailure → OperationError
  | .failed e => e.asDict
  | .value => invalidOperation

/-! ## Recovery of stale operations -/

/-- `AI_OPERATION_STALE_SECONDS` -/
def staleSeconds : ℕ := 720

/-- The operation runs and was claimed more than the stale time ago. -/
def AiOperation.isStale (now : ℕ) (o : AiOperation) : Bool :=
  o.status = .running && match o.startedAt with
    | none => false
    | some t => t + staleSeconds < now

/-- The operations `recover_stale_operations` selects. -/
def Db.staleOperations (db : Db) (ownerId : Uuid) (now : ℕ) : List AiOperation :=
  db.operations.select fun o => o.ownerId = ownerId && o.isStale now

/-- The error of a recovered operation. -/
def staleError : OperationError where
  code := "ai_operation_stale".toList
  message := "The AI operation did not finish and was recovered".toList
  details := .obj [Json.field "retryable" (.bool true)]

/-- The writes of `recover_stale_operations` for one loaded operation and its task. -/
def recoverOperation (now : ℕ) (found : AiOperation × Option RewriteTask) : List Write :=
  (match found.2 with
    | some task =>
        if task.state = found.1.runningTaskState then
          [.setTask task.id { state := assign task.state found.1.initialTaskState } now]
        else []
    | none => []) ++
    [.setOperation found.1.id (.fail .failed staleError now)]

/-- The writes of `recover_stale_operations`. -/
def recoverWrites (now : ℕ) (found : List (AiOperation × Option RewriteTask)) : List Write :=
  found.flatMap (recoverOperation now)

/-- What holds of every statement of a recovery: it puts tasks back, and operations are failed. -/
theorem forall_recoverWrites {P : Write → Prop} {now : ℕ}
    {found : List (AiOperation × Option RewriteTask)}
    (htask : ∀ f ∈ found, ∀ t ∈ f.2,
      P (.setTask t.id { state := assign t.state f.1.initialTaskState } now))
    (hoperation : ∀ f ∈ found, P (.setOperation f.1.id (.fail .failed staleError now))) :
    ∀ w ∈ recoverWrites now found, P w := by
  intro w hw
  obtain ⟨f, hf, hw⟩ := List.mem_flatMap.mp hw
  rcases List.mem_append.mp hw with hw | hw
  · split at hw
    · rename_i t ht
      split at hw
      · obtain rfl := List.mem_singleton.mp hw
        exact htask f hf t ht
      · cases hw
    · cases hw
  · obtain rfl := List.mem_singleton.mp hw
    exact hoperation f hf

/-! ## Canonical request hash -/

/-- The value of an `AiOperationKind`. -/
def AiOperationKind.text : AiOperationKind → Text
  | .analysis => "analysis".toList
  | .suggestions => "suggestions".toList
  | .firstDraft => "first_draft".toList
  | .revision => "revision".toList

/-- `_request_hash` -/
def requestHash (cfg : Config) (kind : AiOperationKind) (taskId : Uuid) (payload : Json) : Text :=
  cfg.digest (Json.sortKeys (.obj [Json.field "kind" (.str kind.text),
    Json.field "task_id" (.uuid taskId), Json.field "payload" payload])).dumps

end DouyinCaption

import DouyinCaption.AiOperations

/-!
# Requests and replies

The endpoints of `app/modules/tasks/router.py` as values: what a member asks for, and what
the views of `schemas.py` show of the rows in the answer.
-/

namespace DouyinCaption

/-- `TaskApiError`, which also carries what `_execute_ai` makes of a
`TaskAiExecutionError`. -/
abbrev ApiError : Type := ExecutionError

/-- An exception no handler catches. -/
def internalServerError : ApiError where
  code := "internal_server_error".toList
  message := []
  statusCode := 500

/-- The formats of an export. -/
inductive ExportFormat where
  | txt
  | md
  deriving DecidableEq

/-- A request to the task module by an authenticated member. -/
inductive Request where
  | listPresets
  | createPreset (payload : PresetCreate)
  | updatePreset (presetId : Uuid) (payload : PresetUpdate)
  | deletePreset (presetId : Uuid)
  | listTasks (search : Option Text) (state : Option TaskState) (archived : Bool)
      (offset : ℕ) (limit : ℕ)
  | createTask (payload : TaskCreate)
  | getTask (taskId : Uuid)
  | updateTask (taskId : Uuid) (payload : TaskUpdate)
  | copyTask (taskId : Uuid)
  | archiveTask (taskId : Uuid)
  | restoreTask (taskId : Uuid)
  /-- `submit_analysis`, `submit_suggestions`, `submit_first_draft`, `submit_revision` -/
  | submit (taskId : Uuid) (payload : Payload) (idempotencyKey : Option Text)
      (requestId : Option Text)
  | updateAnalysis (taskId analysisId : Uuid) (payload : AnalysisCorrection)
  | getAnalysis (taskId analysisId : Uuid)
  | getAnalyses (taskId : Uuid)
  | updateSuggestion (taskId suggestionId : Uuid) (payload : SuggestionUpdate)
  | getSuggestions (taskId : Uuid) (analysisId : Option Uuid)
  | listOperations
  | clearHistory
  | cancelOperation (operationId : Uuid)
  | retryOperation (operationId : Uuid) (idempotencyKey : Option Text)
  | getOperation (operationId : Uuid)
  | listVersions (taskId : Uuid)
  | getVersion (taskId versionId : Uuid)
  | manualEdit (taskId versionId : Uuid) (payload : ManualEditCreate)
  | compareVersions (taskId leftVersionId rightVersionId : Uuid)
  | createLock (taskId versionId : Uuid) (payload : LockedFragmentCreate)
  | deleteLock (taskId lockId : Uuid)
  | getLocks (taskId : Uuid)
  | finalizeVersion (taskId versionId : Uuid)
  | exportFinal (taskId : Uuid) (format : ExportFormat)

/-! ## Views -/

/-- `TaskSummary` -/
structure TaskSummary where
  id : Uuid
  name : Text
  state : TaskState
  createdAt : ℕ
  updatedAt : ℕ
  finalizedAt : Option ℕ
  deriving DecidableEq

/-- `TaskDetail` -/
structure TaskDetail extends TaskSummary where
  sourceText : Text
  creativeSettings : CreativeSettings
  deriving DecidableEq

/-- `PresetView` -/
structure PresetView where
  id : Uuid
  name : Text
  settings : CreativeSettings
  createdAt : ℕ
  updatedAt : ℕ
  deriving DecidableEq

/-- `AnalysisView` -/
structure AnalysisView where
  id : Uuid
  sequence : ℕ
  payload : Json
  memberNotes : Option Text
  isSelected : Bool
  promptTemplateVersion : Text
  modelIdentifier : Text
  createdAt : ℕ

/-- `SuggestionView` -/
structure SuggestionView where
  id : Uuid
  analysisId : Uuid
  suggestionKey : Text
  analysisIssueIds : List Text
  priority : SuggestionPriority
  title : Text
  problem : Text
  direction : Text
  reason : Text
  impactScope : Text
  example_ : Option Text
  decision : SuggestionDecision
  memberNote : Option Text
  deriving DecidableEq

/-- `AiOperationView` -/
structure AiOperationView where
  id : Uuid
  taskId : Uuid
  taskName : Text
  kind : AiOperationKind
  status : AiOperationStatus
  resourceType : Option ResourceType
  resourceId : Option Uuid
  errorCode : Option Text
  errorMessage : Option Text
  errorDetails : Json
  createdAt : ℕ
  startedAt : Option ℕ
  completedAt : Option ℕ

/-- `VersionView` -/
structure VersionView where
  id : Uuid
  parentId : Option Uuid
  kind : VersionKind
  content : Text
  instruction : Option Text
  provenance : Json
  validationStatus : ValidationStatus
  validationDetails : Json
  isCurrentFinal : Bool
  createdAt : ℕ

/-- `LockedFragmentView` -/
structure LockedFragmentView where
  id : Uuid
  sourceVersionId : Uuid
  text : Text
  startOffset : ℕ
  endOffset : ℕ
  orderIndex : ℕ
  note : Option Text
  deriving DecidableEq

def RewriteTask.summary (t : RewriteTask) : TaskSummary :=
  ⟨t.id, t.name, t.state, t.createdAt, t.updatedAt, t.finalizedAt⟩

/-- A task without settings does not validate as a `TaskDetail`. -/
def RewriteTask.detail (t : RewriteTask) : Except ApiError TaskDetail :=
  match t.creativeSettings with
  | none => .error internalServerError
  | some settings => .ok ⟨t.summary, t.sourceText, settings⟩

def CreativePreset.view (p : CreativePreset) : PresetView :=
  ⟨p.id, p.name, p.settings, p.createdAt, p.updatedAt⟩

def AnalysisRecord.view (r : AnalysisRecord) : AnalysisView :=
  ⟨r.id, r.sequence, r.payload.toJson, r.memberNotes, r.isSelected, r.promptTemplateVersion,
    r.modelIdentifier, r.createdAt⟩

def SuggestionRecord.view (r : SuggestionRecord) : SuggestionView :=
  ⟨r.id, r.analysisId, r.suggestionKey, r.analysisIssueIds, r.priority, r.title, r.problem,
    r.direction, r.reason, r.impactScope, r.example_, r.decision, r.memberNote⟩

def AiOperation.view (o : AiOperation) : AiOperationView :=
  ⟨o.id, o.taskId, o.taskName, o.kind, o.status, o.resourceType, o.resourceId, o.errorCode,
    o.errorMessage, o.errorDetails, o.createdAt, o.startedAt, o.completedAt⟩

def ScriptVersion.view (v : ScriptVersion) : VersionView :=
  ⟨v.id, v.parentId, v.kind, v.content, v.instruction, v.provenance, v.validationStatus,
    v.validationDetails, v.isCurrentFinal, v.createdAt⟩

def LockedFragment.view (l : LockedFragment) : LockedFragmentView :=
  ⟨l.id, l.sourceVersionId, l.text, l.startOffset, l.endOffset, l.orderIndex, l.note⟩

/-- The body of an answer. -/
inductive Reply where
  | task (t : TaskDetail)
  | tasks (ts : List TaskSummary)
  | preset (p : PresetView)
  | presets (ps : List PresetView)
  | analysis (r : AnalysisView)
  | analyses (rs : List AnalysisView)
  | suggestion (r : SuggestionView)
  | suggestions (rs : List SuggestionView)
  | operation (o : AiOperationView)
  | operations (os : List AiOperationView)
  | version (v : VersionView)
  | versions (vs : List VersionView)
  | comparison (leftVersionId rightVersionId : Uuid) (diff : Text)
  | lock (l : LockedFragmentView)
  | locks (ls : List LockedFragmentView)
  | document (content : Text) (format : ExportFormat) (taskId : Uuid)
  | noContent

/-- An answer: a body or an error. -/
abbrev Response : Type := Except ApiError Reply

/-- The end of a transaction: its writes, and the answer once they are committed. -/
structure Outcome where
  writes : List Write
  reply : Db → Response

end DouyinCaption

import DouyinCaption.Schemas
import DouyinCaption.Library.Tables

/-!
# The stored rows

`app/modules/tasks/models.py` and the two tables of `app/modules/identity/models.py` the
task module reads. A timestamp is a number; `updated_at` is kept where something reads it.
The row types hold what a column accepts: whether a row is sensible is for the code that
writes it.
-/

namespace DouyinCaption

open Tables

/-! ## Rows -/

/-- The roles of a member. -/
inductive MemberRole where
  | member
  | admin
  deriving DecidableEq

/-- `Member` -/
structure Member where
  id : Uuid
  role : MemberRole
  isActive : Bool
  deriving DecidableEq

/-- `ProviderSetting` -/
structure ProviderSetting where
  id : Uuid
  memberId : Uuid
  modelId : Text
  deriving DecidableEq

/-- `RewriteTask`. The settings column is JSON and accepts `null`. -/
structure RewriteTask where
  id : Uuid
  ownerId : Uuid
  name : Text
  sourceText : Text
  creativeSettings : Option CreativeSettings
  state : TaskState
  archivedFromState : Option TaskState := none
  finalizedAt : Option ℕ := none
  createdAt : ℕ
  updatedAt : ℕ
  deriving DecidableEq

/-- `CreativePreset` -/
structure CreativePreset where
  id : Uuid
  ownerId : Uuid
  name : Text
  settings : CreativeSettings
  createdAt : ℕ
  updatedAt : ℕ
  deriving DecidableEq

/-- `AnalysisRecord` -/
structure AnalysisRecord where
  id : Uuid
  taskId : Uuid
  sequence : ℕ
  payload : AnalysisResult
  memberNotes : Option Text := none
  isSelected : Bool := true
  promptTemplateVersion : Text
  modelIdentifier : Text
  createdAt : ℕ

/-- `SuggestionRecord` -/
structure SuggestionRecord where
  id : Uuid
  taskId : Uuid
  analysisId : Uuid
  suggestionKey : Text
  analysisIssueIds : List Text := []
  priority : SuggestionPriority := .optional
  title : Text
  problem : Text
  direction : Text
  reason : Text
  impactScope : Text
  example_ : Option Text := none
  decision : SuggestionDecision := .pending
  memberNote : Option Text := none
  createdAt : ℕ
  deriving DecidableEq

/-- `ScriptVersion` -/
structure ScriptVersion where
  id : Uuid
  taskId : Uuid
  parentId : Option Uuid
  kind : VersionKind
  content : Text
  instruction : Option Text
  provenance : Json
  validationStatus : ValidationStatus := .notChecked
  validationDetails : Json
  isCurrentFinal : Bool := false
  createdAt : ℕ

/-- `LockedFragment` -/
structure LockedFragment where
  id : Uuid
  taskId : Uuid
  sourceVersionId : Uuid
  text : Text
  startOffset : ℕ
  endOffset : ℕ
  orderIndex : ℕ
  note : Option Text := none
  deriving DecidableEq

/-- The values of `resource_type`. -/
inductive ResourceType where
  | analysis
  | suggestions
  | version
  deriving DecidableEq

/-- `AiOperation` -/
structure AiOperation where
  id : Uuid
  ownerId : Uuid
  taskId : Uuid
  taskName : Text
  kind : AiOperationKind
  status : AiOperationStatus
  idempotencyKey : Option Text
  requestHash : Text
  requestPayload : Payload
  requestId : Option Text
  initialTaskState : TaskState
  runningTaskState : TaskState
  completedTaskState : Option TaskState := none
  resourceType : Option ResourceType := none
  resourceId : Option Uuid := none
  errorCode : Option Text := none
  errorMessage : Option Text := none
  errorDetails : Json := .obj []
  providerRequestId : Option Text := none
  createdAt : ℕ
  startedAt : Option ℕ := none
  completedAt : Option ℕ := none

/-- The operation occupies its task: it is queued or running. -/
def AiOperation.isActive (o : AiOperation) : Bool := o.status.isActive

instance : Keyed Member Uuid := ⟨Member.id⟩
instance : Keyed ProviderSetting Uuid := ⟨ProviderSetting.id⟩
instance : Keyed RewriteTask Uuid := ⟨RewriteTask.id⟩
instance : Keyed CreativePreset Uuid := ⟨CreativePreset.id⟩
instance : Keyed AnalysisRecord Uuid := ⟨AnalysisRecord.id⟩
instance : Keyed SuggestionRecord Uuid := ⟨SuggestionRecord.id⟩
instance : Keyed ScriptVersion Uuid := ⟨ScriptVersion.id⟩
instance : Keyed LockedFragment Uuid := ⟨LockedFragment.id⟩
instance : Keyed AiOperation Uuid := ⟨AiOperation.id⟩

/-- The database: the tables the task module reads and writes. -/
structure Db where
  members : Table Member
  providers : Table ProviderSetting
  tasks : Table RewriteTask := .empty
  presets : Table CreativePreset := .empty
  analyses : Table AnalysisRecord := .empty
  suggestions : Table SuggestionRecord := .empty
  versions : Table ScriptVersion := .empty
  locks : Table LockedFragment := .empty
  operations : Table AiOperation := .empty

/-! ## Changes of a row -/

/-- What an ORM attribute contributes to a flush: a column is written only where the value
assigned differs from the value that was loaded. -/
def assign {α : Type} [DecidableEq α] (loaded new : α) : Option α :=
  if new = loaded then none else some new

/-- The columns of a task an `UPDATE` sets. -/
structure TaskChange where
  name : Option Text := none
  sourceText : Option Text := none
  creativeSettings : Option (Option CreativeSettings) := none
  state : Option TaskState := none
  archivedFromState : Option (Option TaskState) := none
  finalizedAt : Option (Option ℕ) := none
  deriving DecidableEq

/-- The `UPDATE` of one row; without a changed column none is sent. -/
def TaskChange.apply (c : TaskChange) (now : ℕ) (t : RewriteTask) : RewriteTask :=
  if c = {} then t
  else
    { t with
      name := c.name.getD t.name
      sourceText := c.sourceText.getD t.sourceText
      creativeSettings := c.creativeSettings.getD t.creativeSettings
      state := c.state.getD t.state
      archivedFromState := c.archivedFromState.getD t.archivedFromState
      finalizedAt := c.finalizedAt.getD t.finalizedAt
      updatedAt := now }

/-- What an error leaves in an operation. -/
structure OperationError where
  code : Text
  message : Text
  details : Json := .obj []

/-- The updates of an operation. -/
inductive OperationChange where
  /-- the claim of `_execute` -/
  | claim (now : ℕ)
  /-- the success of `_execute` -/
  | succeed (state : TaskState) (resource : ResourceType × Uuid) (request : Option Text)
      (now : ℕ)
  /-- `_record_failure` and `recover_stale_operations`: the operation ends in its initial
  state with an error -/
  | fail (status : AiOperationStatus) (error : OperationError) (now : ℕ)
  /-- `AiQueueService.cancel` -/
  | cancel (now : ℕ)
  /-- the clean-up of `AiQueueWorker.execute` -/
  | reject (error : OperationError) (now : ℕ)

/-- The columns an `UPDATE` of an operation sets. -/
def OperationChange.apply : OperationChange → AiOperation → AiOperation
  | .claim now, o => { o with status := .running, startedAt := some now }
  | .succeed state resource request now, o =>
      { o with
        status := .succeeded, completedTaskState := some state
        resourceType := some resource.1, resourceId := some resource.2
        providerRequestId := request, completedAt := some now }
  | .fail status error now, o =>
      { o with
        status := status, completedTaskState := some o.initialTaskState
        errorCode := some error.code, errorMessage := some error.message
        errorDetails := error.details, completedAt := some now }
  | .cancel now, o => { o with status := .cancelled, completedAt := some now }
  | .reject error now, o =>
      { o with
        status := .failed, errorCode := some error.code, errorMessage := some error.message
        errorDetails := error.details, completedAt := some now }

/-- The status an update leaves. -/
def OperationChange.status : OperationChange → AiOperationStatus
  | .claim _ => .running
  | .succeed .. => .succeeded
  | .fail status .. => status
  | .cancel _ => .cancelled
  | .reject .. => .failed

/-- What no update changes: who asked for what, and the states the task moves between. -/
def AiOperation.SameRequest (o o' : AiOperation) : Prop :=
  o'.id = o.id ∧ o'.ownerId = o.ownerId ∧ o'.taskId = o.taskId ∧ o'.kind = o.kind ∧
    o'.idempotencyKey = o.idempotencyKey ∧ o'.requestHash = o.requestHash ∧
    o'.requestPayload = o.requestPayload ∧ o'.initialTaskState = o.initialTaskState ∧
    o'.runningTaskState = o.runningTaskState

namespace OperationChange

@[simp] theorem apply_status (c : OperationChange) (o : AiOperation) :
    (c.apply o).status = c.status := by
  cases c <;> rfl

/-- No update of an operation changes its request. -/
theorem sameRequest_apply (c : OperationChange) (o : AiOperation) :
    o.SameRequest (c.apply o) := by
  cases c <;> exact ⟨rfl, rfl, rfl, rfl, rfl, rfl, rfl, rfl, rfl⟩

@[simp] theorem apply_id (c : OperationChange) (o : AiOperation) : (c.apply o).id = o.id :=
  (c.sameRequest_apply o).1

end OperationChange

namespace TaskChange

variable (c : TaskChange) (now : ℕ) (t : RewriteTask)

@[simp] theorem apply_id : (c.apply now t).id = t.id := by
  unfold apply; split <;> rfl

@[simp] theorem apply_ownerId : (c.apply now t).ownerId = t.ownerId := by
  unfold apply; split <;> rfl

@[simp] theorem apply_state : (c.apply now t).state = c.state.getD t.state := by
  rw [apply]
  split
  · rename_i h
    rw [h]
    rfl
  · rfl

@[simp] theorem apply_archivedFromState :
    (c.apply now t).archivedFromState = c.archivedFromState.getD t.archivedFromState := by
  rw [apply]
  split
  · rename_i h
    rw [h]
    rfl
  · rfl

@[simp] theorem apply_sourceText :
    (c.apply now t).sourceText = c.sourceText.getD t.sourceText := by
  rw [apply]
  split
  · rename_i h
    rw [h]
    rfl
  · rfl

@[simp] theorem apply_creativeSettings :
    (c.apply now t).creativeSettings = c.creativeSettings.getD t.creativeSettings := by
  rw [apply]
  split
  · rename_i h
    rw [h]
    rfl
  · rfl

end TaskChange

end DouyinCaption

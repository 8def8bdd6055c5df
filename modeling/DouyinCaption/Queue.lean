import DouyinCaption.Api

/-!
# The operation queue

`app/modules/tasks/ai_queue.py`: submitting, listing, cancelling, retrying and clearing.

`submit` is cut where others may come between: the lookup of the idempotency key, which
precedes the row lock; the lock with its refresh and the check for an active operation; the
checks and the commit under the lock; and the second lookup after an `IntegrityError`.
-/

namespace DouyinCaption

open Tables

/-- The arguments of a call of `submit`. -/
structure Submission where
  task : RewriteTask
  ownerId : Uuid
  kind : AiOperationKind
  payload : Payload
  idempotencyKey : Option Text
  requestId : Option Text

/-- The hash of a submission. -/
def Submission.hash (cfg : Config) (s : Submission) : Text :=
  requestHash cfg s.kind s.task.id s.payload.toJson

/-- The operations under the scope of an idempotency key. -/
def AiOperation.underKey (taskId ownerId : Uuid) (kind : AiOperationKind) (key : Text)
    (o : AiOperation) : Bool :=
  o.taskId = taskId && o.ownerId = ownerId && o.kind = kind && o.idempotencyKey = some key

/-- The error of a key that was used with other inputs. -/
def keyReused : ApiError := ⟨"idempotency_key_reused".toList, "重复请求的参数不一致".toList, 409, []⟩

/-- `_existing` -/
def existing (db : Db) (taskId ownerId : Uuid) (kind : AiOperationKind) (key : Option Text)
    (hash : Text) : Except ApiError (Option AiOperation) :=
  match key with
  | none => .ok none
  | some key =>
      match db.operations.scalar (AiOperation.underKey taskId ownerId kind key) with
      | none => .ok none
      | some o =>
          if o.requestHash = hash then .ok (some o)
          else .error keyReused

/-- The lookup of a submission. -/
def Submission.lookup (cfg : Config) (db : Db) (s : Submission) :
    Except ApiError (Option AiOperation) :=
  existing db s.task.id s.ownerId s.kind s.idempotencyKey (s.hash cfg)

/-- The task has an operation queued or running. -/
def Db.hasActive (db : Db) (taskId : Uuid) : Bool :=
  (db.operations.scalar fun o => o.taskId = taskId && o.isActive).isSome

/-- The error of a submission to an occupied task. -/
def submissionInProgress : ApiError where
  code := "ai_operation_in_progress".toList
  message := "该文案已有排队或执行中的任务".toList
  statusCode := 409

/-- The error of a submission to a task in another state. -/
def submissionInvalidState : ApiError where
  code := "invalid_task_state".toList
  message := "当前文案尚不能执行此操作".toList
  statusCode := 409

/-- The error of a submission without a model connection. -/
def providerSettingNotFound : ApiError where
  code := "provider_setting_not_found".toList
  message := "请先配置模型连接".toList
  statusCode := 409

/-- The error of a snapshot that does not match the stored suggestions. -/
def snapshotStale : ApiError where
  code := "suggestion_snapshot_stale".toList
  message := "方案已更新，请确认当前选择".toList
  statusCode := 409

/-- `_apply_suggestion_snapshot`: the snapshot must name the suggestions of the selected
analysis, each once. -/
def applySuggestionSnapshot (db : Db) (taskId : Uuid) (payload : Payload) :
    Except ApiError (List Write) :=
  match payload.analysisId with
  -- an analysis, or a revision of another scope
  | none => .ok []
  | some analysisId =>
      match db.analyses.scalar fun a => a.id = analysisId && a.taskId = taskId && a.isSelected with
      | none => .error snapshotStale
      | some _ =>
          let records := db.suggestionsOf taskId (some analysisId)
          let submitted := payload.decisions.map SuggestionDecisionSubmit.suggestionId
          if (∀ i ∈ submitted, i ∈ records.map SuggestionRecord.id) ∧
              (∀ r ∈ records, r.id ∈ submitted) then
            .ok [.applySnapshot taskId analysisId payload.decisions]
          else .error snapshotStale

/-- The operation a submission creates. -/
def Submission.operation (cfg : Config) (st : Stamp) (s : Submission) : AiOperation where
  id := st.id 0
  ownerId := s.ownerId
  taskId := s.task.id
  taskName := s.task.name
  kind := s.kind
  status := .queued
  idempotencyKey := s.idempotencyKey
  requestHash := s.hash cfg
  requestPayload := s.payload
  requestId := s.requestId
  initialTaskState := s.task.state
  runningTaskState := runningState s.kind
  createdAt := st.now

/-- The answer with an operation as it is stored. -/
def operationReply (id : Uuid) (db : Db) : Response :=
  match db.operations.get id with
  | none => .error internalServerError
  | some o => .ok (.operation o.view)

/-- `submit` under the row lock, up to its commit. The task is the refreshed one. -/
def Submission.finish (cfg : Config) (db : Db) (st : Stamp) (s : Submission) :
    Except ApiError Outcome := do
  ensure (assertTransition s.task.state (runningState s.kind) = .ok ()) submissionInvalidState
  ensure ((db.providers.scalar fun p => p.memberId = s.ownerId).isSome) providerSettingNotFound
  let snapshot ← applySuggestionSnapshot db s.task.id s.payload
  let op := s.operation cfg st
  return {
    writes := snapshot ++ [.addOperation op,
      .setTask s.task.id { state := assign s.task.state op.runningTaskState } st.now]
    reply := operationReply op.id }

/-- `submit` after an `IntegrityError`. -/
def Submission.afterIntegrityError (cfg : Config) (db : Db) (s : Submission) : Response :=
  match s.lookup cfg db with
  | .error e => .error e
  | .ok (some o) => .ok (.operation o.view)
  | .ok none => .error submissionInProgress

/-- The error of a missing operation. -/
def operationNotFound : ApiError := ⟨"operation_not_found".toList, "任务不存在".toList, 404, []⟩

/-- `owned` -/
def Db.ownedOperation (db : Db) (ownerId operationId : Uuid) : Except ApiError AiOperation :=
  match db.operations.scalar fun o => o.id = operationId && o.ownerId = ownerId with
  | none => .error operationNotFound
  | some o => .ok o

/-- `ORDER BY created_at, id` -/
def AiOperation.createdBefore (a b : AiOperation) : Prop :=
  a.createdAt < b.createdAt ∨ a.createdAt = b.createdAt ∧ a.id ≤ b.id

instance : DecidableRel AiOperation.createdBefore := fun _ _ =>
  inferInstanceAs (Decidable (_ ∨ _ ∧ _))

/-- `ORDER BY completed_at DESC, id`, a missing time first. -/
def AiOperation.completedAfter (a b : AiOperation) : Prop :=
  match a.completedAt, b.completedAt with
  | none, none => a.id ≤ b.id
  | none, some _ => True
  | some _, none => False
  | some m, some n => n < m ∨ m = n ∧ a.id ≤ b.id

instance : DecidableRel AiOperation.completedAfter := fun a b => by
  rw [AiOperation.completedAfter]
  split <;> infer_instance

/-- `list_owned` -/
def Db.listOperations (db : Db) (ownerId : Uuid) : List AiOperation :=
  (db.operations.select fun o => o.ownerId = ownerId && o.isActive).insertionSort
      AiOperation.createdBefore ++
    ((db.operations.select fun o => o.ownerId = ownerId && !o.isActive).insertionSort
      AiOperation.completedAfter).take 30

/-- The error of a cancellation that comes too late. -/
def operationNotQueued : ApiError where
  code := "operation_not_queued".toList
  message := "任务已开始或结束，无法取消排队".toList
  statusCode := 409

/-- `cancel` from its `UPDATE` on: `operation` and `task` are the loaded rows. -/
def finishCancel (db : Db) (st : Stamp) (operation : AiOperation) (task : Option RewriteTask) :
    Except ApiError Outcome :=
  match db.operations.scalar fun o => o.id = operation.id && o.status = .queued with
  | none => .error operationNotQueued
  | some _ =>
      .ok {
        writes := .setQueued operation.id (.cancel st.now) :: match task with
          | some task =>
              if task.state = operation.runningTaskState then
                [.setTask task.id
                  { state := assign task.state operation.initialTaskState } st.now]
              else []
          | none => []
        reply := operationReply operation.id }

/-- The error of a retry of an operation that is active or has succeeded. -/
def operationNotRetryable : ApiError where
  code := "operation_not_retryable".toList
  message := "只能重试失败或已取消的任务".toList
  statusCode := 409

/-- The error of a retry of an operation without stored inputs. -/
def operationInputsMissing : ApiError where
  code := "operation_inputs_missing".toList
  message := "请回到文案页面重新提交".toList
  statusCode := 409

/-- The error of a submission for a task of another member. -/
def submissionTaskNotFound : ApiError :=
  ⟨"task_not_found".toList, "文案不存在".toList, 404, []⟩

/-- `retry` up to its call of `submit`. -/
def retrySubmission (db : Db) (ownerId operationId : Uuid) (key : Option Text) :
    Except ApiError Submission := do
  let operation ← db.ownedOperation ownerId operationId
  ensure (operation.status = .failed ∨ operation.status = .cancelled) operationNotRetryable
  -- a payload that is the empty object
  ensure (operation.requestPayload ≠ .analysis ∨ operation.kind = .analysis)
    operationInputsMissing
  match db.tasks.get operation.taskId with
  | none => throw internalServerError
  | some task =>
      -- `PAYLOAD_TYPES[kind].model_validate`
      ensure (operation.requestPayload.kind = operation.kind) internalServerError
      ensure (task.ownerId = ownerId) submissionTaskNotFound
      return ⟨task, ownerId, operation.kind, operation.requestPayload, key, operation.requestId⟩

end DouyinCaption

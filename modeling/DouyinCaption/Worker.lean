import DouyinCaption.CallLock
import DouyinCaption.Router

/-!
# The worker

`AiQueueWorker.execute` of `app/modules/tasks/ai_worker.py` with the methods of
`TaskAiOperationService` it calls, cut at its awaits into phases, and the phases of
`AiQueueWorker.tick`.

A phase says what the coroutine is about to wait for. `JobPhase.transaction` gives the writes
that wait commits, `JobPhase.advance` the phase after it, and `onFault` and `onCancel` the
phase in which an exception or a cancellation delivered there is handled: the five exception
arms and the cancellation arm of `_execute`, and the outer arms of `execute`.

Three phases take several awaits in one step.

* `leased` is `get_owned_operation` and the `refresh` of the row it returns: only what the
  second reads is used.
* `admitted` is the claiming `UPDATE` and the commit: from the one to the other the row is
  locked, and nobody else sees the new status.
* `returned` is the statements of `persist` and the commit. What the statements write, others
  see only once it is committed. What they read (the highest number of an analysis of the
  task, the rows to deselect or to delete) changes only where another result for the same task
  is stored meanwhile. The row lock of the task is gone by then, so the step is faithful for
  runs in which the results of a task do not overlap: no result is stored of an operation that
  has ended (`Sys.InTurn`), or no operation is declared stale while a job executes it
  (`Sys.NoStale`). What depends on those reads is stated for such runs.
-/

namespace DouyinCaption

open Tables

/-! ## Phases -/

/-- What `_execute` holds under the member's lease: the operation and the task as its session
last loaded them, the inputs, and the lease. -/
structure Execution where
  op : AiOperation
  task : RewriteTask
  prepared : Prepared
  lease : MemberLease

/-- The arms of `_execute` that roll back and read the rows again. -/
inductive Arm where
  /-- `except Exception` -/
  | internal
  /-- `except asyncio.CancelledError` -/
  | cancelled
  deriving DecidableEq

/-- How a coroutine leaves the block of its lease. -/
inductive Exit where
  | returned
  | raised (error : OperationError)
  | cancelled

/-- What a job is about to do. -/
inductive JobPhase where
  /-- load the operation, its owner and its task -/
  | created
  /-- select the owner's stale operations -/
  | began (op : AiOperation) (task : RewriteTask)
  /-- load the tasks of the stale operations, then commit their recovery -/
  | recovering (op : AiOperation) (task : RewriteTask) (todo : List AiOperation)
      (found : List (AiOperation × Option RewriteTask))
  /-- make the queries of the operation -/
  | reading (op : AiOperation) (task : RewriteTask) (todo : List Query) (reads : Reads)
  /-- acquire the member's lease -/
  | ready (op : AiOperation) (task : RewriteTask) (prepared : Prepared)
  /-- read the operation again -/
  | leased (e : Execution)
  /-- refresh the task with its row lock -/
  | checked (e : Execution)
  /-- read the provider context -/
  | locked (e : Execution)
  /-- commit the claim -/
  | admitted (e : Execution) (model : Text)
  /-- send the model call -/
  | claimed (e : Execution) (model : Text)
  /-- wait for the answer -/
  | calling (e : Execution) (call : ModelCall)
  /-- store the result and commit -/
  | returned (e : Execution) (result : ServiceResult)
  /-- read the finished operation -/
  | succeeded (e : Execution)
  /-- commit `_record_failure` -/
  | failing (e : Execution) (failure : AiFailure)
  /-- rolled back: read the rows again -/
  | restoring (e : Execution) (arm : Arm)
  /-- commit `_record_failure` for the rows read again -/
  | restored (e : Execution) (arm : Arm) (op : Option AiOperation) (task : Option RewriteTask)
  /-- release the lease -/
  | leaving (lease : MemberLease) (exit : Exit)
  /-- the outer handler, rolled back: read the operation again -/
  | handling (error : OperationError)
  /-- commit the clean-up of the outer handler -/
  | sweeping (error : OperationError) (op : Option AiOperation)
  | done

/-- What a tick is about to do. -/
inductive TickPhase where
  /-- go through the owners of running operations, then read the active operations -/
  | owners (rest : List Uuid)
  /-- `recover_stale_operations` for one owner -/
  | recovering (rest : List Uuid) (todo : List AiOperation)
      (found : List (AiOperation × Option RewriteTask))
  /-- start jobs for the operations read, one for each owner -/
  | spawning (rows : List (Uuid × Uuid)) (seen : List Uuid)

/-- The job executes its operation: it has claimed it and is not done with it. -/
def JobPhase.executes : JobPhase → Bool
  | .claimed .. | .calling .. | .returned .. | .succeeded _ | .failing .. | .restoring ..
  | .restored .. => true
  | _ => false

/-- The job waits for the provider. -/
def JobPhase.isCalling : JobPhase → Bool
  | .calling .. => true
  | _ => false

/-- The lease the job holds. -/
def JobPhase.lease : JobPhase → Option MemberLease
  | .leased e | .checked e | .locked e | .admitted e _ | .claimed e _ | .calling e _
  | .returned e _ | .succeeded e | .failing e _ | .restoring e _ | .restored e .. =>
      some e.lease
  | .leaving lease _ => some lease
  | _ => none

/-- The task row the job keeps locked. -/
def JobPhase.rowLock : JobPhase → Option Uuid
  | .locked e | .admitted e _ => some e.task.id
  | _ => none

/-! ## The errors the outer handler stores -/

/-- The error of an exception that is no `TaskAiExecutionError`. -/
def unhandled : OperationError where
  code := "ai_operation_internal_error".toList
  message := "任务执行失败，请重试".toList
  details := .obj [Json.field "retryable" (.bool true)]

/-- The error of a `TaskAiExecutionError`. -/
def rejection (code message : String) : OperationError where
  code := code.toList
  message := message.toList
  details := .obj [Json.field "retryable" (.bool true)]

/-- The error the handler stores for an exception of the preparation. -/
def PreparationError.stored : PreparationError → OperationError
  | .execution e => { unhandled with code := e.code, message := e.message }
  | .value | .other => unhandled

/-- The error the handler would store for what `_execute` raises after a recorded error. -/
def OperationError.raised (e : OperationError) : OperationError :=
  { unhandled with code := e.code, message := e.message }

/-- What an arm raises after it has recorded the end. -/
def Arm.exit : Arm → Exit
  | .internal => .raised internalError.raised
  | .cancelled => .cancelled

/-- What an arm records. -/
def Arm.record : Arm → OperationError × AiOperationStatus
  | .internal => (internalError, .failed)
  | .cancelled => (cancelledError, .cancelled)

/-- The phase after the block of the lease. -/
def Exit.phase : Exit → JobPhase
  | .returned | .cancelled => .done
  | .raised e => .handling e

/-! ## Transactions -/

/-- The claim: `UPDATE … WHERE status = 'queued'` and the state of the task. -/
def claimWrites (e : Execution) (now : ℕ) : List Write :=
  [.setQueued e.op.id (.claim now),
    .setTask e.task.id { state := assign e.task.state (runningState e.op.kind) } now]

/-- The clean-up of the outer handler. -/
def sweepWrites (opId : Uuid) (op : Option AiOperation) (error : OperationError) (now : ℕ) :
    List Write :=
  (match op with
    | some o => [.resetTask o.taskId o.runningTaskState o.initialTaskState now]
    | none => []) ++ [.setQueued opId (.reject error now)]

/-- The operation is queued. -/
def Db.isQueued (db : Db) (opId : Uuid) : Bool :=
  (db.operations.scalar fun o => o.id = opId && o.status = .queued).isSome

/-- The writes the next await of a job commits; `none` where it commits nothing. -/
def JobPhase.transaction (db : Db) (st : Stamp) (opId : Uuid) : JobPhase → Option (List Write)
  | .recovering _ _ [] (f :: found) => some (recoverWrites st.now (f :: found))
  | .admitted e _ => if db.isQueued e.op.id then some (claimWrites e st.now) else none
  | .returned e result =>
      match persist db e.task.id st e.prepared result with
      | .ok (stored, resource) => some (successWrites e.task e.op result st.now stored resource)
      | .error _ => none
  | .failing e failure => some (recordFailure e.task e.op failure.error .failed st.now)
  | .restored _ arm (some op) (some task) =>
      -- only the generic arm looks at the status it has read
      if arm = .internal ∧ op.status = .succeeded then none
      else some (recordFailure task op arm.record.1 arm.record.2 st.now)
  | .sweeping error op => some (sweepWrites opId op error st.now)
  | _ => none

/-! ## The phase after an await -/

/-- The first reads of `execute`. -/
def JobPhase.begin (db : Db) (opId : Uuid) : JobPhase :=
  match db.operations.get opId with
  | none => .done
  | some op =>
      if op.status ≠ .queued then .done
      else if (db.members.get op.ownerId).any Member.isActive then
        match db.tasks.get op.taskId with
        | none => .handling unhandled
        | some task =>
            -- `PAYLOAD_TYPES[kind].model_validate`
            if op.requestPayload.kind = op.kind then .began op task else .handling unhandled
      else .handling (rejection "member_disabled" "账户已停用，任务未执行")

/-- The task of a stale operation, from the job's session: its own task is not read again. -/
def JobPhase.staleTask (db : Db) (task : RewriteTask) (o : AiOperation) : Option RewriteTask :=
  if o.taskId = task.id then some task else db.tasks.get o.taskId

/-- The phase after the await of a phase; `none` for an await that ends with a value of its
own (`acquire`, `context`, `answer`). -/
def JobPhase.advance (cfg : Config) (db : Db) (st : Stamp) (opId : Uuid) :
    JobPhase → Option JobPhase
  | .created => some (.begin db opId)
  | .began op task => some (.recovering op task (db.staleOperations op.ownerId st.now) [])
  | .recovering op task (o :: todo) found =>
      some (.recovering op task todo (found ++ [(o, staleTask db task o)]))
  | .recovering op task [] _ => some (.reading op task op.requestPayload.queries {})
  | .reading op task (q :: todo) reads =>
      match q.run db task.id op.requestPayload reads with
      | .ok reads' => some (.reading op task todo reads')
      | .error e => some (.handling e.stored)
  | .reading op task [] reads =>
      match assemble op.requestPayload reads with
      | .ok prepared => some (.ready op task prepared)
      | .error e => some (.handling e.stored)
  | .leased e =>
      match db.operations.get e.op.id with
      | none => some (.leaving e.lease (.raised (rejection "operation_not_found"
          "AI operation was not found")))
      | some o =>
          if o.status = .queued then some (.checked { e with op := o })
          else some (.leaving e.lease .returned)
  | .checked e =>
      match db.tasks.get e.task.id with
      | none => some (.leaving e.lease (.raised unhandled))
      | some t => some (.locked { e with task := t })
  | .admitted e model =>
      if db.isQueued e.op.id then some (.claimed e model) else some (.leaving e.lease .returned)
  | .claimed e model =>
      match invoke cfg e.task e.op.initialTaskState model e.prepared with
      | .ok call => some (.calling e call)
      | .error f => some (.failing e f)
  | .returned e result =>
      match persist db e.task.id st e.prepared result with
      | .ok _ => some (.succeeded e)
      | .error f => some (.failing e f)
  | .succeeded e => some (.leaving e.lease .returned)
  | .failing e failure => some (.leaving e.lease (.raised failure.error.raised))
  | .restoring e arm =>
      some (.restored e arm (db.operations.get e.op.id) (db.tasks.get e.task.id))
  | .restored e arm op _ =>
      if arm = .internal ∧ op.any (·.status = .succeeded) then some (.leaving e.lease .returned)
      else some (.leaving e.lease arm.exit)
  | .leaving _ exit => some exit.phase
  | .handling error => some (.sweeping error (db.operations.get opId))
  | .sweeping .. => some .done
  | .ready .. | .locked _ | .calling .. | .done => none

/-- What decrypting the stored key and checking the stored address come to. -/
inductive ProviderCheck where
  | accepted
  | keyRefused
  | urlRefused
  deriving DecidableEq

/-- The phase after `_provider_context` and the check of the task's state. -/
def JobPhase.context (db : Db) (check : ProviderCheck) (e : Execution) : JobPhase :=
  match db.providers.scalar fun p => p.memberId = e.op.ownerId with
  | none => .leaving e.lease (.raised (rejection "provider_not_configured"
      "Configure an API key, request URL and model before starting an AI operation"))
  | some setting =>
      match check with
      | .keyRefused => .leaving e.lease (.raised (rejection "provider_configuration_invalid"
          "The saved provider configuration must be replaced"))
      | .urlRefused => .leaving e.lease (.raised (rejection "provider_configuration_invalid"
          "The saved provider request URL is not allowed"))
      | .accepted =>
          if e.task.state ≠ e.op.runningTaskState then
            .leaving e.lease (.raised (rejection "invalid_task_state"
              "The queued task state no longer matches this operation"))
          else .admitted e setting.modelId

/-- The phase after the provider's answer. -/
def JobPhase.answer (e : Execution) (call : ModelCall) (r : Except AiError CompletionResult) :
    JobPhase :=
  match r with
  | .error err => .failing e (.failed err)
  | .ok response =>
      match call.resume response with
      | .ok result => .returned e result
      | .error f => .failing e f

/-- Where an exception raised by the await of a phase is handled. -/
def JobPhase.onFault : JobPhase → JobPhase
  | .created | .began .. | .recovering .. | .reading .. => .handling unhandled
  -- `AiLockUnavailableError`
  | .ready .. => .done
  | .leased e | .checked e | .locked e | .admitted e _ => .leaving e.lease (.raised unhandled)
  | .claimed e _ | .calling e _ | .returned e _ | .succeeded e => .restoring e .internal
  -- an exception in an arm is not caught by the other arms
  | .failing e _ | .restoring e _ | .restored e .. => .leaving e.lease (.raised unhandled)
  -- the lease swallows a `RedisError`
  | .leaving _ exit => exit.phase
  | .handling _ | .sweeping .. | .done => .done

/-- Where a `CancelledError` delivered at the await of a phase is handled. -/
def JobPhase.onCancel : JobPhase → JobPhase
  | .leased e | .checked e | .locked e | .admitted e _ => .leaving e.lease .cancelled
  | .claimed e _ | .calling e _ | .returned e _ | .succeeded e => .restoring e .cancelled
  | .failing e _ | .restoring e _ | .restored e .. => .leaving e.lease .cancelled
  | _ => .done

end DouyinCaption

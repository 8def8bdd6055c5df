import Mathlib.Tactic.Common
import DouyinCaption.Library.SchemaChanges
import DouyinCaption.Models

/-!
# Rolling back the durable queue

`downgrade` of the revision `e064b2c8d315` of `src/backend/alembic/versions`. The older
application knows no queued operations, so `downgrade` cancels them. It does not touch the tasks
that wait for them: such a task stays in its running state, without an operation that would end
and with no transition out of it (`none_stranded_iff`). `AiQueueService.cancel`, which cancels
a queued operation too, puts its task back.
-/

namespace DouyinCaption.DurableAiQueue

open Tables

/-! ## The two schemas -/

/-- The columns of `ai_operations` the revision leaves alone. -/
structure OperationColumns where
  id : Uuid
  ownerId : Uuid
  taskId : Uuid
  kind : AiOperationKind
  status : AiOperationStatus
  idempotencyKey : Option Text
  requestHash : Text
  initialTaskState : TaskState
  runningTaskState : TaskState
  completedTaskState : Option TaskState := none
  resourceType : Option ResourceType := none
  resourceId : Option Uuid := none
  errorCode : Option Text := none
  errorMessage : Option Text := none
  errorDetails : Json := .obj []
  providerRequestId : Option Text := none
  completedAt : Option ℕ := none
  createdAt : ℕ
  updatedAt : ℕ

/-- A row with the columns the revision adds, and `started_at` nullable. -/
structure DurableOperation extends OperationColumns where
  requestPayload : Json
  taskName : Text
  startedAt : Option ℕ

/-- A row without them. -/
structure ImmediateOperation extends OperationColumns where
  startedAt : ℕ

instance : Keyed DurableOperation Uuid := ⟨fun o => o.id⟩
instance : Keyed ImmediateOperation Uuid := ⟨fun o => o.id⟩

/-- The tasks and operations after the revision, with the constraints between them. -/
structure DurableDatabase where
  tasks : Table RewriteTask
  operations : Table DurableOperation
  /-- the foreign key of `task_id` -/
  placed : ∀ o ∈ operations.rows, ∃ t ∈ tasks.rows, t.id = o.taskId
  /-- `uq_ai_operations_active_task` -/
  active : ∀ o ∈ operations.rows, ∀ o' ∈ operations.rows, o.status.isActive = true →
    o'.status.isActive = true → o.taskId = o'.taskId → o = o'

/-- The tasks and operations before it. -/
structure ImmediateDatabase where
  tasks : Table RewriteTask
  operations : Table ImmediateOperation

/-! ## The statements -/

/-- `drop_column` of the two columns, and `alter_column` of `started_at` to `NOT NULL` -/
def DurableOperation.dropColumns (o : DurableOperation) : Option ImmediateOperation :=
  o.startedAt.map fun startedAt => { o.toOperationColumns with startedAt }

theorem dropColumns_key (o : DurableOperation) (o' : ImmediateOperation)
    (h : o.dropColumns = some o') : Keyed.key o' = Keyed.key o := by
  obtain ⟨startedAt, -, rfl⟩ := Option.map_eq_some_iff.mp h
  rfl

/-- `downgrade`; the unique index that it drops first constrains nothing any more. -/
def downgrade (now : ℕ) (d : DurableDatabase) : Option ImmediateDatabase := do
  let operations := d.operations.update (·.startedAt.isNone) fun o =>
    { o with startedAt := some o.createdAt }
  let operations := operations.update (·.status = .queued) fun o =>
    { o with status := .cancelled, completedAt := some now }
  let operations ← operations.alter DurableOperation.dropColumns dropColumns_key
  some ⟨d.tasks, operations⟩

/-! ## What they leave -/

/-- A task is in a running state exactly when it has a queued or running operation whose running
state it is. -/
def DurableDatabase.InStep (d : DurableDatabase) : Prop :=
  ∀ t ∈ d.tasks, t.state.isRunning = true ↔
    ∃ o ∈ d.operations, o.taskId = t.id ∧ o.status.isActive = true ∧ o.runningTaskState = t.state

/-- No task is stranded: a task in a running state has a running operation, the task of a
cancelled operation is back in the state it came from, and every operation has started. -/
structure NoneStranded (d : DurableDatabase) (d' : ImmediateDatabase) : Prop where
  running : ∀ t ∈ d'.tasks, t.state.isRunning = true →
    ∃ o ∈ d'.operations, o.taskId = t.id ∧ o.status = .running
  cancelled : ∀ o ∈ d.operations, o.status = .queued → ∀ t ∈ d'.tasks, t.id = o.taskId →
    t.state = o.initialTaskState
  started : ∀ o ∈ d.operations, ∃ o' ∈ d'.operations,
    o'.id = o.id ∧ o'.startedAt = o.startedAt.getD o.createdAt

namespace DurableOperation

/-- What the first `UPDATE` makes of a row. -/
def started (o : DurableOperation) : DurableOperation :=
  if o.startedAt.isNone then { o with startedAt := some o.createdAt } else o

/-- What the second one makes of it. -/
def cancelled (now : ℕ) (o : DurableOperation) : DurableOperation :=
  if o.status = .queued then { o with status := .cancelled, completedAt := some now } else o

/-- What `downgrade` makes of it. -/
def downgraded (now : ℕ) (o : DurableOperation) : ImmediateOperation :=
  { o.toOperationColumns with
    status := if o.status = .queued then .cancelled else o.status
    completedAt := if o.status = .queued then some now else o.completedAt
    startedAt := o.startedAt.getD o.createdAt }

/-- After the first `UPDATE` no `started_at` is null. -/
theorem dropColumns_updated (now : ℕ) (o : DurableOperation) :
    (o.started.cancelled now).dropColumns = some (o.downgraded now) := by
  rw [started, downgraded]
  rcases o with ⟨columns, payload, name, _ | startedAt⟩ <;>
    by_cases hq : columns.status = .queued <;> simp [cancelled, dropColumns, hq]

end DurableOperation

/-- `downgrade` succeeds, leaves the tasks as they are and rewrites the operations one by one. -/
theorem downgrade_spec (now : ℕ) (d : DurableDatabase) :
    ∃ d', downgrade now d = some d' ∧ d'.tasks = d.tasks ∧
      d'.operations.rows = d.operations.rows.map (·.downgraded now) := by
  let updated := (d.operations.update (·.startedAt.isNone) fun o =>
    { o with startedAt := some o.createdAt }).update (·.status = .queued) fun o =>
      { o with status := .cancelled, completedAt := some now }
  have hrows : updated.rows = d.operations.rows.map fun o => o.started.cancelled now := by
    simp only [updated, Table.update, List.map_map, decide_eq_true_eq]
    rfl
  obtain ⟨operations, hops⟩ := Table.exists_alter (t := updated) dropColumns_key (by
    intro o ho
    rw [Table.mem_def, hrows] at ho
    obtain ⟨o, -, rfl⟩ := List.mem_map.mp ho
    exact ⟨_, o.dropColumns_updated now⟩)
  refine ⟨⟨d.tasks, operations⟩, ?_, rfl, ?_⟩
  · rw [downgrade, hops]
    rfl
  · have hall := Table.alter_eq_some.mp hops
    rw [hrows, List.forall₂_map_left_iff] at hall
    have heq : List.Forall₂ Eq (d.operations.rows.map (·.downgraded now)) operations.rows := by
      rw [List.forall₂_map_left_iff]
      exact hall.imp fun o o' h => Option.some.inj ((o.dropColumns_updated now).symm.trans h)
    exact (List.forall₂_eq_eq_eq ▸ heq).symm

section Downgrade

variable {now : ℕ} {d : DurableDatabase} {d' : ImmediateDatabase}

/-- An operation that runs afterwards ran before. -/
theorem running_of_downgraded {o : DurableOperation} :
    (o.downgraded now).status = .running ↔ o.status = .running := by
  rw [DurableOperation.downgraded]
  by_cases hq : o.status = .queued
  · simp [hq]
  · simp [hq]

end Downgrade

/-- **When the rollback strands no task.** From a database in which the tasks are in step with
their operations `downgrade` succeeds, and it strands no task exactly when no operation is queued
but for one whose task does not wait for it: it is in the state the operation came from, and not
in its running state. -/
theorem none_stranded_iff (now : ℕ) (d : DurableDatabase) (hd : d.InStep) :
    ∃ d', downgrade now d = some d' ∧
      (NoneStranded d d' ↔ ∀ o ∈ d.operations, o.status = .queued → ∀ t ∈ d.tasks,
        t.id = o.taskId → t.state ≠ o.runningTaskState ∧ t.state = o.initialTaskState) := by
  obtain ⟨d', hd', htasks, hops⟩ := downgrade_spec now d
  have hmem : ∀ o', o' ∈ d'.operations ↔ ∃ o ∈ d.operations, o.downgraded now = o' := by
    intro o'
    rw [Table.mem_def, hops, List.mem_map]
    rfl
  refine ⟨d', hd', fun h o ho hq t ht hid => ⟨fun hstate => ?_, ?_⟩, fun h => ⟨?_, ?_, ?_⟩⟩
  · -- the task waits for the operation, and no other is active on it
    have hrun : t.state.isRunning = true :=
      (hd t ht).mpr ⟨o, ho, hid.symm, by rw [hq]; rfl, hstate.symm⟩
    obtain ⟨o', ho', htask, hstatus⟩ := h.running t (htasks ▸ ht) hrun
    obtain ⟨o₀, ho₀, rfl⟩ := (hmem o').mp ho'
    have hstatus : o₀.status = .running := running_of_downgraded.mp hstatus
    have hsame : o₀.taskId = o.taskId := Eq.trans htask hid
    obtain rfl := d.active o₀ ho₀ o ho (by rw [hstatus]; rfl) (by rw [hq]; rfl) hsame
    cases hstatus.symm.trans hq
  · exact h.cancelled o ho hq t (htasks ▸ ht) hid
  · intro t ht hrun
    rw [htasks] at ht
    obtain ⟨o, ho, htask, hactive, hstate⟩ := (hd t ht).mp hrun
    refine ⟨o.downgraded now, (hmem _).mpr ⟨o, ho, rfl⟩, htask, running_of_downgraded.mpr ?_⟩
    cases hs : o.status with
    | queued => exact absurd hstate.symm (h o ho hs t ht htask.symm).1
    | running => rfl
    | succeeded | failed | cancelled =>
      rw [hs] at hactive
      cases hactive
  · intro o ho hq t ht hid
    exact (h o ho hq t (htasks ▸ ht) hid).2
  · exact fun o ho => ⟨o.downgraded now, (hmem _).mpr ⟨o, ho, rfl⟩, rfl, rfl⟩

/-- The analysis of a task that was a draft. -/
def analysis (id taskId : Uuid) (status : AiOperationStatus) : DurableOperation where
  id := id
  ownerId := 9
  taskId := taskId
  kind := .analysis
  status := status
  idempotencyKey := none
  requestHash := []
  initialTaskState := .draft
  runningTaskState := .analyzing
  createdAt := 3
  updatedAt := 3
  requestPayload := .obj []
  taskName := "t".toList
  startedAt := none

/-- A task in a state. -/
def task (id : Uuid) (state : TaskState) : RewriteTask :=
  ⟨id, 9, "t".toList, "s".toList, none, state, none, none, 0, 0⟩

/-- Task 1 is being analysed, task 2 does not wait for its queued operation, and task 3 has been
analysed. -/
def settled : DurableDatabase where
  tasks := ⟨[task 1 .analyzing, task 2 .draft, task 3 .analysisReady], by decide⟩
  operations := ⟨[analysis 11 1 .running, analysis 12 2 .queued, analysis 13 3 .succeeded],
    by decide⟩
  placed := by simp [analysis, task]
  active := by simp [analysis]

theorem settled_inStep : settled.InStep := by
  have hall : ∀ t ∈ settled.tasks.rows, t.state.isRunning = true ↔
      ∃ o ∈ settled.operations.rows, o.taskId = t.id ∧ o.status.isActive = true ∧
        o.runningTaskState = t.state := by decide
  exact hall

/-- With a running operation, a queued one whose task does not wait for it and a finished one
no task is stranded. -/
theorem none_stranded_iff_running :
    ∃ d', downgrade 5 settled = some d' ∧ NoneStranded settled d' := by
  obtain ⟨d', hd', h⟩ := none_stranded_iff 5 settled settled_inStep
  have hcond : ∀ o ∈ settled.operations.rows, o.status = .queued → ∀ t ∈ settled.tasks.rows,
      t.id = o.taskId → t.state ≠ o.runningTaskState ∧ t.state = o.initialTaskState := by decide
  exact ⟨d', hd', h.mpr hcond⟩

/-- One task, analyzing, with one queued operation. -/
def waiting : DurableDatabase where
  tasks := ⟨[task 1 .analyzing], by simp⟩
  operations := ⟨[analysis 2 1 .queued], by simp⟩
  placed := by simp [analysis, task]
  active := by simp

theorem waiting_inStep : waiting.InStep := by
  intro t ht
  obtain rfl := List.mem_singleton.mp ht
  exact ⟨fun _ => ⟨_, List.mem_singleton_self _, rfl, rfl, rfl⟩, fun _ => rfl⟩

/-- With such an operation its task is stranded. -/
theorem stranded_of_queued :
    ¬ ∀ (now : ℕ) (d : DurableDatabase), d.InStep →
      ∃ d', downgrade now d = some d' ∧ NoneStranded d d' := by
  intro h
  obtain ⟨d', hd', hkept⟩ := h 5 waiting waiting_inStep
  obtain ⟨d₁, hd₁, htasks, -⟩ := downgrade_spec 5 waiting
  obtain rfl := Option.some.inj (hd'.symm.trans hd₁)
  obtain ⟨t, ht, hid⟩ := waiting.placed _ (List.mem_singleton_self _)
  have hback := hkept.cancelled _ (List.mem_singleton_self _) rfl t (htasks ▸ ht) hid
  obtain rfl := List.mem_singleton.mp ht
  cases hback

end DouyinCaption.DurableAiQueue

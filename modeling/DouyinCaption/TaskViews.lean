import DouyinCaption.Effects
import DouyinCaption.TaskFlow
import DouyinCaption.TaskService

/-!
# Tasks as the workflow sees them

The desk of a task is its state with the operation that is active on it (`Db.desk`). A statement
changes a desk in a way that needs nothing else of the database (`Write.onDesk`,
`Write.desk_of_apply`), so that what a transaction makes of a task can be read off its
statements.
-/

namespace DouyinCaption

open Tables

/-- The state of a task and the operation that is active on it. -/
structure Desk where
  row : Option TaskSnapshot
  work : Option AiOperation

/-- The active operation of a task. -/
def Db.activeOperation (db : Db) (taskId : Uuid) : Option AiOperation :=
  db.operations.scalar fun o => o.taskId = taskId && o.isActive

/-- The desk of a task. -/
def Db.desk (db : Db) (taskId : Uuid) : Desk :=
  ⟨(db.tasks.get taskId).map RewriteTask.snapshot, db.activeOperation taskId⟩

/-- The desk as the workflow sees it. -/
def Desk.view (d : Desk) : Option TaskView :=
  d.row.map fun r =>
    ⟨r.state, r.archivedFromState, d.work.map fun o => (o.kind, o.initialTaskState)⟩

/-- The task as the workflow sees it. -/
def Db.view (db : Db) (taskId : Uuid) : Option TaskView := (db.desk taskId).view

/-- The snapshot after the flush of a task. -/
def TaskChange.onSnapshot (c : TaskChange) (r : TaskSnapshot) : TaskSnapshot :=
  ⟨c.state.getD r.state, c.archivedFromState.getD r.archivedFromState⟩

@[simp] theorem TaskChange.snapshot_apply (c : TaskChange) (now : ℕ) (t : RewriteTask) :
    (c.apply now t).snapshot = c.onSnapshot t.snapshot := by
  rw [RewriteTask.snapshot, TaskChange.apply_state, TaskChange.apply_archivedFromState]
  rfl

/-- What a statement makes of the desk of a task. -/
def Write.onDesk (taskId : Uuid) (d : Desk) : Write → Desk
  | .setTask id change _ => if id = taskId then { d with row := d.row.map change.onSnapshot } else d
  | .resetTask id expected restored _ =>
      if id = taskId then
        { d with row := d.row.map fun r =>
            if r.state = expected then { r with state := restored } else r }
      else d
  | .setOperation id _ => { d with work := d.work.filter fun o => o.id ≠ id }
  | .setQueued id change =>
      { d with
        work := d.work.bind fun o =>
          if o.id = id ∧ o.status = .queued then
            if change.status.isActive then some (change.apply o) else none
          else some o }
  | _ => d

section Desks

variable {taskId id : Uuid} {d : Desk} {change : OperationChange} {row : Option TaskSnapshot}
  {o : AiOperation}

/-- An update of another operation. -/
theorem onDesk_setOperation_of_ne (h : ∀ w, d.work = some w → w.id ≠ id) :
    (Write.setOperation id change).onDesk taskId d = d := by
  obtain ⟨row, work⟩ := d
  cases work with
  | none => rfl
  | some w => simp [Write.onDesk, Option.filter, h w rfl]

/-- An update of another operation, or of one that is queued no more, changes no desk. -/
theorem onDesk_setQueued_of_ne (h : ∀ w, d.work = some w → w.id ≠ id ∨ w.status ≠ .queued) :
    (Write.setQueued id change).onDesk taskId d = d := by
  obtain ⟨row, work⟩ := d
  cases work with
  | none => rfl
  | some w =>
    have hnot : ¬ (w.id = id ∧ w.status = .queued) := fun hw => (h w rfl).elim (· hw.1) (· hw.2)
    simp [Write.onDesk, hnot]

/-- The end of the operation at work. -/
theorem onDesk_setOperation_self :
    (Write.setOperation o.id change).onDesk taskId ⟨row, some o⟩ = ⟨row, none⟩ := by
  simp [Write.onDesk, Option.filter]

/-- The end of a queued operation clears the desk. -/
theorem onDesk_setQueued_self (hqueued : o.status = .queued)
    (hact : change.status.isActive = false) :
    (Write.setQueued o.id change).onDesk taskId ⟨row, some o⟩ = ⟨row, none⟩ := by
  simp [Write.onDesk, hqueued, hact]

theorem onDesk_setTask_of_ne {change : TaskChange} {now : ℕ} (h : taskId ≠ id) :
    (Write.setTask id change now).onDesk taskId d = d := if_neg (Ne.symm h)

/-- An update of the task puts it on its desk anew. -/
theorem onDesk_setTask_self {change : TaskChange} {now : ℕ} {r : TaskSnapshot}
    {work : Option AiOperation} :
    (Write.setTask id change now).onDesk id ⟨some r, work⟩ = ⟨some (change.onSnapshot r), work⟩ :=
  if_pos rfl

end Desks

/-- A statement that adds no task and no operation, and makes no operation active. -/
def Write.Works : Write → Prop
  | .addTask _ | .addOperation _ => False
  | .setOperation _ change => change.status.isActive = false
  | _ => True

/-- No task has two active operations. -/
def Db.Single (db : Db) : Prop :=
  ∀ a ∈ db.operations, ∀ b ∈ db.operations, a.isActive = true → b.isActive = true →
    a.taskId = b.taskId → a = b

/-- The unique index leaves one active operation for each task. -/
theorem Db.Consistent.single {db : Db} (h : db.Consistent) : db.Single := by
  intro a ha b hb hact hact' htask
  by_contra hne
  exact (Table.pairwise_iff fun a b (hab : ActiveClash a b) =>
    ⟨hab.1.symm, hab.2.2, hab.2.1⟩).mp h.active a ha b hb hne ⟨htask, hact, hact'⟩

section Statements

variable {db db' : Db} {w : Write} {taskId : Uuid}

/-- The active operation is stored, active and of the task. -/
theorem Db.activeOperation_eq_some {o : AiOperation} (h : db.activeOperation taskId = some o) :
    o ∈ db.operations ∧ o.taskId = taskId ∧ o.isActive = true := by
  obtain ⟨hm, hsel⟩ := Table.scalar_some h
  simp only [Bool.and_eq_true, decide_eq_true_eq] at hsel
  exact ⟨hm, hsel⟩

/-- An active operation is the one its task has. -/
theorem Db.Single.activeOperation (hs : db.Single) {o : AiOperation} (ho : o ∈ db.operations)
    (hact : o.isActive = true) : db.activeOperation o.taskId = some o := by
  refine Table.scalar_of_unique ho (by simp [hact]) fun b hb hsel => ?_
  simp only [Bool.and_eq_true, decide_eq_true_eq] at hsel
  exact hs b hb o ho hsel.2 hact hsel.1

theorem Db.activeOperation_eq_none :
    db.activeOperation taskId = none ↔ db.hasActive taskId = false := by
  rw [Db.hasActive, Option.isSome_eq_false_iff, Option.isNone_iff_eq_none]
  rfl

/-- The selection of active operations has one row at most. -/
theorem Db.Single.unique (hs : db.Single) (taskId : Uuid) : ∀ a ∈ db.operations,
    ∀ b ∈ db.operations, (decide (a.taskId = taskId) && a.isActive) = true →
      (decide (b.taskId = taskId) && b.isActive) = true → a = b := by
  intro a ha b hb hsel hsel'
  simp only [Bool.and_eq_true, decide_eq_true_eq] at hsel hsel'
  exact hs a ha b hb hsel.2 hsel'.2 (hsel.1.trans hsel'.1.symm)

/-- Rows that are changed without becoming active stay alone on their tasks. -/
theorem Db.Single.update (hs : db.Single) {p : AiOperation → Bool} {c : OperationChange}
    (hc : ∀ o, p o = true → (c.apply o).isActive = true → o.isActive = true) :
    Db.Single { db with operations := db.operations.update p c.apply fun _ => c.apply_id _ } := by
  have hrow : ∀ o : AiOperation, (if p o then c.apply o else o).isActive = true →
      o.isActive = true := by
    intro o ho
    split at ho
    · rename_i hp
      exact hc o hp ho
    · exact ho
  have htask : ∀ o : AiOperation, (if p o then c.apply o else o).taskId = o.taskId := by
    intro o
    split
    · rw [(c.sameRequest_apply o).taskId]
    · rfl
  intro a ha b hb hact hact' he
  dsimp only at ha hb
  obtain ⟨a₀, ha₀, rfl⟩ := Table.mem_update.mp ha
  obtain ⟨b₀, hb₀, rfl⟩ := Table.mem_update.mp hb
  rw [htask, htask] at he
  rw [hs a₀ ha₀ b₀ hb₀ (hrow a₀ hact) (hrow b₀ hact') he]

/-- An operation that ends leaves its task. -/
theorem Db.Single.activeOperation_end (hs : db.Single) {id : Uuid} {c : OperationChange}
    (hact : c.status.isActive = false) :
    Db.activeOperation { db with
      operations :=
        db.operations.update (fun o => o.id = id) c.apply fun _ => c.apply_id _ } taskId =
      (db.activeOperation taskId).filter fun o => o.id ≠ id := by
  have hends : ∀ o : AiOperation, (c.apply o).isActive = false := fun o => by
    rw [AiOperation.isActive, OperationChange.apply_status, hact]
  have hscalar := @Table.scalar_update AiOperation Uuid _ db.operations (fun o => o.id = id)
    (fun o => o.taskId = taskId && o.isActive) c.apply (fun _ => c.apply_id _)
    (fun o _ _ ho => absurd ho (by simp [hends o])) (hs.unique taskId)
  rw [Db.activeOperation, hscalar, Db.activeOperation]
  rcases db.operations.scalar _ with _ | o
  · rfl
  · by_cases ho : o.id = id <;> simp [ho, hends, Option.filter]

/-- A queued operation that is claimed stays at its task, and leaves it otherwise. -/
theorem Db.Single.activeOperation_queued (hs : db.Single) {id : Uuid} {c : OperationChange} :
    Db.activeOperation { db with
      operations := db.operations.update (fun o => o.id = id && o.status = .queued) c.apply
        fun _ => c.apply_id _ } taskId =
      (db.activeOperation taskId).bind fun o =>
        if o.id = id ∧ o.status = .queued then
          if c.status.isActive then some (c.apply o) else none
        else some o := by
  have hqueued : ∀ o : AiOperation, (decide (o.id = id) && decide (o.status = .queued)) = true →
      o.isActive = true := by
    intro o ho
    simp only [Bool.and_eq_true, decide_eq_true_eq] at ho
    rw [AiOperation.isActive, ho.2]
    rfl
  have hscalar := @Table.scalar_update AiOperation Uuid _ db.operations
    (fun o => o.id = id && o.status = .queued) (fun o => o.taskId = taskId && o.isActive) c.apply
    (fun _ => c.apply_id _) (fun o _ ho hsel => by
      rw [(c.sameRequest_apply o).taskId] at hsel
      simp only [Bool.and_eq_true, decide_eq_true_eq] at hsel ⊢
      exact ⟨hsel.1, hqueued o ho⟩) (hs.unique taskId)
  rw [Db.activeOperation, hscalar, Db.activeOperation]
  rcases hfound : db.operations.scalar _ with _ | o
  · rfl
  · have hsel := (Table.scalar_some hfound).2
    simp only [Bool.and_eq_true, decide_eq_true_eq] at hsel
    simp [AiOperation.isActive, (c.sameRequest_apply o).taskId, hsel.1]

/-- The row of a task after its state was put back. -/
theorem get_reset {tasks : Table RewriteTask} {id : Uuid} {expected restored : TaskState}
    {now : ℕ} :
    ((tasks.update (fun t => t.id = id && t.state = expected)
      (RewriteTask.reset restored now)).get taskId).map RewriteTask.snapshot =
      if id = taskId then ((tasks.get taskId).map RewriteTask.snapshot).map fun r =>
        if r.state = expected then { r with state := restored } else r
      else (tasks.get taskId).map RewriteTask.snapshot := by
  have hupdate := @Table.get_update RewriteTask Uuid _ _ tasks
    (fun t => t.id = id && t.state = expected) (RewriteTask.reset restored now) (fun _ => rfl)
    taskId
  rw [hupdate]
  rcases hget : tasks.get taskId with _ | t
  · simp
  · obtain rfl : t.id = taskId := (Table.get_eq_some.mp hget).2
    by_cases hid : id = t.id
    · subst hid
      by_cases hstate : t.state = expected
      · simp [hstate, RewriteTask.snapshot, RewriteTask.reset]
      · simp [hstate, RewriteTask.snapshot]
    · have hid' : t.id ≠ id := fun he => hid he.symm
      simp [hid, hid']

/-- **A statement changes the desk of a task as its definition on desks says.** -/
theorem Write.desk_of_apply (hs : db.Single) (hw : w.Works) (h : w.apply db = some db') :
    db'.desk taskId = w.onDesk taskId (db.desk taskId) ∧ db'.Single := by
  cases w with
  | addTask | addOperation => exact hw.elim
  | setTask id change now =>
    obtain ⟨_, -, rfl⟩ := Option.map_eq_some_iff.mp h
    refine ⟨?_, hs⟩
    simp only [Db.desk, Write.onDesk, Table.get_update, Option.map_map]
    rcases hget : db.tasks.get taskId with _ | t
    · simp [Db.activeOperation]
    · obtain rfl : t.id = taskId := (Table.get_eq_some.mp hget).2
      by_cases hid : id = t.id
      · subst hid
        simp [Db.activeOperation]
      · have hid' : t.id ≠ id := fun he => hid he.symm
        simp [hid, hid', Db.activeOperation]
  | resetTask id expected restored now =>
    obtain rfl := Option.some.inj h
    refine ⟨?_, hs⟩
    simp only [Db.desk, Write.onDesk, get_reset]
    by_cases hid : id = taskId <;> simp [hid, Db.activeOperation]
  | setOperation id change =>
    obtain ⟨_, -, rfl⟩ := Option.map_eq_some_iff.mp h
    have hact : change.status.isActive = false := hw
    refine ⟨?_, hs.update fun o _ ho => absurd ho ?_⟩
    · simp only [Db.desk, Write.onDesk, hs.activeOperation_end hact]
    · rw [AiOperation.isActive, OperationChange.apply_status, hact]
      exact Bool.false_ne_true
  | setQueued id change =>
    obtain rfl := Option.some.inj h
    refine ⟨?_, hs.update fun o ho _ => ?_⟩
    · simp only [Db.desk, Write.onDesk, hs.activeOperation_queued]
    · simp only [Bool.and_eq_true, decide_eq_true_eq] at ho
      rw [AiOperation.isActive, ho.2]
      rfl
  | clearHistory ownerId =>
    obtain rfl := Option.some.inj h
    refine ⟨?_, fun a ha b hb => hs a (Table.mem_delete.mp ha).1 b (Table.mem_delete.mp hb).1⟩
    simp only [Db.desk, Db.activeOperation, Write.onDesk]
    congr 1
    rw [Table.scalar_eq_head?, Table.scalar_eq_head?, Table.select_delete_of_not fun o _ ho => by
      simp only [Bool.and_eq_true] at ho
      simp [ho.2]]
  | setAnalysis | decide | setFinal | setPreset =>
    obtain ⟨_, -, rfl⟩ := Option.map_eq_some_iff.mp h
    exact ⟨rfl, hs⟩
  | _ =>
    obtain rfl := Option.some.inj h
    exact ⟨rfl, hs⟩

/-- The desk after a list of statements, by induction on the list. -/
theorem Db.desk_of_foldlM {ws : List Write} : ∀ {db db' : Db}, db.Single →
    (∀ w ∈ ws, w.Works) → ws.foldlM Write.apply db = some db' →
      db'.desk taskId = ws.foldl (fun d w => w.onDesk taskId d) (db.desk taskId) := by
  induction ws with
  | nil =>
    intro db db' _ _ h
    obtain rfl := Option.some.inj h
    rfl
  | cons w ws ih =>
    intro db db' hs hw h
    rw [List.foldlM_cons] at h
    obtain ⟨db₁, h₁, h₂⟩ := Option.bind_eq_some_iff.mp h
    have hstep : db₁.desk taskId = w.onDesk taskId (db.desk taskId) ∧ db₁.Single :=
      Write.desk_of_apply hs (hw w List.mem_cons_self) h₁
    rw [ih hstep.2 (fun w' hw' => hw w' (List.mem_cons_of_mem _ hw')) h₂, List.foldl_cons, hstep.1]

end Statements

end DouyinCaption

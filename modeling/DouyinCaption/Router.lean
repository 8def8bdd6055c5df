import DouyinCaption.Queue
import DouyinCaption.TaskService

/-!
# The task endpoints

`app/modules/tasks/router.py` and `repository.py`. An endpoint is cut in three where other
requests and the worker may come between:

* `opening`, the reads before any lock, which answers a plain read at once;
* the row lock of the task with the check for an active operation (`_assert_no_active_ai`,
  or the refresh and the check of `submit`), for the endpoints that take it;
* `finish`, the rest up to the commit, deciding from the rows loaded by the opening.

`handle` runs the three against one database with nothing between them.
-/

namespace DouyinCaption

open Tables

/-- A request after its opening reads, with the rows they loaded. -/
inductive Pending where
  | createPreset (payload : PresetCreate)
  | updatePreset (preset : CreativePreset) (payload : PresetUpdate)
  | deletePreset (preset : CreativePreset)
  | createTask (payload : TaskCreate)
  | copyTask (source : RewriteTask)
  | updateTask (task : RewriteTask) (payload : TaskUpdate)
  | archiveTask (task : RewriteTask)
  | restoreTask (task : RewriteTask)
  | submit (s : Submission)
  | updateAnalysis (task : RewriteTask) (analysisId : Uuid) (payload : AnalysisCorrection)
  | updateSuggestion (task : RewriteTask) (suggestionId : Uuid) (payload : SuggestionUpdate)
  | manualEdit (parent : ScriptVersion) (task : RewriteTask) (payload : ManualEditCreate)
  | createLock (version : ScriptVersion) (task : RewriteTask) (payload : LockedFragmentCreate)
  | deleteLock (task : RewriteTask) (lockId : Uuid)
  | finalizeVersion (version : ScriptVersion) (task : RewriteTask)
  | clearHistory
  | cancelOperation (operation : AiOperation) (task : Option RewriteTask)

/-- The task a pending request locks, as its opening loaded it. -/
def Pending.task : Pending → Option RewriteTask
  | .updateTask task _ | .archiveTask task | .restoreTask task | .updateAnalysis task _ _
  | .updateSuggestion task _ _ | .manualEdit _ task _ | .createLock _ task _
  | .deleteLock task _ | .finalizeVersion _ task => some task
  | .submit s => some s.task
  | _ => none

/-- What the opening of a request leaves. -/
inductive Opening where
  | answer (r : Response)
  | pending (p : Pending)

/-! ## Errors -/

/-- `_task_not_found` -/
def taskNotFound : ApiError := ⟨"task_not_found".toList, "Task was not found".toList, 404, []⟩

/-- `_preset_not_found` -/
def presetNotFound : ApiError :=
  ⟨"preset_not_found".toList, "Preset was not found".toList, 404, []⟩

/-- `_version_not_found` -/
def versionNotFound : ApiError :=
  ⟨"version_not_found".toList, "Version was not found".toList, 404, []⟩

/-- The refusal of a missing analysis. -/
def analysisNotFound : ApiError :=
  ⟨"analysis_not_found".toList, "Analysis was not found".toList, 404, []⟩

/-- The refusal of `_assert_no_active_ai`. -/
def editInProgress : ApiError :=
  ⟨"ai_operation_in_progress".toList, "该文案有排队或执行中的任务，暂时无法修改".toList, 409, []⟩

/-- The refusal of a preset name that is taken. -/
def presetNameExists : ApiError := ⟨"preset_name_exists".toList, "已有同名预设".toList, 409, []⟩

/-- The refusal of a missing suggestion. -/
def suggestionNotFound : ApiError :=
  ⟨"suggestion_not_found".toList, "Suggestion was not found".toList, 404, []⟩

/-- The refusal of a missing lock. -/
def lockNotFound : ApiError :=
  ⟨"lock_not_found".toList, "Locked fragment was not found".toList, 404, []⟩

/-- The refusal of a missing operation by the read endpoint. -/
def aiOperationNotFound : ApiError :=
  ⟨"operation_not_found".toList, "AI operation was not found".toList, 404, []⟩

/-- The refusal of an export without a final version. -/
def finalVersionNotFound : ApiError :=
  ⟨"final_version_not_found".toList, "Task has no current final version".toList, 404, []⟩

/-- The refusal of an edit of a task that is no draft. -/
def taskNotEditable : ApiError :=
  ⟨"task_not_editable".toList,
    "Only draft tasks can change source text or creative settings".toList, 409, []⟩

/-- The refusal of a restore. -/
def taskNotRestorable : ApiError :=
  ⟨"task_not_restorable".toList,
    "Only an archived task with a previous state can be restored".toList, 409, []⟩

/-- The refusals for an archived task. -/
def taskArchived (message : String) : ApiError :=
  ⟨"task_archived".toList, message.toList, 409, []⟩

/-- The refusal of a manual edit before the first draft. -/
def firstDraftRequired : ApiError :=
  ⟨"first_draft_required".toList, "A manual edit requires a first draft".toList, 409, []⟩

/-- The refusal of a manual edit that loses a locked text. -/
def lockedTextChanged : ApiError :=
  ⟨"locked_text_changed".toList, "编辑内容改动了保留句，请先取消对应锁定。".toList, 409, []⟩

/-- The refusal of a selection outside its version. -/
def invalidSelection : ApiError :=
  ⟨"invalid_selection".toList, "Selection is outside the source version".toList, 400, []⟩

/-- The refusal of a lock that overlaps another. -/
def lockOverlap : ApiError :=
  ⟨"lock_overlap".toList, "Locked fragments cannot overlap".toList, 409, []⟩

/-! ## Owned rows -/

/-- `TaskRepository.get_owned`, as `_owned_task` reports it. -/
def Db.ownedTask (db : Db) (taskId ownerId : Uuid) : Except ApiError RewriteTask :=
  match db.tasks.scalar fun t => t.id = taskId && t.ownerId = ownerId with
  | none => .error taskNotFound
  | some t => .ok t

/-- `_owned_version`: the join with the task checks the owner. -/
def Db.ownedVersion (db : Db) (taskId versionId ownerId : Uuid) :
    Except ApiError ScriptVersion :=
  match db.versions.scalar fun v => v.id = versionId && v.taskId = taskId &&
      (db.tasks.scalar fun t => t.id = v.taskId && t.ownerId = ownerId).isSome with
  | none => .error versionNotFound
  | some v => .ok v

/-- `PresetRepository.get_owned` -/
def Db.ownedPreset (db : Db) (presetId ownerId : Uuid) : Except ApiError CreativePreset :=
  match db.presets.scalar fun p => p.id = presetId && p.ownerId = ownerId with
  | none => .error presetNotFound
  | some p => .ok p

/-- The analysis of a task with an identifier. -/
def Db.analysisOf (db : Db) (taskId analysisId : Uuid) : Except ApiError AnalysisRecord :=
  match db.analyses.scalar fun a => a.id = analysisId && a.taskId = taskId with
  | none => .error analysisNotFound
  | some a => .ok a

/-! ## Lists -/

/-- `TaskRepository.list_owned` -/
def Db.listTasks (cfg : Config) (db : Db) (ownerId : Uuid) (search : Option Text)
    (state : Option TaskState) (archived : Bool) (offset limit : ℕ) : List RewriteTask :=
  let rows := db.tasks.select fun t =>
    t.ownerId = ownerId &&
      (match search with
        | none | some [] => true
        | some s => cfg.ilike t.name ('%' :: strip s ++ ['%'])) &&
      match state with
        | some s => t.state = s
        | none => if archived then t.state = .archived else t.state ≠ .archived
  ((rows.insertionSort fun a b => b.updatedAt ≤ a.updatedAt).drop offset).take limit

/-- The analysis `get_suggestions` shows the suggestions of. -/
def Db.shownAnalysis (db : Db) (taskId : Uuid) (analysisId : Option Uuid) : Option Uuid :=
  match analysisId with
  | some a => some a
  | none => (db.analyses.scalar fun a => a.taskId = taskId && a.isSelected).map AnalysisRecord.id

/-- `get_suggestions` -/
def Db.listSuggestions (db : Db) (taskId : Uuid) (analysisId : Option Uuid) :
    List SuggestionRecord :=
  match db.shownAnalysis taskId analysisId with
  | none => []
  | some a => (db.suggestionsOf taskId (some a)).insertionSort fun r s => r.createdAt ≤ s.createdAt

/-! ## The opening of a request -/

/-- Go on with a value, or answer with the error. -/
def Opening.bind {α : Type} (x : Except ApiError α) (f : α → Opening) : Opening :=
  match x with
  | .error e => .answer (.error e)
  | .ok a => f a

/-- `Submission.lookup` before the lock. -/
def openSubmission (cfg : Config) (db : Db) (s : Submission) : Opening :=
  match s.lookup cfg db with
  | .error e => .answer (.error e)
  | .ok (some o) => .answer (.ok (.operation o.view))
  | .ok none => .pending (.submit s)

/-- The reads of a request by a member before any lock. -/
def opening (cfg : Config) (db : Db) (member : Uuid) : Request → Opening
  | .listPresets =>
      .answer (.ok (.presets (((db.presets.select fun p => p.ownerId = member).insertionSort
        fun a b => b.updatedAt ≤ a.updatedAt).map CreativePreset.view)))
  | .createPreset payload => .pending (.createPreset payload)
  | .updatePreset presetId payload =>
      .bind (db.ownedPreset presetId member) fun preset => .pending (.updatePreset preset payload)
  | .deletePreset presetId =>
      .bind (db.ownedPreset presetId member) fun preset => .pending (.deletePreset preset)
  | .listTasks search state archived offset limit =>
      .answer (.ok (.tasks ((db.listTasks cfg member search state archived offset limit).map
        RewriteTask.summary)))
  | .createTask payload => .pending (.createTask payload)
  | .getTask taskId =>
      .bind (db.ownedTask taskId member) fun task => .answer (.task <$> task.detail)
  | .updateTask taskId payload =>
      .bind (db.ownedTask taskId member) fun task => .pending (.updateTask task payload)
  | .copyTask taskId =>
      .bind (db.ownedTask taskId member) fun task => .pending (.copyTask task)
  | .archiveTask taskId =>
      .bind (db.ownedTask taskId member) fun task => .pending (.archiveTask task)
  | .restoreTask taskId =>
      .bind (db.ownedTask taskId member) fun task => .pending (.restoreTask task)
  | .submit taskId payload key requestId =>
      .bind (db.ownedTask taskId member) fun task =>
        -- `submit_analysis` does not pass the request id on
        let requestId := if payload = .analysis then none else requestId
        openSubmission cfg db ⟨task, member, payload.kind, payload, key, requestId⟩
  | .updateAnalysis taskId analysisId payload =>
      .bind (db.ownedTask taskId member) fun task =>
        .pending (.updateAnalysis task analysisId payload)
  | .getAnalysis taskId analysisId =>
      .bind (db.ownedTask taskId member) fun _ =>
        .bind (db.analysisOf taskId analysisId) fun a => .answer (.ok (.analysis a.view))
  | .getAnalyses taskId =>
      .bind (db.ownedTask taskId member) fun _ =>
        .answer (.ok (.analyses (((db.analyses.select fun a => a.taskId = taskId).insertionSort
          fun a b => a.sequence ≤ b.sequence).map AnalysisRecord.view)))
  | .updateSuggestion taskId suggestionId payload =>
      .bind (db.ownedTask taskId member) fun task =>
        .pending (.updateSuggestion task suggestionId payload)
  | .getSuggestions taskId analysisId =>
      .bind (db.ownedTask taskId member) fun _ =>
        .answer (.ok (.suggestions
          ((db.listSuggestions taskId analysisId).map SuggestionRecord.view)))
  | .listOperations =>
      .answer (.ok (.operations ((db.listOperations member).map AiOperation.view)))
  | .clearHistory => .pending .clearHistory
  | .cancelOperation operationId =>
      .bind (db.ownedOperation member operationId) fun o =>
        .pending (.cancelOperation o (db.tasks.get o.taskId))
  | .retryOperation operationId key =>
      .bind (retrySubmission db member operationId key) fun s => openSubmission cfg db s
  | .getOperation operationId =>
      match db.operations.scalar fun o => o.id = operationId && o.ownerId = member with
      | none => .answer (.error aiOperationNotFound)
      | some o => .answer (.ok (.operation o.view))
  | .listVersions taskId =>
      .bind (db.ownedTask taskId member) fun _ =>
        .answer (.ok (.versions (((db.versions.select fun v => v.taskId = taskId).insertionSort
          fun a b => a.createdAt ≤ b.createdAt).map ScriptVersion.view)))
  | .getVersion taskId versionId =>
      .bind (db.ownedVersion taskId versionId member) fun v => .answer (.ok (.version v.view))
  | .manualEdit taskId versionId payload =>
      .bind (db.ownedVersion taskId versionId member) fun parent =>
        .bind (db.ownedTask taskId member) fun task => .pending (.manualEdit parent task payload)
  | .compareVersions taskId leftVersionId rightVersionId =>
      .bind (db.ownedVersion taskId leftVersionId member) fun left =>
        .bind (db.ownedVersion taskId rightVersionId member) fun right =>
          .answer (.ok (.comparison left.id right.id
            (cfg.unifiedDiff (uuidText left.id, left.content)
              (uuidText right.id, right.content))))
  | .createLock taskId versionId payload =>
      .bind (db.ownedVersion taskId versionId member) fun version =>
        .bind (db.ownedTask taskId member) fun task => .pending (.createLock version task payload)
  | .deleteLock taskId lockId =>
      .bind (db.ownedTask taskId member) fun task => .pending (.deleteLock task lockId)
  | .getLocks taskId =>
      .bind (db.ownedTask taskId member) fun _ =>
        .answer (.ok (.locks ((db.locksOf taskId).map LockedFragment.view)))
  | .finalizeVersion taskId versionId =>
      .bind (db.ownedVersion taskId versionId member) fun version =>
        .bind (db.ownedTask taskId member) fun task => .pending (.finalizeVersion version task)
  | .exportFinal taskId format =>
      .bind (db.ownedTask taskId member) fun _ =>
        match db.versions.scalar fun v => v.taskId = taskId && v.isCurrentFinal with
        | none => .answer (.error finalVersionNotFound)
        | some v => .answer (.ok (.document v.content format taskId))

/-! ## The row lock -/

/-- The refusal of a request whose task is occupied. -/
def Pending.busy : Pending → ApiError
  | .submit _ => submissionInProgress
  | _ => editInProgress

/-- What taking the row lock does to the loaded rows: `submit` refreshes its task, the
others lock by a query of the identifier, which leaves the loaded task as it is. -/
def Pending.refresh (db : Db) : Pending → Pending
  | .submit s => .submit { s with task := (db.tasks.get s.task.id).getD s.task }
  | p => p

/-! ## The rest of a request -/

/-- The answer with a task as it is stored. -/
def taskReply (id : Uuid) (db : Db) : Response :=
  match db.tasks.get id with
  | none => .error internalServerError
  | some t => .task <$> t.detail

/-- The answer with a preset as it is stored. -/
def presetReply (id : Uuid) (db : Db) : Response :=
  match db.presets.get id with
  | none => .error internalServerError
  | some p => .ok (.preset p.view)

/-- The answer with a version as it is stored. -/
def versionReply (id : Uuid) (db : Db) : Response :=
  match db.versions.get id with
  | none => .error internalServerError
  | some v => .ok (.version v.view)

/-- A text without U+0000, the one character PostgreSQL has no place for in a column of text.
No schema refuses it and nothing handles the error of the flush. Here the columns of tasks are
checked; what goes into the others is taken to have none. -/
def Storable (s : Text) : Prop := Char.ofNat 0 ∉ s

instance (s : Text) : Decidable (Storable s) := inferInstanceAs (Decidable (_ ∉ _))

/-- The value of a `Field` in the flush of a column of text; `null` breaks a `NOT NULL` one. -/
def Field.column {α : Type} (loaded : Text) (f : α → Text) :
    Field α → Except ApiError (Option Text)
  | .unset => .ok none
  | .null => .error internalServerError
  | .value a =>
      if Storable (f a) then .ok (assign loaded (f a)) else .error internalServerError

/-- The value of a `Field` in the flush of a column that accepts `null`. -/
def Field.nullable {α : Type} [DecidableEq α] (loaded : Option α) :
    Field α → Option (Option α)
  | .unset => none
  | .null => assign loaded none
  | .value a => assign loaded (some a)

/-- `TaskRepository.update_draft` -/
def finishUpdateTask (st : Stamp) (task : RewriteTask) (payload : TaskUpdate) :
    Except ApiError Outcome := do
  ensure (task.state = .draft) taskNotEditable
  let name ← payload.name.column task.name (·.1)
  let sourceText ← payload.sourceText.column task.sourceText (·.1)
  return {
    writes := [.setTask task.id {
      name := name, sourceText := sourceText
      creativeSettings := payload.creativeSettings.nullable task.creativeSettings } st.now]
    reply := taskReply task.id }

/-- The flush of a snapshot's state into its task. -/
def storeSnapshot (st : Stamp) (task : RewriteTask) (s : TaskSnapshot) : Outcome where
  writes := [.setTask task.id {
    state := assign task.state s.state
    archivedFromState := assign task.archivedFromState s.archivedFromState } st.now]
  reply := taskReply task.id

/-- `create_manual_edit` under the lock. -/
def finishManualEdit (db : Db) (st : Stamp) (parent : ScriptVersion) (task : RewriteTask)
    (payload : ManualEditCreate) : Except ApiError Outcome := do
  ensure (task.state ≠ .archived) (taskArchived "An archived task cannot be edited")
  ensure (db.hasFirstDraft task.id) firstDraftRequired
  let locks := (db.locks.select fun l => l.taskId = task.id).map fun l =>
    LockConstraint.mk l.text l.orderIndex
  ensure (validateLockConstraints payload.content.1 locks = []) lockedTextChanged
  return {
    writes := [.addVersion {
        id := st.id 0, taskId := task.id, parentId := some parent.id, kind := .manualEdit
        content := payload.content.1, instruction := payload.instruction.map (·.1)
        provenance := .obj [Json.field "source" (.str "member_manual_edit".toList)]
        validationDetails := .obj [], createdAt := st.now },
      .setTask task.id { state := assign task.state .editing } st.now]
    reply := versionReply (st.id 0) }

/-- The next `order_index` of a task's locks. -/
def Db.nextOrder (db : Db) (taskId : Uuid) : ℕ :=
  match (db.locks.select fun l => l.taskId = taskId).map LockedFragment.orderIndex with
  | [] => 0
  | n :: ns => ns.foldl max n + 1

/-- `create_lock` under the lock. -/
def finishCreateLock (db : Db) (st : Stamp) (version : ScriptVersion) (task : RewriteTask)
    (payload : LockedFragmentCreate) : Except ApiError Outcome := do
  ensure (task.state ≠ .archived) (taskArchived "An archived task cannot be changed")
  match selectedText version.content payload.startOffset payload.endOffset with
  | none => throw invalidSelection
  | some text =>
      let ranges := (db.locks.select fun l =>
        l.taskId = task.id && l.sourceVersionId = version.id).map fun l =>
          (l.startOffset, l.endOffset)
      ensure (noOverlappingRange payload.startOffset payload.endOffset ranges) lockOverlap
      let lock : LockedFragment := {
        id := st.id 0, taskId := task.id, sourceVersionId := version.id, text
        startOffset := payload.startOffset, endOffset := payload.endOffset
        orderIndex := db.nextOrder task.id, note := payload.note.map (·.1) }
      return {
        writes := [.addLock lock]
        reply := fun db' => match db'.locks.get lock.id with
          | none => .error internalServerError
          | some l => .ok (.lock l.view) }

/-- `finalize_version` under the lock. -/
def finishFinalize (st : Stamp) (version : ScriptVersion) (task : RewriteTask) :
    Except ApiError Outcome := do
  ensure (task.state ≠ .archived) (taskArchived "An archived task cannot be finalized")
  return {
    writes := [.clearFinal task.id, .setFinal version.id,
      .setTask task.id {
        state := assign task.state .finalized
        finalizedAt := assign task.finalizedAt (some st.now) } st.now]
    reply := versionReply version.id }

/-- The rest of a request up to its commit. -/
def Pending.finish (cfg : Config) (db : Db) (member : Uuid) (st : Stamp) :
    Pending → Except ApiError Outcome
  | .createPreset payload =>
      .ok {
        writes := [.addPreset ⟨st.id 0, member, payload.name.1, payload.settings, st.now, st.now⟩]
        reply := presetReply (st.id 0) }
  | .updatePreset preset payload =>
      let name := payload.name.bind fun n => assign preset.name n.1
      let settings := payload.settings.bind (assign preset.settings)
      .ok {
        writes :=
          if name = none ∧ settings = none then []
          else [.setPreset preset.id name settings st.now]
        reply := presetReply preset.id }
  | .deletePreset preset =>
      .ok { writes := [.dropPreset preset.id], reply := fun _ => .ok .noContent }
  | .createTask payload =>
      if ¬ Storable payload.name.1 ∨ ¬ Storable payload.sourceText.1 then
        .error internalServerError
      else .ok {
        writes := [.addTask {
          id := st.id 0, ownerId := member, name := payload.name.1
          sourceText := payload.sourceText.1
          creativeSettings := some payload.creativeSettings, state := .draft
          createdAt := st.now, updatedAt := st.now }]
        reply := taskReply (st.id 0) }
  | .copyTask source =>
      let name := source.name ++ " copy".toList
      -- `dict(None)`, and a name longer than its column
      if source.creativeSettings = none ∨ 160 < name.length then .error internalServerError
      else .ok {
        writes := [.addTask {
          id := st.id 0, ownerId := member, name, sourceText := source.sourceText
          creativeSettings := source.creativeSettings, state := .draft
          createdAt := st.now, updatedAt := st.now }]
        reply := taskReply (st.id 0) }
  | .updateTask task payload => finishUpdateTask st task payload
  | .archiveTask task => .ok (storeSnapshot st task task.snapshot.archive)
  | .restoreTask task =>
      match task.snapshot.restore with
      | none => .error taskNotRestorable
      | some s => .ok (storeSnapshot st task s)
  | .submit s => s.finish cfg db st
  | .updateAnalysis task analysisId payload => do
      let record ← db.analysisOf task.id analysisId
      return {
        writes := [.setAnalysis record.id payload.analysis (payload.memberNotes.map (·.1))]
        reply := fun db' => match db'.analyses.get record.id with
          | none => .error internalServerError
          | some a => .ok (.analysis a.view) }
  | .updateSuggestion task suggestionId payload =>
      match db.suggestions.scalar fun r => r.id = suggestionId && r.taskId = task.id with
      | none => .error suggestionNotFound
      | some record =>
          .ok {
            writes := [.decide record.id payload.decision (payload.memberNote.map (·.1))]
            reply := fun db' => match db'.suggestions.get record.id with
              | none => .error internalServerError
              | some r => .ok (.suggestion r.view) }
  | .manualEdit parent task payload => finishManualEdit db st parent task payload
  | .createLock version task payload => finishCreateLock db st version task payload
  | .deleteLock task lockId =>
      match db.locks.scalar fun l => l.id = lockId && l.taskId = task.id with
      | none => .error lockNotFound
      | some _ => .ok { writes := [.dropLock lockId task.id], reply := fun _ => .ok .noContent }
  | .finalizeVersion version task => finishFinalize st version task
  | .clearHistory =>
      .ok { writes := [.clearHistory member], reply := fun _ => .ok .noContent }
  | .cancelOperation operation task => finishCancel db st operation task

/-- The answer where the commit breaks a unique index. -/
def Pending.integrityError (cfg : Config) (db : Db) : Pending → Response
  | .submit s => s.afterIntegrityError cfg db
  | .createPreset _ | .updatePreset .. => .error presetNameExists
  | _ => .error internalServerError

/-! ## One request at a time -/

/-- The rest of a request and its commit, with nothing in between. -/
def Pending.complete (cfg : Config) (db : Db) (member : Uuid) (st : Stamp) (p : Pending) :
    Db × Response :=
  match p.finish cfg db member st with
  | .error e => (db, .error e)
  | .ok out =>
      match db.commit out.writes with
      | none => (db, p.integrityError cfg db)
      | some db' => (db', out.reply db')

/-- A request by a member served without interruption. -/
def handle (cfg : Config) (db : Db) (member : Uuid) (st : Stamp) (r : Request) : Db × Response :=
  match opening cfg db member r with
  | .answer response => (db, response)
  | .pending p =>
      match p.task with
      | none => p.complete cfg db member st
      | some task =>
          if db.hasActive task.id then (db, .error p.busy)
          else (p.refresh db).complete cfg db member st

end DouyinCaption

import DouyinCaption.Moves

/-!
# What the transactions write

`RequestWrites` sums up what a request may write, from the rows it loaded and the rows it
finds; `writes_of_finish` is the inversion of `Pending.finish`. `Tx` joins it with the
transactions of jobs and ticks, and `db_of_move` says that the rows change by one of these
only.
-/

namespace DouyinCaption

open Tables

/-! ## Requests -/

/-- A statement about presets. -/
def Write.onPresets : Write → Bool
  | .addPreset _ | .setPreset .. | .dropPreset _ => true
  | _ => false

/-- What a request writes, by what it is. -/
inductive RequestWrites (cfg : Config) (db : Db) (member : Uuid) (st : Stamp) :
    Pending → List Write → Prop where
  | presets {pd : Pending} {ws : List Write} (hpd : pd.task = none)
      (hws : ∀ w ∈ ws, w.onPresets = true) : RequestWrites cfg db member st pd ws
  | addTask {pd : Pending} {t : RewriteTask} (hpd : pd.task = none) (hid : t.id = st.id 0)
      (hstate : t.state = .draft) (harchived : t.archivedFromState = none) :
      RequestWrites cfg db member st pd [.addTask t]
  | updateTask {task : RewriteTask} {payload : TaskUpdate} {change : TaskChange}
      (hdraft : task.state = .draft) (hstate : change.state = none)
      (harchived : change.archivedFromState = none) :
      RequestWrites cfg db member st (.updateTask task payload)
        [.setTask task.id change st.now]
  | archiveTask {task : RewriteTask} :
      RequestWrites cfg db member st (.archiveTask task)
        (storeSnapshot st task task.snapshot.archive).writes
  | restoreTask {task : RewriteTask} {snapshot : TaskSnapshot}
      (h : task.snapshot.restore = some snapshot) :
      RequestWrites cfg db member st (.restoreTask task) (storeSnapshot st task snapshot).writes
  | updateAnalysis {task : RewriteTask} {analysisId : Uuid} {payload : AnalysisCorrection}
      {record : AnalysisRecord} (hr : record ∈ db.analyses) (ht : record.taskId = task.id) :
      RequestWrites cfg db member st (.updateAnalysis task analysisId payload)
        [.setAnalysis record.id payload.analysis (payload.memberNotes.map (·.1))]
  | updateSuggestion {task : RewriteTask} {suggestionId : Uuid} {payload : SuggestionUpdate}
      {record : SuggestionRecord} (hr : record ∈ db.suggestions) (ht : record.taskId = task.id) :
      RequestWrites cfg db member st (.updateSuggestion task suggestionId payload)
        [.decide record.id payload.decision (payload.memberNote.map (·.1))]
  | manualEdit {parent : ScriptVersion} {task : RewriteTask} {payload : ManualEditCreate}
      {v : ScriptVersion} (hstate : task.state ≠ .archived) (hid : v.id = st.id 0)
      (htask : v.taskId = task.id) (hkind : v.kind = .manualEdit)
      (hfinal : v.isCurrentFinal = false)
      (hlocks : Honours v.content
        ((db.locks.select fun l => l.taskId = task.id).map LockedFragment.text)) :
      RequestWrites cfg db member st (.manualEdit parent task payload)
        [.addVersion v, .setTask task.id { state := assign task.state .editing } st.now]
  | createLock {version : ScriptVersion} {task : RewriteTask} {payload : LockedFragmentCreate}
      {l : LockedFragment} (hstate : task.state ≠ .archived) (htask : l.taskId = task.id) :
      RequestWrites cfg db member st (.createLock version task payload) [.addLock l]
  | deleteLock {task : RewriteTask} {lockId : Uuid} :
      RequestWrites cfg db member st (.deleteLock task lockId) [.dropLock lockId task.id]
  | finalizeVersion {version : ScriptVersion} {task : RewriteTask}
      (hstate : task.state ≠ .archived) :
      RequestWrites cfg db member st (.finalizeVersion version task)
        [.clearFinal task.id, .setFinal version.id,
          .setTask task.id {
            state := assign task.state .finalized
            finalizedAt := assign task.finalizedAt (some st.now) } st.now]
  | submit {s : Submission} {snapshot : List Write}
      (hstate : assertTransition s.task.state (runningState s.kind) = .ok ())
      (hsnapshot : snapshot = [] ∨
        ∃ a ds, s.payload.analysisId = some a ∧ snapshot = [.applySnapshot s.task.id a ds]) :
      RequestWrites cfg db member st (.submit s)
        (snapshot ++ [.addOperation (s.operation cfg st), .setTask s.task.id
          { state := assign s.task.state (runningState s.kind) } st.now])
  | clearHistory : RequestWrites cfg db member st .clearHistory [.clearHistory member]
  | cancelOperation {op : AiOperation} {task : Option RewriteTask} {reset : List Write}
      (hqueued : ∃ o ∈ db.operations, o.id = op.id ∧ o.status = .queued)
      (hreset : reset = match task with
        | some t =>
            if t.state = op.runningTaskState then
              [.setTask t.id { state := assign t.state op.initialTaskState } st.now]
            else []
        | none => []) :
      RequestWrites cfg db member st (.cancelOperation op task)
        (.setQueued op.id (.cancel st.now) :: reset)

/-- What holds of every statement of a cancellation: the operation is cancelled, and its task may
be put back. -/
theorem forall_cancelWrites {P : Write → Prop} {op : AiOperation} {task : Option RewriteTask}
    {now : ℕ} {reset : List Write}
    (hreset : reset = match task with
      | some t =>
          if t.state = op.runningTaskState then
            [.setTask t.id { state := assign t.state op.initialTaskState } now]
          else []
      | none => [])
    (hqueued : P (.setQueued op.id (.cancel now)))
    (htask : ∀ t ∈ task,
      P (.setTask t.id { state := assign t.state op.initialTaskState } now)) :
    ∀ w ∈ .setQueued op.id (.cancel now) :: reset, P w := by
  intro w hw
  rcases List.mem_cons.mp hw with rfl | hw
  · exact hqueued
  rw [hreset] at hw
  split at hw
  · split at hw
    · obtain rfl := List.mem_singleton.mp hw
      exact htask _ rfl
    · cases hw
  · cases hw

section Inversion

variable {cfg : Config} {db : Db} {member : Uuid} {st : Stamp} {out : Outcome}

/-- An update writes its task. -/
theorem writes_of_updateTask {task : RewriteTask} {payload : TaskUpdate}
    (h : finishUpdateTask st task payload = .ok out) :
    RequestWrites cfg db member st (.updateTask task payload) out.writes := by
  obtain ⟨_, hdraft, h⟩ := bind_eq_ok.mp h
  obtain ⟨name, -, h⟩ := bind_eq_ok.mp h
  obtain ⟨source, -, h⟩ := bind_eq_ok.mp h
  obtain rfl := Except.ok.inj h
  exact .updateTask (ensure_eq_ok.mp hdraft) rfl rfl

/-- A manual edit adds a version of kind `manual_edit` to its parent. -/
theorem writes_of_manualEdit {parent : ScriptVersion} {task : RewriteTask}
    {payload : ManualEditCreate} (h : finishManualEdit db st parent task payload = .ok out) :
    RequestWrites cfg db member st (.manualEdit parent task payload) out.writes := by
  obtain ⟨_, hstate, h⟩ := bind_eq_ok.mp h
  obtain ⟨_, -, h⟩ := bind_eq_ok.mp h
  obtain ⟨_, hlocks, h⟩ := bind_eq_ok.mp h
  obtain rfl := Except.ok.inj h
  refine .manualEdit (ensure_eq_ok.mp hstate) rfl rfl rfl rfl ?_
  have hon := honours_of_validateLockConstraints (ensure_eq_ok.mp hlocks)
  rwa [List.map_map] at hon

/-- A new lock is of the version, with the text at its offsets. -/
theorem writes_of_createLock {version : ScriptVersion} {task : RewriteTask}
    {payload : LockedFragmentCreate}
    (h : finishCreateLock db st version task payload = .ok out) :
    RequestWrites cfg db member st (.createLock version task payload) out.writes := by
  obtain ⟨_, hstate, h⟩ := bind_eq_ok.mp h
  split at h
  · cases h
  · obtain ⟨_, -, h⟩ := bind_eq_ok.mp h
    obtain rfl := Except.ok.inj h
    exact .createLock (ensure_eq_ok.mp hstate) rfl

/-- A submission applies its snapshot, adds the operation and moves the task, in this order. -/
theorem writes_of_submission {s : Submission} (h : s.finish cfg db st = .ok out) :
    RequestWrites cfg db member st (.submit s) out.writes := by
  obtain ⟨_, hstate, h⟩ := bind_eq_ok.mp h
  obtain ⟨_, -, h⟩ := bind_eq_ok.mp h
  obtain ⟨snapshot, hsnapshot, h⟩ := bind_eq_ok.mp h
  obtain rfl := Except.ok.inj h
  refine .submit (ensure_eq_ok.mp hstate) ?_
  rw [applySuggestionSnapshot] at hsnapshot
  split at hsnapshot
  · exact .inl (Except.ok.inj hsnapshot).symm
  · rename_i a ha
    split at hsnapshot
    · cases hsnapshot
    · simp only at hsnapshot
      split at hsnapshot
      · exact .inr ⟨a, _, ha, (Except.ok.inj hsnapshot).symm⟩
      · cases hsnapshot

/-- A cancellation that is accepted has found its operation queued. -/
theorem finishCancel_eq_ok {op : AiOperation} {task : Option RewriteTask}
    (h : finishCancel db st op task = .ok out) :
    (∃ o ∈ db.operations, o.id = op.id ∧ o.status = .queued) ∧
      out.reply = operationReply op.id ∧
      out.writes = .setQueued op.id (.cancel st.now) :: match task with
        | some t =>
            if t.state = op.runningTaskState then
              [.setTask t.id { state := assign t.state op.initialTaskState } st.now]
            else []
        | none => [] := by
  unfold finishCancel at h
  split at h
  · cases h
  · rename_i o ho
    obtain rfl := Except.ok.inj h
    obtain ⟨hm, hq⟩ := Table.scalar_some ho
    simp only [Bool.and_eq_true, decide_eq_true_eq] at hq
    exact ⟨⟨o, hm, hq⟩, rfl, rfl⟩

/-- It resets the task only where the task is still in the running state. -/
theorem writes_of_cancel {op : AiOperation} {task : Option RewriteTask}
    (h : finishCancel db st op task = .ok out) :
    RequestWrites cfg db member st (.cancelOperation op task) out.writes := by
  obtain ⟨hqueued, -, hw⟩ := finishCancel_eq_ok h
  rw [hw]
  exact .cancelOperation hqueued rfl

/-- **What a request writes.** -/
theorem writes_of_finish {pd : Pending} (h : pd.finish cfg db member st = .ok out) :
    RequestWrites cfg db member st pd out.writes := by
  cases pd with
  | createPreset payload =>
    obtain rfl := Except.ok.inj h
    exact .presets rfl (by simp [Write.onPresets])
  | updatePreset preset payload =>
    obtain rfl := Except.ok.inj h
    refine .presets rfl ?_
    simp only
    split <;> simp [Write.onPresets]
  | deletePreset preset =>
    obtain rfl := Except.ok.inj h
    exact .presets rfl (by simp [Write.onPresets])
  | createTask payload =>
    simp only [Pending.finish] at h
    split at h
    · cases h
    · obtain rfl := Except.ok.inj h
      exact .addTask rfl rfl rfl rfl
  | copyTask source =>
    simp only [Pending.finish] at h
    split at h
    · cases h
    · obtain rfl := Except.ok.inj h
      exact .addTask rfl rfl rfl rfl
  | updateTask task payload => exact writes_of_updateTask h
  | archiveTask task =>
    obtain rfl := Except.ok.inj h
    exact .archiveTask
  | restoreTask task =>
    simp only [Pending.finish] at h
    split at h
    · cases h
    · rename_i snapshot hs
      obtain rfl := Except.ok.inj h
      exact .restoreTask hs
  | submit s => exact writes_of_submission h
  | updateAnalysis task analysisId payload =>
    obtain ⟨record, hr, h⟩ := bind_eq_ok.mp h
    obtain rfl := Except.ok.inj h
    rw [Db.analysisOf] at hr
    split at hr
    · cases hr
    · rename_i a ha
      obtain rfl := Except.ok.inj hr
      obtain ⟨hm, hp⟩ := Table.scalar_some ha
      simp only [Bool.and_eq_true, decide_eq_true_eq] at hp
      exact .updateAnalysis hm hp.2
  | updateSuggestion task suggestionId payload =>
    simp only [Pending.finish] at h
    split at h
    · cases h
    · rename_i record ha
      obtain rfl := Except.ok.inj h
      obtain ⟨hm, hp⟩ := Table.scalar_some ha
      simp only [Bool.and_eq_true, decide_eq_true_eq] at hp
      exact .updateSuggestion hm hp.2
  | manualEdit parent task payload => exact writes_of_manualEdit h
  | createLock version task payload => exact writes_of_createLock h
  | deleteLock task lockId =>
    simp only [Pending.finish] at h
    split at h
    · cases h
    · obtain rfl := Except.ok.inj h
      exact .deleteLock
  | finalizeVersion version task =>
    obtain ⟨_, hstate, h⟩ := bind_eq_ok.mp h
    obtain rfl := Except.ok.inj h
    exact .finalizeVersion (ensure_eq_ok.mp hstate)
  | clearHistory =>
    obtain rfl := Except.ok.inj h
    exact .clearHistory
  | cancelOperation operation task => exact writes_of_cancel h

end Inversion

/-! ## Jobs -/

/-- What `persist` writes, by what the operation has prepared. -/
inductive Stores (db : Db) (taskId : Uuid) (st : Stamp) (result : ServiceResult) :
    Prepared → List Write → Prop where
  | analysis {hasFirstDraft : Bool} {r : AnalysisRecord} (hid : r.id = st.id 0)
      (htask : r.taskId = taskId) (hseq : r.sequence = db.nextSequence taskId)
      (hselected : r.isSelected = true) : Stores db taskId st result (.analysis hasFirstDraft)
        [.deselectAnalyses taskId, .addAnalysis r]
  | suggestions {payload : SuggestionsSubmit} {record : AnalysisRecord} {hasFirstDraft : Bool}
      {previous fixed : List SuggestionRecord} {set : SuggestionSet} {kept : List Suggestion}
      (hout : result.output = .suggestions set)
      (hkept : fixed.mapM (fun r => orValue (storedSuggestion r)) = .ok kept)
      (hvalid : SuggestionSet.Valid (kept ++ replacements previous fixed set)) :
      Stores db taskId st result (.suggestions payload record hasFirstDraft previous fixed)
        [.dropSuggestions taskId record.id (fixed.map SuggestionRecord.id),
          .addSuggestions ((replacements previous fixed set).zipIdx.map fun s =>
            suggestionRecord taskId record.id (st.id s.2) st.now s.1)]
  | version {prep : Prepared} {v : VersionResult} (hout : result.output = .version v) :
      Stores db taskId st result prep
        [.addVersion (versionRecord taskId (st.id 0) st.now v result.metadata)]

/-- What stores a result, kind by kind. -/
theorem stores_of_persist {db : Db} {taskId : Uuid} {st : Stamp} {prep : Prepared}
    {result : ServiceResult} {stored : List Write} {resource : ResourceType × Uuid}
    (h : persist db taskId st prep result = .ok (stored, resource)) :
    Stores db taskId st result prep stored := by
  unfold persist at h
  split at h
  · obtain ⟨rfl, -⟩ := Prod.mk.inj (Except.ok.inj h)
    exact .analysis rfl rfl rfl rfl
  · rename_i hout
    obtain ⟨kept, hkept, h⟩ := bind_eq_ok.mp h
    obtain ⟨_, hvalid, h⟩ := bind_eq_ok.mp h
    obtain ⟨rfl, -⟩ := Prod.mk.inj (Except.ok.inj h)
    exact .suggestions hout hkept (ensure_eq_ok.mp hvalid)
  · rename_i hout
    obtain ⟨rfl, -⟩ := Prod.mk.inj (Except.ok.inj h)
    exact .version hout
  · rename_i hout
    obtain ⟨rfl, -⟩ := Prod.mk.inj (Except.ok.inj h)
    exact .version hout
  · cases h

/-- What a job writes, by its phase. -/
inductive JobWrites (db : Db) (st : Stamp) (opId : Uuid) : JobPhase → List Write → Prop where
  | recover {op : AiOperation} {task : RewriteTask}
      {found : List (AiOperation × Option RewriteTask)} :
      JobWrites db st opId (.recovering op task [] found) (recoverWrites st.now found)
  | claim {e : Execution} {model : Text} (hqueued : db.isQueued e.op.id = true) :
      JobWrites db st opId (.admitted e model) (claimWrites e st.now)
  | result {e : Execution} {result : ServiceResult} {stored : List Write}
      {resource : ResourceType × Uuid}
      (hstored : Stores db e.task.id st result e.prepared stored) :
      JobWrites db st opId (.returned e result)
        (successWrites e.task e.op result st.now stored resource)
  | fail {e : Execution} {failure : AiFailure} :
      JobWrites db st opId (.failing e failure)
        (recordFailure e.task e.op failure.error .failed st.now)
  | record {e : Execution} {arm : Arm} {op : AiOperation} {task : RewriteTask}
      (hopen : ¬ (arm = .internal ∧ op.status = .succeeded)) :
      JobWrites db st opId (.restored e arm (some op) (some task))
        (recordFailure task op arm.record.1 arm.record.2 st.now)
  | sweep {error : OperationError} {op : Option AiOperation} :
      JobWrites db st opId (.sweeping error op) (sweepWrites opId op error st.now)

/-- **What a job writes.** -/
theorem writes_of_transaction {db : Db} {st : Stamp} {opId : Uuid} {phase : JobPhase}
    {ws : List Write} (h : phase.transaction db st opId = some ws) :
    JobWrites db st opId phase ws := by
  unfold JobPhase.transaction at h
  split at h
  · obtain rfl := Option.some.inj h
    exact .recover
  · split at h
    · rename_i hq
      obtain rfl := Option.some.inj h
      exact .claim hq
    · cases h
  · split at h
    · rename_i hp
      obtain rfl := Option.some.inj h
      exact .result (stores_of_persist hp)
    · cases h
  · obtain rfl := Option.some.inj h
    exact .fail
  · split at h
    · cases h
    · rename_i hopen
      obtain rfl := Option.some.inj h
      exact .record hopen
  · obtain rfl := Option.some.inj h
    exact .sweep
  · cases h

/-- The statement changes tasks in their states only, or only operations. -/
def Write.OnStates : Write → Prop
  | .setTask _ change _ => change.sourceText = none ∧ change.creativeSettings = none ∧
      change.archivedFromState = none
  | .resetTask .. | .setOperation .. | .setQueued .. => True
  | _ => False

/-- The tables of what operations make, and the locks. -/
structure Db.SameArtefacts (db db' : Db) : Prop where
  analyses : db'.analyses = db.analyses
  suggestions : db'.suggestions = db.suggestions
  versions : db'.versions = db.versions
  locks : db'.locks = db.locks

/-- Changes of states leave everything else as it is. -/
theorem Db.sameArtefacts_of_foldlM {ws : List Write} : ∀ {db db' : Db},
    ws.foldlM Write.apply db = some db' → (∀ w ∈ ws, w.OnStates) → db.SameArtefacts db' := by
  induction ws with
  | nil =>
    intro db db' h _
    obtain rfl := Option.some.inj h
    exact ⟨rfl, rfl, rfl, rfl⟩
  | cons w ws ih =>
    intro db db' h hw
    rw [List.foldlM_cons] at h
    obtain ⟨db₁, h₁, h₂⟩ := Option.bind_eq_some_iff.mp h
    obtain ⟨ha, hs, hv, hl⟩ := ih h₂ fun w' hw' => hw w' (List.mem_cons_of_mem _ hw')
    have hon := hw w List.mem_cons_self
    cases w with
    | setTask | setOperation =>
      obtain ⟨_, -, rfl⟩ := Option.map_eq_some_iff.mp h₁
      exact ⟨ha, hs, hv, hl⟩
    | resetTask | setQueued =>
      obtain rfl := Option.some.inj h₁
      exact ⟨ha, hs, hv, hl⟩
    | _ => exact hon.elim

/-- A success is the rows it stores and a change of states. -/
theorem stored_of_successWrites {db db' : Db} {task : RewriteTask} {op : AiOperation}
    {result : ServiceResult} {now : ℕ} {stored : List Write} {resource : ResourceType × Uuid}
    (h : (successWrites task op result now stored resource).foldlM Write.apply db = some db') :
    ∃ db₁, stored.foldlM Write.apply db = some db₁ ∧ db₁.SameArtefacts db' := by
  rw [successWrites, List.foldlM_append] at h
  obtain ⟨db₁, h₁, h₂⟩ := Option.bind_eq_some_iff.mp h
  refine ⟨db₁, h₁, Db.sameArtefacts_of_foldlM h₂ fun w hw => ?_⟩
  rcases List.mem_pair.mp hw with rfl | rfl
  · exact ⟨rfl, rfl, rfl⟩
  · trivial

/-- A recovery changes only the states of tasks and operations. -/
theorem onStates_of_recover {now : ℕ} {found : List (AiOperation × Option RewriteTask)} :
    ∀ w ∈ recoverWrites now found, w.OnStates :=
  forall_recoverWrites (fun _ _ _ _ => ⟨rfl, rfl, rfl⟩) fun _ _ => trivial

/-- A job that stores no result changes only the states of tasks and operations. -/
theorem JobWrites.onStates {db : Db} {st : Stamp} {opId : Uuid} {phase : JobPhase}
    {ws : List Write} (h : JobWrites db st opId phase ws)
    (hphase : ∀ e result, phase ≠ .returned e result) : ∀ w ∈ ws, w.OnStates := by
  cases h with
  | recover => exact onStates_of_recover
  | claim hqueued => simp [claimWrites, Write.OnStates]
  | result hstored => exact absurd rfl (hphase _ _)
  | fail => simp [recordFailure, Write.OnStates]
  | record hopen => simp [recordFailure, Write.OnStates]
  | sweep =>
    rename_i error op
    cases op <;> simp [sweepWrites, Write.OnStates]

/-- A job changes only the states of tasks and operations, or stores a result. -/
theorem JobWrites.states_or_result {db : Db} {st : Stamp} {opId : Uuid} {phase : JobPhase}
    {ws : List Write} (h : JobWrites db st opId phase ws) :
    (∀ w ∈ ws, w.OnStates) ∨ ∃ e result stored resource, phase = .returned e result ∧
      Stores db e.task.id st result e.prepared stored ∧
        ws = successWrites e.task e.op result st.now stored resource := by
  by_cases hphase : ∃ e result, phase = .returned e result
  · obtain ⟨e, result, rfl⟩ := hphase
    cases h with
    | result hstored => exact .inr ⟨e, result, _, _, rfl, hstored, rfl⟩
  · exact .inl (h.onStates fun e result he => hphase ⟨e, result, he⟩)

end DouyinCaption

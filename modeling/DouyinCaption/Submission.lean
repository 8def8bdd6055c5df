import DouyinCaption.Openings
import DouyinCaption.System
import DouyinCaption.Transactions

/-!
# A submission as a whole

`AiQueueService.submit` from its first line to its return. It waits for the database four
times: for the lookup of the key, for the row lock, for the checks and the commit, and, after
an `IntegrityError`, for the second lookup. Other transactions may commit in between, except
that nobody changes the row of the task while `submit` holds its lock.

However the four answers fit together, a submission returns an operation that was there,
raises, or commits one new operation with everything that belongs to it
(`Submission.ends_one_way`).
-/

namespace DouyinCaption

open Tables

/-- What is committed when a submission for a task reads. -/
structure Submission.Views (taskId : Uuid) where
  /-- at the first lookup -/
  lookup : Db
  /-- when it gets the row lock -/
  locked : Db
  /-- when it commits -/
  commit : Db
  /-- at the second lookup -/
  relookup : Db
  /-- the row lock keeps others from the row -/
  held : commit.tasks.get taskId = locked.tasks.get taskId

/-- `submit`: its answer, and the database it commits. -/
def Submission.submit (cfg : Config) (s : Submission) (v : Submission.Views s.task.id)
    (st : Stamp) : Response × Option Db :=
  if s.task.ownerId ≠ s.ownerId then (.error submissionTaskNotFound, none)
  else match s.lookup cfg v.lookup with
  | .error e => (.error e, none)
  | .ok (some o) => (.ok (.operation o.view), none)
  | .ok none =>
    -- `session.refresh(task, with_for_update=True)`
    match v.locked.tasks.get s.task.id with
    | none => (.error internalServerError, none)
    | some task =>
      if v.locked.hasActive s.task.id then (.error submissionInProgress, none)
      else match { s with task }.finish cfg v.commit st with
      | .error e => (.error e, none)
      | .ok out =>
        match v.commit.commit out.writes with
        | none => (s.afterIntegrityError cfg v.relookup, none)
        | some db => (out.reply db, some db)

/-- The suggestions of an analysis record a decision snapshot that names each of them, and no
other row has changed. -/
structure Snapshotted (db : Db) (suggestions : Table SuggestionRecord) (taskId analysisId : Uuid)
    (decisions : List SuggestionDecisionSubmit) : Prop where
  /-- the analysis is the selected one of the task -/
  selected : ∃ a ∈ db.analyses, a.id = analysisId ∧ a.taskId = taskId ∧ a.isSelected = true
  /-- the ids submitted are those of the analysis -/
  ids : ∀ i, i ∈ decisions.map SuggestionDecisionSubmit.suggestionId ↔
    ∃ r ∈ db.suggestions, r.taskId = taskId ∧ r.analysisId = analysisId ∧ r.id = i
  /-- a suggestion of the analysis has the decision and the note submitted for it -/
  decided : ∀ r ∈ db.suggestions, r.taskId = taskId → r.analysisId = analysisId →
    ∃ d ∈ decisions, d.suggestionId = r.id ∧ suggestions.get r.id = some
      { r with decision := if d.selected then .accepted else .rejected
               memberNote := d.memberNote.map (·.1) }
  /-- another is as it was -/
  others : ∀ i, (∀ r, db.suggestions.get i = some r →
      ¬ (r.taskId = taskId ∧ r.analysisId = analysisId)) →
    suggestions.get i = db.suggestions.get i

/-- The database after a submission: one operation more, its task in the running state of the
kind, its snapshot recorded. -/
structure Submission.Queued (cfg : Config) (s : Submission) (st : Stamp) (db : Db)
    (op : AiOperation) (db' : Db) : Prop where
  ofMember : op.ownerId = s.ownerId ∧ op.taskId = s.task.id ∧ op.kind = s.kind
  ofRequest : op.idempotencyKey = s.idempotencyKey ∧ op.requestHash = s.hash cfg ∧
    op.requestPayload = s.payload
  status : op.status = .queued
  isNew : db.operations.get op.id = none ∧ db'.operations.get op.id = some op
  otherOperations : ∀ i, i ≠ op.id → db'.operations.get i = db.operations.get i
  /-- the task moves to the running state, and the operation remembers where from -/
  task : ∃ t, db.tasks.get s.task.id = some t ∧ op.initialTaskState = t.state ∧
    op.runningTaskState = runningState s.kind ∧
    db'.tasks.get s.task.id = some { t with state := runningState s.kind, updatedAt := st.now }
  otherTasks : ∀ i, i ≠ s.task.id → db'.tasks.get i = db.tasks.get i
  suggestions : match s.payload.analysisId with
    | none => db'.suggestions = db.suggestions
    | some analysisId => Snapshotted db db'.suggestions s.task.id analysisId s.payload.decisions
  rest : db'.members = db.members ∧ db'.providers = db.providers ∧ db'.presets = db.presets ∧
    db'.analyses = db.analyses ∧ db'.versions = db.versions ∧ db'.locks = db.locks

/-- The submission returns an operation that is there already. -/
def Submission.Returns (cfg : Config) (s : Submission) (v : Submission.Views s.task.id)
    (st : Stamp) : Prop :=
  ∃ o, (o ∈ v.lookup.operations ∨ o ∈ v.relookup.operations) ∧
    o.ownerId = s.ownerId ∧ o.taskId = s.task.id ∧ o.kind = s.kind ∧
    s.idempotencyKey ≠ none ∧ o.idempotencyKey = s.idempotencyKey ∧
    o.requestHash = s.hash cfg ∧ s.submit cfg v st = (.ok (.operation o.view), none)

/-- The submission raises, without a commit. -/
def Submission.Raises (cfg : Config) (s : Submission) (v : Submission.Views s.task.id)
    (st : Stamp) : Prop :=
  ∃ e, s.submit cfg v st = (.error e, none)

/-- The submission commits a new operation and returns it. -/
def Submission.Commits (cfg : Config) (s : Submission) (v : Submission.Views s.task.id)
    (st : Stamp) : Prop :=
  ∃ op db', s.submit cfg v st = (.ok (.operation op.view), some db') ∧
    s.Queued cfg st v.commit op db'

/-! ## The lookup -/

theorem existing_eq_some {db : Db} {taskId ownerId : Uuid} {kind : AiOperationKind}
    {key : Option Text} {hash : Text} {o : AiOperation}
    (h : existing db taskId ownerId kind key hash = .ok (some o)) :
    o ∈ db.operations ∧ o.ownerId = ownerId ∧ o.taskId = taskId ∧ o.kind = kind ∧
      key ≠ none ∧ o.idempotencyKey = key ∧ o.requestHash = hash := by
  cases key with
  | none => cases h
  | some key =>
    simp only [existing] at h
    split at h
    · cases h
    · rename_i o' ho
      split at h
      · rename_i hhash
        obtain rfl := Option.some.inj (Except.ok.inj h)
        obtain ⟨hm, hu⟩ := Table.scalar_some ho
        simp only [AiOperation.underKey, Bool.and_eq_true, decide_eq_true_eq] at hu
        exact ⟨hm, hu.1.1.2, hu.1.1.1, hu.1.2, by simp, hu.2, hhash⟩
      · cases h

/-! ## The snapshot -/

/-- A snapshot that is applied names the suggestions of the selected analysis. -/
theorem applySuggestionSnapshot_eq_ok {db : Db} {taskId : Uuid} {payload : Payload}
    {ws : List Write} (h : applySuggestionSnapshot db taskId payload = .ok ws) :
    match payload.analysisId with
    | none => ws = []
    | some analysisId =>
      ws = [.applySnapshot taskId analysisId payload.decisions] ∧
      (∃ a ∈ db.analyses, a.id = analysisId ∧ a.taskId = taskId ∧ a.isSelected = true) ∧
      ∀ i, i ∈ payload.decisions.map SuggestionDecisionSubmit.suggestionId ↔
        ∃ r ∈ db.suggestions, r.taskId = taskId ∧ r.analysisId = analysisId ∧ r.id = i := by
  rw [applySuggestionSnapshot] at h
  cases hanalysis : payload.analysisId with
  | none =>
    simp only [hanalysis] at h
    exact (Except.ok.inj h).symm
  | some analysisId =>
    simp only [hanalysis] at h
    split at h
    · cases h
    · rename_i a ha
      split at h
      · rename_i hids
        obtain ⟨hm, ha⟩ := Table.scalar_some ha
        simp only [Bool.and_eq_true, decide_eq_true_eq] at ha
        refine ⟨(Except.ok.inj h).symm, ⟨a, hm, ha.1.1, ha.1.2, ha.2⟩, fun i => ⟨?_, ?_⟩⟩
        · intro hi
          obtain ⟨r, hr, rfl⟩ := List.mem_map.mp (hids.1 i hi)
          obtain ⟨hr, hof⟩ := Table.mem_select.mp hr
          simp only [Bool.and_eq_true, decide_eq_true_eq, Option.some.injEq] at hof
          exact ⟨r, hr, hof.1, hof.2, rfl⟩
        · rintro ⟨r, hr, ht, hra, rfl⟩
          refine hids.2 r (Table.mem_select.mpr ⟨hr, ?_⟩)
          simp [ht, hra]
      · cases h

/-- Applying a snapshot records in each suggestion of the analysis what was submitted. -/
theorem snapshotted {db : Db} {suggestions : Table SuggestionRecord} {taskId analysisId : Uuid}
    {decisions : List SuggestionDecisionSubmit}
    (hselected : ∃ a ∈ db.analyses, a.id = analysisId ∧ a.taskId = taskId ∧ a.isSelected = true)
    (hids : ∀ i, i ∈ decisions.map SuggestionDecisionSubmit.suggestionId ↔
      ∃ r ∈ db.suggestions, r.taskId = taskId ∧ r.analysisId = analysisId ∧ r.id = i)
    (hdb : suggestions = db.suggestions.update
      (fun r => r.taskId = taskId && r.analysisId = analysisId)
      (SuggestionRecord.applySnapshot decisions)
      fun _ => SuggestionRecord.applySnapshot_id ..) :
    Snapshotted db suggestions taskId analysisId decisions where
  selected := hselected
  ids := hids
  decided := by
    intro r hr ht ha
    obtain ⟨d, hd, hdr⟩ := List.mem_map.mp ((hids r.id).mpr ⟨r, hr, ht, ha, rfl⟩)
    have hget := Table.get_of_mem hr
    rcases hfind : decisions.find? fun d => d.suggestionId = r.id with _ | d'
    · exact absurd (decide_eq_true hdr) (List.find?_eq_none.mp hfind d hd)
    · refine ⟨d', List.mem_of_find?_eq_some hfind, by simpa using List.find?_some hfind, ?_⟩
      rw [hdb]
      refine (Table.get_update_of_get _ hget).trans ?_
      simp [ht, ha, SuggestionRecord.applySnapshot, hfind, SuggestionRecord.decide]
  others := by
    intro i hi
    rw [hdb]
    refine Table.get_update_of_not _ fun r hr hk => .inl ?_
    have := hi r (Table.get_eq_some.mpr ⟨hr, hk⟩)
    simpa using this

/-! ## The commit -/

/-- The task of a submission whose transition is allowed gets the running state. -/
theorem apply_running {t : RewriteTask} {kind : AiOperationKind} {now : ℕ}
    (h : assertTransition t.state (runningState kind) = .ok ()) :
    TaskChange.apply { state := assign t.state (runningState kind) } now t
      = { t with state := runningState kind, updatedAt := now } := by
  have hne : runningState kind ≠ t.state := by
    intro he
    have hrun := (initial_of_assertTransition h).1
    rw [← he] at hrun
    cases kind <;> cases hrun
  have hassign : assign t.state (runningState kind) = some (runningState kind) := by
    rw [assign, if_neg hne]
  rw [hassign, TaskChange.apply, if_neg (by simp)]
  rfl

/-- The rows after the snapshot of a submission: at most suggestions have changed. -/
theorem foldlM_of_snapshot {s : Submission} {db db' : Db}
    {ws rest : List Write} (hws : applySuggestionSnapshot db s.task.id s.payload = .ok ws)
    (h : (ws ++ rest).foldlM Write.apply db = some db') :
    ∃ suggestions, rest.foldlM Write.apply { db with suggestions } = some db' ∧
      match s.payload.analysisId with
      | none => suggestions = db.suggestions
      | some analysisId =>
        Snapshotted db suggestions s.task.id analysisId s.payload.decisions := by
  have hspec := applySuggestionSnapshot_eq_ok hws
  rcases ha : s.payload.analysisId with _ | analysisId
  · rw [ha] at hspec
    subst hspec
    exact ⟨db.suggestions, h, rfl⟩
  · rw [ha] at hspec
    obtain ⟨rfl, hselected, hids⟩ := hspec
    exact ⟨_, h, snapshotted hselected hids rfl⟩

/-- **The commit of a submission.** -/
theorem Submission.queued_of_commit {cfg : Config} {s : Submission} {db db' : Db} {st : Stamp}
    {out : Outcome} (hfresh : db.operations.get (st.id 0) = none)
    (htask : db.tasks.get s.task.id = some s.task) (hf : s.finish cfg db st = .ok out)
    (hc : db.commit out.writes = some db') :
    out.reply db' = .ok (.operation (s.operation cfg st).view) ∧
      s.Queued cfg st db (s.operation cfg st) db' := by
  obtain ⟨_, hstate, hf⟩ := bind_eq_ok.mp hf
  obtain ⟨_, -, hf⟩ := bind_eq_ok.mp hf
  obtain ⟨ws, hws, hf⟩ := bind_eq_ok.mp hf
  obtain rfl := Except.ok.inj hf
  obtain ⟨suggestions, hrest, hsuggestions⟩ :=
    foldlM_of_snapshot hws (Db.commit_eq_some.mp hc).1
  -- the two statements after the snapshot
  have hdb : db' = { db with
      suggestions
      operations := db.operations.insert (s.operation cfg st)
      tasks := db.tasks.update (fun t => t.id = s.task.id)
        (TaskChange.apply { state := assign s.task.state (runningState s.kind) } st.now)
        fun _ => TaskChange.apply_id .. } := by
    simp only [List.foldlM_cons, List.foldlM_nil, Write.apply, Option.bind_eq_bind,
      Option.bind_some, htask, Option.map_some] at hrest
    exact (Option.some.inj hrest).symm
  subst hdb
  have hget : (db.operations.insert (s.operation cfg st)).get (s.operation cfg st).id
      = some (s.operation cfg st) := Table.get_insert_self hfresh
  refine ⟨?_, ?_⟩
  · simp only [operationReply, hget]
  · refine ⟨⟨rfl, rfl, rfl⟩, ⟨rfl, rfl, rfl⟩, rfl, ⟨hfresh, hget⟩, ?_, ?_, ?_, hsuggestions,
      ⟨rfl, rfl, rfl, rfl, rfl, rfl⟩⟩
    · exact fun i hi => Table.get_insert_of_ne fun hk => hi hk.symm
    · refine ⟨s.task, htask, rfl, rfl, ?_⟩
      refine (Table.get_update_of_get (fun _ => TaskChange.apply_id ..) htask).trans ?_
      rw [if_pos (by simp), apply_running (ensure_eq_ok.mp hstate)]
    · intro i hi
      refine Table.get_update_of_not (fun _ => TaskChange.apply_id ..) fun t _ hk => .inl ?_
      have : t.id ≠ s.task.id := fun he => hi (hk.symm.trans he)
      simpa using this

/-- What is queued for the refreshed row is queued for the submission. -/
theorem Submission.Queued.of_task {cfg : Config} {s : Submission} {task : RewriteTask}
    {st : Stamp} {db db' : Db} {op : AiOperation} (hid : task.id = s.task.id)
    (h : { s with task }.Queued cfg st db op db') : s.Queued cfg st db op db' where
  ofMember := by
    obtain ⟨h₁, h₂, h₃⟩ := h.ofMember
    exact ⟨h₁, h₂.trans hid, h₃⟩
  ofRequest := by
    have hhash : { s with task }.hash cfg = s.hash cfg := by rw [hash, hash, hid]
    obtain ⟨h₁, h₂, h₃⟩ := h.ofRequest
    exact ⟨h₁, h₂.trans hhash, h₃⟩
  status := h.status
  isNew := h.isNew
  otherOperations := h.otherOperations
  task := by
    obtain ⟨t, ht, h₁, h₂, h₃⟩ := h.task
    exact ⟨t, hid ▸ ht, h₁, h₂, hid ▸ h₃⟩
  otherTasks := fun i hi => h.otherTasks i fun he => hi (he.trans hid)
  suggestions := hid ▸ h.suggestions
  rest := h.rest

/-! ## The three ways -/

theorem Submission.submit_cases (cfg : Config) (s : Submission)
    (v : Submission.Views s.task.id) (st : Stamp)
    (hfresh : v.commit.operations.get (st.id 0) = none) :
    s.Returns cfg v st ∨ s.Raises cfg v st ∨ s.Commits cfg v st := by
  rw [Returns, Raises, Commits, submit]
  by_cases howner : s.task.ownerId ≠ s.ownerId
  · simp only [if_pos howner]
    exact .inr (.inl ⟨_, rfl⟩)
  simp only [if_neg howner]
  rcases hl : s.lookup cfg v.lookup with e | (_ | o)
  · exact .inr (.inl ⟨e, rfl⟩)
  · rcases ht : v.locked.tasks.get s.task.id with _ | task
    · exact .inr (.inl ⟨_, rfl⟩)
    simp only
    by_cases hactive : v.locked.hasActive s.task.id = true
    · rw [if_pos hactive]
      exact .inr (.inl ⟨_, rfl⟩)
    rw [if_neg hactive]
    rcases hf : { s with task }.finish cfg v.commit st with e | out
    · exact .inr (.inl ⟨e, by rw [hf]⟩)
    simp only [hf]
    rcases hc : v.commit.commit out.writes with _ | db'
    · -- a unique index refuses the commit: the second lookup decides
      simp only [afterIntegrityError]
      rcases hr : s.lookup cfg v.relookup with e | (_ | o)
      · exact .inr (.inl ⟨e, rfl⟩)
      · exact .inr (.inl ⟨_, rfl⟩)
      · obtain ⟨hm, h₁, h₂, h₃, h₄, h₅, h₆⟩ := existing_eq_some hr
        exact .inl ⟨o, .inr hm, h₁, h₂, h₃, h₄, h₅, h₆, rfl⟩
    · obtain ⟨-, hid⟩ := Table.get_eq_some.mp ht
      have hid : task.id = s.task.id := hid
      have hrow : v.commit.tasks.get task.id = some task := by rw [hid, v.held, ht]
      obtain ⟨hreply, hq⟩ := queued_of_commit (s := { s with task }) hfresh hrow hf hc
      exact .inr (.inr ⟨_, db', Prod.ext hreply rfl, hq.of_task hid⟩)
  · obtain ⟨hm, h₁, h₂, h₃, h₄, h₅, h₆⟩ := existing_eq_some hl
    exact .inl ⟨o, .inl hm, h₁, h₂, h₃, h₄, h₅, h₆, rfl⟩

/-- **Submission is atomic.** For every database at each of its reads, a submission ends in
exactly one of three ways: it returns an operation of the same member, task, kind, key and
request hash and commits nothing, it raises and commits nothing, or it commits the new
operation, the running state of its task and its decision snapshot together. -/
theorem Submission.ends_one_way (cfg : Config) (s : Submission)
    (v : Submission.Views s.task.id) (st : Stamp)
    (hfresh : v.commit.operations.get (st.id 0) = none) :
    (s.Returns cfg v st ∧ ¬ s.Raises cfg v st ∧ ¬ s.Commits cfg v st) ∨
    (¬ s.Returns cfg v st ∧ s.Raises cfg v st ∧ ¬ s.Commits cfg v st) ∨
    (¬ s.Returns cfg v st ∧ ¬ s.Raises cfg v st ∧ s.Commits cfg v st) := by
  have hcases := s.submit_cases cfg v st hfresh
  -- the answer and the commit tell the three apart
  have hrr : ¬ (s.Returns cfg v st ∧ s.Raises cfg v st) := by
    rintro ⟨⟨o, -, -, -, -, -, -, -, ho⟩, e, he⟩
    exact nomatch (Prod.mk.inj (ho.symm.trans he)).1
  have hrc : ¬ (s.Returns cfg v st ∧ s.Commits cfg v st) := by
    rintro ⟨⟨o, -, -, -, -, -, -, -, ho⟩, op, db', hop, -⟩
    exact nomatch (Prod.mk.inj (ho.symm.trans hop)).2
  have hec : ¬ (s.Raises cfg v st ∧ s.Commits cfg v st) := by
    rintro ⟨⟨e, he⟩, op, db', hop, -⟩
    exact nomatch (Prod.mk.inj (he.symm.trans hop)).2
  tauto

namespace Sample

/-- A task of member 1. -/
def draft : RewriteTask where
  id := 10
  ownerId := 1
  name := "n".toList
  sourceText := "s".toList
  creativeSettings := none
  state := .draft
  createdAt := 0
  updatedAt := 0

/-- The database with the task. -/
def drafted : Db := { Sys.Sample.start.db with tasks := ⟨[draft], by decide⟩ }

/-- A submission of an analysis of the task. -/
def submission : Submission := ⟨draft, 1, .analysis, .analysis, none, none⟩

/-- The task with a suggestion for its analysis. -/
def advised : RewriteTask := { draft with state := .suggestionsReady }

/-- The database with the suggestion, 70, and its analysis, 40. -/
def advice : Db := {
  Sys.Sample.start.db with
  tasks := ⟨[advised], by decide⟩
  analyses := ⟨[{
    id := 40, taskId := 10, sequence := 1, payload := .text ⟨⟨"advice".toList, by decide⟩⟩
    promptTemplateVersion := [], modelIdentifier := "m".toList, createdAt := 1 }], by simp⟩
  suggestions := ⟨[{
    id := 70, taskId := 10, analysisId := 40, suggestionKey := [], title := [], problem := []
    direction := [], reason := [], impactScope := [], createdAt := 2 }], by decide⟩ }

/-- A submission of a first draft that takes the suggestion. -/
def choice : Submission :=
  ⟨advised, 1, .firstDraft, .firstDraft ⟨40, ⟨[⟨70, true, none⟩], by decide⟩, noText _⟩, none,
    none⟩

end Sample

/-- The submission of an analysis commits, and so does that of a first draft with a decision. -/
theorem Submission.ends_one_way_served :
    Sample.submission.Commits Sys.Sample.cfg
        ⟨Sample.drafted, Sample.drafted, Sample.drafted, Sample.drafted, rfl⟩ ⟨5, [20]⟩ ∧
      Sample.choice.Commits Sys.Sample.cfg
        ⟨Sample.advice, Sample.advice, Sample.advice, Sample.advice, rfl⟩ ⟨5, [20]⟩ := by
  have hcommits : ∀ (s : Submission) (v : Submission.Views s.task.id) (st : Stamp),
      (s.submit Sys.Sample.cfg v st).2.isSome = true →
      ¬ s.Returns Sys.Sample.cfg v st ∧ ¬ s.Raises Sys.Sample.cfg v st := by
    intro s v st hsome
    constructor
    · rintro ⟨o, -, -, -, -, -, -, -, ho⟩
      rw [ho] at hsome
      cases hsome
    · rintro ⟨e, he⟩
      rw [he] at hsome
      cases hsome
  constructor
  · obtain ⟨hreturns, hraises⟩ := hcommits Sample.submission
      ⟨Sample.drafted, Sample.drafted, Sample.drafted, Sample.drafted, rfl⟩ ⟨5, [20]⟩
      (by decide)
    have h := Submission.ends_one_way Sys.Sample.cfg Sample.submission
      ⟨Sample.drafted, Sample.drafted, Sample.drafted, Sample.drafted, rfl⟩ ⟨5, [20]⟩ rfl
    tauto
  · obtain ⟨hreturns, hraises⟩ := hcommits Sample.choice
      ⟨Sample.advice, Sample.advice, Sample.advice, Sample.advice, rfl⟩ ⟨5, [20]⟩
      (by decide)
    have h := Submission.ends_one_way Sys.Sample.cfg Sample.choice
      ⟨Sample.advice, Sample.advice, Sample.advice, Sample.advice, rfl⟩ ⟨5, [20]⟩ rfl
    tauto

/-! ## Without others in between -/

/-- A request that opens a submission and that nothing interrupts is the submission against
one database. -/
theorem handle_of_openSubmission {cfg : Config} {db : Db} {m : Uuid} {st : Stamp} {r : Request}
    {s : Submission} (ho : opening cfg db m r = openSubmission cfg db s)
    (ht : s.task ∈ db.tasks) (howner : s.task.ownerId = s.ownerId) :
    ((s.submit cfg ⟨db, db, db, db, rfl⟩ st).2.getD db,
      (s.submit cfg ⟨db, db, db, db, rfl⟩ st).1) = handle cfg db m st r := by
  have hget : db.tasks.get s.task.id = some s.task := Table.get_of_mem ht
  simp only [Submission.submit, handle, ho, openSubmission, ne_eq, howner, not_true_eq_false,
    if_false]
  rcases Submission.lookup cfg db s with e | (_ | o)
  · rfl
  · simp only [hget, Pending.task, Pending.refresh, Option.getD_some, Pending.complete,
      Pending.finish, Pending.busy]
    by_cases hactive : db.hasActive s.task.id = true
    · simp only [if_pos hactive]
      rfl
    · simp only [if_neg hactive]
      rcases Submission.finish cfg db st _ with e | out
      · rfl
      · simp only
        rcases db.commit out.writes with _ | db'
        · rfl
        · rfl
  · rfl

/-- A request to submit that nothing interrupts is a submission against one database. -/
theorem handle_submit {cfg : Config} {db : Db} {m : Uuid} {st : Stamp} {taskId : Uuid}
    {payload : Payload} {key requestId : Option Text} {task : RewriteTask}
    (ht : db.ownedTask taskId m = .ok task) :
    ∃ s : Submission, s.task = task ∧ s.ownerId = m ∧ s.kind = payload.kind ∧
      s.payload = payload ∧ s.idempotencyKey = key ∧
      ((s.submit cfg ⟨db, db, db, db, rfl⟩ st).2.getD db,
        (s.submit cfg ⟨db, db, db, db, rfl⟩ st).1)
          = handle cfg db m st (.submit taskId payload key requestId) := by
  obtain ⟨hm, -, hown⟩ := ownedTask_eq_ok ht
  refine ⟨⟨task, m, payload.kind, payload, key,
    if payload = .analysis then none else requestId⟩, rfl, rfl, rfl, rfl, rfl, ?_⟩
  refine handle_of_openSubmission ?_ hm hown
  simp only [opening, ht, Opening.bind]

/-- So is a request to retry, of the submission made from the operation. -/
theorem handle_retry {cfg : Config} {db : Db} {m : Uuid} {st : Stamp} {opId : Uuid}
    {key : Option Text} {s : Submission} (hs : retrySubmission db m opId key = .ok s) :
    ((s.submit cfg ⟨db, db, db, db, rfl⟩ st).2.getD db,
      (s.submit cfg ⟨db, db, db, db, rfl⟩ st).1)
        = handle cfg db m st (.retryOperation opId key) := by
  obtain ⟨hm, hown, howner, -⟩ := retrySubmission_eq_ok hs
  refine handle_of_openSubmission ?_ hm (hown.trans howner.symm)
  simp only [opening, hs, Opening.bind]

end DouyinCaption

import DouyinCaption.Router

/-!
# What the opening of a request loads

The inversion of `opening` for the requests it does not answer at once
(`loadedBy_of_opening`).
-/

namespace DouyinCaption

open Tables

section Openings

variable {cfg : Config} {db : Db} {m : Uuid} {r : Request} {pd : Pending}

/-- An opening that goes on after a lookup has found what it looked for. -/
theorem Opening.bind_eq_pending {α : Type} {x : Except ApiError α} {f : α → Opening} :
    Opening.bind x f = .pending pd ↔ ∃ a, x = .ok a ∧ f a = .pending pd := by
  cases x with
  | error e => exact ⟨fun h => (nomatch h), fun ⟨_, h, _⟩ => (nomatch h)⟩
  | ok a => exact ⟨fun h => ⟨a, rfl, h⟩, fun ⟨_, h, hf⟩ => Except.ok.inj h ▸ hf⟩

/-- The task found is stored, has the identifier asked for and is the member's. -/
theorem ownedTask_eq_ok {taskId : Uuid} {t : RewriteTask} (h : db.ownedTask taskId m = .ok t) :
    t ∈ db.tasks ∧ t.id = taskId ∧ t.ownerId = m := by
  rw [Db.ownedTask] at h
  split at h
  · cases h
  · rename_i t' ht
    obtain rfl := Except.ok.inj h
    obtain ⟨hm, hp⟩ := Table.scalar_some ht
    simp only [Bool.and_eq_true, decide_eq_true_eq] at hp
    exact ⟨hm, hp⟩

/-- So is the operation found. -/
theorem ownedOperation_eq_ok {opId : Uuid} {o : AiOperation}
    (h : db.ownedOperation m opId = .ok o) : o ∈ db.operations ∧ o.id = opId ∧ o.ownerId = m := by
  rw [Db.ownedOperation] at h
  split at h
  · cases h
  · rename_i o' ho
    obtain rfl := Except.ok.inj h
    obtain ⟨hm, hp⟩ := Table.scalar_some ho
    simp only [Bool.and_eq_true, decide_eq_true_eq] at hp
    exact ⟨hm, hp⟩

/-- A submission goes on where no operation has its key. -/
theorem openSubmission_eq_pending {s : Submission} (h : openSubmission cfg db s = .pending pd) :
    pd = .submit s ∧ s.lookup cfg db = .ok none := by
  rw [openSubmission] at h
  split at h
  · cases h
  · cases h
  · rename_i hl
    exact ⟨(Opening.pending.inj h).symm, hl⟩

/-- What a retry submits: the payload of the operation again, for a task of the member that is
stored, under the key of the request. -/
theorem retrySubmission_eq_ok {opId : Uuid} {key : Option Text} {s : Submission}
    (h : retrySubmission db m opId key = .ok s) :
    s.task ∈ db.tasks ∧ s.task.ownerId = m ∧ s.ownerId = m ∧ s.payload.kind = s.kind ∧
      s.idempotencyKey = key := by
  obtain ⟨o, ho, h⟩ := bind_eq_ok.mp h
  obtain ⟨_, -, h⟩ := bind_eq_ok.mp h
  obtain ⟨_, -, h⟩ := bind_eq_ok.mp h
  split at h
  · cases h
  · rename_i t ht
    obtain ⟨_, hkind, h⟩ := bind_eq_ok.mp h
    obtain ⟨_, howner, h⟩ := bind_eq_ok.mp h
    obtain rfl := Except.ok.inj h
    exact ⟨(Table.get_eq_some.mp ht).1, ensure_eq_ok.mp howner, rfl, ensure_eq_ok.mp hkind, rfl⟩

/-- What a request has loaded after its opening reads. -/
structure Pending.LoadedBy (cfg : Config) (db : Db) (m : Uuid) (r : Request) (pd : Pending) :
    Prop where
  /-- its task is one of the member's -/
  task : ∀ t, pd.task = some t → t ∈ db.tasks ∧ t.ownerId = m
  /-- a submission is the member's, and no operation has its key -/
  submit : ∀ s, pd = .submit s → s.ownerId = m ∧ s.payload.kind = s.kind ∧
    s.lookup cfg db = .ok none
  /-- a cancellation is of the operation asked for -/
  cancel : ∀ op task, pd = .cancelOperation op task → op ∈ db.operations ∧ op.ownerId = m ∧
    task = db.tasks.get op.taskId ∧ r = .cancelOperation op.id
  /-- and nothing else answers a request to cancel -/
  cancelled : ∀ opId, r = .cancelOperation opId → ∃ op task, pd = .cancelOperation op task

/-- A request about a task, which is neither a submission nor a cancellation. -/
theorem Pending.LoadedBy.of_task {t : RewriteTask} (ht : t ∈ db.tasks ∧ t.ownerId = m)
    (htask : pd.task = some t) (hsubmit : ∀ s, pd ≠ .submit s)
    (hr : ∀ opId, r ≠ .cancelOperation opId) : pd.LoadedBy cfg db m r where
  task := by
    intro t' ht'
    obtain rfl := Option.some.inj (htask.symm.trans ht')
    exact ht
  submit := fun s hs => absurd hs (hsubmit s)
  cancel := by
    rintro op task rfl
    cases htask
  cancelled := fun opId h => absurd h (hr opId)

/-- A request that locks no task. -/
theorem Pending.LoadedBy.of_none (htask : pd.task = none)
    (hpd : ∀ op task, pd ≠ .cancelOperation op task) (hr : ∀ opId, r ≠ .cancelOperation opId) :
    pd.LoadedBy cfg db m r where
  task := fun t ht => by rw [htask] at ht; cases ht
  submit := by
    rintro s rfl
    cases htask
  cancel := fun op task h => absurd h (hpd op task)
  cancelled := fun opId h => absurd h (hr opId)

/-- A submission. -/
theorem Pending.LoadedBy.of_submission {s : Submission} (hr : ∀ opId, r ≠ .cancelOperation opId)
    (ht : s.task ∈ db.tasks ∧ s.task.ownerId = m) (howner : s.ownerId = m)
    (hkind : s.payload.kind = s.kind) (hl : s.lookup cfg db = .ok none) :
    (Pending.submit s).LoadedBy cfg db m r where
  task := by
    intro t' ht'
    obtain rfl := Option.some.inj ht'
    exact ht
  submit := by
    rintro s' hs'
    obtain rfl := Pending.submit.inj hs'
    exact ⟨howner, hkind, hl⟩
  cancel := fun op task h => nomatch h
  cancelled := fun opId h => absurd h (hr opId)

/-- **What the opening reads load.** -/
theorem loadedBy_of_opening (h : opening cfg db m r = .pending pd) : pd.LoadedBy cfg db m r := by
  cases r with
  | createPreset | createTask | clearHistory =>
    obtain rfl := Opening.pending.inj h
    exact .of_none rfl (by simp) (by simp)
  | updatePreset | deletePreset =>
    obtain ⟨_, -, h⟩ := Opening.bind_eq_pending.mp h
    obtain rfl := Opening.pending.inj h
    exact .of_none rfl (by simp) (by simp)
  | copyTask =>
    obtain ⟨_, -, h⟩ := Opening.bind_eq_pending.mp h
    obtain rfl := Opening.pending.inj h
    exact .of_none rfl (by simp) (by simp)
  | updateTask | archiveTask | restoreTask | updateAnalysis | updateSuggestion | deleteLock =>
    obtain ⟨t, ht, h⟩ := Opening.bind_eq_pending.mp h
    obtain rfl := Opening.pending.inj h
    have hown := ownedTask_eq_ok ht
    exact .of_task ⟨hown.1, hown.2.2⟩ rfl (by simp) (by simp)
  | manualEdit | createLock | finalizeVersion =>
    obtain ⟨_, -, h⟩ := Opening.bind_eq_pending.mp h
    obtain ⟨t, ht, h⟩ := Opening.bind_eq_pending.mp h
    obtain rfl := Opening.pending.inj h
    have hown := ownedTask_eq_ok ht
    exact .of_task ⟨hown.1, hown.2.2⟩ rfl (by simp) (by simp)
  | submit taskId payload key requestId =>
    obtain ⟨t, ht, h⟩ := Opening.bind_eq_pending.mp h
    obtain ⟨rfl, hl⟩ := openSubmission_eq_pending h
    have hown := ownedTask_eq_ok ht
    exact .of_submission (by simp) ⟨hown.1, hown.2.2⟩ rfl rfl hl
  | retryOperation operationId key =>
    obtain ⟨s, hs, h⟩ := Opening.bind_eq_pending.mp h
    obtain ⟨rfl, hl⟩ := openSubmission_eq_pending h
    obtain ⟨hm, hown, howner, hkind, -⟩ := retrySubmission_eq_ok hs
    exact .of_submission (by simp) ⟨hm, hown⟩ howner hkind hl
  | cancelOperation operationId =>
    obtain ⟨o, ho, h⟩ := Opening.bind_eq_pending.mp h
    obtain rfl := Opening.pending.inj h
    obtain ⟨hm, rfl, hown⟩ := ownedOperation_eq_ok ho
    refine ⟨fun t ht => (nomatch ht), fun s hs => (nomatch hs), fun op task he => ?_, fun _ _ =>
      ⟨_, _, rfl⟩⟩
    obtain ⟨rfl, rfl⟩ := Pending.cancelOperation.inj he
    exact ⟨hm, hown, rfl, rfl⟩
  | getTask | getAnalyses | getSuggestions | listVersions | getVersion | getLocks =>
    obtain ⟨_, -, h⟩ := Opening.bind_eq_pending.mp h
    cases h
  | getAnalysis | compareVersions =>
    obtain ⟨_, -, h⟩ := Opening.bind_eq_pending.mp h
    obtain ⟨_, -, h⟩ := Opening.bind_eq_pending.mp h
    cases h
  | exportFinal =>
    obtain ⟨_, -, h⟩ := Opening.bind_eq_pending.mp h
    split at h <;> cases h
  | getOperation =>
    simp only [opening] at h
    split at h <;> cases h
  | listPresets | listTasks | listOperations => cases h

end Openings

end DouyinCaption

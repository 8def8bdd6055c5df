import DouyinCaption.Confinement

/-!
# What a member is answered

The opening of a member's request depends on the member's own rows alone
(`opening_ofMember`): whatever the other members do meanwhile, it finds what it would have
found before (`opening_apart`).
-/

namespace DouyinCaption

open Tables Runs

section Openings

variable {cfg : Config} {db : Db} {m : Uuid}

/-- Every operation is of a task of its owner. -/
def Db.OwnOperations (db : Db) : Prop := ∀ o ∈ db.operations, db.owns o.ownerId o.taskId = true

/-- Two openings agree where they look the same up and go on alike from what it finds. -/
theorem Opening.bind_congr {α : Type} {x x' : Except ApiError α} {f f' : α → Opening} (hx : x = x')
    (hf : ∀ a, x' = .ok a → f a = f' a) : Opening.bind x f = Opening.bind x' f' := by
  subst hx
  cases x with
  | error e => rfl
  | ok a => exact hf a rfl

/-! ## The rows a request looks up -/

/-- A query for tasks of the member finds the same among the member's. -/
theorem scalar_tasks_ofMember {q : RewriteTask → Bool} (hq : ∀ t, q t = true → t.ownerId = m) :
    (db.ofMember m).tasks.scalar q = db.tasks.scalar q :=
  Table.scalar_keep fun t _ ht => decide_eq_true (hq t ht)

/-- So does a query for operations of the member. -/
theorem scalar_operations_ofMember {q : AiOperation → Bool} (hq : ∀ o, q o = true → o.ownerId = m) :
    (db.ofMember m).operations.scalar q = db.operations.scalar q :=
  Table.scalar_keep fun o _ ho => decide_eq_true (hq o ho)

/-- The check that a task is the member's asks for its owner. -/
theorem ownedTask_ofMember (taskId : Uuid) :
    (db.ofMember m).ownedTask taskId m = db.ownedTask taskId m := by
  rw [Db.ownedTask, Db.ownedTask, scalar_tasks_ofMember fun t ht => by
    simp only [Bool.and_eq_true, decide_eq_true_eq] at ht
    exact ht.2]

theorem ownedPreset_ofMember (presetId : Uuid) :
    (db.ofMember m).ownedPreset presetId m = db.ownedPreset presetId m := by
  have hscalar : (db.ofMember m).presets.scalar (fun p => p.id = presetId && p.ownerId = m) =
      db.presets.scalar fun p => p.id = presetId && p.ownerId = m :=
    Table.scalar_keep fun p _ hp => by
      simp only [Bool.and_eq_true] at hp
      exact hp.2
  rw [Db.ownedPreset, Db.ownedPreset, hscalar]

theorem ownedOperation_ofMember (operationId : Uuid) :
    (db.ofMember m).ownedOperation m operationId = db.ownedOperation m operationId := by
  rw [Db.ownedOperation, Db.ownedOperation, scalar_operations_ofMember fun o ho => by
    simp only [Bool.and_eq_true, decide_eq_true_eq] at ho
    exact ho.2]

/-- A task that is found as the member's is the member's. -/
theorem owns_of_ownedTask {taskId : Uuid} {t : RewriteTask} (h : db.ownedTask taskId m = .ok t) :
    db.owns m taskId = true :=
  have hown := ownedTask_eq_ok h
  Db.owns_iff.mpr ⟨t, hown.1, hown.2⟩

/-- A version is found through its task, which has to be the member's: the subquery reads the rows
of others too, but only the member's decide. -/
theorem ownedVersion_ofMember (taskId versionId : Uuid) :
    (db.ofMember m).ownedVersion taskId versionId m = db.ownedVersion taskId versionId m := by
  have htask : ∀ id, ((db.ofMember m).tasks.scalar fun t => t.id = id && t.ownerId = m) =
      db.tasks.scalar fun t => t.id = id && t.ownerId = m := fun id =>
    scalar_tasks_ofMember fun t ht => by
      simp only [Bool.and_eq_true, decide_eq_true_eq] at ht
      exact ht.2
  -- a version that is found has a task, and the task is the member's
  have hscalar : (db.ofMember m).versions.scalar (fun v => v.id = versionId && v.taskId = taskId &&
        (db.tasks.scalar fun t => t.id = v.taskId && t.ownerId = m).isSome) =
      db.versions.scalar fun v => v.id = versionId && v.taskId = taskId &&
        (db.tasks.scalar fun t => t.id = v.taskId && t.ownerId = m).isSome := by
    refine Table.scalar_keep fun v _ hv => ?_
    simp only [Bool.and_eq_true] at hv
    obtain ⟨t, ht⟩ := Option.isSome_iff_exists.mp hv.2
    obtain ⟨hm, hsel⟩ := Table.scalar_some ht
    simp only [Bool.and_eq_true, decide_eq_true_eq] at hsel
    exact Db.owns_iff.mpr ⟨t, hm, hsel⟩
  rw [Db.ownedVersion, Db.ownedVersion]
  simp only [htask, hscalar]

/-- The rows of a member's task are all among the member's. -/
theorem select_analyses_ofMember {taskId : Uuid} (howns : db.owns m taskId = true)
    {q : AnalysisRecord → Bool} (hq : ∀ r, q r = true → r.taskId = taskId) :
    (db.ofMember m).analyses.select q = db.analyses.select q :=
  Table.select_keep fun r _ hr => by rw [hq r hr]; exact howns

/-- The suggestions of a member's task are among the member's, as are its versions and locks. -/
theorem select_suggestions_ofMember {taskId : Uuid} (howns : db.owns m taskId = true)
    {q : SuggestionRecord → Bool} (hq : ∀ r, q r = true → r.taskId = taskId) :
    (db.ofMember m).suggestions.select q = db.suggestions.select q :=
  Table.select_keep fun r _ hr => by rw [hq r hr]; exact howns

theorem select_versions_ofMember {taskId : Uuid} (howns : db.owns m taskId = true)
    {q : ScriptVersion → Bool} (hq : ∀ v, q v = true → v.taskId = taskId) :
    (db.ofMember m).versions.select q = db.versions.select q :=
  Table.select_keep fun v _ hv => by rw [hq v hv]; exact howns

theorem select_locks_ofMember {taskId : Uuid} (howns : db.owns m taskId = true)
    {q : LockedFragment → Bool} (hq : ∀ l, q l = true → l.taskId = taskId) :
    (db.ofMember m).locks.select q = db.locks.select q :=
  Table.select_keep fun l _ hl => by rw [hq l hl]; exact howns

/-- A member's task is found by its identifier among the member's. -/
theorem get_tasks_ofMember {taskId : Uuid} (howns : db.owns m taskId = true) :
    (db.ofMember m).tasks.get taskId = db.tasks.get taskId := by
  refine Table.scalar_keep fun t ht hid => ?_
  have hid : t.id = taskId := of_decide_eq_true hid
  rw [← Db.owns_of_mem ht, hid]
  exact howns

/-- An analysis is looked up within its task. -/
theorem analysisOf_ofMember {taskId : Uuid} (howns : db.owns m taskId = true) (analysisId : Uuid) :
    (db.ofMember m).analysisOf taskId analysisId = db.analysisOf taskId analysisId := by
  rw [Db.analysisOf, Db.analysisOf, Table.scalar_eq_head?, Table.scalar_eq_head?,
    select_analyses_ofMember howns fun r hr => by
      simp only [Bool.and_eq_true, decide_eq_true_eq] at hr
      exact hr.2]

/-- The suggestions shown are those of one analysis of the task; without a given one it is the one
selected. -/
theorem listSuggestions_ofMember {taskId : Uuid} (howns : db.owns m taskId = true)
    (analysisId : Option Uuid) :
    (db.ofMember m).listSuggestions taskId analysisId = db.listSuggestions taskId analysisId := by
  -- first the analysis, then its suggestions
  have hshown : (db.ofMember m).shownAnalysis taskId analysisId =
      db.shownAnalysis taskId analysisId := by
    cases analysisId with
    | some a => rfl
    | none =>
      simp only [Db.shownAnalysis]
      rw [Table.scalar_eq_head?, Table.scalar_eq_head?,
        select_analyses_ofMember howns fun r hr => by
        simp only [Bool.and_eq_true, decide_eq_true_eq] at hr
        exact hr.1]
  have hrows : ∀ a, (db.ofMember m).suggestionsOf taskId a = db.suggestionsOf taskId a := fun a =>
    select_suggestions_ofMember howns fun r hr => by
      simp only [Bool.and_eq_true, decide_eq_true_eq] at hr
      exact hr.1
  rw [Db.listSuggestions, Db.listSuggestions, hshown]
  simp only [hrows]

/-! ## The opening of a request -/

/-- Whether a key has been used is a question about the operations of its member. -/
theorem lookup_ofMember {s : Submission} (howner : s.ownerId = m) :
    s.lookup cfg (db.ofMember m) = s.lookup cfg db := by
  rw [Submission.lookup, Submission.lookup]
  cases s.idempotencyKey with
  | none => rfl
  | some key =>
    simp only [existing]
    rw [scalar_operations_ofMember fun o ho => by
      simp only [AiOperation.underKey, Bool.and_eq_true, decide_eq_true_eq] at ho
      exact ho.1.1.2.trans howner]

theorem openSubmission_ofMember {s : Submission} (howner : s.ownerId = m) :
    openSubmission cfg (db.ofMember m) s = openSubmission cfg db s := by
  rw [openSubmission, openSubmission, lookup_ofMember howner]

/-- A retry reads the task of the operation it repeats. It is the member's, as the operation is of
a task of its owner. -/
theorem retrySubmission_ofMember (hown : db.OwnOperations) (operationId : Uuid)
    (key : Option Text) :
    retrySubmission (db.ofMember m) m operationId key = retrySubmission db m operationId key := by
  rw [retrySubmission, retrySubmission, ownedOperation_ofMember]
  rcases ho : db.ownedOperation m operationId with e | o
  · rfl
  · obtain ⟨hm, -, howner⟩ := ownedOperation_eq_ok ho
    have howns : db.owns m o.taskId = true := howner ▸ hown o hm
    simp only [bind, Except.bind, get_tasks_ofMember howns]

/-- **The opening of a request depends on the rows of its member alone.** -/
theorem opening_ofMember (hown : db.OwnOperations) (r : Request) :
    opening cfg (db.ofMember m) m r = opening cfg db m r := by
  cases r with
  | listPresets =>
    have hrows : (db.ofMember m).presets.select (fun p => p.ownerId = m) =
        db.presets.select fun p => p.ownerId = m := Table.select_keep fun p _ hp => hp
    simp only [opening, hrows]
  -- these three look nothing up before their transaction
  | createPreset | createTask | clearHistory => rfl
  | updatePreset | deletePreset => exact Opening.bind_congr (ownedPreset_ofMember _) fun _ _ => rfl
  | listTasks search state archived offset limit =>
    have hrows : (db.ofMember m).listTasks cfg m search state archived offset limit =
        db.listTasks cfg m search state archived offset limit := by
      rw [Db.listTasks, Db.listTasks]
      congr 3
      refine Table.select_keep fun t _ ht => ?_
      simp only [Bool.and_eq_true] at ht
      exact ht.1.1
    simp only [opening, hrows]
  | getTask | updateTask | copyTask | archiveTask | restoreTask | updateAnalysis
  | updateSuggestion | deleteLock =>
    -- all they look up is their task
    exact Opening.bind_congr (ownedTask_ofMember _) fun _ _ => rfl
  | submit taskId payload key requestId =>
    exact Opening.bind_congr (ownedTask_ofMember _) fun _ _ => openSubmission_ofMember rfl
  | getAnalysis taskId analysisId =>
    refine Opening.bind_congr (ownedTask_ofMember _) fun t ht => ?_
    exact Opening.bind_congr (analysisOf_ofMember (owns_of_ownedTask ht) _) fun _ _ => rfl
  | getAnalyses taskId =>
    refine Opening.bind_congr (ownedTask_ofMember _) fun t ht => ?_
    rw [select_analyses_ofMember (owns_of_ownedTask ht) fun r hr => of_decide_eq_true hr]
  | getSuggestions taskId analysisId =>
    refine Opening.bind_congr (ownedTask_ofMember _) fun t ht => ?_
    rw [listSuggestions_ofMember (owns_of_ownedTask ht)]
  | listOperations =>
    have hrows : (db.ofMember m).listOperations m = db.listOperations m := by
      rw [Db.listOperations, Db.listOperations]
      have hselect : ∀ q : AiOperation → Bool, (∀ o, q o = true → o.ownerId = m) →
          (db.ofMember m).operations.select q = db.operations.select q := fun q hq =>
        Table.select_keep fun o _ ho => decide_eq_true (hq o ho)
      rw [hselect, hselect]
      all_goals
        intro o ho
        simp only [Bool.and_eq_true, decide_eq_true_eq] at ho
        exact ho.1
    simp only [opening, hrows]
  | cancelOperation operationId =>
    refine Opening.bind_congr (ownedOperation_ofMember _) fun o ho => ?_
    obtain ⟨hm, -, howner⟩ := ownedOperation_eq_ok ho
    rw [get_tasks_ofMember (howner ▸ hown o hm)]
  | retryOperation operationId key =>
    refine Opening.bind_congr (retrySubmission_ofMember hown _ _) fun s hs => ?_
    exact openSubmission_ofMember (retrySubmission_eq_ok hs).2.2.1
  | getOperation operationId =>
    -- the query itself asks for the owner
    simp only [opening]
    rw [scalar_operations_ofMember fun o ho => by
      simp only [Bool.and_eq_true, decide_eq_true_eq] at ho
      exact ho.2]
  | listVersions taskId =>
    refine Opening.bind_congr (ownedTask_ofMember _) fun t ht => ?_
    rw [select_versions_ofMember (owns_of_ownedTask ht) fun v hv => of_decide_eq_true hv]
  | getVersion => exact Opening.bind_congr (ownedVersion_ofMember _ _) fun _ _ => rfl
  | manualEdit | createLock | finalizeVersion =>
    refine Opening.bind_congr (ownedVersion_ofMember _ _) fun _ _ => ?_
    exact Opening.bind_congr (ownedTask_ofMember _) fun _ _ => rfl
  | compareVersions =>
    refine Opening.bind_congr (ownedVersion_ofMember _ _) fun _ _ => ?_
    exact Opening.bind_congr (ownedVersion_ofMember _ _) fun _ _ => rfl
  | getLocks taskId =>
    refine Opening.bind_congr (ownedTask_ofMember _) fun t ht => ?_
    rw [Db.locksOf, Db.locksOf,
      select_locks_ofMember (owns_of_ownedTask ht) fun l hl => of_decide_eq_true hl]
  | exportFinal taskId format =>
    refine Opening.bind_congr (ownedTask_ofMember _) fun t ht => ?_
    rw [Table.scalar_eq_head?, Table.scalar_eq_head?,
      select_versions_ofMember (owns_of_ownedTask ht) fun v hv => by
        simp only [Bool.and_eq_true, decide_eq_true_eq] at hv
        exact hv.1]

end Openings

namespace Sys

variable {cfg : Config} {s s' : Sys}

/-- In a reachable state every operation is of a task of its owner. -/
theorem Apart.ownOperations (hx : s.Apart) : s.db.OwnOperations := fun o ho =>
  (hx.operations.stored o ho).2

/-- A step of others: of requests, jobs and ticks that are not the member's. -/
def OfOthers (m : Uuid) (s : Sys) (a : Action) : Prop :=
  ¬ s.ActsFor m a ∧ ∀ members providers, a ≠ .configure members providers

/-- **Whatever the others do, a request of a member finds what it would have found before**: the
same answer, where it is answered at once, and else the same rows to decide from. -/
theorem opening_apart (m : Uuid) (hs : Reachable cfg s) (h : Steps (system cfg) (OfOthers m) s s')
    (r : Request) : opening cfg s'.db m r = opening cfg s.db m r := by
  have hreach : ∀ {s'}, Steps (system cfg) (OfOthers m) s s' → Reachable cfg s' := fun h =>
    hs.append (h.mono fun _ _ _ => trivial)
  -- by induction on the steps of the others
  have hsame : s'.db.ofMember m = s.db.ofMember m := by
    induction h with
    | refl => rfl
    | tail h hp hstep ih =>
      exact (ofMember_of_step (hreach h) hstep hp.1 hp.2).trans ih
  -- both openings are those on the rows of the member, which are the same
  rw [← opening_ofMember (apart (hreach h)).ownOperations, hsame,
    opening_ofMember (apart hs).ownOperations]

namespace Sample

/-- The step is one of a request of another member than the first. -/
def ofSecond (s : Sys) : Action → Bool
  | .request .. => true
  | .commit p _ => match s.procs p with
    | .opened m _ _ | .locked m _ _ => m ≠ 1
    | _ => true
  | _ => false

theorem ofOthers_of_ofSecond (s : Sys) (a : Action) (h : ofSecond s a = true) :
    OfOthers 1 s a := by
  refine ⟨fun hacts => ?_, by rintro _ _ rfl; cases h⟩
  cases hacts with
  | request hp => rcases hp with hp | hp <;> simp [ofSecond, hp] at h
  | job => cases h
  | tick => cases h

theorem run_second : ((system Sample.cfg).run start [.request 0 1 (.createTask create),
    .commit 0 (ids 1)]).any (fun s => ((system Sample.cfg).runIf ofSecond s
      [.request 1 2 (.createTask create), .commit 1 (ids 2)]).any fun s' =>
        s'.db.tasks.rows.map RewriteTask.id = [10, 20]) = true := by
  decide

end Sample

/-- The first member reads task 10 as before the second has created one. -/
theorem opening_apart_second : ∃ s s' : Sys, Reachable Sample.cfg s ∧
    s'.db.tasks.rows.map RewriteTask.id = [10, 20] ∧
      opening Sample.cfg s'.db 1 (.getTask 10) = opening Sample.cfg s.db 1 (.getTask 10) := by
  obtain ⟨s, hrun, hcheck⟩ := (Option.any_eq_true ..).mp Sample.run_second
  obtain ⟨s', hrun', hids⟩ := (Option.any_eq_true ..).mp hcheck
  have hs : Reachable Sample.cfg s :=
    reach_of_run (.init Sample.initial_start) (fun _ _ _ => trivial) hrun
  exact ⟨s, s', hs, of_decide_eq_true hids,
    opening_apart 1 hs (steps_of_runIf Sample.ofOthers_of_ofSecond hrun') (.getTask 10)⟩

end Sys

end DouyinCaption

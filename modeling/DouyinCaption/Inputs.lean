import DouyinCaption.Effects
import DouyinCaption.Results

/-!
# The inputs of a task's work

`Db.inputs` is what an operation on a task reads: the columns of the task and the rows of its
analyses, suggestions, versions and locks. A statement about other rows leaves them alone
(`Write.inputs_of_apply`), and the queries of an operation are a function of them
(`prepare_congr`).
-/

namespace DouyinCaption

open Tables

/-- What an operation on a task reads. -/
structure Inputs where
  sourceText : Text
  creativeSettings : Option CreativeSettings
  archived : Bool
  archivedFromState : Option TaskState
  analyses : List AnalysisRecord
  suggestions : List SuggestionRecord
  versions : List ScriptVersion
  locks : List LockedFragment

/-- The inputs of the work on a task. -/
def Db.inputs (db : Db) (taskId : Uuid) : Option Inputs :=
  (db.tasks.get taskId).map fun t => {
    sourceText := t.sourceText
    creativeSettings := t.creativeSettings
    archived := t.state = .archived
    archivedFromState := t.archivedFromState
    analyses := db.analyses.select fun r => r.taskId = taskId
    suggestions := db.suggestions.select fun r => r.taskId = taskId
    versions := db.versions.select fun v => v.taskId = taskId
    locks := db.locks.select fun l => l.taskId = taskId }

/-! ## Queries -/

/-- Two conditions select one after the other. -/
theorem select_and {α : Type} {κ : Type} [Keyed α κ] (t : Table α) (p q : α → Bool) :
    (t.select fun a => p a && q a) = (t.select p).filter q := by
  rw [Table.select, Table.select, List.filter_filter]
  congr 1
  funext a
  exact Bool.and_comm _ _

theorem scalar_and {α : Type} {κ : Type} [Keyed α κ] (t : Table α) (p q : α → Bool) :
    (t.scalar fun a => p a && q a) = (t.select p).find? q := by
  rw [Table.scalar_eq_head?, select_and, List.head?_filter]

section Queries

variable {db db' : Db} {taskId : Uuid}

/-- The rows of the tables a task's work reads. -/
theorem rows_of_inputs {i : Inputs} (h : db.inputs taskId = some i) :
    (db.analyses.select fun r => r.taskId = taskId) = i.analyses ∧
      (db.suggestions.select fun r => r.taskId = taskId) = i.suggestions ∧
      (db.versions.select fun v => v.taskId = taskId) = i.versions ∧
      (db.locks.select fun l => l.taskId = taskId) = i.locks := by
  obtain ⟨t, -, rfl⟩ := Option.map_eq_some_iff.mp h
  exact ⟨rfl, rfl, rfl, rfl⟩

/-- A query reads nothing but the inputs of its task. -/
theorem run_congr {i : Inputs} (h : db.inputs taskId = some i) (h' : db'.inputs taskId = some i)
    (q : Query) (p : Payload) (r : Reads) : q.run db taskId p r = q.run db' taskId p r := by
  obtain ⟨ha, hs, hv, hl⟩ := rows_of_inputs h
  obtain ⟨ha', hs', hv', hl'⟩ := rows_of_inputs h'
  have hdraft : db.hasFirstDraft taskId = db'.hasFirstDraft taskId := by
    rw [Db.hasFirstDraft, Db.hasFirstDraft, scalar_and, scalar_and, hv, hv']
  cases q with
  | hasFirstDraft => rw [Query.run, Query.run, hdraft]
  | analysis => rw [Query.run, Query.run, scalar_and, scalar_and, ha, ha']
  | suggestions =>
    have hrows : db.suggestionsOf taskId p.analysisId = db'.suggestionsOf taskId p.analysisId := by
      rw [Db.suggestionsOf, Db.suggestionsOf, select_and, select_and, hs, hs']
    simp only [Query.run, hrows]
  | parent =>
    have hcomm : ∀ v : ScriptVersion, (some v.id = p.parentVersionId && v.taskId = taskId) =
        (v.taskId = taskId && some v.id = p.parentVersionId) := fun v => Bool.and_comm _ _
    simp only [Query.run, hcomm]
    rw [scalar_and, scalar_and, hv, hv']
  | locks => rw [Query.run, Query.run, Db.locksOf, Db.locksOf, hl, hl']

theorem foldlM_run_congr {i : Inputs} (h : db.inputs taskId = some i)
    (h' : db'.inputs taskId = some i) (p : Payload) (qs : List Query) :
    ∀ r, qs.foldlM (fun r q => q.run db taskId p r) r =
      qs.foldlM (fun r q => q.run db' taskId p r) r := by
  induction qs with
  | nil => exact fun r => rfl
  | cons q qs ih =>
    intro r
    rw [List.foldlM_cons, List.foldlM_cons, run_congr h h']
    rcases q.run db' taskId p r with e | r'
    · rfl
    · exact ih r'

/-- **What an operation prepares is a function of the inputs of its task.** -/
theorem prepare_congr {i : Inputs} (h : db.inputs taskId = some i)
    (h' : db'.inputs taskId = some i) (p : Payload) :
    prepare db taskId p = prepare db' taskId p := by
  rw [prepare, prepare, readAll, readAll, foldlM_run_congr h h']

end Queries

/-! ## Statements -/

/-- The statement is about no row among the inputs of a task, but for its state, which it
does not set to archived. -/
def Write.Spares (db : Db) (taskId : Uuid) : Write → Prop
  | .setTask id change _ => id ≠ taskId ∨
      change.sourceText = none ∧ change.creativeSettings = none ∧
        change.archivedFromState = none ∧ change.state ≠ some .archived
  | .resetTask id _ restored _ => id ≠ taskId ∨ restored ≠ .archived
  | .addAnalysis r => r.taskId ≠ taskId
  | .deselectAnalyses id => id ≠ taskId
  | .setAnalysis id .. => ∀ r ∈ db.analyses, r.id = id → r.taskId ≠ taskId
  | .addSuggestions rs => ∀ r ∈ rs, r.taskId ≠ taskId
  | .dropSuggestions id _ _ => id ≠ taskId
  | .decide id .. => ∀ r ∈ db.suggestions, r.id = id → r.taskId ≠ taskId
  | .applySnapshot id _ _ => id ≠ taskId
  | .addVersion v => v.taskId ≠ taskId
  | .clearFinal id => id ≠ taskId
  | .setFinal id => ∀ v ∈ db.versions, v.id = id → v.taskId ≠ taskId
  | .addLock l => l.taskId ≠ taskId
  | .dropLock _ id => id ≠ taskId
  | _ => True

/-- The inputs change only with the task's row or with the rows of the task. -/
theorem inputs_of_eq {db db' : Db} {taskId : Uuid}
    (ht : db'.tasks.get taskId = db.tasks.get taskId)
    (ha : (db'.analyses.select fun r => r.taskId = taskId) =
      db.analyses.select fun r => r.taskId = taskId)
    (hs : (db'.suggestions.select fun r => r.taskId = taskId) =
      db.suggestions.select fun r => r.taskId = taskId)
    (hv : (db'.versions.select fun v => v.taskId = taskId) =
      db.versions.select fun v => v.taskId = taskId)
    (hl : (db'.locks.select fun l => l.taskId = taskId) =
      db.locks.select fun l => l.taskId = taskId) : db'.inputs taskId = db.inputs taskId := by
  rw [Db.inputs, Db.inputs, ht, ha, hs, hv, hl]

/-- An update of tasks that sets no task archived leaves the inputs of one that is not. -/
theorem inputs_of_update {db : Db} {taskId : Uuid} {i : Inputs} {p : RewriteTask → Bool}
    {f : RewriteTask → RewriteTask} (hf : ∀ a, Keyed.key (f a) = Keyed.key a)
    (hi : db.inputs taskId = some i) (hna : i.archived = false)
    (h : ∀ t, t.id = taskId → p t = true → (f t).sourceText = t.sourceText ∧
      (f t).creativeSettings = t.creativeSettings ∧
      (f t).archivedFromState = t.archivedFromState ∧
      (t.state ≠ .archived → (f t).state ≠ .archived)) :
    { db with tasks := db.tasks.update p f hf }.inputs taskId = db.inputs taskId := by
  obtain ⟨t, ht, rfl⟩ := Option.map_eq_some_iff.mp hi
  have hid : t.id = taskId := (Table.get_eq_some.mp ht).2
  have hna' : t.state ≠ .archived := of_decide_eq_false hna
  rw [Db.inputs, Db.inputs, Table.get_update, ht]
  by_cases hp : p t
  · obtain ⟨h₁, h₂, h₃, h₄⟩ := h t hid hp
    simp [hp, h₁, h₂, h₃, hna', h₄ hna']
  · simp [hp]

/-- **A statement about other rows leaves the inputs of a task alone**, unless the task is
archived. -/
theorem Write.inputs_of_apply {w : Write} {db db' : Db} {taskId : Uuid} {i : Inputs}
    (h : w.apply db = some db') (hi : db.inputs taskId = some i) (hna : i.archived = false)
    (hw : w.Spares db taskId) : db'.inputs taskId = some i := by
  rw [← hi]
  cases w with
  | addTask t =>
    obtain rfl := Option.some.inj h
    obtain ⟨t', ht', -⟩ := Option.map_eq_some_iff.mp hi
    refine inputs_of_eq ?_ rfl rfl rfl rfl
    rw [ht']
    exact Table.get_insert_of_get ht'
  | setTask id change now =>
    obtain ⟨_, -, rfl⟩ := Option.map_eq_some_iff.mp h
    refine inputs_of_update _ hi hna fun t ht hp => ?_
    rcases hw with hne | ⟨h₁, h₂, h₃, h₄⟩
    · exact absurd ((of_decide_eq_true hp).symm.trans ht) hne
    · refine ⟨by simp [h₁], by simp [h₂], by simp [h₃], fun hs => ?_⟩
      rw [TaskChange.apply_state]
      cases hc : change.state with
      | none => exact hs
      | some state => exact fun e => h₄ (hc.trans (congrArg some e))
  | resetTask id expected restored now =>
    obtain rfl := Option.some.inj h
    refine inputs_of_update _ hi hna fun t ht hp => ?_
    simp only [Bool.and_eq_true, decide_eq_true_eq] at hp
    rcases hw with hne | hr
    · exact absurd (hp.1.symm.trans ht) hne
    · exact ⟨rfl, rfl, rfl, fun _ => hr⟩
  | addAnalysis r =>
    obtain rfl := Option.some.inj h
    have hne : r.taskId ≠ taskId := hw
    exact inputs_of_eq rfl (Table.select_insert_of_not (by simpa using hne)) rfl rfl rfl
  | deselectAnalyses id =>
    obtain rfl := Option.some.inj h
    refine inputs_of_eq rfl (Table.select_update_of_not (by intro; rfl) ?_) rfl rfl rfl
    intro r _ hp
    have hr : r.taskId = id := of_decide_eq_true hp
    have hne : r.taskId ≠ taskId := hr ▸ hw
    exact ⟨decide_eq_false hne, decide_eq_false hne⟩
  | setAnalysis id payload notes =>
    obtain ⟨_, -, rfl⟩ := Option.map_eq_some_iff.mp h
    refine inputs_of_eq rfl (Table.select_update_of_not (by intro; rfl) ?_) rfl rfl rfl
    intro r hr hp
    have hne := hw r hr (of_decide_eq_true hp)
    exact ⟨decide_eq_false hne, decide_eq_false hne⟩
  | addSuggestions rs =>
    obtain rfl := Option.some.inj h
    refine inputs_of_eq rfl rfl (Table.select_insertAll_of_not (fun r hr => ?_) _) rfl rfl
    have hne : r.taskId ≠ taskId := hw r hr
    simpa using hne
  | dropSuggestions id analysisId keep =>
    obtain rfl := Option.some.inj h
    refine inputs_of_eq rfl rfl (Table.select_delete_of_not fun r _ hr => ?_) rfl rfl
    have hne : r.taskId ≠ id := fun e => hw (e.symm.trans (of_decide_eq_true hr))
    simp [hne]
  | decide id d note =>
    obtain ⟨_, -, rfl⟩ := Option.map_eq_some_iff.mp h
    refine inputs_of_eq rfl rfl (Table.select_update_of_not (by intro; rfl) ?_) rfl rfl
    intro r hr hp
    have hne := hw r hr (of_decide_eq_true hp)
    exact ⟨decide_eq_false hne, decide_eq_false hne⟩
  | applySnapshot id analysisId ds =>
    obtain rfl := Option.some.inj h
    refine inputs_of_eq rfl rfl
      (Table.select_update_of_not (fun _ => SuggestionRecord.applySnapshot_id ..) ?_) rfl rfl
    intro r _ hp
    simp only [Bool.and_eq_true, decide_eq_true_eq] at hp
    have hne : r.taskId ≠ taskId := hp.1 ▸ hw
    refine ⟨decide_eq_false hne, decide_eq_false ?_⟩
    rw [SuggestionRecord.applySnapshot]
    split <;> exact hne
  | addVersion v =>
    obtain rfl := Option.some.inj h
    have hne : v.taskId ≠ taskId := hw
    exact inputs_of_eq rfl rfl rfl (Table.select_insert_of_not (by simpa using hne)) rfl
  | clearFinal id =>
    obtain rfl := Option.some.inj h
    refine inputs_of_eq rfl rfl rfl (Table.select_update_of_not (by intro; rfl) ?_) rfl
    intro v _ hp
    have hv : v.taskId = id := of_decide_eq_true hp
    have hne : v.taskId ≠ taskId := hv ▸ hw
    exact ⟨decide_eq_false hne, decide_eq_false hne⟩
  | setFinal id =>
    obtain ⟨_, -, rfl⟩ := Option.map_eq_some_iff.mp h
    refine inputs_of_eq rfl rfl rfl (Table.select_update_of_not (by intro; rfl) ?_) rfl
    intro v hv hp
    have hne := hw v hv (of_decide_eq_true hp)
    exact ⟨decide_eq_false hne, decide_eq_false hne⟩
  | addLock l =>
    obtain rfl := Option.some.inj h
    have hne : l.taskId ≠ taskId := hw
    exact inputs_of_eq rfl rfl rfl rfl (Table.select_insert_of_not (by simpa using hne))
  | dropLock id lockTask =>
    obtain rfl := Option.some.inj h
    refine inputs_of_eq rfl rfl rfl rfl (Table.select_delete_of_not fun l _ hl => ?_)
    have hne : l.taskId ≠ lockTask := fun e => hw (e.symm.trans (of_decide_eq_true hl))
    simp [hne]
  | setOperation | setPreset =>
    obtain ⟨_, -, rfl⟩ := Option.map_eq_some_iff.mp h
    rfl
  | addOperation | setQueued | clearHistory | addPreset | dropPreset =>
    obtain rfl := Option.some.inj h
    rfl

/-- Statements that spare the inputs of a task in every state leave them alone. -/
theorem Db.inputs_of_foldlM {taskId : Uuid} {i : Inputs} (hna : i.archived = false)
    {ws : List Write} : ∀ {db db' : Db}, ws.foldlM Write.apply db = some db' →
      db.inputs taskId = some i → (∀ w ∈ ws, ∀ db₁, w.Spares db₁ taskId) →
      db'.inputs taskId = some i := by
  induction ws with
  | nil =>
    intro db db' h hi _
    obtain rfl := Option.some.inj h
    exact hi
  | cons w ws ih =>
    intro db db' h hi hw
    rw [List.foldlM_cons] at h
    obtain ⟨db₁, h₁, h₂⟩ := Option.bind_eq_some_iff.mp h
    have hi₁ := Write.inputs_of_apply h₁ hi hna (hw w List.mem_cons_self db)
    exact ih h₂ hi₁ fun w' hw' => hw w' (List.mem_cons_of_mem _ hw')

end DouyinCaption

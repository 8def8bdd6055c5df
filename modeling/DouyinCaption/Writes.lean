import DouyinCaption.Models
import Mathlib.Data.List.Pairwise

/-!
# Writes and commits

The statements the transactions of the task module send, each a value, and what a commit
makes of a list of them. Between two commits of a transaction nothing it writes is seen by
others, so a transaction is the list of its writes, and the list takes effect as one step or
not at all.

A commit fails where an ORM flush finds no row to update, and where the rows it leaves
break a unique index; among these is the partial index on the active operations of a task.
-/

namespace DouyinCaption

open Tables

/-- A statement that writes. -/
inductive Write where
  /-- a new task -/
  | addTask (t : RewriteTask)
  /-- the flush of a changed task -/
  | setTask (id : Uuid) (change : TaskChange) (now : ℕ)
  /-- `UPDATE rewrite_tasks SET state … WHERE id … AND state …` -/
  | resetTask (id : Uuid) (expected restored : TaskState) (now : ℕ)
  /-- a new analysis -/
  | addAnalysis (r : AnalysisRecord)
  /-- `UPDATE task_analyses SET is_selected = false WHERE task_id …` -/
  | deselectAnalyses (taskId : Uuid)
  /-- the flush of a corrected analysis -/
  | setAnalysis (id : Uuid) (payload : AnalysisResult) (notes : Option Text)
  /-- new suggestions -/
  | addSuggestions (rs : List SuggestionRecord)
  /-- `DELETE FROM task_suggestions WHERE task_id … AND analysis_id … AND id NOT IN …` -/
  | dropSuggestions (taskId analysisId : Uuid) (keep : List Uuid)
  /-- the flush of a decided suggestion -/
  | decide (id : Uuid) (decision : SuggestionDecision) (note : Option Text)
  /-- the flush of a decision snapshot over the suggestions of an analysis -/
  | applySnapshot (taskId analysisId : Uuid) (decisions : List SuggestionDecisionSubmit)
  /-- a new version -/
  | addVersion (v : ScriptVersion)
  /-- `UPDATE script_versions SET is_current_final = false WHERE task_id …` -/
  | clearFinal (taskId : Uuid)
  /-- the flush of the version made final -/
  | setFinal (id : Uuid)
  /-- a new lock -/
  | addLock (l : LockedFragment)
  /-- `DELETE FROM locked_fragments WHERE id … AND task_id …` -/
  | dropLock (id taskId : Uuid)
  /-- a new operation -/
  | addOperation (o : AiOperation)
  /-- the flush of a changed operation -/
  | setOperation (id : Uuid) (change : OperationChange)
  /-- `UPDATE ai_operations SET … WHERE id … AND status = 'queued'` -/
  | setQueued (id : Uuid) (change : OperationChange)
  /-- `DELETE FROM ai_operations WHERE owner_id … AND status NOT IN …` -/
  | clearHistory (ownerId : Uuid)
  /-- a new preset -/
  | addPreset (p : CreativePreset)
  /-- the flush of a changed preset -/
  | setPreset (id : Uuid) (name : Option Text) (settings : Option CreativeSettings) (now : ℕ)
  /-- a removed preset -/
  | dropPreset (id : Uuid)

/-! ## What a statement does to the tables -/

/-- Record a decision in a suggestion. -/
def SuggestionRecord.decide (d : SuggestionDecision) (note : Option Text)
    (r : SuggestionRecord) : SuggestionRecord :=
  { r with decision := d, memberNote := note }

/-- `submitted[record.id]` of a decision snapshot, applied to the record. -/
def SuggestionRecord.applySnapshot (ds : List SuggestionDecisionSubmit) (r : SuggestionRecord) :
    SuggestionRecord :=
  match ds.find? fun d => d.suggestionId = r.id with
  | none => r
  | some d => r.decide (if d.selected then .accepted else .rejected) (d.memberNote.map (·.1))

@[simp] theorem SuggestionRecord.applySnapshot_id (ds : List SuggestionDecisionSubmit)
    (r : SuggestionRecord) : (r.applySnapshot ds).id = r.id := by
  rw [applySnapshot]
  split <;> rfl

@[simp] theorem SuggestionRecord.applySnapshot_taskId (ds : List SuggestionDecisionSubmit)
    (r : SuggestionRecord) : (r.applySnapshot ds).taskId = r.taskId := by
  rw [applySnapshot]
  split <;> rfl

/-- `task.state = restored` where the state is the expected one. -/
def RewriteTask.reset (restored : TaskState) (now : ℕ) (t : RewriteTask) : RewriteTask :=
  { t with state := restored, updatedAt := now }

def CreativePreset.change (name : Option Text) (settings : Option CreativeSettings) (now : ℕ)
    (p : CreativePreset) : CreativePreset :=
  { p with name := name.getD p.name, settings := settings.getD p.settings, updatedAt := now }

/-- The rows after a statement; `none` where an ORM flush finds no row. -/
def Write.apply (db : Db) : Write → Option Db
  | .addTask t => some { db with tasks := db.tasks.insert t }
  | .setTask id change now =>
      (db.tasks.get id).map fun _ =>
        { db with
          tasks := db.tasks.update (fun t => t.id = id) (change.apply now)
            fun _ => change.apply_id .. }
  | .resetTask id expected restored now =>
      some { db with
        tasks := db.tasks.update (fun t => t.id = id && t.state = expected)
          (RewriteTask.reset restored now) }
  | .addAnalysis r => some { db with analyses := db.analyses.insert r }
  | .deselectAnalyses taskId =>
      some { db with
        analyses := db.analyses.update (fun r => r.taskId = taskId)
          fun r => { r with isSelected := false } }
  | .setAnalysis id payload notes =>
      (db.analyses.get id).map fun _ =>
        { db with
          analyses := db.analyses.update (fun r => r.id = id)
            fun r => { r with payload := payload, memberNotes := notes } }
  | .addSuggestions rs => some { db with suggestions := db.suggestions.insertAll rs }
  | .dropSuggestions taskId analysisId keep =>
      some { db with
        suggestions := db.suggestions.delete fun r =>
          r.taskId = taskId && r.analysisId = analysisId && r.id ∉ keep }
  | .decide id d note =>
      (db.suggestions.get id).map fun _ =>
        { db with
          suggestions := db.suggestions.update (fun r => r.id = id)
            (SuggestionRecord.decide d note) }
  | .applySnapshot taskId analysisId ds =>
      some { db with
        suggestions := db.suggestions.update
          (fun r => r.taskId = taskId && r.analysisId = analysisId)
          (SuggestionRecord.applySnapshot ds) fun _ => SuggestionRecord.applySnapshot_id .. }
  | .addVersion v => some { db with versions := db.versions.insert v }
  | .clearFinal taskId =>
      some { db with
        versions := db.versions.update (fun v => v.taskId = taskId)
          fun v => { v with isCurrentFinal := false } }
  | .setFinal id =>
      (db.versions.get id).map fun _ =>
        { db with
          versions := db.versions.update (fun v => v.id = id)
            fun v => { v with isCurrentFinal := true } }
  | .addLock l => some { db with locks := db.locks.insert l }
  | .dropLock id taskId =>
      some { db with locks := db.locks.delete fun l => l.id = id && l.taskId = taskId }
  | .addOperation o => some { db with operations := db.operations.insert o }
  | .setOperation id change =>
      (db.operations.get id).map fun _ =>
        { db with
          operations := db.operations.update (fun o => o.id = id) change.apply
            fun _ => change.apply_id _ }
  | .setQueued id change =>
      some { db with
        operations := db.operations.update (fun o => o.id = id && o.status = .queued)
          change.apply fun _ => change.apply_id _ }
  | .clearHistory ownerId =>
      some { db with
        operations := db.operations.delete fun o => o.ownerId = ownerId && !o.isActive }
  | .addPreset p => some { db with presets := db.presets.insert p }
  | .setPreset id name settings now =>
      (db.presets.get id).map fun _ =>
        { db with
          presets := db.presets.update (fun p => p.id = id)
            (CreativePreset.change name settings now) }
  | .dropPreset id => some { db with presets := db.presets.delete fun p => p.id = id }

/-! ## The unique indexes -/

/-- Two operations that `uq_ai_operations_active_task` keeps apart. -/
def ActiveClash (o o' : AiOperation) : Prop :=
  o.taskId = o'.taskId ∧ o.isActive = true ∧ o'.isActive = true

/-- Two operations that `uq_ai_operations_scope_idempotency_key` keeps apart: a missing key
clashes with none. -/
def KeyClash (o o' : AiOperation) : Prop :=
  o.ownerId = o'.ownerId ∧ o.taskId = o'.taskId ∧ o.kind = o'.kind ∧
    o.idempotencyKey = o'.idempotencyKey ∧ o.idempotencyKey ≠ none

instance (o o' : AiOperation) : Decidable (ActiveClash o o') :=
  inferInstanceAs (Decidable (_ ∧ _ ∧ _))

instance (o o' : AiOperation) : Decidable (KeyClash o o') :=
  inferInstanceAs (Decidable (_ ∧ _ ∧ _ ∧ _ ∧ _))

/-- The rows keep the unique indexes of the tables. -/
structure Db.Consistent (db : Db) : Prop where
  /-- `uq_ai_operations_active_task` -/
  active : db.operations.rows.Pairwise fun o o' => ¬ ActiveClash o o'
  /-- `uq_ai_operations_scope_idempotency_key` -/
  keys : db.operations.rows.Pairwise fun o o' => ¬ KeyClash o o'
  /-- `uq_creative_presets_owner_name` -/
  presetNames : db.presets.rows.Pairwise fun p q => ¬ (p.ownerId = q.ownerId ∧ p.name = q.name)
  /-- `ix_task_analyses_task_sequence` -/
  sequences : db.analyses.rows.Pairwise fun r s =>
    ¬ (r.taskId = s.taskId ∧ r.sequence = s.sequence)
  /-- `ix_locked_fragments_task_order` -/
  lockOrders : db.locks.rows.Pairwise fun l k =>
    ¬ (l.taskId = k.taskId ∧ l.orderIndex = k.orderIndex)

theorem Db.consistent_iff (db : Db) : db.Consistent ↔
    (db.operations.rows.Pairwise fun o o' => ¬ ActiveClash o o') ∧
    (db.operations.rows.Pairwise fun o o' => ¬ KeyClash o o') ∧
    (db.presets.rows.Pairwise fun p q => ¬ (p.ownerId = q.ownerId ∧ p.name = q.name)) ∧
    (db.analyses.rows.Pairwise fun r s => ¬ (r.taskId = s.taskId ∧ r.sequence = s.sequence)) ∧
    (db.locks.rows.Pairwise fun l k => ¬ (l.taskId = k.taskId ∧ l.orderIndex = k.orderIndex)) :=
  ⟨fun h => ⟨h.active, h.keys, h.presetNames, h.sequences, h.lockOrders⟩,
    fun ⟨h₁, h₂, h₃, h₄, h₅⟩ => ⟨h₁, h₂, h₃, h₄, h₅⟩⟩

instance (db : Db) : Decidable db.Consistent := decidable_of_iff _ db.consistent_iff.symm

/-- The database after a commit; `none` for an `IntegrityError` or a flush without a row. -/
def Db.commit (db : Db) (ws : List Write) : Option Db :=
  (ws.foldlM Write.apply db).filter fun db' => db'.Consistent

theorem Db.commit_eq_some {db db' : Db} {ws : List Write} :
    db.commit ws = some db' ↔ ws.foldlM Write.apply db = some db' ∧ db'.Consistent := by
  simp [Db.commit, Option.filter_eq_some_iff]

/-- Two active operations of one task are the same operation. -/
theorem Db.Consistent.active_unique {db : Db} (h : db.Consistent) {o o' : AiOperation}
    (ho : o ∈ db.operations) (ho' : o' ∈ db.operations) (ha : o.isActive = true)
    (ha' : o'.isActive = true) (ht : o.taskId = o'.taskId) : o = o' := by
  by_contra hne
  have hsymm : Std.Symm fun o o' : AiOperation => ¬ ActiveClash o o' :=
    ⟨fun a b hab hba => hab ⟨hba.1.symm, hba.2.2, hba.2.1⟩⟩
  exact h.active.forall ho ho' hne ⟨ht, ha, ha'⟩

/-- Two operations of one owner, task, kind and key are the same operation. -/
theorem Db.Consistent.key_unique {db : Db} (h : db.Consistent) {o o' : AiOperation}
    (ho : o ∈ db.operations) (ho' : o' ∈ db.operations) (hc : KeyClash o o') : o = o' := by
  by_contra hne
  have hsymm : Std.Symm fun o o' : AiOperation => ¬ KeyClash o o' :=
    ⟨fun a b hab ⟨h₁, h₂, h₃, h₄, h₅⟩ => hab ⟨h₁.symm, h₂.symm, h₃.symm, h₄.symm, h₄ ▸ h₅⟩⟩
  exact h.keys.forall ho ho' hne hc

end DouyinCaption

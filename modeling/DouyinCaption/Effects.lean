import DouyinCaption.Transactions

/-!
# How rows evolve

What a commit does to the operations and to the tasks, whatever the transaction:

* an operation keeps its request, never becomes queued or active again, and is removed only
  when it is not active; new operations come from submissions only (`OpsEvolve`);
* a task keeps its identifier and owner and is never removed, and a row that another process
  has locked does not change (`TasksEvolve`, `task_of_locked`).
-/

namespace DouyinCaption

open Tables

/-! ## Operations -/

/-- The states an operation moves its task between fit its kind. -/
structure AiOperation.Valid (o : AiOperation) : Prop where
  running : o.runningTaskState = runningState o.kind
  initial_not_running : o.initialTaskState.isRunning = false
  initial_not_archived : o.initialTaskState ≠ .archived

/-- What can become of a stored operation. -/
structure AiOperation.Became (o o' : AiOperation) : Prop where
  same : o.SameRequest o'
  queued : o'.status = .queued → o' = o
  active : o'.isActive = true → o.isActive = true

namespace AiOperation

/-- An operation is of its own request. -/
theorem SameRequest.refl (o : AiOperation) : o.SameRequest o :=
  ⟨rfl, rfl, rfl, rfl, rfl, rfl, rfl, rfl, rfl⟩

/-- To be of the same request is transitive. -/
theorem SameRequest.trans {o o' o'' : AiOperation} (h : o.SameRequest o')
    (h' : o'.SameRequest o'') : o.SameRequest o'' := by
  obtain ⟨h₁, h₂, h₃, h₄, h₅, h₆, h₇, h₈, h₉⟩ := h
  obtain ⟨k₁, k₂, k₃, k₄, k₅, k₆, k₇, k₈, k₉⟩ := h'
  exact ⟨k₁.trans h₁, k₂.trans h₂, k₃.trans h₃, k₄.trans h₄, k₅.trans h₅, k₆.trans h₆,
    k₇.trans h₇, k₈.trans h₈, k₉.trans h₉⟩

namespace SameRequest

variable {o o' : AiOperation} (h : o.SameRequest o')
include h

/-- The parts of a request, one by one. -/
theorem id : o'.id = o.id := h.1
theorem ownerId : o'.ownerId = o.ownerId := h.2.1
theorem taskId : o'.taskId = o.taskId := h.2.2.1
theorem kind : o'.kind = o.kind := h.2.2.2.1
theorem idempotencyKey : o'.idempotencyKey = o.idempotencyKey := h.2.2.2.2.1
theorem requestHash : o'.requestHash = o.requestHash := h.2.2.2.2.2.1
theorem requestPayload : o'.requestPayload = o.requestPayload := h.2.2.2.2.2.2.1
theorem initialTaskState : o'.initialTaskState = o.initialTaskState := h.2.2.2.2.2.2.2.1
theorem runningTaskState : o'.runningTaskState = o.runningTaskState := h.2.2.2.2.2.2.2.2

/-- What fits the kind of an operation is part of its request. -/
theorem valid (hv : o.Valid) : o'.Valid where
  running := by rw [h.runningTaskState, h.kind]; exact hv.running
  initial_not_running := by rw [h.initialTaskState]; exact hv.initial_not_running
  initial_not_archived := by rw [h.initialTaskState]; exact hv.initial_not_archived

end SameRequest

/-- An operation can stay as it is. -/
theorem Became.refl (o : AiOperation) : o.Became o :=
  ⟨.refl o, fun _ => rfl, fun h => h⟩

/-- What can become of an operation over two commits. -/
theorem Became.trans {o o' o'' : AiOperation} (h : o.Became o') (h' : o'.Became o'') :
    o.Became o'' where
  same := h.same.trans h'.same
  queued := by
    intro hq
    obtain rfl := h'.queued hq
    exact h.queued hq
  active := fun ha => h.active (h'.active ha)

end AiOperation

/-- What a commit does to the operations; `new` are those it adds. -/
structure Db.OpsEvolve (new : AiOperation → Prop) (db db' : Db) : Prop where
  /-- a row comes from a row, or is new -/
  origin : ∀ o' ∈ db'.operations, (∃ o ∈ db.operations, o.Became o') ∨ new o'
  /-- an active row stays -/
  kept : ∀ o ∈ db.operations, o.isActive = true → ∃ o' ∈ db'.operations, o.Became o'

/-- A commit that leaves the operations alone evolves them. -/
theorem Db.OpsEvolve.of_eq {new : AiOperation → Prop} {db db' : Db}
    (h : db'.operations = db.operations) : db.OpsEvolve new db' where
  origin := fun o' ho => .inl ⟨o', h ▸ ho, .refl o'⟩
  kept := fun o ho _ => ⟨o, h ▸ ho, .refl o⟩

/-- More operations may count as new. -/
theorem Db.OpsEvolve.mono {new new' : AiOperation → Prop} {db db' : Db}
    (h : db.OpsEvolve new db') (hn : ∀ o, new o → new' o) : db.OpsEvolve new' db' where
  origin := fun o' ho => (h.origin o' ho).imp_right (hn o')
  kept := h.kept

/-- A statement that makes no operation queued or active again and removes none. -/
def Write.Sound : Write → Prop
  | .setOperation _ change => change.status.isActive = false
  | .setQueued _ change => change.status ≠ .queued
  | .clearHistory _ => False
  | _ => True

/-- A change becomes an operation that makes it neither queued nor active again. -/
theorem became_of_apply {o : AiOperation} {change : OperationChange}
    (hq : change.status ≠ .queued)
    (ha : change.status.isActive = true → o.isActive = true) :
    o.Became (change.apply o) where
  same := change.sameRequest_apply o
  queued := by
    intro h
    rw [OperationChange.apply_status] at h
    exact absurd h hq
  active := by
    intro h
    rw [AiOperation.isActive, OperationChange.apply_status] at h
    exact ha h

/-- An update that lets every row become what it may evolves the operations. -/
theorem became_of_update (ops : Table AiOperation) (p : AiOperation → Bool)
    (f : AiOperation → AiOperation) (hf : ∀ o, Keyed.key (f o) = Keyed.key o)
    (hb : ∀ o, p o = true → o.Became (f o)) :
    (∀ o' ∈ ops.update p f hf, ∃ o ∈ ops, o.Became o') ∧
      ∀ o ∈ ops, ∃ o' ∈ ops.update p f hf, o.Became o' := by
  -- row by row, whether it is selected or not
  have hstep : ∀ o : AiOperation, o.Became (if p o then f o else o) := by
    intro o
    split
    · rename_i h
      exact hb o h
    · exact .refl o
  constructor
  · intro o' ho'
    obtain ⟨o, ho, rfl⟩ := Table.mem_update.mp ho'
    exact ⟨o, ho, hstep o⟩
  · intro o ho
    exact ⟨_, Table.mem_update.mpr ⟨o, ho, rfl⟩, hstep o⟩

/-- A sound statement keeps every operation, and adds none but its own. -/
theorem Write.operations_of_apply {w : Write} {db db' : Db} (h : w.apply db = some db')
    (hw : w.Sound) :
    (∀ o' ∈ db'.operations, (∃ o ∈ db.operations, o.Became o') ∨ w = .addOperation o') ∧
      ∀ o ∈ db.operations, ∃ o' ∈ db'.operations, o.Became o' := by
  -- most statements are about other tables
  have hsame : ∀ {db₁ : Db}, db₁.operations = db.operations →
      (∀ o' ∈ db₁.operations, (∃ o ∈ db.operations, o.Became o') ∨ w = .addOperation o') ∧
        ∀ o ∈ db.operations, ∃ o' ∈ db₁.operations, o.Became o' := fun e =>
    ⟨fun o ho => .inl ⟨o, e ▸ ho, .refl o⟩, fun o ho => ⟨o, e ▸ ho, .refl o⟩⟩
  cases w with
  | addOperation o =>
    obtain rfl := Option.some.inj h
    refine ⟨fun o' ho => ?_, fun o' ho => ⟨o', Table.mem_insert_of_mem ho, .refl o'⟩⟩
    rcases Table.mem_of_mem_insert ho with ho | rfl
    · exact .inl ⟨o', ho, .refl o'⟩
    · exact .inr rfl
  | setOperation id change =>
    obtain ⟨_, -, rfl⟩ := Option.map_eq_some_iff.mp h
    have hact : change.status.isActive = false := hw
    obtain ⟨h₁, h₂⟩ := became_of_update db.operations (fun o => o.id = id) change.apply
      (fun _ => change.apply_id _) fun o _ =>
        became_of_apply (fun e => by rw [e] at hact; cases hact)
          (fun e => by rw [hact] at e; cases e)
    exact ⟨fun o' ho' => .inl (h₁ o' ho'), h₂⟩
  | setQueued id change =>
    -- the row it finds is queued, and so active before
    obtain rfl := Option.some.inj h
    obtain ⟨h₁, h₂⟩ := became_of_update db.operations (fun o => o.id = id && o.status = .queued)
      change.apply (fun _ => change.apply_id _) fun o ho => became_of_apply hw fun _ => by
        simp only [Bool.and_eq_true, decide_eq_true_eq] at ho
        rw [AiOperation.isActive, ho.2]
        rfl
    exact ⟨fun o' ho' => .inl (h₁ o' ho'), h₂⟩
  | clearHistory ownerId => exact hw.elim
  | setTask | setAnalysis | decide | setFinal | setPreset =>
    obtain ⟨_, -, rfl⟩ := Option.map_eq_some_iff.mp h
    exact hsame rfl
  | _ =>
    obtain rfl := Option.some.inj h
    exact hsame rfl

/-- The operations after a list of sound statements, by induction on the list. -/
theorem Db.operations_of_foldlM {ws : List Write} :
    ∀ {db db' : Db}, ws.foldlM Write.apply db = some db' → (∀ w ∈ ws, w.Sound) →
      (∀ o' ∈ db'.operations, (∃ o ∈ db.operations, o.Became o') ∨
        ∃ o, .addOperation o ∈ ws ∧ o.Became o') ∧
      ∀ o ∈ db.operations, ∃ o' ∈ db'.operations, o.Became o' := by
  induction ws with
  | nil =>
    intro db db' h _
    obtain rfl := Option.some.inj h
    exact ⟨fun o ho => .inl ⟨o, ho, .refl o⟩, fun o ho => ⟨o, ho, .refl o⟩⟩
  | cons w ws ih =>
    intro db db' h hs
    rw [List.foldlM_cons] at h
    obtain ⟨db₁, h₁, h₂⟩ := Option.bind_eq_some_iff.mp h
    obtain ⟨a₁, a₂⟩ := Write.operations_of_apply h₁ (hs w List.mem_cons_self)
    obtain ⟨b₁, b₂⟩ := ih h₂ fun w' hw' => hs w' (List.mem_cons_of_mem _ hw')
    constructor
    · intro o' ho'
      rcases b₁ o' ho' with ⟨o₁, ho₁, hb₁⟩ | ⟨o, hnew, hb⟩
      · rcases a₁ o₁ ho₁ with ⟨o, ho, hb⟩ | hnew
        · exact .inl ⟨o, ho, hb.trans hb₁⟩
        · exact .inr ⟨o₁, hnew ▸ List.mem_cons_self, hb₁⟩
      · exact .inr ⟨o, List.mem_cons_of_mem _ hnew, hb⟩
    · intro o ho
      obtain ⟨o₁, ho₁, hb₁⟩ := a₂ o ho
      obtain ⟨o', ho', hb'⟩ := b₂ o₁ ho₁
      exact ⟨o', ho', hb₁.trans hb'⟩

/-- Clearing the history removes only operations that are not active. -/
theorem Db.opsEvolve_of_clearHistory {db db' : Db} {m : Uuid} {new : AiOperation → Prop}
    (h : [Write.clearHistory m].foldlM Write.apply db = some db') : db.OpsEvolve new db' := by
  obtain rfl := Option.some.inj h
  constructor
  · exact fun o' ho' => .inl ⟨o', (Table.mem_delete.mp ho').1, .refl o'⟩
  · exact fun o ho ha => ⟨o, Table.mem_delete.mpr ⟨ho, by simp [ha]⟩, .refl o⟩

/-! ## Which transactions are sound -/

/-- A recovery ends operations and adds none. -/
theorem sound_of_recoverWrites {now : ℕ} {found : List (AiOperation × Option RewriteTask)} :
    ∀ w ∈ recoverWrites now found, w.Sound :=
  forall_recoverWrites (fun _ _ _ _ => trivial) fun _ _ => rfl

/-- The record of a failure ends its operation. -/
theorem sound_of_recordFailure {task : RewriteTask} {op : AiOperation} {error : OperationError}
    {status : AiOperationStatus} {now : ℕ} (hs : status.isActive = false) :
    ∀ w ∈ recordFailure task op error status now, w.Sound := by
  intro w hw
  rcases List.mem_pair.mp hw with rfl | rfl
  · trivial
  · exact hs

/-- What stores a result touches no operation. -/
theorem sound_of_persist {db : Db} {taskId : Uuid} {st : Stamp} {prep : Prepared}
    {result : ServiceResult} {stored : List Write} {resource : ResourceType × Uuid}
    (h : persist db taskId st prep result = .ok (stored, resource)) :
    ∀ w ∈ stored, w.Sound ∧ ∀ o, w ≠ .addOperation o := by
  unfold persist at h
  split at h
  · obtain ⟨rfl, -⟩ := Prod.mk.inj (Except.ok.inj h)
    simp [Write.Sound]
  · obtain ⟨kept, -, h⟩ := bind_eq_ok.mp h
    obtain ⟨_, -, h⟩ := bind_eq_ok.mp h
    obtain ⟨rfl, -⟩ := Prod.mk.inj (Except.ok.inj h)
    simp [Write.Sound]
  · obtain ⟨rfl, -⟩ := Prod.mk.inj (Except.ok.inj h)
    simp [Write.Sound]
  · obtain ⟨rfl, -⟩ := Prod.mk.inj (Except.ok.inj h)
    simp [Write.Sound]
  · cases h

/-- The transactions of jobs are sound and add no operation. -/
theorem sound_of_transaction {db : Db} {st : Stamp} {opId : Uuid} {phase : JobPhase}
    {ws : List Write} (h : phase.transaction db st opId = some ws) :
    ∀ w ∈ ws, w.Sound ∧ ∀ o, w ≠ .addOperation o := by
  -- three of the phases record a failure
  have hrecord : ∀ {task : RewriteTask} {op : AiOperation} {error : OperationError}
      {status : AiOperationStatus}, status.isActive = false →
      ∀ w ∈ recordFailure task op error status st.now, w.Sound ∧ ∀ o, w ≠ .addOperation o := by
    intro task op error status hs w hw
    refine ⟨sound_of_recordFailure hs w hw, ?_⟩
    rcases List.mem_pair.mp hw with rfl | rfl <;> simp
  unfold JobPhase.transaction at h
  split at h
  · obtain rfl := Option.some.inj h
    exact forall_recoverWrites (fun _ _ _ _ => ⟨trivial, by simp⟩) fun _ _ => ⟨rfl, by simp⟩
  · split at h
    · obtain rfl := Option.some.inj h
      simp [claimWrites, Write.Sound, OperationChange.status]
    · cases h
  · split at h
    · rename_i hp
      obtain rfl := Option.some.inj h
      intro w hw
      rcases List.mem_append.mp hw with hw | hw
      · exact sound_of_persist hp w hw
      · rcases List.mem_pair.mp hw with rfl | rfl
        · exact ⟨trivial, by simp⟩
        · exact ⟨rfl, by simp⟩
    · cases h
  · obtain rfl := Option.some.inj h
    exact hrecord rfl
  · split at h
    · cases h
    · obtain rfl := Option.some.inj h
      rename_i arm _ _ _
      exact hrecord (by cases arm <;> rfl)
  · obtain rfl := Option.some.inj h
    intro w hw
    rcases List.mem_append.mp hw with hw | hw
    · split at hw
      · obtain rfl := List.mem_singleton.mp hw
        exact ⟨trivial, by simp⟩
      · cases hw
    · obtain rfl := List.mem_singleton.mp hw
      exact ⟨by simp [Write.Sound, OperationChange.status], by simp⟩
  · cases h

/-- The transaction of a request is sound, but for two: a clearing of the history, and a
submission, which adds its operation. -/
theorem RequestWrites.sound {cfg : Config} {db : Db} {m : Uuid} {st : Stamp} {pd : Pending}
    {ws : List Write} (h : RequestWrites cfg db m st pd ws) :
    (∀ w ∈ ws, w.Sound ∧ ∀ o, w ≠ .addOperation o) ∨ ws = [.clearHistory m] ∨
      ∃ s, pd = .submit s := by
  cases h with
  | presets _ hws =>
    refine .inl fun w hw => ?_
    have hon := hws w hw
    revert hon
    cases w <;> simp [Write.onPresets, Write.Sound]
  | submit => exact .inr (.inr ⟨_, rfl⟩)
  | clearHistory => exact .inr (.inl rfl)
  | cancelOperation _ hreset =>
    exact .inl (forall_cancelWrites hreset
      ⟨by simp [Write.Sound, OperationChange.status], by simp⟩ fun _ _ => ⟨trivial, by simp⟩)
  | _ => exact .inl (by simp [storeSnapshot, Write.Sound])

/-! ## Submissions -/

/-- The rows after the commit of a submission. -/
theorem commit_of_submit {db db' : Db} {taskId : Uuid} {snapshot : List Write} {o : AiOperation}
    {c : TaskChange} {now : ℕ}
    (hs : snapshot = [] ∨ ∃ a ds, snapshot = [.applySnapshot taskId a ds])
    (h : db.commit (snapshot ++ [.addOperation o, .setTask taskId c now]) = some db') :
    (∃ t, db.tasks.get taskId = some t) ∧ db'.Consistent ∧
      ∃ suggestions, db' = { db with
        suggestions
        operations := db.operations.insert o
        tasks := db.tasks.update (fun t => t.id = taskId) (c.apply now)
          fun _ => c.apply_id .. } := by
  obtain ⟨hf, hc⟩ := Db.commit_eq_some.mp h
  rcases hs with rfl | ⟨a, ds, rfl⟩
  all_goals
    simp only [List.nil_append, List.singleton_append, List.foldlM_cons, List.foldlM_nil,
      Write.apply, Option.bind_eq_bind, Option.bind_some, Option.bind_eq_some_iff,
      Option.map_eq_some_iff, Option.pure_def, Option.some.injEq] at hf
    obtain ⟨_, ⟨t, ht, rfl⟩, rfl⟩ := hf
    exact ⟨⟨t, ht⟩, hc, _, rfl⟩

namespace Sys

/-- The operation a step adds: that of a submission that commits under its row lock. -/
def NewOperation (cfg : Config) (s : Sys) (a : Action) (o : AiOperation) : Prop :=
  ∃ p m r sub ids, a = .commit p ids ∧ s.procs p = .locked m r (.submit sub) ∧ s.Draws ids ∧
    assertTransition sub.task.state (runningState sub.kind) = .ok () ∧
    o = sub.operation cfg ⟨s.now, ids⟩

variable {cfg : Config} {s s' : Sys} {a : Action}

/-- A request evolves the operations. Only a submission adds one. -/
theorem opsEvolve_of_commit {p : ℕ} {ids : List Uuid} {m : Uuid} {r : Request} {pd : Pending}
    {out : Outcome} {db : Db}
    (hp : s.procs p = .locked m r pd ∨ s.procs p = .opened m r pd ∧ pd.task = none)
    (hids : s.Draws ids) (hf : pd.finish cfg s.db m ⟨s.now, ids⟩ = .ok out)
    (hc : s.db.commit out.writes = some db) :
    s.db.OpsEvolve (NewOperation cfg s (.commit p ids)) db := by
  have hw := writes_of_finish hf
  have hfold := (Db.commit_eq_some.mp hc).1
  rcases hw.sound with hs | hs | ⟨sub, rfl⟩
  · -- a sound transaction that adds nothing
    obtain ⟨h₁, h₂⟩ := Db.operations_of_foldlM hfold fun w hw => (hs w hw).1
    refine ⟨fun o' ho' => (h₁ o' ho').imp_right ?_, fun o ho _ => h₂ o ho⟩
    rintro ⟨o, ho, -⟩
    exact absurd rfl ((hs _ ho).2 o)
  · rw [hs] at hfold
    exact Db.opsEvolve_of_clearHistory hfold
  · have hlocked : s.procs p = .locked m r (.submit sub) :=
      hp.resolve_right fun h => nomatch h.2
    generalize hws : out.writes = ws at hw hc
    cases hw with
    | presets h _ => cases h
    | addTask h => cases h
    | submit hstate hsnap =>
      have hsnap' := hsnap.imp_right fun ⟨a, ds, _, e⟩ =>
        (⟨a, ds, e⟩ : ∃ a ds, _ = [Write.applySnapshot sub.task.id a ds])
      -- the one transaction that adds an operation
      obtain ⟨-, -, _, rfl⟩ := commit_of_submit hsnap' hc
      refine ⟨fun o' ho' => ?_, fun o ho _ => ⟨o, Table.mem_insert_of_mem ho, .refl o⟩⟩
      rcases Table.mem_of_mem_insert ho' with ho' | rfl
      · exact .inl ⟨o', ho', .refl o'⟩
      · exact .inr ⟨p, m, r, sub, ids, rfl, hlocked, hids, hstate, rfl⟩

/-- **How a step changes the operations.** -/
theorem opsEvolve_of_move (h : Move cfg s a s') :
    s.db.OpsEvolve (NewOperation cfg s a) s'.db := by
  cases h with
  | commit hp hids hf hw hc => exact opsEvolve_of_commit hp hids hf hc
  | settle _ _ _ _ _ ht _ hc =>
    -- no transaction of a job adds an operation
    rw [enter_db]
    have hs := sound_of_transaction ht
    obtain ⟨h₁, h₂⟩ := Db.operations_of_foldlM (Db.commit_eq_some.mp hc).1
      fun w hw => (hs w hw).1
    refine ⟨fun o' ho' => (h₁ o' ho').imp_right ?_, fun o ho _ => h₂ o ho⟩
    rintro ⟨o, ho, -⟩
    exact absurd rfl ((hs _ ho).2 o)
  | recover _ _ _ hc _ =>
    obtain ⟨h₁, h₂⟩ := Db.operations_of_foldlM (Db.commit_eq_some.mp hc).1 sound_of_recoverWrites
    refine ⟨fun o' ho' => (h₁ o' ho').imp_right ?_, fun o ho _ => h₂ o ho⟩
    rintro ⟨o, ho, -⟩
    exact (forall_recoverWrites (P := (· ≠ .addOperation o)) (fun _ _ _ _ => by simp)
      (fun _ _ => by simp) _ ho rfl).elim
  | _ => exact .of_eq (by simp)

end Sys

/-! ## Tasks -/

/-- No statement removes a task or gives it to another owner. -/
theorem Write.tasks_kept {w : Write} {db db' : Db} (h : w.apply db = some db')
    {t : RewriteTask} (ht : t ∈ db.tasks) :
    ∃ t' ∈ db'.tasks, t'.id = t.id ∧ t'.ownerId = t.ownerId := by
  have hupdate : ∀ (p : RewriteTask → Bool) (f : RewriteTask → RewriteTask)
      (hf : ∀ a, Keyed.key (f a) = Keyed.key a),
      (∀ a, (f a).id = a.id ∧ (f a).ownerId = a.ownerId) →
      ∃ t' ∈ db.tasks.update p f hf, t'.id = t.id ∧ t'.ownerId = t.ownerId := by
    intro p f hf hfa
    refine ⟨_, Table.mem_update.mpr ⟨t, ht, rfl⟩, ?_⟩
    split
    · exact hfa t
    · exact ⟨rfl, rfl⟩
  cases w with
  | addTask t₁ =>
    obtain rfl := Option.some.inj h
    exact ⟨t, Table.mem_insert_of_mem ht, rfl, rfl⟩
  | setTask id change now =>
    obtain ⟨_, -, rfl⟩ := Option.map_eq_some_iff.mp h
    exact hupdate _ _ (fun a => change.apply_id now a)
      fun a => ⟨change.apply_id now a, change.apply_ownerId now a⟩
  | resetTask id expected restored now =>
    obtain rfl := Option.some.inj h
    exact hupdate _ (RewriteTask.reset restored now) (fun _ => rfl) fun a => ⟨rfl, rfl⟩
  | setOperation | setAnalysis | decide | setFinal | setPreset =>
    obtain ⟨_, -, rfl⟩ := Option.map_eq_some_iff.mp h
    exact ⟨t, ht, rfl, rfl⟩
  | _ =>
    obtain rfl := Option.some.inj h
    exact ⟨t, ht, rfl, rfl⟩

/-- No list of statements removes a task or gives it to another owner. -/
theorem Db.tasks_kept {ws : List Write} :
    ∀ {db db' : Db}, ws.foldlM Write.apply db = some db' → ∀ t ∈ db.tasks,
      ∃ t' ∈ db'.tasks, t'.id = t.id ∧ t'.ownerId = t.ownerId := by
  induction ws with
  | nil =>
    intro db db' h t ht
    obtain rfl := Option.some.inj h
    exact ⟨t, ht, rfl, rfl⟩
  | cons w ws ih =>
    intro db db' h t ht
    rw [List.foldlM_cons] at h
    obtain ⟨db₁, h₁, h₂⟩ := Option.bind_eq_some_iff.mp h
    obtain ⟨t₁, ht₁, hid₁, hown₁⟩ := Write.tasks_kept h₁ ht
    obtain ⟨t', ht', hid', hown'⟩ := ih h₂ t₁ ht₁
    exact ⟨t', ht', hid'.trans hid₁, hown'.trans hown₁⟩

/-- A statement that locks no row of a task leaves it as it is. -/
theorem Write.get_task_of_apply {w : Write} {db db' : Db} {id : Uuid} {t : RewriteTask}
    (h : w.apply db = some db') (ht : db.tasks.get id = some t)
    (hw : w.lockedTask db ≠ some id) : db'.tasks.get id = some t := by
  obtain ⟨hm, hid⟩ := Table.get_eq_some.mp ht
  cases w with
  | addTask t₁ =>
    obtain rfl := Option.some.inj h
    exact Table.get_insert_of_get ht
  | setTask id₁ change now =>
    obtain ⟨_, -, rfl⟩ := Option.map_eq_some_iff.mp h
    rw [← ht]
    refine Table.get_update_of_not (t := db.tasks) (f := change.apply now)
      (fun a => change.apply_id now a) fun a _ ha => ?_
    -- an update without changes is no statement, and locks nothing
    by_cases hc : change = {}
    · exact .inr (by simp [TaskChange.apply, hc])
    · refine .inl (decide_eq_false fun e => hw ?_)
      have hk : a.id = id := ha
      simp only [Write.lockedTask, if_neg hc, Option.some.injEq]
      rw [← hk, e]
  | resetTask id₁ expected restored now =>
    obtain rfl := Option.some.inj h
    rw [← ht]
    refine Table.get_update_of_not (t := db.tasks) (f := RewriteTask.reset restored now)
      (fun _ => rfl) fun a ham ha => .inl ?_
    -- it would have locked the row it finds in the expected state
    have hk : a.id = id := ha
    by_contra hsel
    simp only [Bool.not_eq_false, Bool.and_eq_true, decide_eq_true_eq] at hsel
    obtain rfl : id₁ = id := by rw [← hk, hsel.1]
    refine hw ?_
    have hget : db.tasks.get id₁ = some a := Table.get_eq_some.mpr ⟨ham, ha⟩
    simp [Write.lockedTask, hget, hsel.2]
  | setOperation | setAnalysis | decide | setFinal | setPreset =>
    obtain ⟨_, -, rfl⟩ := Option.map_eq_some_iff.mp h
    exact ht
  | _ =>
    obtain rfl := Option.some.inj h
    exact ht

/-- A statement whose lock depends on the row it finds. -/
def Write.isReset : Write → Bool
  | .resetTask .. => true
  | _ => false

/-- Statements that lock no row of a task leave it as it is. Only the first may be an
`UPDATE … WHERE state`, whose lock depends on the row it finds. -/
theorem Db.get_task_of_foldlM {id : Uuid} {t : RewriteTask} {ws : List Write} :
    ∀ {db db' : Db}, ws.foldlM Write.apply db = some db' → db.tasks.get id = some t →
      (∀ w ∈ ws, w.lockedTask db ≠ some id) → (∀ w ∈ ws.tail, w.isReset = false) →
      db'.tasks.get id = some t := by
  induction ws with
  | nil =>
    intro db db' h ht _ _
    obtain rfl := Option.some.inj h
    exact ht
  | cons w ws ih =>
    intro db db' h ht hw hr
    rw [List.foldlM_cons] at h
    obtain ⟨db₁, h₁, h₂⟩ := Option.bind_eq_some_iff.mp h
    have ht₁ := Write.get_task_of_apply h₁ ht (hw w List.mem_cons_self)
    refine ih h₂ ht₁ (fun w' hw' => ?_) fun w' hw' => hr w' (List.mem_of_mem_tail hw')
    have hl := hw w' (List.mem_cons_of_mem _ hw')
    have hres := hr w' hw'
    cases w' <;> first
      | exact hl
      | cases hres

/-- A recovery makes no `UPDATE … WHERE state`: it has loaded the tasks. -/
theorem isReset_of_recoverWrites {now : ℕ} {found : List (AiOperation × Option RewriteTask)} :
    ∀ w ∈ recoverWrites now found, w.isReset = false :=
  forall_recoverWrites (fun _ _ _ _ => rfl) fun _ _ => rfl

/-- A request makes no `UPDATE … WHERE state`. -/
theorem RequestWrites.tail_isReset {cfg : Config} {db : Db} {m : Uuid} {st : Stamp}
    {pd : Pending} {ws : List Write} (h : RequestWrites cfg db m st pd ws) :
    ∀ w ∈ ws.tail, w.isReset = false := by
  cases h with
  | presets hpd hws =>
    intro w hw
    have hon := hws w (List.mem_of_mem_tail hw)
    revert hon
    cases w <;> simp [Write.onPresets, Write.isReset]
  | submit hstate hsnapshot =>
    rcases hsnapshot with rfl | ⟨a, ds, -, rfl⟩ <;> simp [Write.isReset]
  | cancelOperation hqueued hreset =>
    have hall := forall_cancelWrites (P := (·.isReset = false)) hreset rfl fun _ _ => rfl
    exact fun w hw => hall w (List.mem_of_mem_tail hw)
  | _ => simp [storeSnapshot, Write.isReset]

/-- Only the first statement of a job's transaction is an `UPDATE … WHERE state`. -/
theorem tail_of_transaction {db : Db} {st : Stamp} {opId : Uuid} {phase : JobPhase}
    {ws : List Write} (h : phase.transaction db st opId = some ws) :
    ∀ w ∈ ws.tail, w.isReset = false := by
  unfold JobPhase.transaction at h
  split at h
  · obtain rfl := Option.some.inj h
    exact fun w hw => isReset_of_recoverWrites w (List.mem_of_mem_tail hw)
  · split at h
    · obtain rfl := Option.some.inj h
      simp [claimWrites, Write.isReset]
    · cases h
  · split at h
    · rename_i stored _ hp
      obtain rfl := Option.some.inj h
      intro w hw
      have hstored : ∀ w ∈ stored, w.isReset = false := by
        unfold persist at hp
        split at hp
        · obtain ⟨rfl, -⟩ := Prod.mk.inj (Except.ok.inj hp)
          simp [Write.isReset]
        · obtain ⟨_, -, hp⟩ := bind_eq_ok.mp hp
          obtain ⟨_, -, hp⟩ := bind_eq_ok.mp hp
          obtain ⟨rfl, -⟩ := Prod.mk.inj (Except.ok.inj hp)
          simp [Write.isReset]
        · obtain ⟨rfl, -⟩ := Prod.mk.inj (Except.ok.inj hp)
          simp [Write.isReset]
        · obtain ⟨rfl, -⟩ := Prod.mk.inj (Except.ok.inj hp)
          simp [Write.isReset]
        · cases hp
      rcases List.mem_append.mp (List.mem_of_mem_tail hw) with hw | hw
      · exact hstored w hw
      · rcases List.mem_pair.mp hw with rfl | rfl <;> rfl
    · cases h
  · obtain rfl := Option.some.inj h
    simp [recordFailure, Write.isReset]
  · split at h
    · cases h
    · obtain rfl := Option.some.inj h
      simp [recordFailure, Write.isReset]
  · obtain rfl := Option.some.inj h
    unfold sweepWrites
    split <;> simp [Write.isReset]
  · cases h

end DouyinCaption

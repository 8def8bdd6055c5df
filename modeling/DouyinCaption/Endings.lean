import DouyinCaption.Turns

/-!
# Which operations a step ends

An operation that has left the queue changes only in a transaction that ends it: the one of
the job that executes it, or a recovery (`operation_of_move`). Clearing the history removes
it once it is no longer active.
-/

namespace DouyinCaption

open Tables Runs

/-- The operation a statement ends, in whatever state it finds it. -/
def Write.ends : Write → Option Uuid
  | .setOperation id _ => some id
  | _ => none

/-- The operations the transaction of a phase ends. -/
def JobPhase.ends : JobPhase → List Uuid
  | .recovering _ _ [] found => found.map fun f => f.1.id
  | .returned e _ | .failing e _ => [e.op.id]
  | .restored _ _ (some op) _ => [op.id]
  | _ => []

/-- A statement leaves the operations alone that are not queued and that it does not end. -/
theorem Write.operation_of_apply {w : Write} {db db' : Db} {o : AiOperation}
    (h : w.apply db = some db') (hs : w.Sound) (ho : o ∈ db.operations)
    (hq : o.status ≠ .queued) (he : w.ends ≠ some o.id) : o ∈ db'.operations := by
  cases w with
  | addOperation o₁ =>
    obtain rfl := Option.some.inj h
    exact Table.mem_insert_of_mem ho
  | setOperation id change =>
    obtain ⟨_, -, rfl⟩ := Option.map_eq_some_iff.mp h
    have hne : o.id ≠ id := fun e => he (congrArg some e.symm)
    have hm : o ∈ db.operations.update (fun o => o.id = id) change.apply
        (fun _ => change.apply_id _) := Table.mem_update.mpr ⟨o, ho, by simp [hne]⟩
    exact hm
  | setQueued id change =>
    obtain rfl := Option.some.inj h
    have hm : o ∈ db.operations.update (fun o => o.id = id && o.status = .queued) change.apply
        (fun _ => change.apply_id _) := Table.mem_update.mpr ⟨o, ho, by simp [hq]⟩
    exact hm
  | clearHistory ownerId => exact hs.elim
  | setTask | setAnalysis | decide | setFinal | setPreset =>
    obtain ⟨_, -, rfl⟩ := Option.map_eq_some_iff.mp h
    exact ho
  | _ =>
    obtain rfl := Option.some.inj h
    exact ho

/-- Statements that do not end an operation leave it as it is, unless it is queued. By induction
on the list. -/
theorem Db.operation_of_foldlM {o : AiOperation} (hq : o.status ≠ .queued) {ws : List Write} :
    ∀ {db db' : Db}, ws.foldlM Write.apply db = some db' → (∀ w ∈ ws, w.Sound) →
      o ∈ db.operations → (∀ w ∈ ws, w.ends ≠ some o.id) → o ∈ db'.operations := by
  induction ws with
  | nil =>
    intro db db' h _ ho _
    obtain rfl := Option.some.inj h
    exact ho
  | cons w ws ih =>
    intro db db' h hs ho he
    rw [List.foldlM_cons] at h
    obtain ⟨db₁, h₁, h₂⟩ := Option.bind_eq_some_iff.mp h
    have ho₁ := Write.operation_of_apply h₁ (hs w List.mem_cons_self) ho hq
      (he w List.mem_cons_self)
    exact ih h₂ (fun w' hw' => hs w' (List.mem_cons_of_mem _ hw')) ho₁
      fun w' hw' => he w' (List.mem_cons_of_mem _ hw')

/-! ## The transactions -/

/-- A recovery ends the operations it has loaded. -/
theorem ends_of_recoverWrites {now : ℕ} {found : List (AiOperation × Option RewriteTask)} :
    ∀ w ∈ recoverWrites now found, ∀ id, w.ends = some id → id ∈ found.map fun f => f.1.id := by
  refine forall_recoverWrites (fun f hf t ht id hid => ?_) fun f hf id hid => ?_
  · cases hid
  · obtain rfl := Option.some.inj hid
    exact List.mem_map_of_mem hf

/-- What stores a result ends nothing. -/
theorem ends_of_persist {db : Db} {taskId : Uuid} {st : Stamp} {prep : Prepared}
    {result : ServiceResult} {stored : List Write} {resource : ResourceType × Uuid}
    (h : persist db taskId st prep result = .ok (stored, resource)) :
    ∀ w ∈ stored, w.ends = none := by
  unfold persist at h
  split at h
  · obtain ⟨rfl, -⟩ := Prod.mk.inj (Except.ok.inj h)
    simp [Write.ends]
  · obtain ⟨kept, -, h⟩ := bind_eq_ok.mp h
    obtain ⟨_, -, h⟩ := bind_eq_ok.mp h
    obtain ⟨rfl, -⟩ := Prod.mk.inj (Except.ok.inj h)
    simp [Write.ends]
  · obtain ⟨rfl, -⟩ := Prod.mk.inj (Except.ok.inj h)
    simp [Write.ends]
  · obtain ⟨rfl, -⟩ := Prod.mk.inj (Except.ok.inj h)
    simp [Write.ends]
  · cases h

/-- A transaction ends what its phase says it ends. -/
theorem ends_of_transaction {db : Db} {st : Stamp} {opId : Uuid} {phase : JobPhase}
    {ws : List Write} (h : phase.transaction db st opId = some ws) :
    ∀ w ∈ ws, ∀ id, w.ends = some id → id ∈ phase.ends := by
  intro w hw id hid
  have hrecord : ∀ {task : RewriteTask} {op : AiOperation} {error : OperationError}
      {status : AiOperationStatus}, w ∈ recordFailure task op error status st.now →
      id = op.id := by
    intro task op error status hw
    rcases List.mem_pair.mp hw with rfl | rfl
    · cases hid
    · exact (Option.some.inj hid).symm
  unfold JobPhase.transaction at h
  split at h
  · obtain rfl := Option.some.inj h
    exact ends_of_recoverWrites w hw id hid
  · split at h
    · obtain rfl := Option.some.inj h
      rcases List.mem_pair.mp hw with rfl | rfl <;> cases hid
    · cases h
  · split at h
    · rename_i hp
      obtain rfl := Option.some.inj h
      rcases List.mem_append.mp hw with hw | hw
      · rw [ends_of_persist hp w hw] at hid
        cases hid
      · rcases List.mem_pair.mp hw with rfl | rfl
        · cases hid
        · exact List.mem_singleton.mpr (Option.some.inj hid).symm
    · cases h
  · obtain rfl := Option.some.inj h
    exact List.mem_singleton.mpr (hrecord hw)
  · split at h
    · cases h
    · obtain rfl := Option.some.inj h
      exact List.mem_singleton.mpr (hrecord hw)
  · obtain rfl := Option.some.inj h
    rcases List.mem_append.mp hw with hw | hw
    · split at hw
      · obtain rfl := List.mem_singleton.mp hw
        cases hid
      · cases hw
    · obtain rfl := List.mem_singleton.mp hw
      cases hid
  · cases h

/-- A request ends no operation but a queued one. -/
theorem RequestWrites.ends {cfg : Config} {db : Db} {m : Uuid} {st : Stamp} {pd : Pending}
    {ws : List Write} (h : RequestWrites cfg db m st pd ws) : ∀ w ∈ ws, w.ends = none := by
  cases h with
  | presets hpd hws =>
    intro w hw
    have hon := hws w hw
    revert hon
    cases w <;> simp [Write.onPresets, Write.ends]
  | submit hstate hsnapshot =>
    rcases hsnapshot with rfl | ⟨a, ds, -, rfl⟩ <;> simp [Write.ends]
  | cancelOperation hqueued hreset =>
    exact forall_cancelWrites hreset rfl fun _ _ => rfl
  | _ => simp [storeSnapshot, Write.ends]

/-! ## Steps -/

namespace Sys

variable {cfg : Config} {s s' : Sys} {a : Action}

/-- The operations the pending transaction of a process ends. -/
def ends (s : Sys) (p : ℕ) : List Uuid :=
  match s.procs p with
  | .job _ phase => phase.ends
  | .tick _ (.recovering _ [] found) => found.map fun f => f.1.id
  | _ => []

/-- What a process is about to end, for a job. -/
theorem ends_of_job {p : ℕ} {opId : Uuid} {phase : JobPhase} (hp : s.procs p = .job opId phase) :
    s.ends p = phase.ends := by
  rw [ends, hp]

/-- What a process is about to end, for a tick. -/
theorem ends_of_tick {p worker : ℕ} {rest : List Uuid}
    {found : List (AiOperation × Option RewriteTask)}
    (hp : s.procs p = .tick worker (.recovering rest [] found)) :
    s.ends p = found.map fun f => f.1.id := by
  rw [ends, hp]

/-- **An operation that is not queued stays as it is** in a step that does not end it, unless
it is no longer active and the history is cleared. -/
theorem operation_of_move (h : Move cfg s a s') {o : AiOperation} (ho : o ∈ s.db.operations)
    (hq : o.status ≠ .queued) (he : ∀ p, a.proc = some p → o.id ∉ s.ends p) :
    o ∈ s'.db.operations ∨
      o.isActive = false ∧ ∀ o' ∈ s'.db.operations, o'.id ≠ o.id := by
  cases h with
  | commit hp hids hf hw hc =>
    rename_i p ids m r pd out db
    have hwrites := writes_of_finish hf
    have hfold := (Db.commit_eq_some.mp hc).1
    have hnone := hwrites.ends
    rcases hwrites.sound with hsound | hclear | ⟨sub, rfl⟩
    · exact .inl (Db.operation_of_foldlM hq hfold (fun w hw => (hsound w hw).1) ho
        fun w hw => by simp [hnone w hw])
    · -- only clearing the history removes operations
      rw [hclear] at hfold
      obtain rfl := Option.some.inj hfold
      rcases hact : o.isActive with _ | _
      · by_cases hm : o ∈ s.db.operations.delete fun o => o.ownerId = m && !o.isActive
        · exact .inl hm
        · refine .inr ⟨rfl, fun o' ho' hid => hm ?_⟩
          have hmem := (Table.mem_delete.mp ho').1
          exact Table.eq_of_key hmem ho hid ▸ ho'
      · exact .inl (Table.mem_delete.mpr ⟨ho, by simp [hact]⟩)
    · refine .inl (Db.operation_of_foldlM hq hfold ?_ ho fun w hw => by simp [hnone w hw])
      generalize out.writes = ws at hwrites
      cases hwrites with
      | presets h _ => cases h
      | addTask h => cases h
      | submit hstate hsnapshot =>
        rcases hsnapshot with rfl | ⟨a, ds, -, rfl⟩ <;> simp [Write.Sound]
  | settle ha hp hids hn hgo ht hw hc =>
    left
    rw [enter_db]
    have hends := he _ rfl
    rw [ends_of_job hp] at hends
    refine Db.operation_of_foldlM hq (Db.commit_eq_some.mp hc).1
      (fun w hw => (sound_of_transaction ht w hw).1) ho fun w hw hid => hends ?_
    exact ends_of_transaction ht w hw _ hid
  | recover he' hp hw hc hx =>
    left
    have hends := he _ rfl
    rw [ends_of_tick hp] at hends
    refine Db.operation_of_foldlM hq (Db.commit_eq_some.mp hc).1 sound_of_recoverWrites ho
      fun w hw hid => hends ?_
    exact ends_of_recoverWrites w hw _ hid
  | _ => exact .inl (by simpa using ho)

/-- A running operation stays so in a step that does not end it. -/
theorem running_of_move (h : Move cfg s a s') {o : AiOperation} (ho : o ∈ s.db.operations)
    (hr : o.status = .running) (he : ∀ p, a.proc = some p → o.id ∉ s.ends p) :
    o ∈ s'.db.operations := by
  rcases operation_of_move h ho (by rw [hr]; simp) he with hm | ⟨hact, -⟩
  · exact hm
  · rw [AiOperation.isActive, hr] at hact
    cases hact

end Sys

end DouyinCaption

import DouyinCaption.Inputs
import DouyinCaption.Provenance
import DouyinCaption.Versions
import DouyinCaption.Executing

/-!
# Frozen inputs

While an operation is queued or running no request changes what the work on its task reads
(`inputs_of_move`), and so a job prepares and calls with the inputs that were committed with
the submission (`inputs_frozen`).
-/

namespace DouyinCaption

open Tables Runs

/-! ## States -/

/-- An assignment that writes anything writes the new value. -/
theorem assign_ne {α : Type} [DecidableEq α] {loaded new x : α} (h : new ≠ x) :
    assign loaded new ≠ some x := by
  rw [assign]
  split
  · simp
  · exact fun e => h (Option.some.inj e)

/-- No operation runs in the archive. -/
theorem runningState_ne_archived (kind : AiOperationKind) : runningState kind ≠ .archived := by
  cases kind <;> simp [runningState]

/-- The statement sets a task archived. -/
def Write.Archives (taskId : Uuid) : Write → Prop
  | .setTask id change _ => id = taskId ∧ change.state = some .archived
  | .resetTask id _ restored _ => id = taskId ∧ restored = .archived
  | _ => False

/-- A statement about states that does not archive spares an archived task: it restores a state
only where it finds the running one. -/
theorem Write.spares_of_onStates {w : Write} {taskId : Uuid} (h : w.OnStates)
    (ha : ¬ w.Archives taskId) (db : Db) : w.Spares db taskId := by
  cases w with
  | setTask id change now =>
    by_cases hid : id = taskId
    · exact .inr ⟨h.1, h.2.1, h.2.2, fun hs => ha ⟨hid, hs⟩⟩
    · exact .inl hid
  | resetTask id expected restored now =>
    by_cases hid : id = taskId
    · exact .inr fun hr => ha ⟨hid, hr⟩
    · exact .inl hid
  | setOperation | setQueued => trivial
  | _ => exact h.elim

/-- A task that is not archived stays so where no statement archives it. -/
theorem Write.unarchived_of_apply {w : Write} {db db' : Db} {taskId : Uuid} {t : RewriteTask}
    (h : w.apply db = some db') (ht : db.tasks.get taskId = some t) (hs : t.state ≠ .archived)
    (hw : ¬ w.Archives taskId) :
    ∃ t', db'.tasks.get taskId = some t' ∧ t'.state ≠ .archived := by
  have hid : t.id = taskId := (Table.get_eq_some.mp ht).2
  cases w with
  | addTask t₁ =>
    obtain rfl := Option.some.inj h
    exact ⟨t, Table.get_insert_of_get ht, hs⟩
  | setTask id change now =>
    obtain ⟨_, -, rfl⟩ := Option.map_eq_some_iff.mp h
    refine ⟨_, Table.get_update_of_get (fun _ => change.apply_id ..) ht, ?_⟩
    split
    · rename_i hp
      rw [TaskChange.apply_state]
      rcases hc : change.state with _ | state
      · exact hs
      · rintro rfl
        exact hw ⟨(of_decide_eq_true hp).symm.trans hid, hc⟩
    · exact hs
  | resetTask id expected restored now =>
    obtain rfl := Option.some.inj h
    refine ⟨_, Table.get_update_of_get (f := RewriteTask.reset restored now) (fun _ => rfl) ht, ?_⟩
    split
    · rename_i hp
      simp only [Bool.and_eq_true, decide_eq_true_eq] at hp
      exact fun hr => hw ⟨hp.1.symm.trans hid, hr⟩
    · exact hs
  | setOperation | setAnalysis | decide | setFinal | setPreset =>
    obtain ⟨_, -, rfl⟩ := Option.map_eq_some_iff.mp h
    exact ⟨t, ht, hs⟩
  | _ =>
    obtain rfl := Option.some.inj h
    exact ⟨t, ht, hs⟩

/-- A task that is not archived stays so under statements that do not archive. By induction on the
list. -/
theorem Db.unarchived_of_foldlM {taskId : Uuid} {ws : List Write} :
    ∀ {db db' : Db}, ws.foldlM Write.apply db = some db' →
      (∃ t, db.tasks.get taskId = some t ∧ t.state ≠ .archived) →
      (∀ w ∈ ws, ¬ w.Archives taskId) →
      ∃ t', db'.tasks.get taskId = some t' ∧ t'.state ≠ .archived := by
  induction ws with
  | nil =>
    intro db db' h ht _
    obtain rfl := Option.some.inj h
    exact ht
  | cons w ws ih =>
    intro db db' h ht hw
    rw [List.foldlM_cons] at h
    obtain ⟨db₁, h₁, h₂⟩ := Option.bind_eq_some_iff.mp h
    obtain ⟨t, ht, hs⟩ := ht
    exact ih h₂ (Write.unarchived_of_apply h₁ ht hs (hw w List.mem_cons_self))
      fun w' hw' => hw w' (List.mem_cons_of_mem _ hw')

/-- The inputs show whether the task is archived. -/
theorem inputs_unarchived {db : Db} {taskId : Uuid} :
    (∃ i, db.inputs taskId = some i ∧ i.archived = false) ↔
      ∃ t, db.tasks.get taskId = some t ∧ t.state ≠ .archived := by
  constructor
  · rintro ⟨i, hi, ha⟩
    obtain ⟨t, ht, rfl⟩ := Option.map_eq_some_iff.mp hi
    exact ⟨t, ht, of_decide_eq_false ha⟩
  · rintro ⟨t, ht, hs⟩
    refine ⟨_, by rw [Db.inputs, ht]; rfl, decide_eq_false hs⟩

/-! ## The transactions of jobs -/

/-- A recovery restores initial states, none of which is the archive. -/
theorem onStates_of_recoverWrites {now : ℕ} {found : List (AiOperation × Option RewriteTask)}
    (hv : ∀ f ∈ found, f.1.Valid) (taskId : Uuid) :
    ∀ w ∈ recoverWrites now found, w.OnStates ∧ ¬ w.Archives taskId :=
  forall_recoverWrites
    (fun f hf _ _ => ⟨⟨rfl, rfl, rfl⟩, fun h => assign_ne (hv f hf).initial_not_archived h.2⟩)
    fun _ _ => ⟨trivial, id⟩

/-- So does the record of a failure. -/
theorem onStates_of_recordFailure {task : RewriteTask} {op : AiOperation}
    {error : OperationError} {status : AiOperationStatus} {now : ℕ} (hv : op.Valid)
    (taskId : Uuid) :
    ∀ w ∈ recordFailure task op error status now, w.OnStates ∧ ¬ w.Archives taskId := by
  intro w hw
  rcases List.mem_pair.mp hw with rfl | rfl
  · exact ⟨⟨rfl, rfl, rfl⟩, fun h => assign_ne hv.initial_not_archived h.2⟩
  · exact ⟨trivial, id⟩

/-- The statements of `persist` are about the task it stores the result for. -/
theorem spares_of_persist {db : Db} {i : Uuid} {st : Stamp} {prep : Prepared}
    {result : ServiceResult} {stored : List Write} {resource : ResourceType × Uuid}
    (h : persist db i st prep result = .ok (stored, resource)) (taskId : Uuid) :
    ∀ w ∈ stored, ¬ w.Archives taskId ∧ (i ≠ taskId → ∀ db₁, w.Spares db₁ taskId) := by
  unfold persist at h
  split at h
  · obtain ⟨rfl, -⟩ := Prod.mk.inj (Except.ok.inj h)
    intro w hw
    rcases List.mem_pair.mp hw with rfl | rfl <;> exact ⟨id, fun hne _ => hne⟩
  · obtain ⟨kept, -, h⟩ := bind_eq_ok.mp h
    obtain ⟨_, -, h⟩ := bind_eq_ok.mp h
    obtain ⟨rfl, -⟩ := Prod.mk.inj (Except.ok.inj h)
    intro w hw
    rcases List.mem_pair.mp hw with rfl | rfl
    · exact ⟨id, fun hne _ => hne⟩
    · refine ⟨id, fun hne _ r hr => ?_⟩
      obtain ⟨x, -, rfl⟩ := List.mem_map.mp hr
      exact hne
  · obtain ⟨rfl, -⟩ := Prod.mk.inj (Except.ok.inj h)
    intro w hw
    obtain rfl := List.mem_singleton.mp hw
    exact ⟨id, fun hne _ => hne⟩
  · obtain ⟨rfl, -⟩ := Prod.mk.inj (Except.ok.inj h)
    intro w hw
    obtain rfl := List.mem_singleton.mp hw
    exact ⟨id, fun hne _ => hne⟩
  · cases h

/-- The transactions of a job archive no task, and spare the inputs of every task but, where
they store a result, those of the task it is stored for. -/
theorem spares_of_transaction {cfg : Config} {db : Db} {st : Stamp} {opId : Uuid}
    {phase : JobPhase} {ws : List Write} (h : phase.transaction db st opId = some ws)
    (hwf : phase.Wf opId AiOperation.Valid) (hprov : phase.Provenance cfg) (taskId : Uuid) :
    ∀ w ∈ ws, ¬ w.Archives taskId ∧ ((∀ e result, phase = .returned e result →
      e.task.id ≠ taskId) → ∀ db₁, w.Spares db₁ taskId) := by
  have hstates : ∀ {ws : List Write}, (∀ w ∈ ws, w.OnStates ∧ ¬ w.Archives taskId) →
      ∀ w ∈ ws, ¬ w.Archives taskId ∧ ((∀ e result, phase = .returned e result →
        e.task.id ≠ taskId) → ∀ db₁, w.Spares db₁ taskId) := fun hws w hw =>
    ⟨(hws w hw).2, fun _ => Write.spares_of_onStates (hws w hw).1 (hws w hw).2⟩
  cases phase with
  | recovering op task todo found =>
    cases todo with
    | nil =>
      cases found with
      | nil => cases h
      | cons f found =>
        obtain rfl := Option.some.inj h
        exact hstates (onStates_of_recoverWrites (fun f hf => (hwf.2.2 f hf).1) taskId)
    | cons o todo => cases h
  | admitted e model =>
    simp only [JobPhase.transaction] at h
    split at h
    · obtain rfl := Option.some.inj h
      refine hstates fun w hw => ?_
      rcases List.mem_pair.mp hw with rfl | rfl
      · exact ⟨trivial, id⟩
      · exact ⟨⟨rfl, rfl, rfl⟩, fun h => assign_ne (runningState_ne_archived _) h.2⟩
    · cases h
  | returned e result =>
    simp only [JobPhase.transaction] at h
    split at h
    · rename_i hp
      obtain rfl := Option.some.inj h
      intro w hw
      rcases List.mem_append.mp hw with hw | hw
      · obtain ⟨hna, hsp⟩ := spares_of_persist hp taskId w hw
        exact ⟨hna, fun hne => hsp (hne e result rfl)⟩
      · have hsettled := TaskState.ne_archived_of_isSettled hprov.2.settled
        rcases List.mem_pair.mp hw with rfl | rfl
        · exact ⟨fun h => assign_ne hsettled h.2, fun hne _ => .inl (hne e result rfl)⟩
        · exact ⟨id, fun _ _ => trivial⟩
    · cases h
  | failing e failure =>
    obtain rfl := Option.some.inj h
    exact hstates (onStates_of_recordFailure hwf.1.2.1 taskId)
  | restored e arm op task =>
    cases op with
    | none => cases h
    | some o =>
      cases task with
      | none => cases h
      | some t =>
        simp only [JobPhase.transaction] at h
        split at h
        · cases h
        · obtain rfl := Option.some.inj h
          exact hstates (onStates_of_recordFailure (hwf.2.1 o rfl).2 taskId)
  | sweeping error op =>
    obtain rfl := Option.some.inj h
    refine hstates fun w hw => ?_
    rcases List.mem_append.mp hw with hw | hw
    · cases op with
      | none => cases hw
      | some o =>
        obtain rfl := List.mem_singleton.mp hw
        exact ⟨trivial, fun h => (hwf o rfl).2.initial_not_archived h.2⟩
    · obtain rfl := List.mem_singleton.mp hw
      exact ⟨trivial, id⟩
  | _ => cases h

/-! ## The transactions of requests -/

/-- A request on another task, or one that takes no row lock, leaves the inputs of a task
alone. -/
theorem inputs_of_request {cfg : Config} {db db' : Db} {m : Uuid} {st : Stamp} {pd : Pending}
    {ws : List Write} {taskId : Uuid} {i : Inputs} (h : RequestWrites cfg db m st pd ws)
    (hfold : ws.foldlM Write.apply db = some db') (hi : db.inputs taskId = some i)
    (hna : i.archived = false) (hother : ∀ t, pd.task = some t → t.id ≠ taskId)
    (hcancel : ∀ op task, pd = .cancelOperation op task → op.initialTaskState ≠ .archived)
    (hfinal : ∀ version task, pd = .finalizeVersion version task →
      ∀ v ∈ db.versions, v.id = version.id → v.taskId = task.id) :
    db'.inputs taskId = some i := by
  have hone : ∀ {w : Write}, ws = [w] → w.Spares db taskId → db'.inputs taskId = some i := by
    rintro w rfl hw
    rw [List.foldlM_cons] at hfold
    obtain ⟨db₁, h₁, h₂⟩ := Option.bind_eq_some_iff.mp hfold
    obtain rfl := Option.some.inj h₂
    exact Write.inputs_of_apply h₁ hi hna hw
  have hall : (∀ w ∈ ws, ∀ db₁, w.Spares db₁ taskId) → db'.inputs taskId = some i :=
    Db.inputs_of_foldlM hna hfold hi
  cases h with
  | presets hpd hws =>
    refine hall fun w hw db₁ => ?_
    have hon := hws w hw
    cases w <;> trivial
  | addTask => exact hone rfl trivial
  | updateTask => exact hone rfl (.inl (hother _ rfl))
  | archiveTask => exact hone rfl (.inl (hother _ rfl))
  | restoreTask => exact hone rfl (.inl (hother _ rfl))
  | updateAnalysis hr ht =>
    refine hone rfl fun r hr' hid => ?_
    rw [Table.eq_of_key hr' hr hid, ht]
    exact hother _ rfl
  | updateSuggestion hr ht =>
    refine hone rfl fun r hr' hid => ?_
    rw [Table.eq_of_key hr' hr hid, ht]
    exact hother _ rfl
  | manualEdit hstate hid htask =>
    refine hall fun w hw db₁ => ?_
    rcases List.mem_pair.mp hw with rfl | rfl
    · exact htask.trans_ne (hother _ rfl)
    · exact .inl (hother _ rfl)
  | createLock hstate htask => exact hone rfl (htask.trans_ne (hother _ rfl))
  | deleteLock => exact hone rfl (hother _ rfl)
  | finalizeVersion hstate =>
    rename_i version task
    have hne := hother task rfl
    rw [List.foldlM_cons] at hfold
    obtain ⟨db₁, h₁, hfold⟩ := Option.bind_eq_some_iff.mp hfold
    rw [List.foldlM_cons] at hfold
    obtain ⟨db₂, h₂, hfold⟩ := Option.bind_eq_some_iff.mp hfold
    rw [List.foldlM_cons] at hfold
    obtain ⟨db₃, h₃, hfold⟩ := Option.bind_eq_some_iff.mp hfold
    obtain rfl := Option.some.inj hfold
    have hi₁ := Write.inputs_of_apply h₁ hi hna hne
    have hi₂ := Write.inputs_of_apply h₂ hi₁ hna fun v hv hid => by
      -- clearing the final version has moved no version
      rcases Write.cores_of_apply h₁ with hsame | ⟨_, hadds, -⟩
      · obtain ⟨v₀, hv₀, hcore⟩ := (Sys.version_of_cores hv).1 hsame
        rw [← ScriptVersion.taskId_of_core hcore, hfinal version task rfl v₀ hv₀
          ((ScriptVersion.id_of_core hcore).trans hid)]
        exact hne
      · cases hadds
    exact Write.inputs_of_apply h₃ hi₂ hna (.inl hne)
  | submit hstate hsnapshot =>
    refine hall fun w hw db₁ => ?_
    rcases List.mem_append.mp hw with hw | hw
    · rcases hsnapshot with rfl | ⟨a, ds, -, rfl⟩
      · cases hw
      · obtain rfl := List.mem_singleton.mp hw
        exact hother _ rfl
    · rcases List.mem_pair.mp hw with rfl | rfl
      · trivial
      · exact .inl (hother _ rfl)
  | clearHistory => exact hone rfl trivial
  | cancelOperation hqueued hreset =>
    exact hall fun w hw db₁ => forall_cancelWrites hreset trivial
      (fun _ _ => .inr ⟨rfl, rfl, rfl, assign_ne (hcancel _ _ rfl)⟩) w hw

namespace Sys

variable {cfg : Config} {s s' : Sys} {a : Action}

/-! ## Steps -/

/-- While an operation is active its task is not archived. -/
def Unarchived (s : Sys) : Prop :=
  ∀ o ∈ s.db.operations, o.isActive = true → ∃ i, s.db.inputs o.taskId = some i ∧ i.archived = false

/-- The invariants a frozen task rests on. -/
structure Sheltered (cfg : Config) (s : Sys) : Prop where
  base : s.Base
  placed : s.Placed
  provenance : ∀ p opId phase, s.procs p = .job opId phase → phase.Provenance cfg
  unarchived : s.Unarchived

/-- A request leaves the inputs of a task alone whose operation is active. -/
theorem Sheltered.inputs_of_commit (hs : s.Sheltered cfg) {p : ℕ} {ids : List Uuid} {m : Uuid}
    {r : Request} {pd : Pending} {out : Outcome} {db : Db}
    (hp : s.procs p = .locked m r pd ∨ s.procs p = .opened m r pd ∧ pd.task = none)
    (hf : pd.finish cfg s.db m ⟨s.now, ids⟩ = .ok out) (hc : s.db.commit out.writes = some db)
    {o : AiOperation} (ho : o ∈ s.db.operations) (hact : o.isActive = true) :
    db.inputs o.taskId = s.db.inputs o.taskId := by
  obtain ⟨i, hi, hna⟩ := hs.unarchived o ho hact
  rw [hi]
  refine inputs_of_request (writes_of_finish hf) (Db.commit_eq_some.mp hc).1 hi hna ?_ ?_ ?_
  · rintro t ht hid
    rcases hp with hp | ⟨-, hnone⟩
    · have hfree := (hs.base.locked p m r pd t hp ht).2
      rw [hasActive_eq_false] at hfree
      rw [hfree o ho hid.symm] at hact
      cases hact
    · cases hnone.symm.trans ht
  · rintro op task rfl
    rcases hp with hp | ⟨hp, -⟩
    · obtain ⟨t, ht⟩ := hs.base.lockedTask p m r _ hp
      cases ht
    · exact (hs.base.cancels p m r op task hp).1.valid.initial_not_archived
  · rintro version task rfl
    exact (hs.placed.finals p m r version task (hp.symm.imp_left And.left)).2

/-- **The inputs of a task with an active operation change only where a result is stored for
the task.** -/
theorem Sheltered.inputs_of_move (hs : s.Sheltered cfg) (h : Move cfg s a s') {o : AiOperation}
    (ho : o ∈ s.db.operations) (hact : o.isActive = true) :
    s'.db.inputs o.taskId = s.db.inputs o.taskId ∨
      ∃ p opId e result, a.proc = some p ∧ s.procs p = .job opId (.returned e result) ∧
        e.task.id = o.taskId ∧ ∀ o' ∈ s'.db.operations, o'.id = opId → o'.status = .succeeded := by
  obtain ⟨i, hi, hna⟩ := hs.unarchived o ho hact
  cases h with
  | commit hp hids hf hw hc => exact .inl (hs.inputs_of_commit hp hf hc ho hact)
  | settle ha hp hids hn hgo ht hw hc =>
    rename_i p a ids opId phase phase' ws db
    rw [enter_db]
    have hwf := hs.base.jobs p opId phase hp
    by_cases hret : ∃ e result, phase = .returned e result ∧ e.task.id = o.taskId
    · obtain ⟨e, result, rfl, hid⟩ := hret
      refine .inr ⟨p, opId, e, result, rfl, hp, hid, fun o' ho' hid' => ?_⟩
      exact stored_of_settle ht hc o' ho' (hid'.trans hwf.1.1.symm)
    · left
      rw [hi]
      refine Db.inputs_of_foldlM hna (Db.commit_eq_some.mp hc).1 hi fun w hw => ?_
      refine (spares_of_transaction ht (hwf.mono fun o hk => hk.valid)
        (hs.provenance p opId phase hp) o.taskId w hw).2 fun e result he hid => ?_
      exact hret ⟨e, result, he, hid⟩
  | recover he hp hw hc hx =>
    rename_i p worker e rest found x db
    left
    have hwf := hs.base.ticks p worker _ hp
    show db.inputs o.taskId = _
    rw [hi]
    refine Db.inputs_of_foldlM hna (Db.commit_eq_some.mp hc).1 hi fun w hw => ?_
    obtain ⟨hon, hna'⟩ := onStates_of_recoverWrites (fun f hf => (hwf.2 f hf).1.valid) o.taskId w hw
    exact Write.spares_of_onStates hon hna'
  | _ => exact .inl (by simp [Db.inputs])

theorem Sheltered.unarchived_of_move (hs : s.Sheltered cfg) (h : Move cfg s a s') :
    s'.Unarchived := by
  intro o' ho' hact'
  rw [inputs_unarchived]
  rcases (opsEvolve_of_move h).origin o' ho' with ⟨o, ho, hbec⟩ | hnew
  swap
  · obtain ⟨t, -, -, ht'⟩ := hs.base.submitted h hnew ho'
    refine ⟨_, ht', ?_⟩
    rw [hnew.valid.running]
    exact runningState_ne_archived _
  have hact := hbec.active hact'
  rw [hbec.same.taskId]
  have hbefore := inputs_unarchived.mp (hs.unarchived o ho hact)
  cases h with
  | commit hp hids hf hw hc =>
    have hsame := hs.inputs_of_commit hp hf hc ho hact
    have hafter := hs.unarchived o ho hact
    rw [← hsame] at hafter
    exact inputs_unarchived.mp hafter
  | settle ha hp hids hn hgo ht hw hc =>
    rename_i p a ids opId phase phase' ws db
    rw [enter_db]
    refine Db.unarchived_of_foldlM (Db.commit_eq_some.mp hc).1 hbefore fun w hw => ?_
    exact (spares_of_transaction ht ((hs.base.jobs p opId phase hp).mono fun o hk => hk.valid)
      (hs.provenance p opId phase hp) o.taskId w hw).1
  | recover he hp hw hc hx =>
    have hwf := hs.base.ticks _ _ _ hp
    refine Db.unarchived_of_foldlM (Db.commit_eq_some.mp hc).1 hbefore fun w hw => ?_
    exact (onStates_of_recoverWrites (fun f hf => (hwf.2 f hf).1.valid) o.taskId w hw).2
  | _ => simpa using hbefore

/-- **Every reachable state shelters the tasks of its active operations.** -/
theorem sheltered {P : Sys → Action → Prop} (hs : Reach (system cfg) P s) : s.Sheltered cfg := by
  induction hs with
  | init hi =>
    exact ⟨.of_initial hi, .of_initial hi, fun p opId phase hp => by simp [hi.procs] at hp,
      fun o ho => by simp [hi.operations] at ho⟩
  | step hr hp ha ih =>
    have hr' := Reach.step hr hp ha
    exact ⟨base hr', Sys.placed hr', Sys.provenance hr', ih.unarchived_of_move (move_of_step ha)⟩

end Sys

end DouyinCaption

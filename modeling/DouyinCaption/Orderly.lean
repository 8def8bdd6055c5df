import DouyinCaption.Executing
import DouyinCaption.Provenance
import DouyinCaption.Requests
import DouyinCaption.TaskDrafts
import DouyinCaption.TaskViews

/-!
# Orderly runs

A transaction of a request, of a recovery or of a clean-up decides from rows it has read
earlier. In the runs in which it finds them as it has read them (`Orderly`), what happens to a
task is what the workflow says.

`Coupled` is what the workflow keeps of a task; here is what the processes hold in memory of it
(`InTune`).
-/

namespace DouyinCaption

open Tables Runs

/-! ## The kind of what is prepared -/

/-- The kind of operation the inputs are for. -/
def Prepared.kind : Prepared → AiOperationKind
  | .analysis _ => .analysis
  | .suggestions .. => .suggestions
  | .firstDraft .. => .firstDraft
  | .revision .. => .revision

/-- The state of a success depends on the kind alone. -/
theorem Prepared.succeeded_eq (prepared : Prepared) :
    prepared.succeeded = settledState prepared.kind := by
  cases prepared <;> rfl

/-- What is prepared is of the kind of the payload. -/
theorem kind_of_assemble {payload : Payload} {reads : Reads} {prepared : Prepared}
    (h : assemble payload reads = .ok prepared) : prepared.kind = payload.kind := by
  cases payload with
  | analysis =>
    obtain rfl := Except.ok.inj h
    rfl
  | suggestions =>
    obtain ⟨_, -, h⟩ := bind_eq_ok.mp h
    obtain ⟨_, -, h⟩ := bind_eq_ok.mp h
    obtain ⟨_, -, h⟩ := bind_eq_ok.mp h
    obtain rfl := Except.ok.inj h
    rfl
  | firstDraft =>
    obtain ⟨_, -, h⟩ := bind_eq_ok.mp h
    obtain ⟨_, -, h⟩ := bind_eq_ok.mp h
    obtain ⟨_, -, h⟩ := bind_eq_ok.mp h
    obtain rfl := Except.ok.inj h
    rfl
  | revision payload =>
    obtain ⟨_, -, h⟩ := bind_eq_ok.mp h
    split at h
    · obtain ⟨_, -, h⟩ := bind_eq_ok.mp h
      obtain ⟨_, -, h⟩ := bind_eq_ok.mp h
      obtain ⟨_, -, h⟩ := bind_eq_ok.mp h
      obtain rfl := Except.ok.inj h
      rfl
    · obtain rfl := Except.ok.inj h
      rfl

/-! ## State and operation of a task -/

/-- Every task fits, as the workflow sees it. -/
def Db.Coupled (db : Db) : Prop := ∀ taskId, ∀ v ∈ db.view taskId, v.Fits

section Views

variable {db : Db} {taskId : Uuid} {t : RewriteTask} {o : AiOperation}

/-- What the abstract workflow sees of a stored task. -/
theorem Db.view_of_mem (ht : t ∈ db.tasks) : db.view t.id = some ⟨t.state, t.archivedFromState,
    (db.activeOperation t.id).map fun o => (o.kind, o.initialTaskState)⟩ := by
  have hget : db.tasks.get t.id = some t := Table.get_of_mem ht
  simp only [Db.view, Db.desk, Desk.view, hget, Option.map_some, RewriteTask.snapshot]

/-- A task with an active operation is in the state the operation runs in. -/
theorem Db.Coupled.state (hc : db.Coupled) (hs : db.Single) (ht : t ∈ db.tasks)
    (ho : o ∈ db.operations) (htask : o.taskId = t.id) (hact : o.isActive = true)
    (hv : o.Valid) : t.state = o.runningTaskState := by
  have hactive := hs.activeOperation ho hact
  rw [htask] at hactive
  have hfits := hc t.id _ (Db.view_of_mem ht)
  rw [hv.running]
  exact (hfits.working o.kind o.initialTaskState (by simp [hactive])).1

/-- And a task with none is at rest. -/
theorem Db.Coupled.rest (hc : db.Coupled) (ht : t ∈ db.tasks)
    (hfree : db.hasActive t.id = false) : t.state.isRunning = false := by
  refine (hc t.id _ (Db.view_of_mem ht)).resting ?_
  simp [Db.activeOperation_eq_none.mpr hfree]

/-- On every task nothing happens, or a step of the workflow. -/
def Db.Flows (db db' : Db) : Prop :=
  ∀ taskId, db'.view taskId = db.view taskId ∨ Flow (db.view taskId) (db'.view taskId)

/-- Where no desk changes, the workflow stands still. -/
theorem Db.Flows.of_desk {db' : Db} (h : ∀ taskId, db'.desk taskId = db.desk taskId) :
    db.Flows db' := fun taskId => .inl (by rw [Db.view, Db.view, h])

/-- The statement is about no state and no operation. -/
def Write.still : Write → Bool
  | .addTask _ | .setTask .. | .resetTask .. | .addOperation _ | .setOperation .. | .setQueued .. =>
      false
  | _ => true

/-- A still statement leaves the operations alone. -/
theorem Write.works_of_still {w : Write} (h : w.still = true) : w.Works := by
  cases w <;> trivial

/-- A still statement leaves every desk as it is. -/
theorem Write.onDesk_of_still {w : Write} (h : w.still = true) (d : Desk) :
    w.onDesk taskId d = d := by
  cases w <;> first | rfl | cases h

/-- And so does a list of them. -/
theorem onDesk_of_still {ws : List Write} (h : ∀ w ∈ ws, w.still = true) (d : Desk) :
    ws.foldl (fun d w => w.onDesk taskId d) d = d := by
  induction ws with
  | nil => rfl
  | cons w ws ih =>
    rw [List.foldl_cons, Write.onDesk_of_still (h w List.mem_cons_self),
      ih fun w' hw' => h w' (List.mem_cons_of_mem _ hw')]

/-- A transaction of still statements is no step of the workflow. -/
theorem Db.Flows.of_still {db' : Db} {ws : List Write} (hs : db.Single)
    (h : ws.foldlM Write.apply db = some db') (hws : ∀ w ∈ ws, w.still = true) : db.Flows db' :=
  .of_desk fun _ => (Db.desk_of_foldlM hs (fun w hw => Write.works_of_still (hws w hw)) h).trans
    (onDesk_of_still hws _)

/-- The flush of a task no operation works on. -/
theorem Db.Flows.of_flush {db' : Db} (ws : List Write) {change : TaskChange} {now : ℕ}
    {r : TaskSnapshot} (hs : db.Single)
    (h : (ws ++ [Write.setTask taskId change now]).foldlM Write.apply db = some db')
    (hws : ∀ w ∈ ws, w.still = true) (hdesk : db.desk taskId = ⟨some r, none⟩)
    (hflow : change.onSnapshot r = r ∨ Flow (some ⟨r.state, r.archivedFromState, none⟩)
      (some ⟨(change.onSnapshot r).state, (change.onSnapshot r).archivedFromState, none⟩)) :
    db.Flows db' := by
  have hworks : ∀ w ∈ ws ++ [Write.setTask taskId change now], w.Works := by
    intro w hw
    rcases List.mem_append.mp hw with hw | hw
    · exact Write.works_of_still (hws w hw)
    · obtain rfl := List.mem_singleton.mp hw
      trivial
  intro i
  rw [Db.view, Db.view, Db.desk_of_foldlM hs hworks h, List.foldl_append, onDesk_of_still hws]
  by_cases hi : taskId = i
  · subst hi
    simp only [List.foldl_cons, List.foldl_nil, Write.onDesk, if_pos, hdesk, Option.map_some]
    rcases hflow with hsame | hflow
    · rw [hsame]
      exact .inl rfl
    · exact .inr hflow
  · simp only [List.foldl_cons, List.foldl_nil, Write.onDesk, if_neg hi]
    exact .inl trivial

/-- The end of an operation, with what it does to its task. -/
theorem Db.Flows.of_end {db' : Db} {ws : List Write} {state : TaskState} (hc : db.Coupled)
    (hs : db.Single) (hv : o.Valid) (ho : o ∈ db.operations) (hact : o.isActive = true)
    (ht : ∃ t, db.tasks.get o.taskId = some t) (hworks : ∀ w ∈ ws, w.Works)
    (h : ws.foldlM Write.apply db = some db')
    (hother : ∀ i d, i ≠ o.taskId → (∀ w, d.work = some w → w.id ≠ o.id) →
      ws.foldl (fun d w => w.onDesk i d) d = d)
    (hown : ∀ r : TaskSnapshot, r.state = o.runningTaskState →
      ws.foldl (fun d w => w.onDesk o.taskId d) ⟨some r, some o⟩ = ⟨some { r with state }, none⟩)
    (hstate : state = settledState o.kind ∨ state = o.initialTaskState) : db.Flows db' := by
  intro i
  rw [Db.view, Db.view, Db.desk_of_foldlM hs hworks h]
  by_cases hi : i = o.taskId
  · subst hi
    obtain ⟨t, hget⟩ := ht
    obtain ⟨htm, hid⟩ := Table.get_eq_some.mp hget
    have hrow := hc.state hs htm ho hid.symm hact hv
    have hdesk : db.desk o.taskId = ⟨some t.snapshot, some o⟩ := by
      rw [Db.desk, hget, hs.activeOperation ho hact]
      rfl
    rw [hdesk, hown t.snapshot hrow]
    right
    rcases hstate with rfl | rfl
    · exact .succeed rfl
    · exact .giveUp rfl
  · left
    rw [hother i _ hi fun w hw hid => ?_]
    obtain ⟨hm, htask, -⟩ := Db.activeOperation_eq_some hw
    exact hi (htask.symm.trans (congrArg AiOperation.taskId (Table.eq_of_key hm ho hid)))

end Views

/-- What stores a result is still: the success after it moves the task. -/
theorem Stores.still {db : Db} {id : Uuid} {st : Stamp} {result : ServiceResult}
    {prep : Prepared} {ws : List Write} (h : Stores db id st result prep ws) :
    ∀ w ∈ ws, w.still = true := by
  cases h <;> simp [Write.still]

/-! ## Rows in memory -/

/-- What a job holds of its task and its inputs fits its operation. -/
def JobPhase.InTune : JobPhase → Prop
  | .began op _ | .recovering op .. | .reading op .. => op.requestPayload.kind = op.kind
  | .ready op _ prepared => prepared.kind = op.kind
  | .leased e | .checked e | .locked e | .admitted e _ | .claimed e _ | .calling e _
  | .returned e _ => e.prepared.kind = e.op.kind
  | .restored _ _ op task => ∀ o ∈ op, ∀ t ∈ task, o.isActive = true → t.state = o.runningTaskState
  | _ => True

namespace Sys

variable {cfg : Config} {s s' : Sys} {a : Action}

/-- What the processes hold of their tasks fits their operations. -/
structure InTune (s : Sys) : Prop where
  jobs : ∀ p opId phase, s.procs p = .job opId phase → phase.InTune
  /-- a cancellation that has found its operation queued has found the task in its state -/
  cancels : ∀ p m r op task, s.procs p = .opened m r (.cancelOperation op task) →
    op.status = .queued → ∃ t ∈ task, t.state = op.runningTaskState

/-- A job stays in tune with its task while it goes on. -/
theorem inTune_of_step (hb : s.Base) (hc : s.db.Coupled) {p : ℕ} {opId : Uuid}
    {phase phase' : JobPhase} (hp : s.procs p = .job opId phase)
    (h : JobStep cfg s opId phase phase') (ht : phase.InTune) : phase'.InTune := by
  have hfrom := from_of_step h
  have hwf := hb.jobs p opId phase hp
  cases phase' with
  | began op task => exact hfrom.2.2.2.2
  | recovering op task todo found =>
    rcases hfrom with ⟨rfl, -⟩ | ⟨o, found₀, rfl, -⟩ <;> exact ht
  | reading op task todo reads =>
    rcases hfrom with ⟨found, rfl, -⟩ | ⟨q, reads₀, rfl, -⟩ <;> exact ht
  | ready op task prepared =>
    obtain ⟨reads, rfl, hassemble⟩ := hfrom
    exact (kind_of_assemble hassemble).trans ht
  | leased e =>
    obtain ⟨rfl, -⟩ := hfrom
    exact ht
  | checked e =>
    obtain ⟨op₀, rfl, hget, -⟩ := hfrom
    obtain ⟨hm, hid⟩ := Table.get_eq_some.mp hget
    obtain ⟨⟨-, hknows, -⟩, -⟩ := hwf
    exact Eq.trans ht (hknows.became e.op hm hid).same.kind.symm
  | locked e =>
    obtain ⟨task₀, rfl, -⟩ := hfrom
    exact ht
  | admitted e model =>
    obtain ⟨rfl, -⟩ := hfrom
    exact ht
  | claimed e model =>
    obtain ⟨rfl, -⟩ := hfrom
    exact ht
  | calling e call =>
    obtain ⟨model, rfl, -⟩ := hfrom
    exact ht
  | returned e result =>
    obtain ⟨call, response, rfl, -⟩ := hfrom
    exact ht
  | restored e arm op task =>
    obtain ⟨rfl, rfl, rfl⟩ := hfrom
    obtain ⟨⟨-, hknows, htask⟩, -⟩ := hwf
    intro o ho t htm hact
    obtain ⟨hm, hid⟩ := Table.get_eq_some.mp ho
    obtain ⟨hmt, hidt⟩ := Table.get_eq_some.mp htm
    have hsame := (hknows.became o hm hid).same
    refine hc.state hb.consistent.single hmt hm ?_ hact (hb.valid o hm)
    exact hsame.taskId.trans (htask.symm.trans hidt.symm)
  | _ => trivial

/-- The step lemma. -/
theorem InTune.move (ht : s.InTune) (hb : s.Base) (hc : s.db.Coupled) (h : Move cfg s a s') :
    s'.InTune where
  jobs := by
    intro q opId phase hq
    rcases job_of_move h hq with ⟨hp, -⟩ | ⟨rfl, -⟩ | ⟨e, phase₀, -, hp, hstep⟩
    · exact ht.jobs q opId phase hp
    · trivial
    · exact inTune_of_step hb hc hp hstep (ht.jobs q opId phase₀ hp)
  cancels := by
    intro q m r op task hq hqueued
    rcases opened_of_move h hq with ⟨hp, -⟩ | ⟨-, ho, -⟩
    · exact ht.cancels q m r op task hp hqueued
    · obtain ⟨hm, -, rfl, -⟩ := (loadedBy_of_opening ho).cancel op task rfl
      obtain ⟨t, hget⟩ := hb.placed op hm
      obtain ⟨hmt, hid⟩ := Table.get_eq_some.mp hget
      refine ⟨t, hget, hc.state hb.consistent.single hmt hm hid.symm ?_ (hb.valid op hm)⟩
      rw [AiOperation.isActive, hqueued]
      rfl

/-! ## The condition -/

/-- The step commits a recovery of operations that a process has selected, with their tasks. -/
inductive Recovering (s : Sys) : Action → List (AiOperation × Option RewriteTask) → Prop where
  | job {p : ℕ} {e : JobEvent} {opId : Uuid} {op : AiOperation} {task : RewriteTask}
      {found : List (AiOperation × Option RewriteTask)}
      (hp : s.procs p = .job opId (.recovering op task [] found)) : Recovering s (.job p e) found
  | tick {p : ℕ} {e : TickEvent} {worker : ℕ} {rest : List Uuid}
      {found : List (AiOperation × Option RewriteTask)}
      (hp : s.procs p = .tick worker (.recovering rest [] found)) : Recovering s (.tick p e) found

/-- A transaction finds what it has read: no operation is declared stale while a job executes
it, and nobody has come in between. -/
structure Orderly (s : Sys) (a : Action) : Prop where
  noStale : s.NoStale a
  /-- a request commits on the state it has loaded with its task -/
  requests : ∀ p ids m r pd t, a = .commit p ids → s.procs p = .locked m r pd →
    pd.task = some t → ∀ t' ∈ s.db.tasks, t'.id = t.id → t'.snapshot = t.snapshot
  /-- a recovery finds the operations it has selected still running, in the state it has loaded
  with their tasks -/
  recoveries : ∀ found, s.Recovering a found → ∀ f ∈ found, s.Runs f.1.id ∧
    ∃ t ∈ f.2, ∀ t' ∈ s.db.tasks, t'.id = t.id → t'.state = t.state
  /-- a failure is recorded of an operation that is still running -/
  failures : ∀ p e opId x arm o t, a = .job p e →
    s.procs p = .job opId (.restored x arm (some o) (some t)) →
    ¬ (arm = .internal ∧ o.status = .succeeded) → s.Runs opId
  /-- a clean-up finds its operation queued, or its task in another state than its own -/
  cleanups : ∀ p e opId error o, a = .job p e → s.procs p = .job opId (.sweeping error (some o)) →
    s.db.isQueued opId = true ∨ ∀ t ∈ s.db.tasks, t.id = o.taskId → t.state ≠ o.runningTaskState
  /-- one that has found no operation finds none -/
  missing : ∀ p e opId error, a = .job p e → s.procs p = .job opId (.sweeping error none) →
    s.db.operations.Fresh opId

/-! ## Requests -/

section Requests

variable {db : Db} {taskId : Uuid}

/-- What a request that decides from a state it has loaded makes of its task. -/
theorem onSnapshot_assign {task : RewriteTask} {state : TaskState} {change : TaskChange}
    (hstate : change.state = assign task.state state) (hfrom : change.archivedFromState = none) :
    change.onSnapshot task.snapshot = { task.snapshot with state } := by
  rw [TaskChange.onSnapshot, hstate, hfrom]
  simp only [RewriteTask.snapshot, assign_getD, Option.getD_none]

/-- What a snapshot of a task stores is the snapshot. -/
theorem onSnapshot_storeSnapshot {task : RewriteTask} {snapshot : TaskSnapshot} :
    TaskChange.onSnapshot {
      state := assign task.state snapshot.state
      archivedFromState := assign task.archivedFromState snapshot.archivedFromState }
      task.snapshot = snapshot := by
  simp only [TaskChange.onSnapshot, RewriteTask.snapshot, assign_getD]

/-- The desk of a task a request has locked. -/
theorem desk_of_locked {t : RewriteTask} (ht : ∃ t', db.tasks.get t.id = some t')
    (hcurrent : ∀ t' ∈ db.tasks, t'.id = t.id → t'.snapshot = t.snapshot)
    (hfree : db.hasActive t.id = false) : db.desk t.id = ⟨some t.snapshot, none⟩ := by
  obtain ⟨t', hget⟩ := ht
  obtain ⟨hm, hid⟩ := Table.get_eq_some.mp hget
  rw [Db.desk, hget, Db.activeOperation_eq_none.mpr hfree, Option.map_some, hcurrent t' hm hid]

/-- A new task. -/
theorem flows_of_addTask {t : RewriteTask} (hplaced : ∀ o ∈ db.operations,
      ∃ t, db.tasks.get o.taskId = some t) (hstate : t.state = .draft)
    (hfrom : t.archivedFromState = none) :
    db.Flows { db with tasks := db.tasks.insert t } := by
  intro i
  by_cases hi : t.id = i
  · subst hi
    rcases hget : db.tasks.get t.id with _ | t₀
    · right
      have hnone : db.activeOperation t.id = none := by
        refine Table.scalar_none.mpr fun o ho hsel => ?_
        simp only [Bool.and_eq_true, decide_eq_true_eq] at hsel
        obtain ⟨t', ht'⟩ := hplaced o ho
        rw [hsel.1, hget] at ht'
        cases ht'
      have hself : (db.tasks.insert t).get t.id = some t := Table.get_insert_self hget
      have hnone' : Db.activeOperation { db with tasks := db.tasks.insert t } t.id = none := hnone
      simp only [Db.view, Db.desk, Desk.view, hget, hself, hnone', Option.map_none, Option.map_some,
        RewriteTask.snapshot, hstate, hfrom]
      exact .create
    · left
      have hself : (db.tasks.insert t).get t.id = some t₀ := Table.get_insert_of_get hget
      simp only [Db.view, Db.desk, hself, hget]
      rfl
  · left
    have hother : (db.tasks.insert t).get i = db.tasks.get i := Table.get_insert_of_ne hi
    simp only [Db.view, Db.desk, hother]
    rfl

/-- A submission. -/
theorem flows_of_submit {db' : Db} {snapshot : List Write} {o : AiOperation} {task : RewriteTask}
    {now : ℕ} (hsnapshot : snapshot = [] ∨ ∃ a ds, snapshot = [.applySnapshot task.id a ds])
    (htask : o.taskId = task.id) (hqueued : o.status = .queued)
    (hinitial : o.initialTaskState = task.state)
    (hallowed : assertTransition task.state (runningState o.kind) = .ok ())
    (hfresh : db.operations.Fresh o.id) (hdesk : db.desk task.id = ⟨some task.snapshot, none⟩)
    (h : db.commit (snapshot ++ [.addOperation o, .setTask task.id
      { state := assign task.state (runningState o.kind) } now]) = some db') : db.Flows db' := by
  have hact : o.isActive = true := by rw [AiOperation.isActive, hqueued]; rfl
  obtain ⟨-, hc, suggestions, rfl⟩ := commit_of_submit hsnapshot h
  intro i
  by_cases hi : task.id = i
  · subst hi
    right
    have hadded : o ∈ db.operations.insert o := (Table.mem_insert hfresh).mpr (.inr rfl)
    have hwork := hc.single.activeOperation hadded hact
    rw [htask] at hwork
    obtain ⟨hrow, -⟩ := Desk.mk.inj hdesk
    obtain ⟨t, hget, ht⟩ := Option.map_eq_some_iff.mp hrow
    have hid : t.id = task.id := (Table.get_eq_some.mp hget).2
    have hbefore : db.view task.id = some ⟨task.state, task.archivedFromState, none⟩ := by
      rw [Db.view, hdesk]
      rfl
    rw [hbefore, Db.view, Db.desk, hwork,
      Table.get_update_of_get (fun _ => TaskChange.apply_id ..) hget, if_pos (decide_eq_true hid),
      Option.map_some, TaskChange.snapshot_apply, ht, onSnapshot_assign rfl rfl]
    have hflow := Flow.submit (v := ⟨task.state, task.archivedFromState, none⟩) rfl hallowed
    rw [← hinitial] at hflow
    exact hinitial ▸ hflow
  · left
    have hrow : (db.tasks.update (fun t => t.id = task.id)
        (TaskChange.apply { state := assign task.state (runningState o.kind) } now)
        fun _ => TaskChange.apply_id ..).get i = db.tasks.get i := by
      refine Table.get_update_of_not (fun _ => TaskChange.apply_id ..) fun t _ hid => .inl ?_
      exact decide_eq_false fun he => hi (he.symm.trans hid)
    have hwork : (db.operations.insert o).scalar (fun o => o.taskId = i && o.isActive) =
        db.activeOperation i := by
      rw [Table.scalar_eq_head?, Table.select_insert_of_not, ← Table.scalar_eq_head?]
      · rfl
      · simp [htask, hi]
    simp only [Db.view, Db.desk, hrow]
    rw [Db.activeOperation, hwork]

end Requests

/-- A cancellation takes the workflow from waiting back to where the operation came from. -/
theorem flows_of_cancel (hb : s.Base) (ht : s.InTune) (hc : s.db.Coupled) {p : ℕ} {m : Uuid}
    {r : Request} {op : AiOperation} {task : Option RewriteTask} {st : Stamp} {out : Outcome}
    {db : Db} (hp : s.procs p = .opened m r (.cancelOperation op task))
    (hf : finishCancel s.db st op task = .ok out) (hcommit : s.db.commit out.writes = some db) :
    s.db.Flows db := by
  obtain ⟨⟨o, ho, hid, hqueued⟩, -, hwrites⟩ := finishCancel_eq_ok hf
  obtain ⟨hknows, htask, -⟩ := hb.cancels p m r op task hp
  -- the operation is still what the request has loaded
  obtain rfl := (hknows.became o ho hid).queued hqueued
  obtain ⟨t, hloaded, hstate⟩ := ht.cancels p m r o task hp hqueued
  obtain rfl := Option.mem_def.mp hloaded
  have hact : o.isActive = true := by rw [AiOperation.isActive, hqueued]; rfl
  have htid : t.id = o.taskId := htask t rfl
  rw [hwrites] at hcommit
  simp only [hstate, if_true] at hcommit
  refine Db.Flows.of_end hc hb.consistent.single (hb.valid o ho) ho hact (hb.placed o ho) ?_
    (Db.commit_eq_some.mp hcommit).1 ?_ ?_ (.inr rfl)
  · intro w hw
    rcases List.mem_pair.mp hw with rfl | rfl <;> trivial
  · intro i d hi hne
    rw [List.foldl_cons, List.foldl_cons, List.foldl_nil,
      onDesk_setQueued_of_ne fun w hw => .inl (hne w hw), htid, onDesk_setTask_of_ne hi]
  · intro r hr
    rw [List.foldl_cons, List.foldl_cons, List.foldl_nil, onDesk_setQueued_self hqueued rfl, htid,
      onDesk_setTask_self]
    simp [TaskChange.onSnapshot, ← hr, assign_getD]

/-- **The commit of a request is a step of the workflow** on its task. -/
theorem flows_of_commit (hb : s.Base) (hh : s.Holding cfg) (ht : s.InTune) (hc : s.db.Coupled)
    {p : ℕ} {ids : List Uuid} (hn : s.Orderly (.commit p ids)) {m : Uuid} {r : Request}
    {pd : Pending} {out : Outcome} {db : Db}
    (hp : s.procs p = .locked m r pd ∨ s.procs p = .opened m r pd ∧ pd.task = none)
    (hids : s.Draws ids) (hf : pd.finish cfg s.db m ⟨s.now, ids⟩ = .ok out)
    (hcommit : s.db.commit out.writes = some db) : s.db.Flows db := by
  have hs : s.db.Single := hb.consistent.single
  have hfold := (Db.commit_eq_some.mp hcommit).1
  -- a task under its row lock is stored as loaded, and no operation works on it
  have hdesk : ∀ t, pd.task = some t → s.db.desk t.id = ⟨some t.snapshot, none⟩ := by
    intro t hpt
    have hlocked : s.procs p = .locked m r pd :=
      hp.resolve_right fun h => by rw [hpt] at h; cases h.2
    have hfree := (hb.locked p m r pd t hlocked hpt).2
    have hcurrent := hn.requests p ids m r pd t rfl hlocked hpt
    obtain ⟨pd₀, db₀, hasked, rfl⟩ := hh.locked p m r pd hlocked
    obtain ⟨t₀, ht₀, hid₀⟩ := refresh_task hpt
    obtain ⟨t', hm, hid, -⟩ := task_of_asked hasked ht₀
    exact desk_of_locked ⟨t', Table.get_eq_some.mpr ⟨hm, hid.trans hid₀.symm⟩⟩ hcurrent hfree
  have hwrites := writes_of_finish hf
  generalize hws : out.writes = ws at hwrites hfold hcommit
  cases hwrites with
  | presets _ hon =>
    refine .of_still hs hfold fun w hw => ?_
    have hon := hon w hw
    cases w <;> first | rfl | cases hon
  | addTask _ _ hstate hfrom =>
    obtain rfl := Option.some.inj hfold
    exact flows_of_addTask hb.placed hstate hfrom
  | updateTask _ hstate hfrom =>
    refine .of_flush [] hs hfold (by simp) (hdesk _ rfl) (.inl ?_)
    rw [TaskChange.onSnapshot, hstate, hfrom]
    rfl
  | archiveTask =>
    rename_i task
    refine .of_flush [] hs hfold (by simp) (hdesk task rfl) ?_
    rw [onSnapshot_storeSnapshot, TaskSnapshot.archive]
    split
    · exact .inl rfl
    · rename_i hstate
      exact .inr (.archive rfl hstate)
  | restoreTask hrestore =>
    rename_i task snapshot
    refine .of_flush [] hs hfold (by simp) (hdesk task rfl) ?_
    rw [onSnapshot_storeSnapshot]
    rw [TaskSnapshot.restore] at hrestore
    split at hrestore
    · cases hrestore
    · rename_i hstate
      obtain ⟨previous, hprevious, rfl⟩ := Option.map_eq_some_iff.mp hrestore
      exact .inr (.restore rfl (of_not_not hstate) hprevious)
  | manualEdit hstate =>
    rename_i parent task payload v _ _ _ _ _
    refine .of_flush [_] hs hfold (by simp [Write.still]) (hdesk task rfl) (.inr ?_)
    rw [onSnapshot_assign rfl rfl]
    exact .edit rfl hstate
  | finalizeVersion hstate =>
    rename_i version task
    refine .of_flush [_, _] hs hfold (by simp [Write.still]) (hdesk task rfl) (.inr ?_)
    rw [onSnapshot_assign rfl rfl]
    exact .finalize rfl hstate
  | updateAnalysis | updateSuggestion | createLock | deleteLock | clearHistory =>
    exact .of_still hs hfold (by simp [Write.still])
  | submit hstate hsnapshot =>
    rename_i sub snapshot
    have hlocked : s.procs p = .locked m r (.submit sub) := hp.resolve_right fun h => by cases h.2
    have hnew : NewOperation cfg s (.commit p ids) (sub.operation cfg ⟨s.now, ids⟩) :=
      ⟨p, m, r, sub, ids, rfl, hlocked, hids, hstate, rfl⟩
    have hfresh : s.db.operations.Fresh (sub.operation cfg ⟨s.now, ids⟩).id := fun o ho hid =>
      hnew.fresh (hid ▸ hb.drawn o ho)
    refine flows_of_submit ?_ rfl rfl rfl hstate hfresh (hdesk sub.task rfl) hcommit
    rcases hsnapshot with hnone | ⟨a, ds, -, hsome⟩
    · exact .inl hnone
    · exact .inr ⟨a, ds, hsome⟩
  | cancelOperation =>
    rename_i op task reset _ _
    have hopened : s.procs p = .opened m r (.cancelOperation op task) :=
      (hp.resolve_left fun hl => by
        obtain ⟨t, ht⟩ := hb.lockedTask p m r _ hl
        cases ht).1
    exact flows_of_cancel hb ht hc hopened hf (hws ▸ hcommit)

/-! ## Jobs -/

section Jobs

variable {db db' : Db} {o : AiOperation}

/-- The transaction that ends an operation, with the flush of its task. -/
theorem flows_of_ending (hb : s.Base) (hc : s.db.Coupled) (ho : o ∈ s.db.operations)
    (hact : o.isActive = true) {stored : List Write} {task : RewriteTask} {id : Uuid}
    {state : TaskState} {c : OperationChange} {now : ℕ} (hstored : ∀ w ∈ stored, w.still = true)
    (hid : id = o.id) (htid : task.id = o.taskId) (htask : task.state = o.runningTaskState)
    (hend : c.status.isActive = false)
    (hstate : state = settledState o.kind ∨ state = o.initialTaskState)
    (h : s.db.commit (stored ++ [.setTask task.id { state := assign task.state state } now,
      .setOperation id c]) = some db') : s.db.Flows db' := by
  subst hid
  refine Db.Flows.of_end hc hb.consistent.single (hb.valid o ho) ho hact (hb.placed o ho) ?_
    (Db.commit_eq_some.mp h).1 ?_ ?_ hstate
  · intro w hw
    rcases List.mem_append.mp hw with hw | hw
    · exact Write.works_of_still (hstored w hw)
    · rcases List.mem_pair.mp hw with rfl | rfl
      · trivial
      · exact hend
  · intro i d hi hne
    rw [List.foldl_append, onDesk_of_still hstored, List.foldl_cons, List.foldl_cons,
      List.foldl_nil, htid, onDesk_setTask_of_ne hi, onDesk_setOperation_of_ne hne]
  · intro r hr
    rw [List.foldl_append, onDesk_of_still hstored, List.foldl_cons, List.foldl_cons,
      List.foldl_nil, htid, onDesk_setTask_self, onDesk_setOperation_self]
    simp [TaskChange.onSnapshot, htask, ← hr, assign_getD]

/-- The claim of a queued operation, which is in its state already. -/
theorem flows_of_claim (hs : db.Single) {e : Execution} {now : ℕ}
    (hstate : e.task.state = runningState e.op.kind)
    (h : db.commit (claimWrites e now) = some db') : db.Flows db' := by
  have hworks : ∀ w ∈ claimWrites e now, w.Works := by
    intro w hw
    rcases List.mem_pair.mp hw with rfl | rfl <;> trivial
  intro i
  left
  have hflush : ∀ d : Desk, (Write.setTask e.task.id
      { state := assign e.task.state (runningState e.op.kind) } now).onDesk i d = d := by
    intro d
    rw [Write.onDesk]
    split
    · rw [hstate, assign, if_pos rfl]
      rcases d with ⟨row | row, work⟩ <;> rfl
    · rfl
  rw [Db.view, Db.view, Db.desk_of_foldlM hs hworks (Db.commit_eq_some.mp h).1, claimWrites,
    List.foldl_cons, List.foldl_cons, List.foldl_nil, hflush]
  rcases db.desk i with ⟨row, work | w⟩
  · rfl
  · by_cases hw : w.id = e.op.id ∧ w.status = .queued
    · simp [Write.onDesk, hw, Desk.view, OperationChange.status, OperationChange.apply,
        AiOperationStatus.isActive]
    · simp [Write.onDesk, hw]

/-- The clean-up of the outer handler. -/
theorem flows_of_sweep (hb : s.Base) (hc : s.db.Coupled) {opId : Uuid} {op : Option AiOperation}
    {error : OperationError} {now : ℕ} (hknown : ∀ o ∈ op, o.id = opId ∧ s.Knows o)
    (hmissing : op = none → s.db.operations.Fresh opId)
    (hcleanup : ∀ o, op = some o → s.db.isQueued opId = true ∨
      ∀ t ∈ s.db.tasks, t.id = o.taskId → t.state ≠ o.runningTaskState)
    (h : s.db.commit (sweepWrites opId op error now) = some db') : s.db.Flows db' := by
  have hs : s.db.Single := hb.consistent.single
  have hfold := (Db.commit_eq_some.mp h).1
  have hworks : ∀ w ∈ sweepWrites opId op error now, w.Works := by
    intro w hw
    rcases List.mem_append.mp hw with hw | hw
    · split at hw
      · obtain rfl := List.mem_singleton.mp hw
        trivial
      · cases hw
    · obtain rfl := List.mem_singleton.mp hw
      trivial
  -- a desk on which the operation is not queued
  have hother : ∀ i, (∀ w, s.db.activeOperation i = some w → w.id ≠ opId ∨ w.status ≠ .queued) →
      (Write.setQueued opId (.reject error now)).onDesk i (s.db.desk i) = s.db.desk i :=
    fun i hi => onDesk_setQueued_of_ne hi
  cases op with
  | none =>
    refine .of_desk fun i => ?_
    rw [Db.desk_of_foldlM hs hworks hfold]
    refine hother i fun w hw => .inl fun hid => ?_
    exact hmissing rfl w (Db.activeOperation_eq_some hw).1 hid
  | some o =>
    obtain ⟨hid, hknows⟩ := hknown o rfl
    subst hid
    by_cases hqueued : s.db.isQueued o.id = true
    · obtain ⟨o', hfound⟩ := Option.isSome_iff_exists.mp hqueued
      obtain ⟨hm, hsel⟩ := Table.scalar_some hfound
      simp only [Bool.and_eq_true, decide_eq_true_eq] at hsel
      -- what is queued is what the handler has read
      obtain rfl := (hknows.became o' hm hsel.1).queued hsel.2
      have hact : o'.isActive = true := by rw [AiOperation.isActive, hsel.2]; rfl
      refine Db.Flows.of_end hc hs (hb.valid o' hm) hm hact (hb.placed o' hm) hworks hfold ?_ ?_
        (.inr rfl)
      · intro i d hi hne
        rw [sweepWrites, List.singleton_append, List.foldl_cons, List.foldl_cons, List.foldl_nil,
          Write.onDesk, if_neg (Ne.symm hi), onDesk_setQueued_of_ne fun w hw => .inl (hne w hw)]
      · intro r hr
        rw [sweepWrites, List.singleton_append, List.foldl_cons, List.foldl_cons, List.foldl_nil,
          Write.onDesk, if_pos rfl]
        simp only [Option.map_some, hr, if_true]
        exact onDesk_setQueued_self hsel.2 rfl
    · have hstate := (hcleanup o rfl).resolve_left hqueued
      refine .of_desk fun i => ?_
      have hreset : (Write.resetTask o.taskId o.runningTaskState o.initialTaskState now).onDesk i
          (s.db.desk i) = s.db.desk i := by
        rw [Write.onDesk]
        split
        · rename_i hi
          subst hi
          rcases hget : s.db.tasks.get o.taskId with _ | t
          · simp [Db.desk, hget]
          · obtain ⟨htm, hid⟩ := Table.get_eq_some.mp hget
            have hne : t.snapshot.state ≠ o.runningTaskState := hstate t htm hid
            simp [Db.desk, hget, hne]
        · rfl
      rw [Db.desk_of_foldlM hs hworks hfold, sweepWrites, List.singleton_append, List.foldl_cons,
        List.foldl_cons, List.foldl_nil, hreset]
      refine hother i fun w hw => ?_
      obtain ⟨hm, -, -⟩ := Db.activeOperation_eq_some hw
      by_contra hboth
      simp only [not_or, not_not] at hboth
      refine hqueued (Option.isSome_iff_exists.mpr ?_)
      rcases hsome : s.db.operations.scalar
          (fun o' => o'.id = o.id && o'.status = .queued) with _ | o'
      · exact absurd (by simp [hboth.1, hboth.2]) (Table.scalar_none.mp hsome w hm)
      · exact ⟨o', rfl⟩

end Jobs

/-! ## Recoveries -/

section Recoveries

variable {db : Db} {taskId : Uuid} {d : Desk}

/-- A desk while a recovery is written: as stored, or given up. -/
inductive Recovered (start : Desk) : Desk → Prop where
  | before : Recovered start start
  | after {r : TaskSnapshot} {o : AiOperation} (hstart : start = ⟨some r, some o⟩) :
      Recovered start ⟨some { r with state := o.initialTaskState }, none⟩

/-- A selected operation is active on its task, which was loaded in the state the operation
runs in. -/
structure Reclaims (db : Db) (f : AiOperation × Option RewriteTask) (o : AiOperation)
    (t : RewriteTask) : Prop where
  active : db.activeOperation f.1.taskId = some o
  same : f.1.SameRequest o
  loaded : f.2 = some t
  taskId : t.id = f.1.taskId
  state : t.state = f.1.runningTaskState
  row : ∃ r, (db.desk f.1.taskId).row = some r ∧ r.state = t.state

/-- The statements about one selected operation give it up, once. -/
theorem Recovered.step {now : ℕ} {f : AiOperation × Option RewriteTask} {o : AiOperation}
    {t : RewriteTask} (h : Recovered (db.desk taskId) d) (hf : Reclaims db f o t) :
    Recovered (db.desk taskId)
      ((recoverOperation now f).foldl (fun d w => w.onDesk taskId d) d) := by
  rw [recoverOperation, hf.loaded]
  simp only [hf.state, if_true, List.singleton_append, List.foldl_cons, List.foldl_nil, hf.taskId]
  by_cases htask : taskId = f.1.taskId
  · subst htask
    obtain ⟨r, hrow, hstate⟩ := hf.row
    have hdesk : db.desk f.1.taskId = ⟨some r, some o⟩ := by
      rw [← hrow, ← hf.active]
      rfl
    rw [← hf.same.id]
    rcases h with _ | hstart
    · have hself : assign f.1.runningTaskState f.1.initialTaskState =
          assign r.state o.initialTaskState := by
        rw [hf.same.initialTaskState, hstate, hf.state]
      rw [hdesk, onDesk_setTask_self, onDesk_setOperation_self]
      simp only [TaskChange.onSnapshot, hself, assign_getD, Option.getD_none]
      exact .after rfl
    · -- the operation was selected twice
      rename_i r' o'
      rw [hdesk] at hstart
      obtain ⟨hr, ho⟩ := Desk.mk.inj hstart
      obtain rfl := Option.some.inj hr
      obtain rfl := Option.some.inj ho
      have hself : (assign f.1.runningTaskState f.1.initialTaskState).getD o.initialTaskState =
          o.initialTaskState := by
        rw [hf.same.initialTaskState, assign]
        split <;> rfl
      rw [onDesk_setTask_self, onDesk_setOperation_of_ne fun w hw => by cases hw]
      simp only [TaskChange.onSnapshot, hself, Option.getD_none]
      exact .after hdesk
  · rw [onDesk_setTask_of_ne htask, onDesk_setOperation_of_ne]
    · exact h
    · intro w hw hid
      have hactive : db.activeOperation taskId = some w := by
        rcases h with _ | hstart
        · exact hw
        · cases hw
      obtain ⟨hm, hwt, -⟩ := Db.activeOperation_eq_some hactive
      obtain ⟨hm', hot, -⟩ := Db.activeOperation_eq_some hf.active
      have hsame : w = o := Table.eq_of_key hm hm' (hid.trans hf.same.id.symm)
      exact htask (hwt.symm.trans (hsame ▸ hot))

/-- What a recovery makes of a desk, by induction on what it has selected. -/
theorem Recovered.run {now : ℕ} {found : List (AiOperation × Option RewriteTask)} :
    ∀ {d : Desk}, Recovered (db.desk taskId) d → (∀ f ∈ found, ∃ o t, Reclaims db f o t) →
      Recovered (db.desk taskId)
        ((recoverWrites now found).foldl (fun d w => w.onDesk taskId d) d) := by
  induction found with
  | nil => exact fun h _ => h
  | cons f found ih =>
    intro d h hf
    obtain ⟨o, t, hreclaims⟩ := hf f List.mem_cons_self
    rw [recoverWrites, List.flatMap_cons, List.foldl_append]
    exact ih (h.step hreclaims) fun f' hf' => hf f' (List.mem_cons_of_mem _ hf')

end Recoveries

/-- **A recovery gives operations up**, and leaves the other tasks alone. -/
theorem flows_of_recover (hb : s.Base) (hc : s.db.Coupled) {db' : Db} {now : ℕ}
    {found : List (AiOperation × Option RewriteTask)} (hf : ∀ f ∈ found, FoundWf s.Knows f)
    (hr : ∀ f ∈ found, s.Runs f.1.id ∧
      ∃ t ∈ f.2, ∀ t' ∈ s.db.tasks, t'.id = t.id → t'.state = t.state)
    (h : s.db.commit (recoverWrites now found) = some db') : s.db.Flows db' := by
  have hs : s.db.Single := hb.consistent.single
  have hworks : ∀ w ∈ recoverWrites now found, w.Works :=
    forall_recoverWrites (fun _ _ _ _ => trivial) fun _ _ => rfl
  have hreclaims : ∀ f ∈ found, ∃ o t, Reclaims s.db f o t := by
    intro f hmem
    obtain ⟨hknows, -, htask⟩ := hf f hmem
    obtain ⟨⟨o, ho, hid, hrun⟩, t, ht, hcurrent⟩ := hr f hmem
    have hsame := (hknows.became o ho hid).same
    have hact : o.isActive = true := by rw [AiOperation.isActive, hrun]; rfl
    obtain ⟨t', hget⟩ := hb.placed o ho
    obtain ⟨hm, htid⟩ := Table.get_eq_some.mp hget
    have hstate := hc.state hs hm ho htid.symm hact (hb.valid o ho)
    have hloaded : t'.state = t.state :=
      hcurrent t' hm (htid.trans (hsame.taskId.trans (htask t ht).symm))
    refine ⟨o, t, hsame.taskId ▸ hs.activeOperation ho hact, hsame, ht, htask t ht,
      hloaded.symm.trans (hstate.trans hsame.runningTaskState), t'.snapshot, ?_, hloaded⟩
    rw [Db.desk, ← hsame.taskId, hget]
    rfl
  intro i
  have hdesk : db'.desk i = _ := Db.desk_of_foldlM hs hworks (Db.commit_eq_some.mp h).1
  have hrec : Recovered (s.db.desk i) (db'.desk i) := hdesk ▸ Recovered.run .before hreclaims
  rw [Db.view, Db.view]
  generalize db'.desk i = d' at hrec
  rcases hrec with _ | hstart
  · exact .inl rfl
  · right
    rw [hstart]
    exact .giveUp rfl

/-- **The commit of a job is a step of the workflow** on the task of its operation. -/
theorem flows_of_settle (hb : s.Base) (hx : s.Executing) (ht : s.InTune) (hc : s.db.Coupled)
    {p : ℕ} {e : JobEvent} (hn : s.Orderly (.job p e)) {st : Stamp} {opId : Uuid} {phase : JobPhase}
    (hp : s.procs p = .job opId phase) (hprov : phase.Provenance cfg) {ws : List Write} {db : Db}
    (hws : JobWrites s.db st opId phase ws) (h : s.db.commit ws = some db) : s.db.Flows db := by
  have hwf := hb.jobs p opId phase hp
  have htune := ht.jobs p opId phase hp
  -- an operation a job executes is active, and what the job holds of it is right
  have hop : ∀ op : AiOperation, op.id = opId → s.Knows op → s.Runs opId →
      ∃ o ∈ s.db.operations, o.isActive = true ∧ op.id = o.id ∧ op.Became o := by
    rintro op hid hknows ⟨o, ho, hid', hrun⟩
    have hsame : o.id = op.id := hid'.trans hid.symm
    refine ⟨o, ho, ?_, hsame.symm, hknows.became o ho hsame⟩
    rw [AiOperation.isActive, hrun]
    rfl
  cases hws with
  | recover => exact flows_of_recover hb hc hwf.2.2 (hn.recoveries _ (.job hp)) h
  | claim =>
    obtain ⟨⟨-, hknows, -⟩, -⟩ := hwf
    exact flows_of_claim hb.consistent.single (hprov.trans hknows.valid.running) h
  | result hstored =>
    rename_i ex result stored resource
    obtain ⟨⟨hid, hknows, htask⟩, -⟩ := hwf
    have hruns := (hx.running p opId _ hp rfl).resolve_right fun hw => by cases hw.1
    obtain ⟨o, ho, hact, hoid, hbec⟩ := hop _ hid hknows hruns
    refine flows_of_ending hb hc ho hact hstored.still hoid (htask.trans hbec.same.taskId.symm)
      (hprov.1.trans hbec.same.runningTaskState.symm) rfl (.inl ?_) h
    rw [hprov.2.state, Prepared.succeeded_eq, hbec.same.kind]
    exact congrArg settledState htune
  | fail =>
    rename_i ex failure
    obtain ⟨⟨hid, hknows, htask⟩, -⟩ := hwf
    have hruns := (hx.running p opId _ hp rfl).resolve_right fun hw => by cases hw.1
    obtain ⟨o, ho, hact, hoid, hbec⟩ := hop _ hid hknows hruns
    exact flows_of_ending hb hc ho hact (List.forall_mem_nil _) hoid
      (htask.trans hbec.same.taskId.symm) (hprov.trans hbec.same.runningTaskState.symm) rfl
      (.inr hbec.same.initialTaskState.symm) h
  | record hopen =>
    rename_i ex arm op task
    obtain ⟨⟨⟨hid₀, hknows₀, htask₀⟩, -⟩, hloaded, htask⟩ := hwf
    obtain ⟨hid, hknows⟩ := hloaded op rfl
    have hruns := hn.failures p e opId ex arm op task rfl hp hopen
    obtain ⟨o, ho, hact, hoid, hbec⟩ := hop _ hid hknows hruns
    have hbec₀ := hknows₀.became o ho (hoid.symm.trans (hid.trans hid₀.symm))
    refine flows_of_ending hb hc ho hact (List.forall_mem_nil _) hoid
      ((htask task rfl).trans (htask₀.trans hbec₀.same.taskId.symm)) ?_ ?_
      (.inr hbec.same.initialTaskState.symm) h
    · exact (htune op rfl task rfl (hbec.active hact)).trans hbec.same.runningTaskState.symm
    · cases arm <;> rfl
  | sweep =>
    rename_i error op
    refine flows_of_sweep hb hc hwf ?_ ?_ h
    · rintro rfl
      exact hn.missing p e opId error rfl hp
    · rintro o rfl
      exact hn.cleanups p e opId error o rfl hp

end Sys

end DouyinCaption

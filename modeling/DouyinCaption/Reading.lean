import DouyinCaption.Frozen
import DouyinCaption.Preparation

/-!
# What a job has read

The rows a job has read for its operation are the stored ones until the operation ends
(`Fresh`): a job makes its queries one after the other, and between any two of them the
inputs of its task stand still. So what it prepares is what the queries would give on the
rows that were committed with the submission.

This needs that no job stores a result for a task whose active operation is another one
(`OwnResults`). A run in which no result is stored of an operation that has ended (`InTurn`),
and so one in which no operation is declared stale while a job executes it, is such a run.
-/

namespace DouyinCaption

open Tables Runs

/-- The source text and the creative settings of a loaded task are the stored ones. -/
def Db.HasSource (db : Db) (task : RewriteTask) : Prop :=
  ∃ t, db.tasks.get task.id = some t ∧ t.sourceText = task.sourceText ∧
    t.creativeSettings = task.creativeSettings

/-- What a job has read up to its result is what the rows would give it now. -/
def JobPhase.ReadFrom (db : Db) : JobPhase → Prop
  | .began _ task | .recovering _ task .. => db.HasSource task
  | .reading op task todo reads => db.HasSource task ∧
      ∃ made, made ++ todo = op.requestPayload.queries ∧
        made.foldlM (fun r q => q.run db task.id op.requestPayload r) {} = .ok reads
  | .ready op task prepared => db.HasSource task ∧
      prepare db task.id op.requestPayload = .ok prepared
  | .leased e | .checked e | .locked e | .admitted e _ | .claimed e _ | .calling e _
  | .returned e _ => db.HasSource e.task ∧
      prepare db e.task.id e.op.requestPayload = .ok e.prepared
  | _ => True

/-- The task a job works on, as far as it has loaded it. -/
def JobPhase.taskId : JobPhase → Option Uuid
  | .began _ task | .recovering _ task .. | .reading _ task .. | .ready _ task _ => some task.id
  | .leased e | .checked e | .locked e | .admitted e _ | .claimed e _ | .calling e _
  | .returned e _ => some e.task.id
  | _ => none

/-- A task keeps its source while its inputs stand still. -/
theorem Db.HasSource.of_inputs {db db' : Db} {task : RewriteTask} (h : db.HasSource task)
    (hi : db'.inputs task.id = db.inputs task.id) : db'.HasSource task := by
  obtain ⟨t, ht, hsource, hsettings⟩ := h
  have hnow : (db.inputs task.id).isSome := by simp [Db.inputs, ht]
  rw [← hi, Db.inputs, Option.isSome_map] at hnow
  obtain ⟨t', ht'⟩ := Option.isSome_iff_exists.mp hnow
  rw [Db.inputs, Db.inputs, ht, ht'] at hi
  have hsame := Option.some.inj hi
  refine ⟨t', ht', ?_, ?_⟩
  · exact (Inputs.mk.inj hsame).1.trans hsource
  · exact (Inputs.mk.inj hsame).2.1.trans hsettings

theorem Db.HasSource.inputs {db : Db} {task : RewriteTask} (h : db.HasSource task) :
    ∃ i, db.inputs task.id = some i := by
  obtain ⟨t, ht, -⟩ := h
  exact ⟨_, by rw [Db.inputs, ht]; rfl⟩

/-- What a job has read depends on nothing but the inputs of its task. -/
theorem JobPhase.ReadFrom.of_inputs {db db' : Db} {phase : JobPhase} (h : phase.ReadFrom db)
    (hi : ∀ t ∈ phase.taskId, db'.inputs t = db.inputs t) : phase.ReadFrom db' := by
  have hprepare : ∀ {task : RewriteTask} {p : Payload}, db.HasSource task →
      db'.inputs task.id = db.inputs task.id →
      prepare db' task.id p = prepare db task.id p := by
    intro task p hs he
    obtain ⟨i, hi⟩ := hs.inputs
    exact prepare_congr (he.trans hi) hi p
  cases phase with
  | began op task | recovering op task todo found => exact Db.HasSource.of_inputs h (hi _ rfl)
  | reading op task todo reads =>
    obtain ⟨hs, made, hmade, hrun⟩ := h
    have he := hi _ rfl
    obtain ⟨i, hi⟩ := hs.inputs
    refine ⟨hs.of_inputs he, made, hmade, ?_⟩
    rw [foldlM_run_congr (he.trans hi) hi]
    exact hrun
  | ready op task prepared =>
    exact ⟨h.1.of_inputs (hi _ rfl), (hprepare h.1 (hi _ rfl)).trans h.2⟩
  | leased e | checked e | locked e | admitted e model | claimed e model | calling e call
  | returned e result =>
    exact ⟨h.1.of_inputs (hi _ rfl), (hprepare h.1 (hi _ rfl)).trans h.2⟩
  | _ => trivial

/-- A job that holds no task has read nothing yet. -/
theorem JobPhase.ReadFrom.of_none {db : Db} {phase : JobPhase} (h : phase.taskId = none) :
    phase.ReadFrom db := by
  cases phase with
  | began | recovering | reading | ready | leased | checked | locked | admitted | claimed
  | calling | returned => cases h
  | _ => trivial

/-- The queries made one after the other are the preparation. -/
theorem prepare_of_reads {db : Db} {taskId : Uuid} {p : Payload} {reads : Reads}
    {prepared : Prepared}
    (h : p.queries.foldlM (fun r q => q.run db taskId p r) {} = .ok reads)
    (ha : assemble p reads = .ok prepared) : prepare db taskId p = .ok prepared := by
  have hall : readAll db taskId p = .ok reads := h
  rw [prepare, hall]
  exact ha

/-- The step is one of a request. -/
def Action.isRequest : Action → Bool
  | .request .. | .lock _ | .commit .. | .relookup _ | .abort _ => true
  | _ => false

namespace Sys

variable {cfg : Config} {s s' : Sys} {a : Action}

/-! ## The assumption -/

/-- The step stores no result for a task whose active operation is another one. -/
def OwnResults (s : Sys) (a : Action) : Prop :=
  ∀ p ∈ a.proc, ∀ opId e result, s.procs p = .job opId (.returned e result) →
    ∀ o ∈ s.db.operations, o.isActive = true → o.taskId = e.task.id → o.id = opId

/-- The step stores no result of an operation that has ended. -/
def InTurn (s : Sys) (a : Action) : Prop :=
  ∀ p ∈ a.proc, ∀ opId e result, s.procs p = .job opId (.returned e result) → s.Runs opId

/-- A job whose operation runs is alone with the active operation of its task. -/
theorem ownResults_of_inTurn (hb : s.Base) (ht : s.InTurn a) : s.OwnResults a := by
  intro p ha opId e result hp o ho hact htask
  have hwf := hb.jobs p opId _ hp
  obtain ⟨o₁, ho₁, rfl, hr⟩ := ht p ha opId e result hp
  have hact₁ : o₁.isActive = true := by
    rw [AiOperation.isActive, hr]
    rfl
  have htask₁ := (hwf.1.2.1.became o₁ ho₁ hwf.1.1.symm).same.taskId
  rw [hb.consistent.active_unique ho ho₁ hact hact₁
    (htask.trans (hwf.1.2.2.trans htask₁.symm))]

/-- A job that executes its operation stores its result in turn. -/
theorem inTurn_of_noStale (hx : s.Executing) (a : Action) : s.InTurn a :=
  fun p _ opId _ _ hp => (hx.running p opId _ hp rfl).resolve_right fun h => nomatch h.1

/-- While an operation stays active a step leaves the inputs of its task alone. -/
theorem Sheltered.inputs_of_own (hs : s.Sheltered cfg) (hown : s.OwnResults a)
    (h : Move cfg s a s') {o o' : AiOperation} (ho : o ∈ s.db.operations)
    (ho' : o' ∈ s'.db.operations) (hid : o'.id = o.id) (hact : o'.isActive = true) :
    s'.db.inputs o.taskId = s.db.inputs o.taskId := by
  have hact₀ : o.isActive = true := by
    rcases (opsEvolve_of_move h).origin o' ho' with ⟨o₁, ho₁, hbec⟩ | hnew
    · rw [Table.eq_of_key ho ho₁ (hid.symm.trans hbec.same.id)]
      exact hbec.active hact
    · exact absurd (hid ▸ hs.base.drawn o ho) hnew.fresh
  refine (hs.inputs_of_move h ho hact₀).resolve_right ?_
  rintro ⟨p, opId, e, result, ha, hp, htask, hdone⟩
  -- the result stored is that of the operation, and ends it
  have hmine := hown p ha opId e result hp o ho hact₀ htask.symm
  rw [AiOperation.isActive, hdone o' ho' (hid.trans hmine)] at hact
  cases hact

/-! ## The steps of a job -/

/-- A step of a job reads what is stored. -/
theorem readFrom_of_step {opId : Uuid} {phase phase' : JobPhase}
    (hk : ∀ o, s.Knows o → ∀ o' ∈ s.db.operations, o'.id = o.id → o.SameRequest o')
    (hwf : phase.Wf opId s.Knows) (h : JobStep cfg s opId phase phase')
    (hr : phase.ReadFrom s.db) : phase'.ReadFrom s.db := by
  have hfrom := from_of_step h
  cases phase' with
  | began op task =>
    obtain ⟨rfl, -, -, ht, -⟩ := hfrom
    have hid : task.id = op.taskId := (Table.get_eq_some.mp ht).2
    exact ⟨task, hid ▸ ht, rfl, rfl⟩
  | recovering op task todo found =>
    rcases hfrom with ⟨rfl, -⟩ | ⟨o, found₀, rfl, -⟩ <;> exact hr
  | reading op task todo reads =>
    rcases hfrom with ⟨found, rfl, rfl, rfl⟩ | ⟨q, reads₀, rfl, hq⟩
    · exact ⟨hr, [], rfl, rfl⟩
    · obtain ⟨hs, made, hmade, hrun⟩ := hr
      refine ⟨hs, made ++ [q], by rw [List.append_assoc]; exact hmade, ?_⟩
      rw [List.foldlM_append]
      exact bind_eq_ok.mpr ⟨reads₀, hrun, bind_eq_ok.mpr ⟨reads, hq, rfl⟩⟩
  | ready op task prepared =>
    obtain ⟨reads, rfl, ha⟩ := hfrom
    obtain ⟨hs, made, hmade, hrun⟩ := hr
    rw [List.append_nil] at hmade
    subst hmade
    exact ⟨hs, prepare_of_reads hrun ha⟩
  | leased e =>
    obtain ⟨rfl, -⟩ := hfrom
    exact hr
  | checked e =>
    obtain ⟨op₀, rfl, hget, -⟩ := hfrom
    obtain ⟨hm, hid⟩ := Table.get_eq_some.mp hget
    refine ⟨hr.1, ?_⟩
    rw [(hk op₀ hwf.1.2.1 e.op hm hid).requestPayload]
    exact hr.2
  | locked e =>
    obtain ⟨task₀, rfl, hget⟩ := hfrom
    have hid : e.task.id = task₀.id := (Table.get_eq_some.mp hget).2
    exact ⟨⟨e.task, hid ▸ hget, rfl, rfl⟩, hid ▸ hr.2⟩
  | admitted e model =>
    obtain ⟨rfl, -⟩ := hfrom
    exact hr
  | claimed e model =>
    obtain ⟨rfl, -⟩ := hfrom
    exact hr
  | calling e call =>
    obtain ⟨model, rfl, -⟩ := hfrom
    exact hr
  | returned e result =>
    obtain ⟨call, response, rfl, -⟩ := hfrom
    exact hr
  | _ => trivial

/-- The task a job works on is the task of its operation. -/
theorem taskId_of_wf {opId : Uuid} {phase : JobPhase} {t : Uuid} (hwf : phase.Wf opId s.Knows)
    (ht : phase.taskId = some t) : ∃ op, s.Knows op ∧ op.id = opId ∧ t = op.taskId := by
  cases phase with
  | began op task | reading op task | ready op task =>
    obtain rfl := Option.some.inj ht
    exact ⟨op, hwf.2.1, hwf.1, hwf.2.2⟩
  | recovering op task =>
    obtain rfl := Option.some.inj ht
    exact ⟨op, hwf.1.2.1, hwf.1.1, hwf.1.2.2⟩
  | leased e | checked e | locked e | admitted e | claimed e | calling e | returned e =>
    obtain rfl := Option.some.inj ht
    exact ⟨e.op, hwf.1.2.1, hwf.1.1, hwf.1.2.2⟩
  | _ => cases ht

/-! ## The invariant -/

/-- While an operation is active, what a job has read for it is what is stored. -/
def Fresh (s : Sys) (opId : Uuid) : Prop :=
  ∀ p phase, s.procs p = .job opId phase →
    ∀ o ∈ s.db.operations, o.id = opId → o.isActive = true → phase.ReadFrom s.db

/-- Nothing has been read for an operation that is not there yet. -/
theorem Base.fresh_of_new (hb : s.Base) {opId : Uuid} (h : opId ∉ s.used) :
    ∀ p phase, s.procs p = .job opId phase → phase.taskId = none := by
  intro p phase hp
  rcases ht : phase.taskId with _ | t
  · rfl
  · obtain ⟨op, hk, rfl, -⟩ := taskId_of_wf (hb.jobs p opId phase hp) ht
    exact absurd hk.drawn h

/-- The step lemma: a query reads the inputs of its task, and no step in between changes them. -/
theorem Fresh.move {opId : Uuid} (hf : s.Fresh opId) (hs : s.Sheltered cfg)
    (hown : s.OwnResults a) (h : Move cfg s a s') : s'.Fresh opId := by
  intro q phase hq o' ho' hid hact
  -- what was stored before the step is stored after it
  have hkept : ∀ {o : AiOperation}, o ∈ s.db.operations → o.Became o' → phase.ReadFrom s.db →
      phase.ReadFrom s'.db := by
    intro o ho hbec hr
    refine hr.of_inputs fun t ht => ?_
    obtain ⟨op, hk, hop, rfl⟩ := taskId_of_wf ((hs.base.move h).jobs q opId phase hq) ht
    have htask : o.taskId = op.taskId := hbec.same.taskId.symm.trans
      (hk.became o' ho' (hid.trans hop.symm)).same.taskId
    rw [← htask]
    exact hs.inputs_of_own hown h ho ho' hbec.same.id hact
  rcases job_of_move h hq with ⟨hp, -⟩ | ⟨rfl, -⟩ | ⟨e, phase₀, rfl, hp, hstep⟩
  · rcases (opsEvolve_of_move h).origin o' ho' with ⟨o, ho, hbec⟩ | hnew
    · exact hkept ho hbec (hf q phase hp o ho (hbec.same.id.symm.trans hid) (hbec.active hact))
    · exact .of_none (hs.base.fresh_of_new (hid ▸ hnew.fresh) q phase hp)
  · trivial
  · rcases (opsEvolve_of_move h).origin o' ho' with ⟨o, ho, hbec⟩ | ⟨_, _, _, _, _, ha, -⟩
    · refine hkept ho hbec ?_
      refine readFrom_of_step (fun o hk o' ho' he => (hk.became o' ho' he).same)
        (hs.base.jobs q opId phase₀ hp) hstep ?_
      exact hf q phase₀ hp o ho (hbec.same.id.symm.trans hid) (hbec.active hact)
    · cases ha

/-- **What a job has read is what is stored**, while its operation is active, in every run in
which no result of another operation is stored for its task. -/
theorem fresh {P : Sys → Action → Prop}
    (hP : ∀ s a, Reach (system cfg) P s → P s a → s.OwnResults a)
    (hs : Reach (system cfg) P s) (opId : Uuid) : s.Fresh opId := by
  refine hs.invariant (I := fun s => s.Fresh opId) (fun s hi p phase hp => ?_)
    fun s a s' hr hf hp h => hf.move (sheltered hr) (hP s a hr hp) (move_of_step h)
  rw [hi.procs] at hp
  cases hp

/-- What holds of a result that is about to be stored. -/
structure Due (s : Sys) (opId : Uuid) (e : Execution) (result : ServiceResult) : Prop where
  /-- its operation is running -/
  running : s.Runs opId
  /-- the rows in memory are those of the operation and its task -/
  knows : s.Knows e.op
  id : e.op.id = opId
  task : e.task.id = e.op.taskId
  /-- the inputs are the stored ones -/
  source : s.db.HasSource e.task
  prepared : e.prepared.From s.db e.task.id e.op.requestPayload
  /-- and it fits them -/
  fits : result.Fits e.prepared

/-- **A result is stored for the rows it was made from**, in every run in which no result is
stored of an operation that has ended. -/
theorem due_of_runs {P : Sys → Action → Prop} (hP : ∀ s a, Reach (system cfg) P s → P s a →
      s.InTurn a) (hs : Reach (system cfg) P s) {p : ℕ} {opId : Uuid} {e : Execution}
    {result : ServiceResult} (hp : s.procs p = .job opId (.returned e result))
    (hrun : s.Runs opId) : s.Due opId e result := by
  have hwf := (base hs).jobs p opId _ hp
  have hfresh : s.Fresh opId :=
    fresh (fun s a hr ha => ownResults_of_inTurn (base hr) (hP s a hr ha)) hs opId
  obtain ⟨o, ho, hid, hr⟩ := hrun
  have hact : o.isActive = true := by
    rw [AiOperation.isActive, hr]
    rfl
  obtain ⟨hsource, hprepare⟩ := hfresh p _ hp o ho hid hact
  exact ⟨⟨o, ho, hid, hr⟩, hwf.1.2.1, hwf.1.1, hwf.1.2.2, hsource, from_of_prepare hprepare,
    (provenance hs p opId _ hp).2⟩

/-- No operation is declared stale while a job executes it: so a result that is to be stored
is due. -/
theorem due {P : Sys → Action → Prop} (hP : ∀ s a, P s a → s.NoStale a)
    (hs : Reach (system cfg) P s) {p : ℕ} {opId : Uuid} {e : Execution} {result : ServiceResult}
    (hp : s.procs p = .job opId (.returned e result)) : s.Due opId e result :=
  due_of_runs (fun _ a hr _ => inTurn_of_noStale (executing hP hr) a) hs hp
    (((executing hP hs).running p opId _ hp rfl).resolve_right fun h => nomatch h.1)

/-- A run in which no operation is declared stale while a job executes it stores results in
turn. -/
theorem reach_inTurn (hs : Reach (system cfg) NoStale s) : Reach (system cfg) InTurn s := by
  induction hs with
  | init h => exact .init h
  | step hr hp ha ih =>
    exact .step ih (inTurn_of_noStale (executing (fun _ _ h => h) hr) _) ha

/-- Where no operation is declared stale while a job executes it, results are stored in turn. -/
theorem steps_inTurn (hs : Reach (system cfg) NoStale s) (h : Steps (system cfg) NoStale s s') :
    Steps (system cfg) InTurn s s' := by
  induction h with
  | refl => exact .refl
  | tail h' hp ha ih =>
    exact .tail ih (inTurn_of_noStale (executing (fun _ _ h => h) (hs.append h')) _) ha

/-! ## From the submission to the end -/

/-- A step of a request leaves the inputs of a task alone whose operation is active. -/
theorem Sheltered.inputs_of_isRequest (hs : s.Sheltered cfg) (h : Move cfg s a s')
    (ha : a.isRequest = true) {o : AiOperation} (ho : o ∈ s.db.operations)
    (hact : o.isActive = true) : s'.db.inputs o.taskId = s.db.inputs o.taskId := by
  cases h with
  | commit hp hids hf hw hc => exact hs.inputs_of_commit hp hf hc ho hact
  | arrive | busy | lock | reject | refuse | relookup | abort => rfl
  | _ => cases ha

/-- What holds from the submission of an operation on: what it had to read then is stored
while it is active, and what a job has read for it is what is stored. -/
structure Keeps (cfg : Config) (s₀ : Sys) (o : AiOperation) (s : Sys) : Prop where
  sheltered : s.Sheltered cfg
  knows : s.Knows o
  fresh : s.Fresh o.id
  inputs : ∀ o' ∈ s.db.operations, o'.id = o.id → o'.isActive = true →
    s.db.inputs o.taskId = s₀.db.inputs o.taskId

/-- The step lemma. -/
theorem Keeps.move {s₀ : Sys} {o : AiOperation} (hk : Keeps cfg s₀ o s) (hown : s.OwnResults a)
    (h : Move cfg s a s') (hs' : s'.Sheltered cfg) : Keeps cfg s₀ o s' where
  sheltered := hs'
  knows := hk.knows.move h
  fresh := hk.fresh.move hk.sheltered hown h
  inputs := by
    intro o'' ho'' hid hact
    rcases (opsEvolve_of_move h).origin o'' ho'' with ⟨o', ho', hbec⟩ | hnew
    · have hid' : o'.id = o.id := hbec.same.id.symm.trans hid
      have hstep := hk.sheltered.inputs_of_own hown h ho' ho'' hbec.same.id hact
      rw [(hk.knows.became o' ho' hid').same.taskId] at hstep
      exact hstep.trans (hk.inputs o' ho' hid' (hbec.active hact))
    · exact absurd (hid ▸ hk.knows.drawn) hnew.fresh

/-- The invariant from the step that adds the operation. -/
theorem keeps_of_submitted {s₁ : Sys} (hs : Reachable cfg s)
    (hsub : (system cfg).step s a = some s₁) {o : AiOperation} (hnew : NewOperation cfg s a o)
    (ho : o ∈ s₁.db.operations) (h : Steps (system cfg) OwnResults s₁ s') :
    Keeps cfg s₁ o s' := by
  have hs₁ : Reachable cfg s₁ := .step hs trivial hsub
  have hstart : Keeps cfg s₁ o s₁ := by
    refine ⟨Sys.sheltered hs₁, (base hs₁).knows o ho, fun p phase hp _ _ _ _ => ?_,
      fun _ _ _ _ => rfl⟩
    have hmove := move_of_step hsub
    -- the step is taken by a request, so the jobs stay as they were
    rcases job_of_move hmove hp with ⟨hp₀, -⟩ | ⟨rfl, -⟩ | ⟨e, phase₀, rfl, -, -⟩
    · exact .of_none ((base hs).fresh_of_new hnew.fresh p phase hp₀)
    · trivial
    · obtain ⟨_, _, _, _, _, ha, -⟩ := hnew
      cases ha
  have hrun : Reachable cfg s' ∧ Keeps cfg s₁ o s' := by
    refine h.invariant (I := fun s => Reachable cfg s ∧ Keeps cfg s₁ o s) ⟨hs₁, hstart⟩ ?_
    rintro t b t' ⟨hr, hk⟩ hown hstep
    have hr' : Reachable cfg t' := .step hr trivial hstep
    exact ⟨hr', hk.move hown (move_of_step hstep) (Sys.sheltered hr')⟩
  exact hrun.2

/-- **Inputs of accepted work are frozen.** In every reachable state no step of a request
changes the inputs of a task whose operation is active. And from the commit that adds an
operation on, for as long as it is active and no result of another operation is stored for
its task, its inputs are those committed with it: a job has read and prepared what reading
all of them at that commit would have given. -/
theorem inputs_frozen (hs : Reachable cfg s) :
    (∀ a s', a.isRequest = true → (system cfg).step s a = some s' →
      ∀ o ∈ s.db.operations, o.isActive = true →
        s'.db.inputs o.taskId = s.db.inputs o.taskId) ∧
    ∀ a s₁ s' o, (system cfg).step s a = some s₁ → o ∈ s₁.db.operations →
      o ∉ s.db.operations → o.status = .queued → Steps (system cfg) OwnResults s₁ s' →
      ∀ o' ∈ s'.db.operations, o'.id = o.id → o'.isActive = true →
        s'.db.inputs o.taskId = s₁.db.inputs o.taskId ∧
          ∀ p phase, s'.procs p = .job o.id phase → phase.ReadFrom s₁.db := by
  constructor
  · intro a s' ha hstep o ho hact
    exact (sheltered hs).inputs_of_isRequest (move_of_step hstep) ha ho hact
  · intro a s₁ s' o hsub ho hnot hq hsteps o' ho' hid hact
    have hnew : NewOperation cfg s a o := by
      rcases (opsEvolve_of_move (move_of_step hsub)).origin o ho with ⟨o₀, ho₀, hbec⟩ | hnew
      · obtain rfl := hbec.queued hq
        exact absurd ho₀ hnot
      · exact hnew
    have hk := keeps_of_submitted hs hsub hnew ho hsteps
    have hinputs := hk.inputs o' ho' hid hact
    refine ⟨hinputs, fun p phase hp => ?_⟩
    refine (hk.fresh p phase hp o' ho' hid hact).of_inputs fun t ht => ?_
    obtain ⟨op, hkop, hop, rfl⟩ := taskId_of_wf (hk.sheltered.base.jobs p o.id phase hp) ht
    have htask : op.taskId = o.taskId :=
      (hkop.became o' ho' (hid.trans hop.symm)).same.taskId.symm.trans
        (hk.knows.became o' ho' hid).same.taskId
    rw [htask]
    exact hinputs.symm

namespace Sample

/-- The steps of a job up to its inputs. -/
def reads : List Action :=
  [.execute 2 20, .job 2 (.go (ids 3)), .job 2 (.go (ids 3)), .job 2 (.go (ids 3)),
    .job 2 (.go (ids 3)), .job 2 (.go (ids 3))]

/-- The step is not that of a job with a result. -/
def storesNone (s : Sys) (a : Action) : Bool :=
  a.proc.all fun p => match s.procs p with
    | .job _ (.returned ..) => false
    | _ => true

/-- A step that stores no result meets the condition. -/
theorem ownResults_of_storesNone (s : Sys) (a : Action) (h : storesNone s a = true) :
    s.OwnResults a := by
  intro p ha opId e result hp
  rw [storesNone, Option.all_eq_true] at h
  have hnone := h p ha
  rw [hp] at hnone
  cases hnone

/-- The inputs the job of operation 20 has prepared. -/
def prepared : Proc → Option (AiOperation × RewriteTask × Prepared)
  | .job opId (.ready op task prep) => if opId = 20 then some (op, task, prep) else none
  | _ => none

theorem ready_of_prepared {x : Proc} (h : (prepared x).isSome = true) :
    ∃ op task prep, x = .job 20 (.ready op task prep) := by
  unfold prepared at h
  split at h
  · split at h
    · rename_i hid
      subst hid
      exact ⟨_, _, _, rfl⟩
    · cases h
  · cases h

set_option maxRecDepth 8000 in
/-- A submission commits and its job makes its queries. -/
theorem run_reads : (((system Sample.cfg).run start (submitted.take 4)).bind fun s =>
    ((system Sample.cfg).step s (.commit 1 (ids 2))).bind fun s₁ =>
      ((system Sample.cfg).runIf storesNone s₁ reads).map fun s' =>
        (s.db.operations.get 20).isNone &&
          (s₁.db.operations.get 20).any (fun o => o.status = .queued && o.taskId = 10) &&
          (s'.db.operations.get 20).any (fun o => o.isActive) &&
          (prepared (s'.procs 2)).isSome) = some true := by
  decide

end Sample

/-- What the job prepares is what the committed rows give. -/
theorem inputs_frozen_prepared : ∃ s₁ s' : Sys, ∃ op task prep,
    s'.procs 2 = .job 20 (.ready op task prep) ∧
      prepare s₁.db task.id op.requestPayload = .ok prep ∧
        s'.db.inputs 10 = s₁.db.inputs 10 := by
  obtain ⟨s, hrun, h⟩ := Option.bind_eq_some_iff.mp Sample.run_reads
  obtain ⟨s₁, hsub, h⟩ := Option.bind_eq_some_iff.mp h
  obtain ⟨s', hrest, hcheck⟩ := Option.map_eq_some_iff.mp h
  simp only [Bool.and_eq_true, Option.isNone_iff_eq_none] at hcheck
  obtain ⟨⟨⟨hnot, hq⟩, hact⟩, hp⟩ := hcheck
  have hs : Reachable Sample.cfg s :=
    reach_of_run (.init Sample.initial_start) (fun _ _ _ => trivial) hrun
  obtain ⟨o, ho, hq⟩ := (Option.any_eq_true _ _).mp hq
  obtain ⟨o', ho', hact⟩ := (Option.any_eq_true _ _).mp hact
  simp only [Bool.and_eq_true, decide_eq_true_eq] at hq
  obtain ⟨op, task, prep, hp⟩ := Sample.ready_of_prepared hp
  obtain ⟨hm, hid⟩ := Table.get_eq_some.mp ho
  obtain ⟨hm', hid'⟩ := Table.get_eq_some.mp ho'
  have hid : o.id = 20 := hid
  obtain ⟨-, hfrozen⟩ := inputs_frozen hs
  obtain ⟨hinputs, hread⟩ := hfrozen (.commit 1 (Sample.ids 2)) s₁ s' o hsub hm
    (fun hin => Table.get_eq_none.mp hnot o hin hid) hq.1
    (steps_of_runIf Sample.ownResults_of_storesNone hrest) o' hm' (hid'.trans hid.symm) hact
  rw [hq.2] at hinputs
  rw [hid] at hread
  exact ⟨s₁, s', op, task, prep, hp, (hread 2 _ hp).2, hinputs⟩

end Sys

end DouyinCaption

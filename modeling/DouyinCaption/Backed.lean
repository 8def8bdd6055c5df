import DouyinCaption.Analyses
import DouyinCaption.TaskStates

/-!
# What stands behind the states

A task that is past its draft has what the state promises: an analysis, and a first draft where
there is something to edit (`states_backed`). The rows behind a state are never removed, so this
is also true of a state a task was archived in, and of one that an operation will put it back
into.
-/

namespace DouyinCaption

open Tables Runs

/-- The task has an analysis. -/
def Db.Analysed (db : Db) (taskId : Uuid) : Prop := ∃ r ∈ db.analyses, r.taskId = taskId

/-- The task has a first draft. -/
def Db.Drafted (db : Db) (taskId : Uuid) : Prop :=
  ∃ v ∈ db.versions, v.taskId = taskId ∧ v.kind = .firstDraft

/-- What a state promises of the rows of its task. -/
def Db.Backs (db : Db) (taskId : Uuid) : TaskState → Prop
  | .analysisReady | .suggestionsReady => db.Analysed taskId
  | .editing | .finalized => db.Analysed taskId ∧ db.Drafted taskId
  | _ => True

/-- A task is analysed where it has a number. -/
theorem Db.analysed_iff {db : Db} {t : Uuid} : db.Analysed t ↔ db.ledger t ≠ [] := by
  rw [Db.ledger, Ne, List.map_eq_nil_iff, Table.select, List.filter_eq_nil_iff]
  simp [Db.Analysed, Table.mem_def]

/-! ## Where operations begin -/

/-- The state a task is in while the operation works on it. -/
def Prepared.running : Prepared → TaskState
  | .analysis _ => .analyzing
  | .suggestions .. => .suggesting
  | .firstDraft .. => .generating
  | .revision .. => .revising

/-- The plan of an operation asserts that its first transition is allowed. -/
theorem initial_of_statePlan {initial running succeeded : TaskState} {plan : StatePlan}
    (h : statePlan initial running succeeded = .ok plan) :
    assertTransition initial running = .ok () := by
  rw [statePlan] at h
  split at h
  · rename_i hinitial _
    exact hinitial
  · cases h

/-- So does the plan of a revision. -/
theorem initial_of_revisionPlan {task : TaskAiSnapshot} {plan : StatePlan}
    (h : revisionPlan task = .ok plan) : assertTransition task.state .revising = .ok () := by
  rw [revisionPlan] at h
  split at h
  · exact initial_of_statePlan h
  · cases h

/-- The snapshot carries the state the operation came from. -/
theorem state_of_taskSnapshot {task : RewriteTask} {hasFirstDraft : Bool} {state : TaskState}
    {snapshot : TaskAiSnapshot} (h : taskSnapshot task hasFirstDraft state = .ok snapshot) :
    snapshot.state = state := by
  rw [taskSnapshot] at h
  split at h
  · cases h
  · obtain rfl := Except.ok.inj h
    rfl

/-- **A call is made only for an operation that its task's state allows.** -/
theorem initial_of_invoke {cfg : Config} {task : RewriteTask} {initial : TaskState} {model : Text}
    {prepared : Prepared} {call : ModelCall}
    (h : invoke cfg task initial model prepared = .ok call) :
    assertTransition initial prepared.running = .ok () := by
  cases prepared with
  | analysis hasFirstDraft =>
    obtain ⟨snapshot, hs, h⟩ := bind_eq_ok.mp h
    obtain ⟨plan, hplan, -⟩ := bind_eq_ok.mp h
    exact state_of_taskSnapshot hs ▸ initial_of_statePlan hplan
  | suggestions payload analysis hasFirstDraft previous fixed =>
    obtain ⟨snapshot, hs, h⟩ := bind_eq_ok.mp h
    obtain ⟨_, -, h⟩ := bind_eq_ok.mp h
    obtain ⟨_, -, h⟩ := bind_eq_ok.mp h
    obtain ⟨plan, hplan, -⟩ := bind_eq_ok.mp h
    exact state_of_taskSnapshot hs ▸ initial_of_statePlan hplan
  | firstDraft payload analysis selected hasFirstDraft =>
    obtain ⟨snapshot, hs, h⟩ := bind_eq_ok.mp h
    obtain ⟨_, -, h⟩ := bind_eq_ok.mp h
    obtain ⟨plan, hplan, -⟩ := bind_eq_ok.mp h
    exact state_of_taskSnapshot hs ▸ initial_of_statePlan hplan
  | revision payload parent locks hasFirstDraft basis =>
    obtain ⟨snapshot, hs, h⟩ := bind_eq_ok.mp h
    have hplan : ∃ plan, revisionPlan snapshot = .ok plan := by
      dsimp only at h
      split at h
      · obtain ⟨plan, hplan, -⟩ := bind_eq_ok.mp h
        exact ⟨plan, hplan⟩
      · cases h
      · obtain ⟨plan, hplan, -⟩ := bind_eq_ok.mp h
        exact ⟨plan, hplan⟩
      · obtain ⟨plan, hplan, -⟩ := bind_eq_ok.mp h
        exact ⟨plan, hplan⟩
    obtain ⟨plan, hplan⟩ := hplan
    exact state_of_taskSnapshot hs ▸ initial_of_revisionPlan hplan

/-- What stands behind the state an operation begins in stands behind the one it leaves, once
what it makes is there. -/
theorem Db.Backs.succeeded {db : Db} {t : Uuid} {initial : TaskState} {prepared : Prepared}
    (hb : db.Backs t initial) (hi : assertTransition initial prepared.running = .ok ())
    (ha : ∀ d, prepared = .analysis d → db.Analysed t)
    (hd : ∀ payload r ss d, prepared = .firstDraft payload r ss d → db.Drafted t) :
    db.Backs t prepared.succeeded := by
  cases prepared with
  | analysis d => exact ha d rfl
  | suggestions =>
    cases initial with
    | analysisReady | suggestionsReady => exact hb
    | _ => cases hi
  | firstDraft payload r ss d =>
    cases initial with
    | suggestionsReady => exact ⟨hb, hd payload r ss d rfl⟩
    | _ => cases hi
  | revision =>
    cases initial with
    | editing | finalized => exact hb
    | _ => cases hi

/-- What stands behind the state an operation begins in is what its version is made from. -/
theorem Db.Backs.version {db : Db} {t : Uuid} {initial : TaskState} {prepared : Prepared}
    {made : VersionResult} (hb : db.Backs t initial)
    (hi : assertTransition initial prepared.running = .ok ()) (hmakes : prepared.Makes made)
    (hd : made.kind = .firstDraft → db.Drafted t) : db.Analysed t ∧ db.Drafted t := by
  cases prepared with
  | firstDraft =>
    cases initial with
    | suggestionsReady => exact ⟨hb, hd hmakes.2.1⟩
    | _ => cases hi
  | revision =>
    cases initial with
    | editing | finalized => exact hb
    | _ => cases hi
  | analysis | suggestions => exact hmakes.elim

/-- The operation of a job that has called the provider began in a state that allows it. -/
def JobPhase.Began : JobPhase → Prop
  | .calling e _ | .returned e _ =>
      assertTransition e.op.initialTaskState e.prepared.running = .ok ()
  | _ => True

namespace Sys

variable {cfg : Config} {s s' : Sys} {a : Action}

/-- The step lemma: only the call of the model asserts anything, and a job keeps what has been
asserted. -/
theorem began_of_step {opId : Uuid} {phase phase' : JobPhase}
    (h : JobStep cfg s opId phase phase') (hb : phase.Began) : phase'.Began := by
  have hfrom := from_of_step h
  cases phase' with
  | calling e call =>
    obtain ⟨model, -, hcall⟩ := hfrom
    exact initial_of_invoke hcall
  | returned e result =>
    obtain ⟨call, response, rfl, -⟩ := hfrom
    exact hb
  | _ => trivial

/-- The run lemma. -/
theorem began {P : Sys → Action → Prop} (hs : Reach (system cfg) P s) :
    ∀ p opId phase, s.procs p = .job opId phase → phase.Began := by
  refine hs.invariant (I := fun s => ∀ p opId phase, s.procs p = .job opId phase → phase.Began)
    (fun s hi p opId phase hp => ?_) fun s a s' _ hbegan _ h p opId phase hp' => ?_
  · simp [hi.procs] at hp
  · rcases job_of_move (move_of_step h) hp' with ⟨hp, -⟩ | ⟨rfl, -⟩ | ⟨ev, phase₀, -, hp, hstep⟩
    · exact hbegan p opId phase hp
    · trivial
    · exact began_of_step hstep (hbegan p opId phase₀ hp)

/-! ## The rows stay -/

/-- An analysed task stays so: analyses are only added. -/
theorem analysed_of_move (hdrawn : ∀ id, s.db.Names id → id ∈ s.used) (h : Move cfg s a s')
    {t : Uuid} (ht : s.db.Analysed t) : s'.db.Analysed t := by
  rw [Db.analysed_iff] at ht ⊢
  rcases ledger_of_move hdrawn h with hsame | ⟨taskId, hnew⟩
  · rwa [hsame]
  · rw [hnew]
    split
    · simp
    · exact ht

/-- A task with a first draft stays so. -/
theorem drafted_of_move (h : Move cfg s a s') {t : Uuid} (ht : s.db.Drafted t) :
    s'.db.Drafted t := by
  obtain ⟨v, hv, rfl, hkind⟩ := ht
  obtain ⟨v', hv', hcore⟩ := List.mem_map.mp (mem_cores_of_move h (List.mem_map_of_mem hv))
  refine ⟨v', hv', ScriptVersion.taskId_of_core hcore, ?_⟩
  rw [← hkind]
  exact (ScriptVersion.mk.inj hcore).2.2.2.1

/-- What a state needs stays there. -/
theorem backs_of_move (hdrawn : ∀ id, s.db.Names id → id ∈ s.used) (h : Move cfg s a s')
    {t : Uuid} {st : TaskState} (hb : s.db.Backs t st) : s'.db.Backs t st := by
  cases st with
  | analysisReady | suggestionsReady => exact analysed_of_move hdrawn h hb
  | editing | finalized => exact ⟨analysed_of_move hdrawn h hb.1, drafted_of_move h hb.2⟩
  | _ => trivial

/-! ## What a result leaves -/

/-- The result of an analysis is an analysis of its task. -/
theorem analysed_of_result (hdrawn : ∀ id, s.db.Names id → id ∈ s.used) {opId : Uuid}
    {e : Execution} {result : ServiceResult} {ids : List Uuid} {stored : List Write}
    (h : s.StoresResult a s' opId e result ids stored) (hfits : result.Fits e.prepared) {d : Bool}
    (hp : e.prepared = .analysis d) : s'.db.Analysed e.task.id := by
  obtain ⟨resource, hcommit⟩ := h.commit
  obtain ⟨db₁, hfold, hsame⟩ := stored_of_successWrites hcommit
  have hstores := h.stores
  rw [hp] at hstores hfits
  cases hstores with
  | analysis hid htask hseq hselected =>
    rename_i r
    have hmem : r.id ∈ ids := hid ▸ Stamp.id_mem (by have := h.draws.1; omega)
    have hfresh : ∀ x ∈ s.db.analyses, x.id ≠ r.id := fun x hx he =>
      h.draws.2.2 r.id hmem (hdrawn r.id (.inl ⟨x, hx, he⟩))
    have hledger : s'.db.ledger e.task.id = db₁.ledger e.task.id := by
      rw [Db.ledger, hsame.analyses, Db.ledger]
    rw [Db.analysed_iff, hledger, Db.ledger_of_analysis hfold htask hfresh, if_pos rfl]
    simp
  | version hout => exact (hfits.version _ hout).elim

/-- The result of a first draft is a first draft of its task. -/
theorem drafted_of_result (hpl : s.Placed) {opId : Uuid} {e : Execution} {result : ServiceResult}
    {ids : List Uuid} {stored : List Write} (h : s.StoresResult a s' opId e result ids stored)
    (hfits : result.Fits e.prepared) {payload : FirstDraftSubmit} {r : AnalysisRecord}
    {ss : List SelectedSuggestion} {d : Bool} (hp : e.prepared = .firstDraft payload r ss d) :
    s'.db.Drafted e.task.id := by
  obtain ⟨resource, hcommit⟩ := h.commit
  obtain ⟨db₁, hfold, hsame⟩ := stored_of_successWrites hcommit
  have hstores := h.stores
  rw [hp] at hstores hfits
  cases hstores with
  | version hout =>
    rename_i made
    obtain ⟨-, hkind, -⟩ := hfits.version made hout
    have hmem : Stamp.id ⟨s.now, ids⟩ 0 ∈ ids := Stamp.id_mem (by have := h.draws.1; omega)
    obtain rfl := Option.some.inj hfold
    have hfresh : s.db.versions.Fresh (Stamp.id ⟨s.now, ids⟩ 0) := by
      intro v hv he
      exact h.draws.2.2 _ hmem (he ▸ hpl.drawn v hv)
    refine ⟨versionRecord e.task.id (Stamp.id ⟨s.now, ids⟩ 0) s.now made result.metadata, ?_, rfl,
      hkind⟩
    rw [hsame.versions]
    exact (Table.mem_insert hfresh).mpr (.inr rfl)

/-! ## The invariant -/

/-- What a task's state promises is there, and a task with a version has what a draft is made
from. -/
structure Backed (s : Sys) : Prop where
  states : s.Everywhere s.db.Backs
  versions : ∀ v ∈ s.db.versions, s.db.Analysed v.taskId ∧ s.db.Drafted v.taskId

/-- What stands behind the result of an operation. -/
theorem Backed.settled (hb : s.Backed) (hs : Reachable cfg s) (h : Move cfg s a s') {opId : Uuid}
    {e : Execution} {result : ServiceResult} {ids : List Uuid} {stored : List Write}
    (hr : s.StoresResult a s' opId e result ids stored) :
    s'.db.Backs e.task.id result.state.succeeded := by
  obtain ⟨p, -, hp⟩ := hr.job
  have hfits := (provenance hs p opId _ hp).2
  obtain ⟨⟨-, hknown, htask⟩, -⟩ := hb.states.held.jobs p opId _ hp
  have hinitial := backs_of_move (drawn hs) h hknown.2
  rw [hfits.state]
  refine Db.Backs.succeeded (htask ▸ hinitial) (began hs p opId _ hp) (fun d hd => ?_) ?_
  · exact analysed_of_result (drawn hs) hr hfits hd
  · exact fun payload r ss d hd => drafted_of_result (placed hs) hr hfits hd

/-- The step lemma. -/
theorem Backed.move (hb : s.Backed) (hs : Reachable cfg s) (h : Move cfg s a s') :
    s'.Backed where
  states := by
    have hdrawn := drawn hs
    -- the task of a version has an analysis and a first draft
    have hloaded : ∀ pd out, CommitsRequest cfg s a s' pd out → ∀ version task,
        pd.version = some (version, task) → s'.db.Analysed task.id ∧ s'.db.Drafted task.id := by
      rintro pd out ⟨⟨p, ids, m, r, -, hp, -⟩, -⟩ version task hv
      obtain ⟨hcore, htask⟩ := loaded hs p m r pd version task (hp.symm.imp_left And.left) hv
      obtain ⟨v, hm, hcore⟩ := List.mem_map.mp hcore
      obtain ⟨hanalysed, hdrafted⟩ := hb.versions v hm
      rw [ScriptVersion.taskId_of_core hcore, htask] at hanalysed hdrafted
      exact ⟨analysed_of_move hdrawn h hanalysed, drafted_of_move h hdrafted⟩
    refine hb.states.move (base hs) ?_ h
    constructor
    · exact fun t st hst => backs_of_move hdrawn h hst
    · rintro t st (hrun | rfl | rfl)
      · cases st with
        | analyzing | suggesting | generating | revising => trivial
        | _ => cases hrun
      · trivial
      · trivial
    · exact fun parent task payload out hc => hloaded _ out hc parent task rfl
    · exact fun version task out hc => hloaded _ out hc version task rfl
    · exact fun opId e result ids stored hr => hb.settled hs h hr
  versions := by
    have hdrawn := drawn hs
    have hold : ∀ v ∈ s.db.versions, s'.db.Analysed v.taskId ∧ s'.db.Drafted v.taskId :=
      fun v hv => ⟨analysed_of_move hdrawn h (hb.versions v hv).1,
        drafted_of_move h (hb.versions v hv).2⟩
    have hstays : ∀ v' : ScriptVersion, (∃ v ∈ s.db.versions, v.core = v'.core) →
        s'.db.Analysed v'.taskId ∧ s'.db.Drafted v'.taskId := by
      rintro v' ⟨v, hv, hcore⟩
      exact ScriptVersion.taskId_of_core hcore ▸ hold v hv
    intro v' hv'
    rcases cores_of_move h with hsame | ⟨u, happ, hsaves, -⟩
    · exact hstays v' ((version_of_cores hv').1 hsame)
    · rcases (version_of_cores hv').2 u happ with hmem | hcore
      · exact hstays v' hmem
      rw [← ScriptVersion.taskId_of_core hcore]
      cases hsaves with
      | manualEdit ha hp htask =>
        obtain ⟨hparent, hptask⟩ := loaded hs _ _ _ _ _ _ (.inr hp) rfl
        obtain ⟨v, hm, hvcore⟩ := List.mem_map.mp hparent
        rw [htask, ← hptask, ← ScriptVersion.taskId_of_core hvcore]
        exact hold v hm
      | result ha hp hout hv =>
        obtain ⟨⟨-, hknown, htask⟩, -⟩ := hb.states.held.jobs _ _ _ hp
        have hinitial := backs_of_move hdrawn h hknown.2
        rw [hv]
        refine Db.Backs.version (htask ▸ hinitial) (began hs _ _ _ hp)
          ((provenance hs _ _ _ hp).2.version _ hout) fun hkind => ⟨v', hv', ?_, ?_⟩
        · rw [← ScriptVersion.taskId_of_core hcore, hv]
        · have hsame : u.kind = v'.kind := (ScriptVersion.mk.inj hcore).2.2.2.1
          rw [← hsame, hv]
          exact hkind

/-- The run lemma. -/
theorem backed (hs : Reachable cfg s) : s.Backed := by
  refine hs.invariant (fun s hi => ⟨Everywhere.of_initial hi, fun v hv => ?_⟩)
    fun s a s' hr hb _ h => hb.move hr (move_of_step h)
  rw [hi.versions] at hv
  cases hv

/-- The task is in the state, was archived in it, or has an operation that began in it. -/
def StandsIn (s : Sys) (t : RewriteTask) (st : TaskState) : Prop :=
  t.state = st ∨ t.archivedFromState = some st ∨
    ∃ o ∈ s.db.operations, o.taskId = t.id ∧ o.initialTaskState = st

/-- **The states of a task are backed by its rows.** In every reachable state a task whose
analysis or suggestions are ready has an analysis, and one that is edited or finalized has a
first draft beside it. This also holds of the state a task was archived in and of those its
operations began in. And no task has a version without an analysis and a first draft. -/
theorem states_backed (hs : Reachable cfg s) :
    (∀ t ∈ s.db.tasks, ∀ st, s.StandsIn t st →
      (st ∈ [.analysisReady, .suggestionsReady, .editing, .finalized] →
        ∃ r ∈ s.db.analyses, r.taskId = t.id) ∧
      (st = .editing ∨ st = .finalized →
        ∃ v ∈ s.db.versions, v.taskId = t.id ∧ v.kind = .firstDraft)) ∧
    ∀ v ∈ s.db.versions, (∃ r ∈ s.db.analyses, r.taskId = v.taskId) ∧
      ∃ u ∈ s.db.versions, u.taskId = v.taskId ∧ u.kind = .firstDraft := by
  have hbacked := backed hs
  refine ⟨fun t ht st hst => ?_, hbacked.versions⟩
  have hbacks : s.db.Backs t.id st := by
    obtain ⟨hstate, hfrom⟩ := hbacked.states.tasks t ht
    rcases hst with rfl | harchived | ⟨o, ho, htask, rfl⟩
    · exact hstate
    · exact hfrom st harchived
    · exact htask ▸ (hbacked.states.held.stored o ho).2
  cases st with
  | analysisReady | suggestionsReady => exact ⟨fun _ => hbacks, by simp⟩
  | editing | finalized => exact ⟨fun _ => hbacks.1, fun _ => hbacks.2⟩
  | _ => simp

namespace Sample

set_option maxRecDepth 16000 in
/-- Task 10 is in editing after its first draft. -/
theorem run_drafted : ((system writer).run start drafted).map (fun s =>
    s.db.tasks.rows.any fun t => t.id = 10 && t.state = .editing) = some true := by
  decide

end Sample

/-- The task that has its first draft. -/
theorem states_backed_drafted : ∃ s : Sys, Reachable Sample.writer s ∧
    (∃ r ∈ s.db.analyses, r.taskId = 10) ∧
    ∃ v ∈ s.db.versions, v.taskId = 10 ∧ v.kind = .firstDraft := by
  obtain ⟨s, hrun, hcheck⟩ := Option.map_eq_some_iff.mp Sample.run_drafted
  have hs : Reachable Sample.writer s :=
    reach_of_run (.init Sample.initial_start) (fun _ _ _ => trivial) hrun
  obtain ⟨t, ht, hcheck⟩ := List.any_eq_true.mp hcheck
  simp only [Bool.and_eq_true, decide_eq_true_eq] at hcheck
  obtain ⟨hanalysis, hdraft⟩ := (states_backed hs).1 t ht .editing (.inl hcheck.2)
  rw [hcheck.1] at hanalysis hdraft
  exact ⟨s, hs, hanalysis (by simp), hdraft (.inl rfl)⟩

end Sys

end DouyinCaption

import DouyinCaption.Endings
import DouyinCaption.ProviderCalls

/-!
# Jobs that execute an operation

As long as no operation is declared stale while a job executes it (`NoStale`), the job is
alone with its operation: no other job executes it, no recovery has selected it, and it is
running until the job itself ends it (`executing`).
-/

namespace DouyinCaption

open Tables Runs

/-- The job has claimed its operation and has not recorded its end. -/
def JobPhase.works : JobPhase → Bool
  | .claimed .. | .calling .. | .returned .. | .failing .. => true
  | _ => false

@[simp] theorem JobPhase.works_onFault (phase : JobPhase) : phase.onFault.works = false := by
  cases phase with
  | leaving lease exit => cases exit <;> rfl
  | _ => rfl

@[simp] theorem JobPhase.works_onCancel (phase : JobPhase) : phase.onCancel.works = false := by
  cases phase <;> rfl

/-- After a last statement that sets an operation, the operation has the status it sets. -/
theorem Db.status_of_setOperation {db db' : Db} {ws : List Write} {id : Uuid}
    {c : OperationChange} (h : (ws ++ [Write.setOperation id c]).foldlM Write.apply db = some db') :
    ∀ o ∈ db'.operations, o.id = id → o.status = c.status := by
  rw [List.foldlM_append] at h
  obtain ⟨db₁, -, h⟩ := Option.bind_eq_some_iff.mp h
  rw [List.foldlM_cons] at h
  obtain ⟨db₂, h₂, h⟩ := Option.bind_eq_some_iff.mp h
  obtain rfl := Option.some.inj h
  obtain ⟨_, -, rfl⟩ := Option.map_eq_some_iff.mp h₂
  intro o' ho' hid
  dsimp only at ho'
  obtain ⟨o, -, he⟩ := Table.mem_update.mp ho'
  by_cases ho : o.id = id
  · rw [he, if_pos (decide_eq_true ho), OperationChange.apply_status]
  · rw [he, if_neg (by simp [ho])] at hid
    exact absurd hid ho

/-- The claim of a queued operation makes it running. -/
theorem Db.running_of_claim {db db' : Db} {e : Execution} {now : ℕ}
    (h : db.commit (claimWrites e now) = some db') (hq : db.isQueued e.op.id = true) :
    ∃ o ∈ db'.operations, o.id = e.op.id ∧ o.status = .running := by
  obtain ⟨o, ho⟩ := Option.isSome_iff_exists.mp hq
  obtain ⟨hm, hp⟩ := Table.scalar_some ho
  simp only [Bool.and_eq_true, decide_eq_true_eq] at hp
  have hfold := (Db.commit_eq_some.mp h).1
  rw [claimWrites, List.foldlM_cons] at hfold
  obtain ⟨db₁, h₁, hfold⟩ := Option.bind_eq_some_iff.mp hfold
  rw [List.foldlM_cons] at hfold
  obtain ⟨db₂, h₂, hfold⟩ := Option.bind_eq_some_iff.mp hfold
  obtain rfl := Option.some.inj hfold
  obtain ⟨_, -, rfl⟩ := Option.map_eq_some_iff.mp h₂
  obtain rfl := Option.some.inj h₁
  refine ⟨(OperationChange.claim now).apply o, ?_, ?_, rfl⟩
  · dsimp only
    exact Table.mem_update.mpr ⟨o, hm, by simp [hp]⟩
  · rw [OperationChange.apply_id]
    exact hp.1

namespace Sys

variable {cfg : Config} {s s' : Sys} {a : Action}

/-! ## The assumption -/

/-- The owner whose stale operations a step selects. -/
def selects (s : Sys) : Action → Option Uuid
  | .job p (.go _) => match s.procs p with
      | .job _ (.began op _) => some op.ownerId
      | _ => none
  | .tick p (.go _) => match s.procs p with
      | .tick _ (.owners (owner :: _)) => some owner
      | _ => none
  | _ => none

/-- No operation is declared stale while a job executes it. -/
def NoStale (s : Sys) (a : Action) : Prop :=
  ∀ m ∈ s.selects a, ∀ o ∈ s.db.staleOperations m s.now, ∀ p opId phase,
    s.procs p = .job opId phase → phase.executes = true → o.id ≠ opId

/-- The operations a recovery in progress has selected. -/
def stale (s : Sys) (p : ℕ) : List AiOperation :=
  match s.procs p with
  | .job _ (.recovering _ _ todo found) => found.map Prod.fst ++ todo
  | .tick _ (.recovering _ todo found) => found.map Prod.fst ++ todo
  | _ => []

/-! ## What executes -/

/-- A job that executes its operation did so before, or has just claimed it. -/
theorem executes_of_step {opId : Uuid} {phase phase' : JobPhase}
    (h : JobStep cfg s opId phase phase') (he : phase'.executes = true) :
    phase.executes = true ∨ ∃ e model, phase = .admitted e model ∧ phase' = .claimed e model := by
  have hfrom := from_of_step h
  cases phase' with
  | claimed e model => exact .inr ⟨e, model, hfrom.1, rfl⟩
  | calling e call =>
    obtain ⟨model, rfl, -⟩ := hfrom
    exact .inl rfl
  | returned e result =>
    obtain ⟨call, response, rfl, -⟩ := hfrom
    exact .inl rfl
  | succeeded e =>
    obtain ⟨result, rfl⟩ := hfrom
    exact .inl rfl
  | failing e failure =>
    rcases hfrom with ⟨model, rfl⟩ | ⟨call, rfl⟩ | ⟨result, rfl⟩ <;> exact .inl rfl
  | restoring e arm =>
    rcases hfrom with ⟨model, rfl⟩ | ⟨call, rfl⟩ | ⟨result, rfl⟩ | rfl <;> exact .inl rfl
  | restored e arm op task =>
    obtain ⟨rfl, -⟩ := hfrom
    exact .inl rfl
  | _ => cases he

/-- A job that executes its operation after a step did so before, or its claim was the
step. -/
theorem executing_of_move (h : Move cfg s a s') {q : ℕ} {opId : Uuid} {phase : JobPhase}
    (hq : s'.procs q = .job opId phase) (he : phase.executes = true) :
    (∃ phase₀, s.procs q = .job opId phase₀ ∧ phase₀.executes = true) ∨
      a.proc = some q ∧ ∃ e model, phase = .claimed e model ∧
        s.procs q = .job opId (.admitted e model) ∧ s.db.isQueued e.op.id = true ∧
        s.db.commit (claimWrites e s.now) = some s'.db := by
  rcases job_of_move h hq with ⟨hp, -⟩ | ⟨rfl, -⟩ | ⟨ev, phase₀, ha, hp, hstep⟩
  · exact .inl ⟨phase, hp, he⟩
  · cases he
  · rcases executes_of_step hstep he with he₀ | ⟨e, model, rfl, rfl⟩
    · exact .inl ⟨phase₀, hp, he₀⟩
    · rcases claimed_of_move h hq with ⟨hp', -⟩ | ⟨ha', hp', hqueued, hcommit⟩
      · cases (Proc.job.inj (hp'.symm.trans hp)).2
      · exact .inr ⟨ha', e, model, rfl, hp', hqueued, hcommit⟩

/-- A commit of a working job is its claim. -/
theorem claim_of_transaction {ids : List Uuid} {opId : Uuid} {phase phase' : JobPhase}
    {ws : List Write} (ht : phase.transaction s.db ⟨s.now, ids⟩ opId = some ws)
    (hn : JobNext cfg s ids opId phase phase') (hw : phase'.works = true) :
    ∃ e model, phase = .admitted e model := by
  cases hn with
  | fault => rw [JobPhase.works_onFault] at hw; cases hw
  | cancel => rw [JobPhase.works_onCancel] at hw; cases hw
  | advance h =>
    cases phase with
    | admitted e model => exact ⟨e, model, rfl⟩
    | recovering op task todo found =>
      cases todo with
      | nil => obtain rfl := Option.some.inj h; cases hw
      | cons o todo => cases ht
    | returned e result =>
      simp only [JobPhase.transaction, JobPhase.advance] at ht h
      split at h
      · obtain rfl := Option.some.inj h
        cases hw
      · rename_i hp
        rw [hp] at ht
        cases ht
    | failing e failure => obtain rfl := Option.some.inj h; cases hw
    | restored e arm op task =>
      simp only [JobPhase.advance] at h
      split at h <;> (obtain rfl := Option.some.inj h; cases hw)
    | sweeping error op => obtain rfl := Option.some.inj h; cases hw
    | _ => cases ht

/-- A step of a job to a phase in which it works leaves the rows alone, unless it is its
claim. -/
theorem db_of_works (h : Move cfg s a s') {q : ℕ} {opId : Uuid} {phase₀ phase : JobPhase}
    (ha : a.proc = some q) (hp : s.procs q = .job opId phase₀)
    (hq : s'.procs q = .job opId phase) (hw : phase.works = true)
    (hclaim : ∀ e model, phase₀ ≠ .admitted e model) : s'.db = s.db := by
  cases h with
  | settle ha' hp' hids hn hgo ht hw' hc =>
    obtain rfl := Option.some.inj ha
    obtain ⟨rfl, rfl⟩ := Proc.job.inj (hp'.symm.trans hp)
    rw [enter_procs, Function.update_self] at hq
    obtain ⟨-, rfl⟩ := Proc.job.inj hq
    obtain ⟨e, model, rfl⟩ := claim_of_transaction ht hn hw
    exact absurd rfl (hclaim e model)
  | commit hp' =>
    obtain rfl := Option.some.inj ha
    rw [hp] at hp'
    rcases hp' with hp' | ⟨hp', -⟩ <;> cases hp'
  | recover he hp' hw' hc hx =>
    obtain rfl := Option.some.inj ha
    cases hp'.symm.trans hp
  | configure => cases ha
  | _ => simp

/-! ## What is selected as stale -/

theorem selects_of_began (h : Move cfg s a s') {q : ℕ} {opId : Uuid} {op : AiOperation}
    {task : RewriteTask} {todo : List AiOperation} {found : List (AiOperation × Option RewriteTask)}
    (ha : a.proc = some q) (hp : s.procs q = .job opId (.began op task))
    (hq : s'.procs q = .job opId (.recovering op task todo found)) :
    s.selects a = some op.ownerId := by
  cases h with
  | advance hp' hphase hn ht hfree =>
    obtain rfl := Option.some.inj ha
    rw [selects, hp]
  | settle ha' hp' hids hn hgo ht hw' hc =>
    obtain rfl := Option.some.inj ha
    obtain ⟨rfl, rfl⟩ := Proc.job.inj (hp'.symm.trans hp)
    cases ht
  | fault hp' | cancel hp' =>
    obtain rfl := Option.some.inj ha
    obtain ⟨rfl, rfl⟩ := Proc.job.inj (hp'.symm.trans hp)
    rw [enter_procs, Function.update_self] at hq
    cases hq
  | leave hp' | acquire hp' | refuseLease hp' | context hp' | answer hp' | execute hp'
  | arrive hp' | busy hp' | lock hp' | relookup hp' | startTick hp' | select hp' | load hp'
  | tick hp' | recover _ hp' | spawn hp' =>
    obtain rfl := Option.some.inj ha
    cases hp'.symm.trans hp
  | crash hp' =>
    obtain rfl := Option.some.inj ha
    rw [unlock_procs, setProc_procs, Function.update_self] at hq
    cases hq
  | reject hp' | refuse hp' | commit hp' =>
    obtain rfl := Option.some.inj ha
    rw [hp] at hp'
    rcases hp' with hp' | ⟨hp', -⟩ <;> cases hp'
  | abort hp' =>
    obtain rfl := Option.some.inj ha
    rw [unlock_procs, setProc_procs, Function.update_self] at hq
    cases hq
  | clock | evict | configure => cases ha

/-- An operation a recovery has selected was selected before, or in the step. -/
theorem stale_of_move (h : Move cfg s a s') {p : ℕ} {o : AiOperation} (ho : o ∈ s'.stale p) :
    o ∈ s.stale p ∨ ∃ m ∈ s.selects a, o ∈ s.db.staleOperations m s.now := by
  rw [stale] at ho
  split at ho
  · rename_i opId op task todo found hp'
    rcases job_of_move h hp' with ⟨hp, -⟩ | ⟨hc, -⟩ | ⟨ev, phase₀, rfl, hp, hstep⟩
    · left
      rw [stale, hp]
      exact ho
    · cases hc
    · rcases from_of_step hstep with ⟨rfl, rfl, rfl⟩ | ⟨o₁, found₀, rfl, rfl⟩
      · exact .inr ⟨_, selects_of_began h rfl hp hp', by simpa using ho⟩
      · left
        rw [stale, hp]
        simpa using ho
  · rename_i worker rest todo found hp'
    rcases old_or_turn h hp' fun _ => by simp with ⟨hp, -⟩ | ht
    · left
      rw [stale, hp]
      exact ho
    · generalize hx : s.procs p = x at ht
      cases ht with
      | select =>
        right
        refine ⟨_, ?_, by simpa using ho⟩
        simp [selects, hx]
      | load =>
        left
        rw [stale, hx]
        simpa using ho
      | tick hne => exact absurd rfl (hne _ _ _)
  · cases ho

/-- What a recovery has selected was running, and is known. -/
theorem Base.stale_known (hb : s.Base) {p : ℕ} {o : AiOperation} (ho : o ∈ s.stale p) :
    s.Knows o ∧ o.status = .running := by
  rw [stale] at ho
  split at ho
  · rename_i opId op task todo found hp
    obtain ⟨-, htodo, hfound⟩ := hb.jobs p opId _ hp
    rcases List.mem_append.mp ho with ho | ho
    · obtain ⟨f, hf, rfl⟩ := List.mem_map.mp ho
      exact ⟨(hfound f hf).1, (hfound f hf).2.1⟩
    · exact htodo o ho
  · rename_i worker rest todo found hp
    obtain ⟨htodo, hfound⟩ := hb.ticks p worker _ hp
    rcases List.mem_append.mp ho with ho | ho
    · obtain ⟨f, hf, rfl⟩ := List.mem_map.mp ho
      exact ⟨(hfound f hf).1, (hfound f hf).2.1⟩
    · exact htodo o ho
  · cases ho

/-! ## The invariant -/

/-- The result of the operation is stored, and it has succeeded. -/
structure Finished (s : Sys) (opId : Uuid) : Prop where
  stored : opId ∈ s.stored
  succeeded : ∀ o ∈ s.db.operations, o.id = opId → o.status = .succeeded

/-- The operation is running. -/
def Runs (s : Sys) (opId : Uuid) : Prop :=
  ∃ o ∈ s.db.operations, o.id = opId ∧ o.status = .running

/-- A job is alone with the operation it executes. -/
structure Executing (s : Sys) : Prop where
  /-- the operation is running, or the job has stored its result -/
  running : ∀ p opId phase, s.procs p = .job opId phase → phase.executes = true →
    s.Runs opId ∨ phase.works = false ∧ s.Finished opId
  /-- no other job executes it -/
  alone : ∀ p q opId phase phase', s.procs p = .job opId phase → phase.executes = true →
    s.procs q = .job opId phase' → phase'.executes = true → p = q
  /-- no recovery has selected it -/
  spared : ∀ p, ∀ o ∈ s.stale p, ∀ q opId phase, s.procs q = .job opId phase →
    phase.executes = true → o.id ≠ opId

theorem Executing.of_initial (h : Initial s) : s.Executing where
  running := fun p opId phase hp => by simp [h.procs] at hp
  alone := fun p q opId phase phase' hp => by simp [h.procs] at hp
  spared := fun p o ho => by simp [stale, h.procs] at ho

/-- No other process is about to end an operation that a job executes. -/
theorem Executing.not_ends (hx : s.Executing) (hb : s.Base) {p q : ℕ} {opId : Uuid}
    {phase : JobPhase} (hq : s.procs q = .job opId phase) (he : phase.executes = true)
    (hne : p ≠ q) : opId ∉ s.ends p := by
  intro hmem
  have hstale : ∀ {found : List (AiOperation × Option RewriteTask)},
      (∀ f ∈ found, f.1 ∈ s.stale p) → opId ∉ found.map fun f => f.1.id := by
    intro found hsub hf
    obtain ⟨f, hf, hid⟩ := List.mem_map.mp hf
    exact hx.spared p f.1 (hsub f hf) q opId phase hq he hid
  rcases hp : s.procs p with _ | _ | _ | _ | _ | ⟨opId', phase'⟩ | ⟨worker, phase'⟩ | _
  case job =>
    rw [ends_of_job hp] at hmem
    have hwf := hb.jobs p opId' phase' hp
    cases phase' with
    | recovering op task todo found =>
      cases todo with
      | nil =>
        refine hstale (fun f hf => ?_) hmem
        rw [stale, hp]
        simpa using ⟨f.2, hf⟩
      | cons o todo => cases hmem
    | returned e result | failing e failure =>
      obtain rfl := List.mem_singleton.mp hmem
      rw [hwf.1.1] at hq
      exact hne (hx.alone p q opId' _ _ hp rfl hq he)
    | restored e arm op task =>
      cases op with
      | none => cases hmem
      | some o =>
        obtain rfl := List.mem_singleton.mp hmem
        rw [(hwf.2.1 o rfl).1] at hq
        exact hne (hx.alone p q opId' _ _ hp rfl hq he)
    | _ => cases hmem
  case tick =>
    cases phase' with
    | recovering rest todo found =>
      cases todo with
      | nil =>
        rw [ends_of_tick hp] at hmem
        refine hstale (fun f hf => ?_) hmem
        rw [stale, hp]
        simpa using ⟨f.2, hf⟩
      | cons o todo =>
        rw [ends, hp] at hmem
        cases hmem
    | owners | spawning =>
      rw [ends, hp] at hmem
      cases hmem
  all_goals
    rw [ends, hp] at hmem
    cases hmem

/-- An operation that runs goes on in a step that does not end it. -/
theorem Runs.move {opId : Uuid} (hr : s.Runs opId) (h : Move cfg s a s')
    (he : ∀ p, a.proc = some p → opId ∉ s.ends p) : s'.Runs opId := by
  obtain ⟨o, ho, rfl, hrun⟩ := hr
  exact ⟨o, running_of_move h ho hrun he, rfl, hrun⟩

theorem stored_of_move (h : Move cfg s a s') : ∀ i ∈ s.stored, i ∈ s'.stored := by
  cases h with
  | settle ha hp hids hn hgo ht hw hc =>
    rename_i phase _ _ _
    intro i hi
    rw [enter_stored]
    cases phase <;> first
      | exact hi
      | exact List.mem_cons_of_mem _ hi
  | _ => simp

theorem Finished.move {opId : Uuid} (hf : s.Finished opId) (hid : opId ∈ s.used)
    (h : Move cfg s a s') (he : ∀ p, a.proc = some p → opId ∉ s.ends p) : s'.Finished opId where
  stored := stored_of_move h _ hf.stored
  succeeded := by
    intro o' ho' hid'
    rcases (opsEvolve_of_move h).origin o' ho' with ⟨o, ho, hbec⟩ | hnew
    · have hoid : o.id = opId := hbec.same.id.symm.trans hid'
      have hsucc := hf.succeeded o ho hoid
      rcases operation_of_move h ho (by rw [hsucc]; simp) (hoid ▸ he) with hm | ⟨-, hno⟩
      · rw [Table.eq_of_key ho' hm (hid'.trans hoid.symm)]
        exact hsucc
      · exact absurd (hid'.trans hoid.symm) (hno o' ho')
    · exact absurd (hid' ▸ hid) hnew.fresh

/-- A job that executes has not its operation queued. -/
theorem Executing.not_isQueued (hx : s.Executing) {p : ℕ} {opId : Uuid} {phase : JobPhase}
    (hp : s.procs p = .job opId phase) (he : phase.executes = true) :
    s.db.isQueued opId = false := by
  rw [Db.isQueued, Option.isSome_eq_false_iff, Option.isNone_iff_eq_none, Table.scalar_none]
  intro o ho hq
  simp only [Bool.and_eq_true, decide_eq_true_eq] at hq
  rcases hx.running p opId phase hp he with ⟨o₁, ho₁, hid₁, hr⟩ | ⟨-, hf⟩
  · rw [Table.eq_of_key ho ho₁ (hq.1.trans hid₁.symm), hr] at hq
    cases hq.2
  · rw [hf.succeeded o ho hq.1] at hq
    cases hq.2

/-! ## The invariant is kept -/

theorem stored_of_settle {ids : List Uuid} {opId : Uuid} {e : Execution}
    {result : ServiceResult} {ws : List Write} {db : Db}
    (ht : (JobPhase.returned e result).transaction s.db ⟨s.now, ids⟩ opId = some ws)
    (hc : s.db.commit ws = some db) :
    ∀ o ∈ db.operations, o.id = e.op.id → o.status = .succeeded := by
  simp only [JobPhase.transaction] at ht
  split at ht
  · obtain rfl := Option.some.inj ht
    have hfold := (Db.commit_eq_some.mp hc).1
    rw [successWrites, List.append_cons] at hfold
    exact Db.status_of_setOperation hfold
  · cases ht

/-- A job that goes on to look at the end of its operation has stored the result in the
step, or has committed nothing. -/
theorem finished_of_move (hb : s.Base) (h : Move cfg s a s') {q : ℕ} {opId : Uuid}
    {phase₀ phase : JobPhase} (ha : a.proc = some q) (hp : s.procs q = .job opId phase₀)
    (hq : s'.procs q = .job opId phase) (he₀ : phase₀.executes = true)
    (he : phase.executes = true) :
    s'.db = s.db ∧ s'.stored = s.stored ∨ s'.Finished opId := by
  cases h with
  | settle ha' hp' hids hn hgo ht hw' hc =>
    obtain rfl := Option.some.inj ha
    obtain ⟨rfl, rfl⟩ := Proc.job.inj (hp.symm.trans hp')
    rw [enter_procs, Function.update_self] at hq
    obtain ⟨-, rfl⟩ := Proc.job.inj hq
    have hwf := hb.jobs _ _ _ hp
    cases phase₀ with
    | returned e result =>
      right
      refine ⟨?_, fun o ho hid => ?_⟩
      · rw [enter_stored]
        exact List.mem_cons_self
      · rw [enter_db] at ho
        exact stored_of_settle ht hc o ho (hid.trans hwf.1.1.symm)
    | failing e failure =>
      cases hn with
      | advance h =>
        obtain rfl := Option.some.inj h
        cases he
      | fault | cancel => cases he
    | restored e arm op task =>
      cases hn with
      | advance h =>
        simp only [JobPhase.advance] at h
        split at h <;> (obtain rfl := Option.some.inj h; cases he)
      | fault | cancel => cases he
    | claimed | calling | succeeded | restoring => cases ht
    | _ => cases he₀
  | commit hp' =>
    obtain rfl := Option.some.inj ha
    rw [hp] at hp'
    rcases hp' with hp' | ⟨hp', -⟩ <;> cases hp'
  | recover he hp' hw' hc hx =>
    obtain rfl := Option.some.inj ha
    cases hp'.symm.trans hp
  | configure => cases ha
  | _ => exact .inl (by simp)

theorem works_of_step {opId : Uuid} {phase phase' : JobPhase}
    (h : JobStep cfg s opId phase phase') (hw : phase'.works = true) :
    phase.works = true ∨ ∃ e model, phase = .admitted e model := by
  have hfrom := from_of_step h
  cases phase' with
  | claimed e model => exact .inr ⟨e, model, hfrom.1⟩
  | calling e call =>
    obtain ⟨model, rfl, -⟩ := hfrom
    exact .inl rfl
  | returned e result =>
    obtain ⟨call, response, rfl, -⟩ := hfrom
    exact .inl rfl
  | failing e failure =>
    rcases hfrom with ⟨model, rfl⟩ | ⟨call, rfl⟩ | ⟨result, rfl⟩ <;> exact .inl rfl
  | _ => cases hw

/-- **A job stays alone with the operation it executes.** -/
theorem Executing.move (hx : s.Executing) (hb : s.Base) (hn : s.NoStale a)
    (h : Move cfg s a s') : s'.Executing where
  running := by
    intro q opId phase hq he
    rcases executing_of_move h hq he with ⟨phase₀, hp, he₀⟩ | ⟨-, e, model, rfl, hp, hqd, hc⟩
    · have hrun := hx.running q opId phase₀ hp he₀
      by_cases ha : a.proc = some q
      · rcases job_of_move h hq with ⟨-, ha'⟩ | ⟨rfl, -⟩ | ⟨ev, phase₁, -, hp', hstep⟩
        · exact absurd ha ha'
        · cases he
        obtain ⟨-, rfl⟩ := Proc.job.inj (hp'.symm.trans hp)
        rcases hw : phase.works with _ | _
        · rcases finished_of_move hb h ha hp hq he₀ he with ⟨hdb, hst⟩ | hfin
          · refine hrun.imp (fun hr => ?_) fun ⟨_, hf⟩ => ⟨rfl, ?_⟩
            · rw [Runs, hdb]
              exact hr
            · exact ⟨hst ▸ hf.stored, hdb ▸ hf.succeeded⟩
          · exact .inr ⟨rfl, hfin⟩
        · left
          have hnot : ∀ e model, phase₁ ≠ .admitted e model := by
            rintro e model rfl
            cases he₀
          have hw₀ := (works_of_step hstep hw).resolve_right fun ⟨e, model, he⟩ =>
            hnot e model he
          rw [Runs, db_of_works h ha hp hq hw hnot]
          exact hrun.resolve_right fun ⟨hfalse, _⟩ => by rw [hw₀] at hfalse; cases hfalse
      · have hends : ∀ p, a.proc = some p → opId ∉ s.ends p := fun p hap =>
          hx.not_ends hb hp he₀ fun e => ha (e ▸ hap)
        have hsame : phase₀ = phase := by
          rcases procs_of_move h ha with hpq | ⟨hpq, -⟩
          · exact (Proc.job.inj (hp.symm.trans (hpq.symm.trans hq))).2
          · cases hpq.symm.trans hp
        subst hsame
        refine hrun.imp (fun hr => hr.move h hends) fun ⟨hw, hf⟩ => ⟨hw, ?_⟩
        have hwf := hb.jobs q opId phase₀ hp
        have hid : opId ∈ s.used := by
          cases phase₀ with
          | claimed | calling | returned | succeeded | failing | restoring =>
            exact hwf.1.1 ▸ hwf.1.2.1.drawn
          | restored => exact hwf.1.1.1 ▸ hwf.1.1.2.1.drawn
          | _ => cases he₀
        exact hf.move hid h hends
    · left
      have hwf := hb.jobs q opId _ hp
      obtain ⟨o, ho, hid, hr⟩ := Db.running_of_claim hc hqd
      exact ⟨o, ho, hid.trans hwf.1.1, hr⟩
  alone := by
    intro p q opId phase phase' hp' he hq' he'
    have hqueued : ∀ {r : ℕ} {e : Execution} {model : Text} {r' : ℕ} {phase : JobPhase},
        s.procs r = .job opId (.admitted e model) → s.db.isQueued e.op.id = true →
        s.procs r' = .job opId phase → phase.executes = true → False := by
      intro r e model r' phase hr hqd hr' he
      rw [(hb.jobs r opId _ hr).1.1, hx.not_isQueued hr' he] at hqd
      cases hqd
    rcases executing_of_move h hp' he with ⟨phase₀, hp, he₀⟩ | ⟨ha, e, model, -, hp, hqd, -⟩
    · rcases executing_of_move h hq' he' with ⟨phase₁, hq, he₁⟩ | ⟨-, e, model, -, hq, hqd, -⟩
      · exact hx.alone p q opId _ _ hp he₀ hq he₁
      · exact (hqueued hq hqd hp he₀).elim
    · rcases executing_of_move h hq' he' with ⟨phase₁, hq, he₁⟩ | ⟨ha', -⟩
      · exact (hqueued hp hqd hq he₁).elim
      · exact Option.some.inj (ha.symm.trans ha')
  spared := by
    intro p o ho q opId phase hq he
    have hrun : s.Knows o ∧ o.status = .running := by
      rcases stale_of_move h ho with hold | ⟨m, -, hsel⟩
      · exact hb.stale_known hold
      · obtain ⟨hm, hr⟩ := running_of_staleOperations hsel
        exact ⟨hb.knows o hm, hr⟩
    rcases executing_of_move h hq he with ⟨phase₀, hp, he₀⟩ | ⟨-, e, model, -, hp, hqd, -⟩
    · rcases stale_of_move h ho with hold | ⟨m, hm, hsel⟩
      · exact hx.spared p o hold q opId phase₀ hp he₀
      · exact hn m hm o hsel q opId phase₀ hp he₀
    · rintro rfl
      -- what was running is not queued any more
      obtain ⟨o₁, ho₁⟩ := Option.isSome_iff_exists.mp hqd
      obtain ⟨hm₁, hq₁⟩ := Table.scalar_some ho₁
      simp only [Bool.and_eq_true, decide_eq_true_eq] at hq₁
      have hid := hq₁.1.trans (hb.jobs q _ _ hp).1.1
      obtain rfl := (hrun.1.became o₁ hm₁ hid).queued hq₁.2
      rw [hrun.2] at hq₁
      cases hq₁.2

/-- **A job is alone with the operation it executes**, in every run in which none is declared
stale while a job executes it. -/
theorem executing {P : Sys → Action → Prop} (hP : ∀ s a, P s a → s.NoStale a)
    (hs : Reach (system cfg) P s) : s.Executing :=
  hs.invariant (fun _ => Executing.of_initial) fun s a _ hr hx hp h =>
    hx.move (base hr) (hP s a hp) (move_of_step h)

end Sys

/-! ## A small production

One member takes a task from its draft to a first draft: an analysis, a round of suggestions and
the draft, each executed by a job of its own. -/

namespace Sys.Sample

/-- A suggestion about the analysis as a whole. -/
def suggestion (c : Char) : Suggestion where
  suggestionId := ⟨[c], by simp⟩
  priority := .primary
  title := ⟨[c], by simp⟩
  analysisIssueIds := ⟨["analysis".toList], by simp⟩
  problem := ⟨"p".toList, by decide⟩
  direction := ⟨"d".toList, by decide⟩
  rationale := ⟨"r".toList, by decide⟩
  impactScope := ⟨"i".toList, by decide⟩
  example_ := ⟨"e".toList, by decide⟩

/-- Five suggestions, one for each letter. -/
def set : SuggestionSet where
  suggestions := "abcde".toList.map suggestion
  valid := by decide

/-- A deployment whose model answers every round with the five suggestions. -/
def writer : Config := { cfg with parseSuggestionSet := fun _ => some set }

/-- A request that takes a row lock, served at once. -/
def serve (p n : ℕ) (r : Request) : List Action :=
  [.request p 1 r, .lock p, .commit p (ids n)]

/-- A job up to its claim: `queries` is the number of queries its operation makes. -/
def claim (p opId n queries : ℕ) : List Action :=
  .execute p opId :: List.replicate (4 + queries) (.job p (.go (ids n))) ++
    [.job p (.acquire (10 * n + 8) true), .job p (.go (ids n)), .job p (.go (ids n)),
      .job p (.context .accepted), .job p (.go (ids n))]

/-- The rest of a job, with an answer of the model. -/
def produce (p n : ℕ) (answer : Text) : List Action :=
  [.job p (.go (ids n)), .job p (.answer (.ok ⟨answer, none⟩)), .job p (.go (ids n)),
    .job p (.go (ids (n + 1))), .job p (.go (ids (n + 1)))]

/-- A job that stores a result. -/
def run (p opId n queries : ℕ) (answer : Text) : List Action :=
  claim p opId n queries ++ produce p (n + 1) answer

/-- The decisions over the five suggestions, the first selected. -/
def decisions (first : Uuid) : SuggestionDecisions :=
  ⟨[⟨first, true, none⟩, ⟨first + 1, false, none⟩, ⟨first + 2, false, none⟩,
    ⟨first + 3, false, none⟩, ⟨first + 4, false, none⟩], by simp, by simp⟩

/-- Task 10 with its analysis, operation 20: the analysis is 40. -/
def analysed : List Action :=
  [.request 0 1 (.createTask create), .commit 0 (ids 1)] ++
    serve 1 2 (.submit 10 .analysis none none) ++ run 2 20 3 1 "a".toList

/-- The suggestions of analysis 40, operation 50: suggestions 70 to 74. -/
def suggested : List Action :=
  analysed ++ serve 3 5 (.submit 10 (.suggestions ⟨40, ⟨[], by decide⟩, noText _⟩) none
    none) ++ run 4 50 6 3 []

/-- The first draft, operation 80: the version is 100. -/
def drafted : List Action :=
  suggested ++ serve 5 8 (.submit 10 (.firstDraft ⟨40, decisions 70, noText _⟩) none
    none) ++ run 6 80 9 3 "abc".toList

/-- No operation is stale where a step selects them. -/
def noneStale (s : Sys) (a : Action) : Bool :=
  (s.selects a).all fun m => (s.db.staleOperations m s.now).isEmpty

theorem noStale_of_noneStale (s : Sys) (a : Action) (h : noneStale s a = true) :
    s.NoStale a := by
  intro m hm o ho
  rw [noneStale, Option.all_eq_true] at h
  rw [List.isEmpty_iff.mp (h m hm)] at ho
  cases ho

/-- A run under the check is a run in which no operation is declared stale. -/
theorem reach_of_runIf {s : Sys} {l : List Action}
    (h : (system writer).runIf noneStale start l = some s) : Reach (system writer) NoStale s :=
  (Reach.init initial_start).append (steps_of_runIf noStale_of_noneStale h)

set_option maxRecDepth 16000 in
theorem run_written :
    ((system writer).runIf noneStale start drafted).any (fun s => 80 ∈ s.stored) = true := by
  decide

end Sys.Sample

/-- A first draft is written in a run in which every job is alone with its operation. -/
theorem Sys.executing_drafted :
    ∃ s, Reach (system Sample.writer) NoStale s ∧ s.Executing ∧ 80 ∈ s.stored := by
  obtain ⟨s, hrun, hstored⟩ := (Option.any_eq_true ..).mp Sample.run_written
  have hs := Sample.reach_of_runIf hrun
  exact ⟨s, hs, executing (fun _ _ h => h) hs, of_decide_eq_true hstored⟩

end DouyinCaption

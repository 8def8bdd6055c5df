import DouyinCaption.RowLocks
import DouyinCaption.Memory
import DouyinCaption.Openings

/-!
# What holds of every reachable state

The invariant that needs no assumption on the environment (`Base`): the unique indexes hold,
a process that holds a row lock finds its task unoccupied and unchanged, and an operation
held in memory is an earlier state of the stored one.
-/

namespace DouyinCaption

open Tables Runs

namespace Sys

variable {cfg : Config} {s s' : Sys} {a : Action}

/-! ## The invariant -/

theorem hasActive_eq_false {db : Db} {t : Uuid} :
    db.hasActive t = false ↔ ∀ o ∈ db.operations, o.taskId = t → o.isActive = false := by
  rw [Db.hasActive, Option.isSome_eq_false_iff, Option.isNone_iff_eq_none, Table.scalar_none]
  simp

/-- What holds of every reachable state. -/
structure Base (s : Sys) : Prop where
  /-- the unique indexes -/
  consistent : s.db.Consistent
  /-- the identifiers of the operations are drawn -/
  drawn : ∀ o ∈ s.db.operations, o.id ∈ s.used
  /-- the states an operation moves its task between fit its kind -/
  valid : ∀ o ∈ s.db.operations, o.Valid
  /-- the task of an operation exists -/
  placed : ∀ o ∈ s.db.operations, ∃ t, s.db.tasks.get o.taskId = some t
  /-- a job up to its claim holds its row lock -/
  jobsLocked : s.JobsLocked
  /-- and the row is the one it has refreshed -/
  refreshed : ∀ p opId phase e, s.procs p = .job opId phase →
    (phase = .locked e ∨ ∃ model, phase = .admitted e model) →
      s.db.tasks.get e.task.id = some e.task
  /-- the task of a request exists -/
  task : ∀ p m r pd t, s.procs p = .opened m r pd → pd.task = some t →
    ∃ t', s.db.tasks.get t.id = some t'
  /-- a request under its row lock holds it, and no operation is active -/
  locked : ∀ p m r pd t, s.procs p = .locked m r pd → pd.task = some t →
    s.rowLocks t.id = some p ∧ s.db.hasActive t.id = false
  /-- it has a task -/
  lockedTask : ∀ p m r pd, s.procs p = .locked m r pd → ∃ t, pd.task = some t
  /-- the task of a submission under the lock is the stored one -/
  submit : ∀ p m r sub, s.procs p = .locked m r (.submit sub) →
    s.db.tasks.get sub.task.id = some sub.task
  /-- the rows a job holds in memory belong together -/
  jobs : ∀ p opId phase, s.procs p = .job opId phase → phase.Wf opId s.Knows
  /-- the rows a tick holds in memory belong together -/
  ticks : ∀ p worker phase, s.procs p = .tick worker phase → phase.Wf s.Knows
  /-- a cancellation holds the operation asked for and its task -/
  cancels : ∀ p m r op task, s.procs p = .opened m r (.cancelOperation op task) →
    s.Knows op ∧ (∀ t ∈ task, t.id = op.taskId) ∧ r = .cancelOperation op.id
  /-- nothing else answers a request to cancel -/
  cancelled : ∀ p m opId pd, s.procs p = .opened m (.cancelOperation opId) pd →
    ∃ op task, pd = .cancelOperation op task
  /-- it takes no row lock, and looks no key up again -/
  unlocked : ∀ p m opId, (∀ pd, s.procs p ≠ .locked m (.cancelOperation opId) pd) ∧
    ∀ sub, s.procs p ≠ .retrying m (.cancelOperation opId) sub

/-- **The base invariant holds initially.** -/
theorem Base.of_initial (h : Initial s) : s.Base where
  consistent := by
    refine ⟨?_, ?_, ?_, ?_, ?_⟩ <;>
      simp [h.operations, h.presets, h.analyses, h.locks]
  drawn := by simp [h.operations]
  valid := by simp [h.operations]
  placed := by simp [h.operations]
  jobsLocked := fun p opId phase t hp => by simp [h.procs] at hp
  refreshed := fun p opId phase e hp => by simp [h.procs] at hp
  task := fun p m r pd t hp => by simp [h.procs] at hp
  locked := fun p m r pd t hp => by simp [h.procs] at hp
  lockedTask := fun p m r pd hp => by simp [h.procs] at hp
  submit := fun p m r sub hp => by simp [h.procs] at hp
  jobs := fun p opId phase hp => by simp [h.procs] at hp
  ticks := fun p worker phase hp => by simp [h.procs] at hp
  cancels := fun p m r op task hp => by simp [h.procs] at hp
  cancelled := fun p m opId pd hp => by simp [h.procs] at hp
  unlocked := fun p m opId => by simp [h.procs]

/-- Every stored operation is known. -/
theorem Base.knows (hb : s.Base) : ∀ o ∈ s.db.operations, s.Knows o := fun o ho =>
  .of_mem ho (hb.drawn o ho) (hb.valid o ho)

/-! ## The invariant is kept -/

/-- The unique indexes hold after every step. -/
theorem consistent_of_move (h : Move cfg s a s') (hb : s.db.Consistent) : s'.db.Consistent := by
  cases h with
  | commit hp hids hf hw hc => exact (Db.commit_eq_some.mp hc).2
  | settle ha hp hids hn hgo htr hw hc =>
    rw [enter_db]
    exact (Db.commit_eq_some.mp hc).2
  | recover he hp hw hc hx => exact (Db.commit_eq_some.mp hc).2
  | configure => exact ⟨hb.active, hb.keys, hb.presetNames, hb.sequences, hb.lockOrders⟩
  | _ => simpa using hb

/-- A task stays, with its owner. -/
theorem task_kept (h : Move cfg s a s') {t : RewriteTask} (ht : t ∈ s.db.tasks) :
    ∃ t' ∈ s'.db.tasks, t'.id = t.id ∧ t'.ownerId = t.ownerId := by
  cases h with
  | commit hp hids hf hw hc => exact Db.tasks_kept (Db.commit_eq_some.mp hc).1 t ht
  | settle ha hp hids hn hgo htr hw hc =>
    rw [enter_db]
    exact Db.tasks_kept (Db.commit_eq_some.mp hc).1 t ht
  | recover he hp hw hc hx => exact Db.tasks_kept (Db.commit_eq_some.mp hc).1 t ht
  | _ => exact ⟨t, by simpa using ht, rfl, rfl⟩

theorem get_task_kept (h : Move cfg s a s') {i : Uuid} (ht : ∃ t, s.db.tasks.get i = some t) :
    ∃ t, s'.db.tasks.get i = some t := by
  obtain ⟨t, ht⟩ := ht
  obtain ⟨hm, hid⟩ := Table.get_eq_some.mp ht
  obtain ⟨t', hm', hid', -⟩ := task_kept h hm
  exact ⟨t', Table.get_eq_some.mpr ⟨hm', hid'.trans hid⟩⟩

/-- The operation a step adds is on the task whose row lock the step holds. -/
theorem Base.holds_of_new (hb : s.Base) {o : AiOperation} (h : NewOperation cfg s a o) :
    ∃ p, a.proc = some p ∧ s.rowLocks o.taskId = some p ∧ s.db.hasActive o.taskId = false ∧
      ∃ t, s.db.tasks.get o.taskId = some t ∧ t.state = o.initialTaskState := by
  obtain ⟨p, m, r, sub, ids, rfl, hp, -, -, rfl⟩ := h
  obtain ⟨hl, ha⟩ := hb.locked p m r _ sub.task hp rfl
  exact ⟨p, rfl, hl, ha, sub.task, hb.submit p m r sub hp, rfl⟩

/-- No operation becomes active on a task while its row lock is held by another process. -/
theorem hasActive_of_move (hb : s.Base) (h : Move cfg s a s') {q : ℕ} (hq : a.proc ≠ some q)
    {t : Uuid} (ht : s.rowLocks t = some q) (ha : s.db.hasActive t = false) :
    s'.db.hasActive t = false := by
  rw [hasActive_eq_false] at ha ⊢
  intro o' ho' he
  rcases (opsEvolve_of_move h).origin o' ho' with ⟨o, ho, hbec⟩ | hnew
  · have hinactive := ha o ho (hbec.same.taskId ▸ he)
    by_contra hact
    rw [hbec.active (by simpa using hact)] at hinactive
    cases hinactive
  · obtain ⟨p, hp, hl, -⟩ := hb.holds_of_new hnew
    rw [he, ht] at hl
    exact absurd (hp.trans hl.symm) hq

theorem refresh_task {db : Db} {pd : Pending} {t : RewriteTask}
    (h : (pd.refresh db).task = some t) : ∃ t₀, pd.task = some t₀ ∧ t.id = t₀.id := by
  cases pd with
  | submit sub =>
    obtain rfl := Option.some.inj h
    refine ⟨sub.task, rfl, ?_⟩
    rcases hg : db.tasks.get sub.task.id with _ | t'
    · rfl
    · exact (Table.get_eq_some.mp hg).2
  | _ => exact ⟨t, h, rfl⟩

/-- The task of a job that has just refreshed it, or that goes on to its claim, is the stored
one. -/
theorem get_of_refreshed {phase phase' : JobPhase} {opId : Uuid} {e : Execution}
    (hprev : ∀ e, phase = .locked e → s.db.tasks.get e.task.id = some e.task)
    (h : JobStep cfg s opId phase phase')
    (he : phase' = .locked e ∨ ∃ model, phase' = .admitted e model) :
    s.db.tasks.get e.task.id = some e.task := by
  rcases he with rfl | ⟨model, rfl⟩
  · obtain ⟨task₀, -, hget⟩ := from_of_step h
    exact Table.get_of_mem (Table.get_eq_some.mp hget).1
  · exact hprev e (from_of_step h).1

/-- **The base invariant is kept by every step.** -/
theorem Base.move (hb : s.Base) (h : Move cfg s a s') : s'.Base where
  consistent := consistent_of_move h hb.consistent
  drawn := by
    intro o' ho'
    have hold : ∀ o ∈ s.db.operations, o.id ∈ s'.used := fun o ho =>
      used_of_move h _ (hb.drawn o ho)
    have hev := (opsEvolve_of_move h).origin o' ho'
    cases h with
    | commit =>
      rcases hev with ⟨o, ho, hbec⟩ | ⟨p, m, r, sub, ids, ha, -, ⟨hlen, -⟩, -, rfl⟩
      · exact hbec.same.id ▸ hold o ho
      · obtain ⟨rfl, rfl⟩ := Action.commit.inj ha
        obtain ⟨i, rest, rfl⟩ := List.exists_cons_of_length_eq_add_one hlen
        exact List.mem_cons_self
    | reject | refuse => exact hold o' ho'
    | _ =>
      rcases hev with ⟨o, ho, hbec⟩ | ⟨p, m, r, sub, ids, ha, -⟩
      · exact hbec.same.id ▸ hold o ho
      · cases ha
  valid := by
    intro o' ho'
    rcases (opsEvolve_of_move h).origin o' ho' with ⟨o, ho, hbec⟩ | hnew
    · exact hbec.same.valid (hb.valid o ho)
    · exact hnew.valid
  placed := by
    intro o' ho'
    refine get_task_kept h ?_
    rcases (opsEvolve_of_move h).origin o' ho' with ⟨o, ho, hbec⟩ | hnew
    · exact hbec.same.taskId ▸ hb.placed o ho
    · obtain ⟨-, -, -, -, t, ht, -⟩ := hb.holds_of_new hnew
      exact ⟨t, ht⟩
  jobsLocked := jobsLocked_of_move h hb.jobsLocked
  refreshed := by
    intro q opId phase e hq he
    rcases job_of_move h hq with ⟨hp, ha⟩ | ⟨rfl, -⟩ | ⟨ev, phase₀, rfl, hp, hstep⟩
    · have hl : s.rowLocks e.task.id = some q := by
        rcases he with rfl | ⟨model, rfl⟩ <;> exact hb.jobsLocked q opId _ _ hp rfl
      exact get_task_of_move h ha hl (hb.refreshed q opId phase e hp he)
    · rcases he with he | ⟨model, he⟩ <;> cases he
    · have hget := get_of_refreshed
        (fun e he => hb.refreshed q opId phase₀ e hp (.inl he)) hstep he
      have hdb : s'.db = s.db := by
        cases h with
        | settle ha hp' hids hn hgo htr hw hc =>
          rw [enter_procs, Function.update_self] at hq
          obtain ⟨rfl, rfl⟩ := Proc.job.inj hq
          have hnone := JobPhase.rowLock_of_transaction htr hn
          rcases he with rfl | ⟨model, rfl⟩ <;> cases hnone
        | _ => simp
      rw [hdb]
      exact hget
  task := by
    intro q m r pd t hq ht
    rcases opened_of_move h hq with ⟨hp, -⟩ | ⟨-, ho, hdb⟩
    · exact get_task_kept h (hb.task q m r pd t hp ht)
    · rw [hdb]
      exact ⟨t, Table.get_of_mem ((loadedBy_of_opening ho).task t ht).1⟩
  locked := by
    intro q m r pd t hq ht
    rcases locked_of_move h hq with ⟨hp, ha⟩ | ⟨pd₀, t₀, -, hp, ht₀, -, hact, rfl, hs⟩
    · obtain ⟨hl, hact⟩ := hb.locked q m r pd t hp ht
      exact ⟨rowLocks_of_move h ha hb.jobsLocked hl, hasActive_of_move hb h ha hl hact⟩
    · obtain ⟨t₁, ht₁, hid⟩ := refresh_task ht
      obtain rfl := Option.some.inj (ht₀.symm.trans ht₁)
      rw [hs, hid]
      exact ⟨by simp, hact⟩
  lockedTask := by
    intro q m r pd hq
    rcases locked_of_move h hq with ⟨hp, -⟩ | ⟨pd₀, t₀, -, -, ht₀, -, -, rfl, -⟩
    · exact hb.lockedTask q m r pd hp
    · cases pd₀ with
      | submit sub => exact ⟨_, rfl⟩
      | _ => exact ⟨t₀, ht₀⟩
  submit := by
    intro q m r sub hq
    rcases locked_of_move h hq with ⟨hp, ha⟩ | ⟨pd₀, t₀, -, hp, ht₀, -, -, hpd, hs⟩
    · exact get_task_of_move h ha (hb.locked q m r _ _ hp rfl).1 (hb.submit q m r sub hp)
    · rw [hs, lockRow_db, setProc_db]
      cases pd₀ with
      | submit sub₀ =>
        obtain rfl := Pending.submit.inj hpd
        obtain ⟨t', ht'⟩ := hb.task q m r _ _ hp rfl
        have hid : t'.id = sub₀.task.id := (Table.get_eq_some.mp ht').2
        simp only [ht', Option.getD_some, hid]
      | _ => cases hpd
  jobs := by
    intro q opId phase hq
    rcases job_of_move h hq with ⟨hp, -⟩ | ⟨rfl, -⟩ | ⟨ev, phase₀, -, hp, hstep⟩
    · exact (hb.jobs q opId phase hp).mono fun o hk => hk.move h
    · trivial
    · refine JobPhase.Wf.mono (fun o (hk : s.Knows o) => hk.move h) ?_
      exact (hb.jobs q opId phase₀ hp).step hb.knows (fun o hk o' ho' he =>
        (hk.became o' ho' he).same) hstep
  ticks := by
    intro q worker phase hq
    refine TickPhase.Wf.mono (fun o (hk : s.Knows o) => hk.move h) ?_
    rcases old_or_turn h hq fun _ => by simp with ⟨hp, -⟩ | ht
    · exact hb.ticks q worker phase hp
    · generalize hx : s.procs q = x at ht
      cases ht with
      | startTick => trivial
      | select =>
        refine ⟨fun o ho => ?_, fun f hf => ?_⟩
        · obtain ⟨hm, hr⟩ := running_of_staleOperations ho
          exact ⟨hb.knows o hm, hr⟩
        · cases hf
      | load =>
        obtain ⟨htodo, hfound⟩ := hb.ticks q _ _ hx
        refine ⟨fun o ho => htodo o (List.mem_cons_of_mem _ ho), fun f hf => ?_⟩
        rcases List.mem_append.mp hf with hf | hf
        · exact hfound f hf
        · obtain rfl := List.mem_singleton.mp hf
          obtain ⟨hk, hr⟩ := htodo _ List.mem_cons_self
          exact ⟨hk, hr, fun t ht => (Table.get_eq_some.mp ht).2⟩
      | tick h =>
        cases phase with
        | recovering => exact absurd rfl (h _ _ _)
        | _ => trivial
  cancels := by
    intro q m r op task hq
    rcases opened_of_move h hq with ⟨hp, -⟩ | ⟨-, ho, hdb⟩
    · obtain ⟨hk, htask⟩ := hb.cancels q m r op task hp
      exact ⟨hk.move h, htask⟩
    · obtain ⟨hm, -, rfl, rfl⟩ := (loadedBy_of_opening ho).cancel op task rfl
      exact ⟨(hb.knows op hm).move h, fun t ht => (Table.get_eq_some.mp ht).2, rfl⟩
  cancelled := by
    intro q m opId pd hq
    rcases opened_of_move h hq with ⟨hp, -⟩ | ⟨-, ho, -⟩
    · exact hb.cancelled q m opId pd hp
    · exact (loadedBy_of_opening ho).cancelled opId rfl
  unlocked := by
    intro q m opId
    constructor
    · intro pd hq
      rcases locked_of_move h hq with ⟨hp, -⟩ | ⟨pd₀, t₀, -, hp, ht₀, -⟩
      · exact (hb.unlocked q m opId).1 pd hp
      · obtain ⟨op, task, rfl⟩ := hb.cancelled q m opId pd₀ hp
        cases ht₀
    · intro sub hq
      rcases old_or_turn h hq fun _ => by simp with ⟨hp, -⟩ | ht
      · exact (hb.unlocked q m opId).2 sub hp
      · generalize hx : s.procs q = x at ht
        cases ht with
        | retrying hx' => exact (hb.unlocked q m opId).1 _ (hx.trans hx')

/-- A submission that has committed has moved its task from the operation's initial state to
its running state. -/
theorem Base.submitted (hb : s.Base) (h : Move cfg s a s') {o : AiOperation}
    (hn : NewOperation cfg s a o) (ho : o ∈ s'.db.operations) :
    ∃ t, s.db.tasks.get o.taskId = some t ∧ t.state = o.initialTaskState ∧
      s'.db.tasks.get o.taskId =
        some { t with state := o.runningTaskState, updatedAt := s.now } := by
  have hfresh := hn.fresh
  obtain ⟨p, m, r, sub, ids, rfl, hp, -, hstate, rfl⟩ := hn
  have hnot : sub.operation cfg ⟨s.now, ids⟩ ∉ s.db.operations := fun hm =>
    hfresh (hb.drawn _ hm)
  have htask := hb.submit p m r sub hp
  refine ⟨sub.task, htask, rfl, ?_⟩
  cases h with
  | commit hp' hids hf hw hc =>
    rename_i m' r' pd out db
    have hlocked : Proc.locked m' r' pd = .locked m r (.submit sub) := by
      rcases hp' with hp' | ⟨hp', -⟩
      · exact hp'.symm.trans hp
      · cases hp'.symm.trans hp
    obtain ⟨-, -, rfl⟩ := Proc.locked.inj hlocked
    have hwrites := writes_of_finish hf
    generalize out.writes = ws at hwrites hc
    cases hwrites with
    | presets h _ => cases h
    | addTask h => cases h
    | submit _ hsnap =>
      have hsnap' := hsnap.imp_right fun ⟨a, ds, _, e⟩ =>
        (⟨a, ds, e⟩ : ∃ a ds, _ = [Write.applySnapshot sub.task.id a ds])
      obtain ⟨-, -, _, rfl⟩ := commit_of_submit hsnap' hc
      have hne : runningState sub.kind ≠ sub.task.state := by
        intro he
        have hnot := (initial_of_assertTransition hstate).1
        rw [← he, isRunning_runningState] at hnot
        cases hnot
      refine (Table.get_update_of_get (fun _ => TaskChange.apply_id ..) htask).trans ?_
      rw [if_pos (decide_eq_true rfl), assign, if_neg hne]
      rfl
  | reject | refuse => exact absurd ho hnot

/-- **The base invariant holds of every reachable state**, whatever the environment does. -/
theorem base {P : Sys → Action → Prop} (hs : Reach (system cfg) P s) : s.Base :=
  hs.invariant (fun _ => Base.of_initial) fun _ _ _ _ hb _ h => hb.move (move_of_step h)

end Sys

end DouyinCaption

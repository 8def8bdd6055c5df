import DouyinCaption.Artefacts
import DouyinCaption.Invariants

/-!
# The states of tasks

The state of a task is written from many places, most of which take it from memory: a request
archives, restores or submits the task it has loaded, a job or a recovery puts its task back into
the state its operation began in. So a fact about a task in a state (that the rows behind the
state are there) is followed through all these places at once: it holds `Everywhere`, of what is
stored and of what is held in memory, and stays so if it holds of the states that are written
afresh (`Grants`).
-/

namespace DouyinCaption

open Tables Runs

/-! ## Statements -/

/-- The states a statement gives tasks are in the relation. -/
def Write.Sets (Q : Uuid → TaskState → Prop) : Write → Prop
  | .addTask t => Q t.id t.state ∧ ∀ st ∈ t.archivedFromState, Q t.id st
  | .setTask id change _ =>
      (∀ st ∈ change.state, Q id st) ∧ ∀ x ∈ change.archivedFromState, ∀ st ∈ x, Q id st
  | .resetTask id _ restored _ => Q id restored
  | _ => True

/-- The state of a task and the one it was archived from are in the relation. -/
def RewriteTask.Stands (Q : Uuid → TaskState → Prop) (t : RewriteTask) : Prop :=
  Q t.id t.state ∧ ∀ st ∈ t.archivedFromState, Q t.id st

/-- What a state promises may be weakened. -/
theorem RewriteTask.Stands.mono {Q Q' : Uuid → TaskState → Prop} (h : ∀ t st, Q t st → Q' t st)
    {t : RewriteTask} (ht : t.Stands Q) : t.Stands Q' :=
  ⟨h _ _ ht.1, fun st hst => h _ _ (ht.2 st hst)⟩

section Statements

variable {Q : Uuid → TaskState → Prop}

/-- A change of the state or of the archive record needs what it promises. -/
theorem stands_of_setTask {change : TaskChange} {now : ℕ} {t : RewriteTask}
    (ht : t.Stands Q) (hw : (Write.setTask t.id change now).Sets Q) :
    (change.apply now t).Stands Q := by
  rw [RewriteTask.Stands, TaskChange.apply_id, TaskChange.apply_state,
    TaskChange.apply_archivedFromState]
  constructor
  · rcases hs : change.state with _ | st
    · exact ht.1
    · exact hw.1 st hs
  · rcases ha : change.archivedFromState with _ | x
    · exact ht.2
    · exact hw.2 x ha

/-- A statement keeps what the states promise where it needs no more than it finds. -/
theorem Write.stands_of_apply {w : Write} {db db' : Db} (h : w.apply db = some db')
    (ht : ∀ t ∈ db.tasks, t.Stands Q) (hw : w.Sets Q) : ∀ t ∈ db'.tasks, t.Stands Q := by
  cases w with
  | addTask t =>
    obtain rfl := Option.some.inj h
    intro t' ht'
    rcases Table.mem_of_mem_insert ht' with ht' | rfl
    · exact ht t' ht'
    · exact hw
  | setTask id change now =>
    obtain ⟨_, -, rfl⟩ := Option.map_eq_some_iff.mp h
    intro t' ht'
    dsimp only at ht'
    obtain ⟨t, hm, rfl⟩ := Table.mem_update.mp ht'
    split
    · rename_i hid
      obtain rfl := of_decide_eq_true hid
      exact stands_of_setTask (ht t hm) hw
    · exact ht t hm
  | resetTask id expected restored now =>
    obtain rfl := Option.some.inj h
    intro t' ht'
    dsimp only at ht'
    obtain ⟨t, hm, rfl⟩ := Table.mem_update.mp ht'
    split
    · rename_i hid
      simp only [Bool.and_eq_true, decide_eq_true_eq] at hid
      obtain ⟨rfl, -⟩ := hid
      exact ⟨hw, (ht t hm).2⟩
    · exact ht t hm
  | setAnalysis | decide | setFinal | setOperation | setPreset =>
    obtain ⟨_, -, rfl⟩ := Option.map_eq_some_iff.mp h
    exact ht
  | _ =>
    obtain rfl := Option.some.inj h
    exact ht

/-- By induction on the list of statements. -/
theorem Db.stands_of_foldlM {ws : List Write} : ∀ {db db' : Db},
    ws.foldlM Write.apply db = some db' → (∀ t ∈ db.tasks, t.Stands Q) →
      (∀ w ∈ ws, w.Sets Q) → ∀ t ∈ db'.tasks, t.Stands Q := by
  induction ws with
  | nil =>
    intro db db' h ht _
    obtain rfl := Option.some.inj h
    exact ht
  | cons w ws ih =>
    intro db db' h ht hw
    rw [List.foldlM_cons] at h
    obtain ⟨db₁, h₁, h₂⟩ := Option.bind_eq_some_iff.mp h
    exact ih h₂ (Write.stands_of_apply h₁ ht (hw w List.mem_cons_self))
      fun w' hw' => hw w' (List.mem_cons_of_mem _ hw')

/-- An assignment writes the new value or nothing. -/
theorem of_assign {α : Type} [DecidableEq α] {R : α → Prop} {loaded new : α} (h : R new) :
    ∀ x ∈ assign loaded new, R x := by
  intro x hx
  change assign loaded new = some x at hx
  rw [assign] at hx
  split at hx
  · cases hx
  · exact Option.some.inj hx ▸ h

/-- The flush of a state. -/
theorem sets_of_state {id : Uuid} {change : TaskChange} {loaded st : TaskState} {now : ℕ}
    (hstate : change.state = assign loaded st) (hfrom : change.archivedFromState = none)
    (h : Q id st) : (Write.setTask id change now).Sets Q := by
  refine ⟨fun st' hst => ?_, fun x hx => ?_⟩
  · rw [hstate] at hst
    exact of_assign h st' hst
  · rw [hfrom] at hx
    cases hx

/-- What `persist` writes are no tasks. -/
theorem Stores.sets {db : Db} {taskId : Uuid} {st : Stamp} {result : ServiceResult}
    {prep : Prepared} {ws : List Write} (h : Stores db taskId st result prep ws) :
    ∀ w ∈ ws, w.Sets Q := by
  cases h <;> simp [Write.Sets]

/-- A recovery puts the tasks it has found into the states their operations began in. -/
theorem sets_of_recover {known : AiOperation → Prop}
    (hk : ∀ o, known o → Q o.taskId o.initialTaskState) {now : ℕ}
    {found : List (AiOperation × Option RewriteTask)} (hf : ∀ f ∈ found, FoundWf known f) :
    ∀ w ∈ recoverWrites now found, w.Sets Q := by
  refine forall_recoverWrites (fun f hm t ht => ?_) fun f hm => ?_
  · obtain ⟨hknown, -, htask⟩ := hf f hm
    refine sets_of_state rfl rfl ?_
    have hid : t.id = f.1.taskId := htask t ht
    exact hid ▸ hk f.1 hknown
  · trivial

end Statements

/-- What archiving or restoring a task writes. -/
theorem sets_of_storeSnapshot {Q : Uuid → TaskState → Prop} {st : Stamp} {task : RewriteTask}
    {snapshot : TaskSnapshot} (hstate : Q task.id snapshot.state)
    (hfrom : ∀ x ∈ snapshot.archivedFromState, Q task.id x) :
    ∀ w ∈ (storeSnapshot st task snapshot).writes, w.Sets Q := by
  intro w hw
  obtain rfl := List.mem_singleton.mp hw
  refine ⟨of_assign hstate, of_assign ?_⟩
  exact hfrom

namespace Sys

variable {cfg : Config} {s s' : Sys} {a : Action}

/-! ## Operations in memory -/

/-- What is stored and what is held in memory of operations has the property. -/
structure Recalls (s : Sys) (known : AiOperation → Prop) : Prop where
  stored : ∀ o ∈ s.db.operations, known o
  jobs : ∀ p opId phase, s.procs p = .job opId phase → phase.Wf opId known
  ticks : ∀ p worker phase, s.procs p = .tick worker phase → phase.Wf known
  cancels : ∀ p m r op task, s.procs p = .opened m r (.cancelOperation op task) →
    known op ∧ ∀ t ∈ task, t.id = op.taskId

/-- A property of the requests of operations that new operations have is kept. -/
theorem Recalls.move {known known' : AiOperation → Prop} (hh : s.Recalls known)
    (h : Move cfg s a s') (hknows : ∀ o, known o → s.Knows o)
    (hmono : ∀ o, known o → known' o) (hsame : ∀ o o', known o → o.SameRequest o' →
      o' ∈ s'.db.operations → known' o')
    (hnew : ∀ o ∈ s'.db.operations, NewOperation cfg s a o → known' o) : s'.Recalls known' where
  stored := by
    intro o' ho'
    rcases (opsEvolve_of_move h).origin o' ho' with ⟨o, ho, hbec⟩ | hn
    · exact hsame o o' (hh.stored o ho) hbec.same ho'
    · exact hnew o' ho' hn
  jobs := by
    intro q opId phase hq
    rcases job_of_move h hq with ⟨hp, -⟩ | ⟨rfl, -⟩ | ⟨ev, phase₀, -, hp, hstep⟩
    · exact (hh.jobs q opId phase hp).mono hmono
    · trivial
    · refine JobPhase.Wf.mono hmono ?_
      exact (hh.jobs q opId phase₀ hp).step hh.stored (fun o hk o' ho' he =>
        ((hknows o hk).became o' ho' he).same) hstep
  ticks := by
    intro q worker phase hq
    refine TickPhase.Wf.mono hmono ?_
    rcases old_or_turn h hq fun _ => by simp with ⟨hp, -⟩ | ht
    · exact hh.ticks q worker phase hp
    · generalize hx : s.procs q = x at ht
      cases ht with
      | startTick => trivial
      | select =>
        refine ⟨fun o ho => ?_, fun f hf => ?_⟩
        · obtain ⟨hm, hr⟩ := running_of_staleOperations ho
          exact ⟨hh.stored o hm, hr⟩
        · cases hf
      | load =>
        obtain ⟨htodo, hfound⟩ := hh.ticks q _ _ hx
        refine ⟨fun o ho => htodo o (List.mem_cons_of_mem _ ho), fun f hf => ?_⟩
        rcases List.mem_append.mp hf with hf | hf
        · exact hfound f hf
        · obtain rfl := List.mem_singleton.mp hf
          obtain ⟨hk, hr⟩ := htodo _ List.mem_cons_self
          exact ⟨hk, hr, fun t ht => (Table.get_eq_some.mp ht).2⟩
      | tick h =>
        cases phase with
        | recovering => exact absurd rfl (h _ _ _)
        | _ => trivial
  cancels := by
    intro q m r op task hq
    rcases opened_of_move h hq with ⟨hp, -⟩ | ⟨-, ho, hdb⟩
    · obtain ⟨hk, htask⟩ := hh.cancels q m r op task hp
      exact ⟨hmono op hk, htask⟩
    · obtain ⟨hm, -, rfl, -⟩ := (loadedBy_of_opening ho).cancel op task rfl
      exact ⟨hmono op (hh.stored op hm), fun t ht => (Table.get_eq_some.mp ht).2⟩

/-! ## A relation between tasks and states -/

/-- The relation holds of every task in every state that is stored or held in memory. -/
structure Everywhere (s : Sys) (Q : Uuid → TaskState → Prop) : Prop where
  tasks : ∀ t ∈ s.db.tasks, t.Stands Q
  held : s.Recalls fun o => s.Knows o ∧ Q o.taskId o.initialTaskState
  loaded : ∀ p m r pd t, (s.procs p = .opened m r pd ∨ s.procs p = .locked m r pd) →
    pd.task = some t → t.Stands Q

/-- A step that commits a request. -/
structure CommitsRequest (cfg : Config) (s : Sys) (a : Action) (s' : Sys) (pd : Pending)
    (out : Outcome) : Prop where
  proc : ∃ p ids m r, a = .commit p ids ∧
    (s.procs p = .locked m r pd ∨ s.procs p = .opened m r pd ∧ pd.task = none) ∧
    s.Draws ids ∧ pd.finish cfg s.db m ⟨s.now, ids⟩ = .ok out
  commit : s.db.commit out.writes = some s'.db

/-- The relation stays true in a step, and holds of the states the step writes afresh. -/
structure Grants (cfg : Config) (s : Sys) (a : Action) (s' : Sys)
    (Q Q' : Uuid → TaskState → Prop) : Prop where
  kept : ∀ t st, Q t st → Q' t st
  /-- the states that nothing is said of -/
  passing : ∀ t st, st.isRunning = true ∨ st = .draft ∨ st = .archived → Q' t st
  edited : ∀ parent task payload out,
    CommitsRequest cfg s a s' (.manualEdit parent task payload) out → Q' task.id .editing
  finalized : ∀ version task out,
    CommitsRequest cfg s a s' (.finalizeVersion version task) out → Q' task.id .finalized
  settled : ∀ opId e result ids stored, s.StoresResult a s' opId e result ids stored →
    Q' e.task.id result.state.succeeded

variable {Q Q' : Uuid → TaskState → Prop}

/-- A request writes states it has loaded, or grants. -/
theorem Everywhere.sets_of_request (he : s.Everywhere Q) (hb : s.Base)
    (hg : Grants cfg s a s' Q Q') {p : ℕ} {ids : List Uuid} {m : Uuid} {r : Request}
    {pd : Pending} {out : Outcome}
    (ha : a = .commit p ids)
    (hp : s.procs p = .locked m r pd ∨ s.procs p = .opened m r pd ∧ pd.task = none)
    (hids : s.Draws ids) (hf : pd.finish cfg s.db m ⟨s.now, ids⟩ = .ok out)
    (hc : s.db.commit out.writes = some s'.db) : ∀ w ∈ out.writes, w.Sets Q' := by
  have hcommits : CommitsRequest cfg s a s' pd out := ⟨⟨p, ids, m, r, ha, hp, hids, hf⟩, hc⟩
  have htask : ∀ t, pd.task = some t → t.Stands Q' := fun t ht =>
    (he.loaded p m r pd t (hp.symm.imp_left And.left) ht).mono hg.kept
  have hrunning : ∀ t kind, Q' t (runningState kind) := fun t kind =>
    hg.passing _ _ (.inl (isRunning_runningState kind))
  have hwrites := writes_of_finish hf
  generalize out.writes = ws at hwrites hc
  cases hwrites with
  | presets _ hws =>
    intro w hw
    have hon := hws w hw
    revert hon
    cases w <;> simp [Write.onPresets, Write.Sets]
  | addTask _ _ hstate harchived =>
    rename_i t
    intro w hw
    obtain rfl := List.mem_singleton.mp hw
    refine ⟨hg.passing _ _ (.inr (.inl hstate)), fun st hst => ?_⟩
    rw [harchived] at hst
    cases hst
  | updateTask _ hstate harchived =>
    intro w hw
    obtain rfl := List.mem_singleton.mp hw
    constructor
    · rw [hstate]
      exact fun st hst => absurd hst (Option.not_mem_none st)
    · rw [harchived]
      exact fun x hx => absurd hx (Option.not_mem_none x)
  | archiveTask =>
    rename_i task
    obtain ⟨hstate, hfrom⟩ := htask task rfl
    refine sets_of_storeSnapshot ?_ ?_
    · rw [TaskSnapshot.archive_state]
      exact hg.passing _ _ (.inr (.inr rfl))
    · rw [TaskSnapshot.archive]
      split
      · exact hfrom
      · exact fun x hx => Option.mem_some.mp hx ▸ hstate
  | restoreTask hrestore =>
    rename_i task snapshot
    obtain ⟨hstate, hfrom⟩ := htask task rfl
    rw [TaskSnapshot.restore] at hrestore
    split at hrestore
    · cases hrestore
    · obtain ⟨previous, hprevious, rfl⟩ := Option.map_eq_some_iff.mp hrestore
      exact sets_of_storeSnapshot (hfrom previous hprevious)
        fun x hx => absurd hx (Option.not_mem_none x)
  | manualEdit =>
    rename_i v _ _ _ _ _ _
    intro w hw
    rcases List.mem_pair.mp hw with rfl | rfl
    · trivial
    · exact sets_of_state rfl rfl (hg.edited _ _ _ _ hcommits)
  | finalizeVersion =>
    rename_i version task _
    intro w hw
    simp only [List.mem_cons, List.not_mem_nil, or_false] at hw
    rcases hw with rfl | rfl | rfl
    · trivial
    · trivial
    · exact sets_of_state rfl rfl (hg.finalized _ _ _ hcommits)
  | submit _ hsnapshot =>
    intro w hw
    rcases List.mem_append.mp hw with hw | hw
    · rcases hsnapshot with rfl | ⟨_, _, -, rfl⟩
      · cases hw
      · obtain rfl := List.mem_singleton.mp hw
        trivial
    · rcases List.mem_pair.mp hw with rfl | rfl
      · trivial
      · exact sets_of_state rfl rfl (hrunning _ _)
  | cancelOperation _ hreset =>
    rename_i op task reset _
    have hopened : s.procs p = .opened m r (.cancelOperation op task) := by
      refine (hp.resolve_left fun hl => ?_).1
      obtain ⟨t, ht⟩ := hb.lockedTask p m r _ hl
      cases ht
    obtain ⟨hknown, hid⟩ := he.held.cancels p m r op task hopened
    intro w hw
    rcases List.mem_cons.mp hw with rfl | hw
    · trivial
    · rw [hreset] at hw
      split at hw
      · rename_i t
        split at hw
        · obtain rfl := List.mem_singleton.mp hw
          exact sets_of_state rfl rfl ((hid t rfl) ▸ hg.kept _ _ hknown.2)
        · cases hw
      · cases hw
  | _ => simp [Write.Sets]

/-- A job writes the state its operation began in, one it passes through, or the state of its
result. -/
theorem Everywhere.sets_of_job (he : s.Everywhere Q) (hg : Grants cfg s a s' Q Q') {p : ℕ}
    {ids : List Uuid} {opId : Uuid} {phase : JobPhase} {ws : List Write} (ha : a.proc = some p)
    (hp : s.procs p = .job opId phase) (hids : s.Draws ids) (hused : s'.used = ids ++ s.used)
    (hws : JobWrites s.db ⟨s.now, ids⟩ opId phase ws)
    (hc : ws.foldlM Write.apply s.db = some s'.db) : ∀ w ∈ ws, w.Sets Q' := by
  have hwf := he.held.jobs p opId phase hp
  have hinitial : ∀ o, (s.Knows o ∧ Q o.taskId o.initialTaskState) →
      Q' o.taskId o.initialTaskState := fun o ho => hg.kept _ _ ho.2
  cases hws with
  | recover => exact sets_of_recover hinitial hwf.2.2
  | claim =>
    intro w hw
    rcases List.mem_pair.mp hw with rfl | rfl
    · trivial
    · exact sets_of_state rfl rfl (hg.passing _ _ (.inl (isRunning_runningState _)))
  | result hstored =>
    rename_i e result stored resource
    have hstores : s.StoresResult a s' opId e result ids stored :=
      ⟨⟨p, ha, hp⟩, hids, hused, hstored, resource, hc⟩
    intro w hw
    rcases List.mem_append.mp hw with hw | hw
    · exact hstored.sets w hw
    · rcases List.mem_pair.mp hw with rfl | rfl
      · exact sets_of_state rfl rfl (hg.settled _ _ _ _ _ hstores)
      · trivial
  | fail =>
    rename_i e failure
    obtain ⟨⟨-, hknown, htask⟩, -⟩ := hwf
    intro w hw
    rcases List.mem_pair.mp hw with rfl | rfl
    · exact sets_of_state rfl rfl (htask ▸ hinitial _ hknown)
    · trivial
  | record =>
    rename_i e arm op task _
    obtain ⟨⟨⟨hid₀, hknown₀, htask₀⟩, -⟩, hop, htask⟩ := hwf
    obtain ⟨hid, hknown⟩ := hop op rfl
    -- both rows are of one operation, which is stored
    have hsame : task.id = op.taskId := by
      rw [recordFailure, List.foldlM_cons] at hc
      obtain ⟨db₁, h₁, hc⟩ := Option.bind_eq_some_iff.mp hc
      obtain ⟨_, -, rfl⟩ := Option.map_eq_some_iff.mp h₁
      rw [List.foldlM_cons] at hc
      obtain ⟨db₂, h₂, -⟩ := Option.bind_eq_some_iff.mp hc
      obtain ⟨o, ho, -⟩ := Option.map_eq_some_iff.mp h₂
      obtain ⟨hm, hoid⟩ := Table.get_eq_some.mp ho
      have hoid : o.id = op.id := hoid
      have h₃ := (hknown.1.became o hm hoid).same.taskId
      have h₄ := (hknown₀.1.became o hm (hoid.trans (hid.trans hid₀.symm))).same.taskId
      exact (htask task rfl).trans (htask₀.trans (h₄.symm.trans h₃))
    intro w hw
    rcases List.mem_pair.mp hw with rfl | rfl
    · exact sets_of_state rfl rfl (hsame ▸ hinitial _ hknown)
    · trivial
  | sweep =>
    rename_i error op
    intro w hw
    rcases List.mem_append.mp hw with hw | hw
    · cases op with
      | none => cases hw
      | some o =>
        obtain rfl := List.mem_singleton.mp hw
        exact hinitial o (hwf o rfl).2
    · obtain rfl := List.mem_singleton.mp hw
      trivial

/-- **A relation between tasks and states is kept everywhere** by a step that grants it. -/
theorem Everywhere.move (he : s.Everywhere Q) (hb : s.Base) (hg : Grants cfg s a s' Q Q')
    (h : Move cfg s a s') : s'.Everywhere Q' where
  tasks := by
    have hkept : ∀ t ∈ s.db.tasks, t.Stands Q' := fun t ht => (he.tasks t ht).mono hg.kept
    have hmove := h
    cases h with
    | commit hp hids hf hw hc =>
      exact Db.stands_of_foldlM (Db.commit_eq_some.mp hc).1 hkept
        (he.sets_of_request hb hg rfl hp hids hf hc)
    | settle ha hp hids hn hgo ht hw hc =>
      rw [enter_db]
      refine Db.stands_of_foldlM (Db.commit_eq_some.mp hc).1 hkept ?_
      refine he.sets_of_job hg rfl hp hids (enter_used _ _ _ _) (writes_of_transaction ht) ?_
      rw [enter_db]
      exact (Db.commit_eq_some.mp hc).1
    | recover _ hp hw hc hx =>
      refine Db.stands_of_foldlM (Db.commit_eq_some.mp hc).1 hkept ?_
      exact sets_of_recover (fun o ho => hg.kept _ _ ho.2) (he.held.ticks _ _ _ hp).2
    | _ => simpa using hkept
  held := by
    refine he.held.move h (fun o ho => ho.1) (fun o ho => ⟨ho.1.move h, hg.kept _ _ ho.2⟩) ?_ ?_
    · intro o o' ho hsame ho'
      refine ⟨(hb.move h).knows o' ho', ?_⟩
      rw [hsame.taskId, hsame.initialTaskState]
      exact hg.kept _ _ ho.2
    · intro o ho hnew
      obtain ⟨-, -, -, -, t, ht, hstate⟩ := hb.holds_of_new hnew
      obtain ⟨hm, hid⟩ := Table.get_eq_some.mp ht
      refine ⟨(hb.move h).knows o ho, ?_⟩
      have hid : t.id = o.taskId := hid
      exact hid ▸ hstate ▸ hg.kept _ _ (he.tasks t hm).1
  loaded := by
    intro q m r pd t hq ht
    rcases hq with hq | hq
    · rcases opened_of_move h hq with ⟨hp, -⟩ | ⟨-, ho, -⟩
      · exact (he.loaded q m r pd t (.inl hp) ht).mono hg.kept
      · exact (he.tasks t ((loadedBy_of_opening ho).task t ht).1).mono hg.kept
    · rcases locked_of_move h hq with ⟨hp, -⟩ | ⟨pd₀, t₀, -, hp, ht₀, -, -, rfl, -⟩
      · exact (he.loaded q m r pd t (.inr hp) ht).mono hg.kept
      · have hold := he.loaded q m r pd₀ t₀ (.inl hp) ht₀
        cases pd₀ with
        | submit sub =>
          -- `submit` refreshes its task
          obtain rfl := Option.some.inj ht₀
          obtain rfl := Option.some.inj ht
          rcases hget : s.db.tasks.get sub.task.id with _ | t'
          · exact hold.mono hg.kept
          · exact (he.tasks t' (Table.get_eq_some.mp hget).1).mono hg.kept
        | _ =>
          obtain rfl := Option.some.inj (ht₀.symm.trans ht)
          exact hold.mono hg.kept

/-- At first there is no task. -/
theorem Everywhere.of_initial (h : Initial s) : s.Everywhere Q where
  tasks := by simp [h.tasks]
  held := ⟨by simp [h.operations], fun p opId phase hp => by simp [h.procs] at hp,
    fun p worker phase hp => by simp [h.procs] at hp,
    fun p m r op task hp => by simp [h.procs] at hp⟩
  loaded := fun p m r pd t hp => by simp [h.procs] at hp

end Sys

end DouyinCaption

import DouyinCaption.Artefacts

/-!
# Ticks

What a tick of a worker does, step by step (`tickTurn_of_step`), with the jobs of the worker:
a worker drops a job only when it has ended (`workers_kept`), and gets one only from its ticks
(`workers_of_step`).
-/

namespace DouyinCaption

open Tables Runs

/-! ## When operations were created -/

/-- What a statement leaves of an operation: its identifier and its time. -/
theorem Write.createdAt_of_apply {w : Write} {db db' : Db} (h : w.apply db = some db')
    {o' : AiOperation} (ho' : o' ∈ db'.operations) :
    (∃ o ∈ db.operations, o.id = o'.id ∧ o.createdAt = o'.createdAt) ∨ w = .addOperation o' := by
  have hcreated : ∀ (c : OperationChange) (o : AiOperation), (c.apply o).createdAt = o.createdAt :=
    fun c o => by cases c <;> rfl
  have hupdate : ∀ (p : AiOperation → Bool) (c : OperationChange),
      o' ∈ db.operations.update p c.apply (fun _ => c.apply_id _) →
      ∃ o ∈ db.operations, o.id = o'.id ∧ o.createdAt = o'.createdAt := by
    intro p c hm
    obtain ⟨o, ho, rfl⟩ := Table.mem_update.mp hm
    refine ⟨o, ho, ?_⟩
    split
    · exact ⟨(c.apply_id o).symm, (hcreated c o).symm⟩
    · exact ⟨rfl, rfl⟩
  cases w with
  | addOperation o =>
    obtain rfl := Option.some.inj h
    rcases Table.mem_of_mem_insert ho' with ho' | rfl
    · exact .inl ⟨o', ho', rfl, rfl⟩
    · exact .inr rfl
  | setOperation id c =>
    obtain ⟨_, -, rfl⟩ := Option.map_eq_some_iff.mp h
    exact .inl (hupdate _ c ho')
  | setQueued id c =>
    obtain rfl := Option.some.inj h
    exact .inl (hupdate _ c ho')
  | clearHistory owner =>
    obtain rfl := Option.some.inj h
    exact .inl ⟨o', (Table.mem_delete.mp ho').1, rfl, rfl⟩
  | setTask | setAnalysis | decide | setFinal | setPreset =>
    obtain ⟨_, -, rfl⟩ := Option.map_eq_some_iff.mp h
    exact .inl ⟨o', ho', rfl, rfl⟩
  | _ =>
    obtain rfl := Option.some.inj h
    exact .inl ⟨o', ho', rfl, rfl⟩

/-- No statement changes `created_at`. By induction on the list. -/
theorem Db.createdAt_of_foldlM {ws : List Write} : ∀ {db db' : Db},
    ws.foldlM Write.apply db = some db' → ∀ {o' : AiOperation}, o' ∈ db'.operations →
      (∃ o ∈ db.operations, o.id = o'.id ∧ o.createdAt = o'.createdAt) ∨
        ∃ o, .addOperation o ∈ ws ∧ o.id = o'.id := by
  induction ws with
  | nil =>
    intro db db' h o' ho'
    obtain rfl := Option.some.inj h
    exact .inl ⟨o', ho', rfl, rfl⟩
  | cons w ws ih =>
    intro db db' h o' ho'
    rw [List.foldlM_cons] at h
    obtain ⟨db₁, h₁, h₂⟩ := Option.bind_eq_some_iff.mp h
    rcases ih h₂ ho' with ⟨o₁, ho₁, hid, hcreated⟩ | ⟨o, ho, hid⟩
    · rcases Write.createdAt_of_apply h₁ ho₁ with ⟨o, ho, hid', hcreated'⟩ | rfl
      · exact .inl ⟨o, ho, hid'.trans hid, hcreated'.trans hcreated⟩
      · exact .inr ⟨o₁, List.mem_cons_self, hid⟩
    · exact .inr ⟨o, List.mem_cons_of_mem _ ho, hid⟩

namespace Sys

variable {cfg : Config} {s s' : Sys} {a : Action}

/-- An operation keeps the time it was created at. -/
theorem createdAt_of_move (hb : s.Base) (h : Move cfg s a s') {o o' : AiOperation}
    (ho : o ∈ s.db.operations) (ho' : o' ∈ s'.db.operations) (hid : o'.id = o.id) :
    o'.createdAt = o.createdAt := by
  have hold : (∃ o₁ ∈ s.db.operations, o₁.id = o'.id ∧ o₁.createdAt = o'.createdAt) →
      o'.createdAt = o.createdAt := by
    rintro ⟨o₁, ho₁, hid₁, hcreated⟩
    rw [← hcreated, Table.eq_of_key ho₁ ho (hid₁.trans hid)]
  cases changes_of_move h with
  | none members providers he =>
    rw [he] at ho'
    rw [Table.eq_of_key ho' ho hid]
  | request ha hp hids hws hfold =>
    rcases Db.createdAt_of_foldlM hfold ho' with hcreated | ⟨o₁, hadd, hid₁⟩
    · exact hold hcreated
    -- a new operation has an identifier of its own
    have hnew : o₁.id ∉ s.used := by
      cases hws with
      | presets hpd hon => cases hon _ hadd
      | submit hstate hsnapshot =>
        rename_i p ids m r sub snapshot
        have hop : o₁ = sub.operation cfg ⟨s.now, ids⟩ := by
          rcases hsnapshot with rfl | ⟨i, ds, -, rfl⟩ <;> simpa using hadd
        rw [hop]
        exact hids.2.2 _ (Stamp.id_mem (by rw [hids.1]; decide))
      | cancelOperation hqueued hreset =>
        subst hreset
        simp only [List.mem_cons, reduceCtorEq, false_or] at hadd
        split at hadd
        · split at hadd <;> simp at hadd
        · cases hadd
      | _ => simp [storeSnapshot] at hadd
    exact absurd (hid₁.trans hid ▸ hb.drawn o ho) hnew
  | states hws hfold =>
    rcases Db.createdAt_of_foldlM hfold ho' with hcreated | ⟨o₁, hadd, -⟩
    · exact hold hcreated
    · exact (hws _ hadd).elim
  | result hr =>
    obtain ⟨resource, hfold⟩ := hr.commit
    rcases Db.createdAt_of_foldlM hfold ho' with hcreated | ⟨o₁, hadd, -⟩
    · exact hold hcreated
    · rcases List.mem_append.mp hadd with hadd | hadd
      · cases (if_pos rfl).symm.trans (hr.stores.gives o₁.status _ hadd)
      · simp at hadd

/-! ## Ticks -/

/-- What a tick makes of itself, with the jobs of its worker. -/
inductive TickTurn (s : Sys) (p worker : ℕ) : TickPhase → TickEvent → Sys → Prop where
  /-- it reads the queue -/
  | read {job : ℕ} : TickTurn s p worker (.owners []) (.go job)
      (s.setProc p (.tick worker (.spawning (s.db.queueRows.map fun o => (o.id, o.ownerId))
        ((s.workers worker).map Prod.fst ++
          (s.db.queueRows.filter fun o => o.status = .running).map AiOperation.ownerId))))
  /-- it passes an operation by -/
  | skip {job : ℕ} {opId m : Uuid} {rows : List (Uuid × Uuid)} {seen : List Uuid}
      (hseen : m ∈ seen) : TickTurn s p worker (.spawning ((opId, m) :: rows) seen) (.go job)
      (s.setProc p (.tick worker (.spawning rows seen)))
  /-- it starts a job -/
  | start {job : ℕ} {opId m : Uuid} {rows : List (Uuid × Uuid)} {seen : List Uuid}
      (hseen : m ∉ seen) (hjob : s.procs job = .idle) :
      TickTurn s p worker (.spawning ((opId, m) :: rows) seen) (.go job)
        (({ s with
          workers := Function.update s.workers worker ((m, job) :: s.workers worker)
            }.setProc p (.tick worker (.spawning rows (m :: seen)))).setProc job
              (.job opId .created))
  /-- anything else -/
  | other {phase : TickPhase} {e : TickEvent} {s' : Sys} (hw : s'.workers = s.workers)
      (hp : ∀ w rows seen, s'.procs p ≠ .tick w (.spawning rows seen))
      (htick : ∀ w phase', s'.procs p = .tick w phase' → w = worker ∧
        ∀ rows seen, phase ≠ .spawning rows seen)
      (hq : ∀ q, q ≠ p → s'.procs q = s.procs q) : TickTurn s p worker phase e s'

/-- The inversion of a tick's step. -/
theorem tickTurn_of_step {p : ℕ} {e : TickEvent} (h : (system cfg).step s (.tick p e) = some s') :
    ∃ worker phase, s.procs p = .tick worker phase ∧ TickTurn s p worker phase e s' := by
  change step cfg s (.tick p e) = some s' at h
  simp only [step] at h
  split at h
  swap
  · cases h
  rename_i worker phase hp
  refine ⟨worker, phase, hp, ?_⟩
  have hset : ∀ {x : Proc} {s₁ : Sys}, s₁.workers = s.workers → s₁.procs = s.procs →
      (∀ w rows seen, x ≠ .tick w (.spawning rows seen)) → (∀ w phase', x = .tick w phase' →
        w = worker ∧ ∀ rows seen, phase ≠ .spawning rows seen) →
      TickTurn s p worker phase e (s₁.setProc p x) := by
    intro x s₁ hw hprocs hx htick
    refine .other hw ?_ ?_ fun q hq => ?_
    · rw [setProc_procs, Function.update_self]
      exact hx
    · rw [setProc_procs, Function.update_self]
      exact htick
    · rw [setProc_procs, Function.update_of_ne hq, hprocs]
  cases e with
  | go job =>
    simp only [stepTick] at h
    split at h
    · obtain rfl := Option.some.inj h
      exact hset rfl rfl (by simp) (by simp)
    · obtain rfl := Option.some.inj h
      exact .read
    · obtain rfl := Option.some.inj h
      exact hset rfl rfl (by simp) (by simp)
    · obtain rfl := Option.some.inj h
      exact hset rfl rfl (by simp) (by simp)
    · obtain ⟨s₁, hs, rfl⟩ := Option.map_eq_some_iff.mp h
      obtain ⟨hw, db, hc, rfl⟩ := commit_eq_some.mp hs
      exact hset rfl rfl (by simp) (by simp)
    · obtain rfl := Option.some.inj h
      exact hset rfl rfl (by simp) (by simp)
    · split_ifs at h with hseen
      · obtain rfl := Option.some.inj h
        exact .skip hseen
      · split at h
        · rename_i hjob
          obtain rfl := Option.some.inj h
          exact .start hseen hjob
        · cases h
  | fault effective =>
    simp only [stepTick] at h
    split at h
    · split at h
      · obtain ⟨s₁, hs, rfl⟩ := Option.map_eq_some_iff.mp h
        obtain ⟨hw, db, hc, rfl⟩ := commit_eq_some.mp hs
        exact hset rfl rfl (by simp) (by simp)
      · cases h
    · obtain rfl := Option.some.inj h
      exact hset rfl rfl (by simp) (by simp)

/-- Only a tick changes a process that does not act. -/
theorem procs_of_not_tick (h : Move cfg s a s') (ha : ∀ p e, a ≠ .tick p e) {q : ℕ}
    (hq : a.proc ≠ some q) : s'.procs q = s.procs q := by
  have hne : ∀ {p : ℕ}, some p ≠ some q → q ≠ p := fun hp e => hp (congrArg some e.symm)
  cases h with
  | spawn => exact absurd rfl (ha _ _)
  | clock | evict | configure => rfl
  | _ => simp [Function.update_of_ne (hne hq)]

/-- A process that comes to be a job is started by `execute` or by a tick. -/
theorem started_of_step (h : (system cfg).step s a = some s') {q : ℕ} {opId : Uuid}
    {phase : JobPhase} (hidle : s.procs q = .idle) (hq : s'.procs q = .job opId phase) :
    a = .execute q opId ∨ ∃ p worker m rows seen, a = .tick p (.go q) ∧
      s.procs p = .tick worker (.spawning ((opId, m) :: rows) seen) ∧ m ∉ seen := by
  have hmove := move_of_step h
  by_cases htick : ∃ p e, a = .tick p e
  · right
    obtain ⟨p, e, rfl⟩ := htick
    obtain ⟨worker, phase', hp, ht⟩ := tickTurn_of_step h
    have hqp : q ≠ p := by
      rintro rfl
      cases hidle.symm.trans hp
    cases ht with
    | read | skip =>
      rw [setProc_procs, Function.update_of_ne hqp, hidle] at hq
      cases hq
    | start hseen hjob =>
      rename_i job opId' m rows seen
      by_cases hqj : q = job
      · subst hqj
        rw [setProc_procs, Function.update_self] at hq
        obtain ⟨rfl, -⟩ := Proc.job.inj hq
        exact ⟨p, worker, m, rows, seen, rfl, hp, hseen⟩
      · rw [setProc_procs, Function.update_of_ne hqj, setProc_procs, Function.update_of_ne hqp,
          hidle] at hq
        cases hq
    | other hw hspawning htick hrest =>
      rw [hrest q hqp, hidle] at hq
      cases hq
  · left
    by_cases ha : a.proc = some q
    · have ht := turn_of_move hmove ha
      rw [hidle, hq] at ht
      cases ht with
      | execute => rfl
    · rw [procs_of_not_tick hmove (fun p e he => htick ⟨p, e, he⟩) ha, hidle] at hq
      cases hq

/-! ## Where ticks and their jobs come from -/

/-- A tick was one of the same worker before, or is started by the step. -/
theorem tick_of_step (h : (system cfg).step s a = some s') {p w : ℕ} {phase : TickPhase}
    (hp : s'.procs p = .tick w phase) :
    (∃ phase₀, s.procs p = .tick w phase₀) ∨ a = .startTick p w := by
  have hmove := move_of_step h
  by_cases htick : ∃ p' e, a = .tick p' e
  · left
    obtain ⟨p', e, rfl⟩ := htick
    obtain ⟨worker, phase', hp', ht⟩ := tickTurn_of_step h
    by_cases hpp : p = p'
    · subst hpp
      cases ht with
      | read | skip =>
        rw [setProc_procs, Function.update_self] at hp
        obtain ⟨rfl, -⟩ := Proc.tick.inj hp
        exact ⟨_, hp'⟩
      | start hseen hjob =>
        rename_i job opId m rows seen
        have hne : p ≠ job := by
          rintro rfl
          cases hjob.symm.trans hp'
        rw [setProc_procs, Function.update_of_ne hne, setProc_procs, Function.update_self] at hp
        obtain ⟨rfl, -⟩ := Proc.tick.inj hp
        exact ⟨_, hp'⟩
      | other hw hspawning ht hrest =>
        obtain ⟨rfl, -⟩ := ht w phase hp
        exact ⟨_, hp'⟩
    · cases ht with
      | read | skip =>
        rw [setProc_procs, Function.update_of_ne hpp] at hp
        exact ⟨_, hp⟩
      | start hseen hjob =>
        rename_i job opId m rows seen
        by_cases hpj : p = job
        · subst hpj
          rw [setProc_procs, Function.update_self] at hp
          cases hp
        · rw [setProc_procs, Function.update_of_ne hpj, setProc_procs,
            Function.update_of_ne hpp] at hp
          exact ⟨_, hp⟩
      | other hw hspawning ht hrest =>
        rw [hrest p hpp] at hp
        exact ⟨_, hp⟩
  · by_cases ha : a.proc = some p
    · have ht := turn_of_move hmove ha
      rw [hp] at ht
      generalize s.procs p = x at ht
      cases ht with
      | startTick => exact .inr rfl
      | select | load | tick => exact absurd ⟨_, _, rfl⟩ htick
    · rw [procs_of_not_tick hmove (fun p e he => htick ⟨p, e, he⟩) ha] at hp
      exact .inl ⟨_, hp⟩

/-- How a tick came to be starting jobs. -/
theorem spawning_of_step (h : (system cfg).step s a = some s') {p w : ℕ}
    {rows : List (Uuid × Uuid)} {seen : List Uuid}
    (hp : s'.procs p = .tick w (.spawning rows seen)) :
    (s.procs p = .tick w (.spawning rows seen) ∧ a.proc ≠ some p) ∨
      (rows = (s.db.queueRows.map fun o => (o.id, o.ownerId)) ∧
        seen = (s.workers w).map Prod.fst ++
          (s.db.queueRows.filter fun o => o.status = .running).map AiOperation.ownerId ∧
        s.procs p = .tick w (.owners []) ∧ s'.workers = s.workers) ∨
      (∃ row, s.procs p = .tick w (.spawning (row :: rows) seen) ∧ row.2 ∈ seen ∧
        s'.workers = s.workers) ∨
      ∃ opId m job seen₀, s.procs p = .tick w (.spawning ((opId, m) :: rows) seen₀) ∧
        seen = m :: seen₀ ∧
        s'.workers = Function.update s.workers w ((m, job) :: s.workers w) := by
  have hmove := move_of_step h
  by_cases ha : a.proc = some p
  swap
  · left
    rcases procs_of_move hmove ha with hsame | ⟨-, opId, hjob⟩
    · exact ⟨hsame ▸ hp, ha⟩
    · cases hjob.symm.trans hp
  right
  by_cases htick : ∃ p' e, a = .tick p' e
  · obtain ⟨p', e, rfl⟩ := htick
    obtain rfl := Option.some.inj ha
    obtain ⟨worker, phase, hp', ht⟩ := tickTurn_of_step h
    cases ht with
    | read =>
      rw [setProc_procs, Function.update_self] at hp
      obtain ⟨rfl, hphase⟩ := Proc.tick.inj hp
      obtain ⟨rfl, rfl⟩ := TickPhase.spawning.inj hphase
      exact .inl ⟨rfl, rfl, hp', rfl⟩
    | skip hseen =>
      rw [setProc_procs, Function.update_self] at hp
      obtain ⟨rfl, hphase⟩ := Proc.tick.inj hp
      obtain ⟨rfl, rfl⟩ := TickPhase.spawning.inj hphase
      exact .inr (.inl ⟨_, hp', hseen, rfl⟩)
    | start hseen hjob =>
      rename_i job opId m rows₀ seen₀
      have hne : p' ≠ job := by
        rintro rfl
        cases hjob.symm.trans hp'
      rw [setProc_procs, Function.update_of_ne hne, setProc_procs, Function.update_self] at hp
      obtain ⟨rfl, hphase⟩ := Proc.tick.inj hp
      obtain ⟨rfl, rfl⟩ := TickPhase.spawning.inj hphase
      exact .inr (.inr ⟨opId, m, job, seen₀, hp', rfl, rfl⟩)
    | other hw hspawning ht hrest => exact absurd hp (hspawning _ _ _)
  · have ht := turn_of_move hmove ha
    rw [hp] at ht
    generalize s.procs p = x at ht
    cases ht with
    | tick => exact absurd ⟨_, _, rfl⟩ htick

/-! ## The jobs of a worker -/

theorem setProc_workers (s : Sys) (p : ℕ) (x : Proc) : (s.setProc p x).workers = s.workers := rfl

theorem enter_workers (s : Sys) (p : ℕ) (opId : Uuid) (phase : JobPhase) :
    (s.enter p opId phase).workers = s.workers := by
  rw [enter]
  cases phase.rowLock <;> cases phase.isCalling <;> rfl

/-- Only ticks change the jobs of a worker. -/
theorem workers_of_not_tick (h : Move cfg s a s') (ha : ∀ p e, a ≠ .tick p e)
    (hs : ∀ p w, a ≠ .startTick p w) : s'.workers = s.workers := by
  cases h with
  | startTick => exact absurd rfl (hs _ _)
  | select | load | tick | recover | spawn => exact absurd rfl (ha _ _)
  | acquire | refuseLease | context | answer | leave | advance | fault | cancel | settle =>
    exact enter_workers ..
  | _ => rfl

/-- A tick that starts drops the jobs of its worker that have ended. -/
theorem startTick_of_step {p w : ℕ} (h : (system cfg).step s (.startTick p w) = some s') :
    s'.workers = Function.update s.workers w
      ((s.workers w).filter fun j => !s.hasEnded j.2) := by
  change s.startTick p w = some s' at h
  simp only [startTick] at h
  split at h
  · obtain rfl := Option.some.inj h
    rfl
  · cases h

/-- A job of a worker was one before, or a tick of the worker has just started it. -/
theorem workers_of_step (h : (system cfg).step s a = some s') {w : ℕ} {j : Uuid × ℕ}
    (hj : j ∈ s'.workers w) : j ∈ s.workers w ∨
      ∃ p opId rows seen, a = .tick p (.go j.2) ∧
        s.procs p = .tick w (.spawning ((opId, j.1) :: rows) seen) := by
  by_cases hstart : ∃ p w', a = .startTick p w'
  · left
    obtain ⟨p, w', rfl⟩ := hstart
    rw [startTick_of_step h] at hj
    by_cases hw : w = w'
    · subst hw
      rw [Function.update_self] at hj
      exact (List.mem_filter.mp hj).1
    · rwa [Function.update_of_ne hw] at hj
  by_cases htick : ∃ p e, a = .tick p e
  · obtain ⟨p, e, rfl⟩ := htick
    obtain ⟨worker, phase, hp, ht⟩ := tickTurn_of_step h
    cases ht with
    | read | skip => exact .inl hj
    | start hseen hjob =>
      rename_i job opId m rows seen
      rw [setProc_workers, setProc_workers] at hj
      by_cases hw : w = worker
      · subst hw
        dsimp only at hj
        rw [Function.update_self] at hj
        rcases List.mem_cons.mp hj with rfl | hj
        · exact .inr ⟨p, opId, rows, seen, rfl, hp⟩
        · exact .inl hj
      · dsimp only at hj
        rw [Function.update_of_ne hw] at hj
        exact .inl hj
    | other hw hspawning ht hrest => exact .inl (hw ▸ hj)
  · rw [workers_of_not_tick (move_of_step h) (fun p e he => htick ⟨p, e, he⟩)
      fun p w he => hstart ⟨p, w, he⟩] at hj
    exact .inl hj

/-- A job that has not ended stays a job of its worker. -/
theorem workers_kept (h : (system cfg).step s a = some s') {w : ℕ} {j : Uuid × ℕ}
    (hj : j ∈ s.workers w) (hlive : s.hasEnded j.2 = false) : j ∈ s'.workers w := by
  by_cases hstart : ∃ p w', a = .startTick p w'
  · obtain ⟨p, w', rfl⟩ := hstart
    rw [startTick_of_step h]
    by_cases hw : w = w'
    · subst hw
      rw [Function.update_self]
      exact List.mem_filter.mpr ⟨hj, by rw [hlive]; rfl⟩
    · rwa [Function.update_of_ne hw]
  by_cases htick : ∃ p e, a = .tick p e
  · obtain ⟨p, e, rfl⟩ := htick
    obtain ⟨worker, phase, hp, ht⟩ := tickTurn_of_step h
    cases ht with
    | read | skip => exact hj
    | start hseen hjob =>
      rw [setProc_workers, setProc_workers]
      by_cases hw : w = worker
      · subst hw
        dsimp only
        rw [Function.update_self]
        exact List.mem_cons_of_mem _ hj
      · dsimp only
        rwa [Function.update_of_ne hw]
    | other hw hspawning ht hrest => exact hw ▸ hj
  · rwa [workers_of_not_tick (move_of_step h) (fun p e he => htick ⟨p, e, he⟩)
      fun p w he => hstart ⟨p, w, he⟩]

/-- A process that has ended does nothing any more. -/
theorem hasEnded_of_step (h : (system cfg).step s a = some s') {q : ℕ}
    (hq : s.hasEnded q = true) : s'.hasEnded q = true := by
  have hmove := move_of_step h
  have hcases : (∃ opId, s.procs q = .job opId .done) ∨ s.procs q = .gone := by
    rw [hasEnded] at hq
    split at hq
    · rename_i opId hp
      exact .inl ⟨opId, hp⟩
    · rename_i hp
      exact .inr hp
    · cases hq
  by_cases ha : a.proc = some q
  · have ht := turn_of_move hmove ha
    rcases hcases with ⟨opId, hp⟩ | hp
    · rw [hp] at ht
      generalize hx : s'.procs q = x at ht
      rw [hasEnded]
      rw [hx]
      cases ht with
      | gone => rfl
      | rejected hy | refused hy | committed hy => rcases hy with hy | ⟨hy, -⟩ <;> cases hy
      | retrying hy => cases hy
      | job hstep =>
        cases hstep with
        | next hn =>
          cases hn with
          | advance hadv => cases hadv
          | fault | cancel => rfl
    · rw [hp] at ht
      generalize hx : s'.procs q = x at ht
      rw [hasEnded]
      rw [hx]
      cases ht with
      | gone => rfl
      | rejected hy | refused hy | committed hy => rcases hy with hy | ⟨hy, -⟩ <;> cases hy
      | retrying hy => cases hy
  · rcases procs_of_move hmove ha with hsame | ⟨hidle, -⟩
    · rw [hasEnded]
      rw [hsame]
      exact hq
    · rcases hcases with ⟨opId, hp⟩ | hp <;> cases hidle.symm.trans hp

end Sys

end DouyinCaption

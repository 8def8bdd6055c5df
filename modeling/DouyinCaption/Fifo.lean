import DouyinCaption.Ticks

/-!
# The order of the queue

A member's operations are claimed in the order they were submitted in (`member_fifo`): a tick
starts a job for the first active operation it has read of a member, and nothing gets in front
of it afterwards. A tick acts on what it has read: what other workers start and claim in the
meantime it does not see.
-/

namespace DouyinCaption

open Tables Runs

namespace Sys

variable {cfg : Config} {s s' : Sys} {a : Action}

/-! ## Who is first -/

/-- An operation is the first active one of its member, if it is there. -/
structure First (s : Sys) (opId : Uuid) : Prop where
  drawn : opId ∈ s.used
  before : ∀ o ∈ s.db.operations, o.id = opId → ∀ o₁ ∈ s.db.operations,
    o₁.ownerId = o.ownerId → o₁.isActive = true → o.createdBefore o₁

/-- Times grow in the order of the commits: an operation that a step adds is later than those
that are there. -/
def InOrder (cfg : Config) (s : Sys) (a : Action) : Prop :=
  ∀ o, NewOperation cfg s a o → ∀ o₁ ∈ s.db.operations, o₁.createdAt < o.createdAt

/-- **What is first stays first.** -/
theorem First.move {opId : Uuid} (hf : s.First opId) (hb : s.Base) (hin : InOrder cfg s a)
    (h : Move cfg s a s') : s'.First opId where
  drawn := used_of_move h opId hf.drawn
  before := by
    intro o' ho' hid o₁' ho₁' howner hact
    rcases (opsEvolve_of_move h).origin o' ho' with ⟨o, ho, hbec⟩ | hnew
    swap
    · exact absurd (hid ▸ hf.drawn) hnew.fresh
    have hcreated := createdAt_of_move hb h ho ho' hbec.same.id
    rcases (opsEvolve_of_move h).origin o₁' ho₁' with ⟨o₁, ho₁, hbec₁⟩ | hnew
    · have hcreated₁ := createdAt_of_move hb h ho₁ ho₁' hbec₁.same.id
      have hbefore := hf.before o ho (hbec.same.id.symm.trans hid) o₁ ho₁
        (hbec₁.same.ownerId.symm.trans (howner.trans hbec.same.ownerId)) (hbec₁.active hact)
      rw [AiOperation.createdBefore, hcreated, hcreated₁, hbec.same.id, hbec₁.same.id]
      exact hbefore
    · left
      rw [hcreated]
      exact hin _ hnew o ho

/-- The first rows of their owners among rows that are still to be looked at are first, unless
the owner has been seen. -/
def FirstRows (s : Sys) (rows : List (Uuid × Uuid)) (seen : List Uuid) : Prop :=
  ∀ pre opId m post, rows = pre ++ (opId, m) :: post → m ∉ seen → (∀ x ∈ pre, x.2 ≠ m) →
    s.First opId

/-- Once the first row of a member is gone, its owner counts as seen. -/
theorem FirstRows.tail {row : Uuid × Uuid} {rows : List (Uuid × Uuid)} {seen seen' : List Uuid}
    (h : s.FirstRows (row :: rows) seen) (hrow : row.2 ∈ seen') (hsub : ∀ m ∈ seen, m ∈ seen') :
    s.FirstRows rows seen' := by
  rintro pre opId m post rfl hm hpre
  refine h (row :: pre) opId m post rfl (fun hs => hm (hsub m hs)) fun x hx => ?_
  rcases List.mem_cons.mp hx with rfl | hx
  · rintro rfl
    exact hm hrow
  · exact hpre x hx

instance : IsTrans AiOperation AiOperation.createdBefore where
  trans a b c := by
    rintro (hab | ⟨hab, hid⟩) (hbc | ⟨hbc, hid'⟩)
    · exact .inl (hab.trans hbc)
    · exact .inl (hab.trans_eq hbc)
    · exact .inl (hab.trans_lt hbc)
    · exact .inr ⟨hab.trans hbc, hid.trans hid'⟩

instance : Std.Total AiOperation.createdBefore where
  total a b := by
    rcases lt_trichotomy a.createdAt b.createdAt with h | h | h
    · exact .inl (.inl h)
    · exact (le_total a.id b.id).imp (fun hid => .inr ⟨h, hid⟩) fun hid => .inr ⟨h.symm, hid⟩
    · exact .inr (.inl h)

/-- What a tick reads has first what is first. -/
theorem firstRows_of_queueRows (hb : s.Base) {seen : List Uuid} :
    s.FirstRows (s.db.queueRows.map fun o => (o.id, o.ownerId)) seen := by
  intro pre opId m post hrows _ hpre
  obtain ⟨l₁, l₂, hl, rfl, hpost⟩ := List.map_eq_append_iff.mp hrows
  obtain ⟨o, l₃, rfl, hrow, -⟩ := List.map_eq_cons_iff.mp hpost
  obtain ⟨rfl, rfl⟩ := Prod.mk.inj hrow
  have hmem : ∀ o₁, o₁ ∈ s.db.queueRows ↔ o₁ ∈ s.db.operations ∧ o₁.isActive = true := by
    intro o₁
    rw [Db.queueRows, List.mem_insertionSort, Table.mem_select]
  have hsorted := List.pairwise_insertionSort AiOperation.createdBefore
    (s.db.operations.select AiOperation.isActive)
  rw [← Db.queueRows, hl] at hsorted
  have ho : o ∈ s.db.operations := ((hmem o).mp (by rw [hl]; simp)).1
  refine ⟨hb.drawn o ho, fun o' ho' hid o₁ ho₁ howner hact => ?_⟩
  obtain rfl := Table.eq_of_key ho' ho hid
  have hin := (hmem o₁).mpr ⟨ho₁, hact⟩
  rw [hl] at hin
  rcases List.mem_append.mp hin with hin | hin
  · exact absurd howner (hpre _ (List.mem_map_of_mem hin))
  · rcases List.mem_cons.mp hin with rfl | hin
    · exact .inr ⟨rfl, le_rfl⟩
    · exact (List.pairwise_cons.mp (List.pairwise_append.mp hsorted).2.1).1 o₁ hin

/-! ## The invariant -/

/-- The steps of a queue that is polled: jobs are started by ticks, a worker makes one tick at
a time, and times grow in the order of the commits. -/
structure Polled (cfg : Config) (s : Sys) (a : Action) : Prop where
  inOrder : InOrder cfg s a
  byTicks : ∀ p opId, a ≠ .execute p opId
  oneTick : ∀ p w, a = .startTick p w → ∀ q phase, s.procs q ≠ .tick w phase

/-- What ticks and jobs keep to in a queue that is polled. -/
structure InLine (s : Sys) : Prop where
  /-- a job is one for a first operation -/
  jobs : ∀ q opId phase, s.procs q = .job opId phase → s.First opId
  /-- and so are those a tick is about to start -/
  rows : ∀ p w rows seen, s.procs p = .tick w (.spawning rows seen) → s.FirstRows rows seen
  /-- a worker makes one tick at a time -/
  alone : ∀ p q w phase phase', s.procs p = .tick w phase → s.procs q = .tick w phase' → p = q
  /-- a tick that starts jobs has seen the members its worker has jobs for -/
  seen : ∀ p w rows seen, s.procs p = .tick w (.spawning rows seen) →
    ∀ j ∈ s.workers w, j.1 ∈ seen

/-- The rows a tick has read stay the first of their members, whatever else happens. -/
theorem FirstRows.move {rows : List (Uuid × Uuid)} {seen : List Uuid}
    (hf : s.FirstRows rows seen) (hb : s.Base) (hin : InOrder cfg s a) (h : Move cfg s a s') :
    s'.FirstRows rows seen :=
  fun pre opId m post hrows hm hpre => (hf pre opId m post hrows hm hpre).move hb hin h

/-- At first there is no tick. -/
theorem InLine.of_initial (h : Initial s) : s.InLine where
  jobs := fun q opId phase hq => by simp [h.procs] at hq
  rows := fun p w rows seen hp => by simp [h.procs] at hp
  alone := fun p q w phase phase' hp => by simp [h.procs] at hp
  seen := fun p w rows seen hp => by simp [h.procs] at hp

/-- The step lemma. -/
theorem InLine.step (hl : s.InLine) (hb : s.Base) (hp : Polled cfg s a)
    (h : (system cfg).step s a = some s') : s'.InLine where
  jobs := by
    intro q opId phase hq
    have hmove := move_of_step h
    have hhead : ∀ {p w m rows seen}, s.procs p = .tick w (.spawning ((opId, m) :: rows) seen) →
        m ∉ seen → s'.First opId := fun hp' hm =>
      (hl.rows _ _ _ _ hp' [] opId _ _ rfl hm fun _ hx => nomatch hx).move hb hp.inOrder hmove
    rcases job_of_move hmove hq with ⟨hq₀, -⟩ | ⟨-, hidle⟩ | ⟨e, phase₀, -, hq₀, -⟩
    · exact (hl.jobs q opId phase hq₀).move hb hp.inOrder hmove
    · rcases started_of_step h hidle hq with ha | ⟨p, w, m, rows, seen, -, hp', hm⟩
      · exact absurd ha (hp.byTicks q opId)
      · exact hhead hp' hm
    · exact (hl.jobs q opId phase₀ hq₀).move hb hp.inOrder hmove
  rows := by
    intro p w rows seen hp'
    have hmove := move_of_step h
    rcases spawning_of_step h hp' with
      ⟨hp₀, -⟩ | ⟨rfl, -, -, -⟩ | ⟨row, hp₀, hrow, -⟩ | ⟨opId, m, job, seen₀, hp₀, rfl, -⟩
    · exact (hl.rows p w rows seen hp₀).move hb hp.inOrder hmove
    · exact (firstRows_of_queueRows hb).move hb hp.inOrder hmove
    · exact ((hl.rows p w _ seen hp₀).tail hrow fun _ hm => hm).move hb hp.inOrder hmove
    · exact ((hl.rows p w _ seen₀ hp₀).tail List.mem_cons_self
        fun _ hm => List.mem_cons_of_mem _ hm).move hb hp.inOrder hmove
  alone := by
    intro p q w phase phase' hp' hq'
    rcases tick_of_step h hp' with ⟨phase₀, hp₀⟩ | ha
    · rcases tick_of_step h hq' with ⟨phase₁, hq₀⟩ | ha
      · exact hl.alone p q w phase₀ phase₁ hp₀ hq₀
      · exact absurd hp₀ (hp.oneTick q w ha p phase₀)
    · rcases tick_of_step h hq' with ⟨phase₁, hq₀⟩ | ha'
      · exact absurd hq₀ (hp.oneTick p w ha q phase₁)
      · exact (Action.startTick.inj (ha.symm.trans ha')).1
  seen := by
    intro p w rows seen hp' j hj
    rcases spawning_of_step h hp' with
      ⟨hp₀, ha⟩ | ⟨-, rfl, -, hw⟩ | ⟨row, hp₀, hrow, hw⟩ | ⟨opId, m, job, seen₀, hp₀, rfl, hw⟩
    · rcases workers_of_step h hj with hj | ⟨p', opId, rows', seen', rfl, hp₁⟩
      · exact hl.seen p w rows seen hp₀ j hj
      · -- another tick of the worker would have to start a job
        obtain rfl := hl.alone p p' w _ _ hp₀ hp₁
        exact absurd rfl ha
    · rw [hw] at hj
      exact List.mem_append_left _ (List.mem_map_of_mem hj)
    · rw [hw] at hj
      exact hl.seen p w _ seen hp₀ j hj
    · rw [hw, Function.update_self] at hj
      rcases List.mem_cons.mp hj with rfl | hj
      · exact List.mem_cons_self
      · exact List.mem_cons_of_mem _ (hl.seen p w _ seen₀ hp₀ j hj)

/-- The run lemma. -/
theorem inLine (hs : Reach (system cfg) (Polled cfg) s) : s.InLine :=
  hs.invariant (fun _ => InLine.of_initial) fun _ _ _ hr hl hp h => hl.step (base hr) hp h

/-! ## Starts -/

/-- A step in which a tick of a worker starts a job for an operation of a member. -/
structure Starts (cfg : Config) (s s' : Sys) (p worker : ℕ) (opId m : Uuid) (job : ℕ) :
    Prop where
  step : (system cfg).step s (.tick p (.go job)) = some s'
  tick : ∃ rows seen, s.procs p = .tick worker (.spawning ((opId, m) :: rows) seen)
  idle : s.procs job = .idle
  started : s'.procs job = .job opId .created

/-- What a start leaves: the owner counts as seen, and the job is the worker's. -/
theorem Starts.result {p worker job : ℕ} {opId m : Uuid}
    (h : Starts cfg s s' p worker opId m job) :
    ∃ rows seen, s.procs p = .tick worker (.spawning ((opId, m) :: rows) seen) ∧ m ∉ seen ∧
      s'.procs p = .tick worker (.spawning rows (m :: seen)) ∧ (m, job) ∈ s'.workers worker := by
  obtain ⟨rows, seen, hp⟩ := h.tick
  refine ⟨rows, seen, hp, ?_⟩
  have hne : p ≠ job := by
    rintro rfl
    cases h.idle.symm.trans hp
  have hstarted := h.started
  obtain ⟨worker', phase, hp', ht⟩ := tickTurn_of_step h.step
  obtain ⟨rfl, rfl⟩ := Proc.tick.inj (hp.symm.trans hp')
  generalize hphase : TickPhase.spawning ((opId, m) :: rows) seen = phase at ht
  cases ht with
  | read => cases hphase
  | skip hseen =>
    rw [setProc_procs, Function.update_of_ne hne.symm, h.idle] at hstarted
    cases hstarted
  | start hseen hjob =>
    obtain ⟨hrows, rfl⟩ := TickPhase.spawning.inj hphase
    obtain ⟨hrow, rfl⟩ := List.cons.inj hrows
    obtain ⟨rfl, rfl⟩ := Prod.mk.inj hrow
    refine ⟨hseen, ?_, ?_⟩
    · rw [setProc_procs, Function.update_of_ne hne, setProc_procs, Function.update_self]
    · rw [setProc_workers, setProc_workers]
      dsimp only
      rw [Function.update_self]
      exact List.mem_cons_self
  | other hw hspawning htick hrest =>
    rw [hrest job hne.symm, h.idle] at hstarted
    cases hstarted

/-- A tick has seen a member: it starts no job for it any more. -/
def HasSeen (s : Sys) (p : ℕ) (m : Uuid) : Prop :=
  s.procs p ≠ .idle ∧ ∀ w phase, s.procs p = .tick w phase →
    ∃ rows seen, phase = .spawning rows seen ∧ m ∈ seen

/-- A tick forgets no member it has started a job for. -/
theorem HasSeen.step {p : ℕ} {m : Uuid} (hm : s.HasSeen p m)
    (h : (system cfg).step s a = some s') : s'.HasSeen p m := by
  have hmove := move_of_step h
  refine ⟨?_, fun w phase' hp' => ?_⟩
  · by_cases ha : a.proc = some p
    · have ht := turn_of_move hmove ha
      intro hidle
      rw [hidle] at ht
      generalize s.procs p = x at ht
      cases ht
    · rcases procs_of_move hmove ha with hsame | ⟨hidle, -⟩
      · exact hsame ▸ hm.1
      · exact absurd hidle hm.1
  · rcases tick_of_step h hp' with ⟨phase, hp⟩ | rfl
    · obtain ⟨rows, seen, rfl, hin⟩ := hm.2 w phase hp
      by_cases ha : a.proc = some p
      · have ht := turn_of_move hmove ha
        rw [hp, hp'] at ht
        cases ht with
        | tick hphase =>
          obtain ⟨worker, phase₀, hp₀, htick⟩ := tickTurn_of_step h
          obtain ⟨rfl, rfl⟩ := Proc.tick.inj (hp.symm.trans hp₀)
          generalize hx : TickPhase.spawning rows seen = x at htick
          cases htick with
          | read => cases hx
          | skip hseen =>
            obtain ⟨-, rfl⟩ := TickPhase.spawning.inj hx
            rw [setProc_procs, Function.update_self] at hp'
            obtain ⟨-, rfl⟩ := Proc.tick.inj hp'
            exact ⟨_, _, rfl, hin⟩
          | start hseen hjob =>
            rename_i job opId m' rows' seen'
            obtain ⟨-, rfl⟩ := TickPhase.spawning.inj hx
            have hne : p ≠ job := by
              rintro rfl
              cases hjob.symm.trans hp
            rw [setProc_procs, Function.update_of_ne hne, setProc_procs,
              Function.update_self] at hp'
            obtain ⟨-, rfl⟩ := Proc.tick.inj hp'
            exact ⟨_, _, rfl, List.mem_cons_of_mem _ hin⟩
          | other hw hspawning ht' hrest =>
            exact absurd hx.symm ((ht' _ _ hp').2 _ _)
      · rcases procs_of_move hmove ha with hsame | ⟨hidle, -⟩
        · rw [hsame, hp] at hp'
          obtain ⟨-, rfl⟩ := Proc.tick.inj hp'
          exact ⟨_, _, rfl, hin⟩
        · cases hidle.symm.trans hp
    · have ht := turn_of_move hmove rfl
      rw [hp'] at ht
      have hidle := hm.1
      generalize s.procs p = x at ht hidle
      cases ht with
      | startTick => exact absurd rfl hidle

/-- The queue as a tick reads it. -/
theorem read_of_step {p w j : ℕ} (hp : s.procs p = .tick w (.owners []))
    (h : (system cfg).step s (.tick p (.go j)) = some s') :
    s'.procs p = .tick w (.spawning (s.db.queueRows.map fun o => (o.id, o.ownerId))
      ((s.workers w).map Prod.fst ++
        (s.db.queueRows.filter fun o => o.status = .running).map AiOperation.ownerId)) := by
  change step cfg s (.tick p (.go j)) = some s' at h
  simp only [step, hp, stepTick] at h
  obtain rfl := Option.some.inj h
  rw [setProc_procs, Function.update_self]

/-- A step of a tick meets the condition. -/
theorem Polled.of_tick {p : ℕ} {e : TickEvent} : Polled cfg s (.tick p e) where
  inOrder := by
    rintro o ⟨_, _, _, _, _, ha, -⟩
    cases ha
  byTicks := fun _ _ ha => nomatch ha
  oneTick := fun _ _ ha => nomatch ha

/-- An operation that starts to run is the first active one of its member. -/
theorem first_of_running (hs : Reach (system cfg) (Polled cfg) s)
    (h : (system cfg).step s a = some s') {o o' : AiOperation} (ho : o ∈ s.db.operations)
    (hq : o.status = .queued) (ho' : o' ∈ s'.db.operations) (hid : o'.id = o.id)
    (hr : o'.status = .running) : s.First o.id := by
  rcases claimed_of_running (base hs) (move_of_step h) ⟨o', ho', hid, hr⟩ with
    ⟨o₁, ho₁, hid₁, hr₁⟩ | ⟨e, model, hc⟩
  · rw [Table.eq_of_key ho₁ ho hid₁, hq] at hr₁
    cases hr₁
  · obtain ⟨p, -, hp⟩ := hc.job
    exact (inLine hs).jobs p o.id _ hp

/-- **Each member's operations run in the order of the queue**, in every run in which times
grow in the order of the commits and the queue is polled by any number of workers. An operation
moves from queued to running only when no other of its member that was created before it is
active. A tick starts at most one job for a member, and none for a member for whom its worker
has a job that has not ended, or who had a running operation when the tick read the queue. -/
theorem member_fifo (hs : Reach (system cfg) (Polled cfg) s) :
    (∀ a s', (system cfg).step s a = some s' → ∀ o ∈ s.db.operations, o.status = .queued →
      ∀ o' ∈ s'.db.operations, o'.id = o.id → o'.status = .running →
        ∀ o₁ ∈ s.db.operations, o₁.ownerId = o.ownerId → o₁ ≠ o → o₁.isActive = true →
          ¬ o₁.createdBefore o) ∧
    (∀ s' p w opId m job, Starts cfg s s' p w opId m job →
      ∀ s₂, Steps (system cfg) (Polled cfg) s' s₂ → ∀ s₃ p₂ opId₂ job₂,
        Starts cfg s₂ s₃ p₂ w opId₂ m job₂ → p₂ ≠ p ∧ s₂.hasEnded job = true) ∧
    ∀ s₁ p w j, s.procs p = .tick w (.owners []) →
      (system cfg).step s (.tick p (.go j)) = some s₁ →
      ∀ s₂, Steps (system cfg) (Polled cfg) s₁ s₂ → ∀ s₃ opId m job,
        Starts cfg s₂ s₃ p w opId m job →
          ∀ o ∈ s.db.operations, o.status = .running → o.ownerId ≠ m := by
  refine ⟨?_, ?_, ?_⟩
  · intro a s' h o ho hq o' ho' hid hr o₁ ho₁ howner hne hact hbefore
    have hfirst := (first_of_running hs h ho hq ho' hid hr).before o ho rfl o₁ ho₁ howner hact
    refine hne (Table.eq_of_key ho₁ ho ?_)
    rcases hbefore with hlt | ⟨he, hle⟩
    · rcases hfirst with hlt' | ⟨he', -⟩
      · exact absurd (hlt.trans hlt') (lt_irrefl _)
      · exact absurd (he' ▸ hlt) (lt_irrefl _)
    · rcases hfirst with hlt' | ⟨-, hle'⟩
      · exact absurd (he ▸ hlt') (lt_irrefl _)
      · exact le_antisymm hle hle'
  · intro s' p w opId m job hstart s₂ hsteps s₃ p₂ opId₂ job₂ hstart₂
    obtain ⟨rows, seen, -, -, hp', hjob⟩ := hstart.result
    have hreach : Reach (system cfg) (Polled cfg) s₂ :=
      (Reach.step hs .of_tick hstart.step).append hsteps
    have hseen : s'.HasSeen p m := by
      refine ⟨by simp [hp'], fun w' phase hphase => ?_⟩
      obtain ⟨-, rfl⟩ := Proc.tick.inj (hp'.symm.trans hphase)
      exact ⟨_, _, rfl, List.mem_cons_self⟩
    obtain ⟨hseen₂, hlive⟩ :
        s₂.HasSeen p m ∧ (s₂.hasEnded job = false → (m, job) ∈ s₂.workers w) := by
      refine hsteps.invariant (I := fun t => t.HasSeen p m ∧
        (t.hasEnded job = false → (m, job) ∈ t.workers w)) ⟨hseen, fun _ => hjob⟩ ?_
      rintro t b t' ⟨hm, hl⟩ - hstep
      refine ⟨hm.step hstep, fun hlive => ?_⟩
      have hlive₀ : t.hasEnded job = false := by
        by_contra hended
        rw [hasEnded_of_step hstep (Bool.eq_true_of_not_eq_false hended)] at hlive
        cases hlive
      exact workers_kept hstep (hl hlive₀) hlive₀
    obtain ⟨rows₂, seen₂, hp₂, hm₂, -, -⟩ := hstart₂.result
    constructor
    · rintro rfl
      obtain ⟨rows', seen', hphase, hin⟩ := hseen₂.2 w _ hp₂
      obtain ⟨-, rfl⟩ := TickPhase.spawning.inj hphase
      exact hm₂ hin
    · by_contra hended
      have hin := hlive (Bool.eq_false_of_not_eq_true hended)
      exact hm₂ ((inLine hreach).seen p₂ w _ seen₂ hp₂ _ hin)
  · intro s₁ p w j hp h s₂ hsteps s₃ opId m job hstart o ho hr howner
    have hseen : s₁.HasSeen p m := by
      have hp₁ := read_of_step hp h
      refine ⟨by simp [hp₁], fun w' phase hphase => ?_⟩
      obtain ⟨-, rfl⟩ := Proc.tick.inj (hp₁.symm.trans hphase)
      refine ⟨_, _, rfl, List.mem_append_right _ ?_⟩
      rw [← howner]
      refine List.mem_map_of_mem (List.mem_filter.mpr ⟨?_, decide_eq_true hr⟩)
      rw [Db.queueRows, List.mem_insertionSort, Table.mem_select]
      exact ⟨ho, by rw [AiOperation.isActive, hr]; rfl⟩
    have hseen₂ : s₂.HasSeen p m :=
      hsteps.invariant (I := fun t => t.HasSeen p m) hseen fun _ _ _ hm _ hstep => hm.step hstep
    obtain ⟨rows₂, seen₂, hp₂, hm₂, -, -⟩ := hstart.result
    obtain ⟨rows', seen', hphase, hin⟩ := hseen₂.2 w _ hp₂
    obtain ⟨-, rfl⟩ := TickPhase.spawning.inj hphase
    exact hm₂ hin

namespace Sample

/-- Two workers read the queue; the first starts a job for operation 20, which claims it. -/
def overlapping : List Action :=
  submitted ++ [.tick 10 (.go 0), .tick 11 (.go 0), .tick 10 (.go 2), .job 2 (.go (ids 3)),
    .job 2 (.go (ids 3)), .job 2 (.go (ids 3)), .job 2 (.go (ids 3)), .job 2 (.go (ids 3)),
    .job 2 (.acquire 30 true), .job 2 (.go (ids 4)), .job 2 (.go (ids 4)),
    .job 2 (.context .accepted), .job 2 (.go (ids 4))]

/-- The check for the steps after the ticks have started. -/
def polled (s : Sys) : Action → Bool
  | .execute .. | .startTick .. => false
  | .commit .. => s.db.operations.rows.all fun o => o.createdAt < s.now
  | _ => true

theorem polled_of_check (s : Sys) (a : Action) (h : polled s a = true) :
    Polled Sample.cfg s a := by
  refine ⟨?_, ?_, ?_⟩
  · rintro o ⟨p, m, r, sub, ids, rfl, -, -, -, rfl⟩ o₁ ho₁
    exact of_decide_eq_true (List.all_eq_true.mp h o₁ ho₁)
  · rintro p opId rfl
    cases h
  · rintro p w rfl
    cases h

/-- A tick of a worker is about to start a job for an operation of a member. -/
def aboutToStart (w : ℕ) (opId m : Uuid) : Proc → Bool
  | .tick w' (.spawning ((i, m') :: _) _) => w' = w && i = opId && m' = m
  | _ => false

theorem exists_of_aboutToStart {w : ℕ} {opId m : Uuid} {x : Proc}
    (h : aboutToStart w opId m x = true) :
    ∃ rows seen, x = .tick w (.spawning ((opId, m) :: rows) seen) := by
  unfold aboutToStart at h
  split at h
  · simp only [Bool.and_eq_true, decide_eq_true_eq] at h
    obtain ⟨⟨rfl, rfl⟩, rfl⟩ := h
    exact ⟨_, _, rfl⟩
  · cases h

/-- The process is a job that has been created. -/
def isCreated (opId : Uuid) : Proc → Bool
  | .job i .created => i = opId
  | _ => false

theorem eq_of_isCreated {opId : Uuid} {x : Proc} (h : isCreated opId x = true) :
    x = .job opId .created := by
  unfold isCreated at h
  split at h
  · obtain rfl := of_decide_eq_true h
    rfl
  · cases h

/-- The process has not started. -/
def isIdle : Proc → Bool
  | .idle => true
  | _ => false

theorem eq_of_isIdle {x : Proc} (h : isIdle x = true) : x = .idle := by
  unfold isIdle at h
  split at h
  · rfl
  · cases h

set_option maxRecDepth 8000 in
/-- Two ticks of two workers overlap, and the second starts the job. -/
theorem run_overlapping : (((system Sample.cfg).step start (.startTick 10 0)).bind fun s₁ =>
    ((system Sample.cfg).step s₁ (.startTick 11 1)).bind fun s₂ =>
      ((system Sample.cfg).runIf polled s₂ overlapping).bind fun s =>
        ((system Sample.cfg).step s (.tick 11 (.go 3))).map fun s' =>
          aboutToStart 1 20 1 (s.procs 11) && isIdle (s.procs 3) && isCreated 20 (s'.procs 3) &&
            s.db.operations.rows.any fun o => o.status = .running && o.ownerId = 1) =
      some true := by
  decide

/-- The second worker starts a job for member 1, whose operation 20 is running. -/
theorem overlap : ∃ s s' : Sys, Reach (system Sample.cfg) (Polled Sample.cfg) s ∧
    Starts Sample.cfg s s' 11 1 20 1 3 ∧
      ∃ o ∈ s.db.operations, o.status = .running ∧ o.ownerId = 1 := by
  obtain ⟨s₁, h₁, h⟩ := Option.bind_eq_some_iff.mp run_overlapping
  obtain ⟨s₂, h₂, h⟩ := Option.bind_eq_some_iff.mp h
  obtain ⟨s, hrun, h⟩ := Option.bind_eq_some_iff.mp h
  obtain ⟨s', hstep, hcheck⟩ := Option.map_eq_some_iff.mp h
  simp only [Bool.and_eq_true, List.any_eq_true, decide_eq_true_eq] at hcheck
  obtain ⟨⟨⟨htick, hidle⟩, hjob⟩, o, ho, hr⟩ := hcheck
  have hnone : ∀ (t : Sys) (p w : ℕ), (∀ q phase, t.procs q ≠ .tick w phase) →
      Polled Sample.cfg t (.startTick p w) := by
    intro t p w ht
    refine ⟨?_, fun _ _ ha => (nomatch ha), fun p' w' ha => ?_⟩
    · rintro o ⟨_, _, _, _, _, ha, -⟩
      cases ha
    · obtain ⟨-, rfl⟩ := Action.startTick.inj ha
      exact ht
  have hs₁ : Reach (system Sample.cfg) (Polled Sample.cfg) s₁ :=
    .step (.init initial_start) (hnone _ _ _ fun _ _ => by simp [start]) h₁
  have hs₂ : Reach (system Sample.cfg) (Polled Sample.cfg) s₂ := by
    refine .step hs₁ (hnone _ _ _ fun q phase hq => ?_) h₂
    rcases tick_of_step h₁ hq with ⟨phase₀, hp⟩ | ha
    · simp [start] at hp
    · cases (Action.startTick.inj ha).2
  exact ⟨s, s', hs₂.append (steps_of_runIf polled_of_check hrun),
    ⟨hstep, exists_of_aboutToStart htick, eq_of_isIdle hidle, eq_of_isCreated hjob⟩, o, ho, hr⟩

end Sample

/-- A tick starts a job for a member who has a job of another worker, and a running operation. -/
theorem member_fifo_overlap : ¬ ∀ s, Reach (system Sample.cfg) (Polled Sample.cfg) s →
    ∀ s' p w opId m job, Starts Sample.cfg s s' p w opId m job →
      ∀ o ∈ s.db.operations, o.status = .running → o.ownerId ≠ m := by
  intro hall
  obtain ⟨s, s', hs, hstart, o, ho, hr, howner⟩ := Sample.overlap
  exact hall s hs s' 11 1 20 1 3 hstart o ho hr howner

/-- The second worker's tick starts no other job for the member until its own has ended. -/
theorem member_fifo_started : ∃ s s' : Sys, Starts Sample.cfg s s' 11 1 20 1 3 ∧
    ∀ s₂, Steps (system Sample.cfg) (Polled Sample.cfg) s' s₂ → ∀ s₃ p₂ opId₂ job₂,
      Starts Sample.cfg s₂ s₃ p₂ 1 opId₂ 1 job₂ → p₂ ≠ 11 ∧ s₂.hasEnded 3 = true := by
  obtain ⟨s, s', hs, hstart, -⟩ := Sample.overlap
  exact ⟨s, s', hstart, (member_fifo hs).2.1 s' 11 1 20 1 3 hstart⟩

end Sys

end DouyinCaption

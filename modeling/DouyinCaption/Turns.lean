import DouyinCaption.Effects

/-!
# What a step makes of a process

A step is taken by one process (`Action.proc`). The others stay as they are
(`procs_of_move`); what becomes of the one that takes it is listed once (`Turn`), and read
backwards for a job, a request after its opening reads and a request under its row lock
(`job_of_move`, `opened_of_move`, `locked_of_move`).
-/

namespace DouyinCaption

open Tables Runs

/-! ## The process of a step -/

/-- The process a step is taken by. -/
def Action.proc : Action → Option ℕ
  | .request p .. | .lock p | .commit p _ | .relookup p | .abort p | .execute p _
  | .startTick p _ | .job p _ | .tick p _ => some p
  | .clock _ | .evict _ | .configure .. => none

namespace Sys

/-- What an await makes of the phase of a job. -/
inductive JobStep (cfg : Config) (s : Sys) (opId : Uuid) : JobPhase → JobPhase → Prop where
  | next {ids : List Uuid} {phase phase' : JobPhase} (h : JobNext cfg s ids opId phase phase') :
      JobStep cfg s opId phase phase'
  | acquire {op : AiOperation} {task : RewriteTask} {prep : Prepared} {token : Uuid}
      {lock : CallLock} {lease : MemberLease} (htoken : token ∉ s.used)
      (hl : s.lock.acquire s.now cfg.leaseSeconds op.ownerId token = some (lock, lease)) :
      JobStep cfg s opId (.ready op task prep) (.leased ⟨op, task, prep, lease⟩)
  | refuseLease {op : AiOperation} {task : RewriteTask} {prep : Prepared} :
      JobStep cfg s opId (.ready op task prep) .done
  | context {e : Execution} {check : ProviderCheck} :
      JobStep cfg s opId (.locked e) (.context s.db check e)
  | answer {e : Execution} {call : ModelCall} {r : Except AiError CompletionResult} :
      JobStep cfg s opId (.calling e call) (.answer e call r)

variable {cfg : Config} {s s' : Sys} {a : Action}

/-- A process that does not act stays as it is, unless it was idle and is started as a
job. -/
theorem procs_of_move (h : Move cfg s a s') {q : ℕ} (hq : a.proc ≠ some q) :
    s'.procs q = s.procs q ∨ s.procs q = .idle ∧ ∃ opId, s'.procs q = .job opId .created := by
  have hne : ∀ {p : ℕ}, some p ≠ some q → q ≠ p := fun hp e => hp (congrArg some e.symm)
  cases h with
  | spawn hp hjob =>
    rename_i p worker job opId owner rows seen workers
    by_cases hj : q = job
    · subst hj
      exact .inr ⟨hjob, opId, by simp⟩
    · left
      simp [Function.update_of_ne hj, Function.update_of_ne (hne hq)]
  | clock | evict | configure => exact .inl rfl
  | _ =>
    left
    simp [Function.update_of_ne (hne hq)]

/-- What a step makes of the process that takes it. -/
inductive Turn (cfg : Config) (s s' : Sys) (q : ℕ) : Action → Proc → Proc → Prop where
  | opened {m : Uuid} {r : Request} {pd : Pending} (ho : opening cfg s.db m r = .pending pd)
      (hdb : s'.db = s.db) : Turn cfg s s' q (.request q m r) .idle (.opened m r pd)
  | answered {m : Uuid} {r : Request} {x : Response} (ho : opening cfg s.db m r = .answer x) :
      Turn cfg s s' q (.request q m r) .idle (.answered m r x)
  | busy {m : Uuid} {r : Request} {pd : Pending} :
      Turn cfg s s' q (.lock q) (.opened m r pd) (.answered m r (.error pd.busy))
  | locked {m : Uuid} {r : Request} {pd : Pending} {t : RewriteTask} (ht : pd.task = some t)
      (hfree : s.rowFree q t.id = true) (hactive : s.db.hasActive t.id = false)
      (hs : s' = (s.setProc q (.locked m r (pd.refresh s.db))).lockRow q t.id) :
      Turn cfg s s' q (.lock q) (.opened m r pd) (.locked m r (pd.refresh s.db))
  | rejected {ids : List Uuid} {x : Proc} {m : Uuid} {r : Request} {pd : Pending} {e : ApiError}
      (hx : x = .locked m r pd ∨ x = .opened m r pd ∧ pd.task = none)
      (hf : pd.finish cfg s.db m ⟨s.now, ids⟩ = .error e) :
      Turn cfg s s' q (.commit q ids) x (.answered m r (.error e))
  | retrying {ids : List Uuid} {x : Proc} {m : Uuid} {r : Request} {sub : Submission}
      (hx : x = .locked m r (.submit sub)) :
      Turn cfg s s' q (.commit q ids) x (.retrying m r sub)
  | refused {ids : List Uuid} {x : Proc} {m : Uuid} {r : Request} {pd : Pending}
      (hx : x = .locked m r pd ∨ x = .opened m r pd ∧ pd.task = none)
      (hpd : ∀ sub, pd ≠ .submit sub) :
      Turn cfg s s' q (.commit q ids) x (.answered m r (pd.integrityError cfg s.db))
  | committed {ids : List Uuid} {x : Proc} {m : Uuid} {r : Request} {pd : Pending} {out : Outcome}
      (hx : x = .locked m r pd ∨ x = .opened m r pd ∧ pd.task = none)
      (hf : pd.finish cfg s.db m ⟨s.now, ids⟩ = .ok out)
      (hc : s.db.commit out.writes = some s'.db) :
      Turn cfg s s' q (.commit q ids) x (.answered m r (out.reply s'.db))
  | relookup {m : Uuid} {r : Request} {sub : Submission} :
      Turn cfg s s' q (.relookup q) (.retrying m r sub)
        (.answered m r (sub.afterIntegrityError cfg s.db))
  | gone {a : Action} {x : Proc} (hx : ∀ m r y, x ≠ .answered m r y) : Turn cfg s s' q a x .gone
  | execute {opId : Uuid} : Turn cfg s s' q (.execute q opId) .idle (.job opId .created)
  | job {e : JobEvent} {opId : Uuid} {phase phase' : JobPhase}
      (h : JobStep cfg s opId phase phase') :
      Turn cfg s s' q (.job q e) (.job opId phase) (.job opId phase')
  | startTick {worker : ℕ} {owners : List Uuid} :
      Turn cfg s s' q (.startTick q worker) .idle (.tick worker (.owners owners))
  | select {worker job : ℕ} {o : Uuid} {rest : List Uuid} :
      Turn cfg s s' q (.tick q (.go job)) (.tick worker (.owners (o :: rest)))
        (.tick worker (.recovering rest (s.db.staleOperations o s.now) []))
  | load {worker job : ℕ} {o : AiOperation} {rest : List Uuid} {todo : List AiOperation}
      {found : List (AiOperation × Option RewriteTask)} :
      Turn cfg s s' q (.tick q (.go job)) (.tick worker (.recovering rest (o :: todo) found))
        (.tick worker (.recovering rest todo (found ++ [(o, s.db.tasks.get o.taskId)])))
  | tick {e : TickEvent} {worker : ℕ} {phase phase' : TickPhase}
      (h : ∀ rest todo found, phase' ≠ .recovering rest todo found) :
      Turn cfg s s' q (.tick q e) (.tick worker phase) (.tick worker phase')

theorem turn_of_move (h : Move cfg s a s') {q : ℕ} (ha : a.proc = some q) :
    Turn cfg s s' q a (s.procs q) (s'.procs q) := by
  cases h with
  | clock | evict | configure => cases ha
  | arrive hp =>
    obtain rfl := Option.some.inj ha
    rw [hp, setProc_procs, Function.update_self]
    split
    · rename_i ho
      exact .answered ho
    · rename_i ho
      exact .opened ho rfl
  | busy hp =>
    obtain rfl := Option.some.inj ha
    rw [hp, setProc_procs, Function.update_self]
    exact .busy
  | lock hp ht hfree hactive =>
    obtain rfl := Option.some.inj ha
    rw [hp, lockRow_procs, setProc_procs, Function.update_self]
    exact .locked ht hfree hactive rfl
  | reject hp hf =>
    obtain rfl := Option.some.inj ha
    rw [unlock_procs, setProc_procs, Function.update_self]
    exact .rejected hp hf
  | refuse hp hf hc =>
    obtain rfl := Option.some.inj ha
    rw [unlock_procs, setProc_procs, Function.update_self]
    unfold Sys.refused
    split
    · exact .retrying (hp.resolve_right fun h => nomatch h.2)
    · rename_i hpd
      exact .refused hp hpd
  | commit hp hids hf hw hc =>
    obtain rfl := Option.some.inj ha
    rw [unlock_procs, setProc_procs, Function.update_self]
    exact .committed hp hf hc
  | relookup hp =>
    obtain rfl := Option.some.inj ha
    rw [hp, setProc_procs, Function.update_self]
    exact .relookup
  | abort hp =>
    obtain rfl := Option.some.inj ha
    rw [unlock_procs, setProc_procs, Function.update_self]
    refine .gone fun m r y hx => ?_
    rcases hp with ⟨_, _, _, hp | hp⟩ | ⟨_, _, _, hp⟩ <;> cases hx.symm.trans hp
  | execute hp =>
    obtain rfl := Option.some.inj ha
    rw [hp, setProc_procs, Function.update_self]
    exact .execute
  | acquire hp htoken hl =>
    obtain rfl := Option.some.inj ha
    rw [enter_procs, Function.update_self, hp]
    exact .job (.acquire htoken hl)
  | refuseLease hp =>
    obtain rfl := Option.some.inj ha
    rw [enter_procs, Function.update_self, hp]
    exact .job .refuseLease
  | context hp =>
    obtain rfl := Option.some.inj ha
    rw [enter_procs, Function.update_self, hp]
    exact .job .context
  | answer hp =>
    obtain rfl := Option.some.inj ha
    rw [enter_procs, Function.update_self, hp]
    exact .job .answer
  | leave hp =>
    rename_i ids opId _ _
    obtain rfl := Option.some.inj ha
    rw [enter_procs, Function.update_self, hp]
    exact .job (.next (.advance rfl : JobNext cfg s ids opId _ _))
  | advance hp hphase hn ht hfree =>
    obtain rfl := Option.some.inj ha
    rw [enter_procs, Function.update_self, hp]
    exact .job (.next (.advance hn))
  | fault hp =>
    obtain rfl := Option.some.inj ha
    rw [enter_procs, Function.update_self, hp]
    exact .job (.next (.fault : JobNext cfg s [] _ _ _))
  | cancel hp =>
    obtain rfl := Option.some.inj ha
    rw [enter_procs, Function.update_self, hp]
    exact .job (.next (.cancel : JobNext cfg s [] _ _ _))
  | settle ha' hp hids hn hgo ht hw hc =>
    obtain rfl := Option.some.inj ha
    rw [enter_procs, Function.update_self, hp]
    exact .job (.next hn)
  | crash hp =>
    obtain rfl := Option.some.inj ha
    rw [unlock_procs, setProc_procs, Function.update_self, hp]
    exact .gone (by simp)
  | startTick hp hph =>
    obtain rfl := Option.some.inj ha
    obtain ⟨owners, rfl⟩ := hph
    rw [setProc_procs, Function.update_self, hp]
    exact .startTick
  | select hp =>
    obtain rfl := Option.some.inj ha
    rw [setProc_procs, Function.update_self, hp]
    exact .select
  | load hp =>
    obtain rfl := Option.some.inj ha
    rw [setProc_procs, Function.update_self, hp]
    exact .load
  | tick hp hx =>
    obtain rfl := Option.some.inj ha
    rw [setProc_procs, Function.update_self, hp]
    rcases hx with rfl | ⟨phase', rfl, h⟩
    · exact .gone (by simp)
    · exact .tick h
  | recover he hp hw hc hx =>
    obtain rfl := Option.some.inj ha
    rw [setProc_procs, Function.update_self, hp]
    rcases hx with rfl | rfl
    · exact .gone (by simp)
    · exact .tick fun _ _ _ => by simp
  | spawn hp hidle =>
    rename_i p worker job opId' owner rows seen workers
    obtain rfl : p = q := Option.some.inj ha
    have hne : p ≠ job := by
      rintro rfl
      rw [hidle] at hp
      cases hp
    rw [setProc_procs, Function.update_of_ne hne, setProc_procs, Function.update_self, hp]
    exact .tick fun _ _ _ => by simp

/-- What a job was before a step. -/
theorem job_of_move (h : Move cfg s a s') {q : ℕ} {opId : Uuid} {phase : JobPhase}
    (hq : s'.procs q = .job opId phase) :
    s.procs q = .job opId phase ∧ a.proc ≠ some q ∨ phase = .created ∧ s.procs q = .idle ∨
      ∃ e phase₀, a = .job q e ∧ s.procs q = .job opId phase₀ ∧
        JobStep cfg s opId phase₀ phase := by
  by_cases ha : a.proc = some q
  · have ht := turn_of_move h ha
    rw [hq] at ht
    generalize s.procs q = x at ht
    cases ht with
    | execute => exact .inr (.inl ⟨rfl, rfl⟩)
    | job h => exact .inr (.inr ⟨_, _, rfl, rfl, h⟩)
  · rcases procs_of_move h ha with hp | ⟨hp, opId', hp'⟩
    · exact .inl ⟨hp ▸ hq, ha⟩
    · obtain ⟨-, rfl⟩ := Proc.job.inj (hp'.symm.trans hq)
      exact .inr (.inl ⟨rfl, hp⟩)

/-- A process that is no new job was what it is, or has taken the step. -/
theorem old_or_turn (h : Move cfg s a s') {q : ℕ} {x : Proc} (hq : s'.procs q = x)
    (hx : ∀ opId, x ≠ .job opId .created) :
    s.procs q = x ∧ a.proc ≠ some q ∨ Turn cfg s s' q a (s.procs q) x := by
  by_cases ha : a.proc = some q
  · exact .inr (hq ▸ turn_of_move h ha)
  · rcases procs_of_move h ha with hp | ⟨-, opId, hp⟩
    · exact .inl ⟨hp ▸ hq, ha⟩
    · exact absurd (hq.symm.trans hp) (hx opId)

/-- What a request after its opening reads was before a step. -/
theorem opened_of_move (h : Move cfg s a s') {q : ℕ} {m : Uuid} {r : Request} {pd : Pending}
    (hq : s'.procs q = .opened m r pd) :
    s.procs q = .opened m r pd ∧ a.proc ≠ some q ∨
      a = .request q m r ∧ opening cfg s.db m r = .pending pd ∧ s'.db = s.db := by
  refine (old_or_turn h hq fun _ => by simp).imp_right fun ht => ?_
  generalize s.procs q = x at ht
  cases ht with
  | opened ho hdb => exact ⟨rfl, ho, hdb⟩

/-- What a request that holds its row lock was before a step. -/
theorem locked_of_move (h : Move cfg s a s') {q : ℕ} {m : Uuid} {r : Request} {pd : Pending}
    (hq : s'.procs q = .locked m r pd) :
    s.procs q = .locked m r pd ∧ a.proc ≠ some q ∨
      ∃ pd₀ t, a = .lock q ∧ s.procs q = .opened m r pd₀ ∧ pd₀.task = some t ∧
        s.rowFree q t.id = true ∧ s.db.hasActive t.id = false ∧ pd = pd₀.refresh s.db ∧
        s' = (s.setProc q (.locked m r pd)).lockRow q t.id := by
  refine (old_or_turn h hq fun _ => by simp).imp_right fun ht => ?_
  generalize s.procs q = x at ht
  cases ht with
  | locked ht hfree hactive hs => exact ⟨_, _, rfl, rfl, ht, hfree, hactive, rfl, hs⟩

/-- **An answer stands.** -/
theorem answered_of_move (h : Move cfg s a s') {q : ℕ} {m : Uuid} {r : Request} {x : Response}
    (hq : s.procs q = .answered m r x) : s'.procs q = .answered m r x := by
  by_cases ha : a.proc = some q
  · have ht := turn_of_move h ha
    rw [hq] at ht
    generalize s'.procs q = y at ht
    cases ht with
    | rejected hx | committed hx => rcases hx with hx | ⟨hx, -⟩ <;> cases hx
    | retrying hx => cases hx
    | refused hx => rcases hx with hx | ⟨hx, -⟩ <;> cases hx
    | gone hx => exact absurd rfl (hx m r x)
  · rcases procs_of_move h ha with hp | ⟨hp, -⟩
    · exact hp.trans hq
    · cases hq.symm.trans hp

/-! ## The phases of a job, backwards -/

/-- The phase a job was in before it came to a phase, and what it has found there. -/
def From (cfg : Config) (s : Sys) (opId : Uuid) (phase : JobPhase) : JobPhase → Prop
  | .created => False
  | .began op task =>
      phase = .created ∧ s.db.operations.get opId = some op ∧ op.status = .queued ∧
        s.db.tasks.get op.taskId = some task ∧ op.requestPayload.kind = op.kind
  | .recovering op task todo found =>
      (phase = .began op task ∧ todo = s.db.staleOperations op.ownerId s.now ∧ found = []) ∨
        ∃ o found₀, phase = .recovering op task (o :: todo) found₀ ∧
          found = found₀ ++ [(o, JobPhase.staleTask s.db task o)]
  | .reading op task todo reads =>
      (∃ found, phase = .recovering op task [] found ∧ todo = op.requestPayload.queries ∧
        reads = {}) ∨
        ∃ q reads₀, phase = .reading op task (q :: todo) reads₀ ∧
          q.run s.db task.id op.requestPayload reads₀ = .ok reads
  | .ready op task prepared =>
      ∃ reads, phase = .reading op task [] reads ∧
        assemble op.requestPayload reads = .ok prepared
  | .leased e =>
      phase = .ready e.op e.task e.prepared ∧ ∃ token lock, token ∉ s.used ∧
        s.lock.acquire s.now cfg.leaseSeconds e.op.ownerId token = some (lock, e.lease)
  | .checked e =>
      ∃ op₀, phase = .leased { e with op := op₀ } ∧ s.db.operations.get op₀.id = some e.op ∧
        e.op.status = .queued
  | .locked e =>
      ∃ task₀, phase = .checked { e with task := task₀ } ∧
        s.db.tasks.get task₀.id = some e.task
  | .admitted e _ => phase = .locked e ∧ e.task.state = e.op.runningTaskState
  | .claimed e model => phase = .admitted e model ∧ s.db.isQueued e.op.id = true
  | .calling e call =>
      ∃ model, phase = .claimed e model ∧
        invoke cfg e.task e.op.initialTaskState model e.prepared = .ok call
  | .returned e result =>
      ∃ call response, phase = .calling e call ∧ call.resume response = .ok result
  | .succeeded e => ∃ result, phase = .returned e result
  | .failing e _ =>
      (∃ model, phase = .claimed e model) ∨ (∃ call, phase = .calling e call) ∨
        ∃ result, phase = .returned e result
  | .restoring e _ =>
      (∃ model, phase = .claimed e model) ∨ (∃ call, phase = .calling e call) ∨
        (∃ result, phase = .returned e result) ∨ phase = .succeeded e
  | .restored e arm op task =>
      phase = .restoring e arm ∧ op = s.db.operations.get e.op.id ∧
        task = s.db.tasks.get e.task.id
  | .leaving lease _ => phase.lease = some lease
  | .handling _ => True
  | .sweeping error op => phase = .handling error ∧ op = s.db.operations.get opId
  | .done => True

theorem from_begin (s : Sys) (opId : Uuid) :
    From cfg s opId .created (JobPhase.begin s.db opId) := by
  rw [JobPhase.begin]
  split
  · trivial
  · rename_i op hop
    by_cases hq : op.status = .queued
    · rw [if_neg (not_not.mpr hq)]
      split
      · split
        · trivial
        · rename_i task ht
          split
          · rename_i hkind
            exact ⟨rfl, hop, hq, ht, hkind⟩
          · trivial
      · trivial
    · rw [if_pos hq]
      trivial

theorem from_of_advance {ids : List Uuid} {opId : Uuid} {phase phase' : JobPhase}
    (h : phase.advance cfg s.db ⟨s.now, ids⟩ opId = some phase') :
    From cfg s opId phase phase' := by
  cases phase with
  | created =>
    obtain rfl := Option.some.inj h
    exact from_begin s opId
  | began op task =>
    obtain rfl := Option.some.inj h
    exact .inl ⟨rfl, rfl, rfl⟩
  | recovering op task todo found =>
    cases todo with
    | nil =>
      obtain rfl := Option.some.inj h
      exact .inl ⟨found, rfl, rfl, rfl⟩
    | cons o todo =>
      obtain rfl := Option.some.inj h
      exact .inr ⟨o, found, rfl, rfl⟩
  | reading op task todo reads =>
    cases todo with
    | nil =>
      simp only [JobPhase.advance] at h
      split at h
      · rename_i prepared hp
        obtain rfl := Option.some.inj h
        exact ⟨reads, rfl, hp⟩
      · obtain rfl := Option.some.inj h
        trivial
    | cons q todo =>
      simp only [JobPhase.advance] at h
      split at h
      · rename_i reads' hr
        obtain rfl := Option.some.inj h
        exact .inr ⟨q, reads, rfl, hr⟩
      · obtain rfl := Option.some.inj h
        trivial
  | leased e =>
    simp only [JobPhase.advance] at h
    split at h
    · obtain rfl := Option.some.inj h
      exact rfl
    · rename_i o ho
      split at h
      · rename_i hq
        obtain rfl := Option.some.inj h
        exact ⟨e.op, rfl, ho, hq⟩
      · obtain rfl := Option.some.inj h
        exact rfl
  | checked e =>
    simp only [JobPhase.advance] at h
    split at h
    · obtain rfl := Option.some.inj h
      exact rfl
    · rename_i t ht
      obtain rfl := Option.some.inj h
      exact ⟨e.task, rfl, ht⟩
  | admitted e model =>
    simp only [JobPhase.advance] at h
    split at h
    · rename_i hq
      obtain rfl := Option.some.inj h
      exact ⟨rfl, hq⟩
    · obtain rfl := Option.some.inj h
      exact rfl
  | claimed e model =>
    simp only [JobPhase.advance] at h
    split at h
    · rename_i call hc
      obtain rfl := Option.some.inj h
      exact ⟨model, rfl, hc⟩
    · obtain rfl := Option.some.inj h
      exact .inl ⟨model, rfl⟩
  | returned e result =>
    simp only [JobPhase.advance] at h
    split at h
    · obtain rfl := Option.some.inj h
      exact ⟨result, rfl⟩
    · obtain rfl := Option.some.inj h
      exact .inr (.inr ⟨result, rfl⟩)
  | succeeded e =>
    obtain rfl := Option.some.inj h
    exact rfl
  | failing e failure =>
    obtain rfl := Option.some.inj h
    exact rfl
  | restoring e arm =>
    obtain rfl := Option.some.inj h
    exact ⟨rfl, rfl, rfl⟩
  | restored e arm op task =>
    simp only [JobPhase.advance] at h
    split at h <;> (obtain rfl := Option.some.inj h; exact rfl)
  | leaving lease exit =>
    obtain rfl := Option.some.inj h
    cases exit <;> trivial
  | handling error =>
    obtain rfl := Option.some.inj h
    exact ⟨rfl, rfl⟩
  | sweeping error op =>
    obtain rfl := Option.some.inj h
    trivial
  | ready | locked | calling | done => cases h

/-- **What a job was before it came to a phase.** -/
theorem from_of_step {opId : Uuid} {phase phase' : JobPhase}
    (h : JobStep cfg s opId phase phase') : From cfg s opId phase phase' := by
  cases h with
  | next hn =>
    cases hn with
    | advance h => exact from_of_advance h
    | fault =>
      cases phase with
      | leaving lease exit => cases exit <;> trivial
      | claimed e model => exact .inl ⟨model, rfl⟩
      | calling e call => exact .inr (.inl ⟨call, rfl⟩)
      | returned e result => exact .inr (.inr (.inl ⟨result, rfl⟩))
      | succeeded e => exact .inr (.inr (.inr rfl))
      | leased | checked | locked | admitted | failing | restoring | restored => exact rfl
      | _ => trivial
    | cancel =>
      cases phase with
      | claimed e model => exact .inl ⟨model, rfl⟩
      | calling e call => exact .inr (.inl ⟨call, rfl⟩)
      | returned e result => exact .inr (.inr (.inl ⟨result, rfl⟩))
      | succeeded e => exact .inr (.inr (.inr rfl))
      | leased | checked | locked | admitted | failing | restoring | restored => exact rfl
      | _ => trivial
  | acquire htoken hl => exact ⟨rfl, _, _, htoken, hl⟩
  | refuseLease => trivial
  | context =>
    rw [JobPhase.context]
    split
    · exact rfl
    · split
      · exact rfl
      · exact rfl
      · split
        · exact rfl
        · rename_i hstate
          exact ⟨rfl, not_not.mp hstate⟩
  | answer =>
    rename_i e call r
    unfold JobPhase.answer
    split
    · exact .inr (.inl ⟨call, rfl⟩)
    · rename_i response
      split
      · rename_i result hr
        exact ⟨call, response, rfl, hr⟩
      · exact .inr (.inl ⟨call, rfl⟩)

end Sys

end DouyinCaption

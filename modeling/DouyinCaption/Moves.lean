import DouyinCaption.System

/-!
# What a step can do

`Move` lists once what a step of the system can do, with the guards under which it does it;
`move_of_step` is the inversion of the step function. Every invariant is proved from `Move`,
and those of the rows alone from `db_of_step`: the rows change by the commit of a pending
transaction (`Tx`), or by the identity module.
-/

namespace DouyinCaption

open Tables Runs

namespace Sys

/-! ## The pieces of a step and the fields they leave alone -/

section Pieces

variable (s : Sys) (p : ℕ) (x : Proc) (taskId : Uuid) (opId : Uuid) (phase : JobPhase)

@[simp] theorem setProc_db : (s.setProc p x).db = s.db := rfl
@[simp] theorem setProc_now : (s.setProc p x).now = s.now := rfl
@[simp] theorem setProc_used : (s.setProc p x).used = s.used := rfl
@[simp] theorem setProc_rowLocks : (s.setProc p x).rowLocks = s.rowLocks := rfl
@[simp] theorem setProc_lock : (s.setProc p x).lock = s.lock := rfl
@[simp] theorem setProc_providerCalls : (s.setProc p x).providerCalls = s.providerCalls := rfl
@[simp] theorem setProc_stored : (s.setProc p x).stored = s.stored := rfl
@[simp] theorem setProc_procs : (s.setProc p x).procs = Function.update s.procs p x := rfl

@[simp] theorem unlock_db : (s.unlock p).db = s.db := rfl
@[simp] theorem unlock_now : (s.unlock p).now = s.now := rfl
@[simp] theorem unlock_used : (s.unlock p).used = s.used := rfl
@[simp] theorem unlock_procs : (s.unlock p).procs = s.procs := rfl
@[simp] theorem unlock_lock : (s.unlock p).lock = s.lock := rfl
@[simp] theorem unlock_providerCalls : (s.unlock p).providerCalls = s.providerCalls := rfl
@[simp] theorem unlock_stored : (s.unlock p).stored = s.stored := rfl

@[simp] theorem lockRow_db : (s.lockRow p taskId).db = s.db := rfl
@[simp] theorem lockRow_now : (s.lockRow p taskId).now = s.now := rfl
@[simp] theorem lockRow_used : (s.lockRow p taskId).used = s.used := rfl
@[simp] theorem lockRow_procs : (s.lockRow p taskId).procs = s.procs := rfl
@[simp] theorem lockRow_lock : (s.lockRow p taskId).lock = s.lock := rfl
@[simp] theorem lockRow_providerCalls :
    (s.lockRow p taskId).providerCalls = s.providerCalls := rfl
@[simp] theorem lockRow_stored : (s.lockRow p taskId).stored = s.stored := rfl
@[simp] theorem lockRow_rowLocks :
    (s.lockRow p taskId).rowLocks = Function.update s.rowLocks taskId (some p) := rfl

/-- Releasing the locks of a process keeps the locks of the others. -/
theorem unlock_rowLocks_of_ne {q : ℕ} (hq : q ≠ p) {t : Uuid} :
    (s.unlock p).rowLocks t = some q ↔ s.rowLocks t = some q := by
  rw [unlock]
  by_cases h : s.rowLocks t = some p
  · simp only [h, if_true, reduceCtorEq, false_iff, Option.some.injEq]
    exact fun e => hq e.symm
  · simp only [h, if_false]

/-- Entering a phase touches the process, its row lock and the calls of the provider. -/
@[simp] theorem enter_db : (s.enter p opId phase).db = s.db := by
  rw [enter]
  cases phase.rowLock <;> cases phase.isCalling <;> rfl

@[simp] theorem enter_now : (s.enter p opId phase).now = s.now := by
  rw [enter]
  cases phase.rowLock <;> cases phase.isCalling <;> rfl

@[simp] theorem enter_used : (s.enter p opId phase).used = s.used := by
  rw [enter]
  cases phase.rowLock <;> cases phase.isCalling <;> rfl

@[simp] theorem enter_lock : (s.enter p opId phase).lock = s.lock := by
  rw [enter]
  cases phase.rowLock <;> cases phase.isCalling <;> rfl

@[simp] theorem enter_stored : (s.enter p opId phase).stored = s.stored := by
  rw [enter]
  cases phase.rowLock <;> cases phase.isCalling <;> rfl

@[simp] theorem enter_procs :
    (s.enter p opId phase).procs = Function.update s.procs p (.job opId phase) := by
  rw [enter]
  cases phase.rowLock <;> cases phase.isCalling <;> rfl

/-- The phase that waits for the provider is entered with a call. -/
theorem enter_providerCalls : (s.enter p opId phase).providerCalls =
    if phase.isCalling then opId :: s.providerCalls else s.providerCalls := by
  rw [enter]
  cases phase.rowLock <;> cases phase.isCalling <;> rfl

/-- Entering a phase keeps the row locks of the other processes. -/
theorem enter_rowLocks_of_ne {q : ℕ} (hq : q ≠ p) {t : Uuid}
    (hfree : ∀ t' ∈ phase.rowLock, s.rowFree p t' = true) :
    (s.enter p opId phase).rowLocks t = some q ↔ s.rowLocks t = some q := by
  rcases hl : phase.rowLock with _ | taskId
  · have hcalls : (s.enter p opId phase).rowLocks =
        ((s.setProc p (.job opId phase)).unlock p).rowLocks := by
      rw [enter]
      rw [hl]
      cases phase.isCalling <;> rfl
    rw [hcalls]
    exact unlock_rowLocks_of_ne _ p hq
  · have hcalls : (s.enter p opId phase).rowLocks =
        ((s.setProc p (.job opId phase)).lockRow p taskId).rowLocks := by
      rw [enter]
      rw [hl]
      cases phase.isCalling <;> rfl
    have hf := hfree taskId hl
    simp only [hcalls, lockRow_rowLocks, setProc_rowLocks]
    by_cases ht : t = taskId
    · subst ht
      rw [Function.update_self]
      rw [rowFree] at hf
      constructor
      · exact fun e => absurd (Option.some.inj e).symm hq
      · intro e
        rw [e] at hf
        exact absurd (by simpa using hf) hq
    · rw [Function.update_of_ne ht]

end Pieces

/-! ## Commits -/

/-- A commit succeeds where no other process has locked what it writes and no index is broken. -/
theorem commit_eq_some {s s' : Sys} {p : ℕ} {ids : List Uuid} {ws : List Write} :
    s.commit p ids ws = some s' ↔ s.mayWrite p ws = true ∧
      ∃ db, s.db.commit ws = some db ∧ s' = { s with db, used := ids ++ s.used } := by
  rw [commit]
  split
  · rename_i h
    simp only [h, true_and, Option.map_eq_some_iff]
    exact ⟨fun ⟨db, h, e⟩ => ⟨db, h, e.symm⟩, fun ⟨db, h, e⟩ => ⟨db, h, e.symm⟩⟩
  · rename_i h
    simp [h]

/-- The note a stored result leaves. -/
def noteStored (opId : Uuid) (stored : List Uuid) : JobPhase → List Uuid
  | .returned .. => opId :: stored
  | _ => stored

/-- A job's await that commits. -/
theorem settle_some {s s' : Sys} {p : ℕ} {ids : List Uuid} {opId : Uuid} {phase : JobPhase}
    {ws : List Write} (h : s.settle p ids opId phase (some ws) = some s') :
    s.mayWrite p ws = true ∧ ∃ db, s.db.commit ws = some db ∧
      s' = { s with db, used := ids ++ s.used, stored := noteStored opId s.stored phase } := by
  simp only [settle, Option.map_eq_some_iff] at h
  obtain ⟨s₁, h₁, rfl⟩ := h
  obtain ⟨hw, db, hdb, rfl⟩ := commit_eq_some.mp h₁
  refine ⟨hw, db, hdb, ?_⟩
  cases phase <;> rfl

/-! ## Moves -/

/-- The phases a job can go to from a phase: after its await, or where an exception or a
cancellation delivered there is handled. -/
inductive JobNext (cfg : Config) (s : Sys) (ids : List Uuid) (opId : Uuid) (phase : JobPhase) :
    JobPhase → Prop where
  | advance {phase' : JobPhase} :
      phase.advance cfg s.db ⟨s.now, ids⟩ opId = some phase' → JobNext cfg s ids opId phase phase'
  | fault : JobNext cfg s ids opId phase phase.onFault
  | cancel : JobNext cfg s ids opId phase phase.onCancel

/-- Everything a step can do. -/
inductive Move (cfg : Config) (s : Sys) : Action → Sys → Prop where
  /-- a request arrives -/
  | arrive {p : ℕ} {m : Uuid} {r : Request} (hp : s.procs p = .idle) :
      Move cfg s (.request p m r) (s.setProc p (match opening cfg s.db m r with
        | .answer response => .answered m r response
        | .pending pending => .opened m r pending))
  /-- a request finds its task occupied -/
  | busy {p : ℕ} {m : Uuid} {r : Request} {pd : Pending} {t : RewriteTask}
      (hp : s.procs p = .opened m r pd) (ht : pd.task = some t)
      (hactive : s.db.hasActive t.id = true) :
      Move cfg s (.lock p) (s.setProc p (.answered m r (.error pd.busy)))
  /-- a request locks its task -/
  | lock {p : ℕ} {m : Uuid} {r : Request} {pd : Pending} {t : RewriteTask}
      (hp : s.procs p = .opened m r pd) (ht : pd.task = some t)
      (hfree : s.rowFree p t.id = true) (hactive : s.db.hasActive t.id = false) :
      Move cfg s (.lock p) ((s.setProc p (.locked m r (pd.refresh s.db))).lockRow p t.id)
  /-- a request is refused -/
  | reject {p : ℕ} {ids : List Uuid} {m : Uuid} {r : Request} {pd : Pending} {e : ApiError}
      (hp : s.procs p = .locked m r pd ∨ s.procs p = .opened m r pd ∧ pd.task = none)
      (hf : pd.finish cfg s.db m ⟨s.now, ids⟩ = .error e) :
      Move cfg s (.commit p ids) ((s.setProc p (.answered m r (.error e))).unlock p)
  /-- the commit of a request breaks a unique index -/
  | refuse {p : ℕ} {ids : List Uuid} {m : Uuid} {r : Request} {pd : Pending} {out : Outcome}
      (hp : s.procs p = .locked m r pd ∨ s.procs p = .opened m r pd ∧ pd.task = none)
      (hf : pd.finish cfg s.db m ⟨s.now, ids⟩ = .ok out) (hc : s.db.commit out.writes = none) :
      Move cfg s (.commit p ids) ((s.setProc p (refused cfg s.db m r pd)).unlock p)
  /-- a request commits -/
  | commit {p : ℕ} {ids : List Uuid} {m : Uuid} {r : Request} {pd : Pending} {out : Outcome}
      {db : Db} (hp : s.procs p = .locked m r pd ∨ s.procs p = .opened m r pd ∧ pd.task = none)
      (hids : s.Draws ids) (hf : pd.finish cfg s.db m ⟨s.now, ids⟩ = .ok out)
      (hw : s.mayWrite p out.writes = true) (hc : s.db.commit out.writes = some db) :
      Move cfg s (.commit p ids) (({ s with db, used := ids ++ s.used }.setProc p
        (.answered m r (out.reply db))).unlock p)
  /-- a submission looks its key up again -/
  | relookup {p : ℕ} {m : Uuid} {r : Request} {sub : Submission}
      (hp : s.procs p = .retrying m r sub) :
      Move cfg s (.relookup p)
        (s.setProc p (.answered m r (sub.afterIntegrityError cfg s.db)))
  /-- a request ends without an answer -/
  | abort {p : ℕ}
      (hp : (∃ m r pd, s.procs p = .opened m r pd ∨ s.procs p = .locked m r pd) ∨
        ∃ m r sub, s.procs p = .retrying m r sub) :
      Move cfg s (.abort p) ((s.setProc p .gone).unlock p)
  /-- a job starts -/
  | execute {p : ℕ} {opId : Uuid} (hp : s.procs p = .idle) :
      Move cfg s (.execute p opId) (s.setProc p (.job opId .created))
  /-- a job acquires the lease -/
  | acquire {p : ℕ} {opId : Uuid} {op : AiOperation} {task : RewriteTask} {prep : Prepared}
      {token : Uuid} {lock : CallLock} {lease : MemberLease}
      (hp : s.procs p = .job opId (.ready op task prep)) (htoken : token ∉ s.used)
      (hl : s.lock.acquire s.now cfg.leaseSeconds op.ownerId token = some (lock, lease)) :
      Move cfg s (.job p (.acquire token true)) ({ s with lock, used := token :: s.used }.enter p
        opId (.leased ⟨op, task, prep, lease⟩))
  /-- a job does not get the lease -/
  | refuseLease {p : ℕ} {opId : Uuid} {op : AiOperation} {task : RewriteTask} {prep : Prepared}
      {token : Uuid} {reachable : Bool} (hp : s.procs p = .job opId (.ready op task prep)) :
      Move cfg s (.job p (.acquire token reachable)) (s.enter p opId .done)
  /-- a job has read its provider context -/
  | context {p : ℕ} {opId : Uuid} {e : Execution} {check : ProviderCheck}
      (hp : s.procs p = .job opId (.locked e)) :
      Move cfg s (.job p (.context check)) (s.enter p opId (.context s.db check e))
  /-- a job has its answer -/
  | answer {p : ℕ} {opId : Uuid} {e : Execution} {call : ModelCall}
      {r : Except AiError CompletionResult} (hp : s.procs p = .job opId (.calling e call)) :
      Move cfg s (.job p (.answer r)) (s.enter p opId (.answer e call r))
  /-- a job leaves the block of its lease -/
  | leave {p : ℕ} {ids : List Uuid} {opId : Uuid} {lease : MemberLease} {exit : Exit}
      (hp : s.procs p = .job opId (.leaving lease exit)) :
      Move cfg s (.job p (.go ids)) ({ s with
        lock := s.lock.release s.now lease.key lease.token }.enter p opId exit.phase)
  /-- a job goes on without a commit -/
  | advance {p : ℕ} {ids : List Uuid} {opId : Uuid} {phase phase' : JobPhase}
      (hp : s.procs p = .job opId phase) (hphase : ∀ lease exit, phase ≠ .leaving lease exit)
      (hn : phase.advance cfg s.db ⟨s.now, ids⟩ opId = some phase')
      (ht : phase.transaction s.db ⟨s.now, ids⟩ opId = none)
      (hfree : ∀ t ∈ phase'.rowLock, s.rowFree p t = true) :
      Move cfg s (.job p (.go ids)) (s.enter p opId phase')
  /-- an await of a job raises an exception, without a commit -/
  | fault {p : ℕ} {ids : List Uuid} {opId : Uuid} {phase : JobPhase}
      (hp : s.procs p = .job opId phase) :
      Move cfg s (.job p (.fault false ids)) (s.enter p opId phase.onFault)
  /-- a cancellation is delivered to a job, without a commit -/
  | cancel {p : ℕ} {ids : List Uuid} {opId : Uuid} {phase : JobPhase}
      (hp : s.procs p = .job opId phase) :
      Move cfg s (.job p (.cancel false ids)) (s.enter p opId phase.onCancel)
  /-- a job commits -/
  | settle {p : ℕ} {a : JobEvent} {ids : List Uuid} {opId : Uuid} {phase phase' : JobPhase}
      {ws : List Write} {db : Db} (ha : a = .go ids ∨ a = .fault true ids ∨ a = .cancel true ids)
      (hp : s.procs p = .job opId phase) (hids : s.Draws ids)
      (hn : JobNext cfg s ids opId phase phase')
      (hgo : a = .go ids → phase.advance cfg s.db ⟨s.now, ids⟩ opId = some phase')
      (ht : phase.transaction s.db ⟨s.now, ids⟩ opId = some ws)
      (hw : s.mayWrite p ws = true) (hc : s.db.commit ws = some db) :
      Move cfg s (.job p a) ({ s with
        db, used := ids ++ s.used, stored := noteStored opId s.stored phase }.enter p opId phase')
  /-- a worker of a job dies -/
  | crash {p : ℕ} {opId : Uuid} {phase : JobPhase} (hp : s.procs p = .job opId phase) :
      Move cfg s (.job p .crash) ((s.setProc p .gone).unlock p)
  /-- a tick starts -/
  | startTick {p worker : ℕ} {workers : ℕ → List (Uuid × ℕ)} {phase : TickPhase}
      (hp : s.procs p = .idle) (hph : ∃ owners, phase = .owners owners) :
      Move cfg s (.startTick p worker) ({ s with workers }.setProc p (.tick worker phase))
  /-- a tick selects the stale operations of an owner -/
  | select {p worker job : ℕ} {o : Uuid} {rest : List Uuid}
      (hp : s.procs p = .tick worker (.owners (o :: rest))) :
      Move cfg s (.tick p (.go job)) (s.setProc p (.tick worker
        (.recovering rest (s.db.staleOperations o s.now) [])))
  /-- a tick loads the task of a stale operation -/
  | load {p worker job : ℕ} {o : AiOperation} {rest : List Uuid} {todo : List AiOperation}
      {found : List (AiOperation × Option RewriteTask)}
      (hp : s.procs p = .tick worker (.recovering rest (o :: todo) found)) :
      Move cfg s (.tick p (.go job)) (s.setProc p (.tick worker
        (.recovering rest todo (found ++ [(o, s.db.tasks.get o.taskId)]))))
  /-- a tick goes on without recovering -/
  | tick {p worker : ℕ} {e : TickEvent} {phase : TickPhase} {x : Proc}
      (hp : s.procs p = .tick worker phase)
      (hx : x = .gone ∨ ∃ phase', x = .tick worker phase' ∧
        ∀ rest todo found, phase' ≠ .recovering rest todo found) :
      Move cfg s (.tick p e) (s.setProc p x)
  /-- a tick commits a recovery -/
  | recover {p worker : ℕ} {e : TickEvent} {rest : List Uuid}
      {found : List (AiOperation × Option RewriteTask)} {x : Proc} {db : Db}
      (he : e = .fault true ∨ ∃ job, e = .go job)
      (hp : s.procs p = .tick worker (.recovering rest [] found))
      (hw : s.mayWrite p (recoverWrites s.now found) = true)
      (hc : s.db.commit (recoverWrites s.now found) = some db)
      (hx : x = .gone ∨ x = .tick worker (.owners rest)) :
      Move cfg s (.tick p e) ({ s with db }.setProc p x)
  /-- a tick starts a job -/
  | spawn {p worker job : ℕ} {opId owner : Uuid} {rows : List (Uuid × Uuid)} {seen : List Uuid}
      {workers : ℕ → List (Uuid × ℕ)}
      (hp : s.procs p = .tick worker (.spawning ((opId, owner) :: rows) seen))
      (hjob : s.procs job = .idle) :
      Move cfg s (.tick p (.go job)) (({ s with workers }.setProc p
        (.tick worker (.spawning rows (owner :: seen)))).setProc job (.job opId .created))
  /-- time passes -/
  | clock {now : ℕ} (h : s.now ≤ now) : Move cfg s (.clock now) { s with now }
  /-- a key is dropped -/
  | evict {member : Uuid} : Move cfg s (.evict member) { s with lock := s.lock.evict member }
  /-- members and provider settings change -/
  | configure {members : Table Member} {providers : Table ProviderSetting} :
      Move cfg s (.configure members providers)
        { s with db := { s.db with members, providers } }

/-! ## The inversion of the step function -/

variable {cfg : Config} {s s' : Sys}

/-- A request arrives. -/
theorem move_of_arrive {p : ℕ} {m : Uuid} {r : Request} (h : s.arrive cfg p m r = some s') :
    Move cfg s (.request p m r) s' := by
  rw [arrive] at h
  split at h
  · rename_i hp
    obtain rfl := Option.some.inj h
    exact .arrive hp
  · cases h

/-- A request waits for the row of its task, and finds the task occupied or locks it. -/
theorem move_of_takeLock {p : ℕ} (h : s.takeLock p = some s') : Move cfg s (.lock p) s' := by
  rw [takeLock] at h
  split at h
  · rename_i m r pd hp
    split at h
    · cases h
    · rename_i t ht
      split_ifs at h with hfree hactive
      · obtain rfl := Option.some.inj h
        exact .busy hp ht hactive
      · obtain rfl := Option.some.inj h
        exact .lock hp ht hfree (by simpa using hactive)
  · cases h

/-- A request ends in an error, at a unique index, or with its commit. -/
theorem move_of_complete {p : ℕ} {ids : List Uuid} {m : Uuid} {r : Request} {pd : Pending}
    (hp : s.procs p = .locked m r pd ∨ s.procs p = .opened m r pd ∧ pd.task = none)
    (hids : s.Draws ids) (h : s.complete cfg p ids m r pd = some s') :
    Move cfg s (.commit p ids) s' := by
  rw [complete] at h
  split at h
  · rename_i e he
    obtain rfl := Option.some.inj h
    exact .reject hp he
  · rename_i out hout
    split at h
    · rename_i hw
      split at h
      · rename_i hc
        obtain rfl := Option.some.inj h
        exact .refuse hp hout hc
      · rename_i db hc
        obtain rfl := Option.some.inj h
        exact .commit hp hids hout hw hc
    · cases h

/-- Only a request that has locked its task, or has none, is completed. -/
theorem move_of_commitRequest {p : ℕ} {ids : List Uuid} (h : s.commitRequest cfg p ids = some s') :
    Move cfg s (.commit p ids) s' := by
  rw [commitRequest] at h
  split at h
  · rename_i hids
    split at h
    · rename_i hp
      exact move_of_complete (.inl hp) hids h
    · rename_i pd hp
      split at h
      · rename_i ht
        exact move_of_complete (.inr ⟨hp, Option.isNone_iff_eq_none.mp ht⟩) hids h
      · cases h
    · cases h
  · cases h

/-- A request may be cut off wherever it waits. -/
theorem move_of_abort {p : ℕ} (h : s.abort p = some s') : Move cfg s (.abort p) s' := by
  rw [abort] at h
  split at h
  · rename_i hp
    obtain rfl := Option.some.inj h
    exact .abort (.inl ⟨_, _, _, .inl hp⟩)
  · rename_i hp
    obtain rfl := Option.some.inj h
    exact .abort (.inl ⟨_, _, _, .inr hp⟩)
  · rename_i hp
    obtain rfl := Option.some.inj h
    exact .abort (.inr ⟨_, _, _, hp⟩)
  · cases h

/-- An await of a job returns: what it commits, and the phase after it. -/
theorem move_of_proceed {p : ℕ} {ids : List Uuid} {opId : Uuid} {phase : JobPhase}
    (hp : s.procs p = .job opId phase) (h : s.proceed cfg p ids opId phase = some s') :
    Move cfg s (.job p (.go ids)) s' := by
  rw [proceed] at h
  split at h
  swap
  · cases h
  rename_i hids
  obtain ⟨phase', hn, h⟩ := Option.bind_eq_some_iff.mp h
  split at h
  swap
  · cases h
  rename_i hfree
  obtain ⟨s₁, hs, rfl⟩ := Option.map_eq_some_iff.mp h
  rcases ht : phase.transaction s.db ⟨s.now, ids⟩ opId with _ | ws
  · rw [ht] at hs
    obtain rfl := Option.some.inj hs
    -- leaving the lease is the one phase that changes more than the process
    by_cases hl : ∃ lease exit, phase = .leaving lease exit
    · obtain ⟨lease, exit, rfl⟩ := hl
      obtain rfl := Option.some.inj hn
      exact .leave hp
    · have hrel : s.releaseLease phase = s := by
        cases phase <;> first
          | rfl
          | exact absurd ⟨_, _, rfl⟩ hl
      rw [hrel]
      refine .advance hp (fun lease exit e => hl ⟨lease, exit, e⟩) hn ht ?_
      intro t htl
      rw [Option.all_eq_true] at hfree
      exact hfree t htl
  · -- a phase that commits holds on to its lease
    rw [ht] at hs
    obtain ⟨hw, db, hc, rfl⟩ := settle_some hs
    have hrel : ∀ s₂ : Sys, s₂.releaseLease phase = s₂ := by
      intro s₂
      cases phase <;> first
        | rfl
        | cases ht
    rw [hrel]
    exact .settle (.inl rfl) hp hids (.advance hn) (fun _ => hn) ht hw hc

/-- An await that ends badly after its commit took effect. -/
theorem move_of_effective {p : ℕ} {ids : List Uuid} {opId : Uuid} {phase phase' : JobPhase}
    {a : JobEvent} (hp : s.procs p = .job opId phase)
    (ha : a = .fault true ids ∨ a = .cancel true ids) (hn : JobNext cfg s ids opId phase phase')
    (h : s.interrupt p true ids opId phase phase' = some s') : Move cfg s (.job p a) s' := by
  simp only [interrupt, if_true] at h
  split at h
  · rename_i hids
    obtain ⟨ws, ht, h⟩ := Option.bind_eq_some_iff.mp h
    obtain ⟨s₁, hs, rfl⟩ := Option.map_eq_some_iff.mp h
    obtain ⟨hw, db, hc, rfl⟩ := settle_some hs
    refine .settle (.inr ha) hp hids hn ?_ ht hw hc
    rcases ha with rfl | rfl <;> exact fun e => nomatch e
  · cases h

/-- The events of a job. -/
theorem move_of_stepJob {p : ℕ} {opId : Uuid} {phase : JobPhase} {e : JobEvent}
    (hp : s.procs p = .job opId phase) (h : s.stepJob cfg p opId phase e = some s') :
    Move cfg s (.job p e) s' := by
  cases e with
  | go ids => exact move_of_proceed hp h
  | acquire token reachable =>
    simp only [stepJob, acquireLease] at h
    split at h
    swap
    · cases h
    split_ifs at h with htoken hreach
    · split at h
      · obtain rfl := Option.some.inj h
        exact .refuseLease hp
      · rename_i hl
        obtain rfl := Option.some.inj h
        obtain rfl : reachable = true := hreach
        exact .acquire hp htoken hl
    · obtain rfl := Option.some.inj h
      exact .refuseLease hp
  | context check =>
    cases phase with
    | locked e =>
      obtain rfl := Option.some.inj h
      exact .context hp
    | _ => cases h
  | answer r =>
    cases phase with
    | calling e call =>
      obtain rfl := Option.some.inj h
      exact .answer hp
    | _ => cases h
  | fault effective ids =>
    cases effective with
    | false =>
      obtain rfl := Option.some.inj h
      exact .fault hp
    | true => exact move_of_effective hp (.inl rfl) .fault h
  | cancel effective ids =>
    cases effective with
    | false =>
      obtain rfl := Option.some.inj h
      exact .cancel hp
    | true => exact move_of_effective hp (.inr rfl) .cancel h
  | crash =>
    obtain rfl := Option.some.inj h
    exact .crash hp

/-- The events of a tick. -/
theorem move_of_stepTick {p worker : ℕ} {phase : TickPhase} {e : TickEvent}
    (hp : s.procs p = .tick worker phase) (h : s.stepTick p worker phase e = some s') :
    Move cfg s (.tick p e) s' := by
  cases e with
  | go job =>
    simp only [stepTick] at h
    split at h
    · rename_i o rest
      obtain rfl := Option.some.inj h
      exact .select hp
    · obtain rfl := Option.some.inj h
      exact .tick hp (.inr ⟨_, rfl, by simp⟩)
    · obtain rfl := Option.some.inj h
      exact .load hp
    · obtain rfl := Option.some.inj h
      exact .tick hp (.inr ⟨_, rfl, by simp⟩)
    · obtain ⟨s₁, hs, rfl⟩ := Option.map_eq_some_iff.mp h
      obtain ⟨hw, db, hc, rfl⟩ := commit_eq_some.mp hs
      exact .recover (.inr ⟨job, rfl⟩) hp hw hc (.inr rfl)
    · obtain rfl := Option.some.inj h
      exact .tick hp (.inl rfl)
    · split_ifs at h with hseen
      · obtain rfl := Option.some.inj h
        exact .tick hp (.inr ⟨_, rfl, by simp⟩)
      · split at h
        · rename_i hjob
          obtain rfl := Option.some.inj h
          exact .spawn hp hjob
        · cases h
  | fault effective =>
    simp only [stepTick] at h
    split at h
    · rename_i he
      split at h
      · obtain ⟨s₁, hs, rfl⟩ := Option.map_eq_some_iff.mp h
        obtain ⟨hw, db, hc, rfl⟩ := commit_eq_some.mp hs
        exact .recover (.inl (by rw [he])) hp hw hc (.inl rfl)
      · cases h
    · obtain rfl := Option.some.inj h
      exact .tick hp (.inl rfl)

/-- **A step is one of the moves.** -/
theorem move_of_step {a : Action} (h : step cfg s a = some s') : Move cfg s a s' := by
  cases a with
  | request p m r => exact move_of_arrive h
  | lock p => exact move_of_takeLock h
  | commit p ids => exact move_of_commitRequest h
  | relookup p =>
    simp only [step, relookup] at h
    split at h
    · rename_i hp
      obtain rfl := Option.some.inj h
      exact .relookup hp
    · cases h
  | abort p => exact move_of_abort h
  | execute p opId =>
    simp only [step] at h
    split at h
    · rename_i hp
      obtain rfl := Option.some.inj h
      exact .execute hp
    · cases h
  | startTick p worker =>
    simp only [step, startTick] at h
    split at h
    · rename_i hp
      obtain rfl := Option.some.inj h
      exact .startTick hp ⟨_, rfl⟩
    · cases h
  | job p e =>
    simp only [step] at h
    split at h
    · rename_i hp
      exact move_of_stepJob hp h
    · cases h
  | tick p e =>
    simp only [step] at h
    split at h
    · rename_i hp
      exact move_of_stepTick hp h
    · cases h
  | clock now =>
    simp only [step] at h
    split at h
    · rename_i hle
      obtain rfl := Option.some.inj h
      exact .clock hle
    · cases h
  | evict member =>
    obtain rfl := Option.some.inj h
    exact .evict
  | configure members providers =>
    obtain rfl := Option.some.inj h
    exact .configure

end Sys

end DouyinCaption

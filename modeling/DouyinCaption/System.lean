import DouyinCaption.Worker
import DouyinCaption.Library.Runs

/-!
# The running system

Requests and jobs run side by side as processes over one database. A step is one await of
one process: it reads what is committed, takes or waits for a row lock, or commits a
transaction as a whole. PostgreSQL's row locks are the map `rowLocks`: a process that takes
`FOR UPDATE` on a task, or whose commit updates one, waits until no other process holds it.

What the environment decides is in the action: which process moves, the identifiers drawn,
the answer of the provider, whether a commit that reports a failure took effect, when a
cancellation is delivered, when time passes.
-/

namespace DouyinCaption

open Tables Runs

/-- A process. -/
inductive Proc where
  /-- not started -/
  | idle
  /-- a request that has made its opening reads -/
  | opened (member : Uuid) (request : Request) (pending : Pending)
  /-- a request that holds the row lock of its task -/
  | locked (member : Uuid) (request : Request) (pending : Pending)
  /-- a submission after its `IntegrityError`, before the second lookup -/
  | retrying (member : Uuid) (request : Request) (s : Submission)
  /-- a request that has been answered -/
  | answered (member : Uuid) (request : Request) (response : Response)
  /-- `AiQueueWorker.execute` of an operation -/
  | job (opId : Uuid) (phase : JobPhase)
  /-- `AiQueueWorker.tick` of a worker -/
  | tick (worker : ℕ) (phase : TickPhase)
  /-- ended without an answer -/
  | gone

/-- The state of the system. -/
structure Sys where
  db : Db
  /-- the clock -/
  now : ℕ
  /-- the identifiers drawn so far -/
  used : List Uuid
  procs : ℕ → Proc
  /-- `AiQueueWorker.jobs` of each worker: owners with the process of their job -/
  workers : ℕ → List (Uuid × ℕ)
  /-- the process that holds the row lock of a task -/
  rowLocks : Uuid → Option ℕ
  lock : CallLock
  /-- the operations the provider was called for, latest first -/
  providerCalls : List Uuid
  /-- the operations whose result was committed, latest first -/
  stored : List Uuid

/-- What happens at the await of a job. -/
inductive JobEvent where
  /-- it ends without a value of its own -/
  | go (ids : List Uuid)
  /-- `acquire` with a token, or with Redis out of reach -/
  | acquire (token : Uuid) (reachable : Bool)
  /-- the provider context is read -/
  | context (check : ProviderCheck)
  /-- the provider answers -/
  | answer (r : Except AiError CompletionResult)
  /-- it raises an exception, its commit having taken effect or not -/
  | fault (effective : Bool) (ids : List Uuid)
  /-- a `CancelledError` is delivered, its commit having taken effect or not -/
  | cancel (effective : Bool) (ids : List Uuid)
  /-- the worker dies -/
  | crash

/-- What happens at the await of a tick. -/
inductive TickEvent where
  /-- it ends; the process is the one a new job gets -/
  | go (job : ℕ)
  /-- it raises an exception, its commit having taken effect or not -/
  | fault (effective : Bool)

/-- A step. -/
inductive Action where
  /-- a request arrives -/
  | request (p : ℕ) (member : Uuid) (r : Request)
  /-- a request takes its row lock and checks for an active operation -/
  | lock (p : ℕ)
  /-- a request decides, writes and commits -/
  | commit (p : ℕ) (ids : List Uuid)
  /-- a submission looks its key up again -/
  | relookup (p : ℕ)
  /-- a request ends without an answer -/
  | abort (p : ℕ)
  /-- a worker runs `execute` of an operation -/
  | execute (p : ℕ) (opId : Uuid)
  /-- a worker starts a tick -/
  | startTick (p : ℕ) (worker : ℕ)
  | job (p : ℕ) (e : JobEvent)
  | tick (p : ℕ) (e : TickEvent)
  /-- time passes -/
  | clock (now : ℕ)
  /-- Redis drops the key of a member before its time -/
  | evict (member : Uuid)
  /-- the identity module changes members and provider settings -/
  | configure (members : Table Member) (providers : Table ProviderSetting)

/-- The active operations in the order of the queue. -/
def Db.queueRows (db : Db) : List AiOperation :=
  (db.operations.select AiOperation.isActive).insertionSort AiOperation.createdBefore

/-- The task row a statement locks: an `UPDATE` locks the rows it changes. -/
def Write.lockedTask (db : Db) : Write → Option Uuid
  | .setTask id change _ => if change = {} then none else some id
  | .resetTask id expected _ _ =>
      if (db.tasks.get id).any fun t => t.state = expected then some id else none
  | _ => none

namespace Sys

/-! ## Pieces of a step -/

/-- Put a process into a state. -/
def setProc (s : Sys) (p : ℕ) (x : Proc) : Sys :=
  { s with procs := Function.update s.procs p x }

/-- Release the row locks of a process. -/
def unlock (s : Sys) (p : ℕ) : Sys :=
  { s with rowLocks := fun t => if s.rowLocks t = some p then none else s.rowLocks t }

/-- Take the row lock of a task. -/
def lockRow (s : Sys) (p : ℕ) (taskId : Uuid) : Sys :=
  { s with rowLocks := Function.update s.rowLocks taskId (some p) }

/-- No other process holds the row lock of a task. -/
def rowFree (s : Sys) (p : ℕ) (taskId : Uuid) : Bool :=
  match s.rowLocks taskId with
  | none => true
  | some q => q = p

/-- The statements wait for no row lock. -/
def mayWrite (s : Sys) (p : ℕ) (ws : List Write) : Bool :=
  ws.all fun w => match w.lockedTask s.db with
    | none => true
    | some taskId => s.rowFree p taskId

/-- The identifiers a transaction draws: eight of them, none drawn before. -/
def Draws (s : Sys) (ids : List Uuid) : Prop :=
  ids.length = 8 ∧ ids.Nodup ∧ ∀ i ∈ ids, i ∉ s.used

instance (s : Sys) (ids : List Uuid) : Decidable (s.Draws ids) :=
  inferInstanceAs (Decidable (_ ∧ _ ∧ _))

/-- Commit the writes of a process; `none` while it waits, and where the commit fails. -/
def commit (s : Sys) (p : ℕ) (ids : List Uuid) (ws : List Write) : Option Sys :=
  if s.mayWrite p ws then
    (s.db.commit ws).map fun db => { s with db, used := ids ++ s.used }
  else none

/-! ## Requests -/

/-- A request arrives and makes its opening reads. -/
def arrive (cfg : Config) (s : Sys) (p : ℕ) (member : Uuid) (r : Request) : Option Sys :=
  match s.procs p with
  | .idle =>
      some (s.setProc p (match opening cfg s.db member r with
        | .answer response => .answered member r response
        | .pending pending => .opened member r pending))
  | _ => none

/-- A request takes the row lock of its task and looks for an active operation. -/
def takeLock (s : Sys) (p : ℕ) : Option Sys :=
  match s.procs p with
  | .opened member r pending =>
      match pending.task with
      | none => none
      | some task =>
          if s.rowFree p task.id then
            if s.db.hasActive task.id then
              some (s.setProc p (.answered member r (.error pending.busy)))
            else some ((s.setProc p (.locked member r (pending.refresh s.db))).lockRow p task.id)
          else none
  | _ => none

/-- Where a request goes when its commit breaks a unique index. -/
def refused (cfg : Config) (db : Db) (member : Uuid) (r : Request) (pending : Pending) : Proc :=
  match pending with
  | .submit sub => .retrying member r sub
  | _ => .answered member r (pending.integrityError cfg db)

/-- A request decides from its loaded rows, writes and commits. -/
def complete (cfg : Config) (s : Sys) (p : ℕ) (ids : List Uuid) (member : Uuid) (r : Request)
    (pending : Pending) : Option Sys :=
  match pending.finish cfg s.db member ⟨s.now, ids⟩ with
  | .error e => some ((s.setProc p (.answered member r (.error e))).unlock p)
  | .ok out =>
      if s.mayWrite p out.writes then
        match s.db.commit out.writes with
        | none => some ((s.setProc p (refused cfg s.db member r pending)).unlock p)
        | some db =>
            some (({ s with db, used := ids ++ s.used }.setProc p
              (.answered member r (out.reply db))).unlock p)
      else none

/-- The commit of a request: under its row lock, or at once where it takes none. -/
def commitRequest (cfg : Config) (s : Sys) (p : ℕ) (ids : List Uuid) : Option Sys :=
  if s.Draws ids then
    match s.procs p with
    | .locked member r pending => s.complete cfg p ids member r pending
    | .opened member r pending =>
        if pending.task.isNone then s.complete cfg p ids member r pending else none
    | _ => none
  else none

/-- The second lookup of a submission. -/
def relookup (cfg : Config) (s : Sys) (p : ℕ) : Option Sys :=
  match s.procs p with
  | .retrying member r sub =>
      some (s.setProc p (.answered member r (sub.afterIntegrityError cfg s.db)))
  | _ => none

/-- A request ends without an answer, its transaction rolled back. -/
def abort (s : Sys) (p : ℕ) : Option Sys :=
  match s.procs p with
  | .opened .. | .locked .. | .retrying .. => some ((s.setProc p .gone).unlock p)
  | _ => none

/-! ## Jobs -/

/-- A job commits its transaction, if it has one. A stored result is noted. -/
def settle (s : Sys) (p : ℕ) (ids : List Uuid) (opId : Uuid) (phase : JobPhase)
    (ws : Option (List Write)) : Option Sys :=
  match ws with
  | none => some s
  | some ws => (s.commit p ids ws).map fun s' => match phase with
      | .returned .. => { s' with stored := opId :: s'.stored }
      | _ => s'

/-- A job enters a phase: it keeps a row lock for `_execute` up to its claim and no other,
and a call of the provider is noted. -/
def enter (s : Sys) (p : ℕ) (opId : Uuid) (phase : JobPhase) : Sys :=
  let s' := s.setProc p (.job opId phase)
  let s' := match phase.rowLock with
    | some taskId => s'.lockRow p taskId
    | none => s'.unlock p
  if phase.isCalling then { s' with providerCalls := opId :: s'.providerCalls } else s'

/-- A job leaves the block of its lease. -/
def releaseLease (s : Sys) : JobPhase → Sys
  | .leaving lease _ => { s with lock := s.lock.release s.now lease.key lease.token }
  | _ => s

/-- The await of a job ends without a value of its own. -/
def proceed (cfg : Config) (s : Sys) (p : ℕ) (ids : List Uuid) (opId : Uuid)
    (phase : JobPhase) : Option Sys :=
  if s.Draws ids then
    (phase.advance cfg s.db ⟨s.now, ids⟩ opId).bind fun phase' =>
      if (phase'.rowLock.all fun t => s.rowFree p t) then
        (s.settle p ids opId phase (phase.transaction s.db ⟨s.now, ids⟩ opId)).map fun s' =>
          (s'.releaseLease phase).enter p opId phase'
      else none
  else none

/-- The await of a job ends badly: its commit took effect or not, and it goes on in the phase
that handles this. -/
def interrupt (s : Sys) (p : ℕ) (effective : Bool) (ids : List Uuid) (opId : Uuid)
    (phase phase' : JobPhase) : Option Sys :=
  if effective then
    if s.Draws ids then
      (phase.transaction s.db ⟨s.now, ids⟩ opId).bind fun ws =>
        (s.settle p ids opId phase (some ws)).map fun s' => s'.enter p opId phase'
    else none
  else some (s.enter p opId phase')

/-- A job asks for the lease of the member. -/
def acquireLease (cfg : Config) (s : Sys) (p : ℕ) (token : Uuid) (reachable : Bool)
    (opId : Uuid) : JobPhase → Option Sys
  | .ready op task prepared =>
      if token ∈ s.used then none
      else if reachable then
        match s.lock.acquire s.now cfg.leaseSeconds op.ownerId token with
        | none => some (s.enter p opId .done)
        | some (lock, lease) =>
            some ({ s with lock, used := token :: s.used }.enter p opId
              (.leased ⟨op, task, prepared, lease⟩))
      else some (s.enter p opId .done)
  | _ => none

/-- One await of a job. -/
def stepJob (cfg : Config) (s : Sys) (p : ℕ) (opId : Uuid) (phase : JobPhase) :
    JobEvent → Option Sys
  | .go ids => s.proceed cfg p ids opId phase
  | .acquire token reachable => s.acquireLease cfg p token reachable opId phase
  | .context check =>
      match phase with
      | .locked e => some (s.enter p opId (.context s.db check e))
      | _ => none
  | .answer r =>
      match phase with
      | .calling e call => some (s.enter p opId (.answer e call r))
      | _ => none
  | .fault effective ids => s.interrupt p effective ids opId phase phase.onFault
  | .cancel effective ids => s.interrupt p effective ids opId phase phase.onCancel
  | .crash => some ((s.setProc p .gone).unlock p)

/-! ## Ticks -/

/-- The process of a job has ended. -/
def hasEnded (s : Sys) (p : ℕ) : Bool :=
  match s.procs p with
  | .job _ .done | .gone => true
  | _ => false

/-- A worker starts a tick: it drops its finished jobs and reads the owners of running
operations it has no job for. -/
def startTick (s : Sys) (p worker : ℕ) : Option Sys :=
  match s.procs p with
  | .idle =>
      let jobs := (s.workers worker).filter fun j => !s.hasEnded j.2
      let owners := ((s.db.operations.select fun o => o.status = .running).map
        AiOperation.ownerId).dedup.filter fun o => o ∉ jobs.map Prod.fst
      some ({ s with workers := Function.update s.workers worker jobs }.setProc p
        (.tick worker (.owners owners)))
  | _ => none

/-- One await of a tick. -/
def stepTick (s : Sys) (p worker : ℕ) (phase : TickPhase) : TickEvent → Option Sys
  | .go job =>
      match phase with
      | .owners (o :: rest) =>
          some (s.setProc p (.tick worker
            (.recovering rest (s.db.staleOperations o s.now) [])))
      | .owners [] =>
          let rows := s.db.queueRows
          let running := (rows.filter fun o => o.status = .running).map AiOperation.ownerId
          some (s.setProc p (.tick worker
            (.spawning (rows.map fun o => (o.id, o.ownerId))
              ((s.workers worker).map Prod.fst ++ running))))
      | .recovering rest (o :: todo) found =>
          some (s.setProc p (.tick worker
            (.recovering rest todo (found ++ [(o, s.db.tasks.get o.taskId)]))))
      | .recovering rest [] [] => some (s.setProc p (.tick worker (.owners rest)))
      | .recovering rest [] found =>
          (s.commit p [] (recoverWrites s.now found)).map fun s' =>
            s'.setProc p (.tick worker (.owners rest))
      | .spawning [] _ => some (s.setProc p .gone)
      | .spawning ((opId, owner) :: rows) seen =>
          if owner ∈ seen then some (s.setProc p (.tick worker (.spawning rows seen)))
          else match s.procs job with
            | .idle =>
                some (({ s with
                  workers := Function.update s.workers worker ((owner, job) :: s.workers worker)
                    }.setProc p (.tick worker (.spawning rows (owner :: seen)))).setProc job
                      (.job opId .created))
            | _ => none
  | .fault effective =>
      if effective then
        match phase with
        | .recovering _ [] found =>
            (s.commit p [] (recoverWrites s.now found)).map fun s' => s'.setProc p .gone
        | _ => none
      else some (s.setProc p .gone)

/-! ## The step -/

/-- One step of the system. -/
def step (cfg : Config) (s : Sys) : Action → Option Sys
  | .request p member r => s.arrive cfg p member r
  | .lock p => s.takeLock p
  | .commit p ids => s.commitRequest cfg p ids
  | .relookup p => s.relookup cfg p
  | .abort p => s.abort p
  | .execute p opId =>
      match s.procs p with
      | .idle => some (s.setProc p (.job opId .created))
      | _ => none
  | .startTick p worker => s.startTick p worker
  | .job p e =>
      match s.procs p with
      | .job opId phase => s.stepJob cfg p opId phase e
      | _ => none
  | .tick p e =>
      match s.procs p with
      | .tick worker phase => s.stepTick p worker phase e
      | _ => none
  | .clock now => if s.now ≤ now then some { s with now } else none
  | .evict member => some { s with lock := s.lock.evict member }
  | .configure members providers => some { s with db := { s.db with members, providers } }

/-- A system before its first request. -/
structure Initial (s : Sys) : Prop where
  tasks : s.db.tasks = .empty
  presets : s.db.presets = .empty
  analyses : s.db.analyses = .empty
  suggestions : s.db.suggestions = .empty
  versions : s.db.versions = .empty
  locks : s.db.locks = .empty
  operations : s.db.operations = .empty
  procs : s.procs = fun _ => .idle
  workers : s.workers = fun _ => []
  rowLocks : s.rowLocks = fun _ => none
  lock : s.lock = .redis (fun _ => none) ∨ s.lock = .inMemory fun _ => none
  providerCalls : s.providerCalls = []
  stored : s.stored = []

/-- The system of a configuration. -/
def system (cfg : Config) : System Sys Action := ⟨Initial, step cfg⟩

/-- The states reached by any run. -/
def Reachable (cfg : Config) (s : Sys) : Prop := Reach (system cfg) (fun _ _ => True) s

/-! ## A small deployment -/

namespace Sample

/-- A configuration to run the system with. -/
def cfg : Config where
  digest := id
  suggestionSchema := .null
  parseSuggestionSet := fun _ => none
  ilike := fun _ _ => true
  unifiedDiff := fun _ _ => []

/-- One member with a model connection. -/
def start : Sys where
  db := {
    members := ⟨[⟨1, .member, true⟩], by decide⟩
    providers := ⟨[⟨2, 1, "m".toList⟩], by decide⟩ }
  now := 0
  used := []
  procs := fun _ => .idle
  workers := fun _ => []
  rowLocks := fun _ => none
  lock := .redis fun _ => none
  providerCalls := []
  stored := []

/-- A task to create. -/
def create : TaskCreate where
  name := ⟨"n".toList, by decide⟩
  sourceText := ⟨"s".toList, by decide⟩
  creativeSettings := DouyinCaption.Sample.settings

/-- The identifiers of the `n`-th transaction. -/
def ids (n : ℕ) : List Uuid := List.range' (10 * n) 8

/-- The member creates task 10 and submits its analysis, operation 20. -/
def submitted : List Action :=
  [.request 0 1 (.createTask create), .commit 0 (ids 1),
    .request 1 1 (.submit 10 .analysis none none), .lock 1, .commit 1 (ids 2)]

/-- A worker claims operation 20 and calls the provider. -/
def called : List Action :=
  submitted ++ [.execute 2 20, .job 2 (.go (ids 3)), .job 2 (.go (ids 3)), .job 2 (.go (ids 3)),
    .job 2 (.go (ids 3)), .job 2 (.go (ids 3)), .job 2 (.acquire 30 true), .job 2 (.go (ids 4)),
    .job 2 (.go (ids 4)), .job 2 (.context .accepted), .job 2 (.go (ids 4)),
    .job 2 (.go (ids 5))]

theorem initial_start : Initial start :=
  ⟨rfl, rfl, rfl, rfl, rfl, rfl, rfl, rfl, rfl, rfl, .inl rfl, rfl, rfl⟩

end Sample

end Sys

end DouyinCaption

import DouyinCaption.Library.Runs
import DouyinCaption.Models

/-!
# Members and administrators

`create_member` and `update_member` of `app/modules/identity/services.py`, with the queries of
`repositories.py` and the authentication in front of them: any number of requests, each a
database session of its own, whose steps interleave.

A session loads rows and keeps them: a row loaded again is the row it has, and a flush writes
the attributes whose value differs from the loaded one. `SELECT … FOR UPDATE` chooses its rows
when the statement starts, locks them one after the other, waits for a row another session has
locked, and then looks at the committed row again.
-/

namespace DouyinCaption.Identity

open Tables Runs

/-! ## Rows and payloads -/

/-- `Member`, with the columns this module writes. -/
structure MemberRow extends Member where
  username : Text
  displayName : Text
  passwordHash : Text
  deriving DecidableEq

instance : Keyed MemberRow Uuid := ⟨fun m => m.id⟩

/-- `MemberCreate` -/
structure MemberCreate where
  username : Text
  displayName : Text
  password : Text
  role : MemberRole := .member

/-- `MemberUpdate`, as `model_dump(exclude_unset=True)` shows it: what the payload sets, and
whether to a value or to `null`. -/
structure MemberUpdate where
  displayName : Option (Option Text) := none
  isActive : Option (Option Bool) := none
  deriving DecidableEq

/-- `IdentityError` -/
structure IdentityError where
  code : Text
  message : Text
  statusCode : ℕ := 400
  deriving DecidableEq

def tokenMemberGone : IdentityError :=
  ⟨"invalid_token".toList, "Access token member no longer exists".toList, 401⟩

def memberDisabled : IdentityError :=
  ⟨"member_disabled".toList, "Member account is disabled".toList, 403⟩

def adminRequired : IdentityError :=
  ⟨"admin_required".toList, "Administrator access is required".toList, 403⟩

def usernameExists : IdentityError :=
  ⟨"username_exists".toList, "Username already exists".toList, 409⟩

/-- `not_found("member")` -/
def memberNotFound : IdentityError :=
  ⟨"member_not_found".toList, "Member not found".toList, 404⟩

def cannotDisableSelf : IdentityError :=
  ⟨"cannot_disable_self".toList, "Administrators cannot disable their own account".toList, 409⟩

def lastAdminRequired : IdentityError :=
  ⟨"last_admin_required".toList, "The last active administrator cannot be disabled".toList, 409⟩

/-- An active administrator. -/
def MemberRow.isActiveAdmin (m : MemberRow) : Bool := m.role = .admin && m.isActive

/-- `disabling_active_admin` -/
def disablingActiveAdmin (m : MemberRow) (data : MemberUpdate) : Bool :=
  data.isActive = some (some false) && m.isActive && m.role = .admin

/-- The attributes `setattr` leaves with another value than was loaded. -/
def changes (m : MemberRow) (data : MemberUpdate) : MemberUpdate where
  displayName := data.displayName.filter fun v => v ≠ some m.displayName
  isActive := data.isActive.filter fun v => v ≠ some m.isActive

/-- A column that is `NOT NULL` is set to `null`. -/
def MemberUpdate.setsNull (c : MemberUpdate) : Bool :=
  c.displayName = some none || c.isActive = some none

/-- The row with the changed attributes. -/
def MemberUpdate.apply (c : MemberUpdate) (m : MemberRow) : MemberRow :=
  { m with
    displayName := c.displayName.join.getD m.displayName
    isActive := c.isActive.join.getD m.isActive }

/-! ## Requests -/

/-- A request with the member of its access token. -/
inductive Request where
  | create (actorId : Uuid) (data : MemberCreate)
  | update (actorId memberId : Uuid) (data : MemberUpdate)

/-- The member of the token. -/
def Request.actorId : Request → Uuid
  | create actorId _ => actorId
  | update actorId _ _ => actorId

/-- How a request ends. -/
inductive Outcome where
  | member (m : MemberRow)
  | error (e : IdentityError)
  /-- an exception of the database, or the end of the session -/
  | failed
  deriving DecidableEq

/-- Where a request is. -/
inductive Phase where
  | idle
  | received (r : Request)
  /-- `authenticated_member` returned -/
  | authenticated (r : Request) (actor : MemberRow)
  /-- `create_member` found the name free -/
  | adding (actor : MemberRow) (data : MemberCreate)
  /-- `update_member` loaded the member -/
  | loaded (actor member : MemberRow) (data : MemberUpdate)
  /-- `lock_active_admins`: the rows still to be locked, and those locked -/
  | locking (actor member : MemberRow) (data : MemberUpdate) (candidates locked : List Uuid)
  /-- the attributes are set -/
  | assigned (actor member : MemberRow) (data : MemberUpdate) (locked : List Uuid)
  /-- `UPDATE` was executed, `COMMIT` not yet -/
  | flushed (actor member : MemberRow) (data : MemberUpdate) (locked : List Uuid)
  | ended (actorId : Uuid) (outcome : Outcome)

/-- The state of the identity module. -/
structure State where
  /-- the committed rows -/
  members : Table MemberRow
  /-- the session that holds the lock of a row -/
  locks : Uuid → Option ℕ
  procs : ℕ → Phase

/-- What a step does to the database. -/
inductive Effect where
  | nothing
  | lock (id : Uuid)
  /-- the transaction ends without a write -/
  | rollback
  | update (id : Uuid) (c : MemberUpdate)
  | insert (m : MemberRow)

/-- The locks without those of a session. -/
def release (locks : Uuid → Option ℕ) (p : ℕ) : Uuid → Option ℕ := fun id =>
  if locks id = some p then none else locks id

/-- A session moves on. -/
def State.apply (s : State) (p : ℕ) (phase : Phase) (e : Effect) : State where
  members := match e with
    | .update id c => s.members.update (fun m => m.id = id) c.apply
    | .insert m => s.members.insert m
    | .nothing | .lock _ | .rollback => s.members
  locks := match e with
    | .nothing => s.locks
    | .lock id => Function.update s.locks id (some p)
    | .rollback | .update _ _ | .insert _ => release s.locks p
  procs := Function.update s.procs p phase

/-- No other session holds the lock of the row. -/
def State.free (s : State) (p : ℕ) (id : Uuid) : Bool :=
  s.locks id = none || s.locks id = some p

/-- What `await` lets happen next, or a choice of the environment. -/
inductive Action where
  | arrive (p : ℕ) (r : Request)
  /-- the next statement of the request -/
  | move (p : ℕ)
  /-- `FOR UPDATE` comes to a row -/
  | lock (p : ℕ) (id : Uuid)
  /-- `INSERT` and `COMMIT` with a fresh identifier -/
  | insert (p : ℕ) (id : Uuid)
  /-- the session is lost, or chosen as the victim of a deadlock -/
  | abort (p : ℕ)

/-- The session that moves. -/
def Action.proc : Action → ℕ
  | arrive p _ | move p | lock p _ | insert p _ | abort p => p

/-- The next statement of a request. -/
def State.next (s : State) (p : ℕ) : Phase → Option (Phase × Effect)
  | .received r =>
    match s.members.get r.actorId with
    | none => some (.ended r.actorId (.error tokenMemberGone), .rollback)
    | some actor =>
      if actor.isActive then some (.authenticated r actor, .nothing)
      else some (.ended r.actorId (.error memberDisabled), .rollback)
  | .authenticated r actor =>
    -- `get_current_admin`, and again `require_admin` of the service
    if actor.role ≠ .admin then some (.ended actor.id (.error adminRequired), .rollback)
    else
      match r with
      | .create _ data =>
        match s.members.scalar fun m => m.username = data.username with
        | some _ => some (.ended actor.id (.error usernameExists), .rollback)
        | none => some (.adding actor data, .nothing)
      | .update _ id data =>
        -- `session.get` returns the row the session has
        match if id = actor.id then some actor else s.members.get id with
        | none => some (.ended actor.id (.error memberNotFound), .rollback)
        | some member => some (.loaded actor member data, .nothing)
  | .loaded actor member data =>
    if disablingActiveAdmin member data then
      if member.id = actor.id then some (.ended actor.id (.error cannotDisableSelf), .rollback)
      else
        let candidates := (s.members.select MemberRow.isActiveAdmin).map fun m => m.id
        some (.locking actor member data candidates [], .nothing)
    else some (.assigned actor member data [], .nothing)
  | .locking actor member data [] locked =>
    if locked.length ≤ 1 then some (.ended actor.id (.error lastAdminRequired), .rollback)
    else some (.assigned actor member data locked, .nothing)
  | .assigned actor member data locked =>
    let c := changes member data
    if c.setsNull then some (.ended actor.id .failed, .rollback)
    else if c = {} then some (.flushed actor member data locked, .nothing)
    else if s.free p member.id then some (.flushed actor member data locked, .lock member.id)
    else none
  | .flushed actor member data _ =>
    let c := changes member data
    let outcome := match s.members.get member.id with
      | some m => .member (c.apply m)
      | none => .failed
    some (.ended actor.id outcome, .update member.id c)
  | .idle | .adding _ _ | .locking _ _ _ (_ :: _) _ | .ended _ _ => none

/-- `FOR UPDATE` comes to a row: it waits for its lock and looks at it again. -/
def State.nextLock (s : State) (p : ℕ) (id : Uuid) : Phase → Option (Phase × Effect)
  | .locking actor member data candidates locked =>
    if id ∈ candidates ∧ s.free p id then
      match s.members.get id with
      | some m =>
        if m.isActiveAdmin then
          some (.locking actor member data (candidates.erase id) (id :: locked), .lock id)
        else some (.locking actor member data (candidates.erase id) locked, .nothing)
      | none => some (.locking actor member data (candidates.erase id) locked, .nothing)
    else none
  | _ => none

/-- `add_member` and `commit`; the name is unique. -/
def State.nextInsert (hash : Text → Text) (s : State) (id : Uuid) : Phase → Option (Phase × Effect)
  | .adding actor data =>
    if s.members.get id = none then
      match s.members.scalar fun m => m.username = data.username with
      | some _ => some (.ended actor.id (.error usernameExists), .rollback)
      | none =>
        let m : MemberRow :=
          { id, role := data.role, isActive := true, username := data.username
            displayName := data.displayName, passwordHash := hash data.password }
        some (.ended actor.id (.member m), .insert m)
    else none
  | _ => none

/-- The member of the token of a request. -/
def Phase.actorId : Phase → Option Uuid
  | .idle => none
  | .received r => some r.actorId
  | .authenticated _ actor | .adding actor _ | .loaded actor _ _ | .locking actor _ _ _ _
  | .assigned actor _ _ _ | .flushed actor _ _ _ => some actor.id
  | .ended actorId _ => some actorId

/-- One step of the identity module; `hash` is `PasswordService.hash`. -/
def State.step (hash : Text → Text) (s : State) : Action → Option State
  | .arrive p r =>
    match s.procs p with
    | .idle => some (s.apply p (.received r) .nothing)
    | _ => none
  | .move p => (s.next p (s.procs p)).map fun n => s.apply p n.1 n.2
  | .lock p id => (s.nextLock p id (s.procs p)).map fun n => s.apply p n.1 n.2
  | .insert p id => (s.nextInsert hash id (s.procs p)).map fun n => s.apply p n.1 n.2
  | .abort p =>
    match s.procs p with
    | .idle | .ended _ _ => none
    | phase => phase.actorId.map fun actorId => s.apply p (.ended actorId .failed) .rollback

/-- The identity module: members with an active administrator, and no request yet. -/
def system (hash : Text → Text) : System State Action where
  init s := (∃ m ∈ s.members, m.isActiveAdmin = true) ∧ (∀ id, s.locks id = none) ∧
    ∀ p, s.procs p = .idle
  step := State.step hash

/-! ## What a step can do -/

/-- The steps of a session: its phase before, its phase after, and the effect. -/
inductive Next (s : State) (p : ℕ) : Phase → Phase → Effect → Prop where
  | receive (r : Request) : Next s p .idle (.received r) .nothing
  | stop {phase : Phase} {actorId : Uuid} (outcome : Outcome) :
      phase.actorId = some actorId → Next s p phase (.ended actorId outcome) .rollback
  | authenticate {r : Request} {actor : MemberRow} :
      s.members.get r.actorId = some actor → actor.isActive = true →
      Next s p (.received r) (.authenticated r actor) .nothing
  | add {actorId : Uuid} {data : MemberCreate} {actor : MemberRow} :
      Next s p (.authenticated (.create actorId data) actor) (.adding actor data) .nothing
  | load {actorId id : Uuid} {data : MemberUpdate} {actor member : MemberRow} :
      actor.role = .admin → (if id = actor.id then some actor else s.members.get id) = some member →
      Next s p (.authenticated (.update actorId id data) actor) (.loaded actor member data) .nothing
  | guard {actor member : MemberRow} {data : MemberUpdate} : member.id ≠ actor.id →
      Next s p (.loaded actor member data) (.locking actor member data
        ((s.members.select MemberRow.isActiveAdmin).map fun m => m.id) []) .nothing
  | assign {actor member : MemberRow} {data : MemberUpdate} :
      disablingActiveAdmin member data = false →
      Next s p (.loaded actor member data) (.assigned actor member data []) .nothing
  | lockRow {actor member m : MemberRow} {data : MemberUpdate} {candidates locked : List Uuid}
      {id : Uuid} : id ∈ candidates → s.free p id = true → s.members.get id = some m →
      m.isActiveAdmin = true →
      Next s p (.locking actor member data candidates locked)
        (.locking actor member data (candidates.erase id) (id :: locked)) (.lock id)
  | skipRow {actor member : MemberRow} {data : MemberUpdate} {candidates locked : List Uuid}
      {id : Uuid} :
      Next s p (.locking actor member data candidates locked)
        (.locking actor member data (candidates.erase id) locked) .nothing
  | counted {actor member : MemberRow} {data : MemberUpdate} {locked : List Uuid} :
      2 ≤ locked.length →
      Next s p (.locking actor member data [] locked) (.assigned actor member data locked) .nothing
  | unchanged {actor member : MemberRow} {data : MemberUpdate} {locked : List Uuid} :
      changes member data = {} →
      Next s p (.assigned actor member data locked) (.flushed actor member data locked) .nothing
  | flush {actor member : MemberRow} {data : MemberUpdate} {locked : List Uuid} :
      s.free p member.id = true →
      Next s p (.assigned actor member data locked) (.flushed actor member data locked)
        (.lock member.id)
  | commit {actor member : MemberRow} {data : MemberUpdate} {locked : List Uuid}
      (outcome : Outcome) :
      Next s p (.flushed actor member data locked) (.ended actor.id outcome)
        (.update member.id (changes member data))
  | insert {actor : MemberRow} {data : MemberCreate} {m : MemberRow} (outcome : Outcome) :
      s.members.get m.id = none →
      Next s p (.adding actor data) (.ended actor.id outcome) (.insert m)

theorem next_of_next {s : State} {p : ℕ} {phase : Phase} {n : Phase × Effect}
    (h : s.next p phase = some n) : Next s p phase n.1 n.2 := by
  cases phase with
  | idle => cases h
  | received r =>
    simp only [State.next] at h
    split at h
    · obtain rfl := Option.some.inj h
      exact .stop _ rfl
    · rename_i actor hactor
      split at h
      · obtain rfl := Option.some.inj h
        exact .authenticate hactor ‹_›
      · obtain rfl := Option.some.inj h
        exact .stop _ rfl
  | authenticated r actor =>
    simp only [State.next] at h
    split at h
    · obtain rfl := Option.some.inj h
      exact .stop _ rfl
    · rename_i hrole
      cases r with
      | create actorId data =>
        simp only at h
        split at h
        · obtain rfl := Option.some.inj h
          exact .stop _ rfl
        · obtain rfl := Option.some.inj h
          exact .add
      | update actorId id data =>
        simp only at h
        split at h
        · obtain rfl := Option.some.inj h
          exact .stop _ rfl
        · rename_i member hmember
          obtain rfl := Option.some.inj h
          exact .load (not_not.mp hrole) hmember
  | adding actor data => cases h
  | loaded actor member data =>
    simp only [State.next] at h
    split at h
    · split at h
      · obtain rfl := Option.some.inj h
        exact .stop _ rfl
      · obtain rfl := Option.some.inj h
        exact .guard ‹_›
    · rename_i hdisabling
      obtain rfl := Option.some.inj h
      exact .assign (Bool.eq_false_iff.mpr hdisabling)
  | locking actor member data candidates locked =>
    cases candidates with
    | nil =>
      simp only [State.next] at h
      split at h
      · obtain rfl := Option.some.inj h
        exact .stop _ rfl
      · rename_i hlength
        obtain rfl := Option.some.inj h
        exact .counted (Nat.lt_of_not_le hlength)
    | cons c candidates => cases h
  | assigned actor member data locked =>
    simp only [State.next] at h
    split at h
    · obtain rfl := Option.some.inj h
      exact .stop _ rfl
    · split at h
      · obtain rfl := Option.some.inj h
        exact .unchanged ‹_›
      · split at h
        · obtain rfl := Option.some.inj h
          exact .flush ‹_›
        · cases h
  | flushed actor member data locked =>
    obtain rfl := Option.some.inj h
    exact .commit _
  | ended actorId outcome => cases h

theorem next_of_nextLock {s : State} {p : ℕ} {id : Uuid} {phase : Phase} {n : Phase × Effect}
    (h : s.nextLock p id phase = some n) : Next s p phase n.1 n.2 := by
  unfold State.nextLock at h
  split at h
  · split at h
    · rename_i hguard
      split at h
      · rename_i m hm
        split at h
        · obtain rfl := Option.some.inj h
          exact .lockRow hguard.1 hguard.2 hm ‹_›
        · obtain rfl := Option.some.inj h
          exact .skipRow
      · obtain rfl := Option.some.inj h
        exact .skipRow
    · cases h
  · cases h

theorem next_of_nextInsert {hash : Text → Text} {s : State} {p : ℕ} {id : Uuid} {phase : Phase}
    {n : Phase × Effect} (h : s.nextInsert hash id phase = some n) :
    Next s p phase n.1 n.2 := by
  unfold State.nextInsert at h
  split at h
  · split at h
    · rename_i hfresh
      split at h
      · obtain rfl := Option.some.inj h
        exact .stop _ rfl
      · obtain rfl := Option.some.inj h
        exact .insert _ hfresh
    · cases h
  · cases h

/-- **What a step can do.** -/
theorem step_cases {hash : Text → Text} {s s' : State} {a : Action}
    (h : s.step hash a = some s') : ∃ phase e, s' = s.apply a.proc phase e ∧
      Next s a.proc (s.procs a.proc) phase e := by
  cases a with
  | arrive p r =>
    simp only [State.step] at h
    split at h
    · rename_i hidle
      obtain rfl := Option.some.inj h
      exact ⟨_, _, rfl, hidle ▸ .receive r⟩
    · cases h
  | move p =>
    obtain ⟨n, hn, rfl⟩ := Option.map_eq_some_iff.mp h
    exact ⟨_, _, rfl, next_of_next hn⟩
  | lock p id =>
    obtain ⟨n, hn, rfl⟩ := Option.map_eq_some_iff.mp h
    exact ⟨_, _, rfl, next_of_nextLock hn⟩
  | insert p id =>
    obtain ⟨n, hn, rfl⟩ := Option.map_eq_some_iff.mp h
    exact ⟨_, _, rfl, next_of_nextInsert hn⟩
  | abort p =>
    simp only [State.step] at h
    split at h
    · cases h
    · cases h
    · obtain ⟨actorId, hactor, rfl⟩ := Option.map_eq_some_iff.mp h
      exact ⟨_, _, rfl, .stop _ hactor⟩

end DouyinCaption.Identity

import DouyinCaption.Executing
import DouyinCaption.Isolation
import DouyinCaption.Submission

/-!
# Attempts of a submission

A browser that does not hear of a submission repeats it under the same idempotency key, and the
transactions of its attempts may overlap. As long as the member does not clear the history, all
attempts that succeed are answered with one operation, the only one under the key, and one that
arrives later is answered with it at once (`submitted_once`).
-/

namespace DouyinCaption

open Tables Runs

/-- What the attempts of a submission have in common. -/
structure Attempt where
  member : Uuid
  taskId : Uuid
  payload : Payload
  key : Text

namespace Attempt

/-- The request; the request id is the browser's. -/
def request (x : Attempt) (requestId : Option Text) : Request :=
  .submit x.taskId x.payload (some x.key) requestId

/-- The hash of what is submitted. -/
def hash (cfg : Config) (x : Attempt) : Text :=
  requestHash cfg x.payload.kind x.taskId x.payload.toJson

/-- The operation is under the key of the attempts. -/
def Keys (x : Attempt) (o : AiOperation) : Prop :=
  o.ownerId = x.member ∧ o.taskId = x.taskId ∧ o.kind = x.payload.kind ∧
    o.idempotencyKey = some x.key

/-- The attempts make this submission. -/
structure Makes (x : Attempt) (sub : Submission) : Prop where
  owner : sub.ownerId = x.member
  task : sub.task.id = x.taskId
  kind : sub.kind = x.payload.kind
  payload : sub.payload = x.payload
  key : sub.idempotencyKey = some x.key

variable {cfg : Config} {db : Db} {x y : Attempt} {sub : Submission} {o o' : AiOperation}
  {requestId : Option Text}

theorem Makes.hash (h : x.Makes sub) : sub.hash cfg = x.hash cfg := by
  rw [Submission.hash, h.kind, h.task, h.payload, Attempt.hash]

/-- The unique index leaves one operation under the key. -/
theorem Keys.unique (hc : db.Consistent) (ho : o ∈ db.operations) (ho' : o' ∈ db.operations)
    (h : x.Keys o) (h' : x.Keys o') : o' = o := by
  obtain ⟨howner, htask, hkind, hkey⟩ := h
  obtain ⟨howner', htask', hkind', hkey'⟩ := h'
  refine hc.key_unique ho' ho ⟨howner'.trans howner.symm, htask'.trans htask.symm,
    hkind'.trans hkind.symm, hkey'.trans hkey.symm, ?_⟩
  rw [hkey']
  exact Option.some_ne_none _

/-- What the lookup of the key finds. -/
theorem Makes.existing (h : x.Makes sub) (hl : sub.lookup cfg db = .ok (some o)) :
    o ∈ db.operations ∧ x.Keys o ∧ o.requestHash = x.hash cfg := by
  obtain ⟨ho, howner, htask, hkind, -, hkey, hhash⟩ := existing_eq_some hl
  exact ⟨ho, ⟨howner.trans h.owner, htask.trans h.task, hkind.trans h.kind, hkey.trans h.key⟩,
    hhash.trans h.hash⟩

/-- The lookup finds the operation under the key, or refuses another submission. -/
theorem Makes.lookup (h : x.Makes sub) (hc : db.Consistent) (ho : o ∈ db.operations)
    (hkeys : x.Keys o) : sub.lookup cfg db =
      if o.requestHash = x.hash cfg then .ok (some o) else .error keyReused := by
  have hscalar : db.operations.scalar
      (AiOperation.underKey sub.task.id sub.ownerId sub.kind x.key) = some o := by
    refine Table.scalar_of_unique ho ?_ fun b hb hunder => ?_
    · obtain ⟨howner, htask, hkind, hkey⟩ := hkeys
      simp [AiOperation.underKey, h.owner, h.task, h.kind, howner, htask, hkind, hkey]
    · simp only [AiOperation.underKey, Bool.and_eq_true, decide_eq_true_eq] at hunder
      obtain ⟨⟨⟨htask, howner⟩, hkind⟩, hkey⟩ := hunder
      exact Keys.unique hc ho hb hkeys
        ⟨howner.trans h.owner, htask.trans h.task, hkind.trans h.kind, hkey⟩
  rw [Submission.lookup, h.key]
  simp only [DouyinCaption.existing, hscalar, h.hash]

/-- Refreshing the task leaves the submission the attempts'. -/
theorem Makes.refresh (h : x.Makes sub) : x.Makes { sub with
    task := (db.tasks.get sub.task.id).getD sub.task } := by
  refine ⟨h.owner, ?_, h.kind, h.payload, h.key⟩
  rcases hget : db.tasks.get sub.task.id with _ | t
  · exact h.task
  · exact (Table.get_eq_some.mp hget).2.trans h.task

/-- An attempt on a task of the member opens its submission. -/
theorem opening_request (cfg : Config) (requestId : Option Text) {t : RewriteTask}
    (ht : db.ownedTask x.taskId x.member = .ok t) :
    ∃ sub, x.Makes sub ∧ opening cfg db x.member (x.request requestId) =
      openSubmission cfg db sub := by
  obtain ⟨-, hid, -⟩ := ownedTask_eq_ok ht
  refine ⟨⟨t, x.member, x.payload.kind, x.payload, some x.key,
    if x.payload = .analysis then none else requestId⟩, ⟨rfl, hid, rfl, rfl, rfl⟩, ?_⟩
  simp only [request, opening, ht, Opening.bind]

/-- What an attempt waits with is a submission of its own. -/
theorem makes_of_opening {pd : Pending}
    (h : opening cfg db x.member (x.request requestId) = .pending pd) :
    ∃ sub, pd = .submit sub ∧ x.Makes sub := by
  obtain ⟨t, ht, -⟩ := Opening.bind_eq_pending.mp h
  obtain ⟨sub, hmakes, hopen⟩ := opening_request cfg requestId ht
  exact ⟨sub, (openSubmission_eq_pending (hopen.symm.trans h)).1, hmakes⟩

/-- An attempt that is answered at once with an operation has found it. -/
theorem existing_of_opening {v : AiOperationView}
    (h : opening cfg db x.member (x.request requestId) = .answer (.ok (.operation v))) :
    ∃ o ∈ db.operations, o.view = v ∧ x.Keys o ∧ o.requestHash = x.hash cfg := by
  rcases ht : db.ownedTask x.taskId x.member with e | t
  · simp [request, opening, ht, Opening.bind] at h
  · obtain ⟨sub, hmakes, hopen⟩ := opening_request cfg requestId ht
    rw [hopen, openSubmission] at h
    split at h
    · cases h
    · rename_i o hl
      obtain ⟨ho, hkeys, hhash⟩ := hmakes.existing hl
      exact ⟨o, ho, Reply.operation.inj (Except.ok.inj (Opening.answer.inj h)), hkeys, hhash⟩
    · cases h

end Attempt

namespace Sys

variable {cfg : Config} {s s' : Sys} {a : Action} {x : Attempt}

/-! ## Operations stay -/

/-- The step clears the history of the member. -/
def Clears (s : Sys) (m : Uuid) (a : Action) : Prop :=
  ∃ p ids r, a = .commit p ids ∧ s.procs p = .opened m r .clearHistory

/-- **Only its owner's clearing removes an operation.** -/
theorem kept_of_move (hb : s.Base) (h : Move cfg s a s') {o : AiOperation}
    (hn : ¬ s.Clears o.ownerId a) (ho : o ∈ s.db.operations) :
    ∃ o' ∈ s'.db.operations, o.Became o' := by
  cases h with
  | commit hp hids hf hw hc =>
    rename_i p ids m r pd out db
    have hwrites := writes_of_finish hf
    have hfold := (Db.commit_eq_some.mp hc).1
    generalize out.writes = ws at hwrites hfold
    cases hwrites with
    | clearHistory =>
      have hopened : s.procs p = .opened m r .clearHistory := by
        refine (hp.resolve_left fun hl => ?_).1
        obtain ⟨t, ht⟩ := hb.lockedTask p m r _ hl
        cases ht
      have hne : o.ownerId ≠ m := by
        rintro rfl
        exact hn ⟨p, ids, r, rfl, hopened⟩
      obtain rfl := Option.some.inj hfold
      exact ⟨o, Table.mem_delete.mpr ⟨ho, by simp [hne]⟩, .refl o⟩
    | presets _ hon =>
      refine (Db.operations_of_foldlM hfold fun w hw => ?_).2 o ho
      have hon := hon w hw
      cases w <;> trivial
    | submit _ hsnapshot =>
      refine (Db.operations_of_foldlM hfold fun w hw => ?_).2 o ho
      rcases List.mem_append.mp hw with hw | hw
      · rcases hsnapshot with rfl | ⟨_, _, -, rfl⟩
        · cases hw
        · obtain rfl := List.mem_singleton.mp hw
          trivial
      · rcases List.mem_pair.mp hw with rfl | rfl <;> trivial
    | cancelOperation _ hreset =>
      refine (Db.operations_of_foldlM hfold fun w hw => ?_).2 o ho
      rcases List.mem_cons.mp hw with rfl | hw
      · exact AiOperationStatus.noConfusion
      · rw [hreset] at hw
        split at hw
        · split at hw
          · obtain rfl := List.mem_singleton.mp hw
            trivial
          · cases hw
        · cases hw
    | _ => exact (Db.operations_of_foldlM hfold (by simp [storeSnapshot, Write.Sound])).2 o ho
  | settle _ _ _ _ _ ht _ hc =>
    rw [enter_db]
    have hs := sound_of_transaction ht
    exact (Db.operations_of_foldlM (Db.commit_eq_some.mp hc).1 fun w hw => (hs w hw).1).2 o ho
  | recover _ _ _ hc _ =>
    exact (Db.operations_of_foldlM (Db.commit_eq_some.mp hc).1 sound_of_recoverWrites).2 o ho
  | configure => exact ⟨o, ho, .refl o⟩
  | _ => exact ⟨o, by simpa using ho, .refl o⟩

/-! ## Attempts in progress -/

/-- The operation is stored, under the key and for what the attempts submit. -/
def Accepts (cfg : Config) (s : Sys) (x : Attempt) (id : Uuid) : Prop :=
  ∃ o ∈ s.db.operations, o.id = id ∧ x.Keys o ∧ o.requestHash = x.hash cfg

theorem Accepts.move {id : Uuid} (hacc : s.Accepts cfg x id) (hb : s.Base)
    (hn : ¬ s.Clears x.member a) (h : Move cfg s a s') : s'.Accepts cfg x id := by
  obtain ⟨o, ho, hid, ⟨howner, htask, hkind, hkey⟩, hhash⟩ := hacc
  obtain ⟨o', ho', hbec⟩ := kept_of_move hb h (howner ▸ hn) ho
  have hsame := hbec.same
  exact ⟨o', ho', hsame.id.trans hid, ⟨hsame.ownerId.trans howner, hsame.taskId.trans htask,
    hsame.kind.trans hkind, hsame.idempotencyKey.trans hkey⟩, hsame.requestHash.trans hhash⟩

/-- The attempts hold submissions of their own, and those that have succeeded have been
answered with a stored operation. -/
structure Attempted (cfg : Config) (x : Attempt) (s : Sys) : Prop where
  retrying : ∀ q requestId sub, s.procs q = .retrying x.member (x.request requestId) sub →
    x.Makes sub
  answered : ∀ q requestId v,
    s.procs q = .answered x.member (x.request requestId) (.ok (.operation v)) →
      s.Accepts cfg x v.id

/-- What an attempt under its row lock holds. -/
theorem makes_of_locked (hh : s.Holding cfg) {q : ℕ} {requestId : Option Text} {pd : Pending}
    (hq : s.procs q = .locked x.member (x.request requestId) pd) :
    ∃ sub, pd = .submit sub ∧ x.Makes sub := by
  obtain ⟨pd₀, db, ⟨db₀, ho, -⟩, rfl⟩ := hh.locked q _ _ _ hq
  obtain ⟨sub, rfl, hmakes⟩ := Attempt.makes_of_opening ho
  exact ⟨_, rfl, hmakes.refresh⟩

/-- An attempt that has not locked its task waits with a submission as well. -/
theorem makes_of_waiting (hh : s.Holding cfg) {q : ℕ} {requestId : Option Text} {pd : Pending}
    (hq : s.procs q = .locked x.member (x.request requestId) pd ∨
      s.procs q = .opened x.member (x.request requestId) pd ∧ pd.task = none) :
    s.procs q = .locked x.member (x.request requestId) pd ∧
      ∃ sub, pd = .submit sub ∧ x.Makes sub := by
  rcases hq with hq | ⟨hq, hnone⟩
  · exact ⟨hq, makes_of_locked hh hq⟩
  · obtain ⟨db₀, ho, -⟩ := hh.opened q _ _ _ hq
    obtain ⟨sub, rfl, -⟩ := Attempt.makes_of_opening ho
    cases hnone

/-- The commit of an attempt stores the operation it is answered with. -/
theorem accepts_of_commit (hb : s.Base) {q : ℕ} {ids : List Uuid} {m : Uuid} {r : Request}
    {sub : Submission} {out : Outcome} {v : AiOperationView} {db : Db}
    (hq : s.procs q = .locked m r (.submit sub)) (hmakes : x.Makes sub) (hids : s.Draws ids)
    (hf : sub.finish cfg s.db ⟨s.now, ids⟩ = .ok out) (hc : s.db.commit out.writes = some db)
    (hreply : out.reply db = .ok (.operation v)) :
    ∃ o ∈ db.operations, o.id = v.id ∧ x.Keys o ∧ o.requestHash = x.hash cfg := by
  have hstate : assertTransition sub.task.state (runningState sub.kind) = .ok () := by
    obtain ⟨_, hstate, -⟩ := bind_eq_ok.mp hf
    exact ensure_eq_ok.mp hstate
  have hnew : NewOperation cfg s (.commit q ids) (sub.operation cfg ⟨s.now, ids⟩) :=
    ⟨q, m, r, sub, ids, rfl, hq, hids, hstate, rfl⟩
  have hfresh : s.db.operations.get (Stamp.id ⟨s.now, ids⟩ 0) = none := by
    refine Table.get_eq_none.mpr fun o ho hid => hnew.fresh ?_
    have hid : o.id = (sub.operation cfg ⟨s.now, ids⟩).id := hid
    exact hid ▸ hb.drawn o ho
  obtain ⟨hanswer, hqueued⟩ :=
    Submission.queued_of_commit hfresh (hb.submit q m r sub hq) hf hc
  obtain ⟨howner, htask, hkind⟩ := hqueued.ofMember
  obtain ⟨hkey, hhash, -⟩ := hqueued.ofRequest
  have hview := Reply.operation.inj (Except.ok.inj (hanswer.symm.trans hreply))
  exact ⟨_, (Table.get_eq_some.mp hqueued.isNew.2).1, congrArg AiOperationView.id hview,
    ⟨howner.trans hmakes.owner, htask.trans hmakes.task, hkind.trans hmakes.kind,
      hkey.trans hmakes.key⟩, hhash.trans hmakes.hash⟩

/-- A commit that is answered with success has drawn its identifiers. -/
theorem draws_of_commit {q : ℕ} {ids : List Uuid} {m : Uuid} {r : Request} {sub : Submission}
    {y : Reply} (h : Move cfg s (.commit q ids) s') (hp : s.procs q = .locked m r (.submit sub))
    (hq : s'.procs q = .answered m r (.ok y)) : s.Draws ids := by
  cases h with
  | commit _ hids => exact hids
  | reject =>
    rw [unlock_procs, setProc_procs, Function.update_self] at hq
    cases hq
  | refuse hp' =>
    rw [unlock_procs, setProc_procs, Function.update_self] at hq
    rw [hp] at hp'
    rcases hp' with hp' | ⟨hp', -⟩
    · obtain ⟨rfl, rfl, rfl⟩ := Proc.locked.inj hp'
      cases hq
    · cases hp'

theorem Attempted.move (hx : Attempted cfg x s) (hb : s.Base) (hh : s.Holding cfg)
    (hn : ¬ s.Clears x.member a) (h : Move cfg s a s') : Attempted cfg x s' where
  retrying := by
    intro q requestId sub hq
    rcases old_or_turn h hq fun _ => by simp with ⟨hp, -⟩ | ht
    · exact hx.retrying q requestId sub hp
    · generalize hy : s.procs q = y at ht
      cases ht with
      | retrying hlocked =>
        obtain ⟨sub', hsub, hmakes⟩ := makes_of_locked hh (hy.trans hlocked)
        obtain rfl := Pending.submit.inj hsub
        exact hmakes
  answered := by
    intro q requestId v hq
    rcases old_or_turn h hq fun _ => by simp with ⟨hp, -⟩ | ht
    · exact (hx.answered q requestId v hp).move hb hn h
    · generalize hy : s.procs q = y at ht
      generalize hresponse : (Except.ok (.operation v) : Response) = response at ht
      cases ht with
      | answered ho =>
        subst hresponse
        obtain ⟨o, hm, rfl, hkeys, hhash⟩ := Attempt.existing_of_opening ho
        exact Accepts.move ⟨o, hm, rfl, hkeys, hhash⟩ hb hn h
      | busy | rejected => cases hresponse
      | refused hwaiting hpd =>
        obtain ⟨-, sub, rfl, -⟩ := makes_of_waiting hh (hy ▸ hwaiting)
        exact absurd rfl (hpd sub)
      | committed hwaiting hf hc =>
        obtain ⟨hlocked, sub, rfl, hmakes⟩ := makes_of_waiting hh (hy ▸ hwaiting)
        have hids := draws_of_commit h hlocked hq
        exact accepts_of_commit hb hlocked hmakes hids hf hc hresponse.symm
      | relookup =>
        have hmakes := hx.retrying q requestId _ hy
        rw [Submission.afterIntegrityError] at hresponse
        split at hresponse
        · cases hresponse
        · rename_i o hl
          obtain ⟨hm, hkeys, hhash⟩ := hmakes.existing hl
          have hview := Reply.operation.inj (Except.ok.inj hresponse)
          refine Accepts.move ⟨o, hm, ?_, hkeys, hhash⟩ hb hn h
          rw [hview]
          rfl
        · cases hresponse

/-! ## One operation -/

/-- **All attempts of a submission come to one operation.** In a run in which the member does not
clear the history, let an attempt have been answered with an operation. It is stored for what the
attempts submit, it is the only one under their key, all attempts that have succeeded were
answered with it, and an attempt that arrives now is answered with it at once, while one that
submits something else under the key is refused; neither changes a row. -/
theorem submitted_once
    (hs : Reach (system cfg) (fun s a => ¬ s.Clears x.member a) s) {p : ℕ}
    {requestId : Option Text} {v : AiOperationView}
    (hp : s.procs p = .answered x.member (x.request requestId) (.ok (.operation v))) :
    ∃ o ∈ s.db.operations, o.id = v.id ∧ x.Keys o ∧ o.requestHash = x.hash cfg ∧
      (∀ o' ∈ s.db.operations, x.Keys o' → o' = o) ∧
      (∀ q requestId w, s.procs q = .answered x.member (x.request requestId) (.ok (.operation w)) →
        w.id = v.id) ∧
      ∀ (y : Attempt) (requestId : Option Text) (st : Stamp), y.Keys o →
        handle cfg s.db x.member st (y.request requestId) =
          (s.db, if y.hash cfg = x.hash cfg then .ok (.operation o.view)
            else .error keyReused) := by
  have hattempted : Attempted cfg x s := by
    refine hs.invariant (I := Attempted cfg x) (fun s hi => ⟨?_, ?_⟩) ?_
    · intro q requestId sub hq
      simp [hi.procs] at hq
    · intro q requestId v hq
      simp [hi.procs] at hq
    · exact fun s a s' hr hx hn h => hx.move (base hr) (holding hr) hn (move_of_step h)
  have hc := (base hs).consistent
  obtain ⟨o, ho, hid, hkeys, hhash⟩ := hattempted.answered p requestId v hp
  have hone : ∀ o' ∈ s.db.operations, x.Keys o' → o' = o := fun o' ho' hkeys' =>
    Attempt.Keys.unique hc ho ho' hkeys hkeys'
  refine ⟨o, ho, hid, hkeys, hhash, hone, fun q requestId w hq => ?_, fun y requestId st hy => ?_⟩
  · obtain ⟨o', ho', hid', hkeys', -⟩ := hattempted.answered q requestId w hq
    rw [← hid', hone o' ho' hkeys', hid]
  · have hmember : y.member = x.member := hy.1.symm.trans hkeys.1
    obtain ⟨t, ht, htask, howner⟩ := Db.owns_iff.mp ((apart hs).ownOperations o ho)
    have howned : s.db.ownedTask y.taskId y.member = .ok t := by
      rw [← hy.2.1, ← hy.1, ← htask, ← howner]
      exact ownedTask_of_mem ht
    obtain ⟨sub, hmakes, hopen⟩ := Attempt.opening_request cfg requestId howned
    rw [← hmember, handle, hopen, openSubmission, hmakes.lookup hc ho hy, hhash]
    by_cases hsame : x.hash cfg = y.hash cfg
    · simp [hsame]
    · simp [hsame, Ne.symm hsame]

namespace Sample

/-- The attempts to have task 10 analysed. -/
def again : Attempt := ⟨1, 10, .analysis, ['k']⟩

/-- The second attempt comes before the first has committed, the third after it. -/
def attempts : List Action :=
  [.request 0 1 (.createTask create), .commit 0 (ids 1), .request 2 1 (again.request none),
    .request 3 1 (again.request none), .lock 2, .commit 2 (ids 2), .lock 3,
    .request 4 1 (again.request none)]

/-- The step does not clear the history. -/
def clearsNothing (s : Sys) : Action → Bool
  | .commit p _ => match s.procs p with
      | .opened _ _ .clearHistory => false
      | _ => true
  | _ => true

theorem not_clears (s : Sys) (a : Action) (h : clearsNothing s a = true) :
    ¬ s.Clears again.member a := by
  rintro ⟨p, ids, r, rfl, hp⟩
  simp [clearsNothing, hp] at h

/-- The operation an attempt was answered with. -/
def answeredWith (s : Sys) (p : ℕ) : Option Uuid :=
  match s.procs p with
  | .answered m (.submit taskId payload key requestId) (.ok (.operation v)) =>
      if m = 1 ∧ taskId = 10 ∧ payload = .analysis ∧ key = some ['k'] ∧ requestId = none then
        some v.id
      else none
  | _ => none

theorem answered_of_answeredWith {s : Sys} {p : ℕ} {id : Uuid} (h : answeredWith s p = some id) :
    ∃ v, s.procs p = .answered again.member (again.request none) (.ok (.operation v)) ∧
      v.id = id := by
  rw [answeredWith] at h
  split at h
  · rename_i v hp
    split at h
    · rename_i heq
      obtain ⟨rfl, rfl, rfl, rfl, rfl⟩ := heq
      exact ⟨v, hp, Option.some.inj h⟩
    · cases h
  · cases h

set_option maxRecDepth 16000 in
theorem run_attempts : ((system Sample.cfg).runIf clearsNothing start attempts).map (fun s =>
    decide ((answeredWith s 2, answeredWith s 3, answeredWith s 4) =
      (some 20, none, some 20))) = some true := by
  decide

end Sample

/-- The third attempt is answered with the operation of the first. -/
theorem submitted_once_again : ∃ s : Sys,
    Reach (system Sample.cfg) (fun s a => ¬ s.Clears Sample.again.member a) s ∧
      ∃ o ∈ s.db.operations, o.id = 20 ∧ (∀ o' ∈ s.db.operations, Sample.again.Keys o' → o' = o) ∧
        ∀ st, handle Sample.cfg s.db 1 st (Sample.again.request none) =
          (s.db, .ok (.operation o.view)) := by
  obtain ⟨s, hrun, hcheck⟩ := Option.map_eq_some_iff.mp Sample.run_attempts
  have hanswers := of_decide_eq_true hcheck
  simp only [Prod.mk.injEq] at hanswers
  obtain ⟨v, hp, hid⟩ := Sample.answered_of_answeredWith hanswers.1
  have hs := (Reach.init Sample.initial_start).append
    (steps_of_runIf (P := fun s a => ¬ s.Clears Sample.again.member a) Sample.not_clears hrun)
  obtain ⟨o, ho, hov, hkeys, -, hone, -, hlater⟩ := submitted_once hs hp
  refine ⟨s, hs, o, ho, hov.trans hid, hone, fun st => ?_⟩
  have hanswer := hlater Sample.again none st hkeys
  rwa [if_pos rfl] at hanswer

end Sys

end DouyinCaption

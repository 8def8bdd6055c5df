import DouyinCaption.Executing
import DouyinCaption.Invariants
import DouyinCaption.Payloads
import DouyinCaption.Submission

/-!
# Stored work

An operation stores its request as JSON, and both the worker and `AiQueueService.retry` validate
that JSON before they use it. Where members submit payloads their schemas accept, every stored
payload validates to itself, and a retry submits the request it finds.
-/

namespace DouyinCaption

open Tables Runs

/-! ## Where submissions come from -/

/-- A submission comes from a request to submit or from a retry. -/
theorem submission_of_opening {cfg : Config} {db : Db} {m : Uuid} {r : Request}
    {sub : Submission} (h : opening cfg db m r = .pending (.submit sub)) :
    (∃ taskId key requestId, r = .submit taskId sub.payload key requestId ∧
        sub.kind = sub.payload.kind) ∨
      ∃ opId key, retrySubmission db m opId key = .ok sub := by
  cases r with
  | submit taskId payload key requestId =>
    obtain ⟨t, -, h⟩ := Opening.bind_eq_pending.mp h
    obtain ⟨hs, -⟩ := openSubmission_eq_pending h
    obtain rfl := Pending.submit.inj hs
    exact .inl ⟨taskId, key, requestId, rfl, rfl⟩
  | retryOperation opId key =>
    obtain ⟨s, hs, h⟩ := Opening.bind_eq_pending.mp h
    obtain ⟨hs', -⟩ := openSubmission_eq_pending h
    obtain rfl := Pending.submit.inj hs'
    exact .inr ⟨opId, key, hs⟩
  | createPreset | createTask | clearHistory => cases h
  | updatePreset | deletePreset | copyTask | updateTask | archiveTask | restoreTask
  | updateAnalysis | updateSuggestion | deleteLock | cancelOperation | getTask | getAnalyses
  | getSuggestions | listVersions | getVersion | getLocks =>
    obtain ⟨_, -, h⟩ := Opening.bind_eq_pending.mp h
    cases h
  | manualEdit | createLock | finalizeVersion | getAnalysis | compareVersions =>
    obtain ⟨_, -, h⟩ := Opening.bind_eq_pending.mp h
    obtain ⟨_, -, h⟩ := Opening.bind_eq_pending.mp h
    cases h
  | exportFinal =>
    obtain ⟨_, -, h⟩ := Opening.bind_eq_pending.mp h
    split at h <;> cases h
  | getOperation =>
    simp only [opening] at h
    split at h <;> cases h
  | listPresets | listTasks | listOperations => cases h

/-- The submission repeats the request of an operation. -/
structure Submission.Repeats (s : Submission) (o : AiOperation) : Prop where
  owner : s.ownerId = o.ownerId
  task : s.task.id = o.taskId
  kind : s.kind = o.kind
  payload : s.payload = o.requestPayload
  requestId : s.requestId = o.requestId

/-- A retry repeats a stored operation. -/
theorem repeats_of_retrySubmission {db : Db} {m opId : Uuid} {key : Option Text}
    {s : Submission} (h : retrySubmission db m opId key = .ok s) :
    ∃ o ∈ db.operations, o.id = opId ∧ s.Repeats o := by
  obtain ⟨o, ho, h⟩ := bind_eq_ok.mp h
  obtain ⟨_, -, h⟩ := bind_eq_ok.mp h
  obtain ⟨_, -, h⟩ := bind_eq_ok.mp h
  obtain ⟨hm, hid, howner⟩ := ownedOperation_eq_ok ho
  split at h
  · cases h
  · rename_i t ht
    obtain ⟨_, -, h⟩ := bind_eq_ok.mp h
    obtain ⟨_, -, h⟩ := bind_eq_ok.mp h
    obtain rfl := Except.ok.inj h
    exact ⟨o, hm, hid, howner.symm, (Table.get_eq_some.mp ht).2, rfl, rfl, rfl⟩

/-! ## What is stored -/

namespace Sys

variable {cfg : Config} {lib : Scalars} {s s' : Sys} {a : Action}

/-- A payload that is submitted is one its schema accepts. -/
def Submits (lib : Scalars) (_ : Sys) (a : Action) : Prop :=
  ∀ p m taskId payload key requestId, a = .request p m (.submit taskId payload key requestId) →
    payload.Accepted lib

/-- The request of an operation is accepted by the schema of its kind and hashed. -/
structure Recorded (cfg : Config) (lib : Scalars) (o : AiOperation) : Prop where
  accepted : o.requestPayload.Accepted lib
  kind : o.requestPayload.kind = o.kind
  hash : o.requestHash = requestHash cfg o.kind o.taskId o.requestPayload.toJson

/-- What was recorded of an operation is part of its request. -/
theorem Recorded.of_same {o o' : AiOperation} (h : Recorded cfg lib o)
    (hs : o.SameRequest o') : Recorded cfg lib o' where
  accepted := hs.requestPayload ▸ h.accepted
  kind := by rw [hs.requestPayload, hs.kind]; exact h.kind
  hash := by rw [hs.requestHash, hs.kind, hs.taskId, hs.requestPayload]; exact h.hash

/-- The stored requests, and those of the submissions on their way. -/
structure Decodes (cfg : Config) (lib : Scalars) (s : Sys) : Prop where
  stored : ∀ o ∈ s.db.operations, Recorded cfg lib o
  pending : ∀ p m r sub,
    (s.procs p = .opened m r (.submit sub) ∨ s.procs p = .locked m r (.submit sub)) →
      sub.payload.Accepted lib ∧ sub.payload.kind = sub.kind

/-- The step lemma: a stored payload is never changed. -/
theorem Decodes.move (hd : Decodes cfg lib s) (hsub : Submits lib s a) (h : Move cfg s a s') :
    Decodes cfg lib s' where
  stored := by
    intro o' ho'
    rcases (opsEvolve_of_move h).origin o' ho' with ⟨o, ho, hb⟩ | hnew
    · exact (hd.stored o ho).of_same hb.same
    · obtain ⟨p, m, r, sub, ids, -, hp, -, -, rfl⟩ := hnew
      obtain ⟨haccepted, hkind⟩ := hd.pending p m r sub (.inr hp)
      exact ⟨haccepted, hkind, rfl⟩
  pending := by
    rintro p m r sub (hp' | hp')
    · rcases opened_of_move h hp' with ⟨hp, -⟩ | ⟨ha, ho, -⟩
      · exact hd.pending p m r sub (.inl hp)
      · rcases submission_of_opening ho with ⟨taskId, key, requestId, rfl, hkind⟩ |
          ⟨opId, key, hretry⟩
        · exact ⟨hsub p m taskId _ key requestId ha, hkind.symm⟩
        · obtain ⟨o, hm, -, hrep⟩ := repeats_of_retrySubmission hretry
          have hrec := hd.stored o hm
          exact ⟨hrep.payload ▸ hrec.accepted, by rw [hrep.payload, hrep.kind]; exact hrec.kind⟩
    · rcases locked_of_move h hp' with ⟨hp, -⟩ | ⟨pd₀, t₀, -, hp, -, -, -, hrefresh, -⟩
      · exact hd.pending p m r sub (.inr hp)
      · cases pd₀ with
        | submit sub₀ =>
          obtain rfl := Pending.submit.inj hrefresh
          exact hd.pending p m r sub₀ (.inl hp)
        | _ => cases hrefresh

/-- **Every stored request is accepted and hashed** where the members submit payloads their
schemas accept. -/
theorem decodes (hs : Reach (system cfg) (Submits lib) s) : Decodes cfg lib s := by
  refine hs.invariant (I := Decodes cfg lib) (fun s h => ⟨fun o ho => ?_, fun p m r sub hp => ?_⟩)
    fun _ _ _ _ hd hsub h => hd.move hsub (move_of_step h)
  · rw [h.operations] at ho
    exact absurd ho Table.not_mem_empty
  · simp [h.procs] at hp

end Sys

/-! ## Retries -/

/-- No operation of the submission's scope has its key. -/
def Submission.FreshKey (s : Submission) (db : Db) : Prop :=
  ∀ key, s.idempotencyKey = some key →
    ∀ o ∈ db.operations, o.underKey s.task.id s.ownerId s.kind key = false

/-- Under a fresh key no operation is found. -/
theorem Submission.lookup_of_freshKey {cfg : Config} {s : Submission} {db : Db}
    (h : s.FreshKey db) : s.lookup cfg db = .ok none := by
  unfold lookup existing
  split
  · rfl
  · rename_i key hkey
    rw [Table.scalar_none.mpr fun o ho => by simp [h key hkey o ho]]

/-- A submission with a fresh key that is answered with success has created its operation. -/
theorem Submission.created_of_submit {cfg : Config} {s : Submission}
    {v : Submission.Views s.task.id} {st : Stamp} {reply : Reply}
    (hlookup : s.FreshKey v.lookup) (hrelookup : s.FreshKey v.relookup)
    (hfresh : v.commit.operations.get (st.id 0) = none)
    (h : (s.submit cfg v st).1 = .ok reply) :
    ∃ task db', task.id = s.task.id ∧ (s.submit cfg v st).2 = some db' ∧
      db'.operations.get (st.id 0) = some ({ s with task }.operation cfg st) ∧
      reply = .operation ({ s with task }.operation cfg st).view := by
  rw [submit] at h ⊢
  split at h
  · cases h
  rename_i howner
  rw [if_neg howner]
  rw [lookup_of_freshKey hlookup] at h ⊢
  simp only at h ⊢
  rcases ht : v.locked.tasks.get s.task.id with _ | task
  · rw [ht] at h
    cases h
  rw [ht] at h
  simp only at h ⊢
  split at h
  · cases h
  rename_i hactive
  rw [if_neg hactive]
  rcases hf : { s with task }.finish cfg v.commit st with e | out
  · rw [hf] at h
    cases h
  simp only [hf] at h ⊢
  rcases hc : v.commit.commit out.writes with _ | db'
  · -- the second lookup finds nothing either
    simp only [hc, afterIntegrityError, lookup_of_freshKey hrelookup] at h
    cases h
  simp only [hc] at h ⊢
  have hid : task.id = s.task.id := (Table.get_eq_some.mp ht).2
  have hrow : v.commit.tasks.get task.id = some task := by rw [hid, v.held, ht]
  obtain ⟨hreply, hq⟩ := queued_of_commit (s := { s with task }) hfresh hrow hf hc
  exact ⟨task, db', hid, rfl, hq.isNew.2, Except.ok.inj (h.symm.trans hreply)⟩

/-- A queued operation with the request of another. -/
structure AiOperation.Resubmitted (o o' : AiOperation) : Prop where
  status : o'.status = .queued
  owner : o'.ownerId = o.ownerId
  task : o'.taskId = o.taskId
  kind : o'.kind = o.kind
  payload : o'.requestPayload = o.requestPayload
  hash : o'.requestHash = o.requestHash
  requestId : o'.requestId = o.requestId

/-- What a retry stores has the payload, the hash and the states of the operation it repeats. -/
theorem Submission.Repeats.resubmitted {cfg : Config} {lib : Scalars} {s : Submission}
    {o : AiOperation} {task : RewriteTask} {st : Stamp} (h : s.Repeats o)
    (hr : Sys.Recorded cfg lib o) (hid : task.id = s.task.id) :
    o.Resubmitted ({ s with task }.operation cfg st) where
  status := rfl
  owner := h.owner
  task := hid.trans h.task
  kind := h.kind
  payload := h.payload
  hash := by
    have hhash : ({ s with task }.operation cfg st).requestHash =
        requestHash cfg s.kind task.id s.payload.toJson := rfl
    rw [hhash, hr.hash, h.kind, hid, h.task, h.payload]
  requestId := h.requestId

/-- **Stored work decodes to what was submitted**, and a retry submits it again. What a schema
accepts validates to itself; the payload of an operation stored in any run does so under the
schema of its kind; and a retry of it that has a fresh key and is accepted, whatever is
committed while it waits, creates a queued operation with the same request. -/
theorem stored_work (cfg : Config) (lib : Scalars) (hl : lib.Lawful) :
    (∀ kind v p, lib.modelValidate kind v = some p →
      lib.modelValidate kind p.toJson.value = some p) ∧
    ∀ s, Reach (Sys.system cfg) (Sys.Submits lib) s → ∀ o ∈ s.db.operations,
      lib.modelValidate o.kind o.requestPayload.toJson.value = some o.requestPayload ∧
      ∀ m key sub, retrySubmission s.db m o.id key = .ok sub →
        ∀ (v : Submission.Views sub.task.id) st reply, sub.FreshKey v.lookup →
          sub.FreshKey v.relookup → v.commit.operations.get (st.id 0) = none →
          (sub.submit cfg v st).1 = .ok reply →
          ∃ db' o', (sub.submit cfg v st).2 = some db' ∧ db'.operations.get (st.id 0) = some o' ∧
            reply = .operation o'.view ∧ o.Resubmitted o' := by
  refine ⟨fun kind v p h => ?_, fun s hs o ho => ?_⟩
  · obtain ⟨rfl, hp⟩ := of_modelValidate hl h
    exact modelValidate_value hl hp
  have hrec := (Sys.decodes hs).stored o ho
  refine ⟨hrec.kind ▸ modelValidate_of_accepted hl hrec.accepted, ?_⟩
  intro m key sub hsub v st reply hlookup hrelookup hfresh h
  obtain ⟨o₀, ho₀, hid, hrep⟩ := repeats_of_retrySubmission hsub
  obtain rfl := Table.eq_of_key ho₀ ho hid
  obtain ⟨task, db', htask, hdb, hget, hreply⟩ :=
    Submission.created_of_submit hlookup hrelookup hfresh h
  exact ⟨db', _, hdb, hget, hreply, hrep.resubmitted hrec htask⟩

namespace StoredWork.Sample

open Scalars.Sample

theorem no_decisions : ([] : List SuggestionDecisionSubmit).length ≤ 100 ∧
    (([] : List SuggestionDecisionSubmit).map SuggestionDecisionSubmit.suggestionId).Nodup := by
  decide

/-- An analysis, and suggestions from it that are cancelled before a worker claims them. -/
def cancelled : List Action :=
  Sys.Sample.analysed ++
    Sys.Sample.serve 3 5 (.submit 10 (.suggestions ⟨40, ⟨[], no_decisions⟩, noText _⟩) none none) ++
    [.request 4 1 (.cancelOperation 50), .commit 4 (Sys.Sample.ids 6)]

/-- The check of a submitted payload against its own JSON. -/
def submits : Action → Bool
  | .request _ _ (.submit _ payload _ _) =>
      canonical.modelValidate payload.kind payload.toJson.value = some payload
  | _ => true

theorem submits_of_check {a : Action} (h : submits a = true) (s : Sys) :
    Sys.Submits canonical s a := by
  rintro p m taskId payload key requestId rfl
  exact ⟨_, of_decide_eq_true h⟩

/-- The retry of operation 50 with a new key, and nothing in between. -/
def retry (s : Sys) : Option (Submission × Reply) :=
  match retrySubmission s.db 1 50 (some "k".toList) with
  | .ok sub =>
    match (sub.submit Sys.Sample.writer ⟨s.db, s.db, s.db, s.db, rfl⟩ ⟨9, [90]⟩).1 with
    | .ok reply => some (sub, reply)
    | .error _ => none
  | .error _ => none

/-- Operation 50 is cancelled, and the retry with the new key is accepted. -/
def retried (s : Sys) : Bool :=
  (s.db.operations.get 50).any (fun o => o.status = .cancelled) &&
    s.db.operations.rows.all (fun o => o.idempotencyKey ≠ some "k".toList) &&
    (s.db.operations.get 90).isNone && (retry s).isSome

set_option maxRecDepth 16000 in
/-- Operation 20 is cancelled and retried. -/
theorem run_cancelled :
    ((Sys.system Sys.Sample.writer).run Sys.Sample.start cancelled).map retried = some true := by
  decide

set_option maxRecDepth 16000 in
/-- Every submission of the run was decoded from a body. -/
theorem submits_cancelled : ∀ a ∈ cancelled, submits a = true := by decide

end StoredWork.Sample

open StoredWork.Sample Scalars.Sample in
/-- Suggestions that were cancelled are retried. -/
theorem stored_work_cancelled : ∃ s : Sys,
    Reach (Sys.system Sys.Sample.writer) (Sys.Submits canonical) s ∧
    ∃ o ∈ s.db.operations, o.id = 50 ∧ o.status = .cancelled ∧
      canonical.modelValidate o.kind o.requestPayload.toJson.value = some o.requestPayload ∧
      ∃ sub db' o', retrySubmission s.db 1 50 (some "k".toList) = .ok sub ∧
        (sub.submit Sys.Sample.writer ⟨s.db, s.db, s.db, s.db, rfl⟩ ⟨9, [90]⟩).2 = some db' ∧
        db'.operations.get 90 = some o' ∧ o.Resubmitted o' := by
  rcases hrun : (Sys.system Sys.Sample.writer).run Sys.Sample.start cancelled with _ | s
  · exact absurd run_cancelled (by rw [hrun]; simp)
  have hs : Reach (Sys.system Sys.Sample.writer) (Sys.Submits canonical) s :=
    reach_of_run (.init Sys.Sample.initial_start)
      (fun a ha t => submits_of_check (submits_cancelled a ha) t) hrun
  have hretried : retried s = true := Option.some.inj (by simpa [hrun] using run_cancelled)
  simp only [retried, Bool.and_eq_true] at hretried
  obtain ⟨⟨⟨hstatus, hkeys⟩, hnew⟩, hsome⟩ := hretried
  obtain ⟨o, hget⟩ : ∃ o, s.db.operations.get 50 = some o := by
    rcases hget : s.db.operations.get 50 with _ | o
    · rw [hget] at hstatus
      cases hstatus
    · exact ⟨o, rfl⟩
  rw [hget, Option.any_some, decide_eq_true_eq] at hstatus
  obtain ⟨ho, hid⟩ := Table.get_eq_some.mp hget
  have hid : o.id = 50 := hid
  obtain ⟨hvalid, hall⟩ := (stored_work Sys.Sample.writer canonical lawful).2 s hs o ho
  obtain ⟨⟨sub, reply⟩, hretry⟩ := Option.isSome_iff_exists.mp hsome
  rw [retry] at hretry
  split at hretry
  · rename_i sub₀ hsub
    split at hretry
    · rename_i reply₀ hreply
      have hkey : sub₀.idempotencyKey = some "k".toList := (retrySubmission_eq_ok hsub).2.2.2.2
      have hfresh : sub₀.FreshKey s.db := fun key hk o' ho' => by
        have hne := List.all_eq_true.mp hkeys o' ho'
        obtain rfl := Option.some.inj (hkey.symm.trans hk)
        simp only [AiOperation.underKey, of_decide_eq_true hne, decide_false, Bool.and_false]
      obtain ⟨db', o', hdb, hget', -, hre⟩ := hall 1 _ sub₀ (hid ▸ hsub) _ _ _ hfresh hfresh
        (Option.isNone_iff_eq_none.mp hnew) hreply
      exact ⟨s, hs, o, ho, hid, hstatus, hvalid, sub₀, db', o', hsub, hdb, hget', hre⟩
    · cases hretry
  · cases hretry

end DouyinCaption

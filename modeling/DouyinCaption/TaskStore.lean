import Mathlib.Tactic.Common
import DouyinCaption.Domain
import DouyinCaption.Library.Runs

/-!
# The task store of the browser

`loadOne`, `refreshCurrent` and `persist` of `src/frontend/src/shared/stores/tasks.ts`, the
three writers of the open document. Each is two steps here, the request and what is done with
its answer; between the two any other step may happen, and answers come in any order.

`loadOne` and `refreshCurrent` compare what they read before the request with the store when
the answer comes. `persist` compares nothing: so the store shows the task that was asked for
last exactly as long as no `persist` is answered after another task was asked for
(`current_requested_iff`).
-/

namespace DouyinCaption.TaskStore

open Runs

/-- `RewriteTask` of `shared/types.ts`: what the store reads, and a text for the rest -/
structure RewriteTask where
  id : Uuid
  state : TaskState
  sourceText : Text := []
  deriving DecidableEq, Repr

/-- The values of the store. -/
structure Store where
  items : List RewriteTask := []
  current : Option RewriteTask := none
  loading : Bool := false
  error : Text := []
  loadGeneration : ℕ := 0
  /-- `requestedTaskId`: none for `''` -/
  requestedTaskId : Option Uuid := none

namespace Store

/-- `loadOne`, up to its `await` -/
def load (taskId : Uuid) (s : Store) : Store :=
  { s with
    loadGeneration := s.loadGeneration + 1, requestedTaskId := some taskId
    current := none, loading := true, error := [] }

/-- `loadOne`, after `getTask` answered -/
def loaded (generation : ℕ) (result : RewriteTask) (s : Store) : Store :=
  if generation = s.loadGeneration then { s with current := some result, loading := false } else s

/-- `loadOne`, after `getTask` failed -/
def failed (generation : ℕ) (message : Text) (s : Store) : Store :=
  if generation = s.loadGeneration then { s with error := message, loading := false } else s

/-- `refreshCurrent`, after `getTask` answered -/
def refreshed (generation : ℕ) (taskId : Uuid) (result : RewriteTask) (s : Store) : Store :=
  { s with
    current :=
      if generation = s.loadGeneration ∧ s.requestedTaskId = some taskId then some result
      else s.current
    items := s.items.map fun item => if item.id = taskId then result else item }

/-- `persist`, after `updateDraft` answered -/
def persisted (result : RewriteTask) (s : Store) : Store := { s with current := some result }

end Store

/-! ## Calls and steps -/

/-- A request under way, with what its function read before it was sent. -/
inductive Call where
  | loadOne (generation : ℕ) (taskId : Uuid)
  | refreshCurrent (generation : ℕ) (taskId : Uuid)
  | persist (task : RewriteTask)
  deriving DecidableEq

/-- The answer to a request: a task, or an exception with its message where it is an
`Error`. -/
inductive Answer where
  | task (t : RewriteTask)
  | failed (message : Option Text)
  deriving DecidableEq

/-- What has come of a `loadOne`. -/
inductive Outcome where
  | pending
  | loaded
  | failed (message : Text)
  deriving DecidableEq

/-- The most recent `loadOne`: its request, its task and what has come of it. The code has
nothing of the kind. -/
structure Visit where
  call : ℕ
  taskId : Uuid
  outcome : Outcome

/-- The browser: the store, the requests under way by their number, the most recent `loadOne`
and the tasks the server has answered with. -/
structure Browser where
  store : Store := {}
  calls : ℕ → Option Call := fun _ => none
  sent : ℕ := 0
  visit : Option Visit := none
  answers : List RewriteTask := []

/-- What a step does. -/
inductive Act where
  | loadOne (taskId : Uuid)
  | refreshCurrent (taskId : Uuid)
  | persist
  | answer (call : ℕ) (answer : Answer)
  deriving DecidableEq

/-- The task a request is about. -/
def Call.taskId : Call → Uuid
  | .loadOne _ taskId | .refreshCurrent _ taskId => taskId
  | .persist task => task.id

/-- `reason instanceof Error ? reason.message : '任务加载失败'` -/
def failure (message : Option Text) : Text := message.getD "任务加载失败".toList

/-- What an answer is for the `loadOne` that waits for it. -/
def Answer.outcome : Answer → Outcome
  | .task _ => .loaded
  | .failed message => .failed (failure message)

/-- The most recent `loadOne` after an answer. -/
def Visit.settle (k : ℕ) (a : Answer) (v : Visit) : Visit :=
  if v.call = k then { v with outcome := a.outcome } else v

namespace Browser

/-- Send a request. -/
def send (c : Call) (b : Browser) : Browser :=
  { b with calls := Function.update b.calls b.sent (some c), sent := b.sent + 1 }

/-- What the function waiting for `c` does with the answer. The server answers with the task
it was asked for; `none` where it is another. -/
def answered (s : Store) : Call → Answer → Option Store
  | .loadOne generation taskId, .task t =>
      if t.id = taskId then some (s.loaded generation t) else none
  | .loadOne generation _, .failed message => some (s.failed generation (failure message))
  | .refreshCurrent generation taskId, .task t =>
      if t.id = taskId then some (s.refreshed generation taskId t) else none
  | .persist task, .task t => if t.id = task.id then some (s.persisted t) else none
  -- the rejection is the caller's to handle
  | .refreshCurrent .., .failed _ | .persist _, .failed _ => some s

/-- One step of the browser. -/
def step (b : Browser) : Act → Option Browser
  | .loadOne taskId =>
      some ({ b with
        store := b.store.load taskId, visit := some ⟨b.sent, taskId, .pending⟩ }.send
          (.loadOne (b.store.loadGeneration + 1) taskId))
  | .refreshCurrent taskId => some (b.send (.refreshCurrent b.store.loadGeneration taskId))
  | .persist =>
      match b.store.current with
      | none => some b
      | some task => if task.state = .draft then some (b.send (.persist task)) else some b
  | .answer k a =>
      match b.calls k with
      | none => none
      | some c => (answered b.store c a).map fun store =>
          { b with
            store, calls := Function.update b.calls k none
            visit := b.visit.map (Visit.settle k a)
            answers := match a with
              | .task t => t :: b.answers
              | .failed _ => b.answers }

end Browser

/-- The browser as a labelled system. It starts with an empty store. -/
def system : System Browser Act where
  init b := b = {}
  step := Browser.step

/-! ## What the store shows -/

/-- The message of a failed `loadOne`. -/
def Outcome.message : Outcome → Text
  | .failed message => message
  | _ => []

/-- The open document is an answer for the task of the most recent `loadOne`, if there is one,
and `loading` and `error` are what has come of it. -/
structure Shown (b : Browser) : Prop where
  current : ∀ t, b.store.current = some t →
    t ∈ b.answers ∧ b.visit.map (·.taskId) = some t.id
  loading : b.store.loading = true ↔ b.visit.map (·.outcome) = some .pending
  error : b.store.error = (b.visit.map (·.outcome.message)).getD []

/-- No `persist` is answered with a task other than the one asked for last. -/
def Timely (b : Browser) (a : Act) : Prop :=
  ∀ k t task, a = .answer k (.task t) → b.calls k = some (.persist task) →
    b.store.requestedTaskId = some task.id

/-- What the guards compare: `requestedTaskId` is the task of the most recent `loadOne`, and
`loadGeneration` the generation of its request, which is under way until it has come to
something. -/
structure Guarded (b : Browser) : Prop where
  requested : b.store.requestedTaskId = b.visit.map (·.taskId)
  fresh : ∀ k c, b.calls k = some c → k < b.sent
  visited : ∀ v, b.visit = some v → v.call < b.sent ∧ ∀ c, b.calls v.call = some c →
    c = .loadOne b.store.loadGeneration v.taskId ∧ v.outcome = .pending
  past : ∀ k generation taskId, b.calls k = some (.loadOne generation taskId) →
    generation ≤ b.store.loadGeneration ∧
      (generation = b.store.loadGeneration → b.visit.map (·.call) = some k)

namespace Browser

variable {b b' : Browser} {k : ℕ} {a : Answer} {c : Call}

/-- A request after one was sent is the one that was sent, or was under way. -/
theorem calls_send {c₁ : Call} (h : (b.send c₁).calls k = some c) :
    b.calls k = some c ∨ k = b.sent ∧ c = c₁ := by
  simp only [send] at h
  by_cases hk : k = b.sent
  · rw [hk, Function.update_self] at h
    exact .inr ⟨hk, (Option.some.inj h).symm⟩
  · rw [Function.update_of_ne hk] at h
    exact .inl h

/-- What an answered request leaves. -/
structure Settled (b : Browser) (k : ℕ) (a : Answer) (c : Call) (b' : Browser) : Prop where
  call : b.calls k = some c
  store : answered b.store c a = some b'.store
  calls : ∀ j d, b'.calls j = some d → j ≠ k ∧ b.calls j = some d
  sent : b'.sent = b.sent
  visit : b'.visit = b.visit.map (Visit.settle k a)
  answers : b'.answers = match a with
    | .task t => t :: b.answers
    | .failed _ => b.answers

theorem settled_of_step (h : b.step (.answer k a) = some b') : ∃ c, Settled b k a c b' := by
  simp only [step] at h
  split at h
  · cases h
  · rename_i c hc
    obtain ⟨store, hs, rfl⟩ := Option.map_eq_some_iff.mp h
    refine ⟨c, hc, hs, fun j d hj => ?_, rfl, rfl, by cases a <;> rfl⟩
    by_cases hjk : j = k
    · rw [hjk] at hj
      cases (Function.update_self k none b.calls).symm.trans hj
    · exact ⟨hjk, (Function.update_of_ne hjk none b.calls).symm.trans hj⟩

/-- An answer leaves the guards as they are. -/
theorem guards_of_answered {s s' : Store} (h : answered s c a = some s') :
    s'.loadGeneration = s.loadGeneration ∧ s'.requestedTaskId = s.requestedTaskId := by
  cases c <;> cases a <;> simp only [answered] at h
  case loadOne.task =>
    split at h
    · obtain rfl := Option.some.inj h
      rw [Store.loaded]
      split <;> exact ⟨rfl, rfl⟩
    · cases h
  case loadOne.failed =>
    obtain rfl := Option.some.inj h
    rw [Store.failed]
    split <;> exact ⟨rfl, rfl⟩
  case refreshCurrent.task | persist.task =>
    split at h
    · obtain rfl := Option.some.inj h
      exact ⟨rfl, rfl⟩
    · cases h
  case refreshCurrent.failed | persist.failed =>
    obtain rfl := Option.some.inj h
    exact ⟨rfl, rfl⟩

end Browser

@[simp] theorem Visit.settle_taskId {k : ℕ} {a : Answer} {v : Visit} :
    (v.settle k a).taskId = v.taskId := by
  rw [settle]
  split <;> rfl

@[simp] theorem Visit.settle_call {k : ℕ} {a : Answer} {v : Visit} :
    (v.settle k a).call = v.call := by
  rw [settle]
  split <;> rfl

theorem Visit.map_settle_taskId {k : ℕ} {a : Answer} {v : Option Visit} :
    (v.map (settle k a)).map (·.taskId) = v.map (·.taskId) := by
  cases v <;> simp

theorem Visit.map_settle_call {k : ℕ} {a : Answer} {v : Option Visit} :
    (v.map (settle k a)).map (·.call) = v.map (·.call) := by
  cases v <;> simp

/-! ## The guards -/

section Guards

variable {b b' : Browser}

theorem Guarded.send {c : Call} (hb : Guarded b) (hc : ∀ generation taskId,
    c ≠ .loadOne generation taskId) : Guarded (b.send c) where
  requested := hb.requested
  fresh := by
    intro k d hk
    rcases Browser.calls_send hk with hk | ⟨rfl, -⟩
    · exact (hb.fresh k d hk).trans (Nat.lt_succ_self _)
    · exact Nat.lt_succ_self _
  visited := by
    intro v hv
    obtain ⟨hlt, hcall⟩ := hb.visited v hv
    refine ⟨hlt.trans (Nat.lt_succ_self _), fun d hd => ?_⟩
    rcases Browser.calls_send hd with hd | ⟨hk, -⟩
    · exact hcall d hd
    · exact absurd hk hlt.ne
  past := by
    intro k generation taskId hk
    rcases Browser.calls_send hk with hk | ⟨-, hd⟩
    · exact hb.past k generation taskId hk
    · exact absurd hd.symm (hc generation taskId)

/-- A `loadOne` begins: every other request is of an earlier generation. -/
theorem Guarded.load (hb : Guarded b) {taskId : Uuid}
    (h : b.step (.loadOne taskId) = some b') : Guarded b' := by
  obtain rfl := Option.some.inj h
  refine ⟨rfl, ?_, ?_, ?_⟩
  · intro k d hk
    rcases Browser.calls_send hk with hk | ⟨rfl, -⟩
    · exact (hb.fresh k d hk).trans (Nat.lt_succ_self _)
    · exact Nat.lt_succ_self _
  · intro v hv
    obtain rfl := Option.some.inj hv
    refine ⟨Nat.lt_succ_self _, fun d hd => ?_⟩
    rcases Browser.calls_send hd with hd | ⟨-, rfl⟩
    · exact absurd (hb.fresh _ d hd) (lt_irrefl _)
    · exact ⟨rfl, rfl⟩
  · intro k generation taskId' hk
    rcases Browser.calls_send hk with hk | ⟨rfl, hd⟩
    · have hle := (hb.past k generation taskId' hk).1
      exact ⟨Nat.le_succ_of_le hle, fun he => absurd (he ▸ hle) (Nat.not_succ_le_self _)⟩
    · obtain ⟨rfl, -⟩ := Call.loadOne.inj hd
      exact ⟨le_rfl, fun _ => rfl⟩

theorem Guarded.settle {k : ℕ} {a : Answer} {c : Call} (hb : Guarded b)
    (h : Browser.Settled b k a c b') : Guarded b' := by
  obtain ⟨hgeneration, hrequested⟩ := Browser.guards_of_answered h.store
  refine ⟨?_, ?_, ?_, ?_⟩
  · rw [hrequested, h.visit, Visit.map_settle_taskId]
    exact hb.requested
  · intro j d hj
    rw [h.sent]
    exact hb.fresh j d (h.calls j d hj).2
  · intro v hv
    rw [h.visit] at hv
    obtain ⟨v₀, hv₀, rfl⟩ := Option.map_eq_some_iff.mp hv
    obtain ⟨hlt, hcall⟩ := hb.visited v₀ hv₀
    rw [h.sent, hgeneration, Visit.settle_call, Visit.settle_taskId]
    refine ⟨hlt, fun d hd => ?_⟩
    obtain ⟨hne, hd⟩ := h.calls _ d hd
    refine ⟨(hcall d hd).1, ?_⟩
    rw [Visit.settle, if_neg hne]
    exact (hcall d hd).2
  · intro j generation taskId hj
    rw [hgeneration, h.visit, Visit.map_settle_call]
    exact hb.past j generation taskId (h.calls j _ hj).2

theorem Guarded.step {a : Act} (hb : Guarded b) (h : b.step a = some b') : Guarded b' := by
  cases a with
  | loadOne taskId => exact hb.load h
  | refreshCurrent taskId =>
    obtain rfl := Option.some.inj h
    exact hb.send (by simp)
  | persist =>
    simp only [Browser.step] at h
    split at h
    · obtain rfl := Option.some.inj h
      exact hb
    · split at h
      · obtain rfl := Option.some.inj h
        exact hb.send (by simp)
      · obtain rfl := Option.some.inj h
        exact hb
  | answer k a =>
    obtain ⟨c, hc⟩ := Browser.settled_of_step h
    exact hb.settle hc

/-- The guards compare what they should in every run. -/
theorem guarded {P : Browser → Act → Prop} (hb : Reach system P b) : Guarded b := by
  refine hb.invariant (I := Guarded) ?_ fun b a b' _ hi _ h => hi.step h
  rintro b rfl
  constructor
  · rfl
  · intro k c hk
    cases hk
  · intro v hv
    cases hv
  · intro k generation taskId hk
    cases hk

end Guards

/-! ## The open document -/

section Document

variable {b b' : Browser} {k : ℕ} {a : Answer} {c : Call}

/-- A request that is not the one of the most recent `loadOne` leaves that alone. -/
theorem Guarded.visit_eq (hb : Guarded b) (h : Browser.Settled b k a c b')
    (hc : ∀ taskId, c ≠ .loadOne b.store.loadGeneration taskId) : b'.visit = b.visit := by
  rw [h.visit]
  rcases hv : b.visit with _ | v
  · rfl
  · have hk : v.call ≠ k := by
      rintro rfl
      exact hc v.taskId ((hb.visited v hv).2 c h.call).1
    simp [Visit.settle, hk]

/-- An answer that neither is of the most recent `loadOne` nor writes `loading` and `error`
keeps what is shown, if the document it leaves is an answer for the task asked for last. -/
theorem Shown.keep (hs : Shown b) (hvisit : b'.visit = b.visit)
    (hloading : b'.store.loading = b.store.loading) (herror : b'.store.error = b.store.error)
    (hcurrent : ∀ t, b'.store.current = some t → b.store.current = some t ∧ t ∈ b'.answers ∨
      t ∈ b'.answers ∧ b.store.requestedTaskId = some t.id)
    (hb : Guarded b) : Shown b' where
  current := by
    intro t ht
    rw [hvisit]
    rcases hcurrent t ht with ⟨ht, hm⟩ | ⟨hm, hid⟩
    · exact ⟨hm, (hs.current t ht).2⟩
    · exact ⟨hm, hb.requested ▸ hid⟩
  loading := by
    rw [hvisit, hloading]
    exact hs.loading
  error := by
    rw [hvisit, herror]
    exact hs.error

/-- What the server has answered before it still has. -/
theorem Browser.Settled.mem_answers (h : Browser.Settled b k a c b') {t : RewriteTask}
    (ht : t ∈ b.answers) : t ∈ b'.answers := by
  rw [h.answers]
  cases a with
  | task u => exact List.mem_cons_of_mem _ ht
  | failed message => exact ht

theorem Browser.Settled.mem_answer {t : RewriteTask}
    (h : Browser.Settled b k (.task t) c b') : t ∈ b'.answers := by
  rw [h.answers]
  exact List.mem_cons_self

/-- An answer to a `loadOne` that is not the most recent one changes nothing. -/
theorem answered_of_past {generation : ℕ} {taskId : Uuid} {s : Store}
    (h : Browser.answered b.store (.loadOne generation taskId) a = some s)
    (hne : generation ≠ b.store.loadGeneration) : s = b.store := by
  cases a with
  | task t =>
    simp only [Browser.answered] at h
    split at h
    · exact (Option.some.inj h).symm.trans (if_neg hne)
    · cases h
  | failed message => exact (Option.some.inj h).symm.trans (if_neg hne)

/-- The answer to the most recent `loadOne` is shown. -/
theorem Shown.answered_loadOne {taskId : Uuid} (hs : Shown b) (hb : Guarded b)
    (h : Browser.Settled b k a (.loadOne b.store.loadGeneration taskId) b') : Shown b' := by
  obtain ⟨v, hv, rfl⟩ := Option.map_eq_some_iff.mp ((hb.past _ _ _ h.call).2 rfl)
  obtain ⟨hcall, hpending⟩ := (hb.visited v hv).2 _ h.call
  obtain ⟨-, rfl⟩ := Call.loadOne.inj hcall
  have hvisit : b'.visit = some { v with outcome := a.outcome } := by
    rw [h.visit, hv, Option.map_some, Visit.settle, if_pos rfl]
  have hstore := h.store
  cases a with
  | task t =>
    simp only [Browser.answered] at hstore
    split at hstore
    swap
    · cases hstore
    rename_i hid
    have hloaded : b'.store = { b.store with current := some t, loading := false } :=
      (Option.some.inj hstore).symm.trans (if_pos rfl)
    have herror : b.store.error = [] := by
      rw [hs.error, hv, Option.map_some, hpending]
      rfl
    refine ⟨fun u hu => ?_, ?_, ?_⟩
    · rw [hloaded] at hu
      obtain rfl := Option.some.inj hu
      refine ⟨h.mem_answer, ?_⟩
      rw [hvisit, Option.map_some, hid]
    · rw [hloaded, hvisit]
      simp [Answer.outcome]
    · rw [hloaded, hvisit]
      exact herror
  | failed message =>
    have hfailed : b'.store = { b.store with error := failure message, loading := false } :=
      (Option.some.inj hstore).symm.trans (if_pos rfl)
    refine ⟨fun u hu => ?_, ?_, ?_⟩
    · rw [hfailed] at hu
      obtain ⟨hm, hid⟩ := hs.current u hu
      refine ⟨h.mem_answers hm, ?_⟩
      rw [hvisit]
      rw [hv] at hid
      exact hid
    · rw [hfailed, hvisit]
      simp [Answer.outcome]
    · rw [hfailed, hvisit]
      rfl

/-- An answer that no `persist` gives after another task was asked for keeps what is shown. -/
theorem Shown.settle (hs : Shown b) (hb : Guarded b) (h : Browser.Settled b k a c b')
    (htimely : Timely b (.answer k a)) : Shown b' := by
  have hold : ∀ t, b.store.current = some t → t ∈ b'.answers := fun t ht =>
    h.mem_answers (hs.current t ht).1
  have hstore := h.store
  cases c with
  | loadOne generation taskId =>
    by_cases hg : generation = b.store.loadGeneration
    · subst hg
      exact hs.answered_loadOne hb h
    · have hsame : b'.store = b.store := answered_of_past hstore hg
      refine hs.keep (hb.visit_eq h ?_) (by rw [hsame]) (by rw [hsame]) ?_ hb
      · intro taskId' hc
        exact hg (Call.loadOne.inj hc).1
      · intro t ht
        rw [hsame] at ht
        exact .inl ⟨ht, hold t ht⟩
  | refreshCurrent generation taskId =>
    have hvisit : b'.visit = b.visit := hb.visit_eq h (by simp)
    cases a with
    | failed message =>
      have hsame : b'.store = b.store := (Option.some.inj hstore).symm
      refine hs.keep hvisit (by rw [hsame]) (by rw [hsame]) ?_ hb
      intro t ht
      rw [hsame] at ht
      exact .inl ⟨ht, hold t ht⟩
    | task u =>
      simp only [Browser.answered] at hstore
      split at hstore
      swap
      · cases hstore
      rename_i hid
      have hnew : b'.store = b.store.refreshed generation taskId u :=
        (Option.some.inj hstore).symm
      refine hs.keep hvisit (by rw [hnew]; rfl) (by rw [hnew]; rfl) ?_ hb
      intro t ht
      rw [hnew, Store.refreshed] at ht
      by_cases hg : generation = b.store.loadGeneration ∧ b.store.requestedTaskId = some taskId
      · rw [if_pos hg] at ht
        obtain rfl := Option.some.inj ht
        exact .inr ⟨h.mem_answer, hid ▸ hg.2⟩
      · rw [if_neg hg] at ht
        exact .inl ⟨ht, hold t ht⟩
  | persist task =>
    have hvisit : b'.visit = b.visit := hb.visit_eq h (by simp)
    cases a with
    | failed message =>
      have hsame : b'.store = b.store := (Option.some.inj hstore).symm
      refine hs.keep hvisit (by rw [hsame]) (by rw [hsame]) ?_ hb
      intro t ht
      rw [hsame] at ht
      exact .inl ⟨ht, hold t ht⟩
    | task u =>
      simp only [Browser.answered] at hstore
      split at hstore
      swap
      · cases hstore
      rename_i hid
      have hnew : b'.store = b.store.persisted u := (Option.some.inj hstore).symm
      refine hs.keep hvisit (by rw [hnew]; rfl) (by rw [hnew]; rfl) ?_ hb
      intro t ht
      rw [hnew] at ht
      obtain rfl := Option.some.inj ht
      exact .inr ⟨h.mem_answer, hid ▸ htimely k u task rfl h.call⟩

theorem Shown.step {a : Act} (hs : Shown b) (hb : Guarded b) (ha : Timely b a)
    (h : b.step a = some b') : Shown b' := by
  cases a with
  | loadOne taskId =>
    obtain rfl := Option.some.inj h
    refine ⟨fun t ht => (by cases ht), ?_, rfl⟩
    exact ⟨fun _ => rfl, fun _ => rfl⟩
  | refreshCurrent taskId =>
    obtain rfl := Option.some.inj h
    exact ⟨hs.current, hs.loading, hs.error⟩
  | persist =>
    simp only [Browser.step] at h
    split at h
    · obtain rfl := Option.some.inj h
      exact hs
    · split at h
      · obtain rfl := Option.some.inj h
        exact ⟨hs.current, hs.loading, hs.error⟩
      · obtain rfl := Option.some.inj h
        exact hs
  | answer k a =>
    obtain ⟨c, hc⟩ := Browser.settled_of_step h
    exact hs.settle hb hc ha

/-- A `persist` answered after another task was asked for puts its task before the reader. -/
theorem not_shown_of_late {a : Act} (hb : Guarded b) (ha : ¬ Timely b a)
    (h : b.step a = some b') : ¬ Shown b' := by
  simp only [Timely, not_forall] at ha
  obtain ⟨k, t, task, rfl, hk, hne⟩ := ha
  obtain ⟨c, hc⟩ := Browser.settled_of_step h
  obtain rfl := Option.some.inj (hk.symm.trans hc.call)
  have hstore := hc.store
  simp only [Browser.answered] at hstore
  split at hstore
  swap
  · cases hstore
  rename_i hid
  have hcurrent : b'.store.current = some t :=
    (congrArg Store.current (Option.some.inj hstore)).symm
  intro hs
  apply hne
  rw [hb.requested, ← hb.visit_eq hc (by simp), (hs.current t hcurrent).2, hid]

/-- The run lemma. -/
theorem shown (hb : Reach system Timely b) : Shown b := by
  refine hb.invariant (I := Shown) ?_ fun b a b' hr hi ha h => hi.step (guarded hr) ha h
  rintro b rfl
  refine ⟨fun t ht => (by cases ht), ?_, rfl⟩
  exact ⟨fun h => (by cases h), fun h => (by cases h)⟩

end Document

/-- **The open document is the one asked for last exactly while no `persist` is late.** In every
run in which no `persist` is answered with a task other than the one asked for last, `current` is
empty or an answer of the server for the task of the most recent `loadOne`, and `loading` and
`error` are what has come of that `loadOne`. A step that gives such an answer breaks this at
once. -/
theorem current_requested_iff (b : Browser) (hb : Reach system Timely b) :
    Shown b ∧ ∀ a b', b.step a = some b' → (Shown b' ↔ Timely b a) := by
  have hs := shown hb
  have hg := guarded hb
  refine ⟨hs, fun a b' h => ⟨fun hs' => ?_, fun ha => hs.step hg ha h⟩⟩
  by_contra ha
  exact not_shown_of_late hg ha h hs'

namespace Browser

/-- Task 1 is opened, saved, and task 2 opened before the answer to the save. -/
def saving : List Act :=
  [.loadOne 1, .answer 0 (.task ⟨1, .draft, []⟩), .persist, .loadOne 2,
    .answer 2 (.task ⟨2, .draft, []⟩)]

/-- A check for the condition. -/
def timely (b : Browser) : Act → Bool
  | .answer k (.task _) =>
      match b.calls k with
      | some (.persist task) => decide (b.store.requestedTaskId = some task.id)
      | _ => true
  | _ => true

theorem timely_of_check {a : Act} {b : Browser} (h : b.timely a = true) : Timely b a := by
  rintro k t task rfl hk
  simpa [timely, hk] using h

end Browser

/-- Before the save is answered task 2 is shown, and with the answer no more. -/
theorem current_requested_iff_saving :
    ∃ b, Reach system Timely b ∧ Shown b ∧ b.store.current = some ⟨2, .draft, []⟩ ∧
      ∀ b', b.step (.answer 1 (.task ⟨1, .draft, []⟩)) = some b' → ¬ Shown b' := by
  have hrun : (system.runIf Browser.timely {} Browser.saving).map (fun b =>
      (b.store.current, b.calls 1, b.store.requestedTaskId))
        = some (some ⟨2, .draft, []⟩, some (.persist ⟨1, .draft, []⟩), some 2) := by decide
  obtain ⟨b, hb, hfacts⟩ := Option.map_eq_some_iff.mp hrun
  obtain ⟨hcurrent, hcall, hrequested⟩ : b.store.current = some ⟨2, .draft, []⟩ ∧
      b.calls 1 = some (.persist ⟨1, .draft, []⟩) ∧ b.store.requestedTaskId = some 2 := by
    simpa using hfacts
  have hsteps := steps_of_runIf (P := Timely) (fun _ _ => Browser.timely_of_check) hb
  have hreach : Reach system Timely b := Reach.append (.init rfl) hsteps
  obtain ⟨hs, hstep⟩ := current_requested_iff b hreach
  refine ⟨b, hreach, hs, hcurrent, fun b' h hs' => ?_⟩
  have hlate := (hstep _ b' h).mp hs' 1 _ _ rfl hcall
  rw [hrequested] at hlate
  cases hlate

/-- The answer to a save puts its task back in the place of the one opened since. -/
theorem current_not_requested : ¬ ∀ b, Reach system (fun _ _ => True) b → Shown b := by
  have hrun : (system.run {} (Browser.saving ++ [.answer 1 (.task ⟨1, .draft, []⟩)])).map
      (fun b => decide (b.store.current = some ⟨1, .draft, []⟩ ∧
        b.visit.map (·.taskId) = some 2)) = some true := by decide
  obtain ⟨b, hb, hp⟩ := exists_reach_of_run (M := system) (P := fun _ _ => True) rfl
    (fun _ _ _ => trivial) hrun
  obtain ⟨hcurrent, hvisit⟩ := of_decide_eq_true hp
  intro h
  cases hvisit.symm.trans ((h b hb).current _ hcurrent).2

end DouyinCaption.TaskStore

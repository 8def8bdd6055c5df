import Mathlib.Tactic.Common
import DouyinCaption.Domain
import DouyinCaption.Library.Runs

/-!
# The queue store of the browser

`src/frontend/src/shared/stores/queue.ts`: the member's operations as the task center shows
them. A function of the store that waits for the server is two steps here, the request and
what is done with its answer; between the two any other step may happen, and answers come in
any order. When a list is asked for is left open here (`Polling` has the poll loop), so
a request for the list is a step that is always enabled.

`accept` and `stop` bump `revision`, and a list whose request was sent under another revision
is dropped. `clearHistory` changes `items` without bumping `revision`, so a list requested
before a clearing and answered after it brings the cleared history back.
-/

namespace DouyinCaption.QueueStore

open Runs

/-- `AiOperation` of `shared/types.ts`: the part of a row the store reads -/
structure AiOperation where
  id : Uuid
  taskId : Uuid
  status : AiOperationStatus
  deriving DecidableEq, Repr

/-- `isActiveOperation` -/
def isActiveOperation (item : AiOperation) : Bool :=
  item.status == .queued || item.status == .running

/-- The values of the store. -/
structure Store where
  items : List AiOperation := []
  expanded : Bool := false
  error : String := ""
  notice : Option AiOperation := none
  updates : Uuid → Option AiOperation := fun _ => none
  /-- `actionId`: the id of the operation under control, or `'history'` -/
  actionId : Option (Option Uuid) := none
  owner : Option Uuid := none
  generation : ℕ := 0
  revision : ℕ := 0

namespace Store

/-- An operation that was active in `items` and is not active in the given row: what it
leaves in `updates` and `notice`. -/
def note (row : AiOperation) (s : Store) : Store :=
  match s.items.find? (·.id == row.id) with
  | some previous =>
    if isActiveOperation previous && !isActiveOperation row then
      { s with updates := fun k => if k = row.taskId then some row else s.updates k
               notice := some row }
    else s
  | none => s

/-- `accept` -/
def accept (item : AiOperation) (s : Store) : Store :=
  let s := s.note item
  { s with items := item :: s.items.filter (·.id != item.id), revision := s.revision + 1 }

/-- `refresh`, after `listOperations` answered -/
def listed (run version : ℕ) (rows : List AiOperation) (s : Store) : Store :=
  if run ≠ s.generation ∨ version ≠ s.revision then s
  else { rows.foldl (fun s row => s.note row) s with items := rows, error := "" }

/-- The `catch` of a call made in generation `run`. -/
def failed (run : ℕ) (message : String) (s : Store) : Store :=
  if run = s.generation then { s with error := message } else s

/-- The `finally` of a call made in generation `run`. -/
def released (run : ℕ) (s : Store) : Store :=
  if run = s.generation then { s with actionId := none } else s

/-- `stop` -/
def stop (s : Store) : Store :=
  { generation := s.generation + 1, revision := s.revision + 1 }

/-- `start` -/
def start (memberId : Option Uuid) (s : Store) : Store :=
  if s.owner = memberId then s else { s.stop with owner := memberId }

/-- `submit`, after the request answered -/
def submitted (run : ℕ) (result : AiOperation) (s : Store) : Store :=
  if run = s.generation then { s.accept result with expanded := true, error := "" } else s

/-- `control`, after the request answered -/
def controlled (run : ℕ) (result : AiOperation) (s : Store) : Store :=
  if run = s.generation then { s.accept result with error := "" } else s

/-- `clearHistory`, after the request answered -/
def cleared (run : ℕ) (s : Store) : Store :=
  if run = s.generation then
    let completedTaskIds := (s.items.filter (!isActiveOperation ·)).map (·.taskId)
    { s with
      items := s.items.filter isActiveOperation
      updates := fun k => if k ∈ completedTaskIds then none else s.updates k
      notice := s.notice.filter isActiveOperation
      error := "" }
  else s

end Store

/-! ## Calls and steps -/

/-- A local mutation of `items`. -/
inductive Mutation where
  /-- `accept`, through `submit`, `cancel` or `retry` -/
  | accepted (id : Uuid)
  /-- `clearHistory` -/
  | cleared
  deriving DecidableEq, Repr

/-- What happened to the store, for the statements about it. -/
inductive Event where
  | mutation (m : Mutation)
  /-- `stop`, also as the first part of `start` -/
  | stopped
  deriving DecidableEq, Repr

/-- A request under way, with what its function read before it was sent. `since` is the
number of events before it was sent; the code has nothing of the kind. -/
inductive Call where
  | listOperations (run version since : ℕ)
  | submit (run : ℕ)
  | control (run : ℕ)
  | clearHistory (run : ℕ)
  deriving DecidableEq, Repr

/-- The answer to a request. A failure carries the text the member is shown. -/
inductive Answer where
  | rows (rows : List AiOperation)
  | operation (item : AiOperation)
  | done
  | failed (message : String)
  deriving DecidableEq, Repr

/-- The browser: the store, the requests under way by their number, and what happened. -/
structure Browser where
  store : Store := {}
  calls : ℕ → Option Call := fun _ => none
  sent : ℕ := 0
  events : List Event := []

/-- What a step does. -/
inductive Act where
  | start (memberId : Option Uuid)
  | stop
  | refresh
  | submit
  | control (id : Uuid)
  | clearHistory
  | answer (call : ℕ) (answer : Answer)
  deriving DecidableEq, Repr

namespace Browser

/-- Send a request. -/
def send (c : Call) (b : Browser) : Browser :=
  { b with calls := Function.update b.calls b.sent (some c), sent := b.sent + 1 }

/-- What the function waiting for `c` does with the answer; `none` where the answer is of
another shape. The second part is what happened to the store. -/
def answered (s : Store) : Call → Answer → Option (Store × List Event)
  | .listOperations run version _, .rows rows => some (s.listed run version rows, [])
  | .listOperations run _ _, .failed message => some (s.failed run message, [])
  | .submit run, .operation item =>
      some (s.submitted run item,
        if run = s.generation then [.mutation (.accepted item.id)] else [])
  -- the rejection is the page's to handle
  | .submit _, .failed _ => some (s, [])
  | .control run, .operation item =>
      some ((s.controlled run item).released run,
        if run = s.generation then [.mutation (.accepted item.id)] else [])
  | .control run, .failed message => some ((s.failed run message).released run, [])
  | .clearHistory run, .done =>
      some ((s.cleared run).released run,
        if run = s.generation then [.mutation .cleared] else [])
  | .clearHistory run, .failed message => some ((s.failed run message).released run, [])
  | _, _ => none

/-- One step of the browser. -/
def step (b : Browser) : Act → Option Browser
  | .start memberId =>
      some { b with store := b.store.start memberId
                    events := if b.store.owner = memberId then b.events else .stopped :: b.events }
  | .stop => some { b with store := b.store.stop, events := .stopped :: b.events }
  | .refresh =>
      some (b.send (.listOperations b.store.generation b.store.revision b.events.length))
  | .submit => some (b.send (.submit b.store.generation))
  | .control id =>
      if b.store.actionId.isSome then none
      else some ({ b with store.actionId := some (some id) }.send (.control b.store.generation))
  | .clearHistory =>
      if b.store.actionId.isSome then none
      else some ({ b with store.actionId := some none }.send (.clearHistory b.store.generation))
  | .answer k a =>
      match b.calls k with
      | none => none
      | some c =>
        match answered b.store c a with
        | none => none
        | some (store, events) =>
          some { b with store, calls := Function.update b.calls k none
                        events := events ++ b.events }

end Browser

/-- The browser as a labelled system. It starts with an empty store. -/
def system : System Browser Act where
  init b := b = {}
  step := Browser.step

/-! ## What the counters count

Every event but a clearing bumps `revision`, and a stop bumps `generation` too. So what a
request read before it was sent differs from what the store holds now by the events since. -/

/-- The event is the clearing of the history. -/
def Event.isClearing : Event → Bool
  | .mutation .cleared => true
  | _ => false

section Counters

variable {s : Store} {row item : AiOperation} {rows : List AiOperation} {run version : ℕ}

@[simp] theorem Store.note_items : (s.note row).items = s.items := by
  rw [Store.note]
  repeat' split
  all_goals rfl

@[simp] theorem Store.note_revision : (s.note row).revision = s.revision := by
  rw [Store.note]
  repeat' split
  all_goals rfl

@[simp] theorem Store.note_generation : (s.note row).generation = s.generation := by
  rw [Store.note]
  repeat' split
  all_goals rfl

theorem Store.notes_revision :
    (rows.foldl (fun s row => s.note row) s).revision = s.revision := by
  induction rows generalizing s with
  | nil => rfl
  | cons row rows ih => exact ih.trans note_revision

theorem Store.notes_generation :
    (rows.foldl (fun s row => s.note row) s).generation = s.generation := by
  induction rows generalizing s with
  | nil => rfl
  | cons row rows ih => exact ih.trans note_generation

/-- The list is taken over where neither counter has moved since the request was sent. -/
theorem Store.listed_items :
    (s.listed run version rows).items =
      if run = s.generation ∧ version = s.revision then rows else s.items := by
  rw [Store.listed]
  by_cases h : run = s.generation ∧ version = s.revision
  · rw [if_neg (by simp [h.1, h.2]), if_pos h]
  · rw [if_pos (by tauto), if_neg h]

@[simp] theorem Store.listed_revision :
    (s.listed run version rows).revision = s.revision := by
  rw [Store.listed]
  split
  · rfl
  · exact Store.notes_revision

@[simp] theorem Store.listed_generation :
    (s.listed run version rows).generation = s.generation := by
  rw [Store.listed]
  split
  · rfl
  · exact Store.notes_generation

@[simp] theorem Store.failed_items {m : String} : (s.failed run m).items = s.items := by
  unfold Store.failed; split <;> rfl

@[simp] theorem Store.failed_revision {m : String} :
    (s.failed run m).revision = s.revision := by
  unfold Store.failed; split <;> rfl

@[simp] theorem Store.failed_generation {m : String} :
    (s.failed run m).generation = s.generation := by
  unfold Store.failed; split <;> rfl

@[simp] theorem Store.released_items : (s.released run).items = s.items := by
  unfold Store.released; split <;> rfl

@[simp] theorem Store.released_revision : (s.released run).revision = s.revision := by
  unfold Store.released; split <;> rfl

@[simp] theorem Store.released_generation :
    (s.released run).generation = s.generation := by
  unfold Store.released; split <;> rfl

@[simp] theorem Store.accept_revision : (s.accept item).revision = s.revision + 1 := by
  simp [Store.accept]

@[simp] theorem Store.accept_generation : (s.accept item).generation = s.generation := by
  simp [Store.accept]

@[simp] theorem Store.accept_items :
    (s.accept item).items = item :: s.items.filter (·.id != item.id) := by
  simp [Store.accept]

end Counters

/-- What a list of events adds to the two counters. -/
def Counted (events : List Event) (s s' : Store) : Prop :=
  s'.revision = s.revision + events.countP (!·.isClearing) ∧
    s'.generation = s.generation + events.count .stopped

theorem Counted.nil {s s' : Store} (hr : s'.revision = s.revision)
    (hg : s'.generation = s.generation) : Counted [] s s' := ⟨hr, hg⟩

/-- An answer moves the counters by the events it stands for. -/
theorem counted_of_answered {s s' : Store} {c : Call} {a : Answer} {events : List Event}
    (h : Browser.answered s c a = some (s', events)) : Counted events s s' := by
  -- an answer of another shape than the request is no step
  cases c <;> cases a <;> cases h
  case listOperations.rows => exact .nil Store.listed_revision Store.listed_generation
  case listOperations.failed => exact .nil Store.failed_revision Store.failed_generation
  case submit.operation run item =>
    rw [Store.submitted]
    by_cases hrun : run = s.generation
    · rw [if_pos hrun, if_pos hrun]
      exact ⟨Store.accept_revision, Store.accept_generation⟩
    · rw [if_neg hrun, if_neg hrun]
      exact .nil rfl rfl
  case submit.failed => exact .nil rfl rfl
  case control.operation run item =>
    refine ⟨Store.released_revision.trans ?_, Store.released_generation.trans ?_⟩
    all_goals
      rw [Store.controlled]
      by_cases hrun : run = s.generation
      · rw [if_pos hrun, if_pos hrun]
        first | exact Store.accept_revision | exact Store.accept_generation
      · rw [if_neg hrun, if_neg hrun]
        rfl
  case control.failed =>
    exact .nil (Store.released_revision.trans Store.failed_revision)
      (Store.released_generation.trans Store.failed_generation)
  case clearHistory.done run =>
    refine ⟨Store.released_revision.trans ?_, Store.released_generation.trans ?_⟩
    all_goals
      rw [Store.cleared]
      by_cases hrun : run = s.generation
      · rw [if_pos hrun, if_pos hrun]
        rfl
      · rw [if_neg hrun, if_neg hrun]
        rfl
  case clearHistory.failed =>
    exact .nil (Store.released_revision.trans Store.failed_revision)
      (Store.released_generation.trans Store.failed_generation)

namespace Browser

/-- What happened since a request that was sent after `since` events. -/
def later (b : Browser) (since : ℕ) : List Event := b.events.take (b.events.length - since)

/-- The request was sent before the most recent local mutation. -/
def Stale (b : Browser) (since : ℕ) : Prop := ∃ m, Event.mutation m ∈ b.later since

/-- Since the request was sent, an operation was accepted or the store was stopped. -/
def Overtaken (b : Browser) (since : ℕ) : Prop := ∃ e ∈ b.later since, e.isClearing = false

theorem later_append {b b' : Browser} {events : List Event} {since : ℕ}
    (he : b'.events = events ++ b.events) (hs : since ≤ b.events.length) :
    b'.later since = events ++ b.later since := by
  have hlen : (events ++ b.events).length - since
      = events.length + (b.events.length - since) := by
    rw [List.length_append]
    omega
  rw [later, later, he, hlen, List.take_length_add_append]

theorem Stale.append {b b' : Browser} {events : List Event} {since : ℕ}
    (he : b'.events = events ++ b.events) (hs : since ≤ b.events.length)
    (h : b.Stale since) : b'.Stale since := by
  obtain ⟨m, hm⟩ := h
  refine ⟨m, ?_⟩
  rw [later_append he hs]
  exact List.mem_append_right _ hm

/-- An answer that is taken: the request it answers, and what is done with it. -/
theorem answered_of_step {b b' : Browser} {k : ℕ} {a : Answer}
    (h : b.step (.answer k a) = some b') :
    ∃ c store events, b.calls k = some c ∧ answered b.store c a = some (store, events) ∧
      b' = { b with store, calls := Function.update b.calls k none
                    events := events ++ b.events } := by
  simp only [step] at h
  split at h
  · cases h
  · split at h
    · cases h
    · rename_i _ c hc _ store events he
      exact ⟨c, store, events, hc, he, (Option.some.inj h).symm⟩

/-- **What a step does to the counters and the requests.** A request under way was under way
before, or it is the one just sent, and then nothing else happened. -/
theorem step_spec {b b' : Browser} {a : Act} (h : b.step a = some b') :
    ∃ events, b'.events = events ++ b.events ∧ Counted events b.store b'.store ∧
      b.sent ≤ b'.sent ∧
      ∀ k c, b'.calls k = some c → b.calls k = some c ∨
        k = b.sent ∧ b.sent < b'.sent ∧ b'.events = b.events ∧
          ∀ run version since, c = .listOperations run version since →
            run = b'.store.generation ∧ version = b'.store.revision ∧
              since = b'.events.length := by
  -- the requests after a request was sent
  have sent : ∀ {b₁ : Browser} {c : Call}, b₁.events = b.events → b₁.calls = b.calls →
      b₁.sent = b.sent → ∀ {k c'}, (b₁.send c).calls k = some c' →
        b.calls k = some c' ∨ k = b.sent ∧ c' = c := by
    rintro b₁ c - hc hs k c' hk
    simp only [send] at hk
    by_cases he : k = b₁.sent
    · subst he
      rw [Function.update_self] at hk
      exact .inr ⟨hs, (Option.some.inj hk).symm⟩
    · rw [Function.update_of_ne he, hc] at hk
      exact .inl hk
  cases a with
  | start memberId =>
    obtain rfl := Option.some.inj h
    by_cases ho : b.store.owner = memberId
    · refine ⟨[], by simp [ho], ?_, le_rfl, fun k c hk => .inl hk⟩
      simp only [Store.start, if_pos ho]
      exact .nil rfl rfl
    · refine ⟨[.stopped], by simp [ho], ?_, le_rfl, fun k c hk => .inl hk⟩
      simp only [Store.start, if_neg ho]
      exact ⟨rfl, rfl⟩
  | stop =>
    obtain rfl := Option.some.inj h
    exact ⟨[.stopped], rfl, ⟨rfl, rfl⟩, le_rfl, fun k c hk => .inl hk⟩
  | refresh =>
    obtain rfl := Option.some.inj h
    refine ⟨[], rfl, .nil rfl rfl, Nat.le_succ _, fun k c hk => ?_⟩
    refine (sent rfl rfl rfl hk).imp_right fun ⟨hks, hc⟩ => ⟨hks, Nat.lt_succ_self _, rfl, ?_⟩
    rintro run version since he
    obtain ⟨rfl, rfl, rfl⟩ := Call.listOperations.inj (hc.symm.trans he)
    exact ⟨rfl, rfl, rfl⟩
  | submit =>
    obtain rfl := Option.some.inj h
    refine ⟨[], rfl, .nil rfl rfl, Nat.le_succ _, fun k c hk => ?_⟩
    refine (sent rfl rfl rfl hk).imp_right fun ⟨hks, hc⟩ => ⟨hks, Nat.lt_succ_self _, rfl, ?_⟩
    rintro run version since he
    exact nomatch hc.symm.trans he
  | control id =>
    simp only [step] at h
    split at h
    · cases h
    · obtain rfl := Option.some.inj h
      refine ⟨[], rfl, .nil rfl rfl, Nat.le_succ _, fun k c hk => ?_⟩
      refine (sent rfl rfl rfl hk).imp_right fun ⟨hks, hc⟩ =>
        ⟨hks, Nat.lt_succ_self _, rfl, ?_⟩
      rintro run version since he
      exact nomatch hc.symm.trans he
  | clearHistory =>
    simp only [step] at h
    split at h
    · cases h
    · obtain rfl := Option.some.inj h
      refine ⟨[], rfl, .nil rfl rfl, Nat.le_succ _, fun k c hk => ?_⟩
      refine (sent rfl rfl rfl hk).imp_right fun ⟨hks, hc⟩ =>
        ⟨hks, Nat.lt_succ_self _, rfl, ?_⟩
      rintro run version since he
      exact nomatch hc.symm.trans he
  | answer j a =>
    obtain ⟨c, store, events, -, he, rfl⟩ := answered_of_step h
    refine ⟨events, rfl, counted_of_answered he, le_rfl, fun k c' hk => .inl ?_⟩
    by_cases hkj : k = j
    · rw [hkj] at hk
      exact nomatch (Function.update_self j none b.calls).symm.trans hk
    · exact (Function.update_of_ne hkj none b.calls).symm.trans hk

/-! ## The invariant -/

/-- Requests are numbered as they are sent, and what a request for the list read differs from
the store by what happened since. -/
structure Counts (b : Browser) : Prop where
  fresh : ∀ k c, b.calls k = some c → k < b.sent
  since : ∀ k run version since, b.calls k = some (.listOperations run version since) →
    since ≤ b.events.length
  revision : ∀ k run version since, b.calls k = some (.listOperations run version since) →
    b.store.revision = version + (b.later since).countP (!·.isClearing)
  generation : ∀ k run version since, b.calls k = some (.listOperations run version since) →
    b.store.generation = run + (b.later since).count .stopped

theorem Counts.step {b b' : Browser} {a : Act} (hb : b.Counts) (h : b.step a = some b') :
    b'.Counts := by
  obtain ⟨events, he, ⟨hr, hg⟩, hsent, hcalls⟩ := step_spec h
  refine ⟨fun k c hk => ?_, fun k run version since hk => ?_,
    fun k run version since hk => ?_, fun k run version since hk => ?_⟩
  · rcases hcalls k c hk with hk | ⟨rfl, hlt, -⟩
    · exact (hb.fresh k c hk).trans_le hsent
    · exact hlt
  · rcases hcalls k _ hk with hk | ⟨-, -, -, hc⟩
    · rw [he, List.length_append]
      exact (hb.since k run version since hk).trans (Nat.le_add_left _ _)
    · exact (hc _ _ _ rfl).2.2.le
  · rcases hcalls k _ hk with hk | ⟨-, -, -, hc⟩
    · rw [later_append he (hb.since k _ _ _ hk), List.countP_append, hr,
        hb.revision k _ _ _ hk]
      omega
    · obtain ⟨-, rfl, rfl⟩ := hc _ _ _ rfl
      simp [later]
  · rcases hcalls k _ hk with hk | ⟨-, -, -, hc⟩
    · rw [later_append he (hb.since k _ _ _ hk), List.count_append, hg,
        hb.generation k _ _ _ hk]
      omega
    · obtain ⟨rfl, -, rfl⟩ := hc _ _ _ rfl
      simp [later]

theorem counts {P : Browser → Act → Prop} {b : Browser} (hb : Reach system P b) :
    b.Counts := by
  refine Reach.invariant ?_ (fun b a b' _ hb _ h => hb.step h) hb
  rintro b rfl
  exact ⟨nofun, nofun, nofun, nofun⟩

/-- **When an answer is taken over.** The counters are those the request read exactly when
nothing but clearings happened since. -/
theorem Counts.overtaken_iff {b : Browser} (hb : b.Counts) {k run version since : ℕ}
    (hk : b.calls k = some (.listOperations run version since)) :
    b.Overtaken since ↔ ¬ (run = b.store.generation ∧ version = b.store.revision) := by
  rw [hb.revision k _ _ _ hk, hb.generation k _ _ _ hk]
  constructor
  · rintro ⟨e, he, hc⟩ ⟨-, hv⟩
    have hpos : 0 < (b.later since).countP (!·.isClearing) :=
      List.countP_pos_iff.mpr ⟨e, he, by simp [hc]⟩
    omega
  · intro hne
    by_contra hno
    have hclear : ∀ e ∈ b.later since, e.isClearing = true := by
      intro e he
      by_contra hc
      exact hno ⟨e, he, by simpa using hc⟩
    apply hne
    constructor
    · have : (b.later since).count .stopped = 0 :=
        List.count_eq_zero.mpr fun hm => nomatch hclear _ hm
      omega
    · have : (b.later since).countP (!·.isClearing) = 0 :=
        List.countP_eq_zero.mpr fun e he => by simp [hclear e he]
      omega

/-! ## What a step does to the items -/

/-- What is done to the items with an answer. -/
theorem items_of_answered {s s' : Store} {c : Call} {a : Answer} {events : List Event}
    (h : answered s c a = some (s', events)) :
    s'.items = s.items ∨
    (∃ run, c = .clearHistory run ∧ a = .done ∧
      s'.items = s.items.filter isActiveOperation) ∨
    (∃ item, a = .operation item ∧
      s'.items = item :: s.items.filter (·.id != item.id)) ∨
    ∃ rows run version since, c = .listOperations run version since ∧ a = .rows rows ∧
      (run = s.generation ∧ version = s.revision) ∧ s'.items = rows := by
  cases c <;> cases a <;> cases h
  case listOperations.rows run version since rows =>
    by_cases hv : run = s.generation ∧ version = s.revision
    · exact .inr (.inr (.inr ⟨rows, run, version, since, rfl, rfl, hv,
        Store.listed_items.trans (if_pos hv)⟩))
    · exact .inl (Store.listed_items.trans (if_neg hv))
  case listOperations.failed => exact .inl Store.failed_items
  case submit.operation run item =>
    by_cases hrun : run = s.generation
    · refine .inr (.inr (.inl ⟨item, rfl, ?_⟩))
      simp only [Store.submitted, if_pos hrun]
      exact Store.accept_items
    · exact .inl (by simp only [Store.submitted, if_neg hrun])
  case submit.failed => exact .inl rfl
  case control.operation run item =>
    by_cases hrun : run = s.generation
    · refine .inr (.inr (.inl ⟨item, rfl, Store.released_items.trans ?_⟩))
      simp only [Store.controlled, if_pos hrun]
      exact Store.accept_items
    · exact .inl (Store.released_items.trans (by simp only [Store.controlled, if_neg hrun]))
  case control.failed => exact .inl (Store.released_items.trans Store.failed_items)
  case clearHistory.done run =>
    by_cases hrun : run = s.generation
    · refine .inr (.inl ⟨run, rfl, rfl, Store.released_items.trans ?_⟩)
      simp only [Store.cleared, if_pos hrun]
    · exact .inl (Store.released_items.trans (by simp only [Store.cleared, if_neg hrun]))
  case clearHistory.failed => exact .inl (Store.released_items.trans Store.failed_items)

/-- The items change by a stop, a clearing, an accepted operation or a list. -/
theorem items_of_step {b b' : Browser} {a : Act} (h : b.step a = some b') :
    b'.store.items = b.store.items ∨
    (a = .stop ∨ ∃ memberId, a = .start memberId ∧ b.store.owner ≠ memberId) ∧
      b'.store.items = [] ∨
    (∃ k run, a = .answer k .done ∧ b.calls k = some (.clearHistory run) ∧
      b'.store.items = b.store.items.filter isActiveOperation) ∨
    (∃ k item, a = .answer k (.operation item) ∧
      b'.store.items = item :: b.store.items.filter (·.id != item.id)) ∨
    ∃ k rows run version since, a = .answer k (.rows rows) ∧
      b.calls k = some (.listOperations run version since) ∧
      (run = b.store.generation ∧ version = b.store.revision) ∧ b'.store.items = rows := by
  cases a with
  | start memberId =>
    obtain rfl := Option.some.inj h
    by_cases ho : b.store.owner = memberId
    · exact .inl (by simp only [Store.start, if_pos ho])
    · exact .inr (.inl ⟨.inr ⟨memberId, rfl, ho⟩, by simp only [Store.start, if_neg ho]; rfl⟩)
  | stop =>
    obtain rfl := Option.some.inj h
    exact .inr (.inl ⟨.inl rfl, rfl⟩)
  | refresh =>
    obtain rfl := Option.some.inj h
    exact .inl rfl
  | submit =>
    obtain rfl := Option.some.inj h
    exact .inl rfl
  | control id =>
    simp only [step] at h
    split at h
    · cases h
    · obtain rfl := Option.some.inj h
      exact .inl rfl
  | clearHistory =>
    simp only [step] at h
    split at h
    · cases h
    · obtain rfl := Option.some.inj h
      exact .inl rfl
  | answer k a =>
    obtain ⟨c, store, events, hc, he, rfl⟩ := answered_of_step h
    rcases items_of_answered he with hi | ⟨run, rfl, rfl, hi⟩ | ⟨item, rfl, hi⟩ |
      ⟨rows, run, version, since, rfl, rfl, hv, hi⟩
    · exact .inl hi
    · exact .inr (.inr (.inl ⟨k, run, rfl, hc, hi⟩))
    · exact .inr (.inr (.inr (.inl ⟨k, item, rfl, hi⟩)))
    · exact .inr (.inr (.inr (.inr ⟨k, rows, run, version, since, rfl, hc, hv, hi⟩)))

/-! ## From a local mutation on -/

/-- `b` comes after `b₀`: the requests of `b₀` still under way are those of `b₀`. -/
structure After (b₀ b : Browser) : Prop where
  counts : b.Counts
  events : ∃ events, b.events = events ++ b₀.events
  sent : b₀.sent ≤ b.sent
  calls : ∀ k c, k < b₀.sent → b.calls k = some c → b₀.calls k = some c

theorem After.refl {b₀ : Browser} (h : b₀.Counts) : After b₀ b₀ :=
  ⟨h, ⟨[], rfl⟩, le_rfl, fun _ _ _ hk => hk⟩

theorem After.step {b₀ b b' : Browser} {a : Act} (hb : After b₀ b) (h : b.step a = some b') :
    After b₀ b' := by
  obtain ⟨new, he, -, hsent, hcalls⟩ := step_spec h
  obtain ⟨events, hevents⟩ := hb.events
  refine ⟨hb.counts.step h, ⟨new ++ events, ?_⟩, hb.sent.trans hsent, fun k c hk hc => ?_⟩
  · rw [he, hevents, List.append_assoc]
  · rcases hcalls k c hc with hc | ⟨rfl, -⟩
    · exact hb.calls k c hk hc
    · exact absurd hk hb.sent.not_gt

/-- A request under way since before a mutation: the mutation happened since. -/
theorem After.mem_later {b₀ b : Browser} {m : Mutation} {before : List Event} (hb : After b₀ b)
    (hm : b₀.events = .mutation m :: before)
    (hold : ∀ k run version since, b₀.calls k = some (.listOperations run version since) →
      since ≤ before.length)
    {k run version since : ℕ} (hk : k < b₀.sent)
    (hc : b.calls k = some (.listOperations run version since)) :
    .mutation m ∈ b.later since := by
  obtain ⟨events, hevents⟩ := hb.events
  have hsince := hold k run version since (hb.calls k _ hk hc)
  have hm' : b₀.later since = .mutation m :: before.take (before.length - since) := by
    rw [later, hm, List.length_cons, Nat.succ_sub hsince, List.take_succ_cons]
  have hle : since ≤ b₀.events.length := by
    rw [hm, List.length_cons]
    exact hsince.trans (Nat.le_succ _)
  rw [later_append hevents hle, hm']
  exact List.mem_append_right _ List.mem_cons_self

/-- The requests under way when an event is added were sent before it. -/
theorem Counts.since_le {b b₀ : Browser} {a : Act} {e : Event} (hb : b.Counts)
    (h : b.step a = some b₀) (he : b₀.events = e :: b.events)
    (k run version since : ℕ) (hk : b₀.calls k = some (.listOperations run version since)) :
    since ≤ b.events.length := by
  obtain ⟨-, -, -, -, hcalls⟩ := step_spec h
  rcases hcalls k _ hk with hk | ⟨-, -, hsame, -⟩
  · exact hb.since k run version since hk
  · exact absurd (hsame.symm.trans he) (by simp)

/-- A stale list is answered only after an accepted operation or a stop has overtaken it. -/
def Keeps (b : Browser) (a : Act) : Prop :=
  ∀ k rows run version since, a = .answer k (.rows rows) →
    b.calls k = some (.listOperations run version since) → b.Stale since → b.Overtaken since

/-- The step is not a stop, a clearing of `x`, or the answer to a request numbered `n` or
later that lacks `x`. -/
def Retains (x : Uuid) (n : ℕ) (b : Browser) (a : Act) : Prop :=
  a ≠ .stop ∧ (∀ memberId, a = .start memberId → b.store.owner = memberId) ∧
  (∀ k run, a = .answer k .done → b.calls k = some (.clearHistory run) →
    ∀ row ∈ b.store.items, row.id = x → isActiveOperation row = true) ∧
  ∀ k rows, a = .answer k (.rows rows) → n ≤ k → x ∈ rows.map (·.id)

/-- The step does not accept `x`, and is not the answer to a request numbered `n` or later
that contains `x`. -/
def Excludes (x : Uuid) (n : ℕ) (_ : Browser) (a : Act) : Prop :=
  (∀ k item, a = .answer k (.operation item) → item.id ≠ x) ∧
  ∀ k rows, a = .answer k (.rows rows) → n ≤ k → x ∉ rows.map (·.id)

/-- The step that answers an overtaken list changes no item. -/
theorem Counts.not_current {b : Browser} (hb : b.Counts) {k run version since : ℕ}
    (hk : b.calls k = some (.listOperations run version since)) (ho : b.Overtaken since)
    (hc : run = b.store.generation ∧ version = b.store.revision) : False :=
  (hb.overtaken_iff hk).mp ho hc

/-- What a step retains stays, where the early lists are overtaken. -/
theorem After.mem_step {b₀ b b' : Browser} {a : Act} {x : Uuid} (hb : After b₀ b)
    (hearly : ∀ k run version since, k < b₀.sent →
      b.calls k = some (.listOperations run version since) → b.Overtaken since)
    (ha : Retains x b₀.sent b a) (h : b.step a = some b') (hx : x ∈ b.store.items.map (·.id)) :
    x ∈ b'.store.items.map (·.id) := by
  obtain ⟨hstop, hstart, hclear, hlist⟩ := ha
  rcases items_of_step h with hi | ⟨hs, -⟩ | ⟨k, run, rfl, hk, hi⟩ | ⟨k, item, rfl, hi⟩ |
    ⟨k, rows, run, version, since, rfl, hk, hc, hi⟩
  · rwa [hi]
  · rcases hs with rfl | ⟨memberId, rfl, hne⟩
    · exact absurd rfl hstop
    · exact absurd (hstart memberId rfl) hne
  · rw [hi]
    obtain ⟨row, hrow, hid⟩ := List.mem_map.mp hx
    exact List.mem_map.mpr
      ⟨row, List.mem_filter.mpr ⟨hrow, hclear k run rfl hk row hrow hid⟩, hid⟩
  · rw [hi]
    by_cases hid : item.id = x
    · exact List.mem_map.mpr ⟨item, List.mem_cons_self, hid⟩
    · obtain ⟨row, hrow, rfl⟩ := List.mem_map.mp hx
      refine List.mem_map.mpr ⟨row, List.mem_cons_of_mem _ (List.mem_filter.mpr ⟨hrow, ?_⟩), rfl⟩
      exact bne_iff_ne.mpr fun heq => hid heq.symm
  · rw [hi]
    by_cases hkn : k < b₀.sent
    · exact (hb.counts.not_current hk (hearly k _ _ _ hkn hk) hc).elim
    · exact hlist k rows rfl (Nat.le_of_not_lt hkn)

/-- What a step excludes stays out, where the early lists are overtaken. -/
theorem After.notMem_step {b₀ b b' : Browser} {a : Act} {x : Uuid} (hb : After b₀ b)
    (hearly : ∀ k rows run version since, a = .answer k (.rows rows) → k < b₀.sent →
      b.calls k = some (.listOperations run version since) → b.Overtaken since)
    (ha : Excludes x b₀.sent b a) (h : b.step a = some b')
    (hx : x ∉ b.store.items.map (·.id)) : x ∉ b'.store.items.map (·.id) := by
  have hsub : ∀ {l : List AiOperation} {p : AiOperation → Bool},
      x ∉ l.map (·.id) → x ∉ (l.filter p).map (·.id) := by
    intro l p hl hm
    obtain ⟨row, hrow, hid⟩ := List.mem_map.mp hm
    exact hl (List.mem_map.mpr ⟨row, (List.mem_filter.mp hrow).1, hid⟩)
  rcases items_of_step h with hi | ⟨-, hi⟩ | ⟨k, run, rfl, hk, hi⟩ | ⟨k, item, rfl, hi⟩ |
    ⟨k, rows, run, version, since, rfl, hk, hc, hi⟩
  · rwa [hi]
  · rw [hi]
    exact List.not_mem_nil
  · rw [hi]
    exact hsub hx
  · rw [hi, List.map_cons, List.mem_cons, not_or]
    exact ⟨(ha.1 k item rfl).symm, hsub hx⟩
  · rw [hi]
    by_cases hkn : k < b₀.sent
    · exact (hb.counts.not_current hk (hearly k _ _ _ _ rfl hkn hk) hc).elim
    · exact ha.2 k rows rfl (Nat.le_of_not_lt hkn)

/-! ## Stale lists -/

/-- Any answer of the right shape to a request under way is taken. -/
theorem step_rows {b : Browser} {k run version since : ℕ}
    (hk : b.calls k = some (.listOperations run version since)) (rows : List AiOperation) :
    ∃ b', b.step (.answer k (.rows rows)) = some b' ∧
      b'.store.items =
        if run = b.store.generation ∧ version = b.store.revision then rows
        else b.store.items := by
  simp only [step, hk, answered]
  exact ⟨_, rfl, Store.listed_items⟩

/-- A list leaves the items as they are exactly when it was overtaken. -/
theorem Counts.ignored_iff {b : Browser} (hb : b.Counts) {k run version since : ℕ}
    (hk : b.calls k = some (.listOperations run version since)) :
    (∀ rows b', b.step (.answer k (.rows rows)) = some b' → b'.store.items = b.store.items) ↔
      b.Overtaken since := by
  rw [hb.overtaken_iff hk]
  constructor
  · intro hsame hc
    -- a list longer than the items
    obtain ⟨b', hb', hi⟩ := step_rows hk (⟨0, 0, .queued⟩ :: b.store.items)
    have := (hsame _ b' hb').symm.trans (hi.trans (if_pos hc))
    simp at this
  · intro hc rows b' hb'
    obtain ⟨b'', hb'', hi⟩ := step_rows hk rows
    obtain rfl := Option.some.inj (hb'.symm.trans hb'')
    exact hi.trans (if_neg hc)

/-- An answer that accepts an operation lists it. -/
theorem mem_of_answered {s s' : Store} {c : Call} {a : Answer} {events : List Event} {x : Uuid}
    (h : answered s c a = some (s', events)) (he : events = [.mutation (.accepted x)]) :
    x ∈ s'.items.map (·.id) := by
  cases c <;> cases a <;> cases h
  case listOperations.rows => cases he
  case listOperations.failed => cases he
  case submit.operation run item =>
    by_cases hrun : run = s.generation
    · rw [if_pos hrun] at he
      cases he
      simp [Store.submitted, hrun]
    · rw [if_neg hrun] at he
      cases he
  case submit.failed => cases he
  case control.operation run item =>
    by_cases hrun : run = s.generation
    · rw [if_pos hrun] at he
      cases he
      simp [Store.controlled, hrun]
    · rw [if_neg hrun] at he
      cases he
  case control.failed => cases he
  case clearHistory.done run =>
    by_cases hrun : run = s.generation
    · rw [if_pos hrun] at he
      cases he
    · rw [if_neg hrun] at he
      cases he
  case clearHistory.failed => cases he

/-- An accepted operation is listed. -/
theorem mem_of_accepted {b b' : Browser} {a : Act} {x : Uuid} (h : b.step a = some b')
    (he : b'.events = .mutation (.accepted x) :: b.events) :
    x ∈ b'.store.items.map (·.id) := by
  cases a with
  | start memberId =>
    obtain rfl := Option.some.inj h
    by_cases ho : b.store.owner = memberId
    · exact absurd ((if_pos ho).symm.trans he) (by simp)
    · cases (List.cons.inj ((if_neg ho).symm.trans he)).1
  | stop =>
    obtain rfl := Option.some.inj h
    cases (List.cons.inj he).1
  | refresh =>
    obtain rfl := Option.some.inj h
    exact absurd he (by simp [send])
  | submit =>
    obtain rfl := Option.some.inj h
    exact absurd he (by simp [send])
  | control id =>
    simp only [step] at h
    split at h
    · cases h
    · obtain rfl := Option.some.inj h
      exact absurd he (by simp [send])
  | clearHistory =>
    simp only [step] at h
    split at h
    · cases h
    · obtain rfl := Option.some.inj h
      exact absurd he (by simp [send])
  | answer k a =>
    obtain ⟨c, store, events, hc, ha, rfl⟩ := answered_of_step h
    exact mem_of_answered ha (List.append_cancel_right (he.trans (by rfl)))

/-- **What an accepted operation withstands.** From the step that accepts it on, a request
sent before that step never drops it. -/
theorem accepted_stays {P : Browser → Act → Prop} {b b₀ b' : Browser} {a : Act} {x : Uuid}
    (hb : Reach system P b) (h : b.step a = some b₀)
    (he : b₀.events = .mutation (.accepted x) :: b.events)
    (hs : Steps system (Retains x b₀.sent) b₀ b') : x ∈ b'.store.items.map (·.id) := by
  have hold := (counts hb).since_le h he
  have hinv : After b₀ b' ∧ x ∈ b'.store.items.map (·.id) := by
    refine Steps.invariant (I := fun b => After b₀ b ∧ x ∈ b.store.items.map (·.id))
      ⟨.refl ((counts hb).step h), mem_of_accepted h he⟩ ?_ hs
    rintro s a s' ⟨hafter, hx⟩ ha hstep
    refine ⟨hafter.step hstep, hafter.mem_step ?_ ha hstep hx⟩
    exact fun k run version since hk hc => ⟨_, hafter.mem_later he hold hk hc, rfl⟩
  exact hinv.2

/-- **What a clearing withstands.** From a local mutation on that leaves an operation out of
the items, a request sent before it never brings the operation back, if no stale list is
answered that only clearings have overtaken. -/
theorem removed_stays {P : Browser → Act → Prop} {b b₀ b' : Browser} {a : Act} {m : Mutation}
    {x : Uuid} (hb : Reach system P b) (h : b.step a = some b₀)
    (he : b₀.events = .mutation m :: b.events) (hx : x ∉ b₀.store.items.map (·.id))
    (hs : Steps system (fun s a => Keeps s a ∧ Excludes x b₀.sent s a) b₀ b') :
    x ∉ b'.store.items.map (·.id) := by
  have hold := (counts hb).since_le h he
  have hinv : After b₀ b' ∧ x ∉ b'.store.items.map (·.id) := by
    refine Steps.invariant (I := fun b => After b₀ b ∧ x ∉ b.store.items.map (·.id))
      ⟨.refl ((counts hb).step h), hx⟩ ?_ hs
    rintro s a s' ⟨hafter, hx⟩ ⟨hkeeps, ha⟩ hstep
    refine ⟨hafter.step hstep, hafter.notMem_step ?_ ha hstep hx⟩
    exact fun k rows run version since hact hk hc =>
      hkeeps k rows run version since hact hc ⟨m, hafter.mem_later he hold hk hc⟩
  exact hinv.2

end Browser

/-- **A stale list is ignored exactly when it was overtaken by more than clearings.** Whatever
requests and answers came before: a list whose request was sent before the last local mutation
leaves the items as they are, for all rows it may carry, if and only if an operation was
accepted or the store stopped since. So an accepted operation stays until it is cleared or a
later list lacks it; and an operation that a clearing removed stays out until it is accepted or
a later list contains it, in every run that answers no stale list only clearings overtook. -/
theorem stale_list_ignored_iff (b : Browser) (hb : Reach system (fun _ _ => True) b) :
    (∀ k run version since, b.calls k = some (.listOperations run version since) →
      b.Stale since →
        ((∀ rows b', b.step (.answer k (.rows rows)) = some b' →
          b'.store.items = b.store.items) ↔ b.Overtaken since)) ∧
    (∀ a b₀ x b', b.step a = some b₀ → b₀.events = .mutation (.accepted x) :: b.events →
      Steps system (Browser.Retains x b₀.sent) b₀ b' → x ∈ b'.store.items.map (·.id)) ∧
    (∀ a b₀ m x b', b.step a = some b₀ → b₀.events = .mutation m :: b.events →
      x ∉ b₀.store.items.map (·.id) →
      Steps system (fun s a => s.Keeps a ∧ Browser.Excludes x b₀.sent s a) b₀ b' →
        x ∉ b'.store.items.map (·.id)) := by
  refine ⟨?_, ?_, ?_⟩
  · intro k run version since hk _
    exact (Browser.counts hb).ignored_iff hk
  · intro a b₀ x b' h he hs
    exact Browser.accepted_stays hb h he hs
  · intro a b₀ m x b' h he hx hs
    exact Browser.removed_stays hb h he hx hs

/-- A list requested, an operation submitted, and then the list answered: the operation
stays. -/
theorem stale_list_ignored_submitted :
    ∃ b, Reach system (fun _ _ => True) b ∧ b.store.items = [⟨1, 1, .queued⟩] ∧
      ∀ rows b', b.step (.answer 0 (.rows rows)) = some b' →
        b'.store.items = [⟨1, 1, .queued⟩] := by
  have hrun : system.run {} [.refresh, .submit, .answer 1 (.operation ⟨1, 1, .queued⟩)]
      = some _ := rfl
  have hb := reach_of_run (P := fun _ _ => True) (.init rfl) (fun _ _ _ => trivial) hrun
  refine ⟨_, hb, rfl, fun rows b' h => ?_⟩
  exact ((stale_list_ignored_iff _ hb).1 0 0 0 0 rfl ⟨.accepted 1, by decide⟩).mpr
    ⟨.mutation (.accepted 1), by decide, rfl⟩ rows b' h

/-- A list requested, the history cleared, and then the list answered: the cleared operation
is back. -/
theorem stale_list_after_clearing :
    ¬ ∀ b, Reach system (fun _ _ => True) b → ∀ k run version since,
      b.calls k = some (.listOperations run version since) → b.Stale since →
        ∀ rows b', b.step (.answer k (.rows rows)) = some b' →
          b'.store.items = b.store.items := by
  intro h
  have hrun : system.run {} [.refresh, .answer 0 (.rows [⟨1, 1, .succeeded⟩]), .refresh,
      .clearHistory, .answer 2 .done] = some _ := rfl
  have hb := reach_of_run (P := fun _ _ => True) (.init rfl) (fun _ _ _ => trivial) hrun
  have := h _ hb 1 0 0 0 rfl ⟨.cleared, by decide⟩ [⟨1, 1, .succeeded⟩] _ rfl
  cases this

end DouyinCaption.QueueStore

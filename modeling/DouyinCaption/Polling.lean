import DouyinCaption.QueueStore

/-!
# The poll loop of the queue store

`poll`, `start` and `stop` of `src/frontend/src/shared/stores/queue.ts`, around the browser of
`QueueStore`: a loop waits for the answer of its `refresh`, then for its timer, and `stop`
clears the timer the store remembers. A callback that is cleared before it runs never runs.

A request carries the generation it was sent in, and a stop begins a new one. So what a login
asked for is not written in the next (`store_of_late`, with `Browser.Dated` for the requests),
and at most one loop is of the current login (`Tab.Looped`). A run of the tab is a run of the
browser (`Tab.browser_reach`).
-/

namespace DouyinCaption.QueueStore

open Runs

/-- What a loop waits for. -/
inductive Stage where
  /-- `await refresh()`, with the number of the request -/
  | awaiting (call : ℕ)
  /-- `refresh` has returned -/
  | resolved
  /-- `setTimeout`, with the handle of the timer -/
  | waiting (handle : ℕ)
  deriving DecidableEq

/-- A call of `poll`, or the timer it has set. -/
structure Loop where
  run : ℕ
  stage : Stage
  deriving DecidableEq

/-- The browser with its poll loops. -/
structure Tab where
  browser : Browser := {}
  loops : List Loop := []
  /-- `timer`: the handle of the timer that was set last -/
  timer : Option ℕ := none
  /-- the handles given away -/
  handles : ℕ := 0
  /-- the requests that were sent before the last stop; the code has nothing of the kind -/
  stoppedAt : ℕ := 0

/-- What a step does. -/
inductive TabAct where
  | start (memberId : Option Uuid)
  | stop
  | refresh
  | submit
  | control (id : Uuid)
  | clearHistory
  | answer (call : ℕ) (answer : Answer)
  /-- `poll` goes on after its `refresh` -/
  | resume (run : ℕ)
  /-- a timer fires -/
  | fire (handle : ℕ)

/-- The loop that awaited the request goes on when it is answered. -/
def Loop.answered (k : ℕ) (l : Loop) : Loop :=
  if l.stage = .awaiting k then { l with stage := .resolved } else l

/-- The step of the tab that does the step of the browser. -/
def Act.tab : Act → TabAct
  | .start memberId => .start memberId
  | .stop => .stop
  | .refresh => .refresh
  | .submit => .submit
  | .control id => .control id
  | .clearHistory => .clearHistory
  | .answer k a => .answer k a

namespace Tab

/-- `poll`, up to its `await` -/
def poll (run : ℕ) (t : Tab) : Tab :=
  { t with
    browser := t.browser.send (.listOperations t.browser.store.generation
      t.browser.store.revision t.browser.events.length)
    loops := ⟨run, .awaiting t.browser.sent⟩ :: t.loops }

/-- `stop`: the browser `b` after it, and `clearTimeout(timer)` -/
def halt (b : Browser) (t : Tab) : Tab :=
  { t with
    browser := b
    loops := t.loops.filter fun l => t.timer.all fun h => l.stage ≠ .waiting h
    stoppedAt := t.browser.sent }

/-- One step. -/
def step (t : Tab) : TabAct → Option Tab
  | .start memberId =>
    (t.browser.step (.start memberId)).map fun b =>
      if t.browser.store.owner = memberId then t
      else if memberId.isSome then (t.halt b).poll b.store.generation
      else t.halt b
  | .stop => (t.browser.step .stop).map fun b => t.halt b
  | .refresh => (t.browser.step .refresh).map fun b => { t with browser := b }
  | .submit => (t.browser.step .submit).map fun b => { t with browser := b }
  | .control id => (t.browser.step (.control id)).map fun b => { t with browser := b }
  | .clearHistory => (t.browser.step .clearHistory).map fun b => { t with browser := b }
  | .answer k a => (t.browser.step (.answer k a)).map fun b =>
      { t with browser := b, loops := t.loops.map (Loop.answered k) }
  | .resume run =>
    if ⟨run, .resolved⟩ ∈ t.loops then
      let loops := t.loops.erase ⟨run, .resolved⟩
      if run = t.browser.store.generation ∧ t.browser.store.owner.isSome then
        some { t with loops := ⟨run, .waiting t.handles⟩ :: loops
                      timer := some t.handles, handles := t.handles + 1 }
      else some { t with loops }
    else none
  | .fire handle =>
    match t.loops.find? fun l => l.stage = .waiting handle with
    | none => none
    | some l => some ({ t with loops := t.loops.erase l }.poll l.run)

end Tab

/-- The browser with its poll loops as a labelled system. -/
def tabSystem : System Tab TabAct where
  init t := t = {}
  step := Tab.step

/-- The generation a request was sent in. -/
def Call.run : Call → ℕ
  | .listOperations run _ _ | .submit run | .control run | .clearHistory run => run

/-! ## Requests of earlier logins -/

/-- **What a login asked for is not written in the next.** -/
theorem store_of_late {s s' : Store} {c : Call} {a : Answer} {events : List Event}
    (h : Browser.answered s c a = some (s', events)) (hlate : c.run ≠ s.generation) :
    s' = s := by
  have hreleased : ∀ {run}, run ≠ s.generation → s.released run = s := fun h => if_neg h
  have hfailed : ∀ {run m}, run ≠ s.generation → s.failed run m = s := fun h => if_neg h
  cases c <;> cases a <;> cases h
  case listOperations.rows => exact if_pos (.inl hlate)
  case listOperations.failed => exact hfailed hlate
  case submit.operation => exact if_neg hlate
  case submit.failed => rfl
  case control.operation run item =>
    have hlate : run ≠ s.generation := hlate
    rw [Store.controlled, if_neg hlate, hreleased hlate]
  case control.failed run m =>
    have hlate : run ≠ s.generation := hlate
    rw [hfailed hlate, hreleased hlate]
  case clearHistory.done run =>
    have hlate : run ≠ s.generation := hlate
    rw [Store.cleared, if_neg hlate, hreleased hlate]
  case clearHistory.failed run m =>
    have hlate : run ≠ s.generation := hlate
    rw [hfailed hlate, hreleased hlate]

/-! ## The login -/

/-- What `start` and `stop` set and nothing else does: the generation and its owner. -/
def Store.login (s : Store) : ℕ × Option Uuid := (s.generation, s.owner)

section Login

variable {s : Store} {row item : AiOperation} {rows : List AiOperation} {run version : ℕ}

@[simp] theorem Store.note_login : (s.note row).login = s.login := by
  rw [Store.note]
  repeat' split
  all_goals rfl

theorem Store.notes_login : (rows.foldl (fun s row => s.note row) s).login = s.login := by
  induction rows generalizing s with
  | nil => rfl
  | cons row rows ih => exact ih.trans note_login

@[simp] theorem Store.accept_login : (s.accept item).login = s.login := s.note_login

@[simp] theorem Store.listed_login : (s.listed run version rows).login = s.login := by
  rw [Store.listed]
  split
  · rfl
  · exact Store.notes_login

@[simp] theorem Store.failed_login {m : String} : (s.failed run m).login = s.login := by
  rw [Store.failed]; split <;> rfl

@[simp] theorem Store.released_login : (s.released run).login = s.login := by
  rw [Store.released]; split <;> rfl

@[simp] theorem Store.submitted_login : (s.submitted run item).login = s.login := by
  rw [Store.submitted]
  split
  · exact Store.accept_login
  · rfl

@[simp] theorem Store.controlled_login : (s.controlled run item).login = s.login := by
  rw [Store.controlled]
  split
  · exact Store.accept_login
  · rfl

@[simp] theorem Store.cleared_login : (s.cleared run).login = s.login := by
  rw [Store.cleared]; split <;> rfl

end Login

/-- An answer keeps the login. -/
theorem login_of_answered {s s' : Store} {c : Call} {a : Answer} {events : List Event}
    (h : Browser.answered s c a = some (s', events)) : s'.login = s.login := by
  cases c <;> cases a <;> cases h <;> simp

namespace Browser

/-- A new login has begun with an empty list, and no request was sent. -/
structure Began (b b' : Browser) : Prop where
  generation : b'.store.generation = b.store.generation + 1
  items : b'.store.items = []
  calls : b'.calls = b.calls
  sent : b'.sent = b.sent

/-- The login is kept, and at most one request was sent, which carries the generation. -/
structure Kept (b b' : Browser) : Prop where
  login : b'.store.login = b.store.login
  sent : b.sent ≤ b'.sent
  calls : ∀ k c, b'.calls k = some c →
    b.calls k = some c ∨ k = b.sent ∧ b.sent < b'.sent ∧ c.run = b.store.generation

theorem Kept.generation {b b' : Browser} (h : Kept b b') :
    b'.store.generation = b.store.generation := congrArg Prod.fst h.login

theorem Kept.owner {b b' : Browser} (h : Kept b b') : b'.store.owner = b.store.owner :=
  congrArg Prod.snd h.login

/-- A request is sent. -/
theorem Kept.send {b b₁ : Browser} {c₁ : Call} (hlogin : b₁.store.login = b.store.login)
    (hcalls : b₁.calls = b.calls) (hsent : b₁.sent = b.sent)
    (hrun : c₁.run = b.store.generation) : Kept b (b₁.send c₁) := by
  have hlt : b.sent < (b₁.send c₁).sent := by
    rw [← hsent]
    exact Nat.lt_succ_self _
  refine ⟨hlogin, hlt.le, fun k c hk => ?_⟩
  simp only [Browser.send] at hk
  by_cases hks : k = b₁.sent
  · rw [hks, Function.update_self] at hk
    obtain rfl := Option.some.inj hk
    exact .inr ⟨hks.trans hsent, hlt, hrun⟩
  · rw [Function.update_of_ne hks, hcalls] at hk
    exact .inl hk

/-- **What a step of the browser does to the login and the requests.** -/
theorem login_of_step {b b' : Browser} {a : Act} (h : b.step a = some b') :
    ((a = .stop ∨ ∃ m, a = .start m ∧ b.store.owner ≠ m ∧ b'.store.owner = m) ∧ Began b b') ∨
      ((a ≠ .stop ∧ ∀ m, a = .start m → b.store.owner = m) ∧ Kept b b') := by
  cases a with
  | start memberId =>
    obtain rfl := Option.some.inj h
    by_cases ho : b.store.owner = memberId
    · have hstore : b.store.start memberId = b.store := if_pos ho
      exact .inr ⟨⟨by simp, fun m hm => by cases hm; exact ho⟩,
        congrArg Store.login hstore, le_rfl, fun k c hk => .inl hk⟩
    · have hstore : b.store.start memberId = { b.store.stop with owner := memberId } :=
        if_neg ho
      exact .inl ⟨.inr ⟨memberId, rfl, ho, congrArg Store.owner hstore⟩,
        congrArg Store.generation hstore, congrArg Store.items hstore, rfl, rfl⟩
  | stop =>
    obtain rfl := Option.some.inj h
    exact .inl ⟨.inl rfl, rfl, rfl, rfl, rfl⟩
  | refresh =>
    obtain rfl := Option.some.inj h
    exact .inr ⟨⟨by simp, by simp⟩, .send rfl rfl rfl rfl⟩
  | submit =>
    obtain rfl := Option.some.inj h
    exact .inr ⟨⟨by simp, by simp⟩, .send rfl rfl rfl rfl⟩
  | control id =>
    rw [step] at h
    split at h
    · cases h
    · obtain rfl := Option.some.inj h
      exact .inr ⟨⟨by simp, by simp⟩, .send rfl rfl rfl rfl⟩
  | clearHistory =>
    rw [step] at h
    split at h
    · cases h
    · obtain rfl := Option.some.inj h
      exact .inr ⟨⟨by simp, by simp⟩, .send rfl rfl rfl rfl⟩
  | answer j a =>
    obtain ⟨c, store, events, -, he, rfl⟩ := answered_of_step h
    refine .inr ⟨⟨by simp, by simp⟩, login_of_answered he, le_rfl, fun k c' hk => .inl ?_⟩
    by_cases hkj : k = j
    · rw [hkj] at hk
      cases (Function.update_self j none b.calls).symm.trans hk
    · exact (Function.update_of_ne hkj none b.calls).symm.trans hk

/-- The requests under way, `n` of them sent before the last stop: those of this login carry
its generation, the others an earlier one. -/
structure Dated (n : ℕ) (b : Browser) : Prop where
  stopped : n ≤ b.sent
  fresh : ∀ k c, b.calls k = some c → k < b.sent
  past : ∀ k c, b.calls k = some c → k < n → c.run < b.store.generation
  present : ∀ k c, b.calls k = some c → n ≤ k → c.run = b.store.generation

theorem Dated.le {n : ℕ} {b : Browser} (hb : Dated n b) {k : ℕ} {c : Call}
    (hk : b.calls k = some c) : c.run ≤ b.store.generation := by
  by_cases hkn : k < n
  · exact (hb.past k c hk hkn).le
  · exact (hb.present k c hk (Nat.le_of_not_lt hkn)).le

/-- With a new login, every request is one of an earlier login. -/
theorem Dated.began {n : ℕ} {b b' : Browser} (hb : Dated n b) (h : Began b b') :
    Dated b.sent b' := by
  refine ⟨h.sent.ge, fun k c hk => ?_, fun k c hk _ => ?_, fun k c hk hle => ?_⟩
  all_goals rw [h.calls] at hk
  · exact (hb.fresh k c hk).trans_eq h.sent.symm
  · rw [h.generation]
    exact Nat.lt_succ_of_le (hb.le hk)
  · exact absurd (hb.fresh k c hk) hle.not_gt

theorem Dated.kept {n : ℕ} {b b' : Browser} (hb : Dated n b) (h : Kept b b') :
    Dated n b' := by
  refine ⟨hb.stopped.trans h.sent, fun k c hk => ?_, fun k c hk hlt => ?_,
    fun k c hk hle => ?_⟩
  all_goals rcases h.calls k c hk with hk | ⟨rfl, hsent, hrun⟩
  · exact (hb.fresh k c hk).trans_le h.sent
  · exact hsent
  · rw [h.generation]
    exact hb.past k c hk hlt
  · exact absurd hlt hb.stopped.not_gt
  · rw [h.generation]
    exact hb.present k c hk hle
  · rw [h.generation]
    exact hrun

end Browser

/-! ## The loops -/

namespace Tab

/-- The generations the loops were begun in. -/
def runs (t : Tab) : List ℕ := t.loops.map (·.run)

/-- The loops of the current login. -/
def current (t : Tab) : ℕ := t.runs.count t.browser.store.generation

/-- **What a step does to the loops.** -/
theorem step_cases {t t' : Tab} {a : TabAct} (h : t.step a = some t') :
    (∃ c b, t.browser.step c = some b ∧ Browser.Began t.browser b ∧
      (t' = t.halt b ∨
        b.store.owner.isSome ∧ t' = (t.halt b).poll b.store.generation)) ∨
    (∃ c b, a = c.tab ∧ (∀ k ans, c ≠ .answer k ans) ∧ t.browser.step c = some b ∧
      Browser.Kept t.browser b ∧ t' = { t with browser := b }) ∨
    (∃ k ans b, a = .answer k ans ∧ t.browser.step (.answer k ans) = some b ∧
      Browser.Kept t.browser b ∧
      t' = { t with browser := b, loops := t.loops.map (Loop.answered k) }) ∨
    (∃ run, a = .resume run ∧ ⟨run, .resolved⟩ ∈ t.loops ∧
      (run = t.browser.store.generation ∧ t.browser.store.owner.isSome ∧
        t' = { t with loops := ⟨run, .waiting t.handles⟩ :: t.loops.erase ⟨run, .resolved⟩
                      timer := some t.handles, handles := t.handles + 1 } ∨
      t' = { t with loops := t.loops.erase ⟨run, .resolved⟩ })) ∨
    (∃ handle l, a = .fire handle ∧ l ∈ t.loops ∧ l.stage = .waiting handle ∧
      t' = { t with loops := t.loops.erase l }.poll l.run) := by
  -- a step of the browser that stops nothing
  have hkept : ∀ c : Act, c ≠ .stop → (∀ m, c ≠ .start m) → (∀ k ans, c ≠ .answer k ans) →
      (t.browser.step c).map (fun b => { t with browser := b }) = some t' →
      ∃ c' b, c.tab = c'.tab ∧ (∀ k ans, c' ≠ .answer k ans) ∧ t.browser.step c' = some b ∧
        Browser.Kept t.browser b ∧ t' = { t with browser := b } := by
    intro c hstop hstart hanswer h
    obtain ⟨b, hb, rfl⟩ := Option.map_eq_some_iff.mp h
    rcases Browser.login_of_step hb with ⟨rfl | ⟨m, rfl, -⟩, -⟩ | ⟨-, hk⟩
    · exact absurd rfl hstop
    · exact absurd rfl (hstart m)
    · exact ⟨c, b, rfl, hanswer, hb, hk, rfl⟩
  cases a with
  | start memberId =>
    rw [step] at h
    obtain ⟨b, hb, hbt⟩ := Option.map_eq_some_iff.mp h
    rcases Browser.login_of_step hb with ⟨hact, hbegan⟩ | ⟨⟨-, hsame⟩, hk⟩
    · obtain ⟨m, hm, hne, howner⟩ := hact.resolve_left (by simp)
      cases hm
      rw [if_neg hne] at hbt
      refine .inl ⟨_, b, hb, hbegan, ?_⟩
      by_cases hsome : memberId.isSome
      · rw [if_pos hsome] at hbt
        exact .inr ⟨howner ▸ hsome, hbt.symm⟩
      · rw [if_neg hsome] at hbt
        exact .inl hbt.symm
    · have ho := hsame memberId rfl
      rw [if_pos ho] at hbt
      have hstore : t.browser.store.start memberId = t.browser.store := if_pos ho
      have hb : t.browser.step (.start memberId) = some t.browser := by
        rw [Browser.step, hstore, if_pos ho]
      exact .inr (.inl ⟨.start memberId, t.browser, rfl, by simp, hb,
        ⟨rfl, le_rfl, fun k c hk => .inl hk⟩, hbt.symm⟩)
  | stop =>
    rw [step] at h
    obtain ⟨b, hb, rfl⟩ := Option.map_eq_some_iff.mp h
    rcases Browser.login_of_step hb with ⟨-, hbegan⟩ | ⟨⟨hne, -⟩, -⟩
    · exact .inl ⟨_, b, hb, hbegan, .inl rfl⟩
    · exact absurd rfl hne
  | refresh => exact .inr (.inl (hkept .refresh (by simp) (by simp) (by simp) h))
  | submit => exact .inr (.inl (hkept .submit (by simp) (by simp) (by simp) h))
  | control id => exact .inr (.inl (hkept (.control id) (by simp) (by simp) (by simp) h))
  | clearHistory => exact .inr (.inl (hkept .clearHistory (by simp) (by simp) (by simp) h))
  | answer k ans =>
    rw [step] at h
    obtain ⟨b, hb, rfl⟩ := Option.map_eq_some_iff.mp h
    rcases Browser.login_of_step hb with ⟨hact, -⟩ | ⟨-, hk⟩
    · rcases hact with hact | ⟨m, hact, -⟩ <;> cases hact
    · exact .inr (.inr (.inl ⟨k, ans, b, rfl, hb, hk, rfl⟩))
  | resume run =>
    refine .inr (.inr (.inr (.inl ⟨run, rfl, ?_⟩)))
    rw [step] at h
    split at h
    · rename_i hmem
      refine ⟨hmem, ?_⟩
      dsimp only at h
      split at h
      · rename_i hcurrent
        exact .inl ⟨hcurrent.1, hcurrent.2, (Option.some.inj h).symm⟩
      · exact .inr (Option.some.inj h).symm
    · cases h
  | fire handle =>
    refine .inr (.inr (.inr (.inr ⟨handle, ?_⟩)))
    rw [step] at h
    split at h
    · cases h
    · rename_i l hl
      exact ⟨l, rfl, List.mem_of_find?_eq_some hl,
        by simpa using List.find?_some hl, (Option.some.inj h).symm⟩

/-- At most one loop is of the current login, and then somebody is logged in. A loop that waits
for a timer is of the current login and waits for the timer that was set last. -/
structure Looped (t : Tab) : Prop where
  single : t.current ≤ 1
  past : ∀ l ∈ t.loops, l.run ≤ t.browser.store.generation
  timed : ∀ l ∈ t.loops, ∀ handle, l.stage = .waiting handle →
    t.timer = some handle ∧ l.run = t.browser.store.generation
  owned : ∀ l ∈ t.loops, l.run = t.browser.store.generation → t.browser.store.owner.isSome

theorem Looped.kept {t : Tab} {b : Browser} (ht : Looped t) (h : Browser.Kept t.browser b) :
    Looped { t with browser := b } := by
  refine ⟨?_, ?_, ?_, ?_⟩
  · rw [current, h.generation]
    exact ht.single
  · rw [h.generation]
    exact ht.past
  · rw [h.generation]
    exact ht.timed
  · rw [h.generation, h.owner]
    exact ht.owned

/-- A loop that is answered keeps its generation, and it is no loop that waits for a timer. -/
theorem Looped.answered {t : Tab} (ht : Looped t) (k : ℕ) :
    Looped { t with loops := t.loops.map (Loop.answered k) } := by
  have hrun : ∀ l : Loop, (l.answered k).run = l.run := by
    intro l
    rw [Loop.answered]
    split <;> rfl
  have hwait : ∀ (l : Loop) handle, (l.answered k).stage = .waiting handle →
      l.stage = .waiting handle := by
    intro l handle h
    rw [Loop.answered] at h
    split at h
    · cases h
    · exact h
  refine ⟨?_, ?_, ?_, ?_⟩
  · have hruns : (t.loops.map (Loop.answered k)).map (·.run) = t.loops.map (·.run) := by
      rw [List.map_map]
      exact List.map_congr_left fun l _ => hrun l
    rw [current, runs, hruns]
    exact ht.single
  · intro l hl
    obtain ⟨l, hmem, rfl⟩ := List.mem_map.mp hl
    exact (hrun l).trans_le (ht.past l hmem)
  · intro l hl handle hw
    obtain ⟨l, hmem, rfl⟩ := List.mem_map.mp hl
    rw [hrun]
    exact ht.timed l hmem handle (hwait l handle hw)
  · intro l hl hcur
    obtain ⟨l, hmem, rfl⟩ := List.mem_map.mp hl
    rw [hrun] at hcur
    exact ht.owned l hmem hcur

/-- A new login begins without a loop of its own, and no earlier loop waits for a timer. -/
theorem Looped.halt {t : Tab} {b : Browser} (ht : Looped t) (h : Browser.Began t.browser b) :
    Looped (t.halt b) ∧ (t.halt b).current = 0 := by
  have hpast : ∀ l ∈ (t.halt b).loops, l.run < b.store.generation := by
    intro l hl
    rw [h.generation]
    exact Nat.lt_succ_of_le (ht.past l (List.mem_filter.mp hl).1)
  have hzero : (t.halt b).current = 0 := by
    refine List.count_eq_zero_of_not_mem fun hmem => ?_
    obtain ⟨l, hl, hrun⟩ := List.mem_map.mp hmem
    exact (hpast l hl).ne hrun
  refine ⟨⟨hzero.trans_le (Nat.zero_le 1), fun l hl => (hpast l hl).le, ?_, ?_⟩, hzero⟩
  · intro l hl handle hw
    -- its timer was the one that is cleared
    obtain ⟨hmem, hclear⟩ := List.mem_filter.mp hl
    obtain ⟨htimer, -⟩ := ht.timed l hmem handle hw
    simp [htimer, hw] at hclear
  · intro l hl hcur
    exact absurd hcur (hpast l hl).ne

/-- A loop is begun where there was none of the current login. -/
theorem Looped.cons {t t' : Tab} {l : Loop} (ht : Looped t) (hzero : t.current = 0)
    (hloops : t'.loops = l :: t.loops) (hlogin : t'.browser.store.login = t.browser.store.login)
    (hrun : l.run = t.browser.store.generation) (howner : t.browser.store.owner.isSome)
    (htimer : ∀ handle, l.stage = .waiting handle → t'.timer = some handle) : Looped t' := by
  have hgen : t'.browser.store.generation = t.browser.store.generation :=
    congrArg Prod.fst hlogin
  have howner' : t'.browser.store.owner = t.browser.store.owner := congrArg Prod.snd hlogin
  have hnone : ∀ m ∈ t.loops, m.run ≠ t.browser.store.generation := by
    intro m hm hcur
    exact List.count_eq_zero.mp hzero (List.mem_map.mpr ⟨m, hm, hcur⟩)
  refine ⟨?_, ?_, ?_, ?_⟩
  · rw [current, runs, hloops, hgen, List.map_cons, hrun, List.count_cons_self]
    exact (congrArg (· + 1) hzero).le
  all_goals
    intro m hm
    rw [hloops] at hm
    rw [hgen]
    rcases List.mem_cons.mp hm with rfl | hm
  · exact hrun.le
  · exact ht.past m hm
  · exact fun handle hw => ⟨htimer handle hw, hrun⟩
  · exact fun handle hw => absurd (ht.timed m hm handle hw).2 (hnone m hm)
  · exact fun _ => howner'.symm ▸ howner
  · exact fun hcur => absurd hcur (hnone m hm)

/-- A loop that goes on is taken out first: what is left has none of its login. -/
theorem Looped.erase {t : Tab} {l : Loop} (ht : Looped t) (hl : l ∈ t.loops) :
    Looped { t with loops := t.loops.erase l } ∧
      (l.run = t.browser.store.generation →
        current { t with loops := t.loops.erase l } = 0) := by
  have hcount : t.current = ((t.loops.erase l).map (·.run)).count t.browser.store.generation +
      if l.run = t.browser.store.generation then 1 else 0 := by
    have hperm := (List.perm_cons_erase hl).map (·.run)
    rw [current, runs, hperm.count_eq, List.map_cons, List.count_cons]
    simp only [beq_iff_eq]
  have hsub : ∀ m ∈ t.loops.erase l, m ∈ t.loops := fun m hm => List.mem_of_mem_erase hm
  have hsingle := ht.single
  refine ⟨⟨?_, fun m hm => ht.past m (hsub m hm), fun m hm => ht.timed m (hsub m hm),
    fun m hm => ht.owned m (hsub m hm)⟩, fun hrun => ?_⟩
  · rw [hcount] at hsingle
    exact (Nat.le_add_right _ _).trans hsingle
  · rw [hcount, if_pos hrun] at hsingle
    exact Nat.le_zero.mp (Nat.le_of_succ_le_succ hsingle)

/-- What holds of every reached tab. -/
structure Wf (t : Tab) : Prop where
  dated : Browser.Dated t.stoppedAt t.browser
  looped : Looped t

theorem Wf.empty : Wf {} :=
  ⟨⟨le_rfl, nofun, nofun, nofun⟩, ⟨Nat.zero_le 1, nofun, nofun, nofun⟩⟩

/-- The step lemma. -/
theorem Wf.step {t t' : Tab} {a : TabAct} (ht : Wf t) (h : t.step a = some t') : Wf t' := by
  rcases step_cases h with ⟨c, b, -, hb, rfl | ⟨howner, rfl⟩⟩ | ⟨c, b, -, -, -, hb, rfl⟩ |
    ⟨k, ans, b, -, -, hb, rfl⟩ | ⟨run, -, hmem, ⟨hrun, howner, rfl⟩ | rfl⟩ |
    ⟨handle, l, -, hl, hw, rfl⟩
  · exact ⟨ht.dated.began hb, (ht.looped.halt hb).1⟩
  · obtain ⟨hlooped, hzero⟩ := ht.looped.halt hb
    exact ⟨(ht.dated.began hb).kept (.send rfl rfl rfl rfl),
      hlooped.cons hzero rfl rfl rfl howner nofun⟩
  · exact ⟨ht.dated.kept hb, ht.looped.kept hb⟩
  · exact ⟨ht.dated.kept hb, (ht.looped.kept hb).answered k⟩
  · obtain ⟨hlooped, hzero⟩ := ht.looped.erase hmem
    refine ⟨ht.dated, hlooped.cons (hzero hrun) rfl rfl hrun howner fun handle hw => ?_⟩
    rw [← Stage.waiting.inj hw]
  · exact ⟨ht.dated, (ht.looped.erase hmem).1⟩
  · obtain ⟨hlooped, hzero⟩ := ht.looped.erase hl
    have hrun := (ht.looped.timed l hl handle hw).2
    exact ⟨ht.dated.kept (.send rfl rfl rfl rfl),
      hlooped.cons (hzero hrun) rfl rfl hrun (ht.looped.owned l hl hrun) nofun⟩

theorem wf {P : Tab → TabAct → Prop} {t : Tab} (ht : Reach tabSystem P t) : Wf t := by
  refine Reach.invariant (I := Wf) ?_ ?_ ht
  · rintro t rfl
    exact .empty
  · exact fun t a t' _ hi _ h => hi.step h

/-- **A tab does what its browser does.** A step of the tab is at most two steps of the
browser. -/
theorem browser_steps {t t' : Tab} {a : TabAct} (h : t.step a = some t') :
    Steps system (fun _ _ => True) t.browser t'.browser := by
  have hrefresh : ∀ {b run v e}, run = b.store.generation → v = b.store.revision →
      e = b.events.length → Steps system (fun _ _ => True) b
        (b.send (.listOperations run v e)) := by
    rintro b _ _ _ rfl rfl rfl
    exact .tail (a := .refresh) .refl trivial rfl
  rcases step_cases h with ⟨c, b, hc, -, rfl | ⟨-, rfl⟩⟩ | ⟨c, b, -, -, hc, -, rfl⟩ |
    ⟨k, ans, b, -, hc, -, rfl⟩ | ⟨run, -, -, ⟨-, -, rfl⟩ | rfl⟩ | ⟨handle, l, -, -, -, rfl⟩
  · exact .tail .refl trivial hc
  · exact (Steps.tail .refl trivial hc).trans (hrefresh rfl rfl rfl)
  · exact .tail .refl trivial hc
  · exact .tail (a := .answer k ans) .refl trivial hc
  · exact .refl
  · exact .refl
  · exact hrefresh rfl rfl rfl

/-- What holds of every run of the browser holds of the tab's. -/
theorem browser_reach {P : Tab → TabAct → Prop} {t : Tab} (ht : Reach tabSystem P t) :
    Reach system (fun _ _ => True) t.browser := by
  refine Reach.invariant (I := fun t => Reach system (fun _ _ => True) t.browser) ?_ ?_ ht
  · rintro t rfl
    exact .init rfl
  · exact fun t a t' _ hi _ h => hi.append (browser_steps h)

/-- The generation only grows. -/
theorem generation_le {t t' : Tab} {a : TabAct} (h : t.step a = some t') :
    t.browser.store.generation ≤ t'.browser.store.generation := by
  rcases step_cases h with ⟨c, b, -, hb, rfl | ⟨-, rfl⟩⟩ | ⟨c, b, -, -, -, hb, rfl⟩ |
    ⟨k, ans, b, -, -, hb, rfl⟩ | ⟨run, -, -, ⟨-, -, rfl⟩ | rfl⟩ | ⟨handle, l, -, -, -, rfl⟩
  · exact (Nat.le_succ _).trans_eq hb.generation.symm
  · exact (Nat.le_succ _).trans_eq hb.generation.symm
  · exact hb.generation.ge
  · exact hb.generation.ge
  all_goals exact le_rfl

/-- A request of an earlier login is answered, and nothing is written. -/
theorem Wf.store_of_late {t t' : Tab} {k : ℕ} {a : Answer} (ht : Wf t) (hk : k < t.stoppedAt)
    (h : t.step (.answer k a) = some t') : t'.browser.store = t.browser.store := by
  rw [Tab.step] at h
  obtain ⟨b, hb, rfl⟩ := Option.map_eq_some_iff.mp h
  obtain ⟨c, store, events, hc, ha, rfl⟩ := Browser.answered_of_step hb
  exact QueueStore.store_of_late ha (ht.dated.past k c hc hk).ne

/-- A timer is set by the loop of the current login, and it is the only one. -/
theorem Wf.scheduled {t t' : Tab} {a : TabAct} (ht : Wf t) (h : t.step a = some t')
    (hset : t'.handles ≠ t.handles) :
    a = .resume t.browser.store.generation ∧ t.browser.store.owner.isSome ∧
      t.current = 1 := by
  rcases step_cases h with ⟨c, b, -, -, rfl | ⟨-, rfl⟩⟩ | ⟨c, b, -, -, -, -, rfl⟩ |
    ⟨k, ans, b, -, -, -, rfl⟩ | ⟨run, rfl, hmem, ⟨rfl, howner, rfl⟩ | rfl⟩ |
    ⟨handle, l, -, -, -, rfl⟩
  case inr.inr.inr.inl.inl =>
    refine ⟨rfl, howner, le_antisymm ht.looped.single ?_⟩
    exact List.count_pos_iff.mpr (List.mem_map.mpr ⟨_, hmem, rfl⟩)
  all_goals exact absurd rfl hset

end Tab

/-- **No queue data crosses a login.** Whatever was requested, answered, begun and stopped
before: the answer to a request of an earlier login leaves the store as it is; at most one poll
loop is of the current login, and a step that sets a timer is a step of that loop. A loop of an
earlier login never sets a timer again and never waits for one, whatever comes. -/
theorem no_data_crosses_login (t : Tab) (ht : Reach tabSystem (fun _ _ => True) t) :
    (∀ k a t', k < t.stoppedAt → t.step (.answer k a) = some t' →
      t'.browser.store = t.browser.store) ∧
    t.current ≤ 1 ∧
    (∀ a t', t.step a = some t' → t'.handles ≠ t.handles →
      a = .resume t.browser.store.generation ∧ t.browser.store.owner.isSome ∧
        t.current = 1) ∧
    ∀ l ∈ t.loops, l.run ≠ t.browser.store.generation →
      ∀ t₁, Steps tabSystem (fun _ _ => True) t t₁ →
        (∀ t₂, t₁.step (.resume l.run) = some t₂ → t₂.handles = t₁.handles) ∧
        ∀ handle, ⟨l.run, .waiting handle⟩ ∉ t₁.loops := by
  have hwf := Tab.wf ht
  refine ⟨fun k a t' hk h => hwf.store_of_late hk h, hwf.looped.single,
    fun a t' h hset => hwf.scheduled h hset, fun l hl hne t₁ hsteps => ?_⟩
  have hwf₁ := Tab.wf (ht.append hsteps)
  -- the generation has passed the loop, and it only grows
  have hpast : l.run < t₁.browser.store.generation := by
    refine Steps.invariant (I := fun t => l.run < t.browser.store.generation)
      (lt_of_le_of_ne (hwf.looped.past l hl) hne) ?_ hsteps
    exact fun s a s' hlt _ h => hlt.trans_le (Tab.generation_le h)
  refine ⟨fun t₂ h => ?_, fun handle hmem => ?_⟩
  · by_contra hset
    have := TabAct.resume.inj (hwf₁.scheduled h hset).1
    exact hpast.ne this
  · exact hpast.ne (hwf₁.looped.timed _ hmem handle rfl).2

/-- Somebody logs in and out and another logs in before the first list is answered: it is
dropped, and the first loop sets no timer. -/
theorem no_data_crosses_login_late :
    ∃ t, Reach tabSystem (fun _ _ => True) t ∧ t.runs = [3, 1] ∧
      (∀ a t', t.step (.answer 0 a) = some t' → t'.browser.store = t.browser.store) ∧
      ∀ t', t.step (.resume 1) = some t' → t'.handles = t.handles := by
  have hrun : tabSystem.run {} [.start (some 1), .stop, .start (some 2)] = some _ := rfl
  have ht := reach_of_run (P := fun _ _ => True) (.init rfl) (fun _ _ _ => trivial) hrun
  obtain ⟨hlate, -, -, hloops⟩ := no_data_crosses_login _ ht
  refine ⟨_, ht, by decide, fun a t' h => hlate 0 a t' (by decide) h, fun t' h => ?_⟩
  exact (hloops ⟨1, .awaiting 0⟩ (by decide) (by decide) _ .refl).1 t' h

end DouyinCaption.QueueStore

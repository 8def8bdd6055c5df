import DouyinCaption.Polling

/-!
# Completion in the queue store

The store next to the server whose operations it shows. On the server an operation moves from
queued to running to its end. An answer is made of the rows the server has when the request
arrives there, and delivered later, after whatever else happened. No page calls `refresh`: a
list is asked for by the poll loop, one request at a time.

A list that an accepted operation has overtaken is dropped, so the lists the store takes come
in the order the server made them. `accept` takes what it is given: a slow answer to a
submission, a cancellation or a retry shows an operation as queued or running that a list has
shown as ended before, and the next list reports its completion again.

What a login has shown and reported is kept in a `Ledger`, which the store itself does not have.
Its completions are the rows for which `updates` and `notice` are assigned
(`assigned_of_answered`), so whatever these hold has been reported (`recorded`).
-/

namespace DouyinCaption.QueueStore

open Runs

/-! ## What is shown and reported -/

/-- The row tells of a completion: `items` has it queued or running. -/
def Store.completes (s : Store) (row : AiOperation) : Bool :=
  match s.items.find? (·.id == row.id) with
  | some previous => isActiveOperation previous && !isActiveOperation row
  | none => false

/-- `updates.value[row.taskId] = row` and `notice.value = row` -/
def Store.assign (row : AiOperation) (s : Store) : Store :=
  { s with updates := fun k => if k = row.taskId then some row else s.updates k
           notice := some row }

/-- The rows of an answer for which `updates` and `notice` are assigned. -/
def Store.reported (s : Store) : Call → Answer → List AiOperation
  | .listOperations run version _, .rows rows =>
    if run ≠ s.generation ∨ version ≠ s.revision then [] else rows.filter s.completes
  | .submit run, .operation item | .control run, .operation item =>
    if run = s.generation then [item].filter s.completes else []
  | _, _ => []

section Reported

variable {s : Store} {row : AiOperation}

theorem Store.note_eq : s.note row = if s.completes row then s.assign row else s := by
  rw [Store.note, Store.completes]
  cases s.items.find? (·.id == row.id) <;> rfl

theorem Store.note_eq_foldl :
    s.note row = ([row].filter s.completes).foldl (fun s row => s.assign row) s := by
  rw [Store.note_eq, List.filter_singleton]
  cases s.completes row <;> rfl

/-- The rows of a list that tell of a completion are those that do so before the list. -/
theorem Store.notes_eq (rows : List AiOperation) :
    rows.foldl (fun s row => s.note row) s
      = (rows.filter s.completes).foldl (fun s row => s.assign row) s := by
  have hsame : ∀ {s' : Store}, s'.items = s.items → s'.completes = s.completes := by
    intro s' h
    funext row
    rw [Store.completes, Store.completes, h]
  have hfold : ∀ (rows : List AiOperation) (s' : Store), s'.items = s.items →
      rows.foldl (fun s row => s.note row) s'
        = (rows.filter s.completes).foldl (fun s row => s.assign row) s' := by
    intro rows
    induction rows with
    | nil => exact fun s' _ => rfl
    | cons row rows ih =>
      intro s' h
      rw [List.foldl_cons, ih _ (Store.note_items.trans h), Store.note_eq, hsame h]
      by_cases hc : s.completes row
      · rw [List.filter_cons_of_pos hc, if_pos hc, List.foldl_cons]
      · rw [List.filter_cons_of_neg hc, if_neg hc]
  exact hfold rows s rfl

/-- **What an answer assigns.** `updates` and `notice` are assigned for the rows the answer
reports, in their order, and for nothing else; a clearing only deletes. -/
theorem assigned_of_answered {s' : Store} {c : Call} {a : Answer} {events : List Event}
    (h : Browser.answered s c a = some (s', events)) (hdone : a ≠ .done) :
    s'.updates = ((s.reported c a).foldl (fun s row => s.assign row) s).updates ∧
      s'.notice = ((s.reported c a).foldl (fun s row => s.assign row) s).notice := by
  have hfailed : ∀ {run m}, (s.failed run m).updates = s.updates ∧
      (s.failed run m).notice = s.notice := by
    intro run m
    rw [Store.failed]
    split <;> exact ⟨rfl, rfl⟩
  have hreleased : ∀ {s : Store} {run}, (s.released run).updates = s.updates ∧
      (s.released run).notice = s.notice := by
    intro s run
    rw [Store.released]
    split <;> exact ⟨rfl, rfl⟩
  cases c <;> cases a <;> cases h
  case listOperations.rows run version since rows =>
    rw [Store.listed, Store.reported]
    split
    · exact ⟨rfl, rfl⟩
    · rw [← Store.notes_eq]
      exact ⟨rfl, rfl⟩
  case listOperations.failed => exact hfailed
  case submit.operation run item =>
    rw [Store.submitted, Store.reported]
    split
    · rw [← Store.note_eq_foldl]
      exact ⟨rfl, rfl⟩
    · exact ⟨rfl, rfl⟩
  case submit.failed => exact ⟨rfl, rfl⟩
  case control.operation run item =>
    rw [hreleased.1, hreleased.2, Store.controlled, Store.reported]
    split
    · rw [← Store.note_eq_foldl]
      exact ⟨rfl, rfl⟩
    · exact ⟨rfl, rfl⟩
  case control.failed =>
    rw [hreleased.1, hreleased.2]
    exact hfailed
  case clearHistory.done => exact absurd rfl hdone
  case clearHistory.failed =>
    rw [hreleased.1, hreleased.2]
    exact hfailed

/-- The store announces a completion, in `updates` or in `notice`. -/
def Store.Announces (s : Store) (x : Uuid) : Prop :=
  (∃ k row, s.updates k = some row ∧ row.id = x) ∨ ∃ row, s.notice = some row ∧ row.id = x

theorem Store.Announces.of_same {s s' : Store} {x : Uuid} (h : s.Announces x)
    (hu : s.updates = s'.updates) (hn : s.notice = s'.notice) : s'.Announces x := by
  rwa [Announces, ← hu, ← hn]

theorem Store.announces_foldl {rows : List AiOperation} {x : Uuid} : ∀ {s : Store},
    (rows.foldl (fun s row => s.assign row) s).Announces x →
      x ∈ rows.map (·.id) ∨ s.Announces x := by
  induction rows with
  | nil => exact fun h => .inr h
  | cons row rows ih =>
    intro s h
    rw [List.map_cons, List.mem_cons, or_assoc]
    rcases ih h with hmem | ⟨k, row', hk, hid⟩ | ⟨row', hn, hid⟩
    · exact .inr (.inl hmem)
    · dsimp only [Store.assign] at hk
      split at hk
      · obtain rfl := Option.some.inj hk
        exact .inl hid.symm
      · exact .inr (.inr (.inl ⟨k, row', hk, hid⟩))
    · obtain rfl := Option.some.inj hn
      exact .inl hid.symm

/-- **What an answer announces it reports**, or it was announced before. -/
theorem announces_of_answered {s' : Store} {c : Call} {a : Answer} {events : List Event}
    {x : Uuid} (h : Browser.answered s c a = some (s', events)) (hx : s'.Announces x) :
    x ∈ (s.reported c a).map (·.id) ∨ s.Announces x := by
  by_cases hdone : a = .done
  · -- a clearing deletes
    subst hdone
    cases c <;> cases h
    rename_i run
    rw [Store.released, Store.cleared] at hx
    by_cases hrun : run = s.generation
    · simp only [hrun, if_true, Store.Announces] at hx
      rcases hx with ⟨k, row, hk, hid⟩ | ⟨row, hn, hid⟩
      · split at hk
        · cases hk
        · exact .inr (.inl ⟨k, row, hk, hid⟩)
      · exact .inr (.inr ⟨row, (Option.filter_eq_some_iff.mp hn).1, hid⟩)
    · simp only [hrun, if_false] at hx
      exact .inr hx
  · obtain ⟨hu, hn⟩ := assigned_of_answered h hdone
    exact Store.announces_foldl (hx.of_same hu hn)

/-- A step of the browser that announces a completion stays in its login; an answer has reported
the completion, or it was announced before. -/
theorem Browser.announces_of_step {b b' : Browser} {c : Act} {x : Uuid}
    (h : b.step c = some b') (hx : b'.store.Announces x) :
    b'.store.generation = b.store.generation ∧ (b.store.Announces x ∨
      ∃ k a c', c = .answer k a ∧ b.calls k = some c' ∧
        x ∈ (b.store.reported c' a).map (·.id)) := by
  have hempty : ∀ s : Store, s.updates = (fun _ => none) → s.notice = none → ¬ s.Announces x := by
    rintro s hu hn (⟨k, row, hk, -⟩ | ⟨row, hrow, -⟩)
    · rw [hu] at hk
      cases hk
    · rw [hn] at hrow
      cases hrow
  cases c with
  | start memberId =>
    obtain rfl := Option.some.inj h
    by_cases ho : b.store.owner = memberId
    · have hstore : b.store.start memberId = b.store := if_pos ho
      exact ⟨congrArg Store.generation hstore, .inl (hstore ▸ hx)⟩
    · have hstore : b.store.start memberId = { b.store.stop with owner := memberId } := if_neg ho
      exact absurd (hstore ▸ hx) (hempty _ rfl rfl)
  | stop =>
    obtain rfl := Option.some.inj h
    exact absurd hx (hempty _ rfl rfl)
  | refresh | submit =>
    obtain rfl := Option.some.inj h
    exact ⟨rfl, .inl hx⟩
  | control | clearHistory =>
    rw [step] at h
    split at h
    · cases h
    · obtain rfl := Option.some.inj h
      exact ⟨rfl, .inl hx⟩
  | answer k a =>
    obtain ⟨c, store, events, hc, hanswered, rfl⟩ := answered_of_step h
    refine ⟨congrArg Prod.fst (login_of_answered hanswered), ?_⟩
    rcases announces_of_answered hanswered hx with hmem | hold
    · exact .inr ⟨k, a, c, rfl, hc, hmem⟩
    · exact .inl hold

end Reported

/-! ## The ledger -/

/-- What a login has shown and reported: the operations that `items` has shown as ended, and
the completions that were reported, the last one first. -/
structure Ledger where
  finished : List Uuid := []
  completions : List Uuid := []
  deriving DecidableEq

/-- The ledger after a step, from the items it left and the rows it reported. -/
def Ledger.observe (items reported : List AiOperation) (l : Ledger) : Ledger where
  finished := (items.filter (!isActiveOperation ·)).map (·.id) ++ l.finished
  completions := (reported.map (·.id)).reverse ++ l.completions

/-- **Completion is monotone and reported once.** No operation is queued or running in `items`
that was shown as ended before, and no completion was reported twice. -/
structure Ledger.Monotone (items : List AiOperation) (l : Ledger) : Prop where
  shown : ∀ row ∈ items, isActiveOperation row = true → row.id ∉ l.finished
  once : l.completions.Nodup

/-- The ledger is up to date with the items, and a completion is of an operation shown as
ended. -/
structure Ledger.Kept (items : List AiOperation) (l : Ledger) : Prop
    extends Ledger.Monotone items l where
  ended : ∀ row ∈ items, isActiveOperation row = false → row.id ∈ l.finished
  reported : ∀ x ∈ l.completions, x ∈ l.finished

namespace Ledger

variable {l : Ledger} {items rows reported : List AiOperation} {item : AiOperation}

theorem mem_finished_observe {x : Uuid} :
    x ∈ (l.observe items reported).finished ↔
      (∃ row ∈ items, isActiveOperation row = false ∧ row.id = x) ∨ x ∈ l.finished := by
  rw [observe, List.mem_append, List.mem_map]
  simp only [List.mem_filter, Bool.not_eq_true', and_assoc]

/-- An operation that is reported is queued or running in `items`, and ended in the row. -/
theorem of_completes {s : Store} {row : AiOperation} (h : s.completes row = true) :
    isActiveOperation row = false ∧
      ∃ previous ∈ s.items, previous.id = row.id ∧ isActiveOperation previous = true := by
  rw [Store.completes] at h
  split at h
  · rename_i previous hfind
    obtain ⟨hprevious, hrow⟩ := Bool.and_eq_true_iff.mp h
    refine ⟨by simpa using hrow, previous, List.mem_of_find?_eq_some hfind, ?_, hprevious⟩
    simpa using List.find?_some hfind
  · cases h

/-- Two rows of one operation in `items` agree on whether it has ended. -/
theorem Kept.agree (hl : l.Kept items) {row row' : AiOperation} (h : row ∈ items)
    (h' : row' ∈ items) (hid : row.id = row'.id) (ha : isActiveOperation row = true) :
    isActiveOperation row' = true := by
  by_contra hne
  refine hl.shown row h ha ?_
  rw [hid]
  exact hl.ended row' h' (Bool.eq_false_of_not_eq_true hne)

/-- What the new items and the reported rows have to meet. -/
theorem Kept.observe (hl : l.Kept items) {items' : List AiOperation}
    (hshown : ∀ row ∈ items', isActiveOperation row = true → row.id ∉ l.finished)
    (hagree : ∀ row ∈ items', ∀ row' ∈ items', row.id = row'.id →
      isActiveOperation row = true → isActiveOperation row' = true)
    (hnodup : (reported.map (·.id)).Nodup)
    (hnew : ∀ row ∈ reported, row ∈ items' ∧ isActiveOperation row = false ∧
      row.id ∉ l.finished) : (l.observe items' reported).Kept items' := by
  refine ⟨⟨fun row hrow ha hfin => ?_, ?_⟩, fun row hrow ha => ?_, fun x hx => ?_⟩
  · rcases mem_finished_observe.mp hfin with ⟨row', hrow', ha', hid⟩ | hfin
    · exact absurd (hagree row hrow row' hrow' hid.symm ha) (by simp [ha'])
    · exact hshown row hrow ha hfin
  · refine List.Nodup.append (List.nodup_reverse.mpr hnodup) hl.once fun x hx hx' => ?_
    obtain ⟨row, hrow, rfl⟩ := List.mem_map.mp (List.mem_reverse.mp hx)
    exact (hnew row hrow).2.2 (hl.reported _ hx')
  · exact mem_finished_observe.mpr (.inl ⟨row, hrow, ha, rfl⟩)
  · rcases List.mem_append.mp hx with hx | hx
    · obtain ⟨row, hrow, rfl⟩ := List.mem_map.mp (List.mem_reverse.mp hx)
      obtain ⟨hitems, ha, -⟩ := hnew row hrow
      exact mem_finished_observe.mpr (.inl ⟨row, hitems, ha, rfl⟩)
    · exact mem_finished_observe.mpr (.inr (hl.reported x hx))

theorem Kept.empty : Kept [] {} := ⟨⟨nofun, List.nodup_nil⟩, nofun, nofun⟩

/-- Nothing new is shown. -/
theorem Kept.sublist (hl : l.Kept items) {items' : List AiOperation}
    (hsub : ∀ row ∈ items', row ∈ items) : (l.observe items' []).Kept items' :=
  hl.observe (fun row hrow => hl.shown row (hsub row hrow))
    (fun row hrow row' hrow' hid => hl.agree (hsub row hrow) (hsub row' hrow') hid)
    List.nodup_nil nofun

/-- A row that tells of a completion is of an operation not yet shown as ended. -/
theorem Kept.completes {s : Store} (hl : l.Kept s.items) {row : AiOperation}
    (h : s.completes row = true) : isActiveOperation row = false ∧ row.id ∉ l.finished := by
  obtain ⟨ha, previous, hmem, hid, hprevious⟩ := of_completes h
  refine ⟨ha, ?_⟩
  rw [← hid]
  exact hl.shown previous hmem hprevious

/-- An operation is accepted that is not put back. -/
theorem Kept.accept {s : Store} (hl : l.Kept s.items)
    (hitem : isActiveOperation item = true → item.id ∉ l.finished) :
    (l.observe (item :: s.items.filter (·.id != item.id)) ([item].filter s.completes)).Kept
      (item :: s.items.filter (·.id != item.id)) := by
  have hrest : ∀ row ∈ s.items.filter (·.id != item.id), row ∈ s.items ∧ row.id ≠ item.id := by
    intro row hrow
    obtain ⟨hmem, hne⟩ := List.mem_filter.mp hrow
    exact ⟨hmem, bne_iff_ne.mp hne⟩
  refine hl.observe ?_ ?_ ?_ ?_
  · intro row hrow ha
    rcases List.mem_cons.mp hrow with rfl | hrow
    · exact hitem ha
    · exact hl.shown row (hrest row hrow).1 ha
  · intro row hrow row' hrow' hid ha
    rcases List.mem_cons.mp hrow with rfl | hrow <;>
      rcases List.mem_cons.mp hrow' with rfl | hrow'
    · exact ha
    · exact absurd hid.symm (hrest row' hrow').2
    · exact absurd hid (hrest row hrow).2
    · exact hl.agree (hrest row hrow).1 (hrest row' hrow').1 hid ha
  · refine List.Nodup.sublist (List.filter_sublist.map _) ?_
    exact List.nodup_singleton _
  · intro row hrow
    obtain ⟨hmem, hc⟩ := List.mem_filter.mp hrow
    obtain rfl := List.mem_singleton.mp hmem
    exact ⟨List.mem_cons_self, hl.completes hc⟩

/-- A list is taken over that puts nothing back. -/
theorem Kept.list {s : Store} (hl : l.Kept s.items) (hnodup : (rows.map (·.id)).Nodup)
    (hrows : ∀ row ∈ rows, row.id ∈ l.finished → isActiveOperation row = false) :
    (l.observe rows (rows.filter s.completes)).Kept rows := by
  refine hl.observe ?_ ?_ ?_ ?_
  · intro row hrow ha hfin
    exact absurd (hrows row hrow hfin) (by simp [ha])
  · intro row hrow row' hrow' hid ha
    rwa [← List.inj_on_of_nodup_map hnodup hrow hrow' hid]
  · exact hnodup.sublist (List.filter_sublist.map _)
  · intro row hrow
    obtain ⟨hmem, hc⟩ := List.mem_filter.mp hrow
    exact ⟨hmem, hl.completes hc⟩

end Ledger

/-! ## The tab and the server -/

/-- The tab, the rows of the server, the answers on their way and the ledger. -/
structure World where
  tab : Tab := {}
  server : Uuid → Option AiOperation := fun _ => none
  served : ℕ → Option Answer := fun _ => none
  ledger : Ledger := {}

/-- What a step does. -/
inductive WorldAct where
  | tab (a : TabAct)
  /-- an operation is queued or moves on the server -/
  | move (row : AiOperation)
  /-- the server answers the request -/
  | serve (call : ℕ) (answer : Answer)

namespace World

/-- An operation is queued, and moves from queued to running to its end. -/
def moves (w : World) (row : AiOperation) : Bool :=
  match w.server row.id with
  | none => row.status == .queued
  | some old => row.taskId == old.taskId &&
      (old.status == .queued && row.status != .queued ||
        old.status == .running && !isActiveOperation row)

/-- An answer is made of rows as they are, those of a list of different operations. -/
def answers (w : World) : Call → Answer → Bool
  | .listOperations .., .rows rows =>
    decide (rows.map (·.id)).Nodup && rows.all fun row => w.server row.id == some row
  | .submit _, .operation item | .control _, .operation item => w.server item.id == some item
  | .clearHistory _, .done => true
  | _, .failed _ => true
  | _, _ => false

/-- No page calls `refresh`, and an answer is delivered as the server gave it. -/
def enabled (w : World) : TabAct → Bool
  | .refresh => false
  | .answer k a => w.served k == some a
  | _ => true

/-- The rows a step reports. -/
def reported (w : World) : TabAct → List AiOperation
  | .answer k a =>
    match w.tab.browser.calls k with
    | some c => w.tab.browser.store.reported c a
    | none => []
  | _ => []

/-- The tab has taken a step. A new login begins a new ledger. -/
def observe (a : TabAct) (t : Tab) (w : World) : World :=
  { w with
    tab := t
    ledger :=
      if t.browser.store.generation = w.tab.browser.store.generation then
        w.ledger.observe t.browser.store.items (w.reported a)
      else {} }

/-- One step. -/
def step (w : World) : WorldAct → Option World
  | .tab a => if w.enabled a then (w.tab.step a).map fun t => w.observe a t else none
  | .move row =>
    if w.moves row then some { w with server := Function.update w.server row.id (some row) }
    else none
  | .serve k a =>
    match w.tab.browser.calls k, w.served k with
    | some c, none =>
      if w.answers c a then some { w with served := Function.update w.served k (some a) }
      else none
    | _, _ => none

/-- No operation is accepted as queued or running that `items` has shown as ended: the answer
to a submission, a cancellation or a retry comes in time, or in another login. -/
def Timely (w : World) (a : WorldAct) : Prop :=
  ∀ k item c, a = .tab (.answer k (.operation item)) → w.tab.browser.calls k = some c →
    c.run = w.tab.browser.store.generation → isActiveOperation item = true →
      item.id ∉ w.ledger.finished

end World

/-- The tab and the server as a labelled system. -/
def worldSystem : System World WorldAct where
  init w := w = {}
  step := World.step

namespace World

/-- The operation has ended on the server. -/
def Ended (w : World) (x : Uuid) : Prop :=
  ∃ row, w.server x = some row ∧ isActiveOperation row = false

/-- What has ended stays as it is. -/
theorem Ended.move {w : World} {x : Uuid} {row : AiOperation} (h : w.Ended x)
    (hm : w.moves row = true) :
    Ended { w with server := Function.update w.server row.id (some row) } x := by
  obtain ⟨old, hold, ha⟩ := h
  by_cases hx : x = row.id
  · subst hx
    rw [moves, hold] at hm
    obtain ⟨tid, id, status⟩ := old
    cases status <;> simp_all [isActiveOperation]
  · exact ⟨old, (Function.update_of_ne hx _ _).trans hold, ha⟩

end World

/-! ## One list at a time -/

namespace Browser

/-- What a step of the browser that asks for no list and answers none keeps. -/
theorem quiet_of_step {b b' : Browser} {c : Act} (h : b.step c = some b')
    (hkept : Kept b b') (hrefresh : c ≠ .refresh) (hanswer : ∀ k a, c ≠ .answer k a) :
    b'.store.items = b.store.items ∧ b'.store.revision = b.store.revision ∧
      ∀ k run version since, b'.calls k = some (.listOperations run version since) →
        b.calls k = some (.listOperations run version since) := by
  -- a request that is no list
  have hsend : ∀ {b₁ : Browser} {c₁ : Call}, (∀ run v e, c₁ ≠ .listOperations run v e) →
      ∀ k run version since,
        (b₁.send c₁).calls k = some (.listOperations run version since) →
          b₁.calls k = some (.listOperations run version since) := by
    intro b₁ c₁ hne k run version since hk
    simp only [send] at hk
    by_cases hks : k = b₁.sent
    · rw [hks, Function.update_self] at hk
      exact absurd (Option.some.inj hk) (hne run version since)
    · rwa [Function.update_of_ne hks] at hk
  cases c with
  | start memberId =>
    rcases login_of_step h with ⟨-, hbegan⟩ | ⟨⟨-, hsame⟩, -⟩
    · exact absurd (hkept.generation.symm.trans hbegan.generation) (Nat.succ_ne_self _).symm
    · have hstore : b.store.start memberId = b.store := if_pos (hsame memberId rfl)
      obtain rfl := Option.some.inj h
      exact ⟨congrArg Store.items hstore, congrArg Store.revision hstore,
        fun k run version since hk => hk⟩
  | stop =>
    obtain rfl := Option.some.inj h
    exact absurd hkept.generation (Nat.succ_ne_self _)
  | refresh => exact absurd rfl hrefresh
  | submit =>
    obtain rfl := Option.some.inj h
    exact ⟨rfl, rfl, hsend (by simp)⟩
  | control id =>
    rw [step] at h
    split at h
    · cases h
    · obtain rfl := Option.some.inj h
      exact ⟨rfl, rfl, hsend (by simp)⟩
  | clearHistory =>
    rw [step] at h
    split at h
    · cases h
    · obtain rfl := Option.some.inj h
      exact ⟨rfl, rfl, hsend (by simp)⟩
  | answer k a => exact absurd rfl (hanswer k a)

/-- What is under way after an answer was under way before, and is another request. -/
theorem calls_of_answer {b b' : Browser} {k k' : ℕ} {a : Answer} {c : Call}
    (h : b.step (.answer k a) = some b') (hk : b'.calls k' = some c) :
    b.calls k' = some c ∧ k' ≠ k := by
  obtain ⟨c', store, events, -, -, rfl⟩ := answered_of_step h
  by_cases hkk : k' = k
  · rw [hkk] at hk
    cases (Function.update_self k none b.calls).symm.trans hk
  · exact ⟨(Function.update_of_ne hkk none b.calls).symm.trans hk, hkk⟩

end Browser

namespace Tab

/-- Every list asked for in this login is awaited by a poll loop. -/
def Awaited (t : Tab) : Prop :=
  ∀ k run version since, t.browser.calls k = some (.listOperations run version since) →
    run = t.browser.store.generation → ⟨run, .awaiting k⟩ ∈ t.loops

/-- A list is asked for by `poll`. -/
theorem Awaited.poll {t : Tab} (ht : t.Awaited) (run : ℕ)
    (hrun : run = t.browser.store.generation) : (t.poll run).Awaited := by
  intro k run' version since hk hcur
  simp only [Tab.poll, Browser.send] at hk hcur ⊢
  by_cases hks : k = t.browser.sent
  · rw [hks, hcur, hrun]
    exact List.mem_cons_self
  · rw [Function.update_of_ne hks] at hk
    exact List.mem_cons_of_mem _ (ht k run' version since hk hcur)

/-- The step lemma. -/
theorem Awaited.step {t t' : Tab} {a : TabAct} (hwf : Wf t) (ht : t.Awaited)
    (ha : a ≠ .refresh) (h : t.step a = some t') : t'.Awaited := by
  -- no list of an earlier login is of the next
  have hbegan : ∀ {b}, Browser.Began t.browser b → (t.halt b).Awaited := by
    intro b hb k run version since hk hcur
    have hk : t.browser.calls k = some (.listOperations run version since) := hb.calls ▸ hk
    have hcur : run = t.browser.store.generation + 1 := hcur.trans hb.generation
    have hle : run ≤ t.browser.store.generation := hwf.dated.le hk
    omega
  rcases step_cases h with ⟨c, b, -, hb, rfl | ⟨-, rfl⟩⟩ | ⟨c, b, hc, hne, hstep, hb, rfl⟩ |
    ⟨k, ans, b, -, hstep, hb, rfl⟩ | ⟨run, -, -, ⟨-, -, rfl⟩ | rfl⟩ |
    ⟨handle, l, -, hl, hw, rfl⟩
  · exact hbegan hb
  · exact (hbegan hb).poll _ rfl
  · obtain ⟨-, -, hcalls⟩ := Browser.quiet_of_step hstep hb (fun h => ha (hc.trans (h ▸ rfl))) hne
    intro k run version since hk hcur
    exact ht k run version since (hcalls k run version since hk) (hcur.trans hb.generation)
  · intro k' run version since hk hcur
    obtain ⟨hk, hkk⟩ := Browser.calls_of_answer hstep hk
    refine List.mem_map.mpr ⟨_, ht k' run version since hk (hcur.trans hb.generation), ?_⟩
    exact if_neg fun h => hkk (Stage.awaiting.inj h)
  · intro k run' version since hk hcur
    refine List.mem_cons_of_mem _ ((List.mem_erase_of_ne ?_).mpr (ht k run' version since hk hcur))
    exact fun h => nomatch (congrArg Loop.stage h : Stage.awaiting k = .resolved)
  · intro k run' version since hk hcur
    refine (List.mem_erase_of_ne ?_).mpr (ht k run' version since hk hcur)
    exact fun h => nomatch (congrArg Loop.stage h : Stage.awaiting k = .resolved)
  · refine Awaited.poll (t := { t with loops := t.loops.erase l }) ?_ _
      (hwf.looped.timed l hl handle hw).2
    intro k run' version since hk hcur
    refine (List.mem_erase_of_ne ?_).mpr (ht k run' version since hk hcur)
    rintro rfl
    cases hw

/-- **One list at a time.** Two lists asked for in this login are one. -/
theorem Awaited.unique {t : Tab} (hwf : Wf t) (ht : t.Awaited) {k k' version version' since
    since' : ℕ}
    (hk : t.browser.calls k
      = some (.listOperations t.browser.store.generation version since))
    (hk' : t.browser.calls k'
      = some (.listOperations t.browser.store.generation version' since')) : k = k' := by
  have hl := ht k _ version since hk rfl
  have hl' := ht k' _ version' since' hk' rfl
  by_contra hne
  have hzero := (hwf.looped.erase hl).2 rfl
  refine List.count_eq_zero.mp hzero
    (List.mem_map.mpr ⟨⟨t.browser.store.generation, .awaiting k'⟩, ?_, rfl⟩)
  refine (List.mem_erase_of_ne fun h => hne ?_).mpr hl'
  exact (Stage.awaiting.inj (congrArg Loop.stage h)).symm

end Tab

/-! ## The invariant -/

/-- The rows of an answer. -/
def Answer.shows : Answer → List AiOperation
  | .rows list => list
  | .operation item => [item]
  | .done | .failed _ => []

/-- What an answer does to the items, the revision and the ledger. -/
theorem answered_cases {s s' : Store} {c : Call} {a : Answer} {events : List Event}
    (h : Browser.answered s c a = some (s', events)) :
    ((∀ row ∈ s'.items, row ∈ s.items) ∧ s.reported c a = [] ∧ s'.revision = s.revision) ∨
    (∃ item, a = .operation item ∧ c.run = s.generation ∧
      s'.items = item :: s.items.filter (·.id != item.id) ∧
      s.reported c a = [item].filter s.completes ∧ s'.revision = s.revision + 1) ∨
    ∃ rows since, c = .listOperations s.generation s.revision since ∧ a = .rows rows ∧
      s'.items = rows ∧ s.reported c a = rows.filter s.completes ∧
      s'.revision = s.revision := by
  have hsame : ∀ {s' : Store}, s'.items = s.items → ∀ row ∈ s'.items, row ∈ s.items :=
    fun h row hrow => h ▸ hrow
  cases c <;> cases a <;> cases h
  case listOperations.rows run version since rows =>
    by_cases hv : run = s.generation ∧ version = s.revision
    · obtain ⟨rfl, rfl⟩ := hv
      exact .inr (.inr ⟨rows, since, rfl, rfl, Store.listed_items.trans (if_pos ⟨rfl, rfl⟩),
        if_neg (by simp), Store.listed_revision⟩)
    · refine .inl ⟨hsame (Store.listed_items.trans (if_neg hv)), if_pos ?_,
        Store.listed_revision⟩
      tauto
  case listOperations.failed => exact .inl ⟨hsame Store.failed_items, rfl, Store.failed_revision⟩
  case submit.operation run item =>
    rw [Store.submitted, Store.reported]
    by_cases hrun : run = s.generation
    · rw [if_pos hrun, if_pos hrun]
      exact .inr (.inl ⟨item, rfl, hrun, Store.accept_items, rfl, Store.accept_revision⟩)
    · rw [if_neg hrun, if_neg hrun]
      exact .inl ⟨fun row hrow => hrow, rfl, rfl⟩
  case submit.failed => exact .inl ⟨fun row hrow => hrow, rfl, rfl⟩
  case control.operation run item =>
    rw [Store.released_items, Store.released_revision, Store.controlled, Store.reported]
    by_cases hrun : run = s.generation
    · rw [if_pos hrun, if_pos hrun]
      exact .inr (.inl ⟨item, rfl, hrun, Store.accept_items, rfl, Store.accept_revision⟩)
    · rw [if_neg hrun, if_neg hrun]
      exact .inl ⟨fun row hrow => hrow, rfl, rfl⟩
  case control.failed =>
    exact .inl ⟨hsame (Store.released_items.trans Store.failed_items), rfl,
      Store.released_revision.trans Store.failed_revision⟩
  case clearHistory.done run =>
    rw [Store.released_items, Store.released_revision, Store.cleared]
    refine .inl ⟨fun row hrow => ?_, rfl, ?_⟩
    · by_cases hrun : run = s.generation
      · rw [if_pos hrun] at hrow
        exact List.mem_of_mem_filter hrow
      · rwa [if_neg hrun] at hrow
    · split <;> rfl
  case clearHistory.failed =>
    exact .inl ⟨hsame (Store.released_items.trans Store.failed_items), rfl,
      Store.released_revision.trans Store.failed_revision⟩

namespace World

/-- The request under way for the current list, with the rows on their way. -/
def Coming (w : World) (rows : List AiOperation) : Prop :=
  ∃ k since, w.tab.browser.calls k = some (.listOperations w.tab.browser.store.generation
    w.tab.browser.store.revision since) ∧ w.served k = some (.rows rows)

/-- What holds of every world reached in time. What an answer on its way shows as ended has
ended on the server, as has what the items have shown so; and the list that would be taken over
puts nothing back. -/
structure Wf (w : World) : Prop where
  tab : Tab.Wf w.tab
  counts : w.tab.browser.Counts
  awaited : w.tab.Awaited
  sent : ∀ k a, w.served k = some a → k < w.tab.browser.sent
  shows : ∀ k a, w.served k = some a → ∀ row ∈ a.shows, isActiveOperation row = false →
    w.Ended row.id
  nodup : ∀ k rows, w.served k = some (.rows rows) → (rows.map (·.id)).Nodup
  kept : w.ledger.Kept w.tab.browser.store.items
  ended : ∀ x ∈ w.ledger.finished, w.Ended x
  coming : ∀ rows, w.Coming rows → ∀ row ∈ rows, row.id ∈ w.ledger.finished →
    isActiveOperation row = false

theorem Wf.empty : Wf {} :=
  ⟨.empty, ⟨nofun, nofun, nofun, nofun⟩, nofun, nofun, nofun, nofun, .empty, nofun, nofun⟩

/-- An operation moves on the server. -/
theorem Wf.move {w : World} {row : AiOperation} (hw : Wf w) (hm : w.moves row = true) :
    Wf { w with server := Function.update w.server row.id (some row) } :=
  { hw with
    shows := fun k a hk row' hrow ha => (hw.shows k a hk row' hrow ha).move hm
    ended := fun x hx => (hw.ended x hx).move hm }

/-- The server answers. What it shows is as it is there. -/
theorem Wf.serve {w : World} {k : ℕ} {a : Answer} {c : Call} (hw : Wf w)
    (hc : w.tab.browser.calls k = some c) (ha : w.answers c a = true) :
    Wf { w with served := Function.update w.served k (some a) } := by
  have hserver : ∀ row ∈ a.shows, w.server row.id = some row := by
    intro row hrow
    cases c <;> cases a <;> simp_all [answers, Answer.shows]
  have hserved : ∀ {k' a'}, Function.update w.served k (some a) k' = some a' →
      k' = k ∧ a' = a ∨ w.served k' = some a' := by
    intro k' a' hk'
    by_cases hkk : k' = k
    · rw [hkk, Function.update_self] at hk'
      exact .inl ⟨hkk, (Option.some.inj hk').symm⟩
    · rw [Function.update_of_ne hkk] at hk'
      exact .inr hk'
  refine { hw with sent := ?_, shows := ?_, nodup := ?_, coming := ?_ }
  · intro k' a' hk'
    rcases hserved hk' with ⟨rfl, -⟩ | hk'
    · exact hw.tab.dated.fresh _ c hc
    · exact hw.sent k' a' hk'
  · intro k' a' hk' row hrow hend
    rcases hserved hk' with ⟨-, rfl⟩ | hk'
    · exact ⟨row, hserver row hrow, hend⟩
    · exact hw.shows k' a' hk' row hrow hend
  · intro k' rows hk'
    rcases hserved hk' with ⟨-, rfl⟩ | hk'
    · cases c <;> simp_all [answers]
    · exact hw.nodup k' rows hk'
  · rintro rows ⟨k', since, hcall, hk'⟩ row hrow hfin
    rcases hserved hk' with ⟨-, rfl⟩ | hk'
    · -- the server has it as ended
      obtain ⟨row', hrow', hend⟩ := hw.ended row.id hfin
      rwa [Option.some.inj ((hserver row hrow).symm.trans hrow')]
    · exact hw.coming rows ⟨k', since, hcall, hk'⟩ row hrow hfin

/-- The tab has taken a step within the login: what the step has to show. -/
theorem Wf.observed {w : World} {t : Tab} {reported : List AiOperation} (hw : Wf w)
    (htab : Tab.Wf t) (hcounts : t.browser.Counts) (hawaited : t.Awaited)
    (hsent : w.tab.browser.sent ≤ t.browser.sent)
    (hkept : (w.ledger.observe t.browser.store.items reported).Kept t.browser.store.items)
    (hended : ∀ row ∈ t.browser.store.items, isActiveOperation row = false → w.Ended row.id)
    (hcoming : ∀ rows, Coming { w with tab := t } rows →
      w.Coming rows ∧ ∀ row ∈ t.browser.store.items, row ∈ w.tab.browser.store.items) :
    Wf { w with tab := t, ledger := w.ledger.observe t.browser.store.items reported } := by
  refine ⟨htab, hcounts, hawaited, fun k a hk => (hw.sent k a hk).trans_le hsent, hw.shows,
    hw.nodup, hkept, ?_, ?_⟩
  · intro x hx
    rcases Ledger.mem_finished_observe.mp hx with ⟨row, hrow, ha, rfl⟩ | hx
    · exact hended row hrow ha
    · exact hw.ended x hx
  · intro rows hrows row hrow hfin
    obtain ⟨hbefore, hsub⟩ := hcoming rows hrows
    refine hw.coming rows hbefore row hrow ?_
    rcases Ledger.mem_finished_observe.mp hfin with ⟨row', hrow', ha, hid⟩ | hfin
    · rw [← hid]
      exact hw.kept.ended row' (hsub row' hrow') ha
    · exact hfin

/-- A step that shows nothing new and takes no list over. -/
theorem Wf.quiet {w : World} {t : Tab} (hw : Wf w) (htab : Tab.Wf t)
    (hcounts : t.browser.Counts) (hawaited : t.Awaited)
    (hsent : w.tab.browser.sent ≤ t.browser.sent)
    (hsub : ∀ row ∈ t.browser.store.items, row ∈ w.tab.browser.store.items)
    (hgeneration : t.browser.store.generation = w.tab.browser.store.generation)
    (hrevision : t.browser.store.revision = w.tab.browser.store.revision)
    (hcalls : ∀ k run version since,
      t.browser.calls k = some (.listOperations run version since) →
        w.tab.browser.calls k = some (.listOperations run version since) ∨
          k = w.tab.browser.sent) :
    Wf { w with tab := t, ledger := w.ledger.observe t.browser.store.items [] } := by
  refine hw.observed htab hcounts hawaited hsent (hw.kept.sublist hsub) ?_ ?_
  · intro row hrow ha
    exact hw.ended row.id (hw.kept.ended row (hsub row hrow) ha)
  · rintro rows ⟨k, since, hcall, hserved⟩
    refine ⟨⟨k, since, ?_, hserved⟩, hsub⟩
    rw [← hgeneration, ← hrevision]
    rcases hcalls k _ _ _ hcall with hcall | rfl
    · exact hcall
    · exact absurd (hw.sent _ _ hserved) (lt_irrefl _)

/-- An answer is delivered. -/
theorem Wf.deliver {w : World} {t : Tab} {b : Browser} {k : ℕ} {a : Answer} (hw : Wf w)
    (htab : Tab.Wf t) (hcounts : t.browser.Counts) (hawaited : t.Awaited)
    (hb : t.browser = b) (hstep : w.tab.browser.step (.answer k a) = some b)
    (hserved : w.served k = some a) (htimely : w.Timely (.tab (.answer k a))) :
    Wf { w with tab := t, ledger :=
      w.ledger.observe t.browser.store.items (w.reported (.answer k a)) } := by
  obtain ⟨c, store, events, hc, hanswered, rfl⟩ := Browser.answered_of_step hstep
  have hcalls : ∀ k' c', t.browser.calls k' = some c' →
      w.tab.browser.calls k' = some c' ∧ k' ≠ k := by
    rw [hb]
    exact fun k' c' h => Browser.calls_of_answer hstep h
  have hreported : w.reported (.answer k a) = w.tab.browser.store.reported c a := by
    simp only [reported, hc]
  have hgeneration : t.browser.store.generation = w.tab.browser.store.generation := by
    rw [hb]
    exact congrArg Prod.fst (login_of_answered hanswered)
  have hsent : w.tab.browser.sent ≤ t.browser.sent := by
    rw [hb]
  rw [hreported]
  rcases answered_cases hanswered with ⟨hsub, hrep, hrev⟩ |
    ⟨item, rfl, hrun, hitems, hrep, hrev⟩ | ⟨rows, since, rfl, rfl, hitems, hrep, hrev⟩
  · rw [hrep]
    refine hw.quiet htab hcounts hawaited hsent ?_ hgeneration ?_ ?_
    · rw [hb]
      exact hsub
    · rw [hb]
      exact hrev
    · exact fun k' run version since h => .inl (hcalls k' _ h).1
  · have hitem := htimely k item c rfl hc hrun
    have hitems : t.browser.store.items
        = item :: w.tab.browser.store.items.filter (·.id != item.id) := by
      rw [hb]
      exact hitems
    rw [hrep]
    refine hw.observed htab hcounts hawaited hsent ?_ ?_ ?_
    · rw [hitems]
      exact hw.kept.accept hitem
    · rw [hitems]
      intro row hrow ha
      rcases List.mem_cons.mp hrow with rfl | hrow
      · exact hw.shows k _ hserved _ List.mem_cons_self ha
      · exact hw.ended row.id (hw.kept.ended row (List.mem_of_mem_filter hrow) ha)
    · -- the revision has passed every list under way
      rintro rows ⟨k', since, hcall, -⟩
      have hle : w.tab.browser.store.revision = t.browser.store.revision + _ :=
        hw.counts.revision k' _ _ _ (hcalls k' _ hcall).1
      have hrev : t.browser.store.revision = w.tab.browser.store.revision + 1 := by
        rw [hb]
        exact hrev
      omega
  · have hitems : t.browser.store.items = rows := by
      rw [hb]
      exact hitems
    rw [hrep]
    refine hw.observed htab hcounts hawaited hsent ?_ ?_ ?_
    · rw [hitems]
      exact hw.kept.list (hw.nodup k rows hserved) (hw.coming rows ⟨k, since, hc, hserved⟩)
    · rw [hitems]
      exact hw.shows k _ hserved
    · -- it was the only list of this login
      rintro rows' ⟨k', since', hcall, -⟩
      obtain ⟨hcall, hne⟩ := hcalls k' _ hcall
      dsimp only at hcall
      rw [hgeneration] at hcall
      exact absurd (hw.awaited.unique hw.tab hcall hc) hne

/-- The tab takes a step. -/
theorem Wf.tab_step {w : World} {t : Tab} {a : TabAct} (hw : Wf w)
    (henabled : w.enabled a = true) (htimely : w.Timely (.tab a)) (h : w.tab.step a = some t) :
    Wf (w.observe a t) := by
  have htab := hw.tab.step h
  have hcounts : t.browser.Counts := by
    refine Steps.invariant (I := Browser.Counts) hw.counts ?_ (Tab.browser_steps h)
    exact fun b c b' hb _ hc => hb.step hc
  have hrefresh : a ≠ .refresh := by
    rintro rfl
    cases henabled
  have hawaited := hw.awaited.step hw.tab hrefresh h
  -- a new login has asked for no list yet
  have hbegan : t.browser.store.generation = w.tab.browser.store.generation + 1 →
      t.browser.store.items = [] → (∀ k c, t.browser.calls k = some c →
        w.tab.browser.calls k = some c ∨ k = w.tab.browser.sent) →
      w.tab.browser.sent ≤ t.browser.sent → Wf (w.observe a t) := by
    intro hgeneration hitems hcalls hsent
    rw [observe, if_neg (by omega)]
    refine ⟨htab, hcounts, hawaited, fun k a hk => (hw.sent k a hk).trans_le hsent, hw.shows,
      hw.nodup, ?_, nofun, fun rows _ row _ hfin => nomatch hfin⟩
    exact hitems.symm ▸ Ledger.Kept.empty
  -- in the same login
  have hsame : t.browser.store.generation = w.tab.browser.store.generation →
      w.observe a t = { w with
        tab := t, ledger := w.ledger.observe t.browser.store.items (w.reported a) } := by
    intro hgeneration
    rw [observe, if_pos hgeneration]
  have hsend : ∀ {b : Browser} {c : Call} {k c'}, (b.send c).calls k = some c' →
      b.calls k = some c' ∨ k = b.sent := by
    intro b c k c' hk
    simp only [Browser.send] at hk
    by_cases hks : k = b.sent
    · exact .inr hks
    · rw [Function.update_of_ne hks] at hk
      exact .inl hk
  rcases Tab.step_cases h with ⟨c, b, -, hb, rfl | ⟨-, rfl⟩⟩ |
    ⟨c, b, rfl, hne, hstep, hb, rfl⟩ | ⟨k, ans, b, rfl, hstep, hb, rfl⟩ |
    ⟨run, rfl, -, ⟨-, -, rfl⟩ | rfl⟩ | ⟨handle, l, rfl, -, -, rfl⟩
  · refine hbegan hb.generation hb.items (fun k c hk => .inl (hb.calls ▸ hk)) hb.sent.ge
  · refine hbegan hb.generation hb.items (fun k c hk => ?_) (hb.sent.ge.trans (Nat.le_succ _))
    rcases hsend hk with hk | hk
    · exact .inl (hb.calls ▸ hk)
    · exact .inr (hk.trans hb.sent)
  · obtain ⟨hitems, hrevision, hcalls⟩ :=
      Browser.quiet_of_step hstep hb (fun h => hrefresh (h ▸ rfl)) hne
    have hreported : w.reported c.tab = [] := by
      cases c with
      | answer k ans => exact absurd rfl (hne k ans)
      | _ => rfl
    rw [hsame hb.generation, hreported]
    exact hw.quiet htab hcounts hawaited hb.sent (fun row hrow => hitems ▸ hrow) hb.generation
      hrevision fun k run v e hk => .inl (hcalls k run v e hk)
  · have hserved : w.served k = some ans := beq_iff_eq.mp henabled
    rw [hsame hb.generation]
    exact hw.deliver htab hcounts hawaited rfl hstep hserved htimely
  · rw [hsame rfl]
    exact hw.quiet htab hcounts hawaited le_rfl (fun row hrow => hrow) rfl rfl
      fun k run v e hk => .inl hk
  · rw [hsame rfl]
    exact hw.quiet htab hcounts hawaited le_rfl (fun row hrow => hrow) rfl rfl
      fun k run v e hk => .inl hk
  · rw [hsame rfl]
    exact hw.quiet htab hcounts hawaited (Nat.le_succ _) (fun row hrow => hrow) rfl rfl
      fun k run v e hk => hsend hk

/-- The step lemma. -/
theorem Wf.step {w w' : World} {a : WorldAct} (hw : Wf w) (ha : w.Timely a)
    (h : w.step a = some w') : Wf w' := by
  cases a with
  | tab a =>
    rw [World.step] at h
    split at h
    · rename_i henabled
      obtain ⟨t, ht, rfl⟩ := Option.map_eq_some_iff.mp h
      exact hw.tab_step henabled ha ht
    · cases h
  | move row =>
    rw [World.step] at h
    split at h
    · rename_i hm
      obtain rfl := Option.some.inj h
      exact hw.move hm
    · cases h
  | serve k a =>
    rw [World.step] at h
    split at h
    · rename_i c hc hs
      split at h
      · rename_i ha
        obtain rfl := Option.some.inj h
        exact hw.serve hc ha
      · cases h
    · cases h

/-- A late answer puts an operation back that was shown as ended. -/
theorem not_monotone_of_late {w w' : World} {a : WorldAct} (ha : ¬ w.Timely a)
    (h : w.step a = some w') : ¬ w'.ledger.Monotone w'.tab.browser.store.items := by
  simp only [Timely, not_forall, not_not] at ha
  obtain ⟨k, item, c, rfl, hc, hrun, hactive, hfin⟩ := ha
  rw [World.step] at h
  split at h
  · obtain ⟨t, ht, rfl⟩ := Option.map_eq_some_iff.mp h
    rw [Tab.step] at ht
    obtain ⟨b, hb, rfl⟩ := Option.map_eq_some_iff.mp ht
    obtain ⟨c', store, events, hc', hanswered, rfl⟩ := Browser.answered_of_step hb
    obtain rfl := Option.some.inj (hc.symm.trans hc')
    have hgeneration : store.generation = w.tab.browser.store.generation :=
      congrArg Prod.fst (login_of_answered hanswered)
    have hitems : item ∈ store.items := by
      cases c with
      | listOperations => cases hanswered
      | clearHistory => cases hanswered
      | submit run =>
        cases hanswered
        have hrun : run = w.tab.browser.store.generation := hrun
        rw [Store.submitted, if_pos hrun]
        exact List.mem_cons_self
      | control run =>
        cases hanswered
        have hrun : run = w.tab.browser.store.generation := hrun
        rw [Store.released_items, Store.controlled, if_pos hrun]
        exact List.mem_cons_self
    intro hm
    refine hm.shown item hitems hactive ?_
    rw [observe, if_pos hgeneration]
    exact Ledger.mem_finished_observe.mpr (.inr hfin)
  · cases h

/-- Every completion the store announces is in the ledger. -/
def Recorded (w : World) : Prop :=
  ∀ x, w.tab.browser.store.Announces x → x ∈ w.ledger.completions

/-- A step of the tab records what it announces. -/
theorem Recorded.tab_step {w : World} {t : Tab} {a : TabAct} (hw : w.Recorded)
    (h : w.tab.step a = some t) : (w.observe a t).Recorded := by
  intro x hx
  have hsame : t.browser.store.generation = w.tab.browser.store.generation →
      (w.tab.browser.store.Announces x ∨ x ∈ (w.reported a).map (·.id)) →
        x ∈ (w.observe a t).ledger.completions := by
    intro hgeneration hold
    rw [observe, if_pos hgeneration, Ledger.observe, List.mem_append, List.mem_reverse]
    exact hold.symm.imp_right (hw x)
  rcases Tab.step_cases h with ⟨c, b, hstep, hb, rfl | ⟨-, rfl⟩⟩ |
    ⟨c, b, rfl, hne, hstep, hb, rfl⟩ | ⟨k, ans, b, rfl, hstep, hb, rfl⟩ |
    ⟨run, rfl, -, ⟨-, -, rfl⟩ | rfl⟩ | ⟨handle, l, rfl, -, -, rfl⟩
  · have hlogin := (Browser.announces_of_step hstep hx).1
    exact absurd (hb.generation.symm.trans hlogin) (Nat.succ_ne_self _)
  · have hlogin := (Browser.announces_of_step hstep hx).1
    exact absurd (hb.generation.symm.trans hlogin) (Nat.succ_ne_self _)
  · obtain ⟨hlogin, hold | ⟨k, ans, -, rfl, -⟩⟩ := Browser.announces_of_step hstep hx
    · exact hsame hlogin (.inl hold)
    · exact absurd rfl (hne k ans)
  · obtain ⟨hlogin, hold | ⟨k', ans', c, hc, hcall, hmem⟩⟩ := Browser.announces_of_step hstep hx
    · exact hsame hlogin (.inl hold)
    · cases hc
      refine hsame hlogin (.inr ?_)
      rw [reported, hcall]
      exact hmem
  · exact hsame rfl (.inl hx)
  · exact hsame rfl (.inl hx)
  · exact hsame rfl (.inl hx)

theorem Recorded.step {w w' : World} {a : WorldAct} (hw : w.Recorded)
    (h : w.step a = some w') : w'.Recorded := by
  cases a with
  | tab a =>
    rw [World.step] at h
    split at h
    · obtain ⟨t, ht, rfl⟩ := Option.map_eq_some_iff.mp h
      exact hw.tab_step ht
    · cases h
  | move row =>
    rw [World.step] at h
    split at h
    · obtain rfl := Option.some.inj h
      exact hw
    · cases h
  | serve k a =>
    rw [World.step] at h
    split at h
    · split at h
      · obtain rfl := Option.some.inj h
        exact hw
      · cases h
    · cases h

/-- **What the store announces it has reported**: every completion in `updates` or `notice` is in
the ledger. -/
theorem recorded {w : World} (hw : Reach worldSystem (fun _ _ => True) w) : w.Recorded := by
  refine hw.invariant (I := Recorded) ?_ fun w a w' _ hi _ h => hi.step h
  rintro w rfl x (⟨k, row, hk, -⟩ | ⟨row, hrow, -⟩)
  · cases hk
  · cases hrow

/-- The run lemma. -/
theorem wf {w : World} (hw : Reach worldSystem Timely w) : Wf w := by
  refine Reach.invariant (I := Wf) ?_ ?_ hw
  · rintro w rfl
    exact .empty
  · exact fun w a w' _ hi ha h => hi.step ha h

end World

/-- **Completion is monotone and reported once exactly while no answer is late.** In every run
in which no submission, cancellation or retry of the login is answered with an operation as
queued or running that `items` has shown as ended, `items` never shows an operation as queued or
running that it has shown as ended, and `updates` and `notice` are assigned for the completion
of an operation at most once. A step that gives such an answer breaks this at once. -/
theorem completion_monotone_iff (w : World) (hw : Reach worldSystem World.Timely w) :
    w.ledger.Monotone w.tab.browser.store.items ∧
    ∀ a w', w.step a = some w' →
      (w'.ledger.Monotone w'.tab.browser.store.items ↔ w.Timely a) := by
  have hwf := World.wf hw
  refine ⟨hwf.kept.toMonotone, fun a w' h => ⟨fun hm => ?_, fun ha => ?_⟩⟩
  · by_contra ha
    exact World.not_monotone_of_late ha h hm
  · exact (hwf.step ha h).kept.toMonotone

namespace World

/-- A submission is answered slowly: the operation is shown as running and as succeeded before
the answer, which has it as queued, is delivered. -/
def slow : List WorldAct :=
  [.tab (.start (some 1)), .tab .submit, .move ⟨1, 1, .queued⟩,
    .serve 1 (.operation ⟨1, 1, .queued⟩), .move ⟨1, 1, .running⟩,
    .serve 0 (.rows [⟨1, 1, .running⟩]), .tab (.answer 0 (.rows [⟨1, 1, .running⟩])),
    .tab (.resume 1), .tab (.fire 0), .move ⟨1, 1, .succeeded⟩,
    .serve 2 (.rows [⟨1, 1, .succeeded⟩]), .tab (.answer 2 (.rows [⟨1, 1, .succeeded⟩]))]

/-- The answer is delivered, and the next list. -/
def late : List WorldAct :=
  [.tab (.answer 1 (.operation ⟨1, 1, .queued⟩)), .tab (.resume 1), .tab (.fire 1),
    .serve 3 (.rows [⟨1, 1, .succeeded⟩]), .tab (.answer 3 (.rows [⟨1, 1, .succeeded⟩]))]

/-- A check for the condition. -/
def timely (w : World) : WorldAct → Bool
  | .tab (.answer _ (.operation item)) => !isActiveOperation item || item.id ∉ w.ledger.finished
  | _ => true

theorem timely_of_check {w : World} {a : WorldAct} (h : w.timely a = true) : w.Timely a := by
  rintro k item c rfl - - ha
  simpa [timely, ha] using h

end World

/-- Before the slow answer everything is as claimed, and with it no more. -/
theorem completion_monotone_iff_slow :
    ∃ w, Reach worldSystem World.Timely w ∧ w.ledger.completions = [1] ∧
      w.ledger.Monotone w.tab.browser.store.items ∧
      ∀ w', w.step (.tab (.answer 1 (.operation ⟨1, 1, .queued⟩))) = some w' →
        ¬ w'.ledger.Monotone w'.tab.browser.store.items := by
  have hrun : (worldSystem.runIf World.timely {} World.slow).map (fun w =>
      (w.ledger, w.tab.browser.calls 1, w.tab.browser.store.generation))
        = some (⟨[1], [1]⟩, some (.submit 1), 1) := by decide
  obtain ⟨w, hw, hfacts⟩ := Option.map_eq_some_iff.mp hrun
  obtain ⟨hledger, hcall, hgeneration⟩ : w.ledger = ⟨[1], [1]⟩ ∧
      w.tab.browser.calls 1 = some (.submit 1) ∧ w.tab.browser.store.generation = 1 := by
    simpa using hfacts
  have hsteps := steps_of_runIf (P := World.Timely) (fun _ _ => World.timely_of_check) hw
  have hreach : Reach worldSystem World.Timely w := Reach.append (.init rfl) hsteps
  obtain ⟨hm, hstep⟩ := completion_monotone_iff w hreach
  refine ⟨w, hreach, congrArg Ledger.completions hledger, hm, fun w' h hm' => ?_⟩
  refine (hstep _ w' h).mp hm' 1 _ _ rfl hcall hgeneration.symm rfl ?_
  rw [hledger]
  exact List.mem_cons_self

/-- A slow answer to a submission puts a succeeded operation back as queued, and its completion
is reported again. -/
theorem completion_not_monotone :
    (¬ ∀ w, Reach worldSystem (fun _ _ => True) w →
      ∀ row ∈ w.tab.browser.store.items, isActiveOperation row = true →
        row.id ∉ w.ledger.finished) ∧
    ¬ ∀ w, Reach worldSystem (fun _ _ => True) w → w.ledger.completions.Nodup := by
  have hput : (worldSystem.run {} (World.slow ++ World.late.take 1)).map (fun w =>
      w.tab.browser.store.items.any fun row =>
        isActiveOperation row && decide (row.id ∈ w.ledger.finished)) = some true := by decide
  have hagain : (worldSystem.run {} (World.slow ++ World.late)).map (fun w =>
      decide (¬ w.ledger.completions.Nodup)) = some true := by decide
  constructor
  · intro h
    obtain ⟨w, hw, hp⟩ := exists_reach_of_run (M := worldSystem) (P := fun _ _ => True) rfl
      (fun _ _ _ => trivial) hput
    obtain ⟨row, hrow, hput⟩ := List.any_eq_true.mp hp
    obtain ⟨ha, hfin⟩ := Bool.and_eq_true_iff.mp hput
    exact h w hw row hrow ha (of_decide_eq_true hfin)
  · intro h
    obtain ⟨w, hw, hp⟩ := exists_reach_of_run (M := worldSystem) (P := fun _ _ => True) rfl
      (fun _ _ _ => trivial) hagain
    exact of_decide_eq_true hp (h w hw)

end DouyinCaption.QueueStore

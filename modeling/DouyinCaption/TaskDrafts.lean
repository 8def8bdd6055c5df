import DouyinCaption.Handling

/-!
# Drafts

Three requests write a task's name, source text and settings: `create_task`, `update_task`
and `copy_task`. The schema of the first keeps the bounds; the schema of the second accepts
`null` and a blank source text; nothing checks the third. No schema refuses U+0000, which the
columns of text have no place for. A run here is a sequence of such requests, each served at
once.
-/

namespace DouyinCaption

open Tables Runs

/-! ## Valid tasks -/

/-- A text the schemas' `strip_whitespace` leaves nothing of. -/
def Blank (s : Text) : Prop := stripWhitespace s = []

instance (s : Text) : Decidable (Blank s) := inferInstanceAs (Decidable (_ = _))

theorem blank_iff {s : Text} : Blank s ↔ ∀ c ∈ s, isWhiteSpace c = true := stripBy_eq_nil_iff s

/-- A text the schemas have stripped is not blank. -/
theorem ShortText.not_blank {max : ℕ} (s : ShortText max) : ¬ Blank s.1 := fun h =>
  s.2.2.1 (s.2.1.symm.trans h)

/-- What the API promises of a stored task. -/
structure RewriteTask.Valid (t : RewriteTask) : Prop where
  name : ¬ Blank t.name
  nameLength : t.name.length ≤ 160
  source : ¬ Blank t.sourceText
  sourceLength : t.sourceText.length ≤ 20000
  settings : t.creativeSettings ≠ none

/-! ## Runs of the three requests -/

/-- The requests that write a task's fields. -/
inductive TaskRequest where
  | create (payload : TaskCreate)
  | update (taskId : Uuid) (payload : TaskUpdate)
  | copy (taskId : Uuid)

def TaskRequest.request : TaskRequest → Request
  | .create payload => .createTask payload
  | .update taskId payload => .updateTask taskId payload
  | .copy taskId => .copyTask taskId

/-- A request by a member, with the time and the identifiers it is served with. -/
structure TaskCall where
  member : Uuid
  stamp : Stamp
  request : TaskRequest

namespace TaskCall

variable (cfg : Config) (c : TaskCall) (db : Db)

/-- Serving the request. -/
def serve : Db × Response := handle cfg db c.member c.stamp c.request.request

/-- The identifier it draws is new. -/
def Fresh : Prop := db.tasks.get (c.stamp.id 0) = none

instance : Decidable (c.Fresh db) := inferInstanceAs (Decidable (_ = none))

/-- The request is served as the API promises. -/
structure Served : Prop where
  /-- a failure is one of the API's own -/
  handled : ∀ e, (c.serve cfg db).2 = .error e → e.statusCode ≠ 500
  /-- the stored tasks are valid -/
  valid : ∀ t ∈ (c.serve cfg db).1.tasks, t.Valid
  /-- a task that is there can be copied -/
  copied : ∀ taskId t, c.request = .copy taskId → db.ownedTask taskId c.member = .ok t →
    ∃ reply, (c.serve cfg db).2 = .ok reply

end TaskCall

/-- A field that its column of text takes: it is not `null`, and a value has no U+0000. -/
def Field.Fits {α : Type} (f : α → Text) : Field α → Prop
  | .unset => True
  | .null => False
  | .value a => Storable (f a)

/-- An update that gives every field it names a sensible value. -/
structure TaskUpdate.Sensible (p : TaskUpdate) : Prop where
  name : p.name.Fits (·.1)
  source : p.sourceText.Fits (·.1)
  settings : p.creativeSettings ≠ .null
  notBlank : ∀ s, p.sourceText = .value s → ¬ Blank s.1

/-- The request does not reach a check that is missing: a new task has no U+0000 in its texts,
an update of a task that can be edited is sensible, and the name of a task that is copied has
room for the suffix. -/
def TaskCall.Meets (c : TaskCall) (db : Db) : Prop :=
  match c.request with
  | .create payload => Storable payload.name.1 ∧ Storable payload.sourceText.1
  | .update taskId payload =>
      ∀ t, db.ownedTask taskId c.member = .ok t → t.state = .draft →
        db.hasActive t.id = false → payload.Sensible
  | .copy taskId => ∀ t, db.ownedTask taskId c.member = .ok t → t.name.length ≤ 155

/-- Sequences of the three requests, from any database whose tasks are valid. -/
def drafts (cfg : Config) : System Db TaskCall where
  init db := db.Consistent ∧ ∀ t ∈ db.tasks, t.Valid
  step db c := if c.Fresh db then some (c.serve cfg db).1 else none

theorem step_drafts {cfg : Config} {db : Db} {c : TaskCall} (h : c.Fresh db) :
    (drafts cfg).step db c = some (c.serve cfg db).1 :=
  if_pos h

/-! ## What each request leaves -/

section Requests

variable {cfg : Config} {db : Db} {m : Uuid} {st : Stamp}

/-- The unique indexes do not read the tasks. -/
theorem Db.Consistent.withTasks (h : db.Consistent) (tasks : Table RewriteTask) :
    { db with tasks := tasks }.Consistent :=
  ⟨h.active, h.keys, h.presetNames, h.sequences, h.lockOrders⟩

theorem assign_getD {α : Type} [DecidableEq α] (loaded new : α) :
    (assign loaded new).getD loaded = new := by
  rw [assign]
  split
  · rename_i h
    exact h.symm
  · rfl

@[simp] theorem TaskChange.apply_name (c : TaskChange) (now : ℕ) (t : RewriteTask) :
    (c.apply now t).name = c.name.getD t.name := by
  rw [apply]
  split
  · rename_i h
    rw [h]
    rfl
  · rfl

/-- What a field of an update leaves in its column. -/
def Field.over {α β : Type} (loaded : β) (f : α → β) : Field α → β
  | .value a => f a
  | _ => loaded

section Column

variable {α : Type} {f : α → Text} {x : Field α}

theorem Field.column_of_fits (loaded : Text) (h : x.Fits f) :
    ∃ c, x.column loaded f = .ok c ∧ c.getD loaded = x.over loaded f := by
  cases x with
  | unset => exact ⟨none, rfl, rfl⟩
  | null => exact h.elim
  | value a => exact ⟨assign loaded (f a), if_pos h, assign_getD _ _⟩

theorem Field.column_of_not_fits (loaded : Text) (h : ¬ x.Fits f) :
    x.column loaded f = .error internalServerError := by
  cases x with
  | unset => exact absurd trivial h
  | null => rfl
  | value a => exact if_neg h

end Column

/-- A field reaches a column that refuses it. -/
theorem finishUpdateTask_refused {t : RewriteTask} {payload : TaskUpdate} (hd : t.state = .draft)
    (h : ¬ payload.name.Fits (·.1) ∨ ¬ payload.sourceText.Fits (·.1)) :
    finishUpdateTask st t payload = .error internalServerError := by
  have hensure : ensure (t.state = .draft) taskNotEditable = .ok () := if_pos hd
  by_cases hname : payload.name.Fits (·.1)
  · obtain ⟨name, hn, -⟩ := Field.column_of_fits t.name hname
    have hs := Field.column_of_not_fits t.sourceText (h.resolve_left (not_not.mpr hname))
    simp only [finishUpdateTask, hensure, hn, hs]
    rfl
  · simp only [finishUpdateTask, hensure, Field.column_of_not_fits t.name hname]
    rfl

/-- What an update of a draft without those two writes. -/
theorem finishUpdateTask_ok (st : Stamp) {t : RewriteTask} {payload : TaskUpdate}
    (hd : t.state = .draft) (hname : payload.name.Fits (·.1))
    (hsource : payload.sourceText.Fits (·.1)) :
    ∃ change : TaskChange,
      finishUpdateTask st t payload =
        .ok { writes := [.setTask t.id change st.now], reply := taskReply t.id } ∧
      change.name.getD t.name = payload.name.over t.name (·.1) ∧
      change.sourceText.getD t.sourceText = payload.sourceText.over t.sourceText (·.1) ∧
      change.creativeSettings = payload.creativeSettings.nullable t.creativeSettings := by
  obtain ⟨name, hn, hn'⟩ := Field.column_of_fits t.name hname
  obtain ⟨source, hs, hs'⟩ := Field.column_of_fits t.sourceText hsource
  have hensure : ensure (t.state = .draft) taskNotEditable = .ok () := if_pos hd
  refine ⟨{
    name := name, sourceText := source
    creativeSettings := payload.creativeSettings.nullable t.creativeSettings }, ?_, hn', hs', rfl⟩
  simp only [finishUpdateTask, hensure, hn, hs]
  rfl

/-- A request that writes the tasks and answers with one of them. -/
theorem Pending.complete_task {p : Pending} {ws : List Write} {tasks : Table RewriteTask}
    {id : Uuid} {t : RewriteTask}
    (hf : p.finish cfg db m st = .ok { writes := ws, reply := taskReply id })
    (hc : db.Consistent) (hw : ws.foldlM Write.apply db = some { db with tasks := tasks })
    (ht : tasks.get id = some t) :
    p.complete cfg db m st = ({ db with tasks := tasks }, .task <$> t.detail) := by
  have hcommit : db.commit ws = some { db with tasks := tasks } :=
    Db.commit_eq_some.mpr ⟨hw, hc.withTasks _⟩
  simp only [Pending.complete, hf, hcommit, taskReply, ht]

/-- The answer with a valid task. -/
theorem RewriteTask.detail_of_settings {t : RewriteTask} (h : t.creativeSettings ≠ none) :
    ∃ detail, t.detail = .ok detail := by
  rcases hs : t.creativeSettings with _ | settings
  · exact absurd hs h
  · exact ⟨_, by rw [RewriteTask.detail, hs]⟩

/-- Adding a valid task under a new identifier. -/
theorem Pending.complete_addTask (cfg : Config) (m : Uuid) (st : Stamp) (p : Pending)
    {t : RewriteTask}
    (hf : p.finish cfg db m st = .ok { writes := [.addTask t], reply := taskReply t.id })
    (hc : db.Consistent) (hfresh : db.tasks.get t.id = none) (ht : t.Valid)
    (hv : ∀ t ∈ db.tasks, t.Valid) :
    ∃ reply, (p.complete cfg db m st).2 = .ok reply ∧
      ∀ t ∈ (p.complete cfg db m st).1.tasks, t.Valid := by
  obtain ⟨detail, hd⟩ := RewriteTask.detail_of_settings ht.settings
  rw [Pending.complete_task hf hc rfl (Table.get_insert_self hfresh), hd]
  refine ⟨_, rfl, fun t' ht' => ?_⟩
  rcases Table.mem_of_mem_insert ht' with h | rfl
  · exact hv t' h
  · exact ht

end Requests

/-! ## The served requests -/

namespace TaskCall

variable {cfg : Config} {c : TaskCall} {db : Db}

/-- A request that is refused is served. -/
theorem served_of_error {e : ApiError} (hv : ∀ t ∈ db.tasks, t.Valid)
    (h : c.serve cfg db = (db, .error e)) (he : e.statusCode ≠ 500)
    (hcopy : ∀ taskId, c.request = .copy taskId → db.ownedTask taskId c.member = .error e) :
    c.Served cfg db where
  handled e' h' := by
    rw [h] at h'
    obtain rfl := Except.error.inj h'
    exact he
  valid := by rw [h]; exact hv
  copied taskId t hr ht := by
    rw [hcopy taskId hr] at ht
    cases ht

/-- A request that is answered and leaves valid tasks is served. -/
theorem served_of_ok (reply : Reply) (h : (c.serve cfg db).2 = .ok reply)
    (hv : ∀ t ∈ (c.serve cfg db).1.tasks, t.Valid) : c.Served cfg db where
  handled e h' := by
    rw [h] at h'
    cases h'
  valid := hv
  copied _ _ _ _ := ⟨reply, h⟩

/-- An answer 500 is none of the API's own. -/
theorem not_served (db' : Db) (h : c.serve cfg db = (db', .error internalServerError)) :
    ¬ c.Served cfg db := fun hs =>
  hs.handled _ (congrArg Prod.snd h) rfl

/-! ### create_task -/

theorem served_create_iff {payload : TaskCreate} (hr : c.request = .create payload)
    (hc : db.Consistent) (hv : ∀ t ∈ db.tasks, t.Valid) (hfresh : c.Fresh db) :
    c.Served cfg db ↔ Storable payload.name.1 ∧ Storable payload.sourceText.1 := by
  have hserve : c.serve cfg db =
      (Pending.createTask payload).complete cfg db c.member c.stamp := by
    rw [serve, hr]
    rfl
  constructor
  · intro h
    by_contra hnul
    have hfinish : (Pending.createTask payload).finish cfg db c.member c.stamp =
        .error internalServerError := if_pos (not_and_or.mp hnul)
    refine not_served db ?_ h
    rw [hserve, Pending.complete, hfinish]
  · intro h
    obtain ⟨reply, hok, hvalid⟩ := Pending.complete_addTask cfg c.member c.stamp
      (.createTask payload) (if_neg (not_or.mpr ⟨not_not.mpr h.1, not_not.mpr h.2⟩)) hc hfresh
      ⟨payload.name.not_blank, payload.name.2.2.2, payload.sourceText.not_blank,
        payload.sourceText.2.2.2, by simp⟩ hv
    exact served_of_ok reply (by rw [hserve, hok]) (by rw [hserve]; exact hvalid)

/-! ### copy_task -/

theorem ownedTask_eq_error {taskId m : Uuid} {e : ApiError}
    (h : db.ownedTask taskId m = .error e) : e = taskNotFound := by
  rw [Db.ownedTask] at h
  split at h
  · exact (Except.error.inj h).symm
  · cases h

/-- The name of a copy of a valid task is not blank. -/
theorem copy_not_blank (name : Text) : ¬ Blank (name ++ " copy".toList) := by
  intro h
  have hc := blank_iff.mp h 'c' (List.mem_append_right _ (by decide))
  exact absurd hc (by decide)

theorem serve_copy {taskId : Uuid} {t : RewriteTask} (hr : c.request = .copy taskId)
    (ht : db.ownedTask taskId c.member = .ok t) :
    c.serve cfg db = (Pending.copyTask t).complete cfg db c.member c.stamp := by
  rw [serve, hr, TaskRequest.request, handle, opening, ht]
  rfl

theorem served_copy_iff {taskId : Uuid} (hr : c.request = .copy taskId) (hc : db.Consistent)
    (hv : ∀ t ∈ db.tasks, t.Valid) (hfresh : c.Fresh db) :
    c.Served cfg db ↔ ∀ t, db.ownedTask taskId c.member = .ok t → t.name.length ≤ 155 := by
  rcases ht : db.ownedTask taskId c.member with e | t
  · refine iff_of_true (served_of_error (e := e) hv ?_ ?_ fun taskId' hr' => ?_) (by simp)
    · rw [serve, hr, TaskRequest.request, handle, opening, ht]
      rfl
    · rw [ownedTask_eq_error ht]
      decide
    · rw [hr] at hr'
      rw [← TaskRequest.copy.inj hr', ht]
  have hserve : c.serve cfg db = _ := serve_copy hr ht
  have hvalid := hv t (ownedTask_eq_ok ht).1
  have hlength : (t.name ++ " copy".toList).length = t.name.length + 5 := List.length_append
  constructor
  · rintro h t' ht'
    obtain rfl := Except.ok.inj ht'
    by_contra hlong
    -- the name does not fit its column
    refine not_served db ?_ h
    have hfinish : (Pending.copyTask t).finish cfg db c.member c.stamp =
        .error internalServerError := if_pos (.inr (by omega))
    rw [hserve, Pending.complete, hfinish]
  · intro h
    have hshort := h t rfl
    obtain ⟨reply, hok, hstored⟩ := Pending.complete_addTask cfg c.member c.stamp
      (.copyTask t)
      (if_neg (not_or.mpr ⟨hvalid.settings, by omega⟩)) hc hfresh
      ⟨copy_not_blank _, by simp only [hlength]; omega, hvalid.source, hvalid.sourceLength,
        hvalid.settings⟩ hv
    exact served_of_ok reply (by rw [hserve, hok]) (by rw [hserve]; exact hstored)

/-! ### update_task -/

theorem serve_update {taskId : Uuid} {payload : TaskUpdate} {t : RewriteTask}
    (hr : c.request = .update taskId payload) (ht : db.ownedTask taskId c.member = .ok t)
    (ha : db.hasActive t.id = false) :
    c.serve cfg db = (Pending.updateTask t payload).complete cfg db c.member c.stamp := by
  rw [serve, hr, TaskRequest.request, handle, opening, ht]
  simp only [Opening.bind, Pending.task, ha, Bool.false_eq_true, if_false, Pending.refresh]

/-- The update of a draft: its task is stored changed and shown in the answer. -/
theorem serve_updated (cfg : Config) {taskId : Uuid} {payload : TaskUpdate} {t : RewriteTask}
    (hr : c.request = .update taskId payload) (hc : db.Consistent)
    (ht : db.ownedTask taskId c.member = .ok t) (hd : t.state = .draft)
    (ha : db.hasActive t.id = false) (hname : payload.name.Fits (·.1))
    (hsource : payload.sourceText.Fits (·.1)) :
    ∃ t' : RewriteTask, (c.serve cfg db).2 = .task <$> t'.detail ∧
      t' ∈ (c.serve cfg db).1.tasks ∧
      (∀ t'' ∈ (c.serve cfg db).1.tasks, t'' ∈ db.tasks ∨ t'' = t') ∧
      t'.name = payload.name.over t.name (·.1) ∧
      t'.sourceText = payload.sourceText.over t.sourceText (·.1) ∧
      t'.creativeSettings =
        (payload.creativeSettings.nullable t.creativeSettings).getD t.creativeSettings := by
  obtain ⟨change, hf, hn, hs, hset⟩ := finishUpdateTask_ok c.stamp hd hname hsource
  have hget : db.tasks.get t.id = some t := Table.get_of_mem (ownedTask_eq_ok ht).1
  have hkey : ∀ t, Keyed.key (change.apply c.stamp.now t) = Keyed.key t := fun _ =>
    change.apply_id ..
  have hget' := Table.get_update_of_get (p := fun t' => t'.id = t.id) hkey hget
  rw [if_pos (by simp)] at hget'
  have hw : [Write.setTask t.id change c.stamp.now].foldlM Write.apply db =
      some { db with tasks := db.tasks.update (fun t' => t'.id = t.id) _ hkey } := by
    simp only [List.foldlM_cons, List.foldlM_nil, Write.apply, hget, Option.map_some]
    rfl
  have hf' : (Pending.updateTask t payload).finish cfg db c.member c.stamp =
      .ok { writes := [.setTask t.id change c.stamp.now], reply := taskReply t.id } := hf
  rw [serve_update hr ht ha, Pending.complete_task hf' hc hw hget']
  refine ⟨change.apply c.stamp.now t, rfl, (Table.get_eq_some.mp hget').1, fun t'' h => ?_,
    by rw [TaskChange.apply_name, hn], by rw [TaskChange.apply_sourceText, hs],
    by rw [TaskChange.apply_creativeSettings, hset]⟩
  obtain ⟨a, hm, rfl⟩ := Table.mem_update.mp (show t'' ∈ db.tasks.update _ _ hkey from h)
  split
  · rename_i hid
    have haid : a.id = t.id := by simpa using hid
    rw [Table.eq_of_key hm (ownedTask_eq_ok ht).1 haid]
    exact .inr rfl
  · exact .inl hm

/-- An update of a draft is served where it is sensible. -/
theorem served_updated_iff {taskId : Uuid} {payload : TaskUpdate} {t : RewriteTask}
    (hr : c.request = .update taskId payload) (hc : db.Consistent)
    (hv : ∀ t ∈ db.tasks, t.Valid) (ht : db.ownedTask taskId c.member = .ok t)
    (hd : t.state = .draft) (ha : db.hasActive t.id = false) :
    c.Served cfg db ↔ payload.Sensible := by
  by_cases hnull : ¬ payload.name.Fits (·.1) ∨ ¬ payload.sourceText.Fits (·.1)
  · refine iff_of_false (not_served db ?_) ?_
    · have hf : (Pending.updateTask t payload).finish cfg db c.member c.stamp =
          .error internalServerError := finishUpdateTask_refused hd hnull
      rw [serve_update hr ht ha, Pending.complete, hf]
    · rintro ⟨hname, hsource, -, -⟩
      exact hnull.elim (absurd hname) (absurd hsource)
  obtain ⟨hname, hsource⟩ : payload.name.Fits (·.1) ∧ payload.sourceText.Fits (·.1) := by
    rwa [← not_and_or, not_not] at hnull
  have hvalid := hv t (ownedTask_eq_ok ht).1
  obtain ⟨t', hreply, hmem, hrows, hn, hs, hset⟩ :=
    serve_updated cfg hr hc ht hd ha hname hsource
  constructor
  · intro h
    have hv' := h.valid t' hmem
    refine ⟨hname, hsource, fun hnone => ?_, fun s hs' => ?_⟩
    · rw [hnone, Field.nullable, assign_getD] at hset
      exact hv'.settings hset
    · have hsource' := hv'.source
      rwa [hs, hs'] at hsource'
  · rintro ⟨-, -, hsettings, hblank⟩
    have hv' : t'.Valid := by
      refine ⟨?_, ?_, ?_, ?_, ?_⟩
      · rw [hn]
        cases payload.name with
        | value a => exact a.not_blank
        | _ => exact hvalid.name
      · rw [hn]
        cases payload.name with
        | value a => exact a.2.2.2
        | _ => exact hvalid.nameLength
      · rw [hs]
        cases hs' : payload.sourceText with
        | value a => exact hblank a hs'
        | _ => exact hvalid.source
      · rw [hs]
        cases payload.sourceText with
        | value a => exact a.2.2
        | _ => exact hvalid.sourceLength
      · rw [hset]
        cases hs' : payload.creativeSettings with
        | unset => exact hvalid.settings
        | null => exact absurd hs' hsettings
        | value a => rw [Field.nullable, assign_getD]; simp
    obtain ⟨detail, hdetail⟩ := RewriteTask.detail_of_settings hv'.settings
    refine served_of_ok (.task detail) (by rw [hreply, hdetail]; rfl) fun t'' h => ?_
    rcases hrows t'' h with h | rfl
    · exact hv t'' h
    · exact hv'

theorem served_update_iff {taskId : Uuid} {payload : TaskUpdate}
    (hr : c.request = .update taskId payload) (hc : db.Consistent)
    (hv : ∀ t ∈ db.tasks, t.Valid) :
    c.Served cfg db ↔ ∀ t, db.ownedTask taskId c.member = .ok t → t.state = .draft →
      db.hasActive t.id = false → payload.Sensible := by
  have hcopy : ∀ (e : ApiError) taskId', c.request = .copy taskId' →
      db.ownedTask taskId' c.member = .error e := by
    intro e taskId' h
    rw [hr] at h
    cases h
  rcases ht : db.ownedTask taskId c.member with e | t
  · refine iff_of_true (served_of_error (e := e) hv ?_ ?_ (hcopy e)) (by simp)
    · rw [serve, hr, TaskRequest.request, handle, opening, ht]
      rfl
    · rw [ownedTask_eq_error ht]
      decide
  by_cases ha : db.hasActive t.id = false
  · by_cases hd : t.state = .draft
    · rw [served_updated_iff hr hc hv ht hd ha]
      exact ⟨fun h _ _ _ _ => h, fun h => h t rfl hd ha⟩
    · refine iff_of_true (served_of_error (e := taskNotEditable) hv ?_ (by decide) (hcopy _)) ?_
      · have hf : (Pending.updateTask t payload).finish cfg db c.member c.stamp =
            .error taskNotEditable := by
          have hensure : ensure (t.state = .draft) taskNotEditable =
            .error taskNotEditable := if_neg hd
          simp only [Pending.finish, finishUpdateTask, hensure]
          rfl
        rw [serve_update hr ht ha, Pending.complete, hf]
      · rintro t' ht' hd'
        obtain rfl := Except.ok.inj ht'
        exact absurd hd' hd
  · refine iff_of_true (served_of_error (e := editInProgress) hv ?_ (by decide) (hcopy _)) ?_
    · rw [serve, hr, TaskRequest.request, handle, opening, ht]
      simp only [Opening.bind, Pending.task, Bool.not_eq_false _ ▸ ha, if_true, Pending.busy]
    · rintro t' ht' - ha'
      obtain rfl := Except.ok.inj ht'
      exact absurd ha' ha

/-- **When a request is served as promised.** -/
theorem served_iff (hc : db.Consistent) (hv : ∀ t ∈ db.tasks, t.Valid) (hfresh : c.Fresh db) :
    c.Served cfg db ↔ c.Meets db := by
  rw [Meets]
  split
  · rename_i hr
    exact served_create_iff hr hc hv hfresh
  · rename_i hr
    exact served_update_iff hr hc hv
  · rename_i hr
    exact served_copy_iff hr hc hv hfresh

/-- A request leaves the unique indexes as they are. -/
theorem consistent_serve (hc : db.Consistent) : (c.serve cfg db).1.Consistent := by
  rcases hs : c.serve cfg db with ⟨db', response⟩
  rcases commit_of_handle hs with rfl | ⟨pd, out, -, -, -, hcommit, -⟩
  · exact hc
  · exact (Db.commit_eq_some.mp hcommit).2

end TaskCall

/-- The tables behind every step of a run that reaches no missing check. -/
theorem valid_drafts {cfg : Config} {db : Db}
    (h : Reach (drafts cfg) (fun db c => c.Meets db) db) :
    db.Consistent ∧ ∀ t ∈ db.tasks, t.Valid := by
  refine Reach.invariant (I := fun db => db.Consistent ∧ ∀ t ∈ db.tasks, t.Valid)
    (fun _ h => h) (fun db c db' _ ⟨hc, hv⟩ hmeets hs => ?_) h
  simp only [drafts] at hs
  split at hs
  · rename_i hfresh
    obtain rfl := Option.some.inj hs
    exact ⟨TaskCall.consistent_serve hc, ((TaskCall.served_iff hc hv hfresh).mpr hmeets).valid⟩
  · cases hs

namespace TaskCall.Sample

/-- A name of `n` letters. -/
def letters (n : ℕ) : Text := List.replicate n 'n'

/-- A member creates task 10 with a name. -/
def creates (name : ShortText 160) : TaskCall :=
  ⟨1, ⟨1, [10]⟩, .create { Sys.Sample.create with name := name }⟩

/-- The member replaces its source text. -/
def rewrites (source : { s : Text // s ≠ [] ∧ s.length ≤ 20000 }) : TaskCall :=
  ⟨1, ⟨2, [20]⟩, .update 10 { sourceText := .value source }⟩

/-- The member copies it. -/
def copies : TaskCall := ⟨1, ⟨3, [30]⟩, .copy 10⟩

/-- The database with the created task. -/
def created (name : ShortText 160) : Db :=
  ((creates name).serve Sys.Sample.cfg Sys.Sample.start.db).1

theorem reach_created {P : Db → TaskCall → Prop} (name : ShortText 160)
    (hP : ∀ db, P db (creates name)) : Reach (drafts Sys.Sample.cfg) P (created name) := by
  refine .step (a := creates name) (.init (s := Sys.Sample.start.db) ⟨by decide, ?_⟩) (hP _)
    (step_drafts rfl)
  exact fun t ht => absurd ht Table.not_mem_empty

end TaskCall.Sample

end DouyinCaption

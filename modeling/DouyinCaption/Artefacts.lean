import DouyinCaption.Reading

/-!
# What operations leave behind

An operation succeeds in the transaction that stores its result and in no other
(`stored_of_succeeded`). The analyses and suggestions that are stored have drawn identifiers
(`drawn`), so that a result adds its rows to those that are there (`rows_of_suggestions`).
-/

namespace DouyinCaption

open Tables Runs

/-! ## Statuses -/

/-- The operation a statement gives a status. -/
def Write.gives (status : AiOperationStatus) : Write → Option Uuid
  | .setOperation id c | .setQueued id c => if c.status = status then some id else none
  | .addOperation o => if o.status = status then some o.id else none
  | _ => none

/-- An operation that has a status after a statement had it before, or was given it. -/
theorem Write.status_of_apply {w : Write} {db db' : Db} (h : w.apply db = some db')
    {o' : AiOperation} (ho' : o' ∈ db'.operations) (hw : w.gives o'.status ≠ some o'.id) :
    ∃ o ∈ db.operations, o.id = o'.id ∧ o.status = o'.status := by
  have hupdate : ∀ (p : AiOperation → Bool) (c : OperationChange),
      o' ∈ db.operations.update p c.apply (fun _ => c.apply_id _) →
      (∀ o : AiOperation, p o = true → o.id = o'.id → c.status ≠ o'.status) →
      ∃ o ∈ db.operations, o.id = o'.id ∧ o.status = o'.status := by
    intro p c hm hp
    obtain ⟨o, ho, he⟩ := Table.mem_update.mp hm
    by_cases hpo : p o = true
    · rw [if_pos hpo] at he
      exact absurd (by rw [he, OperationChange.apply_status])
        (hp o hpo (by rw [he, OperationChange.apply_id]))
    · rw [if_neg hpo] at he
      exact ⟨o, ho, by rw [he], by rw [he]⟩
  cases w with
  | addOperation o =>
    obtain rfl := Option.some.inj h
    rcases Table.mem_of_mem_insert ho' with ho' | rfl
    · exact ⟨o', ho', rfl, rfl⟩
    · exact absurd (if_pos rfl) hw
  | setOperation id c =>
    obtain ⟨_, -, rfl⟩ := Option.map_eq_some_iff.mp h
    refine hupdate _ c ho' fun o hp hid hc => hw ?_
    rw [Write.gives, if_pos hc, ← hid, of_decide_eq_true hp]
  | setQueued id c =>
    obtain rfl := Option.some.inj h
    refine hupdate _ c ho' fun o hp hid hc => hw ?_
    simp only [Bool.and_eq_true, decide_eq_true_eq] at hp
    rw [Write.gives, if_pos hc, ← hid, hp.1]
  | clearHistory owner =>
    obtain rfl := Option.some.inj h
    exact ⟨o', (Table.mem_delete.mp ho').1, rfl, rfl⟩
  | setTask | setAnalysis | decide | setFinal | setPreset =>
    obtain ⟨_, -, rfl⟩ := Option.map_eq_some_iff.mp h
    exact ⟨o', ho', rfl, rfl⟩
  | _ =>
    obtain rfl := Option.some.inj h
    exact ⟨o', ho', rfl, rfl⟩

/-- The operation with an identifier has a status. -/
def Db.HasStatus (db : Db) (status : AiOperationStatus) (id : Uuid) : Prop :=
  ∃ o ∈ db.operations, o.id = id ∧ o.status = status

/-- No list of statements gives a status that none of them gives. By induction on the list. -/
theorem Db.hasStatus_of_foldlM {status : AiOperationStatus} {id : Uuid} {ws : List Write} :
    ∀ {db db' : Db}, ws.foldlM Write.apply db = some db' → db'.HasStatus status id →
      (∀ w ∈ ws, w.gives status ≠ some id) → db.HasStatus status id := by
  induction ws with
  | nil =>
    intro db db' h ho _
    obtain rfl := Option.some.inj h
    exact ho
  | cons w ws ih =>
    intro db db' h ho hw
    rw [List.foldlM_cons] at h
    obtain ⟨db₁, h₁, h₂⟩ := Option.bind_eq_some_iff.mp h
    obtain ⟨o, hm, rfl, rfl⟩ := ih h₂ ho fun w' hw' => hw w' (List.mem_cons_of_mem _ hw')
    exact Write.status_of_apply h₁ hm (hw w List.mem_cons_self)

/-- The statuses a recovery and a failure give no operation. -/
def AiOperationStatus.isGood (status : AiOperationStatus) : Prop :=
  status = .running ∨ status = .succeeded

/-- A recovery gives no good status. -/
theorem gives_of_recover {status : AiOperationStatus} (hgood : status.isGood) {now : ℕ}
    {found : List (AiOperation × Option RewriteTask)} :
    ∀ w ∈ recoverWrites now found, w.gives status = none :=
  forall_recoverWrites (fun _ _ _ _ => rfl) fun _ _ => by rcases hgood with rfl | rfl <;> rfl

/-- What stores a result gives no status; the statements after it do. -/
theorem Stores.gives {db : Db} {taskId : Uuid} {st : Stamp} {result : ServiceResult}
    {prep : Prepared} {ws : List Write} (h : Stores db taskId st result prep ws)
    (status : AiOperationStatus) : ∀ w ∈ ws, w.gives status = none := by
  cases h <;> simp [Write.gives]

/-- No request claims an operation or lets it succeed. -/
theorem RequestWrites.gives {cfg : Config} {db : Db} {m : Uuid} {st : Stamp} {pd : Pending}
    {ws : List Write} (h : RequestWrites cfg db m st pd ws) {status : AiOperationStatus}
    (hgood : status.isGood) : ∀ w ∈ ws, w.gives status = none := by
  cases h with
  | presets hpd hws =>
    intro w hw
    have hon := hws w hw
    revert hon
    cases w <;> simp [Write.onPresets, Write.gives]
  | submit hstate hsnapshot =>
    rcases hgood with rfl | rfl <;> rcases hsnapshot with rfl | ⟨a, ds, -, rfl⟩ <;>
      simp [Write.gives, Submission.operation]
  | cancelOperation hqueued hreset =>
    exact forall_cancelWrites hreset (by rcases hgood with rfl | rfl <;> rfl) fun _ _ => rfl
  | _ => simp [storeSnapshot, Write.gives]

/-- Only a claim makes an operation running, and only a result makes one succeed. -/
theorem JobWrites.gives {db : Db} {st : Stamp} {opId : Uuid} {phase : JobPhase}
    {ws : List Write} (h : JobWrites db st opId phase ws) {status : AiOperationStatus}
    (hgood : status.isGood)
    (hclaim : status = .running → ∀ e model, phase ≠ .admitted e model)
    (hresult : status = .succeeded → ∀ e result, phase ≠ .returned e result) :
    ∀ w ∈ ws, w.gives status = none := by
  cases h with
  | recover => exact gives_of_recover hgood
  | claim hqueued =>
    rcases hgood with rfl | rfl
    · exact absurd rfl (hclaim rfl _ _)
    · simp [claimWrites, Write.gives, OperationChange.status]
  | result hstored =>
    rcases hgood with rfl | rfl
    · intro w hw
      rcases List.mem_append.mp hw with hw | hw
      · exact hstored.gives _ w hw
      · rcases List.mem_pair.mp hw with rfl | rfl <;> rfl
    · exact absurd rfl (hresult rfl _ _)
  | fail =>
    rcases hgood with rfl | rfl <;> simp [recordFailure, Write.gives, OperationChange.status]
  | record hopen =>
    rename_i e arm op task
    rcases hgood with rfl | rfl <;> cases arm <;>
      simp [recordFailure, Write.gives, OperationChange.status, Arm.record]
  | sweep =>
    rename_i error op
    rcases hgood with rfl | rfl <;> cases op <;>
      simp [sweepWrites, Write.gives, OperationChange.status]

namespace Sys

variable {cfg : Config} {s s' : Sys} {a : Action}

/-- A step that stores a result, with its rows. -/
structure StoresResult (s : Sys) (a : Action) (s' : Sys) (opId : Uuid) (e : Execution)
    (result : ServiceResult) (ids : List Uuid) (stored : List Write) : Prop where
  job : ∃ p, a.proc = some p ∧ s.procs p = .job opId (.returned e result)
  draws : s.Draws ids
  used : s'.used = ids ++ s.used
  stores : Stores s.db e.task.id ⟨s.now, ids⟩ result e.prepared stored
  commit : ∃ resource, (successWrites e.task e.op result s.now stored resource).foldlM Write.apply
    s.db = some s'.db

/-- How a step changes the rows. -/
inductive Changes (cfg : Config) (s : Sys) (a : Action) (s' : Sys) : Prop where
  /-- not at all, but for members and provider settings -/
  | none (members : Table Member) (providers : Table ProviderSetting)
      (h : s'.db = { s.db with members, providers })
  /-- a request commits -/
  | request {p : ℕ} {ids : List Uuid} {m : Uuid} {r : Request} {pd : Pending} {ws : List Write}
      (ha : a = .commit p ids)
      (hp : s.procs p = .locked m r pd ∨ s.procs p = .opened m r pd ∧ pd.task = none)
      (hids : s.Draws ids) (hws : RequestWrites cfg s.db m ⟨s.now, ids⟩ pd ws)
      (h : ws.foldlM Write.apply s.db = some s'.db)
  /-- a job or a tick changes the states of tasks and operations -/
  | states {ws : List Write} (hws : ∀ w ∈ ws, w.OnStates)
      (h : ws.foldlM Write.apply s.db = some s'.db)
  /-- a job stores a result -/
  | result {opId : Uuid} {e : Execution} {result : ServiceResult} {ids : List Uuid}
      {stored : List Write} (h : s.StoresResult a s' opId e result ids stored)

/-- **How a step changes the rows.** -/
theorem changes_of_move (h : Move cfg s a s') : Changes cfg s a s' := by
  have hsame : s'.db = s.db → Changes cfg s a s' := fun he =>
    .none s.db.members s.db.providers he
  cases h with
  | commit hp hids hf hw hc =>
    exact .request rfl hp hids (writes_of_finish hf) (Db.commit_eq_some.mp hc).1
  | settle ha hp hids hn hgo ht hw hc =>
    have hfold := (Db.commit_eq_some.mp hc).1
    rcases (writes_of_transaction ht).states_or_result with
      hstates | ⟨e, result, stored, resource, rfl, hstored, rfl⟩
    · exact .states hstates (by rw [enter_db]; exact hfold)
    · exact .result ⟨⟨_, rfl, hp⟩, hids, enter_used _ _ _ _, hstored, resource,
        by rw [enter_db]; exact hfold⟩
  | recover he hp hw hc hx => exact .states onStates_of_recover (Db.commit_eq_some.mp hc).1
  | configure => exact .none _ _ rfl
  | _ => exact hsame (by simp)

/-- **An operation succeeds by the step that stores its result**, or has succeeded before. -/
theorem stored_of_succeeded (hb : s.Base) (h : Move cfg s a s') {id : Uuid}
    (hs : s'.db.HasStatus .succeeded id) : s.db.HasStatus .succeeded id ∨
      ∃ e result ids stored, s.StoresResult a s' id e result ids stored := by
  cases h with
  | commit hp hids hf hw hc =>
    refine .inl (Db.hasStatus_of_foldlM (Db.commit_eq_some.mp hc).1 hs fun w hw => ?_)
    rw [(writes_of_finish hf).gives (.inr rfl) w hw]
    exact fun e => nomatch e
  | settle ha hp hids hn hgo ht hw hc =>
    rename_i p a ids opId phase phase' ws db
    rw [enter_db] at hs
    have hfold := (Db.commit_eq_some.mp hc).1
    have hwrites := writes_of_transaction ht
    by_cases hphase : ∃ e result, phase = .returned e result
    swap
    · refine .inl (Db.hasStatus_of_foldlM hfold hs fun w hw => ?_)
      rw [hwrites.gives (.inr rfl) (fun he => nomatch he)
        (fun _ e result he => hphase ⟨e, result, he⟩) w hw]
      exact fun e => nomatch e
    obtain ⟨e, result, rfl⟩ := hphase
    have hid := (hb.jobs p opId _ hp).1.1
    cases hwrites with
    | result hstored =>
      rename_i stored resource
      by_cases hmine : opId = id
      · subst hmine
        refine .inr ⟨e, result, ids, stored, ⟨p, rfl, hp⟩, hids, enter_used _ _ _ _, hstored,
          resource, ?_⟩
        rw [enter_db]
        exact hfold
      · refine .inl (Db.hasStatus_of_foldlM hfold hs fun w hw => ?_)
        rcases List.mem_append.mp hw with hw | hw
        · rw [hstored.gives _ w hw]
          exact fun e => nomatch e
        · rcases List.mem_pair.mp hw with rfl | rfl
          · exact fun e => nomatch e
          · exact fun e => hmine (hid.symm.trans (Option.some.inj e))
  | recover he hp hw hc hx =>
    refine .inl (Db.hasStatus_of_foldlM (Db.commit_eq_some.mp hc).1 hs fun w hw => ?_)
    rw [gives_of_recover (.inr rfl) w hw]
    exact fun e => nomatch e
  | _ => exact .inl (by simpa [Db.HasStatus] using hs)

/-- The step is the claim of an operation. -/
structure Claims (s : Sys) (a : Action) (s' : Sys) (opId : Uuid) (e : Execution)
    (model : Text) : Prop where
  job : ∃ p, a.proc = some p ∧ s.procs p = .job opId (.admitted e model)
  id : e.op.id = opId
  queued : s.db.isQueued opId = true
  commit : (claimWrites e s.now).foldlM Write.apply s.db = some s'.db

/-- **An operation starts to run by its claim**, or runs already. -/
theorem claimed_of_running (hb : s.Base) (h : Move cfg s a s') {id : Uuid}
    (hs : s'.db.HasStatus .running id) : s.db.HasStatus .running id ∨
      ∃ e model, s.Claims a s' id e model := by
  cases h with
  | commit hp hids hf hw hc =>
    refine .inl (Db.hasStatus_of_foldlM (Db.commit_eq_some.mp hc).1 hs fun w hw => ?_)
    rw [(writes_of_finish hf).gives (.inl rfl) w hw]
    exact fun e => nomatch e
  | settle ha hp hids hn hgo ht hw hc =>
    rename_i p a ids opId phase phase' ws db
    rw [enter_db] at hs
    have hfold := (Db.commit_eq_some.mp hc).1
    have hwrites := writes_of_transaction ht
    by_cases hphase : ∃ e model, phase = .admitted e model
    swap
    · refine .inl (Db.hasStatus_of_foldlM hfold hs fun w hw => ?_)
      rw [hwrites.gives (.inl rfl) (fun _ e model he => hphase ⟨e, model, he⟩)
        (fun he => nomatch he) w hw]
      exact fun e => nomatch e
    obtain ⟨e, model, rfl⟩ := hphase
    have hid := (hb.jobs p opId _ hp).1.1
    cases hwrites with
    | claim hqueued =>
      rw [hid] at hqueued
      by_cases hmine : opId = id
      · subst hmine
        refine .inr ⟨e, model, ⟨p, rfl, hp⟩, hid, hqueued, ?_⟩
        rw [enter_db]
        exact hfold
      · refine .inl (Db.hasStatus_of_foldlM hfold hs fun w hw => ?_)
        rcases List.mem_pair.mp hw with rfl | rfl
        · exact fun e => hmine (hid.symm.trans (Option.some.inj e))
        · exact fun e => nomatch e
  | recover he hp hw hc hx =>
    refine .inl (Db.hasStatus_of_foldlM (Db.commit_eq_some.mp hc).1 hs fun w hw => ?_)
    rw [gives_of_recover (.inl rfl) w hw]
    exact fun e => nomatch e
  | _ => exact .inl (by simpa [Db.HasStatus] using hs)

end Sys

/-! ## Identifiers -/

/-- An analysis or a suggestion has the identifier. -/
def Db.Names (db : Db) (id : Uuid) : Prop :=
  (∃ r ∈ db.analyses, r.id = id) ∨ ∃ r ∈ db.suggestions, r.id = id

/-- The identifiers a statement gives to new analyses and suggestions. -/
def Write.names : Write → List Uuid
  | .addAnalysis r => [r.id]
  | .addSuggestions rs => rs.map SuggestionRecord.id
  | _ => []

/-- An identifier that is named was named before, or the statement names it. -/
theorem Write.names_of_apply {w : Write} {db db' : Db} (h : w.apply db = some db') {id : Uuid}
    (hn : db'.Names id) : db.Names id ∨ id ∈ w.names := by
  cases w with
  | addAnalysis r =>
    obtain rfl := Option.some.inj h
    rcases hn with ⟨r', hr', rfl⟩ | hn
    · rcases Table.mem_of_mem_insert hr' with hr' | rfl
      · exact .inl (.inl ⟨r', hr', rfl⟩)
      · exact .inr List.mem_cons_self
    · exact .inl (.inr hn)
  | addSuggestions rs =>
    obtain rfl := Option.some.inj h
    rcases hn with hn | ⟨r', hr', rfl⟩
    · exact .inl (.inl hn)
    · rcases Table.mem_of_mem_insertAll hr' with hr' | hr'
      · exact .inl (.inr ⟨r', hr', rfl⟩)
      · exact .inr (List.mem_map_of_mem hr')
  | deselectAnalyses taskId =>
    obtain rfl := Option.some.inj h
    refine .inl (hn.imp_left ?_)
    rintro ⟨r', hr', rfl⟩
    dsimp only at hr'
    obtain ⟨r, hr, rfl⟩ := Table.mem_update.mp hr'
    exact ⟨r, hr, by split <;> rfl⟩
  | setAnalysis i payload notes =>
    obtain ⟨_, -, rfl⟩ := Option.map_eq_some_iff.mp h
    refine .inl (hn.imp_left ?_)
    rintro ⟨r', hr', rfl⟩
    dsimp only at hr'
    obtain ⟨r, hr, rfl⟩ := Table.mem_update.mp hr'
    exact ⟨r, hr, by split <;> rfl⟩
  | dropSuggestions taskId analysisId keep =>
    obtain rfl := Option.some.inj h
    refine .inl (hn.imp_right ?_)
    rintro ⟨r', hr', rfl⟩
    exact ⟨r', (Table.mem_delete.mp hr').1, rfl⟩
  | decide i d note =>
    obtain ⟨_, -, rfl⟩ := Option.map_eq_some_iff.mp h
    refine .inl (hn.imp_right ?_)
    rintro ⟨r', hr', rfl⟩
    dsimp only at hr'
    obtain ⟨r, hr, rfl⟩ := Table.mem_update.mp hr'
    exact ⟨r, hr, by split <;> rfl⟩
  | applySnapshot taskId analysisId ds =>
    obtain rfl := Option.some.inj h
    refine .inl (hn.imp_right ?_)
    rintro ⟨r', hr', rfl⟩
    dsimp only at hr'
    obtain ⟨r, hr, rfl⟩ := Table.mem_update.mp hr'
    exact ⟨r, hr, by split <;> simp⟩
  | setTask | setFinal | setOperation | setPreset =>
    obtain ⟨_, -, rfl⟩ := Option.map_eq_some_iff.mp h
    exact .inl hn
  | _ =>
    obtain rfl := Option.some.inj h
    exact .inl hn

/-- By induction on the list. -/
theorem Db.names_of_foldlM {id : Uuid} {ws : List Write} : ∀ {db db' : Db},
    ws.foldlM Write.apply db = some db' → db'.Names id →
      db.Names id ∨ ∃ w ∈ ws, id ∈ w.names := by
  induction ws with
  | nil =>
    intro db db' h hn
    obtain rfl := Option.some.inj h
    exact .inl hn
  | cons w ws ih =>
    intro db db' h hn
    rw [List.foldlM_cons] at h
    obtain ⟨db₁, h₁, h₂⟩ := Option.bind_eq_some_iff.mp h
    rcases ih h₂ hn with hn | ⟨w', hw', hid⟩
    · exact (Write.names_of_apply h₁ hn).imp_right fun hid => ⟨w, List.mem_cons_self, hid⟩
    · exact .inr ⟨w', List.mem_cons_of_mem _ hw', hid⟩

/-- Statements about states name nothing new. -/
theorem Write.names_of_onStates {w : Write} (h : w.OnStates) : w.names = [] := by
  cases w <;> first
    | rfl
    | exact h.elim

/-- Requests add no analysis and no suggestion. -/
theorem RequestWrites.names {cfg : Config} {db : Db} {m : Uuid} {st : Stamp} {pd : Pending}
    {ws : List Write} (h : RequestWrites cfg db m st pd ws) : ∀ w ∈ ws, w.names = [] := by
  cases h with
  | presets hpd hws =>
    intro w hw
    have hon := hws w hw
    revert hon
    cases w <;> simp [Write.onPresets, Write.names]
  | submit hstate hsnapshot =>
    rcases hsnapshot with rfl | ⟨a, ds, -, rfl⟩ <;> simp [Write.names]
  | cancelOperation hqueued hreset =>
    exact forall_cancelWrites hreset rfl fun _ _ => rfl
  | _ => simp [storeSnapshot, Write.names]

/-! ## The suggestions of a result -/

/-- A set has at most eight suggestions, and so has what is added of it. -/
theorem length_replacements (previous fixed : List SuggestionRecord) (set : SuggestionSet) :
    (replacements previous fixed set).length ≤ 8 :=
  ((sublist_pySlice _ _).length_le.trans (List.length_filter_le _ _)).trans set.valid.2.1

theorem Stamp.id_mem {now n : ℕ} {ids : List Uuid} (h : n < ids.length) :
    Stamp.id ⟨now, ids⟩ n ∈ ids := by
  rw [Stamp.id, List.getD_eq_getElem?_getD, List.getElem?_eq_getElem h]
  exact List.getElem_mem h

/-- The rows `persist` adds for a set of suggestions. -/
def newRows (taskId analysisId : Uuid) (st : Stamp) (new : List Suggestion) :
    List SuggestionRecord :=
  new.zipIdx.map fun s => suggestionRecord taskId analysisId (st.id s.2) st.now s.1

/-- A column of the new rows that the suggestion decides. -/
theorem map_newRows {taskId analysisId : Uuid} {st : Stamp} {new : List Suggestion} {α : Type}
    {f : SuggestionRecord → α} {g : Suggestion → α}
    (h : ∀ s i, f (suggestionRecord taskId analysisId i st.now s) = g s) :
    (newRows taskId analysisId st new).map f = new.map g := by
  have hidx : (newRows taskId analysisId st new).map f = new.zipIdx.map (g ∘ Prod.fst) := by
    rw [newRows, List.map_map]
    exact List.map_congr_left fun s _ => h s.1 _
  rw [hidx, ← List.map_map, List.zipIdx_map_fst]

/-- Every new row is made of a suggestion and a drawn identifier. -/
theorem mem_newRows {taskId analysisId : Uuid} {st : Stamp} {new : List Suggestion}
    {r : SuggestionRecord} (h : r ∈ newRows taskId analysisId st new) :
    ∃ s ∈ new, ∃ i < new.length, r = suggestionRecord taskId analysisId (st.id i) st.now s := by
  obtain ⟨⟨s, i⟩, hs, rfl⟩ := List.mem_map.mp h
  obtain ⟨hi, he⟩ := List.mem_zipIdx' hs
  exact ⟨s, he ▸ List.getElem_mem hi, i, hi, rfl⟩

/-- The new rows have identifiers of their own: these are drawn, one for each. -/
theorem ids_newRows {taskId analysisId now : ℕ} {ids : List Uuid} {new : List Suggestion}
    (hn : ids.Nodup) (hlen : new.length ≤ ids.length) :
    ((newRows taskId analysisId ⟨now, ids⟩ new).map SuggestionRecord.id).Nodup := by
  have hids : (newRows taskId analysisId ⟨now, ids⟩ new).map SuggestionRecord.id =
      ids.take new.length := by
    refine List.ext_getElem (by simp [newRows, hlen]) fun i h₁ h₂ => ?_
    have hi : i < ids.length := (List.length_take ▸ h₂ : i < min _ _).trans_le (min_le_right _ _)
    simp [newRows, suggestionRecord, Stamp.id, List.getElem?_eq_getElem hi]
  rw [hids]
  exact hn.sublist (List.take_sublist _ _)

namespace Sys

variable {cfg : Config} {s s' : Sys} {a : Action}

/-- The identifiers a result gives are those drawn for it. -/
theorem names_of_stores {db : Db} {taskId : Uuid} {now : ℕ} {ids : List Uuid}
    {result : ServiceResult} {prep : Prepared} {ws : List Write} (hlen : ids.length = 8)
    (h : Stores db taskId ⟨now, ids⟩ result prep ws) : ∀ w ∈ ws, ∀ id ∈ w.names, id ∈ ids := by
  cases h with
  | analysis hid =>
    intro w hw id hn
    rcases List.mem_pair.mp hw with rfl | rfl
    · cases hn
    · obtain rfl := List.mem_singleton.mp hn
      rw [hid]
      exact Stamp.id_mem (by omega)
  | suggestions hout hkept hvalid =>
    intro w hw id hn
    rcases List.mem_pair.mp hw with rfl | rfl
    · cases hn
    · obtain ⟨r, hr, rfl⟩ := List.mem_map.mp hn
      obtain ⟨x, -, i, hi, rfl⟩ := mem_newRows hr
      have h8 := length_replacements
      exact Stamp.id_mem ((hi.trans_le (length_replacements _ _ _)).trans_eq hlen.symm)
  | version =>
    intro w hw id hn
    obtain rfl := List.mem_singleton.mp hw
    cases hn

/-- **Analyses and suggestions have drawn identifiers** in every run. -/
theorem drawn {P : Sys → Action → Prop} (hs : Reach (system cfg) P s) :
    ∀ id, s.db.Names id → id ∈ s.used := by
  refine hs.invariant (I := fun s => ∀ id, s.db.Names id → id ∈ s.used)
    (fun s hi id hn => ?_) fun s a s' _ hdrawn _ h id hn => ?_
  · rcases hn with ⟨r, hr, -⟩ | ⟨r, hr, -⟩
    · rw [hi.analyses] at hr
      cases hr
    · rw [hi.suggestions] at hr
      cases hr
  have hmove := move_of_step h
  have hold : s.db.Names id → id ∈ s'.used := fun hn => used_of_move hmove id (hdrawn id hn)
  cases changes_of_move hmove with
  | none members providers he => exact hold (by rwa [he] at hn)
  | request ha hp hids hws hfold =>
    rcases Db.names_of_foldlM hfold hn with hn | ⟨w, hw, hid⟩
    · exact hold hn
    · rw [hws.names w hw] at hid
      cases hid
  | states hws hfold =>
    rcases Db.names_of_foldlM hfold hn with hn | ⟨w, hw, hid⟩
    · exact hold hn
    · rw [Write.names_of_onStates (hws w hw)] at hid
      cases hid
  | result hr =>
    obtain ⟨resource, hfold⟩ := hr.commit
    rcases Db.names_of_foldlM hfold hn with hn | ⟨w, hw, hid⟩
    · exact hold hn
    · rw [hr.used]
      refine List.mem_append_left _ ?_
      rcases List.mem_append.mp hw with hw | hw
      · exact names_of_stores hr.draws.1 hr.stores w hw id hid
      · rcases List.mem_pair.mp hw with rfl | rfl <;> cases hid

end Sys

end DouyinCaption

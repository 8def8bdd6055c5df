import DouyinCaption.Handling
import DouyinCaption.Noninterference

/-!
# A member alone

A request that is served without interruption is answered from the rows of its member and
changes no others (`handle_ofMember`). So what a member is answered, in any sequence of requests
of everybody, is what the member would be answered alone (`answers_alone`).
-/

namespace DouyinCaption

open Tables Machines Runs

section Serving

variable {cfg : Config} {db db' : Db} {m : Uuid} {st : Stamp} {pd : Pending} {out : Outcome}

/-! ## What a request holds and writes -/

/-- What a request holds after its opening is its member's. -/
theorem owned_of_opening (hops : db.OwnOperations) {r : Request}
    (h : opening cfg db m r = .pending pd) : pd.Owned db m where
  task := by
    intro t ht
    obtain ⟨hm, howner⟩ := (loadedBy_of_opening h).task t ht
    exact Db.owns_iff.mpr ⟨t, hm, rfl, howner⟩
  preset := by
    intro preset hpd p hp hid
    obtain ⟨hm, howner⟩ := preset_of_opening h hpd
    exact Table.eq_of_key hp hm hid ▸ howner
  version := by
    intro version task hpd v hv hid
    obtain ⟨hm, htask⟩ := Sys.version_of_opening h hpd
    exact Table.eq_of_key hv hm hid ▸ htask
  submission := fun sub hpd => ((loadedBy_of_opening h).submit sub hpd).1
  cancellation := by
    intro op task hpd
    obtain ⟨hm, howner, htask, -⟩ := (loadedBy_of_opening h).cancel op task hpd
    refine ⟨fun o ho hid => Table.eq_of_key ho hm hid ▸ howner, howner ▸ hops op hm, ?_⟩
    intro t ht
    rw [htask] at ht
    exact (Table.get_eq_some.mp ht).2

theorem withinAll_single {w : Write} (hw : w.Within db m) : WithinAll m db [w] :=
  ⟨hw, fun _ _ => trivial⟩

/-- A statement about a task of the member may follow any other. -/
theorem withinAll_setTask {w : Write} {taskId : Uuid} {change : TaskChange} {now : ℕ}
    (hw : w.Within db m) (howns : db.owns m taskId = true) :
    WithinAll m db [w, .setTask taskId change now] :=
  ⟨hw, fun _ h => withinAll_single (owns_of_apply h howns)⟩

/-- A submission writes its task, its analysis's suggestions and a new operation, all the
member's. -/
theorem withinAll_submit {s : Submission} (hown : (Pending.submit s).Owned db m)
    (hfresh : db.Unused (st.id 0)) (hf : s.finish cfg db st = .ok out) :
    WithinAll m db out.writes := by
  have howns : db.owns m s.task.id = true := hown.task s.task rfl
  have howner : (s.operation cfg st).ownerId = m := hown.submission s rfl
  have hwrites : RequestWrites cfg db m st (.submit s) out.writes := writes_of_submission hf
  generalize out.writes = ws at hwrites
  cases hwrites with
  | presets hpd | addTask hpd => cases hpd
  | submit _ hsnapshot =>
    rcases hsnapshot with rfl | ⟨a, ds, -, rfl⟩
    · exact withinAll_setTask ⟨howner, howns, hfresh.operations⟩ howns
    · refine ⟨howns, fun db₁ h => ?_⟩
      obtain rfl := Option.some.inj h
      exact withinAll_setTask ⟨howner, howns, hfresh.operations⟩ howns

/-- A finalization writes versions of its task. -/
theorem withinAll_finalize {version : ScriptVersion} {task : RewriteTask}
    (hown : (Pending.finalizeVersion version task).Owned db m)
    (hf : finishFinalize st version task = .ok out) : WithinAll m db out.writes := by
  have howns : db.owns m task.id = true := hown.task task rfl
  obtain ⟨_, -, hf⟩ := bind_eq_ok.mp hf
  obtain rfl := Except.ok.inj hf
  refine ⟨howns, fun db₁ h => ?_⟩
  obtain rfl := Option.some.inj h
  -- `clearFinal` keeps the identifiers and the tasks of the versions
  refine withinAll_setTask (Table.forall_mem_update (fun _ => by rfl) (fun v hv hid => ?_)
    fun _ h => h) howns
  rw [hown.version version task rfl v hv hid]
  exact howns

/-- A cancellation writes the operation and the task it is of. -/
theorem withinAll_cancel {op : AiOperation} {task : Option RewriteTask}
    (hown : (Pending.cancelOperation op task).Owned db m)
    (hf : finishCancel db st op task = .ok out) : WithinAll m db out.writes := by
  obtain ⟨howner, howns, hid⟩ := hown.cancellation op task rfl
  rw [(finishCancel_eq_ok hf).2.2]
  cases task with
  | none => exact withinAll_single howner
  | some t =>
    simp only
    split
    · exact withinAll_setTask howner (hid t rfl ▸ howns)
    · exact withinAll_single howner

/-- **A request finds and adds rows of its member.** -/
theorem withinAll_of_finish (hown : pd.Owned db m) (hfresh : db.Unused (st.id 0))
    (hf : pd.finish cfg db m st = .ok out) : WithinAll m db out.writes := by
  cases pd with
  | createPreset payload =>
    obtain rfl := Except.ok.inj hf
    exact withinAll_single ⟨rfl, hfresh.presets⟩
  | updatePreset preset payload =>
    obtain rfl := Except.ok.inj hf
    simp only
    split
    · exact trivial
    · exact withinAll_single (hown.preset preset rfl)
  | deletePreset preset =>
    obtain rfl := Except.ok.inj hf
    exact withinAll_single (hown.preset preset rfl)
  | createTask payload =>
    simp only [Pending.finish] at hf
    split at hf
    · cases hf
    · obtain rfl := Except.ok.inj hf
      exact withinAll_single ⟨rfl, hfresh.tasks⟩
  | copyTask source =>
    simp only [Pending.finish] at hf
    split at hf
    · cases hf
    · obtain rfl := Except.ok.inj hf
      exact withinAll_single ⟨rfl, hfresh.tasks⟩
  | updateTask task payload =>
    obtain ⟨_, -, hf⟩ := bind_eq_ok.mp hf
    obtain ⟨_, -, hf⟩ := bind_eq_ok.mp hf
    obtain ⟨_, -, hf⟩ := bind_eq_ok.mp hf
    obtain rfl := Except.ok.inj hf
    exact withinAll_single (hown.task task rfl)
  | archiveTask task =>
    obtain rfl := Except.ok.inj hf
    exact withinAll_single (hown.task task rfl)
  | restoreTask task =>
    simp only [Pending.finish] at hf
    split at hf
    · cases hf
    · obtain rfl := Except.ok.inj hf
      exact withinAll_single (hown.task task rfl)
  | submit s => exact withinAll_submit hown hfresh hf
  | updateAnalysis task analysisId payload =>
    have hwrites := writes_of_finish hf
    generalize out.writes = ws at hwrites
    cases hwrites with
    | presets hpd | addTask hpd => cases hpd
    | updateAnalysis hr ht =>
      refine withinAll_single fun r' hr' hid => ?_
      rw [Table.eq_of_key hr' hr hid, ht]
      exact hown.task task rfl
  | updateSuggestion task suggestionId payload =>
    have hwrites := writes_of_finish hf
    generalize out.writes = ws at hwrites
    cases hwrites with
    | presets hpd | addTask hpd => cases hpd
    | updateSuggestion hr ht =>
      refine withinAll_single fun r' hr' hid => ?_
      rw [Table.eq_of_key hr' hr hid, ht]
      exact hown.task task rfl
  | manualEdit parent task payload =>
    obtain ⟨_, -, hf⟩ := bind_eq_ok.mp hf
    obtain ⟨_, -, hf⟩ := bind_eq_ok.mp hf
    obtain ⟨_, -, hf⟩ := bind_eq_ok.mp hf
    obtain rfl := Except.ok.inj hf
    exact withinAll_setTask ⟨hown.task task rfl, hfresh.versions⟩ (hown.task task rfl)
  | createLock version task payload =>
    obtain ⟨_, -, hf⟩ := bind_eq_ok.mp hf
    split at hf
    · cases hf
    · obtain ⟨_, -, hf⟩ := bind_eq_ok.mp hf
      obtain rfl := Except.ok.inj hf
      exact withinAll_single ⟨hown.task task rfl, hfresh.locks⟩
  | deleteLock task lockId =>
    simp only [Pending.finish] at hf
    split at hf
    · cases hf
    · obtain rfl := Except.ok.inj hf
      exact withinAll_single (hown.task task rfl)
  | finalizeVersion version task => exact withinAll_finalize hown hf
  | clearHistory =>
    obtain rfl := Except.ok.inj hf
    exact withinAll_single rfl
  | cancelOperation op task => exact withinAll_cancel hown hf

/-! ## Answers -/

/-- What is stored after a request of a member: the rows of the others are as before. -/
structure After (m : Uuid) (db db' : Db) : Prop where
  placed : db'.Placed
  kept : ∀ taskId, db.owns m taskId = true → db'.owns m taskId = true
  others : ∀ m', m ≠ m' → db'.ofMember m' = db.ofMember m'

/-- What a member commits is among its own rows, and the others' stay. -/
theorem after_of_commit (hdb : db.Sound) (hown : pd.Owned db m) (hfresh : db.Unused (st.id 0))
    (hf : pd.finish cfg db m st = .ok out) (hc : db.commit out.writes = some db') :
    After m db db' where
  placed := (hdb.commit (withinAll_of_finish hown hfresh hf) hc).placed
  kept := fun _ => owns_of_foldlM (Db.commit_eq_some.mp hc).1
  others := fun _ hne => Db.ofMember_of_foldlM (Db.commit_eq_some.mp hc).1 (hown.misses hf hne)

section After

variable {id : Uuid} (h : After m db db')
include h

/-- A row the member's request looks up is the member's or, where it is new, none of the others':
it is found in the rows of the member. -/
theorem After.get_tasks (hid : ∀ t ∈ db.tasks, t.id = id → t.ownerId = m) :
    (db'.ofMember m).tasks.get id = db'.tasks.get id := by
  refine Table.get_keep fun t ht hkey => decide_eq_true (of_not_not fun hne => ?_)
  have hin : t ∈ (db'.ofMember t.ownerId).tasks := Table.mem_keep.mpr ⟨ht, decide_eq_true rfl⟩
  rw [h.others _ (Ne.symm hne)] at hin
  exact hne (hid t (Table.mem_keep.mp hin).1 hkey)

/-- A preset that is the member's, if it is stored at all, is found among the member's; so are the
other rows below. -/
theorem After.get_presets (hid : ∀ p ∈ db.presets, p.id = id → p.ownerId = m) :
    (db'.ofMember m).presets.get id = db'.presets.get id := by
  refine Table.get_keep fun p hp hkey => decide_eq_true (of_not_not fun hne => ?_)
  have hin : p ∈ (db'.ofMember p.ownerId).presets := Table.mem_keep.mpr ⟨hp, decide_eq_true rfl⟩
  rw [h.others _ (Ne.symm hne)] at hin
  exact hne (hid p (Table.mem_keep.mp hin).1 hkey)

theorem After.get_operations (hid : ∀ o ∈ db.operations, o.id = id → o.ownerId = m) :
    (db'.ofMember m).operations.get id = db'.operations.get id := by
  refine Table.get_keep fun o ho hkey => decide_eq_true (of_not_not fun hne => ?_)
  have hin : o ∈ (db'.ofMember o.ownerId).operations :=
    Table.mem_keep.mpr ⟨ho, decide_eq_true rfl⟩
  rw [h.others _ (Ne.symm hne)] at hin
  exact hne (hid o (Table.mem_keep.mp hin).1 hkey)

/-- The same of the rows of tasks. -/
theorem After.owns_of_get {α : Type} [Keyed α Uuid] {rows : Db → Table α} {taskId : α → Uuid}
    (hrows : ∀ db m, rows (Db.ofMember db m) = (rows db).keep fun a => db.owns m (taskId a))
    (hplaced : ∀ a ∈ rows db', ∃ m, db'.owns m (taskId a) = true)
    (hid : ∀ a ∈ rows db, Keyed.key a = id → db.owns m (taskId a) = true) :
    (rows (db'.ofMember m)).get id = (rows db').get id := by
  rw [hrows]
  refine Table.get_keep fun a ha hkey => of_not_not fun hnot => ?_
  obtain ⟨m', hm'⟩ := hplaced a ha
  have hne : m ≠ m' := by
    rintro rfl
    exact hnot hm'
  have hin : a ∈ rows (db'.ofMember m') := hrows db' m' ▸ Table.mem_keep.mpr ⟨ha, hm'⟩
  rw [h.others m' hne, hrows] at hin
  exact hnot (h.kept _ (hid a (Table.mem_keep.mp hin).1 hkey))

theorem After.get_versions (hid : ∀ v ∈ db.versions, v.id = id → db.owns m v.taskId = true) :
    (db'.ofMember m).versions.get id = db'.versions.get id :=
  @After.owns_of_get db db' m id h ScriptVersion _ Db.versions ScriptVersion.taskId
    (fun _ _ => rfl) h.placed.versions hid

theorem After.get_analyses (hid : ∀ r ∈ db.analyses, r.id = id → db.owns m r.taskId = true) :
    (db'.ofMember m).analyses.get id = db'.analyses.get id :=
  @After.owns_of_get db db' m id h AnalysisRecord _ Db.analyses AnalysisRecord.taskId
    (fun _ _ => rfl) h.placed.analyses hid

theorem After.get_suggestions
    (hid : ∀ r ∈ db.suggestions, r.id = id → db.owns m r.taskId = true) :
    (db'.ofMember m).suggestions.get id = db'.suggestions.get id :=
  @After.owns_of_get db db' m id h SuggestionRecord _ Db.suggestions SuggestionRecord.taskId
    (fun _ _ => rfl) h.placed.suggestions hid

theorem After.get_locks (hid : ∀ l ∈ db.locks, l.id = id → db.owns m l.taskId = true) :
    (db'.ofMember m).locks.get id = db'.locks.get id :=
  @After.owns_of_get db db' m id h LockedFragment _ Db.locks LockedFragment.taskId
    (fun _ _ => rfl) h.placed.locks hid

end After

/-- An analysis that is found for a task is one of it. -/
theorem analysisOf_eq_ok {taskId analysisId : Uuid} {r : AnalysisRecord}
    (h : db.analysisOf taskId analysisId = .ok r) : r ∈ db.analyses ∧ r.taskId = taskId := by
  rw [Db.analysisOf] at h
  split at h
  · cases h
  · rename_i a ha
    obtain rfl := Except.ok.inj h
    obtain ⟨hm, hsel⟩ := Table.scalar_some ha
    simp only [Bool.and_eq_true, decide_eq_true_eq] at hsel
    exact ⟨hm, hsel.2⟩

/-- A task the request holds is stored as the member's. -/
theorem owner_of_owns {taskId : Uuid} (howns : db.owns m taskId = true) :
    ∀ t ∈ db.tasks, t.id = taskId → t.ownerId = m := by
  rintro t ht rfl
  rw [Db.owns_of_mem ht] at howns
  exact of_decide_eq_true howns

/-- **A request is answered from the rows of its member.** -/
theorem reply_ofMember (h : After m db db') (hown : pd.Owned db m) (hfresh : db.Unused (st.id 0))
    (hf : pd.finish cfg db m st = .ok out) : out.reply (db'.ofMember m) = out.reply db' := by
  have htask : ∀ {id : Uuid}, (∀ t ∈ db.tasks, t.id = id → t.ownerId = m) →
      taskReply id (db'.ofMember m) = taskReply id db' := fun hid => by
    rw [taskReply, taskReply, h.get_tasks hid]
  have howner : ∀ task, pd.task = some task → ∀ t ∈ db.tasks, t.id = task.id → t.ownerId = m :=
    fun task ht => owner_of_owns (hown.task task ht)
  have hversion : ∀ {id : Uuid}, (∀ v ∈ db.versions, v.id = id → db.owns m v.taskId = true) →
      versionReply id (db'.ofMember m) = versionReply id db' := fun hid => by
    rw [versionReply, versionReply, h.get_versions hid]
  have hpreset : ∀ {id : Uuid}, (∀ p ∈ db.presets, p.id = id → p.ownerId = m) →
      presetReply id (db'.ofMember m) = presetReply id db' := fun hid => by
    rw [presetReply, presetReply, h.get_presets hid]
  have hoperation : ∀ {id : Uuid}, (∀ o ∈ db.operations, o.id = id → o.ownerId = m) →
      operationReply id (db'.ofMember m) = operationReply id db' := fun hid => by
    rw [operationReply, operationReply, h.get_operations hid]
  cases pd with
  | createPreset payload =>
    obtain rfl := Except.ok.inj hf
    exact hpreset fun p hp hid => absurd hid (hfresh.presets p hp)
  | updatePreset preset payload =>
    obtain rfl := Except.ok.inj hf
    exact hpreset (hown.preset preset rfl)
  | createTask payload =>
    simp only [Pending.finish] at hf
    split at hf
    · cases hf
    · obtain rfl := Except.ok.inj hf
      exact htask fun t ht hid => absurd hid (hfresh.tasks t ht)
  | copyTask source =>
    simp only [Pending.finish] at hf
    split at hf
    · cases hf
    · obtain rfl := Except.ok.inj hf
      exact htask fun t ht hid => absurd hid (hfresh.tasks t ht)
  | updateTask task payload =>
    obtain ⟨_, -, hf⟩ := bind_eq_ok.mp hf
    obtain ⟨_, -, hf⟩ := bind_eq_ok.mp hf
    obtain ⟨_, -, hf⟩ := bind_eq_ok.mp hf
    obtain rfl := Except.ok.inj hf
    exact htask (howner task rfl)
  | archiveTask task =>
    obtain rfl := Except.ok.inj hf
    exact htask (howner task rfl)
  | restoreTask task =>
    simp only [Pending.finish] at hf
    split at hf
    · cases hf
    · obtain rfl := Except.ok.inj hf
      exact htask (howner task rfl)
  | submit s =>
    obtain ⟨_, -, hf⟩ := bind_eq_ok.mp hf
    obtain ⟨_, -, hf⟩ := bind_eq_ok.mp hf
    obtain ⟨_, -, hf⟩ := bind_eq_ok.mp hf
    obtain rfl := Except.ok.inj hf
    exact hoperation fun o ho hid => absurd hid (hfresh.operations o ho)
  | updateAnalysis task analysisId payload =>
    obtain ⟨record, hr, hf⟩ := bind_eq_ok.mp hf
    obtain rfl := Except.ok.inj hf
    have hget := @After.get_analyses db db' m record.id h fun r hm hid => by
      obtain ⟨hm', htask'⟩ := analysisOf_eq_ok hr
      rw [Table.eq_of_key hm hm' hid, htask']
      exact hown.task task rfl
    simp only [hget]
  | updateSuggestion task suggestionId payload =>
    simp only [Pending.finish] at hf
    split at hf
    · cases hf
    · rename_i record hfound
      obtain rfl := Except.ok.inj hf
      obtain ⟨hm', hsel⟩ := Table.scalar_some hfound
      simp only [Bool.and_eq_true, decide_eq_true_eq] at hsel
      have hget := @After.get_suggestions db db' m record.id h fun r hm hid => by
        rw [Table.eq_of_key hm hm' hid, hsel.2]
        exact hown.task task rfl
      simp only [hget]
  | manualEdit parent task payload =>
    obtain ⟨_, -, hf⟩ := bind_eq_ok.mp hf
    obtain ⟨_, -, hf⟩ := bind_eq_ok.mp hf
    obtain ⟨_, -, hf⟩ := bind_eq_ok.mp hf
    obtain rfl := Except.ok.inj hf
    exact hversion fun v hv hid => absurd hid (hfresh.versions v hv)
  | createLock version task payload =>
    obtain ⟨_, -, hf⟩ := bind_eq_ok.mp hf
    split at hf
    · cases hf
    · obtain ⟨_, -, hf⟩ := bind_eq_ok.mp hf
      obtain rfl := Except.ok.inj hf
      have hget := @After.get_locks db db' m (st.id 0) h fun l hl hid =>
        absurd hid (hfresh.locks l hl)
      simp only [hget]
  | deletePreset | clearHistory =>
    obtain rfl := Except.ok.inj hf
    rfl
  | deleteLock task lockId =>
    simp only [Pending.finish] at hf
    split at hf
    · cases hf
    · obtain rfl := Except.ok.inj hf
      rfl
  | finalizeVersion version task =>
    obtain ⟨_, -, hf⟩ := bind_eq_ok.mp hf
    obtain rfl := Except.ok.inj hf
    refine hversion fun v hv hid => ?_
    rw [hown.version version task rfl v hv hid]
    exact hown.task task rfl
  | cancelOperation op task =>
    rw [(finishCancel_eq_ok hf).2.1]
    exact hoperation (hown.cancellation op task rfl).1

/-! ## Requests served without interruption -/

/-- What a broken index answers depends on the rows of the member. -/
theorem integrityError_ofMember (hown : pd.Owned db m) :
    pd.integrityError cfg (db.ofMember m) = pd.integrityError cfg db := by
  cases pd with
  | submit s =>
    simp only [Pending.integrityError, Submission.afterIntegrityError,
      lookup_ofMember (hown.submission s rfl)]
  | _ => rfl

/-- A transaction of the member commits and answers on its rows what it commits and answers on
all. -/
theorem complete_ofMember (hdb : db.Sound) (hown : pd.Owned db m) (hfresh : db.Unused (st.id 0)) :
    pd.complete cfg (db.ofMember m) m st =
      ((pd.complete cfg db m st).1.ofMember m, (pd.complete cfg db m st).2) := by
  rw [Pending.complete, Pending.complete, finish_ofMember hown]
  rcases hf : pd.finish cfg db m st with e | out
  · rfl
  · have hcommit := commit_ofMember hdb (withinAll_of_finish hown hfresh hf) fun _ hne =>
      hown.misses hf hne
    simp only [hcommit]
    rcases hc : db.commit out.writes with _ | db'
    · simp only [Option.map_none, integrityError_ofMember hown]
    · simp only [Option.map_some,
        reply_ofMember (after_of_commit hdb hown hfresh hf hc) hown hfresh hf]

/-- A task of a member is occupied by operations of the member. -/
theorem hasActive_ofMember (hops : db.OwnOperations) {taskId : Uuid}
    (howns : db.owns m taskId = true) : (db.ofMember m).hasActive taskId = db.hasActive taskId := by
  have hscalar : ((db.ofMember m).operations.scalar fun o => o.taskId = taskId && o.isActive) =
      db.operations.scalar fun o => o.taskId = taskId && o.isActive := by
    refine Table.scalar_keep fun o ho hsel => decide_eq_true ?_
    simp only [Bool.and_eq_true, decide_eq_true_eq] at hsel
    obtain ⟨t, ht, hid, howner⟩ := Db.owns_iff.mp (hops o ho)
    exact howner.symm.trans (owner_of_owns howns t ht (hid.trans hsel.1))
  rw [Db.hasActive, Db.hasActive, hscalar]

/-- **A request is answered as if its member were alone**, and changes the member's rows as it
would then. -/
theorem handle_ofMember (hdb : db.Sound) (hfresh : db.Unused (st.id 0)) (r : Request) :
    handle cfg (db.ofMember m) m st r =
      ((handle cfg db m st r).1.ofMember m, (handle cfg db m st r).2) := by
  rw [handle, handle, opening_ofMember hdb.placed.operations]
  rcases ho : opening cfg db m r with answer | pd
  · rfl
  have hown := owned_of_opening hdb.placed.operations ho
  rcases ht : pd.task with _ | task
  · simp only [ht, complete_ofMember hdb hown hfresh]
  have howns := hown.task task ht
  have hrefresh : pd.refresh (db.ofMember m) = pd.refresh db := by
    cases pd with
    | submit s => simp only [Pending.refresh, get_tasks_ofMember (hown.task s.task rfl)]
    | _ => rfl
  simp only [ht, hasActive_ofMember hdb.placed.operations howns, hrefresh,
    Pending.refresh_of_loaded (loadedBy_of_opening ho)]
  split
  · rfl
  · exact complete_ofMember hdb hown hfresh

/-- A request of a member leaves the rows of the others as they are. -/
theorem others_of_handle (hdb : db.Sound) (r : Request) {m' : Uuid} (hne : m ≠ m') :
    (handle cfg db m st r).1.ofMember m' = db.ofMember m' := by
  rcases h : handle cfg db m st r with ⟨db', response⟩
  rcases commit_of_handle h with rfl | ⟨pd, out, ho, -, hf, hc, -⟩
  · rfl
  · have hown := owned_of_opening hdb.placed.operations ho
    exact Db.ofMember_of_foldlM (Db.commit_eq_some.mp hc).1 (hown.misses hf hne)

/-- A request served alone leaves the database sound. -/
theorem Db.Sound.handle (hdb : db.Sound) (hfresh : db.Unused (st.id 0)) (r : Request) :
    (handle cfg db m st r).1.Sound := by
  rcases h : DouyinCaption.handle cfg db m st r with ⟨db', response⟩
  rcases commit_of_handle h with rfl | ⟨pd, out, ho, -, hf, hc, -⟩
  · exact hdb
  · have hown := owned_of_opening hdb.placed.operations ho
    exact hdb.commit (withinAll_of_finish hown hfresh hf) hc

end Serving

/-! ## Sequences of requests -/

/-- A request with its member, and the time and the identifiers it is served with. -/
structure Served where
  member : Uuid
  stamp : Stamp
  request : Request

/-- The server, where it serves one request after the other. -/
def server (cfg : Config) : Machine Db Served Response where
  step db i := handle cfg db i.member i.stamp i.request

/-- The server separates its members. -/
theorem server_separates (cfg : Config) : (server cfg).Separates Served.member
    (fun m db => db.ofMember m) Db.Sound fun db i => db.Unused (i.stamp.id 0) where
  kept := fun hdb hfresh => hdb.handle hfresh _
  own := fun hdb hfresh => handle_ofMember hdb hfresh _
  others := fun hdb _ hne => others_of_handle hdb _ hne

namespace Sys

variable {cfg : Config} {s s' : Sys} {a : Action}

/-- A job stores rows of its task. -/
theorem places_of_stores {db : Db} {taskId : Uuid} {st : Stamp} {prepared : Prepared}
    {result : ServiceResult} {stored : List Write} (h : Stores db taskId st result prepared stored)
    (howns : ∃ m, db.owns m taskId = true) : ∀ w ∈ stored, w.Places db := by
  cases h with
  | analysis _ htask =>
    intro w hw
    rcases List.mem_pair.mp hw with rfl | rfl
    · exact trivial
    · subst htask
      exact howns
  | suggestions =>
    intro w hw
    rcases List.mem_pair.mp hw with rfl | rfl
    · exact trivial
    · intro r hr
      obtain ⟨_, -, rfl⟩ := List.mem_map.mp hr
      exact howns
  | version =>
    intro w hw
    obtain rfl := List.mem_singleton.mp hw
    exact howns

/-- The rows a request adds are its member's. -/
theorem places_of_finish {db : Db} {m : Uuid} {st : Stamp} {pd : Pending} {out : Outcome}
    (hown : pd.Owned db m) (hf : pd.finish cfg db m st = .ok out) :
    ∀ w ∈ out.writes, w.Places db := by
  have hwrites := writes_of_finish hf
  generalize out.writes = ws at hwrites
  intro w hw
  cases hwrites with
  | presets _ hon =>
    have hon := hon w hw
    cases w <;> first | exact trivial | cases hon
  | addTask | updateTask | archiveTask | restoreTask | updateAnalysis | updateSuggestion
  | deleteLock | clearHistory =>
    obtain rfl := List.mem_singleton.mp hw
    exact trivial
  | manualEdit _ _ htask =>
    rcases List.mem_pair.mp hw with rfl | rfl
    · exact ⟨m, htask ▸ hown.task _ rfl⟩
    · exact trivial
  | createLock _ htask =>
    obtain rfl := List.mem_singleton.mp hw
    exact ⟨m, htask ▸ hown.task _ rfl⟩
  | finalizeVersion =>
    simp only [List.mem_cons, List.not_mem_nil, or_false] at hw
    rcases hw with rfl | rfl | rfl <;> exact trivial
  | submit _ hsnapshot =>
    rename_i sub snapshot _
    rcases List.mem_append.mp hw with hw | hw
    · rcases hsnapshot with rfl | ⟨_, _, -, rfl⟩
      · cases hw
      · obtain rfl := List.mem_singleton.mp hw
        exact trivial
    · rcases List.mem_pair.mp hw with rfl | rfl
      · have howns := hown.task sub.task rfl
        rwa [← hown.submission sub rfl] at howns
      · exact trivial
  | cancelOperation _ hreset =>
    rw [hreset] at hw
    rcases List.mem_cons.mp hw with rfl | hw
    · exact trivial
    · split at hw
      · split at hw
        · obtain rfl := List.mem_singleton.mp hw
          exact trivial
        · cases hw
      · cases hw

/-- A statement about states places no row. -/
theorem places_of_onStates {db : Db} {w : Write} (h : w.OnStates) : w.Places db := by
  cases w <;> first | exact trivial | exact h.elim

/-- Every row is somebody's after a step. -/
theorem placed_of_move (hb : s.Base) (hh : s.Holding cfg) (hl : s.Loaded) (hx : s.Apart)
    (hplaced : s.db.Placed) (h : Move cfg s a s') : s'.db.Placed := by
  cases h with
  | configure => exact ⟨hplaced.1, hplaced.2, hplaced.3, hplaced.4, hplaced.5⟩
  | commit hp hids hf hw hc =>
    have hown := hx.owned hb hh hl hp
    exact hplaced.of_foldlM (places_of_finish hown hf) (Db.commit_eq_some.mp hc).1
  | settle ha hp hids hn hgo ht hw hc =>
    rw [enter_db]
    refine hplaced.of_foldlM ?_ (Db.commit_eq_some.mp hc).1
    rcases (writes_of_transaction ht).states_or_result with
      hon | ⟨e, result, stored, resource, rfl, hstored, rfl⟩
    · exact fun w hw => places_of_onStates (hon w hw)
    · obtain ⟨⟨-, ⟨-, howns⟩, htask⟩, -⟩ := hx.operations.jobs _ _ _ hp
      intro w hw
      rcases List.mem_append.mp hw with hw | hw
      · exact places_of_stores hstored ⟨_, htask ▸ howns⟩ w hw
      · rcases List.mem_pair.mp hw with rfl | rfl <;> exact trivial
  | recover he hp hw hc hx' =>
    refine hplaced.of_foldlM (fun w hw => ?_) (Db.commit_eq_some.mp hc).1
    exact places_of_onStates (onStates_of_recover w hw)
  | _ => simpa using hplaced

/-- Every row of a reachable state is somebody's, and the unique indexes hold. -/
theorem sound (hs : Reachable cfg s) : s.db.Sound := by
  refine ⟨(base hs).consistent, hs.invariant (I := fun s => s.db.Placed) (fun s hi => ?_) ?_⟩
  · refine ⟨?_, ?_, ?_, ?_, ?_⟩ <;>
      simp [Db.OwnOperations, hi.operations, hi.analyses, hi.suggestions, hi.versions, hi.locks]
  · exact fun _ _ _ hr hplaced _ h =>
      placed_of_move (base hr) (holding hr) (loaded hr) (apart hr) hplaced (move_of_step h)

/-- **What a member is answered does not depend on the others.** From a state the system has
reached, let requests of everybody be served one after the other, each with identifiers that are
new. What a member is answered is what the member would be answered if there were no rows and no
requests of others. -/
theorem answers_alone (hs : Reachable cfg s) {is : List Served}
    (hfresh : (server cfg).Meets (fun db i => db.Unused (i.stamp.id 0)) s.db is) (m : Uuid) :
    ((server cfg).run s.db is).filter (fun x => x.1.member = m) =
      (server cfg).run (s.db.ofMember m) (is.filter fun i => i.member = m) :=
  (server_separates cfg).alone m (sound hs) hfresh

namespace Sample

/-- Two members create a task each, and the first lists them. -/
def served : List Served :=
  [⟨1, ⟨1, ids 1⟩, .createTask create⟩, ⟨2, ⟨2, ids 2⟩, .createTask create⟩,
    ⟨1, ⟨3, ids 3⟩, .listTasks none none false 0 20⟩]

/-- An identifier in none of the lists is unused. -/
theorem unused_of_ids {db : Db} {id : Uuid} (h : id ∉ db.tasks.rows.map RewriteTask.id ++
    db.presets.rows.map CreativePreset.id ++ db.versions.rows.map ScriptVersion.id ++
    db.locks.rows.map LockedFragment.id ++ db.operations.rows.map AiOperation.id) :
    db.Unused id := by
  simp only [List.mem_append, not_or] at h
  obtain ⟨⟨⟨⟨ht, hp⟩, hv⟩, hl⟩, ho⟩ := h
  exact ⟨fun a ha hid => ht (List.mem_map.mpr ⟨a, ha, hid⟩),
    fun a ha hid => hp (List.mem_map.mpr ⟨a, ha, hid⟩),
    fun a ha hid => hv (List.mem_map.mpr ⟨a, ha, hid⟩),
    fun a ha hid => hl (List.mem_map.mpr ⟨a, ha, hid⟩),
    fun a ha hid => ho (List.mem_map.mpr ⟨a, ha, hid⟩)⟩

end Sample

/-- The first of the two is shown the same list as if the second had created nothing. -/
theorem answers_alone_two :
    ((server Sample.cfg).run Sample.start.db Sample.served).length = 3 ∧
      ((server Sample.cfg).run Sample.start.db Sample.served).filter (fun x => x.1.member = 1) =
        (server Sample.cfg).run (Sample.start.db.ofMember 1)
          (Sample.served.filter fun i => i.member = 1) := by
  have hfresh : (server Sample.cfg).Meets (fun db i => db.Unused (i.stamp.id 0)) Sample.start.db
      Sample.served :=
    ⟨Sample.unused_of_ids (by decide), Sample.unused_of_ids (by decide),
      Sample.unused_of_ids (by decide), trivial⟩
  exact ⟨by decide, answers_alone (.init Sample.initial_start) hfresh 1⟩

end Sys

end DouyinCaption

import DouyinCaption.Requests
import DouyinCaption.TaskStates

/-!
# Whose rows

The rows of a member are the tasks, presets and operations the member owns and the rows of the
member's tasks (`Db.ofMember`). A statement that finds none of them leaves them as they are
(`Write.ofMember_of_apply`).
-/

namespace DouyinCaption

open Tables

/-- The task is one of the member's. -/
def Db.owns (db : Db) (m taskId : Uuid) : Bool := (db.tasks.get taskId).any fun t => t.ownerId = m

/-- The rows of a member. -/
def Db.ofMember (db : Db) (m : Uuid) : Db :=
  { db with
    tasks := db.tasks.keep fun t => t.ownerId = m
    presets := db.presets.keep fun p => p.ownerId = m
    analyses := db.analyses.keep fun r => db.owns m r.taskId
    suggestions := db.suggestions.keep fun r => db.owns m r.taskId
    versions := db.versions.keep fun v => db.owns m v.taskId
    locks := db.locks.keep fun l => db.owns m l.taskId
    operations := db.operations.keep fun o => o.ownerId = m }

/-- The rows of a member are the same in each of the seven tables. -/
structure Db.SameRows (m : Uuid) (db db' : Db) : Prop where
  tasks : (db'.ofMember m).tasks = (db.ofMember m).tasks
  presets : (db'.ofMember m).presets = (db.ofMember m).presets
  analyses : (db'.ofMember m).analyses = (db.ofMember m).analyses
  suggestions : (db'.ofMember m).suggestions = (db.ofMember m).suggestions
  versions : (db'.ofMember m).versions = (db.ofMember m).versions
  locks : (db'.ofMember m).locks = (db.ofMember m).locks
  operations : (db'.ofMember m).operations = (db.ofMember m).operations

theorem Db.SameRows.of_eq {m : Uuid} {db db' : Db} (h : db'.ofMember m = db.ofMember m) :
    db.SameRows m db' := by
  constructor <;> rw [h]

theorem Db.owns_iff {db : Db} {m taskId : Uuid} :
    db.owns m taskId = true ↔ ∃ t ∈ db.tasks, t.id = taskId ∧ t.ownerId = m := by
  simp only [Db.owns, Option.any_eq_true, Table.get_eq_some, decide_eq_true_eq, and_assoc]
  exact Iff.rfl

theorem Db.owns_of_mem {db : Db} {m : Uuid} {t : RewriteTask} (ht : t ∈ db.tasks) :
    db.owns m t.id = decide (t.ownerId = m) := by
  have hget : db.tasks.get t.id = some t := Table.get_of_mem ht
  rw [Db.owns, hget]
  rfl

/-! ## Statements about the rows of others -/

/-- The statement finds none of these rows of a member, and adds none to them. -/
def Write.Misses (rows : Db) (m : Uuid) : Write → Prop
  | .addTask t => t.ownerId ≠ m
  | .setTask id .. | .resetTask id .. => rows.tasks.Fresh id
  | .addAnalysis r => rows.tasks.Fresh r.taskId
  | .deselectAnalyses taskId => rows.tasks.Fresh taskId
  | .setAnalysis id .. => rows.analyses.Fresh id
  | .addSuggestions rs => ∀ r ∈ rs, rows.tasks.Fresh r.taskId
  | .dropSuggestions taskId .. | .applySnapshot taskId .. => rows.tasks.Fresh taskId
  | .decide id .. => rows.suggestions.Fresh id
  | .addVersion v => rows.tasks.Fresh v.taskId
  | .clearFinal taskId => rows.tasks.Fresh taskId
  | .setFinal id => rows.versions.Fresh id
  | .addLock l => rows.tasks.Fresh l.taskId
  | .dropLock _ taskId => rows.tasks.Fresh taskId
  | .addOperation o => o.ownerId ≠ m
  | .setOperation id _ | .setQueued id _ => rows.operations.Fresh id
  | .clearHistory ownerId => ownerId ≠ m
  | .addPreset p => p.ownerId ≠ m
  | .setPreset id .. | .dropPreset id => rows.presets.Fresh id

section Misses

variable {db db' : Db} {m : Uuid} {w : Write}

/-- A task that is none of the member's rows is not the member's. -/
theorem Db.owns_of_fresh {taskId : Uuid} (h : (db.ofMember m).tasks.Fresh taskId) :
    db.owns m taskId = false := by
  rw [Bool.eq_false_iff]
  intro howns
  obtain ⟨t, ht, hid, howner⟩ := Db.owns_iff.mp howns
  exact h t (Table.mem_keep.mpr ⟨ht, decide_eq_true howner⟩) hid

/-- Changing rows of tasks keeps who owns them. -/
theorem owns_update {p : RewriteTask → Bool} {f : RewriteTask → RewriteTask}
    (hf : ∀ t, Keyed.key (f t) = Keyed.key t) (howner : ∀ t, (f t).ownerId = t.ownerId) :
    Db.owns { db with tasks := db.tasks.update p f hf } = db.owns := by
  funext m taskId
  rw [Db.owns, Db.owns]
  simp only [Table.get_update]
  cases db.tasks.get taskId with
  | none => rfl
  | some t =>
    simp only [Option.map_some, Option.any_some]
    split
    · rw [howner]
    · rfl

/-- A new task of somebody else is not the member's. -/
theorem owns_insert {t : RewriteTask} (h : t.ownerId ≠ m) :
    Db.owns { db with tasks := db.tasks.insert t } m = db.owns m := by
  funext taskId
  rw [Db.owns, Db.owns]
  simp only
  rcases hget : db.tasks.get taskId with _ | t₀
  · by_cases hid : t.id = taskId
    · subst hid
      have hself : (db.tasks.insert t).get t.id = some t := Table.get_insert_self hget
      rw [hself]
      exact decide_eq_false h
    · rw [Table.get_insert_of_ne hid, hget]
  · rw [Table.get_insert_of_get hget]

theorem Write.owns_of_apply (h : w.apply db = some db') (hw : w.Misses (db.ofMember m) m) :
    db'.owns m = db.owns m := by
  cases w with
  | addTask t =>
    obtain rfl := Option.some.inj h
    exact owns_insert hw
  | setTask =>
    obtain ⟨_, -, rfl⟩ := Option.map_eq_some_iff.mp h
    exact congrFun
      (owns_update (fun _ => TaskChange.apply_id ..) fun _ => TaskChange.apply_ownerId ..) m
  | resetTask =>
    obtain rfl := Option.some.inj h
    exact congrFun (owns_update (f := RewriteTask.reset _ _) (fun _ => rfl) fun _ => rfl) m
  | setAnalysis | decide | setFinal | setOperation | setPreset =>
    obtain ⟨_, -, rfl⟩ := Option.map_eq_some_iff.mp h
    rfl
  | _ =>
    obtain rfl := Option.some.inj h
    rfl

/-- The rows of a member are told by the selections they are made of. -/
theorem Db.ofMember_congr (howns : db'.owns m = db.owns m)
    (hrest : db'.members = db.members ∧ db'.providers = db.providers)
    (htasks : db'.tasks.select (fun t => t.ownerId = m) = db.tasks.select fun t => t.ownerId = m)
    (hpresets : db'.presets.select (fun p => p.ownerId = m) =
      db.presets.select fun p => p.ownerId = m)
    (hanalyses : db'.analyses.select (fun r => db.owns m r.taskId) =
      db.analyses.select fun r => db.owns m r.taskId)
    (hsuggestions : db'.suggestions.select (fun r => db.owns m r.taskId) =
      db.suggestions.select fun r => db.owns m r.taskId)
    (hversions : db'.versions.select (fun v => db.owns m v.taskId) =
      db.versions.select fun v => db.owns m v.taskId)
    (hlocks : db'.locks.select (fun l => db.owns m l.taskId) =
      db.locks.select fun l => db.owns m l.taskId)
    (hoperations : db'.operations.select (fun o => o.ownerId = m) =
      db.operations.select fun o => o.ownerId = m) : db'.ofMember m = db.ofMember m := by
  rw [Db.ofMember, Db.ofMember, howns, hrest.1, hrest.2, Table.keep_congr htasks,
    Table.keep_congr hpresets, Table.keep_congr hanalyses, Table.keep_congr hsuggestions,
    Table.keep_congr hversions, Table.keep_congr hlocks, Table.keep_congr hoperations]

/-- A row of no task of the member is not selected. -/
theorem not_owns_of_fresh {taskId : Uuid} (h : (db.ofMember m).tasks.Fresh taskId) :
    ¬ db.owns m taskId = true := by
  rw [Db.owns_of_fresh h]
  exact Bool.false_ne_true

/-- **A statement that misses the rows of a member leaves them as they are.** -/
theorem Write.ofMember_of_apply (h : w.apply db = some db') (hw : w.Misses (db.ofMember m) m) :
    db'.ofMember m = db.ofMember m := by
  have howns := Write.owns_of_apply h hw
  have hchild : ∀ {taskId i : Uuid}, (db.ofMember m).tasks.Fresh taskId → i = taskId →
      db.owns m i = false := by
    rintro taskId _ hfresh rfl
    exact Db.owns_of_fresh hfresh
  cases w with
  | addTask t =>
    obtain rfl := Option.some.inj h
    exact Db.ofMember_congr howns ⟨rfl, rfl⟩ (Table.select_insert_of_not fun hown =>
      hw (of_decide_eq_true hown)) rfl rfl rfl rfl rfl rfl
  | setTask id change now =>
    obtain ⟨_, -, rfl⟩ := Option.map_eq_some_iff.mp h
    refine Db.ofMember_congr howns ⟨rfl, rfl⟩ (Table.select_update_fresh
      (fun _ => change.apply_id ..) hw (fun t _ hid => of_decide_eq_true hid) fun t => ?_)
      rfl rfl rfl rfl rfl rfl
    rw [TaskChange.apply_ownerId]
  | resetTask id expected restored now =>
    obtain rfl := Option.some.inj h
    refine Db.ofMember_congr howns ⟨rfl, rfl⟩ (Table.select_update_fresh (fun _ => by rfl) hw
      (fun t _ hid => ?_) fun t => rfl) rfl rfl rfl rfl rfl rfl
    exact of_decide_eq_true (Bool.and_eq_true_iff.mp hid).1
  | addAnalysis r =>
    obtain rfl := Option.some.inj h
    exact Db.ofMember_congr howns ⟨rfl, rfl⟩ rfl rfl
      (Table.select_insert_of_not (not_owns_of_fresh hw)) rfl rfl rfl rfl
  | deselectAnalyses taskId =>
    obtain rfl := Option.some.inj h
    refine Db.ofMember_congr howns ⟨rfl, rfl⟩ rfl rfl
      (Table.select_update_of_not (fun _ => by rfl) fun r _ hp => ?_) rfl rfl rfl rfl
    have hnot := hchild hw (of_decide_eq_true hp)
    exact ⟨hnot, hnot⟩
  | setAnalysis id payload notes =>
    obtain ⟨_, -, rfl⟩ := Option.map_eq_some_iff.mp h
    exact Db.ofMember_congr howns ⟨rfl, rfl⟩ rfl rfl
      (Table.select_update_fresh (fun _ => by rfl) hw (fun r _ hid => of_decide_eq_true hid)
        fun r => rfl) rfl rfl rfl rfl
  | addSuggestions rs =>
    obtain rfl := Option.some.inj h
    exact Db.ofMember_congr howns ⟨rfl, rfl⟩ rfl rfl rfl
      (Table.select_insertAll_of_not (fun r hr => not_owns_of_fresh (hw r hr)) _) rfl rfl rfl
  | dropSuggestions taskId analysisId keep =>
    obtain rfl := Option.some.inj h
    refine Db.ofMember_congr howns ⟨rfl, rfl⟩ rfl rfl rfl
      (Table.select_delete_of_not fun r _ hown => ?_) rfl rfl rfl
    rw [Bool.eq_false_iff]
    intro hp
    simp only [Bool.and_eq_true, decide_eq_true_eq] at hp
    exact absurd hown (by rw [hchild hw hp.1.1]; exact Bool.false_ne_true)
  | decide id d note =>
    obtain ⟨_, -, rfl⟩ := Option.map_eq_some_iff.mp h
    exact Db.ofMember_congr howns ⟨rfl, rfl⟩ rfl rfl rfl
      (Table.select_update_fresh (fun _ => by rfl) hw (fun r _ hid => of_decide_eq_true hid)
        fun r => rfl) rfl rfl rfl
  | applySnapshot taskId analysisId ds =>
    obtain rfl := Option.some.inj h
    refine Db.ofMember_congr howns ⟨rfl, rfl⟩ rfl rfl rfl
      (Table.select_update_of_not (fun _ => SuggestionRecord.applySnapshot_id ..) fun r _ hp => ?_)
      rfl rfl rfl
    simp only [Bool.and_eq_true, decide_eq_true_eq] at hp
    have hnot := hchild hw hp.1
    exact ⟨hnot, by rwa [SuggestionRecord.applySnapshot_taskId]⟩
  | addVersion v =>
    obtain rfl := Option.some.inj h
    exact Db.ofMember_congr howns ⟨rfl, rfl⟩ rfl rfl rfl rfl
      (Table.select_insert_of_not (not_owns_of_fresh hw)) rfl rfl
  | clearFinal taskId =>
    obtain rfl := Option.some.inj h
    refine Db.ofMember_congr howns ⟨rfl, rfl⟩ rfl rfl rfl rfl
      (Table.select_update_of_not (fun _ => by rfl) fun v _ hp => ?_) rfl rfl
    have hnot := hchild hw (of_decide_eq_true hp)
    exact ⟨hnot, hnot⟩
  | setFinal id =>
    obtain ⟨_, -, rfl⟩ := Option.map_eq_some_iff.mp h
    exact Db.ofMember_congr howns ⟨rfl, rfl⟩ rfl rfl rfl rfl
      (Table.select_update_fresh (fun _ => by rfl) hw (fun v _ hid => of_decide_eq_true hid)
        fun v => rfl) rfl rfl
  | addLock l =>
    obtain rfl := Option.some.inj h
    exact Db.ofMember_congr howns ⟨rfl, rfl⟩ rfl rfl rfl rfl rfl
      (Table.select_insert_of_not (not_owns_of_fresh hw)) rfl
  | dropLock id taskId =>
    obtain rfl := Option.some.inj h
    refine Db.ofMember_congr howns ⟨rfl, rfl⟩ rfl rfl rfl rfl rfl
      (Table.select_delete_of_not fun l _ hown => ?_) rfl
    rw [Bool.eq_false_iff]
    intro hp
    simp only [Bool.and_eq_true, decide_eq_true_eq] at hp
    exact absurd hown (by rw [hchild hw hp.2]; exact Bool.false_ne_true)
  | addOperation o =>
    obtain rfl := Option.some.inj h
    exact Db.ofMember_congr howns ⟨rfl, rfl⟩ rfl rfl rfl rfl rfl rfl
      (Table.select_insert_of_not fun hown => hw (of_decide_eq_true hown))
  | setOperation id change =>
    obtain ⟨_, -, rfl⟩ := Option.map_eq_some_iff.mp h
    refine Db.ofMember_congr howns ⟨rfl, rfl⟩ rfl rfl rfl rfl rfl rfl (Table.select_update_fresh
      (fun _ => change.apply_id _) hw (fun o _ hid => of_decide_eq_true hid) fun o => ?_)
    rw [(change.sameRequest_apply o).ownerId]
  | setQueued id change =>
    obtain rfl := Option.some.inj h
    refine Db.ofMember_congr howns ⟨rfl, rfl⟩ rfl rfl rfl rfl rfl rfl (Table.select_update_fresh
      (fun _ => change.apply_id _) hw
      (fun o _ hid => of_decide_eq_true (Bool.and_eq_true_iff.mp hid).1) fun o => ?_)
    rw [(change.sameRequest_apply o).ownerId]
  | clearHistory ownerId =>
    obtain rfl := Option.some.inj h
    refine Db.ofMember_congr howns ⟨rfl, rfl⟩ rfl rfl rfl rfl rfl rfl
      (Table.select_delete_of_not fun o _ hown => ?_)
    rw [Bool.eq_false_iff]
    intro hp
    simp only [Bool.and_eq_true, decide_eq_true_eq] at hp
    exact hw (hp.1.symm.trans (of_decide_eq_true hown))
  | addPreset p =>
    obtain rfl := Option.some.inj h
    exact Db.ofMember_congr howns ⟨rfl, rfl⟩ rfl (Table.select_insert_of_not fun hown =>
      hw (of_decide_eq_true hown)) rfl rfl rfl rfl rfl
  | setPreset id name settings now =>
    obtain ⟨_, -, rfl⟩ := Option.map_eq_some_iff.mp h
    exact Db.ofMember_congr howns ⟨rfl, rfl⟩ rfl (Table.select_update_fresh (fun _ => by rfl) hw
      (fun p _ hid => of_decide_eq_true hid) fun p => rfl) rfl rfl rfl rfl rfl
  | dropPreset id =>
    obtain rfl := Option.some.inj h
    exact Db.ofMember_congr howns ⟨rfl, rfl⟩ rfl (Table.select_delete_fresh hw
      fun p _ hid => of_decide_eq_true hid) rfl rfl rfl rfl rfl

/-- So does a list of them, by induction on the list. -/
theorem Db.ofMember_of_foldlM {ws : List Write} : ∀ {db db' : Db},
    ws.foldlM Write.apply db = some db' → (∀ w ∈ ws, w.Misses (db.ofMember m) m) →
      db'.ofMember m = db.ofMember m := by
  induction ws with
  | nil =>
    intro db db' h _
    obtain rfl := Option.some.inj h
    rfl
  | cons w ws ih =>
    intro db db' h hws
    rw [List.foldlM_cons] at h
    obtain ⟨db₁, h₁, h₂⟩ := Option.bind_eq_some_iff.mp h
    have hsame := Write.ofMember_of_apply h₁ (hws w List.mem_cons_self)
    refine (ih h₂ fun w' hw' => ?_).trans hsame
    rw [hsame]
    exact hws w' (List.mem_cons_of_mem _ hw')

end Misses

/-! ## The rows of requests -/

/-- The preset a request has loaded. -/
def Pending.preset : Pending → Option CreativePreset
  | .updatePreset preset _ | .deletePreset preset => some preset
  | _ => none

/-- A preset that a request has loaded is one of the member's. -/
theorem preset_of_opening {db : Db} {m : Uuid} {r : Request} {pd : Pending}
    {preset : CreativePreset} (h : opening cfg db m r = .pending pd)
    (hpd : pd.preset = some preset) :
    preset ∈ db.presets ∧ preset.ownerId = m := by
  cases r with
  | updatePreset presetId | deletePreset presetId =>
    obtain ⟨p, hp, h⟩ := Opening.bind_eq_pending.mp h
    obtain rfl := Opening.pending.inj h
    obtain rfl := Option.some.inj hpd
    rw [Db.ownedPreset] at hp
    split at hp
    · cases hp
    · rename_i p' hfound
      obtain rfl := Except.ok.inj hp
      obtain ⟨hm, hsel⟩ := Table.scalar_some hfound
      simp only [Bool.and_eq_true, decide_eq_true_eq] at hsel
      exact ⟨hm, hsel.2⟩
  | createPreset | createTask | clearHistory =>
    obtain rfl := Opening.pending.inj h
    cases hpd
  | copyTask | updateTask | archiveTask | restoreTask | updateAnalysis | updateSuggestion
  | deleteLock | cancelOperation =>
    obtain ⟨_, -, h⟩ := Opening.bind_eq_pending.mp h
    obtain rfl := Opening.pending.inj h
    cases hpd
  | manualEdit | createLock | finalizeVersion =>
    obtain ⟨_, -, h⟩ := Opening.bind_eq_pending.mp h
    obtain ⟨_, -, h⟩ := Opening.bind_eq_pending.mp h
    obtain rfl := Opening.pending.inj h
    cases hpd
  | submit | retryOperation =>
    obtain ⟨_, -, h⟩ := Opening.bind_eq_pending.mp h
    obtain ⟨rfl, -⟩ := openSubmission_eq_pending h
    cases hpd
  | getTask | getAnalyses | getSuggestions | listVersions | getVersion | getLocks =>
    obtain ⟨_, -, h⟩ := Opening.bind_eq_pending.mp h
    cases h
  | getAnalysis | compareVersions =>
    obtain ⟨_, -, h⟩ := Opening.bind_eq_pending.mp h
    obtain ⟨_, -, h⟩ := Opening.bind_eq_pending.mp h
    cases h
  | exportFinal =>
    obtain ⟨_, -, h⟩ := Opening.bind_eq_pending.mp h
    split at h <;> cases h
  | getOperation =>
    simp only [opening] at h
    split at h <;> cases h
  | listPresets | listTasks | listOperations => cases h

/-- What a request holds is its member's. -/
structure Pending.Owned (db : Db) (m : Uuid) (pd : Pending) : Prop where
  task : ∀ t, pd.task = some t → db.owns m t.id = true
  preset : ∀ preset, pd.preset = some preset →
    ∀ p ∈ db.presets, p.id = preset.id → p.ownerId = m
  version : ∀ version task, pd.version = some (version, task) →
    ∀ v ∈ db.versions, v.id = version.id → v.taskId = task.id
  submission : ∀ sub, pd = .submit sub → sub.ownerId = m
  cancellation : ∀ op task, pd = .cancelOperation op task →
    (∀ o ∈ db.operations, o.id = op.id → o.ownerId = m) ∧ db.owns m op.taskId = true ∧
      ∀ t ∈ task, t.id = op.taskId

section Requests

variable {cfg : Config} {db : Db} {m m' : Uuid} {st : Stamp}

/-- A task of one member is none of another's rows. -/
theorem fresh_of_owns {db : Db} {taskId : Uuid} (howns : db.owns m taskId = true) (hne : m ≠ m') :
    (db.ofMember m').tasks.Fresh taskId := by
  intro t ht hid
  obtain ⟨hm, hsel⟩ := Table.mem_keep.mp ht
  obtain ⟨t', hm', hid', howner'⟩ := Db.owns_iff.mp howns
  obtain rfl := Table.eq_of_key hm' hm (hid'.trans hid.symm)
  exact hne (howner'.symm.trans (of_decide_eq_true hsel))

theorem misses_of_persist {db : Db} {taskId : Uuid} {st : Stamp} {prepared : Prepared}
    {result : ServiceResult} {stored : List Write} (h : Stores db taskId st result prepared stored)
    (htask : (db.ofMember m').tasks.Fresh taskId) :
    ∀ w ∈ stored, w.Misses (db.ofMember m') m' := by
  cases h with
  | analysis hid hof =>
    intro w hw
    rcases List.mem_pair.mp hw with rfl | rfl
    · exact htask
    · subst hof
      exact htask
  | suggestions =>
    intro w hw
    rcases List.mem_pair.mp hw with rfl | rfl
    · exact htask
    · intro r hr
      obtain ⟨_, -, rfl⟩ := List.mem_map.mp hr
      exact htask
  | version =>
    intro w hw
    obtain rfl := List.mem_singleton.mp hw
    exact htask

/-- A request that takes no row lock writes rows of its member. -/
theorem Pending.Owned.misses_of_free {pd : Pending} (hown : pd.Owned db m) {out : Outcome}
    (hnone : pd.task = none) (hf : pd.finish cfg db m st = .ok out) (hne : m ≠ m') :
    ∀ w ∈ out.writes, w.Misses (db.ofMember m') m' := by
  have hpreset : ∀ preset, pd.preset = some preset →
      (db.ofMember m').presets.Fresh preset.id := by
    intro preset hpd p hp hid
    obtain ⟨hm, hsel⟩ := Table.mem_keep.mp hp
    exact hne ((hown.preset preset hpd p hm hid).symm.trans (of_decide_eq_true hsel))
  intro w hw
  cases pd with
  | createPreset | clearHistory =>
    obtain rfl := Except.ok.inj hf
    obtain rfl := List.mem_singleton.mp hw
    exact hne
  | updatePreset preset payload =>
    obtain rfl := Except.ok.inj hf
    simp only at hw
    split at hw
    · cases hw
    · obtain rfl := List.mem_singleton.mp hw
      exact hpreset preset rfl
  | deletePreset preset =>
    obtain rfl := Except.ok.inj hf
    obtain rfl := List.mem_singleton.mp hw
    exact hpreset preset rfl
  | createTask | copyTask =>
    simp only [Pending.finish] at hf
    split at hf
    · cases hf
    · obtain rfl := Except.ok.inj hf
      obtain rfl := List.mem_singleton.mp hw
      exact hne
  | cancelOperation op task =>
    obtain ⟨-, -, hwrites⟩ := finishCancel_eq_ok hf
    obtain ⟨howner, howns, hid⟩ := hown.cancellation op task rfl
    rw [hwrites] at hw
    rcases List.mem_cons.mp hw with rfl | hw
    · intro o ho hid
      obtain ⟨hm, hsel⟩ := Table.mem_keep.mp ho
      exact hne ((howner o hm hid).symm.trans (of_decide_eq_true hsel))
    · cases task with
      | none => cases hw
      | some t =>
        simp only at hw
        split at hw
        · obtain rfl := List.mem_singleton.mp hw
          have hid : t.id = op.taskId := hid t rfl
          exact hid ▸ fresh_of_owns howns hne
        · cases hw
  | _ => cases hnone

/-- So does one that takes it: it writes to its task. -/
theorem Pending.Owned.misses_of_task {pd : Pending} (hown : pd.Owned db m) {out : Outcome}
    (hsome : pd.task ≠ none) (hf : pd.finish cfg db m st = .ok out) (hne : m ≠ m') :
    ∀ w ∈ out.writes, w.Misses (db.ofMember m') m' := by
  have hfresh : ∀ t, pd.task = some t → (db.ofMember m').tasks.Fresh t.id := fun t ht =>
    fresh_of_owns (hown.task t ht) hne
  have hchild : ∀ t, pd.task = some t → ∀ taskId, taskId = t.id → ¬ db.owns m' taskId = true := by
    rintro t ht _ rfl
    exact not_owns_of_fresh (hfresh t ht)
  have hwrites := writes_of_finish hf
  generalize out.writes = ws at hwrites
  intro w hw
  cases hwrites with
  | presets hpd => exact absurd hpd hsome
  | addTask hpd => exact absurd hpd hsome
  | clearHistory | cancelOperation => exact absurd rfl hsome
  | updateTask | archiveTask | restoreTask | deleteLock =>
    obtain rfl := List.mem_singleton.mp hw
    exact hfresh _ rfl
  | updateAnalysis hr ht =>
    obtain rfl := List.mem_singleton.mp hw
    intro r' hr' hid
    obtain ⟨hm, hsel⟩ := Table.mem_keep.mp hr'
    obtain rfl := Table.eq_of_key hm hr hid
    exact hchild _ rfl _ ht hsel
  | updateSuggestion hr ht =>
    obtain rfl := List.mem_singleton.mp hw
    intro r' hr' hid
    obtain ⟨hm, hsel⟩ := Table.mem_keep.mp hr'
    obtain rfl := Table.eq_of_key hm hr hid
    exact hchild _ rfl _ ht hsel
  | manualEdit _ _ htask =>
    rcases List.mem_pair.mp hw with rfl | rfl
    · have hversion := hfresh _ rfl
      rw [← htask] at hversion
      exact hversion
    · exact hfresh _ rfl
  | createLock _ htask =>
    obtain rfl := List.mem_singleton.mp hw
    have hlock := hfresh _ rfl
    rw [← htask] at hlock
    exact hlock
  | finalizeVersion =>
    rename_i version task _
    simp only [List.mem_cons, List.not_mem_nil, or_false] at hw
    rcases hw with rfl | rfl | rfl
    · exact hfresh task rfl
    · intro v hv hid
      obtain ⟨hm, hsel⟩ := Table.mem_keep.mp hv
      exact hchild task rfl _ (hown.version version task rfl v hm hid) hsel
    · exact hfresh task rfl
  | submit _ hsnapshot =>
    rename_i sub snapshot _
    rcases List.mem_append.mp hw with hw | hw
    · rcases hsnapshot with rfl | ⟨_, _, -, rfl⟩
      · cases hw
      · obtain rfl := List.mem_singleton.mp hw
        exact hfresh sub.task rfl
    · rcases List.mem_pair.mp hw with rfl | rfl
      · exact fun he => hne ((hown.submission sub rfl).symm.trans he)
      · exact hfresh sub.task rfl

/-- **A request writes rows of its member.** -/
theorem Pending.Owned.misses {pd : Pending} (hown : pd.Owned db m) {out : Outcome}
    (hf : pd.finish cfg db m st = .ok out) (hne : m ≠ m') :
    ∀ w ∈ out.writes, w.Misses (db.ofMember m') m' := by
  by_cases hnone : pd.task = none
  · exact hown.misses_of_free hnone hf hne
  · exact hown.misses_of_task hnone hf hne

end Requests

end DouyinCaption

import DouyinCaption.Invariants
import DouyinCaption.Results

/-!
# The versions of a task

Versions are only ever added, by a manual edit or by the result of an operation, and apart
from the mark of the final version none is changed (`cores_of_move`). So a version stays with
its task, also one that a request holds in memory (`placed`).
-/

namespace DouyinCaption

open Tables Runs

/-- A version without the mark of the final one. -/
def ScriptVersion.core (v : ScriptVersion) : ScriptVersion := { v with isCurrentFinal := false }

theorem ScriptVersion.id_of_core {u v : ScriptVersion} (h : u.core = v.core) : u.id = v.id :=
  (ScriptVersion.mk.inj h).1

theorem ScriptVersion.taskId_of_core {u v : ScriptVersion} (h : u.core = v.core) :
    u.taskId = v.taskId :=
  (ScriptVersion.mk.inj h).2.1

theorem ScriptVersion.content_of_core {u v : ScriptVersion} (h : u.core = v.core) :
    u.content = v.content :=
  show u.core.content = v.core.content by rw [h]

/-- The versions, whichever of them are final. -/
def Db.cores (db : Db) : List ScriptVersion := db.versions.rows.map ScriptVersion.core

/-- The version a statement adds. -/
def Write.addsVersion : Write → Option ScriptVersion
  | .addVersion v => some v
  | _ => none

/-- A statement adds one version at most, and changes none but for its flag. -/
theorem Write.cores_of_apply {w : Write} {db db' : Db} (h : w.apply db = some db') :
    db'.cores = db.cores ∨ ∃ v, w.addsVersion = some v ∧ db'.cores = db.cores ++ [v.core] := by
  have hmark : ∀ (p : ScriptVersion → Bool) (f : ScriptVersion → ScriptVersion),
      (∀ v, (f v).core = v.core) →
      (db.versions.rows.map fun v => if p v then f v else v).map ScriptVersion.core =
        db.versions.rows.map ScriptVersion.core := by
    intro p f hf
    rw [List.map_map]
    refine List.map_congr_left fun v _ => ?_
    simp only [Function.comp]
    split
    · exact hf v
    · rfl
  cases w with
  | addVersion v =>
    obtain rfl := Option.some.inj h
    by_cases hfresh : db.versions.Fresh (Keyed.key v)
    · right
      refine ⟨v, rfl, ?_⟩
      rw [Db.cores, Table.rows_insert hfresh, List.map_append]
      rfl
    · left
      have htaken : Keyed.key v ∈ db.versions.rows.map Keyed.key := by
        by_contra hn
        exact hfresh fun u hu he => hn (List.mem_map.mpr ⟨u, hu, he⟩)
      rw [Db.cores, Table.insert, dif_pos htaken]
      rfl
  | clearFinal id =>
    obtain rfl := Option.some.inj h
    exact .inl (hmark _ (fun v => { v with isCurrentFinal := false }) fun _ => rfl)
  | setFinal id =>
    obtain ⟨_, -, rfl⟩ := Option.map_eq_some_iff.mp h
    exact .inl (hmark _ (fun v => { v with isCurrentFinal := true }) fun _ => rfl)
  | setTask | setAnalysis | decide | setOperation | setPreset =>
    obtain ⟨_, -, rfl⟩ := Option.map_eq_some_iff.mp h
    exact .inl rfl
  | _ =>
    obtain rfl := Option.some.inj h
    exact .inl rfl

/-- Statements add the versions they name and change no other. -/
theorem Db.cores_of_foldlM {ws : List Write} :
    ∀ {db db' : Db}, ws.foldlM Write.apply db = some db' →
      ∃ added : List ScriptVersion, added.Sublist (ws.filterMap Write.addsVersion) ∧
        db'.cores = db.cores ++ added.map ScriptVersion.core := by
  induction ws with
  | nil =>
    intro db db' h
    obtain rfl := Option.some.inj h
    exact ⟨[], List.Sublist.slnil, by simp⟩
  | cons w ws ih =>
    intro db db' h
    rw [List.foldlM_cons] at h
    obtain ⟨db₁, h₁, h₂⟩ := Option.bind_eq_some_iff.mp h
    obtain ⟨added, hsub, hadded⟩ := ih h₂
    rw [List.filterMap_cons]
    rcases Write.cores_of_apply h₁ with hsame | ⟨v, hv, happ⟩
    · refine ⟨added, ?_, by rw [hadded, hsame]⟩
      split
      · exact hsub
      · exact hsub.cons _
    · refine ⟨v :: added, ?_, by rw [hadded, happ]; simp⟩
      rw [hv]
      exact hsub.cons_cons _

/-- **A version stays as it is**, apart from the mark of the final one. -/
theorem Db.version_kept {db db' : Db} {ws : List Write}
    (h : ws.foldlM Write.apply db = some db') {v : ScriptVersion} (hv : v ∈ db.versions) :
    ∃ v' ∈ db'.versions, v'.core = v.core := by
  obtain ⟨added, -, hadded⟩ := Db.cores_of_foldlM h
  have hmem : v.core ∈ db'.cores := by
    rw [hadded]
    exact List.mem_append_left _ (List.mem_map_of_mem hv)
  exact List.mem_map.mp hmem

/-- A transaction that names no version changes none. -/
theorem Db.cores_of_none {db db' : Db} {ws : List Write}
    (h : ws.foldlM Write.apply db = some db') (hw : ∀ w ∈ ws, w.addsVersion = none) :
    db'.cores = db.cores := by
  obtain ⟨added, hsub, hadded⟩ := Db.cores_of_foldlM h
  rw [List.filterMap_eq_nil_iff.mpr hw] at hsub
  rw [hadded, List.sublist_nil.mp hsub]
  simp

/-- A transaction that names one version adds it or changes nothing. -/
theorem Db.cores_of_one {db db' : Db} {ws : List Write} {v : ScriptVersion}
    (h : ws.foldlM Write.apply db = some db') (hw : ws.filterMap Write.addsVersion = [v]) :
    db'.cores = db.cores ∨ db'.cores = db.cores ++ [v.core] := by
  obtain ⟨added, hsub, hadded⟩ := Db.cores_of_foldlM h
  rw [hw] at hsub
  rcases List.sublist_singleton.mp hsub with rfl | rfl
  · exact .inl (by rw [hadded]; simp)
  · exact .inr hadded

/-! ## The transactions -/

/-- What `persist` stores of a result: the version of a draft or a revision, and no version
otherwise. -/
theorem addsVersion_of_persist {db : Db} {taskId : Uuid} {st : Stamp} {prep : Prepared}
    {result : ServiceResult} {stored : List Write} {resource : ResourceType × Uuid}
    (h : persist db taskId st prep result = .ok (stored, resource)) :
    (∀ w ∈ stored, w.addsVersion = none) ∨ ∃ v, result.output = .version v ∧
      stored = [.addVersion (versionRecord taskId (st.id 0) st.now v result.metadata)] := by
  unfold persist at h
  split at h
  · obtain ⟨rfl, -⟩ := Prod.mk.inj (Except.ok.inj h)
    exact .inl (by simp [Write.addsVersion])
  · obtain ⟨kept, -, h⟩ := bind_eq_ok.mp h
    obtain ⟨_, -, h⟩ := bind_eq_ok.mp h
    obtain ⟨rfl, -⟩ := Prod.mk.inj (Except.ok.inj h)
    exact .inl (by simp [Write.addsVersion])
  · rename_i hv
    obtain ⟨rfl, -⟩ := Prod.mk.inj (Except.ok.inj h)
    exact .inr ⟨_, hv, rfl⟩
  · rename_i hv
    obtain ⟨rfl, -⟩ := Prod.mk.inj (Except.ok.inj h)
    exact .inr ⟨_, hv, rfl⟩
  · cases h

/-- A recovery adds no version. -/
theorem addsVersion_of_recoverWrites {now : ℕ}
    {found : List (AiOperation × Option RewriteTask)} :
    ∀ w ∈ recoverWrites now found, w.addsVersion = none :=
  forall_recoverWrites (fun _ _ _ _ => rfl) fun _ _ => rfl

/-- Only the transaction that stores a result adds a version. -/
theorem addsVersion_of_transaction {db : Db} {st : Stamp} {opId : Uuid} {phase : JobPhase}
    {ws : List Write} (h : phase.transaction db st opId = some ws)
    (hphase : ∀ e result, phase ≠ .returned e result) : ∀ w ∈ ws, w.addsVersion = none := by
  unfold JobPhase.transaction at h
  split at h
  · obtain rfl := Option.some.inj h
    exact addsVersion_of_recoverWrites
  · split at h
    · obtain rfl := Option.some.inj h
      simp [claimWrites, Write.addsVersion]
    · cases h
  · exact absurd rfl (hphase _ _)
  · obtain rfl := Option.some.inj h
    simp [recordFailure, Write.addsVersion]
  · split at h
    · cases h
    · obtain rfl := Option.some.inj h
      simp [recordFailure, Write.addsVersion]
  · obtain rfl := Option.some.inj h
    unfold sweepWrites
    split <;> simp [Write.addsVersion]
  · cases h

/-- Only a manual edit adds a version. -/
theorem RequestWrites.addsVersion {cfg : Config} {db : Db} {m : Uuid} {st : Stamp}
    {pd : Pending} {ws : List Write} (h : RequestWrites cfg db m st pd ws) :
    (∀ w ∈ ws, w.addsVersion = none) ∨ ∃ parent task payload v,
      pd = .manualEdit parent task payload ∧ ws.filterMap Write.addsVersion = [v] ∧
        v.id = st.id 0 ∧ v.taskId = task.id ∧ task.state ≠ .archived ∧
        Honours v.content
          ((db.locks.select fun l => l.taskId = task.id).map LockedFragment.text) := by
  cases h with
  | presets hpd hws =>
    refine .inl fun w hw => ?_
    have hon := hws w hw
    revert hon
    cases w <;> simp [Write.onPresets, Write.addsVersion]
  | manualEdit hstate hid htask hkind hfinal hlocks =>
    exact .inr ⟨_, _, _, _, rfl, rfl, hid, htask, hstate, hlocks⟩
  | submit hstate hsnapshot =>
    left
    rcases hsnapshot with rfl | ⟨a, ds, -, rfl⟩ <;> simp [Write.addsVersion]
  | cancelOperation hqueued hreset =>
    exact .inl (forall_cancelWrites hreset rfl fun _ _ => rfl)
  | _ => exact .inl (by simp [storeSnapshot, Write.addsVersion])

/-- The version a request has loaded, with its task. -/
def Pending.version : Pending → Option (ScriptVersion × RewriteTask)
  | .manualEdit version task _ | .createLock version task _ | .finalizeVersion version task =>
      some (version, task)
  | _ => none

/-- A version that is found for a task is one of it. -/
theorem version_of_owned {db : Db} {m taskId versionId : Uuid} {v : ScriptVersion}
    {t : RewriteTask} (hv : db.ownedVersion taskId versionId m = .ok v)
    (ht : db.ownedTask taskId m = .ok t) : v ∈ db.versions ∧ v.taskId = t.id := by
  rw [Db.ownedVersion] at hv
  split at hv
  · cases hv
  · rename_i v hv'
    obtain rfl := Except.ok.inj hv
    obtain ⟨hm, hp⟩ := Table.scalar_some hv'
    simp only [Bool.and_eq_true, decide_eq_true_eq] at hp
    exact ⟨hm, hp.1.2.trans (ownedTask_eq_ok ht).2.1.symm⟩

namespace Sys

variable {cfg : Config} {s s' : Sys} {a : Action}

/-- A step saves a version. -/
inductive Saves (s : Sys) (a : Action) (v : ScriptVersion) : Prop where
  /-- a manual edit -/
  | manualEdit {p : ℕ} {ids : List Uuid} {m : Uuid} {r : Request} {parent : ScriptVersion}
      {task : RewriteTask} {payload : ManualEditCreate} (ha : a = .commit p ids)
      (hp : s.procs p = .locked m r (.manualEdit parent task payload)) (htask : v.taskId = task.id)
      (hstate : task.state ≠ .archived)
      (hlocks : Honours v.content
        ((s.db.locks.select fun l => l.taskId = task.id).map LockedFragment.text))
  /-- the result of an operation -/
  | result {p : ℕ} {ids : List Uuid} {opId : Uuid} {e : Execution} {result : ServiceResult}
      {made : VersionResult} (ha : a.proc = some p)
      (hp : s.procs p = .job opId (.returned e result)) (hout : result.output = .version made)
      (hv : v = versionRecord e.task.id (Stamp.id ⟨s.now, ids⟩ 0) s.now made result.metadata)

/-- **Versions are only added.** A step that adds one is a manual edit or stores a result, and
the version has a fresh identifier. -/
theorem cores_of_move (h : Move cfg s a s') : s'.db.cores = s.db.cores ∨
    ∃ v, s'.db.cores = s.db.cores ++ [v.core] ∧ s.Saves a v ∧ v.id ∉ s.used ∧ v.id ∈ s'.used := by
  have hdraws : ∀ {ids : List Uuid}, s.Draws ids →
      Stamp.id ⟨s.now, ids⟩ 0 ∉ s.used ∧ Stamp.id ⟨s.now, ids⟩ 0 ∈ ids := by
    rintro ids ⟨hlen, -, hfresh⟩
    obtain ⟨i, rest, rfl⟩ := List.exists_cons_of_length_eq_add_one hlen
    exact ⟨hfresh i List.mem_cons_self, List.mem_cons_self⟩
  cases h with
  | commit hp hids hf hw hc =>
    have hfold := (Db.commit_eq_some.mp hc).1
    rcases (writes_of_finish hf).addsVersion with
      hnone | ⟨parent, task, payload, v, rfl, hone, hid, htask, hstate, hlocks⟩
    · exact .inl (Db.cores_of_none hfold hnone)
    · refine (Db.cores_of_one hfold hone).imp_right fun hcores => ?_
      obtain ⟨hfresh, hmem⟩ := hdraws hids
      have hlocked := hp.resolve_right fun h => nomatch h.2
      exact ⟨v, hcores, .manualEdit rfl hlocked htask hstate hlocks, hid ▸ hfresh,
        hid ▸ List.mem_append_left _ hmem⟩
  | settle ha hp hids hn hgo ht hw hc =>
    rename_i p a ids opId phase phase' ws db
    rw [enter_db, enter_used]
    have hfold := (Db.commit_eq_some.mp hc).1
    by_cases hphase : ∃ e result, phase = .returned e result
    swap
    · exact .inl (Db.cores_of_none hfold (addsVersion_of_transaction ht fun e result he =>
        hphase ⟨e, result, he⟩))
    obtain ⟨e, result, rfl⟩ := hphase
    simp only [JobPhase.transaction] at ht
    split at ht
    swap
    · cases ht
    rename_i hpersist
    obtain rfl := Option.some.inj ht
    rcases addsVersion_of_persist hpersist with hnone | ⟨made, hout, rfl⟩
    · refine .inl (Db.cores_of_none hfold fun w hw => ?_)
      rcases List.mem_append.mp hw with hw | hw
      · exact hnone w hw
      · rcases List.mem_pair.mp hw with rfl | rfl <;> rfl
    · refine (Db.cores_of_one hfold rfl).imp_right fun hcores => ?_
      obtain ⟨hfresh, hmem⟩ := hdraws hids
      exact ⟨_, hcores, .result rfl hp hout rfl, hfresh, List.mem_append_left _ hmem⟩
  | recover he hp hw hc hx =>
    exact .inl (Db.cores_of_none (Db.commit_eq_some.mp hc).1 addsVersion_of_recoverWrites)
  | _ => exact .inl (by simp [Db.cores])

/-! ## Versions stay with their tasks -/

/-- A version of a later state was there, or is new. -/
theorem version_of_cores {db db' : Db} {v' : ScriptVersion} (hv' : v' ∈ db'.versions) :
    (db'.cores = db.cores → ∃ v ∈ db.versions, v.core = v'.core) ∧
      ∀ u, db'.cores = db.cores ++ [ScriptVersion.core u] →
        (∃ v ∈ db.versions, v.core = v'.core) ∨ u.core = v'.core := by
  have hmem : v'.core ∈ db'.cores := List.mem_map_of_mem hv'
  constructor
  · intro h
    rw [h] at hmem
    exact List.mem_map.mp hmem
  · intro u h
    rw [h] at hmem
    rcases List.mem_append.mp hmem with hmem | hmem
    · exact .inl (List.mem_map.mp hmem)
    · exact .inr (List.mem_singleton.mp hmem).symm

/-- Versions have drawn identifiers, and the version a finalization holds is one of its
task. -/
structure Placed (s : Sys) : Prop where
  drawn : ∀ v ∈ s.db.versions, v.id ∈ s.used
  finals : ∀ p m r version task, (s.procs p = .opened m r (.finalizeVersion version task) ∨
    s.procs p = .locked m r (.finalizeVersion version task)) → version.id ∈ s.used ∧
      ∀ v ∈ s.db.versions, v.id = version.id → v.taskId = task.id

/-- At first there is no version. -/
theorem Placed.of_initial (h : Initial s) : s.Placed where
  drawn := by simp [h.versions]
  finals := fun p m r version task hp => by simp [h.procs] at hp

/-- The version a request has loaded is one of its task. -/
theorem version_of_opening {db : Db} {m : Uuid} {r : Request} {pd : Pending}
    {version : ScriptVersion} {task : RewriteTask} (h : opening cfg db m r = .pending pd)
    (hpd : pd.version = some (version, task)) :
    version ∈ db.versions ∧ version.taskId = task.id := by
  cases r with
  | manualEdit | createLock | finalizeVersion =>
    obtain ⟨v, hv, h⟩ := Opening.bind_eq_pending.mp h
    obtain ⟨t, ht, h⟩ := Opening.bind_eq_pending.mp h
    obtain rfl := Opening.pending.inj h
    obtain ⟨rfl, rfl⟩ := Prod.mk.inj (Option.some.inj hpd)
    exact version_of_owned hv ht
  | createPreset | createTask | clearHistory =>
    obtain rfl := Opening.pending.inj h
    cases hpd
  | updatePreset | deletePreset | copyTask | updateTask | archiveTask | restoreTask
  | updateAnalysis | updateSuggestion | deleteLock | cancelOperation =>
    obtain ⟨_, -, h⟩ := Opening.bind_eq_pending.mp h
    obtain rfl := Opening.pending.inj h
    cases hpd
  | submit | retryOperation =>
    obtain ⟨_, -, h⟩ := Opening.bind_eq_pending.mp h
    obtain ⟨rfl, -⟩ := openSubmission_eq_pending h
    cases hpd
  | getTask | getAnalyses | getSuggestions | listVersions | getVersion | getLocks =>
    obtain ⟨_, -, h⟩ := Opening.bind_eq_pending.mp h
    cases h
  | getAnalysis | compareVersions =>
    obtain ⟨_, -, h⟩ := Opening.bind_eq_pending.mp h
    obtain ⟨_, -, h⟩ := Opening.bind_eq_pending.mp h
    cases h
  | exportFinal =>
    obtain ⟨_, -, h⟩ := Opening.bind_eq_pending.mp h
    split at h <;> cases h
  | getOperation =>
    simp only [opening] at h
    split at h <;> cases h
  | listPresets | listTasks | listOperations => cases h

/-- The step lemma: a new version is of a stored task, and its parent is a version of that task. -/
theorem Placed.move (hv : s.Placed) (h : Move cfg s a s') : s'.Placed where
  drawn := by
    intro v' hv'
    rcases cores_of_move h with hsame | ⟨u, happ, -, -, hused⟩
    · obtain ⟨v, hm, hcore⟩ := (version_of_cores hv').1 hsame
      exact ScriptVersion.id_of_core hcore ▸ used_of_move h _ (hv.drawn v hm)
    · rcases (version_of_cores hv').2 u happ with ⟨v, hm, hcore⟩ | hcore
      · exact ScriptVersion.id_of_core hcore ▸ used_of_move h _ (hv.drawn v hm)
      · exact ScriptVersion.id_of_core hcore ▸ hused
  finals := by
    intro p m r version task hp'
    have hold : ∀ {p : ℕ}, (s.procs p = .opened m r (.finalizeVersion version task) ∨
        s.procs p = .locked m r (.finalizeVersion version task)) → version.id ∈ s'.used ∧
        ∀ v ∈ s'.db.versions, v.id = version.id → v.taskId = task.id := by
      intro p hp
      obtain ⟨hused, htask⟩ := hv.finals p m r version task hp
      refine ⟨used_of_move h _ hused, fun v' hv' hid => ?_⟩
      have hstays : (∃ v ∈ s.db.versions, v.core = v'.core) → v'.taskId = task.id := by
        rintro ⟨v, hm, hcore⟩
        rw [← ScriptVersion.taskId_of_core hcore]
        exact htask v hm ((ScriptVersion.id_of_core hcore).trans hid)
      rcases cores_of_move h with hsame | ⟨u, happ, -, hfresh, -⟩
      · exact hstays ((version_of_cores hv').1 hsame)
      · rcases (version_of_cores hv').2 u happ with hmem | hcore
        · exact hstays hmem
        · exact absurd ((ScriptVersion.id_of_core hcore).trans hid ▸ hused) hfresh
    rcases hp' with hp' | hp'
    · rcases opened_of_move h hp' with ⟨hp, -⟩ | ⟨-, ho, hdb⟩
      · exact hold (.inl hp)
      · obtain ⟨hm, htask⟩ := version_of_opening ho rfl
        rw [hdb]
        refine ⟨used_of_move h _ (hv.drawn version hm), fun v hv' hid => ?_⟩
        exact Table.eq_of_key hv' hm hid ▸ htask
    · rcases locked_of_move h hp' with ⟨hp, -⟩ | ⟨pd₀, t₀, -, hp, -, -, -, hpd, -⟩
      · exact hold (.inr hp)
      · cases pd₀ with
        | finalizeVersion version₀ task₀ =>
          obtain ⟨rfl, rfl⟩ := Pending.finalizeVersion.inj hpd
          exact hold (.inl hp)
        | _ => cases hpd

/-- **Versions stay with their tasks** in every run. -/
theorem placed {P : Sys → Action → Prop} (hs : Reach (system cfg) P s) : s.Placed :=
  hs.invariant (fun _ => Placed.of_initial) fun _ _ _ _ hv _ h => hv.move (move_of_step h)

/-! ## The versions that requests hold -/

/-- The row lock reads the task again and not the version. -/
theorem version_of_refresh (db : Db) (pd : Pending) : (pd.refresh db).version = pd.version := by
  cases pd <;> rfl

/-- A stored version stays, but for whether it is final. -/
theorem mem_cores_of_move (h : Move cfg s a s') {v : ScriptVersion} (hv : v ∈ s.db.cores) :
    v ∈ s'.db.cores := by
  rcases cores_of_move h with hsame | ⟨u, happ, -⟩
  · exact hsame ▸ hv
  · exact happ ▸ List.mem_append_left _ hv

/-- A stored version is kept by every run, but for being final. -/
theorem version_of_steps {P : Sys → Action → Prop} (h : Steps (system cfg) P s s')
    {v : ScriptVersion} (hv : v ∈ s.db.versions) : ∃ v' ∈ s'.db.versions, v'.core = v.core := by
  have hmem : v.core ∈ s'.db.cores :=
    h.invariant (I := fun s => v.core ∈ s.db.cores) (List.mem_map_of_mem hv)
      fun _ _ _ hm _ hstep => mem_cores_of_move (move_of_step hstep) hm
  exact List.mem_map.mp hmem

/-- The version a request holds is stored, and one of its task. -/
def Loaded (s : Sys) : Prop :=
  ∀ p m r pd version task, (s.procs p = .opened m r pd ∨ s.procs p = .locked m r pd) →
    pd.version = some (version, task) → version.core ∈ s.db.cores ∧ version.taskId = task.id

/-- The step lemma: a version that was loaded is still stored, as no version is removed or
changed. -/
theorem Loaded.move (hl : s.Loaded) (h : Move cfg s a s') : s'.Loaded := by
  intro p m r pd version task hp' hpd
  have hold : ∀ pd₀, (s.procs p = .opened m r pd₀ ∨ s.procs p = .locked m r pd₀) →
      pd₀.version = some (version, task) →
      version.core ∈ s'.db.cores ∧ version.taskId = task.id := by
    intro pd₀ hp hpd₀
    obtain ⟨hm, htask⟩ := hl p m r pd₀ version task hp hpd₀
    exact ⟨mem_cores_of_move h hm, htask⟩
  rcases hp' with hp' | hp'
  · rcases opened_of_move h hp' with ⟨hp, -⟩ | ⟨-, ho, hdb⟩
    · exact hold pd (.inl hp) hpd
    · obtain ⟨hm, htask⟩ := version_of_opening ho hpd
      exact ⟨hdb ▸ List.mem_map_of_mem hm, htask⟩
  · rcases locked_of_move h hp' with ⟨hp, -⟩ | ⟨pd₀, t₀, -, hp, -, -, -, rfl, -⟩
    · exact hold pd (.inr hp) hpd
    · exact hold pd₀ (.inl hp) (version_of_refresh s.db pd₀ ▸ hpd)

/-- **A request holds stored versions of its task** in every run. -/
theorem loaded {P : Sys → Action → Prop} (hs : Reach (system cfg) P s) : s.Loaded := by
  refine hs.invariant (I := Loaded) ?_ fun _ _ _ _ hl _ h => hl.move (move_of_step h)
  intro s h p m r pd version task hp
  simp [h.procs] at hp

end Sys

end DouyinCaption

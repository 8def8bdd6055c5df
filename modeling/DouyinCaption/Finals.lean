import DouyinCaption.Executing
import DouyinCaption.Requests
import DouyinCaption.TaskStates

/-!
# Final versions

A task has one final version or none: the mark is set by `finalize_version` only, which first
clears it from the other versions of the task (`finals_of_move`). So the marks are a register of
each task, written by finalizations and read by `export_final_version`: an export answers with
the version finalized last (`export_of_finalize`).
-/

namespace DouyinCaption

open Tables Runs

/-- The version with the identifier is a final one of the task. -/
def Db.Final (db : Db) (taskId id : Uuid) : Prop :=
  ∃ v ∈ db.versions, v.id = id ∧ v.taskId = taskId ∧ v.isCurrentFinal = true

/-! ## Statements -/

/-- The statement changes the marks of versions, or adds one with a mark. -/
def Write.OnFinals : Write → Prop
  | .clearFinal _ | .setFinal _ => True
  | .addVersion v => v.isCurrentFinal = true
  | _ => False

/-- A statement that touches no flag keeps the final versions. -/
theorem Write.final_of_apply {w : Write} {db db' : Db} (h : w.apply db = some db')
    (hw : ¬ w.OnFinals) (t i : Uuid) : db'.Final t i ↔ db.Final t i := by
  cases w with
  | addVersion v =>
    obtain rfl := Option.some.inj h
    constructor
    · rintro ⟨u, hu, hid, htask, hfinal⟩
      rcases Table.mem_of_mem_insert hu with hu | rfl
      · exact ⟨u, hu, hid, htask, hfinal⟩
      · exact absurd hfinal hw
    · rintro ⟨u, hu, hu'⟩
      exact ⟨u, Table.mem_insert_of_mem hu, hu'⟩
  | clearFinal | setFinal => exact absurd trivial hw
  | setTask | setAnalysis | decide | setOperation | setPreset =>
    obtain ⟨_, -, rfl⟩ := Option.map_eq_some_iff.mp h
    exact .rfl
  | _ =>
    obtain rfl := Option.some.inj h
    exact .rfl

/-- So does a list of them, by induction on the list. -/
theorem Db.final_of_foldlM {ws : List Write} : ∀ {db db' : Db},
    ws.foldlM Write.apply db = some db' → (∀ w ∈ ws, ¬ w.OnFinals) → ∀ t i,
      db'.Final t i ↔ db.Final t i := by
  induction ws with
  | nil =>
    intro db db' h _ t i
    obtain rfl := Option.some.inj h
    exact .rfl
  | cons w ws ih =>
    intro db db' h hw t i
    rw [List.foldlM_cons] at h
    obtain ⟨db₁, h₁, h₂⟩ := Option.bind_eq_some_iff.mp h
    exact (ih h₂ (fun w' hw' => hw w' (List.mem_cons_of_mem _ hw')) t i).trans
      (Write.final_of_apply h₁ (hw w List.mem_cons_self) t i)

/-- The first statement of a finalization takes the flags of its task. -/
theorem final_of_clearFinal {db db' : Db} {taskId : Uuid}
    (h : (Write.clearFinal taskId).apply db = some db') (t i : Uuid) :
    db'.Final t i ↔ t ≠ taskId ∧ db.Final t i := by
  obtain rfl := Option.some.inj h
  constructor
  · rintro ⟨v', hv', hid, htask, hfinal⟩
    dsimp only at hv'
    obtain ⟨v, hv, rfl⟩ := Table.mem_update.mp hv'
    split at hfinal
    · cases hfinal
    · rename_i hne
      simp only [hne, Bool.false_eq_true, if_false] at hid htask
      exact ⟨fun he => hne (decide_eq_true (htask.trans he)), v, hv, hid, htask, hfinal⟩
  · rintro ⟨hne, v, hv, hid, htask, hfinal⟩
    have hother : ¬ decide (v.taskId = taskId) = true := fun he =>
      hne (htask.symm.trans (of_decide_eq_true he))
    refine ⟨v, ?_, hid, htask, hfinal⟩
    dsimp only
    exact Table.mem_update.mpr ⟨v, hv, (if_neg hother).symm⟩

/-- The second one gives a flag. -/
theorem final_of_setFinal {db db' : Db} {id : Uuid} (h : (Write.setFinal id).apply db = some db')
    (t i : Uuid) : db'.Final t i ↔
      (i = id ∧ ∃ v ∈ db.versions, v.id = id ∧ v.taskId = t) ∨ db.Final t i := by
  obtain ⟨_, -, rfl⟩ := Option.map_eq_some_iff.mp h
  constructor
  · rintro ⟨v', hv', hid, htask, hfinal⟩
    dsimp only at hv'
    obtain ⟨v, hv, rfl⟩ := Table.mem_update.mp hv'
    split at hfinal
    · rename_i he
      simp only [he, if_true] at hid htask
      have he := of_decide_eq_true he
      exact .inl ⟨hid.symm.trans he, v, hv, he, htask⟩
    · rename_i hne
      simp only [hne, Bool.false_eq_true, if_false] at hid htask
      exact .inr ⟨v, hv, hid, htask, hfinal⟩
  · have hin : ∀ v ∈ db.versions, (if decide (v.id = id) then { v with isCurrentFinal := true }
        else v) ∈ db.versions.update (fun v => v.id = id)
          (fun v => { v with isCurrentFinal := true }) fun _ => rfl :=
      fun v hv => Table.mem_update.mpr ⟨v, hv, rfl⟩
    rintro (⟨rfl, v, hv, hid, htask⟩ | ⟨v, hv, hid, htask, hfinal⟩)
    · refine ⟨_, hin v hv, ?_⟩
      rw [if_pos (decide_eq_true hid)]
      exact ⟨hid, htask, rfl⟩
    · refine ⟨_, hin v hv, ?_⟩
      split
      · exact ⟨hid, htask, rfl⟩
      · exact ⟨hid, htask, hfinal⟩

/-- **What a finalization makes of the marks.** -/
theorem final_of_finalize {db db' : Db} {taskId versionId now : Uuid} {change : TaskChange}
    (h : [.clearFinal taskId, .setFinal versionId, .setTask taskId change now].foldlM
      Write.apply db = some db')
    (hplaced : ∀ v ∈ db.versions, v.id = versionId → v.taskId = taskId) (t i : Uuid) :
    db'.Final t i ↔ (t = taskId ∧ i = versionId) ∨ (t ≠ taskId ∧ db.Final t i) := by
  rw [List.foldlM_cons] at h
  obtain ⟨db₁, h₁, h⟩ := Option.bind_eq_some_iff.mp h
  rw [List.foldlM_cons] at h
  obtain ⟨db₂, h₂, h⟩ := Option.bind_eq_some_iff.mp h
  have htask : ∀ t i, db'.Final t i ↔ db₂.Final t i :=
    Db.final_of_foldlM h fun w hw => by
      obtain rfl := List.mem_singleton.mp hw
      exact id
  -- the versions are those of before, but for their marks
  have hcores : db₁.cores = db.cores := by
    rcases Write.cores_of_apply h₁ with hsame | ⟨v, hv, -⟩
    · exact hsame
    · cases hv
  have htaskId : ∀ v ∈ db₁.versions, v.id = versionId → v.taskId = taskId := by
    intro v hv hid
    obtain ⟨u, hu, hcore⟩ := (Sys.version_of_cores hv).1 hcores
    rw [← ScriptVersion.taskId_of_core hcore]
    exact hplaced u hu ((ScriptVersion.id_of_core hcore).trans hid)
  have hfound : ∃ v ∈ db₁.versions, v.id = versionId := by
    obtain ⟨v, hv, -⟩ := Option.map_eq_some_iff.mp h₂
    exact ⟨v, Table.get_eq_some.mp hv⟩
  rw [htask, final_of_setFinal h₂, final_of_clearFinal h₁]
  refine or_congr_left ⟨?_, ?_⟩
  · rintro ⟨rfl, v, hv, hid, rfl⟩
    exact ⟨htaskId v hv hid, rfl⟩
  · rintro ⟨rfl, rfl⟩
    obtain ⟨v, hv, hid⟩ := hfound
    exact ⟨rfl, v, hv, hid, htaskId v hv hid⟩

/-- Statements about states touch no flag. -/
theorem Write.not_onFinals_of_onStates {w : Write} (h : w.OnStates) : ¬ w.OnFinals := by
  cases w <;> first
    | exact id
    | exact h.elim

/-- What stores a result touches no flag: a new version is not final. -/
theorem Stores.not_onFinals {db : Db} {taskId : Uuid} {st : Stamp} {result : ServiceResult}
    {prep : Prepared} {ws : List Write} (h : Stores db taskId st result prep ws) :
    ∀ w ∈ ws, ¬ w.OnFinals := by
  cases h <;> simp [Write.OnFinals, versionRecord]

/-- Only a finalization changes marks. -/
theorem RequestWrites.onFinals {cfg : Config} {db : Db} {m : Uuid} {st : Stamp} {pd : Pending}
    {ws : List Write} (h : RequestWrites cfg db m st pd ws) :
    (∀ w ∈ ws, ¬ w.OnFinals) ∨ ∃ version task, pd = .finalizeVersion version task := by
  cases h with
  | presets hpd hws =>
    refine .inl fun w hw => ?_
    have hon := hws w hw
    revert hon
    cases w <;> simp [Write.onPresets, Write.OnFinals]
  | finalizeVersion => exact .inr ⟨_, _, rfl⟩
  | manualEdit _ _ _ _ hfinal => exact .inl (by simp [Write.OnFinals, hfinal])
  | submit hstate hsnapshot =>
    refine .inl ?_
    rcases hsnapshot with rfl | ⟨a, ds, -, rfl⟩ <;> simp [Write.OnFinals]
  | cancelOperation hqueued hreset =>
    exact .inl (forall_cancelWrites hreset id fun _ _ => id)
  | _ => exact .inl (by simp [storeSnapshot, Write.OnFinals])

namespace Sys

variable {cfg : Config} {s s' : Sys} {a : Action}

/-! ## The register of final versions -/

/-- The step finalizes a version of a task. -/
def Finalizes (cfg : Config) (s : Sys) (a : Action) (s' : Sys) (version : ScriptVersion)
    (task : RewriteTask) : Prop :=
  ∃ out, CommitsRequest cfg s a s' (.finalizeVersion version task) out

/-- A finalization leaves its task one final version. -/
theorem final_of_finalizes (hpl : s.Placed) {version : ScriptVersion} {task : RewriteTask}
    (h : Finalizes cfg s a s' version task) (t i : Uuid) : s'.db.Final t i ↔
      (t = task.id ∧ i = version.id) ∨ (t ≠ task.id ∧ s.db.Final t i) := by
  obtain ⟨out, ⟨p, ids, m, r, -, hp, -, hf⟩, hc⟩ := h
  have hfold := (Db.commit_eq_some.mp hc).1
  have hlocked := hp.resolve_right fun h => (by cases h.2)
  obtain ⟨_, -, hf⟩ := bind_eq_ok.mp hf
  obtain rfl := Except.ok.inj hf
  exact final_of_finalize hfold (hpl.finals p m r version task (.inr hlocked)).2 t i

/-- **Nothing else changes the marks.** -/
theorem finals_of_move (h : Move cfg s a s') : (∀ t i, s'.db.Final t i ↔ s.db.Final t i) ∨
    ∃ version task, Finalizes cfg s a s' version task := by
  cases h with
  | commit hp hids hf hw hc =>
    rcases (writes_of_finish hf).onFinals with hnone | ⟨version, task, rfl⟩
    · exact .inl (Db.final_of_foldlM (Db.commit_eq_some.mp hc).1 hnone)
    · exact .inr ⟨version, task, _, ⟨_, _, _, _, rfl, hp, hids, hf⟩, hc⟩
  | settle ha hp hids hn hgo ht hw hc =>
    rw [enter_db]
    refine .inl (Db.final_of_foldlM (Db.commit_eq_some.mp hc).1 fun w hw => ?_)
    rcases (writes_of_transaction ht).states_or_result with
      hstates | ⟨e, result, stored, resource, rfl, hstored, rfl⟩
    · exact Write.not_onFinals_of_onStates (hstates w hw)
    · rcases List.mem_append.mp hw with hw | hw
      · exact hstored.not_onFinals w hw
      · rcases List.mem_pair.mp hw with rfl | rfl <;> exact id
  | recover he hp hw hc hx =>
    exact .inl (Db.final_of_foldlM (Db.commit_eq_some.mp hc).1 fun w hw =>
      Write.not_onFinals_of_onStates (onStates_of_recover w hw))
  | _ => exact .inl (by simp [Db.Final])

/-- The marks are a register of each task: it holds one final version or none. -/
def Marked (s : Sys) (final : Uuid → Option Uuid) : Prop :=
  ∀ t i, s.db.Final t i ↔ final t = some i

/-- A finalization writes the register of its task, and no other step writes one. -/
theorem Marked.move {final : Uuid → Option Uuid} (hm : s.Marked final) (hpl : s.Placed)
    (h : Move cfg s a s') : s'.Marked final ∨ ∃ version task, Finalizes cfg s a s' version task ∧
      s'.Marked (Function.update final task.id (some version.id)) := by
  rcases finals_of_move h with hsame | ⟨version, task, hfin⟩
  · exact .inl fun t i => (hsame t i).trans (hm t i)
  · refine .inr ⟨version, task, hfin, fun t i => ?_⟩
    rw [final_of_finalizes hpl hfin, hm]
    by_cases ht : t = task.id
    · subst ht
      simp [eq_comm]
    · simp [ht]

/-- **Every task has one final version or none**, in every run. -/
theorem marked {P : Sys → Action → Prop} (hs : Reach (system cfg) P s) :
    ∃ final, s.Marked final := by
  refine hs.invariant (I := fun s => ∃ final, s.Marked final) (fun s hi => ⟨fun _ => none, ?_⟩) ?_
  · intro t i
    simp [Db.Final, hi.versions]
  · rintro s a s' hr ⟨final, hm⟩ - h
    rcases hm.move (placed hr) (move_of_step h) with hm | ⟨version, task, -, hm⟩
    · exact ⟨_, hm⟩
    · exact ⟨_, hm⟩

/-! ## Finalized tasks -/

/-- A task that has a final version keeps one. -/
theorem final_kept (hpl : s.Placed) (h : Move cfg s a s') {t : Uuid} (ht : ∃ i, s.db.Final t i) :
    ∃ i, s'.db.Final t i := by
  obtain ⟨i, hi⟩ := ht
  rcases finals_of_move h with hsame | ⟨version, task, hfin⟩
  · exact ⟨i, (hsame t i).mpr hi⟩
  · by_cases he : t = task.id
    · exact ⟨version.id, (final_of_finalizes hpl hfin _ _).mpr (.inl ⟨he, rfl⟩)⟩
    · exact ⟨i, (final_of_finalizes hpl hfin _ _).mpr (.inr ⟨he, hi⟩)⟩

/-- **A finalized task has a final version**: also one that was archived when it was finalized,
and one an operation will put back into the finalized state. -/
theorem finalized_everywhere {P : Sys → Action → Prop} (hs : Reach (system cfg) P s) :
    s.Everywhere fun t st => st = .finalized → ∃ i, s.db.Final t i := by
  refine hs.invariant (I := fun s => s.Everywhere fun t st => st = .finalized →
    ∃ i, s.db.Final t i) (fun _ => Everywhere.of_initial) fun s a s' hr he _ h => ?_
  have hmove := move_of_step h
  refine he.move (base hr) ?_ hmove
  constructor
  · exact fun t st hQ hst => final_kept (placed hr) hmove (hQ hst)
  · rintro t st (hrun | rfl | rfl) hst
    · subst hst
      cases hrun
    · cases hst
    · cases hst
  · intro parent task payload out _ hst
    cases hst
  · intro version task out hcommit _
    exact ⟨version.id, (final_of_finalizes (placed hr) ⟨out, hcommit⟩ _ _).mpr (.inl ⟨rfl, rfl⟩)⟩
  · intro opId e result ids stored hstores hst
    obtain ⟨p, -, hp⟩ := hstores.job
    have hsettled := (provenance hr p opId _ hp).2.settled
    rw [hst] at hsettled
    cases hsettled

/-- **One final version.** In every reachable state a task has at most one version marked final,
and it has one if it is finalized, if it was archived when finalized, or if an operation works
on it that began when it was finalized. -/
theorem one_final (hs : Reachable cfg s) :
    (∀ v ∈ s.db.versions, ∀ u ∈ s.db.versions, v.taskId = u.taskId → v.isCurrentFinal = true →
      u.isCurrentFinal = true → v = u) ∧
    (∀ t ∈ s.db.tasks, t.state = .finalized ∨ t.archivedFromState = some .finalized →
      ∃ v ∈ s.db.versions, v.taskId = t.id ∧ v.isCurrentFinal = true) ∧
    ∀ o ∈ s.db.operations, o.initialTaskState = .finalized →
      ∃ v ∈ s.db.versions, v.taskId = o.taskId ∧ v.isCurrentFinal = true := by
  obtain ⟨final, hmarked⟩ := marked hs
  have heverywhere := finalized_everywhere hs
  have hfinal : ∀ t, (∃ i, s.db.Final t i) →
      ∃ v ∈ s.db.versions, v.taskId = t ∧ v.isCurrentFinal = true := by
    rintro t ⟨i, v, hv, -, htask, hmark⟩
    exact ⟨v, hv, htask, hmark⟩
  refine ⟨fun v hv u hu htask hv' hu' => ?_, fun t ht hst => ?_, fun o ho hst => ?_⟩
  · have h₁ := (hmarked u.taskId v.id).mp ⟨v, hv, rfl, htask, hv'⟩
    have h₂ := (hmarked u.taskId u.id).mp ⟨u, hu, rfl, rfl, hu'⟩
    exact Table.eq_of_key hv hu (Option.some.inj (h₁.symm.trans h₂))
  · obtain ⟨hstate, hfrom⟩ := heverywhere.tasks t ht
    exact hfinal t.id (hst.elim hstate fun h => hfrom _ h rfl)
  · exact hfinal o.taskId ((heverywhere.held.stored o ho).2 hst)

namespace Sample

/-- The first draft is finalized, and the task archived. -/
def finalized : List Action :=
  drafted ++ serve 7 11 (.finalizeVersion 10 100) ++ serve 8 12 (.archiveTask 10)

set_option maxRecDepth 16000 in
/-- Task 10 is finalized and archived. -/
theorem run_finalized : ((system writer).run start finalized).map (fun s =>
    s.db.tasks.rows.any fun t => t.id = 10 && t.archivedFromState = some .finalized) =
      some true := by
  decide

end Sample

/-- The archived task has a final version. -/
theorem one_final_archived : ∃ s : Sys, Reachable Sample.writer s ∧ ∃ v ∈ s.db.versions,
    v.taskId = 10 ∧ v.isCurrentFinal = true := by
  obtain ⟨s, hrun, hcheck⟩ := Option.map_eq_some_iff.mp Sample.run_finalized
  have hs : Reachable Sample.writer s :=
    reach_of_run (.init Sample.initial_start) (fun _ _ _ => trivial) hrun
  obtain ⟨t, ht, hcheck⟩ := List.any_eq_true.mp hcheck
  simp only [Bool.and_eq_true, decide_eq_true_eq] at hcheck
  obtain ⟨-, hfinalized, -⟩ := one_final hs
  obtain ⟨v, hv, htask, hmark⟩ := hfinalized t ht (.inr hcheck.2)
  exact ⟨s, hs, v, hv, htask.trans hcheck.1, hmark⟩

/-! ## Exports -/

/-- What an export answers. -/
theorem handle_exportFinal {db : Db} {m taskId : Uuid} {t : RewriteTask} {st : Stamp}
    {format : ExportFormat} (ht : db.ownedTask taskId m = .ok t) :
    handle cfg db m st (.exportFinal taskId format) =
      (db, match db.versions.scalar fun v => v.taskId = taskId && v.isCurrentFinal with
        | none => .error finalVersionNotFound
        | some v => .ok (.document v.content format taskId)) := by
  rw [handle, opening, ht]
  simp only [Opening.bind]
  split <;> rename_i h
  · split at h
    · obtain rfl := Opening.answer.inj h
      simp_all
    · obtain rfl := Opening.answer.inj h
      simp_all
  · split at h <;> cases h

/-- The step finalizes no version of the task. -/
def LeavesFinal (cfg : Config) (taskId : Uuid) (s : Sys) (a : Action) : Prop :=
  ∀ s' version task, Finalizes cfg s a s' version task → task.id ≠ taskId

/-- The final version of a task stays final until another finalization of the task commits. -/
theorem marked_of_steps {final : Option Uuid} {t : Uuid} (hs : Reachable cfg s)
    (hm : ∀ i, s.db.Final t i ↔ final = some i)
    (h : Steps (system cfg) (LeavesFinal cfg t) s s') (i : Uuid) :
    s'.db.Final t i ↔ final = some i := by
  induction h with
  | refl => exact hm i
  | tail h' hp ha ih =>
    have hmove := move_of_step ha
    rcases finals_of_move hmove with hsame | ⟨version, task, hfin⟩
    · exact (hsame t i).trans ih
    · have hreach : Reachable cfg _ := hs.append (h'.mono fun _ _ _ => trivial)
      rw [final_of_finalizes (placed hreach) hfin]
      simp [(hp _ _ _ hfin).symm, ih]

/-- The answer to a finalization that is committed. -/
theorem finalizes_of_answer {q : ℕ} {ids : List Uuid} {m : Uuid} {r : Request}
    {version : ScriptVersion} {task : RewriteTask} {view : VersionView}
    (h : Move cfg s (.commit q ids) s')
    (hq : s.procs q = .locked m r (.finalizeVersion version task))
    (hanswer : s'.procs q = .answered m r (.ok (.version view))) :
    Finalizes cfg s (.commit q ids) s' version task ∧
      ∃ v, s'.db.versions.get version.id = some v ∧ view = v.view := by
  have hinj : ∀ {m' r' pd'}, s.procs q = .locked m' r' pd' ∨
      s.procs q = .opened m' r' pd' ∧ pd'.task = none → pd' = .finalizeVersion version task := by
    intro m' r' pd' hp
    rcases hp with hp | ⟨hp, -⟩
    · exact (Proc.locked.inj (hp.symm.trans hq)).2.2
    · cases hp.symm.trans hq
  cases h with
  | reject hp hf =>
    simp only [unlock_procs, setProc_procs, Function.update_self, Proc.answered.injEq] at hanswer
    cases hanswer.2.2
  | refuse hp hf hc =>
    obtain rfl := hinj hp
    simp only [unlock_procs, setProc_procs, Function.update_self, refused] at hanswer
    cases (Proc.answered.inj hanswer).2.2
  | commit hp hids hf hw hc =>
    obtain rfl := hinj hp
    refine ⟨⟨_, ⟨q, ids, _, _, rfl, hp, hids, hf⟩, hc⟩, ?_⟩
    obtain ⟨_, -, hf⟩ := bind_eq_ok.mp hf
    obtain rfl := Except.ok.inj hf
    simp only [unlock_procs, setProc_procs, Function.update_self] at hanswer
    have hreply := (Proc.answered.inj hanswer).2.2
    rw [versionReply] at hreply
    split at hreply
    · cases hreply
    · rename_i v hv
      exact ⟨v, hv, (Reply.version.inj (Except.ok.inj hreply)).symm⟩

/-- **An export answers with the version finalized last.** Where a finalization of a version is
answered, the answer shows the version as the final one, and from then on, until another version
of the task is finalized, each export of the task by its owner answers with the content shown.
Before the first finalization of the task every export is refused. -/
theorem export_of_finalize (taskId : Uuid) (format : ExportFormat) (st : Stamp) :
    (∀ s, Reach (system cfg) (LeavesFinal cfg taskId) s → ∀ m t, s.db.ownedTask taskId m = .ok t →
      handle cfg s.db m st (.exportFinal taskId format) = (s.db, .error finalVersionNotFound)) ∧
    ∀ s q ids m versionId pd s₁ view s', Reachable cfg s →
      s.procs q = .locked m (.finalizeVersion taskId versionId) pd →
      step cfg s (.commit q ids) = some s₁ →
      s₁.procs q = .answered m (.finalizeVersion taskId versionId) (.ok (.version view)) →
      Steps (system cfg) (LeavesFinal cfg taskId) s₁ s' →
      view.id = versionId ∧ view.isCurrentFinal = true ∧
        handle cfg s'.db m st (.exportFinal taskId format) =
          (s'.db, .ok (.document view.content format taskId)) := by
  constructor
  · intro s hs m t ht
    have hnone : ∀ i, ¬ s.db.Final taskId i := by
      refine hs.invariant (I := fun s => ∀ i, ¬ s.db.Final taskId i) (fun s hi i => ?_) ?_
      · simp [Db.Final, hi.versions]
      · intro s a s' hr hI hp h i hfinal
        rcases finals_of_move (move_of_step h) with hsame | ⟨version, task, hfin⟩
        · exact hI i ((hsame _ i).mp hfinal)
        · rcases (final_of_finalizes (placed hr) hfin _ _).mp hfinal with ⟨he, -⟩ | ⟨-, hold⟩
          · exact hp _ _ _ hfin he.symm
          · exact hI i hold
    rw [handle_exportFinal ht]
    split
    · rfl
    · rename_i v hv
      obtain ⟨hm, hp⟩ := Table.scalar_some hv
      simp only [Bool.and_eq_true, decide_eq_true_eq] at hp
      exact absurd ⟨v, hm, rfl, hp⟩ (hnone v.id)
  · intro s q ids m versionId pd s₁ view s' hs hq h hanswer hrun
    obtain ⟨version, task, rfl, rfl, rfl, t, ht, htid, htowner⟩ := (holding hs).finalize hq
    obtain ⟨hfin, hview⟩ := finalizes_of_answer (move_of_step h) hq hanswer
    obtain ⟨v₁, hv₁, rfl⟩ := hview
    obtain ⟨hm₁, hid₁⟩ := Table.get_eq_some.mp hv₁
    have hid₁ : v₁.id = version.id := hid₁
    have hfinal₁ : ∀ i, s₁.db.Final task.id i ↔ some version.id = some i := fun i => by
      rw [final_of_finalizes (placed hs) hfin]
      simp [eq_comm]
    -- the version is final when it is answered, and stays the only final one of its task
    have hmark : v₁.isCurrentFinal = true := by
      obtain ⟨v, hv, hid, -, hmark⟩ := (hfinal₁ version.id).mpr rfl
      rwa [Table.eq_of_key hm₁ hv (hid₁.trans hid.symm)]
    have hs₁ : Reachable cfg s₁ := .step (a := .commit q ids) hs trivial h
    have hfinal := marked_of_steps hs₁ hfinal₁ hrun
    obtain ⟨v', hv', hcore⟩ := version_of_steps hrun hm₁
    obtain ⟨t₁, ht₁, htid₁, htowner₁⟩ := task_kept (move_of_step h) ht
    obtain ⟨t', ht', htid', htowner'⟩ := task_of_steps hrun ht₁
    have howned : s'.db.ownedTask task.id m = .ok t' := by
      rw [← htid, ← htid₁, ← htid', ← htowner, ← htowner₁, ← htowner']
      exact ownedTask_of_mem ht'
    refine ⟨hid₁, hmark, ?_⟩
    rw [handle_exportFinal howned]
    obtain ⟨u, hu, huid, hutask, humark⟩ := (hfinal version.id).mpr rfl
    split
    · rename_i hnone
      exact absurd (Table.scalar_none.mp hnone u hu) (by simp [hutask, humark])
    · rename_i v hv
      obtain ⟨hm, hp⟩ := Table.scalar_some hv
      simp only [Bool.and_eq_true, decide_eq_true_eq] at hp
      have hid := Option.some.inj ((hfinal v.id).mp ⟨v, hm, rfl, hp⟩)
      have hsame : v = v' := Table.eq_of_key hm hv'
        (hid.symm.trans (hid₁.symm.trans (ScriptVersion.id_of_core hcore).symm))
      rw [hsame, ScriptVersion.content_of_core hcore]
      rfl

namespace Sample

/-- The finalization of the first draft, up to its row lock. -/
def finalizing : List Action :=
  drafted ++ [.request 7 1 (.finalizeVersion 10 100), .lock 7]

/-- The first draft is edited. -/
def editedAfter : List Action :=
  serve 8 12 (.manualEdit 10 100 ⟨⟨"abd".toList, by decide⟩, none⟩)

/-- The step is not that of a finalization. -/
def finalizesNone (s : Sys) (a : Action) : Bool :=
  a.proc.all fun p => match s.procs p with
    | .locked _ _ (.finalizeVersion ..) => false
    | _ => true

/-- The check is enough for the condition. -/
theorem leavesFinal_of_finalizesNone (taskId : Uuid) (s : Sys) (a : Action)
    (h : finalizesNone s a = true) : s.LeavesFinal writer taskId a := by
  rintro s' version task ⟨out, ⟨p, ids, m, r, rfl, hp, -⟩, -⟩
  have hlocked := hp.resolve_right fun h => (by cases h.2)
  simp only [finalizesNone, Action.proc, Option.all_some, hlocked] at h
  cases h

/-- The member's finalization of version 100 of task 10 has its row lock. -/
def isFinalizing : Proc → Bool
  | .locked m (.finalizeVersion taskId versionId) _ => m = 1 && taskId = 10 && versionId = 100
  | _ => false

/-- The content it has answered with. -/
def shown : Proc → Option Text
  | .answered m (.finalizeVersion taskId versionId) (.ok (.version view)) =>
      if m = 1 && taskId = 10 && versionId = 100 then some view.content else none
  | _ => none

theorem locked_of_isFinalizing {x : Proc} (h : isFinalizing x = true) :
    ∃ pd, x = .locked 1 (.finalizeVersion 10 100) pd := by
  unfold isFinalizing at h
  split at h
  · simp only [Bool.and_eq_true, decide_eq_true_eq] at h
    obtain ⟨⟨rfl, rfl⟩, rfl⟩ := h
    exact ⟨_, rfl⟩
  · cases h

theorem answered_of_shown {x : Proc} {content : Text} (h : shown x = some content) :
    ∃ view, x = .answered 1 (.finalizeVersion 10 100) (.ok (.version view)) ∧
      view.content = content := by
  unfold shown at h
  split at h
  · split at h
    · rename_i hids
      simp only [Bool.and_eq_true, decide_eq_true_eq] at hids
      obtain ⟨⟨rfl, rfl⟩, rfl⟩ := hids
      exact ⟨_, rfl, Option.some.inj h⟩
    · cases h
  · cases h

set_option maxRecDepth 16000 in
/-- Version 100 is finalized, and the task edited afterwards. -/
theorem run_editedAfter : (((system writer).run start finalizing).bind fun s =>
    ((system writer).step s (.commit 7 (ids 11))).bind fun s₁ =>
      ((system writer).runIf finalizesNone s₁ editedAfter).map fun s' =>
        isFinalizing (s.procs 7) && decide (shown (s₁.procs 7) = some "abc".toList) &&
          s'.db.versions.rows.any fun v => v.content = "abd".toList) = some true := by
  decide

end Sample

/-- The first draft is exported also when it has been edited. -/
theorem export_of_finalize_edited : ∃ s' : Sys, Reachable Sample.writer s' ∧
    (∃ v ∈ s'.db.versions, v.content = "abd".toList) ∧ ∀ st,
      handle Sample.writer s'.db 1 st (.exportFinal 10 .txt) =
        (s'.db, .ok (.document "abc".toList .txt 10)) := by
  obtain ⟨s, hrun, h⟩ := Option.bind_eq_some_iff.mp Sample.run_editedAfter
  obtain ⟨s₁, hfin, h⟩ := Option.bind_eq_some_iff.mp h
  obtain ⟨s', hrest, hcheck⟩ := Option.map_eq_some_iff.mp h
  simp only [Bool.and_eq_true, decide_eq_true_eq, List.any_eq_true] at hcheck
  obtain ⟨⟨hlocked, hshown⟩, hedited⟩ := hcheck
  have hs : Reachable Sample.writer s :=
    reach_of_run (.init Sample.initial_start) (fun _ _ _ => trivial) hrun
  have hsteps := steps_of_runIf (Sample.leavesFinal_of_finalizesNone 10) hrest
  have hs' : Reachable Sample.writer s' :=
    (Reach.step (a := .commit 7 (Sample.ids 11)) hs trivial hfin).append
      (hsteps.mono fun _ _ _ => trivial)
  obtain ⟨pd, hlocked⟩ := Sample.locked_of_isFinalizing hlocked
  obtain ⟨view, hanswer, hcontent⟩ := Sample.answered_of_shown hshown
  refine ⟨s', hs', ?_, fun st => ?_⟩
  · obtain ⟨v, hv, hv'⟩ := hedited
    exact ⟨v, hv, hv'⟩
  · obtain ⟨-, -, hexport⟩ := (export_of_finalize 10 .txt st).2 s 7 (Sample.ids 11) 1 100 pd s₁
      view s' hs hlocked hfin hanswer hsteps
    rw [hexport, hcontent]

end Sys

end DouyinCaption

import DouyinCaption.Executing
import DouyinCaption.Library.Ancestry
import DouyinCaption.Reading
import DouyinCaption.Versions

/-!
# The history of a task

The versions of a task are a tree. A first draft has no parent, and there is one at most; every
other version was made from a version of the same task that was there before it
(`grows_of_move`). So from every version the parents lead to the first draft, and never back
(`version_tree`), and a version once saved is never lost or changed, but for being final.

That there is one first draft at most is checked before the model is called. It still holds when
the draft is stored because nothing else is stored for the task meanwhile (`due`).
-/

namespace DouyinCaption

open Tables Runs Ancestry Relation

/-! ## Parents -/

/-- The version was made from the other one, of the same task. -/
def ScriptVersion.IsFrom (v u : ScriptVersion) : Prop :=
  v.parentId = some u.id ∧ v.taskId = u.taskId

/-- Both versions are stored, and the first was made from the second. -/
def Db.Parent (db : Db) (v u : ScriptVersion) : Prop :=
  v ∈ db.versions ∧ u ∈ db.versions ∧ v.IsFrom u

/-- A version that may be saved beside those of the database. -/
def Db.Grows (db : Db) (v : ScriptVersion) : Prop :=
  v.kind = .firstDraft ∧ v.parentId = none ∧ db.hasFirstDraft v.taskId = false ∨
    v.kind ≠ .firstDraft ∧ ∃ u ∈ db.cores, v.IsFrom u

theorem hasFirstDraft_eq_false {db : Db} {taskId : Uuid} : db.hasFirstDraft taskId = false ↔
    ∀ v ∈ db.versions, v.taskId = taskId → v.kind ≠ .firstDraft := by
  rw [Db.hasFirstDraft, Option.isSome_eq_false_iff, Option.isNone_iff_eq_none, Table.scalar_none]
  simp

/-- What `create_manual_edit` saves. -/
theorem isFrom_of_finishManualEdit {db : Db} {st : Stamp} {parent : ScriptVersion}
    {task : RewriteTask} {payload : ManualEditCreate} {out : Outcome}
    (h : finishManualEdit db st parent task payload = .ok out) (htask : parent.taskId = task.id) :
    ∃ v : ScriptVersion, out.writes.filterMap Write.addsVersion = [v] ∧ v.kind = .manualEdit ∧
      v.IsFrom parent := by
  obtain ⟨_, -, h⟩ := bind_eq_ok.mp h
  obtain ⟨_, -, h⟩ := bind_eq_ok.mp h
  obtain ⟨_, -, h⟩ := bind_eq_ok.mp h
  obtain rfl := Except.ok.inj h
  exact ⟨_, rfl, rfl, rfl, htask.symm⟩

/-- A version that was made from the core of another was made from it. -/
theorem ScriptVersion.IsFrom.of_core {v u u' : ScriptVersion} (h : v.IsFrom u)
    (hcore : u'.core = u.core) : v.IsFrom u' :=
  ⟨(ScriptVersion.id_of_core hcore) ▸ h.1, h.2.trans (ScriptVersion.taskId_of_core hcore).symm⟩

namespace Sys

variable {cfg : Config} {s s' : Sys} {a : Action}

/-! ## What a step saves -/

/-- A result that is due is a first draft of a task without one, or made from a version of its
task. -/
theorem Due.grows {opId : Uuid} {e : Execution} {result : ServiceResult} {made : VersionResult}
    (hd : s.Due opId e result) (hout : result.output = .version made) (id now : ℕ)
    (metadata : ProviderMetadata) : s.db.Grows (versionRecord e.task.id id now made metadata) := by
  have hmakes := hd.fits.version made hout
  have hfrom := hd.prepared
  generalize e.prepared = prepared at hmakes hfrom
  cases prepared with
  | firstDraft payload record selected hasFirstDraft =>
    obtain ⟨hnone, hkind, hparent⟩ := hmakes
    obtain ⟨-, -, hread, -⟩ := hfrom
    exact .inl ⟨hkind, hparent, hread.symm.trans hnone⟩
  | revision payload parent locks hasFirstDraft basis =>
    obtain ⟨hkind, hparent, -⟩ := hmakes
    obtain ⟨-, ⟨hm, htask, -⟩, -⟩ := hfrom
    refine .inr ⟨fun he => ?_, parent.core, List.mem_map_of_mem hm, hparent, htask.symm⟩
    cases hkind.symm.trans he
  | analysis | suggestions => exact hmakes.elim

/-- **What a step saves**: nothing, or one version that grows the tree of its task. -/
theorem grows_of_move (hl : s.Loaded)
    (hdue : ∀ p opId e result, s.procs p = .job opId (.returned e result) → s.Due opId e result)
    (h : Move cfg s a s') : s'.db.cores = s.db.cores ∨
      ∃ v, s'.db.cores = s.db.cores ++ [ScriptVersion.core v] ∧ s.db.Grows v := by
  rcases cores_of_move h with hsame | ⟨v, happ, hsaves, -⟩
  · exact .inl hsame
  cases hsaves with
  | result ha hp hout hv => exact .inr ⟨v, happ, hv ▸ (hdue _ _ _ _ hp).grows hout _ _ _⟩
  | manualEdit ha hp =>
    rename_i p ids m r parent task payload _ _ _
    subst ha
    cases h with
    | commit hp' hids hf hw hc =>
      obtain ⟨-, -, rfl⟩ : m = _ ∧ r = _ ∧ Pending.manualEdit parent task payload = _ := by
        rcases hp' with hp' | ⟨hp', -⟩
        · exact Proc.locked.inj (hp.symm.trans hp')
        · cases hp.symm.trans hp'
      obtain ⟨hcore, htask⟩ := hl p m r _ parent task (.inr hp) rfl
      obtain ⟨u, hone, hkind, hfrom⟩ := isFrom_of_finishManualEdit hf htask
      refine (Db.cores_of_one (Db.commit_eq_some.mp hc).1 hone).imp_right fun hcores => ?_
      refine ⟨u, hcores, .inr ⟨fun he => ?_, parent.core, hcore, hfrom⟩⟩
      cases hkind.symm.trans he
    | reject | refuse => exact .inl rfl

/-! ## The invariant -/

/-- The versions of every task are a tree under its first draft. -/
structure Versioned (s : Sys) : Prop where
  grown : Grown ScriptVersion.IsFrom (fun v => v.kind = .firstDraft) s.db.cores
  root : ∀ v ∈ s.db.cores, v.kind = .firstDraft ↔ v.parentId = none
  first : ∀ v ∈ s.db.cores, ∀ u ∈ s.db.cores, v.taskId = u.taskId → v.kind = .firstDraft →
    u.kind = .firstDraft → v = u

theorem Versioned.of_initial (h : Initial s) : s.Versioned := by
  have hnil : s.db.cores = [] := by rw [Db.cores, h.versions]; rfl
  constructor <;> rw [hnil]
  · exact .nil
  all_goals exact fun v hv => absurd hv List.not_mem_nil

theorem Versioned.move (hv : s.Versioned) (hl : s.Loaded)
    (hdue : ∀ p opId e result, s.procs p = .job opId (.returned e result) → s.Due opId e result)
    (h : Move cfg s a s') : s'.Versioned := by
  rcases grows_of_move hl hdue h with hsame | ⟨x, happ, hgrows⟩
  · constructor <;> rw [hsame]
    exacts [hv.grown, hv.root, hv.first]
  have hlone : x.kind = .firstDraft → ∀ u ∈ s.db.cores, u.taskId = x.taskId →
      u.kind ≠ .firstDraft := by
    intro hx u hu htask
    obtain ⟨-, -, hnone⟩ := hgrows.resolve_right fun h => h.1 hx
    obtain ⟨w, hw, rfl⟩ := List.mem_map.mp hu
    exact hasFirstDraft_eq_false.mp hnone w hw htask
  have hmem : ∀ v ∈ s'.db.cores, v ∈ s.db.cores ∨ v = x.core := fun v hv =>
    (List.mem_append.mp (happ ▸ hv)).imp_right List.mem_singleton.mp
  constructor
  · rw [happ]
    refine .snoc hv.grown (hgrows.imp (fun h => h.1) ?_)
    rintro ⟨-, u, hu, hfrom⟩
    exact ⟨u, hu, hfrom⟩
  · intro v hm
    rcases hmem v hm with hm | rfl
    · exact hv.root v hm
    · rcases hgrows with ⟨hkind, hnone, -⟩ | ⟨hkind, u, -, hparent, -⟩
      · exact ⟨fun _ => hnone, fun _ => hkind⟩
      · refine ⟨fun he => absurd he hkind, fun hnone => ?_⟩
        cases hparent.symm.trans hnone
  · intro v hm u hm' htask hk hk'
    rcases hmem v hm with hm | rfl <;> rcases hmem u hm' with hm' | rfl
    · exact hv.first v hm u hm' htask hk hk'
    · exact absurd hk (hlone hk' v hm htask)
    · exact absurd hk' (hlone hk u hm' htask.symm)
    · rfl

/-- **The versions of every task are a tree**, in every run in which no operation is declared
stale while a job executes it. -/
theorem versioned (hs : Reach (system cfg) NoStale s) : s.Versioned :=
  hs.invariant (fun _ => Versioned.of_initial) fun _ _ _ hr hv _ h =>
    hv.move (loaded hr) (fun _ _ _ _ hp => due (fun _ _ h => h) hr hp) (move_of_step h)

/-- A stored version has one parent at most. -/
theorem parent_unique (s : Sys) (v u w : ScriptVersion) (hu : s.db.Parent v u)
    (hw : s.db.Parent v w) : u = w :=
  Table.eq_of_key hu.2.1 hw.2.1 (Option.some.inj (hu.2.2.1.symm.trans hw.2.2.1))

/-- **The history of a task is a tree.** A version has no parent just where it is a first draft.
From every version the parents lead, within the task, to its first draft, which is the only one
of the task, and they never lead back. And whatever is stored stays: every later state has the
version with the same kind, parent, content, instruction and provenance. -/
theorem version_tree (hs : Reach (system cfg) NoStale s) :
    (∀ v ∈ s.db.versions, v.kind = .firstDraft ↔ v.parentId = none) ∧
    (∀ v ∈ s.db.versions, ∃ r ∈ s.db.versions, r.taskId = v.taskId ∧ r.kind = .firstDraft ∧
      ReflTransGen s.db.Parent v r ∧ ¬ TransGen s.db.Parent v v ∧
      ∀ r' ∈ s.db.versions, r'.taskId = v.taskId → r'.kind = .firstDraft → r' = r) ∧
    ∀ s', Steps (system cfg) NoStale s s' → ∀ v ∈ s.db.versions,
      ∃ v' ∈ s'.db.versions, v'.core = v.core := by
  have hv := versioned hs
  have hroot : ∀ v ∈ s.db.versions, v.kind = .firstDraft ↔ v.parentId = none := fun v hm =>
    hv.root v.core (List.mem_map_of_mem hm)
  refine ⟨hroot, fun v hm => ?_, fun s' h v hm => version_of_steps h hm⟩
  have hgrown : Grown ScriptVersion.IsFrom (fun v => v.kind = .firstDraft) s.db.versions.rows :=
    hv.grown.of_map
  obtain ⟨r, hr, hkind, hpath⟩ := hgrown.reaches v hm
  have htask : v.taskId = r.taskId := eq_of_path (fun _ _ h => h.2.2.2) hpath
  have hend : ∀ u w, u ∈ s.db.versions ∧ u.kind = .firstDraft → ¬ s.db.Parent u w := by
    rintro u w ⟨hu, hk⟩ hparent
    cases ((hroot u hu).mp hk).symm.trans hparent.2.2.1
  refine ⟨r, hr, htask.symm, hkind, hpath, not_cyclic s.parent_unique hend hpath ⟨hr, hkind⟩,
    fun r' hr' htask' hkind' => ?_⟩
  have hcore := hv.first r'.core (List.mem_map_of_mem hr') r.core (List.mem_map_of_mem hr)
    (htask'.trans htask) hkind' hkind
  exact Table.eq_of_key hr' hr (ScriptVersion.id_of_core hcore)

namespace Sample

/-- The first draft is edited, and the edit is edited. -/
def reedited : List Action :=
  drafted ++ serve 7 11 (.manualEdit 10 100 ⟨⟨"xbd".toList, by decide⟩, none⟩) ++
    serve 8 12 (.manualEdit 10 110 ⟨⟨"xbde".toList, by decide⟩, none⟩)

set_option maxRecDepth 16000 in
theorem run_reedited : ((system writer).runIf noneStale start reedited).map (fun s =>
    decide (s.db.versions.rows.map (fun v => (v.id, v.taskId, v.parentId)) =
      [(100, 10, none), (110, 10, some 100), (120, 10, some 110)])) = some true := by
  decide

end Sample

/-- The second edit leads to the first draft. -/
theorem version_tree_reedited : ∃ s : Sys, Reach (system Sample.writer) NoStale s ∧
    ∃ v ∈ s.db.versions, v.id = 120 ∧ ∃ r ∈ s.db.versions, r.id = 100 ∧ r.kind = .firstDraft ∧
      ReflTransGen s.db.Parent v r ∧ ¬ TransGen s.db.Parent v v := by
  obtain ⟨s, hrun, hcheck⟩ := Option.map_eq_some_iff.mp Sample.run_reedited
  have hrows := of_decide_eq_true hcheck
  have hs := Sample.reach_of_runIf hrun
  obtain ⟨hroot, htree, -⟩ := version_tree hs
  have hmem : ∀ x, x ∈ [((100 : ℕ), (10 : ℕ), (none : Option ℕ)), (110, 10, some 100),
      (120, 10, some 110)] → ∃ v ∈ s.db.versions, (v.id, v.taskId, v.parentId) = x := by
    intro x hx
    rw [← hrows] at hx
    exact List.mem_map.mp hx
  obtain ⟨r, hr, hrx⟩ := hmem (100, 10, none) (by simp)
  obtain ⟨v, hv, hvx⟩ := hmem (120, 10, some 110) (by simp)
  simp only [Prod.mk.injEq] at hrx hvx
  have hkind : r.kind = .firstDraft := (hroot r hr).mpr hrx.2.2
  obtain ⟨r₁, hr₁, -, -, hpath, hback, hone⟩ := htree v hv
  obtain rfl := hone r hr (hrx.2.1.trans hvx.2.1.symm) hkind
  exact ⟨s, hs, v, hv, hvx.1, r, hr, hrx.1, hkind, hpath, hback⟩

end Sys

end DouyinCaption

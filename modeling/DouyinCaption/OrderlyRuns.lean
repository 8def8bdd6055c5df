import DouyinCaption.Executing
import DouyinCaption.Library.Views
import DouyinCaption.Orderly

/-!
# What orderly runs do to a task

In its orderly runs the system simulates the workflow of every task (`simulates`): what is seen
of a task moves along the workflow (`task_flows`), its state and the operation at work on it go
together (`task_coupled`), and the archive gives it back as it took it
(`restored_as_archived`).
-/

namespace DouyinCaption

open Relation Runs Tables

namespace Sys

variable {cfg : Config} {s s' : Sys} {a : Action}

/-! ## The steps of a run -/

/-- **A step is a step of the workflow on every task, or nothing.** -/
theorem flows_of_move (hb : s.Base) (hh : s.Holding cfg) (hx : s.Executing)
    (hprov : ∀ p opId phase, s.procs p = .job opId phase → phase.Provenance cfg) (ht : s.InTune)
    (hc : s.db.Coupled) (hn : s.Orderly a) (h : Move cfg s a s') : s.db.Flows s'.db := by
  cases h with
  | commit hp hids hf hw hcommit => exact flows_of_commit hb hh ht hc hn hp hids hf hcommit
  | settle ha hp hids hnext hgo htrans hw hcommit =>
    rw [enter_db]
    exact flows_of_settle hb hx ht hc hn hp (hprov _ _ _ hp) (writes_of_transaction htrans) hcommit
  | recover he hp hw hcommit hproc =>
    exact flows_of_recover hb hc (hb.ticks _ _ _ hp).2 (hn.recoveries _ (.tick hp)) hcommit
  | configure => exact .of_desk fun _ => rfl
  | _ => exact .of_desk fun _ => by simp

/-- At first there is no job. -/
theorem InTune.of_initial (h : Initial s) : s.InTune where
  jobs := fun p opId phase hp => by simp [h.procs] at hp
  cancels := fun p m r op task hp => by simp [h.procs] at hp

/-- **The system simulates the workflow** in its orderly runs, at every task. -/
theorem simulates : Simulates (system cfg) Orderly (fun s taskId => s.db.view taskId) Flow
    (fun x => ∀ v ∈ x, v.Fits) InTune where
  init := by
    intro s hi
    refine ⟨.of_initial hi, fun taskId v hv => ?_⟩
    obtain ⟨r, hrow, -⟩ := Option.map_eq_some_iff.mp hv
    obtain ⟨t, hget, -⟩ := Option.map_eq_some_iff.mp hrow
    obtain ⟨hm, -⟩ := Table.get_eq_some.mp hget
    simp [hi.tasks] at hm
  kept := fun _ _ hv hflow => hflow.fits hv
  step := by
    intro s a s' hr ht hc hn hstep
    have hmove := move_of_step hstep
    have hb := base hr
    refine ⟨ht.move hb hc hmove, ?_⟩
    exact flows_of_move hb (holding hr) (executing (fun _ _ h => h.noStale) hr)
      (provenance hr) ht hc hn hmove

/-! ## Orderly runs of the sample -/

namespace Sample

/-- A transaction that decides from rows it has read finds them, and none recovers or cleans up. -/
def undisturbed (s : Sys) : Action → Bool
  | .commit p _ => match s.procs p with
      | .locked _ _ pd => pd.task.all fun t =>
          (s.db.tasks.get t.id).all fun t' => decide (t'.snapshot = t.snapshot)
      | _ => true
  | .job p _ => match s.procs p with
      | .job _ (.recovering _ _ [] found) => found.isEmpty
      | .job _ (.restored ..) | .job _ (.sweeping ..) => false
      | _ => true
  | .tick p _ => match s.procs p with
      | .tick _ (.recovering _ [] found) => found.isEmpty
      | _ => true
  | _ => true

/-- The check of a step of an orderly run. -/
def inOrder (s : Sys) (a : Action) : Bool := noneStale s a && undisturbed s a

/-- The check is enough for the condition. -/
theorem orderly_of_inOrder (s : Sys) (a : Action) (h : inOrder s a = true) : s.Orderly a := by
  rw [inOrder, Bool.and_eq_true] at h
  obtain ⟨hstale, h⟩ := h
  refine ⟨noStale_of_noneStale s a hstale, ?_, ?_, ?_, ?_, ?_⟩
  · rintro p ids m r pd t rfl hp ht t' hm hid
    simp only [undisturbed, hp, ht, Option.all_some, Table.get_eq_some.mpr ⟨hm, hid⟩,
      decide_eq_true_eq] at h
    exact h
  · intro found hrec f hf
    have hempty : found.isEmpty = true := by
      cases hrec with
      | job hp | tick hp => simpa only [undisturbed, hp] using h
    rw [List.isEmpty_iff.mp hempty] at hf
    cases hf
  · rintro p e opId x arm o t rfl hp -
    simp [undisturbed, hp] at h
  · rintro p e opId error o rfl hp
    simp [undisturbed, hp] at h
  · rintro p e opId error rfl hp
    simp [undisturbed, hp] at h

/-- A run under the check is an orderly run. -/
theorem orderly_of_runIf {s : Sys} {l : List Action}
    (h : (system writer).runIf inOrder start l = some s) : Reach (system writer) Orderly s :=
  (Reach.init initial_start).append (steps_of_runIf orderly_of_inOrder h)

set_option maxRecDepth 16000 in
/-- Task 10 is analysed. -/
theorem run_analysed : ((system writer).runIf inOrder start analysed).map (fun s =>
    (s.db.tasks.get 10).map RewriteTask.snapshot == some ⟨.analysisReady, none⟩ &&
      (s.db.activeOperation 10).isNone) = some true := by
  decide

/-- Suggestions are asked for. -/
def asked : List Action :=
  suggested.take (analysed.length + 3)

set_option maxRecDepth 16000 in
/-- Suggestions are asked for after the analysis. -/
theorem run_asked : ((system writer).runIf inOrder start asked).map (fun s =>
    decide (s.db.operations.rows.map (fun o => (o.taskId, o.kind, o.isActive)) =
      [(10, .analysis, false), (10, .suggestions, true)] ∧
      s.db.tasks.rows.map RewriteTask.id = [10])) = some true := by
  decide

end Sample

/-! ## The results -/

/-- **What happens to a task in an orderly run is a path of the workflow**, whatever requests,
jobs, recoveries and crashes it is made of. -/
theorem task_flows (hs : Reach (system cfg) Orderly s) (hsteps : Steps (system cfg) Orderly s s')
    (taskId : Uuid) : ReflTransGen Flow (s.db.view taskId) (s'.db.view taskId) :=
  simulates.follows hs hsteps taskId

/-- A task that is created and analysed. -/
theorem task_flows_analysed : ReflTransGen Flow none (some ⟨.analysisReady, none, none⟩) := by
  obtain ⟨s, hrun, hcheck⟩ := Option.map_eq_some_iff.mp Sample.run_analysed
  obtain ⟨hrow, hfree⟩ := Bool.and_eq_true_iff.mp hcheck
  have hpath := task_flows (.init Sample.initial_start)
    (steps_of_runIf Sample.orderly_of_inOrder hrun) 10
  have hview : s.db.view 10 = some ⟨.analysisReady, none, none⟩ := by
    rw [Db.view, Db.desk, eq_of_beq hrow, Option.isNone_iff_eq_none.mp hfree]
    rfl
  exact hview ▸ hpath

/-- **State and operation of a task go together**, in every state of an orderly run: the task is
in a running state just when an operation is active on it, which is the only one and of that
kind, and it is archived just when it knows the state to be restored. -/
theorem task_coupled (hs : Reach (system cfg) Orderly s) : ∀ t ∈ s.db.tasks,
    (t.state.isRunning = true ↔ ∃ o ∈ s.db.operations, o.taskId = t.id ∧ o.isActive = true) ∧
    (∀ o ∈ s.db.operations, o.taskId = t.id → o.isActive = true → t.state = runningState o.kind ∧
      ∀ o' ∈ s.db.operations, o'.taskId = t.id → o'.isActive = true → o' = o) ∧
    (t.state = .archived ↔ t.archivedFromState ≠ none) ∧
    ∀ previous, t.archivedFromState = some previous →
      previous.isRunning = false ∧ previous ≠ .archived := by
  intro t ht
  have hb := base hs
  have hc : s.db.Coupled := (simulates.holds hs).2
  have hsingle := hb.consistent.single
  have hfits := hc t.id _ (Db.view_of_mem ht)
  have hstate : ∀ o ∈ s.db.operations, o.taskId = t.id → o.isActive = true →
      t.state = runningState o.kind := fun o ho htask hact =>
    (hc.state hsingle ht ho htask hact (hb.valid o ho)).trans (hb.valid o ho).running
  refine ⟨⟨fun hrun => ?_, fun ⟨o, ho, htask, hact⟩ => ?_⟩,
    fun o ho htask hact => ⟨hstate o ho htask hact, fun o' ho' htask' hact' => ?_⟩,
    hfits.archived, hfits.from_⟩
  · -- nothing at work would leave the task at rest
    rcases hactive : s.db.activeOperation t.id with _ | o
    · rw [hc.rest ht (Db.activeOperation_eq_none.mp hactive)] at hrun
      cases hrun
    · exact ⟨o, Db.activeOperation_eq_some hactive⟩
  · rw [hstate o ho htask hact]
    exact isRunning_runningState _
  · exact hsingle o' ho' o ho hact' hact (htask'.trans htask.symm)

/-- While suggestions are made, the task is in the state of their operation. -/
theorem task_coupled_asked : ∃ s : Sys, Reach (system Sample.writer) Orderly s ∧
    ∃ t ∈ s.db.tasks, t.id = 10 ∧ t.state = .suggesting ∧ t.archivedFromState = none := by
  obtain ⟨s, hrun, hcheck⟩ := Option.map_eq_some_iff.mp Sample.run_asked
  obtain ⟨hops, htasks⟩ := of_decide_eq_true hcheck
  have hs := Sample.orderly_of_runIf hrun
  obtain ⟨t, ht, hid⟩ : ∃ t ∈ s.db.tasks, t.id = 10 := by
    have hmem : 10 ∈ s.db.tasks.rows.map RewriteTask.id := htasks ▸ List.mem_singleton.mpr rfl
    exact List.mem_map.mp hmem
  have hmem : ((10 : ℕ), AiOperationKind.suggestions, true) ∈
      s.db.operations.rows.map (fun o => (o.taskId, o.kind, o.isActive)) := by simp [hops]
  obtain ⟨o, ho, hrow⟩ := List.mem_map.mp hmem
  simp only [Prod.mk.injEq] at hrow
  obtain ⟨-, hworks, harchived, -⟩ := task_coupled hs t ht
  have hstate : t.state = .suggesting := by
    rw [(hworks o ho (hrow.1.trans hid.symm) hrow.2.2).1, hrow.2.1]
    rfl
  refine ⟨s, hs, t, ht, hid, hstate, of_not_not fun hfrom => ?_⟩
  rw [harchived.mpr hfrom] at hstate
  cases hstate

/-- The task is archived. -/
def Archived (s : Sys) (taskId : Uuid) : Prop :=
  ∃ t, s.db.tasks.get taskId = some t ∧ t.state = .archived

/-- What the workflow sees of a stored task. -/
theorem view_of_get {db : Db} {taskId : Uuid} {t : RewriteTask}
    (hget : db.tasks.get taskId = some t) : ∃ v, db.view taskId = some v ∧
      v.state = t.state ∧ v.archivedFrom = t.archivedFromState := by
  obtain ⟨hm, rfl⟩ := Table.get_eq_some.mp hget
  exact ⟨_, Db.view_of_mem hm, rfl, rfl⟩

/-- While a task stays archived, nothing is seen to happen to it. -/
theorem view_of_archived {taskId : Uuid} (hs : Reach (system cfg) Orderly s)
    (h : Steps (system cfg) (fun s a => s.Orderly a ∧ s.Archived taskId) s s')
    (hlast : s'.Archived taskId) : s'.db.view taskId = s.db.view taskId := by
  induction h with
  | refl => rfl
  | tail hsteps hp hstep ih =>
    rename_i s₁ s₂ b
    obtain ⟨hn, hbefore⟩ := hp
    have hr := hs.append (hsteps.mono fun _ _ h => h.1)
    rw [← ih hbefore]
    obtain ⟨t, hget, hstate⟩ := hbefore
    obtain ⟨t', hget', hstate'⟩ := hlast
    obtain ⟨v, hv, hvs, -⟩ := view_of_get hget
    obtain ⟨v', hv', hvs', -⟩ := view_of_get hget'
    obtain ⟨htune, hfits⟩ := simulates.holds hr
    rcases (simulates.step _ _ _ hr htune hfits hn hstep).2 taskId with he | hflow
    · exact he
    · have hflow : Flow (s₁.db.view taskId) (s₂.db.view taskId) := hflow
      rw [hv, hv'] at hflow ⊢
      rw [hflow.archivedFrom_kept (hfits taskId v hv) (hvs.trans hstate) (hvs'.trans hstate')]

/-- **The archive gives a task back as it took it**: in an orderly run, a task that leaves the
archive is in the state it was in when it entered it, whatever happened in between. -/
theorem restored_as_archived (hs : Reach (system cfg) Orderly s) {s₁ s₂ s₃ : Sys} {a b : Action}
    {taskId : Uuid} {t t' : RewriteTask} (hget : s.db.tasks.get taskId = some t)
    (hstate : t.state ≠ .archived) (ha : s.Orderly a) (henter : step cfg s a = some s₁)
    (hsteps : Steps (system cfg) (fun s a => s.Orderly a ∧ s.Archived taskId) s₁ s₂)
    (hlast : s₁.Archived taskId ∧ s₂.Archived taskId) (hb : s₂.Orderly b)
    (hleave : step cfg s₂ b = some s₃) (hget' : s₃.db.tasks.get taskId = some t')
    (hstate' : t'.state ≠ .archived) : t'.state = t.state ∧ t'.archivedFromState = none := by
  obtain ⟨v, hv, hvs, -⟩ := view_of_get hget
  obtain ⟨v', hv', hvs', hvf'⟩ := view_of_get hget'
  obtain ⟨⟨t₁, hget₁, hstate₁⟩, hlast⟩ := hlast
  obtain ⟨v₁, hv₁, hvs₁, -⟩ := view_of_get hget₁
  have hr₁ : Reach (system cfg) Orderly s₁ := hs.step ha henter
  have hr₂ := hr₁.append (hsteps.mono fun _ _ h => h.1)
  obtain ⟨htune, hfits⟩ := simulates.holds hs
  obtain ⟨htune₂, hfits₂⟩ := simulates.holds hr₂
  have hsame := view_of_archived hr₁ hsteps hlast
  -- the step into the archive
  have hfrom : v₁.archivedFrom = some v.state := by
    rcases (simulates.step _ _ _ hs htune hfits ha henter).2 taskId with he | hflow
    · have he : s₁.db.view taskId = s.db.view taskId := he
      rw [hv, hv₁] at he
      obtain rfl := Option.some.inj he
      exact absurd (hvs.symm.trans (hvs₁.trans hstate₁)) hstate
    · have hflow : Flow (s.db.view taskId) (s₁.db.view taskId) := hflow
      rw [hv, hv₁] at hflow
      exact hflow.archivedFrom_of_enter (hfits taskId v hv) (hvs ▸ hstate) (hvs₁.trans hstate₁)
  -- the step out of it
  rcases (simulates.step _ _ _ hr₂ htune₂ hfits₂ hb hleave).2 taskId with he | hflow
  · have he : s₃.db.view taskId = s₂.db.view taskId := he
    rw [hsame, hv₁, hv'] at he
    obtain rfl := Option.some.inj he
    exact absurd (hvs'.symm.trans (hvs₁.trans hstate₁)) hstate'
  · have hflow : Flow (s₂.db.view taskId) (s₃.db.view taskId) := hflow
    rw [hsame, hv₁, hv'] at hflow
    have hfits₁ : v₁.Fits := hfits₂ taskId v₁ (hsame.trans hv₁)
    obtain ⟨hto, hnone⟩ := hflow.archivedFrom_of_leave hfits₁ (hvs₁.trans hstate₁) (hvs' ▸ hstate')
    refine ⟨?_, hvf'.symm.trans hnone⟩
    rw [← hvs', ← hvs]
    exact Option.some.inj (hto.symm.trans hfrom)

namespace Sample

/-- The task is to be archived. -/
def archiving : List Action := analysed ++ [.request 3 1 (.archiveTask 10), .lock 3]

/-- It is, and it is to be restored. -/
def restoring : List Action := [.request 4 1 (.restoreTask 10), .lock 4]

/-- The task is stored, in a state. -/
def inState (p : TaskState → Bool) (s : Sys) : Bool :=
  (s.db.tasks.get 10).any fun t => p t.state

theorem get_of_inState {p : TaskState → Bool} {s : Sys} (h : inState p s = true) :
    ∃ t, s.db.tasks.get 10 = some t ∧ p t.state = true :=
  (Option.any_eq_true _ _).mp h

theorem archived_of_inState {s : Sys} (h : inState (· = .archived) s = true) : s.Archived 10 := by
  obtain ⟨t, hget, hstate⟩ := get_of_inState h
  exact ⟨t, hget, of_decide_eq_true hstate⟩

/-- The check of a step while the task is archived. -/
def inArchive (s : Sys) (a : Action) : Bool := inOrder s a && inState (· = .archived) s

/-- The check is enough for the condition, and shows the task in the archive. -/
theorem of_inArchive (s : Sys) (a : Action) (h : inArchive s a = true) :
    s.Orderly a ∧ s.Archived 10 := by
  obtain ⟨hn, hstate⟩ := Bool.and_eq_true_iff.mp h
  exact ⟨orderly_of_inOrder s a hn, archived_of_inState hstate⟩

/-- The step that archives the task, and the one that restores it. -/
def commits : Action × Action := (.commit 3 (ids 5), .commit 4 (ids 6))

set_option maxRecDepth 16000 in
/-- Task 10 is archived, and restored after a while. -/
theorem run_restored : ((system writer).runIf inOrder start archiving).bind (fun s =>
    (step writer s commits.1).bind fun s₁ =>
      ((system writer).runIf inArchive s₁ restoring).bind fun s₂ =>
        (step writer s₂ commits.2).map fun s₃ =>
          inOrder s commits.1 && inState (· = .analysisReady) s && inState (· = .archived) s₁ &&
            inArchive s₂ commits.2 && inState (· ≠ .archived) s₃) = some true := by
  decide

end Sample

/-- A task that is archived when its analysis is ready is restored with its analysis ready. -/
theorem restored_as_archived_ready : ∃ s : Sys, Reach (system Sample.writer) Orderly s ∧
    ∃ t, s.db.tasks.get 10 = some t ∧ t.state = .analysisReady ∧ t.archivedFromState = none := by
  obtain ⟨s, hrun, h⟩ := Option.bind_eq_some_iff.mp Sample.run_restored
  obtain ⟨s₁, henter, h⟩ := Option.bind_eq_some_iff.mp h
  obtain ⟨s₂, hrest, h⟩ := Option.bind_eq_some_iff.mp h
  obtain ⟨s₃, hleave, h⟩ := Option.map_eq_some_iff.mp h
  simp only [Bool.and_eq_true] at h
  obtain ⟨⟨⟨⟨ha, hready⟩, harchived⟩, hb⟩, hout⟩ := h
  obtain ⟨t, hget, hstate⟩ := Sample.get_of_inState hready
  obtain ⟨t', hget', hstate'⟩ := Sample.get_of_inState hout
  have hready : t.state = .analysisReady := of_decide_eq_true hstate
  have hs := Sample.orderly_of_runIf hrun
  have hsteps := steps_of_runIf Sample.of_inArchive hrest
  obtain ⟨hb, hin⟩ := Sample.of_inArchive s₂ _ hb
  obtain ⟨hsame, hnone⟩ := restored_as_archived hs hget (by rw [hready]; decide)
    (Sample.orderly_of_inOrder s _ ha) henter hsteps ⟨Sample.archived_of_inState harchived, hin⟩ hb
    hleave hget' (of_decide_eq_true hstate')
  have hr₁ := hs.step (Sample.orderly_of_inOrder s _ ha) henter
  have hr₂ := hr₁.append (hsteps.mono fun _ _ h => h.1)
  exact ⟨s₃, hr₂.step hb hleave, t', hget', hsame.trans hready, hnone⟩

end Sys

end DouyinCaption

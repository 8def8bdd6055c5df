import DouyinCaption.Invariants

/-!
# What a request holds

The rows a request decides from are those its opening has loaded, and a submission's task the one
its row lock has refreshed (`asked`). The task is still there, and the member's (`task_of_asked`).
-/

namespace DouyinCaption

open Tables Runs

/-- The owner of a stored task finds it. -/
theorem ownedTask_of_mem {db : Db} {t : RewriteTask} (ht : t ∈ db.tasks) :
    db.ownedTask t.id t.ownerId = .ok t := by
  rw [Db.ownedTask]
  split
  · rename_i h
    exact absurd (Table.scalar_none.mp h t ht) (by simp)
  · rename_i t' h
    obtain ⟨hm, hp⟩ := Table.scalar_some h
    simp only [Bool.and_eq_true, decide_eq_true_eq] at hp
    rw [Table.eq_of_key hm ht hp.1]

namespace Sys

variable {cfg : Config} {s s' : Sys} {a : Action}

/-- The opening of the request makes this of it, on rows whose tasks are still there. -/
def Asked (cfg : Config) (s : Sys) (m : Uuid) (r : Request) (pd : Pending) : Prop :=
  ∃ db, opening cfg db m r = .pending pd ∧
    ∀ t ∈ db.tasks, ∃ t' ∈ s.db.tasks, t'.id = t.id ∧ t'.ownerId = t.ownerId

theorem Asked.move {m : Uuid} {r : Request} {pd : Pending} (ha : s.Asked cfg m r pd)
    (h : Move cfg s a s') : s'.Asked cfg m r pd := by
  obtain ⟨db, ho, htasks⟩ := ha
  refine ⟨db, ho, fun t ht => ?_⟩
  obtain ⟨t₁, ht₁, hid₁, howner₁⟩ := htasks t ht
  obtain ⟨t₂, ht₂, hid₂, howner₂⟩ := task_kept h ht₁
  exact ⟨t₂, ht₂, hid₂.trans hid₁, howner₂.trans howner₁⟩

/-- A task is kept by every run, with its owner. -/
theorem task_of_steps {P : Sys → Action → Prop} (h : Steps (system cfg) P s s')
    {t : RewriteTask} (ht : t ∈ s.db.tasks) :
    ∃ t' ∈ s'.db.tasks, t'.id = t.id ∧ t'.ownerId = t.ownerId := by
  refine h.invariant (I := fun s' => ∃ t' ∈ s'.db.tasks, t'.id = t.id ∧ t'.ownerId = t.ownerId)
    ⟨t, ht, rfl, rfl⟩ ?_
  rintro s₁ a s₂ ⟨t₁, ht₁, hid₁, howner₁⟩ - h
  obtain ⟨t₂, ht₂, hid₂, howner₂⟩ := task_kept (move_of_step h) ht₁
  exact ⟨t₂, ht₂, hid₂.trans hid₁, howner₂.trans howner₁⟩

/-- What every request holds. -/
structure Holding (cfg : Config) (s : Sys) : Prop where
  opened : ∀ q m r pd, s.procs q = .opened m r pd → s.Asked cfg m r pd
  /-- under its row lock it has refreshed its task -/
  locked : ∀ q m r pd, s.procs q = .locked m r pd →
    ∃ pd₀ db, s.Asked cfg m r pd₀ ∧ pd = pd₀.refresh db

theorem Holding.move (hh : s.Holding cfg) (h : Move cfg s a s') : s'.Holding cfg where
  opened := by
    intro q m r pd hq
    rcases opened_of_move h hq with ⟨hp, -⟩ | ⟨-, ho, hdb⟩
    · exact (hh.opened q m r pd hp).move h
    · exact ⟨s.db, ho, fun t ht => ⟨t, hdb ▸ ht, rfl, rfl⟩⟩
  locked := by
    intro q m r pd hq
    rcases locked_of_move h hq with ⟨hp, -⟩ | ⟨pd₀, t, -, hp, -, -, -, hpd, -⟩
    · obtain ⟨pd₀, db, hasked, hpd⟩ := hh.locked q m r pd hp
      exact ⟨pd₀, db, hasked.move h, hpd⟩
    · exact ⟨pd₀, s.db, (hh.opened q m r pd₀ hp).move h, hpd⟩

/-- **A request holds what its opening has made of it** in every run. -/
theorem holding {P : Sys → Action → Prop} (hs : Reach (system cfg) P s) : s.Holding cfg := by
  refine hs.invariant (fun s hi => ⟨fun q m r pd hq => ?_, fun q m r pd hq => ?_⟩)
    fun _ _ _ _ hh _ h => hh.move (move_of_step h)
  all_goals simp [hi.procs] at hq

/-- The task of a request is one of its member. -/
theorem task_of_asked {m : Uuid} {r : Request} {pd : Pending} (ha : s.Asked cfg m r pd)
    {t : RewriteTask} (ht : pd.task = some t) :
    ∃ t' ∈ s.db.tasks, t'.id = t.id ∧ t'.ownerId = m := by
  obtain ⟨db, ho, htasks⟩ := ha
  obtain ⟨hm, rfl⟩ := (loadedBy_of_opening ho).task t ht
  exact htasks t hm

/-- What a finalization that has its row lock holds. -/
theorem Holding.finalize (hh : s.Holding cfg) {q : ℕ} {m taskId versionId : Uuid} {pd : Pending}
    (hq : s.procs q = .locked m (.finalizeVersion taskId versionId) pd) :
    ∃ version task, pd = .finalizeVersion version task ∧ version.id = versionId ∧
      task.id = taskId ∧ ∃ t ∈ s.db.tasks, t.id = taskId ∧ t.ownerId = m := by
  obtain ⟨pd₀, db', hasked, rfl⟩ := hh.locked q m _ pd hq
  obtain ⟨db, ho, htasks⟩ := hasked
  obtain ⟨version, hv, ho⟩ := Opening.bind_eq_pending.mp ho
  obtain ⟨task, ht, ho⟩ := Opening.bind_eq_pending.mp ho
  obtain rfl := Opening.pending.inj ho
  obtain ⟨hm, rfl, rfl⟩ := ownedTask_eq_ok ht
  refine ⟨version, task, rfl, ?_, rfl, htasks task hm⟩
  rw [Db.ownedVersion] at hv
  split at hv
  · cases hv
  · rename_i v hfound
    obtain rfl := Except.ok.inj hv
    have hp := (Table.scalar_some hfound).2
    simp only [Bool.and_eq_true, decide_eq_true_eq] at hp
    exact hp.1.1

end Sys

end DouyinCaption

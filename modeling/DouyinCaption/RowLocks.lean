import DouyinCaption.Turns

/-!
# Row locks

A row lock stays with its holder while others move (`rowLocks_of_move`), and the row it
protects stays as it is (`get_task_of_move`).
-/

namespace DouyinCaption

open Tables Runs

/-! ## Row locks -/

namespace JobPhase

@[simp] theorem rowLock_onFault (phase : JobPhase) : phase.onFault.rowLock = none := by
  cases phase with
  | leaving lease exit => cases exit <;> rfl
  | _ => rfl

@[simp] theorem rowLock_onCancel (phase : JobPhase) : phase.onCancel.rowLock = none := by
  cases phase <;> rfl

@[simp] theorem rowLock_answer (e : Execution) (call : ModelCall)
    (r : Except AiError CompletionResult) : (answer e call r).rowLock = none := by
  unfold answer
  split
  · rfl
  · split <;> rfl

@[simp] theorem rowLock_exit (exit : Exit) : exit.phase.rowLock = none := by
  cases exit <;> rfl

/-- Only a job that holds the lock of its task goes on to the claim. -/
theorem rowLock_context {db : Db} {check : ProviderCheck} {e : Execution} {t : Uuid}
    (h : (context db check e).rowLock = some t) : t = e.task.id := by
  rw [context] at h
  split at h
  · cases h
  · split at h
    · cases h
    · cases h
    · split at h
      · cases h
      · exact (Option.some.inj h).symm

/-- The phase after a transaction keeps no row lock. -/
theorem rowLock_of_transaction {cfg : Config} {s : Sys} {ids : List Uuid} {st : Stamp}
    {opId : Uuid} {phase phase' : JobPhase} {ws : List Write}
    (ht : phase.transaction s.db st opId = some ws)
    (hn : Sys.JobNext cfg s ids opId phase phase') : phase'.rowLock = none := by
  cases hn with
  | fault => exact rowLock_onFault phase
  | cancel => exact rowLock_onCancel phase
  | advance h =>
    cases phase with
    | recovering op task todo found =>
      cases todo with
      | nil =>
        obtain rfl := Option.some.inj h
        rfl
      | cons o todo => cases ht
    | admitted e model =>
      simp only [advance] at h
      split at h <;> (obtain rfl := Option.some.inj h; rfl)
    | returned e result =>
      simp only [advance] at h
      split at h <;> (obtain rfl := Option.some.inj h; rfl)
    | failing e failure =>
      obtain rfl := Option.some.inj h
      rfl
    | restored e arm op task =>
      simp only [advance] at h
      split at h <;> (obtain rfl := Option.some.inj h; rfl)
    | sweeping error op =>
      obtain rfl := Option.some.inj h
      rfl
    | _ => cases ht

end JobPhase

namespace Sys

variable {cfg : Config} {s s' : Sys} {a : Action}

/-- A job that keeps a row lock has it. -/
def JobsLocked (s : Sys) : Prop :=
  ∀ p opId phase t, s.procs p = .job opId phase → phase.rowLock = some t →
    s.rowLocks t = some p

/-- The phase that has locked the row of its task has the lock. -/
theorem enter_rowLocks_self {p : ℕ} {opId t : Uuid} {phase : JobPhase}
    (h : phase.rowLock = some t) : (s.enter p opId phase).rowLocks t = some p := by
  rw [enter]
  rw [h]
  cases phase.isCalling <;> simp

/-- **A row lock stays with its holder** while others move. -/
theorem rowLocks_of_move (h : Move cfg s a s') {q : ℕ} (hq : a.proc ≠ some q)
    (hl : s.JobsLocked) {t : Uuid} (ht : s.rowLocks t = some q) : s'.rowLocks t = some q := by
  have hne : ∀ {p : ℕ}, some p ≠ some q → q ≠ p := fun hp e => hp (congrArg some e.symm)
  have hnone : ∀ {phase : JobPhase} {s₁ : Sys} {p : ℕ}, phase.rowLock = none →
      ∀ t' ∈ phase.rowLock, s₁.rowFree p t' = true := by
    intro phase s₁ p hnone t' ht'
    rw [hnone] at ht'
    cases ht'
  cases h with
  | lock hp htask hfree hactive =>
    rename_i t₁
    rw [lockRow_rowLocks, setProc_rowLocks]
    by_cases he : t = t₁.id
    · rw [rowFree] at hfree
      rw [← he, ht] at hfree
      exact absurd (of_decide_eq_true hfree) (hne hq)
    · rwa [Function.update_of_ne he]
  | reject | refuse | commit | abort | crash =>
    exact (unlock_rowLocks_of_ne _ _ (hne hq)).mpr ht
  | acquire hp htoken hlock => exact (enter_rowLocks_of_ne _ _ _ _ (hne hq) (hnone rfl)).mpr ht
  | refuseLease hp => exact (enter_rowLocks_of_ne _ _ _ _ (hne hq) (hnone rfl)).mpr ht
  | context hp =>
    refine (enter_rowLocks_of_ne _ _ _ _ (hne hq) fun t' ht' => ?_).mpr ht
    rw [JobPhase.rowLock_context ht', rowFree, hl _ _ _ _ hp rfl]
    exact decide_eq_true rfl
  | answer hp =>
    exact (enter_rowLocks_of_ne _ _ _ _ (hne hq) (hnone (JobPhase.rowLock_answer ..))).mpr ht
  | leave hp =>
    exact (enter_rowLocks_of_ne _ _ _ _ (hne hq) (hnone (JobPhase.rowLock_exit _))).mpr ht
  | advance hp hphase hn htr hfree =>
    exact (enter_rowLocks_of_ne _ _ _ _ (hne hq) hfree).mpr ht
  | fault hp =>
    exact (enter_rowLocks_of_ne _ _ _ _ (hne hq) (hnone (JobPhase.rowLock_onFault _))).mpr ht
  | cancel hp =>
    exact (enter_rowLocks_of_ne _ _ _ _ (hne hq) (hnone (JobPhase.rowLock_onCancel _))).mpr ht
  | settle ha hp hids hn hgo htr hw hc =>
    exact (enter_rowLocks_of_ne _ _ _ _ (hne hq)
      (hnone (JobPhase.rowLock_of_transaction htr hn))).mpr ht
  | _ => exact ht

/-- Jobs keep having the row locks they keep. -/
theorem jobsLocked_of_move (h : Move cfg s a s') (hl : s.JobsLocked) : s'.JobsLocked := by
  intro q opId phase t hq ht
  by_cases ha : a.proc = some q
  swap
  · rcases procs_of_move h ha with hp | ⟨-, opId', hp⟩
    · exact rowLocks_of_move h ha hl (hl q opId phase t (hp ▸ hq) ht)
    · obtain ⟨-, rfl⟩ := Proc.job.inj (hq.symm.trans hp)
      cases ht
  have henter : ∀ {s₁ : Sys} {opId' : Uuid} {phase' : JobPhase},
      (s₁.enter q opId' phase').procs q = .job opId phase →
        (s₁.enter q opId' phase').rowLocks t = some q := by
    intro s₁ opId' phase' h
    rw [enter_procs, Function.update_self] at h
    obtain ⟨rfl, rfl⟩ := Proc.job.inj h
    exact enter_rowLocks_self ht
  have hturn := turn_of_move h ha
  rw [hq] at hturn
  cases h with
  | acquire | refuseLease | context | answer | leave | advance | fault | cancel | settle =>
    obtain rfl := Option.some.inj ha
    exact henter hq
  | execute hp =>
    obtain rfl := Option.some.inj ha
    rw [setProc_procs, Function.update_self] at hq
    obtain ⟨rfl, rfl⟩ := Proc.job.inj hq
    cases ht
  | clock | evict | configure => cases ha
  | crash hp =>
    obtain rfl := Option.some.inj ha
    rw [unlock_procs, setProc_procs, Function.update_self] at hq
    cases hq
  | _ =>
    generalize s.procs q = x at hturn
    cases hturn

/-! ## Locked rows -/

/-- No statement of a transaction locks a row another process has locked: the commit would wait. -/
theorem lockedTask_of_mayWrite {p q : ℕ} {ws : List Write} {t : Uuid}
    (hw : s.mayWrite p ws = true) (ht : s.rowLocks t = some q) (hq : q ≠ p) :
    ∀ w ∈ ws, w.lockedTask s.db ≠ some t := by
  intro w hwm he
  have h := List.all_eq_true.mp hw w hwm
  rw [he] at h
  simp only [rowFree, ht] at h
  exact hq (of_decide_eq_true h)

/-- A commit leaves a row that another process has locked as it is. -/
theorem get_task_of_commit {p q : ℕ} {ws : List Write} {db : Db} {t : Uuid} {row : RewriteTask}
    (hw : s.mayWrite p ws = true) (hc : s.db.commit ws = some db)
    (hreset : ∀ w ∈ ws.tail, w.isReset = false) (ht : s.rowLocks t = some q) (hq : q ≠ p)
    (hrow : s.db.tasks.get t = some row) : db.tasks.get t = some row :=
  Db.get_task_of_foldlM (Db.commit_eq_some.mp hc).1 hrow (lockedTask_of_mayWrite hw ht hq) hreset

/-- **A locked row stays as it is** while others move. -/
theorem get_task_of_move (h : Move cfg s a s') {q : ℕ} (hq : a.proc ≠ some q) {t : Uuid}
    (ht : s.rowLocks t = some q) {row : RewriteTask} (hrow : s.db.tasks.get t = some row) :
    s'.db.tasks.get t = some row := by
  have hne : ∀ {p : ℕ}, some p ≠ some q → q ≠ p := fun hp e => hp (congrArg some e.symm)
  cases h with
  | commit hp hids hf hw hc =>
    exact get_task_of_commit hw hc (writes_of_finish hf).tail_isReset ht (hne hq) hrow
  | settle ha hp hids hn hgo htr hw hc =>
    rw [enter_db]
    exact get_task_of_commit hw hc (tail_of_transaction htr) ht (hne hq) hrow
  | recover he hp hw hc hx =>
    exact get_task_of_commit hw hc
      (fun w hw => isReset_of_recoverWrites w (List.mem_of_mem_tail hw))
      ht (hne hq) hrow
  | _ => simpa using hrow

end Sys

end DouyinCaption

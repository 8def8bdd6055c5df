import DouyinCaption.Invariants

/-!
# One provider call for each operation

An operation that is no longer queued never is again (`Taken`), and a job calls the provider
only after it has committed the claim, which finds the operation queued. So an operation is
claimed once, and called for at most once (`provider_called_once`); a cancellation that was
answered with success found the operation queued too, and no call is made for it, before or
after.
-/

namespace DouyinCaption

open Tables Runs

/-- Taking an operation from the queue leaves it queued no longer. -/
theorem Db.not_queued_of_setQueued {db db' : Db} {id : Uuid} {c : OperationChange}
    {ws : List Write} (h : (Write.setQueued id c :: ws).foldlM Write.apply db = some db')
    (hc : c.status ≠ .queued) (hs : ∀ w ∈ ws, w.Sound ∧ ∀ o, w ≠ .addOperation o) :
    ∀ o ∈ db'.operations, o.id = id → o.status ≠ .queued := by
  rw [List.foldlM_cons] at h
  obtain ⟨db₁, h₁, h₂⟩ := Option.bind_eq_some_iff.mp h
  obtain rfl := Option.some.inj h₁
  intro o' ho' hid hq
  rcases (Db.operations_of_foldlM h₂ fun w hw => (hs w hw).1).1 o' ho' with
    ⟨o₁, ho₁, hb⟩ | ⟨o, ho, -⟩
  · obtain rfl := hb.queued hq
    dsimp only at ho₁
    obtain ⟨o, -, he⟩ := Table.mem_update.mp ho₁
    rw [he] at hid hq
    split at hq
    · rw [OperationChange.apply_status] at hq
      exact hc hq
    · rename_i hn
      rw [if_neg hn] at hid
      simp [hid, hq] at hn
  · exact (hs _ ho).2 o rfl

namespace Sys

variable {cfg : Config} {s s' : Sys} {a : Action}

/-- The operation with an identifier has left the queue. -/
structure Taken (s : Sys) (opId : Uuid) : Prop where
  drawn : opId ∈ s.used
  notQueued : ∀ o ∈ s.db.operations, o.id = opId → o.status ≠ .queued

/-- **An operation that has left the queue never is in it again.** -/
theorem Taken.move {opId : Uuid} (ht : s.Taken opId) (h : Move cfg s a s') : s'.Taken opId where
  drawn := used_of_move h _ ht.drawn
  notQueued := by
    intro o' ho' hid hq
    rcases (opsEvolve_of_move h).origin o' ho' with ⟨o, ho, hb⟩ | hnew
    · obtain rfl := hb.queued hq
      exact ht.notQueued o' ho hid hq
    · exact hnew.fresh (hid ▸ ht.drawn)

/-- An operation that has been taken is queued no more. -/
theorem Taken.not_isQueued {opId : Uuid} (ht : s.Taken opId) : s.db.isQueued opId = false := by
  rw [Db.isQueued, Option.isSome_eq_false_iff, Option.isNone_iff_eq_none, Table.scalar_none]
  intro o ho hp
  simp only [Bool.and_eq_true, decide_eq_true_eq] at hp
  exact ht.notQueued o ho hp.1 hp.2

/-! ## The claim -/

/-- What a claimed job was before a step: a job that found its operation queued and has
committed its claim. -/
theorem claimed_of_move (h : Move cfg s a s') {q : ℕ} {opId : Uuid} {e : Execution}
    {model : Text} (hq : s'.procs q = .job opId (.claimed e model)) :
    s.procs q = .job opId (.claimed e model) ∧ a.proc ≠ some q ∨
      a.proc = some q ∧ s.procs q = .job opId (.admitted e model) ∧
        s.db.isQueued e.op.id = true ∧
        s.db.commit (claimWrites e s.now) = some s'.db := by
  rcases job_of_move h hq with hold | ⟨hc, -⟩ | ⟨ev, phase₀, rfl, hp, hstep⟩
  · exact .inl hold
  · cases hc
  right
  obtain ⟨rfl, hqueued⟩ := from_of_step hstep
  refine ⟨rfl, hp, hqueued, ?_⟩
  have htr : (JobPhase.admitted e model).transaction s.db ⟨s.now, []⟩ opId =
      some (claimWrites e s.now) := if_pos hqueued
  have huniq : ∀ {opId' : Uuid} {phase' : JobPhase}, s.procs q = .job opId' phase' →
      opId' = opId ∧ phase' = .admitted e model := fun hp' => by
    obtain ⟨rfl, rfl⟩ := Proc.job.inj (hp'.symm.trans hp)
    exact ⟨rfl, rfl⟩
  cases h with
  | settle ha hp' hids hn hgo ht hw hc =>
    obtain ⟨rfl, rfl⟩ := huniq hp'
    rw [enter_db]
    obtain rfl : claimWrites e s.now = _ := Option.some.inj (htr.symm.trans ht)
    exact hc
  | advance hp' hphase hn ht hfree =>
    obtain ⟨rfl, rfl⟩ := huniq hp'
    exact absurd (htr.symm.trans ht) (by simp)
  | fault hp' =>
    obtain ⟨rfl, rfl⟩ := huniq hp'
    rw [enter_procs, Function.update_self] at hq
    cases hq
  | cancel hp' =>
    obtain ⟨rfl, rfl⟩ := huniq hp'
    rw [enter_procs, Function.update_self] at hq
    cases hq
  | crash hp' =>
    rw [unlock_procs, setProc_procs, Function.update_self] at hq
    cases hq
  | acquire hp' | refuseLease hp' | context hp' | answer hp' | leave hp' =>
    cases (huniq hp').2

/-! ## The call -/

/-- **Calls of the provider** are made by claimed jobs, one for each claim. -/
theorem calls_of_move (h : Move cfg s a s') : s'.providerCalls = s.providerCalls ∨
    ∃ p opId e model call, a.proc = some p ∧ s.procs p = .job opId (.claimed e model) ∧
      s'.procs p = .job opId (.calling e call) ∧
      s'.providerCalls = opId :: s.providerCalls := by
  have hcall : ∀ {s₁ : Sys} {p : ℕ} {opId : Uuid} {phase phase' : JobPhase} {e : JobEvent},
      a = .job p e → s.procs p = .job opId phase → JobStep cfg s opId phase phase' →
      s' = s₁.enter p opId phase' → s₁.providerCalls = s.providerCalls →
      s'.providerCalls = s.providerCalls ∨
        ∃ p opId e model call, a.proc = some p ∧ s.procs p = .job opId (.claimed e model) ∧
          s'.procs p = .job opId (.calling e call) ∧
          s'.providerCalls = opId :: s.providerCalls := by
    rintro s₁ p opId phase phase' ev rfl hp hstep rfl hs₁
    rw [enter_providerCalls]
    cases phase' with
    | calling e call =>
      obtain ⟨model, rfl, -⟩ := from_of_step hstep
      exact .inr ⟨p, opId, e, model, call, rfl, hp, by simp, by rw [hs₁]; rfl⟩
    | _ => exact .inl hs₁
  cases h with
  | acquire hp htoken hl => exact hcall rfl hp (.acquire htoken hl) rfl rfl
  | refuseLease hp => exact hcall rfl hp .refuseLease rfl rfl
  | context hp => exact hcall rfl hp .context rfl rfl
  | answer hp => exact hcall rfl hp .answer rfl rfl
  | leave hp => exact hcall rfl hp (.next (.advance rfl : JobNext cfg s [] _ _ _)) rfl rfl
  | advance hp hphase hn ht hfree => exact hcall rfl hp (.next (.advance hn)) rfl rfl
  | fault hp => exact hcall rfl hp (.next (.fault : JobNext cfg s [] _ _ _)) rfl rfl
  | cancel hp => exact hcall rfl hp (.next (.cancel : JobNext cfg s [] _ _ _)) rfl rfl
  | settle ha hp hids hn hgo ht hw hc => exact hcall rfl hp (.next hn) rfl rfl
  | _ => exact .inl rfl

/-! ## Answered cancellations -/

/-- No cancellation succeeds before its transaction. -/
theorem opening_cancel_ne_ok {db : Db} {m opId : Uuid} {x : Reply} :
    opening cfg db m (.cancelOperation opId) ≠ .answer (.ok x) := by
  intro h
  simp only [opening] at h
  unfold Opening.bind at h
  split at h <;> cases h

/-- A cancellation is answered with success by a step that takes its operation from the
queue. -/
theorem cancelled_of_move (hb : s.Base) (h : Move cfg s a s') {q : ℕ} {m opId : Uuid} {x : Reply}
    (hq : s'.procs q = .answered m (.cancelOperation opId) (.ok x)) :
    s.procs q = .answered m (.cancelOperation opId) (.ok x) ∧ a.proc ≠ some q ∨
      a.proc = some q ∧ (∃ o ∈ s.db.operations, o.id = opId ∧ o.status = .queued) ∧
        ∀ o ∈ s'.db.operations, o.id = opId → o.status ≠ .queued := by
  refine (old_or_turn h hq fun _ => by simp).imp_right fun ht => ?_
  generalize hx : s.procs q = y at ht
  have hpd : ∀ {pd : Pending}, (y = .locked m (.cancelOperation opId) pd ∨
      y = .opened m (.cancelOperation opId) pd ∧ pd.task = none) →
      ∃ op task, pd = .cancelOperation op task ∧ op.id = opId := by
    rintro pd (rfl | ⟨rfl, -⟩)
    · exact absurd hx ((hb.unlocked q m opId).1 pd)
    · obtain ⟨op, task, rfl⟩ := hb.cancelled q m opId pd hx
      exact ⟨op, task, rfl, (Request.cancelOperation.inj (hb.cancels q m _ op task hx).2.2).symm⟩
  generalize hr : (Except.ok x : Response) = resp at ht
  cases ht with
  | answered ho =>
    subst hr
    exact absurd ho opening_cancel_ne_ok
  | busy => cases hr
  | rejected => cases hr
  | refused hy hsub =>
    obtain ⟨op, task, rfl, -⟩ := hpd hy
    cases hr
  | relookup => exact absurd hx ((hb.unlocked q m opId).2 _)
  | committed hy hf hc =>
    obtain ⟨op, task, rfl, rfl⟩ := hpd hy
    obtain ⟨hqueued, -, hw⟩ := finishCancel_eq_ok hf
    refine ⟨rfl, hqueued, ?_⟩
    rw [hw] at hc
    refine Db.not_queued_of_setQueued (Db.commit_eq_some.mp hc).1 (by simp [OperationChange.status])
      fun w hw => ?_
    split at hw
    · split at hw
      · obtain rfl := List.mem_singleton.mp hw
        exact ⟨trivial, by simp⟩
      · cases hw
    · cases hw

/-! ## The invariant -/

/-- What the calls of the provider keep to. -/
structure Charges (s : Sys) : Prop where
  /-- a called operation has left the queue -/
  called : ∀ opId ∈ s.providerCalls, s.Taken opId
  /-- and is called for once -/
  once : s.providerCalls.Nodup
  /-- a claimed job is alone with its operation, which has not been called for -/
  claimed : ∀ p opId e model, s.procs p = .job opId (.claimed e model) →
    s.Taken opId ∧ opId ∉ s.providerCalls ∧
      ∀ q e' model', s.procs q = .job opId (.claimed e' model') → q = p
  /-- a cancelled operation has not been called for, and no job has claimed it -/
  cancelled : ∀ p m opId x, s.procs p = .answered m (.cancelOperation opId) (.ok x) →
    s.Taken opId ∧ opId ∉ s.providerCalls ∧ ∀ q e model, s.procs q ≠ .job opId (.claimed e model)

/-- At first the provider has not been called. -/
theorem Charges.of_initial (h : Initial s) : s.Charges where
  called := by simp [h.providerCalls]
  once := by simp [h.providerCalls]
  claimed := fun p opId e model hp => by simp [h.procs] at hp
  cancelled := fun p m opId x hp => by simp [h.procs] at hp

/-- So a second claim of it finds no row. -/
theorem not_isQueued_of_taken {opId : Uuid} {e : Execution} (ht : s.Taken opId)
    (hid : e.op.id = opId) : ¬ s.db.isQueued e.op.id = true := by
  rw [hid, ht.not_isQueued]
  simp

/-- **The claim decides**: what it keeps of the calls, every step keeps. -/
theorem Charges.move (hb : s.Base) (hc : s.Charges) (h : Move cfg s a s') : s'.Charges where
  called := by
    intro opId hmem
    rcases calls_of_move h with he | ⟨p, opId', e, model, call, -, hp, -, he⟩
    · exact (hc.called opId (he ▸ hmem)).move h
    · rw [he] at hmem
      rcases List.mem_cons.mp hmem with rfl | hmem
      · exact (hc.claimed p _ e model hp).1.move h
      · exact (hc.called opId hmem).move h
  once := by
    rcases calls_of_move h with he | ⟨p, opId', e, model, call, -, hp, -, he⟩
    · exact he ▸ hc.once
    · rw [he]
      exact List.nodup_cons.mpr ⟨(hc.claimed p opId' e model hp).2.1, hc.once⟩
  claimed := by
    intro p opId e model hp'
    rcases claimed_of_move h hp' with ⟨hp, ha⟩ | ⟨ha, hp, hqueued, hcommit⟩
    · obtain ⟨ht, hnot, huniq⟩ := hc.claimed p opId e model hp
      refine ⟨ht.move h, ?_, fun q e' model' hq' => ?_⟩
      · rcases calls_of_move h with he | ⟨q, opId', e', model', call, hq, hqp, -, he⟩
        · exact he ▸ hnot
        · rw [he, List.mem_cons, not_or]
          refine ⟨?_, hnot⟩
          rintro rfl
          exact ha (huniq q e' model' hqp ▸ hq)
      · rcases claimed_of_move h hq' with ⟨hq, -⟩ | ⟨-, hq, hqueued, -⟩
        · exact huniq q e' model' hq
        · exact absurd hqueued (not_isQueued_of_taken ht (hb.jobs q opId _ hq).1.1)
    · have hwf := (hb.jobs p opId _ hp).1
      have hnotTaken : ¬ s.Taken opId := fun ht =>
        not_isQueued_of_taken ht hwf.1 hqueued
      refine ⟨⟨used_of_move h _ (hwf.1 ▸ hwf.2.1.drawn), ?_⟩, ?_, fun q e' model' hq' => ?_⟩
      · rw [← hwf.1]
        exact Db.not_queued_of_setQueued (Db.commit_eq_some.mp hcommit).1
          (by simp [OperationChange.status]) (by simp [Write.Sound])
      · rcases calls_of_move h with he | ⟨q, opId', e', model', call, hq, hqp, -, -⟩
        · exact he ▸ fun hmem => hnotTaken (hc.called opId hmem)
        · obtain rfl := Option.some.inj (hq.symm.trans ha)
          cases (Proc.job.inj (hqp.symm.trans hp)).2
      · rcases claimed_of_move h hq' with ⟨hq, -⟩ | ⟨hq, -⟩
        · exact absurd (hc.claimed q opId e' model' hq).1 hnotTaken
        · exact Option.some.inj (hq.symm.trans ha)
  cancelled := by
    intro p m opId x hp'
    rcases cancelled_of_move hb h hp' with ⟨hp, -⟩ | ⟨ha, ⟨o, ho, hid, hqueued⟩, hnot⟩
    · obtain ⟨ht, hnot, hno⟩ := hc.cancelled p m opId x hp
      refine ⟨ht.move h, ?_, fun q e model hq' => ?_⟩
      · rcases calls_of_move h with he | ⟨q, opId', e, model, call, -, hqp, -, he⟩
        · exact he ▸ hnot
        · rw [he, List.mem_cons, not_or]
          refine ⟨?_, hnot⟩
          rintro rfl
          exact hno q e model hqp
      · rcases claimed_of_move h hq' with ⟨hq, -⟩ | ⟨-, hq, hqueued, -⟩
        · exact hno q e model hq
        · exact absurd hqueued (not_isQueued_of_taken ht (hb.jobs q opId _ hq).1.1)
    · have hnotTaken : ¬ s.Taken opId := fun ht => ht.notQueued o ho hid hqueued
      refine ⟨⟨used_of_move h _ (hid ▸ hb.drawn o ho), hnot⟩, ?_, fun q e model hq' => ?_⟩
      · rcases calls_of_move h with he | ⟨q, opId', e, model, call, hq, hqp, hqp', -⟩
        · exact he ▸ fun hmem => hnotTaken (hc.called opId hmem)
        · obtain rfl := Option.some.inj (hq.symm.trans ha)
          cases hqp'.symm.trans hp'
      · rcases claimed_of_move h hq' with ⟨hq, -⟩ | ⟨hq, -⟩
        · exact hnotTaken (hc.claimed q opId e model hq).1
        · obtain rfl := Option.some.inj (hq.symm.trans ha)
          cases hq'.symm.trans hp'

/-- What holds of the calls in every reachable state. -/
theorem charges {P : Sys → Action → Prop} (hs : Reach (system cfg) P s) : s.Charges :=
  hs.invariant (fun _ => Charges.of_initial) fun _ _ _ hr hc _ h =>
    hc.move (base hr) (move_of_step h)

/-- **No operation is charged twice, and no cancelled one at all**: over every run, the
provider is called at most once for an operation, and where a cancellation has been answered
with success it has not been called and never will be. -/
theorem provider_called_once (hs : Reachable cfg s) :
    s.providerCalls.Nodup ∧
      ∀ p m opId x, s.procs p = .answered m (.cancelOperation opId) (.ok x) →
        ∀ s', Steps (system cfg) (fun _ _ => True) s s' → opId ∉ s'.providerCalls := by
  refine ⟨(charges hs).once, fun p m opId x hp s' hs' => ?_⟩
  have hp' : s'.procs p = .answered m (.cancelOperation opId) (.ok x) :=
    hs'.invariant (I := fun s => s.procs p = .answered m (.cancelOperation opId) (.ok x)) hp
      fun _ _ _ hp _ h => answered_of_move (move_of_step h) hp
  exact ((charges (hs.append hs')).cancelled p m opId x hp').2.1

namespace Sample

/-- Operation 20 is called for and fails; operation 60 is cancelled. -/
def cancelled : List Action :=
  called ++ [.job 2 (.answer (.error ⟨.timeout, true, []⟩)), .job 2 (.go (ids 5)),
    .request 3 1 (.submit 10 .analysis none none), .lock 3, .commit 3 (ids 6),
    .request 4 1 (.cancelOperation 60), .commit 4 (ids 7)]

/-- The answer to a cancellation is a success. -/
def cancels (opId : Uuid) : Proc → Bool
  | .answered _ (.cancelOperation i) (.ok _) => i = opId
  | _ => false

theorem exists_of_cancels {opId : Uuid} {x : Proc} (h : cancels opId x = true) :
    ∃ m y, x = .answered m (.cancelOperation opId) (.ok y) := by
  unfold cancels at h
  split at h
  · obtain rfl := of_decide_eq_true h
    exact ⟨_, _, rfl⟩
  · cases h

set_option maxRecDepth 8000 in
/-- The provider is called for operation 20, and operation 60 is cancelled while it is queued. -/
theorem run_cancelled : (((system Sample.cfg).run start cancelled).map fun s =>
    decide (s.providerCalls = [20]) && cancels 60 (s.procs 4)) = some true := by
  decide

end Sample

/-- It is never called for the cancelled one. -/
theorem provider_called_once_cancelled : ∃ s, Reachable Sample.cfg s ∧
    s.providerCalls = [20] ∧ s.providerCalls.Nodup ∧
      ∀ s', Steps (system Sample.cfg) (fun _ _ => True) s s' → 60 ∉ s'.providerCalls := by
  obtain ⟨s, hs, hcheck⟩ := exists_reach_of_run (P := fun _ _ => True) Sample.initial_start
    (fun _ _ _ => trivial) Sample.run_cancelled
  simp only [Bool.and_eq_true, decide_eq_true_eq] at hcheck
  obtain ⟨m, x, hp⟩ := Sample.exists_of_cancels hcheck.2
  obtain ⟨honce, hnever⟩ := provider_called_once hs
  exact ⟨s, hs, hcheck.1, honce, hnever 4 m 60 x hp⟩

end Sys

end DouyinCaption

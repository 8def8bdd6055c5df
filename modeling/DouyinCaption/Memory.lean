import DouyinCaption.Turns

/-!
# Rows in memory

An operation a process holds in memory is an earlier state of the stored one (`Knows`), and
the rows a job or a tick holds belong together (`JobPhase.Wf`, `TickPhase.Wf`).
-/

namespace DouyinCaption

open Tables Runs

namespace Sys

variable {cfg : Config} {s s' : Sys} {a : Action}

/-- An operation held in memory is an earlier state of the stored row with its identifier. -/
structure Knows (s : Sys) (o : AiOperation) : Prop where
  drawn : o.id ∈ s.used
  valid : o.Valid
  became : ∀ o' ∈ s.db.operations, o'.id = o.id → o.Became o'

/-- Identifiers once drawn stay drawn. -/
theorem used_of_move (h : Move cfg s a s') : ∀ i ∈ s.used, i ∈ s'.used := by
  cases h with
  | commit => exact fun i hi => List.mem_append_right _ hi
  | settle => simpa using fun i hi => Or.inr hi
  | acquire => simpa using fun i hi => Or.inr hi
  | _ => simp

/-- The operation a step adds has a fresh identifier. -/
theorem NewOperation.fresh {o : AiOperation} (h : NewOperation cfg s a o) : o.id ∉ s.used := by
  obtain ⟨p, m, r, sub, ids, rfl, -, ⟨hlen, -, hfresh⟩, -, rfl⟩ := h
  refine hfresh _ ?_
  obtain ⟨i, rest, rfl⟩ := List.exists_cons_of_length_eq_add_one hlen
  exact List.mem_cons_self

/-- A submission adds an operation that fits its kind: its transition has been asserted. -/
theorem NewOperation.valid {o : AiOperation} (h : NewOperation cfg s a o) : o.Valid := by
  obtain ⟨p, m, r, sub, ids, rfl, -, -, htr, rfl⟩ := h
  obtain ⟨h₁, h₂⟩ := initial_of_assertTransition htr
  exact ⟨rfl, h₁, h₂⟩

/-- A stored operation is known. -/
theorem Knows.of_mem {o : AiOperation} (ho : o ∈ s.db.operations) (hid : o.id ∈ s.used)
    (hv : o.Valid) : s.Knows o where
  drawn := hid
  valid := hv
  became := fun _ ho' he => Table.eq_of_key ho' ho he ▸ .refl o

/-- **What a process knows of an operation stays true.** -/
theorem Knows.move {o : AiOperation} (hk : s.Knows o) (h : Move cfg s a s') : s'.Knows o where
  drawn := used_of_move h _ hk.drawn
  valid := hk.valid
  became := by
    intro o' ho' he
    rcases (opsEvolve_of_move h).origin o' ho' with ⟨o₁, ho₁, hb⟩ | hnew
    · exact (hk.became o₁ ho₁ (hb.same.id ▸ he)).trans hb
    · exact absurd (he ▸ hk.drawn) hnew.fresh

end Sys

/-- A selected stale operation with the task loaded for it. -/
def FoundWf (known : AiOperation → Prop) (f : AiOperation × Option RewriteTask) : Prop :=
  known f.1 ∧ f.1.status = .running ∧ ∀ t ∈ f.2, t.id = f.1.taskId

/-- The rows a job holds in memory belong together. -/
def JobPhase.Wf (opId : Uuid) (known : AiOperation → Prop) : JobPhase → Prop
  | .began op task | .reading op task .. | .ready op task _ =>
      op.id = opId ∧ known op ∧ task.id = op.taskId
  | .recovering op task todo found =>
      (op.id = opId ∧ known op ∧ task.id = op.taskId) ∧
        (∀ o ∈ todo, known o ∧ o.status = .running) ∧ ∀ f ∈ found, FoundWf known f
  | .leased e | .checked e | .locked e | .admitted e _ | .claimed e _ | .calling e _
  | .returned e _ | .succeeded e | .failing e _ | .restoring e _ =>
      (e.op.id = opId ∧ known e.op ∧ e.task.id = e.op.taskId) ∧ e.lease.key = e.op.ownerId
  | .restored e _ op task =>
      ((e.op.id = opId ∧ known e.op ∧ e.task.id = e.op.taskId) ∧ e.lease.key = e.op.ownerId) ∧
        (∀ o ∈ op, o.id = opId ∧ known o) ∧ ∀ t ∈ task, t.id = e.task.id
  | .sweeping _ op => ∀ o ∈ op, o.id = opId ∧ known o
  | .created | .leaving .. | .handling _ | .done => True

/-- The rows a tick holds in memory belong together. -/
def TickPhase.Wf (known : AiOperation → Prop) : TickPhase → Prop
  | .recovering _ todo found =>
      (∀ o ∈ todo, known o ∧ o.status = .running) ∧ ∀ f ∈ found, FoundWf known f
  | _ => True

/-- The stale operations an owner has are running. -/
theorem running_of_staleOperations {db : Db} {m : Uuid} {now : ℕ} {o : AiOperation}
    (h : o ∈ db.staleOperations m now) : o ∈ db.operations ∧ o.status = .running := by
  obtain ⟨hm, hp⟩ := Table.mem_select.mp h
  simp only [AiOperation.isStale, Bool.and_eq_true, decide_eq_true_eq] at hp
  exact ⟨hm, hp.2.1⟩

/-- What is known may grow. -/
theorem TickPhase.Wf.mono {known known' : AiOperation → Prop} (hk : ∀ o, known o → known' o)
    {phase : TickPhase} (h : phase.Wf known) : phase.Wf known' := by
  cases phase with
  | recovering =>
    exact ⟨fun o ho => ⟨hk o (h.1 o ho).1, (h.1 o ho).2⟩,
      fun f hf => ⟨hk _ (h.2 f hf).1, (h.2 f hf).2⟩⟩
  | _ => trivial

namespace JobPhase

variable {opId : Uuid} {known known' : AiOperation → Prop}

theorem Wf.mono (hk : ∀ o, known o → known' o) {phase : JobPhase} (h : phase.Wf opId known) :
    phase.Wf opId known' := by
  cases phase with
  | began | reading | ready => exact ⟨h.1, hk _ h.2.1, h.2.2⟩
  | recovering =>
    exact ⟨⟨h.1.1, hk _ h.1.2.1, h.1.2.2⟩, fun o ho => ⟨hk o (h.2.1 o ho).1, (h.2.1 o ho).2⟩,
      fun f hf => ⟨hk _ (h.2.2 f hf).1, (h.2.2 f hf).2⟩⟩
  | restored =>
    exact ⟨⟨⟨h.1.1.1, hk _ h.1.1.2.1, h.1.1.2.2⟩, h.1.2⟩,
      fun o ho => ⟨(h.2.1 o ho).1, hk o (h.2.1 o ho).2⟩, h.2.2⟩
  | sweeping => exact fun o ho => ⟨(h o ho).1, hk o (h o ho).2⟩
  | created | leaving | handling | done => trivial
  | _ => exact ⟨⟨h.1.1, hk _ h.1.2.1, h.1.2.2⟩, h.2⟩

/-- A job that handles an exception holds no other rows than before. -/
theorem Wf.onFault {phase : JobPhase} (h : phase.Wf opId known) : phase.onFault.Wf opId known := by
  cases phase with
  | leaving lease exit => cases exit <;> trivial
  | claimed | calling | returned | succeeded => exact h
  | _ => trivial

/-- Nor does one that handles a cancellation. -/
theorem Wf.onCancel {phase : JobPhase} (h : phase.Wf opId known) :
    phase.onCancel.Wf opId known := by
  cases phase with
  | claimed | calling | returned | succeeded => exact h
  | _ => trivial

/-- The first reads of a job load a stored operation. -/
theorem Wf.begin {db : Db} (hk : ∀ o ∈ db.operations, known o) :
    (JobPhase.begin db opId).Wf opId known := by
  rw [JobPhase.begin]
  split
  · trivial
  · rename_i op hop
    obtain ⟨hm, hid⟩ := Table.get_eq_some.mp hop
    by_cases hq : op.status ≠ .queued
    · rw [if_pos hq]
      trivial
    rw [if_neg hq]
    split
    · split
      · trivial
      · rename_i task ht
        split
        · exact ⟨hid, hk op hm, (Table.get_eq_some.mp ht).2⟩
        · trivial
    · trivial

/-- The rows in memory still belong together after an await. -/
theorem Wf.advance {cfg : Config} {db : Db} {st : Stamp} {phase phase' : JobPhase}
    (hk : ∀ o ∈ db.operations, known o)
    (hsame : ∀ o, known o → ∀ o' ∈ db.operations, o'.id = o.id → o.SameRequest o')
    (hwf : phase.Wf opId known) (h : phase.advance cfg db st opId = some phase') :
    phase'.Wf opId known := by
  cases phase with
  | created =>
    obtain rfl := Option.some.inj h
    exact .begin hk
  | began op task =>
    obtain rfl := Option.some.inj h
    refine ⟨hwf, fun o ho => ?_, fun _ hf => (nomatch hf)⟩
    obtain ⟨hm, hr⟩ := running_of_staleOperations ho
    exact ⟨hk o hm, hr⟩
  | recovering op task todo found =>
    cases todo with
    | nil =>
      obtain rfl := Option.some.inj h
      exact hwf.1
    | cons o todo =>
      obtain rfl := Option.some.inj h
      refine ⟨hwf.1, fun o' ho' => hwf.2.1 o' (List.mem_cons_of_mem _ ho'), fun f hf => ?_⟩
      rcases List.mem_append.mp hf with hf | hf
      · exact hwf.2.2 f hf
      · obtain rfl := List.mem_singleton.mp hf
        obtain ⟨hko, hr⟩ := hwf.2.1 o List.mem_cons_self
        refine ⟨hko, hr, fun t ht => ?_⟩
        simp only [staleTask] at ht
        split at ht
        · rename_i he
          rw [← Option.some.inj ht, he]
        · exact (Table.get_eq_some.mp ht).2
  | reading op task todo reads =>
    cases todo with
    | nil =>
      simp only [JobPhase.advance] at h
      split at h
      · obtain rfl := Option.some.inj h
        exact hwf
      · obtain rfl := Option.some.inj h
        trivial
    | cons q todo =>
      simp only [JobPhase.advance] at h
      split at h
      · obtain rfl := Option.some.inj h
        exact hwf
      · obtain rfl := Option.some.inj h
        trivial
  | leased e =>
    simp only [JobPhase.advance] at h
    split at h
    · obtain rfl := Option.some.inj h
      trivial
    · rename_i o ho
      obtain ⟨hm, hid⟩ := Table.get_eq_some.mp ho
      have hreq := hsame _ hwf.1.2.1 o hm hid
      split at h
      · obtain rfl := Option.some.inj h
        refine ⟨⟨hreq.id.trans hwf.1.1, hk o hm, ?_⟩, ?_⟩
        · exact hwf.1.2.2.trans hreq.taskId.symm
        · exact hwf.2.trans hreq.ownerId.symm
      · obtain rfl := Option.some.inj h
        trivial
  | checked e =>
    simp only [JobPhase.advance] at h
    split at h
    · obtain rfl := Option.some.inj h
      trivial
    · rename_i t ht
      obtain rfl := Option.some.inj h
      exact ⟨⟨hwf.1.1, hwf.1.2.1, (Table.get_eq_some.mp ht).2.trans hwf.1.2.2⟩, hwf.2⟩
  | admitted e model =>
    simp only [JobPhase.advance] at h
    split at h
    · obtain rfl := Option.some.inj h
      exact hwf
    · obtain rfl := Option.some.inj h
      trivial
  | claimed e model =>
    simp only [JobPhase.advance] at h
    split at h <;> (obtain rfl := Option.some.inj h; exact hwf)
  | returned e result =>
    simp only [JobPhase.advance] at h
    split at h <;> (obtain rfl := Option.some.inj h; exact hwf)
  | succeeded e =>
    obtain rfl := Option.some.inj h
    trivial
  | failing e failure =>
    obtain rfl := Option.some.inj h
    trivial
  | restoring e arm =>
    obtain rfl := Option.some.inj h
    refine ⟨hwf, fun o ho => ?_, fun t ht => (Table.get_eq_some.mp ht).2⟩
    obtain ⟨hm, hid⟩ := Table.get_eq_some.mp ho
    exact ⟨hid.trans hwf.1.1, hk o hm⟩
  | restored e arm op task =>
    simp only [JobPhase.advance] at h
    split at h <;> (obtain rfl := Option.some.inj h; trivial)
  | leaving lease exit =>
    obtain rfl := Option.some.inj h
    cases exit <;> trivial
  | handling error =>
    obtain rfl := Option.some.inj h
    intro o ho
    obtain ⟨hm, hid⟩ := Table.get_eq_some.mp ho
    exact ⟨hid, hk o hm⟩
  | sweeping error op =>
    obtain rfl := Option.some.inj h
    trivial
  | ready | locked | calling | done => cases h

/-- What is read for the provider concerns no operation. -/
theorem Wf.context {db : Db} {check : ProviderCheck} {e : Execution}
    (h : (JobPhase.locked e).Wf opId known) : (context db check e).Wf opId known := by
  rw [JobPhase.context]
  split
  · trivial
  · split
    · trivial
    · trivial
    · split
      · trivial
      · exact h

/-- Nor does the answer. -/
theorem Wf.answer {e : Execution} {call : ModelCall} {r : Except AiError CompletionResult}
    (h : (JobPhase.calling e call).Wf opId known) : (answer e call r).Wf opId known := by
  unfold JobPhase.answer
  split
  · exact h
  · split <;> exact h

/-- The rows in memory still belong together after a step of the job. -/
theorem Wf.step {cfg : Config} {s : Sys} {phase phase' : JobPhase}
    (hk : ∀ o ∈ s.db.operations, known o)
    (hsame : ∀ o, known o → ∀ o' ∈ s.db.operations, o'.id = o.id → o.SameRequest o')
    (hwf : phase.Wf opId known) (h : Sys.JobStep cfg s opId phase phase') :
    phase'.Wf opId known := by
  cases h with
  | next hn =>
    cases hn with
    | advance h => exact hwf.advance hk hsame h
    | fault => exact hwf.onFault
    | cancel => exact hwf.onCancel
  | acquire htoken hl =>
    refine ⟨hwf, ?_⟩
    exact CallLock.acquire_key hl
  | refuseLease => trivial
  | context => exact hwf.context
  | answer => exact hwf.answer

end JobPhase

end DouyinCaption

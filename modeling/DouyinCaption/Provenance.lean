import DouyinCaption.Invariants
import DouyinCaption.Results

/-!
# Where a job's call and result come from

A job claims its operation only after it has found the task in the operation's running state,
its call is the one `invoke` makes of what it has prepared, and its result fits what it has
prepared (`provenance`).
-/

namespace DouyinCaption

open Tables Runs

/-- What a job holds comes from its own checks and calls. -/
def JobPhase.Provenance (cfg : Config) : JobPhase → Prop
  | .admitted e _ | .claimed e _ | .succeeded e | .failing e _ | .restoring e _
  | .restored e .. => e.task.state = e.op.runningTaskState
  | .calling e call => e.task.state = e.op.runningTaskState ∧
      ∃ model, invoke cfg e.task e.op.initialTaskState model e.prepared = .ok call
  | .returned e result => e.task.state = e.op.runningTaskState ∧ result.Fits e.prepared
  | _ => True

namespace Sys

variable {cfg : Config} {s s' : Sys} {a : Action}

/-- The step lemma: what a phase holds comes from the phase before it. -/
theorem provenance_of_step {opId : Uuid} {phase phase' : JobPhase}
    (h : JobStep cfg s opId phase phase') (hp : phase.Provenance cfg) :
    phase'.Provenance cfg := by
  have hfrom := from_of_step h
  cases phase' with
  | admitted e model => exact hfrom.2
  | claimed e model =>
    obtain ⟨rfl, -⟩ := hfrom
    exact hp
  | calling e call =>
    obtain ⟨model, rfl, hcall⟩ := hfrom
    exact ⟨hp, model, hcall⟩
  | returned e result =>
    obtain ⟨call, response, rfl, hresult⟩ := hfrom
    obtain ⟨hstate, model, hcall⟩ := hp
    exact ⟨hstate, fits_of_invoke hcall hresult⟩
  | succeeded e =>
    obtain ⟨result, rfl⟩ := hfrom
    exact hp.1
  | failing e failure =>
    rcases hfrom with ⟨model, rfl⟩ | ⟨call, rfl⟩ | ⟨result, rfl⟩
    · exact hp
    · exact hp.1
    · exact hp.1
  | restoring e arm =>
    rcases hfrom with ⟨model, rfl⟩ | ⟨call, rfl⟩ | ⟨result, rfl⟩ | rfl
    · exact hp
    · exact hp.1
    · exact hp.1
    · exact hp
  | restored e arm op task =>
    obtain ⟨rfl, -⟩ := hfrom
    exact hp
  | _ => trivial

/-- **A job's call and result are its own** in every run. -/
theorem provenance {P : Sys → Action → Prop} (hs : Reach (system cfg) P s) :
    ∀ p opId phase, s.procs p = .job opId phase → phase.Provenance cfg := by
  refine hs.invariant (I := fun s => ∀ p opId phase, s.procs p = .job opId phase →
    phase.Provenance cfg) (fun s hi p opId phase hp => ?_) fun s a s' _ hprov _ h => ?_
  · simp [hi.procs] at hp
  · intro p opId phase hp'
    rcases job_of_move (move_of_step h) hp' with ⟨hp, -⟩ | ⟨rfl, -⟩ | ⟨ev, phase₀, -, hp, hstep⟩
    · exact hprov p opId phase hp
    · trivial
    · exact provenance_of_step hstep (hprov p opId phase₀ hp)

end Sys

end DouyinCaption

import DouyinCaption.Domain

/-!
# The workflow of a task

What a task goes through, with nothing of how it is stored: it is in a state, archived or not,
and at most one operation works on it. An operation puts it into the state of its kind and, when
it ends, into the state it makes or back into the one it began in; everything else waits until no
operation works on the task.
-/

namespace DouyinCaption

/-- The state an operation of a kind makes. -/
def settledState : AiOperationKind → TaskState
  | .analysis => .analysisReady
  | .suggestions => .suggestionsReady
  | .firstDraft | .revision => .editing

/-- What is seen of a task. -/
structure TaskView where
  state : TaskState
  /-- where it was archived from -/
  archivedFrom : Option TaskState
  /-- the kind of the operation at work, and the state it began in -/
  work : Option (AiOperationKind × TaskState)

/-- A step of the workflow; `none` is a task yet to be created. -/
inductive Flow : Option TaskView → Option TaskView → Prop where
  | create : Flow none (some ⟨.draft, none, none⟩)
  | submit {v : TaskView} {kind : AiOperationKind} (hfree : v.work = none)
      (hallowed : assertTransition v.state (runningState kind) = .ok ()) :
      Flow (some v) (some { v with state := runningState kind, work := some (kind, v.state) })
  /-- the operation has made what it is for -/
  | succeed {v : TaskView} {kind : AiOperationKind} {initial : TaskState}
      (hwork : v.work = some (kind, initial)) :
      Flow (some v) (some { v with state := settledState kind, work := none })
  /-- the operation has failed, or was cancelled -/
  | giveUp {v : TaskView} {kind : AiOperationKind} {initial : TaskState}
      (hwork : v.work = some (kind, initial)) :
      Flow (some v) (some { v with state := initial, work := none })
  | edit {v : TaskView} (hfree : v.work = none) (hstate : v.state ≠ .archived) :
      Flow (some v) (some { v with state := .editing })
  | finalize {v : TaskView} (hfree : v.work = none) (hstate : v.state ≠ .archived) :
      Flow (some v) (some { v with state := .finalized })
  | archive {v : TaskView} (hfree : v.work = none) (hstate : v.state ≠ .archived) :
      Flow (some v) (some { v with state := .archived, archivedFrom := some v.state })
  | restore {v : TaskView} {previous : TaskState} (hfree : v.work = none)
      (hstate : v.state = .archived) (hfrom : v.archivedFrom = some previous) :
      Flow (some v) (some { v with state := previous, archivedFrom := none })

/-! ## What the workflow keeps -/

/-- State, archive and work of a task fit each other. -/
structure TaskView.Fits (v : TaskView) : Prop where
  /-- at work, the task is in the state of the kind, and came from a state at rest -/
  working : ∀ kind initial, v.work = some (kind, initial) → v.state = runningState kind ∧
    initial.isRunning = false ∧ initial ≠ .archived
  /-- else it is at rest -/
  resting : v.work = none → v.state.isRunning = false
  /-- an archived task knows where it was archived from, and no other does -/
  archived : v.state = .archived ↔ v.archivedFrom ≠ none
  /-- it was archived from a state at rest -/
  from_ : ∀ previous, v.archivedFrom = some previous → previous.isRunning = false ∧
    previous ≠ .archived

theorem runningState_ne (kind : AiOperationKind) : runningState kind ≠ .archived := by
  cases kind <;> decide

/-- A task that is not archived keeps fitting in another state at rest, with no work. -/
theorem TaskView.Fits.rest {v : TaskView} (h : v.Fits) (hstate : v.state ≠ .archived)
    {state : TaskState} (hrest : state.isRunning = false) (hne : state ≠ .archived) :
    TaskView.Fits { v with state, work := none } where
  working := fun _ _ hwork => by cases hwork
  resting := fun _ => hrest
  archived := by
    have hnone : v.archivedFrom = none := of_not_not fun hn => hstate (h.archived.mpr hn)
    simp [hnone, hne]
  from_ := h.from_

theorem TaskView.Fits.rest_of_free {v : TaskView} (h : v.Fits) (hfree : v.work = none)
    (hstate : v.state ≠ .archived) {state : TaskState} (hrest : state.isRunning = false)
    (hne : state ≠ .archived) : TaskView.Fits { v with state } := by
  have hfits := h.rest hstate hrest hne
  rwa [← hfree] at hfits

/-- **The workflow keeps state, archive and work of a task fitting**, one step at a time. -/
theorem Flow.fits {x x' : Option TaskView} (h : Flow x x') (hx : ∀ v ∈ x, v.Fits) :
    ∀ v ∈ x', v.Fits := by
  intro v' hv'
  cases h with
  | create =>
    obtain rfl := Option.some.inj hv'
    exact ⟨fun _ _ h => (by cases h), fun _ => rfl,
      ⟨fun h => (by cases h), fun h => absurd rfl h⟩, fun _ h => (by cases h)⟩
  | submit hfree hallowed =>
    rename_i v kind
    obtain rfl := Option.some.inj hv'
    have hv := hx v rfl
    obtain ⟨hrest, hne⟩ := initial_of_assertTransition hallowed
    refine ⟨?_, fun h => (by cases h), ?_, hv.from_⟩
    · rintro kind' initial hwork
      obtain ⟨rfl, rfl⟩ := Prod.mk.inj (Option.some.inj hwork)
      exact ⟨rfl, hrest, hne⟩
    · have hnone : v.archivedFrom = none := of_not_not fun hn => hne (hv.archived.mpr hn)
      simp [hnone, runningState_ne]
  | succeed hwork =>
    rename_i v kind initial
    obtain rfl := Option.some.inj hv'
    have hv := hx v rfl
    have hstate := (hv.working kind initial hwork).1
    refine hv.rest (hstate ▸ runningState_ne kind) ?_ ?_ <;> cases kind <;> decide
  | giveUp hwork =>
    rename_i v kind initial
    obtain rfl := Option.some.inj hv'
    have hv := hx v rfl
    obtain ⟨hstate, hrest, hne⟩ := hv.working kind initial hwork
    exact hv.rest (hstate ▸ runningState_ne kind) hrest hne
  | edit hfree hstate =>
    rename_i v
    obtain rfl := Option.some.inj hv'
    exact (hx v rfl).rest_of_free hfree hstate rfl (by decide)
  | finalize hfree hstate =>
    rename_i v
    obtain rfl := Option.some.inj hv'
    exact (hx v rfl).rest_of_free hfree hstate rfl (by decide)
  | archive hfree hstate =>
    rename_i v
    obtain rfl := Option.some.inj hv'
    have hv := hx v rfl
    refine ⟨fun kind initial hwork => ?_, fun _ => rfl, by simp, ?_⟩
    · exact absurd (hfree.symm.trans hwork) (by simp)
    · rintro previous hfrom
      obtain rfl := Option.some.inj hfrom
      exact ⟨hv.resting hfree, hstate⟩
  | restore hfree hstate hfrom =>
    rename_i v previous
    obtain rfl := Option.some.inj hv'
    have hv := hx v rfl
    obtain ⟨hrest, hne⟩ := hv.from_ previous hfrom
    refine ⟨fun kind initial hwork => ?_, fun _ => hrest, by simp [hne], fun _ h => (by cases h)⟩
    exact absurd (hfree.symm.trans hwork) (by simp)

/-- **An archived task is put back where it was**: while it stays archived, it keeps the state it
was archived from. -/
theorem Flow.archivedFrom_kept {v v' : TaskView} (h : Flow (some v) (some v')) (hv : v.Fits)
    (hstate : v.state = .archived) (hstate' : v'.state = .archived) : v' = v := by
  cases h with
  | submit hfree hallowed => exact absurd hstate' (runningState_ne _)
  | succeed hwork | giveUp hwork =>
    rw [(hv.working _ _ hwork).1] at hstate
    exact absurd hstate (runningState_ne _)
  | edit _ hne | finalize _ hne | archive _ hne => exact absurd hstate hne
  | restore _ _ hfrom => exact absurd hstate' (hv.from_ _ hfrom).2

/-- A task is archived from the state it is in. -/
theorem Flow.archivedFrom_of_enter {v v' : TaskView} (h : Flow (some v) (some v')) (hv : v.Fits)
    (hstate : v.state ≠ .archived) (hstate' : v'.state = .archived) :
    v'.archivedFrom = some v.state := by
  cases h with
  | submit hfree hallowed => exact absurd hstate' (runningState_ne _)
  | succeed hwork =>
    rename_i kind initial
    cases kind <;> cases hstate'
  | giveUp hwork => exact absurd hstate' (hv.working _ _ hwork).2.2
  | edit | finalize => cases hstate'
  | archive => rfl
  | restore _ hstate₀ _ => exact absurd hstate₀ hstate

/-- And it leaves the archive into the state it was archived from. -/
theorem Flow.archivedFrom_of_leave {v v' : TaskView} (h : Flow (some v) (some v')) (hv : v.Fits)
    (hstate : v.state = .archived) (hstate' : v'.state ≠ .archived) :
    v.archivedFrom = some v'.state ∧ v'.archivedFrom = none := by
  cases h with
  | submit hfree hallowed => exact absurd hstate (initial_of_assertTransition hallowed).2
  | succeed hwork | giveUp hwork =>
    rw [(hv.working _ _ hwork).1] at hstate
    exact absurd hstate (runningState_ne _)
  | edit _ hne | finalize _ hne | archive _ hne => exact absurd hstate hne
  | restore _ _ hfrom => exact ⟨hfrom, rfl⟩

end DouyinCaption

import DouyinCaption.Models

/-!
# The workflow service

`app/modules/tasks/service.py`: archiving and restoring, the text of a selection, and the
check of a new lock's range against the others.
-/

namespace DouyinCaption

/-- `TaskSnapshot`, as `archive` and `restore` use it. -/
structure TaskSnapshot where
  state : TaskState
  archivedFromState : Option TaskState
  deriving DecidableEq

/-- The snapshot of a loaded task. -/
def RewriteTask.snapshot (t : RewriteTask) : TaskSnapshot := ⟨t.state, t.archivedFromState⟩

/-- `TaskDomainService.archive` -/
def TaskSnapshot.archive (s : TaskSnapshot) : TaskSnapshot :=
  if s.state = .archived then s
  else { archivedFromState := some s.state, state := .archived }

/-- `TaskDomainService.restore`; `none` for its `ValueError`. -/
def TaskSnapshot.restore (s : TaskSnapshot) : Option TaskSnapshot :=
  if s.state ≠ .archived then none
  else s.archivedFromState.map fun previous => { state := previous, archivedFromState := none }

/-- `selected_text`; `none` for its `ValueError`. -/
def selectedText (content : Text) (startOffset endOffset : ℕ) : Option Text :=
  if endOffset ≤ startOffset ∨ content.length < endOffset then none
  else some ((content.take endOffset).drop startOffset)

/-- `assert_no_overlapping_range` -/
def noOverlappingRange (startOffset endOffset : ℕ) (existing : List (ℕ × ℕ)) : Bool :=
  !existing.any fun r => startOffset < r.2 && r.1 < endOffset

/-- Archiving leaves the task archived. -/
@[simp] theorem TaskSnapshot.archive_state (s : TaskSnapshot) : s.archive.state = .archived := by
  rw [archive]
  split
  · assumption
  · rfl

/-- **Restoring undoes archiving** of a task that is not archived. -/
theorem TaskSnapshot.restore_archive {s : TaskSnapshot} (h : s.state ≠ .archived) :
    s.archive.restore = some { s with archivedFromState := none } := by
  simp [archive, restore, h]

end DouyinCaption

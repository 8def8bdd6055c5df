import DouyinCaption.Handling
import DouyinCaption.System

/-!
# Creating a lock

`create_lock` refuses a range that overlaps a lock of the same version. Locks belong to the
task, so a text locked in one version may be locked again in another that has it once: then no
content with one occurrence satisfies the locks any more (`createLock_consistent_iff`).
-/

namespace DouyinCaption

open Tables Occurrences

/-- `text[start:stop]` -/
def slice (text : Text) (start stop : ℕ) : Text := (text.take stop).drop start

/-- The locks of a task as `validate_lock_constraints` gets them. -/
def Db.lockConstraints (db : Db) (taskId : Uuid) : List LockConstraint :=
  (db.locks.select fun l => l.taskId = taskId).map fun l => ⟨l.text, l.orderIndex⟩

section CreateLock

variable {cfg : Config} {db db' : Db} {m : Uuid} {st : Stamp} {taskId versionId : Uuid}
  {payload : LockedFragmentCreate} {view : LockedFragmentView}

/-- **What a lock that is created adds**: the text of its range in the stored version, and
nothing else. -/
theorem lock_of_createLock
    (h : handle cfg db m st (.createLock taskId versionId payload) = (db', .ok (.lock view))) :
    ∃ v lock, db.versions.get versionId = some v ∧ lock.id = st.id 0 ∧ lock.taskId = taskId ∧
      lock.text = slice v.content payload.startOffset payload.endOffset ∧
      payload.endOffset ≤ v.content.length ∧ db' = { db with locks := db.locks.insert lock } ∧
      view.id = lock.id := by
  obtain ⟨version, task, out, hv, rfl, hf, hc, hr⟩ :=
    complete_of_handle (fun v t => .createLock v t payload) rfl (fun _ _ => rfl)
      (fun _ _ => rfl) (fun _ _ he => nomatch he) h
  obtain ⟨_, -, hf⟩ := bind_eq_ok.mp hf
  split at hf
  · cases hf
  rename_i text htext
  obtain ⟨_, -, hf⟩ := bind_eq_ok.mp hf
  obtain rfl := Except.ok.inj hf
  have happly := (Db.commit_eq_some.mp hc).1
  simp only [List.foldlM_cons, List.foldlM_nil, Write.apply, Option.bind_eq_bind,
    Option.bind_some] at happly
  obtain rfl := Option.some.inj happly
  have hrange : payload.endOffset ≤ version.content.length ∧
      text = slice version.content payload.startOffset payload.endOffset := by
    rw [selectedText] at htext
    split at htext
    · cases htext
    · rename_i hok
      exact ⟨Nat.le_of_not_lt fun hlt => hok (.inr hlt), (Option.some.inj htext).symm⟩
  refine ⟨version, _, hv, rfl, rfl, hrange.2, hrange.1, rfl, ?_⟩
  simp only at hr
  split at hr
  · cases hr
  · rename_i l hl
    obtain rfl : l.view = view := Reply.lock.inj (Except.ok.inj hr)
    exact (Table.get_eq_some.mp hl).2

/-- The constraints after a lock is added. -/
theorem lockConstraints_insert {lock : LockedFragment} (hfresh : db.locks.get lock.id = none) :
    Db.lockConstraints { db with locks := db.locks.insert lock } lock.taskId
      = db.lockConstraints lock.taskId ++ [⟨lock.text, lock.orderIndex⟩] := by
  rw [Db.lockConstraints, Table.select_insert (Table.get_eq_none.mp hfresh), if_pos (by simp),
    List.map_append]
  rfl

end CreateLock

/-- **When a new lock keeps the locks consistent.** Let a version satisfy the locks of its task.
After a lock is created on it, it satisfies them too if and only if its content has one more
disjoint occurrence of the selected text than the task has locks of that text. -/
theorem createLock_consistent_iff (cfg : Config) (db db' : Db) (m : Uuid) (st : Stamp)
    (taskId : Uuid) (v : ScriptVersion) (payload : LockedFragmentCreate)
    (view : LockedFragmentView) (hfresh : db.locks.get (st.id 0) = none)
    (hv : db.versions.get v.id = some v)
    (h : handle cfg db m st (.createLock taskId v.id payload) = (db', .ok (.lock view)))
    (hbefore : validateLockConstraints v.content (db.lockConstraints taskId) = []) :
    validateLockConstraints v.content (db'.lockConstraints taskId) = [] ↔
      HasOccurrences v.content (slice v.content payload.startOffset payload.endOffset)
        (((db.lockConstraints taskId).map LockConstraint.text).count
          (slice v.content payload.startOffset payload.endOffset) + 1) := by
  obtain ⟨v', lock, hv', hid, rfl, htext, -, rfl, -⟩ := lock_of_createLock h
  obtain rfl := Option.some.inj (hv.symm.trans hv')
  rw [← htext, lockConstraints_insert (hid ▸ hfresh), validateLockConstraints_eq_nil,
    List.map_append]
  have hbefore := validateLockConstraints_eq_nil.mp hbefore
  constructor
  · intro hon
    have hcount := hon lock.text
    rwa [List.count_append, List.map_singleton, List.count_singleton_self] at hcount
  · intro hmore t
    by_cases ht : t = lock.text
    · subst ht
      rwa [List.count_append, List.map_singleton, List.count_singleton_self]
    · -- the other texts are locked as often as before
      rw [List.count_append, List.map_singleton, List.count_singleton,
        if_neg (by simpa using Ne.symm ht), Nat.add_zero]
      exact hbefore t

namespace Sample

/-- The first draft of a task. -/
def firstDraft : ScriptVersion where
  id := 11
  taskId := 10
  parentId := none
  kind := .firstDraft
  content := "ab".toList
  instruction := none
  provenance := .obj []
  validationDetails := .obj []
  createdAt := 0

/-- A task in editing with its first draft. -/
def edited : Db := { Sys.Sample.start.db with
  tasks := ⟨[{
    id := 10, ownerId := 1, name := "n".toList, sourceText := "s".toList
    creativeSettings := none, state := .editing, createdAt := 0, updatedAt := 0 }], by decide⟩
  versions := ⟨[firstDraft], by decide⟩ }

/-- The whole text of the first draft is locked. -/
def locked : Db :=
  (handle Sys.Sample.cfg edited 1 ⟨1, [20]⟩ (.createLock 10 11 ⟨0, 2, none, by decide⟩)).1

/-- And the text is saved again, unchanged, as version 30. -/
def savedAgain : Db :=
  (handle Sys.Sample.cfg locked 1 ⟨2, [30]⟩
    (.manualEdit 10 11 ⟨⟨"ab".toList, by decide, by decide⟩, none⟩)).1

/-- Version 30. -/
def manualEdit : ScriptVersion :=
  { firstDraft with
    id := 30, parentId := some 11, kind := .manualEdit
    provenance := .obj [Json.field "source" (.str "member_manual_edit".toList)], createdAt := 2 }

end Sample

/-- The first lock of a text that occurs is consistent. -/
theorem createLock_consistent_iff_first : ∃ db' view,
    handle Sys.Sample.cfg Sample.edited 1 ⟨1, [20]⟩ (.createLock 10 11 ⟨0, 2, none, by decide⟩)
      = (db', .ok (.lock view)) ∧
    validateLockConstraints "ab".toList (db'.lockConstraints 10) = [] := by
  refine ⟨_, _, rfl, ?_⟩
  refine (createLock_consistent_iff Sys.Sample.cfg Sample.edited _ 1 ⟨1, [20]⟩ 10
    Sample.firstDraft ⟨0, 2, none, by decide⟩ _ rfl rfl rfl (by decide)).mpr ?_
  exact ⟨[0], rfl, by decide, List.pairwise_singleton _ _⟩

/-- The text "ab", locked in one version and then in another that has it once: no lock is
missing before, and one is missing after. -/
theorem createLock_contradicts :
    ¬ ∀ (cfg : Config) (db db' : Db) (m : Uuid) (st : Stamp) (taskId : Uuid) (v : ScriptVersion)
      (payload : LockedFragmentCreate) (view : LockedFragmentView),
      db.locks.get (st.id 0) = none → db.versions.get v.id = some v →
      handle cfg db m st (.createLock taskId v.id payload) = (db', .ok (.lock view)) →
      validateLockConstraints v.content (db.lockConstraints taskId) = [] →
        validateLockConstraints v.content (db'.lockConstraints taskId) = [] := by
  intro h
  have hafter := h Sys.Sample.cfg Sample.savedAgain _ 1 ⟨3, [40]⟩ 10 Sample.manualEdit
    ⟨0, 2, none, by decide⟩ _ rfl rfl rfl (by decide)
  revert hafter
  decide

end DouyinCaption

import DouyinCaption.Executing
import DouyinCaption.Reading

/-!
# Locked text

A version that is saved keeps the texts that are locked when it is saved, each at least as
often, disjointly, as it is locked (`locked_text_kept`). A manual edit is checked against the
locks under the row lock of its task; a revision is checked against the locks it was prepared
with, and those are still the stored ones when its result is, as long as no operation is declared
stale while a job executes it. After such a recovery a lock can be set, and the late result is
stored all the same (`locked_text_lost`).
-/

namespace DouyinCaption

open Tables Runs

/-- The texts locked in a task, one for each lock. -/
def Db.lockedTexts (db : Db) (taskId : Uuid) : List Text :=
  (db.locks.select fun l => l.taskId = taskId).map LockedFragment.text

/-- The order of the locks does not matter to what honours them. -/
theorem honours_locksOf {db : Db} {taskId : Uuid} {content : Text}
    (h : Honours content ((db.locksOf taskId).map LockedFragment.text)) :
    Honours content (db.lockedTexts taskId) :=
  h.perm ((List.perm_insertionSort _ _).map LockedFragment.text)

namespace Sys

variable {cfg : Config} {s s' : Sys} {a : Action}

/-- A version made by an operation is a first draft or honours the locks of its task. -/
theorem Due.honours {opId : Uuid} {e : Execution} {result : ServiceResult} {v : VersionResult}
    (hd : s.Due opId e result) (hv : result.output = .version v) :
    v.kind = .firstDraft ∨
      v.kind = .aiRevision ∧ Honours v.content (s.db.lockedTexts e.task.id) := by
  have hmakes := hd.fits.version v hv
  have hfrom := hd.prepared
  generalize e.prepared = prepared at hmakes hfrom
  cases prepared with
  | firstDraft => exact .inl hmakes.2.1
  | revision payload parent locks hasFirstDraft basis =>
    obtain ⟨hkind, -, hon⟩ := hmakes
    obtain ⟨-, -, rfl, -⟩ := hfrom
    exact .inr ⟨hkind, honours_locksOf hon⟩
  | analysis | suggestions => exact hmakes.elim

/-- **Locked text is never lost.** A step leaves the versions as they are, but for the mark of
the final one, or adds one; and a version added that is no first draft contains every text as
often, in disjoint places, as the task has locks with that text when it is saved. -/
theorem locked_text_kept (hs : Reach (system cfg) NoStale s)
    (h : (system cfg).step s a = some s') :
    s'.db.cores = s.db.cores ∨
      ∃ v, s'.db.cores = s.db.cores ++ [ScriptVersion.core v] ∧
        (v.kind ≠ .firstDraft → ∀ t : Text, Occurrences.HasOccurrences v.content t
          ((s.db.lockedTexts v.taskId).count t)) := by
  rcases cores_of_move (move_of_step h) with hsame | ⟨v, happ, hsaves, -⟩
  · exact .inl hsame
  · refine .inr ⟨v, happ, fun hkind => ?_⟩
    cases hsaves with
    | manualEdit ha hp htask hstate hlocks =>
      rw [htask]
      exact hlocks
    | result ha hp hout hv =>
      subst hv
      exact (((due (fun _ _ h => h) hs hp).honours hout).resolve_left hkind).2

namespace Sample

/-- The first draft is locked from its second letter to its third, and edited. -/
def edited : List Action :=
  drafted ++
    serve 7 11 (.createLock 10 100 { startOffset := 1, endOffset := 2, order := by decide }) ++
    [.request 8 1 (.manualEdit 10 100 ⟨⟨"bab".toList, by decide⟩, none⟩), .lock 8]

set_option maxRecDepth 16000 in
/-- With "b" locked, a manual edit is committed. -/
theorem run_edited : (((system writer).runIf noneStale start edited).bind fun s =>
    ((system writer).step s (.commit 8 (ids 12))).map fun s' =>
      decide (s.db.lockedTexts 10 = ["b".toList]) &&
        decide (s.db.cores.length + 1 = s'.db.cores.length) &&
          s'.db.cores.getLast?.any fun v => v.kind = .manualEdit && v.taskId = 10) =
            some true := by
  decide

end Sample

/-- The version it adds has "b" once. -/
theorem locked_text_kept_edited : ∃ s s' : Sys, ∃ v : ScriptVersion,
    Reach (system Sample.writer) NoStale s ∧ s'.db.cores = s.db.cores ++ [v.core] ∧
      Occurrences.HasOccurrences v.content "b".toList 1 := by
  obtain ⟨s, hrun, h⟩ := Option.bind_eq_some_iff.mp Sample.run_edited
  obtain ⟨s', hstep, hcheck⟩ := Option.map_eq_some_iff.mp h
  simp only [Bool.and_eq_true, decide_eq_true_eq, Option.any_eq_true] at hcheck
  obtain ⟨⟨hlocks, hlength⟩, u, hlast, hu⟩ := hcheck
  have hs := Sample.reach_of_runIf hrun
  rcases locked_text_kept hs hstep with hsame | ⟨v, happ, hkeeps⟩
  · rw [hsame] at hlength
    omega
  · rw [happ, List.getLast?_concat] at hlast
    obtain rfl := Option.some.inj hlast
    have htask : v.taskId = 10 := hu.2
    have hkind : v.kind = .manualEdit := hu.1
    have hkept := hkeeps (by rw [hkind]; decide) "b".toList
    rw [htask, hlocks] at hkept
    exact ⟨s, s', v, hs, happ, hkept⟩

namespace Sample

/-- A job revises the first draft and waits for the answer; a worker declares the operation
stale, and the second letter is locked. Then comes the answer. -/
def revisedLate : List Action :=
  drafted ++ serve 7 11 (.submit 10 (.revision ⟨100, .full, ⟨"i".toList, by decide⟩⟩) none none) ++
    claim 8 110 12 3 ++
    [.job 8 (.go (ids 13)), .clock 1000, .startTick 9 1, .tick 9 (.go 0), .tick 9 (.go 0),
      .tick 9 (.go 0)] ++
    serve 10 14 (.createLock 10 100 { startOffset := 1, endOffset := 2, order := by decide }) ++
    [.job 8 (.answer (.ok ⟨"xyz".toList, none⟩))]

/-- The next step stores a revision, and the lock is there already. -/
def losesLock (s : Sys) : Bool :=
  ((system writer).step s (.job 8 (.go (ids 15)))).any fun s' =>
    decide (s.db.cores.length + 1 = s'.db.cores.length) && s'.db.cores.getLast?.any fun v =>
      v.kind = .aiRevision && decide (s.db.lockedTexts v.taskId = ["b".toList]) &&
        v.content = "xyz".toList

/-- A full revision is declared stale, "b" is locked, and its result is stored after all. -/
theorem run_revisedLate :
    ((system writer).run start revisedLate).map losesLock = some true := by
  decide +kernel

end Sample

/-- The late result of a recovered revision is saved without the text that is locked by then. -/
theorem locked_text_lost : ∃ s s' : Sys, ∃ a, ∃ v : ScriptVersion,
    Reachable Sample.writer s ∧ (system Sample.writer).step s a = some s' ∧
      s'.db.cores = s.db.cores ++ [v.core] ∧ v.kind = .aiRevision ∧
      s.db.lockedTexts v.taskId = ["b".toList] ∧
      ¬ Occurrences.HasOccurrences v.content "b".toList 1 := by
  obtain ⟨s, hs, hloses⟩ := exists_reach_of_run (M := system Sample.writer)
    (P := fun _ _ => True) Sample.initial_start (fun _ _ _ => trivial) Sample.run_revisedLate
  obtain ⟨s', hstep, h⟩ := (Option.any_eq_true ..).mp hloses
  simp only [Bool.and_eq_true, decide_eq_true_eq, Option.any_eq_true] at h
  obtain ⟨hlength, u, hlast, ⟨hkind, hlocked⟩, hcontent⟩ := h
  have happ : ∃ v : ScriptVersion, s'.db.cores = s.db.cores ++ [v.core] := by
    have hmove : Move Sample.writer s (.job 8 (.go (Sample.ids 15))) s' := move_of_step hstep
    rcases cores_of_move hmove with hsame | ⟨v, happ, -⟩
    · rw [hsame] at hlength
      omega
    · exact ⟨v, happ⟩
  obtain ⟨v, happ⟩ := happ
  rw [happ, List.getLast?_concat] at hlast
  obtain rfl := Option.some.inj hlast
  refine ⟨s, s', _, v, hs, hstep, happ, hkind, hlocked, ?_⟩
  change ¬ Occurrences.HasOccurrences v.core.content _ 1
  rw [hcontent]
  rintro ⟨positions, hlength, hoccurs, -⟩
  obtain ⟨i, hi⟩ := List.exists_mem_of_length_pos (hlength ▸ Nat.one_pos)
  -- the letter is nowhere in the text
  have hmem : 'b' ∈ "xyz".toList :=
    List.mem_of_mem_drop ((hoccurs i hi).subset List.mem_cons_self)
  exact absurd hmem (by decide)

end Sys

end DouyinCaption

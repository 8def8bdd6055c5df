import DouyinCaption.Artefacts
import DouyinCaption.Executing

/-!
# The analyses of a task

The analyses of a task are numbered in the order they were stored, and the last one is selected
(`analyses_numbered`): a result deselects those that are there and takes the next number, and no
other step changes a number or a selection (`ledger_of_move`).

A result deselects and inserts without the row lock of the task. That the two are one step takes
that no other result of the task is stored in between, so the runs are those in which no operation
is declared stale while a job executes it.
-/

namespace DouyinCaption

open Tables Runs

/-- The numbers of a task's analyses and which are selected, in the order they were stored. -/
def Db.ledger (db : Db) (taskId : Uuid) : List (ℕ × Bool) :=
  (db.analyses.select fun r => r.taskId = taskId).map fun r => (r.sequence, r.isSelected)

/-- Numbered from one, the last selected. -/
def numbered (n : ℕ) : List (ℕ × Bool) := (List.range n).map fun i => (i + 1, decide (i + 1 = n))

/-- One more analysis deselects the others and takes the next number. -/
theorem numbered_succ (n : ℕ) :
    numbered (n + 1) = (numbered n).map (fun x => (x.1, false)) ++ [(n + 1, true)] := by
  rw [numbered, numbered, List.range_succ, List.map_append, List.map_map]
  refine congrArg₂ _ (List.map_congr_left fun i hi => ?_) (by simp)
  have hlt := List.mem_range.mp hi
  simp [hlt.ne]

/-- The highest number is the count. -/
theorem foldl_max_numbered (n : ℕ) : ((numbered n).map Prod.fst).foldl max 0 = n := by
  induction n with
  | zero => rfl
  | succ n ih =>
    have hfst : ∀ l : List (ℕ × Bool), (l.map fun x => (x.1, false)).map Prod.fst =
        l.map Prod.fst := fun l => by simp
    rw [numbered_succ, List.map_append, hfst, List.foldl_append, ih]
    simp

/-- `coalesce(max(sequence), 0) + 1` depends on the numbers of the task alone. -/
theorem Db.nextSequence_eq (db : Db) (taskId : Uuid) :
    db.nextSequence taskId = ((db.ledger taskId).map Prod.fst).foldl max 0 + 1 := by
  rw [Db.nextSequence, Db.ledger, List.map_map]
  rfl

/-! ## Statements -/

/-- The statement adds an analysis or changes selections. -/
def Write.onAnalyses : Write → Bool
  | .addAnalysis _ | .deselectAnalyses _ => true
  | _ => false

/-- A statement that adds no analysis and changes no selection leaves numbers and selections as
they are; a correction changes the payload. -/
theorem Write.ledger_of_apply {w : Write} {db db' : Db} (h : w.apply db = some db')
    (hw : w.onAnalyses = false) (t : Uuid) : db'.ledger t = db.ledger t := by
  cases w with
  | addAnalysis | deselectAnalyses => cases hw
  | setAnalysis id payload notes =>
    obtain ⟨_, -, rfl⟩ := Option.map_eq_some_iff.mp h
    refine (Table.map_select_update (t := db.analyses) (f := fun r =>
      { r with payload := payload, memberNotes := notes }) _ (fun _ => rfl) fun _ => rfl).trans ?_
    simp only [ite_self]
    rfl
  | setTask | decide | setFinal | setOperation | setPreset =>
    obtain ⟨_, -, rfl⟩ := Option.map_eq_some_iff.mp h
    rfl
  | _ =>
    obtain rfl := Option.some.inj h
    rfl

/-- So does a list of such statements, by induction on the list. -/
theorem Db.ledger_of_foldlM {ws : List Write} : ∀ {db db' : Db},
    ws.foldlM Write.apply db = some db' → (∀ w ∈ ws, w.onAnalyses = false) → ∀ t,
      db'.ledger t = db.ledger t := by
  induction ws with
  | nil =>
    intro db db' h _ t
    obtain rfl := Option.some.inj h
    rfl
  | cons w ws ih =>
    intro db db' h hw t
    rw [List.foldlM_cons] at h
    obtain ⟨db₁, h₁, h₂⟩ := Option.bind_eq_some_iff.mp h
    exact (ih h₂ (fun w' hw' => hw w' (List.mem_cons_of_mem _ hw')) t).trans
      (Write.ledger_of_apply h₁ (hw w List.mem_cons_self) t)

/-- What the result of an analysis makes of the numbers and selections. -/
theorem Db.ledger_of_analysis {db db' : Db} {taskId : Uuid} {r : AnalysisRecord}
    (h : [.deselectAnalyses taskId, .addAnalysis r].foldlM Write.apply db = some db')
    (htask : r.taskId = taskId) (hfresh : ∀ x ∈ db.analyses, x.id ≠ r.id) (t : Uuid) :
    db'.ledger t = if t = taskId then
      (db.ledger t).map (fun x => (x.1, false)) ++ [(r.sequence, r.isSelected)]
    else db.ledger t := by
  subst htask
  obtain rfl := Option.some.inj h
  have hnew : (db.analyses.update (fun x => x.taskId = r.taskId)
      fun x => { x with isSelected := false }).Fresh r.id := by
    intro x hx
    obtain ⟨y, hy, rfl⟩ := Table.mem_update.mp hx
    split
    · exact hfresh y hy
    · exact hfresh y hy
  refine (congrArg (List.map _) (Table.select_insert hnew)).trans ?_
  rw [List.map_append]
  refine (congrArg (· ++ _) (Table.map_select_update (t := db.analyses) (f := fun x =>
    { x with isSelected := false }) _ (fun _ => rfl) fun _ => rfl)).trans ?_
  -- the task of the new analysis, and any other
  by_cases ht : r.taskId = t
  · subst ht
    simp only [Db.ledger, if_true, decide_true, List.map_singleton, List.map_map]
    refine congrArg (· ++ _) (List.map_congr_left fun x hx => ?_)
    rw [if_pos (Table.mem_select.mp hx).2]
    rfl
  · simp only [Db.ledger, Ne.symm ht, if_false, ht, decide_false, Bool.false_eq_true, List.map_nil,
      List.append_nil]
    refine List.map_congr_left fun x hx => if_neg fun he => ht ?_
    exact (of_decide_eq_true he).symm.trans (of_decide_eq_true (Table.mem_select.mp hx).2)

/-- Statements about states touch no analysis. -/
theorem Write.onAnalyses_of_onStates {w : Write} (h : w.OnStates) : w.onAnalyses = false := by
  cases w <;> first
    | rfl
    | exact h.elim

/-- No request adds an analysis or selects one. -/
theorem RequestWrites.onAnalyses {cfg : Config} {db : Db} {m : Uuid} {st : Stamp} {pd : Pending}
    {ws : List Write} (h : RequestWrites cfg db m st pd ws) : ∀ w ∈ ws, w.onAnalyses = false := by
  cases h with
  | presets hpd hws =>
    intro w hw
    have hon := hws w hw
    revert hon
    cases w <;> simp [Write.onPresets, Write.onAnalyses]
  | submit hstate hsnapshot =>
    rcases hsnapshot with rfl | ⟨a, ds, -, rfl⟩ <;> simp [Write.onAnalyses]
  | cancelOperation hqueued hreset =>
    exact forall_cancelWrites hreset rfl fun _ _ => rfl
  | _ => simp [storeSnapshot, Write.onAnalyses]

namespace Sys

variable {cfg : Config} {s s' : Sys} {a : Action}

/-! ## Runs -/

/-- **How the numbers and selections change**: by the result of an analysis only, which selects
the new analysis alone and gives it the next number of its task. -/
theorem ledger_of_move (hdrawn : ∀ id, s.db.Names id → id ∈ s.used) (h : Move cfg s a s') :
    (∀ t, s'.db.ledger t = s.db.ledger t) ∨
    ∃ taskId, ∀ t, s'.db.ledger t = if t = taskId then
      (s.db.ledger t).map (fun x => (x.1, false)) ++ [(s.db.nextSequence t, true)]
    else s.db.ledger t := by
  cases changes_of_move h with
  | none members providers he => exact .inl fun t => by rw [he]; rfl
  | request ha hp hids hws hfold => exact .inl (Db.ledger_of_foldlM hfold hws.onAnalyses)
  | states hws hfold =>
    exact .inl (Db.ledger_of_foldlM hfold fun w hw => Write.onAnalyses_of_onStates (hws w hw))
  | result hr =>
    rename_i opId e result ids stored
    obtain ⟨resource, hcommit⟩ := hr.commit
    obtain ⟨db₁, hfold, hsame⟩ := stored_of_successWrites hcommit
    -- the statements after those that store the result are about other tables
    have hledger : ∀ t, s'.db.ledger t = db₁.ledger t := fun t => by
      rw [Db.ledger, hsame.analyses, Db.ledger]
    have hstores := hr.stores
    generalize e.prepared = prepared at hstores
    cases hstores with
    | analysis hid htask hseq hselected =>
      rename_i r
      -- the identifier is drawn, so no stored analysis has it
      have hmem : r.id ∈ ids := hid ▸ Stamp.id_mem (by have := hr.draws.1; omega)
      have hfresh : ∀ x ∈ s.db.analyses, x.id ≠ r.id := fun x hx he =>
        hr.draws.2.2 r.id hmem (hdrawn r.id (.inl ⟨x, hx, he⟩))
      refine .inr ⟨e.task.id, fun t => ?_⟩
      rw [hledger, Db.ledger_of_analysis hfold htask hfresh, hseq, hselected]
      split
      · rename_i ht
        rw [ht]
      · rfl
    | suggestions =>
      exact .inl fun t => (hledger t).trans (Db.ledger_of_foldlM hfold
        (by simp [Write.onAnalyses]) t)
    | version =>
      exact .inl fun t => (hledger t).trans (Db.ledger_of_foldlM hfold
        (by simp [Write.onAnalyses]) t)

/-- **The analyses of a task are numbered from one in the order they were stored, and the last
one alone is selected**, in every run in which no operation is declared stale while a job
executes it. -/
theorem analyses_numbered (hs : Reach (system cfg) NoStale s) (taskId : Uuid) : ∃ n,
    (s.db.analyses.select fun r => r.taskId = taskId).map (fun r => (r.sequence, r.isSelected)) =
      (List.range n).map fun i => (i + 1, decide (i + 1 = n)) := by
  refine hs.invariant (I := fun s => ∃ n, s.db.ledger taskId = numbered n) (fun s hi => ⟨0, ?_⟩) ?_
  · rw [Db.ledger, hi.analyses]
    rfl
  · rintro s a s' hr ⟨n, hn⟩ - h
    -- the invariant is the numbering itself, and one move keeps it or adds one number
    rcases ledger_of_move (drawn hr) (move_of_step h) with hsame | ⟨t, hnew⟩
    · exact ⟨n, (hsame taskId).trans hn⟩
    · by_cases ht : taskId = t
      · refine ⟨n + 1, ?_⟩
        rw [hnew, if_pos ht, Db.nextSequence_eq, hn, foldl_max_numbered, numbered_succ]
      · refine ⟨n, ?_⟩
        rw [hnew, if_neg ht, hn]

namespace Sample

/-- The analysis is made again. -/
def reanalysed : List Action :=
  analysed ++ serve 3 5 (.submit 10 .analysis none none) ++ run 4 50 6 1 "b".toList

set_option maxRecDepth 16000 in
/-- The second analysis of task 10 is stored after the first. -/
theorem run_reanalysed : ((system writer).runIf noneStale start reanalysed).map (fun s =>
    decide ((s.db.analyses.select fun r => r.taskId = 10).length = 2)) = some true := by
  decide

end Sample

/-- Of two analyses the second is selected. -/
theorem analyses_numbered_reanalysed : ∃ s : Sys, Reach (system Sample.writer) NoStale s ∧
    (s.db.analyses.select fun r => r.taskId = 10).map (fun r => (r.sequence, r.isSelected)) =
      [(1, false), (2, true)] := by
  obtain ⟨s, hrun, hcheck⟩ := Option.map_eq_some_iff.mp Sample.run_reanalysed
  have hs := Sample.reach_of_runIf hrun
  obtain ⟨n, hn⟩ := analyses_numbered hs 10
  have hlen := congrArg List.length hn
  rw [List.length_map, List.length_map, List.length_range, of_decide_eq_true hcheck] at hlen
  subst hlen
  exact ⟨s, hs, hn⟩

end Sys

end DouyinCaption

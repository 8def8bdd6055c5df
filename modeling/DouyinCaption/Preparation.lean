import DouyinCaption.AiOperations

/-!
# What an operation prepares

The queries of an operation read the rows of its task (`Reads.Of`), and what the operation
makes of them is spelled out kind by kind in `Prepared.From`; `from_of_prepare` is the
inversion of `prepare`.
-/

namespace DouyinCaption

open Tables

/-! ## Queries -/

/-- The suggestions an operation reads: `suggest` orders them. -/
def Payload.rows (db : Db) (taskId : Uuid) (p : Payload) : List SuggestionRecord :=
  match p with
  | .suggestions _ => (db.suggestionsOf taskId p.analysisId).insertionSort SuggestionRecord.before
  | _ => db.suggestionsOf taskId p.analysisId

/-- The reads are what the queries made so far have found. -/
structure Reads.Of (db : Db) (taskId : Uuid) (p : Payload) (made : List Query) (r : Reads) :
    Prop where
  hasFirstDraft : .hasFirstDraft ∈ made → r.hasFirstDraft = db.hasFirstDraft taskId
  analysis : .analysis ∈ made → ∃ a ∈ db.analyses, a.taskId = taskId ∧
    some a.id = p.analysisId ∧ r.analysis = some a
  suggestions : .suggestions ∈ made → r.suggestions = p.rows db taskId
  parent : .parent ∈ made → ∃ v ∈ db.versions, v.taskId = taskId ∧
    some v.id = p.parentVersionId ∧ r.parent = some v
  locks : .locks ∈ made → r.locks = db.locksOf taskId

section Queries

variable {db : Db} {taskId : Uuid} {p : Payload}

theorem Reads.Of.run {made : List Query} {q : Query} {r r' : Reads} (h : r.Of db taskId p made)
    (hq : q.run db taskId p r = .ok r') : r'.Of db taskId p (made ++ [q]) := by
  have hold : ∀ {q' : Query}, q' ∈ made ++ [q] → q' ≠ q → q' ∈ made := by
    intro q' hm hne
    rcases List.mem_append.mp hm with hm | hm
    · exact hm
    · exact absurd (List.mem_singleton.mp hm) hne
  cases q with
  | hasFirstDraft =>
    obtain rfl := Except.ok.inj hq
    exact ⟨fun _ => rfl, fun hm => h.analysis (hold hm (by simp)),
      fun hm => h.suggestions (hold hm (by simp)), fun hm => h.parent (hold hm (by simp)),
      fun hm => h.locks (hold hm (by simp))⟩
  | analysis =>
    simp only [Query.run] at hq
    split at hq
    · cases hq
    · rename_i a ha
      obtain rfl := Except.ok.inj hq
      obtain ⟨hm, hp⟩ := Table.scalar_some ha
      simp only [Bool.and_eq_true, decide_eq_true_eq] at hp
      exact ⟨fun hm => h.hasFirstDraft (hold hm (by simp)), fun _ => ⟨a, hm, hp.1, hp.2, rfl⟩,
        fun hm => h.suggestions (hold hm (by simp)), fun hm => h.parent (hold hm (by simp)),
        fun hm => h.locks (hold hm (by simp))⟩
  | suggestions =>
    obtain rfl := Except.ok.inj hq
    refine ⟨fun hm => h.hasFirstDraft (hold hm (by simp)),
      fun hm => h.analysis (hold hm (by simp)), fun _ => ?_,
      fun hm => h.parent (hold hm (by simp)), fun hm => h.locks (hold hm (by simp))⟩
    cases p <;> rfl
  | parent =>
    simp only [Query.run] at hq
    split at hq
    · cases hq
    · rename_i v hv
      obtain rfl := Except.ok.inj hq
      obtain ⟨hm, hp⟩ := Table.scalar_some hv
      simp only [Bool.and_eq_true, decide_eq_true_eq] at hp
      exact ⟨fun hm => h.hasFirstDraft (hold hm (by simp)),
        fun hm => h.analysis (hold hm (by simp)), fun hm => h.suggestions (hold hm (by simp)),
        fun _ => ⟨v, hm, hp.2, hp.1, rfl⟩, fun hm => h.locks (hold hm (by simp))⟩
  | locks =>
    obtain rfl := Except.ok.inj hq
    exact ⟨fun hm => h.hasFirstDraft (hold hm (by simp)),
      fun hm => h.analysis (hold hm (by simp)), fun hm => h.suggestions (hold hm (by simp)),
      fun hm => h.parent (hold hm (by simp)), fun _ => rfl⟩

/-- By induction on the queries still to make. -/
theorem Reads.Of.foldlM {qs : List Query} : ∀ {made : List Query} {r r' : Reads},
    r.Of db taskId p made → qs.foldlM (fun r q => q.run db taskId p r) r = .ok r' →
      r'.Of db taskId p (made ++ qs) := by
  induction qs with
  | nil =>
    intro made r r' h hr
    obtain rfl := Except.ok.inj hr
    rwa [List.append_nil]
  | cons q qs ih =>
    intro made r r' h hr
    rw [List.foldlM_cons] at hr
    obtain ⟨r₁, hq, hr⟩ := bind_eq_ok.mp hr
    rw [List.append_cons]
    exact ih (h.run hq) hr

/-- **All queries of an operation find the rows of its task.** -/
theorem of_readAll {r : Reads} (h : readAll db taskId p = .ok r) :
    r.Of db taskId p p.queries := by
  have hnone : Reads.Of db taskId p [] {} := by
    constructor <;> intro hm <;> cases hm
  exact hnone.foldlM h

end Queries

/-! ## Selections -/

/-- What a lookup returns is there: it has raised no `KeyError`. -/
theorem orKeyError_eq_ok {α : Type} {x : Option α} {a : α} (h : orKeyError x = .ok a) :
    x = some a := by
  cases x with
  | none => cases h
  | some b => exact congrArg some (Except.ok.inj h)

/-- What a validation returns is valid. -/
theorem orInvalid_eq_ok {α : Type} {x : Option α} {a : α} (h : orInvalid x = .ok a) :
    x = some a := by
  cases x with
  | none => cases h
  | some b => exact congrArg some (Except.ok.inj h)

/-- The member has selected the suggestion. -/
def isSelected (ds : List SuggestionDecisionSubmit) (r : SuggestionRecord) : Bool :=
  (decisionOf ds r).any fun d => d.selected

/-- The rows selected are the rows whose decision is selected; each has a decision. -/
theorem rows_of_selectedRows {ds : List SuggestionDecisionSubmit} {rs : List SuggestionRecord} :
    ∀ {rows : List (SuggestionRecord × Text)}, selectedRows ds rs = .ok rows →
      rows.map Prod.fst = rs.filter (isSelected ds) ∧
        ∀ r ∈ rs, ∃ d, decisionOf ds r = some d := by
  induction rs with
  | nil =>
    intro rows h
    obtain rfl := Except.ok.inj h
    exact ⟨rfl, by simp⟩
  | cons r rs ih =>
    intro rows h
    obtain ⟨d, hd, h⟩ := bind_eq_ok.mp h
    obtain ⟨rest, hrest, h⟩ := bind_eq_ok.mp h
    obtain rfl := Except.ok.inj h
    have hdec := orKeyError_eq_ok hd
    obtain ⟨hrows, hall⟩ := ih hrest
    constructor
    · rw [List.filter_cons, isSelected, hdec, Option.any_some]
      split
      · rw [List.map_cons, hrows]
      · exact hrows
    · intro r' hr'
      rcases List.mem_cons.mp hr' with rfl | hr'
      · exact ⟨d, hdec⟩
      · exact hall r' hr'

/-! ## Inputs -/

/-- What an operation has prepared, kind by kind. -/
def Prepared.From (db : Db) (taskId : Uuid) (p : Payload) : Prepared → Prop
  | .analysis hasFirstDraft => p = .analysis ∧ hasFirstDraft = db.hasFirstDraft taskId
  | .suggestions payload record hasFirstDraft previous fixed =>
      p = .suggestions payload ∧ (record ∈ db.analyses ∧ record.taskId = taskId ∧
        record.id = payload.analysisId) ∧ hasFirstDraft = db.hasFirstDraft taskId ∧
        previous = p.rows db taskId ∧
        (∃ rows, selectedRows payload.suggestionDecisions.1 previous = .ok rows ∧
          fixed = rows.map (·.1)) ∧
        ¬ (previous ≠ [] ∧ fixed.length = previous.length)
  | .firstDraft payload record selected hasFirstDraft =>
      p = .firstDraft payload ∧ (record ∈ db.analyses ∧ record.taskId = taskId ∧
        record.id = payload.analysisId) ∧ hasFirstDraft = db.hasFirstDraft taskId ∧
        selectedSuggestions (p.rows db taskId) payload.suggestionDecisions.1 = .ok selected
  | .revision payload parent locks hasFirstDraft _ =>
      p = .revision payload ∧ (parent ∈ db.versions ∧ parent.taskId = taskId ∧
        parent.id = payload.parentVersionId) ∧ locks = db.locksOf taskId ∧
        hasFirstDraft = db.hasFirstDraft taskId

/-- **What an operation prepares it has read from the rows of its task.** -/
theorem from_of_prepare {db : Db} {taskId : Uuid} {p : Payload} {prepared : Prepared}
    (h : prepare db taskId p = .ok prepared) : prepared.From db taskId p := by
  obtain ⟨r, hread, h⟩ := bind_eq_ok.mp h
  have hof := of_readAll hread
  have hanalysis : ∀ {a : AnalysisRecord}, r.analysis = some a → .analysis ∈ p.queries →
      a ∈ db.analyses ∧ a.taskId = taskId ∧ some a.id = p.analysisId := by
    intro a ha hm
    obtain ⟨a', hm', htask, hid, ha'⟩ := hof.analysis hm
    obtain rfl := Option.some.inj (ha.symm.trans ha')
    exact ⟨hm', htask, hid⟩
  cases p with
  | analysis =>
    obtain rfl := Except.ok.inj h
    exact ⟨rfl, hof.hasFirstDraft (by simp [Payload.queries])⟩
  | suggestions payload =>
    obtain ⟨a, ha, h⟩ := bind_eq_ok.mp h
    obtain ⟨rows, hrows, h⟩ := bind_eq_ok.mp h
    obtain ⟨_, hleft, h⟩ := bind_eq_ok.mp h
    obtain rfl := Except.ok.inj h
    obtain ⟨hm, htask, hid⟩ := hanalysis (orKeyError_eq_ok ha) (by simp [Payload.queries])
    refine ⟨rfl, ⟨hm, htask, Option.some.inj hid⟩, hof.hasFirstDraft (by simp [Payload.queries]),
      hof.suggestions (by simp [Payload.queries]), ⟨rows, hrows, rfl⟩, ?_⟩
    rw [List.length_map]
    exact ensure_eq_ok.mp hleft
  | firstDraft payload =>
    obtain ⟨a, ha, h⟩ := bind_eq_ok.mp h
    obtain ⟨_, -, h⟩ := bind_eq_ok.mp h
    obtain ⟨selected, hselected, h⟩ := bind_eq_ok.mp h
    obtain rfl := Except.ok.inj h
    obtain ⟨hm, htask, hid⟩ := hanalysis (orKeyError_eq_ok ha) (by simp [Payload.queries])
    refine ⟨rfl, ⟨hm, htask, Option.some.inj hid⟩, hof.hasFirstDraft (by simp [Payload.queries]),
      ?_⟩
    have hrows := hof.suggestions (by simp [Payload.queries])
    rw [← hrows]
    exact hselected
  | revision payload =>
    obtain ⟨parent, hparent, h⟩ := bind_eq_ok.mp h
    have hfrom : ∀ basis, (Prepared.revision payload parent r.locks r.hasFirstDraft basis).From
        db taskId (.revision payload) := by
      intro basis
      obtain ⟨v, hm, htask, hid, hv⟩ := hof.parent (by simp [Payload.queries])
      obtain rfl := Option.some.inj ((orKeyError_eq_ok hparent).symm.trans hv)
      exact ⟨rfl, ⟨hm, htask, Option.some.inj hid⟩, hof.locks (by simp [Payload.queries]),
        hof.hasFirstDraft (by simp [Payload.queries])⟩
    split at h
    · obtain ⟨a, -, h⟩ := bind_eq_ok.mp h
      obtain ⟨_, -, h⟩ := bind_eq_ok.mp h
      obtain ⟨selected, -, h⟩ := bind_eq_ok.mp h
      obtain rfl := Except.ok.inj h
      exact hfrom _
    · obtain rfl := Except.ok.inj h
      exact hfrom none

end DouyinCaption

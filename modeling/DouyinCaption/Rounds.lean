import DouyinCaption.Executing
import DouyinCaption.Submission
import DouyinCaption.Suggestions

/-!
# Rounds of suggestions

A round of suggestions, from its submission to its end, keeps what the member has selected and
replaces the rest, or changes nothing (`suggestion_rounds`). A round with everything selected
never gets to the provider.
-/

namespace DouyinCaption

open Tables Runs

/-! ## The submission of a round -/

/-- The suggestions of an analysis with the decisions that were submitted over them. -/
structure Decided (ds : List SuggestionDecisionSubmit) (before rows : List SuggestionRecord) :
    Prop where
  rows : rows = before.map (SuggestionRecord.applySnapshot ds)
  ids : ∀ i, i ∈ ds.map SuggestionDecisionSubmit.suggestionId ↔ ∃ r ∈ before, r.id = i

/-- A submission writes the decisions and notes of its payload to the rows. -/
theorem suggestionsOf_applySnapshot {db db' : Db} {taskId analysisId : Uuid}
    {ds : List SuggestionDecisionSubmit}
    (h : (Write.applySnapshot taskId analysisId ds).apply db = some db') :
    db'.suggestionsOf taskId (some analysisId) =
      (db.suggestionsOf taskId (some analysisId)).map (SuggestionRecord.applySnapshot ds) := by
  obtain rfl := Option.some.inj h
  have hof : ∀ r : SuggestionRecord, (r.applySnapshot ds).taskId = r.taskId ∧
      (r.applySnapshot ds).analysisId = r.analysisId := by
    intro r
    rw [SuggestionRecord.applySnapshot]
    split <;> exact ⟨rfl, rfl⟩
  rw [Db.suggestionsOf, Db.suggestionsOf]
  dsimp only
  rw [Table.select_update _ fun r => by rw [(hof r).1, (hof r).2]]
  refine List.map_congr_left fun r hr => if_pos ?_
  simpa using (Table.mem_select.mp hr).2

/-- A submission over an analysis decides all of its suggestions. -/
theorem Submission.decided {cfg : Config} {sub : Submission} {db db' : Db} {st : Stamp}
    {out : Outcome} {analysisId : Uuid} (hf : sub.finish cfg db st = .ok out)
    (hfold : out.writes.foldlM Write.apply db = some db')
    (ha : sub.payload.analysisId = some analysisId) :
    (∃ r ∈ db.analyses, r.id = analysisId ∧ r.taskId = sub.task.id) ∧
      db'.analyses = db.analyses ∧
      Decided sub.payload.decisions (db.suggestionsOf sub.task.id (some analysisId))
        (db'.suggestionsOf sub.task.id (some analysisId)) := by
  obtain ⟨_, -, hf⟩ := bind_eq_ok.mp hf
  obtain ⟨_, -, hf⟩ := bind_eq_ok.mp hf
  obtain ⟨ws, hws, hf⟩ := bind_eq_ok.mp hf
  obtain rfl := Except.ok.inj hf
  have hspec := applySuggestionSnapshot_eq_ok hws
  rw [ha] at hspec
  obtain ⟨rfl, ⟨r, hr, hid, htask, -⟩, hids⟩ := hspec
  rw [List.singleton_append, List.foldlM_cons] at hfold
  obtain ⟨db₁, h₁, hfold⟩ := Option.bind_eq_some_iff.mp hfold
  have hrest : db'.suggestions = db₁.suggestions ∧ db'.analyses = db₁.analyses := by
    rw [List.foldlM_cons] at hfold
    obtain ⟨db₂, h₂, hfold⟩ := Option.bind_eq_some_iff.mp hfold
    rw [List.foldlM_cons] at hfold
    obtain ⟨db₃, h₃, hfold⟩ := Option.bind_eq_some_iff.mp hfold
    obtain rfl := Option.some.inj hfold
    obtain rfl := Option.some.inj h₂
    obtain ⟨_, -, rfl⟩ := Option.map_eq_some_iff.mp h₃
    exact ⟨rfl, rfl⟩
  refine ⟨⟨r, hr, hid, htask⟩, ?_, ?_, fun i => (hids i).trans ⟨?_, ?_⟩⟩
  · obtain rfl := Option.some.inj h₁
    exact hrest.2
  · rw [← suggestionsOf_applySnapshot h₁, Db.suggestionsOf, Db.suggestionsOf, hrest.1]
  · rintro ⟨r, hr, ht, hra, rfl⟩
    exact ⟨r, Table.mem_select.mpr ⟨hr, by simp [ht, hra]⟩, rfl⟩
  · rintro ⟨r, hr, rfl⟩
    obtain ⟨hm, hof⟩ := Table.mem_select.mp hr
    simp only [Bool.and_eq_true, decide_eq_true_eq, Option.some.injEq] at hof
    exact ⟨r, hm, hof.1, hof.2, rfl⟩

/-- What a round makes of the suggestions there were when it was submitted. -/
structure Round (ds : List SuggestionDecisionSubmit) (before after : List SuggestionRecord) :
    Prop where
  /-- a selected suggestion stays, accepted, with the note submitted -/
  kept : ∀ r ∈ before, ∀ d ∈ ds, d.suggestionId = r.id → d.selected = true →
    { r with decision := .accepted, memberNote := d.memberNote.map (·.1) } ∈ after
  /-- another goes -/
  removed : ∀ r ∈ before, ∀ d ∈ ds, d.suggestionId = r.id → d.selected = false →
    ∀ r' ∈ after, r'.id ≠ r.id
  atLeast : 5 ≤ after.length
  atMost : after.length ≤ if before = [] then 8 else before.length
  keys : (after.map SuggestionRecord.suggestionKey).Nodup
  /-- what is new shares no key and no title with what stays -/
  apart : ∀ r' ∈ after, (∀ r ∈ before, r'.id ≠ r.id) → ∀ r ∈ before, ∀ d ∈ ds,
    d.suggestionId = r.id → d.selected = true →
      r'.suggestionKey ≠ r.suggestionKey ∧ strip r'.title ≠ strip r.title

/-- The decision about a suggestion is the one with its identifier. -/
theorem decisionOf_eq_some {ds : List SuggestionDecisionSubmit}
    (hn : (ds.map SuggestionDecisionSubmit.suggestionId).Nodup) {d : SuggestionDecisionSubmit}
    (hd : d ∈ ds) {r : SuggestionRecord} (hr : d.suggestionId = r.id) :
    decisionOf ds r = some d := by
  rcases hfind : decisionOf ds r with _ | d'
  · exact absurd (decide_eq_true hr) (List.find?_eq_none.mp hfind d hd)
  · have hid : d'.suggestionId = r.id := by simpa using List.find?_some hfind
    rw [List.inj_on_of_nodup_map hn (List.mem_of_find?_eq_some hfind) hd (hid.trans hr.symm)]

/-- What it writes to a row with a decision. -/
theorem applySnapshot_of_decisionOf {ds : List SuggestionDecisionSubmit} {r : SuggestionRecord}
    {d : SuggestionDecisionSubmit} (h : decisionOf ds r = some d) :
    r.applySnapshot ds = { r with
      decision := if d.selected then .accepted else .rejected
      memberNote := d.memberNote.map (·.1) } := by
  rw [decisionOf] at h
  rw [SuggestionRecord.applySnapshot, h]
  rfl

@[simp] theorem isSelected_applySnapshot (ds ds' : List SuggestionDecisionSubmit)
    (r : SuggestionRecord) : isSelected ds' (r.applySnapshot ds) = isSelected ds' r := by
  rw [isSelected, isSelected, decisionOf, decisionOf, SuggestionRecord.applySnapshot_id]

/-- Keys and titles stay. -/
theorem title_applySnapshot (ds : List SuggestionDecisionSubmit) (r : SuggestionRecord) :
    (r.applySnapshot ds).suggestionKey = r.suggestionKey ∧
      (r.applySnapshot ds).title = r.title := by
  rw [SuggestionRecord.applySnapshot]
  split <;> exact ⟨rfl, rfl⟩

/-- What is stored for the decided suggestions is a round over those there were. -/
theorem round_of_replaces {ds : List SuggestionDecisionSubmit}
    {before rows after new : List SuggestionRecord}
    (hn : (ds.map SuggestionDecisionSubmit.suggestionId).Nodup) (hd : Decided ds before rows)
    (hinj : ∀ r ∈ before, ∀ r' ∈ before, r.id = r'.id → r = r')
    (h : Replaces (isSelected ds) rows after new) : Round ds before after := by
  have hrows := hd.rows
  subst hrows
  have hselected : ∀ r d, d ∈ ds → d.suggestionId = r.id → isSelected ds r = d.selected := by
    intro r d hdm hr
    rw [isSelected, decisionOf_eq_some hn hdm hr, Option.any_some]
  have hmem : ∀ r', r' ∈ after ↔
      (∃ r ∈ before, isSelected ds r = true ∧ r.applySnapshot ds = r') ∨ r' ∈ new := by
    intro r'
    rw [h.rows, List.mem_append, List.mem_filter, List.mem_map]
    refine or_congr_left ⟨?_, ?_⟩
    · rintro ⟨⟨r, hr, rfl⟩, hsel⟩
      exact ⟨r, hr, by rwa [isSelected_applySnapshot] at hsel, rfl⟩
    · rintro ⟨r, hr, hsel, rfl⟩
      exact ⟨⟨r, hr, rfl⟩, by rwa [isSelected_applySnapshot]⟩
  have hnew : ∀ r ∈ before, ∀ r' ∈ new, r'.id ≠ r.id := by
    intro r hr r' hr'
    have := h.fresh r' hr' _ (List.mem_map_of_mem hr)
    rwa [SuggestionRecord.applySnapshot_id] at this
  refine ⟨?_, ?_, h.atLeast, ?_, h.keys, ?_⟩
  · intro r hr d hdm hid hsel
    refine (hmem _).mpr (.inl ⟨r, hr, by rw [hselected r d hdm hid, hsel], ?_⟩)
    rw [applySnapshot_of_decisionOf (decisionOf_eq_some hn hdm hid), if_pos hsel]
  · intro r hr d hdm hid hsel r' hr' he
    rcases (hmem r').mp hr' with ⟨r₁, hr₁, hsel₁, rfl⟩ | hr'
    · rw [SuggestionRecord.applySnapshot_id] at he
      rw [hinj r₁ hr₁ r hr he, hselected r d hdm hid, hsel] at hsel₁
      cases hsel₁
    · exact hnew r hr r' hr' he
  · simpa only [List.length_map, List.map_eq_nil_iff] using h.atMost
  · intro r' hr' hfresh r hr d hdm hid hsel
    rcases (hmem r').mp hr' with ⟨r₁, hr₁, -, rfl⟩ | hr'
    · exact absurd (SuggestionRecord.applySnapshot_id ..) (hfresh r₁ hr₁)
    · have hapart := h.apart r' hr' _ (List.mem_map_of_mem hr)
        (by rw [isSelected_applySnapshot, hselected r d hdm hid, hsel])
      rwa [(title_applySnapshot ds r).1, (title_applySnapshot ds r).2] at hapart

/-! ## A round with everything selected -/

/-- There are suggestions, and the member has selected all of them. -/
def AllSelected (ds : List SuggestionDecisionSubmit) (rows : List SuggestionRecord) : Prop :=
  rows ≠ [] ∧ ∀ r ∈ rows, ∃ d, decisionOf ds r = some d ∧ d.selected = true

/-- Where every row is selected the selection is all of them, which a round refuses. -/
theorem length_of_allSelected {ds : List SuggestionDecisionSubmit}
    {rs : List SuggestionRecord} (h : ∀ r ∈ rs, ∃ d, decisionOf ds r = some d ∧ d.selected = true) :
    ∃ rows, selectedRows ds rs = .ok rows ∧ rows.length = rs.length := by
  obtain ⟨rows, hrows⟩ := exists_selectedRows fun r hr => (h r hr).imp fun d hd => hd.1
  refine ⟨rows, hrows, ?_⟩
  have hfilter : rs.filter (isSelected ds) = rs := by
    refine List.filter_eq_self.mpr fun r hr => ?_
    obtain ⟨d, hd, hsel⟩ := h r hr
    rw [isSelected, hd, Option.any_some, hsel]
  have hrowsLength : (rows.map Prod.fst).length = rows.length := List.length_map Prod.fst
  rw [← hrowsLength, (rows_of_selectedRows hrows).1, hfilter]

/-- **A round with everything selected has nothing to prepare.** -/
theorem prepare_of_allSelected {db : Db} {taskId : Uuid} {payload : SuggestionsSubmit}
    (ha : ∃ r ∈ db.analyses, r.id = payload.analysisId ∧ r.taskId = taskId)
    (h : AllSelected payload.suggestionDecisions.1
      (db.suggestionsOf taskId (some payload.analysisId))) :
    prepare db taskId (.suggestions payload) = .error (.execution allSuggestionsFixed) := by
  obtain ⟨r, hr, hid, htask⟩ := ha
  obtain ⟨hne, hall⟩ := h
  have hperm := List.perm_insertionSort SuggestionRecord.before
    (db.suggestionsOf taskId (some payload.analysisId))
  obtain ⟨rows, hrows, hlen⟩ := length_of_allSelected fun r hr => hall r (hperm.mem_iff.mp hr)
  rcases hfound : db.analyses.scalar fun a =>
      a.taskId = taskId && some a.id = (Payload.suggestions payload).analysisId with _ | a
  · exact absurd (by simp [htask, hid, Payload.analysisId]) (Table.scalar_none.mp hfound r hr)
  have hread : readAll db taskId (.suggestions payload) = .ok
      { hasFirstDraft := db.hasFirstDraft taskId, analysis := some a
        suggestions := (db.suggestionsOf taskId (some payload.analysisId)).insertionSort
          SuggestionRecord.before } := by
    refine bind_eq_ok.mpr ⟨{ analysis := some a }, ?_, rfl⟩
    change Query.run db taskId (.suggestions payload) {} .analysis = _
    rw [Query.run, hfound]
  have hne' : (db.suggestionsOf taskId (some payload.analysisId)).insertionSort
      SuggestionRecord.before ≠ [] := fun he => hne (List.perm_nil.mp (he ▸ hperm).symm)
  rw [prepare, hread]
  change (selectedRows _ _ >>= _) = _
  rw [hrows]
  change (ensure _ _ >>= _) = _
  rw [ensure, if_neg (not_not.mpr ⟨hne', hlen⟩)]
  rfl

namespace Sys

variable {cfg : Config} {s s' : Sys} {a : Action}

/-- No job has claimed the operation. -/
structure Unclaimed (s : Sys) (opId : Uuid) : Prop where
  jobs : ∀ p phase, s.procs p = .job opId phase → phase.executes = false
  notCalled : opId ∉ s.providerCalls
  notRunning : ¬ s.db.HasStatus .running opId
  notSucceeded : ¬ s.db.HasStatus .succeeded opId

/-- An operation with nothing to prepare stays unclaimed. -/
theorem Unclaimed.move {opId : Uuid} (hu : s.Unclaimed opId) (hb : s.Base) (hf : s.Fresh opId)
    (hfail : ∀ o ∈ s.db.operations, o.id = opId → o.isActive = true →
      ∀ prepared, prepare s.db o.taskId o.requestPayload ≠ .ok prepared)
    (h : Move cfg s a s') : s'.Unclaimed opId := by
  -- a job about to claim the operation has prepared something
  have hnoClaim : ∀ p e model, s.procs p = .job opId (.admitted e model) →
      s.db.isQueued opId = true → False := by
    intro p e model hp hq
    obtain ⟨o, ho⟩ := Option.isSome_iff_exists.mp hq
    obtain ⟨hm, ho⟩ := Table.scalar_some ho
    simp only [Bool.and_eq_true, decide_eq_true_eq] at ho
    have hact : o.isActive = true := by
      rw [AiOperation.isActive, ho.2]
      rfl
    obtain ⟨-, hprep⟩ := hf p _ hp o hm ho.1 hact
    obtain ⟨hid, hknows, htask⟩ := (hb.jobs p opId _ hp).1
    have hsame := (hknows.became o hm (ho.1.trans hid.symm)).same
    refine hfail o hm ho.1 hact e.prepared ?_
    rw [hsame.taskId, hsame.requestPayload, ← htask]
    exact hprep
  refine ⟨fun p phase hp => ?_, ?_, fun hr => ?_, fun hr => ?_⟩
  · by_contra he
    rcases executing_of_move h hp (Bool.eq_true_of_not_eq_false he) with
      ⟨phase₀, hp₀, he₀⟩ | ⟨-, e, model, -, hp₀, hq, -⟩
    · rw [hu.jobs p phase₀ hp₀] at he₀
      cases he₀
    · rw [(hb.jobs p opId _ hp₀).1.1] at hq
      exact hnoClaim p e model hp₀ hq
  · rcases calls_of_move h with he | ⟨p, opId', e, model, call, -, hp, -, he⟩
    · exact he ▸ hu.notCalled
    · rw [he, List.mem_cons, not_or]
      refine ⟨?_, hu.notCalled⟩
      rintro rfl
      cases hu.jobs p _ hp
  · rcases claimed_of_running hb h hr with hr | ⟨e, model, hc⟩
    · exact hu.notRunning hr
    · obtain ⟨p, -, hp⟩ := hc.job
      exact hnoClaim p e model hp hc.queued
  · rcases stored_of_succeeded hb h hr with hr | ⟨e, result, ids, stored, hr⟩
    · exact hu.notSucceeded hr
    · obtain ⟨p, -, hp⟩ := hr.job
      cases hu.jobs p _ hp

/-- A job that executes an operation has loaded it. -/
theorem drawn_of_executes (hb : s.Base) {p : ℕ} {opId : Uuid} {phase : JobPhase}
    (hp : s.procs p = .job opId phase) (he : phase.executes = true) : opId ∈ s.used := by
  have hwf := hb.jobs p opId phase hp
  cases phase with
  | claimed | calling | returned | succeeded | failing | restoring =>
    obtain ⟨⟨rfl, hknows, -⟩, -⟩ := hwf
    exact hknows.drawn
  | restored =>
    obtain ⟨⟨⟨rfl, hknows, -⟩, -⟩, -⟩ := hwf
    exact hknows.drawn
  | _ => cases he

/-- Nobody works for an operation that has just been added. -/
theorem unclaimed_of_new {P : Sys → Action → Prop} (hs : Reach (system cfg) P s)
    (h : Move cfg s a s') {o : AiOperation} (hn : NewOperation cfg s a o) :
    s'.Unclaimed o.id := by
  have hb := base hs
  have hfresh := hn.fresh
  have hjob : ∀ p opId phase, a.proc = some p → s.procs p ≠ .job opId phase := by
    obtain ⟨p, m, r, sub, ids, rfl, hp, -⟩ := hn
    rintro q opId phase hq hjob
    obtain rfl := Option.some.inj hq
    cases hp.symm.trans hjob
  have hstatus : ∀ status, ¬ s.db.HasStatus status o.id := by
    rintro status ⟨o₁, ho₁, hid, -⟩
    exact hfresh (hid ▸ hb.drawn o₁ ho₁)
  refine ⟨fun p phase hp => ?_, ?_, fun hr => ?_, fun hr => ?_⟩
  · by_contra he
    have he := Bool.eq_true_of_not_eq_false he
    rcases executing_of_move h hp he with ⟨phase₀, hp₀, he₀⟩ | ⟨ha, e, model, -, hp₀, -⟩
    · exact hfresh (drawn_of_executes hb hp₀ he₀)
    · exact hjob p _ _ ha hp₀
  · rcases calls_of_move h with he | ⟨p, opId, e, model, call, ha, hp, -⟩
    · exact he ▸ fun hm => hfresh ((charges hs).called o.id hm).drawn
    · exact absurd hp (hjob p _ _ ha)
  · rcases claimed_of_running hb h hr with hr | ⟨e, model, hc⟩
    · exact hstatus _ hr
    · obtain ⟨p, ha, hp⟩ := hc.job
      exact hjob p _ _ ha hp
  · rcases stored_of_succeeded hb h hr with hr | ⟨e, result, ids, stored, hr⟩
    · exact hstatus _ hr
    · obtain ⟨p, ha, hp⟩ := hr.job
      exact hjob p _ _ ha hp

/-! ## From the submission to the end -/

/-- The suggestions are part of the inputs that stand still. -/
theorem rows_of_sameInputs {db db' : Db} {taskId : Uuid} (h : db'.inputs taskId = db.inputs taskId)
    (hi : ∃ i, db.inputs taskId = some i) (analysisId : Option Uuid) :
    db'.suggestionsOf taskId analysisId = db.suggestionsOf taskId analysisId := by
  obtain ⟨i, hi⟩ := hi
  rw [Db.suggestionsOf, Db.suggestionsOf, select_and, select_and,
    (rows_of_inputs hi).2.1, (rows_of_inputs (h.trans hi)).2.1]

/-- While an operation is active, a step that does not make it succeed changes no suggestion of
its task. -/
theorem Sheltered.suggestions_of_move (hs : s.Sheltered cfg) (hturn : s.InTurn a)
    (h : Move cfg s a s') {o : AiOperation} (ho : o ∈ s.db.operations) (hact : o.isActive = true)
    (hno : ¬ s'.db.HasStatus .succeeded o.id) (analysisId : Option Uuid) :
    s'.db.suggestionsOf o.taskId analysisId = s.db.suggestionsOf o.taskId analysisId := by
  have hinputs : ∃ i, s.db.inputs o.taskId = some i :=
    let ⟨i, hi, _⟩ := hs.unarchived o ho hact
    ⟨i, hi⟩
  have hartefacts : s.db.SameArtefacts s'.db →
      s'.db.suggestionsOf o.taskId analysisId = s.db.suggestionsOf o.taskId analysisId :=
    fun hsame => by rw [Db.suggestionsOf, Db.suggestionsOf, hsame.suggestions]
  cases changes_of_move h with
  | none members providers he => rw [he]; rfl
  | request ha hp hids hws hfold =>
    subst ha
    exact rows_of_sameInputs (hs.inputs_of_isRequest h rfl ho hact) hinputs _
  | states hws hfold => exact hartefacts (Db.sameArtefacts_of_foldlM hfold hws)
  | result hr =>
    rename_i opId e result ids stored
    obtain ⟨p, ha, hp⟩ := hr.job
    refine rows_of_sameInputs ((hs.inputs_of_move h ho hact).resolve_right ?_) hinputs _
    rintro ⟨q, opId', e', result', ha', hq, htask, -⟩
    -- the result is that of the operation, which so succeeds
    obtain rfl := Option.some.inj (ha.symm.trans ha')
    obtain ⟨rfl, hphase⟩ := Proc.job.inj (hp.symm.trans hq)
    obtain ⟨rfl, rfl⟩ := JobPhase.returned.inj hphase
    have hmine := ownResults_of_inTurn hs.base hturn p ha opId e result hp o ho hact htask.symm
    obtain ⟨o', ho', hbec⟩ := (opsEvolve_of_move h).kept o ho hact
    obtain ⟨resource, hfold⟩ := hr.commit
    refine hno ⟨o', ho', hbec.same.id, ?_⟩
    rw [successWrites, List.append_cons] at hfold
    refine Db.status_of_setOperation hfold o' ho' ?_
    rw [hbec.same.id, hmine]
    exact (hs.base.jobs p opId _ hp).1.1.symm

/-- What holds of a round while its operation is active; `before` are the suggestions there
were when it was submitted. -/
structure Underway (cfg : Config) (o : AiOperation) (payload : SuggestionsSubmit)
    (before : List SuggestionRecord) (s : Sys) : Prop where
  /-- only the decisions submitted with it have been written -/
  decided : Decided payload.suggestionDecisions.1 before
    (s.db.suggestionsOf o.taskId (some payload.analysisId))
  /-- if it succeeds, the round is made -/
  succeeds : ∀ a s', s.InTurn a → (system cfg).step s a = some s' →
    s'.db.HasStatus .succeeded o.id → Round payload.suggestionDecisions.1 before
      (s'.db.suggestionsOf o.taskId (some payload.analysisId))
  /-- if it does not, nothing has changed -/
  fails : ∀ a s', s.InTurn a → (system cfg).step s a = some s' →
    ¬ s'.db.HasStatus .succeeded o.id → ∀ i,
      s'.db.suggestionsOf o.taskId i = s.db.suggestionsOf o.taskId i

/-- What holds of a round with nothing to replace: no job claims it, and where one has made its
queries, it goes on with the error to store. -/
structure Refused (cfg : Config) (o : AiOperation) (s : Sys) : Prop where
  unclaimed : s.Unclaimed o.id
  error : ∀ o' ∈ s.db.operations, o'.id = o.id → o'.isActive = true →
    ∀ p op task reads st, s.procs p = .job o.id (.reading op task [] reads) →
      (JobPhase.reading op task [] reads).advance cfg s.db st o.id =
        some (.handling (PreparationError.execution allSuggestionsFixed).stored)

/-- What holds from the submission of an operation on, in turn. -/
theorem keeps_of_inTurn {s₁ s₂ : Sys} (hs : Reach (system cfg) InTurn s) (ha : s.InTurn a)
    (hsub : (system cfg).step s a = some s₁) {o : AiOperation} (hnew : NewOperation cfg s a o)
    (ho : o ∈ s₁.db.operations) (h : Steps (system cfg) InTurn s₁ s₂) :
    Reach (system cfg) InTurn s₂ ∧ Keeps cfg s₁ o s₂ := by
  have hstart := keeps_of_submitted (hs.mono fun _ _ _ => trivial) hsub hnew ho .refl
  refine h.invariant (I := fun s => Reach (system cfg) InTurn s ∧ Keeps cfg s₁ o s)
    ⟨.step hs ha hsub, hstart⟩ ?_
  rintro t b t' ⟨hr, hk⟩ hturn hstep
  have hr' : Reach (system cfg) InTurn t' := .step hr hturn hstep
  exact ⟨hr', hk.move (ownResults_of_inTurn (base hr) hturn) (move_of_step hstep)
    (Sys.sheltered hr')⟩

/-- The rows of a new operation's submission. -/
theorem decided_of_new (hb : s.Base) (h : Move cfg s a s') {o : AiOperation}
    (hn : NewOperation cfg s a o) (ho : o ∈ s'.db.operations) {payload : SuggestionsSubmit}
    (hp : o.requestPayload = .suggestions payload) :
    (∃ r ∈ s'.db.analyses, r.id = payload.analysisId ∧ r.taskId = o.taskId) ∧
      Decided payload.suggestionDecisions.1
        (s.db.suggestionsOf o.taskId (some payload.analysisId))
        (s'.db.suggestionsOf o.taskId (some payload.analysisId)) := by
  have hnot : o ∉ s.db.operations := fun hm => hn.fresh (hb.drawn o hm)
  obtain ⟨p, m, r, sub, ids, rfl, hproc, -, -, rfl⟩ := hn
  have hpayload : sub.payload = .suggestions payload := hp
  cases h with
  | commit hp' hids hf hw hc =>
    rename_i m' r' pd out db
    have hlocked : Proc.locked m' r' pd = .locked m r (.submit sub) := by
      rcases hp' with hp' | ⟨hp', -⟩
      · exact hp'.symm.trans hproc
      · cases hp'.symm.trans hproc
    obtain ⟨-, -, rfl⟩ := Proc.locked.inj hlocked
    obtain ⟨hr, hsame, hdecided⟩ := Submission.decided hf (Db.commit_eq_some.mp hc).1
      (show sub.payload.analysisId = some payload.analysisId by rw [hpayload]; rfl)
    rw [hpayload] at hdecided
    dsimp only [setProc_db, unlock_db]
    rw [hsame]
    exact ⟨hr, hdecided⟩
  | reject | refuse => exact absurd ho hnot

/-- An operation that is active has the submitted decisions before it, and ends as a round. -/
theorem underway_of_keeps {s₁ s₂ : Sys} {o o₂ : AiOperation} {payload : SuggestionsSubmit}
    {before : List SuggestionRecord} (hinj : ∀ r ∈ before, ∀ r' ∈ before, r.id = r'.id → r = r')
    (hp : o.requestPayload = .suggestions payload)
    (hd : Decided payload.suggestionDecisions.1 before
      (s₁.db.suggestionsOf o.taskId (some payload.analysisId)))
    (hr : Reach (system cfg) InTurn s₂) (hk : Keeps cfg s₁ o s₂) (ho₂ : o₂ ∈ s₂.db.operations)
    (hid : o₂.id = o.id) (hact : o₂.isActive = true) : Underway cfg o payload before s₂ := by
  have hsame := (hk.knows.became o₂ ho₂ hid).same
  have hinputs := hk.inputs o₂ ho₂ hid hact
  have hexists : ∃ i, s₂.db.inputs o.taskId = some i := by
    obtain ⟨i, hi, -⟩ := hk.sheltered.unarchived o₂ ho₂ hact
    exact ⟨i, hsame.taskId ▸ hi⟩
  have hrows := rows_of_sameInputs hinputs.symm hexists (some payload.analysisId)
  have hdecided : Decided payload.suggestionDecisions.1 before
      (s₂.db.suggestionsOf o.taskId (some payload.analysisId)) := hrows ▸ hd
  refine ⟨hdecided, fun a s' hturn hstep hsucc => ?_, fun a s' hturn hstep hno i => ?_⟩
  · have hmove := move_of_step hstep
    rcases stored_of_succeeded (base hr) hmove hsucc with
      ⟨o', ho', hid', hs'⟩ | ⟨e, result, ids, stored, hres⟩
    · obtain rfl := Table.eq_of_key ho' ho₂ (hid'.trans hid.symm)
      rw [AiOperation.isActive, hs'] at hact
      cases hact
    · obtain ⟨p, ha, hjob⟩ := hres.job
      have hdue := due_of_runs (fun _ _ _ h => h) hr hjob (hturn p ha _ _ _ hjob)
      have hop := (hdue.knows.became o₂ ho₂ (hid.trans hdue.id.symm)).same
      have hpayload : e.op.requestPayload = .suggestions payload :=
        hop.requestPayload.symm.trans (hsame.requestPayload.trans hp)
      have htask : e.op.taskId = o.taskId := hop.taskId.symm.trans hsame.taskId
      rcases hres.plans hdue (drawn hr) (sized (fun _ _ _ h => h) hr) with
        ⟨payload', hround⟩ | ⟨hnone, -⟩
      · obtain rfl := Payload.suggestions.inj (hround.request.symm.trans hpayload)
        obtain ⟨new, hreplaces⟩ := hround.replaces
        rw [htask] at hreplaces
        exact round_of_replaces payload'.suggestionDecisions.2.2 hdecided hinj hreplaces
      · exact absurd hpayload (hnone payload)
  · have hrest := hk.sheltered.suggestions_of_move hturn (move_of_step hstep) ho₂ hact
      (by rwa [hid]) i
    rwa [hsame.taskId] at hrest

/-- Where everything is selected, the operation is refused. -/
theorem refused_of_allSelected {s₁ s₂ : Sys} (hs : Reach (system cfg) InTurn s)
    (ha : s.InTurn a) (hsub : (system cfg).step s a = some s₁) {o : AiOperation}
    (hnew : NewOperation cfg s a o) (ho : o ∈ s₁.db.operations)
    (hprep : prepare s₁.db o.taskId o.requestPayload = .error (.execution allSuggestionsFixed))
    (h : Steps (system cfg) InTurn s₁ s₂) : Refused cfg o s₂ := by
  have hprepare : ∀ {t : Sys}, Keeps cfg s₁ o t → ∀ o' ∈ t.db.operations, o'.id = o.id →
      o'.isActive = true → o'.taskId = o.taskId ∧ o'.requestPayload = o.requestPayload ∧
        prepare t.db o.taskId o.requestPayload = .error (.execution allSuggestionsFixed) := by
    intro t hk o' ho' hid hact
    have hsame := (hk.knows.became o' ho' hid).same
    obtain ⟨i, hi, -⟩ := hk.sheltered.unarchived o' ho' hact
    rw [hsame.taskId] at hi
    refine ⟨hsame.taskId, hsame.requestPayload, ?_⟩
    rw [prepare_congr hi ((hk.inputs o' ho' hid hact).symm.trans hi)]
    exact hprep
  have hunclaimed : s₂.Unclaimed o.id ∧ Reach (system cfg) InTurn s₂ ∧ Keeps cfg s₁ o s₂ := by
    refine h.invariant (I := fun t => t.Unclaimed o.id ∧ Reach (system cfg) InTurn t ∧
      Keeps cfg s₁ o t) ⟨unclaimed_of_new hs (move_of_step hsub) hnew,
        keeps_of_inTurn hs ha hsub hnew ho .refl⟩ ?_
    rintro t b t' ⟨hu, hr, hk⟩ hturn hstep
    have hmove := move_of_step hstep
    have hr' : Reach (system cfg) InTurn t' := .step hr hturn hstep
    refine ⟨hu.move (base hr) hk.fresh (fun o' ho' hid hact prepared he => ?_) hmove, hr',
      hk.move (ownResults_of_inTurn (base hr) hturn) hmove (Sys.sheltered hr')⟩
    obtain ⟨htask, hpayload, hfail⟩ := hprepare hk o' ho' hid hact
    rw [htask, hpayload, hfail] at he
    cases he
  obtain ⟨hu, -, hk⟩ := hunclaimed
  refine ⟨hu, fun o' ho' hid hact p op task reads st hp => ?_⟩
  obtain ⟨htask, hpayload, hfail⟩ := hprepare hk o' ho' hid hact
  obtain ⟨-, made, hmade, hrun⟩ := hk.fresh p _ hp o' ho' hid hact
  obtain ⟨hopid, hknows, htaskid⟩ := hk.sheltered.base.jobs p o.id _ hp
  have hsame := (hknows.became o' ho' (hid.trans hopid.symm)).same
  rw [List.append_nil] at hmade
  subst hmade
  have hread : readAll s₂.db task.id op.requestPayload = .ok reads := hrun
  have hassemble : assemble op.requestPayload reads = .error (.execution allSuggestionsFixed) := by
    have hfail' : prepare s₂.db task.id op.requestPayload =
        .error (.execution allSuggestionsFixed) := by
      rw [htaskid, ← hsame.taskId, ← hsame.requestPayload, htask, hpayload]
      exact hfail
    rw [prepare, hread] at hfail'
    exact hfail'
  rw [JobPhase.advance, hassemble]

/-- **Rounds of suggestions keep what the member fixed**, in every run in which operations are
executed in turn. An analysis always has no suggestions, or five to eight with keys of their
own, and which ones changes only where a round ends. And from the submission of a round on,
for as long as it is not over, only the decisions submitted with it have been written; the
step that ends it makes the round of these decisions, or changes no suggestion; and where all
suggestions were selected it never gets to the provider. -/
theorem suggestion_rounds (hs : Reach (system cfg) InTurn s) :
    (∀ t i, Sized (s.db.suggestionsOf t (some i))) ∧
    (∀ a s', s.InTurn a → (system cfg).step s a = some s' →
      (∀ t i, s'.db.plans t i = s.db.plans t i) ∨
        ∃ opId op payload, s.EndsRound a s' opId op payload) ∧
    ∀ a s₁ o payload, s.InTurn a → (system cfg).step s a = some s₁ → o ∈ s₁.db.operations →
      o ∉ s.db.operations → o.status = .queued → o.requestPayload = .suggestions payload →
      ∀ s₂, Steps (system cfg) InTurn s₁ s₂ →
        (∀ o₂ ∈ s₂.db.operations, o₂.id = o.id → o₂.isActive = true →
          Underway cfg o payload (s.db.suggestionsOf o.taskId (some payload.analysisId)) s₂) ∧
        (AllSelected payload.suggestionDecisions.1
            (s.db.suggestionsOf o.taskId (some payload.analysisId)) → Refused cfg o s₂) := by
  have hsized := sized (fun _ _ _ h => h) hs
  refine ⟨hsized, fun a s' hturn hstep => plans_of_step (fun _ _ _ h => h) hs hturn hstep hsized,
    fun a s₁ o payload hturn hsub ho hnot hq hp s₂ hsteps => ?_⟩
  have hmove := move_of_step hsub
  have hnew : NewOperation cfg s a o := by
    rcases (opsEvolve_of_move hmove).origin o ho with ⟨o₀, ho₀, hbec⟩ | hnew
    · obtain rfl := hbec.queued hq
      exact absurd ho₀ hnot
    · exact hnew
  obtain ⟨hr, hd⟩ := decided_of_new (base hs) hmove hnew ho hp
  obtain ⟨hreach, hk⟩ := keeps_of_inTurn hs hturn hsub hnew ho hsteps
  have hinj : ∀ r ∈ s.db.suggestionsOf o.taskId (some payload.analysisId),
      ∀ r' ∈ s.db.suggestionsOf o.taskId (some payload.analysisId), r.id = r'.id → r = r' :=
    fun r hm r' hm' => Table.eq_of_key (Table.mem_select.mp hm).1 (Table.mem_select.mp hm').1
  refine ⟨fun o₂ ho₂ hid hact => underway_of_keeps hinj hp hd hreach hk ho₂ hid hact,
    fun hall => refused_of_allSelected hs hturn hsub hnew ho ?_ hsteps⟩
  rw [hp]
  refine prepare_of_allSelected hr ⟨?_, fun r hm => ?_⟩
  · rw [hd.rows, Ne, List.map_eq_nil_iff]
    exact hall.1
  · rw [hd.rows] at hm
    obtain ⟨r₀, hr₀, rfl⟩ := List.mem_map.mp hm
    rw [decisionOf, SuggestionRecord.applySnapshot_id]
    exact hall.2 r₀ hr₀

namespace Sample

/-- A second round, operation 80, which keeps suggestion 70, up to its submission. -/
def continued : List Action :=
  suggested ++ [.request 5 1 (.submit 10 (.suggestions ⟨40, decisions 70, noText _⟩) none
    none), .lock 5]

/-- Its job up to the answer of the model. -/
def improved : List Action :=
  claim 6 80 9 3 ++ [.job 6 (.go (ids 10)), .job 6 (.answer (.ok ⟨[], none⟩))]

set_option maxRecDepth 16000 in
/-- A round is submitted, executed and stored. -/
theorem run_continued : (((system writer).runIf noneStale start continued).bind fun s =>
    ((system writer).step s (.commit 5 (ids 8))).bind fun s₁ =>
      ((system writer).runIf noneStale s₁ improved).bind fun s₂ =>
        ((system writer).step s₂ (.job 6 (.go (ids 11)))).map fun s₃ =>
          (s.db.operations.get 80).isNone &&
            (s₁.db.operations.get 80).any (fun o => o.status = .queued && o.taskId = 10 &&
              o.requestPayload = .suggestions ⟨40, decisions 70, noText _⟩) &&
            (s₂.db.operations.get 80).any (fun o => o.isActive) &&
            (s₃.db.operations.get 80).any (fun o => o.status = .succeeded) &&
            decide ((s.db.suggestionsOf 10 (some 40)).map SuggestionRecord.id =
              [70, 71, 72, 73, 74])) = some true := by
  decide

end Sample

/-- It keeps suggestion 70 and replaces the other four. -/
theorem suggestion_rounds_continued : ∃ s s₃ : Sys, Reach (system Sample.writer) InTurn s ∧
    (s.db.suggestionsOf 10 (some 40)).map SuggestionRecord.id = [70, 71, 72, 73, 74] ∧
      Round (Sample.decisions 70).1 (s.db.suggestionsOf 10 (some 40))
        (s₃.db.suggestionsOf 10 (some 40)) := by
  obtain ⟨s, hrun, h⟩ := Option.bind_eq_some_iff.mp Sample.run_continued
  obtain ⟨s₁, hsub, h⟩ := Option.bind_eq_some_iff.mp h
  obtain ⟨s₂, hrest, h⟩ := Option.bind_eq_some_iff.mp h
  obtain ⟨s₃, hstep, hcheck⟩ := Option.map_eq_some_iff.mp h
  simp only [Bool.and_eq_true, decide_eq_true_eq, Option.isNone_iff_eq_none,
    Option.any_eq_true] at hcheck
  obtain ⟨⟨⟨⟨hnot, o, ho, hq⟩, o₂, ho₂, hact⟩, o₃, ho₃, hsucc⟩, hrows⟩ := hcheck
  obtain ⟨hm, hid⟩ := Table.get_eq_some.mp ho
  obtain ⟨hm₂, hid₂⟩ := Table.get_eq_some.mp ho₂
  obtain ⟨hm₃, hid₃⟩ := Table.get_eq_some.mp ho₃
  have hid : o.id = 80 := hid
  have hs := Sample.reach_of_runIf hrun
  have hsteps := steps_of_runIf Sample.noStale_of_noneStale hrest
  have hstale : s.NoStale (.commit 5 (Sample.ids 8)) := by
    intro m hm
    cases hm
  have hs₁ : Reach (system Sample.writer) NoStale s₁ := .step hs hstale hsub
  have hs₂ := hs₁.append hsteps
  obtain ⟨-, -, hround⟩ := suggestion_rounds (reach_inTurn hs)
  obtain ⟨hunderway, -⟩ := hround _ s₁ o _
    (inTurn_of_noStale (executing (fun _ _ h => h) hs) _) hsub hm
    (fun hin => Table.get_eq_none.mp hnot o hin hid) hq.1.1 hq.2 s₂ (steps_inTurn hs₁ hsteps)
  have hend := (hunderway o₂ hm₂ (hid₂.trans hid.symm) hact).succeeds _ s₃
    (inTurn_of_noStale (executing (fun _ _ h => h) hs₂) _) hstep
    ⟨o₃, hm₃, hid₃.trans hid.symm, hsucc⟩
  rw [hq.1.2] at hend
  exact ⟨s, s₃, reach_inTurn hs, hrows, hend⟩

end Sys

end DouyinCaption

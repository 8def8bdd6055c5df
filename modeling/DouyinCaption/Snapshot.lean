import DouyinCaption.Preparation

/-!
# What the model input depends on

Two states of the database that differ only in the decisions and notes of the suggestion
rows (`Db.SameButDecisions`), and the provider request an operation builds from each
(`Db.providerRequest`). Every operation takes the decisions from its payload, and drafts and
revisions the notes too; a round of suggestions takes the notes of its fixed suggestions
from the rows. The requests are the same exactly where these notes are.
-/

namespace DouyinCaption

open Tables

/-- The provider request of an operation executed against one state of the database; `none`
where the execution ends before its call. -/
def Db.providerRequest (cfg : Config) (db : Db) (op : AiOperation) (model : Text) :
    Option CompletionRequest :=
  match db.tasks.get op.taskId with
  | none => none
  | some task =>
      match prepare db task.id op.requestPayload with
      | .error _ => none
      | .ok prepared =>
          match invoke cfg task op.initialTaskState model prepared with
          | .error _ => none
          | .ok call => some call.request

/-- The database states differ only in the decisions and notes of suggestion rows. -/
structure Db.SameButDecisions (db db' : Db) : Prop where
  others : db' = { db with suggestions := db'.suggestions }
  rows : db'.suggestions.rows.map (SuggestionRecord.decide .pending none) =
    db.suggestions.rows.map (SuggestionRecord.decide .pending none)

/-! ## Deciding anew -/

/-- A row with the decision and the note its identifier is given. -/
def SuggestionRecord.redecide (d : Uuid → SuggestionDecision) (n : Uuid → Option Text)
    (r : SuggestionRecord) : SuggestionRecord := r.decide (d r.id) (n r.id)

/-- The database with every suggestion decided anew. -/
def Db.redecide (d : Uuid → SuggestionDecision) (n : Uuid → Option Text) (db : Db) : Db :=
  { db with suggestions := db.suggestions.update (fun _ => true) (.redecide d n) }

section

variable (d : Uuid → SuggestionDecision) (n : Uuid → Option Text)

@[simp] theorem SuggestionRecord.redecide_id (r : SuggestionRecord) :
    (r.redecide d n).id = r.id := rfl

@[simp] theorem storedSuggestion_redecide (r : SuggestionRecord) :
    storedSuggestion (r.redecide d n) = storedSuggestion r := rfl

@[simp] theorem decisionOf_redecide (ds : List SuggestionDecisionSubmit) (r : SuggestionRecord) :
    decisionOf ds (r.redecide d n) = decisionOf ds r := rfl

/-- The rows are decided anew one by one. -/
theorem rows_redecide (db : Db) :
    (db.redecide d n).suggestions.rows = db.suggestions.rows.map (.redecide d n) := by
  simp [Db.redecide, Table.update]

end

/-- States that differ only in the decisions and notes are one state decided anew. -/
theorem Db.SameButDecisions.eq_redecide {db db' : Db} (h : db.SameButDecisions db') :
    ∃ d n, db' = db.redecide d n ∧
      ∀ r' ∈ db'.suggestions, d r'.id = r'.decision ∧ n r'.id = r'.memberNote := by
  refine ⟨fun i => ((db'.suggestions.get i).map SuggestionRecord.decision).getD .pending,
    fun i => (db'.suggestions.get i).bind SuggestionRecord.memberNote, ?_, ?_⟩
  swap
  · intro r' hr'
    have hget : db'.suggestions.get r'.id = some r' := Table.get_of_mem hr'
    simp [hget]
  generalize hd : (fun i => ((db'.suggestions.get i).map SuggestionRecord.decision).getD .pending)
    = d
  generalize hn : (fun i => (db'.suggestions.get i).bind SuggestionRecord.memberNote) = n
  -- to forget the decisions and to decide anew gives the rows of the second state
  have hrow : ∀ r' ∈ db'.suggestions.rows, (r'.decide .pending none).redecide d n = r' := by
    intro r' hr'
    have hget : db'.suggestions.get r'.id = some r' := Table.get_of_mem hr'
    subst hd hn
    simp only [SuggestionRecord.redecide, SuggestionRecord.decide, hget]
    rfl
  have hrows : db'.suggestions.rows = db.suggestions.rows.map (.redecide d n) := by
    calc db'.suggestions.rows
        = db'.suggestions.rows.map fun r' => (r'.decide .pending none).redecide d n := by
          rw [List.map_congr_left hrow, List.map_id']
      _ = (db'.suggestions.rows.map (SuggestionRecord.decide .pending none)).map
            (.redecide d n) := by rw [List.map_map]; rfl
      _ = (db.suggestions.rows.map (SuggestionRecord.decide .pending none)).map
            (.redecide d n) := by rw [h.rows]
      _ = db.suggestions.rows.map (.redecide d n) := by rw [List.map_map]; rfl
  rw [h.others, Db.redecide]
  congr 1
  exact Table.ext (hrows.trans (rows_redecide d n db).symm)

/-! ## Reading the decided rows -/

section

variable (d : Uuid → SuggestionDecision) (n : Uuid → Option Text)

/-- No query selects suggestions by their decision or note. -/
theorem suggestionsOf_redecide (db : Db) (taskId : Uuid) (analysisId : Option Uuid) :
    (db.redecide d n).suggestionsOf taskId analysisId =
      (db.suggestionsOf taskId analysisId).map (.redecide d n) := by
  refine (Table.select_update (f := SuggestionRecord.redecide d n) (fun _ => rfl)
    fun _ => rfl).trans ?_
  simp only [if_true]
  rfl

/-- What an operation has read, decided anew. -/
def Reads.redecide (r : Reads) : Reads :=
  { r with suggestions := r.suggestions.map (.redecide d n) }

/-- A query reads the rows as they are, and orders them by what a decision leaves alone. -/
theorem run_redecide (db : Db) (taskId : Uuid) (p : Payload) (r : Reads) (q : Query) :
    q.run (db.redecide d n) taskId p (r.redecide d n) =
      (q.run db taskId p r).map (Reads.redecide d n) := by
  cases q with
  | hasFirstDraft | locks => rfl
  | analysis =>
    have hdb : (db.redecide d n).analyses = db.analyses := rfl
    simp only [Query.run, hdb]
    rcases db.analyses.scalar _ with _ | a <;> rfl
  | parent =>
    have hdb : (db.redecide d n).versions = db.versions := rfl
    simp only [Query.run, hdb]
    rcases db.versions.scalar _ with _ | v <;> rfl
  | suggestions =>
    simp only [Query.run, suggestionsOf_redecide]
    cases p with
    | suggestions p =>
      -- only a round orders its rows, by columns that a decision leaves alone
      have hsort := List.map_insertionSort (r := SuggestionRecord.before)
        (s := SuggestionRecord.before) (SuggestionRecord.redecide d n)
        (db.suggestionsOf taskId (Payload.suggestions p).analysisId) fun a _ b _ => Iff.rfl
      simp only [← hsort]
      rfl
    | _ => rfl

/-- All queries of an operation read the rows decided anew. -/
theorem readAll_redecide (db : Db) (taskId : Uuid) (p : Payload) :
    readAll (db.redecide d n) taskId p = (readAll db taskId p).map (Reads.redecide d n) := by
  have hfold : ∀ (qs : List Query) (r : Reads),
      qs.foldlM (fun r q => Query.run (db.redecide d n) taskId p r q) (r.redecide d n) =
        (qs.foldlM (fun r q => Query.run db taskId p r q) r).map (Reads.redecide d n) := by
    intro qs
    induction qs with
    | nil => exact fun _ => rfl
    | cons q qs ih =>
      intro r
      rw [List.foldlM_cons, List.foldlM_cons, run_redecide]
      rcases q.run db taskId p r with e | r'
      · rfl
      · exact ih r'
  exact hfold p.queries {}

/-- Which rows are selected, and with which notes, is said in the payload. -/
theorem selectedRows_redecide (ds : List SuggestionDecisionSubmit) (rs : List SuggestionRecord) :
    selectedRows ds (rs.map (.redecide d n)) =
      (selectedRows ds rs).map (List.map fun r => (r.1.redecide d n, r.2)) := by
  induction rs with
  | nil => rfl
  | cons r rs ih =>
    simp only [List.map_cons, selectedRows, decisionOf_redecide, ih]
    rcases decisionOf ds r with _ | x
    · rfl
    · rcases selectedRows ds rs with e | rest
      · rfl
      · cases hx : x.selected <;> simp [orKeyError, Except.map, hx, bind, Except.bind, pure,
          Except.pure]

/-- What does not look at decisions and notes is the same on rows decided anew. -/
theorem mapM_redecide {α ε : Type} (f : SuggestionRecord → Except ε α)
    (hf : ∀ r, f (r.redecide d n) = f r) (rs : List SuggestionRecord) :
    (rs.map (.redecide d n)).mapM f = rs.mapM f := by
  induction rs with
  | nil => rfl
  | cons r rs ih => rw [List.map_cons, List.mapM_cons, List.mapM_cons, hf, ih]

/-- The selection of a first draft or a regeneration takes its notes from the payload. -/
theorem selectedSuggestions_redecide (rs : List SuggestionRecord)
    (ds : List SuggestionDecisionSubmit) :
    selectedSuggestions (rs.map (.redecide d n)) ds = selectedSuggestions rs ds := by
  unfold selectedSuggestions
  rw [selectedRows_redecide]
  rcases selectedRows ds rs with e | rows
  · rfl
  · simp only [Except.map]
    show List.mapM _ (rows.map _) = List.mapM _ rows
    induction rows with
    | nil => rfl
    | cons row rows ih => rw [List.map_cons, List.mapM_cons, List.mapM_cons, ih]; rfl

/-- The re-validation looks at no decision. -/
theorem checkSuggestionSet_redecide (rs : List SuggestionRecord) :
    checkSuggestionSet (rs.map (.redecide d n)) = checkSuggestionSet rs := by
  unfold checkSuggestionSet
  rw [mapM_redecide d n _ fun r => rfl]

/-- What an operation holds, with its rows decided anew. -/
def Prepared.redecide : Prepared → Prepared
  | .suggestions payload record hasFirstDraft previous fixed =>
      .suggestions payload record hasFirstDraft (previous.map (.redecide d n))
        (fixed.map (.redecide d n))
  | p => p

/-- What an operation makes of its reads, kind by kind: only a round of suggestions holds rows. -/
theorem assemble_redecide (p : Payload) (r : Reads) :
    assemble p (r.redecide d n) = (assemble p r).map (Prepared.redecide d n) := by
  cases p with
  | analysis => rfl
  | suggestions p =>
    simp only [assemble, Reads.redecide, selectedRows_redecide]
    rcases r.analysis with _ | a
    · rfl
    rcases selectedRows p.suggestionDecisions.1 r.suggestions with e | fixed
    · rfl
    simp only [Except.map, orKeyError, bind, Except.bind, List.length_map, ne_eq,
      List.map_eq_nil_iff, pure, Except.pure, List.map_map]
    split
    · rename_i hc
      rw [hc]
    · rename_i hc
      rw [hc]
      simp only [Prepared.redecide, List.map_map]
      rfl
  | firstDraft p =>
    simp only [assemble, Reads.redecide, checkSuggestionSet_redecide, selectedSuggestions_redecide]
    rcases r.analysis with _ | a
    · rfl
    rcases checkSuggestionSet r.suggestions with e | _
    · rfl
    rcases selectedSuggestions r.suggestions p.suggestionDecisions.1 with e | s <;> rfl
  | revision p =>
    simp only [assemble, Reads.redecide, checkSuggestionSet_redecide, selectedSuggestions_redecide]
    rcases r.parent with _ | v
    · rfl
    rcases p.scope with _ | _ | ⟨_, ds⟩
    · rfl
    · rfl
    rcases r.analysis with _ | a
    · rfl
    rcases checkSuggestionSet r.suggestions with e | _
    · rfl
    dsimp only [orKeyError]
    rcases selectedSuggestions r.suggestions ds.1 with e | s <;> rfl

/-- What an operation prepares on rows decided anew. -/
theorem prepare_redecide (db : Db) (taskId : Uuid) (p : Payload) :
    prepare (db.redecide d n) taskId p = (prepare db taskId p).map (Prepared.redecide d n) := by
  unfold prepare
  rw [readAll_redecide]
  rcases readAll db taskId p with e | r
  · rfl
  · exact assemble_redecide d n p r

end

/-! ## The notes in a request -/

/-- A stored suggestion with a note. -/
def SuggestionRecord.noted (note : SuggestionRecord → Text) (r : SuggestionRecord) :
    Except AiFailure SelectedSuggestion := do
  return ⟨← orValue (storedSuggestion r), note r⟩

/-- Whether rows can go into a request does not depend on their notes; two lists of the same
rows with different notes differ in a note. -/
theorem mapM_noted {note : SuggestionRecord → Text} (note' : SuggestionRecord → Text) :
    ∀ {rows : List SuggestionRecord} {kept : List SelectedSuggestion},
      rows.mapM (SuggestionRecord.noted note) = .ok kept →
        ∃ kept', rows.mapM (SuggestionRecord.noted note') = .ok kept' ∧
          (kept'.map SelectedSuggestion.note = kept.map SelectedSuggestion.note →
            ∀ r ∈ rows, note' r = note r) ∧
          ((∀ r ∈ rows, note' r = note r) → kept' = kept) := by
  intro rows
  induction rows with
  | nil =>
    intro kept h
    exact ⟨[], rfl, fun _ _ hr => (nomatch hr), fun _ => Except.ok.inj h⟩
  | cons r rows ih =>
    intro kept h
    rw [List.mapM_cons] at h
    obtain ⟨x, hx, h⟩ := bind_eq_ok.mp h
    obtain ⟨xs, hxs, h⟩ := bind_eq_ok.mp h
    obtain rfl := Except.ok.inj h
    obtain ⟨stored, hstored, hx⟩ := bind_eq_ok.mp hx
    obtain rfl := Except.ok.inj hx
    obtain ⟨kept', hkept', hnotes, heq⟩ := ih hxs
    refine ⟨⟨stored, note' r⟩ :: kept', ?_, ?_, ?_⟩
    · rw [List.mapM_cons]
      refine bind_eq_ok.mpr ⟨⟨stored, note' r⟩, ?_, bind_eq_ok.mpr ⟨kept', hkept', rfl⟩⟩
      exact bind_eq_ok.mpr ⟨stored, hstored, rfl⟩
    · intro he
      obtain ⟨h₁, h₂⟩ := List.cons.inj he
      exact List.forall_mem_cons.mpr ⟨h₁, hnotes h₂⟩
    · intro hn
      obtain ⟨h₁, h₂⟩ := List.forall_mem_cons.mp hn
      rw [h₁, heq h₂]

/-- The text of a suggestion with its note shows the note. -/
theorem note_of_toJson {s t : SelectedSuggestion} (h : s.toJson = t.toJson) : s.note = t.note := by
  have hfields := Json.obj.inj h
  have hnote := (List.cons.inj (List.cons.inj hfields).2).1
  exact Json.str.inj (Prod.mk.inj hnote).2

/-- **A request of suggestions shows the notes of the fixed suggestions.** -/
theorem notes_of_request {cfg : Config} {model : Text} {data : SuggestionsInput}
    {kept : List SelectedSuggestion}
    (h : suggestionsRequest cfg model { data with fixedSuggestions := kept } =
      suggestionsRequest cfg model data) :
    kept.map SelectedSuggestion.note = data.fixedSuggestions.map SelectedSuggestion.note := by
  have hmessages := (CompletionRequest.mk.inj h).2.1
  have hvalues := userPayload_injective (List.cons.inj (List.cons.inj hmessages).2).1
  -- the fixed suggestions are the fifth member of the payload
  have hlast := (List.cons.inj (List.cons.inj (List.cons.inj (List.cons.inj (List.cons.inj
    hvalues).2).2).2).2).1
  have hjson := Json.arr.inj (Prod.mk.inj hlast).2
  have hmap : ∀ {xs ys : List SelectedSuggestion},
      xs.map (·.toJson) = ys.map (·.toJson) → xs.map (·.note) = ys.map (·.note) := by
    intro xs
    induction xs with
    | nil =>
      intro ys h
      rw [List.map_eq_nil_iff.mp h.symm]
    | cons x xs ih =>
      intro ys h
      cases ys with
      | nil => cases h
      | cons y ys =>
        obtain ⟨h₁, h₂⟩ := List.cons.inj h
        rw [List.map_cons, List.map_cons, note_of_toJson h₁, ih h₂]
  exact hmap hjson

/-! ## The requests of two states -/

/-- Other fixed suggestions change one field of the request, and not whether there is one. -/
theorem suggest_request {cfg : Config} {task : TaskAiSnapshot} {analysis : AnalysisResult}
    {model context : Text} {previous : List Suggestion} {fixed : List SelectedSuggestion}
    {call : ModelCall} (h : suggest cfg task analysis model context previous fixed = .ok call)
    (fixed' : List SelectedSuggestion) :
    ∃ call' data, suggest cfg task analysis model context previous fixed' = .ok call' ∧
      data.fixedSuggestions = fixed ∧ call.request = suggestionsRequest cfg model data ∧
      call'.request =
        suggestionsRequest cfg model { data with fixedSuggestions := fixed' } := by
  obtain ⟨plan, hplan, h⟩ := bind_eq_ok.mp h
  obtain ⟨source, hsource, h⟩ := bind_eq_ok.mp h
  obtain rfl := Except.ok.inj h
  exact ⟨_, _, bind_eq_ok.mpr ⟨plan, hplan, bind_eq_ok.mpr ⟨source, hsource, rfl⟩⟩, rfl, rfl,
    rfl⟩

/-- **A round of suggestions** asks the same of the provider where its fixed rows carry the
same notes, and only there. -/
theorem invoke_suggestions {cfg : Config} {task : RewriteTask} {initial : TaskState}
    {model : Text} {payload : SuggestionsSubmit} {record : AnalysisRecord} {hasFirstDraft : Bool}
    {previous fixed : List SuggestionRecord} {call : ModelCall}
    (d : Uuid → SuggestionDecision) (n : Uuid → Option Text)
    (h : invoke cfg task initial model
      (.suggestions payload record hasFirstDraft previous fixed) = .ok call) :
    ∃ call', invoke cfg task initial model
        (.suggestions payload record hasFirstDraft (previous.map (.redecide d n))
          (fixed.map (.redecide d n))) = .ok call' ∧
      (call'.request = call.request ↔
        ∀ r ∈ fixed, (n r.id).getD [] = r.memberNote.getD []) := by
  obtain ⟨snapshot, hsnapshot, h⟩ := bind_eq_ok.mp h
  obtain ⟨before, hbefore, h⟩ := bind_eq_ok.mp h
  obtain ⟨kept, hkept, h⟩ := bind_eq_ok.mp h
  -- the rows carry other notes now, and nothing else has changed
  obtain ⟨kept', hkept', hnotes, hsame⟩ := mapM_noted
    (fun r : SuggestionRecord => (n r.id).getD []) hkept
  obtain ⟨call', data, hcall', hdata, hreq, hreq'⟩ := suggest_request h kept'
  refine ⟨call', ?_, ?_⟩
  · refine bind_eq_ok.mpr ⟨snapshot, hsnapshot, bind_eq_ok.mpr ⟨before, ?_, bind_eq_ok.mpr
      ⟨kept', ?_, hcall'⟩⟩⟩
    · rw [mapM_redecide d n _ fun r => rfl]
      exact hbefore
    · rw [List.mapM_map]
      exact hkept'
  · rw [hreq, hreq']
    constructor
    · intro he
      exact hnotes (hdata ▸ notes_of_request he)
    · intro hr
      rw [hsame hr, ← hdata]

/-- The fixed suggestions of a round: the rows its payload selects. -/
def Db.fixedSuggestions (db : Db) (op : AiOperation) : List SuggestionRecord :=
  match op.requestPayload with
  | .suggestions p => (db.suggestionsOf op.taskId (some p.analysisId)).filter fun r =>
      (decisionOf p.suggestionDecisions.1 r).any (·.selected)
  | _ => []

/-- The rows a round of suggestions has fixed are those its payload selects. -/
theorem mem_fixed_of_prepare {db : Db} {taskId : Uuid} {p payload : SuggestionsSubmit}
    {record : AnalysisRecord} {hasFirstDraft : Bool} {previous fixed : List SuggestionRecord}
    (h : prepare db taskId (.suggestions p) =
      .ok (.suggestions payload record hasFirstDraft previous fixed)) (r : SuggestionRecord) :
    r ∈ fixed ↔ r ∈ db.suggestionsOf taskId (some p.analysisId) ∧
      (decisionOf p.suggestionDecisions.1 r).any (·.selected) = true := by
  obtain ⟨reads, hreads, h⟩ := bind_eq_ok.mp h
  obtain ⟨a, -, h⟩ := bind_eq_ok.mp h
  obtain ⟨rows, hrows, h⟩ := bind_eq_ok.mp h
  obtain ⟨_, -, h⟩ := bind_eq_ok.mp h
  obtain ⟨-, -, -, -, rfl⟩ := Prepared.suggestions.inj (Except.ok.inj h)
  have hread : reads.suggestions =
      (db.suggestionsOf taskId (some p.analysisId)).insertionSort SuggestionRecord.before :=
    (of_readAll hreads).suggestions (by simp [Payload.queries])
  rw [(rows_of_selectedRows hrows).1, List.mem_filter, hread]
  exact and_congr_left fun _ => (List.perm_insertionSort _ _).mem_iff

/-- The other operations hold nothing of the decisions and notes of the rows. -/
theorem redecide_of_prepare {db : Db} {taskId : Uuid} {p : Payload} {prep : Prepared}
    (d : Uuid → SuggestionDecision) (n : Uuid → Option Text)
    (h : prepare db taskId p = .ok prep) (hp : ∀ sp, p ≠ .suggestions sp) :
    prep.redecide d n = prep := by
  obtain ⟨reads, -, h⟩ := bind_eq_ok.mp h
  cases p with
  | analysis =>
    obtain rfl := Except.ok.inj h
    rfl
  | suggestions sp => exact absurd rfl (hp sp)
  | firstDraft p =>
    obtain ⟨a, -, h⟩ := bind_eq_ok.mp h
    obtain ⟨_, -, h⟩ := bind_eq_ok.mp h
    obtain ⟨s, -, h⟩ := bind_eq_ok.mp h
    obtain rfl := Except.ok.inj h
    rfl
  | revision p =>
    obtain ⟨v, -, h⟩ := bind_eq_ok.mp h
    split at h
    · obtain ⟨a, -, h⟩ := bind_eq_ok.mp h
      obtain ⟨_, -, h⟩ := bind_eq_ok.mp h
      obtain ⟨s, -, h⟩ := bind_eq_ok.mp h
      obtain rfl := Except.ok.inj h
      rfl
    · obtain rfl := Except.ok.inj h
      rfl

/-- A round of suggestions holds its rows. -/
theorem suggestions_of_prepare {db : Db} {taskId : Uuid} {p : SuggestionsSubmit}
    {prep : Prepared} (h : prepare db taskId (.suggestions p) = .ok prep) :
    ∃ record hasFirstDraft previous fixed,
      prep = .suggestions p record hasFirstDraft previous fixed := by
  obtain ⟨reads, -, h⟩ := bind_eq_ok.mp h
  obtain ⟨a, -, h⟩ := bind_eq_ok.mp h
  obtain ⟨rows, -, h⟩ := bind_eq_ok.mp h
  obtain ⟨_, -, h⟩ := bind_eq_ok.mp h
  obtain rfl := Except.ok.inj h
  exact ⟨_, _, _, _, rfl⟩

/-- A request is built where the task is found, the inputs are prepared and the service accepts
them. -/
theorem providerRequest_eq_some {cfg : Config} {db : Db} {op : AiOperation} {model : Text}
    {req : CompletionRequest} : db.providerRequest cfg op model = some req ↔
      ∃ task prep call, db.tasks.get op.taskId = some task ∧
        prepare db task.id op.requestPayload = .ok prep ∧
        invoke cfg task op.initialTaskState model prep = .ok call ∧ call.request = req := by
  unfold Db.providerRequest
  constructor
  · intro h
    split at h
    · cases h
    · rename_i task ht
      split at h
      · cases h
      · rename_i prep hp
        split at h
        · cases h
        · rename_i call hc
          exact ⟨task, prep, call, ht, hp, hc, Option.some.inj h⟩
  · rintro ⟨task, prep, call, ht, hp, hc, rfl⟩
    simp only [ht, hp, hc]

/-- Decided anew, a request is built still, and it is the same exactly where the fixed rows
carry the same notes. -/
theorem providerRequest_redecide {cfg : Config} {db : Db} {op : AiOperation} {model : Text}
    {req : CompletionRequest} (d : Uuid → SuggestionDecision) (n : Uuid → Option Text)
    (h : db.providerRequest cfg op model = some req) :
    ∃ req', (db.redecide d n).providerRequest cfg op model = some req' ∧
      (req' = req ↔ ∀ r ∈ db.fixedSuggestions op, (n r.id).getD [] = r.memberNote.getD []) := by
  obtain ⟨task, prep, call, ht, hp, hc, rfl⟩ := providerRequest_eq_some.mp h
  have hp' : prepare (db.redecide d n) task.id op.requestPayload = .ok (prep.redecide d n) := by
    rw [prepare_redecide, hp]
    rfl
  -- a round of suggestions holds its rows, and the other operations hold none
  by_cases hround : ∃ sp, op.requestPayload = .suggestions sp
  · obtain ⟨sp, hsp⟩ := hround
    rw [hsp] at hp
    obtain ⟨record, hasFirstDraft, previous, fixed, rfl⟩ := suggestions_of_prepare hp
    obtain ⟨call', hc', hreq⟩ := invoke_suggestions d n hc
    refine ⟨call'.request, providerRequest_eq_some.mpr ⟨task, _, call', ht, hp', hc', rfl⟩, ?_⟩
    have hid : task.id = op.taskId := (Table.get_eq_some.mp ht).2
    rw [hreq]
    refine forall_congr' fun r => ?_
    rw [mem_fixed_of_prepare hp, Db.fixedSuggestions, hsp, hid]
    simp only [List.mem_filter]
  · have hother : ∀ sp, op.requestPayload ≠ .suggestions sp := fun sp e => hround ⟨sp, e⟩
    rw [redecide_of_prepare d n hp hother] at hp'
    refine ⟨call.request, providerRequest_eq_some.mpr ⟨task, prep, call, ht, hp', hc, rfl⟩, ?_⟩
    have hnone : db.fixedSuggestions op = [] := by
      unfold Db.fixedSuggestions
      split
      · rename_i sp hsp
        exact absurd hsp (hother sp)
      · rfl
    simp [hnone]

/-- To differ only in decisions and notes is symmetric. -/
theorem Db.SameButDecisions.symm {db db' : Db} (h : db.SameButDecisions db') :
    db'.SameButDecisions db where
  others := by
    rw [h.others]
  rows := h.rows.symm

/-- States that differ only in the decisions and notes build a request both or neither. -/
theorem Db.SameButDecisions.isSome {cfg : Config} {db db' : Db} (h : db.SameButDecisions db')
    {op : AiOperation} {model : Text} (hs : (db.providerRequest cfg op model).isSome) :
    (db'.providerRequest cfg op model).isSome := by
  obtain ⟨req, hreq⟩ := Option.isSome_iff_exists.mp hs
  obtain ⟨d, n, rfl, -⟩ := h.eq_redecide
  obtain ⟨req', hreq', -⟩ := providerRequest_redecide d n hreq
  rw [hreq']
  rfl

/-- Where the first state builds a request, the second builds the same exactly if the fixed rows
carry the same notes. -/
theorem Db.SameButDecisions.request_iff {cfg : Config} {db db' : Db}
    (h : db.SameButDecisions db') {op : AiOperation} {model : Text} {req : CompletionRequest}
    (hreq : db.providerRequest cfg op model = some req) :
    db'.providerRequest cfg op model = some req ↔
      ∀ r ∈ db.fixedSuggestions op, ∀ r' ∈ db'.suggestions, r'.id = r.id →
        r'.memberNote.getD [] = r.memberNote.getD [] := by
  obtain ⟨d, n, rfl, hdn⟩ := h.eq_redecide
  obtain ⟨req', hreq', hiff⟩ := providerRequest_redecide d n hreq
  rw [hreq', Option.some.injEq, hiff]
  constructor
  · intro hn r hr r' hr' hid
    rw [← (hdn r' hr').2, hid, hn r hr]
  · intro hn r hr
    -- a fixed row is stored, and so is what has become of it
    have hmem : r.redecide d n ∈ (db.redecide d n).suggestions := by
      rw [Table.mem_def, rows_redecide]
      refine List.mem_map_of_mem ?_
      unfold Db.fixedSuggestions at hr
      split at hr
      · exact (Table.mem_select.mp (List.mem_filter.mp hr).1).1
      · cases hr
    have hnote := (hdn _ hmem).2
    rw [SuggestionRecord.redecide_id] at hnote
    rw [hnote]
    exact hn r hr _ hmem rfl

/-- **What the model input depends on.** Two states that differ only in the decisions and
notes of suggestion rows build a request both or neither, and then the same one exactly where
every row that a round of suggestions has fixed carries the same note in both, a missing note
counting as an empty one. The other operations fix no rows. -/
theorem providerRequest_eq_iff {cfg : Config} {db db' : Db} (h : db.SameButDecisions db')
    (op : AiOperation) (model : Text) :
    ((db'.providerRequest cfg op model).isSome ↔ (db.providerRequest cfg op model).isSome) ∧
      ∀ req, db.providerRequest cfg op model = some req →
        (db'.providerRequest cfg op model = some req ↔
          ∀ r ∈ db.fixedSuggestions op, ∀ r' ∈ db'.suggestions, r'.id = r.id →
            r'.memberNote.getD [] = r.memberNote.getD []) :=
  ⟨⟨h.symm.isSome, h.isSome⟩, fun _ => h.request_iff⟩

namespace Sample

/-- A configuration to build requests with. -/
def plain : Config where
  digest := id
  suggestionSchema := .null
  parseSuggestionSet := fun _ => none
  ilike := fun _ _ => true
  unifiedDiff := fun _ _ => []

/-- A suggestion of analysis 40. -/
def suggestion (id : Uuid) (note : Option Text) : SuggestionRecord where
  id := id
  taskId := 10
  analysisId := 40
  suggestionKey := "k".toList
  analysisIssueIds := ["analysis".toList]
  title := "t".toList
  problem := "p".toList
  direction := "d".toList
  reason := "r".toList
  impactScope := "i".toList
  memberNote := note
  createdAt := 0

/-- A task with an analysis and two suggestions, the first with a note. -/
def noted (note : Text) : Db where
  members := .empty
  providers := .empty
  tasks := ⟨[{
    id := 10, ownerId := 1, name := "n".toList, sourceText := "s".toList
    creativeSettings := some settings, state := .suggesting
    createdAt := 0, updatedAt := 0 }], by decide⟩
  analyses := ⟨[{
    id := 40, taskId := 10, sequence := 1, payload := .text ⟨"a".toList, by decide⟩
    promptTemplateVersion := [], modelIdentifier := [], createdAt := 0 }], by decide⟩
  suggestions := ⟨[suggestion 51 (some note), suggestion 52 none],
    (by decide : [51, 52].Nodup)⟩

/-- A round of suggestions that fixes the first of them, with the note it had. -/
def round : AiOperation where
  id := 20
  ownerId := 1
  taskId := 10
  taskName := "n".toList
  kind := .suggestions
  status := .queued
  idempotencyKey := none
  requestHash := []
  requestPayload := .suggestions {
    analysisId := 40
    suggestionDecisions :=
      ⟨[⟨51, true, some ⟨"a".toList, by decide⟩⟩, ⟨52, false, none⟩], by decide⟩ }
  requestId := none
  initialTaskState := .analysisReady
  runningTaskState := .suggesting
  createdAt := 0

/-- The two states differ in the note of one row. -/
theorem sameButDecisions_noted (note note' : Text) :
    (noted note).SameButDecisions (noted note') := ⟨rfl, rfl⟩

/-- The round builds a request. -/
theorem request_noted :
    ((noted "a".toList).providerRequest plain round "m".toList).isSome = true := by
  decide

end Sample

/-- The note of a fixed suggestion is edited after the round was submitted, and the request
changes with it. -/
theorem providerRequest_edited :
    (Sample.noted "a".toList).SameButDecisions (Sample.noted "b".toList) ∧
      Sample.round.status = .queued ∧ Sample.round.kind = .suggestions ∧
      (Sample.noted "b".toList).providerRequest Sample.plain Sample.round "m".toList ≠
        (Sample.noted "a".toList).providerRequest Sample.plain Sample.round "m".toList := by
  have hsame := Sample.sameButDecisions_noted "a".toList "b".toList
  refine ⟨hsame, rfl, rfl, fun he => ?_⟩
  obtain ⟨req, hreq⟩ := Option.isSome_iff_exists.mp Sample.request_noted
  have hnotes := (hsame.request_iff hreq).mp (he.trans hreq)
  have hnote := hnotes (Sample.suggestion 51 (some "a".toList)) (by decide)
    (Sample.suggestion 51 (some "b".toList)) (List.mem_cons_self) rfl
  revert hnote
  decide

/-- For these two states: a request is built in both, and it is not the same. -/
theorem providerRequest_eq_iff_noted :
    ((Sample.noted "b".toList).providerRequest Sample.plain Sample.round "m".toList).isSome ∧
      ∀ req, (Sample.noted "a".toList).providerRequest Sample.plain Sample.round "m".toList =
          some req →
        ((Sample.noted "b".toList).providerRequest Sample.plain Sample.round "m".toList =
          some req ↔ False) := by
  have h : _ ∧ ∀ req, (Sample.noted "a".toList).providerRequest Sample.plain Sample.round
      "m".toList = some req → _ := providerRequest_eq_iff
    (Sample.sameButDecisions_noted "a".toList "b".toList) Sample.round "m".toList
  refine ⟨h.1.mpr Sample.request_noted, fun req hreq => (h.2 req hreq).trans ?_⟩
  rw [iff_false]
  intro hnotes
  have hnote := hnotes (Sample.suggestion 51 (some "a".toList)) (by decide)
    (Sample.suggestion 51 (some "b".toList)) (List.mem_cons_self) rfl
  revert hnote
  decide

end DouyinCaption

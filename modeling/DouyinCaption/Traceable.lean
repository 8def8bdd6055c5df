import DouyinCaption.Executing
import DouyinCaption.Reading
import DouyinCaption.Suggestions

/-!
# Suggestions and their analysis

A suggestion is stored with references to the analysis it was made for (`Due.refers`). An
analysis can be corrected afterwards, to a text or to a structure, and nothing compares the
correction with the suggestions made for it: the references hold for as long as every
correction keeps the identifiers in use (`suggestions_traceable`), and a correction that does
not breaks them (`suggestions_untraceable`). While they hold, whatever a member selects passes
the check a first draft or a regeneration makes of it (`selections_accepted`).
-/

namespace DouyinCaption

open Tables Runs

/-- A suggestion refers only to identifiers of a payload. -/
def SuggestionRecord.RefersTo (r : SuggestionRecord) (payload : AnalysisResult) : Prop :=
  ∀ i ∈ r.analysisIssueIds, i ∈ analysisReferenceIds payload

instance (r : SuggestionRecord) (payload : AnalysisResult) : Decidable (r.RefersTo payload) :=
  inferInstanceAs (Decidable (∀ i ∈ r.analysisIssueIds, i ∈ analysisReferenceIds payload))

/-- Every stored suggestion refers only to identifiers of its own analysis. -/
def Db.Traceable (db : Db) : Prop :=
  ∀ r ∈ db.suggestions, ∃ a ∈ db.analyses, a.id = r.analysisId ∧ r.RefersTo a.payload

/-! ## Statements -/

/-- The statement corrects no analysis and adds no suggestion. -/
def Write.keepsReferences : Write → Bool
  | .setAnalysis .. | .addSuggestions _ => false
  | _ => true

section Statements

variable {db db' : Db}

/-- Suggestions that come from stored ones, with their references, stay traceable. -/
theorem Db.Traceable.of_same (h : db.Traceable)
    (hs : ∀ r' ∈ db'.suggestions, ∃ r ∈ db.suggestions, r'.analysisId = r.analysisId ∧
      r'.analysisIssueIds = r.analysisIssueIds)
    (ha : ∀ a ∈ db.analyses, ∃ a' ∈ db'.analyses, a'.id = a.id ∧ a'.payload = a.payload) :
    db'.Traceable := by
  intro r' hr'
  obtain ⟨r, hr, hid, hissues⟩ := hs r' hr'
  obtain ⟨a, hma, haid, hrefs⟩ := h r hr
  obtain ⟨a', ha', haid', hpayload⟩ := ha a hma
  refine ⟨a', ha', (haid'.trans haid).trans hid.symm, fun i hi => ?_⟩
  rw [hpayload]
  exact hrefs i (hissues ▸ hi)

/-- A statement that keeps references keeps the relation. -/
theorem Write.traceable_of_apply {w : Write} (h : w.apply db = some db')
    (hw : w.keepsReferences = true) (ht : db.Traceable) : db'.Traceable := by
  have hsame : ∀ a ∈ db.analyses, ∃ a' ∈ db.analyses, a'.id = a.id ∧ a'.payload = a.payload :=
    fun a ha => ⟨a, ha, rfl, rfl⟩
  have hkept : ∀ r ∈ db.suggestions, ∃ r₀ ∈ db.suggestions, r.analysisId = r₀.analysisId ∧
      r.analysisIssueIds = r₀.analysisIssueIds := fun r hr => ⟨r, hr, rfl, rfl⟩
  cases w with
  | addAnalysis r =>
    obtain rfl := Option.some.inj h
    exact ht.of_same hkept fun a ha => ⟨a, Table.mem_insert_of_mem ha, rfl, rfl⟩
  | deselectAnalyses taskId =>
    obtain rfl := Option.some.inj h
    refine ht.of_same hkept fun a ha => ?_
    have hm := Table.mem_update_of_mem (p := fun r : AnalysisRecord => r.taskId = taskId)
      (f := fun r => { r with isSelected := false }) (fun _ => rfl) ha
    refine ⟨_, hm, ?_⟩
    split <;> exact ⟨rfl, rfl⟩
  | dropSuggestions taskId analysisId keep =>
    obtain rfl := Option.some.inj h
    exact ht.of_same (fun r hr => ⟨r, (Table.mem_delete.mp hr).1, rfl, rfl⟩) hsame
  | decide id d note =>
    obtain ⟨_, -, rfl⟩ := Option.map_eq_some_iff.mp h
    refine ht.of_same (fun r' hr' => ?_) hsame
    dsimp only at hr'
    obtain ⟨r, hr, rfl⟩ := Table.mem_update.mp hr'
    refine ⟨r, hr, ?_⟩
    split <;> exact ⟨rfl, rfl⟩
  | applySnapshot taskId analysisId ds =>
    obtain rfl := Option.some.inj h
    refine ht.of_same (fun r' hr' => ?_) hsame
    dsimp only at hr'
    obtain ⟨r, hr, rfl⟩ := Table.mem_update.mp hr'
    refine ⟨r, hr, ?_⟩
    split
    · rw [SuggestionRecord.applySnapshot]
      split <;> exact ⟨rfl, rfl⟩
    · exact ⟨rfl, rfl⟩
  | setAnalysis | addSuggestions => cases hw
  | setTask | setFinal | setOperation | setPreset =>
    obtain ⟨_, -, rfl⟩ := Option.map_eq_some_iff.mp h
    exact ht
  | _ =>
    obtain rfl := Option.some.inj h
    exact ht

/-- So does a list of them, by induction on the list. -/
theorem Db.traceable_of_foldlM {ws : List Write} : ∀ {db db' : Db},
    ws.foldlM Write.apply db = some db' → (∀ w ∈ ws, w.keepsReferences = true) →
      db.Traceable → db'.Traceable := by
  induction ws with
  | nil =>
    intro db db' h _ ht
    obtain rfl := Option.some.inj h
    exact ht
  | cons w ws ih =>
    intro db db' h hw ht
    rw [List.foldlM_cons] at h
    obtain ⟨db₁, h₁, h₂⟩ := Option.bind_eq_some_iff.mp h
    exact ih h₂ (fun w' hw' => hw w' (List.mem_cons_of_mem _ hw'))
      (Write.traceable_of_apply h₁ (hw w List.mem_cons_self) ht)

/-- A correction keeps the references of the suggestions that refer to what it stores. -/
theorem Db.traceable_of_setAnalysis {id : Uuid} {payload : AnalysisResult} {notes : Option Text}
    (h : (Write.setAnalysis id payload notes).apply db = some db') (ht : db.Traceable) :
    db'.Traceable ↔ ∀ r ∈ db.suggestions, r.analysisId = id → r.RefersTo payload := by
  obtain ⟨_, -, rfl⟩ := Option.map_eq_some_iff.mp h
  constructor
  · intro h r hr hid
    obtain ⟨a', ha', haid, hrefs⟩ := h r hr
    dsimp only at ha'
    obtain ⟨a, ha, rfl⟩ := Table.mem_update.mp ha'
    by_cases hc : a.id = id
    · rw [if_pos (decide_eq_true hc)] at hrefs
      exact hrefs
    · rw [if_neg (by simp [hc])] at haid
      exact absurd (haid.trans hid) hc
  · intro h r hr
    obtain ⟨a, ha, haid, hrefs⟩ := ht r hr
    have hm := Table.mem_update_of_mem (p := fun r : AnalysisRecord => r.id = id)
      (f := fun r => { r with payload := payload, memberNotes := notes }) (fun _ => rfl) ha
    refine ⟨_, hm, ?_⟩
    by_cases hc : a.id = id
    · rw [if_pos (decide_eq_true hc)]
      exact ⟨haid, h r hr (haid.symm.trans hc)⟩
    · rw [if_neg (by simp [hc])]
      exact ⟨haid, hrefs⟩

/-- Suggestions that refer to a stored analysis can be added. -/
theorem Db.traceable_of_addSuggestions {rs : List SuggestionRecord}
    (h : (Write.addSuggestions rs).apply db = some db') (ht : db.Traceable)
    (hrs : ∀ r ∈ rs, ∃ a ∈ db.analyses, a.id = r.analysisId ∧ r.RefersTo a.payload) :
    db'.Traceable := by
  obtain rfl := Option.some.inj h
  intro r hr
  rcases Table.mem_of_mem_insertAll hr with hr | hr
  · exact ht r hr
  · exact hrs r hr

end Statements

/-- What joins the fixed suggestions comes from the answer. -/
theorem mem_of_mem_replacements {previous fixed : List SuggestionRecord} {set : SuggestionSet}
    {x : Suggestion} (h : x ∈ replacements previous fixed set) : x ∈ set.suggestions :=
  List.mem_of_mem_filter ((sublist_pySlice _ _).subset h)

/-! ## Using a selection -/

/-- The keys and the references of the suggestions selected are those of their rows. -/
theorem map_of_selectedSuggestions {rs : List SuggestionRecord} {selected : List SelectedSuggestion}
    {ds : List SuggestionDecisionSubmit} (h : selectedSuggestions rs ds = .ok selected) :
    selected.map (fun s => (s.suggestion.suggestionId.1, s.suggestion.analysisIssueIds.1)) =
      (rs.filter (isSelected ds)).map fun r => (r.suggestionKey, r.analysisIssueIds) := by
  obtain ⟨rows, hrows, h⟩ := bind_eq_ok.mp h
  rw [← (rows_of_selectedRows hrows).1, List.map_map]
  refine map_of_mapM_ok (fun {row s} hs => ?_) h
  obtain ⟨x, hx, hs⟩ := bind_eq_ok.mp hs
  obtain rfl := Except.ok.inj hs
  obtain ⟨hkey, hrefs⟩ := fields_of_storedSuggestion (orInvalid_eq_ok hx)
  exact Prod.ext hkey hrefs

/-- Suggestions that form a set have keys of their own. -/
theorem nodup_of_checkSuggestionSet {rs : List SuggestionRecord}
    (h : checkSuggestionSet rs = .ok ()) : (rs.map SuggestionRecord.suggestionKey).Nodup := by
  obtain ⟨suggestions, hs, h⟩ := bind_eq_ok.mp h
  have hkeys : suggestions.map (fun s => s.suggestionId.1) =
      rs.map SuggestionRecord.suggestionKey :=
    map_of_mapM_ok (fun hx => (fields_of_storedSuggestion (orInvalid_eq_ok hx)).1) hs
  rw [← hkeys]
  exact (ensure_eq_ok.mp h).2.2

/-- Any selection of suggestions that are traceable passes the check made of it. -/
theorem Db.Traceable.accepts {db : Db} {taskId : Uuid} {record : AnalysisRecord}
    {ds : List SuggestionDecisionSubmit} {selected : List SelectedSuggestion} (ht : db.Traceable)
    (hrecord : record ∈ db.analyses)
    (hset : checkSuggestionSet (db.suggestionsOf taskId (some record.id)) = .ok ())
    (hselected : selectedSuggestions (db.suggestionsOf taskId (some record.id)) ds =
      .ok selected) :
    assertSelectedSuggestions record.payload selected = .ok () := by
  have hmap := map_of_selectedSuggestions hselected
  have hkeys : selected.map (fun s => s.suggestion.suggestionId.1) =
      ((db.suggestionsOf taskId (some record.id)).filter (isSelected ds)).map
        SuggestionRecord.suggestionKey := by
    have hfst := congrArg (List.map Prod.fst) hmap
    rwa [List.map_map, List.map_map] at hfst
  have hnodup : (selected.map fun s => s.suggestion.suggestionId.1).Nodup := by
    rw [hkeys]
    exact (nodup_of_checkSuggestionSet hset).sublist (List.filter_sublist.map _)
  have hrefs : ∀ s ∈ selected, ∀ i ∈ s.suggestion.analysisIssueIds.1,
      i ∈ analysisReferenceIds record.payload := by
    intro s hs i hi
    have hpair := List.mem_map_of_mem (f := fun s : SelectedSuggestion =>
      (s.suggestion.suggestionId.1, s.suggestion.analysisIssueIds.1)) hs
    rw [hmap] at hpair
    obtain ⟨r, hr, heq⟩ := List.mem_map.mp hpair
    obtain ⟨hstored, hcond⟩ := Table.mem_select.mp (List.mem_of_mem_filter hr)
    simp only [Bool.and_eq_true, decide_eq_true_eq] at hcond
    obtain ⟨a, ha, haid, hrefers⟩ := ht r hstored
    -- the row belongs to the analysis, of which there is one with this identifier
    obtain rfl := Table.eq_of_key ha hrecord (haid.trans (Option.some.inj hcond.2))
    have hissues : r.analysisIssueIds = s.suggestion.analysisIssueIds.1 := congrArg Prod.snd heq
    exact hrefers i (hissues ▸ hi)
  rw [assertSelectedSuggestions, if_neg (not_not.mpr hnodup)]
  exact ensure_eq_ok.mpr hrefs

/-- The analysis and the selection that `invoke` hands to the service. -/
def Prepared.basis : Prepared → Option (AnalysisRecord × List SelectedSuggestion)
  | .firstDraft _ record selected _ => some (record, selected)
  | .revision _ _ _ _ basis => basis
  | _ => none

/-- **What a first draft or a regeneration prepares on traceable suggestions is accepted.** -/
theorem Db.Traceable.accepts_prepared {db : Db} {taskId : Uuid} {p : Payload}
    {prepared : Prepared} {record : AnalysisRecord} {selected : List SelectedSuggestion}
    (ht : db.Traceable) (h : prepare db taskId p = .ok prepared)
    (hb : prepared.basis = some (record, selected)) :
    assertSelectedSuggestions record.payload selected = .ok () := by
  obtain ⟨r, hread, h⟩ := bind_eq_ok.mp h
  have hof := of_readAll hread
  cases p with
  | analysis =>
    obtain rfl := Except.ok.inj h
    cases hb
  | suggestions payload =>
    obtain ⟨_, -, h⟩ := bind_eq_ok.mp h
    obtain ⟨_, -, h⟩ := bind_eq_ok.mp h
    obtain ⟨_, -, h⟩ := bind_eq_ok.mp h
    obtain rfl := Except.ok.inj h
    cases hb
  | firstDraft payload =>
    obtain ⟨a, ha, h⟩ := bind_eq_ok.mp h
    obtain ⟨_, hset, h⟩ := bind_eq_ok.mp h
    obtain ⟨selected', hselected, h⟩ := bind_eq_ok.mp h
    obtain rfl := Except.ok.inj h
    obtain ⟨rfl, rfl⟩ := Prod.ext_iff.mp (Option.some.inj hb)
    obtain ⟨a', ha', -, hid, hfound⟩ := hof.analysis (by simp [Payload.queries])
    obtain rfl := Option.some.inj ((orKeyError_eq_ok ha).symm.trans hfound)
    have hrows : r.suggestions = db.suggestionsOf taskId (some a.id) := by
      rw [hof.suggestions (by simp [Payload.queries]), hid]
      rfl
    rw [hrows] at hset hselected
    exact ht.accepts ha' hset hselected
  | revision payload =>
    obtain ⟨_, -, h⟩ := bind_eq_ok.mp h
    split at h
    · rename_i analysisId decisions hscope
      obtain ⟨a, ha, h⟩ := bind_eq_ok.mp h
      obtain ⟨_, hset, h⟩ := bind_eq_ok.mp h
      obtain ⟨selected', hselected, h⟩ := bind_eq_ok.mp h
      obtain rfl := Except.ok.inj h
      obtain ⟨rfl, rfl⟩ := Prod.ext_iff.mp (Option.some.inj hb)
      obtain ⟨a', ha', -, hid, hfound⟩ := hof.analysis (by simp [Payload.queries, hscope])
      obtain rfl := Option.some.inj ((orKeyError_eq_ok ha).symm.trans hfound)
      have hrows : r.suggestions = db.suggestionsOf taskId (some a.id) := by
        rw [hof.suggestions (by simp [Payload.queries, hscope]), hid]
        rfl
      rw [hrows] at hset hselected
      exact ht.accepts ha' hset hselected
    · obtain rfl := Except.ok.inj h
      cases hb

/-! ## Transactions -/

/-- Only a correction changes what suggestions refer to. -/
theorem RequestWrites.keepsReferences {cfg : Config} {db : Db} {m : Uuid} {st : Stamp}
    {pd : Pending} {ws : List Write} (h : RequestWrites cfg db m st pd ws)
    (hpd : ∀ task analysisId payload, pd ≠ .updateAnalysis task analysisId payload) :
    ∀ w ∈ ws, w.keepsReferences = true := by
  cases h with
  | presets hnone hws =>
    intro w hw
    have hon := hws w hw
    revert hon
    cases w <;> simp [Write.onPresets, Write.keepsReferences]
  | updateAnalysis hr ht => exact absurd rfl (hpd _ _ _)
  | submit hstate hsnapshot =>
    rcases hsnapshot with rfl | ⟨a, ds, -, rfl⟩ <;> simp [Write.keepsReferences]
  | cancelOperation hqueued hreset =>
    exact forall_cancelWrites hreset rfl fun _ _ => rfl
  | _ => simp [storeSnapshot, Write.keepsReferences]

/-- Statements about states touch neither table. -/
theorem Write.keepsReferences_of_onStates {w : Write} (h : w.OnStates) :
    w.keepsReferences = true := by
  cases w <;> first
    | rfl
    | exact h.elim

namespace Sys

variable {cfg : Config} {s s' : Sys} {a : Action}

/-- A result that is about to be stored refers to a stored analysis. -/
theorem Due.traceable {opId : Uuid} {e : Execution} {result : ServiceResult}
    {stored : List Write} {st : Stamp} {db : Db} (hd : s.Due opId e result)
    (hw : Stores s.db e.task.id st result e.prepared stored)
    (hfold : stored.foldlM Write.apply s.db = some db) (ht : s.db.Traceable) : db.Traceable := by
  have hfrom := hd.prepared
  have hfits := hd.fits
  generalize e.prepared = prepared at hw hfrom hfits
  cases hw with
  | analysis => exact Db.traceable_of_foldlM hfold (by simp [Write.keepsReferences]) ht
  | version => exact Db.traceable_of_foldlM hfold (by simp [Write.keepsReferences]) ht
  | suggestions hout hkept hvalid =>
    obtain ⟨-, ⟨hrecord, -, -⟩, -⟩ := hfrom
    rw [List.foldlM_cons] at hfold
    obtain ⟨db₁, h₁, hfold⟩ := Option.bind_eq_some_iff.mp hfold
    rw [List.foldlM_cons] at hfold
    obtain ⟨db₂, h₂, hfold⟩ := Option.bind_eq_some_iff.mp hfold
    obtain rfl := Option.some.inj hfold
    have ht₁ := Write.traceable_of_apply h₁ rfl ht
    obtain rfl := Option.some.inj h₁
    refine Db.traceable_of_addSuggestions h₂ ht₁ fun r hr => ?_
    obtain ⟨x, hx, rfl⟩ := List.mem_map.mp hr
    refine ⟨_, hrecord, rfl, ?_⟩
    exact hfits.suggestions _ hout x.1
      (mem_of_mem_replacements (List.fst_mem_of_mem_zipIdx hx))

/-- A correction that the step commits, of an analysis of the task, keeps the identifiers that
the suggestions of the analysis refer to. -/
def KeepsReferences (s : Sys) (a : Action) : Prop :=
  ∀ p ids, a = .commit p ids → ∀ m r task analysisId payload record,
    s.procs p = .locked m r (.updateAnalysis task analysisId payload) →
      s.db.analysisOf task.id analysisId = .ok record →
        ∀ x ∈ s.db.suggestions, x.analysisId = analysisId → x.RefersTo payload.analysis

/-- A request keeps the relation, a correction under its condition. -/
theorem traceable_of_commit {p : ℕ} {ids : List Uuid} {m : Uuid} {r : Request} {pd : Pending}
    {out : Outcome} {db : Db} (hk : s.KeepsReferences (.commit p ids))
    (hp : s.procs p = .locked m r pd ∨ s.procs p = .opened m r pd ∧ pd.task = none)
    (hf : pd.finish cfg s.db m ⟨s.now, ids⟩ = .ok out) (hc : s.db.commit out.writes = some db)
    (ht : s.db.Traceable) : db.Traceable := by
  have hfold := (Db.commit_eq_some.mp hc).1
  by_cases hpd : ∃ task analysisId payload, pd = .updateAnalysis task analysisId payload
  swap
  · exact Db.traceable_of_foldlM hfold ((writes_of_finish hf).keepsReferences
      fun task analysisId payload h => hpd ⟨task, analysisId, payload, h⟩) ht
  obtain ⟨task, analysisId, payload, rfl⟩ := hpd
  have hlocked := hp.resolve_right fun h => nomatch h.2
  obtain ⟨record, hrecord, h⟩ := bind_eq_ok.mp hf
  obtain rfl := Except.ok.inj h
  have hid : record.id = analysisId := by
    rw [Db.analysisOf] at hrecord
    split at hrecord
    · cases hrecord
    · rename_i a ha
      obtain rfl := Except.ok.inj hrecord
      have hfound := (Table.scalar_some ha).2
      simp only [Bool.and_eq_true, decide_eq_true_eq] at hfound
      exact hfound.1
  rw [List.foldlM_cons] at hfold
  obtain ⟨db₁, h₁, h₂⟩ := Option.bind_eq_some_iff.mp hfold
  obtain rfl := Option.some.inj h₂
  refine (Db.traceable_of_setAnalysis h₁ ht).mpr ?_
  rw [hid]
  exact hk p ids rfl m r task analysisId payload record hlocked hrecord

/-- So does a job: new suggestions were checked against the analysis, which has not changed since.
-/
theorem traceable_of_job {ids : List Uuid} {opId : Uuid} {phase : JobPhase} {ws : List Write}
    {db : Db} (hdue : ∀ e result, phase = .returned e result → s.Due opId e result)
    (htr : phase.transaction s.db ⟨s.now, ids⟩ opId = some ws) (hc : s.db.commit ws = some db)
    (ht : s.db.Traceable) : db.Traceable := by
  have hfold := (Db.commit_eq_some.mp hc).1
  rcases (writes_of_transaction htr).states_or_result with
    hstates | ⟨e, result, stored, resource, rfl, hstored, rfl⟩
  · exact Db.traceable_of_foldlM hfold
      (fun w hw => Write.keepsReferences_of_onStates (hstates w hw)) ht
  · rw [successWrites, List.foldlM_append] at hfold
    obtain ⟨db₁, h₁, h₂⟩ := Option.bind_eq_some_iff.mp hfold
    exact Db.traceable_of_foldlM h₂ (by simp [Write.keepsReferences])
      ((hdue e result rfl).traceable hstored h₁ ht)

/-- At first there is no suggestion. -/
theorem traceable_of_initial (hi : s.Initial) : s.db.Traceable := by
  intro r hr
  rw [hi.suggestions] at hr
  cases hr

/-- A step keeps the relation where the correction it commits does. -/
theorem traceable_of_step
    (hs : Reach (system cfg) (fun s a => s.NoStale a ∧ s.KeepsReferences a) s)
    (ht : s.db.Traceable) (hk : s.NoStale a ∧ s.KeepsReferences a)
    (h : (system cfg).step s a = some s') : s'.db.Traceable := by
  cases move_of_step h with
  | commit hp hids hf hw hc => exact traceable_of_commit hk.2 hp hf hc ht
  | settle ha hp hids hn hgo htr hw hc =>
    rw [enter_db]
    refine traceable_of_job (fun e result he => ?_) htr hc ht
    subst he
    exact due (fun s a h => h.1) hs hp
  | recover he hp hw hc hx =>
    refine Db.traceable_of_foldlM (Db.commit_eq_some.mp hc).1 (fun w hw => ?_) ht
    exact Write.keepsReferences_of_onStates (onStates_of_recover w hw)
  | configure => exact ht
  | _ => simpa using ht

/-- **Suggestions stay traceable to their analysis** in every run in which each correction of
an analysis keeps the identifiers that its suggestions refer to, and no operation is declared
stale while a job executes it. -/
theorem suggestions_traceable
    (hs : Reach (system cfg) (fun s a => s.NoStale a ∧ s.KeepsReferences a) s) :
    s.db.Traceable :=
  hs.invariant (I := fun s => s.db.Traceable) (fun _ => traceable_of_initial)
    fun _ _ _ => traceable_of_step

/-- In such a run no first draft and no regeneration fails with an unknown issue, whatever is
selected. -/
theorem selections_accepted {taskId : Uuid} {p : Payload} {prepared : Prepared}
    {record : AnalysisRecord} {selected : List SelectedSuggestion}
    (hs : Reach (system cfg) (fun s a => s.NoStale a ∧ s.KeepsReferences a) s)
    (h : prepare s.db taskId p = .ok prepared)
    (hb : prepared.basis = some (record, selected)) :
    assertSelectedSuggestions record.payload selected = .ok () := by
  have ht : s.db.Traceable := hs.invariant (I := fun s => s.db.Traceable)
    (fun _ => traceable_of_initial) fun _ _ _ => traceable_of_step
  exact ht.accepts_prepared h hb

/-! ## Corrections -/

namespace Sample

def word : NonBlank := ⟨"x".toList, by decide⟩

/-- A structured analysis with one issue. -/
def structured : Analysis where
  contentOverview := ⟨word, word, word, word⟩
  segments := []
  paragraphAnalysis := []
  expressionAnalysis := ⟨word, word, word, word, word, word⟩
  contentHighlights := []
  problemsAndRisks := [⟨⟨"i1".toList, by decide⟩, .other, word, []⟩]
  conclusion := ⟨word, ["i1".toList]⟩
  segmentsUnique := by decide
  issuesUnique := by decide
  findingsKnown := by simp
  conclusionKnown := by decide

/-- Analysis 40 is corrected after its suggestions are stored. -/
def corrected (analysis : AnalysisResult) : List Action :=
  suggested ++ serve 5 8 (.updateAnalysis 10 40 { analysis })

/-- A correction that is about to be committed keeps the identifiers in use. -/
def keepsIds (db : Db) : Proc → Bool
  | .locked _ _ (.updateAnalysis _ analysisId payload) => db.suggestions.rows.all fun x =>
      !decide (x.analysisId = analysisId) || x.RefersTo payload.analysis
  | _ => true

/-- The check for a run in which corrections keep the identifiers in use. -/
def keepsReferences (s : Sys) (a : Action) : Bool :=
  noneStale s a && a.proc.all fun p => keepsIds s.db (s.procs p)

/-- The check is enough for the condition. -/
theorem keeps_of_check (s : Sys) (a : Action) (h : keepsReferences s a = true) :
    s.NoStale a ∧ s.KeepsReferences a := by
  rw [keepsReferences, Bool.and_eq_true, Option.all_eq_true] at h
  refine ⟨noStale_of_noneStale s a h.1, ?_⟩
  rintro p ids rfl m r task analysisId payload record hp - x hx hid
  have hall := h.2 p rfl
  rw [hp] at hall
  have hrefs := List.all_eq_true.mp hall x hx
  simpa [hid] using hrefs

set_option maxRecDepth 16000 in
theorem run_text : (((system writer).runIf keepsReferences start
    (corrected (.text ⟨word⟩))).map fun s =>
      s.db.suggestions.rows.any fun r => r.id = 70 && r.analysisId = 40) = some true := by
  decide

set_option maxRecDepth 16000 in
theorem run_structured : (((system writer).runIf noneStale start
    (corrected (.structured structured))).map fun s =>
      s.db.suggestions.rows.any fun r => r.id = 70 && s.db.analyses.rows.all fun a =>
        !decide (a.id = r.analysisId) || !decide (r.RefersTo a.payload)) = some true := by
  decide

end Sample

/-- A correction to a text keeps the one identifier in use. -/
theorem suggestions_traceable_text : ∃ s : Sys, s.db.Traceable ∧
    ∃ r ∈ s.db.suggestions, r.id = 70 ∧ r.analysisId = 40 := by
  obtain ⟨s, hrun, hcheck⟩ := Option.map_eq_some_iff.mp Sample.run_text
  have hs := (Reach.init Sample.initial_start).append
    (steps_of_runIf Sample.keeps_of_check hrun)
  obtain ⟨r, hr, hids⟩ := List.any_eq_true.mp hcheck
  simp only [Bool.and_eq_true, decide_eq_true_eq] at hids
  exact ⟨s, suggestions_traceable hs, r, hr, hids⟩

/-- A structured correction of a text analysis leaves its suggestions with a reference it does
not have. -/
theorem suggestions_untraceable :
    ¬ ∀ s, Reach (system Sample.writer) NoStale s → s.db.Traceable := by
  intro hall
  obtain ⟨s, hrun, hcheck⟩ := Option.map_eq_some_iff.mp Sample.run_structured
  obtain ⟨r, hr, hbad⟩ := List.any_eq_true.mp hcheck
  simp only [Bool.and_eq_true, List.all_eq_true] at hbad
  obtain ⟨a, ha, hid, hrefs⟩ := hall s (Sample.reach_of_runIf hrun) r hr
  have hno := hbad.2 a ha
  simp [hid, hrefs] at hno

end Sys

end DouyinCaption

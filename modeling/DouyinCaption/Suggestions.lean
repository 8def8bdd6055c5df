import DouyinCaption.Artefacts

/-!
# Suggestions

Which suggestions an analysis has changes only where an operation stores new ones: it keeps
the rows that were selected and replaces the rest (`Replaces`). So an analysis has none, or
between five and eight with keys of their own (`sized`).
-/

namespace DouyinCaption

open Tables Runs

/-! ## Selections -/

/-- Rows that all have a decision can be selected from. -/
theorem exists_selectedRows {ds : List SuggestionDecisionSubmit} {rs : List SuggestionRecord}
    (h : ∀ r ∈ rs, ∃ d, decisionOf ds r = some d) : ∃ rows, selectedRows ds rs = .ok rows := by
  induction rs with
  | nil => exact ⟨[], rfl⟩
  | cons r rs ih =>
    obtain ⟨d, hd⟩ := h r List.mem_cons_self
    obtain ⟨rows, hrows⟩ := ih fun r' hr' => h r' (List.mem_cons_of_mem _ hr')
    refine ⟨_, bind_eq_ok.mpr ⟨d, by rw [hd]; rfl, bind_eq_ok.mpr ⟨rows, hrows, rfl⟩⟩⟩

/-! ## The arithmetic of a round -/

/-- A suggestion read from its row has the key and the references of the row. -/
theorem fields_of_storedSuggestion {r : SuggestionRecord} {x : Suggestion}
    (h : storedSuggestion r = some x) :
    x.suggestionId.1 = r.suggestionKey ∧ x.analysisIssueIds.1 = r.analysisIssueIds := by
  rw [storedSuggestion] at h
  split at h
  · obtain rfl := Option.some.inj h
    exact ⟨rfl, rfl⟩
  · cases h

theorem keys_of_storedSuggestion {rs : List SuggestionRecord} {kept : List Suggestion}
    (h : rs.mapM (fun r => orValue (storedSuggestion r)) = .ok kept) :
    kept.map (fun s => s.suggestionId.1) = rs.map SuggestionRecord.suggestionKey := by
  refine map_of_mapM_ok (fun {r x} hx => ?_) h
  rcases hr : storedSuggestion r with _ | y
  · rw [hr] at hx
    cases hx
  · rw [hr] at hx
    obtain rfl := Except.ok.inj hx
    exact (fields_of_storedSuggestion hr).1

/-- Between five and eight suggestions with keys of their own, or none. -/
def Sized (rs : List SuggestionRecord) : Prop :=
  rs = [] ∨ 5 ≤ rs.length ∧ rs.length ≤ 8 ∧ (rs.map SuggestionRecord.suggestionKey).Nodup

/-- A round keeps the rows a condition selects and adds new ones. -/
structure Replaces (kept : SuggestionRecord → Bool) (before after : List SuggestionRecord)
    (new : List SuggestionRecord) : Prop where
  rows : after = before.filter kept ++ new
  fresh : ∀ n ∈ new, ∀ r ∈ before, n.id ≠ r.id
  atLeast : 5 ≤ after.length
  atMost : after.length ≤ if before = [] then 8 else before.length
  keys : (after.map SuggestionRecord.suggestionKey).Nodup
  apart : ∀ n ∈ new, ∀ r ∈ before, kept r = true →
    n.suggestionKey ≠ r.suggestionKey ∧ strip n.title ≠ strip r.title

theorem Replaces.sized {kept : SuggestionRecord → Bool} {before after new : List SuggestionRecord}
    (h : Replaces kept before after new) (hs : Sized before) : Sized after := by
  refine .inr ⟨h.atLeast, h.atMost.trans ?_, h.keys⟩
  split
  · exact le_rfl
  · rename_i hne
    exact (hs.resolve_left hne).2.1

/-- The rows whose identifiers are kept are those selected. -/
theorem filter_kept {previous before : List SuggestionRecord} {p : SuggestionRecord → Bool}
    (hperm : previous.Perm before)
    (hinj : ∀ r ∈ before, ∀ r' ∈ before, r.id = r'.id → r = r') :
    (before.filter fun r => r.id ∈ (previous.filter p).map SuggestionRecord.id) =
      before.filter p := by
  refine List.filter_congr fun r hr => ?_
  rw [Bool.eq_iff_iff, decide_eq_true_eq, List.mem_map]
  constructor
  · rintro ⟨r', hr', hid⟩
    obtain ⟨hm, hp⟩ := List.mem_filter.mp hr'
    rwa [← hinj r' (hperm.mem_iff.mp hm) r hr hid]
  · exact fun hp => ⟨r, List.mem_filter.mpr ⟨hperm.mem_iff.mpr hr, hp⟩, rfl⟩

/-- What the two statements of a round do to the suggestions of an analysis, and to those of
others. -/
theorem suggestionsOf_of_round {db db' : Db} {taskId analysisId : Uuid} {keep : List Uuid}
    {new : List SuggestionRecord}
    (h : [Write.dropSuggestions taskId analysisId keep, .addSuggestions new].foldlM Write.apply
      db = some db')
    (hfresh : ∀ n ∈ new, ∀ r ∈ db.suggestions, r.id ≠ n.id)
    (hids : (new.map SuggestionRecord.id).Nodup)
    (hof : ∀ n ∈ new, n.taskId = taskId ∧ n.analysisId = analysisId) :
    db'.suggestionsOf taskId (some analysisId) =
        ((db.suggestionsOf taskId (some analysisId)).filter fun r => r.id ∈ keep) ++ new ∧
      ∀ t a, ¬ (t = taskId ∧ a = analysisId) →
        db'.suggestionsOf t (some a) = db.suggestionsOf t (some a) := by
  obtain rfl := Option.some.inj h
  have hdelete : ∀ n ∈ new, (db.suggestions.delete fun r =>
      r.taskId = taskId && r.analysisId = analysisId && r.id ∉ keep).Fresh (Keyed.key n) :=
    fun n hn r hr => hfresh n hn r (Table.mem_delete.mp hr).1
  constructor
  · rw [Db.suggestionsOf, Db.suggestionsOf]
    dsimp only
    rw [Table.select_insertAll hdelete hids, Table.select_delete]
    congr 1
    · refine List.filter_congr fun r hr => ?_
      have hr' := (Table.mem_select.mp hr).2
      simp only [Bool.and_eq_true, decide_eq_true_eq, Option.some.injEq] at hr'
      simp [hr'.1, hr'.2]
    · refine List.filter_eq_self.mpr fun n hn => ?_
      simp [hof n hn]
  · intro t a hne
    rw [Db.suggestionsOf, Db.suggestionsOf]
    dsimp only
    rw [Table.select_insertAll_of_not, Table.select_delete_of_not]
    · intro r _ hr
      simp only [Bool.and_eq_true, decide_eq_true_eq, Option.some.injEq] at hr
      have hno : ¬ (r.taskId = taskId ∧ r.analysisId = analysisId) := by
        rwa [hr.1, hr.2]
      simpa using fun h₁ h₂ => absurd ⟨h₁, h₂⟩ hno
    · intro n hn hsel
      simp only [Bool.and_eq_true, decide_eq_true_eq, Option.some.injEq, hof n hn] at hsel
      exact hne ⟨hsel.1.symm, hsel.2.symm⟩

/-- What is added fits into the room that the fixed suggestions leave. -/
theorem length_fixed_replacements {previous fixed : List SuggestionRecord} (set : SuggestionSet)
    (h5 : 5 ≤ previous.length) (h8 : previous.length ≤ 8)
    (hfixed : fixed.length ≤ previous.length) :
    fixed.length + (replacements previous fixed set).length ≤ previous.length := by
  have hne : previous ≠ [] := by
    rintro rfl
    simp at h5
  have hroom : ((replacements previous fixed set).length : ℤ) ≤
      max 5 (min 8 (previous.length : ℤ)) - fixed.length := by
    rw [replacements, if_neg hne]
    exact length_pySlice _ (by omega)
  omega

/-- What is added shares no key and no title with a fixed suggestion. -/
theorem apart_of_replacements {previous fixed : List SuggestionRecord} {set : SuggestionSet}
    {x : Suggestion} (hx : x ∈ replacements previous fixed set) {r : SuggestionRecord}
    (hr : r ∈ fixed) : x.suggestionId.1 ≠ r.suggestionKey ∧ strip x.title.1 ≠ strip r.title := by
  have hfilter := (List.mem_filter.mp ((sublist_pySlice _ _).subset hx)).2
  simp only [Bool.and_eq_true, decide_eq_true_eq] at hfilter
  constructor
  · intro he
    exact hfilter.1 (he ▸ List.mem_map_of_mem hr)
  · intro he
    refine hfilter.2 ?_
    rw [he]
    exact List.mem_map_of_mem (f := fun r : SuggestionRecord => strip r.title) hr

/-- **A round stored** keeps the rows selected and replaces the rest. -/
theorem replaces_of_round {previous fixed before : List SuggestionRecord}
    {ds : List SuggestionDecisionSubmit} {set : SuggestionSet} {kept : List Suggestion}
    (taskId analysisId : Uuid) (st : Stamp) (hperm : previous.Perm before)
    (hfixed : fixed = previous.filter (isSelected ds)) (hsized : Sized before)
    (hkept : fixed.mapM (fun r => orValue (storedSuggestion r)) = .ok kept)
    (hvalid : SuggestionSet.Valid (kept ++ replacements previous fixed set))
    (hfresh : ∀ n ∈ newRows taskId analysisId st (replacements previous fixed set),
      ∀ r ∈ before, n.id ≠ r.id) :
    Replaces (isSelected ds) before
      (before.filter (isSelected ds) ++ newRows taskId analysisId st
        (replacements previous fixed set))
      (newRows taskId analysisId st (replacements previous fixed set)) := by
  have hfp : fixed.Perm (before.filter (isSelected ds)) := hfixed ▸ hperm.filter _
  have hkeys : (newRows taskId analysisId st (replacements previous fixed set)).map
      SuggestionRecord.suggestionKey =
        (replacements previous fixed set).map fun s => s.suggestionId.1 :=
    map_newRows fun s i => rfl
  have hlen : (newRows taskId analysisId st (replacements previous fixed set)).length =
      (replacements previous fixed set).length := by
    simpa using congrArg List.length hkeys
  have hcount : kept.length = fixed.length := by
    simpa using congrArg List.length (keys_of_storedSuggestion hkept)
  obtain ⟨hatLeast, hatMost, hnodup⟩ := hvalid
  rw [List.length_append, hcount] at hatLeast hatMost
  refine ⟨rfl, hfresh, ?_, ?_, ?_, ?_⟩
  · rw [List.length_append, ← hfp.length_eq, hlen]
    exact hatLeast
  · rw [List.length_append, ← hfp.length_eq, hlen]
    rcases hsized with rfl | ⟨h5, h8, -⟩
    · exact hatMost
    · have hne : before ≠ [] := by
        rintro rfl
        simp at h5
      rw [if_neg hne, ← hperm.length_eq]
      rw [← hperm.length_eq] at h5 h8
      exact length_fixed_replacements set h5 h8 (hfixed ▸ List.length_filter_le _ _)
  · rw [List.map_append, hkeys]
    rw [List.map_append, keys_of_storedSuggestion hkept] at hnodup
    exact ((hfp.map _).append_right _).nodup_iff.mp hnodup
  · intro n hn r hr hsel
    obtain ⟨x, hx, i, -, rfl⟩ := mem_newRows hn
    exact apart_of_replacements hx (hfp.mem_iff.mpr (List.mem_filter.mpr ⟨hr, hsel⟩))

/-! ## Which suggestions there are -/

/-- A suggestion, whatever the member has decided about it. -/
def SuggestionRecord.plan (r : SuggestionRecord) : SuggestionRecord :=
  { r with decision := .pending, memberNote := none }

/-- The suggestions of an analysis, whatever the member has decided about them. -/
def Db.plans (db : Db) (taskId analysisId : Uuid) : List SuggestionRecord :=
  (db.suggestionsOf taskId (some analysisId)).map SuggestionRecord.plan

/-- The statement adds and removes no suggestion. -/
def Write.keepsPlans : Write → Bool
  | .addSuggestions _ | .dropSuggestions .. => false
  | _ => true

theorem Write.plans_of_apply {w : Write} {db db' : Db} (h : w.apply db = some db')
    (hw : w.keepsPlans = true) (taskId analysisId : Uuid) :
    db'.plans taskId analysisId = db.plans taskId analysisId := by
  have hupdate : ∀ (p : SuggestionRecord → Bool) (f : SuggestionRecord → SuggestionRecord)
      (hf : ∀ r, (f r).id = r.id), (∀ r, (f r).plan = r.plan) →
      (∀ r, (f r).taskId = r.taskId ∧ (f r).analysisId = r.analysisId) →
      ((db.suggestions.update p f hf).select fun r =>
        r.taskId = taskId && some r.analysisId = some analysisId).map SuggestionRecord.plan =
        db.plans taskId analysisId := by
    intro p f hf hplan hof
    rw [Table.select_update hf fun r => by rw [(hof r).1, (hof r).2], List.map_map, Db.plans,
      Db.suggestionsOf]
    refine List.map_congr_left fun r _ => ?_
    rw [Function.comp_apply]
    split
    · exact hplan r
    · rfl
  have hdecide : ∀ (d : SuggestionDecision) (note : Option Text) (r : SuggestionRecord),
      (r.decide d note).plan = r.plan := fun _ _ _ => rfl
  cases w with
  | addSuggestions | dropSuggestions => cases hw
  | decide id d note =>
    obtain ⟨_, -, rfl⟩ := Option.map_eq_some_iff.mp h
    exact hupdate _ (SuggestionRecord.decide d note) (fun _ => rfl) (hdecide d note)
      fun _ => ⟨rfl, rfl⟩
  | applySnapshot t a ds =>
    obtain rfl := Option.some.inj h
    refine hupdate _ _ (fun _ => SuggestionRecord.applySnapshot_id ..) (fun r => ?_) fun r => ?_
    · rw [SuggestionRecord.applySnapshot]
      split
      · rfl
      · exact hdecide _ _ r
    · rw [SuggestionRecord.applySnapshot]
      split <;> exact ⟨rfl, rfl⟩
  | setTask | setAnalysis | setOperation | setFinal | setPreset =>
    obtain ⟨_, -, rfl⟩ := Option.map_eq_some_iff.mp h
    rfl
  | _ =>
    obtain rfl := Option.some.inj h
    rfl

theorem Db.plans_of_foldlM {ws : List Write} : ∀ {db db' : Db},
    ws.foldlM Write.apply db = some db' → (∀ w ∈ ws, w.keepsPlans = true) →
      ∀ taskId analysisId, db'.plans taskId analysisId = db.plans taskId analysisId := by
  induction ws with
  | nil =>
    intro db db' h _ _ _
    obtain rfl := Option.some.inj h
    rfl
  | cons w ws ih =>
    intro db db' h hw taskId analysisId
    rw [List.foldlM_cons] at h
    obtain ⟨db₁, h₁, h₂⟩ := Option.bind_eq_some_iff.mp h
    rw [ih h₂ (fun w' hw' => hw w' (List.mem_cons_of_mem _ hw')),
      Write.plans_of_apply h₁ (hw w List.mem_cons_self)]

theorem RequestWrites.keepsPlans {cfg : Config} {db : Db} {m : Uuid} {st : Stamp} {pd : Pending}
    {ws : List Write} (h : RequestWrites cfg db m st pd ws) :
    ∀ w ∈ ws, w.keepsPlans = true := by
  cases h with
  | presets hpd hws =>
    intro w hw
    have hon := hws w hw
    revert hon
    cases w <;> simp [Write.onPresets, Write.keepsPlans]
  | submit hstate hsnapshot =>
    rcases hsnapshot with rfl | ⟨a, ds, -, rfl⟩ <;> simp [Write.keepsPlans]
  | cancelOperation hqueued hreset =>
    exact forall_cancelWrites hreset rfl fun _ _ => rfl
  | _ => simp [storeSnapshot, Write.keepsPlans]

theorem Write.keepsPlans_of_onStates {w : Write} (h : w.OnStates) : w.keepsPlans = true := by
  cases w <;> first
    | rfl
    | exact h.elim

/-- What is required of the suggestions does not depend on the decisions. -/
theorem sized_of_plans {rs rs' : List SuggestionRecord}
    (h : rs'.map SuggestionRecord.plan = rs.map SuggestionRecord.plan) (hs : Sized rs) :
    Sized rs' := by
  have hlen : rs'.length = rs.length := by simpa using congrArg List.length h
  have hkeys : rs'.map SuggestionRecord.suggestionKey =
      rs.map SuggestionRecord.suggestionKey := by
    have := congrArg (List.map SuggestionRecord.suggestionKey) h
    rwa [List.map_map, List.map_map] at this
  rcases hs with rfl | ⟨h5, h8, hnodup⟩
  · exact .inl (List.length_eq_zero_iff.mp hlen)
  · exact .inr ⟨hlen ▸ h5, hlen ▸ h8, hkeys ▸ hnodup⟩

namespace Sys

variable {cfg : Config} {s s' : Sys} {a : Action}

/-- The step ends a round: it stores the suggestions of an operation. -/
structure EndsRound (s : Sys) (a : Action) (s' : Sys) (opId : Uuid) (op : AiOperation)
    (payload : SuggestionsSubmit) : Prop where
  due : ∃ e result ids stored, s.StoresResult a s' opId e result ids stored ∧
    s.Due opId e result ∧ e.op = op
  request : op.requestPayload = .suggestions payload
  replaces : ∃ new, Replaces (isSelected payload.suggestionDecisions.1)
    (s.db.suggestionsOf op.taskId (some payload.analysisId))
    (s'.db.suggestionsOf op.taskId (some payload.analysisId)) new
  others : ∀ t i, ¬ (t = op.taskId ∧ i = payload.analysisId) →
    s'.db.suggestionsOf t (some i) = s.db.suggestionsOf t (some i)

/-- A result that is stored ends a round, or leaves the suggestions there are. -/
theorem StoresResult.plans {opId : Uuid} {e : Execution} {result : ServiceResult}
    {ids : List Uuid} {stored : List Write} (hr : s.StoresResult a s' opId e result ids stored)
    (hd : s.Due opId e result) (hdrawn : ∀ id, s.db.Names id → id ∈ s.used)
    (hsized : ∀ t i, Sized (s.db.suggestionsOf t (some i))) :
    (∃ payload, s.EndsRound a s' opId e.op payload) ∨
      (∀ payload, e.op.requestPayload ≠ .suggestions payload) ∧
        ∀ t i, s'.db.plans t i = s.db.plans t i := by
  obtain ⟨resource, hfold⟩ := hr.commit
  have hstores := hr.stores
  have hfrom := hd.prepared
  have hfits := hd.fits
  have hother : (∀ w ∈ stored, w.keepsPlans = true) →
      ∀ t i, s'.db.plans t i = s.db.plans t i := by
    intro hkeeps
    refine Db.plans_of_foldlM hfold fun w hw => ?_
    rcases List.mem_append.mp hw with hw | hw
    · exact hkeeps w hw
    · rcases List.mem_pair.mp hw with rfl | rfl <;> rfl
  generalize e.prepared = prepared at hstores hfrom hfits
  cases hstores with
  | analysis =>
    exact .inr ⟨fun payload he => (nomatch hfrom.1.symm.trans he),
      hother (by simp [Write.keepsPlans])⟩
  | version hout =>
    refine .inr ⟨fun payload he => ?_, hother (by simp [Write.keepsPlans])⟩
    have hmakes := hfits.version _ hout
    cases prepared with
    | firstDraft | revision => exact nomatch hfrom.1.symm.trans he
    | analysis | suggestions => exact hmakes.elim
  | suggestions hout hkept hvalid =>
    rename_i payload record hasFirstDraft previous fixed set kept
    obtain ⟨hpayload, ⟨-, -, hid⟩, -, rfl, ⟨rows, hrows, rfl⟩, -⟩ := hfrom
    obtain ⟨db₁, h₁, hsame⟩ := stored_of_successWrites hfold
    have hall : ∀ t i, s'.db.suggestionsOf t i = db₁.suggestionsOf t i := fun t i => by
      rw [Db.suggestionsOf, Db.suggestionsOf, hsame.suggestions]
    have hnew : ∀ n ∈ newRows e.task.id record.id ⟨s.now, ids⟩
        (replacements (e.op.requestPayload.rows s.db e.task.id) (rows.map Prod.fst) set),
        n.id ∈ ids ∧ n.taskId = e.task.id ∧ n.analysisId = record.id := by
      intro n hn
      obtain ⟨x, -, i, hi, rfl⟩ := mem_newRows hn
      refine ⟨Stamp.id_mem ?_, rfl, rfl⟩
      exact (hi.trans_le (length_replacements _ _ _)).trans_eq hr.draws.1.symm
    have hfresh : ∀ n ∈ newRows e.task.id record.id ⟨s.now, ids⟩
        (replacements (e.op.requestPayload.rows s.db e.task.id) (rows.map Prod.fst) set),
        ∀ r ∈ s.db.suggestions, r.id ≠ n.id := by
      intro n hn r hmem he
      exact hr.draws.2.2 _ (hnew n hn).1 (hdrawn _ (.inr ⟨r, hmem, he⟩))
    obtain ⟨hafter, hothers⟩ := suggestionsOf_of_round h₁ hfresh
      (ids_newRows hr.draws.2.1 ((length_replacements _ _ _).trans_eq hr.draws.1.symm))
      fun n hn => (hnew n hn).2
    have hprevious : (e.op.requestPayload.rows s.db e.task.id).Perm
        (s.db.suggestionsOf e.task.id (some record.id)) := by
      rw [hpayload, hid]
      exact List.perm_insertionSort _ _
    have hfixed := (rows_of_selectedRows hrows).1
    have hround := replaces_of_round e.task.id record.id ⟨s.now, ids⟩ hprevious hfixed
      (hsized _ _) hkept hvalid fun n hn r hmem =>
        (hfresh n hn r (Table.mem_select.mp hmem).1).symm
    have hkept := filter_kept hprevious (p := isSelected payload.suggestionDecisions.1)
      fun r hm r' hm' => Table.eq_of_key (Table.mem_select.mp hm).1 (Table.mem_select.mp hm').1
    rw [hfixed, hkept, ← hfixed] at hafter
    refine .inl ⟨payload, ⟨e, result, ids, _, hr, hd, rfl⟩, hpayload, ?_, fun t i hne => ?_⟩
    · rw [← hd.task, ← hid, hall, hafter]
      exact ⟨_, hround⟩
    · rw [← hd.task, ← hid] at hne
      exact (hall t _).trans (hothers t i hne)

/-- A step leaves the suggestions there are, or ends a round. -/
theorem plans_of_step {P : Sys → Action → Prop}
    (hP : ∀ s a, Reach (system cfg) P s → P s a → s.InTurn a) (hs : Reach (system cfg) P s)
    (hp : P s a) (h : (system cfg).step s a = some s')
    (hsized : ∀ t i, Sized (s.db.suggestionsOf t (some i))) :
    (∀ t i, s'.db.plans t i = s.db.plans t i) ∨
      ∃ opId op payload, s.EndsRound a s' opId op payload := by
  cases changes_of_move (move_of_step h) with
  | none members providers he => exact .inl fun t i => by rw [he]; rfl
  | request ha hp hids hws hfold => exact .inl (Db.plans_of_foldlM hfold hws.keepsPlans)
  | states hws hfold =>
    exact .inl (Db.plans_of_foldlM hfold fun w hw => Write.keepsPlans_of_onStates (hws w hw))
  | result hr =>
    obtain ⟨p, ha, hjob⟩ := hr.job
    have hd := due_of_runs hP hs hjob (hP s a hs hp p ha _ _ _ hjob)
    rcases hr.plans hd (drawn hs) hsized with ⟨payload, hround⟩ | ⟨-, hsame⟩
    · exact .inr ⟨_, _, payload, hround⟩
    · exact .inl hsame

/-- **Every analysis has no suggestions, or five to eight with keys of their own.** -/
theorem sized {P : Sys → Action → Prop}
    (hP : ∀ s a, Reach (system cfg) P s → P s a → s.InTurn a) (hs : Reach (system cfg) P s) :
    ∀ t i, Sized (s.db.suggestionsOf t (some i)) := by
  refine hs.invariant (I := fun s => ∀ t i, Sized (s.db.suggestionsOf t (some i)))
    (fun s hi t i => .inl (by rw [Db.suggestionsOf, hi.suggestions]; rfl))
    fun s a s' hr hsized hp h t i => ?_
  rcases plans_of_step hP hr hp h hsized with hsame | ⟨opId, op, payload, hround⟩
  · exact sized_of_plans (hsame t i) (hsized t i)
  by_cases hti : t = op.taskId ∧ i = payload.analysisId
  · obtain ⟨rfl, rfl⟩ := hti
    obtain ⟨new, hreplaces⟩ := hround.replaces
    exact hreplaces.sized (hsized _ _)
  · rw [hround.others t i hti]
    exact hsized t i

end Sys

end DouyinCaption

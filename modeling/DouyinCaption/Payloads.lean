import DouyinCaption.Schemas
import DouyinCaption.Library.Validation

/-!
# Stored payloads

`PAYLOAD_TYPES[kind].model_validate`: what the four submission schemas of
`app/modules/tasks/schemas.py` make of a decoded JSON value. A request body goes through it, and
so does the `request_payload` of a stored operation before it is executed or retried.

The scalar types are the validation library's: `Scalars` is what it makes of a `UUID`, a `bool`
and an `int`, in its lax mode.
-/

namespace DouyinCaption

open Python Validation

/-- The library's validators of the scalar types. -/
structure Scalars where
  uuid : Value → Option Uuid
  bool : Value → Option Bool
  int : Value → Option Int

/-- What they are documented to do with values of their own types. -/
structure Scalars.Lawful (lib : Scalars) : Prop where
  /-- the text of an identifier is one of its spellings -/
  uuid : ∀ v u, lib.uuid v = some u → lib.uuid (Json.uuid u).value = some u
  bool : ∀ b, lib.bool (.bool b) = some b
  int : ∀ n, lib.int (.int n) = some n

/-! ## Fields -/

/-- `str` with `max_length` -/
def boundedText (max : ℕ) (v : Value) : Option (BoundedText max) :=
  (text v).bind (constrain fun s : Text => s.length ≤ max)

/-- `str` with `strip_whitespace`, `min_length=1` and `max_length` -/
def shortText (max : ℕ) (v : Value) : Option (ShortText max) :=
  (text v).bind fun s =>
    constrain (fun s => stripWhitespace s = s ∧ s ≠ [] ∧ s.length ≤ max) (stripWhitespace s)

/-- `normalize_note` -/
def normalizeNote (note : Option (BoundedText 2000)) : Option Note :=
  note.bind fun n =>
    if h : strip n.1 = [] then none
    else some ⟨strip n.1, stripBy_stripBy _, h, (length_stripBy_le _).trans n.2⟩

/-- `validate_unique_suggestions`, and the same check of `validate_selection` -/
def uniqueSuggestions (ds : { ds : List SuggestionDecisionSubmit // ds.length ≤ 100 }) :
    Option SuggestionDecisions :=
  if h : (ds.1.map SuggestionDecisionSubmit.suggestionId).Nodup then some ⟨ds.1, ds.2, h⟩
  else none

/-- The values `RevisionSubmit.scope` may have. -/
inductive ScopeName where
  | full
  | selection
  | suggestions
  deriving DecidableEq

/-- `Field(pattern="^(full|selection|suggestions)$")` -/
def scopeName (v : Value) : Option ScopeName := do
  let s ← text v
  if s = "full".toList then some .full
  else if s = "selection".toList then some .selection
  else if s = "suggestions".toList then some .suggestions
  else none

/-- `validate_selection`: the fields each scope requires, and no others. -/
def validateSelection (scope : ScopeName) (analysisId : Option Uuid)
    (ds : Option { ds : List SuggestionDecisionSubmit // ds.length ≤ 100 })
    (start stop : Option ℕ) : Option RevisionScope :=
  match scope, analysisId, ds, start, stop with
  | .full, none, none, none, none => some .full
  | .selection, none, none, some start, some stop =>
      if h : start < stop then some (.selection ⟨start, stop, h⟩) else none
  | .suggestions, some analysisId, some ds, none, none =>
      (uniqueSuggestions ds).map (.suggestions analysisId)
  | _, _, _, _, _ => none

/-! ## Schemas -/

namespace Scalars

variable (lib : Scalars)

/-- `int` with `ge=min` -/
def natFrom (min : ℕ) (v : Value) : Option ℕ :=
  (lib.int v).bind fun n => if (min : ℤ) ≤ n then some n.toNat else none

/-- `SuggestionDecisionSubmit` -/
def decision (v : Value) : Option SuggestionDecisionSubmit := do
  let members ← strictModel ["suggestion_id", "selected", "member_note"] v
  let suggestionId ← required lib.uuid members "suggestion_id"
  let selected ← required lib.bool members "selected"
  let memberNote ← defaulted none (nullable (boundedText 2000)) members "member_note"
  return ⟨suggestionId, selected, normalizeNote memberNote⟩

/-- `list[SuggestionDecisionSubmit]` with `max_length=100` -/
def decisions (v : Value) : Option { ds : List SuggestionDecisionSubmit // ds.length ≤ 100 } :=
  (items lib.decision v).bind
    (constrain fun ds : List SuggestionDecisionSubmit => ds.length ≤ 100)

/-- A schema of an analysis, a snapshot of its suggestions and a text of the member's. -/
def snapshotSubmit (name : String) (v : Value) :
    Option (Uuid × SuggestionDecisions × BoundedText 4000) := do
  let members ← strictModel ["analysis_id", "suggestion_decisions", name] v
  let analysisId ← required lib.uuid members "analysis_id"
  let ds ← required lib.decisions members "suggestion_decisions"
  let words ← defaulted (noText 4000) (boundedText 4000) members name
  let ds ← uniqueSuggestions ds
  return (analysisId, ds, words)

/-- `SuggestionsSubmit` -/
def suggestionsSubmit (v : Value) : Option SuggestionsSubmit :=
  (lib.snapshotSubmit "member_context" v).map fun (analysisId, ds, memberContext) =>
    ⟨analysisId, ds, memberContext⟩

/-- `FirstDraftSubmit` -/
def firstDraftSubmit (v : Value) : Option FirstDraftSubmit :=
  (lib.snapshotSubmit "member_requirements" v).map fun (analysisId, ds, memberRequirements) =>
    ⟨analysisId, ds, memberRequirements⟩

/-- `RevisionSubmit` -/
def revisionSubmit (v : Value) : Option RevisionSubmit := do
  let members ← strictModel ["parent_version_id", "scope", "analysis_id", "suggestion_decisions",
    "instruction", "selection_start", "selection_end"] v
  let parentVersionId ← required lib.uuid members "parent_version_id"
  let scope ← required scopeName members "scope"
  let analysisId ← defaulted none (nullable lib.uuid) members "analysis_id"
  let ds ← defaulted none (nullable lib.decisions) members "suggestion_decisions"
  let instruction ← required (shortText 4000) members "instruction"
  let start ← defaulted none (nullable (lib.natFrom 0)) members "selection_start"
  let stop ← defaulted none (nullable (lib.natFrom 1)) members "selection_end"
  let scope ← validateSelection scope analysisId ds start stop
  return ⟨parentVersionId, scope, instruction⟩

/-- `PAYLOAD_TYPES[kind].model_validate` -/
def modelValidate (kind : AiOperationKind) (v : Value) : Option Payload :=
  match kind with
  | .analysis => (strictModel [] v).map fun _ => .analysis
  | .suggestions => (lib.suggestionsSubmit v).map .suggestions
  | .firstDraft => (lib.firstDraftSubmit v).map .firstDraft
  | .revision => (lib.revisionSubmit v).map .revision

end Scalars

/-! ## Validating what was dumped -/

section RoundTrip

variable {lib : Scalars}

/-- The text of the identifier parses to it. -/
def Scalars.Parses (lib : Scalars) (u : Uuid) : Prop := lib.uuid (Json.uuid u).value = some u

/-- A text within its bound is read back from its dump. -/
theorem boundedText_value {max : ℕ} (s : BoundedText max) :
    boundedText max (Json.str s.1).value = some s := by
  rw [boundedText, text_value, Option.bind_some, constrain_val]

/-- A trimmed text is read back as it is: it is stripped of nothing. -/
theorem shortText_value {max : ℕ} (s : ShortText max) :
    shortText max (Json.str s.1).value = some s := by
  rw [shortText, text_value, Option.bind_some, s.2.1, constrain_val]

/-- A note that went through `normalize_note` goes through it unchanged. -/
theorem normalizeNote_value (note : Option Note) :
    (nullable (boundedText 2000) (Json.ofOption (fun n => .str n.1) note).value).map normalizeNote
      = some note := by
  cases note with
  | none => rfl
  | some n =>
    have hb := boundedText_value (⟨n.1, n.2.2.2⟩ : BoundedText 2000)
    have hn := nullable_eq_some (by rw [Json.value]; simp) hb
    have hstrip : strip n.1 ≠ [] := by rw [n.2.1]; exact n.2.2.1
    rw [Json.ofOption, hn, Option.map_some, normalizeNote, Option.bind_some, dif_neg hstrip]
    simp only [n.2.1]

/-- A decision is read back from its dump. -/
theorem decision_value (hl : lib.Lawful) {d : SuggestionDecisionSubmit}
    (hd : lib.Parses d.suggestionId) : lib.decision d.toJson.value = some d := by
  have hfields : lib.decision d.toJson.value =
      (lib.uuid (Json.uuid d.suggestionId).value).bind fun id =>
        (lib.bool (.bool d.selected)).bind fun selected =>
          (nullable (boundedText 2000)
            (Json.ofOption (fun n => .str n.1) d.memberNote).value).bind fun note =>
              some ⟨id, selected, normalizeNote note⟩ := rfl
  obtain ⟨note, hnote, hnormal⟩ := Option.map_eq_some_iff.mp (normalizeNote_value d.memberNote)
  rw [hfields, show lib.uuid _ = _ from hd, hl.bool, hnote]
  simp only [Option.bind_some, hnormal]

/-- And so is a list of them. -/
theorem decisions_value (hl : lib.Lawful) {ds : SuggestionDecisions}
    (hd : ∀ d ∈ ds.1, lib.Parses d.suggestionId) :
    lib.decisions ds.toJson.value = some ⟨ds.1, ds.2.1⟩ := by
  rw [Scalars.decisions, SuggestionDecisions.toJson,
    items_value fun d h => decision_value hl (hd d h), Option.bind_some]
  exact dif_pos ds.2.1

theorem uniqueSuggestions_eq (ds : SuggestionDecisions) :
    uniqueSuggestions ⟨ds.1, ds.2.1⟩ = some ds := dif_pos ds.2.2

/-- The three fields of a snapshot, dumped. -/
theorem snapshotSubmit_value (hl : lib.Lawful) {name : String} {v : Value} {a : Uuid}
    {ds : SuggestionDecisions} (words : BoundedText 4000)
    (hfields : lib.snapshotSubmit name v =
      (lib.uuid (Json.uuid a).value).bind fun id => (lib.decisions ds.toJson.value).bind fun ds =>
        (boundedText 4000 (Json.str words.1).value).bind fun words =>
          (uniqueSuggestions ds).bind fun ds => some (id, ds, words))
    (ha : lib.Parses a) (hd : ∀ d ∈ ds.1, lib.Parses d.suggestionId) :
    lib.snapshotSubmit name v = some (a, ds, words) := by
  rw [hfields, show lib.uuid _ = _ from ha, decisions_value hl hd, boundedText_value]
  simp only [Option.bind_some, uniqueSuggestions_eq]

/-- The payload of a round of suggestions is read back. -/
theorem suggestionsSubmit_value (hl : lib.Lawful) {p : SuggestionsSubmit}
    (ha : lib.Parses p.analysisId)
    (hd : ∀ d ∈ p.suggestionDecisions.1, lib.Parses d.suggestionId) :
    lib.suggestionsSubmit p.toJson.value = some p := by
  rw [Scalars.suggestionsSubmit, snapshotSubmit_value hl p.memberContext rfl ha hd,
    Option.map_some]

/-- That of a first draft. -/
theorem firstDraftSubmit_value (hl : lib.Lawful) {p : FirstDraftSubmit}
    (ha : lib.Parses p.analysisId)
    (hd : ∀ d ∈ p.suggestionDecisions.1, lib.Parses d.suggestionId) :
    lib.firstDraftSubmit p.toJson.value = some p := by
  rw [Scalars.firstDraftSubmit,
    snapshotSubmit_value hl p.memberRequirements rfl ha hd, Option.map_some]

/-- A number from its minimum on is read back. -/
theorem natFrom_value (hl : lib.Lawful) {min n : ℕ} (h : min ≤ n) :
    lib.natFrom min (Json.nat n).value = some n := by
  have hn : lib.int (Json.nat n).value = some (n : ℤ) := hl.int n
  rw [Scalars.natFrom, hn, Option.bind_some, if_pos (by exact_mod_cast h), Int.toNat_natCast]

/-- The identifiers a scope names. -/
def RevisionScope.Parses (lib : Scalars) : RevisionScope → Prop
  | .suggestions analysisId ds =>
      lib.Parses analysisId ∧ ∀ d ∈ ds.1, lib.Parses d.suggestionId
  | _ => True

/-- That of a revision, in each of its scopes. -/
theorem revisionSubmit_value (hl : lib.Lawful) {p : RevisionSubmit}
    (hp : lib.Parses p.parentVersionId) (hs : p.scope.Parses lib) :
    lib.revisionSubmit p.toJson.value = some p := by
  obtain ⟨parent, scope, instruction⟩ := p
  have hfields : lib.revisionSubmit (RevisionSubmit.toJson ⟨parent, scope, instruction⟩).value =
      (lib.uuid (Json.uuid parent).value).bind fun id =>
        (scopeName scope.toJson.1.value).bind fun name =>
          (nullable lib.uuid scope.toJson.2.1.value).bind fun analysisId =>
            (nullable lib.decisions scope.toJson.2.2.1.value).bind fun ds =>
              (shortText 4000 (Json.str instruction.1).value).bind fun instruction =>
                (nullable (lib.natFrom 0) scope.toJson.2.2.2.1.value).bind fun start =>
                  (nullable (lib.natFrom 1) scope.toJson.2.2.2.2.value).bind fun stop =>
                    (validateSelection name analysisId ds start stop).bind fun scope =>
                      some ⟨id, scope, instruction⟩ := rfl
  rw [hfields, show lib.uuid _ = _ from hp, shortText_value]
  cases scope with
  | full => rfl
  | selection range =>
    have hnat : ∀ n : ℕ, (Json.nat n).value ≠ .null := fun n => by
      rw [Json.nat, Json.value]
      simp
    have hstart := nullable_eq_some (hnat _) (natFrom_value hl (Nat.zero_le range.start))
    have hstop := nullable_eq_some (hnat _)
      (natFrom_value hl (Nat.succ_le_of_lt (Nat.zero_lt_of_lt range.order)))
    simp only [RevisionScope.toJson, hstart, hstop, Option.bind_some]
    have hscope : validateSelection .selection none none (some range.start) (some range.stop) =
        some (.selection range) := dif_pos range.order
    change Option.bind (validateSelection .selection none none (some range.start)
      (some range.stop)) _ = _
    rw [hscope]
    rfl
  | suggestions analysisId ds =>
    have hanalysis := nullable_eq_some (by rw [Json.uuid, Json.value]; simp) hs.1
    have hds := nullable_eq_some (v := ds.toJson.value)
      (by rw [SuggestionDecisions.toJson, Json.value]; simp) (decisions_value hl hs.2)
    simp only [RevisionScope.toJson, hanalysis, hds, Option.bind_some]
    have hscope : validateSelection .suggestions (some analysisId) (some ⟨ds.1, ds.2.1⟩) none none =
        some (.suggestions analysisId ds) := by
      rw [validateSelection, uniqueSuggestions_eq, Option.map_some]
    change Option.bind (validateSelection .suggestions (some analysisId) (some ⟨ds.1, ds.2.1⟩)
      none none) _ = _
    rw [hscope]
    rfl

/-- The identifiers a payload names. -/
def Payload.Parses (lib : Scalars) : Payload → Prop
  | .analysis => True
  | .suggestions p =>
      lib.Parses p.analysisId ∧ ∀ d ∈ p.suggestionDecisions.1, lib.Parses d.suggestionId
  | .firstDraft p =>
      lib.Parses p.analysisId ∧ ∀ d ∈ p.suggestionDecisions.1, lib.Parses d.suggestionId
  | .revision p => lib.Parses p.parentVersionId ∧ p.scope.Parses lib

/-- **A payload whose identifiers parse is what its JSON validates to.** -/
theorem modelValidate_value (hl : lib.Lawful) {p : Payload} (hp : p.Parses lib) :
    lib.modelValidate p.kind p.toJson.value = some p := by
  cases p with
  | analysis => rfl
  | suggestions p =>
    exact (congrArg (Option.map Payload.suggestions) (suggestionsSubmit_value hl hp.1 hp.2))
  | firstDraft p =>
    exact (congrArg (Option.map Payload.firstDraft) (firstDraftSubmit_value hl hp.1 hp.2))
  | revision p =>
    exact (congrArg (Option.map Payload.revision) (revisionSubmit_value hl hp.1 hp.2))

end RoundTrip

/-! ## What a validated payload names -/

section Accepted

variable {lib : Scalars} {v : Value}

/-- The identifier of a decision that was read can be read again. -/
theorem parses_of_decision (hl : lib.Lawful) {d : SuggestionDecisionSubmit}
    (h : lib.decision v = some d) : lib.Parses d.suggestionId := by
  obtain ⟨members, -, h⟩ := Option.bind_eq_some_iff.mp h
  obtain ⟨id, hid, h⟩ := Option.bind_eq_some_iff.mp h
  obtain ⟨_, -, h⟩ := Option.bind_eq_some_iff.mp h
  obtain ⟨_, -, h⟩ := Option.bind_eq_some_iff.mp h
  obtain rfl := Option.some.inj h
  obtain ⟨w, hw⟩ := of_required hid
  exact hl.uuid w id hw

theorem parses_of_decisions (hl : lib.Lawful)
    {ds : { ds : List SuggestionDecisionSubmit // ds.length ≤ 100 }}
    (h : lib.decisions v = some ds) : ∀ d ∈ ds.1, lib.Parses d.suggestionId := by
  obtain ⟨list, hlist, h⟩ := Option.bind_eq_some_iff.mp h
  rw [constrain] at h
  split at h
  · obtain rfl := Option.some.inj h
    intro d hd
    obtain ⟨w, hw⟩ := mem_of_items hlist d hd
    exact parses_of_decision hl hw
  · cases h

theorem val_of_uniqueSuggestions
    {ds : { ds : List SuggestionDecisionSubmit // ds.length ≤ 100 }} {ds' : SuggestionDecisions}
    (h : uniqueSuggestions ds = some ds') : ds'.1 = ds.1 := by
  rw [uniqueSuggestions] at h
  split at h
  · obtain rfl := Option.some.inj h
    rfl
  · cases h

/-- So can those of a payload with a snapshot. -/
theorem parses_of_snapshotSubmit (hl : lib.Lawful) {name : String} {a : Uuid}
    {ds : SuggestionDecisions} {words : BoundedText 4000}
    (h : lib.snapshotSubmit name v = some (a, ds, words)) :
    lib.Parses a ∧ ∀ d ∈ ds.1, lib.Parses d.suggestionId := by
  obtain ⟨members, -, h⟩ := Option.bind_eq_some_iff.mp h
  obtain ⟨id, hid, h⟩ := Option.bind_eq_some_iff.mp h
  obtain ⟨list, hlist, h⟩ := Option.bind_eq_some_iff.mp h
  obtain ⟨_, -, h⟩ := Option.bind_eq_some_iff.mp h
  obtain ⟨ds', hunique, h⟩ := Option.bind_eq_some_iff.mp h
  obtain ⟨rfl, rfl, rfl⟩ := Prod.mk.injEq .. ▸ Option.some.inj h
  obtain ⟨w, hw⟩ := of_required hid
  obtain ⟨u, hu⟩ := of_required hlist
  refine ⟨hl.uuid w id hw, ?_⟩
  rw [val_of_uniqueSuggestions hunique]
  exact parses_of_decisions hl hu

/-- A scope of suggestions has the analysis and the decisions that were given. -/
theorem suggestions_of_validateSelection {name : ScopeName} {analysisId : Option Uuid}
    {ds : Option { ds : List SuggestionDecisionSubmit // ds.length ≤ 100 }}
    {start stop : Option ℕ} {a : Uuid} {ds' : SuggestionDecisions}
    (h : validateSelection name analysisId ds start stop = some (.suggestions a ds')) :
    analysisId = some a ∧ ∃ list, ds = some list ∧ ds'.1 = list.1 := by
  unfold validateSelection at h
  split at h
  · cases h
  · split at h <;> cases h
  · obtain ⟨ds'', hunique, h⟩ := Option.map_eq_some_iff.mp h
    obtain ⟨rfl, rfl⟩ := RevisionScope.suggestions.inj h
    exact ⟨rfl, _, rfl, val_of_uniqueSuggestions hunique⟩
  · cases h

/-- And those of a revision. -/
theorem parses_of_revisionSubmit (hl : lib.Lawful) {p : RevisionSubmit}
    (h : lib.revisionSubmit v = some p) : (Payload.revision p).Parses lib := by
  obtain ⟨members, -, h⟩ := Option.bind_eq_some_iff.mp h
  obtain ⟨id, hid, h⟩ := Option.bind_eq_some_iff.mp h
  obtain ⟨_, -, h⟩ := Option.bind_eq_some_iff.mp h
  obtain ⟨analysisId, hanalysis, h⟩ := Option.bind_eq_some_iff.mp h
  obtain ⟨ds, hds, h⟩ := Option.bind_eq_some_iff.mp h
  obtain ⟨_, -, h⟩ := Option.bind_eq_some_iff.mp h
  obtain ⟨_, -, h⟩ := Option.bind_eq_some_iff.mp h
  obtain ⟨_, -, h⟩ := Option.bind_eq_some_iff.mp h
  obtain ⟨scope, hscope, h⟩ := Option.bind_eq_some_iff.mp h
  obtain rfl := Option.some.inj h
  obtain ⟨w, hw⟩ := of_required hid
  refine ⟨hl.uuid w id hw, ?_⟩
  cases scope with
  | suggestions a ds' =>
    obtain ⟨rfl, list, rfl, hlist⟩ := suggestions_of_validateSelection hscope
    obtain ⟨u, hu⟩ := of_defaulted hanalysis
    obtain ⟨x, hx⟩ := of_defaulted hds
    refine ⟨hl.uuid u a hu, ?_⟩
    rw [hlist]
    exact parses_of_decisions hl hx
  | _ => exact trivial

/-- The identifiers of a validated payload parse, and it is of the kind of its schema. -/
theorem of_modelValidate (hl : lib.Lawful) {kind : AiOperationKind} {p : Payload}
    (h : lib.modelValidate kind v = some p) : p.kind = kind ∧ p.Parses lib := by
  cases kind with
  | analysis =>
    obtain ⟨_, -, rfl⟩ := Option.map_eq_some_iff.mp h
    exact ⟨rfl, trivial⟩
  | suggestions =>
    obtain ⟨q, hq, rfl⟩ := Option.map_eq_some_iff.mp h
    obtain ⟨⟨a, ds, words⟩, hs, rfl⟩ := Option.map_eq_some_iff.mp hq
    exact ⟨rfl, parses_of_snapshotSubmit hl hs⟩
  | firstDraft =>
    obtain ⟨q, hq, rfl⟩ := Option.map_eq_some_iff.mp h
    obtain ⟨⟨a, ds, words⟩, hs, rfl⟩ := Option.map_eq_some_iff.mp hq
    exact ⟨rfl, parses_of_snapshotSubmit hl hs⟩
  | revision =>
    obtain ⟨q, hq, rfl⟩ := Option.map_eq_some_iff.mp h
    exact ⟨rfl, parses_of_revisionSubmit hl hq⟩

/-- Some request body validates to the payload. -/
def Payload.Accepted (lib : Scalars) (p : Payload) : Prop :=
  ∃ v, lib.modelValidate p.kind v = some p

/-- **Validating a stored payload gives it back.** -/
theorem modelValidate_of_accepted (hl : lib.Lawful) {p : Payload} (h : p.Accepted lib) :
    lib.modelValidate p.kind p.toJson.value = some p := by
  obtain ⟨_, hv⟩ := h
  exact modelValidate_value hl (of_modelValidate hl hv).2

end Accepted

namespace Scalars.Sample

/-- Validators that accept each value in its canonical spelling. -/
def canonical : Scalars where
  uuid v := (text v).bind fun t =>
    let u := (t.filter (· ≠ '-')).foldl (fun n c => 16 * n + Json.hexValue c) 0
    if t = uuidText u then some u else none
  bool
    | .bool b => some b
    | _ => none
  int
    | .int n => some n
    | _ => none

/-- The canonical texts of numbers and identifiers are read as what they are. -/
theorem lawful : canonical.Lawful where
  uuid v u h := by
    obtain ⟨t, -, ht⟩ := Option.bind_eq_some_iff.mp h
    simp only at ht
    split at ht
    · rename_i htext
      obtain rfl := Option.some.inj ht
      have hagain : text (Json.uuid _).value = some t :=
        (text_value _).trans (congrArg some htext.symm)
      simp only [canonical, hagain, Option.bind_some]
      exact if_pos htext
    · cases ht
  bool _ := rfl
  int _ := rfl

end Scalars.Sample

end DouyinCaption

import DouyinCaption.Dto
import DouyinCaption.Library.PythonValues

/-!
# Request bodies

`app/modules/tasks/schemas.py`: the bodies the task endpoints accept, with the constraints
their validation enforces as part of the types, their defaults, and the JSON
`model_dump(mode="json")` gives of the ones that are stored or hashed.
-/

namespace DouyinCaption

/-! ## Constrained fields -/

/-- A text that is stripped, not blank and at most `max` long. -/
abbrev ShortText (max : ℕ) : Type :=
  { s : Text // stripWhitespace s = s ∧ s ≠ [] ∧ s.length ≤ max }

/-- `schemas.NonBlankText`: stripped and not empty. -/
abbrev NonBlankText : Type := { s : Text // stripWhitespace s = s ∧ s ≠ [] }

/-- A note as `normalize_note` leaves it; `str.strip` strips it. -/
abbrev Note : Type := { s : Text // strip s = s ∧ s ≠ [] ∧ s.length ≤ 2000 }

/-- A text of at most `max` code points. -/
abbrev BoundedText (max : ℕ) : Type := { s : Text // s.length ≤ max }

/-- The empty text. -/
def noText (max : ℕ) : BoundedText max := ⟨[], Nat.zero_le max⟩

/-- A level from 1 to 5. -/
abbrev Level : Type := { n : ℕ // 1 ≤ n ∧ n ≤ 5 }

def Level.two : Level := ⟨2, by decide⟩

def Level.three : Level := ⟨3, by decide⟩

/-- A field of a partial update: absent, `null`, or a value (`exclude_unset`). -/
inductive Field (α : Type) where
  | unset
  | null
  | value (a : α)
  deriving DecidableEq

/-! ## Creative settings -/

/-- The strings of settings. They have no constraint, so any `str` is one; the tasks of this
model have texts. -/
class Literal (σ : Type) where
  /-- a string literal of the source -/
  lit : Text → σ

instance : Literal Text := ⟨id⟩

instance : Literal Python.Str := ⟨Python.ofText⟩

section Settings

open Literal (lit)

variable (σ : Type := Text) [Literal σ]

/-- `PersonaSettings` -/
structure PersonaSettings where
  accountPositioning : σ := lit []
  speakerIdentity : σ := lit []
  professionalBackground : σ := lit []
  audienceRelationship : σ := lit []
  stance : σ := lit []
  customInstruction : σ := lit []
  deriving DecidableEq

/-- `AudienceSettings` -/
structure AudienceSettings where
  targetAudience : σ := lit []
  painPoints : List σ := []
  awarenessLevel : σ := lit []
  desiredAction : σ := lit []
  customInstruction : σ := lit []
  deriving DecidableEq

/-- `LanguageStyleSettings` -/
structure LanguageStyleSettings where
  preset : σ := lit "natural_spoken".toList
  colloquialLevel : Level := .three
  emotionLevel : Level := .three
  rhythm : σ := lit "balanced".toList
  sentenceLength : σ := lit "mixed".toList
  tone : σ := lit "direct".toList
  allowInternetSlang : Bool := false
  customInstruction : σ := lit []
  deriving DecidableEq

/-- `ContentStructureSettings` -/
structure ContentStructureSettings where
  opening : σ := lit "problem_hook".toList
  narrative : σ := lit "progressive".toList
  conflictLevel : Level := .two
  requireExample : Bool := false
  callToAction : σ := lit []
  customInstruction : σ := lit []
  deriving DecidableEq

/-- `OutputSpecification` -/
structure OutputSpecification where
  preserveParagraphs : Bool := true
  preservePauses : Bool := false
  customInstruction : σ := lit []
  deriving DecidableEq

/-- `HardConstraints` -/
structure HardConstraints where
  requiredInformation : List σ := []
  forbiddenExpressions : List σ := []
  immutableFacts : List σ := []
  platformSafetyInstruction : σ := lit []
  customInstruction : σ := lit []
  deriving DecidableEq

/-- The two values of `target_length_mode`. -/
inductive TargetLengthMode where
  | fixed
  | followSource
  deriving DecidableEq

/-- `CreativeSettings` -/
structure CreativeSettings where
  targetLengthMode : TargetLengthMode := .fixed
  targetCharacters : { n : ℕ // 1 ≤ n ∧ n ≤ 20000 }
  persona : PersonaSettings σ := {}
  audience : AudienceSettings σ := {}
  languageStyle : LanguageStyleSettings σ := {}
  contentStructure : ContentStructureSettings σ := {}
  outputSpecification : OutputSpecification σ := {}
  hardConstraints : HardConstraints σ := {}
  deriving DecidableEq

end Settings

/-! ### Dumped settings -/

/-- What `model_dump(mode="json")` makes of settings. -/
inductive Dump (σ : Type) where
  | str (s : σ)
  | strs (ss : List σ)
  | nat (n : ℕ)
  | bool (b : Bool)
  | dict (fields : List (String × Dump σ))

mutual

/-- The JSON of dumped settings whose strings are texts. -/
def Dump.toJson : Dump Text → Json
  | .str s => .str s
  | .strs ss => .texts ss
  | .nat n => .nat n
  | .bool b => .bool b
  | .dict fields => .obj (toJsonFields fields)

def Dump.toJsonFields : List (String × Dump Text) → List (Text × Json)
  | [] => []
  | (name, d) :: fields => (name.toList, d.toJson) :: toJsonFields fields

end

section Dump

variable {σ : Type} [Literal σ]

def PersonaSettings.modelDump (p : PersonaSettings σ) : Dump σ :=
  .dict [("account_positioning", .str p.accountPositioning),
    ("speaker_identity", .str p.speakerIdentity),
    ("professional_background", .str p.professionalBackground),
    ("audience_relationship", .str p.audienceRelationship),
    ("stance", .str p.stance),
    ("custom_instruction", .str p.customInstruction)]

def AudienceSettings.modelDump (a : AudienceSettings σ) : Dump σ :=
  .dict [("target_audience", .str a.targetAudience),
    ("pain_points", .strs a.painPoints),
    ("awareness_level", .str a.awarenessLevel),
    ("desired_action", .str a.desiredAction),
    ("custom_instruction", .str a.customInstruction)]

def LanguageStyleSettings.modelDump (l : LanguageStyleSettings σ) : Dump σ :=
  .dict [("preset", .str l.preset),
    ("colloquial_level", .nat l.colloquialLevel.1),
    ("emotion_level", .nat l.emotionLevel.1),
    ("rhythm", .str l.rhythm),
    ("sentence_length", .str l.sentenceLength),
    ("tone", .str l.tone),
    ("allow_internet_slang", .bool l.allowInternetSlang),
    ("custom_instruction", .str l.customInstruction)]

def ContentStructureSettings.modelDump (c : ContentStructureSettings σ) : Dump σ :=
  .dict [("opening", .str c.opening),
    ("narrative", .str c.narrative),
    ("conflict_level", .nat c.conflictLevel.1),
    ("require_example", .bool c.requireExample),
    ("call_to_action", .str c.callToAction),
    ("custom_instruction", .str c.customInstruction)]

def OutputSpecification.modelDump (o : OutputSpecification σ) : Dump σ :=
  .dict [("preserve_paragraphs", .bool o.preserveParagraphs),
    ("preserve_pauses", .bool o.preservePauses),
    ("custom_instruction", .str o.customInstruction)]

def HardConstraints.modelDump (h : HardConstraints σ) : Dump σ :=
  .dict [("required_information", .strs h.requiredInformation),
    ("forbidden_expressions", .strs h.forbiddenExpressions),
    ("immutable_facts", .strs h.immutableFacts),
    ("platform_safety_instruction", .str h.platformSafetyInstruction),
    ("custom_instruction", .str h.customInstruction)]

/-- The text of a `TargetLengthMode`. -/
def TargetLengthMode.value : TargetLengthMode → Text
  | .fixed => "fixed".toList
  | .followSource => "follow_source".toList

def CreativeSettings.modelDump (s : CreativeSettings σ) : Dump σ :=
  .dict [("target_length_mode", .str (Literal.lit s.targetLengthMode.value)),
    ("target_characters", .nat s.targetCharacters.1),
    ("persona", s.persona.modelDump),
    ("audience", s.audience.modelDump),
    ("language_style", s.languageStyle.modelDump),
    ("content_structure", s.contentStructure.modelDump),
    ("output_specification", s.outputSpecification.modelDump),
    ("hard_constraints", s.hardConstraints.modelDump)]

end Dump

open Json (field)

/-! ## Tasks and presets -/

/-- `TaskCreate`; `validate_source_length` bounds the source text as well. -/
structure TaskCreate where
  name : ShortText 160
  sourceText : ShortText 20000
  creativeSettings : CreativeSettings
  deriving DecidableEq

/-- `TaskUpdate`: each field may be left out, and each accepts `null`. -/
structure TaskUpdate where
  name : Field (ShortText 160) := .unset
  sourceText : Field { s : Text // s ≠ [] ∧ s.length ≤ 20000 } := .unset
  creativeSettings : Field CreativeSettings := .unset
  deriving DecidableEq

/-- `PresetCreate` -/
structure PresetCreate where
  name : ShortText 120
  settings : CreativeSettings
  deriving DecidableEq

/-- `PresetUpdate`: `null` and absent are the same here. -/
structure PresetUpdate where
  name : Option (ShortText 120) := none
  settings : Option CreativeSettings := none
  deriving DecidableEq

/-! ## Suggestions and analyses -/

/-- `SuggestionUpdate` -/
structure SuggestionUpdate where
  decision : SuggestionDecision
  memberNote : Option (BoundedText 2000) := none
  deriving DecidableEq

/-- `AnalysisCorrection` -/
structure AnalysisCorrection where
  analysis : AnalysisResult
  memberNotes : Option (BoundedText 4000) := none

/-- `SuggestionDecisionSubmit`; `normalize_note` strips the note and drops a blank one. -/
structure SuggestionDecisionSubmit where
  suggestionId : Uuid
  selected : Bool
  memberNote : Option Note := none
  deriving DecidableEq

/-- A list of decisions: at most 100, no suggestion twice. -/
abbrev SuggestionDecisions : Type :=
  { ds : List SuggestionDecisionSubmit //
    ds.length ≤ 100 ∧ (ds.map SuggestionDecisionSubmit.suggestionId).Nodup }

/-! ## Submissions -/

/-- `SuggestionsSubmit` -/
structure SuggestionsSubmit where
  analysisId : Uuid
  suggestionDecisions : SuggestionDecisions
  memberContext : BoundedText 4000 := noText 4000
  deriving DecidableEq

/-- `FirstDraftSubmit` -/
structure FirstDraftSubmit where
  analysisId : Uuid
  suggestionDecisions : SuggestionDecisions
  memberRequirements : BoundedText 4000 := noText 4000
  deriving DecidableEq

/-- The `scope` of a `RevisionSubmit`, with the fields `validate_selection` requires for it;
it refuses the others. -/
inductive RevisionScope where
  | full
  | selection (range : Selection)
  | suggestions (analysisId : Uuid) (decisions : SuggestionDecisions)
  deriving DecidableEq

/-- `RevisionSubmit` -/
structure RevisionSubmit where
  parentVersionId : Uuid
  scope : RevisionScope
  instruction : ShortText 4000
  deriving DecidableEq

/-- A request payload. `AnalysisSubmit` has no field, so `analysis` is the empty object. -/
inductive Payload where
  | analysis
  | suggestions (p : SuggestionsSubmit)
  | firstDraft (p : FirstDraftSubmit)
  | revision (p : RevisionSubmit)
  deriving DecidableEq

/-- The kind whose `PAYLOAD_TYPES` entry accepts the payload. -/
def Payload.kind : Payload → AiOperationKind
  | .analysis => .analysis
  | .suggestions _ => .suggestions
  | .firstDraft _ => .firstDraft
  | .revision _ => .revision

def SuggestionDecisionSubmit.toJson (d : SuggestionDecisionSubmit) : Json :=
  .obj [field "suggestion_id" (.uuid d.suggestionId), field "selected" (.bool d.selected),
    field "member_note" (.ofOption (fun n => .str n.1) d.memberNote)]

/-- A list of decisions in JSON. -/
def SuggestionDecisions.toJson (ds : SuggestionDecisions) : Json :=
  .arr (ds.1.map SuggestionDecisionSubmit.toJson)

def SuggestionsSubmit.toJson (p : SuggestionsSubmit) : Json :=
  .obj [field "analysis_id" (.uuid p.analysisId),
    field "suggestion_decisions" p.suggestionDecisions.toJson,
    field "member_context" (.str p.memberContext.1)]

def FirstDraftSubmit.toJson (p : FirstDraftSubmit) : Json :=
  .obj [field "analysis_id" (.uuid p.analysisId),
    field "suggestion_decisions" p.suggestionDecisions.toJson,
    field "member_requirements" (.str p.memberRequirements.1)]

/-- The members of a `RevisionSubmit` that its scope decides: the scope itself, the analysis,
the decisions and the two offsets. -/
def RevisionScope.toJson : RevisionScope → Json × Json × Json × Json × Json
  | .full => (.str "full".toList, .null, .null, .null, .null)
  | .selection r => (.str "selection".toList, .null, .null, .nat r.start, .nat r.stop)
  | .suggestions a ds => (.str "suggestions".toList, .uuid a, ds.toJson, .null, .null)

def RevisionSubmit.toJson (p : RevisionSubmit) : Json :=
  let (scope, analysis, decisions, start, stop) := p.scope.toJson
  .obj [field "parent_version_id" (.uuid p.parentVersionId), field "scope" scope,
    field "analysis_id" analysis, field "suggestion_decisions" decisions,
    field "instruction" (.str p.instruction.1), field "selection_start" start,
    field "selection_end" stop]

/-- `payload.model_dump(mode="json")` -/
def Payload.toJson : Payload → Json
  | .analysis => .obj []
  | .suggestions p => p.toJson
  | .firstDraft p => p.toJson
  | .revision p => p.toJson

/-! ## Versions and locks -/

/-- The validation of a `NonBlankText`: it is stripped first. -/
def nonBlankText (s : Text) : Option NonBlankText :=
  if h : stripWhitespace s = [] then none
  else some ⟨stripWhitespace s, stripBy_stripBy s, h⟩

/-- `ManualEditCreate` -/
structure ManualEditCreate where
  content : NonBlankText
  instruction : Option (BoundedText 2000) := none
  deriving DecidableEq

/-- `LockedFragmentCreate` -/
structure LockedFragmentCreate where
  startOffset : ℕ
  endOffset : ℕ
  note : Option (BoundedText 500) := none
  order : startOffset < endOffset

namespace Sample

/-- The settings of a script of 100 characters. -/
def settings : CreativeSettings := { targetCharacters := ⟨100, by decide⟩ }

end Sample

end DouyinCaption

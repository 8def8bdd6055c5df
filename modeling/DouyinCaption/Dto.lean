import DouyinCaption.Domain
import DouyinCaption.Library.Json

/-!
# The contracts of the AI module

`app/modules/ai/dto.py`: what goes into a model call and what comes out of it. The checks
of the validators are fields of the types, so a value that fails them cannot be built.
-/

namespace DouyinCaption

open Json (field)

/-- `dto.NonBlank`: at least one code point. -/
abbrev NonBlank : Type := { s : Text // s ≠ [] }

/-- The text of a `UUID`: 32 hexadecimal digits in groups of 8, 4, 4, 4 and 12. -/
def uuidText (u : Uuid) : Text :=
  let digits := Nat.toDigits 16 u
  let padded := List.replicate (32 - digits.length) '0' ++ digits
  padded.take 8 ++ '-' :: (padded.drop 8).take 4 ++ '-' :: (padded.drop 12).take 4 ++
    '-' :: (padded.drop 16).take 4 ++ '-' :: padded.drop 20

/-- A JSON `UUID`. -/
def Json.uuid (u : Uuid) : Json := .str (uuidText u)

/-! ## Analyses -/

/-- `ContentOverview` -/
structure ContentOverview where
  theme : NonBlank
  coreViewpoint : NonBlank
  targetAudience : NonBlank
  expectedAction : NonBlank
  deriving DecidableEq

/-- `StructureSegment` -/
structure StructureSegment where
  segmentId : NonBlank
  kind : NonBlank
  sourceExcerpt : NonBlank
  purpose : NonBlank
  deriving DecidableEq

/-- `ParagraphFinding` -/
structure ParagraphFinding where
  segmentId : NonBlank
  relationship : NonBlank
  issues : List Text
  deriving DecidableEq

/-- `ExpressionAnalysis` -/
structure ExpressionAnalysis where
  personaConsistency : NonBlank
  languageStyle : NonBlank
  spokenFluency : NonBlank
  emotionalIntensity : NonBlank
  informationDensity : NonBlank
  spokenRhythm : NonBlank
  deriving DecidableEq

/-- `ContentHighlight` -/
structure ContentHighlight where
  excerpt : NonBlank
  reason : NonBlank
  deriving DecidableEq

/-- The categories of a `RiskIssue`. -/
inductive RiskCategory where
  | logicGap
  | repetition
  | informationGap
  | factRisk
  | sensitiveExpression
  | dropOffRisk
  | other
  deriving DecidableEq

/-- `RiskIssue` -/
structure RiskIssue where
  issueId : NonBlank
  category : RiskCategory
  description : NonBlank
  sourceExcerpt : Text
  deriving DecidableEq

/-- `AnalysisConclusion` -/
structure AnalysisConclusion where
  summary : NonBlank
  keyIssueIds : List Text
  deriving DecidableEq

/-- `Analysis`; the last four fields are `validate_internal_references`. -/
structure Analysis where
  contentOverview : ContentOverview
  /-- the segments of the `structure_map` -/
  segments : List StructureSegment
  paragraphAnalysis : List ParagraphFinding
  expressionAnalysis : ExpressionAnalysis
  contentHighlights : List ContentHighlight
  problemsAndRisks : List RiskIssue
  conclusion : AnalysisConclusion
  segmentsUnique : (segments.map StructureSegment.segmentId).Nodup
  issuesUnique : (problemsAndRisks.map RiskIssue.issueId).Nodup
  findingsKnown :
    ∀ f ∈ paragraphAnalysis, f.segmentId ∈ segments.map StructureSegment.segmentId
  conclusionKnown :
    ∀ i ∈ conclusion.keyIssueIds, i ∈ problemsAndRisks.map fun issue => issue.issueId.1

/-- `TextAnalysis` -/
structure TextAnalysis where
  content : NonBlank
  deriving DecidableEq

/-- `AnalysisResult` -/
inductive AnalysisResult where
  | structured (a : Analysis)
  | text (t : TextAnalysis)

def ContentOverview.toJson (c : ContentOverview) : Json :=
  .obj [field "theme" (.str c.theme.1), field "core_viewpoint" (.str c.coreViewpoint.1),
    field "target_audience" (.str c.targetAudience.1),
    field "expected_action" (.str c.expectedAction.1)]

def StructureSegment.toJson (s : StructureSegment) : Json :=
  .obj [field "segment_id" (.str s.segmentId.1), field "kind" (.str s.kind.1),
    field "source_excerpt" (.str s.sourceExcerpt.1), field "purpose" (.str s.purpose.1)]

def ParagraphFinding.toJson (p : ParagraphFinding) : Json :=
  .obj [field "segment_id" (.str p.segmentId.1),
    field "relationship" (.str p.relationship.1), field "issues" (.texts p.issues)]

def ExpressionAnalysis.toJson (e : ExpressionAnalysis) : Json :=
  .obj [field "persona_consistency" (.str e.personaConsistency.1),
    field "language_style" (.str e.languageStyle.1),
    field "spoken_fluency" (.str e.spokenFluency.1),
    field "emotional_intensity" (.str e.emotionalIntensity.1),
    field "information_density" (.str e.informationDensity.1),
    field "spoken_rhythm" (.str e.spokenRhythm.1)]

def ContentHighlight.toJson (c : ContentHighlight) : Json :=
  .obj [field "excerpt" (.str c.excerpt.1), field "reason" (.str c.reason.1)]

/-- The value of a `RiskCategory`. -/
def RiskCategory.text : RiskCategory → Text
  | .logicGap => "logic_gap".toList
  | .repetition => "repetition".toList
  | .informationGap => "information_gap".toList
  | .factRisk => "fact_risk".toList
  | .sensitiveExpression => "sensitive_expression".toList
  | .dropOffRisk => "drop_off_risk".toList
  | .other => "other".toList

def RiskIssue.toJson (r : RiskIssue) : Json :=
  .obj [field "issue_id" (.str r.issueId.1), field "category" (.str r.category.text),
    field "description" (.str r.description.1), field "source_excerpt" (.str r.sourceExcerpt)]

def Analysis.toJson (a : Analysis) : Json :=
  .obj [field "content_overview" a.contentOverview.toJson,
    field "structure_map" (.obj [field "segments" (.arr (a.segments.map (·.toJson)))]),
    field "paragraph_analysis" (.arr (a.paragraphAnalysis.map (·.toJson))),
    field "expression_analysis" a.expressionAnalysis.toJson,
    field "content_highlights" (.arr (a.contentHighlights.map (·.toJson))),
    field "problems_and_risks" (.arr (a.problemsAndRisks.map (·.toJson))),
    field "conclusion" (.obj [field "summary" (.str a.conclusion.summary.1),
      field "key_issue_ids" (.texts a.conclusion.keyIssueIds)])]

/-- `AnalysisResult.model_dump(mode="json")` -/
def AnalysisResult.toJson : AnalysisResult → Json
  | .structured a => a.toJson
  | .text t => .obj [field "content" (.str t.content.1)]

/-! ## Suggestions -/

/-- The value of a `SuggestionPriority`. -/
def SuggestionPriority.text : SuggestionPriority → Text
  | .primary => "primary".toList
  | .optional => "optional".toList

/-- `Suggestion` -/
structure Suggestion where
  suggestionId : NonBlank
  priority : SuggestionPriority
  title : NonBlank
  analysisIssueIds : { ids : List Text // ids ≠ [] }
  problem : NonBlank
  direction : NonBlank
  rationale : NonBlank
  impactScope : NonBlank
  example_ : NonBlank
  deriving DecidableEq

def Suggestion.toJson (s : Suggestion) : Json :=
  .obj [field "suggestion_id" (.str s.suggestionId.1), field "priority" (.str s.priority.text),
    field "title" (.str s.title.1),
    field "analysis_issue_ids" (.texts s.analysisIssueIds.1),
    field "problem" (.str s.problem.1), field "direction" (.str s.direction.1),
    field "rationale" (.str s.rationale.1), field "impact_scope" (.str s.impactScope.1),
    field "example" (.str s.example_.1)]

/-- The validation of a `SuggestionSet`: 5 to 8 suggestions with distinct identifiers. -/
def SuggestionSet.Valid (suggestions : List Suggestion) : Prop :=
  5 ≤ suggestions.length ∧ suggestions.length ≤ 8 ∧
    (suggestions.map fun s => s.suggestionId.1).Nodup

instance (suggestions : List Suggestion) : Decidable (SuggestionSet.Valid suggestions) :=
  inferInstanceAs (Decidable (_ ∧ _ ∧ _))

/-- `SuggestionSet` -/
structure SuggestionSet where
  suggestions : List Suggestion
  valid : SuggestionSet.Valid suggestions

/-- `SelectedSuggestion` -/
structure SelectedSuggestion where
  suggestion : Suggestion
  note : Text := []
  deriving DecidableEq

def SelectedSuggestion.toJson (s : SelectedSuggestion) : Json :=
  .obj [field "suggestion" s.suggestion.toJson, field "note" (.str s.note)]

/-! ## Inputs and results of a call -/

/-- `dto.LockedFragment` -/
structure AiLockedFragment where
  fragmentId : Text
  text : NonBlank
  deriving DecidableEq

def AiLockedFragment.toJson (l : AiLockedFragment) : Json :=
  .obj [field "fragment_id" (.str l.fragmentId), field "text" (.str l.text.1)]

/-- `Selection` -/
structure Selection where
  start : ℕ
  stop : ℕ
  order : start < stop
  deriving DecidableEq

/-- The roles of a `Message`. -/
inductive Role where
  | system
  | user
  deriving DecidableEq

/-- `Message` -/
structure Message where
  role : Role
  content : Text
  deriving DecidableEq

/-- `CompletionRequest`; the temperature is left at its default, 0.4. -/
structure CompletionRequest where
  model : Text
  messages : List Message
  responseSchema : Option Json := none
  schemaName : Option Text := none

/-- `CompletionResult`, without the usage figures, which nothing stores. -/
structure CompletionResult where
  text : Text
  providerRequestId : Option Text := none
  deriving DecidableEq

/-- The codes of a `ValidationViolation`. -/
inductive ViolationCode where
  | missingFragment
  | selectionOutsideChanged
  deriving DecidableEq

/-- `ValidationViolation` -/
structure ValidationViolation where
  code : ViolationCode
  fragmentId : Option Text := none
  message : Text
  deriving DecidableEq

/-- `ValidationResult` -/
structure ValidationResult where
  valid : Bool
  violations : List ValidationViolation := []
  deriving DecidableEq

end DouyinCaption

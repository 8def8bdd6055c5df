import DouyinCaption.Library.JsValues
import DouyinCaption.Payloads

/-!
# Settings in the browser

`fromCreativeSettings` and `toCreativeSettings` of `shared/api/adapter.ts`, and the schema the
backend validates what they send with. The browser's record has eight fields, the stored one
six records with more: what is typed in the browser comes back, and what only the backend knows
of is reset by saving.
-/

namespace DouyinCaption

open Validation

/-! ## The schema -/

/-- The settings as the schema gives them: their strings are whatever a decoder makes. -/
abbrev StoredSettings : Type := CreativeSettings Python.Str

/-- `int` with `ge` and `le` -/
def Scalars.natBetween (lib : Scalars) (lo hi : ℕ) (v : Python.Value) :
    Option { n : ℕ // lo ≤ n ∧ n ≤ hi } :=
  (lib.natFrom lo v).bind (constrain fun n : ℕ => lo ≤ n ∧ n ≤ hi)

/-- `Literal["fixed", "follow_source"]` -/
def targetLengthMode (v : Python.Value) : Option TargetLengthMode := do
  let s ← str v
  if s = Python.lit "fixed" then some .fixed
  else if s = Python.lit "follow_source" then some .followSource
  else none

/-- `PersonaSettings` -/
def personaSettings (v : Python.Value) : Option (PersonaSettings Python.Str) := do
  let m ← model v
  let accountPositioning ← defaulted [] str m "account_positioning"
  let speakerIdentity ← defaulted [] str m "speaker_identity"
  let professionalBackground ← defaulted [] str m "professional_background"
  let audienceRelationship ← defaulted [] str m "audience_relationship"
  let stance ← defaulted [] str m "stance"
  let customInstruction ← defaulted [] str m "custom_instruction"
  return {
    accountPositioning, speakerIdentity, professionalBackground, audienceRelationship, stance
    customInstruction }

/-- `AudienceSettings` -/
def audienceSettings (v : Python.Value) : Option (AudienceSettings Python.Str) := do
  let m ← model v
  let targetAudience ← defaulted [] str m "target_audience"
  let painPoints ← defaulted [] (items str) m "pain_points"
  let awarenessLevel ← defaulted [] str m "awareness_level"
  let desiredAction ← defaulted [] str m "desired_action"
  let customInstruction ← defaulted [] str m "custom_instruction"
  return { targetAudience, painPoints, awarenessLevel, desiredAction, customInstruction }

namespace Scalars

variable (lib : Scalars)

/-- `LanguageStyleSettings` -/
def languageStyleSettings (v : Python.Value) : Option (LanguageStyleSettings Python.Str) := do
  let m ← model v
  let default : LanguageStyleSettings Python.Str := {}
  let preset ← defaulted default.preset str m "preset"
  let colloquialLevel ← defaulted default.colloquialLevel (lib.natBetween 1 5) m "colloquial_level"
  let emotionLevel ← defaulted default.emotionLevel (lib.natBetween 1 5) m "emotion_level"
  let rhythm ← defaulted default.rhythm str m "rhythm"
  let sentenceLength ← defaulted default.sentenceLength str m "sentence_length"
  let tone ← defaulted default.tone str m "tone"
  let allowInternetSlang ←
    defaulted default.allowInternetSlang lib.bool m "allow_internet_slang"
  let customInstruction ← defaulted [] str m "custom_instruction"
  return {
    preset, colloquialLevel, emotionLevel, rhythm, sentenceLength, tone, allowInternetSlang
    customInstruction }

/-- `ContentStructureSettings` -/
def contentStructureSettings (v : Python.Value) : Option (ContentStructureSettings Python.Str) := do
  let m ← model v
  let default : ContentStructureSettings Python.Str := {}
  let opening ← defaulted default.opening str m "opening"
  let narrative ← defaulted default.narrative str m "narrative"
  let conflictLevel ← defaulted default.conflictLevel (lib.natBetween 1 5) m "conflict_level"
  let requireExample ← defaulted default.requireExample lib.bool m "require_example"
  let callToAction ← defaulted [] str m "call_to_action"
  let customInstruction ← defaulted [] str m "custom_instruction"
  return {
    opening, narrative, conflictLevel, requireExample, callToAction, customInstruction }

/-- `OutputSpecification` -/
def outputSpecification (v : Python.Value) : Option (OutputSpecification Python.Str) := do
  let m ← model v
  let preserveParagraphs ← defaulted true lib.bool m "preserve_paragraphs"
  let preservePauses ← defaulted false lib.bool m "preserve_pauses"
  let customInstruction ← defaulted [] str m "custom_instruction"
  return { preserveParagraphs, preservePauses, customInstruction }

end Scalars

/-- `HardConstraints` -/
def hardConstraints (v : Python.Value) : Option (HardConstraints Python.Str) := do
  let m ← model v
  let requiredInformation ← defaulted [] (items str) m "required_information"
  let forbiddenExpressions ← defaulted [] (items str) m "forbidden_expressions"
  let immutableFacts ← defaulted [] (items str) m "immutable_facts"
  let platformSafetyInstruction ← defaulted [] str m "platform_safety_instruction"
  let customInstruction ← defaulted [] str m "custom_instruction"
  return {
    requiredInformation, forbiddenExpressions, immutableFacts, platformSafetyInstruction
    customInstruction }

/-- `CreativeSettings.model_validate` -/
def Scalars.creativeSettings (lib : Scalars) (v : Python.Value) : Option StoredSettings := do
  let m ← model v
  let targetLengthMode ← defaulted .fixed targetLengthMode m "target_length_mode"
  let targetCharacters ← required (lib.natBetween 1 20000) m "target_characters"
  let persona ← defaulted {} personaSettings m "persona"
  let audience ← defaulted {} audienceSettings m "audience"
  let languageStyle ← defaulted {} lib.languageStyleSettings m "language_style"
  let contentStructure ← defaulted {} lib.contentStructureSettings m "content_structure"
  let outputSpecification ← defaulted {} lib.outputSpecification m "output_specification"
  let hardConstraints ← defaulted {} hardConstraints m "hard_constraints"
  return {
    targetLengthMode, targetCharacters, persona, audience, languageStyle, contentStructure
    outputSpecification, hardConstraints }

/-! ## The adapter -/

namespace Adapter

open Js

/-- `CreativeSettings` of `shared/types.ts`. The target length is whole: the schema refuses
another. -/
structure CreativeSettings where
  targetLengthMode : TargetLengthMode
  targetCharacters : Int
  persona : Str
  audience : Str
  languageStyle : Str
  contentStructure : Str
  outputSpecification : Str
  hardConstraints : Str
  deriving DecidableEq

/-- `object`; a missing property is `undefined` -/
def object : Option Value → Value
  | some (.object properties) => .object properties
  | some (.array xs) => .array xs
  | _ => .object []

/-- `text` -/
def text (fallback : Str) : Option Value → Str
  | some (.string s) => s
  | _ => fallback

/-- `custom` -/
def custom (v : Option Value) : Str := text (lit "") ((object v).property "custom_instruction")

/-- `Number(v)`, 0 for `NaN`; `convert` is what it makes of strings, arrays and objects. -/
def number (convert : Value → Int) : Option Value → Int
  | some (.number n) => n
  | some (.boolean b) => if b then 1 else 0
  | some .null | none => 0
  | some v => convert v

/-- `defaultSettings.targetCharacters` -/
def defaultTargetCharacters : Int := 800

/-- `fromCreativeSettings` -/
def fromCreativeSettings (convert : Value → Int) (raw : Value) : CreativeSettings :=
  let value := object (some raw)
  let length := number convert (value.property "target_characters")
  { targetLengthMode := match value.property "target_length_mode" with
      | some (.string s) => if s = lit "follow_source" then .followSource else .fixed
      | _ => .fixed
    targetCharacters := if length = 0 then defaultTargetCharacters else length
    persona := custom (value.property "persona")
    audience := custom (value.property "audience")
    languageStyle := custom (value.property "language_style")
    contentStructure := custom (value.property "content_structure")
    outputSpecification := custom (value.property "output_specification")
    hardConstraints := custom (value.property "hard_constraints") }

/-- The record of one instruction. -/
def instruction (s : Str) : Value := .object [(lit "custom_instruction", .string s)]

/-- `toCreativeSettings` -/
def toCreativeSettings (x : CreativeSettings) : Value :=
  .object [(lit "target_length_mode", .string (ofStr (Literal.lit x.targetLengthMode.value))),
    (lit "target_characters", .number x.targetCharacters),
    (lit "persona", instruction x.persona),
    (lit "audience", instruction x.audience),
    (lit "language_style", instruction x.languageStyle),
    (lit "content_structure", instruction x.contentStructure),
    (lit "output_specification", instruction x.outputSpecification),
    (lit "hard_constraints", instruction x.hardConstraints)]

mutual

/-- What `JSON.parse` makes of the JSON of dumped settings. -/
def parsed : Dump Python.Str → Value
  | .str c => .string (ofStr c)
  | .strs cs => .array (cs.map fun c => .string (ofStr c))
  | .nat n => .number n
  | .bool b => .boolean b
  | .dict fields => .object (parsedFields fields)

def parsedFields : List (String × Dump Python.Str) → List (Str × Value)
  | [] => []
  | (name, d) :: fields => (lit name, parsed d) :: parsedFields fields

end

end Adapter

/-! ## What a record of the browser carries -/

/-- The settings with nothing but what the browser knows of. -/
def CreativeSettings.carried (s : StoredSettings) : StoredSettings where
  targetLengthMode := s.targetLengthMode
  targetCharacters := s.targetCharacters
  persona := { customInstruction := s.persona.customInstruction }
  audience := { customInstruction := s.audience.customInstruction }
  languageStyle := { customInstruction := s.languageStyle.customInstruction }
  contentStructure := { customInstruction := s.contentStructure.customInstruction }
  outputSpecification := { customInstruction := s.outputSpecification.customInstruction }
  hardConstraints := { customInstruction := s.hardConstraints.customInstruction }

/-- Everything but the lengths and the instructions has its default. -/
structure CreativeSettings.OnlyInstructions (s : StoredSettings) : Prop where
  persona : s.persona = { customInstruction := s.persona.customInstruction }
  audience : s.audience = { customInstruction := s.audience.customInstruction }
  languageStyle : s.languageStyle = { customInstruction := s.languageStyle.customInstruction }
  contentStructure :
    s.contentStructure = { customInstruction := s.contentStructure.customInstruction }
  outputSpecification :
    s.outputSpecification = { customInstruction := s.outputSpecification.customInstruction }
  hardConstraints :
    s.hardConstraints = { customInstruction := s.hardConstraints.customInstruction }

theorem CreativeSettings.carried_eq_iff (s : StoredSettings) :
    s.carried = s ↔ s.OnlyInstructions := by
  obtain ⟨mode, length, persona, audience, language, content, output, hard⟩ := s
  rw [carried, CreativeSettings.mk.injEq]
  constructor
  · rintro ⟨-, -, h₁, h₂, h₃, h₄, h₅, h₆⟩
    exact ⟨h₁.symm, h₂.symm, h₃.symm, h₄.symm, h₅.symm, h₆.symm⟩
  · rintro ⟨h₁, h₂, h₃, h₄, h₅, h₆⟩
    exact ⟨rfl, rfl, h₁.symm, h₂.symm, h₃.symm, h₄.symm, h₅.symm, h₆.symm⟩

/-- The six instructions came out of a decoder, as everything in a column or in a body did. -/
structure CreativeSettings.Decoded (s : StoredSettings) : Prop where
  persona : Js.Decoded s.persona.customInstruction
  audience : Js.Decoded s.audience.customInstruction
  languageStyle : Js.Decoded s.languageStyle.customInstruction
  contentStructure : Js.Decoded s.contentStructure.customInstruction
  outputSpecification : Js.Decoded s.outputSpecification.customInstruction
  hardConstraints : Js.Decoded s.hardConstraints.customInstruction

/-! ### What a body is validated to -/

section Received

open Js

theorem find_received {properties : List (Js.Str × Js.Value)} {key : Python.Str}
    {w : Python.Value} (h : Python.find (receivedMembers properties) key = some w) :
    ∃ v : Js.Value, v.received = w := by
  obtain ⟨l₁, l₂, hl, -⟩ := List.lookup_eq_some_iff.mp h
  have hmem : (key, w) ∈ receivedMembers properties := by
    rw [← List.mem_reverse, hl]
    exact List.mem_append_right _ List.mem_cons_self
  clear h hl
  induction properties with
  | nil => cases hmem
  | cons kv properties ih =>
    rcases List.mem_cons.mp hmem with hw | hmem
    · exact ⟨kv.2, (congrArg Prod.snd hw).symm⟩
    · exact ih hmem

/-- A field with a default, of a body. -/
theorem of_defaulted_received {α : Type} {P : α → Prop} {default : α}
    {f : Python.Value → Option α} (hdefault : P default)
    (hf : ∀ (v : Js.Value) (a : α), f v.received = some a → P a) {v : Js.Value}
    {members : List (Python.Str × Python.Value)} (hm : model v.received = some members)
    {name : String} {a : α} (h : defaulted default f members name = some a) : P a := by
  cases v with
  | object properties =>
    obtain rfl := Option.some.inj hm
    rw [defaulted] at h
    split at h
    · exact Option.some.inj h ▸ hdefault
    · rename_i w hw
      obtain ⟨v, rfl⟩ := find_received hw
      exact hf v a h
  | _ => cases hm

theorem decoded_of_str (v : Js.Value) (c : Python.Str) (h : str v.received = some c) :
    Js.Decoded c := by
  cases v with
  | string s => exact ⟨s, (Option.some.inj h).symm⟩
  | _ => cases h

theorem decoded_nil : Js.Decoded [] := ⟨⟨[], nofun⟩, rfl⟩

theorem decoded_personaSettings (v : Js.Value) (x : PersonaSettings Python.Str)
    (h : personaSettings v.received = some x) : Decoded x.customInstruction := by
  simp only [personaSettings, Option.bind_eq_bind, Option.bind_eq_some_iff, pure] at h
  obtain ⟨m, hm, _, -, _, -, _, -, _, -, _, -, c, hc, h⟩ := h
  obtain rfl := Option.some.inj h
  exact of_defaulted_received decoded_nil decoded_of_str hm hc

theorem decoded_audienceSettings (v : Js.Value) (x : AudienceSettings Python.Str)
    (h : audienceSettings v.received = some x) : Decoded x.customInstruction := by
  simp only [audienceSettings, Option.bind_eq_bind, Option.bind_eq_some_iff, pure] at h
  obtain ⟨m, hm, _, -, _, -, _, -, _, -, c, hc, h⟩ := h
  obtain rfl := Option.some.inj h
  exact of_defaulted_received decoded_nil decoded_of_str hm hc

theorem Scalars.decoded_languageStyleSettings {lib : Scalars} (v : Js.Value)
    (x : LanguageStyleSettings Python.Str)
    (h : lib.languageStyleSettings v.received = some x) : Decoded x.customInstruction := by
  simp only [languageStyleSettings, Option.bind_eq_bind, Option.bind_eq_some_iff, pure] at h
  obtain ⟨m, hm, _, -, _, -, _, -, _, -, _, -, _, -, _, -, c, hc, h⟩ := h
  obtain rfl := Option.some.inj h
  exact of_defaulted_received decoded_nil decoded_of_str hm hc

theorem Scalars.decoded_contentStructureSettings {lib : Scalars} (v : Js.Value)
    (x : ContentStructureSettings Python.Str)
    (h : lib.contentStructureSettings v.received = some x) : Decoded x.customInstruction := by
  simp only [contentStructureSettings, Option.bind_eq_bind, Option.bind_eq_some_iff, pure] at h
  obtain ⟨m, hm, _, -, _, -, _, -, _, -, _, -, c, hc, h⟩ := h
  obtain rfl := Option.some.inj h
  exact of_defaulted_received decoded_nil decoded_of_str hm hc

theorem Scalars.decoded_outputSpecification {lib : Scalars} (v : Js.Value)
    (x : OutputSpecification Python.Str)
    (h : lib.outputSpecification v.received = some x) : Decoded x.customInstruction := by
  simp only [outputSpecification, Option.bind_eq_bind, Option.bind_eq_some_iff, pure] at h
  obtain ⟨m, hm, _, -, _, -, c, hc, h⟩ := h
  obtain rfl := Option.some.inj h
  exact of_defaulted_received decoded_nil decoded_of_str hm hc

theorem decoded_hardConstraints (v : Js.Value) (x : HardConstraints Python.Str)
    (h : hardConstraints v.received = some x) : Decoded x.customInstruction := by
  simp only [hardConstraints, Option.bind_eq_bind, Option.bind_eq_some_iff, pure] at h
  obtain ⟨m, hm, _, -, _, -, _, -, _, -, c, hc, h⟩ := h
  obtain rfl := Option.some.inj h
  exact of_defaulted_received decoded_nil decoded_of_str hm hc

/-- What the schema makes of a body is decoded. -/
theorem Scalars.decoded_of_creativeSettings {lib : Scalars} {v : Js.Value} {s : StoredSettings}
    (h : lib.creativeSettings v.received = some s) : s.Decoded := by
  simp only [creativeSettings, Option.bind_eq_bind, Option.bind_eq_some_iff, pure] at h
  obtain ⟨m, hm, _, -, _, -, p, hp, a, ha, l, hl, c, hc, o, ho, f, hf, h⟩ := h
  obtain rfl := Option.some.inj h
  exact {
    persona := of_defaulted_received (P := fun p => Decoded p.customInstruction) decoded_nil
      decoded_personaSettings hm hp
    audience := of_defaulted_received (P := fun a => Decoded a.customInstruction) decoded_nil
      decoded_audienceSettings hm ha
    languageStyle := of_defaulted_received (P := fun l => Decoded l.customInstruction)
      decoded_nil decoded_languageStyleSettings hm hl
    contentStructure := of_defaulted_received (P := fun c => Decoded c.customInstruction)
      decoded_nil decoded_contentStructureSettings hm hc
    outputSpecification := of_defaulted_received (P := fun o => Decoded o.customInstruction)
      decoded_nil decoded_outputSpecification hm ho
    hardConstraints := of_defaulted_received (P := fun f => Decoded f.customInstruction)
      decoded_nil decoded_hardConstraints hm hf }

end Received

namespace Adapter

open Js

section Trips

variable {lib : Scalars} {convert : Value → Int}

theorem received_mode (mode : TargetLengthMode) :
    targetLengthMode (Value.string (ofStr (Literal.lit mode.value))).received = some mode := by
  cases mode <;> rfl

theorem natBetween_int (hl : lib.Lawful) {lo hi : ℕ} {n : Int}
    {k : { n : ℕ // lo ≤ n ∧ n ≤ hi }} : lib.natBetween lo hi (.int n) = some k ↔ n = k.1 := by
  simp only [Scalars.natBetween, Scalars.natFrom, hl.int, Option.bind_some]
  constructor
  · intro h
    split at h
    · rename_i hlo
      unfold constrain at h
      rw [Option.bind_some] at h
      split at h
      · obtain rfl := Option.some.inj h
        exact (Int.toNat_of_nonneg (by omega)).symm
      · cases h
    · cases h
  · rintro rfl
    rw [if_pos (by exact_mod_cast k.2.1), Option.bind_some, Int.toNat_natCast]
    exact constrain_val k

/-- The settings made of a record of the browser, once its length is in range. -/
def settingsOf (x : CreativeSettings) (length : { n : ℕ // 1 ≤ n ∧ n ≤ 20000 }) :
    StoredSettings where
  targetLengthMode := x.targetLengthMode
  targetCharacters := length
  persona := { customInstruction := decode x.persona.units }
  audience := { customInstruction := decode x.audience.units }
  languageStyle := { customInstruction := decode x.languageStyle.units }
  contentStructure := { customInstruction := decode x.contentStructure.units }
  outputSpecification := { customInstruction := decode x.outputSpecification.units }
  hardConstraints := { customInstruction := decode x.hardConstraints.units }

/-- What the backend makes of the settings: only the length can be refused, and everything but
the lengths and the instructions has its default. -/
theorem creativeSettings_received (x : CreativeSettings) :
    lib.creativeSettings (toCreativeSettings x).received =
      (lib.natBetween 1 20000 (.int x.targetCharacters)).map (settingsOf x) := by
  have hfields : lib.creativeSettings (toCreativeSettings x).received =
      (targetLengthMode (Value.string
        (ofStr (Literal.lit x.targetLengthMode.value))).received).bind fun mode =>
      (lib.natBetween 1 20000 (.int x.targetCharacters)).bind fun length =>
        some { settingsOf x length with targetLengthMode := mode } := rfl
  rw [hfields, received_mode, Option.bind_some]
  exact Option.map_eq_bind.symm

/-- What the browser shows of stored settings. -/
theorem fromCreativeSettings_parsed (s : StoredSettings) :
    fromCreativeSettings convert (parsed s.modelDump) =
      { targetLengthMode := s.targetLengthMode
        targetCharacters := s.targetCharacters.1
        persona := ofStr s.persona.customInstruction
        audience := ofStr s.audience.customInstruction
        languageStyle := ofStr s.languageStyle.customInstruction
        contentStructure := ofStr s.contentStructure.customInstruction
        outputSpecification := ofStr s.outputSpecification.customInstruction
        hardConstraints := ofStr s.hardConstraints.customInstruction } := by
  have hlength : (s.targetCharacters.1 : Int) ≠ 0 := by
    have := s.targetCharacters.2.1
    omega
  have hmode : (if ofStr (Literal.lit s.targetLengthMode.value) = lit "follow_source" then
      TargetLengthMode.followSource else .fixed) = s.targetLengthMode := by
    cases s.targetLengthMode <;> rfl
  have hfields : fromCreativeSettings convert (parsed s.modelDump) =
      { targetLengthMode :=
          if ofStr (Literal.lit s.targetLengthMode.value) = lit "follow_source" then
            .followSource else .fixed
        targetCharacters := if (s.targetCharacters.1 : Int) = 0 then defaultTargetCharacters
          else s.targetCharacters.1
        persona := ofStr s.persona.customInstruction
        audience := ofStr s.audience.customInstruction
        languageStyle := ofStr s.languageStyle.customInstruction
        contentStructure := ofStr s.contentStructure.customInstruction
        outputSpecification := ofStr s.outputSpecification.customInstruction
        hardConstraints := ofStr s.hardConstraints.customInstruction } := rfl
  rw [hfields, hmode, if_neg hlength]

/-- **What is stored of a record of the browser** is shown as that record. -/
theorem shown_of_stored (hl : lib.Lawful) {x : CreativeSettings} {s : StoredSettings}
    (h : lib.creativeSettings (toCreativeSettings x).received = some s) :
    fromCreativeSettings convert (parsed s.modelDump) = x := by
  rw [creativeSettings_received] at h
  obtain ⟨length, hlength, rfl⟩ := Option.map_eq_some_iff.mp h
  rw [fromCreativeSettings_parsed]
  simp only [settingsOf, ofStr_decode, ← (natBetween_int hl).mp hlength]

/-- **Which records of the browser are stored**: those with a length in range. -/
theorem exists_stored_iff (hl : lib.Lawful) {x : CreativeSettings} :
    (∃ s, lib.creativeSettings (toCreativeSettings x).received = some s) ↔
      1 ≤ x.targetCharacters ∧ x.targetCharacters ≤ 20000 := by
  rw [creativeSettings_received]
  constructor
  · rintro ⟨s, h⟩
    obtain ⟨length, hlength, -⟩ := Option.map_eq_some_iff.mp h
    rw [(natBetween_int hl).mp hlength]
    exact ⟨Int.ofNat_le.mpr length.2.1, Int.ofNat_le.mpr length.2.2⟩
  · rintro ⟨hlo, hhi⟩
    have hlength : lib.natBetween 1 20000 (.int x.targetCharacters) =
        some ⟨x.targetCharacters.toNat, by omega, by omega⟩ :=
      (natBetween_int hl).mpr (Int.toNat_of_nonneg (by omega)).symm
    exact ⟨_, Option.map_eq_some_iff.mpr ⟨_, hlength, rfl⟩⟩

/-- **Saving what is shown** stores what the browser carries. -/
theorem saved_of_shown (hl : lib.Lawful) {s : StoredSettings} (hs : s.Decoded) :
    lib.creativeSettings (toCreativeSettings
      (fromCreativeSettings convert (parsed s.modelDump))).received = some s.carried := by
  rw [fromCreativeSettings_parsed, creativeSettings_received, Option.map_eq_some_iff]
  refine ⟨s.targetCharacters, (natBetween_int hl).mpr rfl, ?_⟩
  simp only [settingsOf, hs.persona.decode_ofStr, hs.audience.decode_ofStr,
    hs.languageStyle.decode_ofStr, hs.contentStructure.decode_ofStr,
    hs.outputSpecification.decode_ofStr, hs.hardConstraints.decode_ofStr]
  rfl

/-- **Settings in the browser.** A record with a length the schema accepts is stored, and what
is stored is shown as that record. Stored settings that are opened and saved keep the length
mode, the length and the six instructions, and lose everything else: they are unchanged where
everything else has its default, and only there. -/
theorem settings_trip (lib : Scalars) (hl : lib.Lawful) (convert : Value → Int) :
    (∀ x : CreativeSettings,
      ((∃ s, lib.creativeSettings (toCreativeSettings x).received = some s) ↔
        1 ≤ x.targetCharacters ∧ x.targetCharacters ≤ 20000) ∧
      ∀ s, lib.creativeSettings (toCreativeSettings x).received = some s →
        fromCreativeSettings convert (parsed s.modelDump) = x) ∧
    ∀ s : StoredSettings, s.Decoded →
      let saved := lib.creativeSettings
        (toCreativeSettings (fromCreativeSettings convert (parsed s.modelDump))).received
      saved = some s.carried ∧ (saved = some s ↔ s.OnlyInstructions) := by
  refine ⟨fun x => ⟨exists_stored_iff hl, fun s h => shown_of_stored hl h⟩, fun s hs => ?_⟩
  rw [saved_of_shown hl hs]
  refine ⟨rfl, ?_⟩
  rw [Option.some.injEq]
  exact s.carried_eq_iff

end Trips

namespace Sample

/-- Settings with a stance. -/
def stance : StoredSettings :=
  { targetCharacters := DouyinCaption.Sample.settings.targetCharacters
    persona := { stance := Python.lit "x" } }

end Sample

/-- A record of the browser with two instructions, one an unpaired surrogate, there and back;
and settings with nothing else, opened and saved. -/
theorem settings_trip_persona :
    let x : CreativeSettings := ⟨.followSource, 500, ⟨[0xd800], by decide⟩, lit "a", lit "",
      lit "", lit "", lit ""⟩
    let stored := Scalars.Sample.canonical.creativeSettings (toCreativeSettings x).received
    ∃ s, stored = some s ∧ fromCreativeSettings (fun _ => 0) (parsed s.modelDump) = x ∧
      Scalars.Sample.canonical.creativeSettings (toCreativeSettings
        (fromCreativeSettings (fun _ => 0) (parsed s.modelDump))).received = some s := by
  have htrip := settings_trip Scalars.Sample.canonical Scalars.Sample.lawful fun _ => 0
  obtain ⟨hstored, hshown⟩ := htrip.1
    ⟨.followSource, 500, ⟨[0xd800], by decide⟩, lit "a", lit "", lit "", lit "", lit ""⟩
  obtain ⟨s, hs⟩ := hstored.mpr (by decide)
  have hx := hshown s hs
  exact ⟨s, hs, hx, hx ▸ hs⟩

/-- Opening settings with a stance and saving them without a change removes it. -/
theorem settings_trip_stance :
    ∃ s, Scalars.Sample.canonical.creativeSettings (toCreativeSettings
        (fromCreativeSettings (fun _ => 0) (parsed Sample.stance.modelDump))).received = some s ∧
      s ≠ Sample.stance ∧ s.persona.stance = [] :=
  ⟨Sample.stance.carried, rfl, by decide, rfl⟩

end Adapter

end DouyinCaption

import DouyinCaption.Library.PythonValues
import DouyinCaption.Workflow

/-!
# What a provider answers

`complete`, `_safe_http_error` and `_parse_response` of `app/modules/ai/provider.py`, and
`error_for_status` of `app/modules/ai/errors.py`. The body of an answer is any bytes, and the
JSON in it any value.

`_parse_response` translates four kinds of exception. Two get past it: the `RecursionError` of a
body nested too deeply for the decoder, which also gets past the `except ValueError` of
`_safe_http_error`, and the `AttributeError` of a `usage` that is no object. Nothing else does
(`complete_classified_iff`).
-/

namespace DouyinCaption.ProviderAnswers

open Python

/-! ## Answers -/

/-- What `response.json()` raises: a body that is no JSON or no text, and one nested deeper than
the decoder goes. -/
inductive DecodeError where
  | value
  | recursion
  deriving DecidableEq

/-- The libraries an answer is read with. -/
structure Libraries where
  /-- `json.loads` of the bytes -/
  loads : List UInt8 → Except DecodeError Value
  /-- `str.lower` -/
  lower : Str → Str
  /-- the integer that a field of type `int` makes of a `float` or a `str` -/
  laxInt : Value → Option Int

/-- `httpx.Response`: what is read of it. A header is none where it is missing. -/
structure Response where
  statusCode : ℕ
  contentType : Option Str := none
  requestId : Option Str := none
  content : List UInt8

/-- What comes of a request: an answer, a time limit or a `RequestError`. -/
inductive Exchange where
  | response (r : Response)
  | timeout
  | requestError

namespace Response

variable (lib : Libraries) (r : Response)

/-- `response.is_error` -/
def isError : Bool := 400 ≤ r.statusCode ∧ r.statusCode ≤ 599

/-- `"text/html" in response.headers.get("content-type", "").lower()` -/
def isHtml : Bool := lit "text/html" <:+: lib.lower (r.contentType.getD [])

/-- `response.json()` -/
def json : Except PyError Value :=
  match lib.loads r.content with
  | .ok v => .ok v
  | .error .value => .error .valueError
  | .error .recursion => .error .recursionError

end Response

/-! ## Errors -/

/-- `error_for_status` -/
def errorForStatus (lib : Libraries) (statusCode : ℕ) (providerCode : Option Str) : AiError :=
  let normalizedCode := lib.lower (providerCode.getD [])
  let code : AiErrorCode :=
    if statusCode ∈ [401, 403] then .authenticationFailed
    else if statusCode = 402 ∨ statusCode = 429 ∧
        ([lit "quota", lit "billing"].any fun word => word <:+: normalizedCode) then
      .insufficientQuota
    else if statusCode = 429 then .rateLimited
    else if statusCode = 404 then .modelUnavailable
    else if statusCode ∈ [400, 413, 422] then .invalidRequest
    else if statusCode = 408 then .timeout
    else .providerError
  { code, retryable := statusCode ∈ [408, 409, 429] ∨ 500 ≤ statusCode }

/-- What `_safe_http_error` reads of a body. -/
def providerCode : Value → Option Str
  | .dict body =>
      match find body (lit "error") with
      | some (.dict error) =>
          match find error (lit "code") with
          | some (.str code) => some code
          | _ => none
      | _ => none
  | _ => none

/-- `_safe_http_error` -/
def safeHttpError (lib : Libraries) (r : Response) : Except PyError AiError :=
  match r.json lib with
  | .ok body => .ok (errorForStatus lib r.statusCode (providerCode body))
  -- `except ValueError`
  | .error .valueError => .ok (errorForStatus lib r.statusCode none)
  | .error e => .error e

/-! ## Results -/

/-- `ProviderUsage` -/
structure ProviderUsage where
  inputTokens : Option ℕ := none
  outputTokens : Option ℕ := none

/-- `CompletionResult`, whose text may be any `str`. -/
structure Completion where
  text : Str
  providerRequestId : Option Str := none
  usage : ProviderUsage := {}

/-- The integer a field of type `int` makes of a value. -/
def toInt (lib : Libraries) : Value → Option Int
  | .int n => some n
  | .bool b => some (if b then 1 else 0)
  | .float bits => lib.laxInt (.float bits)
  | .str s => lib.laxInt (.str s)
  | .null | .list _ | .dict _ => none

/-- A field `int | None` with `ge=0`; a `ValidationError` is a `ValueError`. -/
def validateTokens (lib : Libraries) : Value → Except PyError (Option ℕ)
  | .null => .ok none
  | v =>
      match toInt lib v with
      | some n => if 0 ≤ n then .ok (some n.toNat) else .error .valueError
      | none => .error .valueError

/-- A field `str | None`: without a constraint, a string is itself. -/
def validateOptionalStr : Value → Except PyError (Option Str)
  | .null => .ok none
  | .str s => .ok (some s)
  | _ => .error .valueError

/-- `body["choices"][0]["message"]["content"]` -/
def readContent (body : Value) : Except PyError Value := do
  let choice ← (← body.item (lit "choices")).first
  (← choice.item (lit "message")).item (lit "content")

/-- `response.headers.get("x-request-id") or body.get("id")` -/
def readRequestId (r : Response) (body : Value) : Except PyError Value :=
  match r.requestId with
  | some (c :: id) => .ok (.str (c :: id))
  | _ => body.get (lit "id") .null

/-- `CompletionResult(..., usage=ProviderUsage(...))`: the two models validate their fields. The
content is known to be a `str`, and the field `text` takes any. -/
def validateResult (lib : Libraries) (content : Str) (requestId inputTokens outputTokens : Value) :
    Except PyError Completion := do
  let inputTokens ← validateTokens lib inputTokens
  let outputTokens ← validateTokens lib outputTokens
  let providerRequestId ← validateOptionalStr requestId
  return { text := content, providerRequestId, usage := { inputTokens, outputTokens } }

/-- The result of a body with a text. -/
def readResult (lib : Libraries) (r : Response) (body : Value) (content : Str) :
    Except PyError Completion := do
  let usage ← body.get (lit "usage") .null
  let usage := if usage.truthy then usage else .dict []
  let requestId ← readRequestId r body
  let inputTokens ← usage.get (lit "prompt_tokens") .null
  let outputTokens ← usage.get (lit "completion_tokens") .null
  validateResult lib content requestId inputTokens outputTokens

/-- The `try` block of `_parse_response`. -/
def parseBody (lib : Libraries) (r : Response) : Except PyError Completion := do
  let body ← r.json lib
  match ← readContent body with
  | .str content => readResult lib r body content
  | _ => .error .typeError

/-- What `complete` raises. -/
inductive Raised where
  | ai (e : AiError)
  | other (e : PyError)

/-- The `except` clause of `_parse_response`. -/
def handle (e : PyError) : Raised :=
  if e ∈ [.keyError, .indexError, .typeError, .valueError] then
    .ai { code := .invalidResponse, retryable := true }
  else .other e

/-- `_parse_response` -/
def parseResponse (lib : Libraries) (r : Response) : Except Raised Completion :=
  (parseBody lib r).mapError handle

/-- `complete`, from the answer on -/
def complete (lib : Libraries) : Exchange → Except Raised Completion
  | .response r =>
      if r.isError then
        match safeHttpError lib r with
        | .ok e => .error (.ai e)
        | .error e => .error (.other e)
      else if r.isHtml lib then .error (.ai { code := .invalidEndpoint, retryable := false })
      else parseResponse lib r
  | .timeout => .error (.ai { code := .timeout, retryable := true })
  | .requestError => .error (.ai { code := .networkError, retryable := true })

/-! ## What is classified -/

/-- The string at `choices[0].message.content`, where every step is of the shape asked for. -/
def contentOf : Value → Option Str
  | .dict body =>
      match find body (lit "choices") with
      | some (.list (.dict choice :: _)) =>
          match find choice (lit "message") with
          | some (.dict message) =>
              match find message (lit "content") with
              | some (.str content) => some content
              | _ => none
          | _ => none
      | _ => none
  | _ => none

/-- `usage` is something other than an object, and not one of the values that count as none. -/
def badUsage : Value → Bool
  | .dict body =>
      match find body (lit "usage") with
      | some usage => usage.truthy && !usage.isDict
      | none => false
  | _ => false

/-- The decoder runs out of stack, or an answer with a text has such a `usage`. -/
def Response.Unclassified (lib : Libraries) (r : Response) : Prop :=
  (r.isError = true ∨ r.isHtml lib = false) ∧ lib.loads r.content = .error .recursion ∨
    r.isError = false ∧ r.isHtml lib = false ∧
      ∃ v content, lib.loads r.content = .ok v ∧ contentOf v = some content ∧ badUsage v = true

/-! ## What the parser does -/

section Parser

variable {lib : Libraries} {r : Response} {body v : Value} {content : Str} {e : PyError}

/-- The exceptions `_parse_response` translates. -/
def handled : List PyError := [.keyError, .indexError, .typeError, .valueError]

theorem json_ok : r.json lib = .ok v ↔ lib.loads r.content = .ok v := by
  rw [Response.json]
  split <;> simp_all

theorem json_error (h : r.json lib = .error e) :
    e = .valueError ∨ e = .recursionError ∧ lib.loads r.content = .error .recursion := by
  rw [Response.json] at h
  split at h
  · cases h
  · exact .inl (Except.error.inj h).symm
  · rename_i hl
    exact .inr ⟨(Except.error.inj h).symm, hl⟩

/-- The path to the text is there exactly when every step of it is. -/
theorem readContent_str :
    readContent body = .ok (.str content) ↔ contentOf body = some content := by
  constructor
  · intro h
    obtain ⟨choices, hchoices, h⟩ := bind_eq_ok.mp h
    obtain ⟨choice, hchoice, h⟩ := bind_eq_ok.mp h
    obtain ⟨message, hmessage, hcontent⟩ := bind_eq_ok.mp h
    obtain ⟨body, rfl, hfindChoices⟩ := Value.item_eq_ok.mp hchoices
    obtain ⟨choice, rfl, hfindMessage⟩ := Value.item_eq_ok.mp hmessage
    obtain ⟨message, rfl, hfindContent⟩ := Value.item_eq_ok.mp hcontent
    rcases Value.first_eq_ok hchoice with ⟨rest, rfl⟩ | ⟨c, hc⟩
    · simp only [contentOf, hfindChoices, hfindMessage, hfindContent]
    · cases hc
  · intro h
    simp only [contentOf] at h
    split at h <;> try cases h
    rename_i body
    split at h <;> try cases h
    rename_i choice rest hchoices
    split at h <;> try cases h
    rename_i message hmessage
    split at h <;> try cases h
    rename_i hcontent
    simp only [readContent, Value.item, Value.first, hchoices, hmessage, hcontent, bind,
      Except.bind]

/-- The walk along it raises nothing but what is translated. -/
theorem readContent_error (h : readContent body = .error e) : e ∈ handled := by
  have hitem : ∀ {v : Value} {key : Str}, v.item key = .error e → e ∈ handled := by
    intro v key h
    rcases Value.item_error h with rfl | rfl <;> simp [handled]
  rw [readContent] at h
  rcases bind_eq_error.mp h with h | ⟨choices, -, h⟩
  · exact hitem h
  rcases bind_eq_error.mp h with h | ⟨choice, -, h⟩
  · rcases Value.first_error h with rfl | rfl | rfl <;> simp [handled]
  rcases bind_eq_error.mp h with h | ⟨message, -, h⟩
  · exact hitem h
  · exact hitem h

/-- A body with a text is an object. -/
theorem dict_of_contentOf (h : contentOf body = some content) :
    ∃ members, body = .dict members := by
  cases body with
  | dict members => exact ⟨members, rfl⟩
  | _ => cases h

theorem validateTokens_error (h : validateTokens lib v = .error e) : e = .valueError := by
  cases v with
  | null => cases h
  | _ =>
    simp only [validateTokens] at h
    split at h
    · split at h <;> cases h
      rfl
    · exact (Except.error.inj h).symm

theorem validateOptionalStr_error (h : validateOptionalStr v = .error e) : e = .valueError := by
  cases v with
  | null => cases h
  | str s => cases h
  | _ => exact (Except.error.inj h).symm

/-- The models accept the text, or refuse with an exception that is translated. -/
theorem validateResult_spec (lib : Libraries) (content : Str) (requestId input output : Value) :
    (∃ c, validateResult lib content requestId input output = .ok c ∧ c.text = content) ∨
      validateResult lib content requestId input output = .error .valueError := by
  rcases h : validateResult lib content requestId input output with e | c
  · right
    congr 1
    rcases bind_eq_error.mp h with he | ⟨_, -, h⟩
    · exact validateTokens_error he
    rcases bind_eq_error.mp h with he | ⟨_, -, h⟩
    · exact validateTokens_error he
    rcases bind_eq_error.mp h with he | ⟨_, -, h⟩
    · exact validateOptionalStr_error he
    · cases h
  · left
    obtain ⟨_, -, h⟩ := bind_eq_ok.mp h
    obtain ⟨_, -, h⟩ := bind_eq_ok.mp h
    obtain ⟨_, -, h⟩ := bind_eq_ok.mp h
    obtain rfl := Except.ok.inj h
    exact ⟨_, rfl, rfl⟩

theorem readRequestId_ok (r : Response) (members : List (Str × Value)) :
    ∃ v, readRequestId r (.dict members) = .ok v := by
  rw [readRequestId]
  split
  · exact ⟨_, rfl⟩
  · exact ⟨_, rfl⟩

/-- A `usage` that is no object and counts as something ends the reading. -/
theorem readResult_badUsage {members : List (Str × Value)} (h : badUsage (.dict members) = true) :
    readResult lib r (.dict members) content = .error .attributeError := by
  obtain ⟨requestId, hid⟩ := readRequestId_ok r members
  simp only [badUsage] at h
  split at h
  · rename_i usage husage
    obtain ⟨ht, hd⟩ := Bool.and_eq_true_iff.mp h
    have hget : ∀ key, usage.get key .null = .error .attributeError := by
      intro key
      cases usage with
      | dict fields => cases hd
      | _ => rfl
    have hbody : (Value.dict members).get (lit "usage") .null = .ok usage := by
      rw [Value.get, husage, Option.getD_some]
    simp only [readResult, hbody, hid, ht, hget, bind, Except.bind, if_true]
  · cases h

/-- Otherwise it ends with the text, or with an exception that is translated. -/
theorem readResult_goodUsage (lib : Libraries) (r : Response) (content : Str)
    {members : List (Str × Value)} (h : badUsage (.dict members) = false) :
    (∃ c, readResult lib r (.dict members) content = .ok c ∧ c.text = content) ∨
      readResult lib r (.dict members) content = .error .valueError := by
  obtain ⟨requestId, hid⟩ := readRequestId_ok r members
  -- what `usage` is then
  have hfields : ∃ fields, (if ((find members (lit "usage")).getD .null).truthy = true then
      (find members (lit "usage")).getD .null else .dict []) = Value.dict fields := by
    simp only [badUsage] at h
    rcases hu : find members (lit "usage") with _ | usage
    · exact ⟨[], rfl⟩
    · rw [hu] at h
      rw [Option.getD_some]
      by_cases ht : usage.truthy = true
      · rw [if_pos ht]
        cases usage with
        | dict fields => exact ⟨fields, rfl⟩
        | _ => simp [ht, Value.isDict] at h
      · exact ⟨[], if_neg ht⟩
  obtain ⟨fields, hfields⟩ := hfields
  have hget : ∀ key, ∃ v, (Value.dict fields).get key .null = .ok v := fun key => ⟨_, rfl⟩
  obtain ⟨input, hinput⟩ := hget (lit "prompt_tokens")
  obtain ⟨output, houtput⟩ := hget (lit "completion_tokens")
  have hresult : readResult lib r (.dict members) content =
      validateResult lib content requestId input output := by
    rw [readResult, Value.get]
    simp only [Except.bind, bind, hfields, hid, hinput, houtput]
  rw [hresult]
  exact validateResult_spec lib content requestId input output

/-- The `try` block ends with the text of the answer, or raises. -/
theorem parseBody_ok {c : Completion} (h : parseBody lib r = .ok c) :
    ∃ v, lib.loads r.content = .ok v ∧ contentOf v = some c.text ∧ badUsage v = false := by
  obtain ⟨body, hbody, h⟩ := bind_eq_ok.mp h
  obtain ⟨v, hv, h⟩ := bind_eq_ok.mp h
  split at h
  · rename_i content
    have hcontent := readContent_str.mp hv
    obtain ⟨members, rfl⟩ := dict_of_contentOf hcontent
    rcases hu : badUsage (.dict members) with _ | _
    · rcases readResult_goodUsage lib r content hu with
        ⟨c', hc, htext⟩ | he
      · obtain rfl := Except.ok.inj (hc.symm.trans h)
        exact ⟨_, json_ok.mp hbody, by rw [hcontent, htext], hu⟩
      · cases he.symm.trans h
    · cases (readResult_badUsage hu).symm.trans h
  · cases h

/-- What it raises is translated, but for the two. -/
theorem parseBody_error (h : parseBody lib r = .error e) : e ∈ handled ∨
    e = .recursionError ∧ lib.loads r.content = .error .recursion ∨
    e = .attributeError ∧ ∃ v content,
      lib.loads r.content = .ok v ∧ contentOf v = some content ∧ badUsage v = true := by
  rcases bind_eq_error.mp h with h | ⟨body, hbody, h⟩
  · rcases json_error h with rfl | h
    · exact .inl (by simp [handled])
    · exact .inr (.inl h)
  rcases bind_eq_error.mp h with h | ⟨v, hv, h⟩
  · exact .inl (readContent_error h)
  split at h
  · rename_i content
    have hcontent := readContent_str.mp hv
    obtain ⟨members, rfl⟩ := dict_of_contentOf hcontent
    rcases hu : badUsage (.dict members) with _ | _
    · rcases readResult_goodUsage lib r content hu with
        ⟨c', hc, -⟩ | he
      · cases hc.symm.trans h
      · obtain rfl := Except.error.inj (he.symm.trans h)
        exact .inl (by simp [handled])
    · obtain rfl := Except.error.inj ((readResult_badUsage hu).symm.trans h)
      exact .inr (.inr ⟨rfl, _, _, json_ok.mp hbody, hcontent, hu⟩)
  · obtain rfl := Except.error.inj h
    exact .inl (by simp [handled])

/-- The stack running out and a bad `usage` are not translated. -/
theorem parseBody_recursion (h : lib.loads r.content = .error .recursion) :
    parseBody lib r = .error .recursionError := by
  have hj : r.json lib = .error .recursionError := by rw [Response.json, h]
  rw [parseBody, hj]
  rfl

theorem parseBody_badUsage (h : lib.loads r.content = .ok v) (hc : contentOf v = some content)
    (hu : badUsage v = true) : parseBody lib r = .error .attributeError := by
  obtain ⟨members, rfl⟩ := dict_of_contentOf hc
  refine bind_eq_error.mpr (.inr ⟨_, json_ok.mpr h, bind_eq_error.mpr (.inr
    ⟨_, readContent_str.mpr hc, ?_⟩)⟩)
  exact readResult_badUsage hu

theorem safeHttpError_error : safeHttpError lib r = .error e ↔
    e = .recursionError ∧ lib.loads r.content = .error .recursion := by
  rw [safeHttpError]
  constructor
  · intro h
    split at h
    · cases h
    · cases h
    · rename_i e' hne hj
      obtain rfl := Except.error.inj h
      rcases json_error hj with rfl | h
      · exact absurd rfl hne
      · exact h
  · rintro ⟨rfl, h⟩
    have hj : r.json lib = .error .recursionError := by rw [Response.json, h]
    rw [hj]

/-- The handler translates these. -/
theorem handle_ai : (∃ e', handle e = .ai e') ↔ e ∈ handled := by
  rw [handle, ← handled]
  split
  · rename_i h
    exact ⟨fun _ => h, fun _ => ⟨_, rfl⟩⟩
  · rename_i h
    exact ⟨fun ⟨e', he⟩ => (by cases he), fun he => absurd he h⟩

/-- The answers that `_parse_response` classifies. -/
theorem parseResponse_classified_iff :
    ((∃ c v, parseResponse lib r = .ok c ∧ lib.loads r.content = .ok v ∧
        contentOf v = some c.text) ∨ ∃ e, parseResponse lib r = .error (.ai e)) ↔
      ¬ (lib.loads r.content = .error .recursion ∨
        ∃ v content, lib.loads r.content = .ok v ∧ contentOf v = some content ∧
          badUsage v = true) := by
  rw [parseResponse]
  rcases hp : parseBody lib r with e | c
  · have hclass : (∃ e', (Except.error e : Except PyError Completion).mapError handle
        = .error (.ai e')) ↔ e ∈ handled := by
      rw [← handle_ai]
      exact exists_congr fun e' => ⟨Except.error.inj, congrArg Except.error⟩
    rw [hclass]
    constructor
    · rintro (⟨c, v, h, -⟩ | h) (hrec | ⟨v, content, hv, hc, hu⟩)
      · cases h
      · cases h
      · obtain rfl := Except.error.inj (hp.symm.trans (parseBody_recursion hrec))
        simp [handled] at h
      · obtain rfl := Except.error.inj (hp.symm.trans (parseBody_badUsage hv hc hu))
        simp [handled] at h
    · intro h
      rcases parseBody_error hp with he | ⟨-, hrec⟩ | ⟨-, hbad⟩
      · exact .inr he
      · exact absurd (.inl hrec) h
      · exact absurd (.inr hbad) h
  · obtain ⟨v, hv, hc, hu⟩ := parseBody_ok hp
    refine ⟨fun _ => ?_, fun _ => .inl ⟨c, v, rfl, hv, hc⟩⟩
    rintro (hrec | ⟨v', content, hv', -, hu'⟩)
    · cases hv.symm.trans hrec
    · obtain rfl := Except.ok.inj (hv.symm.trans hv')
      cases hu.symm.trans hu'

end Parser

/-- **Which answers are classified.** `complete` returns the string at
`choices[0].message.content` or raises an `AiError`, for every status, content type and body but
two kinds: one that the decoder has no stack for, and an answer with a text whose `usage` is
neither an object nor counts as none. -/
theorem complete_classified_iff (lib : Libraries) (r : Response) :
    ((∃ c v, complete lib (.response r) = .ok c ∧ lib.loads r.content = .ok v ∧
        contentOf v = some c.text) ∨
      ∃ e, complete lib (.response r) = .error (.ai e)) ↔ ¬ r.Unclassified lib := by
  rw [Response.Unclassified, complete]
  rcases herror : r.isError with _ | _
  · rcases hhtml : r.isHtml lib with _ | _
    · simpa using parseResponse_classified_iff
    · simp
  · rcases hsafe : safeHttpError lib r with e | e
    · obtain ⟨rfl, hrec⟩ := safeHttpError_error.mp hsafe
      simp [hrec]
    · have hrec : lib.loads r.content ≠ .error .recursion := by
        intro h
        cases hsafe.symm.trans (safeHttpError_error.mpr ⟨rfl, h⟩)
      simp [hrec]

/-! ## An answer that is not -/

/-- `{"choices":[{"message":{"content":"x"}}],"usage":[1]}` -/
def listUsage : Response where
  statusCode := 200
  content :=
    "\x7b\"choices\":[\x7b\"message\":\x7b\"content\":\"x\"\x7d\x7d],\"usage\":[1]\x7d".toList.map
      fun c => c.toNat.toUInt8

/-- Libraries that read it. -/
def reading : Libraries where
  loads _ := .ok (.dict
    [(lit "choices", .list [.dict [(lit "message", .dict [(lit "content", .str (lit "x"))])]]),
      (lit "usage", .list [.int 1])])
  lower s := s
  laxInt _ := none

/-- The `AttributeError` of its `usage` escapes. -/
theorem complete_not_classified :
    ¬ ∀ (lib : Libraries) (r : Response),
      (∃ c v, complete lib (.response r) = .ok c ∧ lib.loads r.content = .ok v ∧
        contentOf v = some c.text) ∨
      ∃ e, complete lib (.response r) = .error (.ai e) := by
  intro h
  have hanswer : complete reading (.response listUsage) = .error (.other .attributeError) := by rfl
  rcases h reading listUsage with ⟨c, v, hc, -⟩ | ⟨e, he⟩
  · cases hanswer.symm.trans hc
  · cases hanswer.symm.trans he

end DouyinCaption.ProviderAnswers

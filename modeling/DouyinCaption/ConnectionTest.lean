import DouyinCaption.ProviderAnswers

/-!
# The connection test

`OpenAICompatibleConnectionTester.test` of `app/modules/identity/provider.py`. It collects the
`id` of every item of `data` in a set, and answers with an outcome where that raises a
`ValueError` or an `AttributeError`. A `data` that cannot be iterated, an `id` that cannot be
hashed and a body nested too deeply raise something else, which escapes; for every other answer
there is an outcome, and it is the right one (`test_outcome_iff`).
-/

namespace DouyinCaption.ConnectionTest

open Python ProviderAnswers

/-- `ProviderTestOutcome` -/
structure ProviderTestOutcome where
  success : Bool
  code : Text
  message : Text
  deriving DecidableEq

section Test

variable (lib : Libraries) (modelIdentifier : Str) (r : Response)

/-- One item of the comprehension; the set hashes what it is given. -/
def modelId (item : Value) : Except PyError Value := do
  let id ← item.get (lit "id") .null
  id.hash
  return id

/-- `{item.get("id") for item in response.json().get("data", [])}` -/
def modelIds : Except PyError (List Value) := do
  let body ← r.json lib
  let data ← body.get (lit "data") (.list [])
  (← data.iter).mapM modelId

/-- `test`, from the answer on; an exception that escapes is an error. -/
def test : Exchange → Except PyError ProviderTestOutcome
  | .timeout =>
      .ok ⟨false, "provider_timeout".toList, "Provider request timed out".toList⟩
  | .requestError =>
      .ok ⟨false, "provider_network_error".toList, "Provider is unreachable".toList⟩
  | .response r =>
      if r.statusCode ∈ [401, 403] then
        .ok ⟨false, "provider_auth_failed".toList, "Provider rejected the API key".toList⟩
      else if r.statusCode = 429 then
        .ok ⟨false, "provider_rate_limited".toList, "Provider rate limit reached".toList⟩
      else if r.isError then
        .ok ⟨false, "provider_error".toList, "Provider connection test failed".toList⟩
      else if r.isHtml lib then
        .ok ⟨false, "provider_invalid_endpoint".toList,
          "请求地址返回了网页，请检查 API 地址是否包含正确路径（通常为 /v1）。".toList⟩
      else
        match modelIds lib r with
        | .error .valueError | .error .attributeError =>
            .ok ⟨false, "provider_invalid_response".toList,
              "Provider returned invalid data".toList⟩
        | .error e => .error e
        | .ok ids =>
            if ids.any (Value.eqStr modelIdentifier) then
              .ok ⟨true, "ok".toList, "Connection succeeded".toList⟩
            else
              .ok ⟨false, "model_unavailable".toList, "Selected model is unavailable".toList⟩

/-! ## What should succeed, and what escapes -/

/-- The body is an object whose `data` is a list of objects, one of them with the identifier. -/
def Lists (v : Value) : Prop :=
  ∃ body items, v = .dict body ∧ find body (lit "data") = some (.list items) ∧
    (∀ i ∈ items, i.isDict = true) ∧
    ∃ fields, .dict fields ∈ items ∧ find fields (lit "id") = some (.str modelIdentifier)

/-- The answer is no error and no web page, and lists the model. -/
def Succeeds : Prop :=
  r.isError = false ∧ r.isHtml lib = false ∧
    ∃ v, lib.loads r.content = .ok v ∧ Lists modelIdentifier v

/-- `data` is `null`, a boolean or a number. -/
def NotIterable (v : Value) : Prop :=
  ∃ body data, v = .dict body ∧ find body (lit "data") = some data ∧
    data.iter = .error .typeError

/-- An object of `data` has a list or an object for its `id`, and everything before it is an
object. -/
def NotHashable (v : Value) : Prop :=
  ∃ body before fields after id, v = .dict body ∧
    find body (lit "data") = some (.list (before ++ .dict fields :: after)) ∧
    (∀ i ∈ before, i.isDict = true) ∧ find fields (lit "id") = some id ∧ id.hash = .error .typeError

/-- The answer raises what `test` does not catch. -/
def Escapes : Prop :=
  r.isError = false ∧ r.isHtml lib = false ∧ (lib.loads r.content = .error .recursion ∨
    ∃ v, lib.loads r.content = .ok v ∧ (NotIterable v ∨ NotHashable v))

end Test

/-! ## One item -/

section Items

variable {item id : Value} {e : PyError}

theorem modelId_dict (fields : List (Str × Value)) :
    modelId (.dict fields) = do
      ((find fields (lit "id")).getD .null).hash
      return (find fields (lit "id")).getD .null := rfl

theorem hash_error {v : Value} (h : v.hash = .error e) : e = .typeError := by
  cases v <;> cases h <;> rfl

/-- What an item contributes. -/
theorem modelId_ok (h : modelId item = .ok id) :
    ∃ fields, item = .dict fields ∧ (find fields (lit "id")).getD .null = id := by
  cases item with
  | dict fields =>
    rw [modelId_dict] at h
    obtain ⟨_, -, h⟩ := bind_eq_ok.mp h
    exact ⟨fields, rfl, Except.ok.inj h⟩
  | _ => cases h

/-- What it raises. -/
theorem modelId_error (h : modelId item = .error e) :
    e = .attributeError ∧ item.isDict = false ∨
    e = .typeError ∧ ∃ fields id, item = .dict fields ∧ find fields (lit "id") = some id ∧
      id.hash = .error .typeError := by
  cases item with
  | dict fields =>
    rw [modelId_dict] at h
    rcases bind_eq_error.mp h with h | ⟨_, -, h⟩
    · obtain rfl := hash_error h
      rcases hf : find fields (lit "id") with _ | id
      · rw [hf] at h
        cases h
      · rw [hf] at h
        exact .inr ⟨rfl, fields, id, rfl, hf, h⟩
    · cases h
  | _ => exact .inl ⟨(Except.error.inj h).symm, rfl⟩

/-- Only objects are collected from. -/
theorem isDict_of_modelId (h : modelId item = .ok id) : item.isDict = true := by
  obtain ⟨fields, rfl, -⟩ := modelId_ok h
  rfl

/-- Among objects only an `id` that cannot be hashed raises anything. -/
theorem mapM_error_of_dicts {items : List Value} (hd : ∀ i ∈ items, i.isDict = true)
    (h : items.mapM modelId = .error e) : e = .typeError := by
  obtain ⟨before, i, after, rfl, -, hi⟩ := mapM_eq_error.mp h
  rcases modelId_error hi with ⟨-, hne⟩ | ⟨he, -⟩
  · cases hne.symm.trans (hd i (by simp))
  · exact he

/-- Such an `id` ends the comprehension when no other value stands before it. -/
theorem mapM_of_unhashable {fields : List (Str × Value)} {before after : List Value}
    (hd : ∀ i ∈ before, i.isDict = true) (hid : find fields (lit "id") = some id)
    (hh : id.hash = .error .typeError) :
    (before ++ .dict fields :: after).mapM modelId = .error .typeError := by
  induction before with
  | nil =>
    have hitem : modelId (.dict fields) = .error .typeError := by
      rw [modelId_dict, hid, Option.getD_some, hh]
      rfl
    exact mapM_eq_error.mpr ⟨[], _, after, rfl, by simp, hitem⟩
  | cons i before ih =>
    have hrest := ih fun j hj => hd j (List.mem_cons_of_mem _ hj)
    rw [List.cons_append, List.mapM_cons]
    rcases hi : modelId i with e | c
    · rcases modelId_error hi with ⟨-, hne⟩ | ⟨rfl, -⟩
      · cases hne.symm.trans (hd i List.mem_cons_self)
      · rfl
    · rw [hrest]
      rfl

end Items

/-! ## The whole body -/

section Body

variable {lib : Libraries} {modelIdentifier : Str} {r : Response} {v : Value} {e : PyError}
  {ids : List Value}

/-- The comprehension of a body that is an object. -/
theorem modelIds_dict {body : List (Str × Value)} (h : lib.loads r.content = .ok (.dict body)) :
    modelIds lib r = (((find body (lit "data")).getD (.list [])).iter >>= fun items =>
      items.mapM modelId) := by
  rw [modelIds, json_ok.mpr h]
  rfl

/-- What is iterated has an object in it only when it is a list. -/
theorem list_of_iter {data : Value} {items : List Value} {fields : List (Str × Value)}
    (h : data.iter = .ok items) (hm : .dict fields ∈ items) : data = .list items := by
  cases data with
  | list xs =>
    obtain rfl := Except.ok.inj h
    rfl
  | str s =>
    obtain rfl := Except.ok.inj h
    obtain ⟨c, -, hc⟩ := List.mem_map.mp hm
    cases hc
  | dict members =>
    obtain rfl := Except.ok.inj h
    obtain ⟨c, -, hc⟩ := List.mem_map.mp hm
    cases hc
  | _ => cases h

/-- What is iterated, with an object in it, is `data`. -/
theorem find_of_iter {body : List (Str × Value)} {items : List Value}
    {fields : List (Str × Value)}
    (h : ((find body (lit "data")).getD (.list [])).iter = .ok items) (hm : .dict fields ∈ items) :
    find body (lit "data") = some (.list items) := by
  have hlist := list_of_iter h hm
  rcases hf : find body (lit "data") with _ | data
  · rw [hf] at hlist
    obtain rfl := Value.list.inj hlist
    cases hm
  · rw [hf] at hlist
    exact congrArg some hlist

/-- The set has the identifier only when the answer lists the model. -/
theorem lists_of_modelIds (h : modelIds lib r = .ok ids)
    (hid : ids.any (Value.eqStr modelIdentifier) = true) :
    ∃ v, lib.loads r.content = .ok v ∧ Lists modelIdentifier v := by
  obtain ⟨v, hv, h⟩ := bind_eq_ok.mp h
  obtain ⟨data, hdata, h⟩ := bind_eq_ok.mp h
  obtain ⟨items, hitems, h⟩ := bind_eq_ok.mp h
  obtain ⟨id, hmem, heq⟩ := List.any_eq_true.mp hid
  obtain ⟨item, hitem, hmodel⟩ := (mem_of_mapM_ok h id).mp hmem
  obtain ⟨fields, rfl, hfind⟩ := modelId_ok hmodel
  have hdicts : ∀ i ∈ items, i.isDict = true := by
    intro i hi
    obtain ⟨id', hi'⟩ := ok_of_mapM_ok h i hi
    exact isDict_of_modelId hi'
  cases v with
  | dict body =>
    obtain rfl := Except.ok.inj hdata
    refine ⟨_, json_ok.mp hv, body, items, rfl, find_of_iter hitems hitem, hdicts, fields, hitem,
      ?_⟩
    -- the default of `get` is no string
    rcases hf : find fields (lit "id") with _ | w
    · rw [hf] at hfind
      obtain rfl := hfind
      cases heq
    · rw [hf, Option.getD_some] at hfind
      obtain rfl := hfind
      cases w with
      | str s =>
        obtain rfl := of_decide_eq_true heq
        rfl
      | _ => cases heq
  | _ => cases hdata

/-- An answer that lists the model has it in the set, but for an `id` that cannot be hashed. -/
theorem modelIds_of_lists (h : lib.loads r.content = .ok v) (hl : Lists modelIdentifier v) :
    (∃ ids, modelIds lib r = .ok ids ∧ ids.any (Value.eqStr modelIdentifier) = true) ∨
      modelIds lib r = .error .typeError := by
  obtain ⟨body, items, rfl, hdata, hdicts, fields, hmem, hid⟩ := hl
  have heq : modelIds lib r = items.mapM modelId := by
    rw [modelIds_dict h, hdata]
    rfl
  rw [heq]
  rcases hm : items.mapM modelId with e | ids
  · exact .inr (by rw [mapM_error_of_dicts hdicts hm])
  · refine .inl ⟨ids, rfl, List.any_eq_true.mpr ⟨.str modelIdentifier, ?_, ?_⟩⟩
    · exact (mem_of_mapM_ok hm _).mpr ⟨_, hmem, by rw [modelId_dict, hid]; rfl⟩
    · simp [Value.eqStr]

theorem iter_error (h : v.iter = .error e) : e = .typeError := by
  cases v <;> cases h <;> rfl

/-- What the comprehension raises. -/
theorem modelIds_error (h : modelIds lib r = .error e) :
    e = .valueError ∨ e = .attributeError ∨
    e = .recursionError ∧ lib.loads r.content = .error .recursion ∨
    e = .typeError ∧ ∃ v, lib.loads r.content = .ok v ∧ (NotIterable v ∨ NotHashable v) := by
  rcases bind_eq_error.mp h with h | ⟨v, hv, h⟩
  · rcases json_error h with rfl | h
    · exact .inl rfl
    · exact .inr (.inr (.inl h))
  rcases bind_eq_error.mp h with h | ⟨data, hdata, h⟩
  · exact .inr (.inl (Value.get_error h).1)
  cases v with
  | dict body =>
    have hv := json_ok.mp hv
    obtain rfl := Except.ok.inj hdata
    rcases bind_eq_error.mp h with h | ⟨items, hitems, h⟩
    · obtain rfl := iter_error h
      refine .inr (.inr (.inr ⟨rfl, _, hv, .inl ⟨body, ?_⟩⟩))
      rcases hf : find body (lit "data") with _ | data
      · rw [hf] at h
        cases h
      · rw [hf] at h
        exact ⟨data, rfl, rfl, h⟩
    · obtain ⟨before, item, after, rfl, hbefore, hitem⟩ := mapM_eq_error.mp h
      rcases modelId_error hitem with ⟨he, -⟩ | ⟨he, fields, id, rfl, hid, hh⟩
      · exact .inr (.inl he)
      · have hdicts : ∀ i ∈ before, i.isDict = true := by
          intro i hi
          obtain ⟨id', hi'⟩ := hbefore i hi
          exact isDict_of_modelId hi'
        exact .inr (.inr (.inr ⟨he, _, hv, .inr ⟨body, before, fields, after, id, rfl,
          find_of_iter hitems (List.mem_append_right _ List.mem_cons_self), hdicts, hid, hh⟩⟩))
  | _ => cases hdata

/-- And what it cannot but raise. -/
theorem modelIds_of_notIterable (h : lib.loads r.content = .ok v) (hv : NotIterable v) :
    modelIds lib r = .error .typeError := by
  obtain ⟨body, data, rfl, hdata, hiter⟩ := hv
  rw [modelIds_dict h, hdata, Option.getD_some, hiter]
  rfl

theorem modelIds_of_notHashable (h : lib.loads r.content = .ok v) (hv : NotHashable v) :
    modelIds lib r = .error .typeError := by
  obtain ⟨body, before, fields, after, id, rfl, hdata, hdicts, hid, hh⟩ := hv
  rw [modelIds_dict h, hdata, Option.getD_some]
  exact mapM_of_unhashable hdicts hid hh

theorem modelIds_of_recursion (h : lib.loads r.content = .error .recursion) :
    modelIds lib r = .error .recursionError := by
  have hj : r.json lib = .error .recursionError := by rw [Response.json, h]
  rw [modelIds, hj]
  rfl

/-- An answer that is read escapes by one of two exceptions. -/
theorem escapes_iff (herror : r.isError = false) (hhtml : r.isHtml lib = false) :
    Escapes lib r ↔
      modelIds lib r = .error .typeError ∨ modelIds lib r = .error .recursionError := by
  constructor
  · rintro ⟨-, -, hrec | ⟨v, hv, hiter | hhash⟩⟩
    · exact .inr (modelIds_of_recursion hrec)
    · exact .inl (modelIds_of_notIterable hv hiter)
    · exact .inl (modelIds_of_notHashable hv hhash)
  · intro h
    have hcause : ∀ e, modelIds lib r = .error e → e = .typeError ∨ e = .recursionError →
        Escapes lib r := by
      intro e he hkind
      refine ⟨herror, hhtml, ?_⟩
      rcases modelIds_error he with rfl | rfl | ⟨-, hrec⟩ | ⟨-, hbody⟩
      · rcases hkind with h | h <;> cases h
      · rcases hkind with h | h <;> cases h
      · exact .inl hrec
      · exact .inr hbody
    rcases h with h | h
    · exact hcause _ h (.inl rfl)
    · exact hcause _ h (.inr rfl)

/-- An answer that lists the model and escapes by none has the identifier in the set. -/
theorem succeeds_iff (herror : r.isError = false) (hhtml : r.isHtml lib = false)
    (h : modelIds lib r ≠ .error .typeError) :
    Succeeds lib modelIdentifier r ↔
      ∃ ids, modelIds lib r = .ok ids ∧ ids.any (Value.eqStr modelIdentifier) = true := by
  constructor
  · rintro ⟨-, -, v, hv, hl⟩
    exact (modelIds_of_lists hv hl).resolve_right h
  · rintro ⟨ids, hids, hany⟩
    exact ⟨herror, hhtml, lists_of_modelIds hids hany⟩

end Body

/-- **When the connection test returns an outcome.** For every status, content type and body but
those that raise what `test` does not catch there is an outcome, and it is a success exactly when
the answer is no error and no web page, and its body an object whose `data` is a list of objects,
one of them with the identifier of the model. -/
theorem test_outcome_iff (lib : Libraries) (modelIdentifier : Str) (r : Response) :
    (∃ o, test lib modelIdentifier (.response r) = .ok o ∧
      (o.success = true ↔ Succeeds lib modelIdentifier r)) ↔ ¬ Escapes lib r := by
  have hrefused : r.isError = true ∨ r.isHtml lib = true →
      ¬ Succeeds lib modelIdentifier r ∧ ¬ Escapes lib r := by
    rintro (h | h)
    · exact ⟨fun hs => (by cases h.symm.trans hs.1), fun he => (by cases h.symm.trans he.1)⟩
    · exact ⟨fun hs => (by cases h.symm.trans hs.2.1), fun he => (by cases h.symm.trans he.2.1)⟩
  -- an answer that is refused for its status or its type
  have hfails : ∀ o : ProviderTestOutcome, o.success = false →
      r.isError = true ∨ r.isHtml lib = true →
      ((∃ o', (Except.ok o : Except PyError ProviderTestOutcome) = .ok o' ∧
        (o'.success = true ↔ Succeeds lib modelIdentifier r)) ↔ ¬ Escapes lib r) := by
    intro o ho h
    obtain ⟨hs, he⟩ := hrefused h
    exact ⟨fun _ => he, fun _ => ⟨o, rfl, by simp [ho, hs]⟩⟩
  simp only [test]
  split
  · rename_i hstatus
    refine hfails _ rfl (.inl ?_)
    rcases List.mem_pair.mp hstatus with h | h <;> simp [Response.isError, h]
  split
  · rename_i hstatus
    exact hfails _ rfl (.inl (by simp [Response.isError, hstatus]))
  split
  · rename_i herror
    exact hfails _ rfl (.inl herror)
  rename_i herror
  split
  · rename_i hhtml
    exact hfails _ rfl (.inr hhtml)
  rename_i hhtml
  rw [Bool.not_eq_true] at herror hhtml
  rw [escapes_iff herror hhtml]
  rcases hids : modelIds lib r with e | ids
  · have hnone : e ≠ .typeError → ¬ Succeeds lib modelIdentifier r := by
      intro hne hs
      obtain ⟨ids, h, -⟩ := (succeeds_iff herror hhtml (by rw [hids]; simpa using hne)).mp hs
      cases hids.symm.trans h
    cases e with
    | valueError | attributeError =>
      refine ⟨fun _ h => ?_, fun _ => ⟨_, rfl, fun h => ?_, fun h => ?_⟩⟩
      · rcases h with h | h <;> cases h
      · cases h
      · exact absurd h (hnone (by simp))
    | typeError => exact ⟨fun ⟨_, h, _⟩ => (by cases h), fun h => absurd (.inl rfl) h⟩
    | recursionError => exact ⟨fun ⟨_, h, _⟩ => (by cases h), fun h => absurd (.inr rfl) h⟩
    | keyError | indexError =>
      rcases modelIds_error hids with h | h | ⟨h, -⟩ | ⟨h, -⟩ <;> cases h
  · have hs : Succeeds lib modelIdentifier r ↔ ids.any (Value.eqStr modelIdentifier) = true := by
      rw [succeeds_iff herror hhtml (by rw [hids]; simp), hids]
      exact ⟨fun ⟨ids', h, hany⟩ => Except.ok.inj h ▸ hany, fun hany => ⟨ids, rfl, hany⟩⟩
    rw [hs]
    refine ⟨fun _ h => ?_, fun _ => ?_⟩
    · rcases h with h | h <;> cases h
    · by_cases hany : ids.any (Value.eqStr modelIdentifier) = true
      · refine ⟨_, if_pos hany, ?_⟩
        exact ⟨fun _ => hany, fun _ => rfl⟩
      · refine ⟨_, if_neg hany, ?_⟩
        exact ⟨fun h => (by cases h), fun h => absurd h hany⟩

/-! ## An answer that escapes -/

/-- `{"data":[{"id":"m"},{"id":[]}]}` -/
def listId : Response where
  statusCode := 200
  content := ("\x7b\"data\":[\x7b\"id\":\"m\"\x7d,\x7b\"id\":[]\x7d]\x7d".toList).map
    fun c => c.toNat.toUInt8

/-- Libraries that read it. -/
def reading : Libraries where
  loads _ := .ok (.dict [(lit "data", .list
    [.dict [(lit "id", .str (lit "m"))], .dict [(lit "id", .list [])]])])
  lower s := s
  laxInt _ := none

/-- A model is listed, and another item has a list for its `id`. -/
theorem test_no_outcome :
    ¬ ∀ (lib : Libraries) (modelIdentifier : Str) (r : Response),
      ∃ o, test lib modelIdentifier (.response r) = .ok o ∧
        (o.success = true ↔ Succeeds lib modelIdentifier r) := by
  intro h
  have htest : test reading (lit "m") (.response listId) = .error .typeError := by rfl
  obtain ⟨o, ho, -⟩ := h reading (lit "m") listId
  cases htest.symm.trans ho

end DouyinCaption.ConnectionTest

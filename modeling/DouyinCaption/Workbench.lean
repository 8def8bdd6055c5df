import DouyinCaption.Locks
import DouyinCaption.Sentences
import DouyinCaption.Versions

/-!
# Selections of the workbench

`src/frontend/src/features/workbench/WorkbenchPage.vue`: `addLock` and `run('revision')` first
save the text of the editor as a version where it differs from its parent, then send the
offsets of the selection, counted in code points of the text of the editor, together with the
saved version.

The server strips the content of a manual edit (`ManualEditCreate.content`), so the version it
stores may lack what the offsets were counted past. `selection_kept_iff` says for which
selections the offsets still mean the selected text.
-/

namespace DouyinCaption

open Tables

/-- Why an action of the workbench fails. -/
inductive WorkbenchError where
  /-- 编辑内容改动了保留句，请先取消对应锁定。 -/
  | lockedTextChanged
  /-- the request is refused by its validation -/
  | invalidRequest
  | api (e : ApiError)

/-- The page: the task it shows, the selected version and the text of the editor. -/
structure Workbench where
  member : Uuid
  taskId : Uuid
  /-- `snapshot.locks` -/
  locks : List TextLock
  /-- `selectedVersion` -/
  parent : ScriptVersion
  /-- `editorText` -/
  text : Text

/-- `api.manualEdit` gives this instruction. -/
def manualEditInstruction : BoundedText 2000 := ⟨"成员手工编辑".toList, by decide⟩

/-- `saveEditedVersion`: the version to go on with, and the database after it. -/
def Workbench.saveEditedVersion (cfg : Config) (w : Workbench) (db : Db) (st : Stamp) :
    Except WorkbenchError (Uuid × Db) :=
  if Utf16.encode w.text = Utf16.encode w.parent.content then .ok (w.parent.id, db)
  else if (locateLocks (Utf16.encode w.text) w.locks (some w.parent.id)).length
      ≠ w.locks.length then .error .lockedTextChanged
  else match nonBlankText w.text with
  | none => .error .invalidRequest
  | some content =>
    match handle cfg db w.member st
        (.manualEdit w.taskId w.parent.id ⟨content, some manualEditInstruction⟩) with
    | (db', .ok (.version v)) => .ok (v.id, db')
    | (_, .ok _) => .error .invalidRequest
    | (_, .error e) => .error (.api e)

/-- `selectedRange` of the editor: the selection of the text area in code points. -/
def Workbench.selectedRange (w : Workbench) (selectionStart selectionEnd : ℕ) : ℕ × ℕ :=
  (codePointOffset (Utf16.encode w.text) selectionStart,
    codePointOffset (Utf16.encode w.text) selectionEnd)

/-- `addLock` of a selection. Between its two requests others may be served. -/
def Workbench.addLock (cfg : Config) (w : Workbench) (db : Db) (others : Db → Db)
    (st st' : Stamp) (selectionStart selectionEnd : ℕ) :
    Except WorkbenchError (LockedFragmentView × Db) := do
  let (versionId, db₁) ← w.saveEditedVersion cfg db st
  let (start, stop) := w.selectedRange selectionStart selectionEnd
  if h : start < stop then
    match handle cfg (others db₁) w.member st'
        (.createLock w.taskId versionId ⟨start, stop, none, h⟩) with
    | (db', .ok (.lock l)) => .ok (l, db')
    | (_, .ok _) => .error .invalidRequest
    | (_, .error e) => .error (.api e)
  else .error .invalidRequest

/-- `run('revision')` of a selection: the parent version it sends, and the database once the
operation is accepted. -/
def Workbench.revise (cfg : Config) (w : Workbench) (db : Db) (others : Db → Db)
    (st st' : Stamp) (instruction : ShortText 4000) (key requestId : Option Text)
    (selectionStart selectionEnd : ℕ) : Except WorkbenchError (Uuid × Db) := do
  let (versionId, db₁) ← w.saveEditedVersion cfg db st
  let (start, stop) := w.selectedRange selectionStart selectionEnd
  if h : start < stop then
    match handle cfg (others db₁) w.member st' (.submit w.taskId
        (.revision ⟨versionId, .selection ⟨start, stop, h⟩, instruction⟩) key requestId) with
    | (db', .ok (.operation _)) => .ok (versionId, db')
    | (_, .ok _) => .error .invalidRequest
    | (_, .error e) => .error (.api e)
  else .error .invalidRequest

/-- Saving leaves the characters of a stretch of the text where they are. -/
def Workbench.Unmoved (w : Workbench) (start stop : ℕ) : Prop :=
  w.text = w.parent.content ∨ slice (stripWhitespace w.text) start stop = slice w.text start stop

/-! ## What the server stores -/

section Server

variable {cfg : Config} {db db' : Db} {m : Uuid} {st : Stamp} {reply : Reply}

/-- A manual edit that succeeds stores the content of its payload. -/
theorem content_of_manualEdit {taskId versionId : Uuid} {payload : ManualEditCreate}
    {view : VersionView} (hfresh : db.versions.get (st.id 0) = none)
    (h : handle cfg db m st (.manualEdit taskId versionId payload) = (db', .ok (.version view))) :
    ∃ v, db'.versions.get view.id = some v ∧ v.content = payload.content.1 := by
  obtain ⟨parent, task, out, -, -, hf, hc, hr⟩ :=
    complete_of_handle (fun v t => .manualEdit v t payload) rfl (fun _ _ => rfl)
      (fun _ _ => rfl) (fun _ _ he => nomatch he) h
  obtain ⟨_, -, hf⟩ := bind_eq_ok.mp hf
  obtain ⟨_, -, hf⟩ := bind_eq_ok.mp hf
  obtain ⟨_, -, hf⟩ := bind_eq_ok.mp hf
  obtain rfl := Except.ok.inj hf
  have happly := (Db.commit_eq_some.mp hc).1
  simp only [List.foldlM_cons, List.foldlM_nil, Write.apply, Option.bind_eq_bind,
    Option.bind_some] at happly
  obtain ⟨_, ht, hdb⟩ := Option.bind_eq_some_iff.mp happly
  obtain ⟨_, -, rfl⟩ := Option.map_eq_some_iff.mp ht
  obtain rfl := Option.some.inj hdb
  simp only [versionReply] at hr
  split at hr
  · cases hr
  · rename_i v hv
    obtain rfl : v.view = view := Reply.version.inj (Except.ok.inj hr)
    obtain rfl := Option.some.inj ((Table.get_insert_self hfresh).symm.trans hv)
    exact ⟨_, hv, rfl⟩

/-- What a request does leaves the content of every version as it is. -/
theorem content_of_handle {r : Request} {response : Response}
    (h : handle cfg db m st r = (db', response))
    {id : Uuid} {v : ScriptVersion} (hv : db.versions.get id = some v) :
    ∃ v', db'.versions.get id = some v' ∧ v'.content = v.content := by
  obtain ⟨hm, hid⟩ := Table.get_eq_some.mp hv
  rcases commit_of_handle h with rfl | ⟨pd, out, -, -, -, hc, -⟩
  · exact ⟨v, hv, rfl⟩
  · obtain ⟨v', hm', hcore⟩ := Db.version_kept (Db.commit_eq_some.mp hc).1 hm
    refine ⟨v', Table.get_eq_some.mpr ⟨hm', ?_⟩, ScriptVersion.content_of_core hcore⟩
    exact (ScriptVersion.id_of_core hcore).trans hid

end Server

/-! ## Selections -/

section Selections

variable {cfg : Config} {w : Workbench} {db : Db} {others : Db → Db} {st st' : Stamp}

/-- The saved version has the content of the parent where nothing was edited, and the stripped
text otherwise. -/
theorem Workbench.content_of_saveEditedVersion {versionId : Uuid} {db₁ : Db}
    (hparent : db.versions.get w.parent.id = some w.parent)
    (hfresh : db.versions.get (st.id 0) = none)
    (h : w.saveEditedVersion cfg db st = .ok (versionId, db₁)) :
    ∃ v, db₁.versions.get versionId = some v ∧
      v.content = if w.text = w.parent.content then w.text else stripWhitespace w.text := by
  rw [saveEditedVersion] at h
  split at h
  · rename_i he
    obtain ⟨rfl, rfl⟩ := Prod.mk.inj (Except.ok.inj h)
    have he := Utf16.encode_injective he
    exact ⟨w.parent, hparent, by rw [if_pos he, he]⟩
  · rename_i hne
    split at h
    · cases h
    · split at h
      · cases h
      · rename_i content hcontent
        split at h
        · rename_i db' v hhandle
          obtain ⟨rfl, rfl⟩ := Prod.mk.inj (Except.ok.inj h)
          obtain ⟨row, hrow, hc⟩ := content_of_manualEdit hfresh hhandle
          refine ⟨row, hrow, hc.trans ?_⟩
          rw [if_neg fun he => hne (by rw [he])]
          rw [nonBlankText] at hcontent
          split at hcontent
          · cases hcontent
          · rw [← Option.some.inj hcontent]
        · cases h
        · cases h

/-- The selection of the text area, in code points. -/
theorem Workbench.selectedRange_offset {start stop : ℕ} (hle : start ≤ stop)
    (hstop : stop ≤ w.text.length) :
    w.selectedRange (Utf16.offset w.text start) (Utf16.offset w.text stop) = (start, stop) := by
  rw [selectedRange, codePointOffset_encode _ (hle.trans hstop), codePointOffset_encode _ hstop]

/-- In the saved version the range has the selected characters exactly where saving has not
moved them. -/
theorem Workbench.slice_eq_iff {content : Text} {start stop : ℕ}
    (hc : content = if w.text = w.parent.content then w.text else stripWhitespace w.text) :
    slice content start stop = slice w.text start stop ↔ w.Unmoved start stop := by
  rw [Unmoved]
  by_cases he : w.text = w.parent.content
  · rw [if_pos he] at hc
    simp [hc, he]
  · rw [if_neg he] at hc
    simp [hc, he]

/-- **Which texts no selection can miss.** -/
theorem Workbench.unmoved_iff :
    (∀ start stop, start < stop → stop ≤ w.text.length → w.Unmoved start stop) ↔
      w.text = w.parent.content ∨ stripWhitespace w.text = w.text := by
  constructor
  · intro h
    by_cases he : w.text = w.parent.content
    · exact .inl he
    · refine .inr ?_
      rcases hlen : w.text.length with _ | n
      · rw [List.length_eq_zero_iff.mp hlen]
        rfl
      · -- the selection of the whole text
        have hall := (h 0 w.text.length (by omega) le_rfl).resolve_left he
        have hshort : (stripWhitespace w.text).length ≤ w.text.length :=
          (List.rdropWhile_prefix _ _).length_le.trans (List.dropWhile_suffix _).length_le
        rwa [slice, slice, List.drop_zero, List.drop_zero, List.take_of_length_le hshort,
          List.take_length] at hall
  · rintro (he | hs) start stop - -
    · exact .inl he
    · exact .inr (by rw [hs])

/-- A selection that is locked: the version it is locked in has the content of the parent or
the stripped text. -/
theorem Workbench.text_of_addLock {start stop : ℕ} {l : LockedFragmentView} {db₂ : Db}
    (hparent : db.versions.get w.parent.id = some w.parent)
    (hfresh : db.versions.get (st.id 0) = none)
    (hothers : ∀ db id v, db.versions.get id = some v →
      ∃ v', (others db).versions.get id = some v' ∧ v'.content = v.content)
    (hlocks : ∀ versionId db₁, w.saveEditedVersion cfg db st = .ok (versionId, db₁) →
      (others db₁).locks.get (st'.id 0) = none)
    (hle : start ≤ stop) (hstop : stop ≤ w.text.length)
    (h : w.addLock cfg db others st st' (Utf16.offset w.text start)
      (Utf16.offset w.text stop) = .ok (l, db₂)) :
    ∃ lock content, db₂.locks.get l.id = some lock ∧ lock.text = slice content start stop ∧
      content = if w.text = w.parent.content then w.text else stripWhitespace w.text := by
  obtain ⟨⟨versionId, db₁⟩, hsave, h⟩ := bind_eq_ok.mp h
  simp only [selectedRange_offset hle hstop] at h
  split at h
  swap
  · cases h
  split at h
  · rename_i db' l' hhandle
    obtain ⟨rfl, rfl⟩ := Prod.mk.inj (Except.ok.inj h)
    obtain ⟨v, hv, hcontent⟩ := content_of_saveEditedVersion hparent hfresh hsave
    obtain ⟨v', hv', hsame⟩ := hothers db₁ versionId v hv
    obtain ⟨v'', lock, hv'', hid, -, htext, -, rfl, hview⟩ := lock_of_createLock hhandle
    have hlock : ((others db₁).locks.insert lock).get lock.id = some lock := by
      refine Table.get_insert_self ?_
      rw [show Keyed.key lock = st'.id 0 from hid]
      exact hlocks versionId db₁ hsave
    obtain rfl := Option.some.inj (hv'.symm.trans hv'')
    exact ⟨lock, v'.content, hview ▸ hlock, htext, hsame.trans hcontent⟩
  · cases h
  · cases h

/-- A selection that is sent for a revision: the same for the stored parent version. -/
theorem Workbench.content_of_revise {instruction : ShortText 4000}
    {key requestId : Option Text} {start stop : ℕ} {versionId : Uuid} {db₂ : Db}
    (hparent : db.versions.get w.parent.id = some w.parent)
    (hfresh : db.versions.get (st.id 0) = none)
    (hothers : ∀ db id v, db.versions.get id = some v →
      ∃ v', (others db).versions.get id = some v' ∧ v'.content = v.content)
    (hle : start ≤ stop) (hstop : stop ≤ w.text.length)
    (h : w.revise cfg db others st st' instruction key requestId (Utf16.offset w.text start)
      (Utf16.offset w.text stop) = .ok (versionId, db₂)) :
    ∃ v, db₂.versions.get versionId = some v ∧
      v.content = if w.text = w.parent.content then w.text else stripWhitespace w.text := by
  obtain ⟨⟨versionId', db₁⟩, hsave, h⟩ := bind_eq_ok.mp h
  simp only [selectedRange_offset hle hstop] at h
  split at h
  swap
  · cases h
  split at h
  · rename_i db' o hhandle
    obtain ⟨rfl, rfl⟩ := Prod.mk.inj (Except.ok.inj h)
    obtain ⟨v, hv, hcontent⟩ := content_of_saveEditedVersion hparent hfresh hsave
    obtain ⟨v', hv', hsame⟩ := hothers db₁ versionId' v hv
    obtain ⟨v'', hv'', hsame'⟩ := content_of_handle hhandle hv'
    exact ⟨v'', hv'', hsame'.trans (hsame.trans hcontent)⟩
  · cases h
  · cases h

end Selections

/-- **What the member selects is what gets locked or revised exactly where saving leaves the
selection in place.** The stored lock has the selected text, and the range sent for a revision
denotes it in the stored parent version, if and only if the text of the editor is that of its
parent or stripping it leaves the selected characters at their offsets. A text that is its
parent's or has no space at its ends does so for every selection, and no other text does. -/
theorem selection_kept_iff (cfg : Config) (w : Workbench) (db : Db) (others : Db → Db)
    (st st' : Stamp) (hparent : db.versions.get w.parent.id = some w.parent)
    (hfresh : db.versions.get (st.id 0) = none)
    (hothers : ∀ db id v, db.versions.get id = some v →
      ∃ v', (others db).versions.get id = some v' ∧ v'.content = v.content)
    (hlocks : ∀ versionId db₁, w.saveEditedVersion cfg db st = .ok (versionId, db₁) →
      (others db₁).locks.get (st'.id 0) = none) :
    (∀ start stop, start < stop → stop ≤ w.text.length →
      (∀ l db₂, w.addLock cfg db others st st' (Utf16.offset w.text start)
          (Utf16.offset w.text stop) = .ok (l, db₂) →
        ∃ lock, db₂.locks.get l.id = some lock ∧
          (lock.text = slice w.text start stop ↔ w.Unmoved start stop)) ∧
      (∀ instruction key requestId versionId db₂,
        w.revise cfg db others st st' instruction key requestId (Utf16.offset w.text start)
          (Utf16.offset w.text stop) = .ok (versionId, db₂) →
        ∃ v, db₂.versions.get versionId = some v ∧
          (slice v.content start stop = slice w.text start stop ↔ w.Unmoved start stop))) ∧
    ((∀ start stop, start < stop → stop ≤ w.text.length → w.Unmoved start stop) ↔
      w.text = w.parent.content ∨ stripWhitespace w.text = w.text) := by
  refine ⟨fun start stop hlt hstop => ⟨?_, ?_⟩, w.unmoved_iff⟩
  · intro l db₂ h
    obtain ⟨lock, content, hlock, htext, hcontent⟩ :=
      w.text_of_addLock hparent hfresh hothers hlocks hlt.le hstop h
    exact ⟨lock, hlock, htext ▸ w.slice_eq_iff hcontent⟩
  · intro instruction key requestId versionId db₂ h
    obtain ⟨v, hv, hcontent⟩ := w.content_of_revise hparent hfresh hothers hlt.le hstop h
    exact ⟨v, hv, w.slice_eq_iff hcontent⟩

namespace Sample

/-- The page with that version and an edited text. -/
def page (text : Text) : Workbench := ⟨1, 10, [], firstDraft, text⟩

/-- The text of the lock that `addLock` stores. -/
def lockText (w : Workbench) (start stop : ℕ) : Option Text :=
  match w.addLock Sys.Sample.cfg edited id ⟨1, [20]⟩ ⟨2, [30]⟩ start stop with
  | .ok (l, db) => (db.locks.get l.id).map LockedFragment.text
  | .error _ => none

theorem exists_of_lockText {w : Workbench} {start stop : ℕ} {t : Text}
    (h : lockText w start stop = some t) :
    ∃ l db₂ lock, w.addLock Sys.Sample.cfg edited id ⟨1, [20]⟩ ⟨2, [30]⟩ start stop = .ok (l, db₂) ∧
      db₂.locks.get l.id = some lock ∧ lock.text = t := by
  rw [lockText] at h
  split at h
  · rename_i l db₂ hok
    obtain ⟨lock, hlock, ht⟩ := Option.map_eq_some_iff.mp h
    exact ⟨l, db₂, lock, hok, hlock, ht⟩
  · cases h

theorem locks_of_save (versionId : Uuid) (db₁ : Db)
    (h : (page "xabc".toList).saveEditedVersion Sys.Sample.cfg edited ⟨1, [20]⟩
      = .ok (versionId, db₁)) : db₁.locks.get 30 = none := by
  have hsave : (page "xabc".toList).saveEditedVersion Sys.Sample.cfg edited ⟨1, [20]⟩
      = .ok (20, _) := rfl
  obtain ⟨-, rfl⟩ := Prod.mk.inj (Except.ok.inj (h.symm.trans hsave))
  rfl

end Sample

/-- A selection of an edited text without space at its ends is locked as it is. -/
theorem selection_kept_iff_trimmed : ∃ l db₂ lock,
    (Sample.page "xabc".toList).addLock Sys.Sample.cfg Sample.edited id ⟨1, [20]⟩ ⟨2, [30]⟩ 1 3
      = .ok (l, db₂) ∧ db₂.locks.get l.id = some lock ∧ lock.text = "ab".toList := by
  obtain ⟨l, db₂, lock, hok, hlock, -⟩ :=
    Sample.exists_of_lockText
      (show Sample.lockText (Sample.page "xabc".toList) 1 3 = some "ab".toList by decide)
  obtain ⟨hrange, htrimmed⟩ := selection_kept_iff Sys.Sample.cfg (Sample.page "xabc".toList)
    Sample.edited id ⟨1, [20]⟩ ⟨2, [30]⟩ rfl rfl (fun _ _ v hv => ⟨v, hv, rfl⟩)
    Sample.locks_of_save
  obtain ⟨lock', hlock', hiff⟩ := (hrange 1 3 (by decide) (by decide)).1 l db₂ hok
  obtain rfl := Option.some.inj (hlock.symm.trans hlock')
  exact ⟨l, db₂, lock, hok, hlock,
    hiff.mpr (htrimmed.mpr (.inr (by decide)) 1 3 (by decide) (by decide))⟩

/-- Saving strips the text " abc", and the selected "ab" is locked as "bc". -/
theorem selection_moved :
    ¬ ∀ (w : Workbench) (start stop : ℕ), start < stop → stop ≤ w.text.length →
      Sample.edited.versions.get w.parent.id = some w.parent → ∀ l db₂ lock,
        w.addLock Sys.Sample.cfg Sample.edited id ⟨1, [20]⟩ ⟨2, [30]⟩
          (Utf16.offset w.text start) (Utf16.offset w.text stop) = .ok (l, db₂) →
        db₂.locks.get l.id = some lock → lock.text = slice w.text start stop := by
  intro h
  obtain ⟨l, db₂, lock, hok, hlock, ht⟩ :=
    Sample.exists_of_lockText
      (show Sample.lockText (Sample.page " abc".toList) 1 3 = some "bc".toList by decide)
  have hsame := h (Sample.page " abc".toList) 1 3 (by decide) (by decide) rfl l db₂ lock hok hlock
  rw [ht] at hsame
  revert hsame
  decide

end DouyinCaption

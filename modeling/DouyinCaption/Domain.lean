import Mathlib.Data.List.DropRight
import Mathlib.Data.List.Sort
import DouyinCaption.Library.Occurrences

/-!
# The task workflow

`app/modules/tasks/domain.py`: the states of a rewriting task and the transitions between
them, the kinds and statuses of AI operations, and the check of the member's locked texts.

A Python string is modelled as the list of its code points, so that `len`, slices and
`find` are the list operations; an identifier (`UUID`) is a number.
-/

namespace DouyinCaption

/-- A Python string: its code points. -/
abbrev Text : Type := List Char

instance : LawfulBEq Text := inferInstance

/-- An identifier drawn by `uuid4`. -/
abbrev Uuid : Type := ℕ

/-! ## Text -/

/-- The code points `str.isspace` accepts. -/
def isSpace (c : Char) : Bool :=
  let n := c.toNat
  (9 ≤ n && n ≤ 13) || (28 ≤ n && n ≤ 32) || n == 0x85 || n == 0xa0 || n == 0x1680 ||
    (0x2000 ≤ n && n ≤ 0x200a) || n == 0x2028 || n == 0x2029 || n == 0x202f || n == 0x205f ||
    n == 0x3000

/-- The characters with the property White_Space, which the validation library strips. It lacks
four that `str.isspace` accepts, the separators U+001C to U+001F. -/
def isWhiteSpace (c : Char) : Bool :=
  let n := c.toNat
  (9 ≤ n && n ≤ 13) || n == 32 || n == 0x85 || n == 0xa0 || n == 0x1680 ||
    (0x2000 ≤ n && n ≤ 0x200a) || n == 0x2028 || n == 0x2029 || n == 0x202f || n == 0x205f ||
    n == 0x3000

/-- A text without the characters of a kind at its ends. -/
def stripBy (p : Char → Bool) (s : Text) : Text :=
  ((s.dropWhile p).reverse.dropWhile p).reverse

/-- `str.strip`. -/
def strip (s : Text) : Text := stripBy isSpace s

/-- What `strip_whitespace=True` makes of a text. -/
def stripWhitespace (s : Text) : Text := stripBy isWhiteSpace s

section Strip

variable {p : Char → Bool} (s : Text)

theorem stripBy_eq : stripBy p s = (s.dropWhile p).rdropWhile p := rfl

theorem strip_eq : strip s = (s.dropWhile isSpace).rdropWhile isSpace := rfl

/-- Stripping a stripped text changes nothing. -/
theorem stripBy_stripBy : stripBy p (stripBy p s) = stripBy p s := by
  have hfront : (stripBy p s).dropWhile p = stripBy p s := by
    refine List.dropWhile_eq_self_iff.mpr fun hl => ?_
    -- the front of a stripped text is the front of a text without space in front
    have hprefix : stripBy p s <+: s.dropWhile p := List.rdropWhile_prefix _ _
    have hlong : 0 < (s.dropWhile p).length := hl.trans_le hprefix.length_le
    have hhead : (stripBy p s)[0] = (s.dropWhile p)[0] := hprefix.getElem hl
    have hself := List.dropWhile_eq_self_iff.mp (List.dropWhile_idempotent p s) hlong
    simpa [hhead] using hself
  rw [stripBy_eq (stripBy p s), hfront, stripBy_eq, List.rdropWhile_idempotent]

/-- Stripping makes no text longer. -/
theorem length_stripBy_le : (stripBy p s).length ≤ s.length :=
  (List.rdropWhile_prefix _ _).length_le.trans (List.dropWhile_suffix _).length_le

/-- A text that stripping leaves nothing of. -/
theorem stripBy_eq_nil_iff : stripBy p s = [] ↔ ∀ c ∈ s, p c = true := by
  rw [stripBy_eq, List.rdropWhile_eq_nil_iff]
  constructor
  · intro h c hc
    rw [← List.takeWhile_append_dropWhile (p := p) (l := s)] at hc
    rcases List.mem_append.mp hc with hc | hc
    · exact List.mem_takeWhile_imp hc
    · exact h c hc
  · intro h c hc
    exact h c ((List.dropWhile_suffix _).subset hc)

end Strip

/-- `value or None` for an optional text: blank becomes `None`. -/
def orNone (s : Text) : Option Text := if s = [] then none else some s

/-- `value or default` for a text. -/
def orElse (s default : Text) : Text := if s = [] then default else s

/-! ## Exceptions -/

/-- `if not c: raise e` -/
def ensure {ε : Type} (c : Prop) [Decidable c] (e : ε) : Except ε Unit :=
  if c then .ok () else .error e

theorem ensure_eq_ok {ε : Type} {c : Prop} [Decidable c] {e : ε} {u : Unit} :
    ensure c e = .ok u ↔ c := by
  rw [ensure]
  by_cases h : c <;> simp [h]

/-- A sequence of two computations succeeds where both do. -/
theorem bind_eq_ok {ε α β : Type} {x : Except ε α} {f : α → Except ε β} {b : β} :
    (x >>= f) = .ok b ↔ ∃ a, x = .ok a ∧ f a = .ok b := by
  cases x with
  | error e => exact ⟨fun h => (nomatch h), fun ⟨_, h, _⟩ => (nomatch h)⟩
  | ok a => exact ⟨fun h => ⟨a, rfl, h⟩, fun ⟨_, h, hf⟩ => Except.ok.inj h ▸ hf⟩

/-- A property that a function hands on from each argument to its value, a comprehension hands
on from list to list. -/
theorem map_of_mapM_ok {ε α β γ : Type} {f : α → Except ε β} {g : α → γ} {g' : β → γ}
    (hf : ∀ {a b}, f a = .ok b → g' b = g a) {l : List α} :
    ∀ {l' : List β}, l.mapM f = .ok l' → l'.map g' = l.map g := by
  induction l with
  | nil =>
    intro l' h
    obtain rfl := Except.ok.inj h
    rfl
  | cons a l ih =>
    intro l' h
    rw [List.mapM_cons] at h
    obtain ⟨b, hb, h⟩ := bind_eq_ok.mp h
    obtain ⟨rest, hrest, h⟩ := bind_eq_ok.mp h
    obtain rfl := Except.ok.inj h
    rw [List.map_cons, List.map_cons, hf hb, ih hrest]

/-! ## States -/

/-- `TaskState` -/
inductive TaskState where
  | draft
  | analyzing
  | analysisReady
  | suggesting
  | suggestionsReady
  | generating
  | editing
  | revising
  | finalized
  | archived
  deriving DecidableEq, Repr

/-- `VersionKind` -/
inductive VersionKind where
  | firstDraft
  | aiRevision
  | manualEdit
  deriving DecidableEq, Repr

/-- `ValidationStatus` -/
inductive ValidationStatus where
  | notChecked
  | satisfied
  | failed
  deriving DecidableEq, Repr

/-- `SuggestionPriority` -/
inductive SuggestionPriority where
  | primary
  | optional
  deriving DecidableEq, Repr

/-- `SuggestionDecision` -/
inductive SuggestionDecision where
  | pending
  | accepted
  | rejected
  deriving DecidableEq, Repr

/-- `AiOperationKind` -/
inductive AiOperationKind where
  | analysis
  | suggestions
  | firstDraft
  | revision
  deriving DecidableEq, Repr

/-- `AiOperationStatus` -/
inductive AiOperationStatus where
  | queued
  | running
  | succeeded
  | failed
  | cancelled
  deriving DecidableEq, Repr

/-- `ACTIVE_STATUSES`: the operation is queued or running. -/
def AiOperationStatus.isActive : AiOperationStatus → Bool
  | .queued | .running => true
  | .succeeded | .failed | .cancelled => false

/-- The states a task is in while an operation works on it. -/
def TaskState.isRunning : TaskState → Bool
  | .analyzing | .suggesting | .generating | .revising => true
  | _ => false

/-- The state a task waits in for an operation of a kind (`_running_state`). -/
def runningState : AiOperationKind → TaskState
  | .analysis => .analyzing
  | .suggestions => .suggesting
  | .firstDraft => .generating
  | .revision => .revising

@[simp] theorem isRunning_runningState (k : AiOperationKind) :
    (runningState k).isRunning = true := by
  cases k <;> rfl

/-- `_ALLOWED_TRANSITIONS` -/
def allowedTransitions : TaskState → List TaskState
  | .draft => [.analyzing]
  | .analyzing => [.analysisReady, .draft]
  | .analysisReady => [.analyzing, .suggesting]
  | .suggesting => [.suggestionsReady, .analysisReady]
  | .suggestionsReady => [.suggesting, .generating]
  | .generating => [.editing, .suggestionsReady]
  | .editing => [.revising, .finalized]
  | .revising => [.editing]
  | .finalized => [.revising]
  | .archived => []

/-- The exceptions of the workflow, each a `ValueError`. -/
inductive DomainError where
  /-- `InvalidTaskTransition` -/
  | invalidTaskTransition (current target : TaskState)
  /-- `FirstDraftAlreadyExists` -/
  | firstDraftAlreadyExists
  deriving DecidableEq, Repr

/-- `assert_transition` -/
def assertTransition (current target : TaskState) : Except DomainError Unit :=
  if target = .archived ∧ current ≠ .archived then .ok ()
  else if target ∈ allowedTransitions current then .ok ()
  else .error (.invalidTaskTransition current target)

/-- A task that may enter a running state is in none and is not archived. -/
theorem initial_of_assertTransition {s : TaskState} {k : AiOperationKind}
    (h : assertTransition s (runningState k) = .ok ()) :
    s.isRunning = false ∧ s ≠ .archived := by
  cases k <;> cases s <;> first
    | exact ⟨rfl, by decide⟩
    | cases h

/-! ## Locked texts -/

/-- `LockConstraint` -/
structure LockConstraint where
  /-- the text to keep -/
  text : Text
  /-- its place among the locks of the task -/
  orderIndex : ℕ
  deriving DecidableEq

/-- `validate_lock_constraints`: the lock texts `content` misses, repeated occurrences
counted. The locks are searched in the order of their indices, one cursor for each text. -/
def validateLockConstraints (content : Text) (locks : List LockConstraint) : List Text :=
  (Occurrences.scan content LockConstraint.text
    (locks.insertionSort fun a b => a.orderIndex ≤ b.orderIndex)).missing.map
      LockConstraint.text

/-- The specification both lock checks are held against: every text occurs, disjointly, at
least as often as it is locked. -/
def Honours (content : Text) (locked : List Text) : Prop :=
  ∀ t : Text, Occurrences.HasOccurrences content t (locked.count t)

/-- A content that misses no lock honours the locks. -/
theorem honours_of_validateLockConstraints {content : Text} {locks : List LockConstraint}
    (h : validateLockConstraints content locks = []) :
    Honours content (locks.map LockConstraint.text) := by
  intro t
  have hscan := Occurrences.scan_sound (List.map_eq_nil_iff.mp h) t
  have hperm := (List.perm_insertionSort (fun a b : LockConstraint => a.orderIndex ≤ b.orderIndex)
    locks).map LockConstraint.text
  rwa [hperm.count_eq] at hscan

/-- The check misses nothing exactly where the content honours the locks. -/
theorem validateLockConstraints_eq_nil {content : Text} {locks : List LockConstraint} :
    validateLockConstraints content locks = [] ↔
      Honours content (locks.map LockConstraint.text) := by
  refine ⟨honours_of_validateLockConstraints, fun h => List.map_eq_nil_iff.mpr ?_⟩
  refine Occurrences.scan_missing_iff.mpr fun t => ?_
  have hperm := (List.perm_insertionSort (fun a b : LockConstraint => a.orderIndex ≤ b.orderIndex)
    locks).map LockConstraint.text
  rw [hperm.count_eq]
  exact h t

end DouyinCaption

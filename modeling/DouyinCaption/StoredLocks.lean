import DouyinCaption.Artefacts
import DouyinCaption.Executing
import DouyinCaption.Locks
import DouyinCaption.Versions

/-!
# Stored locks

What holds of the locks that are stored, in every run: each is a piece of a version of its task
(`LockedFragment.Of`), two locks of one version do not overlap, and the locks of a task are
numbered apart, a new one after all that are there (`stored_locks`).

Locks are made and dropped under the row lock of their task, by `create_lock` and `delete_lock`
(`locks_of_move`). What a lock says of its version stays true because versions are never changed
but for being final.
-/

namespace DouyinCaption

open Tables Runs

/-! ## One lock -/

/-- A lock is a piece of a version of its task. -/
structure LockedFragment.Of (l : LockedFragment) (v : ScriptVersion) : Prop where
  version : v.id = l.sourceVersionId
  task : v.taskId = l.taskId
  range : l.startOffset < l.endOffset
  inside : l.endOffset ≤ v.content.length
  text : l.text = slice v.content l.startOffset l.endOffset

/-- A lock is of a version by what an edit never changes. -/
theorem LockedFragment.Of.of_core {l : LockedFragment} {u v : ScriptVersion} (h : l.Of v)
    (hcore : u.core = v.core) : l.Of u where
  version := (ScriptVersion.id_of_core hcore).trans h.version
  task := (ScriptVersion.taskId_of_core hcore).trans h.task
  range := h.range
  inside := (ScriptVersion.content_of_core hcore) ▸ h.inside
  text := (ScriptVersion.content_of_core hcore) ▸ h.text

/-- Two locks do not overlap; they may touch. -/
def LockedFragment.Apart (l k : LockedFragment) : Prop :=
  l.endOffset ≤ k.startOffset ∨ k.endOffset ≤ l.startOffset

theorem LockedFragment.Apart.symm {l k : LockedFragment} (h : l.Apart k) : k.Apart l := Or.symm h

/-- What a new lock is, beside the locks that are there. -/
structure LockedFragment.New (l : LockedFragment) (db : Db) (version : ScriptVersion)
    (task : RewriteTask) : Prop where
  taskId : l.taskId = task.id
  versionId : l.sourceVersionId = version.id
  range : l.startOffset < l.endOffset
  inside : l.endOffset ≤ version.content.length
  text : l.text = slice version.content l.startOffset l.endOffset
  apart : ∀ k ∈ db.locks, k.taskId = task.id → k.sourceVersionId = version.id → k.Apart l
  order : l.orderIndex = db.nextOrder task.id

/-- What `create_lock` makes. -/
theorem new_of_finishCreateLock {db : Db} {st : Stamp} {version : ScriptVersion}
    {task : RewriteTask} {payload : LockedFragmentCreate} {out : Outcome}
    (h : finishCreateLock db st version task payload = .ok out) :
    ∃ l : LockedFragment, l.New db version task ∧ out.writes = [.addLock l] := by
  obtain ⟨_, -, h⟩ := bind_eq_ok.mp h
  split at h
  · cases h
  rename_i text htext
  obtain ⟨_, hranges, h⟩ := bind_eq_ok.mp h
  obtain rfl := Except.ok.inj h
  rw [selectedText] at htext
  split at htext
  · cases htext
  rename_i hinside
  refine ⟨_, ⟨rfl, rfl, payload.order, ?_, (Option.some.inj htext).symm, ?_, rfl⟩, rfl⟩
  · exact Nat.le_of_not_lt fun hlt => hinside (.inr hlt)
  · intro k hk htask hversion
    have hall := ensure_eq_ok.mp hranges
    rw [noOverlappingRange, Bool.not_eq_true', List.any_eq_false] at hall
    have hone := hall (k.startOffset, k.endOffset) (List.mem_map.mpr
      ⟨k, Table.mem_select.mpr ⟨hk, by simp [htask, hversion]⟩, rfl⟩)
    simp only [Bool.and_eq_true, decide_eq_true_eq, not_and_or, Nat.not_lt] at hone
    exact hone.imp id id

/-- The maximum of a fold bounds every member. -/
theorem le_foldl_max {k : ℕ} : ∀ {ns : List ℕ} {n : ℕ}, k ∈ n :: ns → k ≤ ns.foldl max n
  | [], n, h => (List.mem_singleton.mp h).le
  | m :: ns, n, h => by
      rw [List.foldl_cons]
      rcases List.mem_cons.mp h with rfl | h
      · exact (le_max_left k m).trans (le_foldl_max List.mem_cons_self)
      · rcases List.mem_cons.mp h with rfl | h
        · exact (le_max_right n k).trans (le_foldl_max List.mem_cons_self)
        · exact le_foldl_max (List.mem_cons_of_mem _ h)

/-- The number of a new lock is larger than those of the task. -/
theorem Db.lt_nextOrder {db : Db} {taskId : Uuid} {k : LockedFragment} (hk : k ∈ db.locks)
    (htask : k.taskId = taskId) : k.orderIndex < db.nextOrder taskId := by
  have hmem : k.orderIndex ∈
      (db.locks.select fun l => l.taskId = taskId).map LockedFragment.orderIndex :=
    List.mem_map_of_mem (Table.mem_select.mpr ⟨hk, by simp [htask]⟩)
  rw [Db.nextOrder]
  split
  · rename_i hnil
    rw [hnil] at hmem
    cases hmem
  · rename_i n ns hcons
    rw [hcons] at hmem
    exact Nat.lt_succ_of_le (le_foldl_max hmem)

/-! ## How locks change -/

/-- The statement makes or drops a lock. -/
def Write.onLocks : Write → Bool
  | .addLock _ | .dropLock .. => true
  | _ => false

/-- Statements that touch no lock keep the locks. By induction on the list. -/
theorem Db.locks_of_foldlM {ws : List Write} : ∀ {db db' : Db},
    ws.foldlM Write.apply db = some db' → (∀ w ∈ ws, w.onLocks = false) →
      db'.locks = db.locks := by
  induction ws with
  | nil =>
    intro db db' h _
    obtain rfl := Option.some.inj h
    rfl
  | cons w ws ih =>
    intro db db' h hw
    rw [List.foldlM_cons] at h
    obtain ⟨db₁, h₁, h₂⟩ := Option.bind_eq_some_iff.mp h
    rw [ih h₂ fun w' hw' => hw w' (List.mem_cons_of_mem _ hw')]
    have hon := hw w List.mem_cons_self
    cases w with
    | addLock | dropLock => cases hon
    | setTask | setAnalysis | decide | setFinal | setOperation | setPreset =>
      obtain ⟨_, -, rfl⟩ := Option.map_eq_some_iff.mp h₁
      rfl
    | _ =>
      obtain rfl := Option.some.inj h₁
      rfl

theorem Write.onLocks_of_onStates {w : Write} (h : w.OnStates) : w.onLocks = false := by
  cases w <;> first
    | rfl
    | exact h.elim

theorem Stores.onLocks {db : Db} {taskId : Uuid} {st : Stamp} {result : ServiceResult}
    {prep : Prepared} {ws : List Write} (h : Stores db taskId st result prep ws) :
    ∀ w ∈ ws, w.onLocks = false := by
  cases h <;> simp [Write.onLocks]

/-- Only two requests write locks. -/
theorem RequestWrites.onLocks {cfg : Config} {db : Db} {m : Uuid} {st : Stamp} {pd : Pending}
    {ws : List Write} (h : RequestWrites cfg db m st pd ws) :
    (∀ w ∈ ws, w.onLocks = false) ∨
      (∃ version task payload, pd = .createLock version task payload) ∨
      ∃ task lockId, ws = [.dropLock lockId task] := by
  cases h with
  | presets hpd hws =>
    refine .inl fun w hw => ?_
    have hon := hws w hw
    revert hon
    cases w <;> simp [Write.onPresets, Write.onLocks]
  | createLock => exact .inr (.inl ⟨_, _, _, rfl⟩)
  | deleteLock => exact .inr (.inr ⟨_, _, rfl⟩)
  | submit hstate hsnapshot =>
    refine .inl ?_
    rcases hsnapshot with rfl | ⟨a, ds, -, rfl⟩ <;> simp [Write.onLocks]
  | cancelOperation hqueued hreset =>
    exact .inl (forall_cancelWrites hreset rfl fun _ _ => rfl)
  | _ => exact .inl (by simp [storeSnapshot, Write.onLocks])

namespace Sys

variable {cfg : Config} {s s' : Sys} {a : Action}

/-- **How locks change**: one is dropped, or one is made for a version that a request holds. -/
theorem locks_of_move (h : Move cfg s a s') : (∀ l ∈ s'.db.locks, l ∈ s.db.locks) ∨
    ∃ p m r version task payload l, s.procs p = .locked m r (.createLock version task payload) ∧
      l.New s.db version task ∧ s'.db.locks = s.db.locks.insert l := by
  have hsame : s'.db.locks = s.db.locks → (∀ l ∈ s'.db.locks, l ∈ s.db.locks) ∨
      ∃ p m r version task payload l, s.procs p = .locked m r (.createLock version task payload) ∧
        l.New s.db version task ∧ s'.db.locks = s.db.locks.insert l := by
    intro he
    exact .inl fun l hl => he ▸ hl
  cases h with
  | commit hp hids hf hw hc =>
    have hfold := (Db.commit_eq_some.mp hc).1
    rcases (writes_of_finish hf).onLocks with
      hnone | ⟨version, task, payload, rfl⟩ | ⟨task, lockId, hdrop⟩
    · exact hsame (Db.locks_of_foldlM hfold hnone)
    · obtain ⟨l, hnew, hws⟩ := new_of_finishCreateLock hf
      have hlocked := hp.resolve_right fun h => (by cases h.2)
      rw [hws] at hfold
      obtain rfl := Option.some.inj hfold
      exact .inr ⟨_, _, _, version, task, payload, l, hlocked, hnew, rfl⟩
    · rw [hdrop] at hfold
      obtain rfl := Option.some.inj hfold
      exact .inl fun l hl => (Table.mem_delete.mp hl).1
  | settle ha hp hids hn hgo ht hw hc =>
    have hfold := (Db.commit_eq_some.mp hc).1
    refine hsame ?_
    rw [enter_db]
    rcases (writes_of_transaction ht).states_or_result with
      hstates | ⟨e, result, stored, resource, rfl, hstored, rfl⟩
    · exact Db.locks_of_foldlM hfold fun w hw => Write.onLocks_of_onStates (hstates w hw)
    · obtain ⟨db₁, h₁, hrest⟩ := stored_of_successWrites hfold
      exact hrest.locks.trans (Db.locks_of_foldlM h₁ hstored.onLocks)
  | recover he hp hw hc hx =>
    exact hsame (Db.locks_of_foldlM (Db.commit_eq_some.mp hc).1
      fun w hw => Write.onLocks_of_onStates (onStates_of_recover w hw))
  | _ => exact hsame (by simp)

/-- Every lock is a piece of a version of its task, and two of one version do not overlap. -/
structure LocksWf (s : Sys) : Prop where
  of : ∀ l ∈ s.db.locks, ∃ v ∈ s.db.versions, l.Of v
  apart : ∀ l ∈ s.db.locks, ∀ k ∈ s.db.locks, l ≠ k → l.sourceVersionId = k.sourceVersionId →
    l.Apart k

/-- At first there is no lock. -/
theorem LocksWf.of_initial (h : Initial s) : s.LocksWf where
  of := by simp [h.locks]
  apart := by simp [h.locks]

/-- A lock stays a piece of its version. -/
theorem of_kept (h : Move cfg s a s') {l : LockedFragment} (hl : ∃ v ∈ s.db.versions, l.Of v) :
    ∃ v ∈ s'.db.versions, l.Of v := by
  obtain ⟨v, hv, hof⟩ := hl
  obtain ⟨u, hu, hcore⟩ := List.mem_map.mp (mem_cores_of_move h (List.mem_map_of_mem hv))
  exact ⟨u, hu, hof.of_core hcore⟩

/-- The step lemma: only `create_lock` and `delete_lock` touch locks, and a version keeps its
content. -/
theorem LocksWf.move (hl : s.LocksWf) (hv : s.Loaded) (h : Move cfg s a s') : s'.LocksWf := by
  rcases locks_of_move h with hfewer | ⟨p, m, r, version, task, payload, l, hp, hnew, hlocks⟩
  · exact ⟨fun l hm => of_kept h (hl.of l (hfewer l hm)),
      fun l hm k hk => hl.apart l (hfewer l hm) k (hfewer k hk)⟩
  -- the version that the request holds is stored, and one of its task
  obtain ⟨hcore, htask⟩ := hv p m r _ version task (.inr hp) rfl
  obtain ⟨u, hu, hcore⟩ := List.mem_map.mp hcore
  have hofu : l.Of u := LockedFragment.Of.of_core
    ⟨hnew.versionId.symm, htask.trans hnew.taskId.symm, hnew.range, hnew.inside, hnew.text⟩ hcore
  have hbeside : ∀ k ∈ s.db.locks, k.sourceVersionId = l.sourceVersionId → k.Apart l := by
    intro k hk hsource
    obtain ⟨v, hv, hof⟩ := hl.of k hk
    have hsame : v = u := Table.eq_of_key hv hu
      (hof.version.trans (hsource.trans hofu.version.symm))
    refine hnew.apart k hk ?_ (hsource.trans hnew.versionId)
    rw [← hof.task, hsame, hofu.task, hnew.taskId]
  have hmem : ∀ k ∈ s'.db.locks, k ∈ s.db.locks ∨ k = l := fun k hk =>
    Table.mem_of_mem_insert (hlocks ▸ hk)
  refine ⟨fun k hk => ?_, fun k hk j hj hne hsource => ?_⟩
  · rcases hmem k hk with hk | rfl
    · exact of_kept h (hl.of k hk)
    · exact of_kept h ⟨u, hu, hofu⟩
  · rcases hmem k hk with hk | rfl <;> rcases hmem j hj with hj | rfl
    · exact hl.apart k hk j hj hne hsource
    · exact hbeside k hk hsource
    · exact (hbeside j hj hsource.symm).symm
    · exact absurd rfl hne

/-- The run lemma. -/
theorem locksWf {P : Sys → Action → Prop} (hs : Reach (system cfg) P s) : s.LocksWf :=
  hs.invariant (fun _ => LocksWf.of_initial)
    fun _ _ _ hr hl _ h => hl.move (loaded hr) (move_of_step h)

/-- **Stored locks are well-formed** in every run. Each is a non-empty piece of a version of its
task, two of one version do not overlap, and those of one task have different numbers. A lock
that a step makes has a larger number than every lock of its task. -/
theorem stored_locks (cfg : Config) (s : Sys) (hs : Reachable cfg s) :
    (∀ l ∈ s.db.locks, ∃ v ∈ s.db.versions, l.Of v) ∧
    (∀ l ∈ s.db.locks, ∀ k ∈ s.db.locks, l ≠ k → l.sourceVersionId = k.sourceVersionId →
      l.Apart k) ∧
    (∀ l ∈ s.db.locks, ∀ k ∈ s.db.locks, l ≠ k → l.taskId = k.taskId →
      l.orderIndex ≠ k.orderIndex) ∧
    ∀ a s', (system cfg).step s a = some s' → ∀ l ∈ s'.db.locks, l ∉ s.db.locks →
      ∀ k ∈ s.db.locks, k.taskId = l.taskId → k.orderIndex < l.orderIndex := by
  obtain ⟨hof, hapart⟩ := locksWf hs
  refine ⟨hof, hapart, fun l hl k hk hne htask horder => ?_, fun a s' h l hl hnot k hk htask => ?_⟩
  · have hsymm : Std.Symm fun l k : LockedFragment =>
        ¬ (l.taskId = k.taskId ∧ l.orderIndex = k.orderIndex) :=
      ⟨fun _ _ hab hba => hab ⟨hba.1.symm, hba.2.symm⟩⟩
    exact (base hs).consistent.lockOrders.forall hl hk hne ⟨htask, horder⟩
  · rcases locks_of_move (move_of_step h) with
      hfewer | ⟨p, m, r, version, task, payload, new, hp, hnew, hlocks⟩
    · exact absurd (hfewer l hl) hnot
    · rcases Table.mem_of_mem_insert (hlocks ▸ hl) with hl | rfl
      · exact absurd hl hnot
      · rw [hnew.order]
        exact Db.lt_nextOrder hk (htask.trans hnew.taskId)

namespace Sample

/-- The first two letters of the first draft are locked, each on its own. -/
def locked : List Action :=
  drafted ++
    serve 7 11
      (.createLock 10 100 { startOffset := 0, endOffset := 1, order := Nat.zero_lt_one }) ++
    serve 8 12 (.createLock 10 100 { startOffset := 1, endOffset := 2, order := Nat.one_lt_two })

set_option maxRecDepth 16000 in
/-- Two parts of one version are locked, one after the other. -/
theorem run_locked : ((system writer).run start locked).map (fun s =>
    decide (s.db.locks.rows.map (fun l => (l.id, l.startOffset, l.endOffset, l.orderIndex)) =
      [(110, 0, 1, 0), (120, 1, 2, 1)])) = some true := by
  decide

end Sample

/-- The two locks touch, and are pieces of the first draft. -/
theorem stored_locks_touching : ∃ s, Reachable Sample.writer s ∧
    ∃ l ∈ s.db.locks, ∃ k ∈ s.db.locks, l.id = 110 ∧ k.id = 120 ∧ l.endOffset = k.startOffset ∧
      l.orderIndex ≠ k.orderIndex ∧ (∃ v ∈ s.db.versions, l.Of v) ∧
      ∃ v ∈ s.db.versions, k.Of v := by
  obtain ⟨s, hs, hp⟩ := exists_reach_of_run (M := system Sample.writer) (P := fun _ _ => True)
    Sample.initial_start (fun _ _ _ => trivial) Sample.run_locked
  have hrows := of_decide_eq_true hp
  have hreach : Reachable Sample.writer s := hs
  obtain ⟨hof, -⟩ := stored_locks Sample.writer s hreach
  have hmem : ∀ x, x ∈ [((110 : ℕ), (0 : ℕ), (1 : ℕ), (0 : ℕ)), (120, 1, 2, 1)] →
      ∃ l ∈ s.db.locks, (l.id, l.startOffset, l.endOffset, l.orderIndex) = x := by
    intro x hx
    rw [← hrows] at hx
    exact List.mem_map.mp hx
  obtain ⟨l, hl, hlid⟩ := hmem (110, 0, 1, 0) (by simp)
  obtain ⟨k, hk, hkid⟩ := hmem (120, 1, 2, 1) (by simp)
  simp only [Prod.mk.injEq] at hlid hkid
  exact ⟨s, hreach, l, hl, k, hk, hlid.1, hkid.1, by rw [hlid.2.2.1, hkid.2.1],
    by rw [hlid.2.2.2, hkid.2.2.2]; decide, hof l hl, hof k hk⟩

end Sys

end DouyinCaption

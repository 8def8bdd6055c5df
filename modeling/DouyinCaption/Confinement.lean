import DouyinCaption.Owners

/-!
# Members apart

A step is taken for one member at most (`ActsFor`), and leaves the rows of the others as they
are (`members_apart`).
-/

namespace DouyinCaption

open Tables Runs

/-- The operation a job holds. -/
def JobPhase.operation : JobPhase → Option AiOperation
  | .began op _ | .recovering op .. | .reading op .. | .ready op .. => some op
  | .leased e | .checked e | .locked e | .admitted e _ | .claimed e _ | .calling e _
  | .returned e _ | .succeeded e | .failing e _ | .restoring e _ | .restored e .. => some e.op
  | .sweeping _ op => op
  | .created | .leaving .. | .handling _ | .done => none

/-- The operation a job holds is the one it was started for. -/
theorem JobPhase.Wf.operation {opId : Uuid} {known : AiOperation → Prop} {phase : JobPhase}
    (h : phase.Wf opId known) {o : AiOperation} (ho : phase.operation = some o) :
    o.id = opId ∧ known o := by
  cases phase with
  | began | reading | ready =>
    obtain rfl := Option.some.inj ho
    exact ⟨h.1, h.2.1⟩
  | recovering =>
    obtain rfl := Option.some.inj ho
    exact ⟨h.1.1, h.1.2.1⟩
  | restored =>
    obtain rfl := Option.some.inj ho
    exact ⟨h.1.1.1, h.1.1.2.1⟩
  | sweeping => exact h o ho
  | created | leaving | handling | done => cases ho
  | _ =>
    obtain rfl := Option.some.inj ho
    exact ⟨h.1.1, h.1.2.1⟩

/-- A recovery of operations of one member. -/
def Recovers (m : Uuid) (todo : List AiOperation)
    (found : List (AiOperation × Option RewriteTask)) : Prop :=
  (∀ o ∈ todo, o.ownerId = m) ∧ ∀ f ∈ found, f.1.ownerId = m

/-- The next stale operation is loaded with its task. -/
theorem Recovers.load {m : Uuid} {o : AiOperation} {todo : List AiOperation}
    {found : List (AiOperation × Option RewriteTask)} (h : Recovers m (o :: todo) found)
    (task : Option RewriteTask) : Recovers m todo (found ++ [(o, task)]) := by
  refine ⟨fun o' ho' => h.1 o' (List.mem_cons_of_mem _ ho'), fun f hf => ?_⟩
  rcases List.mem_append.mp hf with hf | hf
  · exact h.2 f hf
  · obtain rfl := List.mem_singleton.mp hf
    exact h.1 o List.mem_cons_self

/-- A recovery begins with the stale operations of one owner. -/
theorem recovers_stale (db : Db) (m : Uuid) (now : ℕ) :
    Recovers m (db.staleOperations m now) [] := by
  refine ⟨fun o ho => ?_, fun _ hf => absurd hf List.not_mem_nil⟩
  have hp := (Table.mem_select.mp ho).2
  simp only [Bool.and_eq_true, decide_eq_true_eq] at hp
  exact hp.1

/-! ## Presets -/

/-- A preset comes from one with its identifier and owner, or is added. -/
theorem Write.presets_of_apply {w : Write} {db db' : Db} (h : w.apply db = some db') :
    ∀ p' ∈ db'.presets, (∃ p ∈ db.presets, p.id = p'.id ∧ p.ownerId = p'.ownerId) ∨
      w = .addPreset p' := by
  intro p' hp'
  cases w with
  | addPreset p =>
    obtain rfl := Option.some.inj h
    rcases Table.mem_of_mem_insert hp' with hp' | rfl
    · exact .inl ⟨p', hp', rfl, rfl⟩
    · exact .inr rfl
  | setPreset id name settings now =>
    obtain ⟨_, -, rfl⟩ := Option.map_eq_some_iff.mp h
    have hin : p' ∈ db.presets.update (fun p => p.id = id)
        (CreativePreset.change name settings now) fun _ => rfl := hp'
    obtain ⟨p, hp, rfl⟩ := Table.mem_update.mp hin
    refine .inl ⟨p, hp, ?_⟩
    split <;> exact ⟨rfl, rfl⟩
  | dropPreset id =>
    obtain rfl := Option.some.inj h
    exact .inl ⟨p', (Table.mem_delete.mp hp').1, rfl, rfl⟩
  | setTask | setAnalysis | decide | setFinal | setOperation =>
    obtain ⟨_, -, rfl⟩ := Option.map_eq_some_iff.mp h
    exact .inl ⟨p', hp', rfl, rfl⟩
  | _ =>
    obtain rfl := Option.some.inj h
    exact .inl ⟨p', hp', rfl, rfl⟩

/-- A preset keeps its owner. By induction on the statements. -/
theorem Db.presets_of_foldlM {ws : List Write} : ∀ {db db' : Db},
    ws.foldlM Write.apply db = some db' → ∀ p' ∈ db'.presets,
      (∃ p ∈ db.presets, p.id = p'.id ∧ p.ownerId = p'.ownerId) ∨
        ∃ p, .addPreset p ∈ ws ∧ p.id = p'.id ∧ p.ownerId = p'.ownerId := by
  induction ws with
  | nil =>
    intro db db' h p' hp'
    obtain rfl := Option.some.inj h
    exact .inl ⟨p', hp', rfl, rfl⟩
  | cons w ws ih =>
    intro db db' h p' hp'
    rw [List.foldlM_cons] at h
    obtain ⟨db₁, h₁, h₂⟩ := Option.bind_eq_some_iff.mp h
    rcases ih h₂ p' hp' with ⟨p₁, hp₁, hid₁, howner₁⟩ | ⟨p, hp, hid, howner⟩
    · rcases Write.presets_of_apply h₁ p₁ hp₁ with ⟨p, hp, hid, howner⟩ | rfl
      · exact .inl ⟨p, hp, hid.trans hid₁, howner.trans howner₁⟩
      · exact .inr ⟨p₁, List.mem_cons_self, hid₁, howner₁⟩
    · exact .inr ⟨p, List.mem_cons_of_mem _ hp, hid, howner⟩

/-- A request adds its presets under an identifier it draws. -/
theorem drawn_of_addPreset {cfg : Config} {db : Db} {m : Uuid} {st : Stamp} {pd : Pending}
    {out : Outcome} (h : pd.finish cfg db m st = .ok out) {p : CreativePreset}
    (hp : .addPreset p ∈ out.writes) : p.id = st.id 0 ∧ p.ownerId = m := by
  have hwrites := writes_of_finish h
  generalize hws : out.writes = ws at hwrites hp
  cases hwrites with
  | presets hpd hon =>
    cases pd with
    | createPreset payload =>
      obtain rfl := Except.ok.inj h
      subst hws
      obtain rfl := Write.addPreset.inj (List.mem_singleton.mp hp)
      exact ⟨rfl, rfl⟩
    | updatePreset preset payload =>
      obtain rfl := Except.ok.inj h
      subst hws
      simp only at hp
      split at hp <;> simp at hp
    | deletePreset preset =>
      obtain rfl := Except.ok.inj h
      subst hws
      simp at hp
    | createTask payload =>
      simp only [Pending.finish] at h
      split at h
      · cases h
      · obtain rfl := Except.ok.inj h
        subst hws
        simp at hp
    | copyTask source =>
      simp only [Pending.finish] at h
      split at h
      · cases h
      · obtain rfl := Except.ok.inj h
        subst hws
        simp at hp
    | clearHistory =>
      obtain rfl := Except.ok.inj h
      subst hws
      simp at hp
    | cancelOperation op task =>
      obtain ⟨-, -, hw⟩ := finishCancel_eq_ok h
      rw [hws] at hw
      have hon' := hon (.setQueued op.id (.cancel st.now)) (hw ▸ List.mem_cons_self)
      cases hon'
    | _ => cases hpd
  | submit _ hsnapshot =>
    rcases hsnapshot with rfl | ⟨_, _, -, rfl⟩ <;> simp at hp
  | cancelOperation _ hreset =>
    rw [hreset] at hp
    rcases List.mem_cons.mp hp with hp | hp
    · cases hp
    · split at hp
      · split at hp <;> simp at hp
      · cases hp
  | _ => simp [storeSnapshot] at hp

/-- A job adds none. -/
theorem JobWrites.addPreset {db : Db} {st : Stamp} {opId : Uuid} {phase : JobPhase}
    {ws : List Write} (h : JobWrites db st opId phase ws) (p : CreativePreset) :
    .addPreset p ∉ ws := by
  intro hp
  rcases h.states_or_result with hon | ⟨e, result, stored, resource, -, hstored, rfl⟩
  · exact hon _ hp
  · rcases List.mem_append.mp hp with hp | hp
    · generalize e.prepared = prepared at hstored
      cases hstored <;> simp at hp
    · simp at hp

namespace Sys

variable {cfg : Config} {s s' : Sys} {a : Action}

/-- A preset of a later state has been there, or has a fresh identifier. -/
theorem presets_of_move (h : Move cfg s a s') : ∀ p' ∈ s'.db.presets,
    (∃ p ∈ s.db.presets, p.id = p'.id ∧ p.ownerId = p'.ownerId) ∨
      p'.id ∉ s.used ∧ p'.id ∈ s'.used := by
  intro p' hp'
  have hold : s'.db.presets = s.db.presets →
      ∃ p ∈ s.db.presets, p.id = p'.id ∧ p.ownerId = p'.ownerId :=
    fun e => ⟨p', e ▸ hp', rfl, rfl⟩
  cases h with
  | commit hp hids hf hw hc =>
    rename_i ids _ _ _ _ _
    refine (Db.presets_of_foldlM (Db.commit_eq_some.mp hc).1 p' hp').imp_right ?_
    rintro ⟨p, hmem, hid, -⟩
    obtain ⟨hdrawn, -⟩ := drawn_of_addPreset hf hmem
    obtain ⟨hlen, -, hfresh⟩ := hids
    have hin : Stamp.id ⟨s.now, ids⟩ 0 ∈ ids := Stamp.id_mem (by omega)
    rw [← hid, hdrawn]
    exact ⟨hfresh _ hin, List.mem_append_left _ hin⟩
  | settle ha hp hids hn hgo ht hw hc =>
    rw [enter_db] at hp'
    refine .inl ((Db.presets_of_foldlM (Db.commit_eq_some.mp hc).1 p' hp').resolve_right ?_)
    rintro ⟨p, hmem, -⟩
    exact (writes_of_transaction ht).addPreset p hmem
  | recover he hp hw hc hx =>
    refine .inl ((Db.presets_of_foldlM (Db.commit_eq_some.mp hc).1 p' hp').resolve_right ?_)
    rintro ⟨p, hmem, -⟩
    exact onStates_of_recover _ hmem
  | _ => exact .inl (hold (by simp))

/-! ## What the processes hold is one member's -/

/-- What every process holds is one member's. -/
structure Apart (s : Sys) : Prop where
  /-- an operation is one of its owner's tasks -/
  operations : s.Recalls fun o => s.Knows o ∧ s.db.owns o.ownerId o.taskId = true
  /-- a job recovers operations of the owner of its own -/
  jobs : ∀ p opId op task todo found, s.procs p = .job opId (.recovering op task todo found) →
    Recovers op.ownerId todo found
  /-- a tick recovers operations of one owner -/
  ticks : ∀ p worker rest todo found, s.procs p = .tick worker (.recovering rest todo found) →
    ∃ m, Recovers m todo found
  /-- presets have drawn identifiers -/
  drawn : ∀ p ∈ s.db.presets, p.id ∈ s.used
  /-- the preset a request holds is its member's -/
  presets : ∀ q m r pd preset, s.procs q = .opened m r pd → pd.preset = some preset →
    preset.id ∈ s.used ∧ ∀ p ∈ s.db.presets, p.id = preset.id → p.ownerId = m

/-- At first there is nothing to keep apart. -/
theorem Apart.of_initial (h : Initial s) : s.Apart where
  operations := ⟨by simp [h.operations], fun p opId phase hp => by simp [h.procs] at hp,
    fun p worker phase hp => by simp [h.procs] at hp,
    fun p m r op task hp => by simp [h.procs] at hp⟩
  jobs := fun p opId op task todo found hp => by simp [h.procs] at hp
  ticks := fun p worker rest todo found hp => by simp [h.procs] at hp
  drawn := by simp [h.presets]
  presets := fun q m r pd preset hp => by simp [h.procs] at hp

/-- Whose a task is stays. -/
theorem owns_of_move (h : Move cfg s a s') {m taskId : Uuid} (howns : s.db.owns m taskId = true) :
    s'.db.owns m taskId = true := by
  obtain ⟨t, ht, hid, howner⟩ := Db.owns_iff.mp howns
  obtain ⟨t', ht', hid', howner'⟩ := task_kept h ht
  exact Db.owns_iff.mpr ⟨t', ht', hid'.trans hid, howner'.trans howner⟩

/-- The task of a request is its member's. -/
theorem Holding.owns (hh : s.Holding cfg) {q : ℕ} {m : Uuid} {r : Request} {pd : Pending}
    {t : RewriteTask} (hq : s.procs q = .opened m r pd ∨ s.procs q = .locked m r pd)
    (ht : pd.task = some t) : s.db.owns m t.id = true := by
  rcases hq with hq | hq
  · obtain ⟨t', hm, hid, howner⟩ := task_of_asked (hh.opened q m r pd hq) ht
    exact Db.owns_iff.mpr ⟨t', hm, hid, howner⟩
  · obtain ⟨pd₀, db, hasked, rfl⟩ := hh.locked q m r pd hq
    obtain ⟨t₀, ht₀, hid₀⟩ := refresh_task ht
    obtain ⟨t', hm, hid, howner⟩ := task_of_asked hasked ht₀
    exact Db.owns_iff.mpr ⟨t', hm, hid.trans hid₀.symm, howner⟩

/-- A submission is its member's. -/
theorem Holding.submission (hh : s.Holding cfg) {q : ℕ} {m : Uuid} {r : Request} {sub : Submission}
    (hq : s.procs q = .locked m r (.submit sub)) : sub.ownerId = m := by
  obtain ⟨pd₀, db', ⟨db, ho, -⟩, hpd⟩ := hh.locked q m r _ hq
  cases pd₀ with
  | submit sub₀ =>
    obtain rfl := Pending.submit.inj hpd
    exact ((loadedBy_of_opening ho).submit sub₀ rfl).1
  | _ => cases hpd

/-- The step lemma. -/
theorem Apart.move (hx : s.Apart) (hb : s.Base) (hh : s.Holding cfg) (h : Move cfg s a s') :
    s'.Apart where
  operations := by
    refine hx.operations.move h (fun o ho => ho.1) (fun o ho => ⟨ho.1.move h, owns_of_move h ho.2⟩)
      ?_ ?_
    · intro o o' ho hsame ho'
      rw [hsame.ownerId, hsame.taskId]
      exact ⟨(hb.move h).knows o' ho', owns_of_move h ho.2⟩
    · intro o ho hnew
      refine ⟨(hb.move h).knows o ho, owns_of_move h ?_⟩
      obtain ⟨p, m, r, sub, ids, -, hp, -, -, rfl⟩ := hnew
      have howns := hh.owns (.inr hp) rfl
      rwa [← hh.submission hp] at howns
  jobs := by
    intro q opId op task todo found hq
    rcases job_of_move h hq with ⟨hp, -⟩ | ⟨hphase, -⟩ | ⟨e, phase₀, -, hp, hstep⟩
    · exact hx.jobs q opId op task todo found hp
    · cases hphase
    · rcases from_of_step hstep with ⟨rfl, rfl, rfl⟩ | ⟨o, found₀, rfl, rfl⟩
      · exact recovers_stale ..
      · exact (hx.jobs q opId op task (o :: todo) found₀ hp).load _
  ticks := by
    intro q worker rest todo found hq
    rcases old_or_turn h hq fun _ => by simp with ⟨hp, -⟩ | ht
    · exact hx.ticks q worker rest todo found hp
    · generalize hp : s.procs q = x at ht
      cases ht with
      | select => exact ⟨_, recovers_stale ..⟩
      | load =>
        obtain ⟨m, hrec⟩ := hx.ticks q _ _ _ _ hp
        exact ⟨m, hrec.load _⟩
      | tick hphase => exact absurd rfl (hphase _ _ _)
  drawn := by
    intro p' hp'
    rcases presets_of_move h p' hp' with ⟨p, hp, hid, -⟩ | ⟨-, hused⟩
    · exact hid ▸ used_of_move h _ (hx.drawn p hp)
    · exact hused
  presets := by
    intro q m r pd preset hq hpd
    rcases opened_of_move h hq with ⟨hp, -⟩ | ⟨-, ho, hdb⟩
    · obtain ⟨hused, howner⟩ := hx.presets q m r pd preset hp hpd
      refine ⟨used_of_move h _ hused, fun p' hp' hid' => ?_⟩
      rcases presets_of_move h p' hp' with ⟨p, hm, hid, howner'⟩ | ⟨hfresh, -⟩
      · exact howner' ▸ howner p hm (hid.trans hid')
      · exact absurd (hid' ▸ hused) hfresh
    · obtain ⟨hm, howner⟩ := preset_of_opening ho hpd
      refine ⟨used_of_move h _ (hx.drawn preset hm), fun p hp hid => ?_⟩
      rw [hdb] at hp
      exact Table.eq_of_key hp hm hid ▸ howner

/-- **What every process holds is one member's**, in every run. -/
theorem apart {P : Sys → Action → Prop} (hs : Reach (system cfg) P s) : s.Apart :=
  hs.invariant (fun _ => Apart.of_initial) fun _ _ _ hr hx _ h =>
    hx.move (base hr) (holding hr) (move_of_step h)

/-! ## What a step writes is one member's -/

/-- The members a step is taken for: a request is its member's, a job the owner's of the operation
it is started for or holds, and a tick recovers the operations of an owner. -/
inductive ActsFor (s : Sys) (m : Uuid) : Action → Prop where
  | request {p : ℕ} {ids : List Uuid} {r : Request} {pd : Pending}
      (hp : s.procs p = .opened m r pd ∨ s.procs p = .locked m r pd) : ActsFor s m (.commit p ids)
  | job {p : ℕ} {e : JobEvent} {opId : Uuid} {phase : JobPhase} {o : AiOperation}
      (hp : s.procs p = .job opId phase)
      (ho : o ∈ s.db.operations ∧ o.id = opId ∨ phase.operation = some o) (hm : o.ownerId = m) :
      ActsFor s m (.job p e)
  | tick {p : ℕ} {e : TickEvent} {worker : ℕ} {rest : List Uuid} {todo : List AiOperation}
      {found : List (AiOperation × Option RewriteTask)} {f : AiOperation × Option RewriteTask}
      (hp : s.procs p = .tick worker (.recovering rest todo found)) (hf : f ∈ found)
      (hm : f.1.ownerId = m) : ActsFor s m (.tick p e)

section Misses

variable {m m' : Uuid}

/-- An operation of one member is none of another's rows. -/
theorem fresh_of_knows {o : AiOperation} (hk : s.Knows o) (hne : o.ownerId ≠ m') :
    (s.db.ofMember m').operations.Fresh o.id := by
  intro o' ho' hid
  obtain ⟨hm, hsel⟩ := Table.mem_keep.mp ho'
  exact hne ((hk.became o' hm hid).same.ownerId.symm.trans (of_decide_eq_true hsel))

/-- A recovery for one owner misses the rows of the others. -/
theorem misses_of_recover {now : ℕ}
    {found : List (AiOperation × Option RewriteTask)}
    (hf : ∀ f ∈ found, FoundWf (fun o => s.Knows o ∧ s.db.owns o.ownerId o.taskId = true) f)
    (hne : ∀ f ∈ found, f.1.ownerId ≠ m') :
    ∀ w ∈ recoverWrites now found, w.Misses (s.db.ofMember m') m' := by
  refine forall_recoverWrites (fun f hm t ht => ?_) fun f hm => ?_
  · obtain ⟨⟨-, howns⟩, -, htask⟩ := hf f hm
    have hid : t.id = f.1.taskId := htask t ht
    exact hid ▸ fresh_of_owns howns (hne f hm)
  · exact fresh_of_knows (hf f hm).1.1 (hne f hm)

/-- **What a request holds is its member's.** -/
theorem Apart.owned (hx : s.Apart) (hb : s.Base) (hh : s.Holding cfg) (hl : s.Loaded) {p : ℕ}
    {r : Request} {pd : Pending}
    (hp : s.procs p = .locked m r pd ∨ s.procs p = .opened m r pd ∧ pd.task = none) :
    pd.Owned s.db m := by
  have hproc : s.procs p = .opened m r pd ∨ s.procs p = .locked m r pd := hp.symm.imp_left And.left
  have hopened : pd.task = none → s.procs p = .opened m r pd := by
    intro hnone
    refine hproc.resolve_right fun hlocked => ?_
    obtain ⟨t, ht⟩ := hb.lockedTask p m r pd hlocked
    rw [hnone] at ht
    cases ht
  refine ⟨fun t ht => hh.owns hproc ht, ?_, ?_, ?_, ?_⟩
  · intro preset hpd
    have hnone : pd.task = none := by cases pd <;> first | rfl | cases hpd
    exact (hx.presets p m r pd preset (hopened hnone) hpd).2
  · intro version task hpd v hv hid
    obtain ⟨hcore, htask⟩ := hl p m r pd version task hproc hpd
    obtain ⟨u, hu, hucore⟩ := List.mem_map.mp hcore
    obtain rfl := Table.eq_of_key hv hu (hid.trans (ScriptVersion.id_of_core hucore).symm)
    exact (ScriptVersion.taskId_of_core hucore).trans htask
  · rintro sub rfl
    exact hh.submission (hp.resolve_right fun h => by cases h.2)
  · rintro op task rfl
    obtain ⟨⟨hknown, howns⟩, hid⟩ := hx.operations.cancels p m r op task (hopened rfl)
    obtain ⟨db, ho, -⟩ := hh.opened p m r _ (hopened rfl)
    obtain ⟨-, rfl, -, -⟩ := (loadedBy_of_opening ho).cancel op task rfl
    exact ⟨fun o ho hoid => (hknown.became o ho hoid).same.ownerId, howns, hid⟩

/-- **A job writes rows of the owner of its operation.** -/
theorem Apart.misses_of_job (hx : s.Apart) {p : ℕ} {st : Stamp} {opId : Uuid} {phase : JobPhase}
    {ws : List Write} (hp : s.procs p = .job opId phase)
    (hws : JobWrites s.db st opId phase ws)
    (hne : ∀ o, o ∈ s.db.operations ∧ o.id = opId ∨ phase.operation = some o → o.ownerId ≠ m') :
    ∀ w ∈ ws, w.Misses (s.db.ofMember m') m' := by
  have hwf := hx.operations.jobs p opId phase hp
  have hstored : (s.db.ofMember m').operations.Fresh opId := by
    intro o ho hid
    obtain ⟨hm, hsel⟩ := Table.mem_keep.mp ho
    exact hne o (.inl ⟨hm, hid⟩) (of_decide_eq_true hsel)
  cases hws with
  | recover =>
    refine misses_of_recover hwf.2.2 fun f hf => ?_
    rw [(hx.jobs p opId _ _ _ _ hp).2 f hf]
    exact hne _ (.inr rfl)
  | claim =>
    obtain ⟨⟨hid, ⟨hknown, howns⟩, htask⟩, -⟩ := hwf
    have hne := hne _ (.inr rfl)
    intro w hw
    rcases List.mem_pair.mp hw with rfl | rfl
    · exact fresh_of_knows hknown hne
    · exact htask ▸ fresh_of_owns howns hne
  | result hstores =>
    rename_i e result stored resource
    obtain ⟨⟨hid, ⟨hknown, howns⟩, htask⟩, -⟩ := hwf
    have hne := hne _ (.inr rfl)
    have hfresh : (s.db.ofMember m').tasks.Fresh e.task.id := htask ▸ fresh_of_owns howns hne
    intro w hw
    rcases List.mem_append.mp hw with hw | hw
    · exact misses_of_persist hstores hfresh w hw
    · rcases List.mem_pair.mp hw with rfl | rfl
      · exact hfresh
      · exact fresh_of_knows hknown hne
  | fail =>
    obtain ⟨⟨hid, ⟨hknown, howns⟩, htask⟩, -⟩ := hwf
    have hne := hne _ (.inr rfl)
    intro w hw
    rcases List.mem_pair.mp hw with rfl | rfl
    · exact htask ▸ fresh_of_owns howns hne
    · exact fresh_of_knows hknown hne
  | record =>
    rename_i e arm op task _
    obtain ⟨⟨⟨hid, ⟨hknown, howns⟩, htask⟩, -⟩, hop, htask'⟩ := hwf
    have hne := hne _ (.inr rfl)
    intro w hw
    rcases List.mem_pair.mp hw with rfl | rfl
    · have hid' : task.id = e.op.taskId := (htask' task rfl).trans htask
      exact hid' ▸ fresh_of_owns howns hne
    · have hid' : op.id = opId := (hop op rfl).1
      exact hid' ▸ hstored
  | sweep =>
    rename_i error op
    intro w hw
    rcases List.mem_append.mp hw with hw | hw
    · cases op with
      | none => cases hw
      | some o =>
        obtain rfl := List.mem_singleton.mp hw
        obtain ⟨-, -, howns⟩ := hwf o rfl
        exact fresh_of_owns howns (hne o (.inr rfl))
    · obtain rfl := List.mem_singleton.mp hw
      exact hstored

end Misses

/-! ## The main result -/

/-- A step is taken for one member at most. -/
theorem Apart.actsFor_unique (hx : s.Apart) {m m' : Uuid} (h : s.ActsFor m a)
    (h' : s.ActsFor m' a) : m = m' := by
  cases h with
  | request hp =>
    cases h' with
    | request hp' => rcases hp with hp | hp <;> rcases hp' with hp' | hp' <;> simp_all
  | job hp ho hm =>
    rename_i p e opId phase o
    cases h' with
    | job hp' ho' hm' =>
      rename_i o'
      obtain ⟨rfl, rfl⟩ := Proc.job.inj (hp.symm.trans hp')
      have hwf := hx.operations.jobs p opId phase hp
      subst hm hm'
      rcases ho with ⟨hmem, hid⟩ | ho
      · rcases ho' with ⟨hmem', hid'⟩ | ho'
        · rw [Table.eq_of_key hmem hmem' (hid.trans hid'.symm)]
        · obtain ⟨hid', hknown, -⟩ := hwf.operation ho'
          exact (hknown.became o hmem (hid.trans hid'.symm)).same.ownerId
      · rcases ho' with ⟨hmem', hid'⟩ | ho'
        · obtain ⟨hid, hknown, -⟩ := hwf.operation ho
          exact (hknown.became o' hmem' (hid'.trans hid.symm)).same.ownerId.symm
        · rw [Option.some.inj (ho.symm.trans ho')]
  | tick hp hf hm =>
    cases h' with
    | tick hp' hf' hm' =>
      obtain ⟨rfl, hphase⟩ := Proc.tick.inj (hp.symm.trans hp')
      obtain ⟨rfl, rfl, rfl⟩ := TickPhase.recovering.inj hphase
      obtain ⟨m, -, howner⟩ := hx.ticks _ _ _ _ _ hp
      exact hm.symm.trans ((howner _ hf).trans ((howner _ hf').symm.trans hm'))

/-- A step of requests, jobs and ticks leaves all that a member it is not taken for can read as it
is: its rows, and the accounts, which no such step writes. -/
theorem ofMember_of_step (hs : Reachable cfg s) (h : (system cfg).step s a = some s') {m : Uuid}
    (hacts : ¬ s.ActsFor m a) (hconfigure : ∀ members providers, a ≠ .configure members providers) :
    s'.db.ofMember m = s.db.ofMember m := by
  have hx := apart hs
  cases move_of_step h with
  | configure => exact absurd rfl (hconfigure _ _)
  | commit hp hids hf hw hc =>
    rename_i m' r pd out db
    have hne : m' ≠ m := by
      rintro rfl
      exact hacts (.request (hp.symm.imp_left And.left))
    have hown := hx.owned (base hs) (holding hs) (loaded hs) hp
    exact Db.ofMember_of_foldlM (Db.commit_eq_some.mp hc).1 (hown.misses hf hne)
  | settle ha hp hids hn hgo ht hw hc =>
    rw [enter_db]
    refine Db.ofMember_of_foldlM (Db.commit_eq_some.mp hc).1 ?_
    refine hx.misses_of_job hp (writes_of_transaction ht) fun o ho howner => ?_
    exact hacts (.job hp ho howner)
  | recover he hp hw hc hx' =>
    refine Db.ofMember_of_foldlM (Db.commit_eq_some.mp hc).1 ?_
    refine misses_of_recover (hx.operations.ticks _ _ _ hp).2 fun f hf howner => ?_
    exact hacts (.tick hp hf howner)
  | _ => simp

/-- **A step leaves the rows of the members it is not taken for as they are**, whatever the other
requests, jobs and ticks are doing. -/
theorem members_apart (hs : Reachable cfg s) (h : (system cfg).step s a = some s') :
    (∀ m m', s.ActsFor m a → s.ActsFor m' a → m = m') ∧
      ∀ m, ¬ s.ActsFor m a → s.db.SameRows m s'.db := by
  refine ⟨fun m m' => (apart hs).actsFor_unique, fun m hacts => ?_⟩
  by_cases hconfigure : ∃ members providers, a = .configure members providers
  · -- accounts are in none of the seven tables
    obtain ⟨members, providers, rfl⟩ := hconfigure
    obtain rfl := Option.some.inj h
    exact ⟨rfl, rfl, rfl, rfl, rfl, rfl, rfl⟩
  · refine .of_eq (ofMember_of_step hs h hacts fun members providers ha => ?_)
    exact hconfigure ⟨members, providers, ha⟩

namespace Sample

/-- Two members: the first has created task 10, the second is about to create one. -/
def twoMembers : List Action :=
  [.request 0 1 (.createTask create), .commit 0 (ids 1), .request 1 2 (.createTask create)]

/-- The process is a request of the second member. -/
def isSecond : Proc → Bool
  | .opened m _ _ => m = 2
  | _ => false

/-- The step that creates the second member's task. -/
theorem run_twoMembers : ((system Sample.cfg).run start twoMembers).map (fun s =>
    isSecond (s.procs 1) && (((system Sample.cfg).step s (.commit 1 (ids 2))).any fun s' =>
      s'.db.tasks.rows.map RewriteTask.id = [10, 20])) = some true := by
  decide

end Sample

/-- The second member's task leaves the rows of the first as they are. -/
theorem members_apart_second : ∃ s s' : Sys, Reachable Sample.cfg s ∧
    s'.db.tasks.rows.map RewriteTask.id = [10, 20] ∧ s.db.SameRows 1 s'.db := by
  obtain ⟨s, hrun, hcheck⟩ := Option.map_eq_some_iff.mp Sample.run_twoMembers
  have hs : Reachable Sample.cfg s :=
    reach_of_run (.init Sample.initial_start) (fun _ _ _ => trivial) hrun
  obtain ⟨hsecond, hstep⟩ := Bool.and_eq_true_iff.mp hcheck
  obtain ⟨s', hstep, hids⟩ := (Option.any_eq_true ..).mp hstep
  obtain ⟨hone, hrest⟩ := members_apart hs hstep
  have hacts : s.ActsFor 2 (.commit 1 (Sample.ids 2)) := by
    rcases hp : s.procs 1 with _ | ⟨m, r, pd⟩ | _ | _ | _ | _ | _ | _ <;>
      rw [hp] at hsecond <;> try cases hsecond
    obtain rfl : m = 2 := of_decide_eq_true hsecond
    exact .request (.inl hp)
  exact ⟨s, s', hs, of_decide_eq_true hids, hrest 1 fun h => absurd (hone 2 1 hacts h) (by decide)⟩

end Sys

end DouyinCaption

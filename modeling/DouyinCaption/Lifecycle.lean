import DouyinCaption.Attempts
import DouyinCaption.OrderlyRuns

/-!
# The life of an operation

In an orderly run an operation goes from the queue to its execution to its end, and stays what it
has become (`operation_advances`): a transaction that ends an operation finds it running.
-/

namespace DouyinCaption

open Tables Runs

/-- How far an operation has come: it is queued, it runs, it has ended. -/
def AiOperationStatus.stage : AiOperationStatus → ℕ
  | .queued => 0
  | .running => 1
  | .succeeded | .failed | .cancelled => 2

/-- What becomes of an operation is further. -/
theorem AiOperation.Became.stage_le {o o' : AiOperation} (h : o.Became o') :
    o.status.stage ≤ o'.status.stage := by
  have hqueued := h.queued
  have hactive := h.active
  simp only [AiOperation.isActive] at hactive
  cases ho' : o'.status with
  | queued => rw [← hqueued ho', ho']
  | running =>
    rw [ho'] at hactive
    have hact := hactive rfl
    cases ho : o.status with
    | queued | running => decide
    | succeeded | failed | cancelled =>
      rw [ho] at hact
      cases hact
  | succeeded | failed | cancelled => cases o.status <;> decide

/-- What stores a result ends no operation. -/
theorem Stores.ends {db : Db} {taskId : Uuid} {st : Stamp} {result : ServiceResult}
    {prep : Prepared} {ws : List Write} (h : Stores db taskId st result prep ws) :
    ∀ w ∈ ws, w.ends = none := by
  cases h <;> simp [Write.ends]

namespace Sys

variable {cfg : Config} {s s' : Sys} {a : Action}

/-- **What the transaction of a job ends was running.** -/
theorem runs_of_ends (hb : s.Base) (hx : s.Executing) {p : ℕ} {e : JobEvent}
    (hn : s.Orderly (.job p e)) {st : Stamp} {opId : Uuid} {phase : JobPhase}
    (hp : s.procs p = .job opId phase) {ws : List Write} (hws : JobWrites s.db st opId phase ws) :
    ∀ w ∈ ws, ∀ id, w.ends = some id → s.Runs id := by
  have hwf := hb.jobs p opId phase hp
  intro w hw id hid
  cases hws with
  | recover =>
    obtain ⟨f, hf, rfl⟩ := List.mem_map.mp (ends_of_recoverWrites w hw id hid)
    exact (hn.recoveries _ (.job hp) f hf).1
  | claim => rcases List.mem_pair.mp hw with rfl | rfl <;> cases hid
  | result hstored =>
    rcases List.mem_append.mp hw with hw | hw
    · rw [hstored.ends w hw] at hid
      cases hid
    · rcases List.mem_pair.mp hw with rfl | rfl
      · cases hid
      · obtain rfl := Option.some.inj hid
        rw [hwf.1.1]
        exact (hx.running p opId _ hp rfl).resolve_right fun hw => by cases hw.1
  | fail =>
    rcases List.mem_pair.mp hw with rfl | rfl
    · cases hid
    · obtain rfl := Option.some.inj hid
      rw [hwf.1.1]
      exact (hx.running p opId _ hp rfl).resolve_right fun hw => by cases hw.1
  | record hopen =>
    rename_i x arm op task
    rcases List.mem_pair.mp hw with rfl | rfl
    · cases hid
    · obtain rfl := Option.some.inj hid
      rw [(hwf.2.1 op rfl).1]
      exact hn.failures p e opId x arm op task rfl hp hopen
  | sweep =>
    rcases List.mem_append.mp hw with hw | hw
    · split at hw
      · obtain rfl := List.mem_singleton.mp hw
        cases hid
      · cases hw
    · obtain rfl := List.mem_singleton.mp hw
      cases hid

/-- An operation that has ended stays as it is, until its owner clears the history. -/
theorem ended_of_move (hb : s.Base) (hx : s.Executing) (hn : s.Orderly a) {o : AiOperation}
    (hclear : ¬ s.Clears o.ownerId a) (h : Move cfg s a s') (ho : o ∈ s.db.operations)
    (hend : o.isActive = false) : o ∈ s'.db.operations := by
  have hqueued : o.status ≠ .queued := by
    intro hq
    rw [AiOperation.isActive, hq] at hend
    cases hend
  -- nothing that runs is the operation
  have hidle : ¬ s.Runs o.id := by
    rintro ⟨o', ho', hid, hrun⟩
    rw [← Table.eq_of_key ho' ho hid, AiOperation.isActive, hrun] at hend
    cases hend
  have hmove := h
  cases h with
  | settle ha hp hids hnext hgo ht hw hc =>
    rw [enter_db]
    have hends := runs_of_ends hb hx hn hp (writes_of_transaction ht)
    exact Db.operation_of_foldlM hqueued (Db.commit_eq_some.mp hc).1
      (fun w hw => (sound_of_transaction ht w hw).1) ho fun w hw hid => hidle (hends w hw _ hid)
  | recover he hp hw hc hproc =>
    refine Db.operation_of_foldlM hqueued (Db.commit_eq_some.mp hc).1 sound_of_recoverWrites ho
      fun w hw hid => hidle ?_
    obtain ⟨f, hf, hfid⟩ := List.mem_map.mp (ends_of_recoverWrites w hw _ hid)
    exact hfid ▸ (hn.recoveries _ (.tick hp) f hf).1
  | commit hp hids hf hw hc =>
    rename_i p ids m r pd out db
    -- a request ends no operation
    have hnone : ∀ q, (Action.commit p ids).proc = some q → o.id ∉ s.ends q := by
      intro q hq
      obtain rfl := Option.some.inj hq
      rcases hp with hp | ⟨hp, -⟩ <;> simp [ends, hp]
    rcases operation_of_move hmove ho hqueued hnone with hstays | ⟨-, hgone⟩
    · exact hstays
    · obtain ⟨o', ho', hbec⟩ := kept_of_move hb hmove hclear ho
      exact absurd hbec.same.id (hgone o' ho')
  | configure => exact ho
  | _ => simpa using ho

/-- **An operation advances, and its end is final.** In an orderly run in which its owner does
not clear the history, an operation stays stored as the request it was, it is never less far than
it was, and once it has ended its row never changes again. -/
theorem operation_advances (hs : Reach (system cfg) Orderly s) {o : AiOperation}
    (ho : o ∈ s.db.operations)
    (hsteps : Steps (system cfg) (fun s a => s.Orderly a ∧ ¬ s.Clears o.ownerId a) s s') :
    ∃ o' ∈ s'.db.operations, o.SameRequest o' ∧ o.status.stage ≤ o'.status.stage ∧
      (o.isActive = false → o' = o) := by
  suffices hbecame : ∃ o' ∈ s'.db.operations, o.Became o' ∧ (o.isActive = false → o' = o) by
    obtain ⟨o', ho', hbec, hfinal⟩ := hbecame
    exact ⟨o', ho', hbec.same, hbec.stage_le, hfinal⟩
  induction hsteps with
  | refl => exact ⟨o, ho, .refl o, fun _ => rfl⟩
  | tail hst hp hstep ih =>
    obtain ⟨o₁, ho₁, hbec₁, hfinal₁⟩ := ih
    have hr := hs.append (hst.mono fun _ _ h => h.1)
    have hmove := move_of_step hstep
    have hclear := hp.2
    rw [← hbec₁.same.ownerId] at hclear
    rcases hact : o.isActive with _ | _
    · obtain rfl := hfinal₁ hact
      exact ⟨o₁, ended_of_move (base hr) (executing (fun _ _ h => h.noStale) hr) hp.1 hp.2 hmove
        ho₁ hact, .refl o₁, fun _ => rfl⟩
    · obtain ⟨o₂, ho₂, hbec₂⟩ := kept_of_move (base hr) hmove hclear ho₁
      exact ⟨o₂, ho₂, hbec₁.trans hbec₂, fun h => by cases h⟩

namespace Sample

/-- The check of a step of an orderly run that clears no history. -/
def inOrderKept (s : Sys) (a : Action) : Bool := inOrder s a && clearsNothing s a

/-- The check is enough for the condition. -/
theorem of_inOrderKept (m : Uuid) (s : Sys) (a : Action) (h : inOrderKept s a = true) :
    s.Orderly a ∧ ¬ s.Clears m a := by
  obtain ⟨hn, hclear⟩ := Bool.and_eq_true_iff.mp h
  refine ⟨orderly_of_inOrder s a hn, ?_⟩
  rintro ⟨p, ids, r, rfl, hp⟩
  simp [clearsNothing, hp] at hclear

set_option maxRecDepth 16000 in
/-- An operation that has succeeded stays as it is while others go on. -/
theorem run_kept : ((system writer).runIf inOrder start analysed).bind (fun s =>
    ((system writer).runIf inOrderKept s (suggested.drop analysed.length)).map fun s' =>
      decide (s.db.operations.rows.map (fun o => (o.id, o.status)) = [(20, .succeeded)] ∧
        s'.db.operations.rows.map (fun o => (o.id, o.status)) =
          [(20, .succeeded), (50, .succeeded)])) = some true := by
  decide

end Sample

/-- The analysis has succeeded, and stays so while suggestions are made. -/
theorem operation_advances_kept : ∃ s s' : Sys, Reach (system Sample.writer) Orderly s ∧
    ∃ o ∈ s.db.operations, o.id = 20 ∧ o.status = .succeeded ∧ o ∈ s'.db.operations ∧
      ∃ o' ∈ s'.db.operations, o'.id = 50 ∧ o'.status = .succeeded := by
  obtain ⟨s, hrun, h⟩ := Option.bind_eq_some_iff.mp Sample.run_kept
  obtain ⟨s', hrest, hcheck⟩ := Option.map_eq_some_iff.mp h
  obtain ⟨hrows, hrows'⟩ := of_decide_eq_true hcheck
  have hs := Sample.orderly_of_runIf hrun
  have hanalysed : ((20 : ℕ), AiOperationStatus.succeeded) ∈
      s.db.operations.rows.map fun o => (o.id, o.status) := by simp [hrows]
  have hsuggested : ((50 : ℕ), AiOperationStatus.succeeded) ∈
      s'.db.operations.rows.map fun o => (o.id, o.status) := by simp [hrows']
  obtain ⟨o, ho, hrow⟩ := List.mem_map.mp hanalysed
  obtain ⟨o', ho', hrow'⟩ := List.mem_map.mp hsuggested
  simp only [Prod.mk.injEq] at hrow hrow'
  have hsteps := steps_of_runIf (Sample.of_inOrderKept o.ownerId) hrest
  obtain ⟨o₁, ho₁, -, -, hfinal⟩ := operation_advances hs ho hsteps
  obtain rfl := hfinal (by rw [AiOperation.isActive, hrow.2]; rfl)
  exact ⟨s, s', hs, o₁, ho, hrow.1, hrow.2, ho₁, o', ho', hrow'⟩

end Sys

end DouyinCaption

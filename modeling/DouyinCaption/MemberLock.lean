import DouyinCaption.Invariants

/-!
# One call at a time for each member

A job calls the provider under the lease of its member. The leases refine those of
`Library.Lease`, so an unexpired lease stands in the lock whatever the other jobs do
(`Leased`); two unexpired leases of one member are one, a lease that was taken over is
released without effect, and members do not wait for each other.
-/

namespace DouyinCaption

open Tables Runs Leases

namespace Sys

variable {cfg : Config} {s s' : Sys} {a : Action}

/-- A job is in the block of a lease. -/
def Holds (s : Sys) (p : ℕ) (l : MemberLease) : Prop :=
  ∃ opId phase, s.procs p = .job opId phase ∧ phase.lease = some l

/-- No key is dropped before its time. -/
def KeysStay (_ : Sys) (a : Action) : Prop := ∀ m, a ≠ .evict m

/-! ## What a step does to the leases -/

@[simp] theorem lease_exit (exit : Exit) : exit.phase.lease = none := by
  cases exit <;> rfl

/-- A job keeps the lease it has, or has just acquired it. -/
theorem lease_of_step {opId : Uuid} {phase phase' : JobPhase} {l : MemberLease}
    (h : JobStep cfg s opId phase phase') (hl : phase'.lease = some l)
    (hnew : ∀ e, phase' ≠ .leased e) : phase.lease = some l := by
  have hfrom := from_of_step h
  cases phase' with
  | leased e => exact absurd rfl (hnew e)
  | checked e =>
    obtain ⟨op₀, rfl, -⟩ := hfrom
    exact hl
  | locked e =>
    obtain ⟨task₀, rfl, -⟩ := hfrom
    exact hl
  | admitted e model =>
    obtain ⟨rfl, -⟩ := hfrom
    exact hl
  | claimed e model =>
    obtain ⟨rfl, -⟩ := hfrom
    exact hl
  | calling e call =>
    obtain ⟨model, rfl, -⟩ := hfrom
    exact hl
  | returned e result =>
    obtain ⟨call, response, rfl, -⟩ := hfrom
    exact hl
  | succeeded e =>
    obtain ⟨result, rfl⟩ := hfrom
    exact hl
  | failing e f =>
    obtain ⟨model, rfl⟩ | ⟨call, rfl⟩ | ⟨result, rfl⟩ := hfrom <;> exact hl
  | restoring e arm =>
    obtain ⟨model, rfl⟩ | ⟨call, rfl⟩ | ⟨result, rfl⟩ | rfl := hfrom <;> exact hl
  | restored e arm op task =>
    obtain ⟨rfl, -⟩ := hfrom
    exact hl
  | leaving lease exit => exact hfrom.trans hl
  | _ => cases hl

/-- **A held lease** was held before the step, or has just been acquired with a fresh
token. -/
theorem holds_of_move (h : Move cfg s a s') {q : ℕ} {l : MemberLease} (hq : s'.Holds q l) :
    (s.Holds q l ∧ (a.proc = some q → s'.lock = s.lock)) ∨
      ∃ m token, a.proc = some q ∧ token ∉ s.used ∧ s'.used = token :: s.used ∧
        s'.now = s.now ∧ s.lock.acquire s.now cfg.leaseSeconds m token = some (s'.lock, l) := by
  obtain ⟨opId, phase, hp', hl⟩ := hq
  by_cases ha : a.proc = some q
  swap
  · rcases procs_of_move h ha with hp | ⟨-, opId', hp⟩
    · exact .inl ⟨⟨opId, phase, hp ▸ hp', hl⟩, fun h => absurd h ha⟩
    · obtain ⟨-, rfl⟩ := Proc.job.inj (hp'.symm.trans hp)
      cases hl
  rcases job_of_move h hp' with ⟨-, hna⟩ | ⟨rfl, -⟩ | ⟨ev, phase₀, rfl, hp, hstep⟩
  · exact absurd ha hna
  · cases hl
  have hentered : ∀ {s₁ : Sys} {opId' : Uuid} {phase' : JobPhase},
      (s₁.enter q opId' phase').procs q = .job opId phase → phase' = phase := by
    intro s₁ opId' phase' h
    rw [enter_procs, Function.update_self] at h
    exact (Proc.job.inj h).2
  by_cases hnew : ∃ e, phase = .leased e
  · obtain ⟨e, rfl⟩ := hnew
    obtain ⟨rfl, -⟩ := from_of_step hstep
    right
    cases h with
    | acquire hp₁ htoken hlock =>
      obtain ⟨rfl, -, -⟩ := JobPhase.leased.inj (hentered hp')
      obtain rfl := Option.some.inj hl
      exact ⟨_, _, rfl, htoken, by simp, by simp, by rwa [enter_lock]⟩
    | refuseLease => cases hentered hp'
    | context hp₁ => cases (Proc.job.inj (hp.symm.trans hp₁)).2
    | answer hp₁ => cases (Proc.job.inj (hp.symm.trans hp₁)).2
    | leave hp₁ => cases (Proc.job.inj (hp.symm.trans hp₁)).2
    | advance hp₁ hphase hn =>
      obtain ⟨rfl, rfl⟩ := Proc.job.inj (hp.symm.trans hp₁)
      cases hn
    | fault hp₁ =>
      obtain ⟨rfl, rfl⟩ := Proc.job.inj (hp.symm.trans hp₁)
      cases hentered hp'
    | cancel hp₁ =>
      obtain ⟨rfl, rfl⟩ := Proc.job.inj (hp.symm.trans hp₁)
      cases hentered hp'
    | settle ha hp₁ hids hn hgo ht =>
      obtain ⟨rfl, rfl⟩ := Proc.job.inj (hp.symm.trans hp₁)
      cases ht
    | crash =>
      rw [unlock_procs, setProc_procs, Function.update_self] at hp'
      cases hp'
  · have hne : ∀ e, phase ≠ .leased e := fun e he => hnew ⟨e, he⟩
    refine .inl ⟨⟨opId, phase₀, hp, lease_of_step hstep hl hne⟩, fun _ => ?_⟩
    cases h with
    | acquire => exact absurd (hentered hp').symm (hne _)
    | leave =>
      rw [← hentered hp', lease_exit] at hl
      cases hl
    | _ => simp

/-- **A step of another process leaves an unexpired lease standing.** -/
theorem stands_of_move (h : Move cfg s a s') (hk : KeysStay s a) {q : ℕ} {l : MemberLease}
    (hq : a.proc ≠ some q) (hl : l.unexpired s.now = true) (hs : s.lock.store.Stands l)
    (htokens : ∀ p l', s.Holds p l' → p ≠ q → l'.token ≠ l.token) : s'.lock.store.Stands l := by
  cases h with
  | acquire hp htoken hlock =>
    rw [enter_lock]
    exact hs.tryAcquire hl (CallLock.acquire_store_some hlock)
  | leave hp =>
    rename_i p ids opId lease exit
    rw [enter_lock]
    simp only [CallLock.release_store]
    exact hs.release (htokens p lease ⟨opId, _, hp, rfl⟩ fun e => hq (congrArg some e))
  | evict => exact absurd rfl (hk _)
  | _ => simpa using hs

/-! ## The invariant -/

/-- What the leases of the jobs keep to. -/
structure Leased (cfg : Config) (s : Sys) : Prop where
  /-- an unexpired lease stands in the lock -/
  stands : ∀ p l, s.Holds p l → l.unexpired s.now = true → s.lock.store.Stands l
  /-- the tokens are drawn -/
  drawn : ∀ p l, s.Holds p l → l.token ∈ s.used
  /-- and are those of different jobs -/
  distinct : ∀ p q l l', s.Holds p l → s.Holds q l' → l.token = l'.token → p = q
  /-- without an expiry a lease does not run out -/
  forever : s.lock.ttl cfg.leaseSeconds = none → ∀ p l, s.Holds p l → l.expiresAt = none

/-- At first nobody holds a lease. -/
theorem Leased.of_initial (h : Initial s) : s.Leased cfg := by
  have hno : ∀ p l, ¬ s.Holds p l := by
    rintro p l ⟨opId, phase, hp, -⟩
    simp [h.procs] at hp
  exact ⟨fun p l hp => absurd hp (hno p l), fun p l hp => absurd hp (hno p l),
    fun p q l l' hp => absurd hp (hno p l), fun _ p l hp => absurd hp (hno p l)⟩

/-- Time does not go back. -/
theorem now_le_of_move (h : Move cfg s a s') : s.now ≤ s'.now := by
  cases h with
  | clock h => exact h
  | _ => simp

/-- For how long a lease is taken is fixed: no step changes it. -/
theorem ttl_of_move (h : Move cfg s a s') (n : ℕ) : s'.lock.ttl n = s.lock.ttl n := by
  cases h with
  | acquire hp htoken hlock =>
    rw [enter_lock]
    exact CallLock.ttl_acquire hlock
  | _ => simp

/-- **The leases keep their law** while no key is dropped before its time. -/
theorem Leased.move (hi : s.Leased cfg) (h : Move cfg s a s') (hk : KeysStay s a) :
    s'.Leased cfg where
  stands := by
    intro q l hq hl
    rcases holds_of_move h hq with ⟨hold, hsame⟩ | ⟨m, token, -, -, -, hnow, hlock⟩
    · have hl' : l.unexpired s.now = true := before_of_le (now_le_of_move h) hl
      have hs := hi.stands q l hold hl'
      by_cases ha : a.proc = some q
      · rwa [hsame ha]
      · exact stands_of_move h hk ha hl' hs fun p l' hp hne e =>
          hne (hi.distinct p q l' l hp hold e)
    · exact Store.stands_of_tryAcquire (CallLock.acquire_store_some hlock)
  drawn := by
    intro q l hq
    rcases holds_of_move h hq with ⟨hold, -⟩ | ⟨m, token, -, -, hused, -, hlock⟩
    · exact used_of_move h _ (hi.drawn q l hold)
    · obtain ⟨-, rfl, -⟩ := Store.tryAcquire_eq_some (CallLock.acquire_store_some hlock)
      rw [hused]
      exact List.mem_cons_self
  distinct := by
    have hfresh : ∀ {m token : Uuid} {l l' : MemberLease} {p : ℕ}, token ∉ s.used →
        s.lock.acquire s.now cfg.leaseSeconds m token = some (s'.lock, l) → s.Holds p l' →
          l.token ≠ l'.token := by
      intro m token l l' p htoken hlock hp he
      obtain ⟨-, rfl, -⟩ := Store.tryAcquire_eq_some (CallLock.acquire_store_some hlock)
      have he' : token = l'.token := he
      exact htoken (he' ▸ hi.drawn p l' hp)
    intro p q l l' hp hq he
    rcases holds_of_move h hp with ⟨hp, -⟩ | ⟨m, token, hap, htoken, -, -, hlock⟩
    · rcases holds_of_move h hq with ⟨hq, -⟩ | ⟨m', token', haq, htoken', -, -, hlock'⟩
      · exact hi.distinct p q l l' hp hq he
      · exact absurd he.symm (hfresh htoken' hlock' hp)
    · rcases holds_of_move h hq with ⟨hq, -⟩ | ⟨m', token', haq, htoken', -, -, hlock'⟩
      · exact absurd he (hfresh htoken hlock hq)
      · exact Option.some.inj (hap.symm.trans haq)
  forever := by
    intro hn q l hq
    rw [ttl_of_move h] at hn
    rcases holds_of_move h hq with ⟨hold, -⟩ | ⟨m, token, -, -, -, -, hlock⟩
    · exact hi.forever hn q l hold
    · obtain ⟨-, rfl, -⟩ := Store.tryAcquire_eq_some (CallLock.acquire_store_some hlock)
      rw [hn]
      rfl

/-- The run lemma. -/
theorem leased (hs : Reach (system cfg) KeysStay s) : s.Leased cfg :=
  hs.invariant (fun _ => Leased.of_initial) fun _ _ _ _ hi hk h => hi.move (move_of_step h) hk

/-- **Exclusion.** Two jobs with unexpired leases of one member are the same job. -/
theorem Leased.exclusive (hi : s.Leased cfg) {p q : ℕ} {l l' : MemberLease} (hp : s.Holds p l)
    (hq : s.Holds q l') (hk : l.key = l'.key) (hl : l.unexpired s.now = true)
    (hl' : l'.unexpired s.now = true) : p = q ∧ l = l' := by
  have he := (hi.stands p l hp hl).unique (hi.stands q l' hq hl') hk
  exact ⟨hi.distinct p q l l' hp hq (congrArg _ he), he⟩

/-- **A late release deletes nothing** where another job has taken the lease over. -/
theorem Leased.late_release (hi : s.Leased cfg) {p q : ℕ} {l l' : MemberLease}
    (hp : s.Holds p l) (hq : s.Holds q l') (hne : p ≠ q) (hk : l.key = l'.key)
    (hl' : l'.unexpired s.now = true) :
    (s.lock.release s.now l.key l.token).store = s.lock.store := by
  rw [CallLock.release_store, hk]
  exact Store.release_of_taken_over (hi.stands q l' hq hl') fun e =>
    hne (hi.distinct p q l l' hp hq e)

/-- The member a job's step on the lock is for. -/
def lockMember : JobPhase → Option Uuid
  | .ready op .. => some op.ownerId
  | .leaving lease _ => some lease.key
  | _ => none

/-- **Members are independent**: what the lock stores for a member changes by the jobs of
that member alone. -/
theorem entry_of_move (h : Move cfg s a s') (hk : KeysStay s a) {m : Uuid}
    (hm : s'.lock.store m ≠ s.lock.store m) :
    ∃ p opId phase, a.proc = some p ∧ s.procs p = .job opId phase ∧ lockMember phase = some m := by
  cases h with
  | acquire hp htoken hlock =>
    rename_i p opId op task prep token lock lease
    refine ⟨p, opId, _, rfl, hp, ?_⟩
    by_contra hne
    rw [enter_lock] at hm
    exact hm (Store.tryAcquire_other (CallLock.acquire_store_some hlock) fun e =>
      hne (congrArg some e.symm))
  | leave hp =>
    rename_i p ids opId lease exit
    refine ⟨p, opId, _, rfl, hp, ?_⟩
    by_contra hne
    rw [enter_lock] at hm
    simp only [CallLock.release_store] at hm
    exact hm (Store.release_other fun e => hne (congrArg some e.symm))
  | evict => exact absurd rfl (hk _)
  | _ => simp at hm

/-- A job gets the lease of its member unless an entry of that member is live. -/
theorem acquires_of_free {p : ℕ} {opId : Uuid} {op : AiOperation} {task : RewriteTask}
    {prep : Prepared} {token : Uuid} (hp : s.procs p = .job opId (.ready op task prep))
    (htoken : token ∉ s.used) (hfree : s.lock.store.live s.now op.ownerId = none) :
    ∃ s' e, step cfg s (.job p (.acquire token true)) = some s' ∧
      s'.procs p = .job opId (.leased e) ∧ e.lease.key = op.ownerId := by
  rcases hl : s.lock.acquire s.now cfg.leaseSeconds op.ownerId token with _ | ⟨lock, lease⟩
  · have hnone := CallLock.acquire_store s.lock s.now cfg.leaseSeconds op.ownerId token
    rw [hl] at hnone
    exact absurd hfree (Store.tryAcquire_eq_none.mp hnone.symm)
  · refine ⟨{ s with lock, used := token :: s.used }.enter p opId
      (.leased ⟨op, task, prep, lease⟩), ⟨op, task, prep, lease⟩, ?_, by simp,
      CallLock.acquire_key hl⟩
    simp only [step, hp, stepJob, acquireLease, if_neg htoken, if_true, hl]

/-- **One provider call at a time for each member.** In every reachable state:

* two unexpired leases of one member are the same lease of the same job, and with
  `InMemoryMemberAiCallLock` no lease ever runs out;
* a job whose member's lease another job holds by now releases it without effect;
* two calls for one member whose jobs have not outlived their leases are the same call;
* a step changes what is stored for a member only on behalf of that member, and a job gets
  the lease of its member unless an entry of that member is live. -/
theorem one_call_per_member (hs : Reach (system cfg) KeysStay s) :
    (∀ p q l l', s.Holds p l → s.Holds q l' → l.key = l'.key → l.unexpired s.now = true →
      l'.unexpired s.now = true → p = q ∧ l = l') ∧
    (∀ tokens, s.lock = .inMemory tokens → ∀ p l, s.Holds p l → l.unexpired s.now = true) ∧
    (∀ p q l l', s.Holds p l → s.Holds q l' → p ≠ q → l.key = l'.key →
      l'.unexpired s.now = true → s.lock.store.Stands l' ∧
        (s.lock.release s.now l.key l.token).store = s.lock.store) ∧
    (∀ p q opId opId' e e' call call', s.procs p = .job opId (.calling e call) →
      s.procs q = .job opId' (.calling e' call') → e.op.ownerId = e'.op.ownerId →
        e.lease.unexpired s.now = true → e'.lease.unexpired s.now = true → p = q) ∧
    (∀ a s' m, KeysStay s a → step cfg s a = some s' →
      s'.lock.store m ≠ s.lock.store m → ∃ p opId phase, a.proc = some p ∧
        s.procs p = .job opId phase ∧ lockMember phase = some m) ∧
    (∀ p opId op task prep token, s.procs p = .job opId (.ready op task prep) →
      token ∉ s.used → s.lock.store.live s.now op.ownerId = none →
        ∃ s' e, step cfg s (.job p (.acquire token true)) = some s' ∧
          s'.procs p = .job opId (.leased e) ∧ e.lease.key = op.ownerId) := by
  have hi := leased hs
  have hb := base hs
  refine ⟨fun p q l l' => hi.exclusive, ?_, ?_, ?_, ?_, ?_⟩
  · intro tokens ht p l hp
    have hnone := hi.forever (by rw [ht]; rfl) p l hp
    rw [Lease.unexpired, hnone]
    rfl
  · intro p q l l' hp hq hne hk hl'
    exact ⟨hi.stands q l' hq hl', hi.late_release hp hq hne hk hl'⟩
  · intro p q opId opId' e e' call call' hp hq howner hl hl'
    have hkey : e.lease.key = e'.lease.key := by
      rw [(hb.jobs p opId _ hp).2, (hb.jobs q opId' _ hq).2, howner]
    exact (hi.exclusive ⟨opId, _, hp, rfl⟩ ⟨opId', _, hq, rfl⟩ hkey hl hl').1
  · exact fun a s' m hk h => entry_of_move (move_of_step h) hk
  · exact fun p opId op task prep token => acquires_of_free

namespace Sample

/-- The lease of operation 20 runs out during its call; operation 60 takes it over while the
job of operation 20 is about to release it. -/
def takenOver : List Action :=
  called ++ [.clock 700, .job 2 (.answer (.error ⟨.timeout, true, []⟩)), .job 2 (.go (ids 5)),
    .request 3 1 (.submit 10 .analysis none none), .lock 3, .commit 3 (ids 6), .execute 4 60,
    .job 4 (.go (ids 7)), .job 4 (.go (ids 7)), .job 4 (.go (ids 7)), .job 4 (.go (ids 7)),
    .job 4 (.go (ids 7)), .job 4 (.acquire 70 true)]

/-- The lease a process holds. -/
def held : Proc → Option MemberLease
  | .job _ phase => phase.lease
  | _ => none

theorem holds_of_held {s : Sys} {p : ℕ} {l : MemberLease} (h : held (s.procs p) = some l) :
    s.Holds p l := by
  unfold held at h
  split at h
  · rename_i opId phase hp
    exact ⟨opId, phase, hp, h⟩
  · cases h

set_option maxRecDepth 8000 in
/-- A first job holds its lease beyond its expiry, and a second one takes it over. -/
theorem run_takenOver : (((system Sample.cfg).run start takenOver).map fun s =>
    decide (s.now = 700) && decide (held (s.procs 2) = some ⟨1, 30, some 660⟩) &&
      decide (held (s.procs 4) = some ⟨1, 70, some 1360⟩)) = some true := by
  decide

/-- No key is evicted in the run. -/
theorem keysStay_takenOver : ∀ a ∈ takenOver, ∀ s, KeysStay s a := by
  simp [takenOver, called, submitted, KeysStay]

end Sample

/-- The release of the first job comes late and does not touch the second one's lease. -/
theorem one_call_per_member_takenOver : ∃ s, Reach (system Sample.cfg) KeysStay s ∧
    s.Holds 2 ⟨1, 30, some 660⟩ ∧ s.Holds 4 ⟨1, 70, some 1360⟩ ∧
      (s.lock.release s.now 1 30).store = s.lock.store := by
  obtain ⟨s, hs, hcheck⟩ := exists_reach_of_run (P := KeysStay) Sample.initial_start
    Sample.keysStay_takenOver Sample.run_takenOver
  simp only [Bool.and_eq_true, decide_eq_true_eq] at hcheck
  obtain ⟨⟨hnow, h₂⟩, h₄⟩ := hcheck
  have hp := Sample.holds_of_held h₂
  have hq := Sample.holds_of_held h₄
  have hl : Lease.unexpired (⟨1, 70, some 1360⟩ : MemberLease) s.now = true := by
    rw [hnow]
    decide
  obtain ⟨-, -, hlate, -⟩ := one_call_per_member hs
  exact ⟨s, hs, hp, hq, (hlate 2 4 _ _ hp hq (by decide) rfl hl).2⟩

end Sys

end DouyinCaption

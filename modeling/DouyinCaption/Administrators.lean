import DouyinCaption.Identity

/-!
# There is always an active administrator

A request that disables an active administrator has locked two rows of active administrators,
so one of them is another's, and it stays as it is until the request commits (`Held`). Whether
a member is an administrator never changes, and nobody is loaded as somebody else, so a request
that disables anybody has been through the guard (`Guarded`).
-/

namespace DouyinCaption.Identity

open Tables Runs

variable {s s' : State} {p q : ℕ} {phase phase' : Phase} {e : Effect}

/-! ## What a request knows -/

/-- A row the session has is the row of a member, who has the role it shows. -/
def Known (s : State) (m : MemberRow) : Prop :=
  ∃ row ∈ s.members, row.id = m.id ∧ row.role = m.role

/-- The rows a session has locked are those of active administrators. -/
def Held (s : State) (p : ℕ) (locked : List Uuid) : Prop :=
  ∀ id ∈ locked, s.locks id = some p ∧ ∃ m ∈ s.members, m.id = id ∧ m.isActiveAdmin = true

/-- The rows of an update: the actor is an active administrator, and the member the same row
where it is the same member. -/
structure Loaded (s : State) (actor member : MemberRow) : Prop where
  admin : actor.role = .admin
  active : actor.isActive = true
  same : member.id = actor.id → member = actor
  known : Known s member

/-- An update that disables an active administrator disables another one than the actor, and
has locked two. -/
def Guarded (actor member : MemberRow) (data : MemberUpdate) (locked : List Uuid) : Prop :=
  disablingActiveAdmin member data = true →
    member.id ≠ actor.id ∧ 2 ≤ locked.length ∧ locked.Nodup

/-- What a session relies on. -/
def Wf (s : State) (p : ℕ) : Phase → Prop
  | .idle | .received _ | .adding _ _ | .ended _ _ => True
  | .authenticated _ actor => actor.isActive = true ∧ Known s actor
  | .loaded actor member _ => Loaded s actor member
  | .locking actor member _ candidates locked => Loaded s actor member ∧
      member.id ≠ actor.id ∧ Held s p locked ∧ (candidates ++ locked).Nodup
  | .assigned actor member data locked => Loaded s actor member ∧ Held s p locked ∧
      Guarded actor member data locked
  | .flushed actor member data locked => Loaded s actor member ∧ Held s p locked ∧
      Guarded actor member data locked ∧
      (changes member data ≠ {} → s.locks member.id = some p)

/-! ## What an effect leaves alone -/

theorem apply_changes_nil (m : MemberRow) : MemberUpdate.apply {} m = m := rfl

/-- Members stay, and keep their role. -/
theorem known_of_apply {m : MemberRow} (h : Known s m) : Known (s.apply p phase e) m := by
  obtain ⟨row, hrow, hid, hrole⟩ := h
  cases e with
  | update id c =>
    have hmem := Table.mem_update_of_mem (p := fun m => decide (m.id = id)) (f := c.apply)
      (fun _ => rfl) hrow
    refine ⟨_, hmem, ?_, ?_⟩
    · split
      · exact hid
      · exact hid
    · split
      · exact hrole
      · exact hrole
  | insert m => exact ⟨row, Table.mem_insert_of_mem hrow, hid, hrole⟩
  | _ => exact ⟨row, hrow, hid, hrole⟩

/-- A lock stays with its session while others move. -/
theorem locks_of_apply {id : Uuid} (hne : p ≠ q)
    (hfree : ∀ id', e = .lock id' → s.free p id' = true) (h : s.locks id = some q) :
    (s.apply p phase e).locks id = some q := by
  have hrelease : release s.locks p id = some q := by
    rw [release, h, if_neg]
    exact fun he => hne (Option.some.inj he).symm
  cases e with
  | nothing => exact h
  | lock id' =>
    refine (Function.update_of_ne ?_ _ _).trans h
    rintro rfl
    have := hfree id rfl
    rw [State.free, h] at this
    simp [hne.symm] at this
  | rollback => exact hrelease
  | update id' c => exact hrelease
  | insert m => exact hrelease

/-- A row somebody else has locked stays as it is. -/
theorem mem_of_apply {m : MemberRow} (hm : m ∈ s.members)
    (hupdate : ∀ id c, e = .update id c → c = {} ∨ id ≠ m.id) :
    m ∈ (s.apply p phase e).members := by
  cases e with
  | update id c =>
    have hmem := Table.mem_update_of_mem (t := s.members) (p := fun m => decide (m.id = id))
      (f := c.apply) (fun _ => rfl) hm
    rcases hupdate id c rfl with rfl | hne
    · rw [apply_changes_nil, ite_self] at hmem
      exact hmem
    · rwa [if_neg (by simpa using hne.symm)] at hmem
  | insert m' => exact Table.mem_insert_of_mem hm
  | _ => exact hm

/-! ## The invariant -/

/-- What holds in every state reached: there is an active administrator, and the sessions are
right in what they rely on. -/
structure Inv (s : State) : Prop where
  admin : ∃ m ∈ s.members, m.isActiveAdmin = true
  wf : ∀ p, Wf s p (s.procs p)

theorem Loaded.apply {actor member : MemberRow} (h : Loaded s actor member) :
    Loaded (s.apply p phase e) actor member where
  admin := h.admin
  active := h.active
  same := h.same
  known := known_of_apply h.known

/-- What a step does not write, a session that has locked it can rely on. -/
theorem Held.apply {locked : List Uuid} (h : Held s q locked)
    (hlocks : ∀ id, s.locks id = some q → (s.apply p phase e).locks id = some q)
    (hmem : ∀ m ∈ s.members, s.locks m.id = some q → m ∈ (s.apply p phase e).members) :
    Held (s.apply p phase e) q locked := by
  intro id hid
  obtain ⟨hlock, m, hm, rfl, hadmin⟩ := h id hid
  exact ⟨hlocks _ hlock, m, hmem m hm hlock, rfl, hadmin⟩

/-- The step of one session leaves the others right. -/
theorem Wf.frame {phase₀ : Phase} (h : Wf s q phase₀)
    (hlocks : ∀ id, s.locks id = some q → (s.apply p phase e).locks id = some q)
    (hmem : ∀ m ∈ s.members, s.locks m.id = some q → m ∈ (s.apply p phase e).members) :
    Wf (s.apply p phase e) q phase₀ := by
  cases phase₀ with
  | authenticated r actor => exact ⟨h.1, known_of_apply h.2⟩
  | loaded actor member data => exact Loaded.apply h
  | locking actor member data candidates locked =>
    exact ⟨h.1.apply, h.2.1, h.2.2.1.apply hlocks hmem, h.2.2.2⟩
  | assigned actor member data locked => exact ⟨h.1.apply, h.2.1.apply hlocks hmem, h.2.2⟩
  | flushed actor member data locked =>
    exact ⟨h.1.apply, h.2.1.apply hlocks hmem, h.2.2.1, fun hc => hlocks _ (h.2.2.2 hc)⟩
  | _ => trivial

/-- What a session writes it has locked. -/
theorem update_of_next (hwf : Wf s p phase) (h : Next s p phase phase' e) :
    ∀ id c, e = .update id c → c = {} ∨ s.locks id = some p := by
  intro id c he
  cases h with
  | @commit actor member data locked outcome =>
    obtain ⟨rfl, rfl⟩ := Effect.update.inj he
    by_cases hc : changes member data = {}
    · exact .inl hc
    · exact .inr (hwf.2.2.2 hc)
  | _ => cases he

/-- A session locks a row only when no other has. -/
theorem lock_of_next (h : Next s p phase phase' e) :
    ∀ id, e = .lock id → s.free p id = true := by
  intro id he
  cases h with
  | lockRow hid hfree hget hadmin =>
    obtain rfl := Effect.lock.inj he
    exact hfree
  | flush hfree =>
    obtain rfl := Effect.lock.inj he
    exact hfree
  | _ => cases he

/-- A step that locks at most keeps the locks of its own session, and all rows. -/
theorem Held.lock {locked : List Uuid} (h : Held s p locked) (id : Uuid) :
    Held (s.apply p phase (.lock id)) p locked := by
  intro id' hid'
  obtain ⟨hlock, hrow⟩ := h id' hid'
  refine ⟨?_, hrow⟩
  by_cases he : id' = id
  · subst he
    exact Function.update_self _ _ _
  · exact (Function.update_of_ne he _ _).trans hlock

/-- The session that moves is right in its new phase. -/
theorem Wf.next (hwf : Wf s p phase) (h : Next s p phase phase' e) :
    Wf (s.apply p phase' e) p phase' := by
  cases h with
  | receive r => trivial
  | stop outcome hactor => trivial
  | authenticate hget hactive =>
    obtain ⟨hm, -⟩ := Table.get_eq_some.mp hget
    exact ⟨hactive, _, hm, rfl, rfl⟩
  | add => trivial
  | @load actorId id data actor member hrole hmember =>
    refine ⟨hrole, hwf.1, ?_, ?_⟩
    · intro hsame
      split at hmember
      · exact (Option.some.inj hmember).symm
      · obtain ⟨-, hid⟩ := Table.get_eq_some.mp hmember
        exact absurd (hid.symm.trans hsame) ‹_›
    · split at hmember
      · obtain rfl := Option.some.inj hmember
        exact hwf.2
      · obtain ⟨hm, -⟩ := Table.get_eq_some.mp hmember
        exact ⟨member, hm, rfl, rfl⟩
  | guard hne =>
    refine ⟨Loaded.apply hwf, hne, fun id hid => absurd hid List.not_mem_nil, ?_⟩
    rw [List.append_nil]
    exact s.members.nodup.sublist (List.filter_sublist.map _)
  | assign hdisabling =>
    refine ⟨Loaded.apply hwf, fun id hid => absurd hid List.not_mem_nil, fun h => ?_⟩
    rw [hdisabling] at h
    cases h
  | @lockRow actor member m data candidates locked id hid hfree hget hadmin =>
    obtain ⟨hloaded, hne, hheld, hnodup⟩ := hwf
    obtain ⟨hm, hkey⟩ := Table.get_eq_some.mp hget
    refine ⟨hloaded.apply, hne, ?_, ?_⟩
    · intro id' hid'
      rcases List.mem_cons.mp hid' with rfl | hid'
      · exact ⟨Function.update_self _ _ _, m, hm, hkey, hadmin⟩
      · exact hheld.lock id id' hid'
    · have hperm : (candidates.erase id ++ id :: locked).Perm (candidates ++ locked) :=
        List.perm_middle.trans ((List.perm_cons_erase hid).symm.append_right locked)
      exact hperm.nodup_iff.mpr hnodup
  | skipRow =>
    obtain ⟨hloaded, hne, hheld, hnodup⟩ := hwf
    exact ⟨hloaded.apply, hne, hheld, hnodup.sublist (List.erase_sublist.append_right _)⟩
  | counted hlength =>
    obtain ⟨hloaded, hne, hheld, hnodup⟩ := hwf
    exact ⟨hloaded.apply, hheld, fun _ => ⟨hne, hlength, hnodup⟩⟩
  | unchanged hc =>
    obtain ⟨hloaded, hheld, hguarded⟩ := hwf
    exact ⟨hloaded.apply, hheld, hguarded, fun h => absurd hc h⟩
  | flush hfree =>
    obtain ⟨hloaded, hheld, hguarded⟩ := hwf
    exact ⟨hloaded.apply, hheld.lock _, hguarded, fun _ => Function.update_self _ _ _⟩
  | commit outcome => trivial
  | insert outcome hfresh => trivial

/-- A flush that disables a member disables an active member. -/
theorem disabling_of_apply {member m : MemberRow} {data : MemberUpdate}
    (hactive : m.isActive = true) (hnot : ((changes member data).apply m).isActive = false) :
    data.isActive = some (some false) ∧ member.isActive = true := by
  have hfalse : (changes member data).isActive = some (some false) := by
    simp only [MemberUpdate.apply] at hnot
    rcases hc : (changes member data).isActive with _ | _ | b
    · rw [hc] at hnot
      exact absurd (hactive.symm.trans hnot) (by decide)
    · rw [hc] at hnot
      exact absurd (hactive.symm.trans hnot) (by decide)
    · rw [hc] at hnot
      exact congrArg (fun b => some (some b)) hnot
  obtain ⟨hdata, hne⟩ := Option.filter_eq_some_iff.mp hfalse
  refine ⟨hdata, ?_⟩
  simpa using hne

/-- The active administrator a commit leaves: the one there was, or one the session has
locked. -/
theorem admin_of_commit {actor member : MemberRow} {data : MemberUpdate} {locked : List Uuid}
    (hwf : Wf s p (.flushed actor member data locked))
    (h : ∃ m ∈ s.members, m.isActiveAdmin = true) :
    ∃ m ∈ (s.apply p phase (.update member.id (changes member data))).members,
      m.isActiveAdmin = true := by
  have hstays : ∀ m ∈ s.members, m.id ≠ member.id →
      m ∈ (s.apply p phase (.update member.id (changes member data))).members := by
    intro m hm hne
    refine mem_of_apply hm fun id c he => .inr ?_
    obtain ⟨rfl, -⟩ := Effect.update.inj he
    exact hne.symm
  obtain ⟨hloaded, hheld, hguarded, -⟩ := hwf
  obtain ⟨m, hm, hadmin⟩ := h
  by_cases hid : m.id = member.id
  swap
  · exact ⟨m, hstays m hm hid, hadmin⟩
  have hmem := Table.mem_update_of_mem (p := fun m => decide (m.id = member.id))
    (f := (changes member data).apply) (fun _ => rfl) hm
  rw [if_pos (by simpa using hid)] at hmem
  obtain ⟨hrole, hactive⟩ : m.role = .admin ∧ m.isActive = true := by
    simpa [MemberRow.isActiveAdmin] using hadmin
  cases hafter : ((changes member data).apply m).isActive with
  | true =>
    refine ⟨_, hmem, ?_⟩
    rw [MemberRow.isActiveAdmin, hafter, Bool.and_true]
    exact decide_eq_true hrole
  | false =>
    -- the member is an active administrator, so two are locked, and one of them is another
    obtain ⟨hdata, hmember⟩ := disabling_of_apply hactive hafter
    have hadmin' : member.role = .admin := by
      obtain ⟨row, hrow, hrid, hrrole⟩ := hloaded.known
      obtain rfl : row = m := s.members.eq_of_key hrow hm (hrid.trans hid.symm)
      exact hrrole.symm.trans hrole
    have hdisabling : disablingActiveAdmin member data = true := by
      simp [disablingActiveAdmin, hdata, hmember, hadmin']
    obtain ⟨-, hlength, hnodup⟩ := hguarded hdisabling
    obtain ⟨id, hid', hother⟩ : ∃ id ∈ locked, id ≠ member.id := by
      by_contra hall
      push Not at hall
      have hsub : locked ⊆ [member.id] := fun id h => List.mem_singleton.mpr (hall id h)
      have := (List.Nodup.subperm hnodup hsub).length_le
      rw [List.length_singleton] at this
      omega
    obtain ⟨-, m', hm', rfl, hadmin₂⟩ := hheld id hid'
    exact ⟨m', hstays m' hm' hother, hadmin₂⟩

theorem inv_of_step {hash : Text → Text} {a : Action} (hi : Inv s)
    (h : s.step hash a = some s') : Inv s' := by
  obtain ⟨phase, e, rfl, hnext⟩ := step_cases h
  have hwf := hi.wf a.proc
  constructor
  · obtain ⟨m, hm, hadmin⟩ := hi.admin
    generalize s.procs a.proc = before at hnext hwf
    cases hnext with
    | commit outcome => exact admin_of_commit hwf hi.admin
    | insert outcome hfresh => exact ⟨m, Table.mem_insert_of_mem hm, hadmin⟩
    | _ => exact ⟨m, hm, hadmin⟩
  · intro q
    by_cases hq : q = a.proc
    · subst hq
      have hnew := hwf.next hnext
      rwa [show (s.apply a.proc phase e).procs a.proc = phase from Function.update_self _ _ _]
    · have hold : (s.apply a.proc phase e).procs q = s.procs q := Function.update_of_ne hq _ _
      rw [hold]
      refine (hi.wf q).frame (fun id => locks_of_apply (Ne.symm hq) (lock_of_next hnext))
        fun m hm hlock => mem_of_apply hm fun id c he => ?_
      refine (update_of_next hwf hnext id c he).imp_right fun hmine => ?_
      rintro rfl
      rw [hmine] at hlock
      exact hq (Option.some.inj hlock).symm

theorem inv_of_reach {hash : Text → Text} (h : Reach (system hash) (fun _ _ => True) s) :
    Inv s := by
  refine Reach.invariant (I := Inv) ?_ (fun s a s' _ hi _ hstep => inv_of_step hi hstep) h
  rintro s ⟨hadmin, -, hidle⟩
  refine ⟨hadmin, fun p => ?_⟩
  rw [hidle p]
  trivial

/-- No request disables the member of its own token. -/
theorem actor_stays_active {hash : Text → Text} {a : Action} (hi : Inv s)
    (h : s.step hash a = some s') {m : MemberRow} (hm : m ∈ s.members)
    (hactor : (s.procs a.proc).actorId = some m.id) (hactive : m.isActive = true) :
    ∃ m' ∈ s'.members, m'.id = m.id ∧ m'.isActive = true := by
  obtain ⟨phase, e, rfl, hnext⟩ := step_cases h
  have hwf := hi.wf a.proc
  generalize s.procs a.proc = before at hnext hwf hactor
  cases hnext with
  | @commit actor member data locked outcome =>
    by_cases hid : m.id = member.id
    · have hmem := Table.mem_update_of_mem (p := fun m => decide (m.id = member.id))
        (f := (changes member data).apply) (fun _ => rfl) hm
      rw [if_pos (by simpa using hid)] at hmem
      refine ⟨_, hmem, rfl, ?_⟩
      by_contra hnot
      obtain ⟨hdata, hmember⟩ := disabling_of_apply hactive (Bool.eq_false_iff.mpr hnot)
      have hsame : member.id = actor.id := hid.symm.trans (Option.some.inj hactor).symm
      have hdisabling : disablingActiveAdmin member data = true := by
        rw [hwf.1.same hsame] at hmember ⊢
        simp [disablingActiveAdmin, hdata, hmember, hwf.1.admin]
      exact (hwf.2.2.1 hdisabling).1 hsame
    · refine ⟨m, mem_of_apply hm fun id c he => .inr ?_, rfl, hactive⟩
      obtain ⟨rfl, -⟩ := Effect.update.inj he
      exact Ne.symm hid
  | insert outcome hfresh => exact ⟨m, Table.mem_insert_of_mem hm, rfl, hactive⟩
  | _ => exact ⟨m, hm, rfl, hactive⟩

/-- **There is always an active administrator.** In every state the requests reach, in whatever
order their steps interleave, a member is one; and no step of a request disables the member of
its own token. -/
theorem active_admin_always (hash : Text → Text) (s : State)
    (h : Reach (system hash) (fun _ _ => True) s) :
    (∃ m ∈ s.members, m.role = .admin ∧ m.isActive = true) ∧
    ∀ a s', s.step hash a = some s' → ∀ m ∈ s.members,
      (s.procs a.proc).actorId = some m.id → m.isActive = true →
        ∃ m' ∈ s'.members, m'.id = m.id ∧ m'.isActive = true := by
  have hi := inv_of_reach h
  refine ⟨?_, fun a s' hstep m hm hactor => actor_stays_active hi hstep hm hactor⟩
  obtain ⟨m, hm, hadmin⟩ := hi.admin
  exact ⟨m, hm, by simpa [MemberRow.isActiveAdmin] using hadmin⟩

/-- Two administrators and no request. -/
def sampleState : State where
  members := (Table.empty.insert ⟨⟨1, .admin, true⟩, "a".toList, "A".toList, []⟩).insert
    ⟨⟨2, .admin, true⟩, "b".toList, "B".toList, []⟩
  locks _ := none
  procs _ := .idle

/-- Each of the two disables the other; the second waits for the first and is refused. -/
def mutualDisabling : List Action :=
  [.arrive 0 (.update 1 2 { isActive := some (some false) }),
    .arrive 1 (.update 2 1 { isActive := some (some false) }),
    .move 0, .move 1, .move 0, .move 1, .move 0, .move 1,
    .lock 0 1, .lock 0 2, .move 0, .move 0, .move 0, .lock 1 1, .lock 1 2, .move 1]

set_option maxRecDepth 16000 in
theorem active_admin_always_mutual : ∃ s, Reach (system id) (fun _ _ => True) s ∧
    (match s.procs 1 with | .ended _ o => decide (o = .error lastAdminRequired) | _ => false) =
      true ∧
    ∃ m ∈ s.members, m.role = .admin ∧ m.isActive = true := by
  have hinit : (system id).init sampleState :=
    ⟨⟨⟨⟨1, .admin, true⟩, "a".toList, "A".toList, []⟩, List.mem_cons_self, rfl⟩,
      fun _ => rfl, fun _ => rfl⟩
  obtain ⟨s, hs, hrefused⟩ := exists_reach_of_run (l := mutualDisabling) hinit
    (fun _ _ _ => trivial) (p := fun s => match s.procs 1 with
      | .ended _ o => decide (o = .error lastAdminRequired)
      | _ => false) (by decide)
  exact ⟨s, hs, hrefused, (active_admin_always id s hs).1⟩

end DouyinCaption.Identity

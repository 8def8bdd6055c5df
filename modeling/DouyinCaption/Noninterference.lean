import DouyinCaption.Isolation
import DouyinCaption.Library.Machines

/-!
# Members served one after the other

A request that is served without interruption finds and changes the rows of its member only
(`handle_ofMember`), so that a member is answered as if there were no other
(`answers_alone`).
-/

namespace DouyinCaption

open Tables Machines

/-! ## Rows that are somebody's -/

/-- Every row is somebody's: operations are of their owners' tasks, and the other rows are of
tasks that are there. -/
structure Db.Placed (db : Db) : Prop where
  operations : db.OwnOperations
  analyses : ∀ r ∈ db.analyses, ∃ m, db.owns m r.taskId = true
  suggestions : ∀ r ∈ db.suggestions, ∃ m, db.owns m r.taskId = true
  versions : ∀ v ∈ db.versions, ∃ m, db.owns m v.taskId = true
  locks : ∀ l ∈ db.locks, ∃ m, db.owns m l.taskId = true

/-- And the unique indexes hold. -/
structure Db.Sound (db : Db) : Prop where
  consistent : db.Consistent
  placed : db.Placed

/-- The identifier is no row's. -/
structure Db.Unused (db : Db) (id : Uuid) : Prop where
  tasks : db.tasks.Fresh id
  presets : db.presets.Fresh id
  versions : db.versions.Fresh id
  locks : db.locks.Fresh id
  operations : db.operations.Fresh id

/-- The statement finds and adds rows of a member only. -/
def Write.Within (db : Db) (m : Uuid) : Write → Prop
  | .addTask t => t.ownerId = m ∧ db.tasks.Fresh t.id
  | .setTask id .. => db.owns m id = true
  | .setAnalysis id .. => ∀ r ∈ db.analyses, r.id = id → db.owns m r.taskId = true
  | .decide id .. => ∀ r ∈ db.suggestions, r.id = id → db.owns m r.taskId = true
  | .applySnapshot taskId .. => db.owns m taskId = true
  | .addVersion v => db.owns m v.taskId = true ∧ db.versions.Fresh v.id
  | .clearFinal taskId => db.owns m taskId = true
  | .setFinal id => ∀ v ∈ db.versions, v.id = id → db.owns m v.taskId = true
  | .addLock l => db.owns m l.taskId = true ∧ db.locks.Fresh l.id
  | .dropLock _ taskId => db.owns m taskId = true
  | .addOperation o => o.ownerId = m ∧ db.owns m o.taskId = true ∧ db.operations.Fresh o.id
  | .setQueued id _ => ∀ o ∈ db.operations, o.id = id → o.ownerId = m
  | .clearHistory ownerId => ownerId = m
  | .addPreset p => p.ownerId = m ∧ db.presets.Fresh p.id
  | .setPreset id .. | .dropPreset id => ∀ p ∈ db.presets, p.id = id → p.ownerId = m
  | _ => False

/-- The rows the statement adds are somebody's. -/
def Write.Places (db : Db) : Write → Prop
  | .addAnalysis r => ∃ m, db.owns m r.taskId = true
  | .addSuggestions rs => ∀ r ∈ rs, ∃ m, db.owns m r.taskId = true
  | .addVersion v => ∃ m, db.owns m v.taskId = true
  | .addLock l => ∃ m, db.owns m l.taskId = true
  | .addOperation o => db.owns o.ownerId o.taskId = true
  | _ => True

section Within

variable {db db' : Db} {m : Uuid} {w : Write}

/-- A new task of a member is the member's, and no other task becomes it. -/
theorem owns_insert_self {t : RewriteTask} (hfresh : db.tasks.Fresh t.id) (taskId : Uuid) :
    Db.owns { db with tasks := db.tasks.insert t } m taskId =
      if taskId = t.id then decide (t.ownerId = m) else db.owns m taskId := by
  have hself : (db.tasks.insert t).get t.id = some t :=
    Table.get_insert_self (Table.get_eq_none.mpr hfresh)
  split
  · rename_i h
    subst h
    rw [Db.owns]
    simp only [hself]
    rfl
  · rename_i h
    have hne : (db.tasks.insert t).get taskId = db.tasks.get taskId :=
      Table.get_insert_of_ne fun he => h he.symm
    rw [Db.owns, Db.owns]
    simp only [hne]

/-- A row of a task that is there is not of a task yet to come. -/
theorem owns_insert_of_owned {t : RewriteTask} (hfresh : db.tasks.Fresh t.id) {taskId m' : Uuid}
    (h : db.owns m' taskId = true) :
    Db.owns { db with tasks := db.tasks.insert t } m taskId = db.owns m taskId := by
  rw [owns_insert_self hfresh, if_neg]
  rintro rfl
  obtain ⟨t', ht', hid, -⟩ := Db.owns_iff.mp h
  exact hfresh t' ht' hid

/-- The rows of a member, with the tasks they are told by. -/
theorem Db.ofMember_of_owns (db : Db) (howns : db'.owns m = db.owns m) : db'.ofMember m =
    { db' with
      tasks := db'.tasks.keep fun t => t.ownerId = m
      presets := db'.presets.keep fun p => p.ownerId = m
      analyses := db'.analyses.keep fun r => db.owns m r.taskId
      suggestions := db'.suggestions.keep fun r => db.owns m r.taskId
      versions := db'.versions.keep fun v => db.owns m v.taskId
      locks := db'.locks.keep fun l => db.owns m l.taskId
      operations := db'.operations.keep fun o => o.ownerId = m } := by
  rw [Db.ofMember, howns]

/-- **A statement within the rows of a member changes them as it would alone.** -/
theorem Write.apply_ofMember (hdb : db.Placed) (hw : w.Within db m) :
    w.apply (db.ofMember m) = (w.apply db).map fun db' => db'.ofMember m := by
  cases w with
  | addTask t =>
    obtain ⟨howner, hfresh⟩ := hw
    have hkeep : ∀ {α : Type} [Keyed α Uuid] (table : Table α) (taskId : α → Uuid),
        (∀ a ∈ table, ∃ m, db.owns m (taskId a) = true) →
        table.keep (fun a => Db.owns { db with tasks := db.tasks.insert t } m (taskId a)) =
          table.keep fun a => db.owns m (taskId a) := by
      intro α _ table taskId h
      refine Table.ext (List.filter_congr fun a ha => ?_)
      obtain ⟨m', hm'⟩ := h a ha
      exact owns_insert_of_owned hfresh hm'
    have htasks : (db.tasks.insert t).keep (fun t => t.ownerId = m) =
        (db.tasks.keep fun t => t.ownerId = m).insert t :=
      Table.keep_insert hfresh (decide_eq_true howner)
    simp only [Write.apply, Option.map_some, Db.ofMember, hkeep _ _ hdb.analyses,
      hkeep _ _ hdb.suggestions, hkeep _ _ hdb.versions, hkeep _ _ hdb.locks, htasks]
  | setTask id change now =>
    have howns := congrFun (@owns_update db (fun t => t.id = id) (change.apply now)
      (fun _ => change.apply_id ..) fun _ => TaskChange.apply_ownerId ..) m
    simp only [Write.apply, get_tasks_ofMember hw, Option.map_map]
    refine Option.map_congr fun t _ => ?_
    rw [Function.comp, Db.ofMember_of_owns _ howns]
    simp only [Db.ofMember]
    congr 1
    exact Eq.symm (Table.keep_update _ fun t => by rw [TaskChange.apply_ownerId])
  | setAnalysis id payload notes =>
    have hget : (db.ofMember m).analyses.get id = db.analyses.get id :=
      Table.get_keep fun r hr hid => hw r hr hid
    simp only [Write.apply, hget, Option.map_map]
    refine Option.map_congr fun r _ => ?_
    rw [Function.comp, Db.ofMember_of_owns db rfl]
    simp only [Db.ofMember]
    congr 1
    exact Eq.symm (Table.keep_update (fun _ => by rfl) fun _ => by rfl)
  | decide id d note =>
    have hget : (db.ofMember m).suggestions.get id = db.suggestions.get id :=
      Table.get_keep fun r hr hid => hw r hr hid
    simp only [Write.apply, hget, Option.map_map]
    refine Option.map_congr fun r _ => ?_
    rw [Function.comp, Db.ofMember_of_owns db rfl]
    simp only [Db.ofMember]
    congr 1
    exact Eq.symm (Table.keep_update (fun _ => by rfl) fun _ => by rfl)
  | applySnapshot taskId analysisId ds =>
    simp only [Write.apply, Option.map_some]
    rw [Db.ofMember_of_owns db rfl]
    simp only [Db.ofMember]
    congr 2
    exact Eq.symm (Table.keep_update (fun _ => SuggestionRecord.applySnapshot_id ..) fun r => by
      rw [SuggestionRecord.applySnapshot_taskId])
  | addVersion v =>
    obtain ⟨howns, hfresh⟩ := hw
    simp only [Write.apply, Option.map_some]
    rw [Db.ofMember_of_owns db rfl]
    simp only [Db.ofMember]
    congr 2
    exact Eq.symm (Table.keep_insert hfresh howns)
  | clearFinal taskId =>
    simp only [Write.apply, Option.map_some]
    rw [Db.ofMember_of_owns db rfl]
    simp only [Db.ofMember]
    congr 2
    exact Eq.symm (Table.keep_update (fun _ => by rfl) fun _ => by rfl)
  | setFinal id =>
    have hget : (db.ofMember m).versions.get id = db.versions.get id :=
      Table.get_keep fun v hv hid => hw v hv hid
    simp only [Write.apply, hget, Option.map_map]
    refine Option.map_congr fun r _ => ?_
    rw [Function.comp, Db.ofMember_of_owns db rfl]
    simp only [Db.ofMember]
    congr 1
    exact Eq.symm (Table.keep_update (fun _ => by rfl) fun _ => by rfl)
  | addLock l =>
    obtain ⟨howns, hfresh⟩ := hw
    simp only [Write.apply, Option.map_some]
    rw [Db.ofMember_of_owns db rfl]
    simp only [Db.ofMember]
    congr 2
    exact Eq.symm (Table.keep_insert hfresh howns)
  | dropLock id taskId =>
    simp only [Write.apply, Option.map_some]
    rw [Db.ofMember_of_owns db rfl]
    simp only [Db.ofMember]
    congr 2
    exact Eq.symm Table.keep_delete
  | addOperation o =>
    obtain ⟨howner, -, hfresh⟩ := hw
    simp only [Write.apply, Option.map_some]
    rw [Db.ofMember_of_owns db rfl]
    simp only [Db.ofMember]
    congr 2
    exact Eq.symm (Table.keep_insert hfresh (decide_eq_true howner))
  | setQueued id change =>
    simp only [Write.apply, Option.map_some]
    rw [Db.ofMember_of_owns db rfl]
    simp only [Db.ofMember]
    congr 2
    exact Eq.symm (Table.keep_update (fun _ => change.apply_id _) fun o => by
      rw [(change.sameRequest_apply o).ownerId])
  | clearHistory ownerId =>
    simp only [Write.apply, Option.map_some]
    rw [Db.ofMember_of_owns db rfl]
    simp only [Db.ofMember]
    congr 2
    exact Eq.symm Table.keep_delete
  | addPreset p =>
    obtain ⟨howner, hfresh⟩ := hw
    simp only [Write.apply, Option.map_some]
    rw [Db.ofMember_of_owns db rfl]
    simp only [Db.ofMember]
    congr 2
    exact Eq.symm (Table.keep_insert hfresh (decide_eq_true howner))
  | setPreset id name settings now =>
    have hget : (db.ofMember m).presets.get id = db.presets.get id :=
      Table.get_keep fun p hp hid => decide_eq_true (hw p hp hid)
    simp only [Write.apply, hget, Option.map_map]
    refine Option.map_congr fun r _ => ?_
    rw [Function.comp, Db.ofMember_of_owns db rfl]
    simp only [Db.ofMember]
    congr 1
    exact Eq.symm (Table.keep_update (fun _ => by rfl) fun _ => by rfl)
  | dropPreset id =>
    simp only [Write.apply, Option.map_some]
    rw [Db.ofMember_of_owns db rfl]
    simp only [Db.ofMember]
    congr 2
    exact Eq.symm Table.keep_delete
  | _ => exact hw.elim

/-- Whose a task is stays. -/
theorem owns_of_foldlM {ws : List Write} (h : ws.foldlM Write.apply db = some db')
    {m taskId : Uuid} (howns : db.owns m taskId = true) : db'.owns m taskId = true := by
  obtain ⟨t, ht, hid, howner⟩ := Db.owns_iff.mp howns
  obtain ⟨t', ht', hid', howner'⟩ := Db.tasks_kept h t ht
  exact Db.owns_iff.mpr ⟨t', ht', hid'.trans hid, howner'.trans howner⟩

theorem owns_of_apply (h : w.apply db = some db') {m taskId : Uuid}
    (howns : db.owns m taskId = true) : db'.owns m taskId = true :=
  @owns_of_foldlM db db' [w] (by simpa using h) m taskId howns

/-- Rows are still somebody's after a statement that adds such rows. -/
theorem Db.Placed.apply (hdb : db.Placed) (hw : w.Places db) (h : w.apply db = some db') :
    db'.Placed := by
  have howns : ∀ {m taskId : Uuid}, db.owns m taskId = true → db'.owns m taskId = true :=
    owns_of_apply h
  have hsome : ∀ {taskId : Uuid}, (∃ m, db.owns m taskId = true) →
      ∃ m, db'.owns m taskId = true := fun ⟨m, hm⟩ => ⟨m, howns hm⟩
  have hops := fun o ho => howns (hdb.operations o ho)
  have han := fun r hr => hsome (hdb.analyses r hr)
  have hsug := fun r hr => hsome (hdb.suggestions r hr)
  have hver := fun v hv => hsome (hdb.versions v hv)
  have hloc := fun l hl => hsome (hdb.locks l hl)
  cases w with
  | addTask | resetTask | addPreset | dropPreset =>
    obtain rfl := Option.some.inj h
    exact ⟨hops, han, hsug, hver, hloc⟩
  | setTask | setPreset =>
    obtain ⟨_, -, rfl⟩ := Option.map_eq_some_iff.mp h
    exact ⟨hops, han, hsug, hver, hloc⟩
  | addAnalysis r =>
    obtain rfl := Option.some.inj h
    exact ⟨hops, Table.forall_mem_insert han (hsome hw), hsug, hver, hloc⟩
  | deselectAnalyses =>
    obtain rfl := Option.some.inj h
    exact ⟨hops, Table.forall_mem_update (fun _ => by rfl) han fun _ hr => hr, hsug, hver, hloc⟩
  | setAnalysis =>
    obtain ⟨_, -, rfl⟩ := Option.map_eq_some_iff.mp h
    exact ⟨hops, Table.forall_mem_update (fun _ => by rfl) han fun _ hr => hr, hsug, hver, hloc⟩
  | addSuggestions rs =>
    obtain rfl := Option.some.inj h
    refine ⟨hops, han, fun r hr => ?_, hver, hloc⟩
    rcases Table.mem_of_mem_insertAll hr with hr | hr
    · exact hsug r hr
    · exact hsome (hw r hr)
  | dropSuggestions =>
    obtain rfl := Option.some.inj h
    exact ⟨hops, han, fun r hr => hsug r (Table.mem_delete.mp hr).1, hver, hloc⟩
  | decide =>
    obtain ⟨_, -, rfl⟩ := Option.map_eq_some_iff.mp h
    exact ⟨hops, han, Table.forall_mem_update (fun _ => by rfl) hsug fun _ hr => hr, hver, hloc⟩
  | applySnapshot =>
    obtain rfl := Option.some.inj h
    refine ⟨hops, han, Table.forall_mem_update (fun _ => SuggestionRecord.applySnapshot_id ..) hsug
      fun r hr => ?_, hver, hloc⟩
    rwa [SuggestionRecord.applySnapshot_taskId]
  | addVersion v =>
    obtain rfl := Option.some.inj h
    exact ⟨hops, han, hsug, Table.forall_mem_insert hver (hsome hw), hloc⟩
  | clearFinal =>
    obtain rfl := Option.some.inj h
    exact ⟨hops, han, hsug, Table.forall_mem_update (fun _ => by rfl) hver fun _ hv => hv, hloc⟩
  | setFinal =>
    obtain ⟨_, -, rfl⟩ := Option.map_eq_some_iff.mp h
    exact ⟨hops, han, hsug, Table.forall_mem_update (fun _ => by rfl) hver fun _ hv => hv, hloc⟩
  | addLock l =>
    obtain rfl := Option.some.inj h
    exact ⟨hops, han, hsug, hver, Table.forall_mem_insert hloc (hsome hw)⟩
  | dropLock =>
    obtain rfl := Option.some.inj h
    exact ⟨hops, han, hsug, hver, fun l hl => hloc l (Table.mem_delete.mp hl).1⟩
  | addOperation o =>
    obtain rfl := Option.some.inj h
    exact ⟨Table.forall_mem_insert hops (howns hw), han, hsug, hver, hloc⟩
  | setOperation id change =>
    obtain ⟨_, -, rfl⟩ := Option.map_eq_some_iff.mp h
    refine ⟨Table.forall_mem_update (fun _ => change.apply_id _) hops fun o ho => ?_, han, hsug,
      hver, hloc⟩
    rwa [(change.sameRequest_apply o).ownerId, (change.sameRequest_apply o).taskId]
  | setQueued id change =>
    obtain rfl := Option.some.inj h
    refine ⟨Table.forall_mem_update (fun _ => change.apply_id _) hops fun o ho => ?_, han, hsug,
      hver, hloc⟩
    rwa [(change.sameRequest_apply o).ownerId, (change.sameRequest_apply o).taskId]
  | clearHistory =>
    obtain rfl := Option.some.inj h
    exact ⟨fun o ho => hops o (Table.mem_delete.mp ho).1, han, hsug, hver, hloc⟩

/-- A row that is somebody's stays so. -/
theorem Write.Places.mono (hw : w.Places db)
    (howns : ∀ m taskId, db.owns m taskId = true → db'.owns m taskId = true) : w.Places db' := by
  cases w with
  | addAnalysis | addVersion | addLock => exact hw.imp fun m => howns m _
  | addSuggestions => exact fun r hr => (hw r hr).imp fun m => howns m _
  | addOperation => exact howns _ _ hw
  | _ => exact trivial

/-- So they are after a list of such statements, by induction on the list. -/
theorem Db.Placed.of_foldlM {ws : List Write} : ∀ {db db' : Db}, db.Placed →
    (∀ w ∈ ws, w.Places db) → ws.foldlM Write.apply db = some db' → db'.Placed := by
  induction ws with
  | nil =>
    intro db db' hdb _ h
    obtain rfl := Option.some.inj h
    exact hdb
  | cons w ws ih =>
    intro db db' hdb hws h
    rw [List.foldlM_cons] at h
    obtain ⟨db₁, h₁, h₂⟩ := Option.bind_eq_some_iff.mp h
    refine ih (hdb.apply (hws w List.mem_cons_self) h₁) (fun w' hw' => ?_) h₂
    exact (hws w' (List.mem_cons_of_mem _ hw')).mono fun _ _ => owns_of_apply h₁

/-- A statement within the rows of a member adds rows of the member. -/
theorem Write.Within.places (hw : w.Within db m) : w.Places db := by
  cases w with
  | addVersion | addLock => exact ⟨m, hw.1⟩
  | addOperation =>
    obtain ⟨rfl, howns, -⟩ := hw
    exact howns
  | addAnalysis | addSuggestions => exact hw.elim
  | _ => exact trivial

/-! ## Commits -/

/-- The unique indexes hold where they hold for every member: no two rows of different members
are kept apart. -/
theorem Db.Placed.consistent (hdb : db.Placed) (h : ∀ m, (db.ofMember m).Consistent) :
    db.Consistent := by
  have howner : ∀ {m m' taskId : Uuid}, db.owns m taskId = true → db.owns m' taskId = true →
      m = m' := by
    intro m m' taskId hm hm'
    obtain ⟨t, ht, hid, rfl⟩ := Db.owns_iff.mp hm
    obtain ⟨t', ht', hid', rfl⟩ := Db.owns_iff.mp hm'
    rw [Table.eq_of_key ht ht' (hid.trans hid'.symm)]
  have hchild : ∀ {α : Type} [Keyed α Uuid] {t : Table α} (taskId : α → Uuid),
      (∀ a ∈ t, ∃ m, db.owns m (taskId a) = true) → ∀ {a b : α}, a ∈ t → b ∈ t →
      taskId a = taskId b → ∃ m, a ∈ t.keep (fun a => db.owns m (taskId a)) ∧
        b ∈ t.keep fun a => db.owns m (taskId a) := by
    intro α _ t taskId hplaced a b ha hb he
    obtain ⟨m, hm⟩ := hplaced a ha
    exact ⟨m, Table.mem_keep.mpr ⟨ha, hm⟩, Table.mem_keep.mpr ⟨hb, he ▸ hm⟩⟩
  have hactive : ∀ a b, ActiveClash a b → ActiveClash b a := fun a b hab =>
    ⟨hab.1.symm, hab.2.2, hab.2.1⟩
  have hkey : ∀ a b, KeyClash a b → KeyClash b a := fun a b ⟨h₁, h₂, h₃, h₄, h₅⟩ =>
    ⟨h₁.symm, h₂.symm, h₃.symm, h₄.symm, h₄ ▸ h₅⟩
  constructor
  · refine (Table.pairwise_iff hactive).mpr fun a ha b hb hne hclash => ?_
    have hsame : b.ownerId = a.ownerId :=
      howner (hdb.operations b hb) (hclash.1 ▸ hdb.operations a ha)
    exact (Table.pairwise_iff hactive).mp (h a.ownerId).active a
      (Table.mem_keep.mpr ⟨ha, decide_eq_true rfl⟩) b
      (Table.mem_keep.mpr ⟨hb, decide_eq_true hsame⟩) hne hclash
  · refine (Table.pairwise_iff hkey).mpr fun a ha b hb hne hclash => ?_
    exact (Table.pairwise_iff hkey).mp (h a.ownerId).keys a
      (Table.mem_keep.mpr ⟨ha, decide_eq_true rfl⟩) b
      (Table.mem_keep.mpr ⟨hb, decide_eq_true hclash.1.symm⟩) hne hclash
  · refine (Table.pairwise_iff fun a b hab => ⟨hab.1.symm, hab.2.symm⟩).mpr
      fun a ha b hb hne hclash => ?_
    exact (Table.pairwise_iff fun a b hab => ⟨hab.1.symm, hab.2.symm⟩).mp (h a.ownerId).presetNames
      a (Table.mem_keep.mpr ⟨ha, decide_eq_true rfl⟩) b
      (Table.mem_keep.mpr ⟨hb, decide_eq_true hclash.1.symm⟩) hne hclash
  · refine (Table.pairwise_iff fun a b hab => ⟨hab.1.symm, hab.2.symm⟩).mpr
      fun a ha b hb hne hclash => ?_
    obtain ⟨m, ha, hb⟩ := hchild AnalysisRecord.taskId hdb.analyses ha hb hclash.1
    exact (Table.pairwise_iff fun a b hab => ⟨hab.1.symm, hab.2.symm⟩).mp (h m).sequences a ha b hb
      hne hclash
  · refine (Table.pairwise_iff fun a b hab => ⟨hab.1.symm, hab.2.symm⟩).mpr
      fun a ha b hb hne hclash => ?_
    obtain ⟨m, ha, hb⟩ := hchild LockedFragment.taskId hdb.locks ha hb hclash.1
    exact (Table.pairwise_iff fun a b hab => ⟨hab.1.symm, hab.2.symm⟩).mp (h m).lockOrders a ha b hb
      hne hclash

/-- And then they hold for every member. -/
theorem Db.Consistent.ofMember (h : db.Consistent) (m : Uuid) : (db.ofMember m).Consistent :=
  ⟨h.active.sublist List.filter_sublist, h.keys.sublist List.filter_sublist,
    h.presetNames.sublist List.filter_sublist, h.sequences.sublist List.filter_sublist,
    h.lockOrders.sublist List.filter_sublist⟩

/-- Every statement of a list finds and adds rows of a member only. -/
def WithinAll (m : Uuid) : Db → List Write → Prop
  | _, [] => True
  | db, w :: ws => w.Within db m ∧ ∀ db', w.apply db = some db' → WithinAll m db' ws

theorem foldlM_ofMember {ws : List Write} : ∀ {db : Db}, db.Placed → WithinAll m db ws →
    ws.foldlM Write.apply (db.ofMember m) =
      (ws.foldlM Write.apply db).map (fun db' => db'.ofMember m) ∧
    ∀ db', ws.foldlM Write.apply db = some db' → db'.Placed := by
  induction ws with
  | nil =>
    intro db hdb _
    refine ⟨rfl, fun db' h => ?_⟩
    obtain rfl := Option.some.inj h
    exact hdb
  | cons w ws ih =>
    intro db hdb hw
    rw [List.foldlM_cons, List.foldlM_cons, Write.apply_ofMember hdb hw.1]
    rcases h : w.apply db with _ | db₁
    · exact ⟨rfl, fun _ h => by cases h⟩
    · exact ih (hdb.apply hw.1.places h) (hw.2 db₁ h)

/-- **A commit within the rows of a member is made as it would be alone.** -/
theorem commit_ofMember {ws : List Write} (hdb : db.Sound) (hw : WithinAll m db ws)
    (hmisses : ∀ m', m ≠ m' → ∀ w ∈ ws, w.Misses (db.ofMember m') m') :
    (db.ofMember m).commit ws = (db.commit ws).map fun db' => db'.ofMember m := by
  obtain ⟨hfold, hplaced⟩ := foldlM_ofMember hdb.placed hw
  rw [Db.commit, Db.commit, hfold]
  rcases h : ws.foldlM Write.apply db with _ | db'
  · rfl
  · have hiff : (db'.ofMember m).Consistent ↔ db'.Consistent := by
      refine ⟨fun hm => (hplaced db' h).consistent fun m' => ?_, fun hc => hc.ofMember m⟩
      by_cases hne : m = m'
      · exact hne ▸ hm
      · rw [Db.ofMember_of_foldlM h (hmisses m' hne)]
        exact hdb.consistent.ofMember m'
    rw [Option.map_some, Option.filter_some, Option.filter_some]
    by_cases hc : db'.Consistent
    · rw [if_pos (by simpa using hiff.mpr hc), if_pos (by simpa using hc), Option.map_some]
    · rw [if_neg (by simpa using fun h => hc (hiff.mp h)), if_neg (by simpa using hc)]
      rfl

/-- The rows stay somebody's. -/
theorem Db.Sound.commit {ws : List Write} (hdb : db.Sound) (hw : WithinAll m db ws)
    (h : db.commit ws = some db') : db'.Sound :=
  ⟨(Db.commit_eq_some.mp h).2, (foldlM_ofMember hdb.placed hw).2 db' (Db.commit_eq_some.mp h).1⟩

end Within

/-! ## Decisions -/

section Decisions

variable {cfg : Config} {db db' : Db} {m : Uuid} {st : Stamp} {pd : Pending} {out : Outcome}

theorem applySuggestionSnapshot_ofMember {taskId : Uuid} (howns : db.owns m taskId = true)
    (payload : Payload) :
    applySuggestionSnapshot (db.ofMember m) taskId payload =
      applySuggestionSnapshot db taskId payload := by
  have hrows : ∀ a, (db.ofMember m).suggestionsOf taskId a = db.suggestionsOf taskId a := fun a =>
    select_suggestions_ofMember howns fun r hr => by
      simp only [Bool.and_eq_true, decide_eq_true_eq] at hr
      exact hr.1
  have hscalar : ∀ a, ((db.ofMember m).analyses.scalar fun r =>
      r.id = a && r.taskId = taskId && r.isSelected) =
      db.analyses.scalar fun r => r.id = a && r.taskId = taskId && r.isSelected := fun a => by
    rw [Table.scalar_eq_head?, Table.scalar_eq_head?, select_analyses_ofMember howns fun r hr => by
      simp only [Bool.and_eq_true, decide_eq_true_eq] at hr
      exact hr.1.2]
  cases h : payload.analysisId with
  | none => simp only [applySuggestionSnapshot, h]
  | some a => simp only [applySuggestionSnapshot, h, hscalar, hrows]

/-- **A request decides from the rows of its member.** -/
theorem finish_ofMember (hown : pd.Owned db m) :
    pd.finish cfg (db.ofMember m) m st = pd.finish cfg db m st := by
  cases pd with
  | createPreset | updatePreset | deletePreset | createTask | copyTask | updateTask | archiveTask
  | restoreTask | finalizeVersion | clearHistory => rfl
  | submit s =>
    have hsnapshot := applySuggestionSnapshot_ofMember (hown.task s.task rfl) s.payload
    rw [Pending.finish, Pending.finish, Submission.finish, Submission.finish, hsnapshot]
    rfl
  | updateAnalysis task analysisId payload =>
    rw [Pending.finish, Pending.finish, analysisOf_ofMember (hown.task task rfl)]
  | updateSuggestion task suggestionId payload =>
    rw [Pending.finish, Pending.finish, Table.scalar_eq_head?, Table.scalar_eq_head?,
      select_suggestions_ofMember (hown.task task rfl) fun r hr => by
        simp only [Bool.and_eq_true, decide_eq_true_eq] at hr
        exact hr.2]
  | manualEdit parent task payload =>
    have howns := hown.task task rfl
    have hdraft : (db.ofMember m).hasFirstDraft task.id = db.hasFirstDraft task.id := by
      rw [Db.hasFirstDraft, Db.hasFirstDraft, Table.scalar_eq_head?, Table.scalar_eq_head?,
        select_versions_ofMember howns fun v hv => by
          simp only [Bool.and_eq_true, decide_eq_true_eq] at hv
          exact hv.1]
    rw [Pending.finish, Pending.finish, finishManualEdit, finishManualEdit, hdraft,
      select_locks_ofMember howns fun l hl => of_decide_eq_true hl]
  | createLock version task payload =>
    have howns := hown.task task rfl
    have horder : (db.ofMember m).nextOrder task.id = db.nextOrder task.id := by
      rw [Db.nextOrder, Db.nextOrder, select_locks_ofMember howns fun l hl => of_decide_eq_true hl]
    rw [Pending.finish, Pending.finish, finishCreateLock, finishCreateLock, horder,
      select_locks_ofMember howns fun l hl => by
        simp only [Bool.and_eq_true, decide_eq_true_eq] at hl
        exact hl.1]
  | deleteLock task lockId =>
    rw [Pending.finish, Pending.finish, Table.scalar_eq_head?, Table.scalar_eq_head?,
      select_locks_ofMember (hown.task task rfl) fun l hl => by
        simp only [Bool.and_eq_true, decide_eq_true_eq] at hl
        exact hl.2]
  | cancelOperation op task =>
    have hscalar : (db.ofMember m).operations.scalar (fun o => o.id = op.id && o.status = .queued) =
        db.operations.scalar fun o => o.id = op.id && o.status = .queued := by
      refine Table.scalar_keep fun o ho hsel => ?_
      simp only [Bool.and_eq_true, decide_eq_true_eq] at hsel
      exact decide_eq_true ((hown.cancellation op task rfl).1 o ho hsel.1)
    simp only [Pending.finish, finishCancel, hscalar]

end Decisions

end DouyinCaption

import Mathlib.Tactic.Common
import DouyinCaption.Library.Json
import DouyinCaption.Library.SchemaChanges
import DouyinCaption.Domain

/-!
# The model-name migration

The revision `c742e9b10f63` of `src/backend/alembic/versions`. Before it a provider setting
refers to an entry of a catalog of models; after it the setting has the name of its model.
`upgrade` looks every name up and drops the catalog. `downgrade` makes a catalog, with one
entry for each name the settings have.

Neither loses anything (`model_names_lossless`): both relate the two schemas by `Refers`, row
by row, and a row refers to one name only.
-/

namespace DouyinCaption.MemberModelNames

open Tables

/-! ## The two schemas -/

/-- `String(n)` -/
def Varchar (n : ℕ) : Type := { text : Text // text.length ≤ n }

instance {n : ℕ} : DecidableEq (Varchar n) := inferInstanceAs (DecidableEq { _text : Text // _ })

/-- What `provider_model_id` and the later `model_id` hold. -/
abbrev ModelName : Type := Varchar 150

/-- `provider_settings`, by what `model_id` holds. The unique index on `member_id` stays, and no
statement writes that column. -/
structure ProviderSetting (μ : Type) where
  id : Uuid
  memberId : Uuid
  encryptedApiKey : List UInt8
  baseUrl : Varchar 500
  modelId : μ
  createdAt : ℕ
  updatedAt : ℕ
  deriving DecidableEq

/-- `model_catalog_entries` -/
structure CatalogEntry where
  id : Uuid
  label : Varchar 100
  providerModelId : ModelName
  capabilities : Json
  isActive : Bool
  createdAt : ℕ
  updatedAt : ℕ

instance {μ : Type} : Keyed (ProviderSetting μ) Uuid := ⟨ProviderSetting.id⟩
instance : Keyed CatalogEntry Uuid := ⟨CatalogEntry.id⟩

/-- The two tables before the revision, with the constraints between them. -/
structure OldDatabase where
  catalog : Table CatalogEntry
  settings : Table (ProviderSetting Uuid)
  /-- `uq_model_catalog_entries_provider_model_id` -/
  names : (catalog.rows.map (·.providerModelId)).Nodup
  /-- `fk_provider_settings_model_id_model_catalog_entries` -/
  references : ∀ s ∈ settings.rows, ∃ e ∈ catalog.rows, e.id = s.modelId

/-- The table after it. -/
abbrev NewDatabase : Type := Table (ProviderSetting ModelName)

/-! ## The statements -/

/-- A row while the table has the old column and, nullable, the new one. -/
structure Widened (μ ν : Type) where
  row : ProviderSetting μ
  added : Option ν

instance {μ ν : Type} : Keyed (Widened μ ν) Uuid := ⟨fun w => w.row.id⟩

section Columns

variable {μ ν : Type}

/-- `op.add_column`: the new column is null. -/
def addColumn (s : ProviderSetting μ) : Option (Widened μ ν) := some ⟨s, none⟩

/-- `drop_column` of the old one, and `alter_column` of the new one to its name and to
`NOT NULL`. -/
def replaceColumn (w : Widened μ ν) : Option (ProviderSetting ν) :=
  w.added.map fun m => { w.row with modelId := m }

theorem addColumn_key (s : ProviderSetting μ) (w : Widened μ ν) (h : addColumn s = some w) :
    Keyed.key w = Keyed.key s := by
  obtain rfl := Option.some.inj h
  rfl

theorem replaceColumn_key (w : Widened μ ν) (s : ProviderSetting ν)
    (h : replaceColumn w = some s) : Keyed.key s = Keyed.key w := by
  obtain ⟨m, -, rfl⟩ := Option.map_eq_some_iff.mp h
  rfl

end Columns

/-- `upgrade`. The inner `SELECT` finds at most one entry, for `id` is the primary key. -/
def upgrade (old : OldDatabase) : Option NewDatabase := do
  let settings ← old.settings.alter (addColumn (ν := ModelName)) addColumn_key
  let settings := settings.update (fun _ => true) fun w =>
    { w with added := (old.catalog.get w.row.modelId).map (·.providerModelId) }
  settings.alter replaceColumn replaceColumn_key

/-- `name[:100]` -/
def label (name : ModelName) : Varchar 100 := ⟨name.val.take 100, List.length_take_le _ _⟩

/-- The entry `downgrade` makes for a name. -/
def entry (now : ℕ) (name : ModelName) (modelId : Uuid) : CatalogEntry where
  id := modelId
  label := label name
  providerModelId := name
  capabilities := .obj []
  isActive := true
  createdAt := now
  updatedAt := now

/-- One round of the loop of `downgrade`: the insertion, which the two unique constraints may
refuse, and the update of the settings with the name. -/
def giveEntry (now : ℕ) (d : Table CatalogEntry × Table (Widened ModelName Uuid))
    (draw : ModelName × Uuid) : Option (Table CatalogEntry × Table (Widened ModelName Uuid)) :=
  if ∃ e ∈ d.1.rows, e.id = draw.2 ∨ e.providerModelId = draw.1 then none
  else some (d.1.insert (entry now draw.1 draw.2),
    d.2.update (fun w => w.row.modelId = draw.1) fun w => { w with added := some draw.2 })

/-- `downgrade`. The loop is over the names `SELECT DISTINCT` finds, each with what `uuid4`
returns in its round. -/
def downgrade (now : ℕ) (draws : List (ModelName × Uuid)) (new : NewDatabase) :
    Option OldDatabase := do
  let settings ← new.alter (addColumn (ν := Uuid)) addColumn_key
  let (catalog, settings) ← draws.foldlM (giveEntry now) (.empty, settings)
  let settings ← settings.alter replaceColumn replaceColumn_key
  -- `create_foreign_key` looks at the rows there are
  if h : (catalog.rows.map (·.providerModelId)).Nodup ∧
      ∀ s ∈ settings.rows, ∃ e ∈ catalog.rows, e.id = s.modelId then
    some ⟨catalog, settings, h.1, h.2⟩
  else none

/-- What the database and `uuid4` give the loop: every name of a setting once, in any order, and
no identifier twice. -/
structure Draws (new : NewDatabase) (draws : List (ModelName × Uuid)) : Prop where
  distinct : (draws.map Prod.fst).Nodup
  names : ∀ name, name ∈ draws.map Prod.fst ↔ ∃ s ∈ new, s.modelId = name
  fresh : (draws.map Prod.snd).Nodup

/-! ## What they do -/

/-- A setting of the old schema is one of the new: it refers to the entry of its name, and the
other columns are the same. -/
def Refers (catalog : Table CatalogEntry) (s : ProviderSetting Uuid)
    (s' : ProviderSetting ModelName) : Prop :=
  ∃ e ∈ catalog, e.id = s.modelId ∧ s' = { s with modelId := e.providerModelId }

theorem refers_rightUnique (catalog : Table CatalogEntry) :
    Relator.RightUnique (Refers catalog) := by
  rintro s _ _ ⟨e, he, hid, rfl⟩ ⟨e', he', hid', rfl⟩
  rw [Table.eq_of_key he he' (hid.trans hid'.symm)]

section Columns

variable {μ ν : Type}

theorem exists_addColumn (settings : Table (ProviderSetting μ)) :
    ∃ widened : Table (Widened μ ν), settings.alter addColumn addColumn_key = some widened ∧
      widened.rows = settings.rows.map (⟨·, none⟩) := by
  obtain ⟨widened, h⟩ := Table.exists_alter (f := addColumn (ν := ν)) (t := settings)
    addColumn_key fun s _ => ⟨_, rfl⟩
  refine ⟨widened, h, ?_⟩
  have hrows : List.Forall₂ Eq (settings.rows.map fun s => (⟨s, none⟩ : Widened μ ν))
      widened.rows := by
    rw [List.forall₂_map_left_iff]
    exact (Table.alter_eq_some.mp h).imp fun s w hw => Option.some.inj hw
  exact (List.forall₂_eq_eq_eq ▸ hrows).symm

/-- The new column takes the place of the old one when no row has it null. -/
theorem exists_replaceColumn (settings : Table (ProviderSetting μ))
    (widened : Table (Widened μ ν)) (added : ProviderSetting μ → Option ν)
    (hrows : widened.rows = settings.rows.map fun s => ⟨s, added s⟩)
    (h : ∀ s ∈ settings, ∃ m, added s = some m) :
    ∃ replaced : Table (ProviderSetting ν),
      widened.alter replaceColumn replaceColumn_key = some replaced ∧
      List.Forall₂ (fun s s' => ∃ m, added s = some m ∧ s' = { s with modelId := m })
        settings.rows replaced.rows := by
  obtain ⟨replaced, hr⟩ := Table.exists_alter (f := replaceColumn (μ := μ) (ν := ν))
    (t := widened) replaceColumn_key (by
      intro w hw
      rw [Table.mem_def, hrows] at hw
      obtain ⟨s, hs, rfl⟩ := List.mem_map.mp hw
      obtain ⟨m, hm⟩ := h s hs
      exact ⟨{ s with modelId := m }, by rw [replaceColumn, hm, Option.map_some]⟩)
  refine ⟨replaced, hr, ?_⟩
  have hall := Table.alter_eq_some.mp hr
  rw [hrows, List.forall₂_map_left_iff] at hall
  refine hall.imp fun s s' hs => ?_
  obtain ⟨m, hm, rfl⟩ := Option.map_eq_some_iff.mp hs
  exact ⟨m, hm, rfl⟩

end Columns

/-- What `upgrade` leaves. -/
theorem upgrade_spec (old : OldDatabase) :
    ∃ new, upgrade old = some new ∧
      List.Forall₂ (Refers old.catalog) old.settings.rows new.rows := by
  obtain ⟨widened, hwidened, hrows⟩ := exists_addColumn (ν := ModelName) old.settings
  let named := widened.update (fun _ => true) fun w =>
    { w with added := (old.catalog.get w.row.modelId).map (·.providerModelId) }
  have hnamed : named.rows = old.settings.rows.map fun s =>
      ⟨s, (old.catalog.get s.modelId).map (·.providerModelId)⟩ := by
    simp [named, Table.update, hrows]
  obtain ⟨new, hnew, hall⟩ := exists_replaceColumn _ _ _ hnamed (by
    intro s hs
    obtain ⟨e, he, hid⟩ := old.references s hs
    rw [Table.get_eq_some.mpr ⟨he, hid⟩]
    exact ⟨_, rfl⟩)
  refine ⟨new, ?_, hall.imp fun s s' hs => ?_⟩
  · rw [upgrade, hwidened]
    exact hnew
  · obtain ⟨m, hm, rfl⟩ := hs
    obtain ⟨e, he, rfl⟩ := Option.map_eq_some_iff.mp hm
    obtain ⟨hmem, hid⟩ := Table.get_eq_some.mp he
    exact ⟨e, hmem, hid, rfl⟩

section Loop

variable {draws : List (ModelName × Uuid)}

/-- The loop appends an entry for every name and gives each setting with a name in it the entry
of its name. -/
theorem giveEntry_all (now : ℕ) (catalog : Table CatalogEntry)
    (settings : Table (Widened ModelName Uuid)) (hdistinct : (draws.map Prod.fst).Nodup)
    (hfresh : (draws.map Prod.snd).Nodup)
    (hnew : ∀ d ∈ draws, ∀ e ∈ catalog, e.id ≠ d.2 ∧ e.providerModelId ≠ d.1) :
    ∃ d, draws.foldlM (giveEntry now) (catalog, settings) = some d ∧
      d.1.rows = catalog.rows ++ draws.map (fun d => entry now d.1 d.2) ∧
      d.2.rows = settings.rows.map fun w =>
        { w with added := (draws.lookup w.row.modelId).or w.added } := by
  induction draws generalizing catalog settings with
  | nil => exact ⟨_, rfl, (List.append_nil _).symm, by simp⟩
  | cons draw draws ih =>
    rw [List.map_cons, List.nodup_cons] at hdistinct hfresh
    have hhead := hnew draw List.mem_cons_self
    have hfree : ¬ ∃ e ∈ catalog.rows, e.id = draw.2 ∨ e.providerModelId = draw.1 := by
      rintro ⟨e, he, hid | hname⟩
      · exact (hhead e he).1 hid
      · exact (hhead e he).2 hname
    have hrows : (catalog.insert (entry now draw.1 draw.2)).rows
        = catalog.rows ++ [entry now draw.1 draw.2] :=
      Table.rows_insert fun e he => (hhead e he).1
    obtain ⟨d, hd, hcatalog, hsettings⟩ := ih (catalog.insert (entry now draw.1 draw.2))
      (settings.update (fun w => w.row.modelId = draw.1) fun w =>
        { w with added := some draw.2 }) hdistinct.2 hfresh.2 (by
      intro d hd e he
      rcases Table.mem_of_mem_insert he with he | rfl
      · exact hnew d (List.mem_cons_of_mem _ hd) e he
      · exact ⟨fun h => hfresh.1 (List.mem_map.mpr ⟨d, hd, h.symm⟩),
          fun h => hdistinct.1 (List.mem_map.mpr ⟨d, hd, h.symm⟩)⟩)
    refine ⟨d, ?_, ?_, ?_⟩
    · rw [List.foldlM_cons, giveEntry, if_neg hfree]
      exact hd
    · rw [hcatalog, hrows, List.map_cons, List.append_assoc, List.singleton_append]
    · rw [hsettings, Table.update, List.map_map]
      refine List.map_congr_left fun w _ => ?_
      obtain ⟨name, modelId⟩ := draw
      by_cases hw : w.row.modelId = name
      · have hnone : draws.lookup name = none := List.lookup_eq_none_iff.mpr fun p hp => by
          simpa using fun h : name = p.1 => hdistinct.1 (List.mem_map.mpr ⟨p, hp, h.symm⟩)
        simp [hw, hnone]
      · have hbeq : (w.row.modelId == name) = false := beq_eq_false_iff_ne.mpr hw
        simp [List.lookup_cons, hw, hbeq]

/-- The loop gives every setting an entry when its names are those of the settings. -/
theorem lookup_of_draws {new : NewDatabase} (hd : Draws new draws)
    {s : ProviderSetting ModelName} (hs : s ∈ new) :
    ∃ modelId, draws.lookup s.modelId = some modelId := by
  rw [← Option.isSome_iff_exists, List.lookup_isSome_iff]
  obtain ⟨draw, hdraw, hname⟩ := List.mem_map.mp ((hd.names s.modelId).mpr ⟨s, hs, rfl⟩)
  exact ⟨draw, hdraw, by simp [hname]⟩

end Loop

/-- What `downgrade` leaves. -/
theorem downgrade_spec (now : ℕ) {new : NewDatabase} {draws : List (ModelName × Uuid)}
    (hd : Draws new draws) :
    ∃ old, downgrade now draws new = some old ∧
      List.Forall₂ (Refers old.catalog) old.settings.rows new.rows := by
  obtain ⟨widened, hwidened, hrows⟩ := exists_addColumn (ν := Uuid) new
  obtain ⟨⟨catalog, given⟩, hgiven, hcatalog, hall⟩ := giveEntry_all now .empty widened
    hd.distinct hd.fresh
    fun _ _ e he => absurd he Table.not_mem_empty
  rw [hrows, List.map_map] at hall
  obtain ⟨settings, hsettings, hrefers⟩ := exists_replaceColumn new given
    (fun s => draws.lookup s.modelId) (by simpa [Function.comp_def] using hall)
    fun s hs => lookup_of_draws hd hs
  have hnames : (catalog.rows.map (·.providerModelId)).Nodup := by
    rw [hcatalog, Table.rows_empty, List.nil_append, List.map_map]
    exact hd.distinct
  -- a row with an entry refers to the entry of its name
  have hentry : ∀ name modelId, draws.lookup name = some modelId →
      entry now name modelId ∈ catalog := by
    intro name modelId h
    rw [Table.mem_def, hcatalog]
    obtain ⟨l₁, l₂, rfl, -⟩ := List.lookup_eq_some_iff.mp h
    simp
  have hreferences : ∀ s ∈ settings.rows, ∃ e ∈ catalog.rows, e.id = s.modelId := by
    intro s hs
    obtain ⟨s', -, m, hm, rfl⟩ := exists_left_of_mem hrefers hs
    exact ⟨entry now s'.modelId m, hentry _ _ hm, rfl⟩
  refine ⟨⟨catalog, settings, hnames, hreferences⟩, ?_, ?_⟩
  · rw [downgrade, hwidened, Option.bind_eq_bind, Option.bind_some, hgiven,
      Option.bind_eq_bind, Option.bind_some]
    dsimp only
    rw [hsettings, Option.bind_eq_bind, Option.bind_some, dif_pos ⟨hnames, hreferences⟩]
  · refine List.Forall₂.flip (hrefers.imp fun s' s h => ?_)
    obtain ⟨m, hm, rfl⟩ := h
    exact ⟨entry now s'.modelId m, hentry _ _ hm, rfl, rfl⟩

/-- **The migration loses nothing either way.** `upgrade` gives every setting the name of the
entry it referred to. `downgrade` succeeds, with a catalog in which every setting refers to the
entry of its name, and `upgrade` after it restores the table. -/
theorem model_names_lossless :
    (∀ old : OldDatabase, ∃ new, upgrade old = some new ∧
      List.Forall₂ (Refers old.catalog) old.settings.rows new.rows) ∧
    ∀ (new : NewDatabase) (now : ℕ) (draws : List (ModelName × Uuid)), Draws new draws →
      ∃ old, downgrade now draws new = some old ∧
        (old.catalog.rows.map (·.providerModelId)).Nodup ∧
        List.Forall₂ (Refers old.catalog) old.settings.rows new.rows ∧
        upgrade old = some new := by
  refine ⟨upgrade_spec, fun new now draws hd => ?_⟩
  obtain ⟨old, hold, hrefers⟩ := downgrade_spec now hd
  obtain ⟨again, hagain, hrefers'⟩ := upgrade_spec old
  have hrows : again.rows = new.rows :=
    (refers_rightUnique old.catalog).forall₂ hrefers' hrefers
  exact ⟨old, hold, old.names, hrefers, hagain.trans (congrArg some (Table.ext hrows))⟩

/-- Three settings, two of them with one name. -/
def shared : NewDatabase where
  rows :=
    [⟨1, 11, [7], ⟨[], by decide⟩, ⟨"qwen".toList, by decide⟩, 0, 0⟩,
      ⟨2, 12, [8], ⟨[], by decide⟩, ⟨"glm".toList, by decide⟩, 0, 0⟩,
      ⟨3, 13, [9], ⟨[], by decide⟩, ⟨"qwen".toList, by decide⟩, 0, 0⟩]
  nodup := by decide

/-- They survive a downgrade. -/
theorem model_names_lossless_shared :
    ∃ old, downgrade 5 [(⟨"glm".toList, by decide⟩, 21), (⟨"qwen".toList, by decide⟩, 22)] shared
        = some old ∧ (old.catalog.rows.map (·.providerModelId)).Nodup ∧
      List.Forall₂ (Refers old.catalog) old.settings.rows shared.rows ∧
      upgrade old = some shared := by
  refine model_names_lossless.2 shared 5 _ ⟨by decide, fun name => ?_, by decide⟩
  simp only [shared, Table.mem_def, List.map_cons, List.map_nil, List.mem_cons, List.not_mem_nil,
    or_false, exists_eq_or_imp, exists_eq_left]
  grind

end DouyinCaption.MemberModelNames

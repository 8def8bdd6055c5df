import Mathlib.Data.List.Basic
import Mathlib.Data.List.Nodup
import Mathlib.Data.List.Pairwise

/-!
# Keyed tables

A relational table: a list of rows, kept in the order they were inserted, no two with one
primary key. The uniqueness of the key is a field, so that a table with two rows of one key
cannot be built, and `get`, the lookup by key, and membership say the same thing.

`update` and `delete` are the bulk statements (`UPDATE … WHERE`, `DELETE … WHERE`); a
function given to `update` must keep the key, which for a record update is `rfl`.
-/

namespace DouyinCaption.Tables

universe u v w

/-- Rows with a primary key. -/
class Keyed (α : Type u) (κ : outParam (Type v)) where
  /-- the primary key of a row -/
  key : α → κ

open Keyed

/-- A table: its rows in insertion order, at most one for each key. -/
structure Table (α : Type u) {κ : Type v} [Keyed α κ] : Type u where
  /-- the rows, oldest first -/
  rows : List α
  /-- the primary key constraint -/
  nodup : (rows.map key).Nodup

namespace Table

variable {α : Type u} {κ : Type v} [Keyed α κ]

/-- Tables are equal when their rows are. -/
theorem ext {t t' : Table α} (h : t.rows = t'.rows) : t = t' := by
  cases t; cases t'
  subst h
  rfl

instance : Membership α (Table α) where
  mem t a := a ∈ t.rows

theorem mem_def {t : Table α} {a : α} : a ∈ t ↔ a ∈ t.rows := Iff.rfl

/-- The table without rows. -/
def empty : Table α := ⟨[], List.nodup_nil⟩

@[simp] theorem rows_empty : (empty : Table α).rows = [] := rfl

@[simp] theorem not_mem_empty {a : α} : a ∉ (empty : Table α) := List.not_mem_nil

/-- Two rows of a table with one key are the same row. -/
theorem eq_of_key {t : Table α} {a b : α} (ha : a ∈ t) (hb : b ∈ t) (h : key a = key b) :
    a = b :=
  List.inj_on_of_nodup_map t.nodup ha hb h

/-- A relation keeps any two rows apart where it does so in table order. -/
theorem pairwise_iff {t : Table α} {R : α → α → Prop} (hR : ∀ a b, R a b → R b a) :
    t.rows.Pairwise (fun a b => ¬ R a b) ↔ ∀ a ∈ t, ∀ b ∈ t, a ≠ b → ¬ R a b := by
  have hsymm : Std.Symm fun a b : α => ¬ R a b := ⟨fun a b hab hba => hab (hR b a hba)⟩
  constructor
  · exact fun h a ha b hb hne => h.forall ha hb hne
  · exact fun h => (t.nodup.of_map _).pairwise_of_forall_ne h

/-! ## Reading -/

/-- The rows a condition selects, in table order. -/
def select (t : Table α) (p : α → Bool) : List α := t.rows.filter p

/-- The first row a condition selects. -/
def scalar (t : Table α) (p : α → Bool) : Option α := t.rows.find? p

@[simp] theorem mem_select {t : Table α} {p : α → Bool} {a : α} :
    a ∈ t.select p ↔ a ∈ t ∧ p a = true := List.mem_filter

theorem scalar_some {t : Table α} {p : α → Bool} {a : α} (h : t.scalar p = some a) :
    a ∈ t ∧ p a = true :=
  ⟨List.mem_of_find?_eq_some h, List.find?_some h⟩

theorem scalar_none {t : Table α} {p : α → Bool} :
    t.scalar p = none ↔ ∀ a ∈ t, ¬ p a = true := List.find?_eq_none

/-- What selects the first row depends on the selected rows alone. -/
theorem scalar_eq_head? (t : Table α) (p : α → Bool) : t.scalar p = (t.select p).head? :=
  List.head?_filter.symm

/-! ## Bulk statements -/

/-- Change every row a condition selects; the change keeps the key. -/
def update (t : Table α) (p : α → Bool) (f : α → α)
    (hf : ∀ a, key (f a) = key a := by intro _; rfl) : Table α where
  rows := t.rows.map fun a => if p a then f a else a
  nodup := by
    have hkey : (key ∘ fun a => if p a then f a else a) = (key : α → κ) := by
      funext a
      by_cases h : p a <;> simp [h, hf]
    rw [List.map_map, hkey]
    exact t.nodup

/-- Remove every row a condition selects. -/
def delete (t : Table α) (p : α → Bool) : Table α where
  rows := t.rows.filter fun a => !p a
  nodup := t.nodup.sublist (List.filter_sublist.map key)

section Bulk

variable {t : Table α} {p q : α → Bool} {f : α → α} {hf : ∀ a, key (f a) = key a}

theorem mem_update {b : α} :
    b ∈ t.update p f hf ↔ ∃ a ∈ t, b = if p a then f a else a := by
  simp only [mem_def, update, List.mem_map]
  exact ⟨fun ⟨a, ha, h⟩ => ⟨a, ha, h.symm⟩, fun ⟨a, ha, h⟩ => ⟨a, ha, h.symm⟩⟩

/-- A row comes out of an update as itself or changed. -/
theorem mem_update_of_mem (hf : ∀ a, key (f a) = key a) {a : α} (h : a ∈ t) :
    (if p a then f a else a) ∈ t.update p f hf :=
  mem_update.mpr ⟨a, h, rfl⟩

/-- An update that no selected row meets, and that moves no row in or out of the selection,
leaves the selected rows as they are. -/
theorem select_update_of_not (hf : ∀ a, key (f a) = key a)
    (h : ∀ a ∈ t, p a = true → q a = false ∧ q (f a) = false) :
    (t.update p f hf).select q = t.select q := by
  have hrows : ∀ l : List α, (∀ a ∈ l, p a = true → q a = false ∧ q (f a) = false) →
      (l.map fun a => if p a then f a else a).filter q = l.filter q := by
    intro l
    induction l with
    | nil => exact fun _ => rfl
    | cons a l ih =>
      intro hl
      have ih' := ih fun b hb => hl b (List.mem_cons_of_mem _ hb)
      by_cases hp : p a
      · obtain ⟨h₁, h₂⟩ := hl a List.mem_cons_self hp
        simp [hp, h₁, h₂, ih']
      · simp [hp, List.filter_cons, ih']
  exact hrows _ h

/-- An update that keeps a condition maps the selected rows. -/
theorem select_update (hf : ∀ a, key (f a) = key a) (h : ∀ a, q (f a) = q a) :
    (t.update p f hf).select q = (t.select q).map fun a => if p a then f a else a := by
  have hq : (q ∘ fun a => if p a then f a else a) = q := by
    funext a
    by_cases hp : p a <;> simp [hp, h]
  rw [select, update, List.filter_map, hq, select]

/-- What is read of the selected rows after such an update. -/
theorem map_select_update {β : Type w} (g : α → β) (hf : ∀ a, key (f a) = key a)
    (h : ∀ a, q (f a) = q a) : ((t.update p f hf).select q).map g =
      (t.select q).map fun a => if p a then g (f a) else g a := by
  rw [select_update hf h, List.map_map]
  refine List.map_congr_left fun a _ => ?_
  simp only [Function.comp]
  split <;> rfl

@[simp] theorem mem_delete {b : α} : b ∈ t.delete p ↔ b ∈ t ∧ p b = false := by
  simp [mem_def, delete]

theorem select_delete : (t.delete p).select q = (t.select q).filter fun a => !p a := by
  simp only [select, delete, List.filter_filter]
  congr 1
  funext a
  exact Bool.and_comm _ _

/-- What holds of every row, and is kept by the change, holds of every row after an update. -/
theorem forall_mem_update {Q : α → Prop} (hf : ∀ a, key (f a) = key a) (h : ∀ a ∈ t, Q a)
    (hQ : ∀ a, Q a → Q (f a)) : ∀ b ∈ t.update p f hf, Q b := by
  intro b hb
  obtain ⟨a, ha, rfl⟩ := mem_update.mp hb
  split
  · exact hQ a (h a ha)
  · exact h a ha

/-- The only row of a selection is found. -/
theorem scalar_of_unique {t : Table α} {q : α → Bool} {a : α} (ha : a ∈ t) (hq : q a = true)
    (hu : ∀ b ∈ t, q b = true → b = a) : t.scalar q = some a := by
  rcases h : t.scalar q with _ | b
  · exact absurd hq (scalar_none.mp h a ha)
  · obtain ⟨hb, hqb⟩ := scalar_some h
    rw [hu b hb hqb]

/-- What an update that selects no new row makes of the only row of a selection. -/
theorem scalar_update (hf : ∀ a, key (f a) = key a)
    (hq : ∀ a ∈ t, p a = true → q (f a) = true → q a = true)
    (hu : ∀ a ∈ t, ∀ b ∈ t, q a = true → q b = true → a = b) :
    (t.update p f hf).scalar q = (t.scalar q).bind fun a =>
      if p a then if q (f a) then some (f a) else none else some a := by
  -- a selected row after the update comes from a selected row
  have hold : ∀ a ∈ t, q (if p a then f a else a) = true → q a = true := by
    intro a ha hqa
    split at hqa
    · rename_i hp
      exact hq a ha hp hqa
    · exact hqa
  rcases h : t.scalar q with _ | a
  · refine scalar_none.mpr fun b hb => ?_
    obtain ⟨a, ha, rfl⟩ := mem_update.mp hb
    exact fun hqb => scalar_none.mp h a ha (hold a ha hqb)
  · obtain ⟨ha, hqa⟩ := scalar_some h
    have hin : (if p a then f a else a) ∈ t.update p f hf := mem_update.mpr ⟨a, ha, rfl⟩
    have honly : ∀ b ∈ t.update p f hf, q b = true → b = if p a then f a else a := by
      intro b hb hqb
      obtain ⟨a', ha', rfl⟩ := mem_update.mp hb
      rw [hu a' ha' a ha (hold a' ha' hqb) hqa]
    rw [Option.bind_some]
    by_cases hp : p a = true
    · rw [if_pos hp] at hin honly ⊢
      by_cases hqf : q (f a) = true
      · rw [if_pos hqf]
        exact scalar_of_unique hin hqf honly
      · rw [if_neg hqf]
        exact scalar_none.mpr fun b hb hqb => hqf (honly b hb hqb ▸ hqb)
    · rw [if_neg hp] at hin honly ⊢
      exact scalar_of_unique hin hqa honly

/-- Deleting rows outside a selection leaves it as it is. -/
theorem select_delete_of_not (h : ∀ a ∈ t, q a = true → p a = false) :
    (t.delete p).select q = t.select q := by
  rw [select_delete]
  refine List.filter_eq_self.mpr fun a ha => ?_
  obtain ⟨hm, hq⟩ := mem_select.mp ha
  simp [h a hm hq]

end Bulk

/-! ## Part of a table -/

/-- The table of the rows a condition selects. -/
def keep (t : Table α) (p : α → Bool) : Table α where
  rows := t.select p
  nodup := t.nodup.sublist (List.filter_sublist.map key)

section Keep

variable {t t' : Table α} {p q : α → Bool}

@[simp] theorem mem_keep {a : α} : a ∈ t.keep p ↔ a ∈ t ∧ p a = true := mem_select

/-- Parts are equal when the selected rows are. -/
theorem keep_congr (h : t'.select p = t.select p) : t'.keep p = t.keep p := ext h

/-- A part has the rows of a selection within it. -/
theorem select_keep (h : ∀ a ∈ t, q a = true → p a = true) : (t.keep p).select q = t.select q := by
  refine (List.filter_filter ..).trans (List.filter_congr fun a ha => ?_)
  rcases hq : q a with _ | _
  · rfl
  · rw [h a ha hq]
    rfl

theorem scalar_keep (h : ∀ a ∈ t, q a = true → p a = true) : (t.keep p).scalar q = t.scalar q := by
  rw [scalar_eq_head?, scalar_eq_head?, select_keep h]

/-- An update that keeps a condition changes the part as it changes the table. -/
theorem keep_update {f : α → α} (hf : ∀ a, key (f a) = key a) (h : ∀ a, q (f a) = q a) :
    (t.update p f hf).keep q = (t.keep q).update p f hf :=
  ext (select_update hf h)

theorem keep_delete : (t.delete p).keep q = (t.keep q).delete p := ext select_delete

end Keep

/-! ## The primary key -/

variable [DecidableEq κ]

/-- The lookup by primary key. -/
def get (t : Table α) (k : κ) : Option α := t.scalar fun a => key a = k

theorem get_eq_some {t : Table α} {k : κ} {a : α} :
    t.get k = some a ↔ a ∈ t ∧ key a = k := by
  constructor
  · intro h
    obtain ⟨hm, hk⟩ := scalar_some h
    exact ⟨hm, by simpa using hk⟩
  · rintro ⟨hm, rfl⟩
    rcases h : t.get (key a) with _ | b
    · exact absurd (decide_eq_true rfl) (scalar_none.mp h a hm)
    · obtain ⟨hb, hk⟩ := scalar_some h
      rw [eq_of_key hb hm (by simpa using hk)]

theorem get_eq_none {t : Table α} {k : κ} : t.get k = none ↔ ∀ a ∈ t, key a ≠ k := by
  rw [get, scalar_none]
  simp

theorem get_of_mem {t : Table α} {a : α} (h : a ∈ t) : t.get (key a) = some a :=
  get_eq_some.mpr ⟨h, rfl⟩

/-- Append a row. A row whose key is taken is refused by the primary key constraint, and
the table stays as it is. -/
def insert (t : Table α) (a : α) : Table α :=
  if h : key a ∈ t.rows.map key then t
  else ⟨t.rows ++ [a], by
    rw [List.map_append, List.map_singleton, List.nodup_append]
    refine ⟨t.nodup, List.nodup_singleton _, fun x hx y hy hxy => h ?_⟩
    rw [List.mem_singleton.mp hy] at hxy
    exact hxy ▸ hx⟩

/-- Append rows one after the other. -/
def insertAll (t : Table α) (as : List α) : Table α := as.foldl insert t

/-- A key no row of the table has. -/
def Fresh (t : Table α) (k : κ) : Prop := ∀ a ∈ t, key a ≠ k

theorem rows_insert {t : Table α} {a : α} (h : t.Fresh (key a)) :
    (t.insert a).rows = t.rows ++ [a] := by
  have hn : key a ∉ t.rows.map key := by
    intro hm
    obtain ⟨b, hb, hk⟩ := List.mem_map.mp hm
    exact h b hb hk
  rw [insert, dif_neg hn]

theorem mem_insert {t : Table α} {a b : α} (h : t.Fresh (key a)) :
    b ∈ t.insert a ↔ b ∈ t ∨ b = a := by
  rw [mem_def, rows_insert h, List.mem_append, List.mem_singleton, mem_def]

theorem select_insert {t : Table α} {a : α} {p : α → Bool} (h : t.Fresh (key a)) :
    (t.insert a).select p = t.select p ++ if p a then [a] else [] := by
  rw [select, select, rows_insert h, List.filter_append]
  by_cases hp : p a <;> simp [hp]

/-- Inserting never removes a row. -/
theorem mem_insert_of_mem {t : Table α} {a b : α} (h : b ∈ t) : b ∈ t.insert a := by
  rw [insert]
  split
  · exact h
  · exact List.mem_append_left _ h

/-- A row of the table after an insertion was there before or is the new one. -/
theorem mem_of_mem_insert {t : Table α} {a b : α} (h : b ∈ t.insert a) : b ∈ t ∨ b = a := by
  rw [insert] at h
  split at h
  · exact Or.inl h
  · rcases List.mem_append.mp h with hb | hb
    · exact Or.inl hb
    · exact Or.inr (List.mem_singleton.mp hb)

theorem forall_mem_insert {t : Table α} {a : α} {Q : α → Prop} (h : ∀ b ∈ t, Q b) (ha : Q a) :
    ∀ b ∈ t.insert a, Q b := by
  intro b hb
  rcases mem_of_mem_insert hb with hb | rfl
  · exact h b hb
  · exact ha

theorem mem_of_mem_insertAll {as : List α} :
    ∀ {t : Table α} {b : α}, b ∈ t.insertAll as → b ∈ t ∨ b ∈ as := by
  induction as with
  | nil => exact fun h => Or.inl h
  | cons a as ih =>
    intro t b h
    rcases ih h with hb | hb
    · rcases mem_of_mem_insert hb with hb | rfl
      · exact Or.inl hb
      · exact Or.inr List.mem_cons_self
    · exact Or.inr (List.mem_cons_of_mem _ hb)

/-- Rows with new keys are appended. -/
theorem rows_insertAll {as : List α} :
    ∀ {t : Table α}, (∀ a ∈ as, t.Fresh (key a)) → (as.map key).Nodup →
      (t.insertAll as).rows = t.rows ++ as := by
  induction as with
  | nil => exact fun _ _ => (List.append_nil _).symm
  | cons a as ih =>
    intro t hf hn
    rw [List.map_cons, List.nodup_cons] at hn
    rw [insertAll, List.foldl_cons, ← insertAll, ih ?_ hn.2, rows_insert (hf a List.mem_cons_self),
      List.append_assoc, List.singleton_append]
    intro b hb c hc hk
    rcases mem_of_mem_insert hc with hc | rfl
    · exact hf b (List.mem_cons_of_mem _ hb) c hc hk
    · exact hn.1 (hk ▸ List.mem_map_of_mem hb)

theorem select_insertAll {t : Table α} {as : List α} {p : α → Bool}
    (h : ∀ a ∈ as, t.Fresh (key a)) (hn : (as.map key).Nodup) :
    (t.insertAll as).select p = t.select p ++ as.filter p := by
  rw [select, rows_insertAll h hn, List.filter_append, select]

/-- Rows a condition does not select leave the selected rows as they are. -/
theorem select_insert_of_not {t : Table α} {a : α} {p : α → Bool} (h : ¬ p a = true) :
    (t.insert a).select p = t.select p := by
  rw [insert]
  split
  · rfl
  · simp [select, h]

theorem select_insertAll_of_not {p : α → Bool} {as : List α} (h : ∀ a ∈ as, ¬ p a = true) :
    ∀ t : Table α, (t.insertAll as).select p = t.select p := by
  induction as with
  | nil => exact fun _ => rfl
  | cons a as ih =>
    intro t
    rw [insertAll, List.foldl_cons, ← insertAll, ih fun b hb => h b (List.mem_cons_of_mem _ hb),
      select_insert_of_not (h a List.mem_cons_self)]

theorem get_update {t : Table α} {p : α → Bool} {f : α → α} {hf : ∀ a, key (f a) = key a}
    {k : κ} :
    (t.update p f hf).get k = (t.get k).map fun a => if p a then f a else a := by
  have hkey : ∀ a : α, key (if p a then f a else a) = key a := by
    intro a
    by_cases h : p a <;> simp [h, hf]
  simp only [get, scalar, update, List.find?_map]
  congr 2
  funext a
  simp [Function.comp, hkey]

theorem get_update_of_get {t : Table α} {p : α → Bool} {f : α → α}
    (hf : ∀ a, key (f a) = key a) {k : κ} {a : α} (h : t.get k = some a) :
    (t.update p f hf).get k = some (if p a then f a else a) := by
  rw [get_update, h, Option.map_some]

/-- An insertion does not change what a taken key finds. -/
theorem get_insert_of_get {t : Table α} {a b : α} {k : κ} (h : t.get k = some b) :
    (t.insert a).get k = some b := by
  obtain ⟨hm, hk⟩ := get_eq_some.mp h
  exact get_eq_some.mpr ⟨mem_insert_of_mem hm, hk⟩

/-- A row inserted under a free key is found. -/
theorem get_insert_self {t : Table α} {a : α} (h : t.get (key a) = none) :
    (t.insert a).get (key a) = some a :=
  get_eq_some.mpr ⟨(mem_insert (get_eq_none.mp h)).mpr (.inr rfl), rfl⟩

/-- An insertion does not change what another key finds. -/
theorem get_insert_of_ne {t : Table α} {a : α} {k : κ} (h : key a ≠ k) :
    (t.insert a).get k = t.get k := by
  rw [get, get, scalar_eq_head?, scalar_eq_head?, select_insert_of_not (by simpa using h)]

omit [DecidableEq κ] in
/-- An update of rows with a key that is free among the selected ones leaves these as they are. -/
theorem select_update_fresh {t : Table α} {p q : α → Bool} {f : α → α} {k : κ}
    (hf : ∀ a, key (f a) = key a) (hfresh : (t.keep q).Fresh k)
    (hp : ∀ a ∈ t, p a = true → key a = k) (hq : ∀ a, q (f a) = q a) :
    (t.update p f hf).select q = t.select q := by
  refine select_update_of_not hf fun a ha hpa => ?_
  have hnot : q a = false := by
    rw [Bool.eq_false_iff]
    exact fun hqa => hfresh a (mem_keep.mpr ⟨ha, hqa⟩) (hp a ha hpa)
  exact ⟨hnot, (hq a).trans hnot⟩

omit [DecidableEq κ] in
/-- So does a deletion of rows with such a key. -/
theorem select_delete_fresh {t : Table α} {p q : α → Bool} {k : κ} (hfresh : (t.keep q).Fresh k)
    (hp : ∀ a ∈ t, p a = true → key a = k) : (t.delete p).select q = t.select q := by
  refine select_delete_of_not fun a ha hqa => ?_
  rw [Bool.eq_false_iff]
  exact fun hpa => hfresh a (mem_keep.mpr ⟨ha, hqa⟩) (hp a ha hpa)

/-- A part has the row of a key that it keeps. -/
theorem get_keep {t : Table α} {q : α → Bool} {k : κ} (h : ∀ a ∈ t, key a = k → q a = true) :
    (t.keep q).get k = t.get k :=
  scalar_keep fun a ha hk => h a ha (of_decide_eq_true hk)

/-- A new row that is kept is inserted into the part. -/
theorem keep_insert {t : Table α} {q : α → Bool} {a : α} (hfresh : t.Fresh (key a))
    (hq : q a = true) : (t.insert a).keep q = (t.keep q).insert a := by
  have hpart : (t.keep q).Fresh (key a) := fun b hb => hfresh b (mem_keep.mp hb).1
  refine ext ((select_insert hfresh).trans ?_)
  rw [if_pos hq, rows_insert hpart]
  rfl

/-- An update elsewhere does not change what a key finds. -/
theorem get_update_of_not {t : Table α} {p : α → Bool} {f : α → α}
    (hf : ∀ a, key (f a) = key a) {k : κ} (h : ∀ a ∈ t, key a = k → p a = false ∨ f a = a) :
    (t.update p f hf).get k = t.get k := by
  rw [get_update]
  rcases hg : t.get k with _ | a
  · rfl
  · obtain ⟨hm, hk⟩ := get_eq_some.mp hg
    rcases h a hm hk with hp | hp <;> simp [hp]

end Table

end DouyinCaption.Tables

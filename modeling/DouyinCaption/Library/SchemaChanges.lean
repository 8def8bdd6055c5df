import Mathlib.Data.List.Forall2
import DouyinCaption.Library.Tables

/-!
# Changing the schema of a table

`alter` is an `ALTER TABLE` that rewrites the rows: it fails where one of them does not fit the
new columns. It keeps the order of the rows and their keys, so that what it does is said row by
row.
-/

namespace DouyinCaption.Tables

universe u v

variable {α β : Type u} {κ : Type v}

/-- A list is mapped by a partial function when every member is, one by one. -/
theorem mapM_eq_some {f : α → Option β} :
    ∀ {l : List α} {l' : List β},
      l.mapM f = some l' ↔ List.Forall₂ (fun a b => f a = some b) l l'
  | [], l' => by
      rw [List.mapM_nil, List.forall₂_nil_left_iff]
      exact ⟨fun h => (Option.some.inj h).symm, fun h => congrArg some h.symm⟩
  | a :: l, l' => by
      rw [List.mapM_cons, List.forall₂_cons_left_iff]
      constructor
      · intro h
        obtain ⟨b, hb, h⟩ := Option.bind_eq_some_iff.mp h
        obtain ⟨rest, hrest, h⟩ := Option.bind_eq_some_iff.mp h
        exact ⟨b, rest, hb, mapM_eq_some.mp hrest, (Option.some.inj h).symm⟩
      · rintro ⟨b, rest, hb, hrest, rfl⟩
        rw [hb, mapM_eq_some.mpr hrest]
        rfl

/-- It is, when the function is defined on the members. -/
theorem exists_forall₂ {R : α → β → Prop} :
    ∀ {l : List α}, (∀ a ∈ l, ∃ b, R a b) → ∃ l', List.Forall₂ R l l'
  | [], _ => ⟨[], .nil⟩
  | a :: l, h => by
      obtain ⟨b, hb⟩ := h a List.mem_cons_self
      obtain ⟨l', hl⟩ := exists_forall₂ fun c hc => h c (List.mem_cons_of_mem _ hc)
      exact ⟨b :: l', .cons hb hl⟩

/-- Every member on the right is related to one on the left. -/
theorem exists_left_of_mem {R : α → β → Prop} {l : List α} {l' : List β}
    (h : List.Forall₂ R l l') {b : β} (hb : b ∈ l') : ∃ a ∈ l, R a b := by
  induction h with
  | nil => cases hb
  | cons hab _ ih =>
    rcases List.mem_cons.mp hb with rfl | hb
    · exact ⟨_, List.mem_cons_self, hab⟩
    · obtain ⟨a, ha, hR⟩ := ih hb
      exact ⟨a, List.mem_cons_of_mem _ ha, hR⟩

namespace Table

open Keyed

variable [Keyed α κ] [Keyed β κ] {f : α → Option β}
  {hf : ∀ a b, f a = some b → key b = key a} {t : Table α} {t' : Table β}

/-- Rows rewritten one by one keep their keys. -/
theorem keys_of_forall₂ {l : List α} {l' : List β}
    (hf : ∀ a b, f a = some b → key b = key a)
    (h : List.Forall₂ (fun a b => f a = some b) l l') : l'.map key = l.map key := by
  induction h with
  | nil => rfl
  | cons hb _ ih => rw [List.map_cons, List.map_cons, hf _ _ hb, ih]

/-- Rewrite every row; `none` where one does not fit the new schema. -/
def alter (t : Table α) (f : α → Option β) (hf : ∀ a b, f a = some b → key b = key a) :
    Option (Table β) :=
  match h : t.rows.mapM f with
  | some rows => some ⟨rows, by
      rw [keys_of_forall₂ hf (mapM_eq_some.mp h)]
      exact t.nodup⟩
  | none => none

/-- What an altered table holds, row by row. -/
theorem alter_eq_some :
    t.alter f hf = some t' ↔ List.Forall₂ (fun a b => f a = some b) t.rows t'.rows := by
  rw [← mapM_eq_some, alter]
  constructor
  · intro h
    split at h
    · rename_i rows hrows
      obtain rfl := Option.some.inj h
      exact hrows
    · cases h
  · intro h
    split
    · rename_i rows hrows
      exact congrArg some (ext (Option.some.inj (hrows.symm.trans h)))
    · rename_i hnone
      cases hnone.symm.trans h

/-- A table all of whose rows fit is altered. -/
theorem exists_alter (hf : ∀ a b, f a = some b → key b = key a) (h : ∀ a ∈ t, ∃ b, f a = some b) :
    ∃ t', t.alter f hf = some t' := by
  obtain ⟨rows, hrows⟩ := exists_forall₂ h
  have hkeys := keys_of_forall₂ hf hrows
  exact ⟨⟨rows, hkeys ▸ t.nodup⟩, alter_eq_some.mpr hrows⟩

end Table

end DouyinCaption.Tables

import Mathlib.Data.List.Induction
import Mathlib.Logic.Relation

/-!
# Ancestry

Records that are only ever appended, each of them a root or linked to a record that was there
before it (`Grown`). From every record the links lead to a root (`Grown.reaches`), and where a
record has one link at most and a root none, they never lead back (`not_cyclic`).
-/

namespace DouyinCaption.Ancestry

open Relation

universe u v

variable {α : Type u} {link : α → α → Prop} {root : α → Prop} {l : List α}

/-- Records in the order they were added: each is a root, or linked to one before it. -/
inductive Grown (link : α → α → Prop) (root : α → Prop) : List α → Prop where
  | nil : Grown link root []
  | snoc {l : List α} {a : α} :
      Grown link root l → (root a ∨ ∃ b ∈ l, link a b) → Grown link root (l ++ [a])

/-- A link between two records of the list. -/
def Within (link : α → α → Prop) (l : List α) (a b : α) : Prop := a ∈ l ∧ b ∈ l ∧ link a b

theorem Within.mono {l' : List α} (hl : ∀ a ∈ l, a ∈ l') {a b : α} (h : Within link l a b) :
    Within link l' a b :=
  ⟨hl a h.1, hl b h.2.1, h.2.2⟩

/-- **Every record leads to a root**, by induction on the order of the additions. -/
theorem Grown.reaches (h : Grown link root l) :
    ∀ a ∈ l, ∃ r ∈ l, root r ∧ ReflTransGen (Within link l) a r := by
  induction h with
  | nil => exact fun a ha => absurd ha List.not_mem_nil
  | @snoc l x _ hx ih =>
    have hold : ∀ a ∈ l, ∃ r ∈ l, root r ∧ ReflTransGen (Within link (l ++ [x])) a r := by
      intro a ha
      obtain ⟨r, hr, hroot, hpath⟩ := ih a ha
      refine ⟨r, hr, hroot, ReflTransGen.mono (fun a b h => ?_) _ _ hpath⟩
      exact h.mono fun c hc => List.mem_append_left _ hc
    intro a ha
    rcases List.mem_append.mp ha with ha | ha
    · obtain ⟨r, hr, hroot, hpath⟩ := hold a ha
      exact ⟨r, List.mem_append_left _ hr, hroot, hpath⟩
    · obtain rfl := List.mem_singleton.mp ha
      rcases hx with hroot | ⟨b, hb, hlink⟩
      · exact ⟨a, List.mem_append_right _ ha, hroot, .refl⟩
      · obtain ⟨r, hr, hroot, hpath⟩ := hold b hb
        refine ⟨r, List.mem_append_left _ hr, hroot, hpath.head ⟨?_, ?_, hlink⟩⟩
        · exact List.mem_append_right _ ha
        · exact List.mem_append_left _ hb

/-- Renaming the records changes nothing. -/
theorem Grown.of_map {β : Type v} {f : β → α} : ∀ {l : List β}, Grown link root (l.map f) →
    Grown (fun a b => link (f a) (f b)) (fun a => root (f a)) l := by
  intro l
  induction l using List.reverseRecOn with
  | nil => exact fun _ => .nil
  | append_singleton l x ih =>
    intro h
    rw [List.map_append, List.map_singleton] at h
    generalize hys : l.map f ++ [f x] = ys at h
    cases h with
    | nil => exact absurd hys (by simp)
    | @snoc l' y hl' hy =>
      obtain ⟨rfl, hyx⟩ := List.append_inj' hys rfl
      obtain rfl := List.singleton_inj.mp hyx
      refine .snoc (ih hl') (hy.imp_right ?_)
      rintro ⟨b, hb, hlink⟩
      obtain ⟨c, hc, rfl⟩ := List.mem_map.mp hb
      exact ⟨c, hc, hlink⟩

/-- **The links never lead back.** Where a record is linked to one other at most and a root to
none, a record from which they lead to a root is on no cycle. -/
theorem not_cyclic (huniq : ∀ a b c, link a b → link a c → b = c)
    (hroot : ∀ r b, root r → ¬ link r b) {a r : α} (h : ReflTransGen link a r) (hr : root r) :
    ¬ TransGen link a a := by
  -- whatever follows a record on a cycle is on the cycle too
  have hcycle : ∀ {x y : α}, ReflTransGen link x y → TransGen link x x → TransGen link y y := by
    intro x y hxy hx
    induction hxy with
    | refl => exact hx
    | tail _ hstep ih =>
      obtain ⟨z, hz, hback⟩ := TransGen.head'_iff.mp ih
      obtain rfl := huniq _ _ _ hz hstep
      exact TransGen.tail' hback hz
  intro ha
  obtain ⟨b, hb, -⟩ := TransGen.head'_iff.mp (hcycle h ha)
  exact hroot r b hr hb

/-- What every link keeps is the same at both ends of a path. -/
theorem eq_of_path {β : Type v} {g : α → β} (hg : ∀ a b, link a b → g a = g b)
    {a b : α} (h : ReflTransGen link a b) : g a = g b := by
  induction h with
  | refl => rfl
  | tail _ hstep ih => exact ih.trans (hg _ _ hstep)

end DouyinCaption.Ancestry

import Mathlib.Data.List.Basic

/-!
# Machines with several users

A machine answers inputs one after the other, each on behalf of a user. It separates its users
(`Machine.Separates`) where an input finds and changes nothing but the part of the state that
is its user's; then what a user is answered is what the user would be answered alone
(`Machine.Separates.alone`).
-/

namespace DouyinCaption.Machines

universe u v w x

/-- A machine that answers inputs one after the other. -/
structure Machine (σ : Type u) (ι : Type v) (ο : Type w) where
  /-- the next state and the answer -/
  step : σ → ι → σ × ο

variable {σ : Type u} {ι : Type v} {ο : Type w} {υ : Type x}

/-- The inputs with their answers. -/
def Machine.run (M : Machine σ ι ο) : σ → List ι → List (ι × ο)
  | _, [] => []
  | s, i :: is => (i, (M.step s i).2) :: M.run (M.step s i).1 is

/-- Every input meets the condition where it is answered. -/
def Machine.Meets (M : Machine σ ι ο) (P : σ → ι → Prop) : σ → List ι → Prop
  | _, [] => True
  | s, i :: is => P s i ∧ M.Meets P (M.step s i).1 is

/-- An input that meets the condition is answered from the part of its user, changes it as it
would alone, and leaves the parts of the others as they are. -/
structure Machine.Separates (M : Machine σ ι ο) (who : ι → υ) (part : υ → σ → σ) (I : σ → Prop)
    (P : σ → ι → Prop) : Prop where
  kept : ∀ {s i}, I s → P s i → I (M.step s i).1
  own : ∀ {s i}, I s → P s i →
    M.step (part (who i) s) i = (part (who i) (M.step s i).1, (M.step s i).2)
  others : ∀ {s i} {u : υ}, I s → P s i → who i ≠ u → part u (M.step s i).1 = part u s

variable {M : Machine σ ι ο} {who : ι → υ} {part : υ → σ → σ} {I : σ → Prop} {P : σ → ι → Prop}

/-- **A user is answered as if alone**, by induction on the inputs. -/
theorem Machine.Separates.alone [DecidableEq υ] (h : M.Separates who part I P) (u : υ)
    {is : List ι} : ∀ {s : σ}, I s → M.Meets P s is →
      (M.run s is).filter (fun x => who x.1 = u) =
        M.run (part u s) (is.filter fun i => who i = u) := by
  induction is with
  | nil => exact fun _ _ => rfl
  | cons i is ih =>
    intro s hi hmeets
    have hrest := ih (h.kept hi hmeets.1) hmeets.2
    by_cases hu : who i = u
    · subst hu
      rw [Machine.run, List.filter_cons_of_pos (by simp), List.filter_cons_of_pos (by simp),
        Machine.run, h.own hi hmeets.1, hrest]
    · rw [Machine.run, List.filter_cons_of_neg (by simpa using hu),
        List.filter_cons_of_neg (by simpa using hu), hrest, h.others hi hmeets.1 hu]

end DouyinCaption.Machines

import DouyinCaption.Library.Runs
import Mathlib.Logic.Relation

/-!
# Views of a system

What is seen of a system at an index is a value; the system simulates a relation on these values
if every step leaves what is seen at an index as it is, or makes one step of the relation there.
The two sides may lean on each other: the steps may use what the relation keeps of the values
(`I`), and what the system keeps besides (`J`).
-/

namespace DouyinCaption.Runs

universe u v w x

variable {σ : Type u} {α : Type v} {ι : Type w} {τ : Type x}

/-- Every step shows as a step of the relation, or not at all. -/
structure Simulates (M : System σ α) (P : σ → α → Prop) (view : σ → ι → τ) (T : τ → τ → Prop)
    (I : τ → Prop) (J : σ → Prop) : Prop where
  init : ∀ s, M.init s → J s ∧ ∀ i, I (view s i)
  kept : ∀ v v', I v → T v v' → I v'
  step : ∀ s a s', Reach M P s → J s → (∀ i, I (view s i)) → P s a → M.step s a = some s' →
    J s' ∧ ∀ i, view s' i = view s i ∨ T (view s i) (view s' i)

variable {M : System σ α} {P : σ → α → Prop} {view : σ → ι → τ} {T : τ → τ → Prop} {I : τ → Prop}
  {J : σ → Prop} {s s' : σ}

/-- **What the relation keeps is seen in every run.** -/
theorem Simulates.holds (h : Simulates M P view T I J) (hs : Reach M P s) :
    J s ∧ ∀ i, I (view s i) := by
  refine hs.invariant (I := fun s => J s ∧ ∀ i, I (view s i)) h.init
    fun s a s' hr hi hp hstep => ?_
  obtain ⟨hj, hviews⟩ := h.step s a s' hr hi.1 hi.2 hp hstep
  refine ⟨hj, fun i => ?_⟩
  rcases hviews i with he | ht
  · exact he ▸ hi.2 i
  · exact h.kept _ _ (hi.2 i) ht

/-- **A run shows as a path of the relation.** -/
theorem Simulates.follows (h : Simulates M P view T I J) (hs : Reach M P s)
    (hsteps : Steps M P s s') (i : ι) : Relation.ReflTransGen T (view s i) (view s' i) := by
  induction hsteps with
  | refl => exact .refl
  | tail hst hp hstep ih =>
    have hr := hs.append hst
    obtain ⟨hj, hi⟩ := h.holds hr
    rcases (h.step _ _ _ hr hj hi hp hstep).2 i with he | ht
    · exact he ▸ ih
    · exact ih.tail ht

end DouyinCaption.Runs

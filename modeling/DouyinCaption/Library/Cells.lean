import Mathlib.Data.List.Infix
import Mathlib.Order.Lattice.Nat

/-!
# Cutting a list at sorted points

`cells` are the stretches between the neighbours of a sorted list of cut points. Every position
between the first and the last point lies in one of them (`exists_cell`), no cut point lies
inside one (`not_inside_cell`), and put together again they are the list between the first and
the last point (`flatten_cells`).
-/

namespace DouyinCaption

/-- The neighbours in a list of cut points. -/
def cells (points : List ℕ) : List (ℕ × ℕ) := points.zip points.tail

@[simp] theorem cells_singleton (x : ℕ) : cells [x] = [] := rfl

@[simp] theorem cells_cons_cons (x y : ℕ) (points : List ℕ) :
    cells (x :: y :: points) = (x, y) :: cells (y :: points) := rfl

/-- Where a cell lies. -/
theorem bounds_of_cell : ∀ {x : ℕ} {points : List ℕ}, (x :: points).Pairwise (· < ·) →
    ∀ c ∈ cells (x :: points), x ≤ c.1 ∧ c.1 < c.2 ∧ c.2 ∈ x :: points := by
  intro x points
  induction points generalizing x with
  | nil => exact fun _ c hc => absurd hc List.not_mem_nil
  | cons y points ih =>
    intro h c hc
    obtain ⟨hx, hpoints⟩ := List.pairwise_cons.mp h
    have hxy := hx y List.mem_cons_self
    rw [cells_cons_cons] at hc
    rcases List.mem_cons.mp hc with rfl | hc
    · exact ⟨le_rfl, hxy, List.mem_cons_of_mem _ List.mem_cons_self⟩
    · obtain ⟨hle, hlt, hmem⟩ := ih hpoints c hc
      exact ⟨hxy.le.trans hle, hlt, List.mem_cons_of_mem _ hmem⟩

/-- No cut point lies inside a cell. -/
theorem not_inside_cell : ∀ {x : ℕ} {points : List ℕ}, (x :: points).Pairwise (· < ·) →
    ∀ c ∈ cells (x :: points), ∀ b ∈ x :: points, b ≤ c.1 ∨ c.2 ≤ b := by
  intro x points
  induction points generalizing x with
  | nil => exact fun _ c hc => absurd hc List.not_mem_nil
  | cons y points ih =>
    intro h c hc b hb
    obtain ⟨hx, hpoints⟩ := List.pairwise_cons.mp h
    rw [cells_cons_cons] at hc
    rcases List.mem_cons.mp hc with rfl | hcell
    · rcases List.mem_cons.mp hb with rfl | hb
      · exact .inl le_rfl
      · rcases List.mem_cons.mp hb with rfl | hb
        · exact .inr le_rfl
        · exact .inr ((List.pairwise_cons.mp hpoints).1 b hb).le
    · rcases List.mem_cons.mp hb with rfl | hb
      · exact .inl ((hx y List.mem_cons_self).le.trans (bounds_of_cell hpoints c hcell).1)
      · exact ih hpoints c hcell b hb

/-- Every position up to a cut point lies in a cell. -/
theorem exists_cell : ∀ {x : ℕ} {points : List ℕ} {i b : ℕ}, b ∈ x :: points → x ≤ i → i < b →
    ∃ c ∈ cells (x :: points), c.1 ≤ i ∧ i < c.2 := by
  intro x points
  induction points generalizing x with
  | nil =>
    intro i b hb hx hi
    obtain rfl := List.mem_singleton.mp hb
    omega
  | cons y points ih =>
    intro i b hb hx hi
    rw [cells_cons_cons]
    by_cases hy : i < y
    · exact ⟨(x, y), List.mem_cons_self, hx, hy⟩
    · have hb' : b ∈ y :: points := by
        rcases List.mem_cons.mp hb with rfl | hb
        · omega
        · exact hb
      obtain ⟨c, hc, hci⟩ := ih hb' (Nat.le_of_not_lt hy) hi
      exact ⟨c, List.mem_cons_of_mem _ hc, hci⟩

/-- Put together again, the cells are the stretch they were cut from. -/
theorem flatten_cells {α : Type*} (text : List α) : ∀ {x : ℕ} {points : List ℕ},
    (x :: points).Pairwise (· < ·) → ∀ stop ∈ x :: points, (∀ b ∈ x :: points, b ≤ stop) →
      ((cells (x :: points)).map fun c => (text.take c.2).drop c.1).flatten =
        (text.take stop).drop x := by
  intro x points
  induction points generalizing x with
  | nil =>
    intro _ stop hstop _
    obtain rfl := List.mem_singleton.mp hstop
    rw [cells_singleton, List.map_nil, List.flatten_nil,
      List.drop_eq_nil_of_le (List.length_take_le _ _)]
  | cons y points ih =>
    intro h stop hstop hmax
    obtain ⟨hx, hpoints⟩ := List.pairwise_cons.mp h
    have hxy : x < y := hx y List.mem_cons_self
    have hyz : y ≤ stop := hmax y (List.mem_cons_of_mem _ List.mem_cons_self)
    have hstop' : stop ∈ y :: points := by
      rcases List.mem_cons.mp hstop with rfl | h
      · omega
      · exact h
    have htake : (text.take stop).take y = text.take y := by
      rw [List.take_take, Nat.min_eq_left hyz]
    rw [cells_cons_cons, List.map_cons, List.flatten_cons,
      ih hpoints stop hstop' fun b hb => hmax b (List.mem_cons_of_mem _ hb), ← htake]
    -- the stretch up to `y`, and the stretch from `y` on
    rw [List.drop_take, show (text.take stop).drop y =
      ((text.take stop).drop x).drop (y - x) by rw [List.drop_drop, Nat.add_sub_cancel' hxy.le],
      List.take_append_drop]

end DouyinCaption

import Mathlib.Data.List.Basic
import Mathlib.Order.Lattice
import Mathlib.Tactic.Common

/-!
# Fixed windows

A counter with fixed windows: the first call opens a window, calls count while it is open, and
the first call after its end opens the next one. When a window ends is a function `ends` of the
time it was opened at. `window` says which calls count, from their times alone. A counter keeps
the count and the end of its window, or nothing when the window is over (`Tracks`); `advance` is
what it does at a call (`Tracks.advance`).

Two counters whose windows end at different times count alike as long as no call comes in
between (`Agree`, `window_congr`).
-/

namespace DouyinCaption.Windows

variable {T : Type*} [LinearOrder T] {ends : T → T}

/-- The calls that count, the newest first, of calls at these times, the newest first. -/
def window (ends : T → T) : List T → List T
  | [] => []
  | t :: earlier =>
    match (window ends earlier).getLast? with
    | none => [t]
    | some opened => if t < ends opened then t :: window ends earlier else [t]

/-- The time the current window was opened. -/
def opened (ends : T → T) (times : List T) : Option T := (window ends times).getLast?

theorem window_of_over {t : T} {times : List T}
    (h : ∀ s, opened ends times = some s → ¬ t < ends s) : window ends (t :: times) = [t] := by
  rw [window]
  split
  · rfl
  · rename_i s hs
    exact if_neg (h s hs)

theorem window_of_open {t s : T} {times : List T} (h : opened ends times = some s)
    (hlt : t < ends s) : window ends (t :: times) = t :: window ends times := by
  rw [window, show (window ends times).getLast? = some s from h]
  exact if_pos hlt

theorem opened_of_over {t : T} {times : List T}
    (h : ∀ s, opened ends times = some s → ¬ t < ends s) :
    opened ends (t :: times) = some t := by
  rw [opened, window_of_over h, List.getLast?_singleton]

theorem opened_of_open {t s : T} {times : List T} (h : opened ends times = some s)
    (hlt : t < ends s) : opened ends (t :: times) = some s := by
  have hne : window ends times ≠ [] := by
    intro hnil
    rw [opened, hnil] at h
    cases h
  rw [opened, window_of_open h hlt, List.getLast?_cons_of_ne_nil hne]
  exact h

theorem mem_of_mem_window {t : T} {times : List T} (h : t ∈ window ends times) : t ∈ times := by
  induction times with
  | nil => exact h
  | cons t' earlier ih =>
    rw [window] at h
    split at h
    · exact List.mem_singleton.mp h ▸ List.mem_cons_self
    · split at h
      · exact (List.mem_cons.mp h).elim (fun h => h ▸ List.mem_cons_self)
          fun h => List.mem_cons_of_mem _ (ih h)
      · exact List.mem_singleton.mp h ▸ List.mem_cons_self

/-! ## Two ends -/

/-- No call comes while a window is over by one of its two ends and not by the other. -/
def Agree (ends ends' : T → T) : List T → Prop
  | [] => True
  | t :: earlier => Agree ends ends' earlier ∧
      ∀ s ∈ opened ends earlier, t < ends s ↔ t < ends' s

instance decidableAgree (ends ends' : T → T) : ∀ times, Decidable (Agree ends ends' times)
  | [] => .isTrue trivial
  | t :: earlier =>
    have := decidableAgree ends ends' earlier
    inferInstanceAs (Decidable (Agree ends ends' earlier ∧
      ∀ s ∈ opened ends earlier, t < ends s ↔ t < ends' s))

/-- The same calls count then. -/
theorem window_congr {ends ends' : T → T} {times : List T} (h : Agree ends ends' times) :
    window ends times = window ends' times := by
  induction times with
  | nil => rfl
  | cons t earlier ih =>
    have hwindow := ih h.1
    rw [window, window, ← hwindow]
    split
    · rfl
    · rename_i s hs
      exact if_congr (h.2 s hs) rfl rfl

/-- No call comes between two ends that are the same. -/
theorem agree_of_eq {ends ends' : T → T} {times : List T} (h : ∀ t ∈ times, ends t = ends' t) :
    Agree ends ends' times := by
  induction times with
  | nil => trivial
  | cons t earlier ih =>
    refine ⟨ih fun s hs => h s (List.mem_cons_of_mem _ hs), fun s hs => ?_⟩
    have hmem : s ∈ earlier := mem_of_mem_window (List.mem_of_getLast? hs)
    rw [h s (List.mem_cons_of_mem _ hmem)]

/-! ## Counters -/

/-- What a counter does with its count and the end of its window at a call. -/
def advance (ends : T → T) (t : T) (counter : Option (ℕ × T)) : ℕ × T :=
  match counter with
  | none => (1, ends t)
  | some (count, stop) => if stop ≤ t then (1, ends t) else (count + 1, stop)

/-- A counter that was looked at last at `now` is right about the calls at these times. -/
def Tracks (ends : T → T) (now : T) (times : List T) : Option (ℕ × T) → Prop
  | none => ∀ s, opened ends times = some s → ends s ≤ now
  | some (count, stop) => count = (window ends times).length ∧
      ∃ s, opened ends times = some s ∧ stop = ends s

theorem Tracks.nil (ends : T → T) (now : T) : Tracks ends now [] none := fun _ h => nomatch h

/-- Time passes. -/
theorem Tracks.later {now t : T} {times : List T} {counter : Option (ℕ × T)}
    (h : Tracks ends now times counter) (hle : now ≤ t) : Tracks ends t times counter := by
  cases counter with
  | none => exact fun s hs => (h s hs).trans hle
  | some c => exact h

/-- A counter whose window is over can be dropped. -/
theorem Tracks.drop {now : T} {times : List T} {count : ℕ} {stop : T}
    (h : Tracks ends now times (some (count, stop))) (hle : stop ≤ now) :
    Tracks ends now times none := by
  obtain ⟨-, s, hs, rfl⟩ := h
  intro s' hs'
  obtain rfl := Option.some.inj (hs.symm.trans hs')
  exact hle

/-- **A call.** The counter stays right, and its count is the number of calls in the window. -/
theorem Tracks.advance {now t : T} {times : List T} {counter : Option (ℕ × T)}
    (h : Tracks ends now times counter) (hle : now ≤ t) :
    Tracks ends t (t :: times) (some (advance ends t counter)) := by
  have hnew : (∀ s, opened ends times = some s → ¬ t < ends s) →
      Tracks ends t (t :: times) (some (1, ends t)) := by
    intro hover
    refine ⟨?_, t, opened_of_over hover, rfl⟩
    rw [window_of_over hover, List.length_singleton]
  cases counter with
  | none => exact hnew fun s hs => not_lt.mpr ((h s hs).trans hle)
  | some c =>
    obtain ⟨count, stop⟩ := c
    obtain ⟨rfl, s, hs, rfl⟩ := h
    rw [Windows.advance]
    split
    · refine hnew fun s' hs' => ?_
      obtain rfl := Option.some.inj (hs.symm.trans hs')
      exact not_lt.mpr ‹_›
    · have hlt : t < ends s := not_le.mp ‹_›
      refine ⟨?_, s, opened_of_open hs hlt, rfl⟩
      rw [window_of_open hs hlt, List.length_cons]

end DouyinCaption.Windows

import Mathlib.Data.Nat.Notation
import Mathlib.Data.Option.Basic
import Mathlib.Logic.Function.Basic

/-!
# Expiring leases

An abstract lock service: under each key it stores a token with a deadline, or with none.
A key is taken while its entry is live. Acquiring a free key stores a fresh token under it;
releasing deletes the entry if it still carries one's own token.

A lease *stands* while the service stores its token under its key. The law of the service
is that a lease stands as long as it is unexpired and unreleased, whatever other contenders
do; two unexpired leases of one key are therefore the same, and the release of a lease that
was taken over deletes nothing.
-/

namespace DouyinCaption.Leases

universe u v

variable {κ : Type u} {τ : Type v}

/-- What the service stores under a key. -/
structure Entry (τ : Type v) where
  /-- the token of the holder -/
  token : τ
  /-- the instant from which the entry is gone; `none` for an entry that stays -/
  expiresAt : Option ℕ
  deriving DecidableEq

/-- Whether a deadline has not passed. -/
def before (now : ℕ) : Option ℕ → Bool
  | none => true
  | some t => decide (now < t)

/-- A later instant is past more deadlines. -/
theorem before_of_le {now later : ℕ} (h : now ≤ later) {d : Option ℕ}
    (hd : before later d = true) : before now d = true := by
  cases d with
  | none => rfl
  | some t =>
    simp only [before, decide_eq_true_eq] at hd ⊢
    omega

/-- The entries of the service by key. -/
abbrev Store (κ : Type u) (τ : Type v) := κ → Option (Entry τ)

/-- What a holder keeps of its acquisition. -/
structure Lease (κ : Type u) (τ : Type v) where
  /-- the key -/
  key : κ
  /-- the token stored for it -/
  token : τ
  /-- its deadline -/
  expiresAt : Option ℕ
  deriving DecidableEq

/-- The lease has not run out. -/
def Lease.unexpired (l : Lease κ τ) (now : ℕ) : Bool := before now l.expiresAt

namespace Store

/-- The entry of a key that has not run out. -/
def live (st : Store κ τ) (now : ℕ) (k : κ) : Option (Entry τ) :=
  (st k).filter fun e => before now e.expiresAt

/-- The service stores the lease's token under its key. -/
def Stands (st : Store κ τ) (l : Lease κ τ) : Prop :=
  st l.key = some ⟨l.token, l.expiresAt⟩

theorem live_of_stands {st : Store κ τ} {l : Lease κ τ} {now : ℕ} (h : st.Stands l)
    (hl : l.unexpired now = true) : st.live now l.key = some ⟨l.token, l.expiresAt⟩ := by
  rw [live, h, Option.filter_some]
  exact if_pos hl

/-- **Exclusion.** Two leases of one key that both stand are the same lease. -/
theorem Stands.unique {st : Store κ τ} {l l' : Lease κ τ} (h : st.Stands l) (h' : st.Stands l')
    (hk : l.key = l'.key) : l = l' := by
  rw [Stands] at h h'
  rw [hk, h'] at h
  cases l; cases l'
  simp_all

variable [DecidableEq κ]

/-- Take a free key. -/
def tryAcquire (st : Store κ τ) (now : ℕ) (ttl : Option ℕ) (k : κ) (token : τ) :
    Option (Store κ τ × Lease κ τ) :=
  match st.live now k with
  | some _ => none
  | none =>
      let deadline := ttl.map (now + ·)
      some (Function.update st k (some ⟨token, deadline⟩), ⟨k, token, deadline⟩)

/-- Delete one's own entry. -/
def release [DecidableEq τ] (st : Store κ τ) (now : ℕ) (k : κ) (token : τ) : Store κ τ :=
  match st.live now k with
  | some e => if e.token = token then Function.update st k none else st
  | none => st

variable {st st' : Store κ τ} {l l' : Lease κ τ} {now : ℕ} {ttl : Option ℕ} {k : κ} {token : τ}

theorem tryAcquire_eq_some (h : st.tryAcquire now ttl k token = some (st', l)) :
    st.live now k = none ∧ l = ⟨k, token, ttl.map (now + ·)⟩ ∧
      st' = Function.update st k (some ⟨token, ttl.map (now + ·)⟩) := by
  rw [tryAcquire] at h
  split at h
  · cases h
  · rename_i hlive
    obtain ⟨rfl, rfl⟩ := Prod.mk.inj (Option.some.inj h)
    exact ⟨hlive, rfl, rfl⟩

/-- A key is refused exactly while an entry of it is live. -/
theorem tryAcquire_eq_none : st.tryAcquire now ttl k token = none ↔ st.live now k ≠ none := by
  rw [tryAcquire]
  split <;> simp_all

/-- A new lease stands. -/
theorem stands_of_tryAcquire (h : st.tryAcquire now ttl k token = some (st', l)) :
    st'.Stands l := by
  obtain ⟨-, rfl, rfl⟩ := tryAcquire_eq_some h
  exact Function.update_self _ _ _

/-- An acquisition does not disturb an unexpired lease. -/
theorem Stands.tryAcquire (hs : st.Stands l') (hl : l'.unexpired now = true)
    (h : st.tryAcquire now ttl k token = some (st', l)) : st'.Stands l' := by
  obtain ⟨hfree, -, rfl⟩ := tryAcquire_eq_some h
  have hne : l'.key ≠ k := by
    rintro rfl
    rw [live_of_stands hs hl] at hfree
    cases hfree
  rw [Stands, Function.update_of_ne hne]
  exact hs

/-- Acquiring one key leaves the entries of the others. -/
theorem tryAcquire_other (h : st.tryAcquire now ttl k token = some (st', l)) {k' : κ}
    (hk : k' ≠ k) : st' k' = st k' := by
  obtain ⟨-, -, rfl⟩ := tryAcquire_eq_some h
  exact Function.update_of_ne hk _ _

variable [DecidableEq τ]

/-- A release with another token does not disturb a lease. -/
theorem Stands.release (hs : st.Stands l) (ht : token ≠ l.token) :
    (st.release now k token).Stands l := by
  rw [Store.release]
  split
  · rename_i e he
    split
    · rename_i htok
      have hne : l.key ≠ k := by
        rintro rfl
        rw [live, hs, Option.filter_some] at he
        split at he
        · exact ht (by rw [← htok, ← Option.some.inj he])
        · cases he
      rw [Stands, Function.update_of_ne hne]
      exact hs
    · exact hs
  · exact hs

/-- **A late release deletes nothing**: where the key carries another token, releasing
leaves the service as it is. -/
theorem release_of_taken_over (hs : st.Stands l) (ht : token ≠ l.token) :
    st.release now l.key token = st := by
  rw [Store.release]
  split
  · rename_i e he
    rw [live, hs, Option.filter_some] at he
    split at he
    · rw [if_neg]
      rintro rfl
      exact ht (by rw [← Option.some.inj he])
    · cases he
  · rfl

/-- Releasing one key leaves the entries of the others. -/
theorem release_other {k' : κ} (hk : k' ≠ k) : st.release now k token k' = st k' := by
  rw [Store.release]
  rcases st.live now k with _ | e
  · rfl
  · by_cases ht : e.token = token
    · simp only [if_pos ht]
      exact Function.update_of_ne hk _ _
    · simp only [if_neg ht]

end Store

end DouyinCaption.Leases

import DouyinCaption.Dto
import DouyinCaption.Library.Lease

/-!
# The lock on a member's model calls

`app/modules/tasks/ai_lock.py`: `MemberAiCallLock`, which keeps a key with an expiry in
Redis for each member, and `InMemoryMemberAiCallLock`, a dictionary of one process. Both
refine the expiring leases of `Library.Lease` with the member as the key (`acquire_store`,
`release_store`), so what is proved of leases holds of both.

A token is the identifier drawn for it.
-/

namespace DouyinCaption

open Leases

/-- The Redis key of a member's lock. -/
def memberKey (memberId : Uuid) : Text :=
  "douyin-caption:member-ai-call:".toList ++ uuidText memberId

/-- A member's lease: `MemberAiLease` and `InMemoryMemberAiLease`, with the deadline the
first one got. -/
abbrev MemberLease : Type := Lease Uuid Uuid

/-- The state of the lock the workers share. -/
inductive CallLock where
  /-- `MemberAiCallLock`: the keys of the Redis server -/
  | redis (keys : Store Text Uuid)
  /-- `InMemoryMemberAiCallLock`: its `_tokens` -/
  | inMemory (tokens : Uuid → Option Uuid)

namespace CallLock

/-- `acquire`: `SET key token NX EX seconds`, or an entry of the dictionary; `none` for
`MemberAiCallBusyError`. -/
def acquire (now leaseSeconds : ℕ) (memberId token : Uuid) :
    CallLock → Option (CallLock × MemberLease)
  | .redis keys =>
      (keys.tryAcquire now (some leaseSeconds) (memberKey memberId) token).map fun r =>
        (.redis r.1, ⟨memberId, token, r.2.expiresAt⟩)
  | .inMemory tokens =>
      match tokens memberId with
      | some _ => none
      | none =>
          some (.inMemory (Function.update tokens memberId (some token)), ⟨memberId, token, none⟩)

/-- `__aexit__`: the release script, or the deletion from the dictionary. -/
def release (now : ℕ) (memberId token : Uuid) : CallLock → CallLock
  | .redis keys => .redis (keys.release now (memberKey memberId) token)
  | .inMemory tokens =>
      if tokens memberId = some token then .inMemory (Function.update tokens memberId none)
      else .inMemory tokens

/-- Redis drops a key before its time. -/
def evict (memberId : Uuid) : CallLock → CallLock
  | .redis keys => .redis (Function.update keys (memberKey memberId) none)
  | .inMemory tokens => .inMemory tokens

/-! ## The leases behind both -/

/-- The expiry an implementation gives its entries. -/
def ttl (leaseSeconds : ℕ) : CallLock → Option ℕ
  | .redis _ => some leaseSeconds
  | .inMemory _ => none

/-- The leases an implementation stores. -/
def store : CallLock → Store Uuid Uuid
  | .redis keys => fun memberId => keys (memberKey memberId)
  | .inMemory tokens => fun memberId => (tokens memberId).map fun token => ⟨token, none⟩

/-- Reading the hexadecimal digits of a number gives it back. -/
theorem ofHex_toDigits (n : ℕ) :
    (Nat.toDigits 16 n).foldl (fun acc c => 16 * acc + Json.hexValue c) 0 = n := by
  induction n using Nat.strongRecOn with
  | _ n ih =>
    have hdigit : ∀ d < 16, Json.hexValue (Nat.digitChar d) = d := by decide
    rw [Nat.toDigits_eq_if (by decide)]
    split
    · rename_i h
      simpa using hdigit n h
    · rename_i h
      rw [List.foldl_append, ih (n / 16) (Nat.div_lt_self (by omega) (by decide))]
      simp only [List.foldl_cons, List.foldl_nil, hdigit _ (Nat.mod_lt n (by decide))]
      omega

/-- Leading zeros do not change the number read. -/
theorem ofHex_zeros (k : ℕ) :
    (List.replicate k '0').foldl (fun acc c => 16 * acc + Json.hexValue c) 0 = 0 := by
  induction k with
  | zero => rfl
  | succ k ih =>
    rw [List.replicate_succ, List.foldl_cons]
    exact ih

/-- Two identifiers with one text are the same. -/
theorem uuidText_injective {a b : Uuid} (h : uuidText a = uuidText b) : a = b := by
  have hpadded : ∀ u : Uuid, ∃ p : Text, 32 ≤ p.length ∧
      p.foldl (fun acc c => 16 * acc + Json.hexValue c) 0 = u ∧
      uuidText u = p.take 8 ++ '-' :: ((p.drop 8).take 4 ++ '-' :: ((p.drop 12).take 4 ++
        '-' :: ((p.drop 16).take 4 ++ '-' :: p.drop 20))) := by
    intro u
    refine ⟨List.replicate (32 - (Nat.toDigits 16 u).length) '0' ++ Nat.toDigits 16 u, ?_, ?_, ?_⟩
    · rw [List.length_append, List.length_replicate]
      omega
    · rw [List.foldl_append, ofHex_zeros, ofHex_toDigits]
    · simp [uuidText]
  obtain ⟨p, hp, rfl, hpt⟩ := hpadded a
  obtain ⟨q, hq, rfl, hqt⟩ := hpadded b
  rw [hpt, hqt] at h
  obtain ⟨h₁, h⟩ := List.append_inj h (by simp; omega)
  obtain ⟨h₂, h⟩ := List.append_inj (List.cons.inj h).2 (by simp; omega)
  obtain ⟨h₃, h⟩ := List.append_inj (List.cons.inj h).2 (by simp; omega)
  obtain ⟨h₄, h⟩ := List.append_inj (List.cons.inj h).2 (by simp; omega)
  have hsplit : ∀ l : Text, l = l.take 8 ++ ((l.drop 8).take 4 ++ ((l.drop 12).take 4 ++
      ((l.drop 16).take 4 ++ l.drop 20))) := by
    intro l
    have e₁ : l.drop 12 = (l.drop 8).drop 4 := by rw [List.drop_drop]
    have e₂ : l.drop 16 = (l.drop 12).drop 4 := by rw [List.drop_drop]
    have e₃ : l.drop 20 = (l.drop 16).drop 4 := by rw [List.drop_drop]
    rw [e₃, List.take_append_drop, e₂, List.take_append_drop, e₁, List.take_append_drop,
      List.take_append_drop]
  rw [hsplit p, hsplit q, h₁, h₂, h₃, h₄, (List.cons.inj h).2]

/-- Different members have different keys. -/
theorem memberKey_injective {a b : Uuid} (h : memberKey a = memberKey b) : a = b :=
  uuidText_injective (List.append_cancel_left h)

theorem store_redis_update (keys : Store Text Uuid) (memberId : Uuid) (e : Option (Entry Uuid)) :
    (redis (Function.update keys (memberKey memberId) e)).store =
      Function.update (redis keys).store memberId e := by
  funext m
  by_cases hm : m = memberId
  · subst hm
    simp [store]
  · have hk : memberKey m ≠ memberKey memberId := fun h => hm (memberKey_injective h)
    simp [store, Function.update_of_ne hm, Function.update_of_ne hk]

theorem store_inMemory_update (tokens : Uuid → Option Uuid) (memberId : Uuid)
    (token : Option Uuid) :
    (inMemory (Function.update tokens memberId token)).store =
      Function.update (inMemory tokens).store memberId (token.map fun t => ⟨t, none⟩) := by
  funext m
  by_cases hm : m = memberId
  · subst hm
    simp [store]
  · simp [store, Function.update_of_ne hm]

/-- **Acquiring refines the leases**: both implementations grant and refuse a member's lock
as the expiring leases do. -/
theorem acquire_store (l : CallLock) (now leaseSeconds : ℕ) (memberId token : Uuid) :
    (l.acquire now leaseSeconds memberId token).map (fun r => (r.1.store, r.2)) =
      l.store.tryAcquire now (l.ttl leaseSeconds) memberId token := by
  cases l with
  | redis keys =>
    have hlive : (redis keys).store.live now memberId = keys.live now (memberKey memberId) := rfl
    have hacquire : (redis keys).acquire now leaseSeconds memberId token =
        (keys.tryAcquire now (some leaseSeconds) (memberKey memberId) token).map fun r =>
          (.redis r.1, ⟨memberId, token, r.2.expiresAt⟩) := rfl
    rw [hacquire, Store.tryAcquire, Store.tryAcquire, hlive]
    rcases keys.live now (memberKey memberId) with _ | e
    · simp only [Option.map_some, store_redis_update, ttl]
    · rfl
  | inMemory tokens =>
    have hlive : (inMemory tokens).store.live now memberId =
        (tokens memberId).map fun t => ⟨t, none⟩ := by
      simp only [Store.live, store]
      rcases tokens memberId with _ | t <;> rfl
    rw [Store.tryAcquire, hlive]
    rcases ht : tokens memberId with _ | t
    · have hacquire : (inMemory tokens).acquire now leaseSeconds memberId token =
          some (.inMemory (Function.update tokens memberId (some token)),
            ⟨memberId, token, none⟩) := by
        simp only [acquire, ht]
      rw [hacquire]
      simp only [Option.map_some, store_inMemory_update, ttl, Option.map_none]
    · have hacquire : (inMemory tokens).acquire now leaseSeconds memberId token = none := by
        simp only [acquire, ht]
      rw [hacquire]
      rfl

/-- The lease of a member is a lease on the member's key, with the token and the deadline the
implementation stores. -/
theorem acquire_store_some {l l' : CallLock} {now leaseSeconds : ℕ} {memberId token : Uuid}
    {lease : MemberLease} (h : l.acquire now leaseSeconds memberId token = some (l', lease)) :
    l.store.tryAcquire now (l.ttl leaseSeconds) memberId token = some (l'.store, lease) := by
  rw [← acquire_store, h]
  rfl

theorem acquire_key {l l' : CallLock} {now leaseSeconds : ℕ} {memberId token : Uuid}
    {lease : MemberLease} (h : l.acquire now leaseSeconds memberId token = some (l', lease)) :
    lease.key = memberId := by
  obtain ⟨-, rfl, -⟩ := Store.tryAcquire_eq_some (acquire_store_some h)
  rfl

/-- **Releasing refines the leases.** -/
theorem release_store (l : CallLock) (now : ℕ) (memberId token : Uuid) :
    (l.release now memberId token).store = l.store.release now memberId token := by
  cases l with
  | redis keys =>
    have hlive : (redis keys).store.live now memberId = keys.live now (memberKey memberId) := rfl
    have hrelease : (redis keys).release now memberId token =
        redis (keys.release now (memberKey memberId) token) := rfl
    rw [hrelease, Store.release, Store.release, hlive]
    rcases keys.live now (memberKey memberId) with _ | e
    · rfl
    · by_cases ht : e.token = token
      · simp only [if_pos ht]
        exact store_redis_update keys memberId none
      · simp only [if_neg ht]
  | inMemory tokens =>
    have hlive : (inMemory tokens).store.live now memberId =
        (tokens memberId).map fun t => ⟨t, none⟩ := by
      simp only [Store.live, store]
      rcases tokens memberId with _ | t <;> rfl
    have hrelease : (inMemory tokens).release now memberId token =
        if tokens memberId = some token then .inMemory (Function.update tokens memberId none)
        else .inMemory tokens := rfl
    rw [hrelease, Store.release, hlive]
    rcases ht : tokens memberId with _ | t
    · rw [if_neg (by simp)]
      rfl
    · by_cases h : t = token
      · subst h
        rw [if_pos rfl]
        simp only [Option.map_some, if_true]
        exact store_inMemory_update tokens memberId none
      · rw [if_neg fun e => h (Option.some.inj e)]
        simp only [Option.map_some, if_neg h]

/-- An implementation stays the one it is. -/
theorem ttl_acquire {l l' : CallLock} {now leaseSeconds n : ℕ} {memberId token : Uuid}
    {lease : MemberLease} (h : l.acquire now leaseSeconds memberId token = some (l', lease)) :
    l'.ttl n = l.ttl n := by
  cases l with
  | redis keys =>
    obtain ⟨_, -, he⟩ := Option.map_eq_some_iff.mp h
    obtain ⟨rfl, -⟩ := Prod.mk.inj he
    rfl
  | inMemory tokens =>
    simp only [acquire] at h
    split at h
    · cases h
    · obtain ⟨rfl, -⟩ := Prod.mk.inj (Option.some.inj h)
      rfl

@[simp] theorem ttl_release (l : CallLock) (now n : ℕ) (memberId token : Uuid) :
    (l.release now memberId token).ttl n = l.ttl n := by
  cases l with
  | redis keys => rfl
  | inMemory tokens =>
    simp only [release]
    split <;> rfl

@[simp] theorem ttl_evict (l : CallLock) (n : ℕ) (memberId : Uuid) :
    (l.evict memberId).ttl n = l.ttl n := by
  cases l <;> rfl

end CallLock

end DouyinCaption

import Mathlib.Data.List.Induction
import DouyinCaption.Domain
import DouyinCaption.Library.Doubles
import DouyinCaption.Library.Windows

/-!
# The limits on logins

`app/modules/identity/rate_limit.py`: a login counts on three keys, the address with the name,
the address, and the name. `LoginRateLimiter` keeps the counts in Redis, where a key vanishes
at the end of its window; `InMemoryLoginRateLimiter` keeps them with the end of the window and
drops what is over at every thousandth check.

Both keep counters that are right about the calls on every key (`Windows.Tracks`). The end of a
window in memory is a sum of doubles, so it is not quite where Redis has it: the two accept the
same calls as long as none comes in between (`limiters_agree`).
-/

namespace DouyinCaption

open Doubles (nearest)
open Windows

/-- What the limiters take from elsewhere. -/
structure RateConfig where
  /-- `hashlib.sha256(…).hexdigest()` of the UTF-8 text -/
  sha256 : Text → Text
  /-- `str.casefold` -/
  casefold : Text → Text
  /-- the seconds `TTL` shows for a remaining time -/
  ttlSeconds : ℚ → ℤ

/-- `LoginRateLimits` -/
structure LoginRateLimits where
  windowSeconds : ℤ := 60
  perIpUsername : ℤ := 5
  perIp : ℤ := 30
  perUsername : ℤ := 15

/-- The thresholds, in the order of the keys. -/
def LoginRateLimits.thresholds (limits : LoginRateLimits) : List ℤ :=
  [limits.perIpUsername, limits.perIp, limits.perUsername]

/-- `now + self._limits.window_seconds`, a sum of doubles. -/
def LoginRateLimits.bucketEnd (limits : LoginRateLimits) (now : ℚ) : ℚ :=
  nearest (now + nearest limits.windowSeconds)

/-- The time a key vanishes that gets its time to live now. -/
def LoginRateLimits.keyEnd (limits : LoginRateLimits) (now : ℚ) : ℚ := now + limits.windowSeconds

/-- What a limiter raises: `LoginRateLimitExceeded`, `LoginRateLimitUnavailable`. -/
inductive LoginRateLimitError where
  | exceeded (retryAfter : ℤ)
  | unavailable
  deriving DecidableEq

/-- `LoginRateLimitExceeded.__init__` -/
def exceeded (retryAfter : ℤ) : LoginRateLimitError := .exceeded (max retryAfter 1)

/-- `any(count > threshold for … in zip(counts, thresholds))` -/
def anyExceeds (counts thresholds : List ℤ) : Bool :=
  (counts.zip thresholds).any fun p => p.1 > p.2

theorem anyExceeds_eq_false {a b c x y z : ℤ} :
    anyExceeds [a, b, c] [x, y, z] = false ↔ a ≤ x ∧ b ≤ y ∧ c ≤ z := by
  simp [anyExceeds]

/-! ## Keys -/

/-- `_digest` -/
def digest24 (cfg : RateConfig) (value : Text) : Text := (cfg.sha256 value).take 24

/-- A call of `check`, and what the clock shows. -/
structure LoginCall where
  now : ℚ
  clientIp : Text
  username : Text

/-- The key of an address with a name. -/
def pairKey (ipDigest usernameDigest : Text) : Text :=
  "douyin-caption:login:pair:".toList ++ ipDigest ++ ':' :: usernameDigest

/-- The key of an address. -/
def ipKey (ipDigest : Text) : Text := "douyin-caption:login:ip:".toList ++ ipDigest

/-- The key of a name. -/
def usernameKey (usernameDigest : Text) : Text :=
  "douyin-caption:login:username:".toList ++ usernameDigest

/-- `_rate_keys` -/
def rateKeys (cfg : RateConfig) (c : LoginCall) : List Text :=
  let normalizedUsername := cfg.casefold (strip c.username)
  let ipDigest := digest24 cfg (strip c.clientIp)
  let usernameDigest := digest24 cfg normalizedUsername
  [pairKey ipDigest usernameDigest, ipKey ipDigest, usernameKey usernameDigest]

/-- `for key in keys` over a state. -/
def forKeys {σ α : Type} (body : Text → σ → α × σ) : List Text → σ → List α × σ
  | [], s => ([], s)
  | key :: keys, s =>
    let r := body key s
    let rest := forKeys body keys r.2
    (r.1 :: rest.1, rest.2)

/-! ## In memory -/

/-- `_buckets`: a count and the time its window ends. -/
abbrev Buckets : Type := Text → Option (ℕ × ℚ)

/-- `InMemoryLoginRateLimiter` -/
structure InMemoryLoginRateLimiter where
  buckets : Buckets
  checks : ℕ

/-- A limiter as it is constructed. -/
def InMemoryLoginRateLimiter.new : InMemoryLoginRateLimiter := ⟨fun _ => none, 0⟩

/-- `int(x)` -/
def pyInt (x : ℚ) : ℤ := x.num.tdiv x.den

/-- `max(int(expires_at - now + 0.999), 1)` -/
def retryValue (expiresAt now : ℚ) : ℤ :=
  max (pyInt (nearest (nearest (expiresAt - now) + nearest (999 / 1000)))) 1

/-- The body of the loop of `InMemoryLoginRateLimiter.check`: the count and the retry value. -/
def countBucket (limits : LoginRateLimits) (now : ℚ) (key : Text) (buckets : Buckets) :
    (ℕ × ℤ) × Buckets :=
  let (count, expiresAt) := (buckets key).getD (0, limits.bucketEnd now)
  let (count, expiresAt) :=
    if expiresAt ≤ now then (0, limits.bucketEnd now) else (count, expiresAt)
  let count := count + 1
  ((count, retryValue expiresAt now), Function.update buckets key (some (count, expiresAt)))

/-- `InMemoryLoginRateLimiter.check` -/
def InMemoryLoginRateLimiter.check (cfg : RateConfig) (limits : LoginRateLimits)
    (s : InMemoryLoginRateLimiter) (c : LoginCall) :
    Except LoginRateLimitError Unit × InMemoryLoginRateLimiter :=
  let checks := s.checks + 1
  let buckets : Buckets :=
    if checks % 1000 = 0 then fun key => (s.buckets key).filter fun b => b.2 > c.now
    else s.buckets
  let (values, buckets) := forKeys (countBucket limits c.now) (rateKeys cfg c) buckets
  let outcome :=
    if anyExceeds (values.map fun v => (v.1 : ℤ)) limits.thresholds then
      .error (exceeded ((values.map Prod.snd).max?.getD 1))
    else .ok ()
  (outcome, ⟨buckets, checks⟩)

/-! ## In Redis -/

/-- A number in Redis, and when its key vanishes. -/
structure RedisEntry where
  value : ℕ
  expiresAt : Option ℚ

/-- The keys of Redis. -/
abbrev Redis : Type := Text → Option RedisEntry

/-- The entry a command sees at a time: a key whose time is over has vanished. -/
def Redis.get (db : Redis) (now : ℚ) (key : Text) : Option RedisEntry :=
  (db key).filter fun e => e.expiresAt.all fun t => now < t

/-- `INCR` -/
def Redis.incr (db : Redis) (now : ℚ) (key : Text) : ℕ × Redis :=
  let e := (db.get now key).getD ⟨0, none⟩
  (e.value + 1, Function.update db key (some { e with value := e.value + 1 }))

/-- `EXPIRE`: a time that is not positive removes the key. -/
def Redis.expire (db : Redis) (now : ℚ) (key : Text) (seconds : ℤ) : Redis :=
  if seconds ≤ 0 then Function.update db key none
  else Function.update db key ((db.get now key).map fun e =>
    { e with expiresAt := some (now + seconds) })

/-- `TTL` -/
def Redis.ttl (cfg : RateConfig) (db : Redis) (now : ℚ) (key : Text) : ℤ :=
  match db.get now key with
  | none => -2
  | some ⟨_, none⟩ => -1
  | some ⟨_, some t⟩ => cfg.ttlSeconds (t - now)

/-- The body of the loop of `_RATE_LIMIT_SCRIPT`: the count and the time to live. -/
def scriptBody (cfg : RateConfig) (limits : LoginRateLimits) (now : ℚ) (key : Text) (db : Redis) :
    (ℕ × ℤ) × Redis :=
  let (count, db) := db.incr now key
  let db := if count = 1 then db.expire now key limits.windowSeconds else db
  ((count, db.ttl cfg now key), db)

/-- `_RATE_LIMIT_SCRIPT` -/
def rateLimitScript (cfg : RateConfig) (limits : LoginRateLimits) (now : ℚ) (keys : List Text)
    (db : Redis) : List ℤ × Redis :=
  let (values, db) := forKeys (scriptBody cfg limits now) keys db
  (values.flatMap fun v => [(v.1 : ℤ), v.2], db)

/-- `LoginRateLimiter.check` -/
def LoginRateLimiter.check (cfg : RateConfig) (limits : LoginRateLimits) (db : Redis)
    (c : LoginCall) : Except LoginRateLimitError Unit × Redis :=
  let (values, db) := rateLimitScript cfg limits c.now (rateKeys cfg c) db
  let outcome :=
    match values with
    | [count₁, ttl₁, count₂, ttl₂, count₃, ttl₃] =>
      if anyExceeds [count₁, count₂, count₃] limits.thresholds then
        .error (exceeded (max (max (max ttl₁ ttl₂) ttl₃) 1))
      else .ok ()
    | _ => .error .unavailable
  (outcome, db)

/-! ## One key -/

/-- A store whose entries are counters that are right about the calls on each key. -/
def Right {β : Type} (entry : Option (ℕ × ℚ) → Option β) (ends : ℚ → ℚ) (now : ℚ)
    (times : Text → List ℚ) (store : Text → Option β) : Prop :=
  ∀ key, ∃ counter, store key = entry counter ∧ Tracks ends now (times key) counter

theorem Right.later {β : Type} {entry : Option (ℕ × ℚ) → Option β} {ends : ℚ → ℚ} {now t : ℚ}
    {times : Text → List ℚ} {store : Text → Option β} (h : Right entry ends now times store)
    (hle : now ≤ t) : Right entry ends t times store := fun key =>
  (h key).imp fun _ hc => hc.imp_right fun ht => ht.later hle

/-- The entry of Redis for a counter. -/
def redisEntry (counter : Option (ℕ × ℚ)) : Option RedisEntry :=
  counter.map fun c => ⟨c.1, some c.2⟩

/-- What the body of a limiter's loop does with a key: it counts the call. -/
def Counts {β : Type} (entry : Option (ℕ × ℚ) → Option β) (ends : ℚ → ℚ) (now : ℚ)
    (body : Text → (Text → Option β) → (ℕ × ℤ) × (Text → Option β)) : Prop :=
  ∀ key store counter times, store key = entry counter → Tracks ends now times counter →
    (body key store).1.1 = (window ends (now :: times)).length ∧
    ∃ counter', (body key store).2 = Function.update store key (entry counter') ∧
      Tracks ends now (now :: times) counter'

theorem counts_countBucket (limits : LoginRateLimits) (now : ℚ) :
    Counts id limits.bucketEnd now (countBucket limits now) := by
  intro key buckets counter times hkey htracks
  have hbody : countBucket limits now key buckets =
      (((advance limits.bucketEnd now counter).1,
        retryValue (advance limits.bucketEnd now counter).2 now),
        Function.update buckets key (some (advance limits.bucketEnd now counter))) := by
    rw [countBucket, hkey]
    cases counter with
    | none => simp only [id, Option.getD_none, ite_self, advance]
    | some c =>
      simp only [id, Option.getD_some, advance]
      split <;> rfl
  have hnext := htracks.advance le_rfl
  rw [hbody]
  exact ⟨hnext.1, _, rfl, hnext⟩

/-- A key that is not there, or has vanished, counts from one and gets a time to live. -/
theorem scriptBody_of_missing (cfg : RateConfig) (limits : LoginRateLimits) {now : ℚ}
    {key : Text} {db : Redis} (h : db.get now key = none) :
    (scriptBody cfg limits now key db).1.1 = 1 ∧
      (scriptBody cfg limits now key db).2 = Function.update db key
        (if limits.windowSeconds ≤ 0 then none else some ⟨1, some (limits.keyEnd now)⟩) := by
  have hincr : db.incr now key = (1, Function.update db key (some ⟨1, none⟩)) := by
    rw [Redis.incr, h]
    rfl
  have hget : Redis.get (Function.update db key (some ⟨1, none⟩)) now key =
      some ⟨1, none⟩ := by
    rw [Redis.get, Function.update_self]
    rfl
  simp only [scriptBody, hincr, if_true, Redis.expire, hget, true_and]
  split
  · rw [Function.update_idem]
  · rw [Function.update_idem]
    rfl

/-- A key that is there counts on, and keeps its time to live. -/
theorem scriptBody_of_live (cfg : RateConfig) (limits : LoginRateLimits) {now : ℚ} {key : Text}
    {db : Redis} {e : RedisEntry} (h : db.get now key = some e) (hvalue : e.value ≠ 0) :
    (scriptBody cfg limits now key db).1.1 = e.value + 1 ∧
      (scriptBody cfg limits now key db).2 =
        Function.update db key (some { e with value := e.value + 1 }) := by
  have hincr : db.incr now key =
      (e.value + 1, Function.update db key (some { e with value := e.value + 1 })) := by
    rw [Redis.incr, h]
    rfl
  have hne : ¬ e.value + 1 = 1 := by omega
  simp only [scriptBody, hincr, if_neg hne, true_and]

theorem counts_scriptBody (cfg : RateConfig) (limits : LoginRateLimits) (now : ℚ) :
    Counts redisEntry limits.keyEnd now (scriptBody cfg limits now) := by
  intro key db counter times hkey htracks
  have hnext := htracks.advance le_rfl
  have hnew : Redis.get db now key = none →
      advance limits.keyEnd now counter = (1, limits.keyEnd now) →
      (scriptBody cfg limits now key db).1.1 = (window limits.keyEnd (now :: times)).length ∧
      ∃ counter', (scriptBody cfg limits now key db).2 =
          Function.update db key (redisEntry counter') ∧
        Tracks limits.keyEnd now (now :: times) counter' := by
    intro hget hadvance
    rw [hadvance] at hnext
    obtain ⟨hcount, hdb⟩ := scriptBody_of_missing cfg limits hget
    rw [hcount, hdb]
    refine ⟨hnext.1, ?_⟩
    split
    · -- a window without length is over at once
      rename_i hle
      have hstop : limits.keyEnd now ≤ now := add_le_of_nonpos_right (by exact_mod_cast hle)
      exact ⟨none, rfl, hnext.drop hstop⟩
    · exact ⟨some (1, limits.keyEnd now), rfl, hnext⟩
  cases counter with
  | none => exact hnew (by rw [Redis.get, hkey]; rfl) rfl
  | some c =>
    obtain ⟨count, stop⟩ := c
    have hget : Redis.get db now key = if now < stop then some ⟨count, some stop⟩ else none := by
      rw [Redis.get, hkey]
      simp only [redisEntry, Option.map_some, Option.filter_some, Option.all_some,
        decide_eq_true_eq]
    by_cases hover : stop ≤ now
    · refine hnew ?_ (if_pos hover)
      rw [hget, if_neg (not_lt.mpr hover)]
    · have hpos : count ≠ 0 := by
        obtain ⟨rfl, s, hs, -⟩ := htracks
        intro hzero
        rw [opened, List.length_eq_zero_iff.mp hzero] at hs
        cases hs
      rw [if_pos (not_le.mp hover)] at hget
      obtain ⟨hcount, hdb⟩ := scriptBody_of_live cfg limits hget hpos
      rw [advance, if_neg hover] at hnext
      rw [hcount, hdb]
      exact ⟨hnext.1, some (count + 1, stop), rfl, hnext⟩

/-! ## The keys of a call -/

/-- The loop over the keys counts the call on each of them and on no other. -/
theorem forKeys_spec {β : Type} {entry : Option (ℕ × ℚ) → Option β} {ends : ℚ → ℚ} {now : ℚ}
    {body : Text → (Text → Option β) → (ℕ × ℤ) × (Text → Option β)}
    (hbody : Counts entry ends now body) : ∀ {keys : List Text}, keys.Nodup →
      ∀ {times : Text → List ℚ} {store : Text → Option β}, Right entry ends now times store →
        (forKeys body keys store).1.map Prod.fst =
          keys.map (fun key => (window ends (now :: times key)).length) ∧
        Right entry ends now (fun key => if key ∈ keys then now :: times key else times key)
          (forKeys body keys store).2 := by
  intro keys
  induction keys with
  | nil =>
    intro _ times store h
    refine ⟨rfl, fun key => ?_⟩
    simp only [List.not_mem_nil, if_false]
    exact h key
  | cons key keys ih =>
    intro hnodup times store h
    obtain ⟨hkey, hkeys⟩ := List.nodup_cons.mp hnodup
    obtain ⟨counter, hstore, htracks⟩ := h key
    obtain ⟨hcount, counter', hnext, htracks'⟩ := hbody key store counter _ hstore htracks
    have hright : Right entry ends now (Function.update times key (now :: times key))
        (body key store).2 := by
      intro k
      rw [hnext]
      by_cases hk : k = key
      · subst hk
        rw [Function.update_self, Function.update_self]
        exact ⟨counter', rfl, htracks'⟩
      · rw [Function.update_of_ne hk, Function.update_of_ne hk]
        exact h k
    obtain ⟨hcounts, hrest⟩ := ih hkeys hright
    have hother : ∀ k, k ≠ key → Function.update times key (now :: times key) k = times k :=
      fun k hk => Function.update_of_ne hk _ _
    rw [forKeys, List.map_cons, List.map_cons, hcount, hcounts]
    refine ⟨congrArg _ (List.map_congr_left fun k hk => ?_), fun k => ?_⟩
    · rw [hother k]
      rintro rfl
      exact hkey hk
    · have hk := hrest k
      simp only [List.mem_cons]
      by_cases he : k = key
      · subst he
        simp only [if_neg hkey, Function.update_self] at hk
        simp only [true_or, if_true]
        exact hk
      · simp only [hother k he] at hk
        simp only [he, false_or]
        exact hk

theorem pairKey_ne_ipKey (a b c : Text) : pairKey a b ≠ ipKey c := by
  intro h
  have h₂₁ : some 'p' = some 'i' := congrArg (fun l : Text => l[21]?) h
  exact absurd h₂₁ (by decide)

theorem pairKey_ne_usernameKey (a b c : Text) : pairKey a b ≠ usernameKey c := by
  intro h
  have h₂₁ : some 'p' = some 'u' := congrArg (fun l : Text => l[21]?) h
  exact absurd h₂₁ (by decide)

theorem ipKey_ne_usernameKey (a b : Text) : ipKey a ≠ usernameKey b := by
  intro h
  have h₂₁ : some 'i' = some 'u' := congrArg (fun l : Text => l[21]?) h
  exact absurd h₂₁ (by decide)

theorem rateKeys_nodup (cfg : RateConfig) (c : LoginCall) : (rateKeys cfg c).Nodup := by
  refine List.nodup_cons.mpr ⟨fun h => ?_, List.nodup_cons.mpr ⟨fun h => ?_,
    List.nodup_singleton _⟩⟩
  · simp only [List.mem_cons, List.not_mem_nil, or_false] at h
    exact h.elim (pairKey_ne_ipKey _ _ _) (pairKey_ne_usernameKey _ _ _)
  · exact ipKey_ne_usernameKey _ _ (List.mem_singleton.mp h)

theorem append_cons_inj {pre a b a' b' : Text} {s : Char} (hlen : a.length = a'.length)
    (h : pre ++ a ++ s :: b = pre ++ a' ++ s :: b') : a = a' ∧ b = b' := by
  rw [List.append_assoc, List.append_assoc] at h
  obtain ⟨ha, hb⟩ := List.append_inj (List.append_cancel_left h) hlen
  exact ⟨ha, (List.cons.inj hb).2⟩

/-- Digests of one length tell the parts of a pair apart. -/
theorem pairKey_inj {a b a' b' : Text} (hlen : a.length = a'.length) :
    pairKey a b = pairKey a' b' ↔ a = a' ∧ b = b' :=
  ⟨append_cons_inj hlen, fun h => h.1 ▸ h.2 ▸ rfl⟩

theorem ipKey_inj {a b : Text} : ipKey a = ipKey b ↔ a = b :=
  ⟨List.append_cancel_left, congrArg ipKey⟩

theorem usernameKey_inj {a b : Text} : usernameKey a = usernameKey b ↔ a = b :=
  ⟨List.append_cancel_left, congrArg usernameKey⟩

theorem pairKey_mem {cfg : RateConfig} {c : LoginCall} {a b : Text}
    (hlen : a.length = (digest24 cfg (strip c.clientIp)).length) :
    pairKey a b ∈ rateKeys cfg c ↔
      a = digest24 cfg (strip c.clientIp) ∧
        b = digest24 cfg (cfg.casefold (strip c.username)) := by
  rw [← pairKey_inj hlen]
  simp only [rateKeys, List.mem_cons, pairKey_ne_ipKey, pairKey_ne_usernameKey, List.not_mem_nil,
    or_false]

theorem ipKey_mem {cfg : RateConfig} {c : LoginCall} {a : Text} :
    ipKey a ∈ rateKeys cfg c ↔ a = digest24 cfg (strip c.clientIp) := by
  rw [← ipKey_inj]
  simp only [rateKeys, List.mem_cons, (pairKey_ne_ipKey _ _ _).symm, ipKey_ne_usernameKey,
    List.not_mem_nil, or_false, false_or]

theorem usernameKey_mem {cfg : RateConfig} {c : LoginCall} {a : Text} :
    usernameKey a ∈ rateKeys cfg c ↔ a = digest24 cfg (cfg.casefold (strip c.username)) := by
  rw [← usernameKey_inj]
  simp only [rateKeys, List.mem_cons, (pairKey_ne_usernameKey _ _ _).symm,
    (ipKey_ne_usernameKey _ _).symm, List.not_mem_nil, or_false, false_or]

/-! ## Runs -/

/-- The times of the calls that count on a key, the newest first. -/
def callTimes (cfg : RateConfig) (calls : List LoginCall) (key : Text) : List ℚ :=
  ((calls.filter fun c => decide (key ∈ rateKeys cfg c)).map LoginCall.now).reverse

theorem callTimes_snoc (cfg : RateConfig) (calls : List LoginCall) (c : LoginCall) :
    callTimes cfg (calls ++ [c]) = fun key =>
      if key ∈ rateKeys cfg c then c.now :: callTimes cfg calls key
      else callTimes cfg calls key := by
  funext key
  rw [callTimes, List.filter_append, List.map_append, List.reverse_append]
  by_cases h : key ∈ rateKeys cfg c
  · rw [if_pos h, List.filter_cons_of_pos (by simpa using h)]
    rfl
  · rw [if_neg h, List.filter_cons_of_neg (by simpa using h)]
    rfl

/-- The counts of a call on its keys, all the calls before it and the call counted. -/
def countsAt (cfg : RateConfig) (ends : ℚ → ℚ) (before : List LoginCall) (c : LoginCall) :
    List ℕ :=
  (rateKeys cfg c).map fun key => (window ends (c.now :: callTimes cfg before key)).length

/-- What a limiter answers for counts. -/
def Accepts (limits : LoginRateLimits) (counts : List ℕ) : Prop :=
  anyExceeds (counts.map Nat.cast) limits.thresholds = false

/-- What a limiter answers: it raises where a count exceeds. -/
def Answers (outcome : Except LoginRateLimitError Unit) (accepts : Prop) : Prop :=
  (outcome = .ok () ↔ accepts) ∧ ((∃ n, outcome = .error (.exceeded n)) ↔ ¬ accepts)

theorem answers_raise (b : Bool) (n : ℤ) :
    Answers (if b = true then Except.error (exceeded n) else Except.ok ()) (b = false) := by
  cases b with
  | false =>
    refine ⟨iff_of_true rfl rfl, iff_of_false ?_ (not_not.mpr rfl)⟩
    rintro ⟨m, hm⟩
    cases hm
  | true => exact ⟨iff_of_false (fun h => by cases h) (by decide), iff_of_true ⟨_, rfl⟩ (by decide)⟩

/-- One check in memory. -/
theorem memory_check (cfg : RateConfig) (limits : LoginRateLimits)
    {s : InMemoryLoginRateLimiter} {before : List LoginCall} {c : LoginCall} {now : ℚ}
    (h : Right id limits.bucketEnd now (callTimes cfg before) s.buckets) (hle : now ≤ c.now) :
    Answers (s.check cfg limits c).1 (Accepts limits (countsAt cfg limits.bucketEnd before c)) ∧
      Right id limits.bucketEnd c.now (callTimes cfg (before ++ [c]))
        (s.check cfg limits c).2.buckets := by
  -- what the purge drops is over
  have hpurge : Right id limits.bucketEnd c.now (callTimes cfg before)
      (if (s.checks + 1) % 1000 = 0 then
        fun key => (s.buckets key).filter fun b => b.2 > c.now
      else s.buckets) := by
    split
    · intro key
      obtain ⟨counter, hkey, htracks⟩ := h.later hle key
      simp only [hkey]
      cases counter with
      | none => exact ⟨none, rfl, htracks⟩
      | some b =>
        by_cases hb : b.2 > c.now
        · exact ⟨some b, Option.filter_some_pos (by simpa using hb), htracks⟩
        · exact ⟨none, Option.filter_some_neg (by simpa using hb), htracks.drop (not_lt.mp hb)⟩
    · exact h.later hle
  obtain ⟨hcounts, hright⟩ :=
    forKeys_spec (counts_countBucket limits c.now) (rateKeys_nodup cfg c) hpurge
  rw [← callTimes_snoc] at hright
  refine ⟨?_, hright⟩
  rw [Accepts, countsAt, ← hcounts, List.map_map]
  exact answers_raise _ _

/-- One check in Redis. -/
theorem redis_check (cfg : RateConfig) (limits : LoginRateLimits) {db : Redis}
    {before : List LoginCall} {c : LoginCall} {now : ℚ}
    (h : Right redisEntry limits.keyEnd now (callTimes cfg before) db) (hle : now ≤ c.now) :
    Answers (LoginRateLimiter.check cfg limits db c).1
        (Accepts limits (countsAt cfg limits.keyEnd before c)) ∧
      Right redisEntry limits.keyEnd c.now (callTimes cfg (before ++ [c]))
        (LoginRateLimiter.check cfg limits db c).2 := by
  obtain ⟨hcounts, hright⟩ := forKeys_spec (counts_scriptBody cfg limits c.now)
    (rateKeys_nodup cfg c) (h.later hle)
  rw [← callTimes_snoc] at hright
  refine ⟨?_, hright⟩
  rw [Accepts, countsAt, ← hcounts, List.map_map]
  exact answers_raise _ _

/-- The limiter in memory after these calls. -/
def memoryRun (cfg : RateConfig) (limits : LoginRateLimits) (calls : List LoginCall) :
    InMemoryLoginRateLimiter :=
  calls.foldl (fun s c => (s.check cfg limits c).2) .new

/-- Redis after these calls. -/
def redisRun (cfg : RateConfig) (limits : LoginRateLimits) (calls : List LoginCall) : Redis :=
  calls.foldl (fun db c => (LoginRateLimiter.check cfg limits db c).2) fun _ => none

/-- After calls in the order of their times both limiters are right about all of them. -/
theorem right_run (cfg : RateConfig) (limits : LoginRateLimits) (calls : List LoginCall) :
    (calls.Pairwise fun a b => a.now ≤ b.now) → ∀ now, (∀ c ∈ calls, c.now ≤ now) →
      Right id limits.bucketEnd now (callTimes cfg calls) (memoryRun cfg limits calls).buckets ∧
      Right redisEntry limits.keyEnd now (callTimes cfg calls) (redisRun cfg limits calls) := by
  induction calls using List.reverseRecOn with
  | nil =>
    intro _ now _
    exact ⟨fun _ => ⟨none, rfl, .nil _ _⟩, fun _ => ⟨none, rfl, .nil _ _⟩⟩
  | append_singleton calls c ih =>
    intro hmono now hnow
    obtain ⟨hcalls, -, hlast⟩ := List.pairwise_append.mp hmono
    obtain ⟨hmemory, hredis⟩ := ih hcalls c.now fun a ha =>
      hlast a ha c (List.mem_singleton_self c)
    have hle := hnow c (List.mem_append_right _ (List.mem_singleton_self c))
    rw [memoryRun, redisRun, List.foldl_append, List.foldl_append]
    exact ⟨(memory_check cfg limits hmemory le_rfl).2.later hle,
      (redis_check cfg limits hredis le_rfl).2.later hle⟩

/-! ## Addresses and names -/

/-- No two addresses of the calls have one digest, nor two names. -/
def NoCollisions (cfg : RateConfig) (calls : List LoginCall) : Prop :=
  ∀ a ∈ calls, ∀ b ∈ calls,
    (digest24 cfg (strip a.clientIp) = digest24 cfg (strip b.clientIp) →
      strip a.clientIp = strip b.clientIp) ∧
    (digest24 cfg (cfg.casefold (strip a.username)) =
        digest24 cfg (cfg.casefold (strip b.username)) →
      cfg.casefold (strip a.username) = cfg.casefold (strip b.username))

/-- How many of these calls were made since the current window was opened. -/
def callsInWindow (ends : ℚ → ℚ) (calls : List LoginCall) : ℕ :=
  (window ends (calls.map LoginCall.now).reverse).length

/-- The counts of a call are the calls in the windows of its address with its name, of its
address and of its name. -/
theorem countsAt_eq {cfg : RateConfig} (ends : ℚ → ℚ) {before : List LoginCall}
    {call : LoginCall} (hsha : ∀ t, (cfg.sha256 t).length = 64)
    (hcoll : NoCollisions cfg (before ++ [call])) :
    countsAt cfg ends before call =
      [callsInWindow ends ((before ++ [call]).filter fun c =>
          strip c.clientIp = strip call.clientIp ∧
            cfg.casefold (strip c.username) = cfg.casefold (strip call.username)),
        callsInWindow ends ((before ++ [call]).filter fun c =>
          strip c.clientIp = strip call.clientIp),
        callsInWindow ends ((before ++ [call]).filter fun c =>
          cfg.casefold (strip c.username) = cfg.casefold (strip call.username))] := by
  have hlen : ∀ t, (digest24 cfg t).length = 24 := by
    intro t
    rw [digest24, List.length_take, hsha]
    rfl
  have hcount : ∀ key ∈ rateKeys cfg call, ∀ same : LoginCall → Bool,
      (∀ c ∈ before ++ [call], decide (key ∈ rateKeys cfg c) = same c) →
      (window ends (call.now :: callTimes cfg before key)).length =
        callsInWindow ends ((before ++ [call]).filter same) := by
    intro key hkey same hsame
    have htimes : call.now :: callTimes cfg before key = callTimes cfg (before ++ [call]) key := by
      simp only [callTimes_snoc, if_pos hkey]
    rw [htimes, callTimes, callsInWindow, List.filter_congr hsame]
  have hcall : call ∈ before ++ [call] := List.mem_append_right _ (List.mem_singleton_self call)
  rw [countsAt, rateKeys, List.map_cons, List.map_cons, List.map_cons, List.map_nil,
    hcount _ List.mem_cons_self (fun c => decide (strip c.clientIp = strip call.clientIp ∧
      cfg.casefold (strip c.username) = cfg.casefold (strip call.username))),
    hcount _ (List.mem_cons_of_mem _ List.mem_cons_self)
      (fun c => decide (strip c.clientIp = strip call.clientIp)),
    hcount _ (List.mem_cons_of_mem _ (List.mem_cons_of_mem _ List.mem_cons_self))
      (fun c => decide (cfg.casefold (strip c.username) = cfg.casefold (strip call.username)))]
  · intro c hc
    refine decide_eq_decide.mpr (usernameKey_mem.trans ⟨fun h => ?_, fun h => h ▸ rfl⟩)
    exact ((hcoll call hcall c hc).2 h).symm
  · intro c hc
    refine decide_eq_decide.mpr (ipKey_mem.trans ⟨fun h => ?_, fun h => h ▸ rfl⟩)
    exact ((hcoll call hcall c hc).1 h).symm
  · intro c hc
    refine decide_eq_decide.mpr ((pairKey_mem ((hlen _).trans (hlen _).symm)).trans
      ⟨fun h => ?_, fun h => h.1 ▸ h.2 ▸ ⟨rfl, rfl⟩⟩)
    exact ⟨((hcoll call hcall c hc).1 h.1).symm, ((hcoll call hcall c hc).2 h.2).symm⟩

/-- None of these calls, which share a key, comes between the time a window ends and the double
the limiter in memory has for it. -/
def NoneBetween (limits : LoginRateLimits) (calls : List LoginCall) : Prop :=
  Agree limits.keyEnd limits.bucketEnd (calls.map LoginCall.now).reverse

/-- A clock that shows whole seconds never comes between. -/
theorem noneBetween_of_whole {limits : LoginRateLimits} {calls : List LoginCall}
    (hwindow : |limits.windowSeconds| < 2 ^ 53)
    (h : ∀ c ∈ calls, ∃ n : ℤ, c.now = n ∧ |n + limits.windowSeconds| < 2 ^ 53) :
    NoneBetween limits calls := by
  refine agree_of_eq fun t ht => ?_
  obtain ⟨c, hc, rfl⟩ := List.mem_map.mp (List.mem_reverse.mp ht)
  obtain ⟨n, hn, hsum⟩ := h c hc
  rw [LoginRateLimits.keyEnd, LoginRateLimits.bucketEnd, Doubles.nearest_intCast hwindow, hn,
    ← Int.cast_add, Doubles.nearest_intCast hsum]

/-- **Which calls each limiter accepts.** Those within the limit on the address with the name,
on the address and on the name, counting every call since the window was opened, the refused
ones and this one among them; every other call is refused. In Redis a window ends when its
length has passed, in memory at a double close by; the two accept the same calls where none
comes in between. -/
theorem limiters_agree (cfg : RateConfig) (limits : LoginRateLimits) (before : List LoginCall)
    (call : LoginCall) (hsha : ∀ t, (cfg.sha256 t).length = 64)
    (hmono : (before ++ [call]).Pairwise fun a b => a.now ≤ b.now)
    (hcoll : NoCollisions cfg (before ++ [call])) :
    let pairCalls := (before ++ [call]).filter fun c =>
      strip c.clientIp = strip call.clientIp ∧
        cfg.casefold (strip c.username) = cfg.casefold (strip call.username)
    let ipCalls := (before ++ [call]).filter fun c => strip c.clientIp = strip call.clientIp
    let usernameCalls := (before ++ [call]).filter fun c =>
      cfg.casefold (strip c.username) = cfg.casefold (strip call.username)
    let within (ends : ℚ → ℚ) :=
      (callsInWindow ends pairCalls : ℤ) ≤ limits.perIpUsername ∧
      (callsInWindow ends ipCalls : ℤ) ≤ limits.perIp ∧
      (callsInWindow ends usernameCalls : ℤ) ≤ limits.perUsername
    let memory := ((memoryRun cfg limits before).check cfg limits call).1
    let redis := (LoginRateLimiter.check cfg limits (redisRun cfg limits before) call).1
    Answers memory (within limits.bucketEnd) ∧ Answers redis (within limits.keyEnd) ∧
      (NoneBetween limits pairCalls → NoneBetween limits ipCalls →
        NoneBetween limits usernameCalls → Answers memory (within limits.keyEnd)) := by
  intro pairCalls ipCalls usernameCalls within memory redis
  obtain ⟨hbefore, -, hlast⟩ := List.pairwise_append.mp hmono
  obtain ⟨hmemory, hredis⟩ := right_run cfg limits before hbefore call.now fun a ha =>
    hlast a ha call (List.mem_singleton_self call)
  have haccepts : ∀ ends, Accepts limits (countsAt cfg ends before call) ↔ within ends := by
    intro ends
    rw [countsAt_eq ends hsha hcoll]
    exact anyExceeds_eq_false
  have hmemory : Answers memory (within limits.bucketEnd) := by
    rw [← haccepts]
    exact (memory_check cfg limits hmemory le_rfl).1
  refine ⟨hmemory, ?_, fun hpair hip husername => ?_⟩
  · rw [← haccepts]
    exact (redis_check cfg limits hredis le_rfl).1
  · have hwithin : within limits.keyEnd = within limits.bucketEnd := by
      simp only [within, callsInWindow, window_congr hpair, window_congr hip,
        window_congr husername]
    exact hwithin ▸ hmemory

/-- A sample of the parts that are not the limiters' own. -/
def sampleRateConfig : RateConfig where
  sha256 t := (t ++ List.replicate 64 '0').take 64
  casefold t := t.map Char.toLower
  ttlSeconds t := pyInt t

/-- The third login within a minute is refused, with blanks or without. -/
theorem limiters_agree_third :
    let before := [⟨100, "203.0.113.1".toList, " Member ".toList⟩,
      ⟨101, "203.0.113.1".toList, "member".toList⟩]
    let call : LoginCall := ⟨102, "203.0.113.1 ".toList, "MEMBER".toList⟩
    let limits : LoginRateLimits := { perIpUsername := 2, perIp := 100, perUsername := 100 }
    (∃ n, ((memoryRun sampleRateConfig limits before).check sampleRateConfig limits call).1 =
      .error (.exceeded n)) ∧
    ∃ n, (LoginRateLimiter.check sampleRateConfig limits
      (redisRun sampleRateConfig limits before) call).1 = .error (.exceeded n) := by
  intro before call limits
  have hsha : ∀ t, (sampleRateConfig.sha256 t).length = 64 := by
    intro t
    simp [sampleRateConfig]
  have hcoll : NoCollisions sampleRateConfig (before ++ [call]) := by
    rw [NoCollisions]
    decide
  obtain ⟨-, hredis, hagree⟩ :=
    limiters_agree sampleRateConfig limits before call hsha (by decide) hcoll
  have hmemory := hagree (by unfold NoneBetween; decide +kernel)
    (by unfold NoneBetween; decide +kernel) (by unfold NoneBetween; decide +kernel)
  exact ⟨hmemory.2.mpr (by decide +kernel), hredis.2.mpr (by decide +kernel)⟩

/-- A login at 0.3 seconds and one at 60.3: in memory the minute is over, in Redis it is not. -/
theorem limiters_disagree :
    let first : LoginCall := ⟨nearest (3 / 10), "203.0.113.1".toList, "member".toList⟩
    let second : LoginCall := { first with now := nearest (603 / 10) }
    let limits : LoginRateLimits := { perIpUsername := 1, perIp := 100, perUsername := 100 }
    first.now ≤ second.now ∧ second.now < first.now + limits.windowSeconds ∧
    ((memoryRun sampleRateConfig limits [first]).check sampleRateConfig limits second).1 = .ok () ∧
    ∃ n, (LoginRateLimiter.check sampleRateConfig limits
      (redisRun sampleRateConfig limits [first]) second).1 = .error (.exceeded n) := by
  intro first second limits
  have hright := right_run sampleRateConfig limits [first] (List.pairwise_singleton _ _)
    second.now (by decide +kernel)
  have hmemory := (memory_check sampleRateConfig limits (c := second) hright.1 le_rfl).1
  have hredis := (redis_check sampleRateConfig limits (c := second) hright.2 le_rfl).1
  exact ⟨by decide +kernel, by decide +kernel,
    hmemory.1.mpr (by unfold Accepts; decide +kernel),
    hredis.2.mpr (by unfold Accepts; decide +kernel)⟩

end DouyinCaption

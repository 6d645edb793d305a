/-
# Proxies that share a rate limit

`src/middleware/rate_limiter.rs`: `RedisRateLimitStore::take`, of any number of proxies that use
one Redis.  A take that cannot reach Redis, or whose reply is lost, is served by the in-memory
store of its own proxy.  So the limit is kept by several buckets: the one in Redis and one for each
proxy that falls back, each forgotten when it has been idle for its time to live and then made
anew.

What a call does to the store in Redis and to the stores of the proxies is `step_db` and
`step_fallback`.  Each of the stores is a bucket that is made anew now and then: a call that takes
from it finds that bucket or none (`Follows.visit`), and the others leave it there or drop it
(`Follows.other`).
-/

import Mathlib.Algebra.BigOperators.Fin
import Mathlib.Data.Fintype.Option
import Noxy.RateLimiter.Cleanup
import Noxy.RateLimiter.RedisExpiry
import Noxy.RateLimiter.Restarts

namespace Noxy
namespace RateLimiter

open Lib Redis

/-- What becomes of the script of a call. -/
inductive Outcome where
  /-- The script runs, and its reply arrives. -/
  | served
  /-- There is no connection, and the script does not run. -/
  | unreachable
  /-- The script runs, and its reply is lost. -/
  | lost
  deriving DecidableEq, Repr

/-- A call of `take` at one of `n` proxies. -/
structure Call (n : ℕ) where
  proxy : Fin n
  key : String
  now : ℚ
  outcome : Outcome
  order : IterOrder String BucketState

/-- `now_ms` of the script. -/
def Call.nowMs {n : ℕ} (c : Call n) : ℤ := ⌊c.now * 1000⌋

/-- The call, as the in-memory store sees it. -/
def Call.fallbackTake {n : ℕ} (c : Call n) : Take := ⟨c.key, c.now, c.order⟩

/-- `n` proxies with a `RedisRateLimitStore` each. -/
structure Fleet (n : ℕ) where
  redis : RedisRateLimitStore
  db : Db (Hash ℚ)
  fallback : Fin n → SharedState

namespace Fleet

variable {n : ℕ}

/-- `RedisRateLimitStore::new` at `n` proxies. -/
def new (redis : RedisRateLimitStore) (db : Db (Hash ℚ)) (now : ℚ) : Fleet n :=
  ⟨redis, db, fun _ => .new redis.rate redis.burst now⟩

/-- `fallback.take`. -/
def fallBack (f : Fleet n) (c : Call n) : Option ℚ × Fleet n :=
  let taken := (f.fallback c.proxy).take c.fallbackTake
  (taken.1, { f with fallback := Function.update f.fallback c.proxy taken.2 })

/-- `RedisRateLimitStore::take`. -/
def take (f : Fleet n) (c : Call n) : Option ℚ × Fleet n :=
  match c.outcome with
  | .unreachable => f.fallBack c
  | .lost => { f with db := f.redis.step c.key f.db c.nowMs }.fallBack c
  | .served =>
      match f.redis.script c.key c.nowMs f.db with
      | none => f.fallBack c
      | some (delayMs, db) =>
          (if 0 < delayMs then some ((delayMs : ℚ) / 1000) else none, { f with db := db })

/-- The fleet after a call. -/
def step (f : Fleet n) (c : Call n) : Fleet n := (f.take c).2

/-- The times at which the requests of a key are let through. -/
def releases (k : String) : Fleet n → List (Call n) → List ℚ
  | _, [] => []
  | f, c :: calls =>
      if c.key = k then (c.now + ((f.take c).1).getD 0) :: releases k (f.step c) calls
      else releases k (f.step c) calls

/-! ### The stores

A store is that of a proxy, or none of them: the one in Redis. -/

/-- The store that decides a call. -/
def decider (f : Fleet n) (c : Call n) : Option (Fin n) :=
  if c.outcome = .served ∧ (f.redis.script c.key c.nowMs f.db).isSome then none else some c.proxy

/-- Whether a call takes from a store. -/
def visits (f : Fleet n) (c : Call n) : Option (Fin n) → Bool
  | none => c.outcome ≠ .unreachable
  | some i => f.decider c = some i

/-- The time of a call on the clock of a store. -/
def clock (c : Call n) : Option (Fin n) → ℚ
  | none => secs c.nowMs
  | some _ => c.now

/-- Whether a call finds no bucket in a store. -/
def fresh (f : Fleet n) (c : Call n) : Option (Fin n) → Bool
  | none => ((elapse c.nowMs f.db).lookup (f.redis.redisKey c.key)).isNone
  | some i => (((f.fallback i).sweep c.fallbackTake).buckets.lookup c.key).isNone

/-- The time after which a store may forget a bucket. -/
def ttl (f : Fleet n) : Option (Fin n) → ℚ
  | none => (f.redis.ttlMs : ℚ) / 1000
  | some i => (f.fallback i).effectiveTtl

/-- A call, as a take from a store. -/
def visit (f : Fleet n) (c : Call n) (σ : Option (Fin n)) : Visit := ⟨clock c σ, f.fresh c σ⟩

/-- The takes of a key from a store. -/
def visitsAt (k : String) (σ : Option (Fin n)) : Fleet n → List (Call n) → List Visit
  | _, [] => []
  | f, c :: calls =>
      if c.key = k ∧ f.visits c σ then f.visit c σ :: visitsAt k σ (f.step c) calls
      else visitsAt k σ (f.step c) calls

/-- The releases of a key that a store decides. -/
def releasesFrom (k : String) (σ : Option (Fin n)) : Fleet n → List (Call n) → List ℚ
  | _, [] => []
  | f, c :: calls =>
      if c.key = k ∧ f.decider c = σ then
        (c.now + ((f.take c).1).getD 0) :: releasesFrom k σ (f.step c) calls
      else releasesFrom k σ (f.step c) calls

/-- How many buckets were made for a key. -/
def created (k : String) (f : Fleet n) (calls : List (Call n)) : ℕ :=
  ∑ σ, (f.visitsAt k σ calls).countP Visit.fresh

/-- The proxies that took from a bucket of their own. -/
def fellBack (k : String) (f : Fleet n) (calls : List (Call n)) : Finset (Fin n) :=
  {i | f.visitsAt k (some i) calls ≠ []}

/-! ### What a call does -/

theorem step_redis (f : Fleet n) (c : Call n) : (f.step c).redis = f.redis := by
  unfold step take fallBack
  split
  · rfl
  · rfl
  · split <;> rfl

theorem step_db (f : Fleet n) (c : Call n) :
    (f.step c).db =
      if c.outcome = .unreachable then f.db else f.redis.step c.key f.db c.nowMs := by
  unfold step take fallBack
  split
  · rename_i h
    rw [if_pos h]
  · rename_i h
    rw [if_neg (by simp [h])]
  · rename_i h
    rw [if_neg (by simp [h]), RedisRateLimitStore.step]
    split <;> rename_i hscript <;> rw [hscript] <;> rfl

theorem step_fallback (f : Fleet n) (c : Call n) (i : Fin n) :
    (f.step c).fallback i =
      if f.decider c = some i then (f.fallback i).step c.fallbackTake else f.fallback i := by
  have hback : ∀ g : Fleet n, g.fallback = f.fallback → (g.fallBack c).2.fallback i =
      if some c.proxy = some i then (f.fallback i).step c.fallbackTake else f.fallback i := by
    intro g hg
    unfold fallBack
    rw [hg]
    by_cases hi : c.proxy = i
    · subst hi
      simp [SharedState.step]
    · rw [if_neg (by simpa using hi)]
      exact Function.update_of_ne (Ne.symm hi) _ _
  unfold step take
  split
  · rename_i h
    have hd : f.decider c = some c.proxy := if_neg fun hd => by simp [h] at hd
    rw [hd]
    exact hback f rfl
  · rename_i h
    have hd : f.decider c = some c.proxy := if_neg fun hd => by simp [h] at hd
    rw [hd]
    exact hback _ rfl
  · rename_i h
    split
    · rename_i hscript
      have hd : f.decider c = some c.proxy := if_neg fun hd => by simp [hscript] at hd
      rw [hd]
      exact hback f rfl
    · rename_i hscript
      have hd : f.decider c = none := if_pos ⟨h, by rw [hscript]; rfl⟩
      rw [hd]
      rfl

/-- **What a call is told**, by the store that decides it. -/
theorem take_of_fallback {f : Fleet n} {c : Call n} {i : Fin n} (h : f.decider c = some i) :
    (f.take c).1 = ((f.fallback i).take c.fallbackTake).1 := by
  unfold decider at h
  split at h
  · cases h
  · rename_i hnot
    obtain rfl := Option.some.inj h
    unfold take
    split
    · rfl
    · rfl
    · rename_i hserved
      split
      · rfl
      · rename_i hscript
        exact absurd ⟨hserved, by rw [hscript]; rfl⟩ hnot

theorem take_of_redis {f : Fleet n} {c : Call n} (h : f.decider c = none) {delayMs : ℤ}
    (hreply : f.redis.reply c.key f.db c.nowMs = some delayMs) :
    (f.take c).1 = if 0 < delayMs then some ((delayMs : ℚ) / 1000) else none := by
  unfold decider at h
  split at h
  · rename_i hserved
    unfold RedisRateLimitStore.reply at hreply
    unfold take
    rw [hserved.1]
    obtain ⟨⟨delay, db⟩, hscript, rfl⟩ := Option.map_eq_some_iff.mp hreply
    simp only [hscript]
  · cases h

theorem visits_of_decider {f : Fleet n} {c : Call n} {σ : Option (Fin n)}
    (h : f.decider c = σ) : f.visits c σ = true := by
  cases σ with
  | some i => simpa [visits] using h
  | none =>
      unfold decider at h
      split at h
      · rename_i hserved
        simp [visits, hserved.1]
      · cases h

theorem clock_mono {c c' : Call n} (h : c.now ≤ c'.now) (σ : Option (Fin n)) :
    clock c σ ≤ clock c' σ := by
  cases σ with
  | none =>
      refine RedisRateLimitStore.secs_mono (Int.floor_mono ?_)
      linarith
  | some i => exact h

/-! ### Each store is a bucket that is made anew -/

/-- The stores keep one limit, and the keys apart. -/
structure Shared (f : Fleet n) : Prop where
  inj : Function.Injective f.redis.redisKey
  rate : 0 < f.redis.rate
  alike : ∀ i, (f.fallback i).rate = f.redis.rate ∧ (f.fallback i).burst = f.redis.burst

theorem Shared.step {f : Fleet n} (h : f.Shared) (c : Call n) : (f.step c).Shared := by
  refine ⟨by rw [step_redis]; exact h.inj, by rw [step_redis]; exact h.rate, fun i => ?_⟩
  rw [step_redis, step_fallback]
  split
  · exact h.alike i
  · exact h.alike i

theorem ttl_step (f : Fleet n) (c : Call n) (σ : Option (Fin n)) : (f.step c).ttl σ = f.ttl σ := by
  cases σ with
  | none =>
      show ((f.step c).redis.ttlMs : ℚ) / 1000 = _
      rw [step_redis]
      rfl
  | some i =>
      show ((f.step c).fallback i).effectiveTtl = (f.fallback i).effectiveTtl
      rw [step_fallback]
      split <;> rfl

theorem ttl_nonneg (f : Fleet n) (σ : Option (Fin n)) : 0 ≤ f.ttl σ := by
  cases σ with
  | none => exact div_nonneg (Nat.cast_nonneg _) (by norm_num)
  | some i => exact (f.fallback i).effectiveTtl_nonneg

/-- A take from the bucket that a call finds in a store, if `b` is the one there. -/
def taken (f : Fleet n) (c : Call n) (σ : Option (Fin n)) (b : TokenBucket) :
    Option ℚ × TokenBucket :=
  ((f.visit c σ).bucket f.redis.burst b).take f.redis.rate f.redis.burst (clock c σ)

/-- The store has no bucket for `k`, or `b`. -/
def Follows (k : String) (b : TokenBucket) (f : Fleet n) : Option (Fin n) → Prop
  | none => f.db.lookup (f.redis.redisKey k) = none ∨
      ∃ expiry, Stored (f.redis.redisKey k) expiry b f.db
  | some i => ∀ e, (f.fallback i).buckets.lookup k = some e → e.bucket = b

variable {k : String} {b : TokenBucket} {f : Fleet n} {c : Call n} {σ : Option (Fin n)}

/-- The script takes from the bucket that it finds. -/
theorem reply_of_follows (hfollows : f.Follows c.key b none)
    (hlast : b.lastRefill ≤ secs c.nowMs) :
    f.redis.reply c.key f.db c.nowMs =
        some (replyOf f.redis.rate (f.taken c none b).2.tokens) ∧
      Stored (f.redis.redisKey c.key) (some (c.nowMs + f.redis.ttlMs)) (f.taken c none b).2
        (f.redis.step c.key f.db c.nowMs) := by
  have htaken : ∀ b', (f.visit c none).bucket f.redis.burst b = b' →
      f.taken c none b = b'.take f.redis.rate f.redis.burst (secs c.nowMs) := by
    rintro _ rfl
    rfl
  cases hlookup : (elapse c.nowMs f.db).lookup (f.redis.redisKey c.key) with
  | none =>
      rw [htaken (.new f.redis.burst (secs c.nowMs))
        (by simp [visit, Visit.bucket, fresh, clock, hlookup])]
      exact script_missing hlookup
  | some e =>
      rw [htaken b (by simp [visit, Visit.bucket, fresh, hlookup])]
      rcases hfollows with hnone | ⟨expiry, hash, hstored, hholds⟩
      · rw [lookup_elapse_none hnone] at hlookup
        cases hlookup
      · -- What is found at `now_ms` is what is stored.
        have hsame : e = ⟨hash, expiry⟩ := by
          rw [lookup_elapse, hstored] at hlookup
          exact (Option.some.inj (Option.filter_eq_some_iff.mp hlookup).1).symm
        exact script_live ⟨hash, hsame ▸ hlookup, hholds⟩ hlast

/-- The in-memory store takes from the bucket that it finds. -/
theorem bucketOrNew_of_follows {i : Fin n} (hshared : f.Shared)
    (hfollows : f.Follows c.key b (some i)) :
    ((f.fallback i).sweep c.fallbackTake).bucketOrNew c.key c.now =
      (f.visit c (some i)).bucket f.redis.burst b := by
  unfold SharedState.bucketOrNew
  cases hlookup : ((f.fallback i).sweep c.fallbackTake).buckets.lookup c.key with
  | none =>
      have hburst : ((f.fallback i).sweep c.fallbackTake).burst = f.redis.burst :=
        (hshared.alike i).2
      simp [visit, Visit.bucket, fresh, clock, hlookup, hburst]
  | some e =>
      have hb : e.bucket = b :=
        hfollows e (Store.lookup_of_kept ((f.fallback i).lookup_sweep c.fallbackTake c.key) hlookup)
      simp [visit, Visit.bucket, fresh, hlookup, hb]

/-- What a delay gains when it is rounded up to milliseconds. -/
theorem rounded_delay {rate : ℚ} (hrate : 0 < rate) (tokens : ℚ) {delay : ℚ}
    (hdelay : (if 0 < replyOf rate tokens then some ((replyOf rate tokens : ℚ) / 1000)
      else none).getD 0 = delay) :
    (delayOf rate tokens).getD 0 ≤ delay ∧
      delay ≤ (delayOf rate tokens).getD 0 + 1 / 1000 := by
  subst hdelay
  have hle := Int.le_ceil (-tokens / rate * 1000)
  have hlt := Int.ceil_lt_add_one (-tokens / rate * 1000)
  unfold delayOf replyOf
  by_cases hneg : tokens < 0
  · have hpos : 0 < ⌈-tokens / rate * 1000⌉ :=
      Int.ceil_pos.mpr (mul_pos (div_pos (neg_pos.mpr hneg) hrate) (by norm_num))
    rw [if_pos hneg, if_pos hneg, if_pos hpos, Option.getD_some, Option.getD_some]
    constructor <;> linarith
  · rw [if_neg hneg, if_neg hneg]
    norm_num

/-- **A take from a store** leaves the bucket that was found there, with a token less.  If the
store decides the call, the request is let through at the time that this bucket says, or up to two
milliseconds later. -/
theorem Follows.visit (hfollows : f.Follows k b σ) (hk : c.key = k) (hvisits : f.visits c σ)
    (hlast : b.lastRefill ≤ clock c σ) (hshared : f.Shared) :
    (f.step c).Follows k (f.taken c σ b).2 σ ∧
      (f.decider c = σ →
        clock c σ + ((f.taken c σ b).1).getD 0 ≤ c.now + ((f.take c).1).getD 0 ∧
          c.now + ((f.take c).1).getD 0 ≤ clock c σ + ((f.taken c σ b).1).getD 0 + 2 / 1000) := by
  subst hk
  cases σ with
  | none =>
      have hrun : c.outcome ≠ .unreachable := by simpa [visits] using hvisits
      obtain ⟨hreply, hstored⟩ := reply_of_follows hfollows hlast
      refine ⟨Or.inr ⟨some (c.nowMs + f.redis.ttlMs), ?_⟩, fun hdecider => ?_⟩
      · rw [step_db, if_neg hrun, step_redis]
        exact hstored
      · obtain ⟨hlow, hhigh⟩ := rounded_delay hshared.rate (f.taken c none b).2.tokens
          (congrArg (Option.getD · 0) (take_of_redis hdecider hreply)).symm
        have hdelay : (f.taken c none b).1 = delayOf f.redis.rate (f.taken c none b).2.tokens := rfl
        have hfloor := Int.floor_le (c.now * 1000)
        have hceil := Int.lt_floor_add_one (c.now * 1000)
        have hclock : clock c none = (⌊c.now * 1000⌋ : ℚ) / 1000 := rfl
        rw [hdelay, hclock]
        constructor <;> linarith
  | some i =>
      have hdecider : f.decider c = some i := by simpa [visits] using hvisits
      have hbucket := bucketOrNew_of_follows hshared hfollows
      refine ⟨fun e he => ?_, fun _ => ?_⟩
      · rw [step_fallback, if_pos hdecider] at he
        have hself := (f.fallback i).lookup_step_self c.fallbackTake
        obtain rfl := Option.some.inj (hself.symm.trans he)
        show (TokenBucket.take _ _ _ _).2 = _
        rw [(hshared.alike i).1, (hshared.alike i).2]
        exact congrArg (fun b => (TokenBucket.take b f.redis.rate f.redis.burst c.now).2) hbucket
      · have hdelay : (f.take c).1 = (f.taken c (some i) b).1 := by
          rw [take_of_fallback hdecider, SharedState.take_fst, (hshared.alike i).1,
            (hshared.alike i).2]
          exact congrArg (fun b => (TokenBucket.take b f.redis.rate f.redis.burst c.now).1) hbucket
        rw [hdelay]
        exact ⟨le_rfl, by show _ ≤ c.now + _ + 2 / 1000; linarith⟩

/-- A script on another key leaves the key alone, or drops it when its time is up. -/
theorem lookup_step_ne {store : RedisRateLimitStore} {key key' : String}
    (hne : key' ≠ store.redisKey key) (db : Db (Hash ℚ)) (nowMs : ℤ) :
    (store.step key db nowMs).lookup key' = db.lookup key' ∨
      (store.step key db nowMs).lookup key' = (elapse nowMs db).lookup key' := by
  unfold RedisRateLimitStore.step
  cases hscript : store.script key nowMs db with
  | none => exact Or.inl rfl
  | some result =>
      right
      unfold RedisRateLimitStore.script rateLimitLua at hscript
      obtain ⟨data, _, rfl⟩ := Option.map_eq_some_iff.mp hscript
      show (pexpire _ _ _ (hset _ _ _)).lookup key' = _
      rw [lookup_pexpire_ne _ hne, hset, lookup_modify_ne hne]

/-- A call that does not take from the bucket of `k` in Redis. -/
theorem lookup_db_of_not_visit (hshared : f.Shared)
    (hnot : ¬ (c.key = k ∧ f.visits c none)) :
    (f.step c).db.lookup (f.redis.redisKey k) = f.db.lookup (f.redis.redisKey k) ∨
      (f.step c).db.lookup (f.redis.redisKey k) =
        (elapse c.nowMs f.db).lookup (f.redis.redisKey k) := by
  rw [step_db]
  split
  · exact Or.inl rfl
  · rename_i hrun
    have hk : c.key ≠ k := fun hk => hnot ⟨hk, by simpa [visits] using hrun⟩
    exact lookup_step_ne (hshared.inj.ne hk.symm) f.db c.nowMs

/-- A call that does not take from the bucket of `k` at a proxy. -/
theorem lookup_fallback_of_not_visit {i : Fin n} (hnot : ¬ (c.key = k ∧ f.visits c (some i))) :
    ((f.step c).fallback i).buckets.lookup k = (f.fallback i).buckets.lookup k ∨
      ((f.step c).fallback i).buckets.lookup k = none ∧
        ∃ e, (f.fallback i).buckets.lookup k = some e ∧
          (f.fallback i).effectiveTtl < secondsSince c.now e.lastSeen := by
  rw [step_fallback]
  split
  · rename_i hdecider
    have hk : k ≠ c.key := fun hk => hnot ⟨hk.symm, by simpa [visits] using hdecider⟩
    rw [SharedState.lookup_step_ne _ hk]
    exact (f.fallback i).lookup_sweep c.fallbackTake k
  · exact Or.inl rfl

theorem Follows.other (hfollows : f.Follows k b σ) (hshared : f.Shared)
    (hnot : ¬ (c.key = k ∧ f.visits c σ)) : (f.step c).Follows k b σ := by
  cases σ with
  | none =>
      unfold Follows
      rw [step_redis]
      have hkept := lookup_db_of_not_visit hshared hnot
      rcases hfollows with hnone | ⟨expiry, hash, hstored, hholds⟩
      · left
        rcases hkept with hsame | helapsed
        · exact hsame.trans hnone
        · exact helapsed.trans (lookup_elapse_none hnone)
      · rcases hkept with hsame | helapsed
        · exact Or.inr ⟨expiry, hash, hsame.trans hstored, hholds⟩
        · cases hlive : Entry.live c.nowMs ⟨hash, expiry⟩ with
          | true =>
              exact Or.inr ⟨expiry, hash, helapsed.trans (lookup_elapse_live hstored hlive), hholds⟩
          | false => exact Or.inl (helapsed.trans (lookup_elapse_dead hstored hlive))
  | some i =>
      exact fun e he => hfollows e (Store.lookup_of_kept (lookup_fallback_of_not_visit hnot) he)

end Fleet
end RateLimiter
end Noxy

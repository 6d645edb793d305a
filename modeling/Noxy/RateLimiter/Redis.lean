/-
# The script of the Redis rate limiter

`src/middleware/rate_limiter.rs`: `RATE_LIMIT_LUA`, with the arguments that
`RedisRateLimitStore` passes to it.  A key's bucket is a hash with the fields `tokens` and
`last_refill_ms`; the arithmetic is exact, over the rationals, and the reply is the delay
rounded up to milliseconds.

The script is `TokenBucket::take` at the same time in seconds, from the bucket that the
hash holds (`script_live`) or from a new one when the key is missing (`script_missing`).
`replyOf_eq_iff` is the counterpart of `delay_eq_iff` for rounded delays.
-/

import Mathlib.Data.Rat.Floor
import Noxy.Lib.Redis
import Noxy.RateLimiter.Overdraft

namespace Noxy
namespace RateLimiter

open Lib Redis

/-- `RATE_LIMIT_LUA`: its reply and the database after it, or nothing when it fails. -/
def rateLimitLua (rate burst : ℚ) (ttlMs : ℕ) (key : String) (nowMs : ℤ) (db : Db (Hash ℚ)) :
    Option (ℤ × Db (Hash ℚ)) :=
  let db := elapse nowMs db
  let data := match hget key "tokens" db, hget key "last_refill_ms" db with
    | none, _ => some (burst, (nowMs : ℚ))
    | some tokens, some lastMs => some (tokens, lastMs)
    -- The arithmetic on `last_ms` fails when there is no such field.
    | some _, none => none
  data.map fun (tokens, lastMs) =>
    let elapsedS := (nowMs - lastMs) / 1000
    let refilled := min (tokens + elapsedS * rate) burst
    let refilled := refilled - 1
    let db := hset key [("tokens", refilled), ("last_refill_ms", (nowMs : ℚ))] db
    let db := pexpire nowMs key ttlMs db
    (if refilled < 0 then ⌈-refilled / rate * 1000⌉ else 0, db)

/-- `RedisRateLimitStore`, without its connection and its fallback; `redisKey` is
`prefixed_key` of the connection with the namespace of the store. -/
structure RedisRateLimitStore where
  rate : ℚ
  burst : ℚ
  redisKey : String → String

namespace RedisRateLimitStore

/-- The `ttl_ms` that the script is given. -/
def ttlMs (store : RedisRateLimitStore) : ℕ := ⌊store.burst / store.rate * 1000⌋₊ + 60000

/-- The script of `take` with its arguments. -/
def script (store : RedisRateLimitStore) (key : String) (nowMs : ℤ) (db : Db (Hash ℚ)) :
    Option (ℤ × Db (Hash ℚ)) :=
  rateLimitLua store.rate store.burst store.ttlMs (store.redisKey key) nowMs db

/-- What the script replies. -/
def reply (store : RedisRateLimitStore) (key : String) (db : Db (Hash ℚ)) (nowMs : ℤ) :
    Option ℤ :=
  (store.script key nowMs db).map Prod.fst

/-- The database after the script. -/
def step (store : RedisRateLimitStore) (key : String) (db : Db (Hash ℚ)) (nowMs : ℤ) :
    Db (Hash ℚ) :=
  ((store.script key nowMs db).map Prod.snd).getD db

theorem ttlMs_pos (store : RedisRateLimitStore) : 0 < store.ttlMs := by
  unfold ttlMs
  omega

end RedisRateLimitStore

/-- A millisecond time in seconds. -/
def secs (ms : ℤ) : ℚ := ms / 1000

/-- What the script replies, by the tokens that are left. -/
def replyOf (rate tokens : ℚ) : ℤ := if tokens < 0 then ⌈-tokens / rate * 1000⌉ else 0

/-- The hash holds a bucket. -/
def Holds (h : Hash ℚ) (b : TokenBucket) : Prop :=
  h.lookup "tokens" = some b.tokens ∧
    ∃ lastMs : ℤ, h.lookup "last_refill_ms" = some (lastMs : ℚ) ∧ b.lastRefill = secs lastMs

/-- The key holds a bucket, until the time `expiry`. -/
def Stored (key : String) (expiry : Option ℤ) (b : TokenBucket) (db : Db (Hash ℚ)) : Prop :=
  ∃ h, db.lookup key = some ⟨h, expiry⟩ ∧ Holds h b

/-- The hash that the script writes holds the bucket after the take. -/
theorem holds_set (h : Hash ℚ) (b : TokenBucket) (nowMs : ℤ) (hb : b.lastRefill = secs nowMs) :
    Holds (h.set [("tokens", b.tokens), ("last_refill_ms", (nowMs : ℚ))]) b := by
  have hne : "tokens" ≠ "last_refill_ms" := by decide
  refine ⟨?_, nowMs, AList.lookup_insert _, hb⟩
  exact (AList.lookup_insert_ne hne).trans (AList.lookup_insert _)

section Script

variable {store : RedisRateLimitStore} {key : String} {nowMs : ℤ} {db : Db (Hash ℚ)}

/-- **The script on a missing key** takes from a new bucket. -/
theorem script_missing (h : (elapse nowMs db).lookup (store.redisKey key) = none) :
    let b := ((TokenBucket.new store.burst (secs nowMs)).take store.rate store.burst
      (secs nowMs)).2
    store.reply key db nowMs = some (replyOf store.rate b.tokens) ∧
      Stored (store.redisKey key) (some (nowMs + store.ttlMs)) b (store.step key db nowMs) := by
  intro b
  have hfield : ∀ name, hget (store.redisKey key) name (elapse nowMs db) = none := by
    intro name
    rw [hget, valueOf, h]
    rfl
  have htokens : min (store.burst + ((nowMs : ℚ) - nowMs) / 1000 * store.rate) store.burst - 1 =
      b.tokens := by
    simp [b, TokenBucket.take, TokenBucket.new]
  have hscript : store.script key nowMs db = some (replyOf store.rate b.tokens,
      pexpire nowMs (store.redisKey key) store.ttlMs (hset (store.redisKey key)
        [("tokens", b.tokens), ("last_refill_ms", (nowMs : ℚ))] (elapse nowMs db))) := by
    unfold RedisRateLimitStore.script rateLimitLua
    simp only [hfield, Option.map_some, htokens]
    rfl
  refine ⟨by rw [RedisRateLimitStore.reply, hscript]; rfl, _, ?_,
    holds_set ∅ b nowMs rfl⟩
  rw [RedisRateLimitStore.step, hscript, Option.map_some, Option.getD_some,
    lookup_pexpire_self nowMs _ store.ttlMs_pos, lookup_hset_none h]
  rfl

/-- **The script on a key that is there** takes from its bucket. -/
theorem script_live {expiry : Option ℤ} {b₀ : TokenBucket}
    (h : Stored (store.redisKey key) expiry b₀ (elapse nowMs db))
    (hnow : b₀.lastRefill ≤ secs nowMs) :
    let b := (b₀.take store.rate store.burst (secs nowMs)).2
    store.reply key db nowMs = some (replyOf store.rate b.tokens) ∧
      Stored (store.redisKey key) (some (nowMs + store.ttlMs)) b (store.step key db nowMs) := by
  intro b
  obtain ⟨hash, hlookup, htokens, lastMs, hlast, hrefill⟩ := h
  have hfield : ∀ name, hget (store.redisKey key) name (elapse nowMs db) = hash.lookup name := by
    intro name
    rw [hget, valueOf, hlookup]
    rfl
  have helapsed : max (secs nowMs - b₀.lastRefill) 0 = ((nowMs : ℚ) - lastMs) / 1000 := by
    rw [max_eq_left (sub_nonneg.mpr hnow), hrefill, secs, secs, sub_div]
  have htaken : min (b₀.tokens + ((nowMs : ℚ) - lastMs) / 1000 * store.rate) store.burst - 1 =
      b.tokens := by
    simp only [b, TokenBucket.take, helapsed]
  have hscript : store.script key nowMs db = some (replyOf store.rate b.tokens,
      pexpire nowMs (store.redisKey key) store.ttlMs (hset (store.redisKey key)
        [("tokens", b.tokens), ("last_refill_ms", (nowMs : ℚ))] (elapse nowMs db))) := by
    unfold RedisRateLimitStore.script rateLimitLua
    simp only [hfield, htokens, hlast, Option.map_some, htaken]
    rfl
  refine ⟨by rw [RedisRateLimitStore.reply, hscript]; rfl, _, ?_,
    holds_set hash b nowMs rfl⟩
  rw [RedisRateLimitStore.step, hscript, Option.map_some, Option.getD_some,
    lookup_pexpire_self nowMs _ store.ttlMs_pos, lookup_hset_some hlookup]
  rfl

end Script

/-- A reply is the debt in milliseconds, if there is one. -/
theorem replyOf_eq_max {rate : ℚ} (hrate : 0 < rate) (tokens : ℚ) :
    replyOf rate tokens = max 0 ⌈-tokens / rate * 1000⌉ := by
  unfold replyOf
  split
  · rename_i h
    have hpos : 0 ≤ -tokens / rate * 1000 := by
      have : 0 ≤ -tokens / rate := div_nonneg (by linarith) hrate.le
      linarith
    exact (max_eq_right (Int.ceil_nonneg hpos)).symm
  · rename_i h
    have hneg : -tokens / rate * 1000 ≤ 0 := by
      have : -tokens / rate ≤ 0 := div_nonpos_of_nonpos_of_nonneg (by linarith) hrate.le
      linarith
    refine (max_eq_left ?_).symm
    rw [Int.ceil_le]
    exact_mod_cast hneg

/-- The milliseconds that it takes to refill what a stretch of `i + 1` takes up to
`nowMs`, the first of them at `sMs`, uses beyond the burst and the refill. -/
def overdueMs (rate burst : ℚ) (nowMs : ℤ) (i : ℕ) (sMs : ℤ) : ℤ :=
  ⌈overdraft rate burst (secs nowMs) i (secs sMs) / rate * 1000⌉

/-- **What forgetting takes changes**, with delays rounded to milliseconds. -/
theorem replyOf_eq_iff {rate burst : ℚ} {nowMs : ℤ} {b b' : TokenBucket} {before : List ℤ} {n : ℕ}
    (hrate : 0 < rate) (h : b.Took rate burst (secs nowMs) (before.map secs))
    (h' : b'.Took rate burst (secs nowMs) ((before.take n).map secs)) :
    replyOf rate b'.tokens = replyOf rate b.tokens ↔
      ∀ i s, (nowMs :: before)[i]? = some s → overdueMs rate burst nowMs i s ≤ 0 ∨
        ∃ j u, j ≤ n ∧ (nowMs :: before)[j]? = some u ∧
          overdueMs rate burst nowMs i s ≤ overdueMs rate burst nowMs j u := by
  have hmono : Monotone fun y : ℚ => ⌈(y - secs nowMs) * 1000⌉ := fun x y hxy =>
    Int.ceil_mono (by linarith)
  have hreply : ∀ {b : TokenBucket} {seen : List ℚ}, b.Took rate burst (secs nowMs) seen →
      replyOf rate b.tokens =
        max 0 ⌈(paid (1 / rate) (burst / rate) (secs nowMs) seen - secs nowMs) * 1000⌉ := by
    intro b seen hb
    rw [replyOf_eq_max hrate, hb.tokens hrate, mul_div_assoc, div_self hrate.ne', mul_one]
  have hoverdue : ∀ i s, overdueMs rate burst nowMs i s =
      ⌈(stretch (1 / rate) (burst / rate) i (secs s) - secs nowMs) * 1000⌉ := by
    intro i s
    rw [overdueMs, overdraft_eq hrate, mul_div_assoc, div_self hrate.ne', mul_one]
  have hle := hmono (paid_take_le (1 / rate) (burst / rate) (secs nowMs) (before.map secs) n)
  rw [List.map_take] at h'
  rw [hreply h, hreply h', max_eq_max_iff_le hle,
    paid_le_max_iff (1 / rate) (burst / rate) hmono (secs nowMs) (before.map secs) n 0]
  simp only [← List.map_cons, List.getElem?_map, Option.map_eq_some_iff, hoverdue]
  constructor
  · intro hall i s hs
    rcases hall i (secs s) ⟨s, hs, rfl⟩ with hz | ⟨j, _, hj, ⟨u, hu, rfl⟩, hju⟩
    · exact Or.inl hz
    · exact Or.inr ⟨j, u, hj, hu, hju⟩
  · rintro hall i _ ⟨s, hs, rfl⟩
    rcases hall i s hs with hz | ⟨j, u, hj, hu, hju⟩
    · exact Or.inl hz
    · exact Or.inr ⟨j, secs u, hj, ⟨u, hu, rfl⟩, hju⟩

end RateLimiter
end Noxy

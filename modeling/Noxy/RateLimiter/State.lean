/-
# The in-memory rate limiter

`src/middleware/rate_limiter.rs`: `BucketState` and `SharedState`.  A key's entry is
a token bucket and the time of its last `take`.  `take` starts with the cleanup and
the eviction of `Noxy.Store.Keyed`, which may drop an entry that has not been seen
for the effective time to live: the configured one, or the time in which an empty
bucket fills, if that is longer.  Then it creates the key's bucket, full, if there
is none, and takes a token from it.

As in `Noxy.RateLimiter.TokenBucket` the arithmetic is exact, over the rationals,
with times in seconds, and the clock reads of one `take` are one time.  All that is
used of the sweep is that it leaves a key's entry alone or drops it
(`lookup_sweep`); what a `take` does to the bucket of its own key and to the others
is `lookup_step_self` and `lookup_step_ne`.
-/

import Noxy.RateLimiter.TokenBucket
import Noxy.Store.Keyed

namespace Noxy
namespace RateLimiter

open Lib

/-- `BucketState`. -/
structure BucketState where
  bucket : TokenBucket
  lastSeen : ℚ
  deriving DecidableEq

/-- `SharedState`. -/
structure SharedState where
  buckets : HashMap String BucketState
  rate : ℚ
  burst : ℚ
  maxKeys : ℕ
  idleTtl : ℚ
  nextCleanup : ℚ

/-- A call of `take`, with its time and the order in which the map hands out its
entries while it runs. -/
structure Take where
  key : String
  now : ℚ
  order : IterOrder String BucketState

/-- `CLEANUP_INTERVAL`, in seconds. -/
def CLEANUP_INTERVAL : ℚ := 30

/-- `DEFAULT_IDLE_TTL`, in seconds. -/
def DEFAULT_IDLE_TTL : ℚ := 600

/-- `DEFAULT_MAX_KEYS`. -/
def DEFAULT_MAX_KEYS : ℕ := 10000

/-- `saturating_duration_since`, in seconds. -/
def secondsSince (now earlier : ℚ) : ℚ := max (now - earlier) 0

namespace SharedState

/-- `InMemoryRateLimitStore::new` at the time `now`. -/
def new (rate burst now : ℚ) : SharedState :=
  { buckets := ∅
    rate := rate
    burst := burst
    maxKeys := DEFAULT_MAX_KEYS
    idleTtl := DEFAULT_IDLE_TTL
    nextCleanup := now + CLEANUP_INTERVAL }

/-- `set_burst`. -/
def setBurst (s : SharedState) (burst : ℚ) : SharedState := { s with burst := burst }

/-- `set_max_keys`. -/
def setMaxKeys (s : SharedState) (max : ℕ) : SharedState := { s with maxKeys := Nat.max max 1 }

/-- `set_idle_ttl`. -/
def setIdleTtl (s : SharedState) (ttl : ℚ) : SharedState := { s with idleTtl := ttl }

/-- `refill_horizon`; a division by zero is zero here and not finite there. -/
def refillHorizon (s : SharedState) : ℚ :=
  let secs := s.burst / s.rate
  if secs ≤ 0 then 0 else secs

/-- `effective_ttl`. -/
def effectiveTtl (s : SharedState) : ℚ := max s.idleTtl s.refillHorizon

/-- `maybe_cleanup`. -/
def maybeCleanup (s : SharedState) (now : ℚ) : SharedState :=
  let swept := Store.maybeCleanup CLEANUP_INTERVAL
    (fun st : BucketState => decide (secondsSince now st.lastSeen ≤ s.effectiveTtl))
    now s.nextCleanup s.buckets
  { s with buckets := swept.1, nextCleanup := swept.2 }

/-- `evict_if_needed`. -/
def evictIfNeeded (o : IterOrder String BucketState) (s : SharedState) (key : String)
    (now : ℚ) : SharedState :=
  { s with
    buckets := Store.evictIfNeeded o s.maxKeys
      (fun st => decide (s.effectiveTtl < secondsSince now st.lastSeen))
      BucketState.lastSeen key s.buckets }

/-- How `take` starts. -/
def sweep (s : SharedState) (c : Take) : SharedState :=
  (s.maybeCleanup c.now).evictIfNeeded c.order c.key c.now

/-- The bucket of a key, or the one that `or_insert_with` creates. -/
def bucketOrNew (s : SharedState) (key : String) (now : ℚ) : TokenBucket :=
  ((s.buckets.lookup key).map BucketState.bucket).getD (.new s.burst now)

/-- `SharedState::take`. -/
def take (s : SharedState) (c : Take) : Option ℚ × SharedState :=
  let s := s.sweep c
  let taken := (s.bucketOrNew c.key c.now).take s.rate s.burst c.now
  (taken.1, { s with buckets := s.buckets.insert c.key ⟨taken.2, c.now⟩ })

/-- The store after a call. -/
def step (s : SharedState) (c : Take) : SharedState := (s.take c).2

/-- What a run answers to the calls on `k`. -/
def delays (k : String) : SharedState → List Take → List (Option ℚ)
  | _, [] => []
  | s, c :: calls =>
      if c.key = k then (s.take c).1 :: delays k (s.step c) calls else delays k (s.step c) calls

theorem effectiveTtl_nonneg (s : SharedState) : 0 ≤ s.effectiveTtl := by
  refine le_max_of_le_right ?_
  unfold refillHorizon
  dsimp only
  split
  · exact le_rfl
  · rename_i hpos
    exact (not_le.mp hpos).le

theorem maybeCleanup_of_lt {s : SharedState} {now : ℚ} (h : now < s.nextCleanup) :
    s.maybeCleanup now = s := by
  unfold maybeCleanup Store.maybeCleanup
  rw [if_pos h]

theorem maybeCleanup_of_le {s : SharedState} {now : ℚ} (h : s.nextCleanup ≤ now) :
    s.maybeCleanup now =
      { s with
        buckets := s.buckets.retain fun _ st =>
          decide (secondsSince now st.lastSeen ≤ s.effectiveTtl)
        nextCleanup := now + CLEANUP_INTERVAL } := by
  unfold maybeCleanup Store.maybeCleanup
  rw [if_neg (not_lt.mpr h)]

theorem evictIfNeeded_of_room {o : IterOrder String BucketState} {s : SharedState} {key : String}
    (h : key ∈ s.buckets ∨ s.buckets.len < s.maxKeys) (now : ℚ) :
    s.evictIfNeeded o key now = s := by
  unfold evictIfNeeded Store.evictIfNeeded
  rw [if_pos h]

theorem evictIfNeeded_of_full {o : IterOrder String BucketState} {s : SharedState} {key : String}
    (h : ¬ (key ∈ s.buckets ∨ s.buckets.len < s.maxKeys)) (now : ℚ) :
    s.evictIfNeeded o key now =
      { s with
        buckets := s.buckets.removeMin o
          (fun st => decide (s.effectiveTtl < secondsSince now st.lastSeen))
          BucketState.lastSeen } := by
  unfold evictIfNeeded Store.evictIfNeeded
  rw [if_neg h]

/-- **What the cleanup and the eviction can do to a key.**  Its entry is untouched,
or it has been idle for longer than the effective time to live and is gone. -/
theorem lookup_sweep (s : SharedState) (c : Take) (k : String) :
    (s.sweep c).buckets.lookup k = s.buckets.lookup k ∨
      (s.sweep c).buckets.lookup k = none ∧ ∃ e, s.buckets.lookup k = some e ∧
        s.effectiveTtl < secondsSince c.now e.lastSeen := by
  rcases Store.lookup_sweep c.order CLEANUP_INTERVAL
    (fun st : BucketState => decide (secondsSince c.now st.lastSeen ≤ s.effectiveTtl))
    (fun st => decide (s.effectiveTtl < secondsSince c.now st.lastSeen))
    (fun a ha => by simpa using ha) c.now s.nextCleanup s.maxKeys BucketState.lastSeen c.key
    s.buckets k with h | ⟨h, e, he, hidle⟩
  · exact Or.inl h
  · exact Or.inr ⟨h, e, he, by simpa using hidle⟩

/-- A take and the key it is about. -/
theorem lookup_step_self (s : SharedState) (c : Take) :
    (s.step c).buckets.lookup c.key =
      some ⟨(((s.sweep c).bucketOrNew c.key c.now).take s.rate s.burst c.now).2, c.now⟩ :=
  AList.lookup_insert _

/-- A take and the other keys. -/
theorem lookup_step_ne (s : SharedState) {c : Take} {k : String} (hk : k ≠ c.key) :
    (s.step c).buckets.lookup k = (s.sweep c).buckets.lookup k :=
  AList.lookup_insert_ne hk

/-- What a take returns, by the tokens it leaves. -/
theorem take_fst (s : SharedState) (c : Take) :
    (s.take c).1 = (((s.sweep c).bucketOrNew c.key c.now).take s.rate s.burst c.now).1 := by
  unfold take
  rfl

end SharedState
end RateLimiter
end Noxy

/-
# A bucket that is made anew now and then

`src/middleware/rate_limiter.rs`: `SharedState::take` and `RATE_LIMIT_LUA`.  Both stores forget a
key's bucket after a while, and make a new one, full, for the next take.  What is common to the two
is a bucket that some of the takes find missing (`restarts`).

Between two such takes it is one bucket, which lets `max burst 1 + rate * T` requests through in an
interval of length `T` (`countP_releases_le`).  So a bucket that has been made anew `m` times lets
through at most `m` times as many (`countP_restarts_le`).
-/

import Noxy.Lib.Run
import Noxy.RateLimiter.TokenBucket

namespace Noxy
namespace RateLimiter

open Lib

/-- A take: its time, and whether it finds no bucket. -/
structure Visit where
  now : ℚ
  fresh : Bool
  deriving DecidableEq

/-- The bucket that a take finds. -/
def Visit.bucket (burst : ℚ) (v : Visit) (b : TokenBucket) : TokenBucket :=
  if v.fresh then .new burst v.now else b

/-- The times at which the requests of a run are let through. -/
def restarts (rate burst : ℚ) : TokenBucket → List Visit → List ℚ
  | _, [] => []
  | b, v :: visits =>
      (v.now + (((v.bucket burst b).take rate burst v.now).1).getD 0) ::
        restarts rate burst ((v.bucket burst b).take rate burst v.now).2 visits

namespace TokenBucket

variable {rate burst : ℚ}

/-- The bucket after takes at the given times. -/
def after (rate burst : ℚ) (b : TokenBucket) (times : List ℚ) : TokenBucket :=
  times.foldl (fun b now => (b.take rate burst now).2) b

theorem releases_concat (b : TokenBucket) (times : List ℚ) (now : ℚ) :
    releases rate burst b (times ++ [now]) = releases rate burst b times ++
      [now + (((b.after rate burst times).take rate burst now).1).getD 0] := by
  induction times generalizing b with
  | nil => rfl
  | cons t times ih =>
      rw [List.cons_append, releases, releases, ih]
      rfl

/-- **What one bucket lets through**, from any state of it. -/
theorem countP_releases_le (burst : ℚ) (hrate : 0 < rate) (b : TokenBucket) {times : List ℚ}
    (hsorted : (b.lastRefill :: times).Pairwise (· ≤ ·)) (a : ℚ) {T : ℚ} (hT : 0 ≤ T) :
    ((releases rate burst b times).countP (fun r => decide (a ≤ r ∧ r ≤ a + T)) : ℚ) ≤
      max burst 1 + rate * T := by
  have hbound := countP_schedule_le (burst / rate) (one_div_pos.mpr hrate) hT a times
    (b.paidUntil rate) (List.pairwise_cons.mp hsorted).2
  rw [releases_eq_schedule burst hrate times b hsorted]
  rw [max_div_div_right hrate.le, mul_one_div, div_le_iff₀ hrate, add_mul,
    div_mul_cancel₀ _ hrate.ne'] at hbound
  linarith

end TokenBucket

variable {rate : ℚ}

/-- From a take that finds no bucket on, it is a new one. -/
theorem restarts_fresh {burst : ℚ} (b : TokenBucket) {v : Visit} (hfresh : v.fresh = true)
    {visits : List Visit} :
    restarts rate burst b (v :: visits) =
      TokenBucket.releases rate burst (.new burst v.now) [v.now] ++
        restarts rate burst ((TokenBucket.new burst v.now).after rate burst [v.now]) visits := by
  simp [restarts, Visit.bucket, hfresh, TokenBucket.releases, TokenBucket.after]

/-- The releases of the bucket that there is, and of those to come. -/
theorem countP_releases_restarts_le (burst : ℚ) (hrate : 0 < rate) (a : ℚ) {T : ℚ} (hT : 0 ≤ T) :
    ∀ (visits : List Visit) (b : TokenBucket) (times : List ℚ),
      (b.lastRefill :: times ++ visits.map Visit.now).Pairwise (· ≤ ·) →
      ((TokenBucket.releases rate burst b times ++
          restarts rate burst (b.after rate burst times) visits).countP
        (fun r => decide (a ≤ r ∧ r ≤ a + T)) : ℚ) ≤
      (visits.countP Visit.fresh + 1 : ℕ) * (max burst 1 + rate * T)
  | [], b, times, hsorted => by
      rw [List.map_nil, List.append_nil] at hsorted
      simpa [restarts] using TokenBucket.countP_releases_le burst hrate b hsorted a hT
  | v :: visits, b, times, hsorted => by
      cases hfresh : v.fresh with
      | false =>
          -- The take is one more from the bucket that there is.
          have hsorted' : (b.lastRefill :: (times ++ [v.now]) ++ visits.map Visit.now).Pairwise
              (· ≤ ·) := by simpa using hsorted
          have hrest :=
            countP_releases_restarts_le burst hrate a hT visits b (times ++ [v.now]) hsorted'
          have hafter : b.after rate burst (times ++ [v.now]) =
              ((b.after rate burst times).take rate burst v.now).2 := by
            simp [TokenBucket.after]
          rw [TokenBucket.releases_concat, hafter, List.append_assoc] at hrest
          simpa [restarts, Visit.bucket, hfresh, List.countP_cons] using hrest
      | true =>
          -- The bucket that there was has let through all it ever will.
          have hparts := List.pairwise_append.mp hsorted
          have hrest := countP_releases_restarts_le burst hrate a hT visits
            (.new burst v.now) [v.now] (pairwise_cons_self hparts.2.1)
          have hold := TokenBucket.countP_releases_le burst hrate b hparts.1 a hT
          rw [restarts_fresh _ hfresh, List.countP_append, List.countP_cons, hfresh, if_pos rfl]
          push_cast at hrest ⊢
          linarith

/-- **What a bucket lets through that is made anew now and then**, the first time for its first
take. -/
theorem countP_restarts_le (burst : ℚ) (hrate : 0 < rate) (b : TokenBucket) {visits : List Visit}
    (hsorted : (visits.map Visit.now).Pairwise (· ≤ ·))
    (hfirst : ∀ v ∈ visits.head?, v.fresh = true) (a : ℚ) {T : ℚ} (hT : 0 ≤ T) :
    ((restarts rate burst b visits).countP (fun r => decide (a ≤ r ∧ r ≤ a + T)) : ℚ) ≤
      visits.countP Visit.fresh * (max burst 1 + rate * T) := by
  cases visits with
  | nil => simp [restarts]
  | cons v visits =>
      have hfresh : v.fresh = true := hfirst v rfl
      have hrest := countP_releases_restarts_le burst hrate a hT visits
        (.new burst v.now) [v.now] (pairwise_cons_self hsorted)
      rwa [restarts_fresh b hfresh, List.countP_cons, hfresh]

end RateLimiter
end Noxy

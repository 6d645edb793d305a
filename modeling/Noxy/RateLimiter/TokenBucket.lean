/-
# The token bucket

`src/middleware/rate_limiter.rs`: `TokenBucket`.  `take` refills the bucket for
the time since the last `take`, up to `burst`, takes one token, and makes the
request wait for the tokens that are missing.  The count of tokens goes below
zero: it is minus the number of requests that wait.

The arithmetic is exact, over the rationals, with times and delays in seconds,
where the code has `f64` seconds and nanosecond clocks.

In the bucket's own terms the conformance argument would have to follow the
tokens through zero and through the cap.  It is simpler on the time up to which
the tokens that were taken are paid for, `paidUntil`: a `take` moves it as
virtual scheduling does, with a cost of `1 / rate` and a depth of
`burst / rate` (`take_paidUntil`, `take_release`), so the releases of a bucket
are those of a virtual schedule (`releases_eq_schedule`) and the bounds of
`Noxy.Lib.VirtualScheduling` are the bucket's (`tokenBucket_conforms`).
-/

import Noxy.Lib.VirtualScheduling
import Mathlib.Algebra.Order.Ring.Rat
import Mathlib.Tactic.FieldSimp

namespace Noxy
namespace RateLimiter

open Lib

/-- `TokenBucket`. -/
structure TokenBucket where
  tokens : ℚ
  lastRefill : ℚ
  deriving DecidableEq

namespace TokenBucket

/-- `TokenBucket::new` at the time `now`. -/
def new (burst now : ℚ) : TokenBucket := ⟨burst, now⟩

/-- `TokenBucket::take` at the time `now`: the delay, if the request has to
wait, and the bucket afterwards. -/
def take (b : TokenBucket) (rate burst now : ℚ) : Option ℚ × TokenBucket :=
  let elapsed := max (now - b.lastRefill) 0
  let tokens := min (b.tokens + elapsed * rate) burst
  let tokens := tokens - 1
  (if tokens < 0 then some (-tokens / rate) else none, ⟨tokens, now⟩)

/-- The times at which the requests of a run are let through. -/
def releases (rate burst : ℚ) : TokenBucket → List ℚ → List ℚ
  | _, [] => []
  | b, now :: times =>
      (now + ((b.take rate burst now).1).getD 0) ::
        releases rate burst (b.take rate burst now).2 times

/-- The time up to which the tokens taken so far are paid for. -/
def paidUntil (rate : ℚ) (b : TokenBucket) : ℚ := b.lastRefill - b.tokens / rate

/-- **A `take` moves the time that is paid for** as virtual scheduling does. -/
theorem take_paidUntil {rate burst now : ℚ} {b : TokenBucket} (hrate : 0 < rate)
    (hnow : b.lastRefill ≤ now) :
    (b.take rate burst now).2.paidUntil rate =
      max (b.paidUntil rate) (now - burst / rate) + 1 / rate := by
  have helapsed : max (now - b.lastRefill) 0 = now - b.lastRefill :=
    max_eq_left (sub_nonneg.mpr hnow)
  have hmin : min (b.tokens + (now - b.lastRefill) * rate) burst / rate =
      min (b.tokens / rate + (now - b.lastRefill)) (burst / rate) := by
    rw [← min_div_div_right hrate.le, add_div, mul_div_assoc, div_self hrate.ne', mul_one]
  simp only [take, paidUntil, helapsed]
  rw [sub_div, hmin]
  rcases le_total (b.tokens / rate + (now - b.lastRefill)) (burst / rate) with h | h
  · rw [min_eq_left h, max_eq_left (by linarith)]
    ring
  · rw [min_eq_right h, max_eq_right (by linarith)]
    ring

/-- **A request is let through** when its token is paid for, or at once. -/
theorem take_release {rate burst now : ℚ} {b : TokenBucket} (hrate : 0 < rate) :
    now + ((b.take rate burst now).1).getD 0 =
      max now ((b.take rate burst now).2.paidUntil rate) := by
  simp only [take, paidUntil]
  generalize min (b.tokens + max (now - b.lastRefill) 0 * rate) burst - 1 = tokens
  split
  · rename_i hneg
    have : 0 < -tokens / rate := div_pos (by linarith) hrate
    rw [Option.getD_some, max_eq_right]
    · rw [neg_div]
      ring
    · rw [neg_div] at this
      linarith
  · rename_i hpos
    have : 0 ≤ tokens / rate := div_nonneg (not_lt.mp hpos) hrate.le
    rw [Option.getD_none, add_zero, max_eq_left (by linarith)]

/-- **A bucket is a virtual schedule.** -/
theorem releases_eq_schedule {rate : ℚ} (burst : ℚ) (hrate : 0 < rate) :
    ∀ (times : List ℚ) (b : TokenBucket), (b.lastRefill :: times).Pairwise (· ≤ ·) →
      releases rate burst b times = schedule (1 / rate) (burst / rate) (b.paidUntil rate) times
  | [], _, _ => rfl
  | now :: times, b, h => by
      rw [List.pairwise_cons] at h
      have hnow : b.lastRefill ≤ now := h.1 now (List.mem_cons_self ..)
      have hrest := releases_eq_schedule burst hrate times (b.take rate burst now).2 h.2
      rw [releases, schedule, hrest, take_release hrate, take_paidUntil hrate hnow]

/-- **Token-bucket conformance.**  The requests taken from a new bucket are let
through in order of arrival, and every closed interval of length `T` holds at
most `max burst 1 + rate * T` of the times at which they are. -/
theorem tokenBucket_conforms {rate : ℚ} (hrate : 0 < rate) (burst : ℕ) {created : ℚ}
    {times : List ℚ} (hsorted : (created :: times).Pairwise (· ≤ ·)) :
    (releases rate burst (new burst created) times).Pairwise (· ≤ ·) ∧
      ∀ a T : ℚ, 0 ≤ T →
        ((releases rate burst (new burst created) times).countP
          (fun r => decide (a ≤ r ∧ r ≤ a + T)) : ℚ) ≤ max (burst : ℚ) 1 + rate * T := by
  have hcost : 0 < 1 / rate := one_div_pos.mpr hrate
  have htimes := (List.pairwise_cons.mp hsorted).2
  rw [releases_eq_schedule burst hrate times (new burst created) hsorted]
  refine ⟨pairwise_schedule hcost.le times _ htimes, fun a T hT => ?_⟩
  have hbound := countP_schedule_le ((burst : ℚ) / rate) hcost hT a times
    ((new burst created).paidUntil rate) htimes
  rw [max_div_div_right hrate.le, mul_one_div, div_le_iff₀ hrate, add_mul,
    div_mul_cancel₀ _ hrate.ne'] at hbound
  linarith

/-- The hypotheses of `tokenBucket_conforms` are met by one request a second,
bursts of two, and four requests at once. -/
theorem tokenBucket_conforms_burst :
    (releases 1 (2 : ℕ) (new (2 : ℕ) 0) [0, 0, 0, 0]).Pairwise (· ≤ ·) ∧
      ∀ a T : ℚ, 0 ≤ T →
        ((releases 1 (2 : ℕ) (new (2 : ℕ) 0) [0, 0, 0, 0]).countP
          (fun r => decide (a ≤ r ∧ r ≤ a + T)) : ℚ) ≤ max ((2 : ℕ) : ℚ) 1 + 1 * T :=
  tokenBucket_conforms one_pos 2 (by decide)

end TokenBucket
end RateLimiter
end Noxy

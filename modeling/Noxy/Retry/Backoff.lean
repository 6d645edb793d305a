/-
# The range of the backoff

`src/middleware/retry.rs`: `exponential_delay`, for the attempts of `RetryService::call`.

The delay is drawn from `0` to an upper end, which should be `base * 2 ^ attempt` within
`Duration::MAX` and `max_backoff`.  The factor is computed as `1 << attempt` in `u32`, and the
upper end is cast from `u128` nanoseconds to `u64`.  The shift overflows from the 33rd
attempt on: a build with overflow checks panics, and one without starts again at `base`
(`backoff_starts_again`).  The cast drops what is above `2 ^ 64` nanoseconds.  So the backoff
is as it should be exactly if there are at most 32 retries and the upper end of the last
one is below `2 ^ 64` nanoseconds (`backoff_exact_iff`).
-/

import Noxy.Retry.Policy

namespace Noxy
namespace Retry

/-- The upper end as it should be. -/
def backoffEnd (base maxBackoff attempt : ℕ) : ℕ :=
  min (min (base * 2 ^ attempt) maxDuration) maxBackoff

/-- **The backoff as it should be**, for the attempts that are followed by another one. -/
structure ExactBackoff (base maxBackoff maxRetries : ℕ) : Prop where
  /-- `1 << attempt` is in range. -/
  shift : ∀ attempt < maxRetries, attempt < 32
  /-- The cast to `u64` drops nothing; `saturating_mul` does not overflow. -/
  cast : ∀ attempt < maxRetries, maxDelay base maxBackoff attempt < 2 ^ 64
  range : ∀ attempt < maxRetries,
    jitterEnd base maxBackoff attempt = backoffEnd base maxBackoff attempt
  bounded : ∀ attempt < maxRetries, ∀ jitter : (upper : ℕ) → Fin (upper + 1),
    exponentialDelay base maxBackoff attempt jitter ≤ maxBackoff
  monotone : ∀ attempt, attempt + 1 < maxRetries →
    jitterEnd base maxBackoff attempt ≤ jitterEnd base maxBackoff (attempt + 1)

section Backoff

variable (base maxBackoff : ℕ)

/-- A delay is within `max_backoff`, whatever overflows. -/
theorem exponentialDelay_le (attempt : ℕ) (jitter : (upper : ℕ) → Fin (upper + 1)) :
    exponentialDelay base maxBackoff attempt jitter ≤ maxBackoff :=
  calc exponentialDelay base maxBackoff attempt jitter
    _ ≤ jitterEnd base maxBackoff attempt := Nat.lt_succ_iff.mp (Fin.is_lt _)
    _ ≤ maxDelay base maxBackoff attempt := Nat.mod_le _ _
    _ ≤ maxBackoff := min_le_right _ _

theorem maxDelay_of_lt {attempt : ℕ} (h : attempt < 32) :
    maxDelay base maxBackoff attempt = backoffEnd base maxBackoff attempt := by
  rw [maxDelay, Nat.mod_eq_of_lt h, backoffEnd]

theorem backoffEnd_mono {m n : ℕ} (h : m ≤ n) :
    backoffEnd base maxBackoff m ≤ backoffEnd base maxBackoff n := by
  have hpow : base * 2 ^ m ≤ base * 2 ^ n :=
    Nat.mul_le_mul_left base (Nat.pow_le_pow_right (by decide) h)
  unfold backoffEnd
  omega

/-- **Backoff is exact, bounded and monotone**, of durations `base` and `max_backoff` and a
`u32` of retries, exactly if there are at most 32 retries and the upper end of the last is
below `2 ^ 64` nanoseconds. -/
theorem backoff_exact_iff (maxRetries : ℕ) (hbackoff : maxBackoff ≤ maxDuration) :
    ExactBackoff base maxBackoff maxRetries ↔
      maxRetries ≤ 32 ∧
        (0 < maxRetries → min (base * 2 ^ (maxRetries - 1)) maxBackoff < 2 ^ 64) := by
  have hend : ∀ attempt, backoffEnd base maxBackoff attempt =
      min (base * 2 ^ attempt) maxBackoff := by
    intro attempt
    unfold backoffEnd
    omega
  constructor
  · intro h
    have hle : maxRetries ≤ 32 := by
      by_contra hgt
      have := h.shift 32 (by omega)
      omega
    refine ⟨hle, fun hpos => ?_⟩
    have hcast := h.cast (maxRetries - 1) (by omega)
    rwa [maxDelay_of_lt _ _ (by omega), hend] at hcast
  · rintro ⟨hle, hlast⟩
    have hcast : ∀ attempt < maxRetries, maxDelay base maxBackoff attempt < 2 ^ 64 := by
      intro attempt hlt
      calc maxDelay base maxBackoff attempt
        _ = backoffEnd base maxBackoff attempt := maxDelay_of_lt _ _ (by omega)
        _ ≤ backoffEnd base maxBackoff (maxRetries - 1) := backoffEnd_mono _ _ (by omega)
        _ = min (base * 2 ^ (maxRetries - 1)) maxBackoff := hend _
        _ < 2 ^ 64 := hlast (by omega)
    have hrange : ∀ attempt < maxRetries,
        jitterEnd base maxBackoff attempt = backoffEnd base maxBackoff attempt := by
      intro attempt hlt
      rw [jitterEnd, Nat.mod_eq_of_lt (hcast attempt hlt), maxDelay_of_lt _ _ (by omega)]
    refine ⟨fun attempt hlt => by omega, hcast, hrange,
      fun attempt _ => exponentialDelay_le base maxBackoff attempt, fun attempt hlt => ?_⟩
    rw [hrange attempt (by omega), hrange (attempt + 1) hlt]
    exact backoffEnd_mono _ _ (Nat.le_succ attempt)

end Backoff

/-- The hypothesis of `backoff_exact_iff` is met by a base of 100 ms and a limit of 10 s with
three retries. -/
theorem backoff_exact_default : ExactBackoff (10 ^ 8) (10 ^ 10) 3 :=
  (backoff_exact_iff (10 ^ 8) (10 ^ 10) 3 (by decide)).mpr (by decide)

/-- **The backoff starts again.**  With a base of 100 ms and a limit of 10 s the upper end is
10 s at the 32nd attempt and 100 ms at the 33rd.  With both at `2 ^ 64` ns it is 0. -/
theorem backoff_starts_again :
    jitterEnd (10 ^ 8) (10 ^ 10) 31 = 10 ^ 10 ∧
      jitterEnd (10 ^ 8) (10 ^ 10) 32 = 10 ^ 8 ∧
      backoffEnd (10 ^ 8) (10 ^ 10) 32 = 10 ^ 10 ∧
      jitterEnd (2 ^ 64) (2 ^ 64) 0 = 0 ∧ backoffEnd (2 ^ 64) (2 ^ 64) 0 = 2 ^ 64 := by
  decide +kernel

end Retry
end Noxy

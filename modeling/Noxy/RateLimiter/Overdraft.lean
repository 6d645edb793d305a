/-
# The debt of a token bucket, by its takes

`src/middleware/rate_limiter.rs`: `TokenBucket`.  Of the takes from a bucket,
listed newest first, the last `i + 1`, back to one at time `s`, may use the burst
and what has come in since: `burst + (now - s) * rate` tokens.  What they use
beyond that is their `overdraft`.

A bucket's tokens after a take at `now` are minus the worst overdraft of all its
takes (`Took`, `took_new`, `Took.take`), which is `Noxy.Lib.WorstStretch` for the
virtual schedule that the bucket is.  So a bucket that has lost the memory of all
but the last few takes gives the same delay exactly if no stretch of takes that
goes back further is in a worse overdraft than all those it remembers
(`delay_eq_iff`).
-/

import Noxy.Lib.WorstStretch
import Noxy.RateLimiter.TokenBucket

namespace Noxy
namespace RateLimiter

open Lib

/-- By how many tokens a stretch of `i + 1` takes up to `now`, the first of them at
`s`, exceeds the burst and the refill. -/
def overdraft (rate burst now : ℚ) (i : ℕ) (s : ℚ) : ℚ := (i + 1) - burst - (now - s) * rate

/-- The bucket after a take at `t` and those `before` it, newest first. -/
structure TokenBucket.Took (rate burst : ℚ) (b : TokenBucket) (t : ℚ) (before : List ℚ) :
    Prop where
  lastRefill : b.lastRefill = t
  paid : b.paidUntil rate = paid (1 / rate) (burst / rate) t before

/-- What `take` returns, by the tokens that are left. -/
def delayOf (rate tokens : ℚ) : Option ℚ := if tokens < 0 then some (-tokens / rate) else none

namespace TokenBucket

variable {rate burst now : ℚ} {b : TokenBucket}

theorem take_delay (b : TokenBucket) (rate burst now : ℚ) :
    (b.take rate burst now).1 = delayOf rate (b.take rate burst now).2.tokens := rfl

/-- The first take from a new bucket. -/
theorem took_new (hrate : 0 < rate) :
    ((new burst now).take rate burst now).2.Took rate burst now [] := by
  have hnow : (new burst now).lastRefill ≤ now := le_rfl
  refine ⟨rfl, ?_⟩
  rw [take_paidUntil hrate hnow, Lib.paid]
  simp [new, paidUntil]

/-- One more take. -/
theorem Took.take {t : ℚ} {before : List ℚ} (h : b.Took rate burst t before) (hrate : 0 < rate)
    (ht : t ≤ now) : (b.take rate burst now).2.Took rate burst now (t :: before) := by
  refine ⟨rfl, ?_⟩
  rw [take_paidUntil hrate (h.lastRefill.trans_le ht), h.paid, Lib.paid]

/-- The tokens of a bucket, by the time up to which its takes are paid for. -/
theorem Took.tokens {t : ℚ} {before : List ℚ} (h : b.Took rate burst t before)
    (hrate : 0 < rate) : -b.tokens = (Lib.paid (1 / rate) (burst / rate) t before - t) * rate := by
  rw [← h.paid, paidUntil, h.lastRefill]
  field_simp
  ring

end TokenBucket

/-- The overdraft of a stretch is what it is paid for beyond `now`. -/
theorem overdraft_eq {rate : ℚ} (hrate : 0 < rate) (burst now : ℚ) (i : ℕ) (s : ℚ) :
    overdraft rate burst now i s = (stretch (1 / rate) (burst / rate) i s - now) * rate := by
  unfold overdraft stretch
  field_simp
  ring

/-- Two delays are the same exactly if the debts are. -/
theorem delayOf_eq_iff {rate : ℚ} (hrate : 0 < rate) (a b : ℚ) :
    delayOf rate a = delayOf rate b ↔ max 0 (-a) = max 0 (-b) := by
  unfold delayOf
  split <;> split
  · rename_i ha hb
    rw [max_eq_right (by linarith), max_eq_right (by linarith), Option.some.injEq,
      div_left_inj' hrate.ne']
  · rename_i ha hb
    rw [max_eq_right (by linarith), max_eq_left (by linarith)]
    exact iff_of_false (by simp) (by linarith)
  · rename_i ha hb
    rw [max_eq_left (by linarith), max_eq_right (by linarith)]
    exact iff_of_false (by simp) (by linarith)
  · rename_i ha hb
    rw [max_eq_left (by linarith), max_eq_left (by linarith)]
    exact iff_of_true rfl rfl

/-- **What forgetting takes changes.**  A bucket that has seen the takes `before` the
one at `now` and a bucket that has seen the last `n` of them only give the same
delay exactly if every stretch of takes up to `now` is within its allowance, or in
no worse overdraft than one of at most `n + 1` takes. -/
theorem delay_eq_iff {rate burst now : ℚ} {b b' : TokenBucket} {before : List ℚ} {n : ℕ}
    (hrate : 0 < rate) (h : b.Took rate burst now before)
    (h' : b'.Took rate burst now (before.take n)) :
    delayOf rate b'.tokens = delayOf rate b.tokens ↔
      ∀ i s, (now :: before)[i]? = some s → overdraft rate burst now i s ≤ 0 ∨
        ∃ j u, j ≤ n ∧ (now :: before)[j]? = some u ∧
          overdraft rate burst now i s ≤ overdraft rate burst now j u := by
  have hmono : Monotone fun y : ℚ => (y - now) * rate := fun x y hxy =>
    mul_le_mul_of_nonneg_right (sub_le_sub_right hxy now) hrate.le
  have hle := hmono (paid_take_le (1 / rate) (burst / rate) now before n)
  have hforget := paid_le_max_iff (1 / rate) (burst / rate) hmono now before n 0
  simp only [← overdraft_eq hrate] at hforget
  rw [← hforget, delayOf_eq_iff hrate, h.tokens hrate, h'.tokens hrate]
  exact max_eq_max_iff_le hle

end RateLimiter
end Noxy

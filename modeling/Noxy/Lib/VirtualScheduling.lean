/-
# Virtual scheduling

A server that spends `cost` on a request and tolerates requests up to `depth`
early keeps one number, the time `y` up to which its work is paid for.  A
request at time `t` moves it to `max y (t - depth) + cost` and is let through
at that time, or at `t` if that is later.

Two facts about it are proved over any ordered field, for requests in order of
their times: requests are let through in the order they came
(`pairwise_schedule`), and a closed interval of length `T` holds at most
`(max depth cost + T) / cost` of them (`countP_schedule_le`).  The second rests
on `countP_until_le`: after a request that leaves the work paid up to `y`, each
further one that is let through by `c` pays for `cost` of the time from `y` to
`c`.
-/

import Mathlib.Algebra.Order.Field.Basic
import Mathlib.Data.List.Basic
import Mathlib.Tactic.Linarith
import Mathlib.Tactic.Ring

namespace Noxy
namespace Lib

variable {K : Type*} [Field K] [LinearOrder K] [IsStrictOrderedRing K]

/-- The times at which requests at the given times are let through, from work
paid up to `y`. -/
def schedule (cost depth : K) : K → List K → List K
  | _, [] => []
  | y, t :: ts =>
      max t (max y (t - depth) + cost) :: schedule cost depth (max y (t - depth) + cost) ts

/-- Nothing is let through before the time up to which work is paid, nor before
it came. -/
theorem le_of_mem_schedule {cost depth c : K} (hcost : 0 ≤ cost) :
    ∀ (ts : List K) {y : K}, (∀ t ∈ ts, c ≤ t) ∨ c ≤ y → ∀ r ∈ schedule cost depth y ts, c ≤ r
  | [], _, _, r, hr => absurd hr List.not_mem_nil
  | t :: ts, y, h, r, hr => by
      have hnext : (∀ t ∈ ts, c ≤ t) ∨ c ≤ max y (t - depth) + cost := by
        rcases h with h | h
        · exact Or.inl fun s hs => h s (List.mem_cons_of_mem _ hs)
        · exact Or.inr (by have := le_max_left y (t - depth); linarith)
      rcases List.mem_cons.mp hr with rfl | hr
      · rcases h with h | h
        · exact (h t (List.mem_cons_self ..)).trans (le_max_left _ _)
        · refine le_trans ?_ (le_max_right _ _)
          have := le_max_left y (t - depth)
          linarith
      · exact le_of_mem_schedule hcost ts hnext r hr

/-- **Requests are let through in order.** -/
theorem pairwise_schedule {cost depth : K} (hcost : 0 ≤ cost) :
    ∀ (ts : List K) (y : K), ts.Pairwise (· ≤ ·) → (schedule cost depth y ts).Pairwise (· ≤ ·)
  | [], _, _ => List.Pairwise.nil
  | t :: ts, y, h => by
      rw [List.pairwise_cons] at h
      rw [schedule, List.pairwise_cons]
      refine ⟨fun r hr => max_le ?_ ?_, pairwise_schedule hcost ts _ h.2⟩
      · exact le_of_mem_schedule hcost ts (Or.inl h.1) r hr
      · exact le_of_mem_schedule hcost ts (Or.inr le_rfl) r hr

/-- **How many are let through by `c`.**  Each pays for `cost` of the time
between `y` and `c`. -/
theorem countP_until_le {cost : K} (depth : K) (hcost : 0 < cost) (c : K) :
    ∀ (ts : List K) (y : K),
      ((schedule cost depth y ts).countP (fun r => decide (r ≤ c)) : K) * cost ≤ max 0 (c - y)
  | [], y => by simp [schedule]
  | t :: ts, y => by
      set y' := max y (t - depth) + cost with hy'
      have hyy' : y + cost ≤ y' := by
        have := le_max_left y (t - depth)
        linarith
      have hrest := countP_until_le depth hcost c ts y'
      rw [schedule, List.countP_cons]
      split
      · rename_i hle
        have hc : y' ≤ c := (le_max_right _ _).trans (by simpa using hle)
        rw [max_eq_right (sub_nonneg.mpr hc)] at hrest
        refine le_trans ?_ (le_max_right 0 (c - y))
        push_cast
        linarith
      · rename_i hgt
        rw [add_zero]
        exact hrest.trans (max_le_max le_rfl (by linarith))

/-- **How many a closed interval of length `T` holds.**  The first of them pays
from the start of the interval, or from `depth` before it. -/
theorem countP_schedule_le {cost T : K} (depth : K) (hcost : 0 < cost) (hT : 0 ≤ T) (a : K) :
    ∀ (ts : List K) (y : K), ts.Pairwise (· ≤ ·) →
      ((schedule cost depth y ts).countP (fun r => decide (a ≤ r ∧ r ≤ a + T)) : K) * cost ≤
        max depth cost + T
  | [], _, _ => by
      have := le_max_right depth cost
      simp only [schedule, List.countP_nil, Nat.cast_zero, zero_mul]
      linarith
  | t :: ts, y, h => by
      rw [List.pairwise_cons] at h
      set y' := max y (t - depth) + cost with hy'
      have hrest := countP_schedule_le depth hcost hT a ts y' h.2
      rw [schedule, List.countP_cons]
      split
      · rename_i hin
        simp only [decide_eq_true_eq] at hin
        have hsub : (schedule cost depth y' ts).countP (fun r => decide (a ≤ r ∧ r ≤ a + T)) ≤
            (schedule cost depth y' ts).countP (fun r => decide (r ≤ a + T)) := by
          refine List.countP_mono_left fun r _ hr => ?_
          simp only [decide_eq_true_eq] at hr ⊢
          exact hr.2
        have hsub' : ((schedule cost depth y' ts).countP
            (fun r => decide (a ≤ r ∧ r ≤ a + T)) : K) * cost ≤ max 0 (a + T - y') :=
          (mul_le_mul_of_nonneg_right (by exact_mod_cast hsub) hcost.le).trans
            (countP_until_le depth hcost (a + T) ts y')
        have hy : t - depth + cost ≤ y' := by
          have := le_max_right y (t - depth)
          linarith
        -- Either the work was paid up to `a` at least, or the request came at `a` at the earliest.
        have hstart : a - max depth cost + cost ≤ y' := by
          rcases le_total t y' with hty | hty
          · rw [max_eq_right hty] at hin
            have := le_max_right depth cost
            linarith
          · rw [max_eq_left hty] at hin
            have := le_max_left depth cost
            linarith
        push_cast
        rcases le_total (a + T - y') 0 with hneg | hpos
        · rw [max_eq_left hneg] at hsub'
          have := le_max_right depth cost
          linarith
        · rw [max_eq_right hpos] at hsub'
          linarith
      · rw [add_zero]
        exact hrest

end Lib
end Noxy

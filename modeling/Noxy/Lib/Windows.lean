/-
# How many points a moving window holds

`AtMost c w xs` says that no half-open interval `[a, a + w)` holds more than
`c` of the points `xs`.  Over the integers it covers the intervals `(a, a + w]`
too: they are the intervals `[a + 1, a + 1 + w)`.

A log of points grows at its end.  When the new point is not before any old
one, only the interval that ends with it has to be looked at:
`atMost_append_singleton` reduces the bound on the longer log to the bound on
the shorter one and a count of the old points less than `w` before the new one.
-/

import Mathlib.Algebra.Order.Ring.Int
import Mathlib.Data.List.Basic
import Mathlib.Tactic.Linarith

namespace Noxy
namespace Lib

/-- No half-open interval of length `w` holds more than `c` of the points. -/
def AtMost (c : ℕ) (w : ℤ) (xs : List ℤ) : Prop :=
  ∀ a, xs.countP (fun x => decide (a ≤ x ∧ x < a + w)) ≤ c

theorem atMost_nil (c : ℕ) (w : ℤ) : AtMost c w [] := by
  intro a
  simp

/-- **Adding the latest point.**  The bound survives exactly when fewer than `c`
of the old points lie less than `w` before the new one. -/
theorem atMost_append_singleton {c : ℕ} {w r : ℤ} {xs : List ℤ} (hw : 0 < w)
    (hr : ∀ x ∈ xs, x ≤ r) :
    AtMost c w (xs ++ [r]) ↔ AtMost c w xs ∧ xs.countP (fun x => decide (r - w < x)) < c := by
  constructor
  · intro h
    constructor
    · intro a
      have ha := h a
      rw [List.countP_append] at ha
      omega
    · have ha := h (r - w + 1)
      have hlast : [r].countP (fun x => decide (r - w + 1 ≤ x ∧ x < r - w + 1 + w)) = 1 := by
        rw [List.countP_singleton, if_pos]
        simp only [decide_eq_true_eq]
        omega
      rw [List.countP_append, hlast] at ha
      have hsame : xs.countP (fun x => decide (r - w < x)) =
          xs.countP (fun x => decide (r - w + 1 ≤ x ∧ x < r - w + 1 + w)) := by
        apply List.countP_congr
        intro x hx
        have := hr x hx
        simp only [decide_eq_true_eq]
        omega
      omega
  · rintro ⟨h, hc⟩ a
    rw [List.countP_append, List.countP_singleton]
    split
    · rename_i ha
      simp only [decide_eq_true_eq] at ha
      have hle : xs.countP (fun x => decide (a ≤ x ∧ x < a + w)) ≤
          xs.countP (fun x => decide (r - w < x)) := by
        apply List.countP_mono_left
        intro x _ hx
        simp only [decide_eq_true_eq] at hx ⊢
        omega
      omega
    · exact h a

end Lib
end Noxy

/-
# Innermost wins

Things that stand inside one another, some of them active.  A thing wins if it is
active and nothing active is strictly inside it.  Whenever anything is active
something wins, because nesting has a depth (`exists_innermost`), and of two
things that win neither is inside the other (`Innermost.not_below`).
-/

import Mathlib.Algebra.Order.BigOperators.Group.List
import Mathlib.Algebra.Order.Ring.Nat

namespace Noxy
namespace Lib

variable {α : Type*} (below : α → α → Prop) (active : α → Prop)

/-- `x` is active, and nothing of `xs` that is active is strictly inside it. -/
def Innermost (xs : List α) (x : α) : Prop :=
  active x ∧ ¬ ∃ y ∈ xs, below x y ∧ active y

variable {below}

/-- **Something active has something innermost.** -/
theorem exists_innermost {depth : α → ℕ} (hdepth : ∀ x y, below x y → depth x < depth y)
    {xs : List α} {x : α} (hx : x ∈ xs) (hactive : active x) :
    ∃ y ∈ xs, Innermost below active xs y := by
  obtain ⟨bound, hbound⟩ : ∃ bound, ∀ x ∈ xs, depth x ≤ bound :=
    ⟨(xs.map depth).sum, fun x hx => List.le_sum_of_mem (List.mem_map_of_mem hx)⟩
  induction hn : bound - depth x using Nat.strongRecOn generalizing x with
  | ind n ih =>
      by_cases h : ∃ y ∈ xs, below x y ∧ active y
      · obtain ⟨y, hy, hxy, hay⟩ := h
        have h₁ := hdepth x y hxy
        have h₂ := hbound y hy
        exact ih (bound - depth y) (by omega) hy hay rfl
      · exact ⟨x, hx, hactive, h⟩

variable {active}

/-- **Of two innermost things neither is inside the other.** -/
theorem Innermost.not_below {xs : List α} {x y : α} (hx : Innermost below active xs x)
    (hy : Innermost below active xs y) (hmem : y ∈ xs) : ¬ below x y := fun h =>
  hx.2 ⟨y, hmem, h, hy.1⟩

end Lib
end Noxy

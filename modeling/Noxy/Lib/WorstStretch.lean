/-
# Virtual scheduling by the worst stretch

`Noxy.Lib.VirtualScheduling` keeps one number, the time up to which work is paid
for.  Here that number is read off the requests themselves.  The requests are
listed newest first; the stretch of the last `i + 1` of them, back to one at time
`s`, is paid for at `s - depth + (i + 1) * cost` (`stretch`), and the work is paid
for when the worst of the stretches is (`stretch_le_paid`, `exists_stretch_eq`).

`paid_le_max_iff` compares a server with one that has forgotten all but the last
few requests: the two agree exactly if every stretch is matched by one of what is
remembered.  It does so through any monotone `f`, and up to a least value `z`, so
that it can be used on waiting times and on rounded ones.
-/

import Mathlib.Algebra.Order.Field.Basic
import Mathlib.Tactic.Linarith
import Mathlib.Tactic.Ring

namespace Noxy
namespace Lib

variable {K : Type*} [Field K] [LinearOrder K] [IsStrictOrderedRing K]

/-- The time up to which work is paid for after a request at `t`, on a server that
has had the requests `before`, newest first, and was idle before them. -/
def paid (cost depth : K) (t : K) : List K → K
  | [] => t - depth + cost
  | s :: before => max (paid cost depth s before) (t - depth) + cost

/-- The time up to which a stretch of `i + 1` requests, the first of them at `s`,
is paid for. -/
def stretch (cost depth : K) (i : ℕ) (s : K) : K := s - depth + (i + 1) * cost

omit [LinearOrder K] [IsStrictOrderedRing K] in
theorem stretch_succ (cost depth : K) (i : ℕ) (s : K) :
    stretch cost depth (i + 1) s = stretch cost depth i s + cost := by
  unfold stretch
  push_cast
  ring

variable (cost depth : K)

/-- No stretch is paid for later than the work is. -/
theorem stretch_le_paid (t : K) (before : List K) :
    ∀ i s, (t :: before)[i]? = some s → stretch cost depth i s ≤ paid cost depth t before := by
  induction before generalizing t with
  | nil =>
      intro i s h
      cases i with
      | zero =>
          obtain rfl : t = s := by simpa using h
          simp [stretch, paid]
      | succ i => simp at h
  | cons u before ih =>
      intro i s h
      rw [paid]
      cases i with
      | zero =>
          obtain rfl : t = s := by simpa using h
          have := le_max_right (paid cost depth u before) (t - depth)
          simp only [stretch, Nat.cast_zero, zero_add, one_mul]
          linarith
      | succ i =>
          have h₁ := ih u i s (by simpa using h)
          have h₂ := le_max_left (paid cost depth u before) (t - depth)
          rw [stretch_succ]
          linarith

omit [IsStrictOrderedRing K] in
/-- **The work is paid for when the worst stretch is.** -/
theorem exists_stretch_eq (t : K) (before : List K) :
    ∃ i s, (t :: before)[i]? = some s ∧ stretch cost depth i s = paid cost depth t before := by
  induction before generalizing t with
  | nil => exact ⟨0, t, rfl, by simp [stretch, paid]⟩
  | cons u before ih =>
      rcases le_total (paid cost depth u before) (t - depth) with h | h
      · exact ⟨0, t, rfl, by simp [stretch, paid, max_eq_right h]⟩
      · obtain ⟨i, s, hs, heq⟩ := ih u
        refine ⟨i + 1, s, by simpa using hs, ?_⟩
        rw [stretch_succ, heq, paid, max_eq_left h]

omit [Field K] [LinearOrder K] [IsStrictOrderedRing K] in
/-- What is remembered is the last requests. -/
theorem getElem?_cons_take_iff {t : K} {before : List K} {n j : ℕ} {u : K} :
    (t :: before.take n)[j]? = some u ↔ j ≤ n ∧ (t :: before)[j]? = some u := by
  rw [← List.take_succ_cons, List.getElem?_take]
  split
  · rename_i hj
    exact ⟨fun h => ⟨by omega, h⟩, fun h => h.2⟩
  · rename_i hj
    exact iff_of_false (fun h => by cases h) fun h => hj (by omega)

/-- A server that has forgotten the oldest requests has no more to pay for. -/
theorem paid_take_le (t : K) (before : List K) (n : ℕ) :
    paid cost depth t (before.take n) ≤ paid cost depth t before := by
  obtain ⟨i, s, hs, heq⟩ := exists_stretch_eq cost depth t (before.take n)
  rw [← heq]
  exact stretch_le_paid cost depth t before i s (getElem?_cons_take_iff.mp hs).2

/-- Of two values one of which is at most the other, what exceeds `z` is the same exactly
if the greater one is at most `z` or the other. -/
theorem max_eq_max_iff_le {β : Type*} [LinearOrder β] {z a a' : β} (h : a' ≤ a) :
    max z a' = max z a ↔ a ≤ max z a' := by
  constructor
  · intro heq
    rw [heq]
    exact le_max_right z a
  · intro hmax
    exact le_antisymm (max_le_max le_rfl h) (max_le (le_max_left z a') hmax)

/-- **What forgetting changes.**  A server that has forgotten all but the last `n`
requests before the one at `t` is not ahead, as far as `f` can tell and except of
what is at most `z`, exactly if every stretch is at most `z` or at most one that
it remembers. -/
theorem paid_le_max_iff {β : Type*} [LinearOrder β] {f : K → β} (hf : Monotone f) (t : K)
    (before : List K) (n : ℕ) (z : β) :
    f (paid cost depth t before) ≤ max z (f (paid cost depth t (before.take n))) ↔
      ∀ i s, (t :: before)[i]? = some s → f (stretch cost depth i s) ≤ z ∨
        ∃ j u, j ≤ n ∧ (t :: before)[j]? = some u ∧
          f (stretch cost depth i s) ≤ f (stretch cost depth j u) := by
  constructor
  · intro h i s hs
    have hle := hf (stretch_le_paid cost depth t before i s hs)
    rcases le_max_iff.mp (hle.trans h) with hz | hp
    · exact Or.inl hz
    · obtain ⟨j, u, hu, hmax⟩ := exists_stretch_eq cost depth t (before.take n)
      obtain ⟨hj, hu⟩ := getElem?_cons_take_iff.mp hu
      exact Or.inr ⟨j, u, hj, hu, hmax ▸ hp⟩
  · intro h
    obtain ⟨i, s, hs, heq⟩ := exists_stretch_eq cost depth t before
    rw [← heq]
    rcases h i s hs with hz | ⟨j, u, hj, hu, hle⟩
    · exact le_max_of_le_left hz
    · have hu' := getElem?_cons_take_iff.mpr ⟨hj, hu⟩
      exact le_max_of_le_right (hle.trans (hf (stretch_le_paid cost depth t _ j u hu')))

end Lib
end Noxy

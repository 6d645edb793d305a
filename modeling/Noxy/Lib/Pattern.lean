/-
# Patterns of sequences

A pattern is a fixed number of elements from given sets, or any number of them, one pattern
after another, or one of two.  `Matches` says which sequences a pattern describes and `isMatch`
decides it, by trying every way to go on (`isMatch_iff`).

`matches_width_or_stretch` is about how a match can be changed: a sequence that matches is no
longer than the pattern is wide, or it goes through a repetition, and then elements can be put
in there.
-/

import Mathlib.Data.List.Basic
import Mathlib.Order.Lattice

namespace Noxy
namespace Lib

/-- A pattern of sequences. -/
inductive Pattern (α : Type*) where
  | empty
  | one (p : α → Bool)
  | many (p : α → Bool)
  | seq (a b : Pattern α)
  | alt (a b : Pattern α)

namespace Pattern

variable {α : Type*}

/-- The sequences that a pattern describes. -/
def Matches : Pattern α → List α → Prop
  | empty, w => w = []
  | one p, w => ∃ a, p a = true ∧ w = [a]
  | many p, w => ∀ a ∈ w, p a = true
  | seq a b, w => ∃ u v, w = u ++ v ∧ a.Matches u ∧ b.Matches v
  | alt a b, w => a.Matches w ∨ b.Matches w

/-- Elements of `p`, as many as there may be before `k` accepts the rest. -/
def acceptsMany (p : α → Bool) (k : List α → Bool) : List α → Bool
  | [] => k []
  | a :: w => k (a :: w) || (p a && acceptsMany p k w)

/-- A pattern, and then `k`. -/
def accepts : Pattern α → (List α → Bool) → List α → Bool
  | empty, k, w => k w
  | one p, k, w =>
      match w with
      | [] => false
      | a :: w => p a && k w
  | many p, k, w => acceptsMany p k w
  | seq a b, k, w => a.accepts (b.accepts k) w
  | alt a b, k, w => a.accepts k w || b.accepts k w

/-- Whether a sequence matches. -/
def isMatch (e : Pattern α) (w : List α) : Bool := e.accepts List.isEmpty w

theorem acceptsMany_iff {p : α → Bool} {k : List α → Bool} {w : List α} :
    acceptsMany p k w = true ↔ ∃ u v, w = u ++ v ∧ (∀ a ∈ u, p a = true) ∧ k v = true := by
  induction w with
  | nil =>
      rw [acceptsMany]
      constructor
      · exact fun h => ⟨[], [], rfl, List.forall_mem_nil _, h⟩
      · rintro ⟨u, v, h, -, hv⟩
        obtain ⟨rfl, rfl⟩ := List.append_eq_nil_iff.mp h.symm
        exact hv
  | cons a w ih =>
      rw [acceptsMany, Bool.or_eq_true, Bool.and_eq_true, ih]
      constructor
      · rintro (h | ⟨ha, u, v, rfl, hu, hv⟩)
        · exact ⟨[], a :: w, rfl, List.forall_mem_nil _, h⟩
        · exact ⟨a :: u, v, rfl, List.forall_mem_cons.mpr ⟨ha, hu⟩, hv⟩
      · rintro ⟨u, v, h, hu, hv⟩
        cases u with
        | nil => exact .inl (h ▸ hv)
        | cons a' u =>
            obtain ⟨rfl, rfl⟩ := List.cons.inj h
            obtain ⟨ha, hu⟩ := List.forall_mem_cons.mp hu
            exact .inr ⟨ha, u, v, rfl, hu, hv⟩

theorem accepts_iff {e : Pattern α} {k : List α → Bool} {w : List α} :
    e.accepts k w = true ↔ ∃ u v, w = u ++ v ∧ e.Matches u ∧ k v = true := by
  induction e generalizing k w with
  | empty => simp [accepts, Matches]
  | one p =>
      cases w with
      | nil => simp [accepts, Matches]
      | cons a w =>
          simp only [accepts, Matches, Bool.and_eq_true]
          constructor
          · rintro ⟨ha, hk⟩
            exact ⟨[a], w, rfl, ⟨a, ha, rfl⟩, hk⟩
          · rintro ⟨u, v, h, ⟨a', ha, rfl⟩, hk⟩
            obtain ⟨rfl, rfl⟩ := List.cons.inj h
            exact ⟨ha, hk⟩
  | many p => exact acceptsMany_iff
  | seq a b iha ihb =>
      rw [accepts, iha]
      constructor
      · rintro ⟨u, v, rfl, hu, hv⟩
        obtain ⟨u', v', rfl, hu', hk⟩ := ihb.mp hv
        exact ⟨u ++ u', v', (List.append_assoc ..).symm, ⟨u, u', rfl, hu, hu'⟩, hk⟩
      · rintro ⟨w', v', rfl, ⟨u, u', rfl, hu, hu'⟩, hk⟩
        exact ⟨u, u' ++ v', List.append_assoc .., hu, ihb.mpr ⟨u', v', rfl, hu', hk⟩⟩
  | alt a b iha ihb =>
      simp only [accepts, Bool.or_eq_true, iha, ihb, Matches]
      constructor
      · rintro (⟨u, v, h, hu, hv⟩ | ⟨u, v, h, hu, hv⟩)
        · exact ⟨u, v, h, .inl hu, hv⟩
        · exact ⟨u, v, h, .inr hu, hv⟩
      · rintro ⟨u, v, h, hu | hu, hv⟩
        · exact .inl ⟨u, v, h, hu, hv⟩
        · exact .inr ⟨u, v, h, hu, hv⟩

/-- **Matching is decided.** -/
theorem isMatch_iff {e : Pattern α} {w : List α} : e.isMatch w = true ↔ e.Matches w := by
  rw [isMatch, accepts_iff]
  constructor
  · rintro ⟨u, v, rfl, hu, hv⟩
    rw [List.isEmpty_iff.mp hv, List.append_nil]
    exact hu
  · exact fun h => ⟨w, [], (List.append_nil _).symm, h, rfl⟩

/-! ### The length of a match -/

/-- The longest match without repetitions. -/
def width : Pattern α → ℕ
  | empty => 0
  | one _ => 1
  | many _ => 0
  | seq a b => a.width + b.width
  | alt a b => max a.width b.width

/-- The repetitions all take the elements of `free`. -/
def Repeats (free : α → Prop) : Pattern α → Prop
  | many p => ∀ a, free a → p a = true
  | seq a b => a.Repeats free ∧ b.Repeats free
  | alt a b => a.Repeats free ∧ b.Repeats free
  | _ => True

/-- **A match is short, or can be stretched.** -/
theorem matches_width_or_stretch {free : α → Prop} {e : Pattern α} (he : e.Repeats free)
    {w : List α} (h : e.Matches w) :
    w.length ≤ e.width ∨
      ∃ x y, w = x ++ y ∧ ∀ more, (∀ a ∈ more, free a) → e.Matches (x ++ more ++ y) := by
  induction e generalizing w with
  | empty =>
      obtain rfl : w = [] := h
      exact .inl (Nat.le_refl _)
  | one p =>
      obtain ⟨a, -, rfl⟩ := h
      exact .inl (Nat.le_refl _)
  | many p =>
      refine .inr ⟨[], w, rfl, fun more hmore a ha => ?_⟩
      rcases List.mem_append.mp ha with ha | ha
      · exact he a (hmore a ha)
      · exact h a ha
  | seq a b iha ihb =>
      obtain ⟨u, v, rfl, hu, hv⟩ := h
      rcases iha he.1 hu with hua | ⟨x, y, rfl, hstretch⟩
      · rcases ihb he.2 hv with hvb | ⟨x, y, rfl, hstretch⟩
        · refine .inl ?_
          rw [List.length_append, width]
          exact Nat.add_le_add hua hvb
        · refine .inr ⟨u ++ x, y, (List.append_assoc ..).symm, fun more hmore => ?_⟩
          refine ⟨u, x ++ more ++ y, ?_, hu, hstretch more hmore⟩
          simp only [List.append_assoc]
      · refine .inr ⟨x, y ++ v, List.append_assoc .., fun more hmore => ?_⟩
        refine ⟨x ++ more ++ y, v, ?_, hstretch more hmore, hv⟩
        simp only [List.append_assoc]
  | alt a b iha ihb =>
      rcases h with h | h
      · rcases iha he.1 h with hw | ⟨x, y, rfl, hstretch⟩
        · exact .inl (hw.trans (Nat.le_max_left _ _))
        · exact .inr ⟨x, y, rfl, fun more hmore => .inl (hstretch more hmore)⟩
      · rcases ihb he.2 h with hw | ⟨x, y, rfl, hstretch⟩
        · exact .inl (hw.trans (Nat.le_max_right _ _))
        · exact .inr ⟨x, y, rfl, fun more hmore => .inr (hstretch more hmore)⟩

end Pattern
end Lib
end Noxy

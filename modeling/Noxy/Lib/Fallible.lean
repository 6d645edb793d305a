/-
# Computations that can fail

When a sequence of computations in `Except` succeeds, each of them did: the inversions of
`bind`, of `mapM` over an option and a list, and of `mapError`; and what the results then are,
said of the arguments.
-/

import Mathlib.Data.List.Forall2

namespace Noxy
namespace Lib

universe u

variable {ε ε' α β : Type*}

/-- Whether a computation fails in a given way can be decided, whatever it computes. -/
instance decidableEqError [DecidableEq ε] : (x : Except ε α) → (e : ε) → Decidable (x = .error e)
  | .error e', e => decidable_of_iff (e' = e) (by simp)
  | .ok _, _ => isFalse (by simp)

theorem bind_eq_ok_iff {x : Except ε α} {f : α → Except ε β} {b : β} :
    x.bind f = .ok b ↔ ∃ a, x = .ok a ∧ f a = .ok b := by
  cases x <;> simp [Except.bind]

/-- The same, as `do` writes it. -/
theorem doBind_eq_ok_iff {ε : Type*} {α β : Type u} {x : Except ε α} {f : α → Except ε β} {b : β} :
    (do f (← x)) = .ok b ↔ ∃ a, x = .ok a ∧ f a = .ok b :=
  bind_eq_ok_iff

theorem mapError_eq_ok_iff {f : ε → ε'} {x : Except ε α} {a : α} :
    x.mapError f = .ok a ↔ x = .ok a := by
  cases x <;> simp [Except.mapError]

theorem map_eq_ok_iff {f : α → β} {x : Except ε α} {b : β} :
    x.map f = .ok b ↔ ∃ a, x = .ok a ∧ f a = b := by
  cases x <;> simp [Except.map]

theorem exists_map_eq_ok_iff {f : α → β} {x : Except ε α} :
    (∃ b, x.map f = .ok b) ↔ ∃ a, x = .ok a := by
  cases x <;> simp [Except.map]

/-- `Option::transpose` after `map`. -/
theorem optionMapM_eq_ok_iff {f : α → Except ε β} {o : Option α} {r : Option β} :
    o.mapM f = .ok r ↔ Option.Rel (fun a b => f a = .ok b) o r := by
  cases o with
  | none =>
      constructor
      · intro h
        obtain rfl : none = r := Except.ok.inj h
        exact .none
      · rintro ⟨⟩
        rfl
  | some a =>
      rw [Option.mapM_some]
      cases hfa : f a with
      | error e =>
          constructor
          · intro h
            cases h
          · rintro ⟨h⟩
            rw [hfa] at h
            cases h
      | ok b =>
          constructor
          · intro h
            obtain rfl : some b = r := Except.ok.inj h
            exact .some hfa
          · rintro ⟨h⟩
            rw [hfa] at h
            rw [Except.ok.inj h]
            rfl

/-- `collect` into a `Result` after `map`. -/
theorem listMapM_eq_ok_iff {f : α → Except ε β} {l : List α} {r : List β} :
    l.mapM f = .ok r ↔ List.Forall₂ (fun a b => f a = .ok b) l r := by
  induction l generalizing r with
  | nil =>
      rw [List.mapM_nil, List.forall₂_nil_left_iff]
      exact ⟨fun h => (Except.ok.inj h).symm, fun h => congrArg Except.ok h.symm⟩
  | cons a l ih =>
      rw [List.mapM_cons, List.forall₂_cons_left_iff]
      change (f a).bind _ = _ ↔ _
      rw [bind_eq_ok_iff]
      constructor
      · rintro ⟨b, hb, hrest⟩
        obtain ⟨r', hr', h⟩ := bind_eq_ok_iff.mp hrest
        exact ⟨b, r', hb, ih.mp hr', (Except.ok.inj h).symm⟩
      · rintro ⟨b, r', hb, hr', rfl⟩
        exact ⟨b, hb, bind_eq_ok_iff.mpr ⟨r', ih.mpr hr', rfl⟩⟩

/-- What holds of the results, said of the arguments: of an option. -/
theorem forall_mem_of_rel {f : α → Except ε β} {o : Option α} {r : Option β}
    (h : Option.Rel (fun a b => f a = .ok b) o r) (P : β → Prop) :
    (∀ b ∈ r, P b) ↔ ∀ a ∈ o, ∃ b, f a = .ok b ∧ P b := by
  cases h with
  | none => simp
  | some hfa => simp [hfa]

/-- The results of a list are those of its elements. -/
theorem mem_of_forall₂ {f : α → Except ε β} {l : List α} {r : List β}
    (h : List.Forall₂ (fun a b => f a = .ok b) l r) (b : β) :
    b ∈ r ↔ ∃ a ∈ l, f a = .ok b := by
  induction h with
  | nil => simp
  | cons hfa _ ih => simp [ih, hfa, eq_comm]

end Lib
end Noxy

/-
# Records in a text of lines

A text is its lines, each with a separator at its end (`unlines`), and the lines are those of
records, one record after the other.  `readUntil` reads up to a mark, `readAll` reads record after
record.

What is written can be read back if the separator is in no line (`splitOn_unlines`), no mark in
what stands before it (`readUntil_append`), and each record is read from its lines whatever stands
after them (`readAll_flatMap`).
-/

import Mathlib.Data.List.Basic

namespace Noxy
namespace Lib

variable {α β γ : Type*}

section Separators

variable [DecidableEq α]

/-- The lines, each with its end. -/
def unlines (sep : α) (ls : List (List α)) : List α := ls.flatMap (· ++ [sep])

/-- **The lines of a text** without their ends; the last one has none, and is empty. -/
theorem splitOn_unlines {sep : α} {ls : List (List α)} (h : ∀ l ∈ ls, sep ∉ l) :
    (unlines sep ls).splitOn sep = ls ++ [[]] := by
  induction ls with
  | nil => rfl
  | cons l ls ih =>
      obtain ⟨hl, hls⟩ := List.forall_mem_cons.mp h
      have hline : ∀ x ∈ l, (x == sep) = false := by
        intro x hx
        rw [beq_eq_false_iff_ne]
        rintro rfl
        exact hl hx
      have htext : unlines sep (l :: ls) = l ++ sep :: unlines sep ls := by
        rw [unlines, List.flatMap_cons, List.append_assoc]
        rfl
      rw [htext, List.splitOn,
        List.splitOnP_append_cons_of_forall_mem hline sep (beq_self_eq_true sep)]
      exact congrArg (l :: ·) (ih hls)

/-- What stands before the first `stop`, and what stands after it. -/
def readUntil (stop : α) : List α → Option (List α × List α)
  | [] => none
  | x :: xs =>
      if x = stop then some ([], xs) else (readUntil stop xs).map fun r => (x :: r.1, r.2)

theorem readUntil_append {stop : α} {xs : List α} (h : stop ∉ xs) (rest : List α) :
    readUntil stop (xs ++ stop :: rest) = some (xs, rest) := by
  induction xs with
  | nil => exact if_pos rfl
  | cons x xs ih =>
      have hx : x ≠ stop := by
        rintro rfl
        exact h List.mem_cons_self
      rw [List.cons_append, readUntil, if_neg hx, ih fun hmem => h (List.mem_cons_of_mem _ hmem)]
      rfl

end Separators

/-- Items that are each read back from what is written for them. -/
theorem mapM_map_eq_some {f : α → β} {g : β → Option α} {as : List α}
    (h : ∀ a ∈ as, g (f a) = some a) : (as.map f).mapM g = some as := by
  induction as with
  | nil => rfl
  | cons a as ih =>
      obtain ⟨ha, has⟩ := List.forall_mem_cons.mp h
      rw [List.map_cons, List.mapM_cons, ha, ih has]
      rfl

/-- Record after record, up to a number of them. -/
def readAll (read : List α → Option (β × List α)) : ℕ → List α → Option (List β)
  | _, [] => some []
  | 0, _ :: _ => none
  | fuel + 1, l :: ls =>
      (read (l :: ls)).bind fun r => (readAll read fuel r.2).map (r.1 :: ·)

/-- **Records are read back** if each is, whatever stands after it. -/
theorem readAll_flatMap {read : List α → Option (β × List α)} {lines : γ → List α}
    {record : γ → β} {xs : List γ}
    (h : ∀ x ∈ xs, lines x ≠ [] ∧ ∀ rest, read (lines x ++ rest) = some (record x, rest))
    {fuel : ℕ} (hfuel : xs.length ≤ fuel) :
    readAll read fuel (xs.flatMap lines) = some (xs.map record) := by
  induction xs generalizing fuel with
  | nil => cases fuel <;> rfl
  | cons x xs ih =>
      obtain ⟨⟨hne, hread⟩, hxs⟩ := List.forall_mem_cons.mp h
      obtain ⟨l, ls, hlines⟩ := List.exists_cons_of_ne_nil hne
      obtain ⟨fuel, rfl⟩ : ∃ n, fuel = n + 1 := ⟨fuel - 1, by simp at hfuel; omega⟩
      have hrest := hread (xs.flatMap lines)
      rw [List.flatMap_cons, hlines, List.cons_append] at *
      rw [readAll, hrest, Option.bind_some, ih hxs (by simpa using hfuel)]
      rfl

theorem length_le_length_flatMap {lines : γ → List α} {xs : List γ} (h : ∀ x ∈ xs, lines x ≠ []) :
    xs.length ≤ (xs.flatMap lines).length := by
  induction xs with
  | nil => exact Nat.le_refl _
  | cons x xs ih =>
      obtain ⟨hx, hxs⟩ := List.forall_mem_cons.mp h
      have hpos := List.length_pos_iff.mpr hx
      rw [List.flatMap_cons, List.length_append, List.length_cons]
      have := ih hxs
      omega

end Lib
end Noxy

/-
# Turns that go round

Turns are counted from some number on, and what happens at a turn depends on its number modulo
`n`.  Of `m` turns in a row, whatever is met at `k` of the `n` residues is met at least `k` times
in every full round and at most `k` times in the last one.

`mul_turnsWith_not_le` compares two such counts without the number of rounds: if `p` holds at `g`
residues and fails at `b`, then `g` times the turns at which it fails is at most `b` times the
turns at which it holds, and one round more.  `countP_le_of_chain` is about a list whose numbers go
up by one modulo `n`: no residue is met more than once more often than another.
-/

import Mathlib.Algebra.BigOperators.Group.List.Basic
import Mathlib.Data.Int.CardIntervalMod
import Mathlib.Data.List.Chain
import Mathlib.Data.Nat.Count
import Mathlib.Tactic.Ring

namespace Noxy
namespace Lib

variable {p : ℕ → Prop} [DecidablePred p] {n : ℕ}

/-- Of `m` turns from the turn `c` on, those at which `p` holds. -/
def turnsWith (p : ℕ → Prop) [DecidablePred p] (c m : ℕ) : ℕ := Nat.count (fun k => p (c + k)) m

theorem turnsWith_succ (p : ℕ → Prop) [DecidablePred p] (c m : ℕ) :
    turnsWith p c (m + 1) = turnsWith p c m + if p (c + m) then 1 else 0 := Nat.count_succ _ m

theorem turnsWith_add (p : ℕ → Prop) [DecidablePred p] (c m m' : ℕ) :
    turnsWith p c (m + m') = turnsWith p c m + turnsWith p (c + m) m' := by
  simp only [turnsWith, Nat.count_add, Nat.add_assoc]

theorem turnsWith_mono (p : ℕ → Prop) [DecidablePred p] (c : ℕ) {m m' : ℕ} (h : m ≤ m') :
    turnsWith p c m ≤ turnsWith p c m' := Nat.count_monotone _ h

/-- Each turn is of one kind or of the other. -/
theorem turnsWith_add_not (p : ℕ → Prop) [DecidablePred p] (c m : ℕ) :
    turnsWith p c m + turnsWith (fun k => ¬ p k) c m = m := by
  induction m with
  | zero => rfl
  | succ m ih =>
      rw [turnsWith_succ, turnsWith_succ]
      by_cases hp : p (c + m)
      · rw [if_pos hp, if_neg (not_not_intro hp)]
        omega
      · rw [if_neg hp, if_pos hp]
        omega

/-- **A round** has all residues once, wherever it starts. -/
theorem turnsWith_period (hp : ∀ k, p (k + n) ↔ p k) (c : ℕ) :
    turnsWith p c n = n.count p := by
  have hshift : Nat.count (fun k => p (n + k)) c = c.count p := by
    have hk : ∀ k, p (n + k) ↔ p k := fun k => by rw [Nat.add_comm, hp]
    exact le_antisymm (Nat.count_mono_left fun k _ => (hk k).mp)
      (Nat.count_mono_left fun k _ => (hk k).mpr)
  have hsplit : c.count p + turnsWith p c n = n.count p + c.count p := by
    rw [turnsWith, ← Nat.count_add, Nat.add_comm c n, Nat.count_add, hshift]
  omega

theorem turnsWith_rounds (hp : ∀ k, p (k + n) ↔ p k) (c q : ℕ) :
    turnsWith p c (q * n) = q * n.count p := by
  induction q with
  | zero => rw [Nat.zero_mul, Nat.zero_mul]; rfl
  | succ q ih => rw [Nat.succ_mul, turnsWith_add, ih, turnsWith_period hp, Nat.succ_mul]

/-- As many rounds as there are. -/
theorem le_turnsWith (hp : ∀ k, p (k + n) ↔ p k) (c m : ℕ) :
    m / n * n.count p ≤ turnsWith p c m := by
  rw [← turnsWith_rounds hp c]
  exact turnsWith_mono p c (Nat.div_mul_le_self m n)

/-- And at most one more. -/
theorem turnsWith_le (hn : 0 < n) (hp : ∀ k, p (k + n) ↔ p k) (c m : ℕ) :
    turnsWith p c m ≤ (m / n + 1) * n.count p := by
  rw [← turnsWith_rounds hp c]
  refine turnsWith_mono p c ?_
  rw [Nat.mul_comm]
  exact (Nat.lt_mul_div_succ m hn).le

/-- **Two kinds of turns.** -/
theorem mul_turnsWith_not_le (hn : 0 < n) (hp : ∀ k, p (k + n) ↔ p k) (c m : ℕ) :
    n.count p * turnsWith (fun k => ¬ p k) c m ≤
      n.count (fun k => ¬ p k) * (turnsWith p c m + n.count p) := by
  have hnot : ∀ k, ¬ p (k + n) ↔ ¬ p k := fun k => not_congr (hp k)
  calc n.count p * turnsWith (fun k => ¬ p k) c m
      ≤ n.count p * ((m / n + 1) * n.count (fun k => ¬ p k)) :=
        Nat.mul_le_mul_left _ (turnsWith_le hn hnot c m)
    _ = n.count (fun k => ¬ p k) * (m / n * n.count p + n.count p) := by ring
    _ ≤ n.count (fun k => ¬ p k) * (turnsWith p c m + n.count p) :=
        Nat.mul_le_mul_left _ (Nat.add_le_add_right (le_turnsWith hp c m) _)

/-- **Two residues.** -/
theorem turnsWith_modEq_le (hn : 0 < n) (a b c m : ℕ) :
    turnsWith (· ≡ a [MOD n]) c m ≤ turnsWith (· ≡ b [MOD n]) c m + 1 := by
  have hperiod : ∀ a k, k + n ≡ a [MOD n] ↔ k ≡ a [MOD n] := fun a k => by
    rw [Nat.ModEq, Nat.add_mod_right, Nat.ModEq]
  have honce : ∀ a, n.count (· ≡ a [MOD n]) = 1 := fun a => by
    rw [Nat.count_modEq_card n hn, Nat.mod_self, Nat.div_self hn, if_neg (Nat.not_lt_zero _)]
  have hhigh := turnsWith_le (p := (· ≡ a [MOD n])) hn (hperiod a) c m
  have hlow := le_turnsWith (p := (· ≡ b [MOD n])) (hperiod b) c m
  rw [honce] at hhigh hlow
  omega

/-- Numbers that go up by one are turns in a row. -/
theorem countP_of_chain {α : Type*} {f : α → ℕ} {l : List α}
    (h : l.IsChain fun x y => f y ≡ f x + 1 [MOD n]) {c : ℕ} (hc : ∀ x ∈ l.head?, f x ≡ c [MOD n])
    (a : ℕ) :
    l.countP (fun x => f x ≡ a [MOD n]) = turnsWith (· ≡ a [MOD n]) c l.length := by
  induction l generalizing c with
  | nil => rfl
  | cons x l ih =>
      obtain ⟨hnext, hchain⟩ := List.isChain_cons.mp h
      have hx : f x ≡ c [MOD n] := hc x rfl
      have hfirst : turnsWith (· ≡ a [MOD n]) c 1 = if f x ≡ a [MOD n] then 1 else 0 := by
        have hiff : f x ≡ a [MOD n] ↔ c + 0 ≡ a [MOD n] := ⟨hx.symm.trans, hx.trans⟩
        rw [turnsWith_succ, if_congr hiff rfl rfl]
        exact Nat.zero_add _
      rw [List.countP_cons, List.length_cons, Nat.add_comm l.length 1, turnsWith_add, hfirst,
        ih hchain fun y hy => (hnext y hy).trans (hx.add_right 1), Nat.add_comm]
      simp only [decide_eq_true_eq]

/-- **Of numbers that go up by one** no residue is met twice more often than another. -/
theorem countP_le_of_chain (hn : 0 < n) {α : Type*} {f : α → ℕ} {l : List α}
    (h : l.IsChain fun x y => f y ≡ f x + 1 [MOD n]) (a b : ℕ) :
    l.countP (fun x => f x ≡ a [MOD n]) ≤ l.countP (fun x => f x ≡ b [MOD n]) + 1 := by
  obtain ⟨c, hc⟩ : ∃ c, ∀ x ∈ l.head?, f x ≡ c [MOD n] := by
    cases l with
    | nil => exact ⟨0, fun x hx => nomatch hx⟩
    | cons x l => exact ⟨f x, fun y hy => by rw [Option.some.inj hy]⟩
  rw [countP_of_chain h hc, countP_of_chain h hc]
  exact turnsWith_modEq_le hn a b c l.length

/-- A sum over a list one of whose entries has changed. -/
theorem sum_map_set {α : Type*} (f : α → ℕ) {l : List α} {i : ℕ} {x : α} (h : l[i]? = some x)
    (y : α) : ((l.set i y).map f).sum + f x = (l.map f).sum + f y := by
  induction l generalizing i with
  | nil => cases h
  | cons a l ih =>
      cases i with
      | zero =>
          obtain rfl := Option.some.inj h
          simp only [List.set_cons_zero, List.map_cons, List.sum_cons]
          omega
      | succ i =>
          have := ih h
          simp only [List.set_cons_succ, List.map_cons, List.sum_cons]
          omega

end Lib
end Noxy

/-
# Computations that fail at the first of their checks

A computation in `Except` that makes one check after the other, and nothing else that can
fail, fails as the first check that does.  `Consults x cs` says that `x` is such a computation
and that `cs` are its checks, in order; `run` is what a check does.

The rules follow the program: `pure` has no checks, a `bind` those of its first part and then
those of the rest, `map` those of what it maps, `mapM` those of the elements.  Two facts come
out: the computation succeeds exactly if all checks pass (`Consults.isOk_iff`), and it fails
with an error exactly if a check does after others that pass (`Consults.eq_error_iff`).
-/

import Mathlib.Data.List.Basic

namespace Noxy
namespace Lib

universe u

variable {κ ε : Type*} {α β : Type u} (run : κ → Except ε Unit)

/-- The checks one after the other. -/
def runAll : List κ → Except ε Unit
  | [] => .ok ()
  | c :: cs =>
      match run c with
      | .error e => .error e
      | .ok () => runAll cs

/-- The computation fails, if at all, at the first of the checks that fails. -/
def Consults (x : Except ε α) (cs : List κ) : Prop := x.map (fun _ => ()) = runAll run cs

variable {run}

theorem runAll_eq_error_iff {cs : List κ} {e : ε} :
    runAll run cs = .error e ↔ ∃ pre c post, cs = pre ++ c :: post ∧
      (∀ c' ∈ pre, run c' = .ok ()) ∧ run c = .error e := by
  induction cs with
  | nil => simp [runAll]
  | cons c cs ih =>
      cases hc : run c with
      | error e' =>
          rw [runAll, hc]
          constructor
          · intro h
            exact ⟨[], c, cs, rfl, by simp, by rw [hc]; exact h⟩
          · rintro ⟨pre, c', post, hcs, hpre, hc'⟩
            cases pre with
            | nil =>
                obtain ⟨rfl, -⟩ := List.cons.inj hcs
                exact hc.symm.trans hc'
            | cons c₀ pre =>
                obtain ⟨rfl, -⟩ := List.cons.inj hcs
                rw [hpre c List.mem_cons_self] at hc
                cases hc
      | ok u =>
          rw [runAll, hc]
          dsimp only
          rw [ih]
          constructor
          · rintro ⟨pre, c', post, rfl, hpre, hc'⟩
            refine ⟨c :: pre, c', post, rfl, ?_, hc'⟩
            simpa using ⟨hc, hpre⟩
          · rintro ⟨pre, c', post, hcs, hpre, hc'⟩
            cases pre with
            | nil =>
                obtain ⟨rfl, -⟩ := List.cons.inj hcs
                rw [hc] at hc'
                cases hc'
            | cons c₀ pre =>
                obtain ⟨-, rfl⟩ := List.cons.inj hcs
                exact ⟨pre, c', post, rfl, fun c'' h => hpre c'' (List.mem_cons_of_mem _ h), hc'⟩

theorem runAll_eq_ok_iff {cs : List κ} :
    runAll run cs = .ok () ↔ ∀ c ∈ cs, run c = .ok () := by
  induction cs with
  | nil => simp [runAll]
  | cons c cs ih =>
      rw [runAll]
      cases hc : run c with
      | error e => simp [hc]
      | ok u => simpa [hc] using ih

theorem runAll_append (cs cs' : List κ) :
    runAll run (cs ++ cs') = (runAll run cs).bind fun _ => runAll run cs' := by
  induction cs with
  | nil => rfl
  | cons c cs ih =>
      rw [List.cons_append, runAll, runAll]
      cases run c with
      | error e => rfl
      | ok u => exact ih

namespace Consults

variable {x : Except ε α} {cs cs' : List κ}

/-- **Success**: all checks pass. -/
theorem isOk_iff (h : Consults run x cs) : (∃ a, x = .ok a) ↔ ∀ c ∈ cs, run c = .ok () := by
  rw [← runAll_eq_ok_iff, ← h]
  cases x <;> simp [Except.map]

/-- **Failure**: a check fails, and all before it pass. -/
theorem eq_error_iff (h : Consults run x cs) {e : ε} :
    x = .error e ↔ ∃ pre c post, cs = pre ++ c :: post ∧ (∀ c' ∈ pre, run c' = .ok ()) ∧
      run c = .error e := by
  rw [← runAll_eq_error_iff, ← h]
  cases x <;> simp [Except.map]

theorem ok (a : α) : Consults run (.ok a) [] := rfl

/-- A computation that is one check. -/
theorem single {c : κ} (h : x.map (fun _ => ()) = run c) : Consults run x [c] := by
  unfold Consults
  rw [h, runAll]
  cases run c <;> rfl

theorem bind {f : α → Except ε β} (hx : Consults run x cs)
    (hf : ∀ a, x = .ok a → Consults run (f a) cs') : Consults run (x >>= f) (cs ++ cs') := by
  unfold Consults at hx hf ⊢
  rw [runAll_append, ← hx]
  cases x with
  | error e => rfl
  | ok a => exact hf a rfl

theorem map (f : α → β) (hx : Consults run x cs) : Consults run (x.map f) cs := by
  unfold Consults at hx ⊢
  rw [← hx]
  cases x <;> rfl

/-- Nothing fails after the last check. -/
theorem bind_ok {f : α → Except ε β} (hx : Consults run x cs) (hf : ∀ a, ∃ b, f a = .ok b) :
    Consults run (x >>= f) cs := by
  rw [← List.append_nil cs]
  refine hx.bind fun a _ => ?_
  obtain ⟨b, hb⟩ := hf a
  rw [hb]
  exact ok b

theorem mapM {ι : Type u} {f : ι → Except ε β} {check : ι → κ}
    (hf : ∀ i, Consults run (f i) [check i]) (l : List ι) :
    Consults run (l.mapM f) (l.map check) := by
  induction l with
  | nil => exact ok _
  | cons i l ih =>
      rw [List.mapM_cons]
      exact (hf i).bind fun b _ => ih.bind_ok fun bs => ⟨b :: bs, rfl⟩

end Consults
end Lib
end Noxy

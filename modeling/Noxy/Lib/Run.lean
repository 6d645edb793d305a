/-
# Runs of a deterministic system

A system is a function `step` from a state and an input to the next state.
`run` folds it over the inputs, `Along` says that something holds of every
input and the state it meets, and `Always` that something holds in every state
on the way, the first and the last included.

`run_of_kept` and `always_of_kept` are the rules for an invariant.  `always_iff_along`
is the rule for one that breaks in some steps: when a step from a good state ends in a
good state exactly if a condition on the input and the state before it is met, then a
run stays good exactly if all its steps meet the condition.  `noted` is what an observer notes of
the steps of a run.  `foldlM_isOk_iff` is the rule for steps that can fail.
-/

import Mathlib.Data.List.Basic
import Mathlib.Order.Basic

namespace Noxy
namespace Lib

/-- A run in order of its times may be said to start at the first of them. -/
theorem pairwise_cons_self {K : Type*} [Preorder K] {t : K} {times : List K}
    (h : (t :: times).Pairwise (· ≤ ·)) : (t :: t :: times).Pairwise (· ≤ ·) := by
  rw [List.pairwise_cons]
  refine ⟨fun u hu => ?_, h⟩
  rcases List.mem_cons.mp hu with rfl | hu
  · exact le_rfl
  · exact (List.pairwise_cons.mp h).1 u hu

variable {σ ι : Type*} (step : σ → ι → σ)

/-- The state after the inputs. -/
def run (s : σ) (es : List ι) : σ := es.foldl step s

@[simp] theorem run_nil (s : σ) : run step s [] = s := rfl

@[simp] theorem run_cons (s : σ) (e : ι) (es : List ι) :
    run step s (e :: es) = run step (step s e) es := rfl

theorem run_append (s : σ) (es es' : List ι) :
    run step s (es ++ es') = run step (run step s es) es' := List.foldl_append

theorem run_concat (s : σ) (es : List ι) (e : ι) :
    run step s (es ++ [e]) = step (run step s es) e := run_append step s es [e]

/-- Every input, with the state it meets, satisfies `P`. -/
def Along (P : σ → ι → Prop) : σ → List ι → Prop
  | _, [] => True
  | s, e :: es => P s e ∧ Along P (step s e) es

/-- Every state on the way satisfies `Q`. -/
def Always (Q : σ → Prop) (s : σ) (es : List ι) : Prop :=
  ∀ pre post, es = pre ++ post → Q (run step s pre)

variable {step}

instance decidableAlong {P : σ → ι → Prop} [∀ s e, Decidable (P s e)] :
    ∀ s es, Decidable (Along step P s es)
  | _, [] => inferInstanceAs (Decidable True)
  | s, e :: es =>
      have := decidableAlong (P := P) (step s e) es
      inferInstanceAs (Decidable (P s e ∧ Along step P (step s e) es))

/-- Under an invariant, conditions that say the same of a step hold along the same runs. -/
theorem along_congr_of_kept {J : σ → Prop} (hJ : ∀ s e, J s → J (step s e)) {P Q : σ → ι → Prop}
    (h : ∀ s e, J s → (P s e ↔ Q s e)) {s : σ} (hs : J s) (es : List ι) :
    Along step P s es ↔ Along step Q s es := by
  induction es generalizing s with
  | nil => exact Iff.rfl
  | cons e es ih => exact and_congr (h s e hs) (ih (hJ s e hs))

theorem along_congr {P Q : σ → ι → Prop} (h : ∀ s e, P s e ↔ Q s e) (s : σ) (es : List ι) :
    Along step P s es ↔ Along step Q s es :=
  along_congr_of_kept (J := fun _ => True) (fun _ _ _ => trivial) (fun s e _ => h s e) trivial es

theorem along_append {P : σ → ι → Prop} {s : σ} {es es' : List ι} :
    Along step P s (es ++ es') ↔ Along step P s es ∧ Along step P (run step s es) es' := by
  induction es generalizing s with
  | nil => exact ⟨fun h => ⟨trivial, h⟩, And.right⟩
  | cons e es ih => exact (and_congr_right fun _ => ih).trans and_assoc.symm

theorem Along.mono {P Q : σ → ι → Prop} (h : ∀ s e, P s e → Q s e) {s : σ} {es : List ι}
    (hP : Along step P s es) : Along step Q s es := by
  induction es generalizing s with
  | nil => trivial
  | cons e es ih => exact ⟨h s e hP.1, ih hP.2⟩

theorem along_of_forall {P : σ → ι → Prop} {es : List ι} (h : ∀ s, ∀ e ∈ es, P s e) (s : σ) :
    Along step P s es := by
  induction es generalizing s with
  | nil => trivial
  | cons e es ih =>
      exact ⟨h s e (List.mem_cons_self ..),
        ih (fun s e he => h s e (List.mem_cons_of_mem _ he)) (step s e)⟩

theorem always_cons {Q : σ → Prop} {s : σ} {e : ι} {es : List ι} :
    Always step Q s (e :: es) ↔ Q s ∧ Always step Q (step s e) es := by
  constructor
  · intro h
    refine ⟨h [] (e :: es) rfl, fun pre post hes => ?_⟩
    exact h (e :: pre) post (congrArg (e :: ·) hes)
  · rintro ⟨hs, hes⟩ pre post h
    cases pre with
    | nil => exact hs
    | cons e₀ pre =>
        obtain ⟨rfl, htail⟩ := List.cons.inj h
        exact hes pre post htail

/-- **An invariant of a run.**  What holds at the start and is kept by every input of the run
holds at the end. -/
theorem run_of_kept {J : σ → Prop} {es : List ι} (hJ : ∀ e ∈ es, ∀ s, J s → J (step s e)) {s : σ}
    (hs : J s) : J (run step s es) := by
  induction es generalizing s with
  | nil => exact hs
  | cons e es ih =>
      exact ih (fun e' he' => hJ e' (List.mem_cons_of_mem _ he'))
        (hJ e (List.mem_cons_self ..) s hs)

/-- **An invariant.**  What holds at the start and is kept by every step holds in every
state. -/
theorem always_of_kept {J : σ → Prop} (hJ : ∀ s e, J s → J (step s e)) {s : σ} (hs : J s)
    (es : List ι) : Always step J s es :=
  fun _ _ _ => run_of_kept (fun e _ s => hJ s e) hs

theorem Always.mono {Q Q' : σ → Prop} (h : ∀ s, Q s → Q' s) {s : σ} {es : List ι}
    (hQ : Always step Q s es) : Always step Q' s es :=
  fun pre post hes => h _ (hQ pre post hes)

/-- **An invariant with the exact condition of its steps.**  `J` is kept by every
step; among the states that satisfy it, a step from one that satisfies `Q` ends
in one that does exactly if the step is `Ok`. -/
theorem always_iff_along {J Q : σ → Prop} {Ok : σ → ι → Prop}
    (hJ : ∀ s e, J s → J (step s e)) (hQ : ∀ s e, J s → Q s → (Q (step s e) ↔ Ok s e))
    {s : σ} (hJs : J s) (hQs : Q s) (es : List ι) :
    Always step Q s es ↔ Along step Ok s es := by
  induction es generalizing s with
  | nil =>
      refine ⟨fun _ => trivial, fun _ pre post h => ?_⟩
      obtain ⟨rfl, _⟩ := List.append_eq_nil_iff.mp h.symm
      exact hQs
  | cons e es ih =>
      rw [always_cons, Along]
      constructor
      · rintro ⟨_, hes⟩
        have hQe : Q (step s e) := hes [] es rfl
        exact ⟨(hQ s e hJs hQs).mp hQe, (ih (hJ s e hJs) hQe).mp hes⟩
      · rintro ⟨hok, hes⟩
        have hQe : Q (step s e) := (hQ s e hJs hQs).mpr hok
        exact ⟨hQs, (ih (hJ s e hJs) hQe).mpr hes⟩

/-! ### What is noted of a run -/

/-- What `note` says of every input and the state that it meets. -/
def noted {ν : Type*} (step : σ → ι → σ) (note : σ → ι → ν) : σ → List ι → List ν
  | _, [] => []
  | s, e :: es => note s e :: noted step note (step s e) es

section Noted

variable {ν : Type*} {note : σ → ι → ν}

theorem noted_append (s : σ) (es es' : List ι) :
    noted step note s (es ++ es') =
      noted step note s es ++ noted step note (run step s es) es' := by
  induction es generalizing s with
  | nil => rfl
  | cons e es ih => exact congrArg (note s e :: ·) (ih (step s e))

theorem noted_concat (s : σ) (es : List ι) (e : ι) :
    noted step note s (es ++ [e]) = noted step note s es ++ [note (run step s es) e] :=
  noted_append s es [e]

/-- An observer who notes the inputs. -/
theorem noted_input (s : σ) (es : List ι) : noted step (fun _ e => e) s es = es := by
  induction es generalizing s with
  | nil => rfl
  | cons e es ih => exact congrArg (e :: ·) (ih (step s e))

/-- A place in the notes is a place in the run. -/
theorem exists_of_noted_eq_append {s : σ} {es : List ι} {before after : List ν} {n : ν}
    (h : noted step note s es = before ++ n :: after) :
    ∃ pre e post, es = pre ++ e :: post ∧ before = noted step note s pre ∧
      n = note (run step s pre) e := by
  induction es generalizing s before with
  | nil => simp [noted] at h
  | cons e es ih =>
      cases before with
      | nil =>
          obtain ⟨rfl, _⟩ := List.cons.inj h
          exact ⟨[], e, es, rfl, rfl, rfl⟩
      | cons n₀ before =>
          obtain ⟨rfl, htail⟩ := List.cons.inj h
          obtain ⟨pre, e', post, rfl, rfl, rfl⟩ := ih htail
          exact ⟨e :: pre, e', post, rfl, rfl, rfl⟩

end Noted

/-! ### Steps that can fail -/

/-- The state after a step that can fail: when it does, the state is what it was. -/
def stepOr {ε : Type*} (step : σ → ι → Except ε σ) (s : σ) (e : ι) : σ :=
  match step s e with
  | .ok s' => s'
  | .error _ => s

/-- **A run of steps that can fail** gets to its end exactly if every step succeeds in the
state that it meets. -/
theorem foldlM_isOk_iff {ε : Type*} {σ : Type*} {step : σ → ι → Except ε σ} {s : σ} {es : List ι} :
    (∃ s', es.foldlM step s = .ok s') ↔
      Along (stepOr step) (fun s e => ∃ s', step s e = .ok s') s es := by
  induction es generalizing s with
  | nil => exact ⟨fun _ => trivial, fun _ => ⟨s, rfl⟩⟩
  | cons e es ih =>
      rw [List.foldlM_cons, Along, stepOr]
      cases step s e with
      | error err =>
          refine ⟨?_, ?_⟩
          · rintro ⟨s', h⟩
            cases h
          · rintro ⟨⟨s', h⟩, -⟩
            cases h
      | ok s' =>
          dsimp only
          rw [← ih]
          exact ⟨fun h => ⟨⟨s', rfl⟩, h⟩, fun h => h.2⟩

end Lib
end Noxy

/-
# A single circuit

`src/middleware/circuit_breaker.rs`: the state machine of one circuit, without a map, a
cleanup or an eviction.  It starts closed, `check` and `record` move it, and `check`
answers (`aloneStep`, `aloneAnswer`).

Closed, it counts the failures since the last success, and it opens before they reach
the threshold (`aloneState_closed`).
-/

import Noxy.CircuitBreaker.State
import Noxy.Lib.Run

namespace Noxy
namespace CircuitBreaker

open Lib

/-- What a single circuit answers to a call. -/
def aloneAnswer (halfOpenProbes : ℕ) (st : State) (c : Call) : Option CircuitAction :=
  match c.op with
  | .check => some (checkCircuit halfOpenProbes c.later st).1
  | .record _ => none

/-- A single circuit after a call. -/
def aloneStep (threshold recovery halfOpenProbes : ℕ) (st : State) (c : Call) : State :=
  match c.op with
  | .check => (checkCircuit halfOpenProbes c.later st).2
  | .record success => recordCircuit threshold recovery c.later success st

/-- What a single circuit answers to the `check`s of a run. -/
def aloneAnswers (threshold recovery halfOpenProbes : ℕ) : State → List Call → List CircuitAction
  | _, [] => []
  | st, c :: calls =>
      (aloneAnswer halfOpenProbes st c).toList ++
        aloneAnswers threshold recovery halfOpenProbes
          (aloneStep threshold recovery halfOpenProbes st c) calls

/-- How many failures were recorded after the last success. -/
def failuresSinceSuccess (calls : List Call) : ℕ :=
  (calls.reverse.takeWhile fun c => c.op != .record true).countP fun c => c.op == .record false

variable {threshold recovery halfOpenProbes : ℕ}

theorem failuresSinceSuccess_concat (calls : List Call) (c : Call) :
    failuresSinceSuccess (calls ++ [c]) = match c.op with
      | .check => failuresSinceSuccess calls
      | .record true => 0
      | .record false => failuresSinceSuccess calls + 1 := by
  unfold failuresSinceSuccess
  rw [List.reverse_append, List.reverse_singleton, List.singleton_append]
  rcases hop : c.op with _ | _ | _ <;> simp [hop]

/-- A `check` leaves a circuit closed only if it was. -/
theorem checkCircuit_closed {later : ℤ} {st : State} {f : ℕ}
    (h : (checkCircuit halfOpenProbes later st).2 = .closed f) : st = .closed f := by
  cases st with
  | closed f' => exact h
  | opened deadline =>
      simp only [checkCircuit] at h
      split_ifs at h
  | halfOpen n =>
      simp only [checkCircuit] at h
      split_ifs at h

/-- A `record` leaves a circuit closed by a success, or by a failure below the
threshold. -/
theorem recordCircuit_closed {later : ℤ} {success : Bool} {st : State} {f : ℕ}
    (h : recordCircuit threshold recovery later success st = .closed f) :
    (success = true ∧ f = 0) ∨
      (success = false ∧ ∃ f', st = .closed f' ∧ f = f' + 1 ∧ f' + 1 < threshold) := by
  cases st with
  | closed f' =>
      simp only [recordCircuit] at h
      split_ifs at h with hs ht
      · exact Or.inl ⟨hs, (State.closed.inj h).symm⟩
      · exact Or.inr ⟨by simpa using hs, f', rfl, (State.closed.inj h).symm, by omega⟩
  | opened deadline => cases h
  | halfOpen n =>
      simp only [recordCircuit] at h
      split_ifs at h with hs
      exact Or.inl ⟨hs, (State.closed.inj h).symm⟩

/-- **What a closed circuit counts.**  The failures since the last success, and fewer
than the threshold. -/
theorem aloneState_closed (calls : List Call) {f : ℕ}
    (h : run (aloneStep threshold recovery halfOpenProbes) (.closed 0) calls = .closed f) :
    f < max threshold 1 ∧ f = failuresSinceSuccess calls := by
  induction calls using List.reverseRecOn generalizing f with
  | nil =>
      obtain rfl : 0 = f := by simpa using h
      exact ⟨by omega, rfl⟩
  | append_singleton calls c ih =>
      rw [run_concat, aloneStep] at h
      rw [failuresSinceSuccess_concat]
      cases hop : c.op with
      | check =>
          rw [hop] at h
          exact ih (checkCircuit_closed h)
      | record success =>
          rw [hop] at h
          rcases recordCircuit_closed h with ⟨rfl, rfl⟩ | ⟨rfl, f', hst, rfl, hlt⟩
          · exact ⟨by omega, rfl⟩
          · obtain ⟨_, hcount⟩ := ih hst
            exact ⟨by omega, by rw [hcount]⟩

end CircuitBreaker
end Noxy

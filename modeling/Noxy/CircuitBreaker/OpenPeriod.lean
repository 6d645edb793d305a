/-
# An open circuit stays shut until its deadline

`src/middleware/circuit_breaker.rs`: `SharedState::check` and
`SharedState::record`, over whole runs of calls on any keys, with a clock that
never goes back (`Clock`).

From the moment a circuit is open with a deadline, two things hold whatever else
is called in between, whatever the cleanup and the eviction do.

* A `check` whose clock read is before the deadline is rejected
  (`answer_before_deadline`): the circuit is kept, and it does not move.
* The first `check` at or after the deadline is let through, unless a failure
  has opened the circuit again since (`answer_at_deadline`).  Until that `check`
  the circuit is `Unprobed`: gone, closed, or open with the same deadline.

The exception is real: once the deadline is past, the cleanup may drop the
circuit when it is idle, and a failure that comes in late is then counted by a
new, closed one and may open it.
-/

import Noxy.CircuitBreaker.State
import Noxy.Lib.Run

namespace Noxy
namespace CircuitBreaker

open Lib

/-- The clock reads of the calls, from `t` on, never go back. -/
def Clock : ℤ → List Call → Prop
  | _, [] => True
  | t, c :: calls => t ≤ c.now ∧ c.now ≤ c.later ∧ Clock c.later calls

instance Clock.decidable : ∀ (t : ℤ) (calls : List Call), Decidable (Clock t calls)
  | _, [] => .isTrue trivial
  | t, c :: calls =>
      have := Clock.decidable c.later calls
      inferInstanceAs (Decidable (t ≤ c.now ∧ c.now ≤ c.later ∧ Clock c.later calls))

namespace SharedState

/-- The call opens the circuit of `k`, or moves its deadline. -/
def Opens (k : String) (s : SharedState) (c : Call) : Prop :=
  ∃ deadline, (s.step c).circuit k = some (.opened deadline) ∧
    s.circuit k ≠ some (.opened deadline)

end SharedState

/-- A call comes after all those before it. -/
theorem Clock.split {t : ℤ} {pre : List Call} {c : Call} {post : List Call}
    (h : Clock t (pre ++ c :: post)) :
    t ≤ c.now ∧ c.now ≤ c.later ∧ ∀ c' ∈ pre, c'.now ≤ c'.later ∧ c'.later ≤ c.now := by
  induction pre generalizing t with
  | nil => exact ⟨h.1, h.2.1, fun _ hc => absurd hc List.not_mem_nil⟩
  | cons c₀ pre ih =>
      obtain ⟨ht, hle, hrest⟩ := h
      obtain ⟨hnow, hlater, hpre⟩ := ih hrest
      refine ⟨by omega, hlater, fun c' hc' => ?_⟩
      rcases List.mem_cons.mp hc' with rfl | hc'
      · exact ⟨hle, hnow⟩
      · exact hpre c' hc'

namespace SharedState

/-- A call that finds the circuit of its key open, before the deadline, leaves it
so and is rejected. -/
theorem circuit_step_opened {s : SharedState} {k : String} {deadline : ℤ} {c : Call}
    (h : s.circuit k = some (.opened deadline)) (hle : c.now ≤ c.later)
    (hlt : c.later < deadline) :
    (s.step c).circuit k = some (.opened deadline) ∧
      (c.key = k → c.op = .check → s.answer c = some .reject) := by
  have hsweep : (s.sweep c.order c.key c.now).circuit k = some (.opened deadline) := by
    rcases circuit_sweep c.order s c.key c.now k with hsame | ⟨_, hdrop⟩
    · exact hsame.trans h
    · have := hdrop deadline h
      omega
  have hnot : ¬ deadline ≤ c.later := not_le.mpr hlt
  by_cases hk : k = c.key
  · subst hk
    have hst : (s.sweep c.order c.key c.now).circuitOrClosed c.key = .opened deadline := by
      rw [circuitOrClosed, hsweep, Option.getD_some]
    constructor
    · rw [circuit_step_self, hst]
      unfold Call.move
      cases c.op <;> simp [checkCircuit, recordCircuit, hnot]
    · intro _ hop
      rw [answer_check hop, hst]
      simp [checkCircuit, hnot]
  · refine ⟨(circuit_step_ne s hk).trans hsweep, fun hkey => ?_⟩
    exact absurd hkey.symm hk

/-- Until the deadline, an open circuit stays as it is. -/
theorem circuit_run_opened {k : String} {deadline : ℤ} {calls : List Call} {s : SharedState}
    (h : s.circuit k = some (.opened deadline))
    (hcalls : ∀ c ∈ calls, c.now ≤ c.later ∧ c.later < deadline) :
    (run step s calls).circuit k = some (.opened deadline) := by
  refine run_of_kept (J := fun s : SharedState => s.circuit k = some (.opened deadline)) ?_ h
  intro c hc s hs
  obtain ⟨hle, hlt⟩ := hcalls c hc
  exact (circuit_step_opened hs hle hlt).1

/-- **Before the deadline, a `check` is rejected.** -/
theorem answer_before_deadline {s : SharedState} {k : String} {deadline t : ℤ}
    {pre : List Call} {c : Call} {post : List Call} (h : s.circuit k = some (.opened deadline))
    (hclock : Clock t (pre ++ c :: post)) (hkey : c.key = k) (hop : c.op = .check)
    (hlt : c.later < deadline) : (run step s pre).answer c = some .reject := by
  obtain ⟨_, hle, hpre⟩ := hclock.split
  have hopen : (run step s pre).circuit k = some (.opened deadline) :=
    circuit_run_opened h fun c' hc' => by
      obtain ⟨h₁, h₂⟩ := hpre c' hc'
      exact ⟨h₁, by omega⟩
  exact (circuit_step_opened hopen hle hlt).2 hkey hop

end SharedState

/-- A circuit that has not been probed: gone, closed, or open with the deadline. -/
def Unprobed (deadline : ℤ) : Option State → Prop
  | some (.opened d) => d = deadline
  | some (.halfOpen _) => False
  | some (.closed _) => True
  | none => True

namespace SharedState

theorem unprobed_sweep {s : SharedState} {k : String} {deadline : ℤ}
    (h : Unprobed deadline (s.circuit k)) (o : IterOrder String CircuitEntry) (key : String)
    (now : ℤ) : Unprobed deadline ((s.sweep o key now).circuit k) := by
  rcases circuit_sweep o s key now k with hsame | ⟨hgone, _⟩
  · rwa [hsame]
  · rw [hgone]
    trivial

/-- What a call finds at its key, when the circuit has not been probed. -/
theorem unprobed_cases {s : SharedState} {k : String} {deadline : ℤ}
    (h : Unprobed deadline (s.circuit k)) :
    (∃ failures, s.circuitOrClosed k = .closed failures) ∨
      s.circuitOrClosed k = .opened deadline := by
  unfold circuitOrClosed
  rcases hst : s.circuit k with _ | _ | d | n <;> rw [hst] at h
  · exact Or.inl ⟨0, rfl⟩
  · exact Or.inl ⟨_, rfl⟩
  · exact Or.inr (congrArg State.opened h)
  · exact absurd h not_false

/-- Only a `check` at or after the deadline takes a closed or open circuit to half
open. -/
theorem move_ne_halfOpen {s : SharedState} {c : Call} {deadline : ℤ} {found : State} {n : ℕ}
    (hfound : (∃ failures, found = .closed failures) ∨ found = .opened deadline)
    (hcheck : c.op = .check → c.later < deadline) : c.move s found ≠ .halfOpen n := by
  unfold Call.move
  cases hop : c.op with
  | check =>
      have hnot : ¬ deadline ≤ c.later := not_le.mpr (hcheck hop)
      rcases hfound with ⟨failures, rfl⟩ | rfl <;> simp [checkCircuit, hnot]
  | record success => exact recordCircuit_ne_halfOpen _ _ _ _ _ _

/-- A call that neither probes the circuit nor opens it anew leaves it unprobed. -/
theorem unprobed_step {s : SharedState} {k : String} {deadline : ℤ} {c : Call}
    (h : Unprobed deadline (s.circuit k)) (hcheck : c.key = k → c.op = .check → c.later < deadline)
    (hopens : ¬ Opens k s c) : Unprobed deadline ((s.step c).circuit k) := by
  have hsweep := unprobed_sweep h c.order c.key c.now
  by_cases hk : k = c.key
  · subst hk
    have hmove : ∀ d, (s.step c).circuit c.key = some (.opened d) → d = deadline := by
      intro d hd
      by_contra hne
      refine hopens ⟨d, hd, fun hs => hne ?_⟩
      rw [hs] at h
      exact h
    rw [circuit_step_self] at hmove ⊢
    rcases hst : c.move s ((s.sweep c.order c.key c.now).circuitOrClosed c.key) with _ | d | n
    · trivial
    · exact hmove d (by rw [hst])
    · exact absurd hst (move_ne_halfOpen (unprobed_cases hsweep) (hcheck rfl))
  · rw [circuit_step_ne s hk]
    exact hsweep

/-- **At the deadline, a `check` is let through.**  It is the first one that reads
the clock at the deadline or later, and no call before it has opened the circuit
anew. -/
theorem answer_at_deadline {s : SharedState} {k : String} {deadline : ℤ} {pre : List Call}
    {c : Call} (h : Unprobed deadline (s.circuit k)) (hkey : c.key = k) (hop : c.op = .check)
    (hle : deadline ≤ c.later)
    (hfirst : ∀ c' ∈ pre, c'.key = k → c'.op = .check → c'.later < deadline)
    (hopens : Along step (fun s c => ¬ Opens k s c) s pre) :
    (run step s pre).answer c = some .allow := by
  induction pre generalizing s with
  | nil =>
      subst hkey
      rw [run_nil, answer_check hop]
      rcases unprobed_cases (unprobed_sweep h c.order c.key c.now) with ⟨failures, hst⟩ | hst
      · rw [hst]
        rfl
      · rw [hst]
        simp [checkCircuit, hle]
  | cons c₀ pre ih =>
      rw [run_cons]
      refine ih (unprobed_step h (hfirst c₀ (List.mem_cons_self ..)) hopens.1) ?_ hopens.2
      exact fun c' hc' => hfirst c' (List.mem_cons_of_mem _ hc')


end SharedState
end CircuitBreaker
end Noxy

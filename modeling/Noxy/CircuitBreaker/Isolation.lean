/-
# Circuits do not disturb one another

`src/middleware/circuit_breaker.rs`: every `check` and every `record` may drop
entries of any key, and the map may hold more than `max_keys` of them.  For a key
whose own calls are at most `idle_ttl` apart none of this can be seen
(`circuit_isolated`): what `check` answers for it is what a single circuit answers,
without a map, a cleanup or an eviction (`aloneAnswers`), on the key's own calls.

The simulation is `Noxy.CircuitBreaker.Admitted`'s: a key that is called in time finds
its entry (`step_busy`, `lookup_step_busy`), and a key that has none starts closed
(`answers_none`).  What a closed circuit counts is then a matter of
`Noxy.CircuitBreaker.Alone`.
-/

import Noxy.CircuitBreaker.Admitted
import Noxy.CircuitBreaker.Alone

namespace Noxy
namespace CircuitBreaker

open Lib Store

/-- The calls on `k`. -/
def callsOn (k : String) (calls : List Call) : List Call := calls.filter fun c => c.key == k

/-- What a run answers to the `check`s of `k`. -/
def SharedState.answers (k : String) : SharedState → List Call → List CircuitAction
  | _, [] => []
  | s, c :: calls =>
      (if c.key = k then s.answer c else none).toList ++ answers k (s.step c) calls

theorem callsOn_cons_self {k : String} {c : Call} (h : c.key = k) (calls : List Call) :
    callsOn k (c :: calls) = c :: callsOn k calls := by
  simp [callsOn, h]

theorem callsOn_cons_ne {k : String} {c : Call} (h : c.key ≠ k) (calls : List Call) :
    callsOn k (c :: calls) = callsOn k calls := by
  simp [callsOn, h]

theorem callsOn_eq_nil {k : String} {calls : List Call} (h : ¬ ∃ c ∈ calls, c.key = k) :
    callsOn k calls = [] := by
  simpa [callsOn] using h

/-- Called in time, in terms of the key's own calls. -/
theorem busy_iff_isChain (ttl : ℕ) (k : String) (seen : ℤ) (calls : List Call) :
    Busy ttl k seen calls ↔
      (seen :: (callsOn k calls).map Call.now).IsChain fun a b : ℤ => b - a ≤ ttl := by
  induction calls generalizing seen with
  | nil => simp [Busy, callsOn]
  | cons c calls ih =>
      rw [Busy, ih]
      by_cases hk : c.key = k
      · rw [callsOn_cons_self hk, if_pos hk, List.map_cons, List.isChain_cons_cons]
        simp [hk]
      · rw [callsOn_cons_ne hk, if_neg hk]
        simp [hk]

/-- Consecutive calls on `k` that are at most `ttl` apart are in time from the first. -/
theorem exists_busy {ttl : ℕ} {k : String} {calls : List Call}
    (h : ((callsOn k calls).map Call.now).IsChain fun a b : ℤ => b - a ≤ ttl) :
    ∃ seen, Busy ttl k seen calls := by
  cases hon : (callsOn k calls).map Call.now with
  | nil => exact ⟨0, by rw [busy_iff_isChain, hon]; simp⟩
  | cons a rest =>
      refine ⟨a, ?_⟩
      rw [busy_iff_isChain, hon, List.isChain_cons_cons]
      exact ⟨by omega, hon ▸ h⟩

namespace SharedState

variable {s : SharedState} {k : String}

/-- Nothing is answered for a key that is not called. -/
theorem answers_eq_nil {calls : List Call} (s : SharedState) (h : ¬ ∃ c ∈ calls, c.key = k) :
    s.answers k calls = [] := by
  induction calls generalizing s with
  | nil => rfl
  | cons c calls ih =>
      have hc : c.key ≠ k := fun hk => h ⟨c, List.mem_cons_self .., hk⟩
      rw [answers, if_neg hc, ih _ fun ⟨c', hc', hk⟩ => h ⟨c', List.mem_cons_of_mem _ hc', hk⟩]
      rfl

/-- A key that is not called keeps its circuit or loses it. -/
theorem circuit_run_other {calls : List Call} (s : SharedState) (h : ¬ ∃ c ∈ calls, c.key = k) :
    (run step s calls).circuit k = s.circuit k ∨ (run step s calls).circuit k = none := by
  refine run_of_kept (J := fun t : SharedState => t.circuit k = s.circuit k ∨ t.circuit k = none)
    ?_ (Or.inl rfl)
  intro c hc t ht
  have hne : k ≠ c.key := fun hk => h ⟨c, hc, hk.symm⟩
  rw [circuit_step_ne t hne]
  rcases circuit_sweep c.order t c.key c.now k with hsame | ⟨hgone, _⟩
  · rwa [hsame]
  · exact Or.inr hgone

@[simp] theorem step_threshold (s : SharedState) (c : Call) :
    (s.step c).threshold = s.threshold := by
  unfold step
  cases c.op <;> rfl

@[simp] theorem step_recovery (s : SharedState) (c : Call) :
    (s.step c).recovery = s.recovery := by
  unfold step
  cases c.op <;> rfl

/-- A call that finds a circuit in a state answers as a single one. -/
theorem answer_eq_aloneAnswer {c : Call} {st : State}
    (h : (s.sweep c.order c.key c.now).circuitOrClosed c.key = st) :
    s.answer c = aloneAnswer s.halfOpenProbes st c := by
  subst h
  unfold aloneAnswer
  cases hop : c.op with
  | check => exact answer_check hop
  | record success => rw [answer, hop]

/-- **From an entry on, the calls of a key in time are those of a single circuit.** -/
theorem answers_busy {st : State} {seen t : ℤ} {calls : List Call}
    (he : s.circuits.lookup k = some ⟨st, seen⟩) (hclock : Clock t calls)
    (hbusy : Busy s.idleTtl k seen calls) :
    s.answers k calls =
        aloneAnswers s.threshold s.recovery s.halfOpenProbes st (callsOn k calls) ∧
      ((run step s calls).circuit k = none ∨ (run step s calls).circuit k =
        some (run (aloneStep s.threshold s.recovery s.halfOpenProbes) st (callsOn k calls))) := by
  induction calls generalizing s st seen t with
  | nil => exact ⟨rfl, Or.inr (by simp [circuit, he, callsOn])⟩
  | cons c calls ih =>
      obtain ⟨ht, hle, hrest⟩ := hclock
      by_cases hk : c.key = k
      · subst hk
        obtain ⟨hself, hbusy'⟩ := step_busy he hbusy
        obtain ⟨hanswers, hcircuit⟩ := ih hself hrest hbusy'
        simp only [step_threshold, step_recovery, step_halfOpenProbes] at hanswers hcircuit
        rw [callsOn_cons_self rfl, answers, aloneAnswers, if_pos rfl, hanswers, run_cons, run_cons,
          answer_eq_aloneAnswer (circuitOrClosed_busy he hbusy)]
        exact ⟨rfl, hcircuit⟩
      · have hbusy' := hbusy.2
        rw [if_neg hk] at hbusy'
        rw [callsOn_cons_ne hk, answers, if_neg hk, run_cons]
        by_cases hlater : ∃ c' ∈ calls, c'.key = k
        · have hsame := lookup_step_busy he (Ne.symm hk) hbusy' hrest hle hlater
          have := ih hsame hrest (by rwa [step_idleTtl])
          simpa using this
        · -- The key is not called again, so it does not matter when its entry goes.
          rw [answers_eq_nil _ hlater, callsOn_eq_nil hlater]
          refine ⟨rfl, ?_⟩
          have hstep : (s.step c).circuit k = some st ∨ (s.step c).circuit k = none := by
            rw [circuit_step_ne s (Ne.symm hk)]
            rcases circuit_sweep c.order s c.key c.now k with h | h
            · exact Or.inl (h.trans (by simp [circuit, he]))
            · exact Or.inr h.1
          rcases circuit_run_other (s.step c) hlater with h | h
          · rw [h]
            exact hstep.symm
          · exact Or.inl h

/-- A key without an entry stays without one until it is called. -/
theorem lookup_sweep_none {c : Call} (hnone : s.circuits.lookup k = none) :
    (s.sweep c.order c.key c.now).circuits.lookup k = none := by
  rcases lookup_circuits_sweep c.order s c.key c.now k with h | h
  · exact h.trans hnone
  · exact h.1

/-- **From no entry on**, too: the first call of the key creates it, closed. -/
theorem answers_none {seen t : ℤ} {calls : List Call} (hnone : s.circuits.lookup k = none)
    (hclock : Clock t calls) (hbusy : Busy s.idleTtl k seen calls) :
    s.answers k calls =
        aloneAnswers s.threshold s.recovery s.halfOpenProbes (.closed 0) (callsOn k calls) ∧
      ((run step s calls).circuit k = none ∨ (run step s calls).circuit k =
        some (run (aloneStep s.threshold s.recovery s.halfOpenProbes) (.closed 0)
          (callsOn k calls))) := by
  induction calls generalizing s t with
  | nil => exact ⟨rfl, Or.inl (by simp [circuit, hnone])⟩
  | cons c calls ih =>
      obtain ⟨ht, hle, hrest⟩ := hclock
      have hswept := lookup_sweep_none (c := c) hnone
      have hbusy' := hbusy.2
      by_cases hk : c.key = k
      · subst hk
        rw [if_pos rfl] at hbusy'
        have hclosed : (s.sweep c.order c.key c.now).circuitOrClosed c.key = .closed 0 := by
          simp [circuitOrClosed, circuit, hswept]
        have hself := lookup_step_self s c
        rw [hclosed] at hself
        obtain ⟨hanswers, hcircuit⟩ := answers_busy hself hrest (by rwa [step_idleTtl])
        simp only [step_threshold, step_recovery, step_halfOpenProbes] at hanswers hcircuit
        rw [callsOn_cons_self rfl, answers, aloneAnswers, if_pos rfl, hanswers, run_cons, run_cons,
          answer_eq_aloneAnswer hclosed]
        exact ⟨rfl, hcircuit⟩
      · rw [if_neg hk] at hbusy'
        rw [callsOn_cons_ne hk, answers, if_neg hk, run_cons]
        have hsame : (s.step c).circuits.lookup k = none := by
          rw [lookup_step_ne s (Ne.symm hk)]
          exact hswept
        have := ih hsame hrest (by rwa [step_idleTtl])
        simpa using this

/-- The first part of a run is in order and in time. -/
theorem clock_busy_append {t seen : ℤ} {ttl : ℕ} {pre post : List Call}
    (hclock : Clock t (pre ++ post)) (hbusy : Busy ttl k seen (pre ++ post)) :
    Clock t pre ∧ Busy ttl k seen pre := by
  induction pre generalizing t seen with
  | nil => exact ⟨trivial, trivial⟩
  | cons c pre ih =>
      obtain ⟨h₁, h₂⟩ := ih hclock.2.2 hbusy.2
      exact ⟨⟨hclock.1, hclock.2.1, h₁⟩, ⟨hbusy.1, h₂⟩⟩

/-- **Circuits are isolated.**  From an empty store with any settings, whatever is called
on whatever keys, for a key whose consecutive calls are at most `idle_ttl` apart the
`check`s answer what a single circuit does on the calls of the key.  And whenever its
circuit is closed, the count is that of the failures recorded since the last success,
or since the circuit was created, and below `max threshold 1`; so it fits a `u32`,
also with one more. -/
theorem circuit_isolated (hempty : s.circuits = ∅) {t : ℤ} {calls : List Call}
    (hclock : Clock t calls)
    (hbusy : ((callsOn k calls).map Call.now).IsChain fun a b : ℤ => b - a ≤ s.idleTtl) :
    s.answers k calls =
        aloneAnswers s.threshold s.recovery s.halfOpenProbes (.closed 0) (callsOn k calls) ∧
      ∀ pre post f, calls = pre ++ post →
        (run step s pre).circuit k = some (.closed f) →
          f < max s.threshold 1 ∧ f = failuresSinceSuccess (callsOn k pre) ∧
            (s.threshold < 2 ^ 32 → f + 1 < 2 ^ 32) := by
  have hnone : s.circuits.lookup k = none := by simp [hempty]
  obtain ⟨seen, hbusy⟩ := exists_busy hbusy
  refine ⟨(answers_none hnone hclock hbusy).1, ?_⟩
  rintro pre post f rfl hclosed
  obtain ⟨hclock', hbusy'⟩ := clock_busy_append hclock hbusy
  rcases (answers_none hnone hclock' hbusy').2 with h | h
  · rw [h] at hclosed
    cases hclosed
  · rw [h, Option.some.injEq] at hclosed
    obtain ⟨hlt, hcount⟩ := aloneState_closed (callsOn k pre) hclosed
    exact ⟨hlt, hcount, fun h32 => by omega⟩

/-- The hypotheses of `circuit_isolated` are met by two failures on one key with a call
on another in between: the second failure opens the circuit, and the `check` after it
is rejected. -/
theorem circuit_isolated_tripped :
    let s := new 2 (fromSecs 10) 0
    let call (k : String) (op : Op) (n : ℕ) : Call := ⟨k, op, fromSecs n, fromSecs n, .stored⟩
    s.answers "a" [call "a" (.record false) 1, call "b" (.record true) 2,
        call "a" (.record false) 3, call "a" .check 4] =
      aloneAnswers 2 (fromSecs 10) 1 (.closed 0)
        [call "a" (.record false) 1, call "a" (.record false) 3, call "a" .check 4] := by
  intro s call
  exact (circuit_isolated (s := s) (k := "a") (t := 0) rfl (by decide) (by decide)).1

end SharedState
end CircuitBreaker
end Noxy

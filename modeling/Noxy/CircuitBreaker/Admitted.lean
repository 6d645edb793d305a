/-
# What an open circuit lets through

`src/middleware/circuit_breaker.rs`: `SharedState::check` and
`SharedState::record`, after the circuit of a key has opened.

While the calls on the key are at most `idle_ttl` apart (`Busy`) its entry is
never dropped, so the circuit goes from open to half open at the first `check`
at or after the deadline and then has `half_open_probes - 1` slots left:
`admitted_halfOpen_le` counts what a half-open circuit lets through while
nothing is recorded, and `admitted_opened_le` what an open one does before the
next `record` at or after the deadline.

`openCircuit_stays_shut` is the whole of it for a circuit that a failure has
opened, with the answers before and at the deadline of
`Noxy.CircuitBreaker.OpenPeriod`.
-/

import Noxy.CircuitBreaker.OpenPeriod

namespace Noxy
namespace CircuitBreaker

open Lib Store

/-- Consecutive calls on `k`, the first of them after one at `seen`, are at most
`ttl` apart. -/
def Busy (ttl : ℕ) (k : String) : ℤ → List Call → Prop
  | _, [] => True
  | seen, c :: calls =>
      (c.key = k → c.now - seen ≤ ttl) ∧ Busy ttl k (if c.key = k then c.now else seen) calls

instance Busy.decidable (ttl : ℕ) (k : String) :
    ∀ (seen : ℤ) (calls : List Call), Decidable (Busy ttl k seen calls)
  | _, [] => .isTrue trivial
  | seen, c :: calls =>
      have := Busy.decidable ttl k (if c.key = k then c.now else seen) calls
      inferInstanceAs (Decidable ((c.key = k → c.now - seen ≤ ttl) ∧
        Busy ttl k (if c.key = k then c.now else seen) calls))

/-- Every call of a run reads the clock at `t` at the earliest. -/
theorem Clock.le_now {t : ℤ} {calls : List Call} (h : Clock t calls) :
    ∀ c ∈ calls, t ≤ c.now := by
  intro c hc
  obtain ⟨pre, post, rfl⟩ := List.append_of_mem hc
  exact h.split.1

/-- Before a call on `k`, the last one was at most `ttl` ago. -/
theorem Busy.not_idle {ttl : ℕ} {k : String} {seen t : ℤ} {calls : List Call}
    (h : Busy ttl k seen calls) (hclock : Clock t calls) (hk : ∃ c ∈ calls, c.key = k) :
    t - seen ≤ ttl := by
  induction calls generalizing t with
  | nil =>
      obtain ⟨c, hc, _⟩ := hk
      exact absurd hc List.not_mem_nil
  | cons c calls ih =>
      obtain ⟨ht, hle, hrest⟩ := hclock
      by_cases hkey : c.key = k
      · have := h.1 hkey
        omega
      · obtain ⟨c', hc', hk'⟩ := hk
        have hmem : c' ∈ calls := by
          rcases List.mem_cons.mp hc' with rfl | hmem
          · exact absurd hk' hkey
          · exact hmem
        have hbusy := h.2
        rw [if_neg hkey] at hbusy
        have := ih hbusy hrest ⟨c', hmem, hk'⟩
        omega

namespace SharedState

/-- How many requests for `k` the calls let through. -/
def admitted (k : String) : SharedState → List Call → ℕ
  | _, [] => 0
  | s, c :: calls =>
      (if c.key = k ∧ s.answer c = some .allow then 1 else 0) + admitted k (s.step c) calls

/-- Nothing is let through for a key that is not called. -/
theorem admitted_eq_zero {k : String} {calls : List Call} (s : SharedState)
    (h : ¬ ∃ c ∈ calls, c.key = k) : admitted k s calls = 0 := by
  induction calls generalizing s with
  | nil => rfl
  | cons c calls ih =>
      have hc : c.key ≠ k := fun hk => h ⟨c, List.mem_cons_self .., hk⟩
      rw [admitted, ih _ fun ⟨c', hc', hk⟩ => h ⟨c', List.mem_cons_of_mem _ hc', hk⟩]
      simp [hc]

/-- A call on another key, with a call on `k` still to come, leaves the entry of
`k` alone. -/
theorem lookup_step_busy {s : SharedState} {k : String} {e : CircuitEntry} {c : Call}
    {calls : List Call} (he : s.circuits.lookup k = some e) (hk : k ≠ c.key)
    (hbusy : Busy s.idleTtl k e.lastSeen calls) (hclock : Clock c.later calls)
    (hle : c.now ≤ c.later) (hlater : ∃ c' ∈ calls, c'.key = k) :
    (s.step c).circuits.lookup k = some e := by
  have hidle := hbusy.not_idle hclock hlater
  rw [lookup_step_ne s hk]
  exact lookup_circuits_sweep_of_keep c.order c.key he
    (CircuitEntry.keep_of_not_idle (by omega))

/-- What is let through for `k` is not more than before a call on another key. -/
theorem admitted_other_le {s : SharedState} {k : String} {e : CircuitEntry} {c : Call}
    {calls : List Call} {bound : ℕ} (he : s.circuits.lookup k = some e) (hk : k ≠ c.key)
    (hbusy : Busy s.idleTtl k e.lastSeen (c :: calls)) (hclock : Clock c.later calls)
    (hle : c.now ≤ c.later)
    (ih : (s.step c).circuits.lookup k = some e → Busy (s.step c).idleTtl k e.lastSeen calls →
      admitted k (s.step c) calls ≤ bound) :
    admitted k s (c :: calls) ≤ bound := by
  have hbusy' := hbusy.2
  rw [if_neg (Ne.symm hk)] at hbusy'
  rw [admitted, if_neg fun h => hk h.1.symm, Nat.zero_add]
  by_cases hlater : ∃ c' ∈ calls, c'.key = k
  · exact ih (lookup_step_busy he hk hbusy' hclock hle hlater) (by rwa [step_idleTtl])
  · rw [admitted_eq_zero _ hlater]
    exact Nat.zero_le _

/-- A call on `k` in time finds its entry. -/
theorem circuitOrClosed_busy {s : SharedState} {e : CircuitEntry} {c : Call}
    {calls : List Call} (he : s.circuits.lookup c.key = some e)
    (hbusy : Busy s.idleTtl c.key e.lastSeen (c :: calls)) :
    (s.sweep c.order c.key c.now).circuitOrClosed c.key = e.state := by
  have hkept := lookup_circuits_sweep_of_keep c.order c.key he
    (CircuitEntry.keep_of_not_idle (hbusy.1 rfl))
  simp [circuitOrClosed, circuit, hkept]

/-- **A call on `k` in time** moves the state of its entry, and the rest are in time
after it. -/
theorem step_busy {s : SharedState} {e : CircuitEntry} {c : Call} {calls : List Call}
    (he : s.circuits.lookup c.key = some e)
    (hbusy : Busy s.idleTtl c.key e.lastSeen (c :: calls)) :
    (s.step c).circuits.lookup c.key = some ⟨c.move s e.state, c.now⟩ ∧
      Busy (s.step c).idleTtl c.key c.now calls := by
  have hbusy' := hbusy.2
  rw [if_pos rfl] at hbusy'
  rw [lookup_step_self, circuitOrClosed_busy he hbusy, step_idleTtl]
  exact ⟨rfl, hbusy'⟩

/-- **Half open, at most the free slots are taken** while nothing is recorded. -/
theorem admitted_halfOpen_le {k : String} {t seen : ℤ} {inFlight : ℕ} {calls : List Call}
    {s : SharedState} (he : s.circuits.lookup k = some ⟨.halfOpen inFlight, seen⟩)
    (hclock : Clock t calls) (hbusy : Busy s.idleTtl k seen calls)
    (hrecord : ∀ c ∈ calls, c.key = k → c.op = .check) :
    admitted k s calls ≤ s.halfOpenProbes - inFlight := by
  induction calls generalizing s t seen inFlight with
  | nil => exact Nat.zero_le _
  | cons c calls ih =>
      obtain ⟨ht, hle, hrest⟩ := hclock
      have hrecord' : ∀ c' ∈ calls, c'.key = k → c'.op = .check :=
        fun c' hc' => hrecord c' (List.mem_cons_of_mem _ hc')
      by_cases hk : k = c.key
      · subst hk
        have hop := hrecord c (List.mem_cons_self ..) rfl
        obtain ⟨hself, hbusy'⟩ := step_busy he hbusy
        rw [Call.move, hop] at hself
        rw [admitted, answer_check hop, circuitOrClosed_busy he hbusy]
        by_cases hfree : inFlight < s.halfOpenProbes
        · simp only [checkCircuit, if_pos hfree] at hself ⊢
          have := ih hself hrest hbusy' hrecord'
          simp only [step_halfOpenProbes] at this
          simp only [and_self, if_true]
          omega
        · simp only [checkCircuit, if_neg hfree] at hself ⊢
          have := ih hself hrest hbusy' hrecord'
          simp only [step_halfOpenProbes] at this
          simp
          omega
      · refine admitted_other_le he hk hbusy hrest hle fun hsame hbusy' => ?_
        have := ih hsame hrest hbusy' hrecord'
        rwa [step_halfOpenProbes] at this

/-- **Open, at most `max 1 half_open_probes` are let through** before the next
`record` at or after the deadline: none before the deadline, then one, and then
as many as there are slots beside it. -/
theorem admitted_opened_le {k : String} {t seen deadline : ℤ} {calls : List Call}
    {s : SharedState} (he : s.circuits.lookup k = some ⟨.opened deadline, seen⟩)
    (hclock : Clock t calls) (hbusy : Busy s.idleTtl k seen calls)
    (hrecord : ∀ c ∈ calls, c.key = k → c.op ≠ .check → c.now < deadline) :
    admitted k s calls ≤ max 1 s.halfOpenProbes := by
  induction calls generalizing s t seen with
  | nil => exact Nat.zero_le _
  | cons c calls ih =>
      obtain ⟨ht, hle, hrest⟩ := hclock
      have hrecord' : ∀ c' ∈ calls, c'.key = k → c'.op ≠ .check → c'.now < deadline :=
        fun c' hc' => hrecord c' (List.mem_cons_of_mem _ hc')
      by_cases hk : k = c.key
      · subst hk
        obtain ⟨hself, hbusy'⟩ := step_busy he hbusy
        rw [Call.move] at hself
        cases hop : c.op with
        | check =>
            rw [hop] at hself
            rw [admitted, answer_check hop, circuitOrClosed_busy he hbusy]
            by_cases hdue : deadline ≤ c.later
            · simp only [checkCircuit, if_pos hdue] at hself ⊢
              have hprobes := admitted_halfOpen_le hself hrest hbusy' fun c' hc' hk' => by
                by_contra hne
                have h₁ := hrecord' c' hc' hk' hne
                have h₂ := hrest.le_now c' hc'
                omega
              simp only [step_halfOpenProbes] at hprobes
              simp only [and_self, if_true]
              omega
            · simp only [checkCircuit, if_neg hdue] at hself ⊢
              have := ih hself hrest hbusy' hrecord'
              simpa using this
        | record success =>
            rw [hop] at hself
            have hself' : (s.step c).circuits.lookup c.key = some ⟨.opened deadline, c.now⟩ := hself
            have hnone : s.answer c = none := by rw [answer, hop]
            have := ih hself' hrest hbusy' hrecord'
            simpa [admitted, hnone] using this
      · refine admitted_other_le he hk hbusy hrest hle fun hsame hbusy' => ?_
        have := ih hsame hrest hbusy' hrecord'
        rwa [step_halfOpenProbes] at this

/-- **An open circuit stays shut for its recovery period.**  After a failure has
left the circuit of `k` open with a deadline, whatever is called on whatever
keys: every `check` of `k` that reads the clock before the deadline is rejected;
the first one that reads it at the deadline or later is let through, unless the
circuit has been opened again in between; and while the calls on `k` are at most
`idle_ttl` apart, at most `max 1 half_open_probes` requests are let through for
`k` before the next `record` of `k` at or after the deadline. -/
theorem openCircuit_stays_shut (o : IterOrder String CircuitEntry) (s : SharedState) {k : String}
    {now later deadline : ℤ} {calls : List Call}
    (hopened : (s.record o k false now later).circuit k = some (.opened deadline))
    (hclock : Clock later calls) :
    (∀ pre c post, calls = pre ++ c :: post → c.key = k → c.op = .check → c.later < deadline →
        (run step (s.record o k false now later) pre).answer c = some .reject) ∧
      (∀ pre c post, calls = pre ++ c :: post → c.key = k → c.op = .check →
        deadline ≤ c.later → (∀ c' ∈ pre, c'.key = k → c'.op = .check → c'.later < deadline) →
        Along step (fun s c => ¬ Opens k s c) (s.record o k false now later) pre →
        (run step (s.record o k false now later) pre).answer c = some .allow) ∧
      (Busy s.idleTtl k now calls →
        (∀ c ∈ calls, c.key = k → c.op ≠ .check → c.now < deadline) →
        admitted k (s.record o k false now later) calls ≤ max 1 s.halfOpenProbes) := by
  refine ⟨?_, ?_, ?_⟩
  · rintro pre c post rfl hkey hop hlt
    exact answer_before_deadline hopened hclock hkey hop hlt
  · rintro pre c post rfl hkey hop hle hfirst hopens
    have hunprobed : Unprobed deadline ((s.record o k false now later).circuit k) := by
      rw [hopened]
      rfl
    exact answer_at_deadline hunprobed hkey hop hle hfirst hopens
  · intro hbusy hrecord
    obtain ⟨st, hentry⟩ : ∃ st, (s.record o k false now later).circuits.lookup k =
        some ⟨st, now⟩ := ⟨_, lookup_step_self s ⟨k, .record false, now, later, o⟩⟩
    obtain rfl : st = .opened deadline := by simpa [circuit, hentry] using hopened
    exact admitted_opened_le hentry hclock hbusy hrecord

/-- The hypotheses of `openCircuit_stays_shut` are met by a circuit that one
failure opens for ten seconds, and by three requests five, ten and eleven
seconds later: the first is rejected, the second let through, and it is the only
one that is. -/
theorem openCircuit_stays_shut_tripped :
    let tripped := (new 1 (fromSecs 10) 0).record .stored "a" false 0 0
    let check (t : ℕ) : Call := ⟨"a", .check, fromSecs t, fromSecs t, .stored⟩
    tripped.answer (check 5) = some .reject ∧
      (run step tripped [check 5]).answer (check 10) = some .allow ∧
      admitted "a" tripped [check 5, check 10, check 11] ≤ 1 := by
  intro tripped check
  have hclock : Clock 0 [check 5, check 10, check 11] := by decide
  obtain ⟨hbefore, hat, hcount⟩ := openCircuit_stays_shut .stored (new 1 (fromSecs 10) 0)
    (by decide : tripped.circuit "a" = some (.opened (fromSecs 10))) hclock
  refine ⟨?_, ?_, ?_⟩
  · exact hbefore [] (check 5) [check 10, check 11] rfl rfl rfl (by decide)
  · refine hat [check 5] (check 10) [check 11] rfl rfl rfl (by decide) (by decide) ⟨?_, trivial⟩
    rintro ⟨d, hd, hne⟩
    have hsame : tripped.circuit "a" = (tripped.step (check 5)).circuit "a" := by decide
    exact hne (hsame.trans hd)
  · exact hcount (by decide) (by decide)

/-- **The first `check` after the deadline can be rejected.**  One failure opens
the circuit for ten seconds, and a state is dropped after five idle ones.  A
failure that comes in after forty seconds finds the circuit dropped and opens it
again, so the first `check`, a second later, is rejected. -/
theorem firstCheck_rejected :
    let tripped := ((new 1 (fromSecs 10) 0).setIdleTtl (fromSecs 5)).record .stored "a" false 0 0
    let late : Call := ⟨"a", .record false, fromSecs 40, fromSecs 40, .stored⟩
    let check : Call := ⟨"a", .check, fromSecs 41, fromSecs 41, .stored⟩
    tripped.circuit "a" = some (.opened (fromSecs 10)) ∧ Clock 0 [late, check] ∧
      (fromSecs 10 : ℤ) ≤ check.later ∧
      (run step tripped [late]).answer check = some .reject := by
  intro tripped late check
  decide

end SharedState
end CircuitBreaker
end Noxy

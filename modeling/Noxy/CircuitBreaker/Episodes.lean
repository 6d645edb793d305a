/-
# Who resolves a half-open circuit

`src/middleware/circuit_breaker.rs`: the documentation of `CircuitBreaker` says that a
half-open circuit lets probes through, closes if a probe succeeds and reopens if it
fails.  `record` has the key and the outcome only, so it cannot tell a probe from a
request that was let through before the circuit tripped and is answered now.

A response moves its key out of half open whatever request it answers
(`leavesHalfOpen_record`).  So only probes resolve a half-open circuit exactly if no other
request of the key is answered while it is half open (`onlyProbes_iff`), and a
request from before the trip that is answered late decides for the probes
(`late_response_resolves`).
-/

import Noxy.CircuitBreaker.Slots

namespace Noxy
namespace CircuitBreaker

open Lib Store

/-- The request that an event records the outcome of. -/
def recorded {Req Resp Err : Type*} (sys : System) : Event Req Resp Err → Option Outstanding
  | .respond i .. => sys.outstanding[i]?
  | _ => none

/-- The key was half open, and now it is closed or open. -/
def LeavesHalfOpen (before after : SharedState) (k : String) : Prop :=
  isHalfOpen (before.circuit k) = true ∧
    ((∃ f, after.circuit k = some (.closed f)) ∨
      ∃ deadline, after.circuit k = some (.opened deadline))

/-- If the event records an outcome, and a key leaves half open with it, then it is the
outcome of a request for that key, let through in the half-open episode. -/
def OnlyProbes {Req Resp Err : Type*} (svc : CircuitBreakerService Req Resp) (sys : System)
    (e : Event Req Resp Err) : Prop :=
  ∀ r, recorded sys e = some r → ∀ k,
    LeavesHalfOpen sys.store (svc.step sys e).store k → r.key = k ∧ r.probe = true

/-- The event is the response to a request whose key is half open, but which was not let
through in this half-open episode. -/
def Late {Req Resp Err : Type*} (sys : System) (e : Event Req Resp Err) : Prop :=
  ∃ r, recorded sys e = some r ∧ r.probe = false ∧ isHalfOpen (sys.store.circuit r.key) = true

/-- A call moves no other key out of half open but by dropping it. -/
theorem leavesHalfOpen_key {s : SharedState} {c : Call} {k : String}
    (h : LeavesHalfOpen s (s.step c) k) : c.key = k := by
  by_contra hk
  obtain ⟨hhalf, hafter⟩ := h
  rw [SharedState.circuit_step_ne s (Ne.symm hk)] at hafter
  rcases SharedState.circuit_sweep c.order s c.key c.now k with hsame | ⟨hgone, _⟩
  · rw [hsame] at hafter
    rcases hafter with ⟨f, hf⟩ | ⟨d, hd⟩
    · rw [hf] at hhalf
      cases hhalf
    · rw [hd] at hhalf
      cases hhalf
  · rw [hgone] at hafter
    rcases hafter with ⟨f, hf⟩ | ⟨d, hd⟩
    · cases hf
    · cases hd

/-- **A `record` moves its key out of half open**, whatever the outcome. -/
theorem leavesHalfOpen_record {s : SharedState} {c : Call} {success : Bool}
    (hop : c.op = .record success) (hhalf : isHalfOpen (s.circuit c.key) = true) :
    LeavesHalfOpen s (s.step c) c.key := by
  refine ⟨hhalf, ?_⟩
  rw [SharedState.circuit_step_self, Call.move, hop]
  cases hst : recordCircuit s.threshold s.recovery c.later success
      ((s.sweep c.order c.key c.now).circuitOrClosed c.key) with
  | closed f => exact Or.inl ⟨f, by simp [hst]⟩
  | opened d => exact Or.inr ⟨d, by simp [hst]⟩
  | halfOpen n => exact absurd hst (recordCircuit_ne_halfOpen _ _ _ _ _ _)

section Events

variable {Req Resp Err : Type*} (svc : CircuitBreakerService Req Resp)

/-- An event that records an outcome is one `record` of the request's key. -/
theorem step_recorded {sys : System} {e : Event Req Resp Err} {r : Outstanding}
    (h : recorded sys e = some r) :
    ∃ c success, c.key = r.key ∧ c.op = .record success ∧
      (svc.step sys e).store = sys.store.step c := by
  cases e with
  | respond i resp now later order =>
      refine ⟨svc.recordCall r resp now later order, _, rfl, rfl, ?_⟩
      rw [svc.step_respond_some h]
  | poll req now later order => cases h
  | fail i err => cases h
  | drop i => cases h

/-- **One event.**  Only a probe resolves the circuit exactly if the event is not a late
response. -/
theorem onlyProbes_step_iff (sys : System) (e : Event Req Resp Err) :
    OnlyProbes svc sys e ↔ ¬ Late sys e := by
  constructor
  · rintro h ⟨r, hr, hprobe, hhalf⟩
    obtain ⟨c, success, hkey, hop, hstore⟩ := step_recorded svc hr
    have hleaves : LeavesHalfOpen sys.store (svc.step sys e).store r.key := by
      rw [hstore, ← hkey]
      exact leavesHalfOpen_record hop (hkey ▸ hhalf)
    rw [(h r hr r.key hleaves).2] at hprobe
    cases hprobe
  · intro hlate r hr k hleaves
    obtain ⟨c, success, hkey, _, hstore⟩ := step_recorded svc hr
    rw [hstore] at hleaves
    obtain rfl : r.key = k := hkey.symm.trans (leavesHalfOpen_key hleaves)
    refine ⟨rfl, ?_⟩
    by_contra hprobe
    exact hlate ⟨r, hr, by simpa using hprobe, hleaves.1⟩

/-- **Only a probe resolves a half-open circuit**, along a whole run of requests in any
interleaving, exactly if no request is answered while its key is half open that was
let through before this half-open episode. -/
theorem onlyProbes_iff (threshold recovery halfOpenProbes maxKeys idleTtl : ℕ) (now : ℤ)
    (events : List (Event Req Resp Err)) :
    Along svc.step (OnlyProbes svc)
        (System.start threshold recovery halfOpenProbes maxKeys idleTtl now) events ↔
      Along svc.step (fun sys e => ¬ Late sys e)
        (System.start threshold recovery halfOpenProbes maxKeys idleTtl now) events :=
  along_congr (onlyProbes_step_iff svc) _ events

end Events

/-- **A late response resolves the circuit.**  Two requests are let through at once and
one of them fails, which opens the circuit for ten seconds.  A probe is let through
then.  While it is under way the other of the first two is answered: a success closes
the circuit, and a failure opens it again. -/
theorem late_response_resolves :
    let svc : CircuitBreakerService Unit Bool := .global id
    let poll (t : ℕ) : Event Unit Bool Unit := .poll () (fromSecs t) (fromSecs t) .stored
    let respond (i : ℕ) (failed : Bool) (t : ℕ) : Event Unit Bool Unit :=
      .respond i failed (fromSecs t) (fromSecs t) .stored
    let sys := run svc.step (System.start 1 (fromSecs 10) 1 10 (fromSecs 600) 0)
      [poll 0, poll 0, respond 0 true 0, poll 10]
    sys.store.circuit "" = some (.halfOpen 1) ∧
      sys.outstanding = [⟨"", false⟩, ⟨"", true⟩] ∧
      (svc.step sys (respond 0 false 11)).store.circuit "" = some (.closed 0) ∧
      (svc.step sys (respond 0 true 11)).store.circuit "" = some (.opened (fromSecs 21)) := by
  intro svc poll respond sys
  decide

end CircuitBreaker
end Noxy

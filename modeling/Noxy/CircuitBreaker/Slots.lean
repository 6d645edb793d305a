/-
# Half-open slots

`src/middleware/circuit_breaker.rs`: `check` takes a half-open slot, and nothing
but a `record` gives it back, with the whole half-open episode.  The count of a
half-open circuit is meant to be the number of its probes that are under way
(`SlotsMatch`).

It is, in every state of a run, exactly if no probe of the current episode ends
without a response (`slotsMatch_iff`): a probe whose inner service fails, or that
is dropped, keeps its slot (`Leaks`), and a circuit whose slots are all kept by
such requests rejects everything until its entry is idle (`probe_error_wedges`).

The proof is one step lemma for each side of `always_iff_along`: what every
event keeps is `Settled`, that a request has its bit set only while its circuit
is half open and that a half-open circuit counts at least one, and among settled
states an event keeps the count right exactly if it is not a leak
(`slotsMatch_step_iff`).
-/

import Mathlib.Data.List.Perm.Basic
import Noxy.CircuitBreaker.Service

namespace Noxy
namespace CircuitBreaker

open Lib Store

/-- The count of a half-open circuit is the number of its probes that are
outstanding, and there is one. -/
def SlotsMatch (sys : System) : Prop :=
  ∀ k n, sys.store.circuit k = some (.halfOpen n) → n = sys.probes k ∧ 0 < sys.probes k

/-- The event ends a probe of the current half-open episode of its key without a
response. -/
def Leaks {Req Resp Err : Type*} (sys : System) : Event Req Resp Err → Prop
  | .fail i _ => ∃ r, sys.outstanding[i]? = some r ∧ r.probe = true
  | .drop i => ∃ r, sys.outstanding[i]? = some r ∧ r.probe = true
  | .poll .. => False
  | .respond .. => False

/-- What every event keeps. -/
structure Settled (sys : System) : Prop where
  probe : ∀ r ∈ sys.outstanding, r.probe = true → isHalfOpen (sys.store.circuit r.key) = true
  pos : ∀ k n, sys.store.circuit k = some (.halfOpen n) → 0 < n

/-- Taking one element out of a list takes it out of the count. -/
theorem countP_eraseIdx_add {α : Type*} (p : α → Bool) {l : List α} {i : ℕ} {a : α}
    (h : l[i]? = some a) :
    l.countP p = (l.eraseIdx i).countP p + if p a = true then 1 else 0 := by
  obtain ⟨hi, rfl⟩ := List.getElem?_eq_some_iff.mp h
  rw [← (List.getElem_cons_eraseIdx_perm hi).countP_eq p, List.countP_cons]

/-- Replacing one element of a list replaces it in the count. -/
theorem countP_set_add {α : Type*} (p : α → Bool) {l : List α} {i : ℕ} {a : α}
    (h : l[i]? = some a) (b : α) :
    (l.set i b).countP p + (if p a = true then 1 else 0) =
      l.countP p + if p b = true then 1 else 0 := by
  obtain ⟨hi, _⟩ := List.getElem?_eq_some_iff.mp h
  rw [countP_eraseIdx_add p (List.getElem?_set_self hi), List.eraseIdx_set_eq,
    countP_eraseIdx_add p h]
  omega

/-- Clearing the bits leaves them set at the keys that are half open only. -/
theorem isHalfOpen_of_mem_settle {store : SharedState} {outstanding : List Outstanding}
    {r : Outstanding} (hr : r ∈ settle store outstanding) (hp : r.probe = true) :
    isHalfOpen (store.circuit r.key) = true := by
  obtain ⟨r', _, rfl⟩ := List.mem_map.mp hr
  exact (Bool.and_eq_true_iff.mp hp).2

/-- Clearing the bits does not change the count of a key that is half open. -/
theorem countP_settle {store : SharedState} {k : String} (h : isHalfOpen (store.circuit k) = true)
    (outstanding : List Outstanding) :
    (settle store outstanding).countP (fun r => decide (r.key = k) && r.probe) =
      outstanding.countP fun r => decide (r.key = k) && r.probe := by
  rw [settle, List.countP_map]
  refine List.countP_congr fun r _ => ?_
  by_cases hk : r.key = k
  · simp [hk, h]
  · simp [hk]

/-- A circuit that a call does not find closed was there before it. -/
theorem circuit_of_sweep {s : SharedState} {c : Call} {st : State}
    (h : (s.sweep c.order c.key c.now).circuitOrClosed c.key = st) (hne : ∀ f, st ≠ .closed f) :
    s.circuit c.key = some st := by
  unfold SharedState.circuitOrClosed at h
  rcases SharedState.circuit_sweep c.order s c.key c.now c.key with hsame | ⟨hgone, _⟩
  · rw [hsame] at h
    cases hs : s.circuit c.key with
    | none =>
        rw [hs] at h
        exact absurd h.symm (hne 0)
    | some st' =>
        rw [hs] at h
        exact congrArg some h
  · rw [hgone] at h
    exact absurd h.symm (hne 0)

/-- **What a half-open circuit was before a call.**  The same, with the call
rejected if it was about this key, or the call was let through: as the first
probe, or into a slot that was free. -/
theorem circuit_step_halfOpen {s : SharedState} {c : Call} {k : String} {n : ℕ}
    (h : (s.step c).circuit k = some (.halfOpen n)) :
    (s.circuit k = some (.halfOpen n) ∧ (k = c.key → s.answer c = some .reject)) ∨
      (k = c.key ∧ s.answer c = some .allow ∧
        ((n = 1 ∧ isHalfOpen (s.circuit k) = false) ∨
          ∃ m, s.circuit k = some (.halfOpen m) ∧ n = m + 1)) := by
  by_cases hk : k = c.key
  · subst hk
    rw [SharedState.circuit_step_self, Option.some.injEq, Call.move] at h
    cases hop : c.op with
    | record success =>
        rw [hop] at h
        exact absurd h (recordCircuit_ne_halfOpen _ _ _ _ _ _)
    | check =>
        rw [hop] at h
        rw [SharedState.answer_check hop]
        rcases checkCircuit_halfOpen h with ⟨ha, ⟨rfl, d, hst⟩ | ⟨m, hst, rfl⟩⟩ | ⟨ha, hst⟩
        · have hd := circuit_of_sweep hst (by simp)
          exact Or.inr ⟨rfl, congrArg (some ·.1) ha, Or.inl ⟨rfl, by rw [hd]; rfl⟩⟩
        · have hm := circuit_of_sweep hst (by simp)
          exact Or.inr ⟨rfl, congrArg (some ·.1) ha, Or.inr ⟨m, hm, rfl⟩⟩
        · exact Or.inl ⟨circuit_of_sweep hst (by simp), fun _ => congrArg (some ·.1) ha⟩
  · rw [SharedState.circuit_step_ne s hk] at h
    rcases SharedState.circuit_sweep c.order s c.key c.now k with hsame | ⟨hgone, _⟩
    · exact Or.inl ⟨hsame.symm.trans h, fun hkey => absurd hkey hk⟩
    · rw [hgone] at h
      cases h

/-- A half-open circuit counts at least one, after a call too. -/
theorem pos_step {s : SharedState} (hpos : ∀ k n, s.circuit k = some (.halfOpen n) → 0 < n)
    (c : Call) : ∀ k n, (s.step c).circuit k = some (.halfOpen n) → 0 < n := by
  intro k n h
  rcases circuit_step_halfOpen h with ⟨hs, _⟩ | ⟨_, _, ⟨rfl, _⟩ | ⟨m, _, rfl⟩⟩
  · exact hpos k n hs
  · exact Nat.one_pos
  · exact Nat.succ_pos m

section Steps

variable {Req Resp Err : Type*} (svc : CircuitBreakerService Req Resp)

/-- **Every event keeps a system settled.** -/
theorem settled_step (sys : System) (e : Event Req Resp Err) (h : Settled sys) :
    Settled (svc.step sys e) := by
  cases e with
  | poll req now later order =>
      refine ⟨fun r hr hp => ?_, pos_step h.pos _⟩
      rcases List.mem_append.mp hr with hr | hr
      · exact isHalfOpen_of_mem_settle hr hp
      · unfold letIn at hr
        split at hr
        · obtain rfl := List.mem_singleton.mp hr
          exact hp
        · exact absurd hr List.not_mem_nil
  | respond i resp now later order =>
      cases hi : sys.outstanding[i]? with
      | none =>
          rw [svc.step_respond_none hi]
          exact h
      | some r₀ =>
          rw [svc.step_respond_some hi]
          exact ⟨fun r hr hp => isHalfOpen_of_mem_settle hr hp, pos_step h.pos _⟩
  | fail i err => exact ⟨fun r hr => h.probe r (List.mem_of_mem_eraseIdx hr), h.pos⟩
  | drop i => exact ⟨fun r hr => h.probe r (List.mem_of_mem_eraseIdx hr), h.pos⟩

/-- In a settled system a key that is not half open has no probe. -/
theorem Settled.probes_eq_zero {sys : System} (h : Settled sys) {k : String}
    (hk : isHalfOpen (sys.store.circuit k) = false) : sys.probes k = 0 := by
  refine List.countP_eq_zero.mpr fun r hr hp => ?_
  obtain ⟨hkey, hprobe⟩ := Bool.and_eq_true_iff.mp hp
  have hopen := h.probe r hr hprobe
  rw [of_decide_eq_true hkey, hk] at hopen
  exact Bool.false_ne_true hopen

/-- In a settled system the count is all there is to check. -/
theorem Settled.slotsMatch_iff_count {sys : System} (h : Settled sys) :
    SlotsMatch sys ↔ ∀ k n, sys.store.circuit k = some (.halfOpen n) → n = sys.probes k := by
  constructor
  · exact fun hm k n hk => (hm k n hk).1
  · intro hm k n hk
    have hn := hm k n hk
    exact ⟨hn, hn ▸ h.pos k n hk⟩

/-- A `check` keeps the counts. -/
theorem slotsMatch_poll {sys : System} (hset : Settled sys) (h : SlotsMatch sys) (req : Req)
    (now later : ℤ) (order : IterOrder String CircuitEntry) :
    SlotsMatch (svc.step sys (.poll req now later order : Event Req Resp Err)) := by
  rw [(settled_step svc sys _ hset).slotsMatch_iff_count]
  intro k n hk
  set c := svc.checkCall req now later order
  change (sys.store.step c).circuit k = some (.halfOpen n) at hk
  have hhalf : isHalfOpen ((sys.store.step c).circuit k) = true := by
    rw [hk]
    rfl
  have hcount : (svc.step sys (.poll req now later order : Event Req Resp Err)).probes k =
      sys.probes k + (letIn sys.store c).countP fun r => decide (r.key = k) && r.probe := by
    rw [System.probes, CircuitBreakerService.step, List.countP_append, countP_settle hhalf]
    rfl
  rw [hcount]
  rcases circuit_step_halfOpen hk with ⟨hs, hreject⟩ | ⟨hkey, hallow, hcases⟩
  · have hnone : (letIn sys.store c).countP (fun r => decide (r.key = k) && r.probe) = 0 := by
      unfold letIn
      split
      · rename_i hallow
        have hkey : c.key ≠ k := by
          rintro rfl
          rw [hreject rfl] at hallow
          cases hallow
        simp [hkey]
      · rfl
    rw [hnone, (h k n hs).1]
    rfl
  · have hone : (letIn sys.store c).countP (fun r => decide (r.key = k) && r.probe) = 1 := by
      subst hkey
      simp [letIn, hallow, hhalf]
    rw [hone]
    rcases hcases with ⟨rfl, hnot⟩ | ⟨m, hm, rfl⟩
    · rw [hset.probes_eq_zero hnot]
    · rw [← (h k m hm).1]

/-- A `record` keeps the counts: it ends the half-open episode of its key. -/
theorem slotsMatch_respond {sys : System} (hset : Settled sys) (h : SlotsMatch sys) (i : ℕ)
    (resp : Resp) (now later : ℤ) (order : IterOrder String CircuitEntry) :
    SlotsMatch (svc.step sys (.respond i resp now later order : Event Req Resp Err)) := by
  rw [(settled_step svc sys _ hset).slotsMatch_iff_count]
  cases hi : sys.outstanding[i]? with
  | none =>
      rw [svc.step_respond_none hi]
      exact fun k n hk => (h k n hk).1
  | some r =>
      rw [svc.step_respond_some hi]
      intro k n hk
      set c := svc.recordCall r resp now later order
      change (sys.store.step c).circuit k = some (.halfOpen n) at hk
      have hhalf : isHalfOpen ((sys.store.step c).circuit k) = true := by
        rw [hk]
        rfl
      have hnone : sys.store.answer c = none := rfl
      rcases circuit_step_halfOpen hk with ⟨hs, hreject⟩ | ⟨_, hallow, _⟩
      · have hkey : r.key ≠ k := by
          rintro rfl
          have := hreject rfl
          rw [hnone] at this
          cases this
        have herase := countP_eraseIdx_add (fun r => decide (r.key = k) && r.probe) hi
        rw [System.probes, countP_settle hhalf, (h k n hs).1, System.probes, herase]
        simp [hkey]
      · rw [hnone] at hallow
        cases hallow

/-- A request that ends without a response keeps the counts exactly if it is not
a probe of the current episode. -/
theorem slotsMatch_eraseIdx_iff {sys : System} (hset : Settled sys) (h : SlotsMatch sys) (i : ℕ) :
    SlotsMatch { sys with outstanding := sys.outstanding.eraseIdx i } ↔
      ¬ ∃ r, sys.outstanding[i]? = some r ∧ r.probe = true := by
  have hset' : Settled { sys with outstanding := sys.outstanding.eraseIdx i } :=
    ⟨fun r hr => hset.probe r (List.mem_of_mem_eraseIdx hr), hset.pos⟩
  rw [hset'.slotsMatch_iff_count]
  constructor
  · rintro hm ⟨r, hi, hp⟩
    have hopen := hset.probe r (List.mem_of_getElem? hi) hp
    obtain ⟨n, hn⟩ : ∃ n, sys.store.circuit r.key = some (.halfOpen n) := by
      unfold isHalfOpen at hopen
      split at hopen
      · exact ⟨_, by assumption⟩
      · exact absurd hopen Bool.false_ne_true
    have hbefore : n = sys.outstanding.countP fun r' => decide (r'.key = r.key) && r'.probe :=
      (h r.key n hn).1
    have hafter : n = (sys.outstanding.eraseIdx i).countP
        fun r' => decide (r'.key = r.key) && r'.probe := hm r.key n hn
    rw [countP_eraseIdx_add _ hi, ← hafter] at hbefore
    simp [hp] at hbefore
  · intro hno k n hk
    rw [(h k n hk).1, System.probes, System.probes]
    cases hi : sys.outstanding[i]? with
    | none => rw [List.eraseIdx_of_length_le (List.getElem?_eq_none_iff.mp hi)]
    | some r =>
        have hp : r.probe = false := by
          by_contra hp
          exact hno ⟨r, hi, by simpa using hp⟩
        have herase := countP_eraseIdx_add (fun r => decide (r.key = k) && r.probe) hi
        simpa [hp] using herase

/-- **When an event keeps the counts.** -/
theorem slotsMatch_step_iff (sys : System) (e : Event Req Resp Err) (hset : Settled sys)
    (h : SlotsMatch sys) : SlotsMatch (svc.step sys e) ↔ ¬ Leaks sys e := by
  cases e with
  | poll req now later order =>
      exact iff_of_true (slotsMatch_poll svc hset h req now later order) not_false
  | respond i resp now later order =>
      exact iff_of_true (slotsMatch_respond svc hset h i resp now later order) not_false
  | fail i err => exact slotsMatch_eraseIdx_iff hset h i
  | drop i => exact slotsMatch_eraseIdx_iff hset h i

/-- **Half-open slots are kept exactly by the probes under way** in every state
of a run, exactly if no event of the run ends a probe of the current half-open
episode of its key by an error of the inner service or by dropping it. -/
theorem slotsMatch_iff (threshold recovery halfOpenProbes maxKeys idleTtl : ℕ) (now : ℤ)
    (events : List (Event Req Resp Err)) :
    Always svc.step SlotsMatch
        (System.start threshold recovery halfOpenProbes maxKeys idleTtl now) events ↔
      Along svc.step (fun sys e => ¬ Leaks sys e)
        (System.start threshold recovery halfOpenProbes maxKeys idleTtl now) events := by
  have hcircuit : ∀ k, (System.start threshold recovery halfOpenProbes maxKeys idleTtl
      now).store.circuit k = none := fun _ => rfl
  refine always_iff_along (settled_step svc) (slotsMatch_step_iff svc) ⟨?_, ?_⟩ ?_ events
  · exact fun r hr => absurd hr List.not_mem_nil
  · intro k n hk
    rw [hcircuit k] at hk
    cases hk
  · intro k n hk
    rw [hcircuit k] at hk
    cases hk

end Steps

/-- **A probe that fails keeps its slot.**  One failure opens the circuit for ten
seconds.  The inner service fails on the probe that is let through then: the
circuit counts one probe, none is under way, and the requests after it are
turned away. -/
theorem probe_error_wedges :
    let svc : CircuitBreakerService Unit Bool := .global id
    let poll (t : ℕ) : Event Unit Bool Unit := .poll () (fromSecs t) (fromSecs t) .stored
    let events := [poll 0, .respond 0 true 0 0 .stored, poll 10, .fail 0 ()]
    let sys := run svc.step (System.start 1 (fromSecs 10) 1 10 (fromSecs 600) 0) events
    sys.store.circuit "" = some (.halfOpen 1) ∧ sys.outstanding = [] ∧
      svc.answer sys (poll 20) = some (.rejected 503 "circuit breaker open") ∧
      svc.answer (svc.step sys (poll 20)) (poll 300) =
        some (.rejected 503 "circuit breaker open") := by
  intro svc poll events sys
  decide

end CircuitBreaker
end Noxy

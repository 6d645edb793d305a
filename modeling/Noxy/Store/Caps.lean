/-
# The soft caps of the three stores

`src/middleware/rate_limiter.rs`, `src/middleware/sliding_window.rs` and
`src/middleware/circuit_breaker.rs`: `max_keys`, of which the documentation says that idle keys
are evicted first, and that the map may temporarily exceed it if all keys are active.

Each store is a `Noxy.Store.Keeper`, and what its calls do is `Keeper.touch`.  A bucket and a
window are kept by a call on their key for the effective time to live.  A circuit is kept by a call
for the time to live, and by one that opens it until the deadline that it has set.
-/

import Noxy.CircuitBreaker.State
import Noxy.RateLimiter.State
import Noxy.SlidingWindow.Follows
import Noxy.Store.SoftCap

namespace Noxy

open Lib Store

/-! ### Rate limiter -/

namespace RateLimiter
namespace SharedState

/-- The rate limiter's store. -/
def keeper (s : SharedState) : Keeper ℚ BucketState Take where
  maxKeys := s.maxKeys
  interval := CLEANUP_INTERVAL
  keep := fun t st => decide (secondsSince t st.lastSeen ≤ s.effectiveTtl)
  lastSeen := BucketState.lastSeen
  key := Take.key
  now := Take.now
  order := Take.order
  stays := fun c t => decide (t ≤ c.now + s.effectiveTtl)

/-- The keys that were taken from within the effective time to live before `t`. -/
def activeKeys (s : SharedState) (calls : List Take) (t : ℚ) : Finset String :=
  s.keeper.active calls t

theorem touch_step (s : SharedState) (c : Take) :
    ((s.step c).buckets, (s.step c).nextCleanup) = s.keeper.touch c
      ⟨(((s.sweep c).bucketOrNew c.key c.now).take s.rate s.burst c.now).2, c.now⟩
      s.buckets s.nextCleanup := by
  have hevict : ∀ st : BucketState, decide (s.effectiveTtl < secondsSince c.now st.lastSeen) =
      !decide (secondsSince c.now st.lastSeen ≤ s.effectiveTtl) := fun st => by
    rw [← decide_not, decide_eq_decide, not_le]
  have hsweep : (s.sweep c).buckets = Store.evictIfNeeded c.order s.maxKeys
      (fun st => !decide (secondsSince c.now st.lastSeen ≤ s.effectiveTtl)) BucketState.lastSeen
      c.key (Store.maybeCleanup CLEANUP_INTERVAL
        (fun st : BucketState => decide (secondsSince c.now st.lastSeen ≤ s.effectiveTtl))
        c.now s.nextCleanup s.buckets).1 := by
    rw [← funext hevict]
    rfl
  have hbuckets : (s.step c).buckets = (s.sweep c).buckets.insert c.key
      ⟨(((s.sweep c).bucketOrNew c.key c.now).take s.rate s.burst c.now).2, c.now⟩ := rfl
  rw [hbuckets, hsweep]
  rfl

/-- **How many buckets there are.**  From an empty store, after calls in order of their times,
there are at most `max_keys` of them, or at most as many as keys were active at one of the calls of
the last thirty seconds. -/
theorem buckets_soft_cap {s : SharedState} {created : ℚ} (hempty : s.buckets = ∅)
    (hnext : s.nextCleanup = created + CLEANUP_INTERVAL) {calls : List Take} {last : Take}
    (hsorted : (created :: (calls ++ [last]).map Take.now).Pairwise (· ≤ ·)) :
    (run step s (calls ++ [last])).buckets.len ≤ s.maxKeys ∨
      ∃ pre c post, calls ++ [last] = pre ++ c :: post ∧ last.now < c.now + CLEANUP_INTERVAL ∧
        (run step s (calls ++ [last])).buckets.len ≤ (s.activeKeys (pre ++ [c]) c.now).card := by
  have httl := s.effectiveTtl_nonneg
  have hinterval : (0 : ℚ) < CLEANUP_INTERVAL := by decide +kernel
  have hcap := s.keeper.soft_cap_run step (fun _ c => c) hinterval (fun c => ?_)
    (fun _ _ => rfl) (J := fun s' _ => s'.keeper = s.keeper) (fun {past t s' c} _ hJ _ => ?_)
    hempty hnext rfl hsorted
  · simp only [noted_input] at hcap
    exact hcap
  · have : c.now ≤ c.now + s.effectiveTtl := by linarith
    exact decide_eq_true this
  · refine ⟨hJ, _, hJ ▸ s'.touch_step c, fun u hu => ⟨c, by simp, rfl, ?_⟩⟩
    have hidle : secondsSince u c.now ≤ s.effectiveTtl := of_decide_eq_true hu
    have hle : u ≤ c.now + s.effectiveTtl := by
      have := (le_max_left (u - c.now) 0).trans hidle
      linarith
    exact decide_eq_true hle

/-- One request a second, and two keys at most. -/
def twoKeys : SharedState := (SharedState.new 1 1 0).setMaxKeys 2

/-- A take of each of two keys. -/
def twoTakes : List Take := [⟨"a", 0, .stored⟩, ⟨"b", 0, .stored⟩]

/-- The take of the third key. -/
def thirdTake : Take := ⟨"c", 0, .stored⟩

/-- The hypotheses of `buckets_soft_cap` are met by a store for two keys that is asked for
three. -/
theorem buckets_soft_cap_twoKeys :
    (run step twoKeys (twoTakes ++ [thirdTake])).buckets.len ≤ twoKeys.maxKeys ∨
      ∃ pre c post, twoTakes ++ [thirdTake] = pre ++ c :: post ∧
        thirdTake.now < c.now + CLEANUP_INTERVAL ∧
        (run step twoKeys (twoTakes ++ [thirdTake])).buckets.len ≤
          (twoKeys.activeKeys (pre ++ [c]) c.now).card :=
  buckets_soft_cap rfl rfl (by decide +kernel)

example : (run step twoKeys (twoTakes ++ [thirdTake])).buckets.len = 3 := by decide +kernel

end SharedState
end RateLimiter

/-! ### Sliding window -/

namespace SlidingWindow
namespace SharedState

/-- The sliding window's store. -/
def keeper (s : SharedState) : Keeper ℤ WindowState Take where
  maxKeys := s.maxKeys
  interval := CLEANUP_INTERVAL
  keep := fun t st => decide (saturatingDurationSince t st.lastSeen ≤ s.effectiveTtl)
  lastSeen := WindowState.lastSeen
  key := Take.key
  now := Take.now
  order := Take.order
  stays := fun c t => decide (t ≤ c.now + s.effectiveTtl)

/-- The keys that were taken from within the effective time to live before `t`. -/
def activeKeys (s : SharedState) (calls : List Take) (t : ℤ) : Finset String :=
  s.keeper.active calls t

theorem touch_step {s : SharedState} {c : Take} {delay : Option ℕ} {ts : List ℤ}
    (h : takeWindow s.count s.window c.now ((s.sweep c).timestamps c.key) = .ok (delay, ts)) :
    ((s.step c).windows, (s.step c).nextCleanup) =
      s.keeper.touch c ⟨ts, c.now⟩ s.windows s.nextCleanup := by
  have hevict : ∀ st : WindowState,
      decide (s.effectiveTtl < saturatingDurationSince c.now st.lastSeen) =
        !decide (saturatingDurationSince c.now st.lastSeen ≤ s.effectiveTtl) := fun st => by
    rw [← decide_not, decide_eq_decide, not_le]
  have hsweep : (s.sweep c).windows = Store.evictIfNeeded c.order s.maxKeys
      (fun st => !decide (saturatingDurationSince c.now st.lastSeen ≤ s.effectiveTtl))
      WindowState.lastSeen c.key (Store.maybeCleanup (CLEANUP_INTERVAL : ℤ)
        (fun st : WindowState =>
          decide (saturatingDurationSince c.now st.lastSeen ≤ s.effectiveTtl))
        c.now s.nextCleanup s.windows).1 := by
    rw [← funext hevict]
    rfl
  rw [(take_of_ok h).2]
  show ((s.sweep c).windows.insert c.key ⟨ts, c.now⟩, _) = _
  rw [hsweep]
  rfl

/-- **How many windows there are**, if the count is not zero.  From an empty store, after calls in
order of their times, there are at most `max_keys` of them, or at most as many as keys were active
at one of the calls of the last thirty seconds. -/
theorem windows_soft_cap {s : SharedState} {created : ℤ} (hempty : s.windows = ∅)
    (hcount : 1 ≤ s.count) (hnext : s.nextCleanup = created + CLEANUP_INTERVAL)
    {calls : List Take} {last : Take}
    (hsorted : (created :: (calls ++ [last]).map Take.now).Pairwise (· ≤ ·)) :
    (run step s (calls ++ [last])).windows.len ≤ s.maxKeys ∨
      ∃ pre c post, calls ++ [last] = pre ++ c :: post ∧ last.now < c.now + CLEANUP_INTERVAL ∧
        (run step s (calls ++ [last])).windows.len ≤ (s.activeKeys (pre ++ [c]) c.now).card := by
  have hinterval : (0 : ℤ) < CLEANUP_INTERVAL := by decide
  have hhealthy : s.Healthy created := fun k e he => by simp [hempty] at he
  have hcap := s.keeper.soft_cap_run step (fun _ c => c) hinterval (fun c => ?_)
    (fun _ _ => rfl) (J := fun s' t => s'.Healthy t ∧ 1 ≤ s'.count ∧ s'.keeper = s.keeper)
    (fun {past t s' c} _ hJ ht => ?_) hempty hnext ⟨hhealthy, hcount, rfl⟩ hsorted
  · simp only [noted_input] at hcap
    exact hcap
  · have : c.now ≤ c.now + s.effectiveTtl := by omega
    exact decide_eq_true this
  · obtain ⟨hs', hcount', hkeeper⟩ := hJ
    obtain ⟨delay, ts, htake, _⟩ := hs'.take hcount' ht
    obtain ⟨hstep, hcount'', _, _⟩ := hs'.step hcount' ht
    have hkeeper' : (s'.step c).keeper = s'.keeper := by
      rw [(take_of_ok htake).2]
      rfl
    refine ⟨⟨hstep, hcount''.symm ▸ hcount', hkeeper'.trans hkeeper⟩, _, hkeeper ▸ touch_step htake,
      fun u hu => ⟨c, by simp, rfl, ?_⟩⟩
    have hidle : saturatingDurationSince u c.now ≤ s.effectiveTtl := of_decide_eq_true hu
    unfold saturatingDurationSince at hidle
    have hle : u ≤ c.now + s.effectiveTtl := by omega
    exact decide_eq_true hle

end SharedState
end SlidingWindow

/-! ### Circuit breaker -/

namespace CircuitBreaker

/-- A call, and the deadline that it set if it opened the circuit of its key. -/
structure Visit extends Call where
  deadline : Option ℤ

namespace SharedState

/-- The deadline that a call sets. -/
def deadlineSet (s : SharedState) (c : Call) : Option ℤ :=
  match c.op, (s.sweep c.order c.key c.now).circuitOrClosed c.key with
  | .record false, .closed failures =>
      if s.threshold ≤ failures + 1 then some (c.later + s.recovery) else none
  | .record false, .halfOpen _ => some (c.later + s.recovery)
  | _, _ => none

/-- What counts of a call: itself, and the deadline that it sets. -/
def visit (s : SharedState) (c : Call) : Visit := ⟨c, s.deadlineSet c⟩

/-- The circuit breaker's store. -/
def keeper (s : SharedState) : Keeper ℤ CircuitEntry Visit where
  maxKeys := s.maxKeys
  interval := CLEANUP_INTERVAL
  keep := fun t entry => entry.keep s.idleTtl t
  lastSeen := CircuitEntry.lastSeen
  key := Call.key ∘ Visit.toCall
  now := Call.now ∘ Visit.toCall
  order := Call.order ∘ Visit.toCall
  stays := fun v t => decide (t ≤ v.now + s.idleTtl) || v.deadline.any fun d => decide (t < d)

/-- The keys that were called within the time to live before `t`, or whose circuit was opened by a
call with a deadline after `t`. -/
def activeKeys (s : SharedState) (calls : List Call) (t : ℤ) : Finset String :=
  s.keeper.active (noted step visit s calls) t

theorem canEvictEntry_eq_not_keep (idleTtl : ℕ) (now : ℤ) (entry : CircuitEntry) :
    entry.canEvictEntry idleTtl now = !entry.keep idleTtl now := by
  unfold CircuitEntry.canEvictEntry CircuitEntry.keep
  dsimp only
  by_cases hidle : saturatingDurationSince now entry.lastSeen ≤ idleTtl
  · rw [if_pos hidle]
    cases entry.state <;> simp [hidle]
  · rw [if_neg hidle]
    cases entry.state <;> simp [hidle, ← decide_not]

theorem touch_step (s : SharedState) (c : Call) :
    ((s.step c).circuits, (s.step c).nextCleanup) = s.keeper.touch (s.visit c)
      ⟨c.move s ((s.sweep c.order c.key c.now).circuitOrClosed c.key), c.now⟩
      s.circuits s.nextCleanup := by
  have hsweep : (s.sweep c.order c.key c.now).circuits = Store.evictIfNeeded c.order s.maxKeys
      (fun entry => !entry.keep s.idleTtl c.now) CircuitEntry.lastSeen c.key
      (Store.maybeCleanup (CLEANUP_INTERVAL : ℤ) (CircuitEntry.keep s.idleTtl c.now) c.now
        s.nextCleanup s.circuits).1 := by
    rw [← funext (canEvictEntry_eq_not_keep s.idleTtl c.now)]
    rfl
  have hnext : (s.step c).nextCleanup = (s.sweep c.order c.key c.now).nextCleanup := by
    unfold step
    cases c.op <;> rfl
  rw [step_circuits, hnext, hsweep]
  rfl

/-- A circuit that a call leaves open was opened by it, or was open before. -/
theorem deadlineSet_of_move {s : SharedState} {c : Call} {deadline : ℤ}
    (h : c.move s ((s.sweep c.order c.key c.now).circuitOrClosed c.key) = .opened deadline) :
    s.deadlineSet c = some deadline ∨
      (s.sweep c.order c.key c.now).circuitOrClosed c.key = .opened deadline := by
  unfold deadlineSet
  unfold Call.move at h
  cases hop : c.op with
  | check =>
      rw [hop] at h
      cases hst : (s.sweep c.order c.key c.now).circuitOrClosed c.key with
      | closed failures =>
          rw [hst] at h
          cases h
      | opened until' =>
          simp only [hst, checkCircuit] at h
          split at h
          · cases h
          · exact Or.inr h
      | halfOpen inFlight =>
          simp only [hst, checkCircuit] at h
          split at h <;> cases h
  | record success =>
      rw [hop] at h
      cases hst : (s.sweep c.order c.key c.now).circuitOrClosed c.key with
      | closed failures =>
          simp only [hst, recordCircuit] at h
          cases success with
          | true => cases h
          | false =>
              simp only [Bool.false_eq_true, if_false] at h
              split at h
              · cases h
                rename_i hthreshold
                exact Or.inl (if_pos hthreshold)
              · cases h
      | opened until' =>
          rw [hst] at h
          exact Or.inr h
      | halfOpen inFlight =>
          simp only [hst, recordCircuit] at h
          cases success with
          | true => cases h
          | false =>
              cases h
              exact Or.inl rfl

/-- An open circuit that a call finds was open before it. -/
theorem lookup_of_circuitOrClosed {s : SharedState} {c : Call} {deadline : ℤ}
    (h : (s.sweep c.order c.key c.now).circuitOrClosed c.key = .opened deadline) :
    ∃ e, s.circuits.lookup c.key = some e ∧ e.state = .opened deadline := by
  unfold circuitOrClosed circuit at h
  cases hlookup : (s.sweep c.order c.key c.now).circuits.lookup c.key with
  | none =>
      rw [hlookup] at h
      cases h
  | some e =>
      rw [hlookup] at h
      exact ⟨e, lookup_of_kept (lookup_circuits_sweep c.order s c.key c.now c.key) hlookup, h⟩

theorem keeper_step (s : SharedState) (c : Call) : (s.step c).keeper = s.keeper := by
  unfold step
  cases c.op <;> rfl

/-- What a call leaves is kept by it, or by the one that opened the circuit. -/
theorem traced_step {s : SharedState} {c : Call} {past : List Visit} {t : ℤ}
    (h : s.keeper.Capped past t s.circuits s.nextCleanup) {u : ℤ}
    (hkeep : CircuitEntry.keep s.idleTtl u
      ⟨c.move s ((s.sweep c.order c.key c.now).circuitOrClosed c.key), c.now⟩ = true) :
    ∃ v ∈ past ++ [s.visit c], v.key = c.key ∧ s.keeper.stays v u = true := by
  by_cases hidle : u ≤ c.now + s.idleTtl
  · exact ⟨s.visit c, by simp, rfl, by simp [keeper, visit, hidle]⟩
  · have hold : ¬ saturatingDurationSince u c.now ≤ s.idleTtl := by
      unfold saturatingDurationSince
      omega
    cases hmove : c.move s ((s.sweep c.order c.key c.now).circuitOrClosed c.key) with
    | closed failures => simp [CircuitEntry.keep, hmove, hold] at hkeep
    | halfOpen inFlight => simp [CircuitEntry.keep, hmove, hold] at hkeep
    | opened deadline =>
        have hlt : u < deadline := by simpa [CircuitEntry.keep, hmove, hold] using hkeep
        rcases deadlineSet_of_move hmove with hset | hopen
        · exact ⟨s.visit c, by simp, rfl, by simp [keeper, visit, hset, hlt]⟩
        · obtain ⟨e, he, hstate⟩ := lookup_of_circuitOrClosed hopen
          obtain ⟨v, hv, hkey, hstays⟩ :=
            h.traced c.key e he u (CircuitEntry.keep_of_lt_deadline hstate hlt)
          exact ⟨v, by simp [hv], hkey, hstays⟩

/-- **How many circuits there are.**  From an empty store, after calls in order of their times,
there are at most `max_keys` of them, or at most as many as keys were active at one of the calls of
the last thirty seconds: called within the time to live, or opened with the deadline to come. -/
theorem circuits_soft_cap {s : SharedState} {created : ℤ} (hempty : s.circuits = ∅)
    (hnext : s.nextCleanup = created + CLEANUP_INTERVAL) {calls : List Call} {last : Call}
    (hsorted : (created :: (calls ++ [last]).map Call.now).Pairwise (· ≤ ·)) :
    (run step s (calls ++ [last])).circuits.len ≤ s.maxKeys ∨
      ∃ pre c post, calls ++ [last] = pre ++ c :: post ∧ last.now < c.now + CLEANUP_INTERVAL ∧
        (run step s (calls ++ [last])).circuits.len ≤ (s.activeKeys (pre ++ [c]) c.now).card := by
  have hinterval : (0 : ℤ) < CLEANUP_INTERVAL := by decide
  refine s.keeper.soft_cap_run step visit hinterval (fun v => ?_) (fun _ _ => rfl)
    (J := fun s' _ => s'.keeper = s.keeper) (fun {past t s' c} hcapped hJ _ => ?_) hempty hnext rfl
    hsorted
  · have : v.now ≤ v.now + s.idleTtl := by omega
    simp [keeper, this]
  · rw [← hJ] at hcapped ⊢
    exact ⟨s'.keeper_step c, _, s'.touch_step c, fun u hu => traced_step hcapped hu⟩

/-- One failure opens a circuit for twenty minutes; one key at most. -/
def oneKey : SharedState := (SharedState.new 1 (fromSecs 1200) 0).setMaxKeys 1

/-- A circuit opens, and is left alone for fifteen minutes. -/
def leftOpen : List Call := [⟨"a", .record false, 0, 0, .stored⟩]

/-- Then a request with another key comes. -/
def otherKey : Call := ⟨"b", .check, fromSecs 900, fromSecs 900, .stored⟩

/-- The hypotheses of `circuits_soft_cap` are met by a circuit that is open for longer than the
time to live. -/
theorem circuits_soft_cap_leftOpen :
    (run step oneKey (leftOpen ++ [otherKey])).circuits.len ≤ oneKey.maxKeys ∨
      ∃ pre c post, leftOpen ++ [otherKey] = pre ++ c :: post ∧
        otherKey.now < c.now + CLEANUP_INTERVAL ∧
        (run step oneKey (leftOpen ++ [otherKey])).circuits.len ≤
          (oneKey.activeKeys (pre ++ [c]) c.now).card :=
  circuits_soft_cap rfl rfl (by decide)

example : (run step oneKey (leftOpen ++ [otherKey])).circuits.len = 2 := by decide +kernel

end SharedState
end CircuitBreaker
end Noxy

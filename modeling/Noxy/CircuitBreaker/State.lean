/-
# The in-memory circuit breaker

`src/middleware/circuit_breaker.rs`: `State`, `CircuitEntry` and `SharedState`.
A key's circuit is closed, open until a deadline, or half open with a number of
probes in flight.  `check` decides whether a request may go through and
`record` takes note of how it ended.  Both start with the cleanup and the
eviction of `Noxy.Store.Keyed` and create the key's entry, closed, if there is
none; then they move the key's own circuit, which is `checkCircuit` and
`recordCircuit` here.

Both read the clock twice: `now` at the start, and again, only when they need
it, at the deadline of an open circuit or to set a new one.  A `Call` has both
reads, and the order in which the map is walked during it.  What a call does to
the circuit of a key is said once for all calls: `circuit_step_ne` for the other
keys and `circuit_step_self` for its own, over `circuit_sweep`, which says that
a circuit is only ever dropped when its entry is idle and, if open, past its
deadline.
-/

import Noxy.Store.Keyed

namespace Noxy
namespace CircuitBreaker

open Lib Store

/-- `State`. -/
inductive State where
  | closed (consecutiveFailures : ℕ)
  | opened (deadline : ℤ)
  | halfOpen (inFlight : ℕ)
  deriving DecidableEq, Repr

/-- `CircuitAction`. -/
inductive CircuitAction where
  | allow
  | reject
  deriving DecidableEq, Repr

/-- `CircuitEntry`. -/
structure CircuitEntry where
  state : State
  lastSeen : ℤ
  deriving DecidableEq, Repr

/-- `SharedState`. -/
structure SharedState where
  circuits : HashMap String CircuitEntry
  threshold : ℕ
  recovery : ℕ
  halfOpenProbes : ℕ
  maxKeys : ℕ
  idleTtl : ℕ
  nextCleanup : ℤ
  deriving DecidableEq

/-- The test of the `retain` in `maybe_cleanup`. -/
def CircuitEntry.keep (idleTtl : ℕ) (now : ℤ) (entry : CircuitEntry) : Bool :=
  let idleOk := decide (saturatingDurationSince now entry.lastSeen ≤ idleTtl)
  match entry.state with
  | .opened deadline => idleOk || decide (now < deadline)
  | _ => idleOk

/-- `can_evict_entry`. -/
def CircuitEntry.canEvictEntry (idleTtl : ℕ) (now : ℤ) (entry : CircuitEntry) : Bool :=
  let idle := saturatingDurationSince now entry.lastSeen
  if idle ≤ idleTtl then false
  else
    match entry.state with
    | .opened deadline => decide (deadline ≤ now)
    | _ => true

/-- The `match` of `check`; `later` is the clock at the deadline test. -/
def checkCircuit (halfOpenProbes : ℕ) (later : ℤ) : State → CircuitAction × State
  | .closed failures => (.allow, .closed failures)
  | .opened deadline =>
      if deadline ≤ later then (.allow, .halfOpen 1) else (.reject, .opened deadline)
  | .halfOpen inFlight =>
      if inFlight < halfOpenProbes then (.allow, .halfOpen (inFlight + 1))
      else (.reject, .halfOpen inFlight)

/-- The `match` of `record`; `later` is the clock when a deadline is set. -/
def recordCircuit (threshold recovery : ℕ) (later : ℤ) (success : Bool) : State → State
  | .closed failures =>
      if success then .closed 0
      else if threshold ≤ failures + 1 then .opened (later + recovery)
      else .closed (failures + 1)
  | .halfOpen _ => if success then .closed 0 else .opened (later + recovery)
  | .opened deadline => .opened deadline

/-- What a call asks of the store. -/
inductive Op where
  | check
  | record (success : Bool)
  deriving DecidableEq, Repr

/-- A call of `check` or `record`, with its two clock reads and the order in
which the map hands out its entries while it runs. -/
structure Call where
  key : String
  op : Op
  now : ℤ
  later : ℤ
  order : IterOrder String CircuitEntry

namespace SharedState

/-- `InMemoryCircuitBreakerStore::new` at the instant `now`. -/
def new (threshold recovery : ℕ) (now : ℤ) : SharedState :=
  { circuits := ∅
    threshold := threshold
    recovery := recovery
    halfOpenProbes := 1
    maxKeys := DEFAULT_MAX_KEYS
    idleTtl := DEFAULT_IDLE_TTL
    nextCleanup := now + CLEANUP_INTERVAL }

/-- `set_half_open_probes`. -/
def setHalfOpenProbes (s : SharedState) (n : ℕ) : SharedState := { s with halfOpenProbes := n }

/-- `set_max_keys`. -/
def setMaxKeys (s : SharedState) (max : ℕ) : SharedState := { s with maxKeys := Nat.max max 1 }

/-- `set_idle_ttl`. -/
def setIdleTtl (s : SharedState) (ttl : ℕ) : SharedState := { s with idleTtl := ttl }

/-- `maybe_cleanup`. -/
def maybeCleanup (s : SharedState) (now : ℤ) : SharedState :=
  let swept := Store.maybeCleanup (CLEANUP_INTERVAL : ℤ) (CircuitEntry.keep s.idleTtl now)
    now s.nextCleanup s.circuits
  { s with circuits := swept.1, nextCleanup := swept.2 }

/-- `evict_if_needed`. -/
def evictIfNeeded (o : IterOrder String CircuitEntry) (s : SharedState) (key : String)
    (now : ℤ) : SharedState :=
  { s with
    circuits := Store.evictIfNeeded o s.maxKeys (CircuitEntry.canEvictEntry s.idleTtl now)
      CircuitEntry.lastSeen key s.circuits }

/-- How `check` and `record` start. -/
def sweep (o : IterOrder String CircuitEntry) (s : SharedState) (key : String) (now : ℤ) :
    SharedState :=
  (s.maybeCleanup now).evictIfNeeded o key now

/-- The state of a key's circuit, if it has an entry. -/
def circuit (s : SharedState) (k : String) : Option State :=
  (s.circuits.lookup k).map CircuitEntry.state

/-- The entry of a key, or the one that `or_insert` creates. -/
def circuitOrClosed (s : SharedState) (k : String) : State :=
  (s.circuit k).getD (.closed 0)

/-- `SharedState::check`. -/
def check (o : IterOrder String CircuitEntry) (s : SharedState) (key : String)
    (now later : ℤ) : CircuitAction × SharedState :=
  let s := s.sweep o key now
  let moved := checkCircuit s.halfOpenProbes later (s.circuitOrClosed key)
  (moved.1, { s with circuits := s.circuits.insert key ⟨moved.2, now⟩ })

/-- `SharedState::record`. -/
def record (o : IterOrder String CircuitEntry) (s : SharedState) (key : String)
    (success : Bool) (now later : ℤ) : SharedState :=
  let s := s.sweep o key now
  let moved := recordCircuit s.threshold s.recovery later success (s.circuitOrClosed key)
  { s with circuits := s.circuits.insert key ⟨moved, now⟩ }

/-- The store after a call. -/
def step (s : SharedState) (c : Call) : SharedState :=
  match c.op with
  | .check => (s.check c.order c.key c.now c.later).2
  | .record success => s.record c.order c.key success c.now c.later

/-- What a call answers; only `check` does. -/
def answer (s : SharedState) (c : Call) : Option CircuitAction :=
  match c.op with
  | .check => some (s.check c.order c.key c.now c.later).1
  | .record _ => none

end SharedState

/-- What a call makes of the circuit of its key. -/
def Call.move (c : Call) (s : SharedState) (st : State) : State :=
  match c.op with
  | .check => (checkCircuit s.halfOpenProbes c.later st).2
  | .record success => recordCircuit s.threshold s.recovery c.later success st

/-- No outcome leaves a circuit half open. -/
theorem recordCircuit_ne_halfOpen (threshold recovery : ℕ) (later : ℤ) (success : Bool)
    (st : State) (n : ℕ) : recordCircuit threshold recovery later success st ≠ .halfOpen n := by
  unfold recordCircuit
  split
  · split_ifs <;> simp
  · split_ifs <;> simp
  · simp

/-- How a `check` leaves a circuit half open: it is the first probe, it takes a
free slot, or it is rejected. -/
theorem checkCircuit_halfOpen {halfOpenProbes : ℕ} {later : ℤ} {st : State} {n : ℕ}
    (h : (checkCircuit halfOpenProbes later st).2 = .halfOpen n) :
    (checkCircuit halfOpenProbes later st = (.allow, .halfOpen n) ∧
        ((n = 1 ∧ ∃ deadline, st = .opened deadline) ∨ ∃ m, st = .halfOpen m ∧ n = m + 1)) ∨
      (checkCircuit halfOpenProbes later st = (.reject, .halfOpen n) ∧ st = .halfOpen n) := by
  cases st with
  | closed failures => cases h
  | opened deadline =>
      simp only [checkCircuit] at h ⊢
      split_ifs at h ⊢
      cases h
      exact Or.inl ⟨rfl, Or.inl ⟨rfl, deadline, rfl⟩⟩
  | halfOpen m =>
      simp only [checkCircuit] at h ⊢
      split_ifs at h ⊢
      · cases h
        exact Or.inl ⟨rfl, Or.inr ⟨m, rfl, rfl⟩⟩
      · cases h
        exact Or.inr ⟨rfl, rfl⟩

/-- The eviction drops nothing that the cleanup would keep. -/
theorem CircuitEntry.keep_of_canEvictEntry {idleTtl : ℕ} {now : ℤ} {entry : CircuitEntry}
    (h : entry.canEvictEntry idleTtl now = true) : entry.keep idleTtl now = false := by
  by_cases hidle : saturatingDurationSince now entry.lastSeen ≤ idleTtl
  · simp [canEvictEntry, hidle] at h
  · cases hst : entry.state with
    | opened deadline => simpa [canEvictEntry, keep, hidle, hst] using h
    | closed _ => simp [keep, hidle, hst]
    | halfOpen _ => simp [keep, hidle, hst]

/-- An open circuit is kept until its deadline. -/
theorem CircuitEntry.keep_of_lt_deadline {idleTtl : ℕ} {now deadline : ℤ} {entry : CircuitEntry}
    (hst : entry.state = .opened deadline) (h : now < deadline) :
    entry.keep idleTtl now = true := by
  simp [keep, hst, h]

/-- A circuit that is not idle is kept. -/
theorem CircuitEntry.keep_of_not_idle {idleTtl : ℕ} {now : ℤ} {entry : CircuitEntry}
    (h : now - entry.lastSeen ≤ idleTtl) : entry.keep idleTtl now = true := by
  have hidle : saturatingDurationSince now entry.lastSeen ≤ idleTtl := by
    unfold saturatingDurationSince
    omega
  unfold keep
  cases entry.state <;> simp [hidle]

namespace SharedState

/-- **What the cleanup and the eviction can do to a key.**  Its entry is
untouched, or it was one that `maybe_cleanup` may drop and it is gone. -/
theorem lookup_circuits_sweep (o : IterOrder String CircuitEntry) (s : SharedState) (key : String)
    (now : ℤ) (k : String) :
    (s.sweep o key now).circuits.lookup k = s.circuits.lookup k ∨
      (s.sweep o key now).circuits.lookup k = none ∧
        ∃ e, s.circuits.lookup k = some e ∧ e.keep s.idleTtl now = false :=
  lookup_sweep o (CLEANUP_INTERVAL : ℤ) _ _ (fun _ => CircuitEntry.keep_of_canEvictEntry) now
    s.nextCleanup s.maxKeys CircuitEntry.lastSeen key s.circuits k

/-- An entry that the cleanup keeps is there after it. -/
theorem lookup_circuits_sweep_of_keep (o : IterOrder String CircuitEntry) {s : SharedState}
    (key : String) {now : ℤ} {k : String} {e : CircuitEntry} (he : s.circuits.lookup k = some e)
    (hkeep : e.keep s.idleTtl now = true) :
    (s.sweep o key now).circuits.lookup k = some e := by
  rcases lookup_circuits_sweep o s key now k with h | ⟨_, e', he', hdrop⟩
  · exact h.trans he
  · obtain rfl : e = e' := Option.some.inj (he.symm.trans he')
    rw [hkeep] at hdrop
    exact absurd hdrop.symm Bool.false_ne_true

@[simp] theorem step_halfOpenProbes (s : SharedState) (c : Call) :
    (s.step c).halfOpenProbes = s.halfOpenProbes := by
  unfold step
  cases c.op <;> rfl

@[simp] theorem step_idleTtl (s : SharedState) (c : Call) :
    (s.step c).idleTtl = s.idleTtl := by
  unfold step
  cases c.op <;> rfl

/-- A call sets the entry of its key after the sweep. -/
theorem step_circuits (s : SharedState) (c : Call) :
    (s.step c).circuits = (s.sweep c.order c.key c.now).circuits.insert c.key
      ⟨c.move s ((s.sweep c.order c.key c.now).circuitOrClosed c.key), c.now⟩ := by
  unfold step Call.move
  cases c.op <;> rfl

/-- **A call and the key it is about.** -/
theorem lookup_step_self (s : SharedState) (c : Call) :
    (s.step c).circuits.lookup c.key =
      some ⟨c.move s ((s.sweep c.order c.key c.now).circuitOrClosed c.key), c.now⟩ := by
  rw [step_circuits, AList.lookup_insert]

/-- **A call and the other keys.** -/
theorem lookup_step_ne (s : SharedState) {c : Call} {k : String} (hk : k ≠ c.key) :
    (s.step c).circuits.lookup k = (s.sweep c.order c.key c.now).circuits.lookup k := by
  rw [step_circuits, AList.lookup_insert_ne hk]

/-- What `check` answers is decided by the key's circuit after the sweep. -/
theorem answer_check {s : SharedState} {c : Call} (hc : c.op = .check) :
    s.answer c = some (checkCircuit s.halfOpenProbes c.later
      ((s.sweep c.order c.key c.now).circuitOrClosed c.key)).1 := by
  unfold answer
  rw [hc]
  rfl

/-- **A circuit and the sweep.**  Its state is the same, or it is gone, and then
it was not open with the deadline to come. -/
theorem circuit_sweep (o : IterOrder String CircuitEntry) (s : SharedState) (key : String)
    (now : ℤ) (k : String) :
    (s.sweep o key now).circuit k = s.circuit k ∨
      (s.sweep o key now).circuit k = none ∧
        ∀ deadline, s.circuit k = some (.opened deadline) → deadline ≤ now := by
  unfold circuit
  rcases lookup_circuits_sweep o s key now k with h | ⟨h, e, he, hdrop⟩
  · exact Or.inl (by rw [h])
  · refine Or.inr ⟨by rw [h]; rfl, fun deadline hst => ?_⟩
    rw [he, Option.map_some, Option.some.injEq] at hst
    by_contra hlt
    rw [CircuitEntry.keep_of_lt_deadline hst (not_le.mp hlt)] at hdrop
    exact absurd hdrop.symm Bool.false_ne_true

theorem circuit_step_self (s : SharedState) (c : Call) :
    (s.step c).circuit c.key =
      some (c.move s ((s.sweep c.order c.key c.now).circuitOrClosed c.key)) := by
  rw [circuit, lookup_step_self, Option.map_some]

theorem circuit_step_ne (s : SharedState) {c : Call} {k : String} (hk : k ≠ c.key) :
    (s.step c).circuit k = (s.sweep c.order c.key c.now).circuit k := by
  rw [circuit, circuit, lookup_step_ne s hk]

end SharedState
end CircuitBreaker
end Noxy

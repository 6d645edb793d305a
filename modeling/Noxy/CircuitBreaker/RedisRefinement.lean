/-
# The Redis circuit breaker is the in-memory one

`src/middleware/circuit_breaker.rs`: `check` and `record` of `RedisCircuitBreakerStore`
without a cache, against those of `SharedState`.  The one runs a script on a hash that
expires and counts time in milliseconds, the other keeps a map that is swept and counts
in nanoseconds.

Both are compared with the single circuit of `Noxy.CircuitBreaker.Alone`.  The hash
mirrors its state (`Mirrors`): a missing key stands for a circuit that has seen
nothing, and a key that is there expires one time to live after its last script, if
at all.  So as long as the next script comes before that, it answers as the circuit
does (`Mirrors.check`, `Mirrors.record`, `Mirrors.answers`).  The unit of time does not
matter to a circuit (`aloneAnswers_scale`).  `redis_refines_memory` puts the two
together.
-/

import Mathlib.Data.List.Chain
import Noxy.CircuitBreaker.Isolation
import Noxy.CircuitBreaker.Redis

namespace Noxy
namespace CircuitBreaker

open Lib Redis Store

/-- A call at a millisecond time. -/
structure Timed where
  op : Op
  nowMs : ℤ
  order : IterOrder String CircuitEntry

/-- The call with its time counted in units of which a millisecond has `u`. -/
def Timed.call (u : ℕ) (key : String) (x : Timed) : Call :=
  ⟨key, x.op, u * x.nowMs, u * x.nowMs, x.order⟩

/-- What the `check`s of a run answer that goes to Redis every time. -/
def RedisCircuitBreakerStore.answers (store : RedisCircuitBreakerStore) (key : String) :
    Db (Hash ℤ) → List Timed → List CircuitAction
  | _, [] => []
  | db, x :: xs =>
      match x.op with
      | .check =>
          let (code, db) := store.checkScript key x.nowMs db
          action code :: store.answers key db xs
      | .record success => store.answers key (store.recordScript key success x.nowMs db) xs

/-- A state with its deadline in other units. -/
def State.scale (u : ℕ) : State → State
  | .closed failures => .closed failures
  | .opened deadline => .opened (u * deadline)
  | .halfOpen inFlight => .halfOpen inFlight

section Scale

variable {u : ℕ} (hu : 0 < u)

include hu in
theorem checkCircuit_scale (halfOpenProbes : ℕ) (later : ℤ) (st : State) :
    checkCircuit halfOpenProbes (u * later) (st.scale u) =
      ((checkCircuit halfOpenProbes later st).1,
        (checkCircuit halfOpenProbes later st).2.scale u) := by
  have hle : ∀ deadline : ℤ, (u : ℤ) * deadline ≤ u * later ↔ deadline ≤ later := fun _ =>
    mul_le_mul_iff_right₀ (by exact_mod_cast hu)
  cases st with
  | closed failures => rfl
  | opened deadline =>
      simp only [State.scale, checkCircuit, hle]
      split_ifs <;> rfl
  | halfOpen inFlight =>
      simp only [State.scale, checkCircuit]
      split_ifs <;> rfl

theorem recordCircuit_scale (u threshold recovery : ℕ) (later : ℤ) (success : Bool) (st : State) :
    recordCircuit threshold (u * recovery) (u * later) success (st.scale u) =
      (recordCircuit threshold recovery later success st).scale u := by
  have hdeadline : (u : ℤ) * later + (u * recovery : ℕ) = u * (later + recovery) := by
    rw [Nat.cast_mul, mul_add]
  cases st with
  | closed failures =>
      simp only [State.scale, recordCircuit, hdeadline]
      split_ifs <;> rfl
  | opened deadline => rfl
  | halfOpen inFlight =>
      simp only [State.scale, recordCircuit, hdeadline]
      split_ifs <;> rfl

include hu in
/-- **The unit of time does not matter** to what a single circuit answers. -/
theorem aloneAnswers_scale (threshold recovery halfOpenProbes : ℕ) (key : String) (st : State)
    (xs : List Timed) :
    aloneAnswers threshold (u * recovery) halfOpenProbes (st.scale u) (xs.map (Timed.call u key)) =
      aloneAnswers threshold recovery halfOpenProbes st (xs.map (Timed.call 1 key)) := by
  induction xs generalizing st with
  | nil => rfl
  | cons x xs ih =>
      have hstep : aloneStep threshold (u * recovery) halfOpenProbes (st.scale u) (x.call u key) =
          (aloneStep threshold recovery halfOpenProbes st (x.call 1 key)).scale u := by
        cases hop : x.op with
        | check =>
            simp only [aloneStep, Timed.call, hop, Nat.cast_one, one_mul, checkCircuit_scale hu]
        | record success =>
            simp only [aloneStep, Timed.call, hop, Nat.cast_one, one_mul, recordCircuit_scale]
      have hanswer : aloneAnswer halfOpenProbes (st.scale u) (x.call u key) =
          aloneAnswer halfOpenProbes st (x.call 1 key) := by
        cases hop : x.op with
        | check =>
            simp only [aloneAnswer, Timed.call, hop, Nat.cast_one, one_mul, checkCircuit_scale hu]
        | record success => simp only [aloneAnswer, Timed.call, hop]
      rw [List.map_cons, List.map_cons, aloneAnswers, aloneAnswers, hanswer, hstep, ih]

end Scale

section Redis

variable {store : RedisCircuitBreakerStore} {key : String} {last nowMs : ℤ} {st : State}
  {db : Db (Hash ℤ)}

/-- The key stands for a circuit that is in the state `st` since the last script, at
`last`. -/
def Mirrors (store : RedisCircuitBreakerStore) (key : String) (last : ℤ) (st : State)
    (db : Db (Hash ℤ)) : Prop :=
  match db.lookup (store.redisKey key) with
  | none => st = .closed 0
  | some e => Holds e.value st ∧ ∀ t ∈ e.expiresAt, t = last + store.ttlMs

/-- The key has not expired when the next script comes in time. -/
theorem Mirrors.elapse (h : Mirrors store key last st db) (hin : nowMs ≤ last + store.ttlMs) :
    (Redis.elapse nowMs db).lookup (store.redisKey key) = db.lookup (store.redisKey key) := by
  unfold Mirrors at h
  cases hdb : db.lookup (store.redisKey key) with
  | none => exact lookup_elapse_none hdb
  | some e =>
      rw [hdb] at h
      refine lookup_elapse_live hdb (live_of_forall fun t ht => ?_)
      rw [h.2 t ht]
      exact hin

/-- **A `check` that comes in time** answers as the circuit does. -/
theorem Mirrors.check (h : Mirrors store key last st db) (hin : nowMs ≤ last + store.ttlMs) :
    RedisCircuitBreakerStore.action (store.checkScript key nowMs db).1 =
        (checkCircuit store.halfOpenProbes nowMs st).1 ∧
      Mirrors store key nowMs (checkCircuit store.halfOpenProbes nowMs st).2
        (store.checkScript key nowMs db).2 := by
  have hscript := store.lookup_checkScript_self key nowMs db
  have helapse := h.elapse hin
  unfold Mirrors at h ⊢
  cases hdb : db.lookup (store.redisKey key) with
  | none =>
      rw [hdb] at h helapse
      rw [helapse] at hscript
      rw [hscript, helapse, h]
      exact ⟨rfl, rfl⟩
  | some e =>
      rw [hdb] at h helapse
      rw [helapse] at hscript
      obtain ⟨hcode, hlookup⟩ := hscript
      obtain ⟨haction, hholds⟩ := checkHash_holds store.halfOpenProbes nowMs h.1
      rw [hcode, hlookup]
      refine ⟨haction, hholds, fun t ht => ?_⟩
      exact (Option.some.inj ht).symm

/-- **A `record` that comes in time** moves the circuit. -/
theorem Mirrors.record (h : Mirrors store key last st db) (hin : nowMs ≤ last + store.ttlMs)
    (success : Bool) :
    Mirrors store key nowMs
      (recordCircuit store.threshold (asMillis store.recovery) nowMs success st)
      (store.recordScript key success nowMs db) := by
  have hscript := store.lookup_recordScript_self key nowMs db success
  have helapse := h.elapse hin
  have hholds : Holds ((valueOf (store.redisKey key) (Redis.elapse nowMs db)).getD ∅) st := by
    rw [valueOf, helapse]
    unfold Mirrors at h
    cases hdb : db.lookup (store.redisKey key) with
    | none =>
        rw [hdb] at h
        rw [h]
        exact holds_empty
    | some e =>
        rw [hdb] at h
        exact h.1
  unfold Mirrors
  rw [hscript]
  refine ⟨recordHash_holds _ _ _ _ hholds, fun t ht => ?_⟩
  obtain ⟨_, _, rfl⟩ := Option.map_eq_some_iff.mp ht
  rfl

/-- **A run whose scripts come in time** answers as the circuit does. -/
theorem Mirrors.answers {xs : List Timed} (h : Mirrors store key last st db)
    (hin : (last :: xs.map Timed.nowMs).IsChain fun a b : ℤ => b ≤ a + store.ttlMs) :
    store.answers key db xs =
      aloneAnswers store.threshold (asMillis store.recovery) store.halfOpenProbes st
        (xs.map (Timed.call 1 key)) := by
  induction xs generalizing last st db with
  | nil => rfl
  | cons x xs ih =>
      rw [List.map_cons, List.isChain_cons_cons] at hin
      rw [List.map_cons, RedisCircuitBreakerStore.answers, aloneAnswers, aloneAnswer, aloneStep]
      cases hop : x.op with
      | check =>
          obtain ⟨haction, hnext⟩ := h.check hin.1
          have := ih hnext hin.2
          simp only [Timed.call, hop, Nat.cast_one, one_mul] at this ⊢
          rw [haction, this]
          rfl
      | record success =>
          have := ih (h.record hin.1 success) hin.2
          simp only [Timed.call, hop, Nat.cast_one, one_mul] at this ⊢
          rw [this]
          rfl

end Redis

section Memory

variable {u : ℕ} {key : String} {xs : List Timed}

theorem callsOn_call (u : ℕ) (key : String) (xs : List Timed) :
    callsOn key (xs.map (Timed.call u key)) = xs.map (Timed.call u key) := by
  simp [callsOn, Timed.call]

/-- Times in order are in order in every unit. -/
theorem clock_call {last : ℤ}
    (h : (last :: xs.map Timed.nowMs).IsChain fun a b : ℤ => a ≤ b) :
    Clock (u * last) (xs.map (Timed.call u key)) := by
  induction xs generalizing last with
  | nil => trivial
  | cons x xs ih =>
      rw [List.map_cons, List.isChain_cons_cons] at h
      exact ⟨mul_le_mul_of_nonneg_left h.1 (Int.natCast_nonneg u), le_rfl, ih h.2⟩

/-- Gaps of at most `ttl` are as long in every unit. -/
theorem isChain_call {ttl : ℕ} (u : ℕ) (key : String)
    (h : (xs.map Timed.nowMs).IsChain fun a b : ℤ => b - a ≤ ttl) :
    ((xs.map (Timed.call u key)).map Call.now).IsChain fun a b : ℤ => b - a ≤ (u * ttl : ℕ) := by
  have hnow : (xs.map (Timed.call u key)).map Call.now =
      (xs.map Timed.nowMs).map fun t => (u : ℤ) * t := by
    rw [List.map_map, List.map_map]
    rfl
  rw [hnow, List.isChain_map]
  refine h.imp fun a b hab => ?_
  rw [← mul_sub, Nat.cast_mul]
  exact mul_le_mul_of_nonneg_left hab (Int.natCast_nonneg u)

end Memory

/-- **The Redis circuit breaker refines the in-memory one.**  Whatever else is in the
database and whatever order the map is walked in, a run of calls on one key at
millisecond times in order, none more than 600 s after the one before or so late that
the key has expired, is answered by the scripts on a missing key as by the store on an
empty map. -/
theorem redis_refines_memory (store : RedisCircuitBreakerStore) {s : SharedState}
    (hempty : s.circuits = ∅) (hidle : s.idleTtl = DEFAULT_IDLE_TTL)
    (hthreshold : s.threshold = store.threshold) (hrecovery : s.recovery = store.recovery)
    (hprobes : s.halfOpenProbes = store.halfOpenProbes) (hms : 1000000 ∣ store.recovery)
    {key : String} {db : Db (Hash ℤ)} (hmissing : db.lookup (store.redisKey key) = none)
    {xs : List Timed}
    (hgaps : (xs.map Timed.nowMs).IsChain fun a b : ℤ =>
      a ≤ b ∧ b - a ≤ 600000 ∧ b - a < asMillis store.recovery + 60000) :
    store.answers key db xs = s.answers key (xs.map (Timed.call 1000000 key)) := by
  cases xs with
  | nil => rfl
  | cons x xs =>
      -- The first call comes in time for itself.
      have hfirst : (x.nowMs :: (x :: xs).map Timed.nowMs).IsChain fun a b : ℤ =>
          a ≤ b ∧ b - a ≤ 600000 ∧ b - a < asMillis store.recovery + 60000 := by
        rw [List.map_cons, List.isChain_cons_cons]
        exact ⟨by omega, hgaps⟩
      have hmirrors : Mirrors store key x.nowMs (.closed 0) db := by
        unfold Mirrors
        rw [hmissing]
      have hredis := hmirrors.answers (hfirst.imp fun a b hab => by
        unfold RedisCircuitBreakerStore.ttlMs
        omega)
      have hclock : Clock _ ((x :: xs).map (Timed.call 1000000 key)) :=
        clock_call (hfirst.imp fun a b hab => hab.1)
      have hidleGaps : ((x :: xs).map Timed.nowMs).IsChain fun a b : ℤ => b - a ≤ (600000 : ℕ) :=
        hgaps.imp fun a b hab => hab.2.1
      have hbusy := isChain_call 1000000 key hidleGaps
      rw [← callsOn_call] at hbusy
      obtain ⟨seen, hbusy⟩ := exists_busy hbusy
      have hnone : s.circuits.lookup key = none := by simp [hempty]
      have hmemory := (SharedState.answers_none hnone hclock (by rw [hidle]; exact hbusy)).1
      have hscale := aloneAnswers_scale (u := 1000000) (by decide) store.threshold
        (asMillis store.recovery) store.halfOpenProbes key (.closed 0) (x :: xs)
      have hunit : 1000000 * asMillis store.recovery = store.recovery := Nat.mul_div_cancel' hms
      rw [hunit] at hscale
      rw [hredis, hmemory, callsOn_call, hthreshold, hrecovery, hprobes]
      exact hscale.symm

/-- The hypotheses of `redis_refines_memory` are met by a circuit that opens at its first
failure and is probed ten seconds later. -/
theorem redis_refines_memory_probed :
    let store : RedisCircuitBreakerStore := ⟨1, fromSecs 10, 1, none, fun key => "noxy:" ++ key⟩
    let xs : List Timed := [⟨.record false, 0, .stored⟩, ⟨.check, 5000, .stored⟩,
      ⟨.check, 10000, .stored⟩, ⟨.check, 10500, .stored⟩, ⟨.record true, 11000, .stored⟩]
    store.answers "k" ∅ xs =
      (SharedState.new 1 (fromSecs 10) 0).answers "k" (xs.map (Timed.call 1000000 "k")) := by
  intro store xs
  exact redis_refines_memory store rfl rfl rfl rfl rfl (by decide) rfl (by decide)

end CircuitBreaker
end Noxy

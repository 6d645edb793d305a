/-
# A circuit that is open in Redis stays open

`src/middleware/circuit_breaker.rs`: the scripts of `RedisCircuitBreakerStore` on a circuit
that is open (`OpenUntil`).  Until the deadline neither script changes its state, and the
time to live that each of them sets, which is a minute longer than the recovery, keeps the
key there (`OpenUntil.check`, `OpenUntil.record`); so the script of a `check` replies the
time that is left (`OpenUntil.code`).  The script of a `record` that opens a circuit leaves
it so (`openUntil_tripped`), and no step of a future before the deadline changes that
(`OpenUntil.step`).
-/

import Noxy.CircuitBreaker.CacheSteps

namespace Noxy
namespace CircuitBreaker

open Lib Redis Store

namespace RedisCircuitBreakerStore

variable {store : RedisCircuitBreakerStore} {k key : String} {d t nowMs : ℤ} {db : Db (Hash ℤ)}

/-- In Redis the circuit of `k` is open until `d`, the key does not expire before that, and
`d` is at most a recovery after the time `t`. -/
structure OpenUntil (store : RedisCircuitBreakerStore) (k : String) (d t : ℤ) (db : Db (Hash ℤ)) :
    Prop where
  entry : ∃ e, db.lookup (store.redisKey k) = some e ∧ Holds e.value (.opened d) ∧
    ∀ x ∈ e.expiresAt, d ≤ x
  recovery : d ≤ t + asMillis store.recovery

theorem OpenUntil.mono (h : store.OpenUntil k d t db) (ht : t ≤ nowMs) :
    store.OpenUntil k d nowMs db :=
  ⟨h.entry, h.recovery.trans (by omega)⟩

/-- Before the deadline the key is there. -/
theorem OpenUntil.elapse (h : store.OpenUntil k d t db) (hd : nowMs < d) :
    store.OpenUntil k d t (elapse nowMs db) := by
  obtain ⟨e, hlookup, hholds, hexpiry⟩ := h.entry
  have hlive : e.live nowMs = true := live_of_forall fun x hx => by
    have := hexpiry x hx
    omega
  exact ⟨⟨e, lookup_elapse_live hlookup hlive, hholds, hexpiry⟩, h.recovery⟩

/-- The key of a script that leaves the circuit open has its time to live renewed beyond
the deadline. -/
theorem openUntil_renewed {h : Hash ℤ}
    (hlookup : db.lookup (store.redisKey k) = some ⟨h, some (nowMs + store.ttlMs)⟩)
    (hholds : Holds h (.opened d)) (hd : d ≤ nowMs + asMillis store.recovery) :
    store.OpenUntil k d nowMs db := by
  refine ⟨⟨_, hlookup, hholds, fun x hx => ?_⟩, hd⟩
  rw [← Option.some.inj hx, ttlMs]
  omega

/-- **A `check` before the deadline** leaves the circuit open. -/
theorem OpenUntil.check (h : store.OpenUntil k d t db) (ht : t ≤ nowMs) (hd : nowMs < d)
    (key : String) : store.OpenUntil k d nowMs (store.checkScript key nowMs db).2 := by
  have hlive := h.elapse hd
  obtain ⟨e, hlookup, hholds, hexpiry⟩ := hlive.entry
  by_cases hk : store.redisKey k = store.redisKey key
  · have hscript := store.lookup_checkScript_self key nowMs db
    rw [← hk, hlookup] at hscript
    have hopen := (checkHash_holds store.halfOpenProbes nowMs hholds).2
    simp only [checkCircuit, if_neg (not_le.mpr hd)] at hopen
    exact openUntil_renewed hscript.2 hopen (h.mono ht).recovery
  · refine ⟨⟨e, ?_, hholds, hexpiry⟩, (h.mono ht).recovery⟩
    exact (store.lookup_checkScript_ne key nowMs db hk).trans hlookup

/-- **The script of a `check` before the deadline** replies the time that is left. -/
theorem OpenUntil.code (h : store.OpenUntil k d t db) (hd : nowMs < d) :
    (store.checkScript k nowMs db).1 = d - nowMs := by
  obtain ⟨e, hlookup, hholds, _⟩ := (h.elapse hd).entry
  have hscript := store.lookup_checkScript_self k nowMs db
  rw [hlookup] at hscript
  rw [hscript.1, checkHash, hholds.1, hholds.2, if_neg one_ne_zero, if_pos rfl,
    if_neg (not_le.mpr hd)]

/-- **A `record` before the deadline** leaves the circuit open. -/
theorem OpenUntil.record (h : store.OpenUntil k d t db) (ht : t ≤ nowMs) (hd : nowMs < d)
    (key : String) (success : Bool) :
    store.OpenUntil k d nowMs (store.recordScript key success nowMs db) := by
  have hlive := h.elapse hd
  obtain ⟨e, hlookup, hholds, hexpiry⟩ := hlive.entry
  by_cases hk : store.redisKey k = store.redisKey key
  · have hscript := store.lookup_recordScript_self key nowMs db success
    rw [← hk, hlookup, valueOf, hlookup] at hscript
    exact openUntil_renewed hscript (recordHash_holds _ _ _ _ hholds) (h.mono ht).recovery
  · refine ⟨⟨e, ?_, hholds, hexpiry⟩, (h.mono ht).recovery⟩
    exact (store.lookup_recordScript_ne key nowMs db hk success).trans hlookup

/-- A `record` opens a circuit for one recovery from its time. -/
theorem recordHash_tripped {success : Bool} {threshold recoveryMs : ℕ} {h : Hash ℤ}
    (hd : trippedUntil h (recordHash success threshold recoveryMs nowMs h) = some d) :
    d = nowMs + recoveryMs ∧
      Holds (recordHash success threshold recoveryMs nowMs h) (.opened d) := by
  unfold trippedUntil at hd
  split at hd
  · rename_i hstate
    obtain rfl := Option.some.inj hd
    refine ⟨?_, hstate.2, rfl⟩
    obtain ⟨hbefore, hafter⟩ := hstate
    unfold recordHash at hafter ⊢
    split_ifs at hafter ⊢ <;> simp_all [Hash.set, num_insert_ne]
  · cases hd

/-- A time to live that a script has just set is not over. -/
theorem live_renewed (store : RedisCircuitBreakerStore) (nowMs : ℤ) (h : Hash ℤ)
    {expiresAt : Option ℤ} (hexpiry : ∀ x ∈ expiresAt, x = nowMs + store.ttlMs) :
    (⟨h, expiresAt⟩ : Entry (Hash ℤ)).live nowMs = true := by
  refine live_of_forall fun x hx => ?_
  rw [hexpiry x hx]
  omega

/-- The time to live of the key after the script of a `record`. -/
theorem expiry_recordScript (x : ℤ)
    (hx : x ∈ ((elapse nowMs db).lookup (store.redisKey k)).map fun _ =>
      nowMs + (store.ttlMs : ℤ)) : x = nowMs + store.ttlMs := by
  obtain ⟨_, _, rfl⟩ := Option.map_eq_some_iff.mp hx
  rfl

/-- The hash of its key after the script of a `record`. -/
theorem hashAt_recordScript (store : RedisCircuitBreakerStore) (k : String) (success : Bool)
    (nowMs : ℤ) (db : Db (Hash ℤ)) :
    store.hashAt k nowMs (store.recordScript k success nowMs db) =
      recordHash success store.threshold (asMillis store.recovery) nowMs
        (store.hashAt k nowMs db) := by
  have hscript := store.lookup_recordScript_self k nowMs db success
  unfold hashAt
  rw [valueOf, lookup_elapse_live hscript (live_renewed store nowMs _ expiry_recordScript)]
  rfl

/-- **A trip**: the script of a `record` that opens a circuit leaves it open until the
deadline. -/
theorem openUntil_tripped {success : Bool}
    (hd : trippedUntil (store.hashAt k nowMs db)
      (store.hashAt k nowMs (store.recordScript k success nowMs db)) = some d) :
    store.OpenUntil k d nowMs (store.recordScript k success nowMs db) := by
  have hscript := store.lookup_recordScript_self k nowMs db success
  rw [hashAt_recordScript] at hd
  obtain ⟨rfl, hholds⟩ := recordHash_tripped hd
  refine ⟨⟨_, hscript, hholds, fun x hx => ?_⟩, le_rfl⟩
  rw [expiry_recordScript x hx, ttlMs]
  omega

/-- **A step before the deadline** leaves an open circuit open. -/
theorem OpenUntil.step {s : Instance} (h : store.OpenUntil k d t s.redis) (clock : ℤ → ℤ)
    (x : Tick) (ht : t ≤ clock x.now) (hd : clock x.now < d) :
    store.OpenUntil k d (clock x.now) (store.step clock s x).redis := by
  rcases redis_step store clock s x with hr | ⟨key, hr⟩ | ⟨key, success, hr⟩
  · rw [hr]
    exact h.mono ht
  · rw [hr]
    exact h.check ht hd key
  · rw [hr]
    exact h.record ht hd key success

end RedisCircuitBreakerStore
end CircuitBreaker
end Noxy

/-
# Slots that the fallback does not give back

`src/middleware/circuit_breaker.rs`: `RedisCircuitBreakerStore` when some of its calls to
Redis fail.

A half-open circuit in Redis counts its probes in the field `in_flight`, and turns requests
away when there are enough.  It should count requests that are still under way: at least as
many as it counts, and at least one, were let in by the script and have not ended
(`SlotsHeld`).

The count goes down only by a `record` in Redis.  A request whose `record` goes to the
fallback, or that never records, leaves its slot behind.  So the slots are held in every
state of a run exactly if no step ends a request in this way while its circuit is half open
and counts all the requests that are there (`slots_held_iff`).  A probe whose `record` does
not reach Redis leaves the circuit half open and full, with nothing under way; every check
after it is turned away, and renews the time to live of the key
(`record_in_fallback_wedges`).
-/

import Noxy.CircuitBreaker.Fallback

namespace Noxy
namespace CircuitBreaker

open Lib Redis Store

/-! ### The hash after a script -/

/-- A key is there as before, or its time is up. -/
theorem hashOf_elapse (nowMs : ℤ) (k : String) (db : Db (Hash ℤ)) :
    hashOf k (elapse nowMs db) = hashOf k db ∨ hashOf k (elapse nowMs db) = ∅ := by
  unfold hashOf valueOf
  rw [lookup_elapse]
  cases db.lookup k with
  | none => exact Or.inr rfl
  | some e =>
      cases hlive : e.live nowMs with
      | true => exact Or.inl (by rw [Option.filter_some_pos hlive])
      | false => exact Or.inr (by rw [Option.filter_some_neg (by simp [hlive])]; rfl)

/-- A key that is half open now was so before. -/
theorem hashOf_elapse_halfOpen {nowMs : ℤ} {k : String} {db : Db (Hash ℤ)}
    (h : num (hashOf k (elapse nowMs db)) "state" = 2) :
    hashOf k (elapse nowMs db) = hashOf k db := by
  rcases hashOf_elapse nowMs k db with hsame | hgone
  · exact hsame
  · rw [hgone] at h
    cases h

/-- When `CB_CHECK_LUA` leaves a circuit half open: it was so and is full, or a request was
let in. -/
theorem checkHash_halfOpen {halfOpenProbes : ℕ} {nowMs : ℤ} {h : Hash ℤ}
    (hopen : num (checkHash halfOpenProbes nowMs h).2 "state" = 2) :
    (checkHash halfOpenProbes nowMs h).2 = h ∧ num h "state" = 2 ∨
      (RedisCircuitBreakerStore.action (checkHash halfOpenProbes nowMs h).1 = .allow ∧
        (num (checkHash halfOpenProbes nowMs h).2 "in_flight" = 1 ∨
          num h "state" = 2 ∧ num (checkHash halfOpenProbes nowMs h).2 "in_flight" =
            num h "in_flight" + 1)) := by
  unfold checkHash at hopen ⊢
  split_ifs at hopen ⊢ with h0 h1 hlate h2 hfull
  · exact Or.inl ⟨rfl, hopen⟩
  · exact Or.inr ⟨rfl, Or.inl (by simp [Hash.set])⟩
  · exact Or.inl ⟨rfl, hopen⟩
  · exact Or.inr ⟨rfl, Or.inr ⟨h2, num_insert_self _ _ _⟩⟩
  · exact Or.inl ⟨rfl, hopen⟩
  · exact Or.inl ⟨rfl, hopen⟩

/-- `CB_RECORD_LUA` leaves no circuit half open. -/
theorem recordHash_not_halfOpen (success : Bool) (threshold recoveryMs : ℕ) (nowMs : ℤ)
    (h : Hash ℤ) : num (recordHash success threshold recoveryMs nowMs h) "state" ≠ 2 := by
  unfold recordHash
  split_ifs with h0 hs ht h2 hs' <;> simp_all [Hash.set, num_insert_ne]

namespace RedisCircuitBreakerStore

variable (store : RedisCircuitBreakerStore) {key k : String} {nowMs : ℤ} {db : Db (Hash ℤ)}

theorem hashOf_checkScript_self (key : String) (nowMs : ℤ) (db : Db (Hash ℤ)) :
    (store.checkScript key nowMs db).1 =
        (checkHash store.halfOpenProbes nowMs (hashOf (store.redisKey key) (elapse nowMs db))).1 ∧
      hashOf (store.redisKey key) (store.checkScript key nowMs db).2 =
        (checkHash store.halfOpenProbes nowMs
          (hashOf (store.redisKey key) (elapse nowMs db))).2 := by
  have hself := store.lookup_checkScript_self key nowMs db
  unfold hashOf valueOf
  cases he : (elapse nowMs db).lookup (store.redisKey key) with
  | none =>
      rw [he] at hself
      simp only at hself
      rw [hself, he]
      exact ⟨rfl, rfl⟩
  | some e =>
      rw [he] at hself
      simp only at hself
      rw [hself.2]
      exact ⟨hself.1, rfl⟩

theorem hashOf_checkScript_ne (hk : k ≠ store.redisKey key) :
    hashOf k (store.checkScript key nowMs db).2 = hashOf k (elapse nowMs db) := by
  rw [hashOf, valueOf, store.lookup_checkScript_ne key nowMs db hk]
  rfl

theorem hashOf_recordScript_self (success : Bool) :
    hashOf (store.redisKey key) (store.recordScript key success nowMs db) =
      recordHash success store.threshold (asMillis store.recovery) nowMs
        (hashOf (store.redisKey key) (elapse nowMs db)) := by
  rw [hashOf, valueOf, store.lookup_recordScript_self key nowMs db success]
  rfl

theorem hashOf_recordScript_ne (hk : k ≠ store.redisKey key) (success : Bool) :
    hashOf k (store.recordScript key success nowMs db) = hashOf k (elapse nowMs db) := by
  rw [hashOf, valueOf, store.lookup_recordScript_ne key nowMs db hk success]
  rfl

/-! ### What every step keeps -/

variable {store} {clock : ℤ → ℤ} {s s' : Shared} {x : Moment}

/-- A half-open circuit counts at least one probe. -/
def CountsOne (s : Shared) : Prop :=
  ∀ k, num (hashOf k s.redis) "state" = 2 → 1 ≤ num (hashOf k s.redis) "in_flight"

/-- **The slots are held.**  Of a half-open circuit in Redis, at least as many requests as it
counts, and at least one, were let in by the script and have not ended. -/
def SlotsHeld (store : RedisCircuitBreakerStore) (s : Shared) : Prop :=
  ∀ k, num (hashOf k s.redis) "state" = 2 →
    num (hashOf k s.redis) "in_flight" ≤ store.admittedByRedis s k ∧
      0 < store.admittedByRedis s k

/-- The step ends a request that the script has let in, without a `record` in Redis, while
the circuit of its key is half open and counts all such requests. -/
def LeavesSlot (store : RedisCircuitBreakerStore) (clock : ℤ → ℤ) (s : Shared) (x : Moment) :
    Prop :=
  ∃ f, leaving s x = some f ∧ f.stage.byRedis = true ∧
    num (hashOf (store.redisKey f.key) (elapse (clock x.now) s.redis)) "state" = 2 ∧
      store.admittedByRedis s (store.redisKey f.key) ≤
        num (hashOf (store.redisKey f.key) (elapse (clock x.now) s.redis)) "in_flight"

/-- The time that has passed may only have taken keys away. -/
theorem CountsOne.elapse (h : CountsOne s) (nowMs : ℤ) (k : String)
    (hopen : num (hashOf k (elapse nowMs s.redis)) "state" = 2) :
    1 ≤ num (hashOf k (elapse nowMs s.redis)) "in_flight" := by
  have hsame := hashOf_elapse_halfOpen hopen
  rw [hsame] at hopen ⊢
  exact h k hopen

theorem SlotsHeld.elapse (h : store.SlotsHeld s) (nowMs : ℤ) (k : String)
    (hopen : num (hashOf k (elapse nowMs s.redis)) "state" = 2) :
    num (hashOf k (elapse nowMs s.redis)) "in_flight" ≤ store.admittedByRedis s k ∧
      0 < store.admittedByRedis s k := by
  have hsame := hashOf_elapse_halfOpen hopen
  rw [hsame] at hopen ⊢
  exact h k hopen

/-- A half-open circuit after a step: the script of a `check` has run for it, or it is as it
was. -/
theorem halfOpen_of_effect {left : Option Flight} (he : Effect store nowMs s s' left) {k : String}
    (hopen : num (hashOf k s'.redis) "state" = 2) :
    hashOf k s'.redis = hashOf k (elapse nowMs s.redis) ∨
      (store.admittedByRedis s' k = store.admittedByRedis s k + 1 ∧
        (num (hashOf k s'.redis) "in_flight" = 1 ∨
          num (hashOf k (elapse nowMs s.redis)) "state" = 2 ∧
            num (hashOf k s'.redis) "in_flight" =
              num (hashOf k (elapse nowMs s.redis)) "in_flight" + 1)) := by
  cases he with
  | quiet hredis _ => exact Or.inl (by rw [hredis])
  | left f hredis _ => exact Or.inl (by rw [hredis])
  | checked key hredis hcount =>
      by_cases hk : k = store.redisKey key
      · subst hk
        obtain ⟨hcode, hhash⟩ := store.hashOf_checkScript_self key nowMs s.redis
        rw [hredis, hhash] at hopen ⊢
        rcases checkHash_halfOpen hopen with ⟨hsame, _⟩ | ⟨hallow, hflight⟩
        · exact Or.inl hsame
        · rw [← hcode] at hallow
          exact Or.inr ⟨by rw [hcount, if_pos ⟨hallow, rfl⟩], hflight⟩
      · rw [hredis, store.hashOf_checkScript_ne hk]
        exact Or.inl rfl
  | recorded key success hredis _ =>
      by_cases hk : k = store.redisKey key
      · subst hk
        rw [hredis, store.hashOf_recordScript_self] at hopen
        exact absurd hopen (recordHash_not_halfOpen _ _ _ _ _)
      · rw [hredis, store.hashOf_recordScript_ne hk]
        exact Or.inl rfl

theorem countsOne_step (hs : CountsOne s) : CountsOne (store.sharedStep clock s x) := by
  intro k hopen
  rcases halfOpen_of_effect (step_effect store clock s x) hopen with hsame | ⟨_, hflight⟩
  · rw [hsame] at hopen ⊢
    exact hs.elapse _ k hopen
  · rcases hflight with hone | ⟨hbefore, hnext⟩
    · omega
    · have := hs.elapse _ k hbefore
      omega

/-- A step that ends no request without a `record` takes no request from a half-open
circuit. -/
theorem admitted_le_of_effect (he : Effect store nowMs s s' none) {k : String}
    (hopen : num (hashOf k s'.redis) "state" = 2) :
    store.admittedByRedis s k ≤ store.admittedByRedis s' k := by
  cases he with
  | quiet _ hcount => rw [hcount]
  | checked key _ hcount =>
      rw [hcount]
      exact Nat.le_add_right _ _
  | recorded key success hredis hcount =>
      by_cases hk : k = store.redisKey key
      · subst hk
        rw [hredis, store.hashOf_recordScript_self] at hopen
        exact absurd hopen (recordHash_not_halfOpen _ _ _ _ _)
      · rw [hcount k hk]

theorem slotsHeld_of_effect (he : Effect store nowMs s s' none) (hs : store.SlotsHeld s) :
    store.SlotsHeld s' := by
  intro k hopen
  have hle := admitted_le_of_effect he hopen
  rcases halfOpen_of_effect he hopen with hsame | ⟨hcount, hflight⟩
  · rw [hsame] at hopen ⊢
    have := hs.elapse nowMs k hopen
    omega
  · rcases hflight with hone | ⟨hbefore, hnext⟩
    · omega
    · have := hs.elapse nowMs k hbefore
      omega

/-- **When a request that leaves its slot behind matters.** -/
theorem slotsHeld_left_iff {f : Flight} (he : Effect store nowMs s s' (some f))
    (hone : CountsOne s) (hs : store.SlotsHeld s) :
    store.SlotsHeld s' ↔ ¬ (f.stage.byRedis = true ∧
      num (hashOf (store.redisKey f.key) (elapse nowMs s.redis)) "state" = 2 ∧
        store.admittedByRedis s (store.redisKey f.key) ≤
          num (hashOf (store.redisKey f.key) (elapse nowMs s.redis)) "in_flight") := by
  obtain ⟨hredis, hcount⟩ : s'.redis = elapse nowMs s.redis ∧ ∀ k,
      store.admittedByRedis s k = store.admittedByRedis s' k +
        if store.hasSlot k f = true then 1 else 0 := by
    cases he with
    | left _ hredis hcount => exact ⟨hredis, hcount⟩
  constructor
  · rintro h ⟨hby, hopen, hle⟩
    have hslot : store.hasSlot (store.redisKey f.key) f = true := by
      rw [hasSlot, hby, decide_eq_true rfl]
      rfl
    have hheld := h (store.redisKey f.key) (by rw [hredis]; exact hopen)
    have hone := hcount (store.redisKey f.key)
    rw [hslot, if_pos rfl] at hone
    rw [hredis] at hheld
    omega
  · intro hno k hopen
    rw [hredis] at hopen ⊢
    have hheld := hs.elapse nowMs k hopen
    have hpos := hone.elapse nowMs k hopen
    have hk := hcount k
    cases hslot : store.hasSlot k f with
    | false =>
        rw [hslot, if_neg Bool.false_ne_true] at hk
        omega
    | true =>
        rw [hasSlot, Bool.and_eq_true, decide_eq_true_eq] at hslot
        obtain ⟨hby, rfl⟩ := hslot
        rw [if_pos (by rw [hasSlot, hby, decide_eq_true rfl]; rfl)] at hk
        have hlt : ¬ (store.admittedByRedis s (store.redisKey f.key) : ℤ) ≤
            num (hashOf (store.redisKey f.key) (elapse nowMs s.redis)) "in_flight" :=
          fun hle => hno ⟨hby, hopen, hle⟩
        omega

/-- **When a step keeps the slots held.** -/
theorem slotsHeld_step_iff (s : Shared) (x : Moment) (hone : CountsOne s)
    (hs : store.SlotsHeld s) :
    store.SlotsHeld (store.sharedStep clock s x) ↔ ¬ store.LeavesSlot clock s x := by
  have he := step_effect store clock s x
  unfold LeavesSlot
  cases hleaving : leaving s x with
  | none =>
      rw [hleaving] at he
      refine iff_of_true (slotsHeld_of_effect he hs) ?_
      rintro ⟨f, hf, _⟩
      cases hf
  | some f =>
      rw [hleaving] at he
      refine (slotsHeld_left_iff he hone hs).trans (not_congr ?_)
      constructor
      · exact fun h => ⟨f, rfl, h⟩
      · rintro ⟨f', hf', h⟩
        cases hf'
        exact h

/-- **The slots of half-open circuits are held** in every state of a run exactly if no step
ends a request that the script has let in, without a `record` in Redis, while the circuit of
its key is half open and counts all such requests. -/
theorem slots_held_iff (store : RedisCircuitBreakerStore) (clock : ℤ → ℤ)
    (fallback : SharedState) (now : ℤ) (moments : List Moment) :
    Always (store.sharedStep clock) store.SlotsHeld (.start fallback now) moments ↔
      Along (store.sharedStep clock) (fun s x => ¬ store.LeavesSlot clock s x)
        (.start fallback now) moments := by
  have hclosed : ∀ k, num (hashOf k (Shared.start fallback now).redis) "state" = 0 := fun _ => rfl
  refine always_iff_along (J := CountsOne) (fun _ _ => countsOne_step) slotsHeld_step_iff ?_ ?_
    moments
  · intro k hopen
    rw [hclosed k] at hopen
    cases hopen
  · intro k hopen
    rw [hclosed k] at hopen
    cases hopen

/-- A circuit that opens at its first failure for ten seconds and lets in one probe. -/
def uncached : RedisCircuitBreakerStore :=
  ⟨1, fromSecs 10, 1, none, fun key => "noxy:" ++ key⟩

/-- A request is let in by Redis at a second, and recorded there. -/
def failedAt (t : ℕ) : List Moment :=
  [⟨fromSecs t, .start "k"⟩, ⟨fromSecs t, .script 0⟩, ⟨fromSecs t, .deliver 0⟩,
    ⟨fromSecs t, .record 0 false⟩, ⟨fromSecs t, .uncache 0⟩]

/-- A request is let in by Redis at a second, and its success goes to the fallback. -/
def fallenBackAt (t : ℕ) : List Moment :=
  [⟨fromSecs t, .start "k"⟩, ⟨fromSecs t, .script 0⟩, ⟨fromSecs t, .deliver 0⟩,
    ⟨fromSecs t, .recordFallback 0 false true (fromSecs t) .stored⟩]

/-- A request asks Redis at a second. -/
def askedAt (t : ℕ) : List Moment :=
  [⟨fromSecs t, .start "k"⟩, ⟨fromSecs t, .script 0⟩, ⟨fromSecs t, .deliver 0⟩]

/-- **A `record` that does not reach Redis wedges the circuit.**  A failure opens it for ten
seconds.  The probe that is let in then succeeds, but its `record` has no connection: Redis
counts one probe, and none is under way.  Requests are turned away from then on, and each
renews the time to live of the key, seventy seconds. -/
theorem record_in_fallback_wedges :
    let wallClock (now : ℤ) : ℤ := now / 1000000
    let s := run (uncached.sharedStep wallClock) (.start (.new 1 (fromSecs 10) 0) 0)
      (failedAt 0 ++ fallenBackAt 10)
    let later := run (uncached.sharedStep wallClock) s (askedAt 70 ++ askedAt 130 ++ askedAt 190)
    num (hashOf "noxy:k" s.redis) "state" = 2 ∧
      num (hashOf "noxy:k" s.redis) "in_flight" = 1 ∧ s.flights = [] ∧
      num (hashOf "noxy:k" later.redis) "state" = 2 ∧
      num (hashOf "noxy:k" later.redis) "in_flight" = 1 ∧ later.flights = [] ∧
      (uncached.checkScript "k" 250000 later.redis).1 = -2 := by
  decide +kernel

end RedisCircuitBreakerStore
end CircuitBreaker
end Noxy

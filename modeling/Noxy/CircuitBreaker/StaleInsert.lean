/-
# When the local cache hides a trip

`src/middleware/circuit_breaker.rs`: the documentation of `RedisCircuitBreakerStore` says
that `record` "invalidates the local cache entry so the same instance sees state changes
immediately".  The entry is removed after the script of `record` has run.  A `check` whose
script ran before that, and found the circuit closed, may insert its reply after the
removal; from then on, and for the whole time to live of the cache, requests are let
through although the circuit is open (`stale_insert_hides_trip`).

Until its deadline an open circuit stays open in Redis whatever scripts run
(`Noxy.CircuitBreaker.OpenInRedis`), so no script lets a request through, and only the
cache can.  `trip_visible_iff` is exact: once a `record` that has opened a circuit has
returned, no check is decided in favour of its request before the deadline, whatever
happens, if and only if at its return no `check` of the key holds a reply from before the
trip, or the cache keeps nothing, or the deadline has passed.
-/

import Noxy.CircuitBreaker.OpenInRedis
import Noxy.Lib.Run

namespace Noxy
namespace CircuitBreaker

open Lib Redis Store

namespace RedisCircuitBreakerStore

variable {store : RedisCircuitBreakerStore} {clock : ℤ → ℤ} {k : String} {d t : ℤ}
  {s : Instance} {x : Tick} {ttl : ℕ}

/-! ### Until the `record` returns -/

/-- The circuits that the `record`s under way have opened are open until their deadline. -/
def TripsOpen (store : RedisCircuitBreakerStore) (clock : ℤ → ℤ) (s : Instance) (t : ℤ) : Prop :=
  ∀ k d, (⟨k, some d⟩ : RecordFuture) ∈ s.records → clock t < d →
    store.OpenUntil k d (clock t) s.redis

theorem TripsOpen.step (hclock : ∀ a b, a ≤ b → clock a ≤ clock b) (h : store.TripsOpen clock s t)
    (ht : t ≤ x.now) : store.TripsOpen clock (store.step clock s x) x.now := by
  intro k d hmem hd
  rcases mem_records_step hmem with hmem | ⟨success, hredis, htripped⟩
  · exact (h k d hmem ((hclock _ _ ht).trans_lt hd)).step clock x (hclock _ _ ht) hd
  · rw [hredis]
    exact openUntil_tripped htripped

theorem TripsOpen.run (hclock : ∀ a b, a ≤ b → clock a ≤ clock b) {xs : List Tick} {now : ℤ}
    (h : store.TripsOpen clock s t) (hsorted : (t :: (xs.map Tick.now ++ [now])).Pairwise (· ≤ ·)) :
    store.TripsOpen clock (run (store.step clock) s xs) now := by
  induction xs generalizing s t with
  | nil =>
      have ht : t ≤ now := (List.pairwise_cons.mp hsorted).1 now (by simp)
      intro k d hmem hd
      exact (h k d hmem ((hclock _ _ ht).trans_lt hd)).mono (hclock _ _ ht)
  | cons x xs ih =>
      rw [List.pairwise_cons] at hsorted
      exact ih (h.step hclock (hsorted.1 x.now (by simp))) hsorted.2

/-! ### After it has returned -/

/-- The step is not that of a `check` which asks the fallback. -/
def Tick.viaRedis (x : Tick) : Bool :=
  match x.event with
  | .checkFallback .. => false
  | _ => true

/-- A `check` of `k` that the step decides before the deadline is not let through. -/
def ShutBefore (store : RedisCircuitBreakerStore) (clock : ℤ → ℤ) (k : String) (d : ℤ)
    (s : Instance) (x : Tick) : Prop :=
  clock x.now < d → store.decided clock s x ≠ some (k, .allow)

/-- From `now` on, and before the deadline, no `check` of `k` is let through, in whatever
order the futures take their steps, if none of them has to ask the fallback. -/
def TripVisible (store : RedisCircuitBreakerStore) (clock : ℤ → ℤ) (k : String) (d : ℤ)
    (s : Instance) (now : ℤ) : Prop :=
  ∀ post : List Tick, (now :: post.map Tick.now).Pairwise (· ≤ ·) →
    (∀ x ∈ post, Tick.viaRedis x = true) →
      Along (store.step clock) (store.ShutBefore clock k d) s post

/-- The circuit is open, and neither the cache nor a reply that is still to be cached says
otherwise. -/
structure Sealed (store : RedisCircuitBreakerStore) (clock : ℤ → ℤ) (k : String) (d : ℤ) (ttl : ℕ)
    (s : Instance) (t : ℤ) : Prop where
  redis : store.OpenUntil k d (clock t) s.redis
  cache : ∀ entry, s.cache.entries.lookup k = some entry →
    entry.action = .reject ∨ entry.expiresAt ≤ t
  checks : CheckFuture.replied k 0 ∈ s.checks → ttl = 0

/-- **A step before the deadline** keeps it so. -/
theorem Sealed.step (h : store.Sealed clock k d ttl s t) (httl : store.cacheTtl = some ttl)
    (hclock : ∀ a b, a ≤ b → clock a ≤ clock b) (ht : t ≤ x.now) (hd : clock x.now < d) :
    store.Sealed clock k d ttl (store.step clock s x) x.now := by
  refine ⟨h.redis.step clock x (hclock _ _ ht) hd, fun entry hentry => ?_, fun hmem => ?_⟩
  · rcases lookup_cache_step httl hentry with hold | ⟨i, code, -, hi, ⟨rfl, rfl⟩ | ⟨-, rfl⟩⟩
    · exact (h.cache entry hold).imp id fun hexpired => hexpired.trans ht
    · have hzero := h.checks (List.mem_of_getElem? hi)
      refine Or.inr ?_
      dsimp only
      omega
    · exact Or.inl rfl
  · rcases mem_checks_step hmem with hmem | hcode
    · exact h.checks hmem
    · have := h.redis.code hd
      omega

/-- A `check` that is decided before the deadline is rejected. -/
theorem Sealed.shut (h : store.Sealed clock k d ttl s t) (ht : t ≤ x.now)
    (hvia : Tick.viaRedis x = true) : store.ShutBefore clock k d s x := by
  intro hd hdecided
  unfold decided at hdecided
  split at hdecided
  · rename_i key hevent
    split at hdecided
    · cases hdecided
    · obtain ⟨action, hhit, heq⟩ := Option.map_eq_some_iff.mp hdecided
      obtain ⟨rfl, rfl⟩ := Prod.mk.inj heq
      rw [hit_maybeCleanup] at hhit
      obtain ⟨entry, hlookup, hlive, haction⟩ := hit_eq_some_iff.mp hhit
      rcases h.cache entry hlookup with hreject | hexpired
      · rw [hreject] at haction
        cases haction
      · omega
  · split at hdecided
    · rename_i i key hi
      obtain ⟨rfl, hallow⟩ := Prod.mk.inj (Option.some.inj hdecided)
      rw [h.redis.code hd, action, if_pos (Or.inl (by omega))] at hallow
      cases hallow
    · cases hdecided
  · rename_i hevent
    simp [Tick.viaRedis, hevent] at hvia
  · cases hdecided

/-- When the deadline has passed there is nothing to show. -/
theorem tripVisible_of_le (hclock : ∀ a b, a ≤ b → clock a ≤ clock b) (hd : d ≤ clock t)
    (s : Instance) : store.TripVisible clock k d s t := by
  intro post hsorted _
  refine along_of_forall (fun s x hx hlt => absurd hlt ?_) s
  have hlater := (List.pairwise_cons.mp hsorted).1 x.now (List.mem_map_of_mem hx)
  exact not_lt.mpr (hd.trans (hclock _ _ hlater))

/-- **A run** from such a state lets no `check` through before the deadline. -/
theorem Sealed.tripVisible (h : store.Sealed clock k d ttl s t)
    (httl : store.cacheTtl = some ttl) (hclock : ∀ a b, a ≤ b → clock a ≤ clock b) :
    store.TripVisible clock k d s t := by
  intro post hsorted hvia
  induction post generalizing s t with
  | nil => trivial
  | cons x post ih =>
      rw [List.map_cons, List.pairwise_cons] at hsorted
      have ht : t ≤ x.now := hsorted.1 x.now (List.mem_cons_self ..)
      have hrest : ∀ y ∈ post, Tick.viaRedis y = true := fun y hy =>
        hvia y (List.mem_cons_of_mem _ hy)
      refine ⟨h.shut ht (hvia x (List.mem_cons_self ..)), ?_⟩
      rcases lt_or_ge (clock x.now) d with hd | hd
      · exact ih (h.step httl hclock ht hd) hsorted.2 hrest
      · exact tripVisible_of_le hclock hd _ post hsorted.2 hrest

/-- What is inserted into the cache is found there at once, if it is kept for any time. -/
theorem hit_insert (entries : HashMap String CachedEntry) (nextCleanup : ℤ) (key : String)
    (action : CircuitAction) {now : ℤ} (httl : 0 < ttl) :
    (LocalCache.maybeCleanup ⟨entries.insert key ⟨action, now + ttl⟩, nextCleanup⟩ now).hit key
      now = some action := by
  rw [hit_maybeCleanup]
  refine hit_eq_some_iff.mpr ⟨_, AList.lookup_insert _, ?_, rfl⟩
  dsimp only
  omega

/-- A `check` that holds a reply from before the trip caches it, and the next one finds it
there: when trips are visible no `check` does. -/
theorem TripVisible.replied_notMem (h : store.TripVisible clock k d s t)
    (httl : store.cacheTtl = some ttl) (hpos : 0 < ttl) (hd : clock t < d) :
    CheckFuture.replied k 0 ∉ s.checks := by
  intro hmem
  obtain ⟨j, hj⟩ := List.mem_iff_getElem?.mp hmem
  obtain ⟨-, hshut, -⟩ := h [⟨t, .checkInsert j⟩, ⟨t, .lookup k⟩] (by simp)
    (by simp [Tick.viaRedis])
  refine hshut hd ?_
  simp only [step, hj, cacheReply, httl, decided, if_true]
  rw [hit_insert _ _ k _ hpos]
  rfl

/-- **When a trip is visible to its own instance.**  From a new store, after any steps of any
futures, when a `record` that has opened the circuit of `k` until `d` returns at `now`:
no `check` of `k` is decided for its request after that and before the deadline, whatever
steps follow, exactly if the cache keeps nothing, or the deadline has passed, or no
`check` of `k` holds the reply that the circuit is closed. -/
theorem trip_visible_iff (store : RedisCircuitBreakerStore)
    (hclock : ∀ a b, a ≤ b → clock a ≤ clock b)
    (httl : store.cacheTtl = some ttl) (redis : Db (Hash ℤ)) (fallback : SharedState)
    {created now : ℤ} {pre : List Tick} {i : ℕ}
    (hsorted : (created :: (pre.map Tick.now ++ [now])).Pairwise (· ≤ ·))
    (hi : (run (store.step clock) (start redis fallback created) pre).records[i]? =
      some ⟨k, some d⟩) :
    store.TripVisible clock k d
        (store.step clock (run (store.step clock) (start redis fallback created) pre)
          ⟨now, .recordRemove i⟩) now ↔
      ttl = 0 ∨ d ≤ clock now ∨ CheckFuture.replied k 0 ∉
        (run (store.step clock) (start redis fallback created) pre).checks := by
  have htrips : store.TripsOpen clock (start redis fallback created) created := by
    intro k d hmem
    exact absurd hmem List.not_mem_nil
  have hopen := htrips.run hclock hsorted k d (List.mem_of_getElem? hi)
  generalize run (store.step clock) (start redis fallback created) pre = s at hi hopen ⊢
  have hstep : store.step clock s ⟨now, .recordRemove i⟩ =
      { s with
        cache := { s.cache with entries := s.cache.entries.erase k }
        records := s.records.eraseIdx i } := by
    simp only [step, hi, uncache, httl]
  rw [hstep]
  constructor
  · intro hvisible
    rcases Nat.eq_zero_or_pos ttl with hzero | hpos
    · exact Or.inl hzero
    · rcases lt_or_ge (clock now) d with hd | hd
      · exact Or.inr (Or.inr (hvisible.replied_notMem httl hpos hd))
      · exact Or.inr (Or.inl hd)
  · intro hcond
    rcases lt_or_ge (clock now) d with hd | hd
    · refine Sealed.tripVisible ⟨hopen hd, fun entry hentry => ?_, fun hmem => ?_⟩ httl hclock
      · exact absurd ((AList.lookup_erase _ _).symm.trans hentry) (by simp)
      · rcases hcond with hzero | hpast | hnone
        · exact hzero
        · omega
        · exact absurd hmem hnone
    · exact tripVisible_of_le hclock hd _

/-- A circuit that opens at its first failure for thirty seconds, cached for one second. -/
def cached : RedisCircuitBreakerStore :=
  ⟨1, fromSecs 30, 1, some (fromSecs 1), fun key => "noxy:" ++ key⟩

/-- Redis has the time of the machine, in milliseconds. -/
def wallClock (now : ℤ) : ℤ := now / 1000000

/-- A `check` has run its script when a failure opens the circuit. -/
def overlap : List Tick :=
  [⟨0, .lookup "k"⟩, ⟨1000000, .checkScript 0⟩, ⟨2000000, .recordScript "k" false⟩]

/-- The hypotheses of `trip_visible_iff` are met by a `check` and a `record` that
overlap. -/
theorem trip_visible_overlap :
    let s := run (cached.step wallClock) (start ∅ (.new 1 (fromSecs 30) 0) 0) overlap
    cached.TripVisible wallClock "k" 30002 (cached.step wallClock s ⟨3000000, .recordRemove 0⟩)
        3000000 ↔
      fromSecs 1 = 0 ∨ 30002 ≤ wallClock 3000000 ∨ CheckFuture.replied "k" 0 ∉ s.checks :=
  trip_visible_iff cached (fun _ _ h => Int.ediv_le_ediv (by decide) h) rfl ∅
    (.new 1 (fromSecs 30) 0) (by decide) rfl

/-- **A stale insert hides a trip.**  The `record` has opened the circuit until millisecond
30002 and returns at 3 ms.  The `check` that was answered at 1 ms caches its reply at
4 ms, and the one that starts at 5 ms is let through. -/
theorem stale_insert_hides_trip :
    let s := run (cached.step wallClock) (start ∅ (.new 1 (fromSecs 30) 0) 0) overlap
    s.records[0]? = some ⟨"k", some 30002⟩ ∧
      cached.decided wallClock
        (run (cached.step wallClock) s [⟨3000000, .recordRemove 0⟩, ⟨4000000, .checkInsert 0⟩])
        ⟨5000000, .lookup "k"⟩ = some ("k", .allow) := by
  decide +kernel

end RedisCircuitBreakerStore
end CircuitBreaker
end Noxy

/-
# The local cache of the Redis circuit breaker

`src/middleware/circuit_breaker.rs`: `CachedEntry`, `LocalCache`, and `check` and `record`
of `RedisCircuitBreakerStore` with all their branches.

The futures of `check` and `record` suspend when they talk to Redis, and the mutex of the
cache is free meanwhile.  Between two suspensions a future does one thing that others can
see: a `check` looks the key up in the cache, then runs its script or falls back to the
in-memory store, then inserts what the script replied into the cache; a `record` runs its
script or falls back, then removes the key from the cache.  An `Instance` is what the
futures of one store share and the futures that have not returned, and a run is a sequence
of such steps of any futures, in any order (`CacheEvent`).

Local time is in nanoseconds, the time of Redis in milliseconds, and `clock` says what time
it is there.  A `record` carries one thing that the code has not: the deadline, when its
script has opened the circuit.
-/

import Noxy.CircuitBreaker.Redis

namespace Noxy
namespace CircuitBreaker

open Lib Redis Store

/-- `CachedEntry`. -/
structure CachedEntry where
  action : CircuitAction
  expiresAt : ℤ
  deriving DecidableEq, Repr

/-- `LocalCache`. -/
structure LocalCache where
  entries : HashMap String CachedEntry
  nextCleanup : ℤ

namespace LocalCache

/-- `LocalCache::new` at the instant `now`. -/
def new (now : ℤ) : LocalCache := ⟨∅, now + CLEANUP_INTERVAL⟩

/-- `LocalCache::maybe_cleanup`. -/
def maybeCleanup (cache : LocalCache) (now : ℤ) : LocalCache :=
  let swept := Store.maybeCleanup (CLEANUP_INTERVAL : ℤ)
    (fun entry : CachedEntry => decide (now < entry.expiresAt)) now cache.nextCleanup cache.entries
  ⟨swept.1, swept.2⟩

/-- The action of the key's entry, if there is one that has not expired. -/
def hit (cache : LocalCache) (key : String) (now : ℤ) : Option CircuitAction :=
  ((cache.entries.lookup key).filter fun entry => decide (now < entry.expiresAt)).map
    CachedEntry.action

end LocalCache

/-- A `check` that has not returned. -/
inductive CheckFuture where
  /-- Nothing was cached for its key. -/
  | missed (key : String)
  /-- Its script has replied. -/
  | replied (key : String) (code : ℤ)
  deriving DecidableEq, Repr

/-- A `record` that has yet to remove its key from the cache.  `tripped`: its script moved
the circuit to open, until that deadline. -/
structure RecordFuture where
  key : String
  tripped : Option ℤ
  deriving DecidableEq, Repr

/-- What the futures of one store share, and those that have not returned. -/
structure Instance where
  redis : Db (Hash ℤ)
  cache : LocalCache
  fallback : SharedState
  checks : List CheckFuture
  records : List RecordFuture

/-- A step of a future.  A future that has been started is named by its position among
those that have not returned. -/
inductive CacheEvent where
  /-- A `check` starts and looks into the cache. -/
  | lookup (key : String)
  /-- A `check` runs its script. -/
  | checkScript (i : ℕ)
  /-- A `check` inserts the reply into the cache, if it is one to be cached, and returns. -/
  | checkInsert (i : ℕ)
  /-- A `check` has no connection, or its script fails: it asks the fallback and returns. -/
  | checkFallback (i : ℕ) (later : ℤ) (order : IterOrder String CircuitEntry)
  /-- A `record` runs its script. -/
  | recordScript (key : String) (success : Bool)
  /-- A `record` runs its script, but the reply is lost, so it tells the fallback too. -/
  | recordLost (key : String) (success : Bool) (later : ℤ) (order : IterOrder String CircuitEntry)
  /-- A `record` whose script fails tells the fallback. -/
  | recordFallback (key : String) (success : Bool) (later : ℤ)
      (order : IterOrder String CircuitEntry)
  /-- A `record` that has no connection tells the fallback and returns. -/
  | recordUnconnected (key : String) (success : Bool) (later : ℤ)
      (order : IterOrder String CircuitEntry)
  /-- A `record` removes its key from the cache and returns. -/
  | recordRemove (i : ℕ)

/-- A step at an instant. -/
structure Tick where
  now : ℤ
  event : CacheEvent

/-- The deadline, when a script has moved a circuit to open. -/
def trippedUntil (before after : Hash ℤ) : Option ℤ :=
  if num before "state" ≠ 1 ∧ num after "state" = 1 then some (num after "until_ms") else none

/-- `Duration::from_millis`. -/
def fromMillis (n : ℕ) : ℕ := n * 1000000

namespace RedisCircuitBreakerStore

variable (store : RedisCircuitBreakerStore) (clock : ℤ → ℤ)

/-- The hash of a key, at a time of Redis. -/
def hashAt (key : String) (nowMs : ℤ) (db : Db (Hash ℤ)) : Hash ℤ :=
  (valueOf (store.redisKey key) (elapse nowMs db)).getD ∅

/-- What `check` does to the cache when its script has replied. -/
def cacheReply (cache : LocalCache) (key : String) (code now : ℤ) : LocalCache :=
  match store.cacheTtl with
  | none => cache
  | some ttl =>
      if code = 0 then
        { cache with entries := cache.entries.insert key ⟨action code, now + ttl⟩ }
      else if 0 < code then
        { cache with
          entries := cache.entries.insert key
            ⟨action code, now + (min ttl (fromMillis code.toNat) : ℕ)⟩ }
      else cache

/-- What `record` does to the cache at its end. -/
def uncache (cache : LocalCache) (key : String) : LocalCache :=
  match store.cacheTtl with
  | none => cache
  | some _ => { cache with entries := cache.entries.erase key }

/-- The script of a `record` that then has its key to remove from the cache. -/
def runRecord (s : Instance) (key : String) (success : Bool) (nowMs : ℤ) : Instance :=
  let redis := store.recordScript key success nowMs s.redis
  let tripped := trippedUntil (store.hashAt key nowMs s.redis) (store.hashAt key nowMs redis)
  { s with redis := redis, records := s.records ++ [⟨key, tripped⟩] }

/-- The instance after a step. -/
def step (s : Instance) (x : Tick) : Instance :=
  match x.event with
  | .lookup key =>
      match store.cacheTtl with
      | none => { s with checks := s.checks ++ [.missed key] }
      | some _ =>
          let cache := s.cache.maybeCleanup x.now
          match cache.hit key x.now with
          | some _ => { s with cache := cache }
          | none => { s with cache := cache, checks := s.checks ++ [.missed key] }
  | .checkScript i =>
      match s.checks[i]? with
      | some (.missed key) =>
          let (code, redis) := store.checkScript key (clock x.now) s.redis
          { s with redis := redis, checks := s.checks.set i (.replied key code) }
      | _ => s
  | .checkInsert i =>
      match s.checks[i]? with
      | some (.replied key code) =>
          { s with
            cache := store.cacheReply s.cache key code x.now
            checks := s.checks.eraseIdx i }
      | _ => s
  | .checkFallback i later order =>
      match s.checks[i]? with
      | some (.missed key) =>
          { s with
            fallback := (s.fallback.check order key x.now later).2
            checks := s.checks.eraseIdx i }
      | _ => s
  | .recordScript key success => store.runRecord s key success (clock x.now)
  | .recordLost key success later order =>
      let s := store.runRecord s key success (clock x.now)
      { s with fallback := s.fallback.record order key success x.now later }
  | .recordFallback key success later order =>
      { s with
        fallback := s.fallback.record order key success x.now later
        records := s.records ++ [⟨key, none⟩] }
  | .recordUnconnected key success later order =>
      { s with fallback := s.fallback.record order key success x.now later }
  | .recordRemove i =>
      match s.records[i]? with
      | some r =>
          { s with cache := store.uncache s.cache r.key, records := s.records.eraseIdx i }
      | none => s

/-- The key and the action of a `check` that the step decides: by a hit in the cache, by its
script or by the fallback. -/
def decided (s : Instance) (x : Tick) : Option (String × CircuitAction) :=
  match x.event with
  | .lookup key =>
      match store.cacheTtl with
      | none => none
      | some _ => ((s.cache.maybeCleanup x.now).hit key x.now).map fun action => (key, action)
  | .checkScript i =>
      match s.checks[i]? with
      | some (.missed key) => some (key, action (store.checkScript key (clock x.now) s.redis).1)
      | _ => none
  | .checkFallback i later order =>
      match s.checks[i]? with
      | some (.missed key) => some (key, (s.fallback.check order key x.now later).1)
      | _ => none
  | _ => none

/-- A store that has just been created, with any fallback, at any database. -/
def start (redis : Db (Hash ℤ)) (fallback : SharedState) (now : ℤ) : Instance :=
  ⟨redis, .new now, fallback, [], []⟩

end RedisCircuitBreakerStore
end CircuitBreaker
end Noxy

/-
# What a step of the cached circuit breaker can do

`Noxy.CircuitBreaker.LocalCache` has nine kinds of steps.  What they do to each part of an
instance is said here once: to the database (`redis_step`), to the cache
(`lookup_cache_step`), to the `check`s that have not returned (`mem_checks_step`) and to
the `record`s (`mem_records_step`).  Only three things matter later: a script is the only
way the database changes, an entry of the cache is made of the reply that a `check` holds,
and a reply is held from the script on.
-/

import Noxy.CircuitBreaker.LocalCache

namespace Noxy
namespace CircuitBreaker

open Lib Redis Store

namespace RedisCircuitBreakerStore

variable {store : RedisCircuitBreakerStore} {clock : ℤ → ℤ} {s : Instance} {x : Tick}

/-- **A step and the database**: it is left alone, or a script has run. -/
theorem redis_step (store : RedisCircuitBreakerStore) (clock : ℤ → ℤ) (s : Instance) (x : Tick) :
    (store.step clock s x).redis = s.redis ∨
      (∃ key, (store.step clock s x).redis =
        (store.checkScript key (clock x.now) s.redis).2) ∨
      ∃ key success, (store.step clock s x).redis =
        store.recordScript key success (clock x.now) s.redis := by
  obtain ⟨now, event⟩ := x
  unfold step
  cases event with
  | lookup key =>
      dsimp only
      split
      · exact Or.inl rfl
      · split <;> exact Or.inl rfl
  | checkScript i =>
      dsimp only
      split
      · exact Or.inr (Or.inl ⟨_, rfl⟩)
      · exact Or.inl rfl
  | checkInsert i =>
      dsimp only
      split <;> exact Or.inl rfl
  | checkFallback i later order =>
      dsimp only
      split <;> exact Or.inl rfl
  | recordScript key success => exact Or.inr (Or.inr ⟨key, success, rfl⟩)
  | recordLost key success later order => exact Or.inr (Or.inr ⟨key, success, rfl⟩)
  | recordFallback key success later order => exact Or.inl rfl
  | recordUnconnected key success later order => exact Or.inl rfl
  | recordRemove i =>
      dsimp only
      split <;> exact Or.inl rfl

/-- An entry that is there after a cleanup was there before it. -/
theorem lookup_of_maybeCleanup {cache : LocalCache} {now : ℤ} {k : String} {entry : CachedEntry}
    (h : (cache.maybeCleanup now).entries.lookup k = some entry) :
    cache.entries.lookup k = some entry :=
  lookup_of_kept (lookup_maybeCleanup (CLEANUP_INTERVAL : ℤ) _ now _ cache.entries k) h

/-- A cleanup does not change what is found: it drops entries that have expired. -/
theorem hit_maybeCleanup (cache : LocalCache) (key : String) (now : ℤ) :
    (cache.maybeCleanup now).hit key now = cache.hit key now := by
  unfold LocalCache.hit LocalCache.maybeCleanup Store.maybeCleanup
  split
  · rfl
  · dsimp only
    rw [HashMap.lookup_retain, Option.filter_filter]
    simp

/-- What is found is an entry that has not expired. -/
theorem hit_eq_some_iff {cache : LocalCache} {key : String} {now : ℤ} {action : CircuitAction} :
    cache.hit key now = some action ↔ ∃ entry, cache.entries.lookup key = some entry ∧
      now < entry.expiresAt ∧ entry.action = action := by
  simp [LocalCache.hit, and_assoc]

/-- What `check` caches for `k`: an action that lets requests through for a closed circuit,
for the whole time to live, and one that rejects them for an open one, for no longer than it
has replied. -/
theorem lookup_cacheReply {ttl : ℕ} (httl : store.cacheTtl = some ttl) {cache : LocalCache}
    {key k : String} {code now : ℤ} {entry : CachedEntry}
    (h : (store.cacheReply cache key code now).entries.lookup k = some entry) :
    cache.entries.lookup k = some entry ∨ key = k ∧
      (code = 0 ∧ entry = ⟨.allow, now + ttl⟩ ∨
        0 < code ∧ entry = ⟨.reject, now + (min ttl (fromMillis code.toNat) : ℕ)⟩) := by
  unfold cacheReply at h
  rw [httl] at h
  dsimp only at h
  split at h
  · rename_i hcode
    by_cases hk : k = key
    · subst hk
      obtain rfl := Option.some.inj ((AList.lookup_insert _).symm.trans h)
      refine Or.inr ⟨rfl, Or.inl ⟨hcode, ?_⟩⟩
      rw [hcode]
      rfl
    · exact Or.inl ((AList.lookup_insert_ne hk).symm.trans h)
  · split at h
    · rename_i hcode
      by_cases hk : k = key
      · subst hk
        obtain rfl := Option.some.inj ((AList.lookup_insert _).symm.trans h)
        refine Or.inr ⟨rfl, Or.inr ⟨hcode, ?_⟩⟩
        rw [action, if_pos (Or.inl hcode)]
      · exact Or.inl ((AList.lookup_insert_ne hk).symm.trans h)
    · exact Or.inl h

/-- **A step and the cache**: an entry was there before, or a `check` has inserted the reply
that it holds. -/
theorem lookup_cache_step {ttl : ℕ} (httl : store.cacheTtl = some ttl) {k : String}
    {entry : CachedEntry} (h : (store.step clock s x).cache.entries.lookup k = some entry) :
    s.cache.entries.lookup k = some entry ∨
      ∃ i code, x.event = .checkInsert i ∧ s.checks[i]? = some (.replied k code) ∧
        (code = 0 ∧ entry = ⟨.allow, x.now + ttl⟩ ∨
          0 < code ∧ entry = ⟨.reject, x.now + (min ttl (fromMillis code.toNat) : ℕ)⟩) := by
  obtain ⟨now, event⟩ := x
  unfold step at h
  cases event with
  | lookup key =>
      dsimp only at h
      split at h
      · exact Or.inl h
      · split at h <;> exact Or.inl (lookup_of_maybeCleanup h)
  | checkScript i =>
      dsimp only at h
      split at h <;> exact Or.inl h
  | checkInsert i =>
      dsimp only at h
      split at h
      · rename_i key code hi
        rcases lookup_cacheReply httl h with h | ⟨rfl, hentry⟩
        · exact Or.inl h
        · exact Or.inr ⟨i, code, rfl, hi, hentry⟩
      · exact Or.inl h
  | checkFallback i later order =>
      dsimp only at h
      split at h <;> exact Or.inl h
  | recordScript key success => exact Or.inl h
  | recordLost key success later order => exact Or.inl h
  | recordFallback key success later order => exact Or.inl h
  | recordUnconnected key success later order => exact Or.inl h
  | recordRemove i =>
      dsimp only at h
      split at h
      · rename_i r hi
        unfold uncache at h
        rw [httl] at h
        by_cases hk : k = r.key
        · subst hk
          exact absurd ((AList.lookup_erase _ _).symm.trans h) (by simp)
        · exact Or.inl ((AList.lookup_erase_ne hk).symm.trans h)
      · exact Or.inl h

/-- **A step and the `check`s**: one that holds a reply held it before, or its script has
just run. -/
theorem mem_checks_step {k : String} {code : ℤ}
    (h : CheckFuture.replied k code ∈ (store.step clock s x).checks) :
    CheckFuture.replied k code ∈ s.checks ∨
      code = (store.checkScript k (clock x.now) s.redis).1 := by
  obtain ⟨now, event⟩ := x
  unfold step at h
  cases event with
  | lookup key =>
      dsimp only at h
      split at h
      · exact Or.inl (by simpa using h)
      · split at h
        · exact Or.inl h
        · exact Or.inl (by simpa using h)
  | checkScript i =>
      dsimp only at h
      split at h
      · rename_i key hi
        rcases List.mem_or_eq_of_mem_set h with h | h
        · exact Or.inl h
        · obtain ⟨rfl, rfl⟩ := CheckFuture.replied.inj h
          exact Or.inr rfl
      · exact Or.inl h
  | checkInsert i =>
      dsimp only at h
      split at h
      · exact Or.inl (List.mem_of_mem_eraseIdx h)
      · exact Or.inl h
  | checkFallback i later order =>
      dsimp only at h
      split at h
      · exact Or.inl (List.mem_of_mem_eraseIdx h)
      · exact Or.inl h
  | recordScript key success => exact Or.inl h
  | recordLost key success later order => exact Or.inl h
  | recordFallback key success later order => exact Or.inl h
  | recordUnconnected key success later order => exact Or.inl h
  | recordRemove i =>
      dsimp only at h
      split at h <;> exact Or.inl h

/-- A script has opened its circuit, or the `record` had done so before. -/
theorem mem_records_runRecord {key k : String} {success : Bool} {nowMs d : ℤ}
    (h : (⟨k, some d⟩ : RecordFuture) ∈ (store.runRecord s key success nowMs).records) :
    (⟨k, some d⟩ : RecordFuture) ∈ s.records ∨ key = k ∧
      trippedUntil (store.hashAt k nowMs s.redis)
        (store.hashAt k nowMs (store.recordScript k success nowMs s.redis)) = some d := by
  rcases List.mem_append.mp h with h | h
  · exact Or.inl h
  · obtain ⟨rfl, htripped⟩ := RecordFuture.mk.inj (List.mem_singleton.mp h)
    exact Or.inr ⟨rfl, htripped.symm⟩

/-- **A step and the `record`s**: one that has opened its circuit had done so before, or its
script has just done it. -/
theorem mem_records_step {k : String} {d : ℤ}
    (h : (⟨k, some d⟩ : RecordFuture) ∈ (store.step clock s x).records) :
    (⟨k, some d⟩ : RecordFuture) ∈ s.records ∨
      ∃ success, (store.step clock s x).redis =
          store.recordScript k success (clock x.now) s.redis ∧
        trippedUntil (store.hashAt k (clock x.now) s.redis) (store.hashAt k (clock x.now)
          (store.recordScript k success (clock x.now) s.redis)) = some d := by
  obtain ⟨now, event⟩ := x
  unfold step at h
  cases event with
  | lookup key =>
      dsimp only at h
      split at h
      · exact Or.inl h
      · split at h <;> exact Or.inl h
  | checkScript i =>
      dsimp only at h
      split at h <;> exact Or.inl h
  | checkInsert i =>
      dsimp only at h
      split at h <;> exact Or.inl h
  | checkFallback i later order =>
      dsimp only at h
      split at h <;> exact Or.inl h
  | recordScript key success =>
      rcases mem_records_runRecord h with h | ⟨rfl, htripped⟩
      · exact Or.inl h
      · exact Or.inr ⟨success, rfl, htripped⟩
  | recordLost key success later order =>
      rcases mem_records_runRecord h with h | ⟨rfl, htripped⟩
      · exact Or.inl h
      · exact Or.inr ⟨success, rfl, htripped⟩
  | recordFallback key success later order =>
      rcases List.mem_append.mp h with h | h
      · exact Or.inl h
      · exact absurd (RecordFuture.mk.inj (List.mem_singleton.mp h)).2 (by simp)
  | recordUnconnected key success later order => exact Or.inl h
  | recordRemove i =>
      dsimp only at h
      split at h
      · exact Or.inl (List.mem_of_mem_eraseIdx h)
      · exact Or.inl h

end RedisCircuitBreakerStore
end CircuitBreaker
end Noxy

/-
# Requests over Redis and the fallback

`src/middleware/circuit_breaker.rs`: `CircuitBreakerService::call` over
`RedisCircuitBreakerStore`, whose `check` and `record` go to the in-memory fallback when Redis
fails them.

A request asks Redis, or is answered by the cache; it is let in or turned away; it awaits the
service inside; and it records how that ended (`Stage`).  Each call to Redis can fail on its
own: there is no connection, the script does not run, or it runs and its reply is lost.  Then
the fallback is asked, or told, instead.  A run is a sequence of such steps of any requests,
in any order, and each step has a time, at which the keys that have expired are gone.

A slot of a half-open circuit in Redis is taken by the script of a `check` and given back by
the script of a `record`.  `Stage.byRedis` says which requests the script let in, and
`step_effect` says what a step does to these and to Redis: nothing, one script of `check` or
of `record`, or a request that the script let in has left without a `record` there.
-/

import Noxy.CircuitBreaker.LocalCache
import Noxy.CircuitBreaker.Slots

namespace Noxy
namespace CircuitBreaker

open Lib Redis Store

/-- How far a request has come. -/
inductive Stage where
  /-- Its `check` has found nothing in the cache. -/
  | asking
  /-- The script of its `check` has replied. -/
  | replied (code : ℤ)
  /-- The script of its `check` has run, and the reply is lost. -/
  | lost (code : ℤ)
  /-- It was let in and awaits the service inside.  `byRedis`: the script let it in. -/
  | waiting (byRedis : Bool)
  /-- Its `record` has yet to remove the key from the cache. -/
  | recorded
  deriving DecidableEq, Repr

/-- The script of its `check` has let the request in. -/
def Stage.byRedis : Stage → Bool
  | .replied code | .lost code => RedisCircuitBreakerStore.action code == .allow
  | .waiting byRedis => byRedis
  | .asking | .recorded => false

/-- A request that has not ended. -/
structure Flight where
  key : String
  stage : Stage
  deriving DecidableEq, Repr

/-- What the requests share, and the requests. -/
structure Shared where
  redis : Db (Hash ℤ)
  cache : LocalCache
  fallback : SharedState
  flights : List Flight

/-- A step of a request. -/
inductive Step where
  /-- A `check` starts and looks into the cache. -/
  | start (key : String)
  /-- The script of a `check` runs and replies. -/
  | script (i : ℕ)
  /-- The script of a `check` runs, but the reply is lost. -/
  | scriptLost (i : ℕ)
  /-- A `check` acts on the reply. -/
  | deliver (i : ℕ)
  /-- A `check` has no connection, its script fails or the reply is lost: it asks the
  fallback. -/
  | checkFallback (i : ℕ) (later : ℤ) (order : IterOrder String CircuitEntry)
  /-- The service inside has answered, and the script of the `record` runs. -/
  | record (i : ℕ) (success : Bool)
  /-- The same, but the reply is lost, so the fallback is told too. -/
  | recordLost (i : ℕ) (success : Bool) (later : ℤ) (order : IterOrder String CircuitEntry)
  /-- The service inside has answered, but there is no connection for the `record`, or its
  script fails: the fallback is told. -/
  | recordFallback (i : ℕ) (connected success : Bool) (later : ℤ)
      (order : IterOrder String CircuitEntry)
  /-- A `record` removes its key from the cache. -/
  | uncache (i : ℕ)
  /-- The service inside has failed. -/
  | fail (i : ℕ)
  /-- The future of the request is dropped. -/
  | drop (i : ℕ)

/-- A step at an instant. -/
structure Moment where
  now : ℤ
  step : Step

/-- The hash of a Redis key; a missing one is empty. -/
def hashOf (k : String) (db : Db (Hash ℤ)) : Hash ℤ := (valueOf k db).getD ∅

namespace Shared

/-- Nothing in Redis, no requests, and any fallback. -/
def start (fallback : SharedState) (now : ℤ) : Shared := ⟨∅, .new now, fallback, []⟩

/-- A request enters a stage. -/
def enter (s : Shared) (i : ℕ) (f : Flight) : Shared := { s with flights := s.flights.set i f }

/-- A request ends. -/
def remove (s : Shared) (i : ℕ) : Shared := { s with flights := s.flights.eraseIdx i }

/-- Time has passed in Redis. -/
def elapsed (s : Shared) (nowMs : ℤ) : Shared := { s with redis := elapse nowMs s.redis }

end Shared

namespace RedisCircuitBreakerStore

variable (store : RedisCircuitBreakerStore) (clock : ℤ → ℤ)

/-- The start of a `check`. -/
def startCheck (s : Shared) (key : String) (now : ℤ) : Shared :=
  match store.cacheTtl with
  | none => { s with flights := s.flights ++ [⟨key, .asking⟩] }
  | some _ =>
      let cache := s.cache.maybeCleanup now
      match cache.hit key now with
      | some .allow => { s with cache := cache, flights := s.flights ++ [⟨key, .waiting false⟩] }
      | some .reject => { s with cache := cache }
      | none => { s with cache := cache, flights := s.flights ++ [⟨key, .asking⟩] }

/-- The script of a `check` runs for the request `i`, which goes on as `stage` says. -/
def checkFor (s : Shared) (i : ℕ) (key : String) (nowMs : ℤ) (stage : ℤ → Stage) : Shared :=
  let (code, redis) := store.checkScript key nowMs s.redis
  { s with redis := redis }.enter i ⟨key, stage code⟩

/-- A `check` acts on the reply. -/
def actOn (s : Shared) (i : ℕ) (key : String) (code now : ℤ) : Shared :=
  let s := { s with cache := store.cacheReply s.cache key code now }
  match action code with
  | .allow => s.enter i ⟨key, .waiting true⟩
  | .reject => s.remove i

/-- A `check` asks the fallback.  `byRedis`: its script has run, and let the request in. -/
def askFallback (s : Shared) (i : ℕ) (key : String) (byRedis : Bool) (now later : ℤ)
    (order : IterOrder String CircuitEntry) : Shared :=
  let (action, fallback) := s.fallback.check order key now later
  let s := { s with fallback := fallback }
  match action with
  | .allow => s.enter i ⟨key, .waiting byRedis⟩
  | .reject => s.remove i

/-- The script of a `record` runs for the request `i`. -/
def recordFor (s : Shared) (i : ℕ) (key : String) (success : Bool) (nowMs : ℤ) : Shared :=
  { s with redis := store.recordScript key success nowMs s.redis }.enter i ⟨key, .recorded⟩

/-- What the requests share after a step. -/
def sharedStep (s : Shared) (x : Moment) : Shared :=
  let nowMs := clock x.now
  match x.step with
  | .start key => store.startCheck (s.elapsed nowMs) key x.now
  | .script i =>
      match s.flights[i]? with
      | some ⟨key, .asking⟩ => store.checkFor s i key nowMs .replied
      | _ => s.elapsed nowMs
  | .scriptLost i =>
      match s.flights[i]? with
      | some ⟨key, .asking⟩ => store.checkFor s i key nowMs .lost
      | _ => s.elapsed nowMs
  | .deliver i =>
      match s.flights[i]? with
      | some ⟨key, .replied code⟩ => store.actOn (s.elapsed nowMs) i key code x.now
      | _ => s.elapsed nowMs
  | .checkFallback i later order =>
      match s.flights[i]? with
      | some ⟨key, .asking⟩ => askFallback (s.elapsed nowMs) i key false x.now later order
      | some ⟨key, .lost code⟩ =>
          askFallback (s.elapsed nowMs) i key (Stage.lost code).byRedis x.now later order
      | _ => s.elapsed nowMs
  | .record i success =>
      match s.flights[i]? with
      | some ⟨key, .waiting _⟩ => store.recordFor s i key success nowMs
      | _ => s.elapsed nowMs
  | .recordLost i success later order =>
      match s.flights[i]? with
      | some ⟨key, .waiting _⟩ =>
          let s := store.recordFor s i key success nowMs
          { s with fallback := s.fallback.record order key success x.now later }
      | _ => s.elapsed nowMs
  | .recordFallback i connected success later order =>
      match s.flights[i]? with
      | some ⟨key, .waiting _⟩ =>
          let s := s.elapsed nowMs
          let s := { s with fallback := s.fallback.record order key success x.now later }
          if connected then s.enter i ⟨key, .recorded⟩ else s.remove i
      | _ => s.elapsed nowMs
  | .uncache i =>
      match s.flights[i]? with
      | some ⟨key, .recorded⟩ =>
          { s.elapsed nowMs with cache := store.uncache s.cache key }.remove i
      | _ => s.elapsed nowMs
  | .fail i =>
      match s.flights[i]? with
      | some ⟨_, .waiting _⟩ => (s.elapsed nowMs).remove i
      | _ => s.elapsed nowMs
  | .drop i => (s.elapsed nowMs).remove i

/-- The request that a step ends without a `record` in Redis. -/
def leaving (s : Shared) (x : Moment) : Option Flight :=
  match x.step with
  | .checkFallback i later order =>
      (s.flights[i]?).bind fun f =>
        match f.stage with
        | .asking | .lost _ =>
            if (s.fallback.check order f.key x.now later).1 = .reject then some f else none
        | _ => none
  | .recordFallback i _ _ _ _ | .fail i =>
      (s.flights[i]?).bind fun f =>
        match f.stage with
        | .waiting _ => some f
        | _ => none
  | .drop i => s.flights[i]?
  | _ => none

/-- The request was let in by the script, and so has a slot of the Redis key `k`, if its
circuit is half open. -/
def hasSlot (k : String) (f : Flight) : Bool := f.stage.byRedis && decide (store.redisKey f.key = k)

/-- The number of requests that the script has let in and that have not ended. -/
def admittedByRedis (s : Shared) (k : String) : ℕ := s.flights.countP (store.hasSlot k)

variable {store} {clock}

/-- **What a step does** to Redis and to the requests that its scripts have let in. -/
inductive Effect (store : RedisCircuitBreakerStore) (nowMs : ℤ) (s s' : Shared) :
    Option Flight → Prop
  | quiet : s'.redis = elapse nowMs s.redis →
      (∀ k, store.admittedByRedis s' k = store.admittedByRedis s k) → Effect store nowMs s s' none
  | checked (key : String) : s'.redis = (store.checkScript key nowMs s.redis).2 →
      (∀ k, store.admittedByRedis s' k = store.admittedByRedis s k +
        if action (store.checkScript key nowMs s.redis).1 = .allow ∧ store.redisKey key = k
          then 1 else 0) →
      Effect store nowMs s s' none
  | recorded (key : String) (success : Bool) :
      s'.redis = store.recordScript key success nowMs s.redis →
      (∀ k, k ≠ store.redisKey key →
        store.admittedByRedis s' k = store.admittedByRedis s k) →
      Effect store nowMs s s' none
  | left (f : Flight) : s'.redis = elapse nowMs s.redis →
      (∀ k, store.admittedByRedis s k = store.admittedByRedis s' k +
        if store.hasSlot k f = true then 1 else 0) →
      Effect store nowMs s s' (some f)

section Counts

variable {s s' : Shared} {i : ℕ} {f g : Flight} {nowMs : ℤ}

/-- A request goes on, and holds a slot as before. -/
theorem quiet_enter (hi : s.flights[i]? = some f) (hredis : s'.redis = elapse nowMs s.redis)
    (hflights : s'.flights = s.flights.set i g)
    (hslot : ∀ k, store.hasSlot k g = store.hasSlot k f) :
    Effect store nowMs s s' none := by
  refine .quiet hredis fun k => ?_
  have hcount := countP_set_add (store.hasSlot k) hi g
  rw [hslot k] at hcount
  unfold admittedByRedis
  rw [hflights]
  omega

/-- A request without a slot ends. -/
theorem quiet_remove (hi : s.flights[i]? = some f) (hredis : s'.redis = elapse nowMs s.redis)
    (hflights : s'.flights = s.flights.eraseIdx i) (hslot : f.stage.byRedis = false) :
    Effect store nowMs s s' none := by
  refine .quiet hredis fun k => ?_
  have hcount := countP_eraseIdx_add (store.hasSlot k) hi
  have hno : store.hasSlot k f = false := by rw [hasSlot, hslot, Bool.false_and]
  rw [hno, if_neg Bool.false_ne_true] at hcount
  unfold admittedByRedis
  rw [hflights]
  exact hcount.symm

/-- A request ends. -/
theorem left_remove (hi : s.flights[i]? = some f) (hredis : s'.redis = elapse nowMs s.redis)
    (hflights : s'.flights = s.flights.eraseIdx i) : Effect store nowMs s s' (some f) := by
  refine .left f hredis fun k => ?_
  unfold admittedByRedis
  rw [hflights]
  exact countP_eraseIdx_add (store.hasSlot k) hi

/-- A request holds no slot any more. -/
theorem left_enter (hi : s.flights[i]? = some f) (hredis : s'.redis = elapse nowMs s.redis)
    (hflights : s'.flights = s.flights.set i g) (hslot : g.stage.byRedis = false) :
    Effect store nowMs s s' (some f) := by
  refine .left f hredis fun k => ?_
  have hcount := countP_set_add (store.hasSlot k) hi g
  have hno : store.hasSlot k g = false := by rw [hasSlot, hslot, Bool.false_and]
  rw [hno, if_neg Bool.false_ne_true] at hcount
  unfold admittedByRedis
  rw [hflights]
  omega

/-- The script of a `check` has run. -/
theorem checked_checkFor {key : String} (hi : s.flights[i]? = some ⟨key, .asking⟩)
    {stage : ℤ → Stage} (hstage : ∀ code, (stage code).byRedis = (action code == .allow)) :
    Effect store nowMs s (store.checkFor s i key nowMs stage) none := by
  refine .checked key rfl fun k => ?_
  have hcount := countP_set_add (store.hasSlot k) hi
    ⟨key, stage (store.checkScript key nowMs s.redis).1⟩
  have hasking : store.hasSlot k ⟨key, .asking⟩ = false := rfl
  have hslot : store.hasSlot k ⟨key, stage (store.checkScript key nowMs s.redis).1⟩ = true ↔
      action (store.checkScript key nowMs s.redis).1 = .allow ∧ store.redisKey key = k := by
    rw [hasSlot, hstage, Bool.and_eq_true, beq_iff_eq, decide_eq_true_eq]
  rw [hasking, if_neg Bool.false_ne_true, Nat.add_zero] at hcount
  refine hcount.trans ?_
  rw [if_congr hslot rfl rfl]
  rfl

/-- The script of a `record` has run. -/
theorem recorded_recordFor {key : String} {b : Bool} {success : Bool}
    (hi : s.flights[i]? = some ⟨key, .waiting b⟩)
    (hredis : s'.redis = store.recordScript key success nowMs s.redis)
    (hflights : s'.flights = s.flights.set i ⟨key, .recorded⟩) : Effect store nowMs s s' none := by
  refine .recorded key success hredis fun k hk => ?_
  have hcount := countP_set_add (store.hasSlot k) hi ⟨key, .recorded⟩
  have hother : ∀ stage, store.hasSlot k ⟨key, stage⟩ = false := by
    intro stage
    rw [hasSlot, decide_eq_false (Ne.symm hk), Bool.and_false]
  rw [hother, hother, if_neg Bool.false_ne_true] at hcount
  unfold admittedByRedis
  rw [hflights]
  exact hcount

end Counts

/-- A `check` that starts holds no slot. -/
theorem quiet_startCheck (s : Shared) (key : String) (now nowMs : ℤ) :
    Effect store nowMs s (store.startCheck (s.elapsed nowMs) key now) none := by
  have happend : ∀ f : Flight, f.stage.byRedis = false → ∀ k,
      (s.flights ++ [f]).countP (store.hasSlot k) = s.flights.countP (store.hasSlot k) := by
    intro f hf k
    rw [List.countP_append, List.countP_singleton, hasSlot, hf, Bool.false_and]
    rfl
  unfold startCheck
  split
  · exact .quiet rfl (happend _ rfl)
  · dsimp only
    split
    · exact .quiet rfl (happend _ rfl)
    · exact .quiet rfl fun _ => rfl
    · exact .quiet rfl (happend _ rfl)

/-- A request that the fallback turns away leaves; one that it lets in goes on. -/
theorem effect_askFallback {s : Shared} {i : ℕ} {f : Flight} {nowMs : ℤ}
    (hi : s.flights[i]? = some f) (now later : ℤ) (order : IterOrder String CircuitEntry) :
    Effect store nowMs s
      (askFallback (s.elapsed nowMs) i f.key f.stage.byRedis now later order)
      (if (s.fallback.check order f.key now later).1 = .reject then some f else none) := by
  unfold askFallback
  cases haction : (s.fallback.check order f.key now later).1 with
  | allow =>
      rw [if_neg (by decide)]
      simp only [Shared.elapsed, haction]
      exact quiet_enter hi rfl rfl fun k => rfl
  | reject =>
      rw [if_pos rfl]
      simp only [Shared.elapsed, haction]
      exact left_remove hi rfl rfl

/-- **What a step does.** -/
theorem step_effect (store : RedisCircuitBreakerStore) (clock : ℤ → ℤ) (s : Shared) (x : Moment) :
    Effect store (clock x.now) s (store.sharedStep clock s x) (leaving s x) := by
  obtain ⟨now, step⟩ := x
  have hidle : Effect store (clock now) s (s.elapsed (clock now)) none := .quiet rfl fun _ => rfl
  cases step with
  | start key => exact quiet_startCheck s key now (clock now)
  | script i =>
      simp only [sharedStep, leaving]
      split
      · rename_i key hi
        exact checked_checkFor hi fun _ => rfl
      · exact hidle
  | scriptLost i =>
      simp only [sharedStep, leaving]
      split
      · rename_i key hi
        exact checked_checkFor hi fun _ => rfl
      · exact hidle
  | deliver i =>
      simp only [sharedStep, leaving]
      split
      · rename_i key code hi
        unfold actOn
        dsimp only
        split
        · rename_i hallow
          refine quiet_enter hi rfl rfl fun k => ?_
          simp only [hasSlot, Stage.byRedis, hallow]
          rfl
        · rename_i hreject
          refine quiet_remove hi rfl rfl ?_
          simp only [Stage.byRedis, hreject]
          rfl
      · exact hidle
  | checkFallback i later order =>
      simp only [sharedStep, leaving]
      rcases hi : s.flights[i]? with _ | ⟨key, _ | code | code | b | _⟩
      · exact hidle
      · exact effect_askFallback hi now later order
      · exact hidle
      · exact effect_askFallback hi now later order
      · exact hidle
      · exact hidle
  | record i success =>
      simp only [sharedStep, leaving]
      split
      · rename_i key b hi
        exact recorded_recordFor hi rfl rfl
      · exact hidle
  | recordLost i success later order =>
      simp only [sharedStep, leaving]
      split
      · rename_i key b hi
        exact recorded_recordFor hi rfl rfl
      · exact hidle
  | recordFallback i connected success later order =>
      simp only [sharedStep, leaving]
      rcases hi : s.flights[i]? with _ | ⟨key, _ | code | code | b | _⟩
      · exact hidle
      · exact hidle
      · exact hidle
      · exact hidle
      · dsimp only
        split
        · exact left_enter hi rfl rfl rfl
        · exact left_remove hi rfl rfl
      · exact hidle
  | uncache i =>
      simp only [sharedStep, leaving]
      split
      · rename_i key hi
        exact quiet_remove hi rfl rfl rfl
      · exact hidle
  | fail i =>
      simp only [sharedStep, leaving]
      rcases hi : s.flights[i]? with _ | ⟨key, _ | code | code | b | _⟩
      · exact hidle
      · exact hidle
      · exact hidle
      · exact hidle
      · exact left_remove hi rfl rfl
      · exact hidle
  | drop i =>
      simp only [sharedStep, leaving]
      cases hi : s.flights[i]? with
      | none =>
          have hsame : s.flights.eraseIdx i = s.flights :=
            List.eraseIdx_of_length_le (List.getElem?_eq_none_iff.mp hi)
          refine .quiet rfl fun k => ?_
          simp only [admittedByRedis, Shared.remove, Shared.elapsed, hsame]
      | some f => exact left_remove hi rfl rfl

end RedisCircuitBreakerStore
end CircuitBreaker
end Noxy

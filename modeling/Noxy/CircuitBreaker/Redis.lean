/-
# The scripts of the Redis circuit breaker

`src/middleware/circuit_breaker.rs`: `CB_CHECK_LUA` and `CB_RECORD_LUA`, with the
arguments that `RedisCircuitBreakerStore` passes to them.  A key's circuit is a hash
with the fields `state` (0 closed, 1 open, 2 half open), `consecutive_failures`,
`until_ms` and `in_flight`; a missing field, or a missing key, reads as 0.  The numbers
of the scripts are integers here.

Both scripts set the time to live of the key before they write to it.  What they
leave under their key is said by `lookup_cbCheckLua_self` and `lookup_cbRecordLua_self`
in terms of the hash alone (`checkHash`, `recordHash`), and `checkHash_holds` and
`recordHash_holds` say that the hash goes through the states of `checkCircuit` and
`recordCircuit`.
-/

import Noxy.CircuitBreaker.State
import Noxy.Lib.Redis

namespace Noxy
namespace CircuitBreaker

open Lib Redis Store

/-- `tonumber(data[i]) or 0` of an `HMGET`. -/
def field (key name : String) (db : Db (Hash ℤ)) : ℤ := (hget key name db).getD 0

/-- `CB_CHECK_LUA`: its reply, and the database after it. -/
def cbCheckLua (halfOpenProbes ttlMs : ℕ) (key : String) (nowMs : ℤ) (db : Db (Hash ℤ)) :
    ℤ × Db (Hash ℤ) :=
  let db := elapse nowMs db
  let state := field key "state" db
  let untilMs := field key "until_ms" db
  let inFlight := field key "in_flight" db
  let db := pexpire nowMs key ttlMs db
  if state = 0 then (0, db)
  else if state = 1 then
    if untilMs ≤ nowMs then (-1, hset key [("state", 2), ("in_flight", 1)] db)
    else (untilMs - nowMs, db)
  else if state = 2 then
    if inFlight < halfOpenProbes then (-1, hincrby key "in_flight" 1 db) else (-2, db)
  else (0, db)

/-- `CB_RECORD_LUA`: the database after it.  Its reply is always 0. -/
def cbRecordLua (success : Bool) (threshold recoveryMs ttlMs : ℕ) (key : String) (nowMs : ℤ)
    (db : Db (Hash ℤ)) : Db (Hash ℤ) :=
  let db := elapse nowMs db
  let state := field key "state" db
  let failures := field key "consecutive_failures" db
  let db := pexpire nowMs key ttlMs db
  if state = 0 then
    if success then hset key [("consecutive_failures", 0)] db
    else
      let failures := failures + 1
      if threshold ≤ failures then
        hset key [("state", 1), ("consecutive_failures", failures),
          ("until_ms", nowMs + recoveryMs), ("in_flight", 0)] db
      else hset key [("consecutive_failures", failures)] db
  else if state = 2 then
    if success then hset key [("state", 0), ("consecutive_failures", 0), ("in_flight", 0)] db
    else
      hset key [("state", 1), ("consecutive_failures", 0), ("until_ms", nowMs + recoveryMs),
        ("in_flight", 0)] db
  else db

/-- `RedisCircuitBreakerStore`, without its connection, its fallback and its cache;
`redisKey` is `prefixed_key` of the connection with the namespace of the store. -/
structure RedisCircuitBreakerStore where
  threshold : ℕ
  recovery : ℕ
  halfOpenProbes : ℕ
  cacheTtl : Option ℕ
  redisKey : String → String

namespace RedisCircuitBreakerStore

/-- The `ttl_ms` that both scripts are given. -/
def ttlMs (store : RedisCircuitBreakerStore) : ℕ := asMillis store.recovery + 60000

/-- The script of `check` with its arguments. -/
def checkScript (store : RedisCircuitBreakerStore) (key : String) (nowMs : ℤ)
    (db : Db (Hash ℤ)) : ℤ × Db (Hash ℤ) :=
  cbCheckLua store.halfOpenProbes store.ttlMs (store.redisKey key) nowMs db

/-- The script of `record` with its arguments. -/
def recordScript (store : RedisCircuitBreakerStore) (key : String) (success : Bool) (nowMs : ℤ)
    (db : Db (Hash ℤ)) : Db (Hash ℤ) :=
  cbRecordLua success store.threshold (asMillis store.recovery) store.ttlMs (store.redisKey key)
    nowMs db

/-- The action that `check` makes of the reply of its script. -/
def action (code : ℤ) : CircuitAction := if 0 < code ∨ code = -2 then .reject else .allow

theorem ttlMs_pos (store : RedisCircuitBreakerStore) : 0 < store.ttlMs := by
  unfold ttlMs
  omega

end RedisCircuitBreakerStore

/-- A field of a hash as the scripts read it. -/
def num (h : Hash ℤ) (name : String) : ℤ := (h.lookup name).getD 0

/-- What `CB_CHECK_LUA` replies, and makes of the hash. -/
def checkHash (halfOpenProbes : ℕ) (nowMs : ℤ) (h : Hash ℤ) : ℤ × Hash ℤ :=
  if num h "state" = 0 then (0, h)
  else if num h "state" = 1 then
    if num h "until_ms" ≤ nowMs then (-1, h.set [("state", 2), ("in_flight", 1)])
    else (num h "until_ms" - nowMs, h)
  else if num h "state" = 2 then
    if num h "in_flight" < halfOpenProbes then
      (-1, h.insert "in_flight" (num h "in_flight" + 1))
    else (-2, h)
  else (0, h)

/-- What `CB_RECORD_LUA` makes of the hash. -/
def recordHash (success : Bool) (threshold recoveryMs : ℕ) (nowMs : ℤ) (h : Hash ℤ) : Hash ℤ :=
  if num h "state" = 0 then
    if success then h.set [("consecutive_failures", 0)]
    else if threshold ≤ num h "consecutive_failures" + 1 then
      h.set [("state", 1), ("consecutive_failures", num h "consecutive_failures" + 1),
        ("until_ms", nowMs + recoveryMs), ("in_flight", 0)]
    else h.set [("consecutive_failures", num h "consecutive_failures" + 1)]
  else if num h "state" = 2 then
    if success then h.set [("state", 0), ("consecutive_failures", 0), ("in_flight", 0)]
    else
      h.set [("state", 1), ("consecutive_failures", 0), ("until_ms", nowMs + recoveryMs),
        ("in_flight", 0)]
  else h

section Scripts

variable {key k name : String} {nowMs : ℤ} {db : Db (Hash ℤ)} {ttlMs : ℕ}

theorem field_none (h : db.lookup key = none) : field key name db = 0 := by
  simp [field, hget, valueOf, h]

theorem field_some {e : Entry (Hash ℤ)} (h : db.lookup key = some e) :
    field key name db = num e.value name := by
  simp [field, hget, valueOf, num, h]

theorem lookup_hincrby_self {e : Entry (Hash ℤ)} {n : ℤ} (h : db.lookup key = some e) :
    (hincrby key name n db).lookup key =
      some { e with value := e.value.insert name (num e.value name + n) } := by
  rw [hincrby, lookup_modify_self, valueOf, h]
  rfl

/-- **`CB_CHECK_LUA` and its key.**  A missing key is closed and stays missing; the
time to live of a key that is there is renewed. -/
theorem lookup_cbCheckLua_self (halfOpenProbes : ℕ) (httl : 0 < ttlMs) (key : String) (nowMs : ℤ)
    (db : Db (Hash ℤ)) :
    match (elapse nowMs db).lookup key with
    | none => cbCheckLua halfOpenProbes ttlMs key nowMs db = (0, elapse nowMs db)
    | some e =>
        (cbCheckLua halfOpenProbes ttlMs key nowMs db).1 =
            (checkHash halfOpenProbes nowMs e.value).1 ∧
          (cbCheckLua halfOpenProbes ttlMs key nowMs db).2.lookup key =
            some ⟨(checkHash halfOpenProbes nowMs e.value).2, some (nowMs + ttlMs)⟩ := by
  have hpexpire := lookup_pexpire_self nowMs key httl (elapse nowMs db)
  unfold cbCheckLua
  cases h : (elapse nowMs db).lookup key with
  | none => simp [field_none h, pexpire, h]
  | some e =>
      rw [h, Option.map_some] at hpexpire
      simp only [field_some h, checkHash]
      split_ifs
      · exact ⟨rfl, hpexpire⟩
      · exact ⟨rfl, lookup_hset_some hpexpire _⟩
      · exact ⟨rfl, hpexpire⟩
      · exact ⟨rfl, lookup_hincrby_self hpexpire⟩
      · exact ⟨rfl, hpexpire⟩
      · exact ⟨rfl, hpexpire⟩

theorem lookup_cbCheckLua_ne (halfOpenProbes ttlMs : ℕ) (hk : k ≠ key) (nowMs : ℤ)
    (db : Db (Hash ℤ)) :
    (cbCheckLua halfOpenProbes ttlMs key nowMs db).2.lookup k = (elapse nowMs db).lookup k := by
  have hpexpire := lookup_pexpire_ne nowMs hk ttlMs (elapse nowMs db)
  unfold cbCheckLua
  dsimp only
  split_ifs
  · exact hpexpire
  · exact (lookup_modify_ne hk _ _).trans hpexpire
  · exact hpexpire
  · exact (lookup_modify_ne hk _ _).trans hpexpire
  · exact hpexpire
  · exact hpexpire

/-- **`CB_RECORD_LUA` and its key.**  It creates a key that is missing, without a time to
live; the time to live of a key that is there is renewed. -/
theorem lookup_cbRecordLua_self (success : Bool) (threshold recoveryMs : ℕ) (httl : 0 < ttlMs)
    (key : String) (nowMs : ℤ) (db : Db (Hash ℤ)) :
    (cbRecordLua success threshold recoveryMs ttlMs key nowMs db).lookup key =
      some ⟨recordHash success threshold recoveryMs nowMs ((valueOf key (elapse nowMs db)).getD ∅),
        ((elapse nowMs db).lookup key).map fun _ => nowMs + ttlMs⟩ := by
  have hpexpire := lookup_pexpire_self nowMs key httl (elapse nowMs db)
  unfold cbRecordLua
  cases h : (elapse nowMs db).lookup key with
  | none =>
      -- The key is not there for `PEXPIRE`, and the state reads as closed.
      rw [h, Option.map_none] at hpexpire
      have hvalue : valueOf key (elapse nowMs db) = none := by rw [valueOf, h]; rfl
      have hnum : ∀ name, num (∅ : Hash ℤ) name = 0 := fun _ => rfl
      simp only [field_none h, hvalue, recordHash, hnum, Option.getD_none, Option.map_none, if_pos]
      split_ifs
      · exact lookup_hset_none hpexpire _
      · exact lookup_hset_none hpexpire _
      · exact lookup_hset_none hpexpire _
  | some e =>
      rw [h, Option.map_some] at hpexpire
      have hvalue : valueOf key (elapse nowMs db) = some e.value := by rw [valueOf, h]; rfl
      simp only [field_some h, hvalue, recordHash, Option.getD_some, Option.map_some]
      split_ifs
      · exact lookup_hset_some hpexpire _
      · exact lookup_hset_some hpexpire _
      · exact lookup_hset_some hpexpire _
      · exact lookup_hset_some hpexpire _
      · exact lookup_hset_some hpexpire _
      · exact hpexpire

theorem lookup_cbRecordLua_ne (success : Bool) (threshold recoveryMs ttlMs : ℕ) (hk : k ≠ key)
    (nowMs : ℤ) (db : Db (Hash ℤ)) :
    (cbRecordLua success threshold recoveryMs ttlMs key nowMs db).lookup k =
      (elapse nowMs db).lookup k := by
  have hpexpire := lookup_pexpire_ne nowMs hk ttlMs (elapse nowMs db)
  have hset : ∀ fields : List (String × ℤ),
      (hset key fields (pexpire nowMs key ttlMs (elapse nowMs db))).lookup k =
        (elapse nowMs db).lookup k := fun fields => (lookup_modify_ne hk _ _).trans hpexpire
  unfold cbRecordLua
  dsimp only
  split_ifs
  · exact hset _
  · exact hset _
  · exact hset _
  · exact hset _
  · exact hset _
  · exact hpexpire

end Scripts

namespace RedisCircuitBreakerStore

variable (store : RedisCircuitBreakerStore) (key : String) (nowMs : ℤ) (db : Db (Hash ℤ))

/-- The script of `check` and its key. -/
theorem lookup_checkScript_self :
    match (elapse nowMs db).lookup (store.redisKey key) with
    | none => store.checkScript key nowMs db = (0, elapse nowMs db)
    | some e =>
        (store.checkScript key nowMs db).1 = (checkHash store.halfOpenProbes nowMs e.value).1 ∧
          (store.checkScript key nowMs db).2.lookup (store.redisKey key) =
            some ⟨(checkHash store.halfOpenProbes nowMs e.value).2, some (nowMs + store.ttlMs)⟩ :=
  lookup_cbCheckLua_self store.halfOpenProbes store.ttlMs_pos (store.redisKey key) nowMs db

theorem lookup_checkScript_ne {k : String} (hk : k ≠ store.redisKey key) :
    (store.checkScript key nowMs db).2.lookup k = (elapse nowMs db).lookup k :=
  lookup_cbCheckLua_ne store.halfOpenProbes store.ttlMs hk nowMs db

/-- The script of `record` and its key. -/
theorem lookup_recordScript_self (success : Bool) :
    (store.recordScript key success nowMs db).lookup (store.redisKey key) =
      some ⟨recordHash success store.threshold (asMillis store.recovery) nowMs
          ((valueOf (store.redisKey key) (elapse nowMs db)).getD ∅),
        ((elapse nowMs db).lookup (store.redisKey key)).map fun _ => nowMs + store.ttlMs⟩ :=
  lookup_cbRecordLua_self success store.threshold (asMillis store.recovery) store.ttlMs_pos
    (store.redisKey key) nowMs db

theorem lookup_recordScript_ne {k : String} (hk : k ≠ store.redisKey key) (success : Bool) :
    (store.recordScript key success nowMs db).lookup k = (elapse nowMs db).lookup k :=
  lookup_cbRecordLua_ne success store.threshold (asMillis store.recovery) store.ttlMs hk nowMs db

end RedisCircuitBreakerStore

/-- The hash says that the circuit is in a state. -/
def Holds (h : Hash ℤ) : State → Prop
  | .closed failures => num h "state" = 0 ∧ num h "consecutive_failures" = failures
  | .opened deadline => num h "state" = 1 ∧ num h "until_ms" = deadline
  | .halfOpen inFlight => num h "state" = 2 ∧ num h "in_flight" = inFlight

theorem holds_empty : Holds ∅ (.closed 0) := ⟨rfl, rfl⟩

@[simp] theorem num_insert_self (h : Hash ℤ) (name : String) (v : ℤ) :
    num (h.insert name v) name = v := by
  rw [num, AList.lookup_insert, Option.getD_some]

theorem num_insert_ne (h : Hash ℤ) {name other : String} (hne : name ≠ other) (v : ℤ) :
    num (h.insert other v) name = num h name := by
  rw [num, AList.lookup_insert_ne hne, num]

/-- Counting failures leaves a closed circuit closed. -/
theorem holds_set_failures {h : Hash ℤ} (hst : num h "state" = 0) (failures : ℕ) :
    Holds (h.set [("consecutive_failures", (failures : ℤ))]) (.closed failures) := by
  have hne : "state" ≠ "consecutive_failures" := by decide
  exact ⟨(num_insert_ne h hne _).trans hst, num_insert_self h _ _⟩

/-- **`CB_CHECK_LUA` is `check`**, on a hash that says in which state the circuit is. -/
theorem checkHash_holds (halfOpenProbes : ℕ) (nowMs : ℤ) {h : Hash ℤ} {st : State}
    (hst : Holds h st) :
    RedisCircuitBreakerStore.action (checkHash halfOpenProbes nowMs h).1 =
        (checkCircuit halfOpenProbes nowMs st).1 ∧
      Holds (checkHash halfOpenProbes nowMs h).2 (checkCircuit halfOpenProbes nowMs st).2 := by
  unfold checkHash checkCircuit RedisCircuitBreakerStore.action
  cases st with
  | closed failures =>
      rw [hst.1]
      exact ⟨rfl, hst⟩
  | opened deadline =>
      rw [hst.1, hst.2, if_neg one_ne_zero, if_pos rfl]
      by_cases hd : deadline ≤ nowMs
      · simp only [if_pos hd]
        refine ⟨rfl, ?_, ?_⟩
        · rw [Hash.set, List.foldl_cons, List.foldl_cons, List.foldl_nil,
            num_insert_ne _ (by decide), num_insert_self]
        · simp [Hash.set]
      · simp only [if_neg hd]
        exact ⟨if_pos (Or.inl (by omega)), hst⟩
  | halfOpen inFlight =>
      simp only [hst.1, hst.2, if_neg (show ¬(2 : ℤ) = 0 by decide),
        if_neg (show ¬(2 : ℤ) = 1 by decide), if_true, Nat.cast_lt]
      by_cases hn : inFlight < halfOpenProbes
      · simp only [if_pos hn]
        exact ⟨rfl, (num_insert_ne _ (by decide) _).trans hst.1, by simp⟩
      · simp only [if_neg hn]
        exact ⟨rfl, hst⟩

/-- **`CB_RECORD_LUA` is `record`**, on a hash that says in which state the circuit is. -/
theorem recordHash_holds (success : Bool) (threshold recoveryMs : ℕ) (nowMs : ℤ) {h : Hash ℤ}
    {st : State} (hst : Holds h st) :
    Holds (recordHash success threshold recoveryMs nowMs h)
      (recordCircuit threshold recoveryMs nowMs success st) := by
  unfold recordHash recordCircuit
  cases st with
  | closed failures =>
      rw [hst.1, hst.2, if_pos rfl]
      cases success with
      | true =>
          simp only [if_true]
          exact holds_set_failures hst.1 0
      | false =>
          simp only [Bool.false_eq_true, if_false]
          by_cases ht : threshold ≤ failures + 1
          · rw [if_pos (by exact_mod_cast ht), if_pos ht]
            simp [Holds, Hash.set, num_insert_ne]
          · rw [if_neg (by exact_mod_cast ht), if_neg ht]
            exact holds_set_failures hst.1 (failures + 1)
  | opened deadline =>
      rw [hst.1, if_neg one_ne_zero, if_neg (by decide)]
      exact hst
  | halfOpen inFlight =>
      rw [hst.1, if_neg two_ne_zero, if_pos rfl]
      cases success with
      | true => simp [Holds, Hash.set, num_insert_ne]
      | false => simp [Holds, Hash.set, num_insert_ne]

end CircuitBreaker
end Noxy

/-
# Which keys of the Redis circuit breaker never expire

`src/middleware/circuit_breaker.rs`: `CB_CHECK_LUA` and `CB_RECORD_LUA` call `PEXPIRE`
before they write.  For a key that is missing the call does nothing, and the `HSET` of
`CB_RECORD_LUA` then creates the key without a time to live.  Only another script on the
same key gives it one.

Scripts run on any keys of any stores, at any times.  `persists_step_iff` is one script, and
`keysExpire_step_iff` what it means for all keys together.  `keysExpire_iff` carries it along
every run: after each script all keys expire exactly if no `record` has found its key missing,
and as a `check` creates no key, exactly if there was no `record`.  `first_record_persists` is
the shortest run that leaves a key for good.
-/

import Noxy.CircuitBreaker.Redis
import Noxy.Lib.Run

namespace Noxy
namespace CircuitBreaker

open Lib Redis Store

/-- A script that a store runs. -/
structure Exec where
  store : RedisCircuitBreakerStore
  key : String
  op : Op
  nowMs : ℤ

namespace Exec

/-- The key of the script in the database. -/
def redisKey (x : Exec) : String := x.store.redisKey x.key

/-- The database after the script. -/
def step (db : Db (Hash ℤ)) (x : Exec) : Db (Hash ℤ) :=
  match x.op with
  | .check => (x.store.checkScript x.key x.nowMs db).2
  | .record success => x.store.recordScript x.key success x.nowMs db

/-- The script is a `record` that finds its key missing: never written, or expired. -/
def Creates (db : Db (Hash ℤ)) (x : Exec) : Prop :=
  x.op ≠ .check ∧ (elapse x.nowMs db).lookup x.redisKey = none

end Exec

/-- The key is there, and has no time to live. -/
def Persists (k : String) (db : Db (Hash ℤ)) : Prop :=
  (db.lookup k).map Entry.expiresAt = some none

/-- Every key that is there has a time to live. -/
def KeysExpire (db : Db (Hash ℤ)) : Prop :=
  ∀ k e, db.lookup k = some e → e.expiresAt.isSome

theorem keysExpire_iff_not_persists (db : Db (Hash ℤ)) :
    KeysExpire db ↔ ∀ k, ¬Persists k db := by
  unfold KeysExpire Persists
  refine forall_congr' fun k => ?_
  cases db.lookup k <;> simp [Option.isSome_iff_ne_none]

/-- Time passes by a key without a time to live, and gives no key one. -/
theorem persists_elapse_iff (now : ℤ) (k : String) (db : Db (Hash ℤ)) :
    Persists k (elapse now db) ↔ Persists k db := by
  unfold Persists
  rw [Option.map_eq_some_iff, Option.map_eq_some_iff]
  constructor
  · rintro ⟨e, he, hexp⟩
    rw [lookup_elapse, Option.filter_eq_some_iff] at he
    exact ⟨e, he.1, hexp⟩
  · rintro ⟨⟨v, expiresAt⟩, he, rfl⟩
    exact ⟨⟨v, none⟩, lookup_elapse_live he (live_none now v), rfl⟩

/-- A script leaves the other keys to the clock. -/
theorem lookup_step_ne (db : Db (Hash ℤ)) {x : Exec} {k : String} (hk : k ≠ x.redisKey) :
    (Exec.step db x).lookup k = (elapse x.nowMs db).lookup k := by
  unfold Exec.step
  cases x.op with
  | check => exact x.store.lookup_checkScript_ne x.key x.nowMs db hk
  | record success => exact x.store.lookup_recordScript_ne x.key x.nowMs db hk success

/-- When the key of a script expires after it: a `check` renews the time to live if the
key is there, a `record` too, and otherwise creates the key without one. -/
theorem expiresAt_step_self (db : Db (Hash ℤ)) (x : Exec) :
    ((Exec.step db x).lookup x.redisKey).map Entry.expiresAt =
      match x.op with
      | .check => ((elapse x.nowMs db).lookup x.redisKey).map fun _ =>
          some (x.nowMs + x.store.ttlMs)
      | .record _ => some (((elapse x.nowMs db).lookup x.redisKey).map fun _ =>
          x.nowMs + x.store.ttlMs) := by
  unfold Exec.step Exec.redisKey
  cases x.op with
  | check =>
      have hscript := x.store.lookup_checkScript_self x.key x.nowMs db
      dsimp only
      cases hdb : (elapse x.nowMs db).lookup (x.store.redisKey x.key) with
      | none =>
          rw [hdb] at hscript
          rw [hscript, hdb]
          rfl
      | some e =>
          rw [hdb] at hscript
          rw [hscript.2]
          rfl
  | record success =>
      dsimp only
      rw [x.store.lookup_recordScript_self x.key x.nowMs db success]
      rfl

/-- A script leaves its own key without a time to live only by creating it. -/
theorem persists_step_self_iff (db : Db (Hash ℤ)) (x : Exec) :
    Persists x.redisKey (Exec.step db x) ↔ x.Creates db := by
  rw [Persists, expiresAt_step_self, Exec.Creates]
  cases x.op <;> cases (elapse x.nowMs db).lookup x.redisKey <;> simp

/-- **One script.** -/
theorem persists_step_iff (db : Db (Hash ℤ)) (x : Exec) (k : String) :
    Persists k (Exec.step db x) ↔
      (x.redisKey = k ∧ x.Creates db) ∨ (x.redisKey ≠ k ∧ Persists k db) := by
  by_cases hk : x.redisKey = k
  · subst hk
    simp [persists_step_self_iff]
  · have hsame : Persists k (Exec.step db x) ↔ Persists k db := by
      rw [Persists, lookup_step_ne db (Ne.symm hk)]
      exact persists_elapse_iff x.nowMs k db
    simp [hk, hsame]

/-- **One script keeps every key expiring** exactly if it is not a `record` that finds its key
missing. -/
theorem keysExpire_step_iff (db : Db (Hash ℤ)) (x : Exec) (h : KeysExpire db) :
    KeysExpire (Exec.step db x) ↔ ¬x.Creates db := by
  rw [keysExpire_iff_not_persists] at h ⊢
  constructor
  · intro hstep hcreates
    exact hstep x.redisKey ((persists_step_self_iff db x).mpr hcreates)
  · intro hnot k hk
    rcases (persists_step_iff db x k).mp hk with ⟨_, hcreates⟩ | ⟨_, hbefore⟩
    · exact hnot hcreates
    · exact h k hbefore

/-- A `check` creates no key, so on a database without keys the first `record` finds its own
missing. -/
theorem along_not_creates_iff {db : Db (Hash ℤ)} (hempty : ∀ k, db.lookup k = none)
    (xs : List Exec) :
    Along Exec.step (fun db x => ¬x.Creates db) db xs ↔ ∀ x ∈ xs, x.op = .check := by
  have hmissing : ∀ (now : ℤ) (k : String), (elapse now db).lookup k = none := by
    intro now k
    rw [lookup_elapse, hempty k]
    rfl
  induction xs generalizing db with
  | nil => exact ⟨fun _ x hx => absurd hx List.not_mem_nil, fun _ => trivial⟩
  | cons x xs ih =>
      have hcreates : ¬x.Creates db ↔ x.op = .check := by
        rw [Exec.Creates, hmissing]
        simp
      rw [Along, hcreates, List.forall_mem_cons]
      refine and_congr_right fun hcheck => ?_
      have hstep : ∀ k, (Exec.step db x).lookup k = none := by
        intro k
        by_cases hk : k = x.redisKey
        · have hself := expiresAt_step_self db x
          rw [hcheck, hmissing] at hself
          subst hk
          exact Option.map_eq_none_iff.mp hself
        · rw [lookup_step_ne db hk, hmissing]
      exact ih hstep fun now k => by rw [lookup_elapse, hstep k]; rfl

/-- **When the keys expire.**  In every run of scripts on an empty database, after each script
every key that is there has a time to live exactly if no `record` finds its key missing; and
since nothing else creates a key, that is if there is no `record`. -/
theorem keysExpire_iff (xs : List Exec) :
    (Always Exec.step KeysExpire ∅ xs ↔ Along Exec.step (fun db x => ¬x.Creates db) ∅ xs) ∧
      (Always Exec.step KeysExpire ∅ xs ↔ ∀ x ∈ xs, x.op = .check) := by
  have hstart : KeysExpire (∅ : Db (Hash ℤ)) := fun k e he => by simp at he
  have halways : Always Exec.step KeysExpire ∅ xs ↔
      Along Exec.step (fun db x => ¬x.Creates db) ∅ xs :=
    always_iff_along (J := fun _ => True) (fun _ _ _ => trivial)
      (fun db x _ hdb => keysExpire_step_iff db x hdb) trivial hstart xs
  exact ⟨halways, halways.trans (along_not_creates_iff (fun k => AList.lookup_empty k) xs)⟩

/-- **The first outcome of a circuit creates a key that never expires**, here a success. -/
theorem first_record_persists :
    let store : RedisCircuitBreakerStore := ⟨5, 30000000000, 1, none, fun key => "noxy:" ++ key⟩
    ¬Always Exec.step KeysExpire ∅ [⟨store, "k", .record true, 0⟩] := by
  intro store h
  exact absurd (h [⟨store, "k", .record true, 0⟩] [] rfl "noxy:k" ⟨_, none⟩ rfl) (by simp)

end CircuitBreaker
end Noxy

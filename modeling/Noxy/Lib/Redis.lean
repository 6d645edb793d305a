/-
# A database of keys with a time to live

What a script sees of Redis: a map from keys to values, each with the millisecond
after which it is gone, if there is one.  A script runs alone and at one time, so
the keys whose time is up are dropped before it (`elapse`) and none after that.

* `PEXPIRE` sets the time to live of a key that is there and does nothing for a key
  that is not (`pexpire`); `PERSIST` takes it away (`persist`).
* A command that writes into a value creates the key if it is missing, without a time
  to live, and otherwise leaves its time to live alone (`modify`); a value that
  becomes empty takes its key with it (`shrink`).
* A hash is a map from fields to values (`hget`, `hset`, `hincrby`), a sorted set a
  map from members to scores (`zadd`, `zremrangebyscore`, `zcard`, `lowestScore`).

Everything is said by what a lookup finds after the command, for the key of the
command and for the others.
-/

import Noxy.Lib.HashMap
import Mathlib.Algebra.Order.Ring.Int

namespace Noxy
namespace Lib
namespace Redis

/-- The value of a key, and the last millisecond at which it is there. -/
structure Entry (α : Type*) where
  value : α
  expiresAt : Option ℤ
  deriving DecidableEq

/-- The keys and their values. -/
abbrev Db (α : Type*) := HashMap String (Entry α)

variable {α : Type*}

/-- A key is there up to and including the millisecond it expires at. -/
def Entry.live (now : ℤ) (e : Entry α) : Bool := e.expiresAt.all fun t => decide (now ≤ t)

/-- The keys that are left at `now`. -/
def elapse (now : ℤ) (db : Db α) : Db α := db.retain fun _ e => e.live now

/-- The value of a key. -/
def valueOf (key : String) (db : Db α) : Option α := (db.lookup key).map Entry.value

/-- `PEXPIRE key ttl` at `now`. -/
def pexpire (now : ℤ) (key : String) (ttl : ℕ) (db : Db α) : Db α :=
  match db.lookup key with
  | none => db
  | some e =>
      if ttl = 0 then db.erase key else db.insert key { e with expiresAt := some (now + ttl) }

/-- `PERSIST key`. -/
def persist (key : String) (db : Db α) : Db α :=
  match db.lookup key with
  | none => db
  | some e => db.insert key { e with expiresAt := none }

/-- A command that writes `f` of the old value of a key. -/
def modify (key : String) (f : Option α → α) (db : Db α) : Db α :=
  match db.lookup key with
  | none => db.insert key ⟨f none, none⟩
  | some e => db.insert key { e with value := f (some e.value) }

/-- A command that takes something out of the value of a key; `empty` values do not
stay. -/
def shrink (key : String) (empty : α → Bool) (f : α → α) (db : Db α) : Db α :=
  match db.lookup key with
  | none => db
  | some e =>
      if empty (f e.value) then db.erase key else db.insert key { e with value := f e.value }

theorem lookup_elapse (now : ℤ) (db : Db α) (k : String) :
    (elapse now db).lookup k = (db.lookup k).filter fun e => e.live now :=
  HashMap.lookup_retain _ _ _

theorem live_none (now : ℤ) (v : α) : (⟨v, none⟩ : Entry α).live now = true := rfl

theorem live_of_forall {now : ℤ} {e : Entry α} (h : ∀ t ∈ e.expiresAt, now ≤ t) :
    e.live now = true := by
  unfold Entry.live
  cases he : e.expiresAt with
  | none => rfl
  | some t => simpa using h t he

theorem lookup_elapse_none {now : ℤ} {db : Db α} {k : String} (h : db.lookup k = none) :
    (elapse now db).lookup k = none := by
  rw [lookup_elapse, h]
  rfl

theorem lookup_elapse_live {now : ℤ} {db : Db α} {k : String} {e : Entry α}
    (h : db.lookup k = some e) (hlive : e.live now = true) :
    (elapse now db).lookup k = some e := by
  rw [lookup_elapse, h, Option.filter_some_pos hlive]

theorem lookup_elapse_dead {now : ℤ} {db : Db α} {k : String} {e : Entry α}
    (h : db.lookup k = some e) (hdead : e.live now = false) :
    (elapse now db).lookup k = none := by
  rw [lookup_elapse, h, Option.filter_some_neg (by simp [hdead])]

/-- **`PEXPIRE` and its key**, with a time to live that is not zero. -/
theorem lookup_pexpire_self (now : ℤ) (key : String) {ttl : ℕ} (httl : 0 < ttl) (db : Db α) :
    (pexpire now key ttl db).lookup key =
      (db.lookup key).map fun e => { e with expiresAt := some (now + ttl) } := by
  unfold pexpire
  cases h : db.lookup key with
  | none => exact h
  | some e =>
      dsimp only
      rw [if_neg (by omega), AList.lookup_insert]
      rfl

theorem lookup_pexpire_ne (now : ℤ) {key k : String} (hk : k ≠ key) (ttl : ℕ) (db : Db α) :
    (pexpire now key ttl db).lookup k = db.lookup k := by
  unfold pexpire
  cases db.lookup key with
  | none => rfl
  | some e =>
      dsimp only
      split
      · exact AList.lookup_erase_ne hk
      · exact AList.lookup_insert_ne hk

theorem lookup_persist_self (key : String) (db : Db α) :
    (persist key db).lookup key = (db.lookup key).map fun e => { e with expiresAt := none } := by
  unfold persist
  cases h : db.lookup key with
  | none => exact h
  | some e => exact AList.lookup_insert _

/-- **A write and its key.** -/
theorem lookup_modify_self (key : String) (f : Option α → α) (db : Db α) :
    (modify key f db).lookup key =
      some ⟨f (valueOf key db), (db.lookup key).bind Entry.expiresAt⟩ := by
  unfold modify valueOf
  cases db.lookup key <;> exact AList.lookup_insert _

theorem lookup_modify_ne {key k : String} (hk : k ≠ key) (f : Option α → α) (db : Db α) :
    (modify key f db).lookup k = db.lookup k := by
  unfold modify
  cases db.lookup key <;> exact AList.lookup_insert_ne hk

/-- **A removal and its key.** -/
theorem lookup_shrink_self (key : String) (empty : α → Bool) (f : α → α) (db : Db α) :
    (shrink key empty f db).lookup key =
      ((db.lookup key).filter fun e => !empty (f e.value)).map fun e =>
        { e with value := f e.value } := by
  unfold shrink
  cases h : db.lookup key with
  | none => simp [h]
  | some e =>
      dsimp only
      cases he : empty (f e.value) with
      | true => simp [he]
      | false => simp [he]

/-! ### Hashes -/

/-- The fields of a hash. -/
abbrev Hash (ν : Type*) := HashMap String ν

variable {ν : Type*}

/-- `HGET key field`; `HMGET` is one of these for each field. -/
def hget (key field : String) (db : Db (Hash ν)) : Option ν :=
  (valueOf key db).bind (AList.lookup field)

/-- What `HSET` does to the hash. -/
def Hash.set (fields : List (String × ν)) (h : Hash ν) : Hash ν :=
  fields.foldl (fun h f => h.insert f.1 f.2) h

/-- `HSET key field value …`. -/
def hset (key : String) (fields : List (String × ν)) (db : Db (Hash ν)) : Db (Hash ν) :=
  modify key (fun h => (h.getD ∅).set fields) db

theorem lookup_hset_some {key : String} {db : Db (Hash ν)} {e : Entry (Hash ν)}
    (h : db.lookup key = some e) (fields : List (String × ν)) :
    (hset key fields db).lookup key = some { e with value := e.value.set fields } := by
  rw [hset, lookup_modify_self, valueOf, h]
  rfl

theorem lookup_hset_none {key : String} {db : Db (Hash ν)} (h : db.lookup key = none)
    (fields : List (String × ν)) :
    (hset key fields db).lookup key = some ⟨Hash.set fields ∅, none⟩ := by
  rw [hset, lookup_modify_self, valueOf, h]
  rfl

/-- `HINCRBY key field n`. -/
def hincrby (key field : String) (n : ℤ) (db : Db (Hash ℤ)) : Db (Hash ℤ) :=
  modify key (fun h => (h.getD ∅).insert field (((h.getD ∅).lookup field).getD 0 + n)) db

/-! ### Sorted sets -/

/-- The members of a sorted set with their scores. -/
abbrev ZSet := HashMap String ℤ

/-- The scores of the members of a sorted set, in no particular order. -/
def ZSet.scores (z : ZSet) : List ℤ := z.entries.map Sigma.snd

/-- The sorted set of a key; a missing key has an empty one. -/
def zset (key : String) (db : Db ZSet) : ZSet := (valueOf key db).getD ∅

/-- `ZADD key score member`. -/
def zadd (key : String) (score : ℤ) (member : String) (db : Db ZSet) : Db ZSet :=
  modify key (fun z => (z.getD ∅).insert member score) db

/-- `ZREMRANGEBYSCORE key -inf cutoff`. -/
def zremrangebyscore (key : String) (cutoff : ℤ) (db : Db ZSet) : Db ZSet :=
  shrink key (fun z => z.entries.isEmpty) (HashMap.retain fun _ score => !decide (score ≤ cutoff))
    db

/-- `ZCARD key`. -/
def zcard (key : String) (db : Db ZSet) : ℕ := (zset key db).len

/-- The score that `ZRANGEBYSCORE key -inf +inf WITHSCORES LIMIT 0 1` answers. -/
def lowestScore (key : String) (db : Db ZSet) : Option ℤ := (zset key db).scores.min?

theorem len_eq_length_scores (z : ZSet) : z.len = z.scores.length := by
  rw [HashMap.len, ZSet.scores, List.length_map]

theorem scores_retain (p : ℤ → Bool) (z : ZSet) :
    ZSet.scores (z.retain fun _ score => p score) = z.scores.filter p := by
  rw [ZSet.scores, ZSet.scores, List.filter_map]
  rfl

theorem scores_insert {z : ZSet} {member : String} (h : member ∉ z) (score : ℤ) :
    ZSet.scores (z.insert member score) = score :: z.scores := by
  rw [ZSet.scores, AList.entries_insert_of_notMem h, List.map_cons, ZSet.scores]

theorem zset_some {key : String} {db : Db ZSet} {e : Entry ZSet} (h : db.lookup key = some e) :
    zset key db = e.value := by
  rw [zset, valueOf, h]
  rfl

theorem zset_none {key : String} {db : Db ZSet} (h : db.lookup key = none) :
    zset key db = ∅ := by
  rw [zset, valueOf, h]
  rfl

/-- Removing by score keeps the members above the cutoff. -/
theorem zset_zremrangebyscore (key : String) (cutoff : ℤ) (db : Db ZSet) :
    zset key (zremrangebyscore key cutoff db) =
      (zset key db).retain fun _ score => !decide (score ≤ cutoff) := by
  have hlookup := lookup_shrink_self key (fun z : ZSet => z.entries.isEmpty)
    (HashMap.retain fun _ score => !decide (score ≤ cutoff)) db
  cases h : db.lookup key with
  | none =>
      rw [h] at hlookup
      rw [zset_none h]
      exact zset_none hlookup
  | some e =>
      rw [h] at hlookup
      rw [zset_some h]
      cases hempty : (e.value.retain fun _ score => !decide (score ≤ cutoff)).entries with
      | nil =>
          rw [Option.filter_some_neg (by simp [hempty])] at hlookup
          rw [zremrangebyscore, zset_none hlookup]
          exact AList.ext hempty.symm
      | cons m rest =>
          rw [Option.filter_some_pos (by simp [hempty])] at hlookup
          exact zset_some hlookup

/-- **`ZADD` and `PEXPIRE`**, the end of a script that adds a member. -/
theorem lookup_pexpire_zadd (now : ℤ) (key : String) {ttl : ℕ} (httl : 0 < ttl) (score : ℤ)
    (member : String) (db : Db ZSet) :
    (pexpire now key ttl (zadd key score member db)).lookup key =
      some ⟨(zset key db).insert member score, some (now + ttl)⟩ := by
  rw [lookup_pexpire_self now key httl, zadd, lookup_modify_self]
  rfl

end Redis
end Lib
end Noxy

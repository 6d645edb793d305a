/-
# When the expiry of a Redis bucket shows

`src/middleware/rate_limiter.rs`: `RATE_LIMIT_LUA` lets its key expire after the time in
which an empty bucket fills up, and a minute more.  A bucket that is deeper in debt than
that is forgotten with its debt: with one request a minute and four at once, the fourth
waits for three minutes, and after two minutes and a millisecond without a request the key
is gone (`debt_expired`).

The run is compared with that of a key which every script is followed by a `PERSIST` on.
All replies are the same exactly if at each take no stretch of takes that reaches back
beyond the last pause longer than the time to live needs more time to refill than all
those after the pause (`expiry_unobservable_iff`).  Which takes the key still knows is
read off the times of the takes (`sinceExpiry`, `Sound`).
-/

import Noxy.Lib.Run
import Noxy.RateLimiter.Redis

namespace Noxy
namespace RateLimiter

open Lib Redis

/-- How many of the takes before the one at `nowMs`, newest first, were made since the key
last expired: no pause among them, or after them, is longer than its time to live. -/
def sinceExpiry (ttlMs : ℕ) (nowMs : ℤ) : List ℤ → ℕ
  | [] => 0
  | t :: before => if nowMs ≤ t + ttlMs then sinceExpiry ttlMs t before + 1 else 0

namespace RedisRateLimitStore

/-- What the scripts of a run reply, when something else is done to the database after
each of them. -/
def replies (store : RedisRateLimitStore) (key : String) (after : Db (Hash ℚ) → Db (Hash ℚ)) :
    Db (Hash ℚ) → List ℤ → List (Option ℤ)
  | _, [] => []
  | db, now :: times =>
      store.reply key db now :: store.replies key after (after (store.step key db now)) times

/-- Every stretch of takes up to the one at `nowMs` is within the burst and the refill, or
overdue by no more milliseconds than one of the takes since the key last expired. -/
def Unforgiven (store : RedisRateLimitStore) (before : List ℤ) (nowMs : ℤ) : Prop :=
  ∀ i s, (nowMs :: before)[i]? = some s → overdueMs store.rate store.burst nowMs i s ≤ 0 ∨
    ∃ j u, j ≤ sinceExpiry store.ttlMs nowMs before ∧ (nowMs :: before)[j]? = some u ∧
      overdueMs store.rate store.burst nowMs i s ≤ overdueMs store.rate store.burst nowMs j u

variable {store : RedisRateLimitStore} {key : String} {expiry : Option ℤ} {seen : List ℤ}
  {s nowMs : ℤ} {db db' : Db (Hash ℚ)}

/-- The key holds a bucket that has been taken from at `s` and at the times `seen` before
that, newest first. -/
def Keeps (store : RedisRateLimitStore) (key : String) (expiry : Option ℤ) (s : ℤ)
    (seen : List ℤ) (db : Db (Hash ℚ)) : Prop :=
  ∃ b, Stored (store.redisKey key) expiry b db ∧
    b.Took store.rate store.burst (secs s) (seen.map secs)

/-- The take at `nowMs` is one from a bucket that has been taken from at the times `seen`
before, newest first: it replies so, and the key holds that bucket afterwards. -/
def Takes (store : RedisRateLimitStore) (key : String) (nowMs : ℤ) (seen : List ℤ)
    (db : Db (Hash ℚ)) : Prop :=
  ∃ b : TokenBucket, store.reply key db nowMs = some (replyOf store.rate b.tokens) ∧
    b.Took store.rate store.burst (secs nowMs) (seen.map secs) ∧
    store.Keeps key (some (nowMs + store.ttlMs)) nowMs seen (store.step key db nowMs)

theorem secs_mono {a b : ℤ} (h : a ≤ b) : secs a ≤ secs b := by
  unfold secs
  have : (a : ℚ) ≤ b := by exact_mod_cast h
  linarith

/-- A key that expires at `expiry` is there until then. -/
theorem Keeps.elapse (h : store.Keeps key expiry s seen db)
    (hlive : ∀ t ∈ expiry, nowMs ≤ t) : store.Keeps key expiry s seen (elapse nowMs db) := by
  obtain ⟨b, ⟨hash, hlookup, hholds⟩, htook⟩ := h
  exact ⟨b, ⟨hash, lookup_elapse_live hlookup (live_of_forall hlive), hholds⟩, htook⟩

theorem Keeps.lookup_elapse_dead {t : ℤ} (h : store.Keeps key (some t) s seen db)
    (hdead : t < nowMs) : (Redis.elapse nowMs db).lookup (store.redisKey key) = none := by
  obtain ⟨b, ⟨hash, hlookup, _⟩, _⟩ := h
  refine Redis.lookup_elapse_dead hlookup ?_
  simpa [Entry.live] using hdead

theorem Keeps.persist (h : store.Keeps key expiry s seen db) :
    store.Keeps key none s seen (persist (store.redisKey key) db) := by
  obtain ⟨b, ⟨hash, hlookup, hholds⟩, htook⟩ := h
  refine ⟨b, ⟨hash, ?_, hholds⟩, htook⟩
  rw [lookup_persist_self, hlookup]
  rfl

/-- A take from a key that is there. -/
theorem Keeps.take (h : store.Keeps key expiry s seen (Redis.elapse nowMs db))
    (hrate : 0 < store.rate) (hnow : s ≤ nowMs) :
    store.Takes key nowMs (s :: seen) db := by
  obtain ⟨b, hstored, htook⟩ := h
  have hsecs := secs_mono hnow
  obtain ⟨hreply, hstored'⟩ := script_live hstored (by rw [htook.lastRefill]; exact hsecs)
  have htook' := htook.take hrate hsecs
  exact ⟨_, hreply, htook', _, hstored', htook'⟩

/-- A take from a missing key. -/
theorem take_missing (h : (Redis.elapse nowMs db).lookup (store.redisKey key) = none)
    (hrate : 0 < store.rate) : store.Takes key nowMs [] db := by
  obtain ⟨hreply, hstored⟩ := script_missing h
  exact ⟨_, hreply, TokenBucket.took_new hrate, _, hstored, TokenBucket.took_new hrate⟩

/-- What holds during a run with the takes `taken`, newest first: the key that never
expires has seen them all, the other one those since it last expired. -/
def Sound (store : RedisRateLimitStore) (key : String) (db db' : Db (Hash ℚ)) :
    List ℤ → Prop
  | [] => db.lookup (store.redisKey key) = none ∧ db'.lookup (store.redisKey key) = none
  | s :: before =>
      store.Keeps key (some (s + store.ttlMs)) s (before.take (sinceExpiry store.ttlMs s before))
          db ∧
        store.Keeps key none s before db'

/-- **One take.**  The two keys reply the same exactly if the expiry forgave nothing that
counts. -/
theorem Sound.step {taken : List ℤ} (h : store.Sound key db db' taken) (hrate : 0 < store.rate)
    (hnow : ∀ t ∈ taken.head?, t ≤ nowMs) :
    (store.reply key db nowMs = store.reply key db' nowMs ↔ store.Unforgiven taken nowMs) ∧
      store.Sound key (store.step key db nowMs)
        (Redis.persist (store.redisKey key) (store.step key db' nowMs)) (nowMs :: taken) := by
  obtain ⟨b, hreply, htook, hkeeps⟩ :
      store.Takes key nowMs (taken.take (sinceExpiry store.ttlMs nowMs taken)) db := by
    cases taken with
    | nil => exact take_missing (lookup_elapse_none h.1) hrate
    | cons s before =>
        rw [sinceExpiry]
        split
        · rename_i hlive
          have hlive : ∀ t ∈ some (s + (store.ttlMs : ℤ)), nowMs ≤ t := by
            intro t ht
            rw [← Option.some.inj ht]
            exact hlive
          exact (h.1.elapse hlive).take hrate (hnow s rfl)
        · rename_i hdead
          exact take_missing (h.1.lookup_elapse_dead (not_le.mp hdead)) hrate
  obtain ⟨b', hreply', htook', hkeeps'⟩ : store.Takes key nowMs taken db' := by
    cases taken with
    | nil => exact take_missing (lookup_elapse_none h.2) hrate
    | cons s before => exact (h.2.elapse (by simp)).take hrate (hnow s rfl)
  refine ⟨?_, hkeeps, hkeeps'.persist⟩
  rw [hreply, hreply', Option.some.injEq, replyOf_eq_iff hrate htook' htook]
  rfl

/-- **A whole run.** -/
theorem Sound.run {taken times : List ℤ} (h : store.Sound key db db' taken)
    (hrate : 0 < store.rate) (hsorted : times.Pairwise (· ≤ ·))
    (hpast : ∀ t ∈ taken.head?, ∀ now ∈ times, t ≤ now) :
    store.replies key id db times =
        store.replies key (Redis.persist (store.redisKey key)) db' times ↔
      Along (fun taken now => now :: taken) store.Unforgiven taken times := by
  induction times generalizing taken db db' with
  | nil => exact iff_of_true rfl trivial
  | cons now times ih =>
      rw [List.pairwise_cons] at hsorted
      obtain ⟨hreply, hnext⟩ := h.step hrate fun t ht => hpast t ht now (List.mem_cons_self ..)
      have hrest := ih hnext hsorted.2 fun t ht => by
        rw [← Option.some.inj ht]
        exact hsorted.1
      rw [replies, replies, List.cons.injEq, hreply, Along, ← hrest]
      rfl

/-- **When the expiry is unobservable.**  For takes on one key that starts out missing, at
millisecond times in order, the scripts reply the same as on a key that never expires
exactly if at every take each stretch of takes is within the burst and the refill, or
overdue by no more milliseconds than one of the takes since the last pause longer than
the time to live. -/
theorem expiry_unobservable_iff (store : RedisRateLimitStore) (hrate : 0 < store.rate)
    {key : String} {db : Db (Hash ℚ)} (hmissing : db.lookup (store.redisKey key) = none)
    {times : List ℤ} (hsorted : times.Pairwise (· ≤ ·)) :
    store.replies key id db times =
        store.replies key (Redis.persist (store.redisKey key)) db times ↔
      Along (fun taken now => now :: taken) store.Unforgiven [] times :=
  Sound.run ⟨hmissing, hmissing⟩ hrate hsorted (by simp)

end RedisRateLimitStore

/-- One request a minute. -/
def everyMinute : RedisRateLimitStore := ⟨1 / 60, 1, fun key => "noxy:" ++ key⟩

/-- The hypotheses of `expiry_unobservable_iff` are met by one request a minute: two takes in a
second, and one after a pause in which the key has expired. -/
theorem expiry_unobservable_everyMinute :
    everyMinute.replies "k" id ∅ [0, 1000, 121001] =
        everyMinute.replies "k" (persist "noxy:k") ∅ [0, 1000, 121001] ↔
      Along (fun taken now => now :: taken) everyMinute.Unforgiven [] [0, 1000, 121001] :=
  everyMinute.expiry_unobservable_iff (by decide +kernel) rfl (by decide)

/-- **The expiry forgives a debt.**  Of four requests at once, with one allowed a minute,
the fourth waits for three minutes.  The key has a time to live of two minutes: a request
a millisecond after that does not wait at all, where it has to wait for almost two minutes
if the key is still there. -/
theorem debt_expired :
    everyMinute.replies "k" id ∅ [0, 0, 0, 0, 120001] =
        [some 0, some 60000, some 120000, some 180000, some 0] ∧
      everyMinute.replies "k" (persist "noxy:k") ∅ [0, 0, 0, 0, 120001] =
        [some 0, some 60000, some 120000, some 180000, some 119999] := by
  decide +kernel

end RateLimiter
end Noxy

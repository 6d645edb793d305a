/-
# The in-memory stores: one entry per key, dropped when idle

`src/middleware/rate_limiter.rs`, `src/middleware/sliding_window.rs` and
`src/middleware/circuit_breaker.rs` each keep a `HashMap` from the rate-limit
or circuit key to an entry with a `last_seen` instant, and each has its own
copy of two methods:

* `maybe_cleanup` drops, at most once per `CLEANUP_INTERVAL`, every entry that
  fails a test, and
* `evict_if_needed` runs before an entry is created: when the map is at
  capacity it removes the least recently seen of the entries it may drop.

The two are written here once, with the test, the bound and the clock as
parameters; the three stores apply them to their own.  An `Instant` is an
integer number of nanoseconds of the monotonic clock and a `Duration` a natural
number of them, both unbounded.  `lookup_sweep` is what
every later argument uses: the two together leave a key alone, unless its entry
is one that the store may drop.
-/

import Noxy.Lib.HashMap
import Mathlib.Algebra.Order.Ring.Rat

namespace Noxy
namespace Store

open Lib

/-- `Duration::from_secs`. -/
def fromSecs (n : ℕ) : ℕ := n * 1000000000

/-- `Duration::as_millis`. -/
def asMillis (d : ℕ) : ℕ := d / 1000000

/-- `Instant::saturating_duration_since`, which `duration_since` is too. -/
def saturatingDurationSince (now earlier : ℤ) : ℕ := (now - earlier).toNat

/-- `CLEANUP_INTERVAL` of the three stores. -/
def CLEANUP_INTERVAL : ℕ := fromSecs 30

/-- `DEFAULT_IDLE_TTL` of the three stores. -/
def DEFAULT_IDLE_TTL : ℕ := fromSecs 600

/-- `DEFAULT_MAX_KEYS` of the three stores. -/
def DEFAULT_MAX_KEYS : ℕ := 10000

variable {τ α : Type*} [LinearOrder τ] [Add τ]

/-- `maybe_cleanup`: the map after it, and the next instant it is due. -/
def maybeCleanup (interval : τ) (keep : α → Bool) (now next : τ) (m : HashMap String α) :
    HashMap String α × τ :=
  if now < next then (m, next) else (m.retain fun _ a => keep a, now + interval)

/-- `evict_if_needed`. -/
def evictIfNeeded (o : IterOrder String α) (maxKeys : ℕ) (evictable : α → Bool) (lastSeen : α → τ)
    (key : String) (m : HashMap String α) : HashMap String α :=
  if key ∈ m ∨ m.len < maxKeys then m else m.removeMin o evictable lastSeen

/-- A key's entry after `maybe_cleanup` is the old one, or it failed the test
and is gone. -/
theorem lookup_maybeCleanup (interval : τ) (keep : α → Bool) (now next : τ)
    (m : HashMap String α) (k : String) :
    (maybeCleanup interval keep now next m).1.lookup k = m.lookup k ∨
      (maybeCleanup interval keep now next m).1.lookup k = none ∧
        ∃ a, m.lookup k = some a ∧ keep a = false := by
  unfold maybeCleanup
  split
  · exact Or.inl rfl
  · simp only [HashMap.lookup_retain]
    cases hk : m.lookup k with
    | none => exact Or.inl rfl
    | some a =>
        cases ha : keep a with
        | true => exact Or.inl (by simp [ha])
        | false => exact Or.inr ⟨by simp [ha], a, rfl, ha⟩

omit [LinearOrder τ] [Add τ] in
/-- What is found after a store has dropped some of its entries was there before. -/
theorem lookup_of_kept {m m' : HashMap String α} {k : String} {P : Prop} {a : α}
    (hkept : m'.lookup k = m.lookup k ∨ m'.lookup k = none ∧ P) (h : m'.lookup k = some a) :
    m.lookup k = some a := by
  rcases hkept with hsame | ⟨hgone, _⟩
  · exact hsame.symm.trans h
  · rw [hgone] at h
    cases h

omit [Add τ] in
/-- A key's entry after `evict_if_needed` is the old one, or it was evictable
and is gone. -/
theorem lookup_evictIfNeeded (o : IterOrder String α) (maxKeys : ℕ) (evictable : α → Bool)
    (lastSeen : α → τ) (key : String) (m : HashMap String α) (k : String) :
    (evictIfNeeded o maxKeys evictable lastSeen key m).lookup k = m.lookup k ∨
      (evictIfNeeded o maxKeys evictable lastSeen key m).lookup k = none ∧
        ∃ a, m.lookup k = some a ∧ evictable a = true := by
  unfold evictIfNeeded
  split
  · exact Or.inl rfl
  · exact HashMap.lookup_removeMin o evictable lastSeen m k

/-- **What the two together can do to a key.**  Its entry is untouched, or it
was one that the store may drop and it is gone. -/
theorem lookup_sweep (o : IterOrder String α) (interval : τ) (keep evictable : α → Bool)
    (hdrop : ∀ a, evictable a = true → keep a = false) (now next : τ) (maxKeys : ℕ)
    (lastSeen : α → τ) (key : String) (m : HashMap String α) (k : String) :
    (evictIfNeeded o maxKeys evictable lastSeen key
        (maybeCleanup interval keep now next m).1).lookup k = m.lookup k ∨
      (evictIfNeeded o maxKeys evictable lastSeen key
          (maybeCleanup interval keep now next m).1).lookup k = none ∧
        ∃ a, m.lookup k = some a ∧ keep a = false := by
  rcases lookup_evictIfNeeded o maxKeys evictable lastSeen key
    (maybeCleanup interval keep now next m).1 k with he | ⟨he, a, ha, hev⟩
  · rcases lookup_maybeCleanup interval keep now next m k with hc | hc
    · exact Or.inl (he.trans hc)
    · exact Or.inr ⟨he.trans hc.1, hc.2⟩
  · rcases lookup_maybeCleanup interval keep now next m k with hc | hc
    · exact Or.inr ⟨he, a, hc.symm.trans ha, hdrop a hev⟩
    · exact Or.inr ⟨he, hc.2⟩

end Store
end Noxy

/-
# The limiters that a configuration makes

`src/config.rs`: `RateLimitConfig::emit` and `SlidingWindowConfig::emit`, and what the limiters
that they build do when requests come.  Nothing of a declaration is checked but that its window
parses, so the stores are asked to do what they cannot: of a count of zero the rate limiter
waits for ever, which is no `Duration`, and the sliding window waits for the front of an empty
deque (`limiters_panic`).  A panic while the store's mutex is held poisons it, and every later
request fails at the lock.

`limiters_sound_iff` says exactly which runs of an accepted declaration get to their end.
-/

import Noxy.Config.Panics
import Noxy.RateLimiter.Checked
import Noxy.SlidingWindow.Checked

namespace Noxy
namespace Config

open Lib

variable {C : Crates}

/-- **The two readings of `Duration::from_secs_f64`.**  A duration of the configuration is in whole
nanoseconds, and one of the rate limiter in seconds that are not rounded; they are durations of the
same numbers. -/
theorem fromSecsF64_eq_ok_iff_round {x : Float64} {d : ℕ} :
    fromSecsF64 x = .ok d ↔ ∃ secs, RateLimiter.fromSecsF64 x = .ok secs ∧
      d = (Float64.roundHalfEven (secs * 1000000000)).toNat := by
  simp only [RateLimiter.fromSecsF64_eq_ok_iff]
  cases x with
  | nan => simp [fromSecsF64, Float64.IsDuration]
  | infinite negative => simp [fromSecsF64, Float64.IsDuration]
  | finite secs =>
      unfold fromSecsF64 Float64.IsDuration Float64.finitePart
      dsimp only
      split_ifs with hneg hbig
      · simp [not_le.mpr hneg]
      · simp [not_lt.mpr hbig]
      · simp only [Except.ok.injEq, not_lt.mp hneg, not_le.mp hbig, and_self, true_and,
          exists_eq_left', eq_comm]

/-- The store of a rate limiter in memory that is built at the time `created`. -/
def Middleware.rateLimitStore (created : ℚ) : Middleware C → Option RateLimiter.CheckedState
  | .rateLimiter count window burst _ none =>
      some (.new (RateLimiter.rateOf count window) burst created)
  | _ => none

/-- The store of a sliding window in memory that is built at the instant `created`. -/
def Middleware.slidingWindowStore (created : ℤ) : Middleware C → Option SlidingWindow.SharedState
  | .slidingWindow count window _ none => some (.new count window created)
  | _ => none

variable {L : Libraries} {counter count window : ℕ} {value : String} {perHost : Bool}

theorem emit_rateLimit {burst : Option ℕ} (h : parseDuration value = .ok window) :
    (Leaf.rateLimit count value burst perHost).emit L none counter =
      .ok (.rateLimiter count window (burst.getD count) perHost none : Middleware C) := by
  rw [Leaf.emit, emitRateLimit, h]
  rfl

theorem emit_slidingWindow (h : parseDuration value = .ok window) :
    (Leaf.slidingWindow count value perHost).emit L none counter =
      .ok (.slidingWindow count window perHost none : Middleware C) := by
  rw [Leaf.emit, emitSlidingWindow, h]
  rfl

/-- **When the limiters of a configuration do not panic.**  A window that parses makes the
declarations of both limiters accepted.  Then a run of requests on the rate limiter gets to its
end exactly if at each of them the tokens that are missing come in less than `2 ^ 64` seconds,
and so do those of a whole bucket where the store drops entries; one on the sliding window
exactly if the count is not zero and the instants of the wait are on the clock. -/
theorem limiters_sound_iff (L : Libraries) (counter : ℕ) (onClock : ℤ → Prop)
    [DecidablePred onClock] (count : ℕ) (burst : Option ℕ) (perHost : Bool)
    (h : parseDuration value = .ok window) :
    (∃ m : Middleware C,
      (Leaf.rateLimit count value burst perHost).emit L none counter = .ok m ∧
        ∀ created (requests : List RateLimiter.Take), ∃ store,
          m.rateLimitStore created = some store ∧
            ((∃ s, requests.foldlM RateLimiter.CheckedState.step store = .ok s) ↔
              Along (stepOr RateLimiter.CheckedState.step)
                (RateLimiter.CheckedState.SafeTake count window) store requests)) ∧
      ∃ m : Middleware C,
        (Leaf.slidingWindow count value perHost).emit L none counter = .ok m ∧
          ∀ created (requests : List SlidingWindow.Take), ∃ store,
            m.slidingWindowStore created = some store ∧
              ((∃ s, requests.foldlM (SlidingWindow.SharedState.stepOn onClock) store = .ok s) ↔
                Along (stepOr (SlidingWindow.SharedState.stepOn onClock))
                  (SlidingWindow.SharedState.SafeTake onClock) store requests) := by
  refine ⟨⟨_, emit_rateLimit h, ?_⟩, _, emit_slidingWindow h, ?_⟩
  · intro created requests
    exact ⟨_, rfl, RateLimiter.CheckedState.takes_isOk_iff rfl requests⟩
  · intro created requests
    exact ⟨_, rfl, SlidingWindow.SharedState.takes_isOk_iff onClock (fun _ => rfl) requests⟩

/-- Two requests at once under one request in a second: the second has to wait for a second,
and the run gets to its end. -/
theorem limiters_sound_two :
    parseDuration "1s" = .ok 1000000000 ∧
      ∃ m : Middleware .ascii, (Leaf.rateLimit 1 "1s" none false).emit .plain none 0 = .ok m ∧
        ∃ store, m.rateLimitStore 0 = some store ∧
          ∃ s, [⟨"", 0, .stored⟩, ⟨"", 0, .stored⟩].foldlM RateLimiter.CheckedState.step store
            = .ok s := by
  have hparse : parseDuration "1s" = .ok 1000000000 := by decide +kernel
  obtain ⟨⟨m, hemit, hruns⟩, -⟩ :=
    limiters_sound_iff (C := .ascii) .plain 0 (fun _ => True) 1 none false hparse
  obtain ⟨store, hstore, hrun⟩ := hruns 0 [⟨"", 0, .stored⟩, ⟨"", 0, .stored⟩]
  refine ⟨hparse, m, hemit, store, hstore, hrun.mpr ?_⟩
  rw [emit_rateLimit hparse] at hemit
  cases hemit
  cases hstore
  refine ⟨⟨?_, fun _ => Or.inr ?_⟩, ⟨?_, fun _ => Or.inr ?_⟩, trivial⟩ <;> decide +kernel

/-- Instants of Linux, whose seconds are an `i64`. -/
def onTimespec (now : ℤ) : Prop :=
  -(2 ^ 63) * 1000000000 ≤ now ∧ now < 2 ^ 63 * 1000000000

instance : DecidablePred onTimespec :=
  fun _ => inferInstanceAs (Decidable (_ ∧ _))

/-- **Accepted limiters that panic.**  A count of zero panics at the first request: the rate
limiter divides the token that is missing by a rate of zero, and the sliding window indexes an
empty deque.  With a window of ten quintillion seconds the rate limiter panics at the third
request at once, whose wait is longer than every `Duration`, and the sliding window at the
first, since no instant of Linux is so long ago. -/
theorem limiters_panic :
    (((forwardWith (.rateLimit 0 "1s" none false)).compile .ascii .plain).isOk ∧
      ∃ m : Middleware .ascii, (Leaf.rateLimit 0 "1s" none false).emit .plain none 0 = .ok m ∧
        ∃ store, m.rateLimitStore 0 = some store ∧
          store.step ⟨"", 0, .stored⟩ = .error .fromSecsF64) ∧
    (((forwardWith (.slidingWindow 0 "1s" false)).compile .ascii .plain).isOk ∧
      ∃ m : Middleware .ascii, (Leaf.slidingWindow 0 "1s" false).emit .plain none 0 = .ok m ∧
        ∃ store, m.slidingWindowStore 0 = some store ∧
          store.stepOn onTimespec ⟨"", 0, .stored⟩ = .error (.take .indexOutOfBounds)) ∧
    (((forwardWith (.rateLimit 1 "1e19s" none false)).compile .ascii .plain).isOk ∧
      ∃ m : Middleware .ascii, (Leaf.rateLimit 1 "1e19s" none false).emit .plain none 0 = .ok m ∧
        ∃ store, m.rateLimitStore 0 = some store ∧
          (List.replicate 3 ⟨"", 0, .stored⟩).foldlM RateLimiter.CheckedState.step store
            = .error .fromSecsF64) ∧
    ((forwardWith (.slidingWindow 1 "1e19s" false)).compile .ascii .plain).isOk ∧
      ∃ m : Middleware .ascii, (Leaf.slidingWindow 1 "1e19s" false).emit .plain none 0 = .ok m ∧
        ∃ store, m.slidingWindowStore 0 = some store ∧
          store.stepOn onTimespec ⟨"", 0, .stored⟩ = .error .instantOverflow := by
  have hsecond : parseDuration "1s" = .ok 1000000000 := by decide +kernel
  have hlong : parseDuration "1e19s" = .ok (10 ^ 28) := by decide +kernel
  refine ⟨⟨by decide +kernel, _, emit_rateLimit hsecond, _, rfl, by decide +kernel⟩,
    ⟨by decide +kernel, _, emit_slidingWindow hsecond, _, rfl, by decide +kernel⟩,
    ⟨by decide +kernel, _, emit_rateLimit hlong, _, rfl, by decide +kernel⟩,
    by decide +kernel, _, emit_slidingWindow hlong, _, rfl, by decide +kernel⟩

end Config
end Noxy

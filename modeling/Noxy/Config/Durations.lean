/-
# Durations of a configuration

`src/config.rs`: `parse_duration` and `DurationOrRange::from_str`;
`src/middleware/latency_injector.rs`: `Delay::duration`.

Compiling a configuration fails in two ways: with an error that is returned, and with a panic
(`Failure`).  `parse_duration` has both.  A text of seconds that is no number is an error, but
the number that it gives is handed to `Duration::from_secs_f64`, which panics unless it is
finite, not negative and less than `2 ^ 64` (`parseDuration_panics_iff`).  A `Duration` is a
number of nanoseconds here.

A range of two durations is not compared with anything when it is read, and `random_range`
panics on an empty one when a request comes.
-/

import Noxy.Http.Text
import Noxy.Lib.Float64

namespace Noxy
namespace Config

open Http Lib

/-- The panics of compiling a configuration, and of its latencies. -/
inductive Panic where
  /-- `Duration::from_secs_f64` of a number below zero. -/
  | negativeDuration
  /-- `Duration::from_secs_f64` of a number that is too big, or of none. -/
  | durationOverflow
  /-- The assertion of `BandwidthThrottle::new`. -/
  | bytesPerSecond
  /-- `expect("invalid header name")`. -/
  | headerName
  /-- `expect("invalid header value")`. -/
  | headerValue
  /-- `expect("invalid status code")`. -/
  | statusCode
  /-- `Semaphore::new` with more permits than there can be. -/
  | permits
  /-- `random_range` of an empty range. -/
  | emptyRange
  deriving DecidableEq, Repr

/-- How compiling a configuration fails. -/
inductive Failure where
  | error (message : String)
  | panic (p : Panic)
  deriving DecidableEq, Repr

/-- `str::strip_suffix`. -/
def stripEnd (ending text : String) : Option String :=
  if ending.toList.isSuffixOf text.toList then
    some (String.ofList (text.toList.take (text.toList.length - ending.toList.length)))
  else none

/-- `str::split_once("..")`. -/
def splitDots : List Char → Option (List Char × List Char)
  | '.' :: '.' :: rest => some ([], rest)
  | c :: rest => (splitDots rest).map fun parts => (c :: parts.1, parts.2)
  | [] => none

/-- `Duration::from_secs_f64`. -/
def fromSecsF64 : Float64 → Except Panic ℕ
  | .nan => .error .durationOverflow
  | .infinite negative => .error (if negative then .negativeDuration else .durationOverflow)
  | .finite secs =>
      if secs < 0 then .error .negativeDuration
      else if 2 ^ 64 ≤ secs then .error .durationOverflow
      else .ok (Float64.roundHalfEven (secs * 1000000000)).toNat

/-- `parse_duration`. -/
def parseDuration (text : String) : Except Failure ℕ :=
  let s := trim text
  match stripEnd "ms" s with
  | some ms =>
      match parseUnsigned 64 ms with
      | .error e => .error (.error s!"invalid duration: {e}")
      | .ok n => .ok (n * 1000000)
  | none =>
      match stripEnd "s" s with
      | some secs =>
          match Float64.fromStr secs with
          | .error e => .error (.error s!"invalid duration: {e}")
          | .ok n => (fromSecsF64 n).mapError .panic
      | none => .error (.error s!"expected duration like '200ms' or '1s', got '{s}'")

/-- `DurationOrRange`. -/
inductive DurationOrRange where
  | fixed (d : ℕ)
  | range (lo hi : ℕ)
  deriving DecidableEq, Repr

/-- `DurationOrRange::from_str`. -/
def DurationOrRange.fromStr (text : String) : Except Failure DurationOrRange :=
  match splitDots text.toList with
  | some (lo, hi) => do
      let lo ← parseDuration (String.ofList lo)
      let hi ← parseDuration (String.ofList hi)
      return .range lo hi
  | none => do
      let d ← parseDuration text
      return .fixed d

/-- `Delay`. -/
inductive Delay where
  | fixed (d : ℕ)
  | uniform (lo hi : ℕ)
  deriving DecidableEq, Repr

/-- `Delay::duration`, with the choice of `rand`. -/
def Delay.duration (choose : ℕ → ℕ → ℕ) : Delay → Except Panic ℕ
  | .fixed d => .ok d
  | .uniform lo hi => if lo < hi then .ok (choose lo hi) else .error .emptyRange

theorem fromSecsF64_isOk_iff (n : Float64) :
    (∃ d, fromSecsF64 n = .ok d) ↔ n.IsDuration := by
  cases n with
  | nan => simp [fromSecsF64, Float64.IsDuration]
  | infinite negative => simp [fromSecsF64, Float64.IsDuration]
  | finite secs =>
      unfold fromSecsF64 Float64.IsDuration
      dsimp only
      split_ifs with hneg hbig
      · simp [not_le.mpr hneg]
      · simp [not_lt.mpr hbig]
      · simpa using ⟨not_lt.mp hneg, not_le.mp hbig⟩

/-- The text is one of seconds, in a number of which there is no duration. -/
def OutOfRange (text : String) : Prop :=
  stripEnd "ms" (trim text) = none ∧
    ∃ secs n, stripEnd "s" (trim text) = some secs ∧ Float64.fromStr secs = .ok n ∧
      ¬ n.IsDuration

/-- **When `parse_duration` panics.** -/
theorem parseDuration_panics_iff (text : String) :
    (∃ p, parseDuration text = .error (.panic p)) ↔ OutOfRange text := by
  unfold parseDuration OutOfRange
  dsimp only
  cases hms : stripEnd "ms" (trim text) with
  | some ms =>
      dsimp only
      cases parseUnsigned 64 ms <;> simp
  | none =>
      dsimp only
      cases hs : stripEnd "s" (trim text) with
      | none => simp
      | some secs =>
          dsimp only
          cases hn : Float64.fromStr secs with
          | error e => simp [hn]
          | ok n =>
              have hok := fromSecsF64_isOk_iff n
              dsimp only
              cases hd : fromSecsF64 n with
              | error p =>
                  rw [hd] at hok
                  simpa [hn, Except.mapError] using hok
              | ok d =>
                  rw [hd] at hok
                  simpa [hn, Except.mapError] using hok

end Config
end Noxy

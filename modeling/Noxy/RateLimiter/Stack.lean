/-
# Stacked rate limiters

`src/middleware/rate_limiter.rs`: `RateLimiterService::call`, one inside the other, which
is what the crate offers for limits over several windows.  A request takes from the outer
store and sleeps, and the future of the inner service is polled only then: the inner
limiter takes at the time at which the outer one lets the request through.  The timers are
exact.  Each limiter has its store, with the cleanup and the eviction of `SharedState::take`,
and requests of other keys come to it in between (`Pass`).

A bucket that is never dropped is a shaper (`Limiter.stream_through`), so a stack of them is what
`Noxy.Lib.Shaper` says of shapers.  A store may drop a bucket in debt, and then it lets more
through.  If none that still counts is dropped, a stack lets each request of a key through at the
latest of the times at which the limiters alone would, whatever their order (`stack_eq_latest`),
and that is the earliest at which all their limits can be kept in order of arrival
(`stack_least`).
-/

import Noxy.Lib.Run
import Noxy.Lib.Shaper
import Noxy.RateLimiter.Cleanup

namespace Noxy
namespace RateLimiter

open Lib TokenBucket

/-- A bucket that lets something through, and is never dropped. -/
structure Limiter where
  rate : ℚ
  burst : ℕ
  rate_pos : 0 < rate
  burst_pos : 1 ≤ burst

namespace Limiter

/-- When requests that come to the limiter at the given times are let through: the first of
them creates the bucket. -/
def through (l : Limiter) : List ℚ → List ℚ
  | [] => []
  | t :: times => releases l.rate l.burst (.new l.burst t) (t :: times)

/-- Every closed interval of length `T` holds at most `burst + rate * T` of the times. -/
def Within (l : Limiter) (rs : List ℚ) : Prop :=
  ∀ a T : ℚ, 0 ≤ T →
    (rs.countP (fun r => decide (a ≤ r ∧ r ≤ a + T)) : ℚ) ≤ l.burst + l.rate * T

/-- What a limiter owes before it makes a request wait. -/
theorem slack_nonneg (l : Limiter) : 0 ≤ (l.burst : ℚ) / l.rate - 1 / l.rate := by
  rw [← sub_div]
  have hburst : (1 : ℚ) ≤ l.burst := by exact_mod_cast l.burst_pos
  exact div_nonneg (by linarith) l.rate_pos.le

/-- The distances that a limiter keeps. -/
def curve (l : Limiter) : Curve ℚ :=
  .leaky (1 / l.rate) (l.burst / l.rate - 1 / l.rate) l.slack_nonneg

end Limiter

/-- Buckets from the outermost to the innermost: each takes when the one before it lets a
request through. -/
def stack (ls : List Limiter) (times : List ℚ) : List ℚ :=
  ls.foldl (fun times l => l.through times) times

/-- The times `rs` keep the limits of all `ls` for requests that come at `times`, in order of
arrival and not before it. -/
structure Keeps (ls : List Limiter) (times rs : List ℚ) : Prop where
  after : List.Forall₂ (· ≤ ·) times rs
  sorted : rs.Pairwise (· ≤ ·)
  within : ∀ l ∈ ls, l.Within rs

namespace Limiter

variable (l : Limiter) {times : List ℚ}

/-- A limiter's bound, by its curve. -/
theorem within_iff {rs : List ℚ} :
    l.Within rs ↔ ∀ a T : ℚ, 0 ≤ T →
      (rs.countP (fun r => decide (a ≤ r ∧ r ≤ a + T)) : ℚ) * (1 / l.rate) ≤
        l.burst / l.rate - 1 / l.rate + 1 / l.rate + T := by
  refine forall₂_congr fun a T => imp_congr_right fun _ => ?_
  have hT : (l.burst : ℚ) / l.rate - 1 / l.rate + 1 / l.rate + T =
      (l.burst + l.rate * T) / l.rate := by
    have := l.rate_pos.ne'
    field_simp
    ring
  rw [hT, mul_one_div, div_le_div_iff_of_pos_right l.rate_pos]

theorem length_releases (rate burst : ℚ) (times : List ℚ) :
    ∀ b : TokenBucket, (releases rate burst b times).length = times.length := by
  induction times with
  | nil => exact fun _ => rfl
  | cons t times ih => exact fun b => congrArg (· + 1) (ih _)

theorem length_through (times : List ℚ) : (l.through times).length = times.length := by
  cases times with
  | nil => rfl
  | cons t times => exact length_releases ..

/-- A limiter is a virtual schedule that starts with nothing paid for. -/
theorem through_eq_schedule (hsorted : times.Pairwise (· ≤ ·)) :
    l.through times = schedule (1 / l.rate) (l.burst / l.rate)
      (stream times 0 - l.burst / l.rate) times := by
  cases times with
  | nil => rfl
  | cons t times =>
      exact releases_eq_schedule (l.burst : ℚ) l.rate_pos (t :: times) (.new l.burst t)
        (pairwise_cons_self hsorted)

theorem pairwise_through (hsorted : times.Pairwise (· ≤ ·)) :
    (l.through times).Pairwise (· ≤ ·) := by
  rw [l.through_eq_schedule hsorted]
  exact pairwise_schedule (one_div_pos.mpr l.rate_pos).le times _ hsorted

/-- **A limiter is a shaper.** -/
theorem stream_through (hsorted : times.Pairwise (· ≤ ·)) {n : ℕ} (hn : n < times.length) :
    stream (l.through times) n = shaped l.curve.gap (stream times) n := by
  have hitem := getElem?_schedule_idle l.slack_nonneg hsorted le_rfl hn
  rw [← l.through_eq_schedule hsorted, getElem?_eq_stream (by rwa [l.length_through])] at hitem
  exact Option.some.inj hitem

/-- **Two limiters** let a request through when the later of them would. -/
theorem stream_through_through (l' : Limiter) (hsorted : times.Pairwise (· ≤ ·)) {n : ℕ}
    (hn : n < times.length) :
    stream (l'.through (l.through times)) n =
      max (stream (l.through times) n) (stream (l'.through times) n) := by
  rw [l'.stream_through (l.pairwise_through hsorted) (by rwa [l.length_through]),
    l.stream_through hsorted hn, l'.stream_through hsorted hn, ← l.curve.shaped_shaped l'.curve]
  exact shaped_congr fun j hj => l.stream_through hsorted (by omega)

/-- A limiter keeps what is spaced, and spaces by its own curve. -/
theorem spaced_through (hsorted : times.Pairwise (· ≤ ·)) {f : ℕ → ℚ}
    (h : Spaced f (stream times) times.length ∨ f = l.curve.gap) :
    Spaced f (stream (l.through times)) (l.through times).length := by
  have hshaped : Spaced f (shaped l.curve.gap (stream times)) times.length := by
    rcases h with h | rfl
    · exact h.shaped
    · exact l.curve.spaced_shaped _
  rw [l.length_through]
  exact hshaped.congr fun i hi => l.stream_through hsorted hi

end Limiter

/-! ### The stack -/

variable {ls : List Limiter} {times : List ℚ}

theorem length_stack (ls : List Limiter) :
    ∀ times, (stack ls times).length = times.length := by
  induction ls with
  | nil => exact fun _ => rfl
  | cons l ls ih => exact fun times => (ih (l.through times)).trans (l.length_through times)

theorem pairwise_stack (ls : List Limiter) :
    ∀ {times : List ℚ}, times.Pairwise (· ≤ ·) → (stack ls times).Pairwise (· ≤ ·) := by
  induction ls with
  | nil => exact id
  | cons l ls ih => exact fun h => ih (l.pairwise_through h)

/-- The time at which the last of the limiters would let request `n` through. -/
def latest (ls : List Limiter) (times : List ℚ) (n : ℕ) : ℚ :=
  ls.foldr (fun l r => max (stream (l.through times) n) r) (stream times n)

theorem latest_cons (l : Limiter) (ls : List Limiter) (times : List ℚ) (n : ℕ) :
    latest (l :: ls) times n = max (stream (l.through times) n) (latest ls times n) := rfl

/-- A limiter in front of the others, as the last of them sees it. -/
theorem latest_through (l : Limiter) (ls : List Limiter) (hsorted : times.Pairwise (· ≤ ·)) {n : ℕ}
    (hn : n < times.length) : latest ls (l.through times) n = latest (l :: ls) times n := by
  induction ls with
  | nil =>
      have hself : stream times n ≤ stream (l.through times) n := by
        rw [l.stream_through hsorted hn]
        exact l.curve.le_shaped_self n
      exact (max_eq_left hself).symm
  | cons l' ls ih =>
      rw [latest_cons, ih, l.stream_through_through l' hsorted hn, latest_cons, latest_cons,
        latest_cons, max_max_max_comm, max_self]

/-- **A stack** lets a request through when the last of its limiters alone would. -/
theorem stream_stack (ls : List Limiter) :
    ∀ {times : List ℚ}, times.Pairwise (· ≤ ·) → ∀ {n : ℕ}, n < times.length →
      stream (stack ls times) n = latest ls times n := by
  induction ls with
  | nil => exact fun _ _ _ => rfl
  | cons l ls ih =>
      intro times hsorted n hn
      rw [← latest_through l ls hsorted hn]
      exact ih (l.pairwise_through hsorted) (by rwa [l.length_through])

theorem le_latest (ls : List Limiter) (times : List ℚ) (n : ℕ) :
    stream times n ≤ latest ls times n := by
  induction ls with
  | nil => exact le_rfl
  | cons l ls ih => exact ih.trans (le_max_right _ _)

/-- The latest of the times does not depend on the order of the limiters. -/
theorem latest_perm {ls ls' : List Limiter} (h : ls.Perm ls') (times : List ℚ) (n : ℕ) :
    latest ls times n = latest ls' times n := by
  induction h with
  | nil => rfl
  | cons l _ ih => rw [latest_cons, latest_cons, ih]
  | swap l l' ls => rw [latest_cons, latest_cons, latest_cons, latest_cons, max_left_comm]
  | trans _ _ ih ih' => exact ih.trans ih'

/-- The times at which the last of the limiters would let the requests through. -/
def latestTimes (ls : List Limiter) (times : List ℚ) : List ℚ :=
  ls.foldr (fun l rs => List.zipWith max (l.through times) rs) times

theorem length_latestTimes (ls : List Limiter) (times : List ℚ) :
    (latestTimes ls times).length = times.length := by
  induction ls with
  | nil => rfl
  | cons l ls ih =>
      rw [latestTimes, List.foldr_cons, List.length_zipWith, l.length_through]
      exact min_eq_left ih.ge

theorem stream_latestTimes (ls : List Limiter) {times : List ℚ} {n : ℕ} (hn : n < times.length) :
    stream (latestTimes ls times) n = latest ls times n := by
  induction ls with
  | nil => rfl
  | cons l ls ih =>
      have hrest : n < (latestTimes ls times).length := by rwa [length_latestTimes]
      rw [latest_cons, ← ih]
      exact stream_zipWith max (by rwa [l.length_through]) hrest

/-- Each limiter spaces what leaves the stack. -/
theorem spaced_stack (ls : List Limiter) {f : ℕ → ℚ} :
    ∀ {times : List ℚ}, times.Pairwise (· ≤ ·) →
      (Spaced f (stream times) times.length ∨ ∃ l ∈ ls, f = l.curve.gap) →
      Spaced f (stream (stack ls times)) (stack ls times).length := by
  induction ls with
  | nil =>
      rintro times - (h | ⟨l, hl, -⟩)
      · exact h
      · exact absurd hl List.not_mem_nil
  | cons l ls ih =>
      intro times hsorted h
      refine ih (l.pairwise_through hsorted) ?_
      rcases h with h | ⟨l', hl', rfl⟩
      · exact .inl (l.spaced_through hsorted (.inl h))
      · rcases List.mem_cons.mp hl' with rfl | hl'
        · exact .inl (l'.spaced_through hsorted (.inr rfl))
        · exact .inr ⟨l', hl', rfl⟩

/-- The stack keeps the limits. -/
theorem keeps_stack (ls : List Limiter) (hsorted : times.Pairwise (· ≤ ·)) :
    Keeps ls times (stack ls times) := by
  refine ⟨forall₂_iff_stream.mpr ⟨(length_stack ls times).symm, fun n hn => ?_⟩,
    pairwise_stack ls hsorted, fun l hl => ?_⟩
  · rw [stream_stack ls hsorted hn]
    exact le_latest ls times n
  · rw [l.within_iff]
    intro a T hT
    exact countP_le_of_spaced (one_div_pos.mpr l.rate_pos).le hT a _
      (spaced_stack ls hsorted (.inr ⟨l, hl, rfl⟩))

/-- What keeps the limits is nowhere ahead of the stack. -/
theorem Keeps.stack_le {rs : List ℚ} (ls : List Limiter) :
    ∀ {times : List ℚ}, times.Pairwise (· ≤ ·) → Keeps ls times rs →
      List.Forall₂ (· ≤ ·) (stack ls times) rs := by
  induction ls with
  | nil => exact fun _ h => h.after
  | cons l ls ih =>
      intro times hsorted h
      obtain ⟨hlen, hafter⟩ := forall₂_iff_stream.mp h.after
      have hspaced : Spaced l.curve.gap (stream rs) rs.length :=
        spaced_of_countP_le (one_div_pos.mpr l.rate_pos).le h.sorted
          (l.within_iff.mp (h.within l (List.mem_cons_self ..)))
      refine ih (l.pairwise_through hsorted) ⟨forall₂_iff_stream.mpr ⟨?_, fun n hn => ?_⟩, h.sorted,
        fun l' hl' => h.within l' (List.mem_cons_of_mem _ hl')⟩
      · rw [l.length_through, hlen]
      · rw [l.length_through] at hn
        rw [l.stream_through hsorted hn]
        exact shaped_le_of_spaced hspaced (fun j hj => hafter j (hlen ▸ hj)) (hlen ▸ hn)

/-! ### The stores of a stack -/

/-- A limiter of a stack at work: its store, empty at first, and the calls on it in the order of
their times. -/
structure Pass extends SharedState where
  size : ℕ
  calls : List Take
  empty : buckets = ∅
  rate_pos : 0 < rate
  burst_eq : burst = size
  size_pos : 1 ≤ size
  sorted : (calls.map Take.now).Pairwise (· ≤ ·)

namespace Pass

variable (p : Pass) (k : String)

/-- Its bucket, if it is never dropped. -/
def limiter : Limiter := ⟨p.rate, p.size, p.rate_pos, p.size_pos⟩

/-- When the requests of `k` are let through. -/
def departures : List ℚ :=
  List.zipWith (fun now delay => now + delay.getD 0) (takeTimes k p.calls)
    (p.toSharedState.delays k p.calls)

/-- No drop forgives the requests of `k` anything that counts. -/
def Unforgiven : Prop :=
  Along (Watch.step k) (Watch.Unforgiven k) ⟨p.toSharedState, [], 0⟩ p.calls

/-- Takes of `k` that are no further apart than the time to live are forgiven nothing. -/
theorem unforgiven_of_gaps
    (h : (takeTimes k p.calls).IsChain fun s t => t ≤ s + p.toSharedState.effectiveTtl) :
    p.Unforgiven k :=
  Watch.Whole.unforgiven ⟨rfl, fun _ hs => nomatch hs⟩ p.sorted h

end Pass

/-- The requests of `k` come at `times` and leave at `rs`: they come to each limiter when the one
before it lets them through. -/
def Flows (k : String) : List Pass → List ℚ → List ℚ → Prop
  | [], times, rs => rs = times
  | p :: ps, times, rs => takeTimes k p.calls = times ∧ Flows k ps (p.departures k) rs

/-- What a bucket answers says when it lets requests through. -/
theorem zipWith_aloneDelays (rate burst : ℚ) (times : List ℚ) :
    ∀ b : TokenBucket, List.zipWith (fun now delay => now + delay.getD 0) times
      (aloneDelays rate burst (some b) times) = releases rate burst b times := by
  induction times with
  | nil => exact fun _ => rfl
  | cons t times ih => exact fun b => congrArg (_ :: ·) (ih _)

/-- **A limiter whose store forgives nothing** is its bucket. -/
theorem Pass.departures_eq (p : Pass) {k : String} (h : p.Unforgiven k) :
    p.departures k = p.limiter.through (takeTimes k p.calls) := by
  have hdelays := (delays_eq_alone_iff p.empty p.rate_pos k p.sorted).mpr h
  rw [departures, hdelays, p.burst_eq]
  cases takeTimes k p.calls with
  | nil => rfl
  | cons t times => exact congrArg (_ :: ·) (zipWith_aloneDelays _ _ times _)

/-- A stack whose stores forgive nothing is a stack of buckets. -/
theorem Flows.eq_stack {k : String} {ps : List Pass} {times rs : List ℚ} (h : Flows k ps times rs)
    (hkept : ∀ p ∈ ps, p.Unforgiven k) : rs = stack (ps.map Pass.limiter) times := by
  induction ps generalizing times with
  | nil => exact h
  | cons p ps ih =>
      obtain ⟨hp, hps⟩ := List.forall_mem_cons.mp hkept
      obtain ⟨rfl, hrest⟩ := h
      rw [p.departures_eq hp] at hrest
      exact ih hrest hps

/-- **A stack of limiters is the earliest that keeps them all.**  Requests of a key come in order
to a stack of limiters, among requests of other keys, and no store forgives them anything.  The
times at which they leave keep the bound of every limiter, in order of arrival; and no times that
do so let a request through earlier. -/
theorem stack_least {k : String} {ps : List Pass} {times rs : List ℚ} (h : Flows k ps times rs)
    (hkept : ∀ p ∈ ps, p.Unforgiven k) (hsorted : times.Pairwise (· ≤ ·)) :
    Keeps (ps.map Pass.limiter) times rs ∧
      ∀ rs', Keeps (ps.map Pass.limiter) times rs' → List.Forall₂ (· ≤ ·) rs rs' := by
  rw [h.eq_stack hkept]
  exact ⟨keeps_stack _ hsorted, fun _ h => h.stack_le _ hsorted⟩

/-- `RateLimiter::keyed` and the calls on its store, with the window in seconds. -/
def Pass.keyed (count : ℕ) (window : ℚ) (calls : List Take) (hcount : 1 ≤ count)
    (hwindow : 0 < window) (hsorted : (calls.map Take.now).Pairwise (· ≤ ·)) : Pass where
  toSharedState := .new (count / window) count 0
  size := count
  calls := calls
  empty := rfl
  rate_pos := div_pos (Nat.cast_pos.mpr hcount) hwindow
  burst_eq := rfl
  size_pos := hcount
  sorted := hsorted

/-- Two requests a second: five of `a` come at once, and one of `b`. -/
def twoPerSecond : Pass :=
  .keyed 2 1 ([0, 0, 0].map (takeAt "a") ++ takeAt "b" 0 :: [0, 0].map (takeAt "a")) (by decide)
    (by decide) (by decide +kernel)

/-- Three in ten seconds: they come when they are let through. -/
def threePerTen : Pass :=
  .keyed 3 10 ([0, 0, 1 / 2].map (takeAt "a") ++ takeAt "b" 1 :: [1, 3 / 2].map (takeAt "a"))
    (by decide) (by decide) (by decide +kernel)

/-- The requests of `a` come at once and leave after at most 20/3 seconds, and the buckets are
not dropped meanwhile. -/
theorem flows_twoWindows :
    Flows "a" [twoPerSecond, threePerTen] [0, 0, 0, 0, 0] [0, 0, 1 / 2, 10 / 3, 20 / 3] ∧
      ∀ p ∈ [twoPerSecond, threePerTen], p.Unforgiven "a" := by
  have hlast : [0, 0, 1 / 2, 10 / 3, 20 / 3] = threePerTen.departures "a" := by decide +kernel
  refine ⟨⟨by decide +kernel, by decide +kernel, hlast⟩, fun p hp => ?_⟩
  apply p.unforgiven_of_gaps
  rcases List.mem_cons.mp hp with rfl | hp
  · decide +kernel
  · obtain rfl := List.mem_singleton.mp hp
    decide +kernel

/-- The hypotheses of `stack_least` are met by five requests at once and two windows. -/
theorem stack_least_burst :
    Keeps ([twoPerSecond, threePerTen].map Pass.limiter) [0, 0, 0, 0, 0]
        [0, 0, 1 / 2, 10 / 3, 20 / 3] ∧
      ∀ rs, Keeps ([twoPerSecond, threePerTen].map Pass.limiter) [0, 0, 0, 0, 0] rs →
        List.Forall₂ (· ≤ ·) [0, 0, 1 / 2, 10 / 3, 20 / 3] rs :=
  stack_least flows_twoWindows.1 flows_twoWindows.2 (by decide)

/-- **The order of the limiters does not show.**  Requests of a key come in order to a stack of
limiters, among requests of other keys, and no store forgives them anything.  Each leaves at the
latest of the times at which the limiters would let it through alone; so they leave a stack of
limiters with the same settings in another order at the same times, if no store of it forgives
them anything either. -/
theorem stack_eq_latest {k : String} {ps : List Pass} {times rs : List ℚ} (h : Flows k ps times rs)
    (hkept : ∀ p ∈ ps, p.Unforgiven k) (hsorted : times.Pairwise (· ≤ ·)) :
    rs = latestTimes (ps.map Pass.limiter) times ∧
      ∀ (ps' : List Pass) (rs' : List ℚ), Flows k ps' times rs' →
        (∀ p ∈ ps', p.Unforgiven k) →
        (ps'.map Pass.limiter).Perm (ps.map Pass.limiter) → rs' = rs := by
  rw [h.eq_stack hkept]
  constructor
  · refine eq_of_stream (by rw [length_stack, length_latestTimes]) fun n hn => ?_
    rw [length_stack] at hn
    rw [stream_stack _ hsorted hn, stream_latestTimes _ hn]
  · intro ps' rs' h' hkept' hperm
    rw [h'.eq_stack hkept']
    refine eq_of_stream (by rw [length_stack, length_stack]) fun n hn => ?_
    rw [length_stack] at hn
    rw [stream_stack _ hsorted hn, stream_stack _ hsorted hn, latest_perm hperm]

/-- The hypotheses of `stack_eq_latest` are met by five requests at once: two of them wait for the
second window only. -/
theorem stack_eq_latest_burst :
    [0, 0, 1 / 2, 10 / 3, 20 / 3] =
        latestTimes ([twoPerSecond, threePerTen].map Pass.limiter) [0, 0, 0, 0, 0] ∧
      ∀ (ps' : List Pass) (rs' : List ℚ), Flows "a" ps' [0, 0, 0, 0, 0] rs' →
        (∀ p ∈ ps', p.Unforgiven "a") →
        (ps'.map Pass.limiter).Perm ([twoPerSecond, threePerTen].map Pass.limiter) →
          rs' = [0, 0, 1 / 2, 10 / 3, 20 / 3] :=
  stack_eq_latest flows_twoWindows.1 flows_twoWindows.2 (by decide)

end RateLimiter
end Noxy

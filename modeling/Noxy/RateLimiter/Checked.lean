/-
# The rate limiter on its machine

`src/middleware/rate_limiter.rs`: `TokenBucket::take` and `SharedState::take` once more, with
the values of `f64` that are not numbers and with the conversions to `Duration` that panic.

`Noxy.RateLimiter.State` has a rational rate.  The rate of the code is a quotient of two `f64`:
a window of no length makes it infinite, or no number if the count is zero too (`rateOf`).  A
bucket with such a rate is full at every `take`, since `f64::min` ignores what is no number.
The time to wait, and the time in which an empty bucket fills, are quotients by the rate; the
code tests the second for being finite, and neither for being short enough for a `Duration`.

`take_isOk_iff` says when a `take` does not panic, by the state before it and the two numbers
that the rate was made of; `takes_isOk_iff` says it for a run.  A `take` that does not panic
under a finite rate is that of the rational model (`take_exact`).
-/

import Noxy.Lib.Fallible
import Noxy.Lib.Float64
import Noxy.Lib.Run
import Noxy.RateLimiter.State

namespace Noxy
namespace RateLimiter

open Lib

/-- The run-time failure of `take`. -/
inductive Panic where
  /-- `Duration::from_secs_f64` of what is no duration. -/
  | fromSecsF64
  deriving DecidableEq, Repr

/-- `Duration::from_secs_f64`, in seconds. -/
def fromSecsF64 : Float64 → Except Panic ℚ
  | .finite secs => if 0 ≤ secs ∧ secs < 2 ^ 64 then .ok secs else .error .fromSecsF64
  | _ => .error .fromSecsF64

/-- `count as f64 / window.as_secs_f64()`, of a window in nanoseconds. -/
def rateOf (count window : ℕ) : Float64 := .quotient count (window / 1000000000)

/-- What is paid at the rate of no request per window takes no number of seconds. -/
theorem divide_rateOf_zero (a : ℚ) (window : ℕ) (secs : ℚ) :
    Float64.divide a (rateOf 0 window) ≠ .finite secs := by
  unfold rateOf Float64.quotient
  rcases eq_or_ne (window : ℚ) 0 with hw | hw
  · simp [hw, Float64.divide]
  · simp only [Nat.cast_zero, zero_div, ne_eq, div_eq_zero_iff, hw, OfNat.ofNat_ne_zero, or_self,
      not_false_eq_true, if_true, Float64.divide, Float64.quotient, not_true_eq_false, if_false]
    split <;> simp

/-- What is paid at the rate of `count` requests per window takes its share of windows. -/
theorem divide_rateOf {count : ℕ} (hcount : count ≠ 0) (a : ℚ) (window : ℕ) :
    Float64.divide a (rateOf count window) =
      .finite (a * window / (1000000000 * count)) := by
  have hc : (count : ℚ) ≠ 0 := Nat.cast_ne_zero.mpr hcount
  unfold rateOf Float64.quotient
  rcases eq_or_ne (window : ℚ) 0 with hw | hw
  · simp [hw, hc, Float64.divide]
  · have hsecs : (window : ℚ) / 1000000000 ≠ 0 := div_ne_zero hw (by norm_num)
    rw [if_pos hsecs, Float64.divide, Float64.quotient, if_pos (div_ne_zero hc hsecs)]
    congr 1
    field_simp

/-- There is a `Duration` in which `a` requests are paid. -/
theorem isDuration_divide_rateOf {a : ℚ} (ha : 0 < a) (count window : ℕ) :
    (Float64.divide a (rateOf count window)).IsDuration ↔
      a * window < 2 ^ 64 * 1000000000 * count := by
  have hpos : 0 ≤ a * window := mul_nonneg ha.le (Nat.cast_nonneg window)
  rcases eq_or_ne count 0 with rfl | hcount
  · refine ⟨fun h => ?_, fun h => ?_⟩
    · cases hd : Float64.divide a (rateOf 0 window) with
      | nan => rw [hd] at h; exact h.elim
      | infinite negative => rw [hd] at h; exact h.elim
      | finite secs => exact absurd hd (divide_rateOf_zero a window secs)
    · rw [Nat.cast_zero, mul_zero] at h
      exact absurd h (not_lt.mpr hpos)
  · have hc : (0 : ℚ) < 1000000000 * count := by positivity
    rw [divide_rateOf hcount, Float64.IsDuration, div_lt_iff₀ hc, ← mul_assoc]
    exact and_iff_right (div_nonneg hpos hc.le)

theorem fromSecsF64_eq_ok_iff {x : Float64} {secs : ℚ} :
    fromSecsF64 x = .ok secs ↔ x.IsDuration ∧ x.finitePart = secs := by
  cases x with
  | nan => simp [fromSecsF64, Float64.IsDuration]
  | infinite negative => simp [fromSecsF64, Float64.IsDuration]
  | finite q =>
      unfold fromSecsF64 Float64.IsDuration Float64.finitePart
      dsimp only
      split <;> simp_all

/-! ### The bucket -/

namespace TokenBucket

/-- The tokens of a bucket when it has been refilled. -/
def refilled (b : TokenBucket) (rate : Float64) (burst now : ℚ) : ℚ :=
  match rate with
  | .finite rate => min (b.tokens + max (now - b.lastRefill) 0 * rate) burst
  | _ => burst

/-- `TokenBucket::take`. -/
def takeChecked (b : TokenBucket) (rate : Float64) (burst now : ℚ) :
    Except Panic (Option ℚ × TokenBucket) :=
  let tokens := b.refilled rate burst now - 1
  if tokens < 0 then
    match fromSecsF64 (.divide (-tokens) rate) with
    | .error p => .error p
    | .ok delay => .ok (some delay, ⟨tokens, now⟩)
  else .ok (none, ⟨tokens, now⟩)

theorem takeChecked_isOk_iff {b : TokenBucket} {rate : Float64} {burst now : ℚ} :
    (∃ r, b.takeChecked rate burst now = .ok r) ↔
      (b.refilled rate burst now - 1 < 0 →
        (Float64.divide (-(b.refilled rate burst now - 1)) rate).IsDuration) := by
  unfold takeChecked
  dsimp only
  split
  · rename_i hneg
    cases hd : fromSecsF64 (.divide (-(b.refilled rate burst now - 1)) rate) with
    | error p =>
        refine ⟨?_, fun h => ?_⟩
        · rintro ⟨r, h⟩
          cases h
        · have := fromSecsF64_eq_ok_iff.mpr ⟨h hneg, rfl⟩
          rw [hd] at this
          cases this
    | ok delay => exact ⟨fun _ _ => (fromSecsF64_eq_ok_iff.mp hd).1, fun _ => ⟨_, rfl⟩⟩
  · rename_i hpos
    exact ⟨fun _ hneg => absurd hneg hpos, fun _ => ⟨_, rfl⟩⟩

/-- With a finite rate a `take` that does not panic is that of the rational model. -/
theorem takeChecked_exact {b : TokenBucket} {rate burst now : ℚ} {r : Option ℚ × TokenBucket}
    (h : b.takeChecked (.finite rate) burst now = .ok r) : b.take rate burst now = r := by
  unfold takeChecked refilled at h
  unfold take
  dsimp only at h ⊢
  split at h
  · rename_i hneg
    rw [if_pos hneg]
    split at h
    · cases h
    · rename_i delay hd
      cases h
      obtain ⟨hdur, rfl⟩ := fromSecsF64_eq_ok_iff.mp hd
      unfold Float64.divide Float64.quotient at hdur ⊢
      dsimp only at hdur ⊢
      split at hdur
      · rename_i hrate
        rw [if_pos hrate]
        rfl
      · split at hdur <;> cases hdur
  · rename_i hpos
    rw [if_neg hpos]
    cases h
    rfl

end TokenBucket

/-! ### The store -/

/-- `SharedState`, with the rate of the code. -/
structure CheckedState where
  buckets : HashMap String BucketState
  rate : Float64
  burst : ℚ
  maxKeys : ℕ
  idleTtl : ℚ
  nextCleanup : ℚ

namespace CheckedState

/-- `InMemoryRateLimitStore::new` at the time `now`. -/
def new (rate : Float64) (burst now : ℚ) : CheckedState :=
  { buckets := ∅
    rate := rate
    burst := burst
    maxKeys := DEFAULT_MAX_KEYS
    idleTtl := DEFAULT_IDLE_TTL
    nextCleanup := now + CLEANUP_INTERVAL }

/-- The state of the rational model. -/
def exact (s : CheckedState) : SharedState :=
  ⟨s.buckets, s.rate.finitePart, s.burst, s.maxKeys, s.idleTtl, s.nextCleanup⟩

/-- A state of the rational model with a rate. -/
def withRate (st : SharedState) (rate : Float64) : CheckedState :=
  ⟨st.buckets, rate, st.burst, st.maxKeys, st.idleTtl, st.nextCleanup⟩

/-- `refill_horizon`. -/
def refillHorizon (s : CheckedState) : Except Panic ℚ :=
  match Float64.divide s.burst s.rate with
  | .finite secs => if secs ≤ 0 then .ok 0 else fromSecsF64 (.finite secs)
  | _ => .ok 0

/-- `effective_ttl`. -/
def effectiveTtl (s : CheckedState) : Except Panic ℚ := s.refillHorizon.map (max s.idleTtl)

/-- `maybe_cleanup`. -/
def maybeCleanup (s : CheckedState) (now : ℚ) : Except Panic CheckedState :=
  if now < s.nextCleanup then .ok s
  else
    match s.effectiveTtl with
    | .error p => .error p
    | .ok ttl =>
        .ok { s with
          buckets := s.buckets.retain fun _ st => decide (secondsSince now st.lastSeen ≤ ttl)
          nextCleanup := now + CLEANUP_INTERVAL }

/-- `evict_if_needed`. -/
def evictIfNeeded (o : IterOrder String BucketState) (s : CheckedState) (key : String)
    (now : ℚ) : Except Panic CheckedState :=
  if key ∈ s.buckets ∨ s.buckets.len < s.maxKeys then .ok s
  else
    match s.effectiveTtl with
    | .error p => .error p
    | .ok ttl =>
        .ok { s with
          buckets := s.buckets.removeMin o (fun st => decide (ttl < secondsSince now st.lastSeen))
            BucketState.lastSeen }

/-- How `take` starts. -/
def sweep (s : CheckedState) (c : Take) : Except Panic CheckedState :=
  match s.maybeCleanup c.now with
  | .error p => .error p
  | .ok s => s.evictIfNeeded c.order c.key c.now

/-- `SharedState::take`. -/
def take (s : CheckedState) (c : Take) : Except Panic (Option ℚ × CheckedState) :=
  match s.sweep c with
  | .error p => .error p
  | .ok s =>
      match (s.exact.bucketOrNew c.key c.now).takeChecked s.rate s.burst c.now with
      | .error p => .error p
      | .ok (delay, bucket) =>
          .ok (delay, { s with buckets := s.buckets.insert c.key ⟨bucket, c.now⟩ })

/-- The store after a call. -/
def step (s : CheckedState) (c : Take) : Except Panic CheckedState := (s.take c).map Prod.snd

/-- The time in which an empty bucket fills is short enough for a `Duration`, if it is
finite. -/
def HorizonFits (s : CheckedState) : Prop :=
  ∀ secs, Float64.divide s.burst s.rate = .finite secs → secs < 2 ^ 64

/-- The cleanup is due, or a new key comes when the map is full. -/
def NeedsHorizon (s : CheckedState) (c : Take) : Prop :=
  s.nextCleanup ≤ c.now ∨ c.key ∉ s.buckets ∧ s.maxKeys ≤ s.buckets.len

/-- The tokens of the key at a `take`. -/
def available (s : CheckedState) (c : Take) : ℚ :=
  ((s.exact.sweep c).bucketOrNew c.key c.now).refilled s.rate s.burst c.now

/-- **A `take` that asks for no duration that there is not.**  At `count` requests in
`window` nanoseconds the tokens that are missing come in less than `2 ^ 64` seconds, and so do
those of a whole bucket if the store has to know that time. -/
structure SafeTake (count window : ℕ) (s : CheckedState) (c : Take) : Prop where
  delay : s.available c < 1 → (1 - s.available c) * window < 2 ^ 64 * 1000000000 * count
  horizon : s.NeedsHorizon c → count = 0 ∨ s.burst * window < 2 ^ 64 * 1000000000 * count

/-! ### The sweep -/

theorem effectiveTtl_of_fits {s : CheckedState} (h : s.HorizonFits) :
    s.effectiveTtl = .ok s.exact.effectiveTtl := by
  have hor : s.refillHorizon = .ok s.exact.refillHorizon := by
    unfold refillHorizon SharedState.refillHorizon exact
    unfold HorizonFits at h
    cases hr : s.rate with
    | nan => simp [Float64.divide, Float64.finitePart]
    | infinite negative => simp [Float64.divide, Float64.finitePart]
    | finite r =>
        rw [hr] at h
        unfold Float64.divide Float64.quotient at h ⊢
        dsimp only [Float64.finitePart] at h ⊢
        rcases eq_or_ne r 0 with rfl | hne
        · simp only [ne_eq, not_true_eq_false, if_false, div_zero, le_refl, if_true]
          split <;> rename_i heq
          · split at heq <;> cases heq
          · rfl
        · rw [if_pos hne] at h ⊢
          dsimp only
          split
          · rfl
          · rename_i hpos
            exact if_pos ⟨(not_le.mp hpos).le, h _ rfl⟩
  rw [effectiveTtl, hor]
  rfl

theorem effectiveTtl_of_not_fits {s : CheckedState} (h : ¬ s.HorizonFits) :
    s.effectiveTtl = .error .fromSecsF64 := by
  obtain ⟨secs, hsecs⟩ := not_forall.mp h
  obtain ⟨heq, hbig⟩ := Classical.not_imp.mp hsecs
  have hpos : ¬ secs ≤ 0 := fun hle => hbig (hle.trans_lt (by norm_num))
  rw [effectiveTtl, refillHorizon, heq]
  dsimp only
  rw [if_neg hpos, fromSecsF64, if_neg (fun hr => hbig hr.2)]
  rfl

/-- A cleanup that is not due needs no horizon, and neither does an eviction with room for the
key: both stores are as they were. -/
theorem sweep_of_not_needsHorizon {s : CheckedState} {c : Take} (h : ¬ s.NeedsHorizon c) :
    s.sweep c = .ok s ∧ s.exact.sweep c = s.exact := by
  obtain ⟨hdue, hroom⟩ := not_or.mp h
  have hlt : c.now < s.nextCleanup := not_le.mp hdue
  have hkey : c.key ∈ s.buckets ∨ s.buckets.len < s.maxKeys := by
    by_contra hn
    obtain ⟨hmem, hlen⟩ := not_or.mp hn
    exact hroom ⟨hmem, not_lt.mp hlen⟩
  refine ⟨?_, ?_⟩
  · rw [sweep, maybeCleanup, if_pos hlt]
    exact if_pos hkey
  · have hclean : s.exact.maybeCleanup c.now = s.exact := SharedState.maybeCleanup_of_lt hlt
    rw [SharedState.sweep, hclean]
    exact SharedState.evictIfNeeded_of_room hkey c.now

theorem maybeCleanup_of_fits {s : CheckedState} (h : s.HorizonFits) (now : ℚ) :
    s.maybeCleanup now = .ok (withRate (s.exact.maybeCleanup now) s.rate) := by
  rw [maybeCleanup, effectiveTtl_of_fits h]
  by_cases hlt : now < s.nextCleanup
  · have hclean : s.exact.maybeCleanup now = s.exact := SharedState.maybeCleanup_of_lt hlt
    rw [if_pos hlt, hclean]
    rfl
  · have hle : s.exact.nextCleanup ≤ now := not_lt.mp hlt
    rw [if_neg hlt, SharedState.maybeCleanup_of_le hle]
    rfl

theorem evictIfNeeded_of_fits {s : CheckedState} (h : s.HorizonFits)
    (o : IterOrder String BucketState) (key : String) (now : ℚ) :
    s.evictIfNeeded o key now = .ok (withRate (s.exact.evictIfNeeded o key now) s.rate) := by
  rw [evictIfNeeded, effectiveTtl_of_fits h]
  by_cases hkey : key ∈ s.buckets ∨ s.buckets.len < s.maxKeys
  · have hevict : s.exact.evictIfNeeded o key now = s.exact :=
      SharedState.evictIfNeeded_of_room hkey now
    rw [if_pos hkey, hevict]
    rfl
  · have hfull : ¬ (key ∈ s.exact.buckets ∨ s.exact.buckets.len < s.exact.maxKeys) := hkey
    rw [if_neg hkey, SharedState.evictIfNeeded_of_full hfull]
    rfl

theorem exact_withRate {st : SharedState} {rate : Float64} (h : st.rate = rate.finitePart) :
    (withRate st rate).exact = st := by
  rw [exact, withRate, ← h]

/-- With a horizon that fits, or none that is needed, the sweep is that of the rational
model. -/
theorem sweep_eq_ok {s : CheckedState} {c : Take} (h : s.NeedsHorizon c → s.HorizonFits) :
    s.sweep c = .ok (withRate (s.exact.sweep c) s.rate) := by
  by_cases hneeds : s.NeedsHorizon c
  · rw [sweep, maybeCleanup_of_fits (h hneeds)]
    dsimp only
    -- the cleanup changes neither the rate nor the burst, so the horizon fits after it too
    have hfits : (withRate (s.exact.maybeCleanup c.now) s.rate).HorizonFits := h hneeds
    rw [evictIfNeeded_of_fits hfits, exact_withRate rfl]
    rfl
  · obtain ⟨hsweep, hexact⟩ := sweep_of_not_needsHorizon hneeds
    rw [hsweep, hexact]
    rfl

/-- A horizon that is needed and does not fit is a panic. -/
theorem sweep_eq_error {s : CheckedState} {c : Take} (hneeds : s.NeedsHorizon c)
    (hfits : ¬ s.HorizonFits) : s.sweep c = .error .fromSecsF64 := by
  rw [sweep, maybeCleanup, effectiveTtl_of_not_fits hfits]
  by_cases hlt : c.now < s.nextCleanup
  · obtain ⟨hmem, hlen⟩ := hneeds.resolve_left (not_le.mpr hlt)
    rw [if_pos hlt]
    dsimp only
    rw [evictIfNeeded, if_neg (not_or.mpr ⟨hmem, not_lt.mpr hlen⟩), effectiveTtl_of_not_fits hfits]
  · rw [if_neg hlt]

theorem horizonFits_iff {count window : ℕ} {s : CheckedState}
    (hrate : s.rate = rateOf count window) :
    s.HorizonFits ↔ count = 0 ∨ s.burst * window < 2 ^ 64 * 1000000000 * count := by
  unfold HorizonFits
  rw [hrate]
  rcases eq_or_ne count 0 with rfl | hcount
  · exact ⟨fun _ => Or.inl rfl, fun _ secs h => absurd h (divide_rateOf_zero _ _ secs)⟩
  · have hc : (0 : ℚ) < 1000000000 * count := by positivity
    rw [divide_rateOf hcount, or_iff_right hcount, mul_assoc (2 ^ 64 : ℚ), ← div_lt_iff₀ hc]
    refine ⟨fun h => h _ rfl, ?_⟩
    rintro h secs heq
    cases heq
    exact h

/-! ### A call and a run -/

/-- A `take` whose sweep does not panic is one of the key's bucket. -/
theorem take_eq_map {s : CheckedState} {c : Take} (h : s.NeedsHorizon c → s.HorizonFits) :
    s.take c =
      (((s.exact.sweep c).bucketOrNew c.key c.now).takeChecked s.rate s.burst c.now).map fun r =>
        (r.1, withRate { s.exact.sweep c with
          buckets := (s.exact.sweep c).buckets.insert c.key ⟨r.2, c.now⟩ } s.rate) := by
  rw [take, sweep_eq_ok h]
  dsimp only
  rw [exact_withRate rfl]
  have hrate : (withRate (s.exact.sweep c) s.rate).rate = s.rate := rfl
  have hburst : (withRate (s.exact.sweep c) s.rate).burst = s.burst := rfl
  rw [hrate, hburst]
  rcases TokenBucket.takeChecked _ _ _ _ with p | ⟨delay, bucket⟩ <;> rfl

/-- **When a `take` does not panic**, of a limiter of `count` requests in `window`
nanoseconds. -/
theorem take_isOk_iff {count window : ℕ} {s : CheckedState} (hrate : s.rate = rateOf count window)
    (c : Take) : (∃ r, s.take c = .ok r) ↔ s.SafeTake count window c := by
  have hdelay : (s.available c - 1 < 0 →
      (Float64.divide (-(s.available c - 1)) s.rate).IsDuration) ↔
        (s.available c < 1 → (1 - s.available c) * window < 2 ^ 64 * 1000000000 * count) := by
    rw [sub_neg, neg_sub, hrate]
    exact imp_congr_right fun hlt => isDuration_divide_rateOf (sub_pos.mpr hlt) count window
  by_cases hsweep : s.NeedsHorizon c → s.HorizonFits
  · rw [take_eq_map hsweep]
    refine exists_map_eq_ok_iff.trans ?_
    refine TokenBucket.takeChecked_isOk_iff.trans (hdelay.trans ?_)
    exact ⟨fun h => ⟨h, fun hn => (horizonFits_iff hrate).mp (hsweep hn)⟩, SafeTake.delay⟩
  · obtain ⟨hneeds, hfits⟩ := Classical.not_imp.mp hsweep
    rw [take, sweep_eq_error hneeds hfits]
    refine ⟨?_, fun h => absurd ((horizonFits_iff hrate).mpr (h.horizon hneeds)) hfits⟩
    rintro ⟨r, h⟩
    cases h

/-- What a `take` that does not panic has done. -/
theorem take_eq_ok {s s' : CheckedState} {c : Take} {delay : Option ℚ}
    (h : s.take c = .ok (delay, s')) :
    ∃ bucket, ((s.exact.sweep c).bucketOrNew c.key c.now).takeChecked s.rate s.burst c.now
        = .ok (delay, bucket) ∧
      s' = withRate { s.exact.sweep c with
        buckets := (s.exact.sweep c).buckets.insert c.key ⟨bucket, c.now⟩ } s.rate := by
  have hsweep : s.NeedsHorizon c → s.HorizonFits := by
    intro hneeds
    by_contra hfits
    rw [take, sweep_eq_error hneeds hfits] at h
    cases h
  rw [take_eq_map hsweep] at h
  obtain ⟨⟨delay', bucket⟩, hr, heq⟩ := map_eq_ok_iff.mp h
  cases heq
  exact ⟨bucket, hr, rfl⟩

/-- **A `take` that does not panic is exact.**  Under a finite rate it gives the delay and the
store of the rational model. -/
theorem take_exact {s s' : CheckedState} {c : Take} {rate : ℚ} {delay : Option ℚ}
    (hrate : s.rate = .finite rate) (h : s.take c = .ok (delay, s')) :
    s.exact.take c = (delay, s'.exact) := by
  obtain ⟨bucket, htaken, rfl⟩ := take_eq_ok h
  rw [hrate] at htaken
  have hexact : (s.exact.sweep c).rate = rate := by
    have hfinite : s.rate.finitePart = rate := by rw [hrate, Float64.finitePart]
    exact hfinite
  have hbucket : ((s.exact.sweep c).bucketOrNew c.key c.now).take (s.exact.sweep c).rate
      (s.exact.sweep c).burst c.now = (delay, bucket) := by
    rw [hexact]
    exact TokenBucket.takeChecked_exact htaken
  rw [exact_withRate rfl, SharedState.take]
  dsimp only
  rw [hbucket]

/-- No call changes the rate. -/
theorem rate_stepOr (s : CheckedState) (c : Take) : (stepOr step s c).rate = s.rate := by
  unfold stepOr step
  cases h : s.take c with
  | error p => rfl
  | ok r =>
      obtain ⟨bucket, -, heq⟩ := take_eq_ok h
      show r.2.rate = s.rate
      rw [heq, withRate]

/-- **When a run does not panic**: if each of its calls finds a store that it may ask. -/
theorem takes_isOk_iff {count window : ℕ} {s : CheckedState}
    (hrate : s.rate = rateOf count window) (calls : List Take) :
    (∃ s', calls.foldlM step s = .ok s') ↔
      Along (stepOr step) (SafeTake count window) s calls := by
  refine foldlM_isOk_iff.trans (along_congr_of_kept (J := fun s => s.rate = rateOf count window)
    ?_ ?_ hrate calls)
  · intro s c h
    exact (rate_stepOr s c).trans h
  · intro s c h
    exact exists_map_eq_ok_iff.trans (take_isOk_iff h c)

end CheckedState
end RateLimiter
end Noxy

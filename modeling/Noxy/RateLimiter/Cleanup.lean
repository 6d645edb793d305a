/-
# When dropping a bucket shows

`src/middleware/rate_limiter.rs`: `SharedState::take` drops buckets that have been
idle for long enough that an empty one would be full again.  A bucket can be deeper
in debt than empty, and then dropping it forgives what is left of the debt: with one
request an hour and three at once, the bucket is dropped after an hour although the
third of them is still waiting (`debt_forgiven`).

Compared with a bucket of the key's own that is never dropped (`aloneDelays`), the
delays of a key are the same exactly if at each of its takes no stretch of takes
that reaches back beyond the last drop is in a worse overdraft than all those since
(`delays_eq_alone_iff`).  The run is watched by `Watch`: beside the store it carries
the times of the key's takes and how many of them the store's entry has seen
(`Watch.Sound`).  Takes that are no further apart than the time to live never meet a drop
(`Watch.Whole.unforgiven`).
-/

import Mathlib.Data.List.Chain
import Noxy.Lib.Run
import Noxy.RateLimiter.Overdraft
import Noxy.RateLimiter.State

namespace Noxy
namespace RateLimiter

open Lib

/-- What a bucket that is never dropped answers to takes at the given times; `none`
is a bucket that is not there yet. -/
def aloneDelays (rate burst : ℚ) : Option TokenBucket → List ℚ → List (Option ℚ)
  | _, [] => []
  | b, now :: times =>
      ((b.getD (.new burst now)).take rate burst now).1 ::
        aloneDelays rate burst (some ((b.getD (.new burst now)).take rate burst now).2) times

/-- The times of the calls on `k`. -/
def takeTimes (k : String) (calls : List Take) : List ℚ :=
  (calls.filter fun c => c.key == k).map Take.now

theorem takeTimes_cons_self {k : String} {c : Take} (hk : c.key = k) (calls : List Take) :
    takeTimes k (c :: calls) = c.now :: takeTimes k calls := by
  simp [takeTimes, hk]

theorem takeTimes_cons_ne {k : String} {c : Take} (hk : c.key ≠ k) (calls : List Take) :
    takeTimes k (c :: calls) = takeTimes k calls := by
  simp [takeTimes, hk]

/-- A store, the times of the takes of one key, newest first, and how many of them its
entry has seen. -/
structure Watch where
  store : SharedState
  taken : List ℚ
  known : ℕ

namespace Watch

/-- How many takes of its key, before this one, the entry that a call finds has seen:
none, if it is not there. -/
def remembered (w : Watch) (c : Take) : ℕ :=
  if ((w.store.sweep c).buckets.lookup c.key).isSome then w.known else 0

/-- A call, watched for the key `k`. -/
def step (k : String) (w : Watch) (c : Take) : Watch :=
  if c.key = k then ⟨w.store.step c, c.now :: w.taken, w.remembered c + 1⟩
  else { w with store := w.store.step c }

/-- If the call is on `k`: every stretch of takes of `k` up to it is within the burst
and the refill, or in no worse overdraft than one of those that the entry has seen. -/
def Unforgiven (k : String) (w : Watch) (c : Take) : Prop :=
  c.key = k → ∀ i s, (c.now :: w.taken)[i]? = some s →
    overdraft w.store.rate w.store.burst c.now i s ≤ 0 ∨
      ∃ j u, j ≤ w.remembered c ∧ (c.now :: w.taken)[j]? = some u ∧
        overdraft w.store.rate w.store.burst c.now i s ≤
          overdraft w.store.rate w.store.burst c.now j u

/-- What holds during a run, `b` being the bucket that is never dropped: it has seen
all takes, and the entry of `k`, if there is one, the last few. -/
structure Sound (k : String) (w : Watch) (b : Option TokenBucket) (t : ℚ) : Prop where
  rate : 0 < w.store.rate
  past : ∀ s ∈ w.taken.head?, s ≤ t
  alone : match w.taken with
    | [] => b = none
    | s :: before => ∃ b', b = some b' ∧ b'.Took w.store.rate w.store.burst s before
  entry : ∀ e, w.store.buckets.lookup k = some e → ∃ s before n, w.taken = s :: before ∧
    w.known = n + 1 ∧ e.bucket.Took w.store.rate w.store.burst s (before.take n)

variable {k : String} {w : Watch} {b : Option TokenBucket} {t : ℚ} {c : Take}

/-- An entry that a call leaves was there before it. -/
theorem lookup_of_sweep {e : BucketState}
    (h : (w.store.sweep c).buckets.lookup k = some e) : w.store.buckets.lookup k = some e :=
  Store.lookup_of_kept (w.store.lookup_sweep c k) h

/-- The bucket that is never dropped, after a call on `k`, has seen all takes. -/
theorem Sound.took_alone (h : Sound k w b t) (ht : t ≤ c.now) :
    ((b.getD (.new w.store.burst c.now)).take w.store.rate w.store.burst c.now).2.Took
      w.store.rate w.store.burst c.now w.taken := by
  have halone := h.alone
  have hpast := h.past
  cases htaken : w.taken with
  | nil =>
      rw [htaken] at halone
      obtain rfl : b = none := halone
      exact TokenBucket.took_new h.rate
  | cons s before =>
      rw [htaken] at halone hpast
      obtain ⟨b', rfl, hb'⟩ := halone
      exact hb'.take h.rate ((hpast s rfl).trans ht)

/-- The store's bucket, after a call on `k`, has seen the takes that the entry it found
remembers. -/
theorem Sound.took_entry (h : Sound k w b t) (hk : c.key = k) (ht : t ≤ c.now) :
    (((w.store.sweep c).bucketOrNew c.key c.now).take w.store.rate w.store.burst c.now).2.Took
      w.store.rate w.store.burst c.now (w.taken.take (w.remembered c)) := by
  subst hk
  unfold remembered SharedState.bucketOrNew
  cases hswept : (w.store.sweep c).buckets.lookup c.key with
  | none => exact TokenBucket.took_new h.rate
  | some e =>
      obtain ⟨s, before, n, htaken, hknown, htook⟩ := h.entry e (lookup_of_sweep hswept)
      have hs : s ≤ c.now := (h.past s (by rw [htaken]; rfl)).trans ht
      have htook' : TokenBucket.Took _ _ _ c.now (s :: before.take n) := htook.take h.rate hs
      simpa [htaken, hknown] using htook'

/-- **One call.**  A call on `k` returns what the bucket that is never dropped does
exactly if the drop of its entry forgave nothing that counts. -/
theorem Sound.delay_iff (h : Sound k w b t) (hk : c.key = k) (ht : t ≤ c.now) :
    (w.store.take c).1 = ((b.getD (.new w.store.burst c.now)).take
        w.store.rate w.store.burst c.now).1 ↔ w.Unforgiven k c := by
  rw [SharedState.take_fst, TokenBucket.take_delay, TokenBucket.take_delay,
    delay_eq_iff h.rate (h.took_alone ht) (h.took_entry hk ht)]
  exact ⟨fun hall _ => hall, fun hall => hall hk⟩

/-- A call on `k` keeps the watch sound. -/
theorem Sound.step_self (h : Sound k w b t) (hk : c.key = k) (ht : t ≤ c.now) :
    Sound k (step k w c) (some ((b.getD (.new w.store.burst c.now)).take
      w.store.rate w.store.burst c.now).2) c.now := by
  have hentry := h.took_entry hk ht
  rw [step, if_pos hk]
  subst hk
  refine ⟨h.rate, by simp, ⟨_, rfl, h.took_alone ht⟩, fun e he => ?_⟩
  obtain rfl := Option.some.inj ((w.store.lookup_step_self c).symm.trans he)
  exact ⟨c.now, w.taken, w.remembered c, rfl, rfl, hentry⟩

/-- A call on another key keeps the watch sound. -/
theorem Sound.step_ne (h : Sound k w b t) (hk : c.key ≠ k) (ht : t ≤ c.now) :
    Sound k (step k w c) b c.now := by
  rw [step, if_neg hk]
  refine ⟨h.rate, fun s hs => (h.past s hs).trans ht, h.alone, fun e he => ?_⟩
  rw [SharedState.lookup_step_ne _ hk.symm] at he
  exact h.entry e (lookup_of_sweep he)

/-- **A whole run.** -/
theorem Sound.delays_iff {calls : List Take} (h : Sound k w b t)
    (hsorted : (t :: calls.map Take.now).Pairwise (· ≤ ·)) :
    w.store.delays k calls = aloneDelays w.store.rate w.store.burst b (takeTimes k calls) ↔
      Along (step k) (Unforgiven k) w calls := by
  induction calls generalizing w b t with
  | nil => exact iff_of_true rfl trivial
  | cons c calls ih =>
      rw [List.map_cons, List.pairwise_cons] at hsorted
      have ht : t ≤ c.now := hsorted.1 c.now (List.mem_cons_self ..)
      by_cases hk : c.key = k
      · have hrest := ih (h.step_self hk ht) hsorted.2
        rw [SharedState.delays, if_pos hk, takeTimes_cons_self hk, aloneDelays, List.cons.injEq,
          h.delay_iff hk ht, Along, ← hrest, step, if_pos hk]
        rfl
      · have hrest := ih (h.step_ne hk ht) hsorted.2
        have hskip : w.Unforgiven k c := fun hc => absurd hc hk
        rw [SharedState.delays, if_neg hk, takeTimes_cons_ne hk, Along, ← hrest, step, if_neg hk]
        exact (and_iff_right hskip).symm

/-- The entry of `k` has seen all its takes, the last of them at the time it was last seen. -/
def Whole (k : String) (w : Watch) : Prop :=
  w.known = w.taken.length ∧
    ∀ s ∈ w.taken.head?, ∃ e, w.store.buckets.lookup k = some e ∧ e.lastSeen = s

/-- An entry that was seen lately enough is there. -/
theorem Whole.lookup_sweep (h : Whole k w) {s : ℚ} (hs : s ∈ w.taken.head?)
    (hnow : c.now ≤ s + w.store.effectiveTtl) :
    ∃ e, (w.store.sweep c).buckets.lookup k = some e ∧ e.lastSeen = s := by
  obtain ⟨e, he, hseen⟩ := h.2 s hs
  rcases w.store.lookup_sweep c k with hkept | ⟨-, e', he', hidle⟩
  · exact ⟨e, hkept.trans he, hseen⟩
  · obtain rfl := Option.some.inj (he'.symm.trans he)
    rw [hseen, secondsSince, lt_max_iff] at hidle
    have := w.store.effectiveTtl_nonneg
    rcases hidle with hidle | hidle <;> linarith

/-- A take of `k` that comes in time finds all the takes before it remembered. -/
theorem Whole.remembered_eq (h : Whole k w) (hk : c.key = k)
    (hnow : ∀ s ∈ w.taken.head?, c.now ≤ s + w.store.effectiveTtl) :
    w.remembered c = w.taken.length := by
  unfold remembered
  cases htaken : w.taken with
  | nil => simp [h.1, htaken]
  | cons s before =>
      have hs : s ∈ w.taken.head? := by
        rw [htaken]
        rfl
      obtain ⟨e, he, -⟩ := h.lookup_sweep hs (hnow s hs)
      rw [hk, he, Option.isSome_some, if_pos rfl, h.1, htaken]

theorem Whole.step_self (h : Whole k w) (hk : c.key = k)
    (hnow : ∀ s ∈ w.taken.head?, c.now ≤ s + w.store.effectiveTtl) : Whole k (step k w c) := by
  rw [step, if_pos hk]
  refine ⟨by rw [h.remembered_eq hk hnow, List.length_cons], fun s hs => ?_⟩
  obtain rfl := Option.some.inj hs
  exact ⟨_, hk ▸ w.store.lookup_step_self c, rfl⟩

theorem Whole.step_ne (h : Whole k w) (hk : c.key ≠ k)
    (hnow : ∀ s ∈ w.taken.head?, c.now ≤ s + w.store.effectiveTtl) : Whole k (step k w c) := by
  rw [step, if_neg hk]
  refine ⟨h.1, fun s hs => ?_⟩
  rw [SharedState.lookup_step_ne _ hk.symm]
  exact h.lookup_sweep hs (hnow s hs)

/-- **Takes that are no further apart than the time to live** find their bucket. -/
theorem Whole.unforgiven {calls : List Take} (h : Whole k w)
    (hsorted : (calls.map Take.now).Pairwise (· ≤ ·))
    (hgaps : (w.taken.head?.toList ++ takeTimes k calls).IsChain fun s t =>
      t ≤ s + w.store.effectiveTtl) :
    Along (step k) (Unforgiven k) w calls := by
  induction calls generalizing w with
  | nil => trivial
  | cons c calls ih =>
      rw [List.map_cons, List.pairwise_cons] at hsorted
      by_cases hk : c.key = k
      · rw [takeTimes_cons_self hk] at hgaps
        have hnow : ∀ s ∈ w.taken.head?, c.now ≤ s + w.store.effectiveTtl := by
          intro s hs
          exact (List.isChain_append.mp hgaps).2.2 s (by rw [Option.mem_def.mp hs]; rfl) _ rfl
        refine ⟨fun _ i s hi => .inr ⟨i, s, ?_, hi, le_rfl⟩, ?_⟩
        · have hlen := (List.getElem?_eq_some_iff.mp hi).1
          rw [List.length_cons] at hlen
          rw [h.remembered_eq hk hnow]
          omega
        · refine ih (h.step_self hk hnow) hsorted.2 ?_
          rw [step, if_pos hk]
          exact (List.isChain_append.mp hgaps).2.1
      · rw [takeTimes_cons_ne hk] at hgaps
        refine ⟨fun hc => absurd hc hk, ?_⟩
        cases hrest : takeTimes k calls with
        | nil =>
            -- The key takes no more.
            refine along_of_forall (fun w' c' hc' hc => ?_) _
            have hmem : c'.now ∈ takeTimes k calls :=
              List.mem_map_of_mem (List.mem_filter.mpr ⟨hc', by simp [hc]⟩)
            rw [hrest] at hmem
            exact absurd hmem List.not_mem_nil
        | cons t times =>
            -- Its next take comes later than this call.
            have hmem : t ∈ takeTimes k calls := by rw [hrest]; exact List.mem_cons_self
            obtain ⟨c', hc', rfl⟩ := List.mem_map.mp hmem
            have hnow : c.now ≤ c'.now :=
              hsorted.1 _ (List.mem_map_of_mem (List.mem_filter.mp hc').1)
            refine ih (h.step_ne hk fun s hs => hnow.trans ?_) hsorted.2 ?_
            · rw [hrest] at hgaps
              exact (List.isChain_append.mp hgaps).2.2 s (by rw [Option.mem_def.mp hs]; rfl) _ rfl
            · rw [step, if_neg hk]
              exact hgaps

end Watch

/-- **When dropping buckets is unobservable.**  From an empty store with any settings,
for takes on any keys in the order of their times, the delays of the takes of `k` are
those of a bucket that is never dropped and sees the takes of `k` only, exactly if
at every take of `k` each stretch of its takes is within the burst and the refill, or
in no worse overdraft than a stretch of takes since the entry of `k` was last
created. -/
theorem delays_eq_alone_iff {s : SharedState} (hempty : s.buckets = ∅) (hrate : 0 < s.rate)
    (k : String) {calls : List Take} (hsorted : (calls.map Take.now).Pairwise (· ≤ ·)) :
    s.delays k calls = aloneDelays s.rate s.burst none (takeTimes k calls) ↔
      Along (Watch.step k) (Watch.Unforgiven k) ⟨s, [], 0⟩ calls := by
  have hsound : ∀ t, Watch.Sound k ⟨s, [], 0⟩ none t := fun t =>
    ⟨hrate, by simp, rfl, fun e he => by simp [hempty] at he⟩
  cases calls with
  | nil => exact iff_of_true rfl trivial
  | cons c calls =>
      exact (hsound c.now).delays_iff (pairwise_cons_self hsorted)

/-- One request an hour. -/
def hourly : SharedState := .new (1 / 3600) 1 0

/-- A take of `k` at a time. -/
def takeAt (k : String) (now : ℚ) : Take := ⟨k, now, .stored⟩

/-- The hypotheses of `delays_eq_alone_iff` are met by one request an hour and takes on two keys,
where the second take of `a` finds its bucket dropped. -/
theorem delays_eq_alone_hourly :
    ((run SharedState.step hourly [takeAt "a" 0, takeAt "b" 0]).sweep
        (takeAt "a" 3601)).buckets.lookup "a" = none ∧
      (hourly.delays "a" [takeAt "a" 0, takeAt "b" 0, takeAt "a" 3601] =
          aloneDelays hourly.rate hourly.burst none [0, 3601] ↔
        Along (Watch.step "a") (Watch.Unforgiven "a") ⟨hourly, [], 0⟩
          [takeAt "a" 0, takeAt "b" 0, takeAt "a" 3601]) :=
  ⟨by decide +kernel, delays_eq_alone_iff rfl (by decide +kernel) "a" (by decide +kernel)⟩

/-- **Dropping a bucket forgives its debt.**  Of three requests at once, with one
allowed an hour, the third waits for two hours.  A request an hour and a second after
them finds the bucket dropped and does not wait at all, where the bucket itself would
make it wait for almost two hours more. -/
theorem debt_forgiven :
    hourly.delays "a" [takeAt "a" 0, takeAt "a" 0, takeAt "a" 0, takeAt "a" 3601] =
        [none, some 3600, some 7200, none] ∧
      aloneDelays (1 / 3600) 1 none [0, 0, 0, 3601] =
        [none, some 3600, some 7200, some 7199] := by
  decide +kernel

end RateLimiter
end Noxy

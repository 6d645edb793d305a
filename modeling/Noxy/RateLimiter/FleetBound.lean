/-
# What proxies that share a rate limit let through

`src/middleware/rate_limiter.rs`: `RedisRateLimitStore::take`, of any number of proxies that use
one Redis.

However the calls interleave and whichever of them fail, an interval of length `T` holds at most
`max burst 1 + rate * T` requests for each bucket that was made, two milliseconds more for what
Redis rounds (`fleet_conforms`).  A key that no store forgets has one bucket, and one more for
each proxy that fell back.

Each request is decided by one store (`countP_releases_eq_sum`), and what a store decides is
counted by its buckets (`countP_releasesFrom_le`), with the bound of `Noxy.RateLimiter.Restarts`.
-/

import Mathlib.Algebra.Order.BigOperators.Group.Finset
import Noxy.RateLimiter.Fleet

namespace Noxy
namespace RateLimiter

open Lib Redis

namespace Fleet

variable {n : ℕ} {k : String} {b : TokenBucket} {f : Fleet n} {c : Call n} {σ : Option (Fin n)}

/-! ### What a store lets through -/

/-- The requests that a store lets through are counted by those of its buckets. -/
theorem countP_releasesFrom_le (a T : ℚ) (calls : List (Call n)) (b : TokenBucket) (f : Fleet n)
    (hshared : f.Shared)
    (hfollows : f.Follows k b σ) (hlast : ∀ c ∈ calls, b.lastRefill ≤ clock c σ)
    (hsorted : (calls.map Call.now).Pairwise (· ≤ ·)) :
    (f.releasesFrom k σ calls).countP (fun r => decide (a ≤ r ∧ r ≤ a + T)) ≤
      (restarts f.redis.rate f.redis.burst b (f.visitsAt k σ calls)).countP
        (fun r => decide (a - 2 / 1000 ≤ r ∧ r ≤ a - 2 / 1000 + (T + 2 / 1000))) := by
  induction calls generalizing b f with
  | nil => exact Nat.zero_le _
  | cons c calls ih =>
      rw [List.map_cons, List.pairwise_cons] at hsorted
      have hnext : ∀ c' ∈ calls, clock c σ ≤ clock c' σ := fun c' hc' =>
        clock_mono (hsorted.1 _ (List.mem_map_of_mem hc')) σ
      rw [releasesFrom, visitsAt]
      by_cases hvisit : c.key = k ∧ f.visits c σ
      · obtain ⟨hfollows', hrelease⟩ := hfollows.visit hvisit.1 hvisit.2
          (hlast c (List.mem_cons_self ..)) hshared
        have hrest := ih (f.taken c σ b).2 (f.step c) (hshared.step c) hfollows' hnext
          hsorted.2
        rw [step_redis] at hrest
        rw [if_pos hvisit, restarts]
        split
        · rename_i hdecides
          obtain ⟨hlow, hhigh⟩ := hrelease hdecides.2
          refine (List.countP_cons ..).trans_le ?_
          rw [List.countP_cons]
          refine Nat.add_le_add hrest ?_
          split
          · rename_i hin
            simp only [decide_eq_true_eq] at hin
            rw [if_pos]
            simp only [decide_eq_true_eq]
            show a - 2 / 1000 ≤ clock c σ + ((f.taken c σ b).1).getD 0 ∧
              clock c σ + ((f.taken c σ b).1).getD 0 ≤ _
            constructor <;> linarith
          · exact Nat.zero_le _
        · exact hrest.trans (by rw [List.countP_cons]; exact Nat.le_add_right _ _)
      · have hnot : ¬ (c.key = k ∧ f.decider c = σ) := fun h =>
          hvisit ⟨h.1, visits_of_decider h.2⟩
        have hrest := ih b (f.step c) (hshared.step c)
          (hfollows.other hshared hvisit)
          (fun c' hc' => hlast c' (List.mem_cons_of_mem _ hc')) hsorted.2
        rw [step_redis] at hrest
        rwa [if_neg hvisit, if_neg hnot]

/-- Every request is decided by one store. -/
theorem countP_releases_eq_sum (p : ℚ → Bool) (calls : List (Call n)) (f : Fleet n) :
    (f.releases k calls).countP p = ∑ σ, (f.releasesFrom k σ calls).countP p := by
  induction calls generalizing f with
  | nil => simp [releases, releasesFrom]
  | cons c calls ih =>
      simp only [releases, releasesFrom]
      by_cases hk : c.key = k
      · have hstore : ∀ σ, (if c.key = k ∧ f.decider c = σ then
            (c.now + ((f.take c).1).getD 0) :: (f.step c).releasesFrom k σ calls
              else (f.step c).releasesFrom k σ calls).countP p =
            ((f.step c).releasesFrom k σ calls).countP p +
              if f.decider c = σ then (if p (c.now + ((f.take c).1).getD 0) then 1 else 0)
                else 0 := by
          intro σ
          by_cases hσ : f.decider c = σ
          · rw [if_pos ⟨hk, hσ⟩, if_pos hσ, List.countP_cons]
          · rw [if_neg fun h => hσ h.2, if_neg hσ, add_zero]
        rw [if_pos hk, List.countP_cons, ih, Finset.sum_congr rfl fun σ _ => hstore σ,
          Finset.sum_add_distrib, Finset.sum_ite_eq, if_pos (Finset.mem_univ _)]
      · simp only [hk, false_and, if_false]
        exact ih (f.step c)

/-! ### How often a bucket is made -/

theorem clock_of_mem_visitsAt {v : Visit} (calls : List (Call n)) (f : Fleet n)
    (hv : v ∈ f.visitsAt k σ calls) : ∃ c ∈ calls, v.now = clock c σ := by
  induction calls generalizing f with
  | nil => cases hv
  | cons c calls ih =>
      rw [visitsAt] at hv
      split at hv
      · rcases List.mem_cons.mp hv with rfl | hv
        · exact ⟨c, List.mem_cons_self .., rfl⟩
        · obtain ⟨c', hc', hnow⟩ := ih _ hv
          exact ⟨c', List.mem_cons_of_mem _ hc', hnow⟩
      · obtain ⟨c', hc', hnow⟩ := ih _ hv
        exact ⟨c', List.mem_cons_of_mem _ hc', hnow⟩

theorem pairwise_visitsAt (calls : List (Call n)) (f : Fleet n)
    (hsorted : (calls.map Call.now).Pairwise (· ≤ ·)) :
    ((f.visitsAt k σ calls).map Visit.now).Pairwise (· ≤ ·) := by
  induction calls generalizing f with
  | nil => exact List.Pairwise.nil
  | cons c calls ih =>
      rw [List.map_cons, List.pairwise_cons] at hsorted
      rw [visitsAt]
      split
      · rw [List.map_cons, List.pairwise_cons]
        refine ⟨fun t ht => ?_, ih _ hsorted.2⟩
        obtain ⟨v, hv, rfl⟩ := List.mem_map.mp ht
        obtain ⟨c', hc', hnow⟩ := clock_of_mem_visitsAt calls _ hv
        rw [hnow]
        exact clock_mono (hsorted.1 _ (List.mem_map_of_mem hc')) σ
      · exact ih _ hsorted.2

/-- The store has no bucket for `k`. -/
def Missing (k : String) (f : Fleet n) : Option (Fin n) → Prop
  | none => f.db.lookup (f.redis.redisKey k) = none
  | some i => (f.fallback i).buckets.lookup k = none

/-- The store has a bucket for `k` that was last taken from at `t`. -/
def Alive (k : String) (t : ℚ) (f : Fleet n) : Option (Fin n) → Prop
  | none => ∃ hash tMs, t = secs tMs ∧
      f.db.lookup (f.redis.redisKey k) = some ⟨hash, some (tMs + f.redis.ttlMs)⟩
  | some i => ∃ e, (f.fallback i).buckets.lookup k = some e ∧ e.lastSeen = t

theorem Missing.other (hmissing : f.Missing k σ) (hshared : f.Shared)
    (hnot : ¬ (c.key = k ∧ f.visits c σ)) : (f.step c).Missing k σ := by
  cases σ with
  | none =>
      unfold Missing
      rw [step_redis]
      rcases lookup_db_of_not_visit hshared hnot with hsame | helapsed
      · exact hsame.trans hmissing
      · exact helapsed.trans (lookup_elapse_none hmissing)
  | some i =>
      rcases lookup_fallback_of_not_visit hnot with hsame | hgone
      · exact hsame.trans hmissing
      · exact hgone.1

theorem Missing.fresh (hmissing : f.Missing c.key σ) : f.fresh c σ = true := by
  cases σ with
  | none =>
      have hnone : (elapse c.nowMs f.db).lookup (f.redis.redisKey c.key) = none :=
        lookup_elapse_none hmissing
      simp [Fleet.fresh, hnone]
  | some i =>
      have hnone : ((f.fallback i).sweep c.fallbackTake).buckets.lookup c.key = none := by
        rcases (f.fallback i).lookup_sweep c.fallbackTake c.key with hsame | hgone
        · exact hsame.trans hmissing
        · exact hgone.1
      simp [Fleet.fresh, hnone]

/-- A bucket in Redis is there until its time is up. -/
theorem live_of_clock_le {hash : Hash ℚ} {tMs : ℤ}
    (h : clock c none ≤ secs tMs + f.ttl none) :
    Entry.live c.nowMs (⟨hash, some (tMs + f.redis.ttlMs)⟩ : Entry (Hash ℚ)) = true := by
  have hms : (c.nowMs : ℚ) ≤ ((tMs + f.redis.ttlMs : ℤ) : ℚ) := by
    have : (c.nowMs : ℚ) / 1000 ≤ (tMs : ℚ) / 1000 + (f.redis.ttlMs : ℚ) / 1000 := h
    push_cast
    linarith
  have hle : c.nowMs ≤ tMs + f.redis.ttlMs := by exact_mod_cast hms
  simpa [Entry.live] using hle

theorem not_idle_of_clock_le {i : Fin n} {e : BucketState} {t : ℚ} (hseen : e.lastSeen = t)
    (h : clock c (some i) ≤ t + f.ttl (some i))
    (hidle : (f.fallback i).effectiveTtl < secondsSince c.now e.lastSeen) :
    False := by
  have hnow : c.now ≤ t + (f.fallback i).effectiveTtl := h
  have hpos : 0 ≤ (f.fallback i).effectiveTtl := f.ttl_nonneg (some i)
  unfold secondsSince at hidle
  rcases lt_max_iff.mp hidle with hlt | hlt
  · linarith
  · linarith

theorem Alive.other {t : ℚ} (halive : f.Alive k t σ) (hshared : f.Shared)
    (hnot : ¬ (c.key = k ∧ f.visits c σ)) (hclock : clock c σ ≤ t + f.ttl σ) :
    (f.step c).Alive k t σ := by
  cases σ with
  | none =>
      obtain ⟨hash, tMs, rfl, hlookup⟩ := halive
      refine ⟨hash, tMs, rfl, ?_⟩
      rw [step_redis]
      rcases lookup_db_of_not_visit hshared hnot with hsame | helapsed
      · exact hsame.trans hlookup
      · exact helapsed.trans (lookup_elapse_live hlookup (live_of_clock_le hclock))
  | some i =>
      obtain ⟨e, hlookup, hseen⟩ := halive
      rcases lookup_fallback_of_not_visit hnot with hsame | ⟨_, e', he', hidle⟩
      · exact ⟨e, hsame.trans hlookup, hseen⟩
      · obtain rfl := Option.some.inj (hlookup.symm.trans he')
        exact (not_idle_of_clock_le hseen hclock hidle).elim

theorem Alive.not_fresh {t : ℚ} (halive : f.Alive c.key t σ)
    (hclock : clock c σ ≤ t + f.ttl σ) : f.fresh c σ = false := by
  cases σ with
  | none =>
      obtain ⟨hash, tMs, rfl, hlookup⟩ := halive
      have hsome := lookup_elapse_live hlookup (live_of_clock_le hclock)
      simp [Fleet.fresh, hsome]
  | some i =>
      obtain ⟨e, hlookup, hseen⟩ := halive
      rcases (f.fallback i).lookup_sweep c.fallbackTake c.key with hsame | ⟨_, e', he', hidle⟩
      · simp [Fleet.fresh, hsame, hlookup]
      · obtain rfl := Option.some.inj (hlookup.symm.trans he')
        exact (not_idle_of_clock_le hseen hclock hidle).elim

theorem alive_visit (hfollows : f.Follows k b σ) (hk : c.key = k) (hvisits : f.visits c σ)
    (hlast : b.lastRefill ≤ clock c σ) : (f.step c).Alive k (clock c σ) σ := by
  subst hk
  cases σ with
  | none =>
      have hrun : c.outcome ≠ .unreachable := by simpa [visits] using hvisits
      obtain ⟨hash, hlookup, _⟩ := (reply_of_follows hfollows hlast).2
      refine ⟨hash, c.nowMs, rfl, ?_⟩
      rw [step_db, if_neg hrun, step_redis]
      exact hlookup
  | some i =>
      have hdecider : f.decider c = some i := by simpa [visits] using hvisits
      have hstore := (step_fallback f c i).trans (if_pos hdecider)
      have hself := (f.fallback i).lookup_step_self c.fallbackTake
      rw [← hstore] at hself
      exact ⟨_, hself, rfl⟩

/-- A bucket that is taken from before its time is up is not made anew. -/
theorem not_fresh_of_alive (calls : List (Call n)) (t : ℚ) (b : TokenBucket) (f : Fleet n)
    (hshared : f.Shared)
    (hfollows : f.Follows k b σ) (hlast : ∀ c ∈ calls, b.lastRefill ≤ clock c σ)
    (hsorted : (calls.map Call.now).Pairwise (· ≤ ·)) (halive : f.Alive k t σ)
    (hchain : (t :: (f.visitsAt k σ calls).map Visit.now).IsChain fun s u => u ≤ s + f.ttl σ) :
    (f.visitsAt k σ calls).countP Visit.fresh = 0 := by
  induction calls generalizing t b f with
  | nil => rfl
  | cons c calls ih =>
      rw [List.map_cons, List.pairwise_cons] at hsorted
      have hnext : ∀ c' ∈ calls, clock c σ ≤ clock c' σ := fun c' hc' =>
        clock_mono (hsorted.1 _ (List.mem_map_of_mem hc')) σ
      rw [visitsAt] at hchain ⊢
      by_cases hvisit : c.key = k ∧ f.visits c σ
      · have hc := hlast c (List.mem_cons_self ..)
        rw [if_pos hvisit, List.map_cons, List.isChain_cons_cons] at hchain
        have hrest := ih (clock c σ) (f.taken c σ b).2 (f.step c) (hshared.step c)
          (hfollows.visit hvisit.1 hvisit.2 hc hshared).1 hnext hsorted.2
          (alive_visit hfollows hvisit.1 hvisit.2 hc) (by rw [ttl_step]; exact hchain.2)
        have hfresh : (f.visit c σ).fresh = false :=
          Alive.not_fresh (by rwa [hvisit.1]) hchain.1
        rw [if_pos hvisit, List.countP_cons, hrest, hfresh]
        rfl
      · rw [if_neg hvisit] at hchain ⊢
        cases hvisits : (f.step c).visitsAt k σ calls with
        | nil => rfl
        | cons v vs =>
            -- The call comes before the next take, and so before the bucket's time is up.
            obtain ⟨c', hc', hnow⟩ := clock_of_mem_visitsAt calls (f.step c)
              (hvisits ▸ List.mem_cons_self .. : v ∈ (f.step c).visitsAt k σ calls)
            have hclock : clock c σ ≤ t + f.ttl σ := by
              rw [hvisits, List.map_cons, List.isChain_cons_cons] at hchain
              exact (hnext c' hc').trans (hnow ▸ hchain.1)
            rw [← hvisits]
            exact ih t b (f.step c) (hshared.step c) (hfollows.other hshared hvisit)
              (fun c' hc' => hlast c' (List.mem_cons_of_mem _ hc')) hsorted.2
              (halive.other hshared hvisit hclock) (by rwa [ttl_step])

theorem Missing.follows (hmissing : f.Missing k σ) (b : TokenBucket) : f.Follows k b σ := by
  cases σ with
  | none => exact Or.inl hmissing
  | some i =>
      intro e he
      rw [show (f.fallback i).buckets.lookup k = none from hmissing] at he
      cases he

/-- The first take finds no bucket. -/
theorem fresh_head_visitsAt (calls : List (Call n)) (f : Fleet n)
    (hshared : f.Shared) (hmissing : f.Missing k σ) :
    ∀ v ∈ (f.visitsAt k σ calls).head?, v.fresh = true := by
  induction calls generalizing f with
  | nil => exact fun v hv => nomatch hv
  | cons c calls ih =>
      rw [visitsAt]
      split
      · rename_i hvisit
        intro v hv
        obtain rfl := Option.some.inj hv
        exact Missing.fresh (by rwa [hvisit.1])
      · rename_i hvisit
        exact ih (f.step c) (hshared.step c) (hmissing.other hshared hvisit)

/-- **A bucket that no pause is too long for** is made once. -/
theorem countP_fresh_le_one (calls : List (Call n)) (f : Fleet n)
    (hshared : f.Shared)
    (hsorted : (calls.map Call.now).Pairwise (· ≤ ·)) (hmissing : f.Missing k σ)
    (hchain : ((f.visitsAt k σ calls).map Visit.now).IsChain fun s u => u ≤ s + f.ttl σ) :
    (f.visitsAt k σ calls).countP Visit.fresh ≤ 1 := by
  induction calls generalizing f with
  | nil => exact Nat.zero_le _
  | cons c calls ih =>
      rw [List.map_cons, List.pairwise_cons] at hsorted
      rw [visitsAt] at hchain ⊢
      by_cases hvisit : c.key = k ∧ f.visits c σ
      · rw [if_pos hvisit, List.map_cons] at hchain
        have hfollows := hmissing.follows (.new 0 (clock c σ))
        have hrest := not_fresh_of_alive calls (clock c σ) (f.taken c σ (.new 0 (clock c σ))).2
          (f.step c) (hshared.step c)
          (hfollows.visit hvisit.1 hvisit.2 le_rfl hshared).1
          (fun c' hc' => clock_mono (hsorted.1 _ (List.mem_map_of_mem hc')) σ) hsorted.2
          (alive_visit hfollows hvisit.1 hvisit.2 le_rfl) (by rw [ttl_step]; exact hchain)
        rw [if_pos hvisit, List.countP_cons, hrest]
        split
        · exact le_rfl
        · exact Nat.zero_le _
      · rw [if_neg hvisit] at hchain ⊢
        exact ih (f.step c) (hshared.step c) hsorted.2 (hmissing.other hshared hvisit)
          (by rwa [ttl_step])

end Fleet

/-- **Proxies that share a rate limit.**  Proxies with one limit in one Redis serve calls on any
keys, in order of their times, and some cannot reach Redis or lose its reply.  An interval of
length `T` holds at most `max burst 1 + rate * (T + 2 / 1000)` requests of a key for each bucket
that was made for it.  If no two takes of the key that follow each other in one store are further
apart than its time to live, that is one bucket in Redis and one for each proxy that fell back. -/
theorem fleet_conforms (store : RedisRateLimitStore) (hrate : 0 < store.rate)
    (hinj : Function.Injective store.redisKey) {db : Db (Hash ℚ)} {k : String}
    (hmissing : db.lookup (store.redisKey k) = none) {n : ℕ} (started : ℚ) {calls : List (Call n)}
    (hsorted : (calls.map Call.now).Pairwise (· ≤ ·)) :
    (∀ a T : ℚ, 0 ≤ T →
      (((Fleet.new store db started).releases k calls).countP
          (fun r => decide (a ≤ r ∧ r ≤ a + T)) : ℚ) ≤
        (Fleet.new store db started).created k calls *
          (max store.burst 1 + store.rate * (T + 2 / 1000))) ∧
      ((∀ σ, (((Fleet.new store db started).visitsAt k σ calls).map Visit.now).IsChain
          fun s u => u ≤ s + (Fleet.new store db started : Fleet n).ttl σ) →
        (Fleet.new store db started).created k calls ≤
          1 + ((Fleet.new store db started).fellBack k calls).card) := by
  set f : Fleet n := .new store db started
  have hshared : f.Shared := ⟨hinj, hrate, fun _ => ⟨rfl, rfl⟩⟩
  have hnone : ∀ σ, f.Missing k σ := by
    intro σ
    cases σ with
    | none => exact hmissing
    | some i => rfl
  constructor
  · intro a T hT
    have hstore : ∀ σ, ((f.releasesFrom k σ calls).countP
        (fun r => decide (a ≤ r ∧ r ≤ a + T)) : ℚ) ≤
          (f.visitsAt k σ calls).countP Visit.fresh *
            (max store.burst 1 + store.rate * (T + 2 / 1000)) := by
      intro σ
      cases hcalls : calls with
      | nil => simp [Fleet.releasesFrom, Fleet.visitsAt]
      | cons c rest =>
          rw [← hcalls]
          have hfirst : ∀ c' ∈ calls, Fleet.clock c σ ≤ Fleet.clock c' σ := by
            intro c' hc'
            rw [hcalls] at hc' hsorted
            rcases List.mem_cons.mp hc' with rfl | hc'
            · exact le_rfl
            · exact Fleet.clock_mono
                ((List.pairwise_cons.mp hsorted).1 _ (List.mem_map_of_mem hc')) σ
          have hle := Fleet.countP_releasesFrom_le (σ := σ) (k := k) a T calls
            (.new 0 (Fleet.clock c σ)) f hshared ((hnone σ).follows _) hfirst hsorted
          have hbound := countP_restarts_le store.burst hrate (.new 0 (Fleet.clock c σ))
            (Fleet.pairwise_visitsAt (σ := σ) (k := k) calls f hsorted)
            (Fleet.fresh_head_visitsAt calls f hshared (hnone σ)) (a - 2 / 1000)
            (add_nonneg hT (by norm_num) : 0 ≤ T + 2 / 1000)
          exact le_trans (by exact_mod_cast hle) hbound
    rw [Fleet.countP_releases_eq_sum, Fleet.created]
    push_cast
    rw [Finset.sum_mul]
    exact Finset.sum_le_sum fun σ _ => hstore σ
  · intro hchain
    have hone : ∀ σ, (f.visitsAt k σ calls).countP Visit.fresh ≤ 1 := fun σ =>
      Fleet.countP_fresh_le_one calls f hshared hsorted (hnone σ) (hchain σ)
    rw [Fleet.created, Fintype.sum_option, Fleet.fellBack, Finset.card_filter]
    refine Nat.add_le_add (hone none) (Finset.sum_le_sum fun i _ => ?_)
    split
    · exact hone (some i)
    · rename_i hempty
      rw [not_not.mp hempty]
      exact Nat.zero_le _

/-- One request a second, two at once. -/
def perSecond : RedisRateLimitStore := ⟨1, 2, fun key => "noxy:rate_limit:" ++ key⟩

theorem perSecond_redisKey_injective : Function.Injective perSecond.redisKey := fun a b h => by
  simpa [perSecond] using h

/-- Two proxies and a key: a call that Redis serves, one whose reply is lost, and one more. -/
def twoProxies (p q : Fin 2) : List (Call 2) :=
  [⟨p, "k", 0, .served, .stored⟩, ⟨q, "k", 0, .lost, .stored⟩, ⟨p, "k", 1, .served, .stored⟩]

/-- The hypotheses of `fleet_conforms` are met by two proxies, one of which falls back. -/
theorem fleet_conforms_twoProxies :
    (∀ a T : ℚ, 0 ≤ T →
      (((Fleet.new perSecond ∅ 0).releases "k" (twoProxies 0 1)).countP
          (fun r => decide (a ≤ r ∧ r ≤ a + T)) : ℚ) ≤
        (Fleet.new perSecond ∅ 0).created "k" (twoProxies 0 1) *
          (max perSecond.burst 1 + perSecond.rate * (T + 2 / 1000))) ∧
      ((∀ σ, (((Fleet.new perSecond ∅ 0).visitsAt "k" σ (twoProxies 0 1)).map Visit.now).IsChain
          fun s u => u ≤ s + (Fleet.new perSecond ∅ 0 : Fleet 2).ttl σ) →
        (Fleet.new perSecond ∅ 0).created "k" (twoProxies 0 1) ≤
          1 + ((Fleet.new perSecond ∅ 0).fellBack "k" (twoProxies 0 1)).card) :=
  fleet_conforms perSecond (by decide +kernel) perSecond_redisKey_injective rfl 0
    (by decide +kernel)

example : (Fleet.new perSecond ∅ 0).created "k" (twoProxies 0 1) = 2 ∧
    (Fleet.new perSecond ∅ 0).fellBack "k" (twoProxies 0 1) = {1} := by decide +kernel

end RateLimiter
end Noxy

/-
# How many keys an in-memory store holds

`src/middleware/rate_limiter.rs`, `src/middleware/sliding_window.rs` and
`src/middleware/circuit_breaker.rs`: `max_keys` is a soft cap.  A store at capacity evicts a key
that it may drop before it creates another one, and if there is none it grows.

What the three stores have in common is a call that sweeps the map and sets the entry of its key
(`touch`).  The entry of a key is kept for a while after a call on it (`Keeper.stays`), and the
keys that a call keeps at some time are the active ones.  A store has at most `max_keys` entries,
or at most as many as there were active keys at a call less than a cleanup interval ago
(`soft_cap_run`).  So it shrinks back as keys become idle, within a cleanup interval.
-/

import Mathlib.Algebra.Order.Group.Defs
import Noxy.Lib.Run
import Noxy.Store.Keyed

namespace Noxy
namespace Store

open Lib

/-- The settings of a store, and what it reads of a call; `ι` is what is noted of a call. -/
structure Keeper (τ α ι : Type*) where
  maxKeys : ℕ
  interval : τ
  /-- The test of the cleanup: whether an entry is kept at a time. -/
  keep : τ → α → Bool
  lastSeen : α → τ
  key : ι → String
  now : ι → τ
  order : ι → IterOrder String α
  /-- Whether a call keeps the entry of its key at a time. -/
  stays : ι → τ → Bool

namespace Keeper

variable {τ α ι : Type*}

section Touch

variable [LinearOrder τ] [Add τ]

/-- A call: the cleanup, the eviction, and the entry that it leaves. -/
def touch (S : Keeper τ α ι) (c : ι) (entry : α) (m : HashMap String α) (next : τ) :
    HashMap String α × τ :=
  let swept := maybeCleanup S.interval (S.keep (S.now c)) (S.now c) next m
  ((evictIfNeeded (S.order c) S.maxKeys (fun a => !S.keep (S.now c) a) S.lastSeen (S.key c)
    swept.1).insert (S.key c) entry, swept.2)

end Touch

/-- The keys that are active at a time. -/
def active (S : Keeper τ α ι) (calls : List ι) (t : τ) : Finset String :=
  ((calls.filter fun c => S.stays c t).map S.key).toFinset

theorem mem_active {S : Keeper τ α ι} {calls : List ι} {t : τ} {k : String} :
    k ∈ S.active calls t ↔ ∃ c ∈ calls, S.key c = k ∧ S.stays c t = true := by
  simp only [active, List.mem_toFinset, List.mem_map, List.mem_filter]
  exact ⟨fun ⟨c, ⟨hc, hs⟩, hk⟩ => ⟨c, hc, hk, hs⟩, fun ⟨c, hc, hk, hs⟩ => ⟨c, ⟨hc, hs⟩, hk⟩⟩

variable [LinearOrder τ] [AddCommGroup τ]

/-- A store after the calls `past`, the last of them at `t`. -/
structure Capped (S : Keeper τ α ι) (past : List ι) (t : τ) (m : HashMap String α) (next : τ) :
    Prop where
  /-- An entry that is kept is kept by a call on its key. -/
  traced : ∀ k a, m.lookup k = some a → ∀ u, S.keep u a = true →
    ∃ c ∈ past, S.key c = k ∧ S.stays c u = true
  next_le : next ≤ t + S.interval
  /-- The store is within its cap, or within the active keys of a call since the last cleanup. -/
  cap : m.len ≤ S.maxKeys ∨ ∃ pre c post, past = pre ++ c :: post ∧
    next ≤ S.now c + S.interval ∧ m.len ≤ (S.active (pre ++ [c]) (S.now c)).card

variable {S : Keeper τ α ι} {past : List ι} {t : τ} {m : HashMap String α} {next : τ}

/-- An empty store. -/
theorem capped_empty (S : Keeper τ α ι) (t : τ) : S.Capped [] t ∅ (t + S.interval) where
  traced := fun k a h => by simp at h
  next_le := le_rfl
  cap := Or.inl (Nat.zero_le _)

/-- What a call finds was there before, whatever it has dropped. -/
theorem lookup_of_swept (c : ι) {k : String} {a : α}
    (h : (evictIfNeeded (S.order c) S.maxKeys (fun a => !S.keep (S.now c) a) S.lastSeen (S.key c)
      (maybeCleanup S.interval (S.keep (S.now c)) (S.now c) next m).1).lookup k = some a) :
    m.lookup k = some a :=
  lookup_of_kept (lookup_sweep (S.order c) S.interval (S.keep (S.now c)) _
    (fun a ha => by simpa using ha) (S.now c) next S.maxKeys S.lastSeen (S.key c) m k) h

/-- A map whose entries are all kept at a call has no more of them than there are active keys,
the key of the call included. -/
theorem Capped.len_insert_le (h : S.Capped past t m next) {c : ι} (hc : S.stays c (S.now c) = true)
    {m' : HashMap String α} (hsub : ∀ k a, m'.lookup k = some a → m.lookup k = some a)
    (hkeep : ∀ k a, m'.lookup k = some a → S.keep (S.now c) a = true) (entry : α) :
    HashMap.len (m'.insert (S.key c) entry) ≤ (S.active (past ++ [c]) (S.now c)).card := by
  refine HashMap.len_le_card fun k hk => mem_active.mpr ?_
  rcases (AList.mem_insert m').mp hk with rfl | hk
  · exact ⟨c, by simp, rfl, hc⟩
  · obtain ⟨a, ha⟩ := Option.isSome_iff_exists.mp (AList.lookup_isSome.mpr hk)
    obtain ⟨c', hc', hkey, hstays⟩ := h.traced k a (hsub k a ha) _ (hkeep k a ha)
    exact ⟨c', by simp [hc'], hkey, hstays⟩

/-- A map that has not grown is within the same cap, with one more call. -/
theorem Capped.cap_of_len_le (h : S.Capped past t m next) {m' : HashMap String α}
    (hlen : m'.len ≤ m.len) (c : ι) :
    m'.len ≤ S.maxKeys ∨ ∃ pre c' post, past ++ [c] = pre ++ c' :: post ∧
      next ≤ S.now c' + S.interval ∧ m'.len ≤ (S.active (pre ++ [c']) (S.now c')).card := by
  rcases h.cap with hcap | ⟨pre, c', post, rfl, hnext, hcap⟩
  · exact Or.inl (hlen.trans hcap)
  · exact Or.inr ⟨pre, c', post ++ [c], by simp, hnext, hlen.trans hcap⟩

/-- **The soft cap**, after a call at `now`. -/
theorem Capped.soft_cap (h : S.Capped past t m next) {now : τ} (hdue : now < next) :
    m.len ≤ S.maxKeys ∨ ∃ pre c post, past = pre ++ c :: post ∧ now < S.now c + S.interval ∧
      m.len ≤ (S.active (pre ++ [c]) (S.now c)).card := by
  rcases h.cap with hcap | ⟨pre, c, post, hpast, hnext, hcap⟩
  · exact Or.inl hcap
  · exact Or.inr ⟨pre, c, post, hpast, hdue.trans_le hnext, hcap⟩

variable [IsOrderedAddMonoid τ]

/-- The cap after a call that finds the cleanup not due. -/
theorem Capped.cap_of_lt (h : S.Capped past t m next) {c : ι} (ht : t ≤ S.now c)
    (hc : S.stays c (S.now c) = true) (entry : α) {m' : HashMap String α}
    (hm' : m' = evictIfNeeded (S.order c) S.maxKeys (fun a => !S.keep (S.now c) a) S.lastSeen
      (S.key c) m) :
    HashMap.len (m'.insert (S.key c) entry) ≤ S.maxKeys ∨
      ∃ pre c' post, past ++ [c] = pre ++ c' :: post ∧ next ≤ S.now c' + S.interval ∧
        HashMap.len (m'.insert (S.key c) entry) ≤ (S.active (pre ++ [c']) (S.now c')).card := by
  subst hm'
  unfold evictIfNeeded
  split
  · rename_i hroom
    by_cases hmem : S.key c ∈ m
    · exact h.cap_of_len_le (HashMap.len_insert_of_mem hmem entry).le c
    · have hlt : m.len < S.maxKeys := hroom.resolve_left hmem
      exact Or.inl ((HashMap.len_insert_of_notMem hmem entry).trans_le hlt)
  · rcases HashMap.len_removeMin (S.order c) (fun a => !S.keep (S.now c) a) S.lastSeen m with
      hless | ⟨hsame, hnone⟩
    · -- An idle key makes room for the new one.
      refine h.cap_of_len_le ?_ c
      exact (HashMap.len_insert_le _ _ entry).trans hless.le
    · -- All keys are active, and the store grows.
      rw [hsame]
      have hnext : next ≤ S.now c + S.interval := h.next_le.trans (by gcongr)
      exact Or.inr ⟨past, c, [], rfl, hnext, h.len_insert_le hc (fun _ _ ha => ha)
        (fun k a ha => by simpa using hnone k a ha) entry⟩

/-- **One call** keeps the cap, and leaves a cleanup that is not due yet. -/
theorem Capped.touch (h : S.Capped past t m next) (hinterval : 0 < S.interval) {c : ι}
    (ht : t ≤ S.now c) (hc : S.stays c (S.now c) = true) {entry : α}
    (hentry : ∀ u, S.keep u entry = true →
      ∃ c' ∈ past ++ [c], S.key c' = S.key c ∧ S.stays c' u = true) :
    S.Capped (past ++ [c]) (S.now c) (S.touch c entry m next).1 (S.touch c entry m next).2 ∧
      S.now c < (S.touch c entry m next).2 := by
  have htraced : ∀ k a, (S.touch c entry m next).1.lookup k = some a → ∀ u, S.keep u a = true →
      ∃ c' ∈ past ++ [c], S.key c' = k ∧ S.stays c' u = true := by
    intro k a ha u hu
    by_cases hk : k = S.key c
    · subst hk
      obtain rfl : entry = a := Option.some.inj ((AList.lookup_insert _).symm.trans ha)
      exact hentry u hu
    · have hold := lookup_of_swept c ((AList.lookup_insert_ne hk).symm.trans ha)
      obtain ⟨c', hc', hkey, hstays⟩ := h.traced k a hold u hu
      exact ⟨c', by simp [hc'], hkey, hstays⟩
  rcases lt_or_ge (S.now c) next with hlt | hdue
  · have hswept : maybeCleanup S.interval (S.keep (S.now c)) (S.now c) next m = (m, next) :=
      if_pos hlt
    have htouch : (S.touch c entry m next).2 = next := by rw [Keeper.touch, hswept]
    refine ⟨⟨htraced, ?_, ?_⟩, htouch.symm ▸ hlt⟩
    · rw [htouch]
      exact h.next_le.trans (by gcongr)
    · rw [htouch]
      exact h.cap_of_lt ht hc entry (by rw [hswept])
  · have hswept : maybeCleanup S.interval (S.keep (S.now c)) (S.now c) next m =
        (m.retain fun _ a => S.keep (S.now c) a, S.now c + S.interval) := if_neg hdue.not_gt
    have htouch : (S.touch c entry m next).2 = S.now c + S.interval := by
      rw [Keeper.touch, hswept]
    refine ⟨⟨htraced, htouch.le, Or.inr ⟨past, c, [], rfl, htouch.le, ?_⟩⟩, ?_⟩
    · refine h.len_insert_le hc (fun k a ha => lookup_of_swept c ha) (fun k a ha => ?_) entry
      -- What the eviction leaves is what the cleanup has kept.
      have hkept := lookup_of_kept (lookup_evictIfNeeded (S.order c) S.maxKeys _ S.lastSeen
        (S.key c) _ k) ha
      rw [hswept, HashMap.lookup_retain] at hkept
      exact (Option.filter_eq_some_iff.mp hkept).2
    · rw [htouch]
      exact lt_add_of_pos_right _ hinterval

/-- **A whole run** of a store whose calls are touches, from an empty map.  `note` is what counts
of a call in the state that it meets. -/
theorem soft_cap_run {σ κ : Type*} (S : Keeper τ α ι) (step : σ → κ → σ) (note : σ → κ → ι)
    (hinterval : 0 < S.interval) (hstays : ∀ n, S.stays n (S.now n) = true)
    {time : κ → τ} (htime : ∀ s c, S.now (note s c) = time c)
    {map : σ → HashMap String α} {next : σ → τ} {J : σ → τ → Prop}
    (hstep : ∀ {past : List ι} {t : τ} {s : σ} {c : κ}, S.Capped past t (map s) (next s) → J s t →
      t ≤ time c → J (step s c) (time c) ∧ ∃ entry,
        (map (step s c), next (step s c)) = S.touch (note s c) entry (map s) (next s) ∧
          ∀ u, S.keep u entry = true →
            ∃ n ∈ past ++ [note s c], S.key n = S.key (note s c) ∧ S.stays n u = true)
    {s : σ} {t : τ} (hmap : map s = ∅) (hnext : next s = t + S.interval) (hJ : J s t)
    {calls : List κ} {last : κ} (hsorted : (t :: (calls ++ [last]).map time).Pairwise (· ≤ ·)) :
    (map (run step s (calls ++ [last]))).len ≤ S.maxKeys ∨
      ∃ pre c post, calls ++ [last] = pre ++ c :: post ∧ time last < time c + S.interval ∧
        (map (run step s (calls ++ [last]))).len ≤
          (S.active (noted step note s (pre ++ [c])) (time c)).card := by
  have hone : ∀ {past : List ι} {t : τ} {s : σ} {c : κ}, S.Capped past t (map s) (next s) →
      J s t → t ≤ time c →
      (S.Capped (past ++ [note s c]) (time c) (map (step s c)) (next (step s c)) ∧
        time c < next (step s c)) ∧ J (step s c) (time c) := by
    intro past t s c hcapped hJ ht
    obtain ⟨hJ', entry, htouch, hentry⟩ := hstep hcapped hJ ht
    obtain ⟨hmap, hnext⟩ := Prod.mk.inj htouch
    rw [hmap, hnext, ← htime s c]
    rw [← htime s c] at ht
    exact ⟨hcapped.touch hinterval ht (hstays _) hentry, htime s c ▸ hJ'⟩
  have hmany : ∀ (past : List ι) (calls : List κ) (t : τ) (s : σ),
      S.Capped past t (map s) (next s) → J s t →
      (t :: (calls ++ [last]).map time).Pairwise (· ≤ ·) →
      S.Capped (past ++ noted step note s (calls ++ [last])) (time last)
          (map (run step s (calls ++ [last]))) (next (run step s (calls ++ [last]))) ∧
        time last < next (run step s (calls ++ [last])) := by
    intro past calls
    induction calls generalizing past with
    | nil =>
        intro t s hcapped hJ hsorted
        exact (hone hcapped hJ ((List.pairwise_cons.mp hsorted).1 _ (by simp))).1
    | cons c calls ih =>
        intro t s hcapped hJ hsorted
        rw [List.cons_append, List.map_cons, List.pairwise_cons] at hsorted
        obtain ⟨⟨hcapped', _⟩, hJ'⟩ := hone hcapped hJ (hsorted.1 _ (List.mem_cons_self ..))
        have hrest := ih (past ++ [note s c]) (time c) (step s c) hcapped' hJ' hsorted.2
        rwa [List.append_assoc] at hrest
  have hstart : S.Capped [] t (map s) (next s) := by
    rw [hmap, hnext]
    exact S.capped_empty t
  obtain ⟨hcapped, hdue⟩ := hmany [] calls t s hstart hJ hsorted
  rcases hcapped.soft_cap hdue with hcap | ⟨before, n, after, hpast, hlast, hcap⟩
  · exact Or.inl hcap
  · obtain ⟨pre, c, post, hcalls, rfl, rfl⟩ := exists_of_noted_eq_append hpast
    rw [htime] at hlast hcap
    refine Or.inr ⟨pre, c, post, hcalls, hlast, ?_⟩
    rwa [noted_concat]

end Keeper
end Store
end Noxy

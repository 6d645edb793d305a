/-
# A store of windows follows the windows that are never dropped

`src/middleware/sliding_window.rs`: runs of `SharedState::take` on any keys.

Every entry stays valid, so no take panics (`SharedState.Healthy`).  For each key the
store follows the deque of `Noxy.SlidingWindow.Alone` (`SharedState.Follows`): its
entry is that deque, or it is gone and the deque has left the window.  A take keeps
this (`Follows.step`) as long as a drop is harmless, which it is when the effective
time to live is two windows: an entry that has been idle that long holds nothing that
counts.  Then every take of a run answers as the deque of its key does
(`Sound.answer_run`).
-/

import Noxy.SlidingWindow.Alone

namespace Noxy
namespace SlidingWindow

open Lib Store

/-- A call of `take`, with its instant and the order in which the map hands out its
entries while it runs. -/
structure Take where
  key : String
  now : ℤ
  order : IterOrder String WindowState

/-- The instants of the calls on `k`. -/
def takeTimes (k : String) (calls : List Take) : List ℤ :=
  (calls.filter fun c => c.key == k).map Take.now

namespace SharedState

/-- How `take` starts. -/
def sweep (s : SharedState) (c : Take) : SharedState :=
  (s.maybeCleanup c.now).evictIfNeeded c.order c.key c.now

/-- What a call answers. -/
def answer (s : SharedState) (c : Take) : Except Panic (Option ℕ) :=
  (s.take c.order c.key c.now).map Prod.fst

/-- The store after a call. -/
def step (s : SharedState) (c : Take) : SharedState :=
  match s.take c.order c.key c.now with
  | .ok r => r.2
  | .error _ => s

/-- **What the cleanup and the eviction can do to a key.**  Its entry is untouched,
or it has been idle for longer than the effective time to live and is gone. -/
theorem lookup_windows_sweep (s : SharedState) (c : Take) (k : String) :
    (s.sweep c).windows.lookup k = s.windows.lookup k ∨
      (s.sweep c).windows.lookup k = none ∧ ∃ e, s.windows.lookup k = some e ∧
        s.effectiveTtl < saturatingDurationSince c.now e.lastSeen := by
  rcases lookup_sweep c.order (CLEANUP_INTERVAL : ℤ)
    (fun st : WindowState =>
      decide (saturatingDurationSince c.now st.lastSeen ≤ s.effectiveTtl))
    (fun st => decide (s.effectiveTtl < saturatingDurationSince c.now st.lastSeen))
    (fun a ha => by simpa using ha) c.now s.nextCleanup s.maxKeys WindowState.lastSeen c.key
    s.windows k with h | ⟨h, e, he, hidle⟩
  · exact Or.inl h
  · exact Or.inr ⟨h, e, he, by simpa using hidle⟩

/-- A take that does not panic answers and sets the entry of its key. -/
theorem take_of_ok {s : SharedState} {c : Take} {delay : Option ℕ} {ts : List ℤ}
    (h : takeWindow s.count s.window c.now ((s.sweep c).timestamps c.key) = .ok (delay, ts)) :
    s.answer c = .ok delay ∧
      s.step c = { s.sweep c with windows := (s.sweep c).windows.insert c.key ⟨ts, c.now⟩ } := by
  have htake : s.take c.order c.key c.now = .ok (delay,
      { s.sweep c with windows := (s.sweep c).windows.insert c.key ⟨ts, c.now⟩ }) := by
    have hswept : (s.maybeCleanup c.now).evictIfNeeded c.order c.key c.now = s.sweep c := rfl
    change takeWindow (s.sweep c).count (s.sweep c).window c.now _ = _ at h
    simp only [take, hswept, h]
  constructor
  · rw [answer, htake]
    rfl
  · rw [step, htake]

/-- Every entry is valid as of its last take. -/
def Healthy (s : SharedState) (t : ℤ) : Prop :=
  ∀ k e, s.windows.lookup k = some e →
    Valid s.count s.window e.lastSeen e.timestamps ∧ e.lastSeen ≤ t

/-- The store's entry of `k` is the deque `ref`, or it is gone and `ref` has left the
window. -/
def Follows (k : String) (s : SharedState) (ref : List ℤ) (t : ℤ) : Prop :=
  ∃ seen ≤ t, Valid s.count s.window seen ref ∧
    (s.windows.lookup k = some ⟨ref, seen⟩ ∨
      s.windows.lookup k = none ∧ ∀ x ∈ ref, x ≤ t - s.window)

variable {s : SharedState} {c : Take} {t : ℤ}

/-- An entry that the sweep leaves was there before it. -/
theorem lookup_of_sweep {k : String} {e : WindowState}
    (h : (s.sweep c).windows.lookup k = some e) : s.windows.lookup k = some e :=
  lookup_of_kept (s.lookup_windows_sweep c k) h

/-- The deque that a take finds is valid. -/
theorem Healthy.swept (h : s.Healthy t) (ht : t ≤ c.now) :
    ∃ seen ≤ c.now, Valid s.count s.window seen ((s.sweep c).timestamps c.key) := by
  cases hswept : (s.sweep c).windows.lookup c.key with
  | none =>
      have hts : (s.sweep c).timestamps c.key = [] := by simp [timestamps, hswept]
      rw [hts]
      exact ⟨c.now, le_rfl, valid_nil _ _ c.now⟩
  | some e =>
      have hts : (s.sweep c).timestamps c.key = e.timestamps := by simp [timestamps, hswept]
      obtain ⟨hvalid, hseen⟩ := h c.key e (lookup_of_sweep hswept)
      rw [hts]
      exact ⟨e.lastSeen, hseen.trans ht, hvalid⟩

/-- **No take panics.** -/
theorem Healthy.take (h : s.Healthy t) (hcount : 1 ≤ s.count) (ht : t ≤ c.now) :
    ∃ delay ts, takeWindow s.count s.window c.now ((s.sweep c).timestamps c.key) =
        .ok (delay, ts) ∧ Valid s.count s.window c.now ts := by
  obtain ⟨seen, hseen, hvalid⟩ := h.swept ht
  exact hvalid.take hcount hseen

theorem Healthy.step (h : s.Healthy t) (hcount : 1 ≤ s.count) (ht : t ≤ c.now) :
    (s.step c).Healthy c.now ∧ (s.step c).count = s.count ∧ (s.step c).window = s.window ∧
      (s.step c).effectiveTtl = s.effectiveTtl := by
  obtain ⟨delay, ts, htake, hvalid⟩ := h.take hcount ht
  rw [(take_of_ok htake).2]
  refine ⟨fun k e he => ?_, rfl, rfl, rfl⟩
  by_cases hk : k = c.key
  · subst hk
    obtain rfl : (⟨ts, c.now⟩ : WindowState) = e := by simpa using he
    exact ⟨hvalid, le_rfl⟩
  · rw [AList.lookup_insert_ne hk] at he
    obtain ⟨hv, hseen⟩ := h k e (lookup_of_sweep he)
    exact ⟨hv, hseen.trans ht⟩

/-- A drop is harmless when the time to live is two windows. -/
theorem Follows.sweep {k : String} {ref : List ℤ} (h : s.Follows k ref t) (ht : t ≤ c.now)
    (hsafe : 2 * s.window ≤ s.effectiveTtl + 1) : (s.sweep c).Follows k ref c.now := by
  obtain ⟨seen, hseen, hvalid, hentry⟩ := h
  refine ⟨seen, hseen.trans ht, hvalid, ?_⟩
  rcases hentry with hsome | ⟨hnone, hpast⟩
  · rcases s.lookup_windows_sweep c k with hsame | ⟨hgone, e, he, hidle⟩
    · exact Or.inl (hsame.trans hsome)
    · obtain rfl : (⟨ref, seen⟩ : WindowState) = e := Option.some.inj (hsome.symm.trans he)
      refine Or.inr ⟨hgone, fun x hx => ?_⟩
      have hx := hvalid.le_add_window x hx
      unfold saturatingDurationSince at hidle
      dsimp only at hidle
      change x ≤ c.now - s.window
      omega
  · refine Or.inr ⟨?_, fun x hx => ?_⟩
    · rcases s.lookup_windows_sweep c k with hsame | ⟨hgone, _⟩
      · exact hsame.trans hnone
      · exact hgone
    · have := hpast x hx
      change x ≤ c.now - s.window
      omega

/-- What the store's entry answers is what the deque it follows does. -/
theorem Follows.takeWindow_eq {k : String} {ref : List ℤ} (h : s.Follows k ref t) :
    takeWindow s.count s.window t (s.timestamps k) = takeWindow s.count s.window t ref := by
  obtain ⟨seen, _, _, hsome | ⟨hnone, hpast⟩⟩ := h
  · simp [timestamps, hsome]
  · refine takeWindow_congr ?_
    have hts : s.timestamps k = [] := by simp [timestamps, hnone]
    rw [hts, drain_eq_nil hpast]
    rfl

/-- A call keeps what follows the deque of `k`: on `k` itself, one take further. -/
theorem Follows.step {k : String} {ref : List ℤ} (h : s.Follows k ref t) (hs : s.Healthy t)
    (hcount : 1 ≤ s.count) (ht : t ≤ c.now) (hsafe : 2 * s.window ≤ s.effectiveTtl + 1) :
    (s.step c).Follows k
      (if c.key = k then aloneStep s.count s.window ref c.now else ref) c.now := by
  have hswept := h.sweep ht hsafe
  obtain ⟨delay, ts, htake, hvalid⟩ := hs.take hcount ht
  rw [(take_of_ok htake).2]
  by_cases hk : c.key = k
  · subst hk
    have href : takeWindow s.count s.window c.now ref = .ok (delay, ts) :=
      hswept.takeWindow_eq.symm.trans htake
    rw [if_pos rfl, aloneStep, href]
    exact ⟨c.now, le_rfl, hvalid, Or.inl (AList.lookup_insert _)⟩
  · rw [if_neg hk]
    obtain ⟨seen, hseen, hv, hentry⟩ := hswept
    refine ⟨seen, hseen, hv, ?_⟩
    rw [AList.lookup_insert_ne (Ne.symm hk)]
    exact hentry

/-- What a run keeps, for the deque of every key. -/
structure Sound (s : SharedState) (t : ℤ) (deque : String → List ℤ) : Prop where
  count : 1 ≤ s.count
  safe : 2 * s.window ≤ s.effectiveTtl + 1
  healthy : s.Healthy t
  follows : ∀ k, s.Follows k (deque k) t

/-- A call keeps the deques. -/
theorem Sound.step {deque : String → List ℤ} (h : s.Sound t deque) (ht : t ≤ c.now) :
    (s.step c).Sound c.now fun k =>
      if c.key = k then aloneStep s.count s.window (deque k) c.now else deque k := by
  obtain ⟨hhealthy, hcount, hwindow, httl⟩ := h.healthy.step h.count ht
  refine ⟨by rw [hcount]; exact h.count, by rw [hwindow, httl]; exact h.safe, hhealthy, fun k => ?_⟩
  exact (h.follows k).step h.healthy h.count ht h.safe

/-- A call answers as the deque of its key does. -/
theorem Sound.answer {deque : String → List ℤ} (h : s.Sound t deque) (ht : t ≤ c.now) :
    s.answer c = aloneAnswer s.count s.window (deque c.key) c.now := by
  obtain ⟨delay, ts, htake, _⟩ := h.healthy.take h.count ht
  have href : takeWindow s.count s.window c.now (deque c.key) = .ok (delay, ts) :=
    ((h.follows c.key).sweep ht h.safe).takeWindow_eq.symm.trans htake
  rw [(take_of_ok htake).1, aloneAnswer, href]
  rfl

/-- **A whole run answers as the deques that are never dropped do.** -/
theorem Sound.answer_run {deque : String → List ℤ} (h : s.Sound t deque) {calls : List Take}
    (hsorted : (t :: (calls ++ [c]).map Take.now).Pairwise (· ≤ ·)) :
    (run SharedState.step s calls).answer c = aloneAnswer s.count s.window
      (run (aloneStep s.count s.window) (deque c.key) (takeTimes c.key calls)) c.now := by
  induction calls generalizing s t deque with
  | nil => exact h.answer ((List.pairwise_cons.mp hsorted).1 c.now (by simp))
  | cons c₀ calls ih =>
      rw [List.cons_append, List.map_cons, List.pairwise_cons] at hsorted
      have ht : t ≤ c₀.now := hsorted.1 c₀.now (List.mem_cons_self ..)
      obtain ⟨_, hcount, hwindow, _⟩ := h.healthy.step h.count ht
      have hrest := ih (h.step ht) hsorted.2
      rw [hcount, hwindow] at hrest
      rw [run_cons, hrest]
      by_cases hk : c₀.key = c.key
      · have htimes : takeTimes c.key (c₀ :: calls) = c₀.now :: takeTimes c.key calls := by
          simp [takeTimes, hk]
        rw [if_pos hk, htimes, run_cons]
      · have htimes : takeTimes c.key (c₀ :: calls) = takeTimes c.key calls := by
          simp [takeTimes, hk]
        rw [if_neg hk, htimes]

/-- From an empty store every key follows the empty deque. -/
theorem sound_empty (hempty : s.windows = ∅) (hcount : 1 ≤ s.count)
    (hsafe : 2 * s.window ≤ s.effectiveTtl + 1) (t : ℤ) : s.Sound t fun _ => [] := by
  have hnone : ∀ k, s.windows.lookup k = none := fun k => by simp [hempty]
  refine ⟨hcount, hsafe, fun k e he => ?_, fun k => ?_⟩
  · rw [hnone k] at he
    cases he
  · exact ⟨t, le_rfl, valid_nil _ _ t, Or.inr ⟨hnone k, by simp⟩⟩

end SharedState
end SlidingWindow
end Noxy

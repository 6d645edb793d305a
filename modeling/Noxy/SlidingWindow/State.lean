/-
# The in-memory sliding window

`src/middleware/sliding_window.rs`: `SharedState` and `WindowState`.  A key's
window is a deque of instants.  `take` drops the instants that have left the
window, lets the request through if fewer than `count` are left, and otherwise
makes it wait until the front instant has left; either way it appends the
instant at which the request is let through, which for a request that waits
lies in the future.

`Panic` lists the two ways the arithmetic of `take` can fail: indexing an empty
deque, and subtracting a longer `Duration` from a shorter one.  The deque's own
part of `take` is `takeWindow`; `SharedState.take` is the whole method, with the
cleanup and the eviction of `Noxy.Store.Keyed` around it, and
`SharedState.take_eq_takeWindow` connects the two when neither has anything
to drop.
-/

import Noxy.Store.Keyed

namespace Noxy
namespace SlidingWindow

open Lib Store

/-- The run-time failures of `take`. -/
inductive Panic where
  /-- `timestamps[0]` on an empty deque. -/
  | indexOutOfBounds
  /-- `self.window - now.duration_since(oldest)` below zero. -/
  | durationUnderflow
  deriving DecidableEq, Repr

/-- `WindowState`: the deque, front first. -/
structure WindowState where
  timestamps : List ℤ
  lastSeen : ℤ
  deriving DecidableEq, Repr

/-- `SharedState`. -/
structure SharedState where
  windows : HashMap String WindowState
  count : ℕ
  window : ℕ
  maxKeys : ℕ
  idleTtl : ℕ
  nextCleanup : ℤ

/-- `InMemorySlidingWindowStore::new` at the instant `now`. -/
def SharedState.new (count : ℕ) (window : ℕ) (now : ℤ) : SharedState :=
  { windows := ∅
    count := count
    window := window
    maxKeys := DEFAULT_MAX_KEYS
    idleTtl := DEFAULT_IDLE_TTL
    nextCleanup := now + CLEANUP_INTERVAL }

/-- The `while` loop of `take`: pop the front while it is not after the cutoff. -/
def drain (cutoff : ℤ) (timestamps : List ℤ) : List ℤ :=
  timestamps.dropWhile fun t => decide (t ≤ cutoff)

/-- The deque's part of `take`: the delay, if the request has to wait, and the
deque afterwards. -/
def takeWindow (count : ℕ) (window : ℕ) (now : ℤ) (timestamps : List ℤ) :
    Except Panic (Option ℕ × List ℤ) :=
  let timestamps := drain (now - window) timestamps
  if timestamps.length < count then
    .ok (none, timestamps ++ [now])
  else
    match timestamps.head? with
    | none => .error .indexOutOfBounds
    | some oldest =>
        let since := saturatingDurationSince now oldest
        if window < since then .error .durationUnderflow
        else
          let delay := window - since
          .ok (some delay, timestamps ++ [now + delay])

namespace SharedState

/-- `effective_ttl`. -/
def effectiveTtl (s : SharedState) : ℕ := max s.idleTtl s.window

/-- `maybe_cleanup`. -/
def maybeCleanup (s : SharedState) (now : ℤ) : SharedState :=
  let swept := Store.maybeCleanup (CLEANUP_INTERVAL : ℤ)
    (fun st : WindowState => decide (saturatingDurationSince now st.lastSeen ≤ s.effectiveTtl))
    now s.nextCleanup s.windows
  { s with windows := swept.1, nextCleanup := swept.2 }

/-- `evict_if_needed`. -/
def evictIfNeeded (o : IterOrder String WindowState) (s : SharedState) (key : String)
    (now : ℤ) : SharedState :=
  { s with
    windows := Store.evictIfNeeded o s.maxKeys
      (fun st => decide (s.effectiveTtl < saturatingDurationSince now st.lastSeen))
      WindowState.lastSeen key s.windows }

/-- The deque of a key; a key without an entry has an empty one. -/
def timestamps (s : SharedState) (key : String) : List ℤ :=
  ((s.windows.lookup key).map WindowState.timestamps).getD []

@[simp] theorem timestamps_insert (s : SharedState) (key : String) (st : WindowState) :
    timestamps { s with windows := s.windows.insert key st } key = st.timestamps := by
  simp [timestamps]

/-- `SharedState::take`, at the instant `now`. -/
def take (o : IterOrder String WindowState) (s : SharedState) (key : String) (now : ℤ) :
    Except Panic (Option ℕ × SharedState) :=
  let s := (s.maybeCleanup now).evictIfNeeded o key now
  match takeWindow s.count s.window now (s.timestamps key) with
  | .error e => .error e
  | .ok (delay, timestamps) =>
      .ok (delay, { s with windows := s.windows.insert key ⟨timestamps, now⟩ })

/-- Neither the cleanup nor the eviction has anything to do: the cleanup is not
due, and the map holds no key but the one that is taken. -/
structure Alone (s : SharedState) (key : String) (now : ℤ) : Prop where
  notDue : now < s.nextCleanup
  only : ∀ k ∈ s.windows, k = key

/-- With nothing to drop, the two leave the state as it is. -/
theorem sweep_eq_self (o : IterOrder String WindowState) {s : SharedState} {key : String}
    {now : ℤ} (h : s.Alone key now) :
    (s.maybeCleanup now).evictIfNeeded o key now = s := by
  have hc : s.maybeCleanup now = s := by
    simp only [maybeCleanup, Store.maybeCleanup, if_pos h.notDue]
  have he : s.evictIfNeeded o key now = s := by
    unfold evictIfNeeded Store.evictIfNeeded
    split
    · rfl
    · rename_i hn
      have hempty : s.windows = ∅ := by
        apply AList.ext
        have hkeys : s.windows.keys = [] := by
          apply List.eq_nil_iff_forall_not_mem.mpr
          intro k hk
          have hk' : k ∈ s.windows := AList.mem_keys.mpr hk
          exact hn (Or.inl (h.only k hk' ▸ hk'))
        exact List.map_eq_nil_iff.mp hkeys
      obtain ⟨windows, count, window, maxKeys, idleTtl, nextCleanup⟩ := s
      subst hempty
      rcases o with ⟨order, perm⟩
      have hnil : order [] = [] := List.perm_nil.mp (perm [])
      simp [HashMap.removeMin, HashMap.minKey, hnil]
  rw [hc, he]

/-- **`take` on one key, nothing else in the way.**  It is `takeWindow` on the
key's deque. -/
theorem take_eq_takeWindow (o : IterOrder String WindowState) {s : SharedState} {key : String}
    {now : ℤ} (h : s.Alone key now) :
    s.take o key now =
      (takeWindow s.count s.window now (s.timestamps key)).map fun r =>
        (r.1, { s with windows := s.windows.insert key ⟨r.2, now⟩ }) := by
  unfold take
  rw [sweep_eq_self o h]
  dsimp only
  cases takeWindow s.count s.window now (s.timestamps key) <;> rfl

end SharedState
end SlidingWindow
end Noxy

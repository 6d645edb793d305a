/-
# The sliding window on its machine

`src/middleware/sliding_window.rs`: `SharedState::take` once more, with the arithmetic of
`Instant` that can panic: `now - self.window` and `now + delay` must be instants of the clock.
Which instants there are depends on the platform, so the clock is a parameter, `onClock`.

Of the panics that `Noxy.SlidingWindow.State` has, the subtraction of a longer `Duration`
cannot happen: an instant that the loop has left at the front is after the cutoff
(`takeWindow_of_full`).  Indexing an empty deque happens exactly with a count of zero, at the
first `take` (`takeOn_of_count_zero`), and then the store stays empty.  `takeOn_isOk_iff` says
when a `take` does not panic, by the store before it, and `takes_isOk_iff` when a run does not.
-/

import Noxy.Lib.Fallible
import Noxy.Lib.Run
import Noxy.SlidingWindow.Follows

namespace Noxy
namespace SlidingWindow

open Lib Store

/-- The run-time failures of `take` on a machine. -/
inductive Fault where
  | take (p : Panic)
  /-- `Instant - Duration` or `Instant + Duration` off the clock. -/
  | instantOverflow
  deriving DecidableEq, Repr

/-! ### The deque -/

theorem takeWindow_of_room {count window : ℕ} {now : ℤ} {timestamps : List ℤ}
    (h : (drain (now - window) timestamps).length < count) :
    takeWindow count window now timestamps =
      .ok (none, drain (now - window) timestamps ++ [now]) := by
  rw [takeWindow]
  exact if_pos h

theorem cutoff_lt_head {cutoff oldest : ℤ} {timestamps : List ℤ}
    (h : (drain cutoff timestamps).head? = some oldest) : cutoff < oldest := by
  have hnot := List.head?_dropWhile_not (fun t => decide (t ≤ cutoff)) timestamps
  unfold drain at h
  rw [h] at hnot
  simpa using hnot

/-- A full deque gives the wait for its front, which ends one window after it. -/
theorem takeWindow_of_full {count window : ℕ} {now oldest : ℤ} {timestamps : List ℤ}
    (h : count ≤ (drain (now - window) timestamps).length)
    (hfront : (drain (now - window) timestamps).head? = some oldest) :
    ∃ delay : ℕ, now + delay = min oldest now + window ∧
      takeWindow count window now timestamps =
        .ok (some delay, drain (now - window) timestamps ++ [now + delay]) := by
  have hcutoff := cutoff_lt_head hfront
  have hsince : ¬ window < saturatingDurationSince now oldest := by
    unfold saturatingDurationSince
    omega
  refine ⟨window - saturatingDurationSince now oldest, ?_, ?_⟩
  · unfold saturatingDurationSince
    omega
  · rw [takeWindow]
    dsimp only
    rw [if_neg (not_lt.mpr h), hfront]
    dsimp only
    rw [if_neg hsince]

namespace SharedState

variable (onClock : ℤ → Prop) [DecidablePred onClock]

/-- `SharedState::take` on a machine. -/
def takeOn (s : SharedState) (c : Take) : Except Fault (Option ℕ × SharedState) :=
  if ¬ onClock (c.now - s.window) then .error .instantOverflow
  else
    match s.take c.order c.key c.now with
    | .error p => .error (.take p)
    | .ok (none, s') => .ok (none, s')
    | .ok (some delay, s') =>
        if onClock (c.now + delay) then .ok (some delay, s') else .error .instantOverflow

/-- The store after a call. -/
def stepOn (s : SharedState) (c : Take) : Except Fault SharedState :=
  (s.takeOn onClock c).map Prod.snd

/-- The deque of the key of a call, when the loop of `take` has run. -/
def drained (s : SharedState) (c : Take) : List ℤ :=
  drain (c.now - s.window) ((s.sweep c).timestamps c.key)

/-- **A `take` that stays on the clock**, of a window that admits requests: the cutoff is an
instant, and so is the end of the wait if there is one. -/
structure SafeTake (s : SharedState) (c : Take) : Prop where
  count : s.count ≠ 0
  cutoff : onClock (c.now - s.window)
  reserved : s.count ≤ (s.drained c).length →
    ∀ oldest ∈ (s.drained c).head?, onClock (min oldest c.now + s.window)

/-- A store with a count of zero has no entries. -/
def Closed (s : SharedState) : Prop := s.count = 0 → s.windows = ∅

variable {onClock} {s : SharedState} {c : Take}

theorem take_eq_map :
    s.take c.order c.key c.now =
      (takeWindow s.count s.window c.now ((s.sweep c).timestamps c.key)).map fun r =>
        (r.1, { s.sweep c with windows := (s.sweep c).windows.insert c.key ⟨r.2, c.now⟩ }) := by
  have hcount : (s.sweep c).count = s.count := rfl
  have hwindow : (s.sweep c).window = s.window := rfl
  have hswept : (s.maybeCleanup c.now).evictIfNeeded c.order c.key c.now = s.sweep c := rfl
  rw [take, hswept]
  dsimp only
  rw [hcount, hwindow]
  rcases takeWindow _ _ _ _ with p | ⟨delay, timestamps⟩ <;> rfl

/-- A count of zero: the deque that is indexed is empty. -/
theorem takeOn_of_count_zero (hclosed : s.Closed) (hcount : s.count = 0)
    (hcutoff : onClock (c.now - s.window)) :
    s.takeOn onClock c = .error (.take .indexOutOfBounds) := by
  have hnone : (s.sweep c).windows.lookup c.key = none := by
    have hempty : s.windows.lookup c.key = none := by
      rw [hclosed hcount]
      rfl
    rcases s.lookup_windows_sweep c c.key with h | ⟨h, -⟩
    · exact h.trans hempty
    · exact h
  have htimes : (s.sweep c).timestamps c.key = [] := by
    rw [timestamps, hnone]
    rfl
  rw [takeOn, if_neg (not_not.mpr hcutoff), take_eq_map, htimes, hcount]
  rfl

/-- **When a `take` does not panic.** -/
theorem takeOn_isOk_iff (hclosed : s.Closed) (c : Take) :
    (∃ r, s.takeOn onClock c = .ok r) ↔ s.SafeTake onClock c := by
  by_cases hcutoff : onClock (c.now - s.window)
  · rcases eq_or_ne s.count 0 with hcount | hcount
    · rw [takeOn_of_count_zero hclosed hcount hcutoff]
      exact ⟨fun ⟨_, h⟩ => (by cases h), fun h => absurd hcount h.count⟩
    · rw [takeOn, if_neg (not_not.mpr hcutoff), take_eq_map]
      by_cases hroom : (s.drained c).length < s.count
      · rw [takeWindow_of_room hroom]
        refine ⟨fun _ => ⟨hcount, hcutoff, ?_⟩, fun _ => ⟨_, rfl⟩⟩
        intro hfull
        exact absurd hfull (not_le.mpr hroom)
      · have hfull : s.count ≤ (s.drained c).length := not_lt.mp hroom
        obtain ⟨oldest, hfront⟩ : ∃ oldest, (s.drained c).head? = some oldest := by
          cases hd : s.drained c with
          | nil =>
              rw [hd] at hfull
              exact absurd (Nat.le_zero.mp hfull) hcount
          | cons oldest rest => exact ⟨oldest, rfl⟩
        obtain ⟨delay, hend, htake⟩ := takeWindow_of_full hfull hfront
        rw [htake]
        dsimp only [Except.map]
        rw [hend]
        refine ⟨?_, fun h => ⟨_, if_pos (h.reserved hfull oldest hfront)⟩⟩
        rintro ⟨r, h⟩
        refine ⟨hcount, hcutoff, fun _ oldest' hfront' => ?_⟩
        rw [hfront] at hfront'
        cases hfront'
        by_contra hoff
        rw [if_neg hoff] at h
        cases h
  · rw [takeOn, if_pos hcutoff]
    exact ⟨fun ⟨_, h⟩ => (by cases h), fun h => absurd h.cutoff hcutoff⟩

/-- **A `take` that does not panic on a machine** is that of the model without one. -/
theorem take_of_takeOn {r : Option ℕ × SharedState} (h : s.takeOn onClock c = .ok r) :
    s.take c.order c.key c.now = .ok r := by
  unfold takeOn at h
  split at h
  · cases h
  · split at h
    · cases h
    · rename_i htake
      cases h
      exact htake
    · rename_i htake
      split at h
      · cases h
        exact htake
      · cases h

theorem count_of_takeOn {r : Option ℕ × SharedState} (h : s.takeOn onClock c = .ok r) :
    r.2.count = s.count := by
  have htake := take_of_takeOn h
  rw [take_eq_map] at htake
  obtain ⟨taken, -, rfl⟩ := map_eq_ok_iff.mp htake
  rfl

/-- A call keeps the count, and a store that admits nothing stays empty. -/
theorem Closed.stepOr (hclosed : s.Closed) (c : Take) :
    (Lib.stepOr (stepOn onClock) s c).Closed := by
  unfold Lib.stepOr stepOn
  cases h : s.takeOn onClock c with
  | error p => exact hclosed
  | ok r =>
      intro hcount
      have hsafe := (takeOn_isOk_iff hclosed c).mp ⟨r, h⟩
      exact absurd ((count_of_takeOn h).symm.trans hcount) hsafe.count

variable (onClock)

/-- **When a run does not panic.** -/
theorem takes_isOk_iff (hclosed : s.Closed) (calls : List Take) :
    (∃ s', calls.foldlM (stepOn onClock) s = .ok s') ↔
      Along (Lib.stepOr (stepOn onClock)) (SafeTake onClock) s calls := by
  refine foldlM_isOk_iff.trans (along_congr_of_kept (J := Closed) ?_ ?_ hclosed calls)
  · intro s c h
    exact h.stepOr c
  · intro s c h
    exact exists_map_eq_ok_iff.trans (takeOn_isOk_iff h c)

end SharedState
end SlidingWindow
end Noxy

/-
# When dropping a window shows

`src/middleware/sliding_window.rs`: `SharedState::take` drops the entry of a key that
has not been seen for the effective time to live, which is at least one window.  But
the deque of the key can hold an instant one window after the last take, and that
counts for one window more.  So dropping an entry can be seen exactly if the
effective time to live is shorter than two windows (`unobservable_iff`): a request
that would have to wait is let through at once (`reservation_forgotten`).

That nothing shows with two windows is `Noxy.SlidingWindow.Follows`.  Otherwise a
burst of `2 * count` takes at one instant leaves `count` reservations one window
later, and a take just after the entry has been dropped does not see them
(`answer_burst`, `aloneAnswer_burst`).
-/

import Noxy.SlidingWindow.Follows

namespace Noxy
namespace SlidingWindow

open Lib Store

namespace SharedState

variable {s : SharedState} {c : Take} {t : ℤ}

/-- With nothing to drop, a take is one on the deque of its key. -/
theorem step_alone {k : String} {o : IterOrder String WindowState} (h : s.Alone k t)
    (hcount : 1 ≤ s.count) (hvalid : Valid s.count s.window t (s.timestamps k)) :
    s.step ⟨k, t, o⟩ =
      { s with
        windows := s.windows.insert k ⟨aloneStep s.count s.window (s.timestamps k) t, t⟩ } := by
  obtain ⟨delay, ts, htake, _⟩ := hvalid.take hcount le_rfl
  simp only [step, take_eq_takeWindow o h, aloneStep, htake]
  rfl

/-- Takes of one key at one instant, before the cleanup is due, are not disturbed. -/
theorem run_burst_store (hempty : s.windows = ∅) (hcount : 1 ≤ s.count)
    (ht : t < s.nextCleanup) (k : String) (n : ℕ) :
    ∃ w : HashMap String WindowState,
      run SharedState.step s (List.replicate n ⟨k, t, .stored⟩) = { s with windows := w } ∧
        (∀ j ∈ w, j = k) ∧
        Valid s.count s.window t (run (aloneStep s.count s.window) [] (List.replicate n t)) ∧
        w.lookup k = if n = 0 then none
          else some ⟨run (aloneStep s.count s.window) [] (List.replicate n t), t⟩ := by
  induction n with
  | zero => exact ⟨s.windows, rfl, by simp [hempty], valid_nil _ _ t, by simp [hempty]⟩
  | succ n ih =>
      obtain ⟨w, hrun, honly, hvalid, hlookup⟩ := ih
      set ts := run (aloneStep s.count s.window) [] (List.replicate n t) with hts
      have htimes : timestamps { s with windows := w } k = ts := by
        rw [timestamps, hlookup]
        split
        · rename_i hn
          simp [hts, hn]
        · rfl
      have hvalid' := hvalid.aloneStep hcount (le_refl t)
      refine ⟨w.insert k ⟨aloneStep s.count s.window ts t, t⟩, ?_, fun j hj => ?_, ?_, ?_⟩
      · have hstep := step_alone (s := { s with windows := w }) (o := .stored) ⟨ht, honly⟩ hcount
          (by rw [htimes]; exact hvalid)
        rw [List.replicate_succ', run_concat, hrun, hstep, htimes]
      · rcases (AList.mem_insert _).mp hj with rfl | hj
        · rfl
        · exact honly j hj
      · rw [List.replicate_succ', run_concat]
        exact hvalid'
      · rw [AList.lookup_insert, if_neg (Nat.succ_ne_zero n), List.replicate_succ', run_concat]

/-- When the cleanup is due, an entry that has been idle for too long is gone. -/
theorem lookup_sweep_due {k : String} {e : WindowState} (hdue : s.nextCleanup ≤ c.now)
    (he : s.windows.lookup k = some e)
    (hidle : s.effectiveTtl < saturatingDurationSince c.now e.lastSeen) :
    (s.sweep c).windows.lookup k = none := by
  have hclean : (s.maybeCleanup c.now).windows.lookup k = none := by
    simp only [maybeCleanup, Store.maybeCleanup, if_neg (not_lt.mpr hdue)]
    rw [HashMap.lookup_retain, he]
    simp [hidle]
  rcases lookup_evictIfNeeded c.order (s.maybeCleanup c.now).maxKeys
    (fun st => decide ((s.maybeCleanup c.now).effectiveTtl <
      saturatingDurationSince c.now st.lastSeen))
    WindowState.lastSeen c.key (s.maybeCleanup c.now).windows k with h | h
  · exact h.trans hclean
  · exact h.1

/-- A burst at one instant and one call after it are in order. -/
theorem pairwise_burst {created late : ℤ} (hcreated : created ≤ t) (hlate : t ≤ late) (n : ℕ) :
    (created :: (List.replicate n t ++ [late])).Pairwise (· ≤ ·) := by
  have hmem : ∀ x ∈ List.replicate n t, x = t := fun x hx => List.eq_of_mem_replicate hx
  rw [List.pairwise_cons, List.pairwise_append, List.pairwise_replicate]
  refine ⟨fun x hx => ?_, Or.inr le_rfl, List.pairwise_singleton _ _, fun x hx y hy => ?_⟩
  · rcases List.mem_append.mp hx with hx | hx
    · rw [hmem x hx]
      exact hcreated
    · rw [List.mem_singleton.mp hx]
      omega
  · rw [hmem x hx, List.mem_singleton.mp hy]
    exact hlate

/-- A take that finds no entry goes at once. -/
theorem answer_of_gone (hcount : 1 ≤ s.count)
    (h : (s.sweep c).windows.lookup c.key = none) : s.answer c = .ok none := by
  have hts : (s.sweep c).timestamps c.key = [] := by simp [timestamps, h]
  have htake : takeWindow s.count s.window c.now ((s.sweep c).timestamps c.key) =
      .ok (none, [c.now]) := by
    have hroom : (drain (c.now - s.window) []).length < s.count := Nat.lt_of_lt_of_le one_pos hcount
    rw [hts, takeWindow, if_pos hroom]
    rfl
  exact (take_of_ok htake).1

/-- After a burst of `2 * count` takes at `t`, a take one effective time to live and a
nanosecond later, with the cleanup due by then, goes at once. -/
theorem answer_burst (hempty : s.windows = ∅) (hcount : 1 ≤ s.count) (ht : t < s.nextCleanup)
    (hdue : s.nextCleanup ≤ t + (s.effectiveTtl + 1 : ℕ)) (k : String) :
    (run SharedState.step s (List.replicate (s.count + s.count) ⟨k, t, .stored⟩)).answer
      ⟨k, t + (s.effectiveTtl + 1 : ℕ), .stored⟩ = .ok none := by
  obtain ⟨w, hrun, _, _, hlookup⟩ := run_burst_store hempty hcount ht k (s.count + s.count)
  rw [if_neg (by omega)] at hlookup
  have hidle : s.effectiveTtl < saturatingDurationSince (t + (s.effectiveTtl + 1 : ℕ)) t := by
    unfold saturatingDurationSince
    omega
  rw [hrun]
  refine answer_of_gone hcount ?_
  exact lookup_sweep_due (s := { s with windows := w }) hdue hlookup hidle

/-- **When dropping idle windows is unobservable.**  From an empty store with any
settings, created at `created`, every take on every key answers what a store that
never drops an entry and sees the takes of that key only would answer, for all calls
at non-decreasing instants, exactly if the effective time to live is two windows, up
to one nanosecond. -/
theorem unobservable_iff (created : ℤ) (hempty : s.windows = ∅)
    (hnext : s.nextCleanup = created + CLEANUP_INTERVAL) (hcount : 1 ≤ s.count)
    (hwindow : 0 < s.window) :
    (∀ (calls : List Take) (c : Take),
        (created :: (calls ++ [c]).map Take.now).Pairwise (· ≤ ·) →
          (run SharedState.step s calls).answer c = aloneAnswer s.count s.window
            (run (aloneStep s.count s.window) [] (takeTimes c.key calls)) c.now) ↔
      2 * s.window ≤ max s.idleTtl s.window + 1 := by
  constructor
  · intro h
    by_contra hshort
    have httl : s.effectiveTtl = max s.idleTtl s.window := rfl
    have hinterval : (0 : ℤ) < CLEANUP_INTERVAL := by decide
    -- The burst comes early enough, and late enough for the cleanup to be due when it is idle.
    obtain ⟨t, hcreated, ht, hdue⟩ : ∃ t, created ≤ t ∧ t < s.nextCleanup ∧
        s.nextCleanup ≤ t + (s.effectiveTtl + 1 : ℕ) :=
      ⟨max created (s.nextCleanup - (s.effectiveTtl + 1 : ℕ)), by omega, by omega, by omega⟩
    have hanswer := h (List.replicate (s.count + s.count) ⟨"", t, .stored⟩)
      ⟨"", t + (s.effectiveTtl + 1 : ℕ), .stored⟩ (by
        rw [List.map_append, List.map_replicate]
        exact pairwise_burst hcreated (le_add_of_nonneg_right (Int.natCast_nonneg _)) _)
    have htimes : takeTimes "" (List.replicate (s.count + s.count) ⟨"", t, .stored⟩) =
        List.replicate (s.count + s.count) t := by
      simp [takeTimes]
    rw [answer_burst hempty hcount ht hdue, htimes,
      aloneAnswer_burst hcount hwindow (by omega) (by omega)] at hanswer
    cases hanswer
  · intro hsafe calls c hsorted
    exact (sound_empty hempty hcount hsafe created).answer_run hsorted

/-- The hypotheses of `unobservable_iff` are met by one request a second, kept for the
default ten minutes: the entry of a key that comes back after eleven minutes is
gone, and the answer is the same. -/
theorem unobservable_default :
    let s := new 1 (fromSecs 1) 0
    let calls : List Take := [⟨"k", 0, .stored⟩, ⟨"k", 0, .stored⟩]
    let late : Take := ⟨"k", fromSecs 660, .stored⟩
    (run SharedState.step s calls).answer late = aloneAnswer 1 (fromSecs 1)
      (run (aloneStep 1 (fromSecs 1)) [] (takeTimes "k" calls)) (fromSecs 660) := by
  intro s calls late
  exact (unobservable_iff (s := s) 0 rfl (by decide) (by decide) (by decide)).mpr (by decide)
    calls late (by decide)

/-- **A reservation is forgotten.**  With one request in ten minutes and two at once, the
second is let through after ten minutes.  A request one nanosecond later finds the
entry dropped and goes at once, where it would have to wait for almost ten minutes. -/
theorem reservation_forgotten :
    let s := new 1 (fromSecs 600) 0
    let first : Take := ⟨"k", 0, .stored⟩
    let late : Take := ⟨"k", fromSecs 600 + 1, .stored⟩
    (run SharedState.step s [first, first]).answer late = .ok none ∧
      aloneAnswer 1 (fromSecs 600) (run (aloneStep 1 (fromSecs 600)) [] [0, 0])
        (fromSecs 600 + 1) = .ok (some (fromSecs 600 - 1)) := by
  intro s first late
  decide

end SharedState
end SlidingWindow
end Noxy

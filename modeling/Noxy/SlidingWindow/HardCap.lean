/-
# When the sliding window keeps its hard cap

The documentation of `SlidingWindow` (`src/middleware/sliding_window.rs`)
promises "a hard cap of `count` requests per `window`".  A request is let
through at its arrival plus the delay that `take` returns, and `releases` lists
these instants for a run of `take` on one key.

`take` computes every delay from the front of the deque.  While the front
stands, every request that has to wait is therefore let through at the same
instant, the front plus the window, however many wait already: the third
request of a burst on a window of one request is let through together with the
second (`hardCap_broken`).

`hardCap_iff` says exactly when the cap is kept: at every `take`, of the
instants left in the deque fewer than `count` are later than the front one.
-/

import Noxy.Lib.Run
import Noxy.Lib.Windows
import Noxy.SlidingWindow.Deque

namespace Noxy
namespace SlidingWindow

open Lib Store

/-- The instants at which the requests of a run are let through: the arrival
plus the delay of `SharedState::take`, which is `0` for `None`. -/
def releases (o : IterOrder String WindowState) (key : String) :
    SharedState → List ℤ → Except Panic (List ℤ)
  | _, [] => .ok []
  | s, now :: arrivals => do
      let (delay, s) ← s.take o key now
      let rest ← releases o key s arrivals
      return (now + (delay.getD 0 : ℕ)) :: rest

/-- Every `take` of the run finds its state and its clock in `P`. -/
def EveryTake (o : IterOrder String WindowState) (key : String) (P : SharedState → ℤ → Prop) :
    SharedState → List ℤ → Prop
  | _, [] => True
  | s, now :: arrivals =>
      P s now ∧ ∀ r, s.take o key now = .ok r → EveryTake o key P r.2 arrivals

/-- Of the instants that are left in the key's deque, fewer than `count` are
later than the front one. -/
def SlotFree (key : String) (s : SharedState) (now : ℤ) : Prop :=
  ∀ f ∈ (drain (now - s.window) (s.timestamps key)).head?,
    (drain (now - s.window) (s.timestamps key)).countP (fun x => decide (f < x)) < s.count

/-- **One more release.**  The releases so far are the instants the deque has
dropped and those it still holds; adding the next one keeps the cap exactly
when fewer than `count` of the instants left are later than the front. -/
theorem atMost_release_iff {count : ℕ} {window : ℕ} {now r : ℤ} {old rest : List ℤ}
    (hwindow : 0 < window) (h : Valid count window now rest)
    (hold : ∀ x ∈ old, x ≤ now - window) (hlate : ∀ x ∈ rest, now - window < x)
    (hr : Released count window now rest r) :
    AtMost count window (old ++ rest ++ [r]) ↔
      AtMost count window (old ++ rest) ∧
        ∀ f ∈ rest.head?, rest.countP (fun x => decide (f < x)) < count := by
  have hle : ∀ x ∈ old ++ rest, x ≤ r := by
    intro x hx
    rcases List.mem_append.mp hx with hx | hx
    · have := hold x hx
      rcases hr with ⟨rfl, -⟩ | ⟨f, hf, -, rfl⟩
      · omega
      · have := hlate f (List.mem_of_mem_head? hf)
        omega
    · exact h.le_release hr x hx
  have hold' : ∀ c, now - window ≤ c → old.countP (fun x => decide (c < x)) = 0 := by
    intro c hc
    rw [List.countP_eq_zero]
    intro x hx
    have := hold x hx
    simp only [decide_eq_true_eq]
    omega
  rw [atMost_append_singleton (by omega) hle, List.countP_append]
  rcases hr with ⟨rfl, hlen⟩ | ⟨f, hf, -, rfl⟩
  · rw [hold' _ le_rfl]
    have hcount : ∀ c : ℤ, rest.countP (fun x => decide (c < x)) < count := fun c =>
      lt_of_le_of_lt List.countP_le_length hlen
    exact ⟨fun ⟨ha, _⟩ => ⟨ha, fun f _ => hcount f⟩, fun ⟨ha, _⟩ => ⟨ha, by
      rw [zero_add]; exact hcount _⟩⟩
  · have hlt := hlate f (List.mem_of_mem_head? hf)
    rw [hold' _ (by omega), add_sub_cancel_right, zero_add, hf]
    simp

/-- What a run keeps: the map holds at most the one key, its deque is valid, and
the releases so far are what the deque has dropped and what it holds. -/
structure Log (key : String) (s : SharedState) (t : ℤ) (past : List ℤ) : Prop where
  only : ∀ k ∈ s.windows, k = key
  valid : Valid s.count s.window t (s.timestamps key)
  split : ∃ old, past = old ++ s.timestamps key ∧ ∀ x ∈ old, x ≤ t - s.window

/-- **One `take` of a run**: it succeeds, logs the release, and keeps the cap
exactly when a slot is free. -/
theorem Log.step (o : IterOrder String WindowState) {key : String} {s : SharedState} {t now : ℤ}
    {past : List ℤ} (h : Log key s t past) (hcount : 1 ≤ s.count) (hwindow : 0 < s.window)
    (ht : t ≤ now) (hclean : now < s.nextCleanup) :
    ∃ (delay : Option ℕ) (w : HashMap String WindowState),
      s.take o key now = .ok (delay, { s with windows := w }) ∧
      Log key { s with windows := w } now (past ++ [now + (delay.getD 0 : ℕ)]) ∧
      (AtMost s.count s.window (past ++ [now + (delay.getD 0 : ℕ)]) ↔
        AtMost s.count s.window past ∧ SlotFree key s now) := by
  obtain ⟨old, hpast, hold⟩ := h.split
  obtain ⟨dropped, hdropped, hle⟩ := exists_drained (now - s.window) (s.timestamps key)
  obtain ⟨delay, htake, hr⟩ := takeWindow_ok hcount h.valid ht
  have hvalid := h.valid.drain ht
  have hlate : ∀ x ∈ drain (now - s.window) (s.timestamps key), now - s.window < x :=
    lt_of_mem_drain h.valid.sorted
  have hold' : ∀ x ∈ old ++ dropped, x ≤ now - s.window := by
    intro x hx
    rcases List.mem_append.mp hx with hx | hx
    · have := hold x hx
      omega
    · exact hle x hx
  have hsplit : past = old ++ dropped ++ drain (now - s.window) (s.timestamps key) := by
    rw [List.append_assoc, ← hdropped, hpast]
  refine ⟨delay, s.windows.insert key
    ⟨drain (now - s.window) (s.timestamps key) ++ [now + (delay.getD 0 : ℕ)], now⟩, ?_, ?_, ?_⟩
  · rw [SharedState.take_eq_takeWindow o ⟨hclean, h.only⟩, htake]
    rfl
  · refine ⟨fun k hk => ?_, ?_, old ++ dropped, ?_, hold'⟩
    · rcases (AList.mem_insert _).mp hk with rfl | hk
      · rfl
      · exact h.only k hk
    · rw [SharedState.timestamps_insert]
      exact hvalid.push hlate hr
    · rw [SharedState.timestamps_insert, hsplit, List.append_assoc]
  · rw [hsplit, atMost_release_iff hwindow hvalid hold' hlate hr]
    rfl

/-- **A whole run**: the cap holds of all its releases exactly when it held
before and every `take` of the run found a free slot. -/
theorem Log.run (o : IterOrder String WindowState) (key : String) :
    ∀ (arrivals : List ℤ) {s : SharedState} {t : ℤ} {past : List ℤ}, Log key s t past →
      1 ≤ s.count → 0 < s.window → (t :: arrivals).Pairwise (· ≤ ·) →
      (∀ a ∈ arrivals, a < s.nextCleanup) →
        ∃ rs, releases o key s arrivals = .ok rs ∧
          (AtMost s.count s.window (past ++ rs) ↔
            AtMost s.count s.window past ∧ EveryTake o key (SlotFree key) s arrivals)
  | [], s, t, past, _, _, _, _, _ => ⟨[], rfl, by simp [EveryTake]⟩
  | now :: arrivals, s, t, past, h, hcount, hwindow, hsorted, hclean => by
      rw [List.pairwise_cons] at hsorted
      obtain ⟨delay, w, htake, hlog, hiff⟩ := h.step o hcount hwindow
        (hsorted.1 now (List.mem_cons_self ..)) (hclean now (List.mem_cons_self ..))
      obtain ⟨rs, hrs, hrun⟩ := Log.run o key arrivals hlog hcount hwindow hsorted.2
        fun a ha => hclean a (List.mem_cons_of_mem _ ha)
      refine ⟨(now + (delay.getD 0 : ℕ)) :: rs, ?_, ?_⟩
      · rw [releases, htake]
        simp only [bind, Except.bind, hrs]
        rfl
      · rw [List.append_cons, hrun, hiff, EveryTake, htake, and_assoc]
        simp

/-- **The hard cap, exactly.**  From an empty store, with no cleanup due during
the run, every half-open interval as long as the window holds at most `count`
of the releases if and only if every `take` of the run finds fewer than `count`
of the instants left in the deque later than its front. -/
theorem hardCap_iff (o : IterOrder String WindowState) (key : String) {s : SharedState}
    (hempty : s.windows = ∅) (hcount : 1 ≤ s.count) (hwindow : 0 < s.window) {arrivals : List ℤ}
    (hsorted : arrivals.Pairwise (· ≤ ·)) (hclean : ∀ a ∈ arrivals, a < s.nextCleanup) :
    ∃ rs, releases o key s arrivals = .ok rs ∧
      (AtMost s.count s.window rs ↔ EveryTake o key (SlotFree key) s arrivals) := by
  cases arrivals with
  | nil => exact ⟨[], rfl, by simp [EveryTake, atMost_nil]⟩
  | cons t arrivals =>
      have hts : s.timestamps key = [] := by simp [SharedState.timestamps, hempty]
      have hlog : Log key s t [] :=
        ⟨by simp [hempty], by rw [hts]; exact valid_nil _ _ _, [], by simp [hts], by simp⟩
      obtain ⟨rs, hrs, hiff⟩ := Log.run o key (t :: arrivals) hlog hcount hwindow
        (pairwise_cons_self hsorted) hclean
      refine ⟨rs, hrs, ?_⟩
      rw [List.nil_append] at hiff
      rw [hiff]
      exact and_iff_right (atMost_nil _ _)

/-- The hypotheses of `hardCap_iff` are met by a window of two requests in ten
nanoseconds and a burst of four: the two that wait find a slot each. -/
theorem hardCap_iff_burst : ∃ rs,
    releases .stored "k" (SharedState.new 2 10 0) [0, 0, 0, 0] = .ok rs ∧
      (AtMost 2 10 rs ↔
        EveryTake .stored "k" (SlotFree "k") (SharedState.new 2 10 0) [0, 0, 0, 0]) :=
  hardCap_iff .stored "k" rfl (by decide) (by decide) (by decide) (by decide)

/-- **Two requests that wait are let through together.**  On a window of one
request in ten nanoseconds, of three requests at instant `0` the second and the
third are both let through at `10`. -/
theorem hardCap_broken : ¬∃ rs,
    releases .stored "k" (SharedState.new 1 10 0) [0, 0, 0] = .ok rs ∧ AtMost 1 10 rs := by
  rintro ⟨rs, hrs, hcap⟩
  have hval : releases .stored "k" (SharedState.new 1 10 0) [0, 0, 0] = .ok [0, 10, 10] := by
    decide
  obtain rfl : [0, 10, 10] = rs := Except.ok.inj (hval.symm.trans hrs)
  exact absurd (hcap 10) (by decide)

end SlidingWindow
end Noxy

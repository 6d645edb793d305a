/-
# One key's window, never dropped

`src/middleware/sliding_window.rs`: what the takes of one key are worth without the
map around them.  The deque of a key that is never dropped is what `takeWindow`
makes of it, take after take (`aloneStep`); it stays valid and no take panics
(`Valid.take`).  A take reads the deque only through what the drain leaves of it
(`takeWindow_congr`), so two deques that drain alike answer alike.

`run_burst` is the deque after a burst: of `count + m` takes at one instant the
first `count` go at once and the others are reserved for one window later.
-/

import Noxy.Lib.Run
import Noxy.SlidingWindow.Deque

namespace Noxy
namespace SlidingWindow

open Lib Store

/-- What a take answers, from a deque that is never dropped. -/
def aloneAnswer (count window : ℕ) (timestamps : List ℤ) (now : ℤ) : Except Panic (Option ℕ) :=
  (takeWindow count window now timestamps).map Prod.fst

/-- The deque after a take. -/
def aloneStep (count window : ℕ) (timestamps : List ℤ) (now : ℤ) : List ℤ :=
  match takeWindow count window now timestamps with
  | .ok r => r.2
  | .error _ => timestamps

/-- A take reads what the drain leaves. -/
theorem takeWindow_congr {count window : ℕ} {now : ℤ} {ts ts' : List ℤ}
    (h : drain (now - window) ts = drain (now - window) ts') :
    takeWindow count window now ts = takeWindow count window now ts' := by
  unfold takeWindow
  rw [h]

/-- A deque all of which has left the window drains to nothing. -/
theorem drain_eq_nil {cutoff : ℤ} {ts : List ℤ} (h : ∀ x ∈ ts, x ≤ cutoff) :
    drain cutoff ts = [] := by
  rw [drain, List.dropWhile_eq_nil_iff]
  simpa using h

/-- Everything in a valid deque is at most a window after `now`. -/
theorem Valid.le_add_window {count window : ℕ} {now : ℤ} {ts : List ℤ}
    (h : Valid count window now ts) : ∀ x ∈ ts, x ≤ now + window := by
  intro x hx
  cases ts with
  | nil => exact absurd hx List.not_mem_nil
  | cons f rest =>
      have h₁ := h.front f rfl
      have h₂ := h.reach f rfl x hx
      omega

/-- **A take from a valid deque** does not panic and leaves it valid. -/
theorem Valid.take {count window : ℕ} {t now : ℤ} {ts : List ℤ} (hcount : 1 ≤ count)
    (h : Valid count window t ts) (ht : t ≤ now) :
    ∃ delay ts', takeWindow count window now ts = .ok (delay, ts') ∧
      Valid count window now ts' := by
  obtain ⟨delay, htake, hr⟩ := takeWindow_ok hcount h ht
  exact ⟨delay, _, htake, (h.drain ht).push (lt_of_mem_drain h.sorted) hr⟩

theorem Valid.aloneStep {count window : ℕ} {t now : ℤ} {ts : List ℤ} (hcount : 1 ≤ count)
    (h : Valid count window t ts) (ht : t ≤ now) :
    Valid count window now (aloneStep count window ts now) := by
  obtain ⟨delay, ts', htake, hvalid⟩ := h.take hcount ht
  rw [SlidingWindow.aloneStep, htake]
  exact hvalid

section Burst

variable {count window : ℕ} {t : ℤ}

/-- Nothing that is at `t` or later has left the window of a take at `t`. -/
theorem drain_of_le (hwindow : 0 < window) {ts : List ℤ} (h : ∀ x ∈ ts.head?, t ≤ x) :
    drain (t - window) ts = ts := by
  cases ts with
  | nil => rfl
  | cons x ts =>
      have hx := h x rfl
      exact List.dropWhile_cons_of_neg (by simp; omega)

/-- With room in the window, one more goes at once. -/
theorem aloneStep_room (hwindow : 0 < window) {n : ℕ} (hn : n < count) :
    aloneStep count window (List.replicate n t) t = List.replicate (n + 1) t := by
  have hdrain : drain (t - window) (List.replicate n t) = List.replicate n t :=
    drain_of_le hwindow fun x hx =>
      (List.eq_of_mem_replicate (List.mem_of_mem_head? hx)).ge
  rw [aloneStep, takeWindow, hdrain]
  simp [hn, List.replicate_succ']

/-- With the window full, one more is reserved for one window later. -/
theorem aloneStep_full (hcount : 1 ≤ count) (hwindow : 0 < window) (m : ℕ) :
    aloneStep count window (List.replicate count t ++ List.replicate m (t + window)) t =
      List.replicate count t ++ List.replicate (m + 1) (t + window) := by
  obtain ⟨n, rfl⟩ : ∃ n, count = n + 1 := ⟨count - 1, by omega⟩
  have hdrain : drain (t - window) (List.replicate (n + 1) t ++ List.replicate m (t + window)) =
      List.replicate (n + 1) t ++ List.replicate m (t + window) :=
    drain_of_le hwindow fun x hx => by
      obtain rfl : t = x := by simpa [List.replicate_succ] using hx
      exact le_rfl
  have hlen : ¬ (List.replicate (n + 1) t ++ List.replicate m (t + (window : ℤ))).length <
      n + 1 := by
    simp only [List.length_append, List.length_replicate]
    omega
  have hhead : (List.replicate (n + 1) t ++ List.replicate m (t + (window : ℤ))).head? =
      some t := rfl
  have hsince : saturatingDurationSince t t = 0 := by
    unfold saturatingDurationSince
    omega
  rw [aloneStep, takeWindow, hdrain]
  dsimp only
  rw [if_neg hlen, hhead]
  dsimp only
  have hone : List.replicate (m + 1) (t + (window : ℤ)) =
      List.replicate m (t + (window : ℤ)) ++ [t + (window : ℤ)] := List.replicate_succ'
  rw [hsince, if_neg (Nat.not_lt_zero _), Nat.sub_zero, hone, List.append_assoc]

/-- **The deque after a burst.** -/
theorem run_burst (hcount : 1 ≤ count) (hwindow : 0 < window) (m : ℕ) :
    run (aloneStep count window) [] (List.replicate (count + m) t) =
      List.replicate count t ++ List.replicate m (t + window) := by
  have hroom : ∀ n ≤ count, run (aloneStep count window) [] (List.replicate n t) =
      List.replicate n t := by
    intro n hn
    induction n with
    | zero => rfl
    | succ n ih =>
        rw [List.replicate_succ', run_concat, ih (by omega), aloneStep_room hwindow (by omega),
          List.replicate_succ']
  induction m with
  | zero => simpa using hroom count le_rfl
  | succ m ih =>
      rw [← Nat.add_assoc, List.replicate_succ', run_concat, ih, aloneStep_full hcount hwindow]

/-- A take after a burst, when the burst itself has left the window and its
reservations have not, waits for the first of them. -/
theorem aloneAnswer_burst (hcount : 1 ≤ count) (hwindow : 0 < window) {later : ℕ}
    (hpast : window ≤ later) (hshort : later < 2 * window) :
    aloneAnswer count window
        (run (aloneStep count window) [] (List.replicate (count + count) t)) (t + later) =
      .ok (some (2 * window - later)) := by
  obtain ⟨n, rfl⟩ : ∃ n, count = n + 1 := ⟨count - 1, by omega⟩
  have hdrain : drain (t + later - window)
      (List.replicate (n + 1) t ++ List.replicate (n + 1) (t + (window : ℤ))) =
      List.replicate (n + 1) (t + (window : ℤ)) := by
    rw [drain, List.dropWhile_append_of_pos]
    · exact List.dropWhile_cons_of_neg (by simp; omega)
    · intro x hx
      rw [List.eq_of_mem_replicate hx]
      simp
      omega
  have hlen : ¬ (List.replicate (n + 1) (t + (window : ℤ))).length < n + 1 := by simp
  have hhead : (List.replicate (n + 1) (t + (window : ℤ))).head? = some (t + window) := rfl
  have hsince : saturatingDurationSince (t + later) (t + window) = later - window := by
    unfold saturatingDurationSince
    omega
  rw [run_burst hcount hwindow, aloneAnswer, takeWindow, hdrain]
  dsimp only
  rw [if_neg hlen, hhead]
  dsimp only
  rw [hsince, if_neg (by omega)]
  have hdelay : window - (later - window) = 2 * window - later := by omega
  rw [hdelay]
  rfl

end Burst

end SlidingWindow
end Noxy

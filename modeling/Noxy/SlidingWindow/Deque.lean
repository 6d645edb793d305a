/-
# The deque of a sliding window

`src/middleware/sliding_window.rs`: what `SharedState::take` does to the deque of a
key.

The invariant is `Valid`: the deque is sorted, its front is not in the future,
nothing in it is later than the front plus the window, and an instant in the future
has at least `count` instants before it.  Draining keeps it as the clock moves on
(`Valid.drain`), `takeWindow_ok` says at which instant the next request is let
through (`Released`), and with that instant at its end the deque is valid again
(`Valid.push`).
-/

import Mathlib.Data.List.TakeWhile
import Noxy.SlidingWindow.State

namespace Noxy
namespace SlidingWindow

open Store

/-- What holds of a key's deque at the instant `now`, after a `take`. -/
structure Valid (count : ℕ) (window : ℕ) (now : ℤ) (timestamps : List ℤ) :
    Prop where
  sorted : timestamps.Pairwise (· ≤ ·)
  front : ∀ f ∈ timestamps.head?, f ≤ now
  reach : ∀ f ∈ timestamps.head?, ∀ x ∈ timestamps, x ≤ f + window
  future : ∀ i x, timestamps[i]? = some x → now < x → count ≤ i

theorem valid_nil (count : ℕ) (window : ℕ) (now : ℤ) : Valid count window now [] :=
  ⟨List.Pairwise.nil, by simp, by simp, by simp⟩

theorem valid_singleton (count : ℕ) (window : ℕ) (now : ℤ) : Valid count window now [now] := by
  refine ⟨List.pairwise_singleton _ _, by simp, by simp, fun i x hx hlt => ?_⟩
  have hmem := List.mem_of_getElem? hx
  rw [List.mem_singleton.mp hmem] at hlt
  omega

/-- The deque is what was drained, all of it at or before the cutoff, and the rest. -/
theorem exists_drained (cutoff : ℤ) (timestamps : List ℤ) :
    ∃ old, timestamps = old ++ drain cutoff timestamps ∧ ∀ x ∈ old, x ≤ cutoff := by
  refine ⟨timestamps.takeWhile fun t => decide (t ≤ cutoff),
    List.takeWhile_append_dropWhile.symm, fun x hx => ?_⟩
  simpa using List.mem_takeWhile_imp hx

/-- What is left after draining a sorted deque is later than the cutoff. -/
theorem lt_of_mem_drain {cutoff : ℤ} {timestamps : List ℤ}
    (hs : timestamps.Pairwise (· ≤ ·)) : ∀ x ∈ drain cutoff timestamps, cutoff < x := by
  induction timestamps with
  | nil => simp [drain]
  | cons t rest ih =>
      rw [List.pairwise_cons] at hs
      by_cases ht : t ≤ cutoff
      · simpa [drain, List.dropWhile_cons, ht] using ih hs.2
      · intro x hx
        rw [drain, List.dropWhile_cons_of_neg (by simpa using ht)] at hx
        rcases List.mem_cons.mp hx with rfl | hx
        · omega
        · have := hs.1 x hx
          omega

/-- Draining a sorted deque is dropping what is not after the cutoff. -/
theorem drain_eq_filter {cutoff : ℤ} {ts : List ℤ} (hs : ts.Pairwise (· ≤ ·)) :
    drain cutoff ts = ts.filter fun x => !decide (x ≤ cutoff) := by
  obtain ⟨old, heq, hold⟩ := exists_drained cutoff ts
  have hlate : ∀ x ∈ drain cutoff ts, cutoff < x := lt_of_mem_drain hs
  generalize drain cutoff ts = rest at heq hlate
  have h₁ : old.filter (fun x => !decide (x ≤ cutoff)) = [] := by
    rw [List.filter_eq_nil_iff]
    intro x hx
    simpa using hold x hx
  have h₂ : rest.filter (fun x => !decide (x ≤ cutoff)) = rest := by
    rw [List.filter_eq_self]
    intro x hx
    simpa using hlate x hx
  rw [heq, List.filter_append, h₁, h₂, List.nil_append]

/-- Draining keeps the invariant as the clock moves on.  Where the front goes,
everything behind it is in the past: it is at most the front plus the window. -/
theorem Valid.drain {count : ℕ} {window : ℕ} {t now : ℤ} {timestamps : List ℤ}
    (h : Valid count window t timestamps) (ht : t ≤ now) :
    Valid count window now (drain (now - window) timestamps) := by
  obtain ⟨old, heq, hold⟩ := exists_drained (now - window) timestamps
  set rest := SlidingWindow.drain (now - window) timestamps with hrest
  cases old with
  | nil =>
      rw [List.nil_append] at heq
      rw [← heq]
      refine ⟨h.sorted, fun f hf => (h.front f hf).trans ht, h.reach, fun i x hx hlt => ?_⟩
      exact h.future i x hx (by omega)
  | cons f old =>
      have hf : f ≤ now - window := hold f (by simp)
      have hpast : ∀ x ∈ rest, x ≤ now := by
        intro x hx
        have := h.reach f (by rw [heq]; rfl) x (by rw [heq]; simp [hx])
        omega
      have hsorted : rest.Pairwise (· ≤ ·) := by
        have hs := h.sorted
        rw [heq] at hs
        exact (List.pairwise_append.mp hs).2.1
      have hlate : ∀ x ∈ rest, now - window < x := lt_of_mem_drain h.sorted
      refine ⟨hsorted, fun g hg => hpast g (List.mem_of_mem_head? hg), fun g hg x hx => ?_,
        fun i x hx hlt => ?_⟩
      · have h₁ := hlate g (List.mem_of_mem_head? hg)
        have h₂ := hpast x hx
        omega
      · have := hpast x (List.mem_of_getElem? hx)
        omega

/-- The instant `r` at which a request is let through: with room left in the deque it
goes now, and otherwise when the front leaves the window. -/
def Released (count window : ℕ) (now : ℤ) (rest : List ℤ) (r : ℤ) : Prop :=
  r = now ∧ rest.length < count ∨
    ∃ f, rest.head? = some f ∧ count ≤ rest.length ∧ r = f + window

/-- **What `takeWindow` does to a valid deque.**  It does not panic, and logs the
instant at which the request is let through. -/
theorem takeWindow_ok {count : ℕ} {window : ℕ} {t now : ℤ} {timestamps : List ℤ}
    (hcount : 1 ≤ count) (h : Valid count window t timestamps) (ht : t ≤ now) :
    ∃ delay : Option ℕ, takeWindow count window now timestamps =
        .ok (delay, drain (now - window) timestamps ++ [now + delay.getD 0]) ∧
      Released count window now (drain (now - window) timestamps)
        (now + (delay.getD 0 : ℕ)) := by
  have hd := h.drain ht
  have hlate : ∀ x ∈ drain (now - window) timestamps, now - window < x := lt_of_mem_drain h.sorted
  unfold takeWindow
  generalize drain (now - window) timestamps = rest at hd hlate ⊢
  dsimp only
  by_cases hlen : rest.length < count
  · exact ⟨none, by rw [if_pos hlen]; simp, Or.inl ⟨by simp, hlen⟩⟩
  · rw [if_neg hlen]
    cases rest with
    | nil => exact absurd hlen (by simp; omega)
    | cons f rest =>
        have h₁ : f ≤ now := hd.front f rfl
        have h₂ : now - window < f := hlate f (by simp)
        have h₃ : ¬window < saturatingDurationSince now f := by
          unfold saturatingDurationSince
          omega
        refine ⟨some (window - saturatingDurationSince now f), by simp [h₃],
          Or.inr ⟨f, rfl, by omega, ?_⟩⟩
        unfold saturatingDurationSince
        simp only [Option.getD_some]
        omega

/-- Everything left in the deque goes no later than the request that is taken. -/
theorem Valid.le_release {count : ℕ} {window : ℕ} {now r : ℤ} {rest : List ℤ}
    (h : Valid count window now rest) (hr : Released count window now rest r) :
    ∀ x ∈ rest, x ≤ r := by
  intro x hx
  rcases hr with ⟨rfl, hlen⟩ | ⟨f, hf, -, rfl⟩
  · by_contra hlt
    obtain ⟨i, hi, rfl⟩ := List.getElem_of_mem hx
    have := h.future i _ (List.getElem?_eq_getElem hi) (by omega)
    omega
  · exact h.reach f hf x hx

/-- The deque with the new instant at its end is valid again. -/
theorem Valid.push {count : ℕ} {window : ℕ} {now r : ℤ} {rest : List ℤ}
    (h : Valid count window now rest) (hlate : ∀ x ∈ rest, now - window < x)
    (hr : Released count window now rest r) :
    Valid count window now (rest ++ [r]) := by
  have hle : ∀ x ∈ rest, x ≤ r := h.le_release hr
  cases rest with
  | nil =>
      rcases hr with ⟨rfl, -⟩ | ⟨f, hf, -⟩
      · exact valid_singleton _ _ _
      · simp at hf
  | cons g rest =>
      refine ⟨?_, fun f hf => h.front f (by simpa using hf), ?_, ?_⟩
      · rw [List.pairwise_append]
        refine ⟨h.sorted, List.pairwise_singleton _ _, fun x hx y hy => ?_⟩
        rw [List.mem_singleton.mp hy]
        exact hle x hx
      · intro f hf x hx
        obtain rfl : g = f := by simpa using hf
        rcases List.mem_append.mp hx with hx | hx
        · exact h.reach g rfl x hx
        · rw [List.mem_singleton.mp hx]
          rcases hr with ⟨rfl, -⟩ | ⟨f', hf', -, rfl⟩
          · have := hlate g (by simp)
            omega
          · obtain rfl : g = f' := by simpa using hf'
            exact le_rfl
      · intro i x hx hlt
        rcases lt_trichotomy i (g :: rest).length with hi | rfl | hi
        · rw [List.getElem?_append_left hi] at hx
          exact h.future i x hx hlt
        · obtain rfl : r = x := by simpa using hx
          rcases hr with ⟨rfl, -⟩ | ⟨-, -, hlen, -⟩
          · omega
          · exact hlen
        · rw [List.getElem?_eq_none (by simp at hi ⊢; omega)] at hx
          cases hx

end SlidingWindow
end Noxy

/-
# What the deques of the store look like

`src/middleware/sliding_window.rs`: runs of `SharedState::take` on any keys.

Past instants and instants in the future are in one deque, and both are appended at its back.
It is sorted all the same: with room in the deque nothing in it is in the future, and otherwise
the new instant is a window after the front, which nothing in the deque is later than
(`Valid.push`).  So the loop of `take` drops exactly what has left the window, the front that is
left is not in the future, and a request that waits does so for a positive time of at most one
window (`Represents`).  An entry that the cleanup drops has been idle for a window, so it holds
nothing that is in the future, and the requests of a key are let through in the order in which
they come (`representation`).
-/

import Noxy.SlidingWindow.Checked

namespace Noxy
namespace SlidingWindow

open Lib Store

namespace SharedState

/-- **What a call finds and leaves.** -/
structure Represents (s : SharedState) (c : Take) : Prop where
  /-- The deques are sorted. -/
  sorted : ∀ k, ((s.step c).timestamps k).Pairwise (· ≤ ·)
  /-- An instant in the future has at least `count` instants in front of it. -/
  future : ∀ k i x, ((s.step c).timestamps k)[i]? = some x → c.now < x → s.count ≤ i
  /-- The loop drops exactly what is at or before the cutoff. -/
  drained : s.drained c =
    ((s.sweep c).timestamps c.key).filter fun x => !decide (x ≤ c.now - s.window)
  /-- The front that is left is not in the future. -/
  front : ∀ f ∈ (s.drained c).head?, f ≤ c.now
  /-- With room in the deque the request goes at once. -/
  room : (s.drained c).length < s.count → s.answer c = .ok none
  /-- Of a full deque it waits, for at most a window. -/
  full : s.count ≤ (s.drained c).length →
    ∃ delay, s.answer c = .ok (some delay) ∧ 0 < delay ∧ delay ≤ s.window

/-- The instants at which the requests of `k` are let through, in the order of the calls. -/
def releasesOf (k : String) : SharedState → List Take → List ℤ
  | _, [] => []
  | s, c :: calls =>
      match s.answer c with
      | .ok delay =>
          if c.key = k then (c.now + (delay.getD 0 : ℕ)) :: releasesOf k (s.step c) calls
          else releasesOf k (s.step c) calls
      | .error _ => releasesOf k (s.step c) calls

variable {s : SharedState} {c : Take} {t : ℤ} {k : String}

/-! ### One call -/

theorem Healthy.timestamps (h : s.Healthy t) (k : String) :
    (s.timestamps k).Pairwise (· ≤ ·) ∧
      (∀ i x, (s.timestamps k)[i]? = some x → t < x → s.count ≤ i) := by
  cases he : s.windows.lookup k with
  | none =>
      have hts : s.timestamps k = [] := by simp [SharedState.timestamps, he]
      rw [hts]
      exact ⟨.nil, by simp⟩
  | some e =>
      have hts : s.timestamps k = e.timestamps := by simp [SharedState.timestamps, he]
      obtain ⟨hvalid, hseen⟩ := h k e he
      rw [hts]
      exact ⟨hvalid.sorted, fun i x hx hlt => hvalid.future i x hx (by omega)⟩

/-- A call answers with the wait of its request, and logs the instant at which it ends. -/
theorem Healthy.release (h : s.Healthy t) (hcount : 1 ≤ s.count) (ht : t ≤ c.now) :
    ∃ delay : Option ℕ, s.answer c = .ok delay ∧
      (s.step c).timestamps c.key = s.drained c ++ [c.now + (delay.getD 0 : ℕ)] ∧
      Released s.count s.window c.now (s.drained c) (c.now + (delay.getD 0 : ℕ)) := by
  obtain ⟨seen, hseen, hvalid⟩ := h.swept ht
  obtain ⟨delay, htake, hreleased⟩ := takeWindow_ok hcount hvalid hseen
  obtain ⟨hanswer, hstep⟩ := take_of_ok htake
  refine ⟨delay, hanswer, ?_, hreleased⟩
  rw [hstep, timestamps_insert]
  rfl

/-- The deque that is left by the loop: valid, and after the cutoff. -/
theorem Healthy.drained (h : s.Healthy t) (ht : t ≤ c.now) :
    Valid s.count s.window c.now (s.drained c) ∧
      (∀ x ∈ s.drained c, c.now - s.window < x) ∧
      s.drained c =
        ((s.sweep c).timestamps c.key).filter fun x => !decide (x ≤ c.now - s.window) := by
  obtain ⟨seen, hseen, hvalid⟩ := h.swept ht
  exact ⟨hvalid.drain hseen, lt_of_mem_drain hvalid.sorted, drain_eq_filter hvalid.sorted⟩

/-- **One call of a run.** -/
theorem Healthy.represents (h : s.Healthy t) (hcount : 1 ≤ s.count) (ht : t ≤ c.now) :
    s.Represents c := by
  obtain ⟨hstep, hsame, -, -⟩ := h.step hcount ht
  obtain ⟨hvalid, hlate, hfilter⟩ := h.drained ht
  obtain ⟨delay, hanswer, -, hreleased⟩ := h.release hcount ht
  refine ⟨fun k => (hstep.timestamps k).1, fun k i x hx hlt => ?_, hfilter, hvalid.front,
    fun hroom => ?_, fun hfull => ?_⟩
  · rw [← hsame]
    exact (hstep.timestamps k).2 i x hx hlt
  · exact (take_of_ok (takeWindow_of_room hroom)).1
  · rcases hreleased with ⟨-, hlength⟩ | ⟨f, hf, -, hr⟩
    · omega
    · have hfront := hvalid.front f hf
      have hcutoff := hlate f (List.mem_of_mem_head? hf)
      cases delay with
      | none =>
          simp only [Option.getD_none] at hr
          omega
      | some delay =>
          simp only [Option.getD_some] at hr
          exact ⟨delay, hanswer, by omega, by omega⟩

/-! ### Requests in their order -/

/-- Everything at which a request of `k` has been let through is past, or is in its deque. -/
def Past (k : String) (s : SharedState) (t : ℤ) (past : List ℤ) : Prop :=
  ∀ x ∈ past, x ≤ t ∨ x ∈ s.timestamps k

/-- What the cleanup drops is past. -/
theorem Past.sweep {past : List ℤ} (hpast : s.Past k t past) (h : s.Healthy t) (ht : t ≤ c.now) :
    (s.sweep c).Past k c.now past := by
  intro x hx
  rcases hpast x hx with hle | hmem
  · exact .inl (hle.trans ht)
  · rcases s.lookup_windows_sweep c k with hkept | ⟨-, e, he, hidle⟩
    · refine .inr ?_
      rwa [timestamps, hkept]
    · have hts : s.timestamps k = e.timestamps := by simp [timestamps, he]
      rw [hts] at hmem
      obtain ⟨hvalid, -⟩ := h k e he
      have hreach := hvalid.le_add_window x hmem
      have httl : s.window ≤ s.effectiveTtl := le_max_right _ _
      unfold saturatingDurationSince at hidle
      exact .inl (by omega)

/-- A call on another key leaves the deque that the cleanup leaves. -/
theorem timestamps_step_of_ne (hk : c.key ≠ k) (h : s.Healthy t) (hcount : 1 ≤ s.count)
    (ht : t ≤ c.now) : (s.step c).timestamps k = (s.sweep c).timestamps k := by
  obtain ⟨delay, ts, htake, -⟩ := h.take hcount ht
  rw [(take_of_ok htake).2, timestamps, timestamps, AList.lookup_insert_ne (Ne.symm hk)]

/-- **A request is let through no earlier than those before it.** -/
theorem Past.step {past : List ℤ} (hpast : s.Past c.key t past) (h : s.Healthy t)
    (hcount : 1 ≤ s.count) (ht : t ≤ c.now) :
    ∃ r, (∀ calls, releasesOf c.key s (c :: calls) = r :: releasesOf c.key (s.step c) calls) ∧
      (∀ x ∈ past, x ≤ r) ∧ (s.step c).Past c.key c.now (past ++ [r]) := by
  obtain ⟨delay, hanswer, hstep, hreleased⟩ := h.release hcount ht
  obtain ⟨hvalid, -, hfilter⟩ := h.drained ht
  have hkept : ∀ x ∈ past, x ≤ c.now ∨ x ∈ s.drained c := by
    intro x hx
    rcases hpast.sweep h ht x hx with hle | hmem
    · exact .inl hle
    · by_cases hcut : x ≤ c.now - s.window
      · exact .inl (by omega)
      · refine .inr ?_
        rw [hfilter, List.mem_filter]
        exact ⟨hmem, by simpa using hcut⟩
  refine ⟨c.now + (delay.getD 0 : ℕ), fun calls => ?_, fun x hx => ?_, fun x hx => ?_⟩
  · rw [releasesOf, hanswer]
    exact if_pos rfl
  · rcases hkept x hx with hle | hmem
    · omega
    · exact hvalid.le_release hreleased x hmem
  · rw [hstep]
    rcases List.mem_append.mp hx with hx | hx
    · exact (hkept x hx).imp_right (List.mem_append_left _)
    · exact .inr (List.mem_append_right _ hx)

/-- A call on another key changes nothing of that. -/
theorem Past.step_of_ne {past : List ℤ} (hpast : s.Past k t past) (hk : c.key ≠ k)
    (h : s.Healthy t) (hcount : 1 ≤ s.count) (ht : t ≤ c.now) :
    (∀ calls, releasesOf k s (c :: calls) = releasesOf k (s.step c) calls) ∧
      (s.step c).Past k c.now past := by
  obtain ⟨delay, hanswer, -⟩ := h.release hcount ht
  constructor
  · intro calls
    rw [releasesOf, hanswer]
    exact if_neg hk
  · intro x hx
    rw [timestamps_step_of_ne hk h hcount ht]
    exact hpast.sweep h ht x hx

/-- **A whole run.** -/
theorem Healthy.run (h : s.Healthy t) (hcount : 1 ≤ s.count) {calls : List Take}
    (hsorted : (t :: calls.map Take.now).Pairwise (· ≤ ·)) :
    Along SharedState.step Represents s calls ∧
      ∀ k past, s.Past k t past → past.Pairwise (· ≤ ·) →
        (past ++ releasesOf k s calls).Pairwise (· ≤ ·) := by
  induction calls generalizing s t with
  | nil =>
      refine ⟨trivial, fun k past _ hpairwise => ?_⟩
      rwa [releasesOf, List.append_nil]
  | cons c calls ih =>
      rw [List.map_cons, List.pairwise_cons] at hsorted
      have ht : t ≤ c.now := hsorted.1 c.now List.mem_cons_self
      obtain ⟨hstep, hcount', -, -⟩ := h.step hcount ht
      obtain ⟨halong, hordered⟩ := ih hstep (by rw [hcount']; exact hcount) hsorted.2
      refine ⟨⟨h.represents hcount ht, halong⟩, fun k past hpast hpairwise => ?_⟩
      by_cases hk : c.key = k
      · subst hk
        obtain ⟨r, hreleases, hle, hnext⟩ := hpast.step h hcount ht
        rw [hreleases, List.append_cons]
        refine hordered _ _ hnext ?_
        rw [List.pairwise_append]
        refine ⟨hpairwise, List.pairwise_singleton _ _, fun x hx y hy => ?_⟩
        rw [List.mem_singleton.mp hy]
        exact hle x hx
      · obtain ⟨hreleases, hnext⟩ := hpast.step_of_ne hk h hcount ht
        rw [hreleases]
        exact hordered k past hnext hpairwise

/-- **The representation invariant.**  In every run from an empty store, with calls on any keys
that do not go back in time, every call finds and leaves its deques as `Represents` says, and the
requests of each key are let through in the order of their calls. -/
theorem representation (hempty : s.windows = ∅) (hcount : 1 ≤ s.count) {calls : List Take}
    (hsorted : (calls.map Take.now).Pairwise (· ≤ ·)) :
    Along SharedState.step Represents s calls ∧
      ∀ k, (releasesOf k s calls).Pairwise (· ≤ ·) := by
  cases calls with
  | nil => exact ⟨trivial, fun k => .nil⟩
  | cons c calls =>
      have hhealthy : s.Healthy c.now := by
        intro k e he
        simp [hempty] at he
      have htimes : (c.now :: (c :: calls).map Take.now).Pairwise (· ≤ ·) :=
        pairwise_cons_self hsorted
      obtain ⟨halong, hordered⟩ := hhealthy.run hcount htimes
      exact ⟨halong, fun k => hordered k [] (List.forall_mem_nil _) .nil⟩

/-- Two requests in ten nanoseconds: three come at once, one soon after them, and one when the
first two have left the window. -/
def fiveTakes : List Take :=
  [⟨"k", 0, .stored⟩, ⟨"k", 0, .stored⟩, ⟨"k", 0, .stored⟩, ⟨"k", 4, .stored⟩, ⟨"k", 12, .stored⟩]

/-- The hypotheses of `representation` are met by takes of which the last three wait. -/
theorem representation_five :
    Along SharedState.step Represents (SharedState.new 2 10 0) fiveTakes ∧
      ∀ k, (releasesOf k (SharedState.new 2 10 0) fiveTakes).Pairwise (· ≤ ·) :=
  representation rfl (by decide) (by decide)

end SharedState
end SlidingWindow
end Noxy

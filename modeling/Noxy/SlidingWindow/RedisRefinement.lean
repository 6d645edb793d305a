/-
# The Redis sliding window is the in-memory one

`src/middleware/sliding_window.rs`: `take` of `RedisSlidingWindowStore` against
`SharedState::take`.  The one counts time in milliseconds and lets its key expire, the
other counts in nanoseconds and is looked at here while no cleanup is due and no other
key is in the map.

`takeWindow` does not depend on the unit of time (`takeWindow_scale`), so the deque of the
store is that of the sorted set, in other units (`InStep`), and a take keeps the two in
step and answers the same (`InStep.step`).  `redisWindow_refines` is the whole run.
-/

import Noxy.SlidingWindow.Follows
import Noxy.SlidingWindow.Redis

namespace Noxy
namespace SlidingWindow

open Lib Redis Store

/-- A take at a millisecond time, with the random member of its script and the order in
which the map hands out its entries while it runs. -/
structure Timed where
  nowMs : ℤ
  member : String
  order : IterOrder String WindowState

/-- The take with its time in nanoseconds. -/
def Timed.take (key : String) (x : Timed) : Take := ⟨key, 1000000 * x.nowMs, x.order⟩

/-- What the takes of a run answer. -/
def SharedState.answers : SharedState → List Take → List (Except Panic (Option ℕ))
  | _, [] => []
  | s, c :: calls => s.answer c :: answers (s.step c) calls

namespace RedisSlidingWindowStore

/-- The database after a take. -/
def step (store : RedisSlidingWindowStore) (key : String) (db : Db ZSet) (x : Timed) : Db ZSet :=
  (store.script key x.member x.nowMs db).2

/-- What the scripts of a run reply. -/
def replies (store : RedisSlidingWindowStore) (key : String) : Db ZSet → List Timed → List ℤ
  | _, [] => []
  | db, x :: xs =>
      (store.script key x.member x.nowMs db).1 :: store.replies key (store.step key db x) xs

end RedisSlidingWindowStore

section Scale

variable {u : ℕ} (hu : 0 < u)

include hu in
theorem drain_scale (cutoff : ℤ) (ts : List ℤ) :
    drain (u * cutoff) (ts.map fun x => (u : ℤ) * x) =
      (drain cutoff ts).map fun x => (u : ℤ) * x := by
  have hle : ∀ x : ℤ, (u : ℤ) * x ≤ u * cutoff ↔ x ≤ cutoff := fun x =>
    mul_le_mul_iff_right₀ (by exact_mod_cast hu)
  unfold drain
  rw [List.dropWhile_map]
  simp only [Function.comp_def, hle]

theorem saturatingDurationSince_scale (u : ℕ) (now earlier : ℤ) :
    saturatingDurationSince (u * now) (u * earlier) = u * saturatingDurationSince now earlier := by
  unfold saturatingDurationSince
  rw [← mul_sub]
  rcases le_total 0 (now - earlier) with h | h
  · rw [Int.toNat_mul (Int.natCast_nonneg u) h, Int.toNat_natCast]
  · rw [Int.toNat_of_nonpos h, Int.toNat_of_nonpos, Nat.mul_zero]
    exact mul_nonpos_of_nonneg_of_nonpos (Int.natCast_nonneg u) h

include hu in
/-- **The unit of time does not matter** to `takeWindow`. -/
theorem takeWindow_scale (count window : ℕ) (now : ℤ) (ts : List ℤ) :
    takeWindow count (u * window) (u * now) (ts.map fun x => (u : ℤ) * x) =
      (takeWindow count window now ts).map fun r =>
        (r.1.map fun d => u * d, r.2.map fun x => (u : ℤ) * x) := by
  have hcutoff : (u : ℤ) * now - (u * window : ℕ) = u * (now - window) := by
    rw [Nat.cast_mul, mul_sub]
  unfold takeWindow
  rw [hcutoff, drain_scale hu]
  generalize drain (now - window) ts = rest
  dsimp only
  rw [List.length_map]
  by_cases hlen : rest.length < count
  · rw [if_pos hlen, if_pos hlen]
    simp [Except.map]
  · rw [if_neg hlen, if_neg hlen, List.head?_map]
    cases rest.head? with
    | none => rfl
    | some f =>
        simp only [Option.map_some, saturatingDurationSince_scale]
        have hlt : u * window < u * saturatingDurationSince now f ↔
            window < saturatingDurationSince now f := Nat.mul_lt_mul_left hu
        by_cases hsince : window < saturatingDurationSince now f
        · rw [if_pos (hlt.mpr hsince), if_pos hsince]
          rfl
        · rw [if_neg (fun h => hsince (hlt.mp h)), if_neg hsince]
          simp [Except.map, ← Nat.mul_sub, mul_add]

end Scale

section Runs

variable {store : RedisSlidingWindowStore} {s : SharedState} {key : String} {used : List String}
  {last : ℤ} {db : Db ZSet}

/-- The store and the database are at the same deque `ts`, and the store has no other key. -/
structure InStep (store : RedisSlidingWindowStore) (s : SharedState) (key : String)
    (used : List String) (last : ℤ) (ts : List ℤ) (db : Db ZSet) : Prop where
  tracks : Tracks store.count (asMillis store.window) (store.redisKey key) used last ts db
  timestamps : s.timestamps key = ts.map fun x => ((1000000 : ℕ) : ℤ) * x
  only : ∀ k ∈ s.windows, k = key
  count : s.count = store.count
  window : s.window = 1000000 * asMillis store.window

/-- **A take** keeps them in step and has the same answer. -/
theorem InStep.step {ts : List ℤ} (h : InStep store s key used last ts db)
    (hcount : 1 ≤ store.count) {x : Timed} (hnow : last ≤ x.nowMs) (hfresh : x.member ∉ used)
    (hclean : (x.take key).now < s.nextCleanup) :
    ∃ (delay : Option ℕ) (ts' : List ℤ),
      s.answer (x.take key) = .ok (delay.map fun d => 1000000 * d) ∧
      (store.script key x.member x.nowMs db).1 = (delay.getD 0 : ℕ) ∧
      InStep store (s.step (x.take key)) key (x.member :: used) x.nowMs ts'
        (store.step key db x) ∧
      (s.step (x.take key)).nextCleanup = s.nextCleanup := by
  obtain ⟨delay, ts', htake, hreply, htracks⟩ := h.tracks.step hcount hnow hfresh
  have hmemory := takeWindow_scale (u := 1000000) (by decide) store.count (asMillis store.window)
    x.nowMs ts
  rw [htake, ← h.timestamps, ← h.window, ← h.count] at hmemory
  have halone : s.Alone key (x.take key).now := ⟨hclean, h.only⟩
  have hstore := SharedState.take_eq_takeWindow x.order halone
  have hmemory' : takeWindow s.count s.window (x.take key).now (s.timestamps key) =
      .ok (delay.map fun d => 1000000 * d, ts'.map fun x => ((1000000 : ℕ) : ℤ) * x) := hmemory
  rw [hmemory'] at hstore
  have hstep : s.step (x.take key) = { s with
      windows := s.windows.insert key
        ⟨ts'.map fun x => ((1000000 : ℕ) : ℤ) * x, (x.take key).now⟩ } := by
    unfold SharedState.step
    simp only [Timed.take] at hstore ⊢
    rw [hstore]
    rfl
  refine ⟨delay, ts', ?_, hreply, ?_, by rw [hstep]⟩
  · unfold SharedState.answer
    simp only [Timed.take] at hstore ⊢
    rw [hstore]
    rfl
  · rw [hstep]
    refine ⟨htracks, ?_, fun k hk => ?_, h.count, h.window⟩
    · rw [SharedState.timestamps_insert]
    · rcases (AList.mem_insert _).mp hk with rfl | hk
      · rfl
      · exact h.only k hk

/-- **A whole run** keeps them in step and has the same answers. -/
theorem InStep.run {ts : List ℤ} {xs : List Timed} (h : InStep store s key used last ts db)
    (hcount : 1 ≤ store.count) (horder : (last :: xs.map Timed.nowMs).Pairwise (· ≤ ·))
    (hdistinct : (xs.map Timed.member).Nodup) (hfresh : ∀ x ∈ xs, x.member ∉ used)
    (hclean : ∀ x ∈ xs, (x.take key).now < s.nextCleanup) :
    (s.answers (xs.map (Timed.take key))).map (Except.map fun delay => (delay.getD 0 : ℤ)) =
        (store.replies key db xs).map (fun delayMs => .ok (1000000 * delayMs)) ∧
      ∃ used' last' ts', Tracks store.count (asMillis store.window) (store.redisKey key) used'
        last' ts' (Lib.run (store.step key) db xs) := by
  induction xs generalizing s used last ts db with
  | nil => exact ⟨rfl, used, last, ts, h.tracks⟩
  | cons x xs ih =>
      rw [List.map_cons, List.pairwise_cons] at horder
      rw [List.map_cons, List.nodup_cons] at hdistinct
      obtain ⟨delay, ts', hanswer, hreply, hnext, hcleanup⟩ := h.step hcount
        (horder.1 _ (List.mem_cons_self ..)) (hfresh x (List.mem_cons_self ..))
        (hclean x (List.mem_cons_self ..))
      have hfresh' : ∀ y ∈ xs, y.member ∉ x.member :: used := by
        intro y hy hmem
        rcases List.mem_cons.mp hmem with heq | hmem
        · exact hdistinct.1 (heq ▸ List.mem_map_of_mem hy)
        · exact hfresh y (List.mem_cons_of_mem _ hy) hmem
      obtain ⟨hanswers, htracks⟩ := ih hnext horder.2 hdistinct.2 hfresh' fun y hy => by
        rw [hcleanup]
        exact hclean y (List.mem_cons_of_mem _ hy)
      refine ⟨?_, htracks⟩
      rw [List.map_cons, SharedState.answers, RedisSlidingWindowStore.replies, List.map_cons,
        List.map_cons, hanswers, hanswer, hreply]
      cases delay <;> simp [Except.map]

end Runs

/-- **The Redis sliding window refines the in-memory one.**  Whatever else is in the
database, for takes on one key at millisecond times in order, with different members and
no cleanup due, the scripts on a missing key reply the delays of the store on an empty map,
`None` being 0.  And at any time at which the key has expired after the run, all its
members have left the window. -/
theorem redisWindow_refines (store : RedisSlidingWindowStore) {s : SharedState}
    (hempty : s.windows = ∅) (hcount : s.count = store.count) (hwindow : s.window = store.window)
    (hpos : 1 ≤ store.count) (hms : 1000000 ∣ store.window) {key : String} {db : Db ZSet}
    (hmissing : db.lookup (store.redisKey key) = none) {xs : List Timed}
    (horder : (xs.map Timed.nowMs).Pairwise (· ≤ ·)) (hdistinct : (xs.map Timed.member).Nodup)
    (hclean : ∀ x ∈ xs, (x.take key).now < s.nextCleanup) :
    (s.answers (xs.map (Timed.take key))).map (Except.map fun delay => (delay.getD 0 : ℤ)) =
        (store.replies key db xs).map (fun delayMs => .ok (1000000 * delayMs)) ∧
      ∀ t e, (run (store.step key) db xs).lookup (store.redisKey key) = some e →
        e.live t = false → ∀ score ∈ e.value.scores, score ≤ t - asMillis store.window := by
  cases xs with
  | nil =>
      refine ⟨rfl, fun t e he => ?_⟩
      rw [run_nil, hmissing] at he
      cases he
  | cons x xs =>
      have hstart : InStep store s key [] x.nowMs [] db := by
        refine ⟨tracks_missing _ _ _ hmissing, ?_, ?_, hcount, ?_⟩
        · simp [SharedState.timestamps, hempty]
        · simp [hempty]
        · rw [hwindow]
          exact (Nat.mul_div_cancel' hms).symm
      have horder' : (x.nowMs :: (x :: xs).map Timed.nowMs).Pairwise (· ≤ ·) :=
        pairwise_cons_self horder
      obtain ⟨hanswers, used, last, ts, htracks⟩ :=
        hstart.run hpos horder' hdistinct (by simp) hclean
      exact ⟨hanswers, fun t e he hdead => htracks.expired he hdead⟩

/-- The hypotheses of `redisWindow_refines` are met by a burst on a window of two requests
in ten seconds, and a take after it. -/
theorem redisWindow_refines_burst :
    let store : RedisSlidingWindowStore := ⟨2, fromSecs 10, fun key => "noxy:" ++ key⟩
    let xs : List Timed := [⟨0, "a", .stored⟩, ⟨0, "b", .stored⟩, ⟨1, "c", .stored⟩,
      ⟨10500, "d", .stored⟩]
    ((SharedState.new 2 (fromSecs 10) 0).answers (xs.map (Timed.take "k"))).map
        (Except.map fun delay => (delay.getD 0 : ℤ)) =
      (store.replies "k" ∅ xs).map (fun delayMs => .ok (1000000 * delayMs)) := by
  intro store xs
  exact (redisWindow_refines store rfl rfl rfl (by decide) (by decide) rfl (by decide) (by decide)
    (by decide)).1

end SlidingWindow
end Noxy

/-
# Shapers

A shaper lets the items of a stream through in order and no earlier than they come, so
that every item is at least `f k` behind the one `k` places before it (`Spaced`).  The
earliest such times are known in advance: item `n` goes at the latest of the times
`a j + f (n - j)`, over the items `j` up to it (`shaped`, `shaped_le_iff`).

Three facts make shapers compose.  What is spaced by another curve stays so when it is
shaped (`Spaced.shaped`), since whatever delays an item delays the one `k` places behind
it by as much.  No spaced stream that starts from the same items is ahead anywhere
(`shaped_le_of_spaced`).  And for curves that are star-shaped (`Curve`), which grow no
slower on average the further they go, one shaper after the other is the later of the two
(`shaped_shaped`): a delay that is made up of both is never the worst.

A virtual schedule that starts with nothing paid for is a shaper (`getElem?_schedule`).
-/

import Noxy.Lib.VirtualScheduling
import Mathlib.Data.Finset.Lattice.Fold

namespace Noxy
namespace Lib

variable {K : Type*} [Field K] [LinearOrder K] [IsStrictOrderedRing K]

/-- The first `n` items of `a` are spaced by `f`. -/
def Spaced (f a : ℕ → K) (n : ℕ) : Prop := ∀ i k, i + k < n → a i + f k ≤ a (i + k)

/-- When the `n`-th item of `a` goes, shaped by `f`. -/
def shaped (f a : ℕ → K) (n : ℕ) : K :=
  (Finset.range (n + 1)).sup' Finset.nonempty_range_add_one fun j => a j + f (n - j)

/-- A curve that starts at zero and is star-shaped: its average is least at the start. -/
structure Curve (K : Type*) [Field K] [LinearOrder K] where
  gap : ℕ → K
  gap_zero : gap 0 = 0
  star : ∀ {p m : ℕ}, p ≤ m → (m : K) * gap p ≤ p * gap m

section Shaped

variable {f g a r : ℕ → K} {n : ℕ}

omit [IsStrictOrderedRing K] in
theorem shaped_le_iff {c : K} : shaped f a n ≤ c ↔ ∀ j ≤ n, a j + f (n - j) ≤ c := by
  unfold shaped
  rw [Finset.sup'_le_iff]
  simp only [Finset.mem_range, Nat.lt_succ_iff]

omit [IsStrictOrderedRing K] in
theorem le_shaped {j : ℕ} (h : j ≤ n) : a j + f (n - j) ≤ shaped f a n :=
  shaped_le_iff.mp le_rfl j h

/-- **Shaping keeps what is spaced.** -/
theorem Spaced.shaped (h : Spaced g a n) : Spaced g (shaped f a) n := by
  intro i k hik
  rw [← le_sub_iff_add_le, shaped_le_iff]
  intro j hj
  have hspaced := h j k (by omega)
  have hlate := le_shaped (f := f) (a := a) (n := i + k) (j := j + k) (by omega)
  rw [Nat.add_sub_add_right] at hlate
  linarith

/-- **Shaping is least.**  What is spaced and nowhere ahead of the items is nowhere ahead of
the shaped ones. -/
theorem shaped_le_of_spaced {N : ℕ} (hr : Spaced f r N) (hle : ∀ j < N, a j ≤ r j) (hn : n < N) :
    shaped f a n ≤ r n := by
  rw [shaped_le_iff]
  intro j hj
  have hspaced := hr j (n - j) (by omega)
  rw [Nat.add_sub_cancel' hj] at hspaced
  exact (add_le_add_left (hle j (by omega)) _).trans hspaced

end Shaped

namespace Curve

variable (f g : Curve K) {a : ℕ → K} {n : ℕ}

/-- A delay that is made up of two curves is not the worst. -/
theorem gap_add_gap_le (p q : ℕ) : f.gap p + g.gap q ≤ max (f.gap (p + q)) (g.gap (p + q)) := by
  rcases Nat.eq_zero_or_pos (p + q) with h | h
  · obtain ⟨rfl, rfl⟩ : p = 0 ∧ q = 0 := by omega
    simp [f.gap_zero, g.gap_zero]
  · set M := max (f.gap (p + q)) (g.gap (p + q)) with hM
    have hf := f.star (Nat.le_add_right p q)
    have hg := g.star (Nat.le_add_left q p)
    have hfM : (p : K) * f.gap (p + q) ≤ p * M :=
      mul_le_mul_of_nonneg_left (le_max_left _ _) (Nat.cast_nonneg p)
    have hgM : (q : K) * g.gap (p + q) ≤ q * M :=
      mul_le_mul_of_nonneg_left (le_max_right _ _) (Nat.cast_nonneg q)
    have hpos : (0 : K) < ((p + q : ℕ) : K) := Nat.cast_pos.mpr h
    refine le_of_mul_le_mul_left ?_ hpos
    calc ((p + q : ℕ) : K) * (f.gap p + g.gap q)
        = ((p + q : ℕ) : K) * f.gap p + ((p + q : ℕ) : K) * g.gap q := mul_add _ _ _
      _ ≤ p * M + q * M := add_le_add (hf.trans hfM) (hg.trans hgM)
      _ = ((p + q : ℕ) : K) * M := by push_cast; ring

/-- What is shaped by a curve is spaced by it. -/
theorem spaced_shaped (n : ℕ) : Spaced f.gap (shaped f.gap a) n := by
  intro i k _
  rw [← le_sub_iff_add_le, shaped_le_iff]
  intro j hj
  have hlate := le_shaped (f := f.gap) (a := a) (n := i + k) (j := j) (by omega)
  have hgap := f.gap_add_gap_le f (i - j) k
  rw [max_self, ← Nat.sub_add_comm hj] at hgap
  linarith

omit [IsStrictOrderedRing K] in
/-- Nothing goes before it came. -/
theorem le_shaped_self (n : ℕ) : a n ≤ shaped f.gap a n := by
  have h := le_shaped (f := f.gap) (a := a) (le_refl n)
  rwa [Nat.sub_self, f.gap_zero, add_zero] at h

/-- **One shaper after another** is the later of the two. -/
theorem shaped_shaped (n : ℕ) :
    shaped g.gap (shaped f.gap a) n = max (shaped f.gap a n) (shaped g.gap a n) := by
  apply le_antisymm
  · rw [shaped_le_iff]
    intro j hj
    rw [← le_sub_iff_add_le, shaped_le_iff]
    intro i hi
    have hgap := f.gap_add_gap_le g (j - i) (n - j)
    rw [show j - i + (n - j) = n - i by omega] at hgap
    have hf := le_shaped (f := f.gap) (a := a) (hi.trans hj)
    have hg := le_shaped (f := g.gap) (a := a) (hi.trans hj)
    rcases le_max_iff.mp hgap with h | h
    · have := le_max_left (shaped f.gap a n) (shaped g.gap a n)
      linarith
    · have := le_max_right (shaped f.gap a n) (shaped g.gap a n)
      linarith
  · refine max_le (g.le_shaped_self n) ?_
    rw [shaped_le_iff]
    intro j hj
    have hlate := le_shaped (f := g.gap) (a := shaped f.gap a) hj
    have hself := f.le_shaped_self (a := a) j
    linarith

/-- The curve of a virtual schedule that lets an item through for nothing when it has paid for
none: each item costs `cost`, and `slack` of it may be owed. -/
def leaky (cost slack : K) (hslack : 0 ≤ slack) : Curve K where
  gap k := max 0 (k * cost - slack)
  gap_zero := by simpa using hslack
  star := by
    intro p m hpm
    have hp : (0 : K) ≤ p := Nat.cast_nonneg p
    have hm : (0 : K) ≤ m := Nat.cast_nonneg m
    have hslope : (p : K) * slack ≤ m * slack :=
      mul_le_mul_of_nonneg_right (Nat.cast_le.mpr hpm) hslack
    rw [mul_max_of_nonneg _ _ hm, mul_max_of_nonneg _ _ hp]
    refine max_le_max (by simp) ?_
    calc (m : K) * (p * cost - slack) = p * (m * cost) - m * slack := by ring
      _ ≤ p * (m * cost) - p * slack := by linarith
      _ = p * (m * cost - slack) := by ring

end Curve

omit [IsStrictOrderedRing K] in
theorem shaped_congr {f a b : ℕ → K} {n : ℕ} (h : ∀ j ≤ n, a j = b j) :
    shaped f a n = shaped f b n := by
  refine Finset.sup'_congr _ rfl fun j hj => ?_
  rw [h j (by simpa [Nat.lt_succ_iff] using hj)]

/-! ### Lists as streams -/

/-- The item `i` of a list, as a stream. -/
def stream (ts : List K) (i : ℕ) : K := ts.getD i 0

omit [IsStrictOrderedRing K] in
theorem Spaced.congr {f a b : ℕ → K} {n : ℕ} (h : Spaced f a n) (hab : ∀ i < n, b i = a i) :
    Spaced f b n := by
  intro i k hik
  rw [hab i (by omega), hab (i + k) hik]
  exact h i k hik

omit [LinearOrder K] [IsStrictOrderedRing K] in
theorem stream_eq_getElem {ts : List K} {i : ℕ} (h : i < ts.length) : stream ts i = ts[i] := by
  rw [stream, List.getD_eq_getElem?_getD, List.getElem?_eq_getElem h, Option.getD_some]

omit [LinearOrder K] [IsStrictOrderedRing K] in
theorem getElem?_eq_stream {ts : List K} {i : ℕ} (h : i < ts.length) :
    ts[i]? = some (stream ts i) := by
  rw [stream_eq_getElem h, List.getElem?_eq_getElem h]

omit [LinearOrder K] [IsStrictOrderedRing K] in
/-- Lists are the same if their streams are. -/
theorem eq_of_stream {xs ys : List K} (hlen : xs.length = ys.length)
    (h : ∀ n < xs.length, stream xs n = stream ys n) : xs = ys := by
  refine List.ext_getElem? fun n => ?_
  rcases Nat.lt_or_ge n xs.length with hn | hn
  · rw [getElem?_eq_stream hn, getElem?_eq_stream (hlen ▸ hn), h n hn]
  · rw [List.getElem?_eq_none hn, List.getElem?_eq_none (hlen ▸ hn)]

omit [IsStrictOrderedRing K] in
theorem forall₂_iff_stream {xs ys : List K} :
    List.Forall₂ (· ≤ ·) xs ys ↔
      xs.length = ys.length ∧ ∀ n < xs.length, stream xs n ≤ stream ys n := by
  rw [List.forall₂_iff_get]
  refine and_congr_right fun hlen => ⟨fun h n hn => ?_, fun h n hx hy => ?_⟩
  · rw [stream_eq_getElem hn, stream_eq_getElem (hlen ▸ hn)]
    exact h n hn (hlen ▸ hn)
  · have hle := h n hx
    rwa [stream_eq_getElem hx, stream_eq_getElem hy] at hle

omit [LinearOrder K] [IsStrictOrderedRing K] in
theorem stream_zipWith (op : K → K → K) {xs ys : List K} {n : ℕ} (hx : n < xs.length)
    (hy : n < ys.length) : stream (List.zipWith op xs ys) n = op (stream xs n) (stream ys n) := by
  have hn : n < (List.zipWith op xs ys).length := by
    rw [List.length_zipWith]
    exact lt_min hx hy
  rw [stream_eq_getElem hn, List.getElem_zipWith, stream_eq_getElem hx, stream_eq_getElem hy]

/-- The last of those that satisfy `p` is at least as far as there are such. -/
theorem exists_countP_le {α : Type*} {p : α → Bool} {xs : List α} (h : 0 < xs.countP p) :
    ∃ i x, xs[i]? = some x ∧ p x = true ∧ xs.countP p ≤ i + 1 := by
  induction xs using List.reverseRecOn with
  | nil => simp at h
  | append_singleton xs x ih =>
      rw [List.countP_append, List.countP_singleton] at h ⊢
      by_cases hx : p x = true
      · refine ⟨xs.length, x, by simp, hx, ?_⟩
        have := List.countP_le_length (p := p) (l := xs)
        simpa [hx] using this
      · simp only [hx, Bool.false_eq_true, if_false, add_zero] at h ⊢
        obtain ⟨i, y, hi, hy, hle⟩ := ih h
        exact ⟨i, y, List.getElem?_append_left (List.getElem?_eq_some_iff.mp hi).1 ▸ hi, hy, hle⟩

/-- **What spacing bounds.**  A closed interval of length `T` holds at most as many items as the
curve lets through in that time. -/
theorem countP_le_of_spaced {cost slack T : K} {hslack : 0 ≤ slack} (hcost : 0 ≤ cost)
    (hT : 0 ≤ T) (a : K) :
    ∀ rs : List K, Spaced (Curve.leaky cost slack hslack).gap (stream rs) rs.length →
      (rs.countP (fun r => decide (a ≤ r ∧ r ≤ a + T)) : K) * cost ≤ slack + cost + T
  | [], _ => by
      rw [List.countP_nil, Nat.cast_zero, zero_mul]
      linarith
  | r :: rs, h => by
      have htail : Spaced (Curve.leaky cost slack hslack).gap (stream rs) rs.length := by
        intro i k hik
        have := h (i + 1) k (by rw [List.length_cons]; omega)
        rwa [Nat.add_right_comm] at this
      rw [List.countP_cons]
      split
      · rename_i hr
        simp only [decide_eq_true_eq] at hr
        rcases Nat.eq_zero_or_pos (rs.countP fun r => decide (a ≤ r ∧ r ≤ a + T)) with h0 | hpos
        · rw [h0, zero_add, Nat.cast_one, one_mul]
          linarith
        · obtain ⟨i, x, hi, hx, hle⟩ := exists_countP_le hpos
          have hlen : i < rs.length := (List.getElem?_eq_some_iff.mp hi).1
          have hspaced := h 0 (i + 1) (by rw [List.length_cons]; omega)
          have hxi : stream (r :: rs) (0 + (i + 1)) = x := by
            rw [getElem?_eq_stream hlen] at hi
            rw [Nat.zero_add]
            exact Option.some.inj hi
          rw [hxi] at hspaced
          simp only [decide_eq_true_eq] at hx
          have hgap := le_max_right 0 (((i + 1 : ℕ) : K) * cost - slack)
          have hfirst : stream (r :: rs) 0 = r := rfl
          have hcount : ((rs.countP fun r => decide (a ≤ r ∧ r ≤ a + T) : ℕ) : K) * cost ≤
              ((i + 1 : ℕ) : K) * cost :=
            mul_le_mul_of_nonneg_right (Nat.cast_le.mpr hle) hcost
          simp only [Curve.leaky] at hspaced
          push_cast at hcount hspaced hgap ⊢
          linarith
      · rw [add_zero]
        exact countP_le_of_spaced hcost hT a rs htail

omit [IsStrictOrderedRing K] in
theorem stream_le_stream {rs : List K} (hsorted : rs.Pairwise (· ≤ ·)) {j m : ℕ} (hjm : j ≤ m)
    (hm : m < rs.length) : stream rs j ≤ stream rs m := by
  rcases Nat.eq_or_lt_of_le hjm with rfl | hlt
  · exact le_rfl
  · rw [stream_eq_getElem (hlt.trans hm), stream_eq_getElem hm]
    exact List.pairwise_iff_getElem.mp hsorted j m (hlt.trans hm) hm hlt

/-- **What a bound spaces.**  Items in order, of which every closed interval holds at most as many
as the curve lets through, are spaced by it. -/
theorem spaced_of_countP_le {cost slack : K} {hslack : 0 ≤ slack} {rs : List K}
    (hcost : 0 ≤ cost) (hsorted : rs.Pairwise (· ≤ ·))
    (h : ∀ a T : K, 0 ≤ T →
      (rs.countP (fun r => decide (a ≤ r ∧ r ≤ a + T)) : K) * cost ≤ slack + cost + T) :
    Spaced (Curve.leaky cost slack hslack).gap (stream rs) rs.length := by
  intro i k hik
  set T := stream rs (i + k) - stream rs i with hT
  have hTpos : 0 ≤ T := sub_nonneg.mpr (stream_le_stream hsorted (Nat.le_add_right i k) hik)
  -- The items from `i` to `i + k` are all in the interval between the two.
  have hcount : k + 1 ≤ rs.countP fun r => decide (stream rs i ≤ r ∧ r ≤ stream rs i + T) := by
    have hsub : ((rs.drop i).take (k + 1)).Sublist rs :=
      (List.take_sublist _ _).trans (List.drop_sublist _ _)
    have hall : ((rs.drop i).take (k + 1)).countP
        (fun r => decide (stream rs i ≤ r ∧ r ≤ stream rs i + T)) = k + 1 := by
      rw [List.countP_eq_length.mpr]
      · rw [List.length_take, List.length_drop]
        omega
      · intro r hr
        obtain ⟨j, hj⟩ := List.mem_iff_getElem?.mp hr
        rw [List.getElem?_take] at hj
        split at hj
        · rename_i hjk
          rw [List.getElem?_drop, getElem?_eq_stream (by omega)] at hj
          rw [← Option.some.inj hj, decide_eq_true_eq]
          have hup := stream_le_stream hsorted (show i + j ≤ i + k by omega) hik
          refine ⟨stream_le_stream hsorted (Nat.le_add_right i j) (by omega), ?_⟩
          linarith
        · cases hj
    rw [← hall]
    exact hsub.countP_le
  have hbound := h (stream rs i) T hTpos
  have hk : ((k + 1 : ℕ) : K) * cost ≤ slack + cost + T :=
    (mul_le_mul_of_nonneg_right (Nat.cast_le.mpr hcount) hcost).trans hbound
  push_cast at hk
  have hgap : (Curve.leaky cost slack hslack).gap k ≤ T := max_le hTpos (by linarith)
  linarith

omit [IsStrictOrderedRing K] in
/-- The first item of a stream apart. -/
theorem shaped_succ (f : ℕ → K) (t : K) (ts : List K) (n : ℕ) :
    shaped f (stream (t :: ts)) (n + 1) = max (t + f (n + 1)) (shaped f (stream ts) n) := by
  apply le_antisymm
  · rw [shaped_le_iff]
    intro j hj
    cases j with
    | zero => exact le_max_left _ _
    | succ j =>
        refine le_max_of_le_right ?_
        rw [Nat.add_sub_add_right]
        exact le_shaped (f := f) (a := stream ts) (by omega)
  · refine max_le (le_shaped (f := f) (a := stream (t :: ts)) (Nat.zero_le (n + 1))) ?_
    rw [shaped_le_iff]
    intro j hj
    have h := le_shaped (f := f) (a := stream (t :: ts)) (n := n + 1) (j := j + 1) (by omega)
    rwa [Nat.add_sub_add_right] at h

/-- **A virtual schedule is a shaper**, but for the work that is paid up to `y` at its start. -/
theorem getElem?_schedule {cost depth : K} (hslack : 0 ≤ depth - cost) :
    ∀ (ts : List K) (y : K) (n : ℕ), ts.Pairwise (· ≤ ·) → n < ts.length →
      (schedule cost depth y ts)[n]? = some (max (y + (n + 1) * cost)
        (shaped (Curve.leaky cost (depth - cost) hslack).gap (stream ts) n))
  | [], _, n, _, h => absurd h (Nat.not_lt_zero n)
  | t :: ts, y, 0, _, _ => by
      have hfirst :
          shaped (Curve.leaky cost (depth - cost) hslack).gap (stream (t :: ts)) 0 = t := by
        unfold shaped
        simp [Curve.gap_zero, stream]
      rw [schedule, List.getElem?_cons_zero, hfirst]
      congr 1
      rcases le_total y (t - depth) with h | h
      · rw [max_eq_right h, max_eq_left (by linarith), max_eq_right (by push_cast; linarith)]
      · rw [max_eq_left h, max_comm]
        push_cast
        ring_nf
  | t :: ts, y, n + 1, hsorted, h => by
      rw [List.pairwise_cons] at hsorted
      have hn : n < ts.length := by simpa using h
      rw [schedule, List.getElem?_cons_succ, getElem?_schedule hslack ts _ n hsorted.2 hn,
        shaped_succ]
      congr 1
      set S := shaped (Curve.leaky cost (depth - cost) hslack).gap (stream ts) n with hS
      -- Item `n` of the rest goes no earlier than `t`, since it comes no earlier.
      have hlate : t ≤ S := by
        have hitem : t ≤ stream ts n :=
          hsorted.1 _ (List.mem_of_getElem? (getElem?_eq_stream hn))
        exact hitem.trans ((Curve.leaky cost (depth - cost) hslack).le_shaped_self n)
      have hgap : t + (Curve.leaky cost (depth - cost) hslack).gap (n + 1) =
          max t (t - depth + (n + 2) * cost) := by
        rw [Curve.leaky, ← max_add_add_left, add_zero]
        push_cast
        ring_nf
      have hpaid : max y (t - depth) + cost + (n + 1) * cost =
          max (y + (n + 2) * cost) (t - depth + (n + 2) * cost) := by
        rw [max_add_add_right]
        ring
      rw [hgap, hpaid, max_assoc, max_assoc, max_left_comm t, max_eq_right hlate]
      push_cast
      ring_nf

/-- A schedule that starts with nothing paid for after the first item came. -/
theorem getElem?_schedule_idle {cost depth y : K} (hslack : 0 ≤ depth - cost) {ts : List K}
    (hsorted : ts.Pairwise (· ≤ ·)) (hidle : y ≤ stream ts 0 - depth) {n : ℕ}
    (hn : n < ts.length) :
    (schedule cost depth y ts)[n]? =
      some (shaped (Curve.leaky cost (depth - cost) hslack).gap (stream ts) n) := by
  rw [getElem?_schedule hslack ts y n hsorted hn, max_eq_right]
  have hfirst := le_shaped (f := (Curve.leaky cost (depth - cost) hslack).gap) (a := stream ts)
    (Nat.zero_le n)
  have hgap := le_max_right 0 ((n : K) * cost - (depth - cost))
  refine le_trans ?_ hfirst
  simp only [Curve.leaky, Nat.sub_zero]
  linarith

end Lib
end Noxy

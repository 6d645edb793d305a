/-
# What a system can get to

`Noxy.Lib.Run` is about all runs of a system.  `CanReach` says that there is one: inputs of a
certain kind that take the system to a goal.  A path is put together from shorter ones
(`CanReach.next`, `CanReach.trans`), also when several goals have to be met one after the other
and none of them is lost on the way (`CanReach.all`).  That there is none is shown by something
that the inputs keep and the goal excludes (`not_canReach`).
-/

import Noxy.Lib.Run

namespace Noxy
namespace Lib

variable {σ ι : Type*}

/-- Some inputs, all of them `move`s, take the system from `s` to the `goal`. -/
def CanReach (step : σ → ι → σ) (move : ι → Prop) (goal : σ → Prop) (s : σ) : Prop :=
  ∃ es : List ι, (∀ e ∈ es, move e) ∧ goal (run step s es)

variable {step : σ → ι → σ} {move : ι → Prop} {goal goal' : σ → Prop} {s : σ}

theorem CanReach.now (h : goal s) : CanReach step move goal s := ⟨[], by simp, h⟩

theorem CanReach.next {e : ι} (he : move e) (h : CanReach step move goal (step s e)) :
    CanReach step move goal s := by
  obtain ⟨es, hes, hgoal⟩ := h
  exact ⟨e :: es, List.forall_mem_cons.mpr ⟨he, hes⟩, hgoal⟩

theorem CanReach.trans (h : CanReach step move goal s)
    (hnext : ∀ t, goal t → CanReach step move goal' t) : CanReach step move goal' s := by
  obtain ⟨es, hes, hgoal⟩ := h
  obtain ⟨es', hes', hgoal'⟩ := hnext _ hgoal
  refine ⟨es ++ es', fun e he => (List.mem_append.mp he).elim (hes e) (hes' e), ?_⟩
  rwa [run_append]

theorem CanReach.mono (hle : ∀ t, goal t → goal' t) (h : CanReach step move goal s) :
    CanReach step move goal' s :=
  h.trans fun t ht => .now (hle t ht)

/-- **Goals that are met one after the other.** -/
theorem CanReach.all {κ : Type*} {J : σ → Prop} {done : κ → σ → Prop}
    (h : ∀ k s, J s → CanReach step move (fun t => J t ∧ done k t ∧ ∀ j, done j s → done j t) s)
    (ks : List κ) {s : σ} (hs : J s) :
    CanReach step move (fun t => J t ∧ ∀ k ∈ ks, done k t) s := by
  induction ks with
  | nil => exact .now ⟨hs, by simp⟩
  | cons k ks ih =>
      refine ih.trans fun t ht => (h k t ht.1).mono fun u hu => ⟨hu.1, fun j hj => ?_⟩
      rcases List.mem_cons.mp hj with rfl | hj
      · exact hu.2.1
      · exact hu.2.2 j (ht.2 j hj)

/-- **No way.**  What the moves keep and the goal excludes. -/
theorem not_canReach {J : σ → Prop} (hJ : ∀ s e, move e → J s → J (step s e))
    (hgoal : ∀ s, J s → ¬ goal s) (hs : J s) : ¬ CanReach step move goal s := by
  rintro ⟨es, hes, h⟩
  exact hgoal _ (run_of_kept (fun e he s => hJ s e (hes e he)) hs) h

end Lib
end Noxy

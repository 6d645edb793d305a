/-
# Moving the global rules by one

`src/config.rs`: `walk_listener_body` addresses the global match nodes by their
index.  A rule that is put in at `k` moves the nodes behind it by one index
(`shiftIdx`), and with them the scopes (`Scope.shift`) and the sites of the leaves
(`Site.shift`, `Placed.shift`).  Which scope is inside which stays as it is
(`Scope.below_shift_iff`), nothing new is confused (`Scope.Confused.of_shift`), and
the leaves of the longer rules are the moved ones with the new rule among them
(`placed_insert`).
-/

import Noxy.Config.ListenerShadowing

namespace Noxy
namespace Config

open Http

variable {C : Crates}

/-- The index of a node after a rule was put in at `k`. -/
def shiftIdx (k i : ℕ) : ℕ := if i < k then i else i + 1

theorem shiftIdx_inj {k i j : ℕ} : shiftIdx k i = shiftIdx k j ↔ i = j := by
  unfold shiftIdx
  split_ifs <;> omega

theorem shiftIdx_eq_zero {k i : ℕ} (h : shiftIdx k i = 0) : i = 0 := by
  unfold shiftIdx at h
  split_ifs at h
  · exact h

/-- The first index of an address moves. -/
def shiftAddr (k : ℕ) : List ℕ → List ℕ
  | [] => []
  | i :: addr => shiftIdx k i :: addr

theorem strictPrefix_shiftAddr_iff (k : ℕ) (s t : List ℕ) :
    StrictPrefix (shiftAddr k s) (shiftAddr k t) ↔ StrictPrefix s t := by
  rcases s with _ | ⟨i, s⟩ <;> rcases t with _ | ⟨j, t⟩
  · exact Iff.rfl
  · simp [shiftAddr, strictPrefix_nil_iff]
  · exact iff_of_false (not_strictPrefix_nil _) (not_strictPrefix_nil _)
  · simp only [shiftAddr, strictPrefix_cons_iff, shiftIdx_inj]

/-- The site of a leaf after a rule was put in at `k`. -/
def Site.shift (k : ℕ) (s : Site) : Site :=
  match s.heads with
  | [] => s
  | h :: heads => { s with heads := { h with idx := shiftIdx k h.idx } :: heads }

namespace Site

theorem scope_shift (k : ℕ) (s : Site) : (s.shift k).scope = shiftAddr k s.scope := by
  unfold shift scope
  split
  · rename_i h
    rw [h]
    rfl
  · rename_i h
    rw [h]
    rfl

theorem leaf_shift (k : ℕ) (s : Site) : (s.shift k).leaf = s.leaf := by
  unfold shift
  split <;> rfl

theorem kind_shift (k : ℕ) (s : Site) : (s.shift k).kind = s.kind :=
  congrArg Leaf.kind (s.leaf_shift k)

theorem inScope_shift (k : ℕ) (s : Site) (req : Request C.http) :
    (s.shift k).InScope C req ↔ s.InScope C req := by
  unfold shift InScope
  split
  · exact Iff.rfl
  · rename_i h
    rw [h, List.forall_mem_cons, List.forall_mem_cons]
    exact Iff.rfl

theorem shift_under {k idx : ℕ} (hk : k ≤ idx) (h : Head) (hidx : h.idx = idx) (s : Site) :
    (s.under h).shift k = s.under { h with idx := idx + 1 } := by
  have : shiftIdx k h.idx = idx + 1 := by
    rw [shiftIdx, hidx, if_neg (not_lt.mpr hk)]
  simp only [shift, under, this]

end Site

/-- Behind the new rule, all indices are one more. -/
theorem bodyLeaves_succ {k : ℕ} (nodes : List RuleNode) {idx : ℕ} (hk : k ≤ idx) (n : ℕ) :
    bodyLeaves nodes (idx + 1) n = (bodyLeaves nodes idx n).map (Site.shift k) := by
  induction nodes generalizing idx n with
  | nil => rfl
  | cons node nodes ih =>
      rw [bodyLeaves, bodyLeaves, List.map_append, ih (Nat.le_succ_of_le hk)]
      congr 1
      cases node with
      | leaf leaf => rfl
      | scope form name redis body =>
          rw [nodeLeaves, nodeLeaves, List.map_map]
          exact List.map_congr_left fun s _ =>
            (Site.shift_under hk ⟨idx, form, name.getD (toString n), redis⟩ rfl s).symm

/-- Before the new rule, all indices are the same. -/
theorem map_shift_bodyLeaves {k : ℕ} (nodes : List RuleNode) {idx : ℕ}
    (hk : idx + nodes.length ≤ k) (n : ℕ) :
    (bodyLeaves nodes idx n).map (Site.shift k) = bodyLeaves nodes idx n := by
  induction nodes generalizing idx n with
  | nil => rfl
  | cons node nodes ih =>
      rw [List.length_cons] at hk
      rw [bodyLeaves, List.map_append, ih (by omega)]
      congr 1
      cases node with
      | leaf leaf => rfl
      | scope form name redis body =>
          rw [nodeLeaves, List.map_map]
          refine List.map_congr_left fun s _ => ?_
          simp only [Function.comp, Site.shift, Site.under, shiftIdx, if_pos (by omega : idx < k)]

theorem bodyLeaves_append (pre post : List RuleNode) (idx n : ℕ) :
    bodyLeaves (pre ++ post) idx n =
      bodyLeaves pre idx n ++ bodyLeaves post (idx + pre.length) (n + unnamed pre) := by
  induction pre generalizing idx n with
  | nil => rfl
  | cons node pre ih =>
      rw [List.cons_append, bodyLeaves, bodyLeaves, ih, List.append_assoc, unnamed,
        List.length_cons, Nat.add_assoc, Nat.add_assoc, Nat.add_comm 1]

theorem unnamed_append (pre post : List RuleNode) :
    unnamed (pre ++ post) = unnamed pre + unnamed post := by
  induction pre with
  | nil => exact (Nat.zero_add _).symm
  | cons node pre ih => rw [List.cons_append, unnamed, unnamed, ih, Nat.add_assoc]

/-- A leaf after a rule was put into the global rules at `k`. -/
def Placed.shift (k : ℕ) (p : Placed) : Placed :=
  if p.inListener then p else { p with site := p.site.shift k }

/-- **The leaves after a rule was put into the global rules.** -/
theorem placed_insert (pre post body : List RuleNode) (l : Leaf) :
    ∃ before after, placed (pre ++ post) body = before ++ after ∧
      placed (pre ++ .leaf l :: post) body =
        before.map (Placed.shift pre.length) ++
          ⟨false, ⟨[], l⟩⟩ :: after.map (Placed.shift pre.length) := by
  have hunnamed : unnamed (pre ++ .leaf l :: post) = unnamed (pre ++ post) := by
    rw [unnamed_append, unnamed_append, unnamed, RuleNode.unnamed, Nat.zero_add]
  have hglobals : leaves (pre ++ .leaf l :: post) = (leaves pre).map (Site.shift pre.length) ++
      ⟨[], l⟩ :: (bodyLeaves post pre.length (unnamed pre)).map (Site.shift pre.length) := by
    rw [leaves, bodyLeaves_append, bodyLeaves, nodeLeaves, RuleNode.unnamed, Nat.zero_add,
      Nat.zero_add, Nat.add_zero, bodyLeaves_succ post le_rfl, leaves,
      map_shift_bodyLeaves pre (Nat.zero_add _).le]
    rfl
  have hold : leaves (pre ++ post) =
      leaves pre ++ bodyLeaves post pre.length (unnamed pre) := by
    rw [leaves, bodyLeaves_append, Nat.zero_add, Nat.zero_add, leaves]
  refine ⟨(leaves pre).map (Placed.mk false),
    (bodyLeaves post pre.length (unnamed pre)).map (Placed.mk false) ++
      (bodyLeaves body 0 (unnamed (pre ++ post))).map (Placed.mk true), ?_, ?_⟩
  · rw [placed, hold, List.map_append, List.append_assoc]
  · rw [placed, hglobals, hunnamed]
    simp [Placed.shift, Function.comp_def]

namespace Scope

/-- The scope after a rule was put into the global rules at `k`. -/
def shift (k : ℕ) : Scope → Scope
  | .global addr => .global (shiftAddr k addr)
  | .listener addr => .listener addr

theorem below_shift_iff (k : ℕ) (s t : Scope) :
    (s.shift k).Below (t.shift k) ↔ s.Below t := by
  rcases s with s | s <;> rcases t with t | t
  · exact strictPrefix_shiftAddr_iff k s t
  · show shiftAddr k s = [] ↔ s = []
    cases s <;> simp [shiftAddr]
  · exact Iff.rfl
  · exact Iff.rfl

theorem Confused.of_shift {k : ℕ} {s t : Scope} (h : (s.shift k).Confused (t.shift k)) :
    s.Confused t := by
  -- An index that moves to zero was zero.
  have hzero : ∀ i addr u, Confused (.global (shiftIdx k i :: addr)) u →
      Confused (.global (i :: addr)) u := fun i addr u h => by
    rcases hi : shiftIdx k i with _ | j <;> rw [hi] at h
    · rwa [shiftIdx_eq_zero hi]
    · cases u <;> exact h.elim
  have hzero' : ∀ i addr u, Confused u (.global (shiftIdx k i :: addr)) →
      Confused u (.global (i :: addr)) := fun i addr u h => by
    rcases hi : shiftIdx k i with _ | j <;> rw [hi] at h
    · rwa [shiftIdx_eq_zero hi]
    · rcases u with (_ | ⟨_ | _, _⟩) | _ <;> exact h.elim
  rcases s with (_ | ⟨i, s⟩) | s <;> rcases t with (_ | ⟨j, t⟩) | t
  · exact h
  · exact h
  · exact h
  · exact hzero i s _ h
  · exact hzero i s _ (hzero' j t _ h)
  · exact hzero i s _ h
  · exact h
  · exact hzero' j t _ h
  · exact h

end Scope

namespace Placed

theorem scope_shift (k : ℕ) (p : Placed) : (p.shift k).scope = p.scope.shift k := by
  rcases p with ⟨_ | _, p⟩
  · exact congrArg Scope.global (p.scope_shift k)
  · rfl

theorem kind_shift (k : ℕ) (p : Placed) : (p.shift k).site.kind = p.site.kind := by
  unfold shift
  split
  · rfl
  · exact p.site.kind_shift k

theorem leaf_shift (k : ℕ) (p : Placed) : (p.shift k).site.leaf = p.site.leaf := by
  unfold shift
  split
  · rfl
  · exact p.site.leaf_shift k

theorem inScope_shift (k : ℕ) (p : Placed) (req : Request C.http) :
    (p.shift k).site.InScope C req ↔ p.site.InScope C req := by
  unfold shift
  split
  · exact Iff.rfl
  · exact p.site.inScope_shift k req

end Placed

end Config
end Noxy

/-
# The leaves of a rule tree and the scopes they stand in

What the configuration walk is about, said of the tree itself.

A scope of a rule body is the body or the body of a match node in it, at any
depth, and is named by the indices of the match nodes on the way down
(`bodyAt`).  One scope is directly inside another if it belongs to a match node
of its body (`ScopeChild`), and properly inside it if there is a chain of those
(`Descendant`).  In a tree that is the same as the one address being a strict
prefix of the other (`descendant_iff`).

`bodyLeaves` lists the leaves in pre-order, each with the match nodes around it:
its `Site`.  A match node carries its label, which is its name, or, when it has
none, the number of unnamed match nodes that come before it in pre-order
(`unnamed` counts those in a body).
-/

import Noxy.Config.Walk
import Mathlib.Logic.Relation

namespace Noxy
namespace Config

/-- One list is a strict prefix of another. -/
def StrictPrefix (s t : List ℕ) : Prop := s <+: t ∧ s.length < t.length

instance (s t : List ℕ) : Decidable (StrictPrefix s t) :=
  inferInstanceAs (Decidable (s <+: t ∧ s.length < t.length))

theorem strictPrefix_cons_iff {i j : ℕ} {s t : List ℕ} :
    StrictPrefix (i :: s) (j :: t) ↔ i = j ∧ StrictPrefix s t := by
  simp only [StrictPrefix, List.cons_prefix_cons, List.length_cons, Nat.add_lt_add_iff_right]
  exact and_assoc

theorem strictPrefix_append_left_iff (base s t : List ℕ) :
    StrictPrefix (base ++ s) (base ++ t) ↔ StrictPrefix s t := by
  simp only [StrictPrefix, List.prefix_append_right_inj, List.length_append,
    Nat.add_lt_add_iff_left]

theorem strictPrefix_nil_iff {t : List ℕ} : StrictPrefix [] t ↔ t ≠ [] := by
  simp [StrictPrefix, List.length_pos_iff]

theorem not_strictPrefix_nil (s : List ℕ) : ¬ StrictPrefix s [] := fun h =>
  Nat.not_lt_zero _ h.2

theorem StrictPrefix.trans {s t u : List ℕ} (h : StrictPrefix s t) (h' : StrictPrefix t u) :
    StrictPrefix s u :=
  ⟨h.1.trans h'.1, h.2.trans h'.2⟩

/-- The body of the scope at an address. -/
def bodyAt : List RuleNode → List ℕ → Option (List RuleNode)
  | body, [] => some body
  | body, i :: addr =>
      match body[i]? with
      | some (.scope _ _ _ inner) => bodyAt inner addr
      | _ => none

/-- There is a scope at the address. -/
def IsScope (body : List RuleNode) (addr : List ℕ) : Prop := (bodyAt body addr).isSome

/-- The scope at `t` belongs to a match node directly in the scope at `s`. -/
def ScopeChild (body : List RuleNode) (s t : List ℕ) : Prop :=
  IsScope body t ∧ ∃ i, t = s ++ [i]

/-- The scope at `t` is properly inside the scope at `s`. -/
def Descendant (body : List RuleNode) : List ℕ → List ℕ → Prop :=
  Relation.TransGen (ScopeChild body)

/-- The scopes around a scope are scopes. -/
theorem IsScope.of_append {body : List RuleNode} {s t : List ℕ} (h : IsScope body (s ++ t)) :
    IsScope body s := by
  induction s generalizing body with
  | nil => rfl
  | cons i s ih =>
      unfold IsScope at h ⊢
      rw [List.cons_append, bodyAt] at h
      rw [bodyAt]
      split at h
      · exact ih h
      · cases h

/-- What is inside a scope has a strictly longer address. -/
theorem Descendant.strictPrefix {body : List RuleNode} {s t : List ℕ}
    (h : Descendant body s t) : StrictPrefix s t := by
  induction h with
  | single h =>
      obtain ⟨_, i, rfl⟩ := h
      exact ⟨List.prefix_append _ _, by simp⟩
  | tail _ h ih =>
      obtain ⟨_, i, rfl⟩ := h
      exact ih.trans ⟨List.prefix_append _ _, by simp⟩

/-- **Inside means strictly longer address.** -/
theorem descendant_iff {body : List RuleNode} {s t : List ℕ} (ht : IsScope body t) :
    Descendant body s t ↔ StrictPrefix s t := by
  refine ⟨Descendant.strictPrefix, ?_⟩
  rintro ⟨⟨r, rfl⟩, hlen⟩
  induction r using List.reverseRecOn with
  | nil => simp at hlen
  | append_singleton r i ih =>
      have hchild : ScopeChild body (s ++ r) (s ++ (r ++ [i])) :=
        ⟨ht, i, (List.append_assoc ..).symm⟩
      by_cases hr : r = []
      · subst hr
        rw [List.append_nil] at hchild
        exact .single hchild
      · have hs : IsScope body (s ++ r) := by
          rw [← List.append_assoc] at ht
          exact ht.of_append
        refine (ih hs ?_).tail hchild
        rw [List.length_append]
        exact Nat.lt_add_of_pos_right (List.length_pos_iff.mpr hr)

/-- A match node around a leaf: its index in its body, what it tests, its label and
its `redis`. -/
structure Head where
  idx : ℕ
  form : MatchForm
  label : String
  redis : Option RedisConfig
  deriving DecidableEq, Repr

/-- A leaf and the match nodes around it, the outermost first. -/
structure Site where
  heads : List Head
  leaf : Leaf
  deriving DecidableEq, Repr

namespace Site

/-- The site with one more match node around it. -/
def under (h : Head) (s : Site) : Site := { s with heads := h :: s.heads }

/-- The address of the scope a leaf stands in. -/
def scope (s : Site) : List ℕ := s.heads.map Head.idx

/-- The kind of the leaf. -/
def kind (s : Site) : Kind := s.leaf.kind

@[simp] theorem scope_under (h : Head) (s : Site) : (s.under h).scope = h.idx :: s.scope := rfl

end Site

mutual

/-- How many match nodes without a name there are, the node itself included. -/
def RuleNode.unnamed : RuleNode → ℕ
  | .scope _ name _ body => (if name.isNone then 1 else 0) + unnamed body
  | .leaf _ => 0

/-- How many match nodes without a name a body has. -/
def unnamed : List RuleNode → ℕ
  | [] => 0
  | node :: nodes => node.unnamed + unnamed nodes

end

mutual

/-- The leaves of the node at the index `idx`, with `n` unnamed match nodes before
it. -/
def nodeLeaves : RuleNode → ℕ → ℕ → List Site
  | .scope form name redis body, idx, n =>
      (bodyLeaves body 0 (n + if name.isNone then 1 else 0)).map
        (Site.under ⟨idx, form, name.getD (toString n), redis⟩)
  | .leaf leaf, _, _ => [⟨[], leaf⟩]

/-- The leaves of a body, from the index `idx` on, in pre-order. -/
def bodyLeaves : List RuleNode → ℕ → ℕ → List Site
  | [], _, _ => []
  | node :: nodes, idx, n => nodeLeaves node idx n ++ bodyLeaves nodes (idx + 1) (n + node.unnamed)

end

/-- The leaves of a rule body, in pre-order. -/
def leaves (body : List RuleNode) : List Site := bodyLeaves body 0 0

mutual

/-- The scope of a leaf of a node is one of the body the node stands in. -/
theorem isScope_of_mem_nodeLeaves {body : List RuleNode} :
    ∀ (node : RuleNode) (idx n : ℕ), body[idx]? = some node →
      ∀ s ∈ nodeLeaves node idx n, IsScope body s.scope
  | .leaf leaf, idx, n, _, s, hs => by
      rw [nodeLeaves, List.mem_singleton] at hs
      subst hs
      rfl
  | .scope form name redis inner, idx, n, hnode, s, hs => by
      rw [nodeLeaves, List.mem_map] at hs
      obtain ⟨s, hs, rfl⟩ := hs
      have hinner : IsScope inner s.scope := isScope_of_mem_bodyLeaves [] inner 0 _ rfl s hs
      rw [IsScope, Site.scope_under, bodyAt, hnode]
      exact hinner

/-- The scope of a leaf is one of the body. -/
theorem isScope_of_mem_bodyLeaves :
    ∀ (before body : List RuleNode) (idx n : ℕ), before.length = idx →
      ∀ s ∈ bodyLeaves body idx n, IsScope (before ++ body) s.scope
  | _, [], _, _, _, s, hs => by
      rw [bodyLeaves] at hs
      exact absurd hs List.not_mem_nil
  | before, node :: nodes, idx, n, hidx, s, hs => by
      rw [bodyLeaves, List.mem_append] at hs
      rcases hs with hs | hs
      · refine isScope_of_mem_nodeLeaves node idx n ?_ s hs
        rw [List.getElem?_append_right (by omega), hidx, Nat.sub_self, List.getElem?_cons_zero]
      · have := isScope_of_mem_bodyLeaves (before ++ [node]) nodes (idx + 1) _
          (by simp [hidx]) s hs
        rwa [List.append_assoc, List.singleton_append] at this

end

/-- **Inside, for the scopes of leaves.** -/
theorem descendant_iff_of_mem {body : List RuleNode} {n : ℕ} {t : Site}
    (ht : t ∈ bodyLeaves body 0 n) (s : List ℕ) :
    Descendant body s t.scope ↔ StrictPrefix s t.scope :=
  descendant_iff (isScope_of_mem_bodyLeaves [] body 0 n rfl t ht)

end Config
end Noxy

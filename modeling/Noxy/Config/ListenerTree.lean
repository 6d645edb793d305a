/-
# The scopes of a listener

`src/config.rs`: `walk_listener_body` compiles the global rules and a listener's
rules together.  The tree of scopes is meant to have the global scope at its
root, with the scopes of the global match nodes and the listener's own scope
below it, and the scopes of the listener's match nodes below that (`ScopeStep`,
and `Inside` for any number of steps down).  `inside_iff` says what that is for
addresses: `Scope.Below`.

The walk numbers both bodies in one space of paths: a scope of the global rules
has its address as its path, and a scope of the listener's rules has its address
with a `0` in front (`Scope.path`).  `walkListenerBody_spec` says what
`walk_listener_body` makes of the two trees: the declarations of the leaves, the
global ones first, with these paths.
-/

import Noxy.Config.Shadowing

namespace Noxy
namespace Config

open Http

variable {C : Crates}

/-- A scope of the global rules or of the listener's. -/
inductive Scope where
  | global (addr : List ℕ)
  | listener (addr : List ℕ)
  deriving DecidableEq, Repr

/-- One step down the tree of scopes. -/
inductive ScopeStep (globals body : List RuleNode) : Scope → Scope → Prop where
  | global {s t : List ℕ} : ScopeChild globals s t → ScopeStep globals body (.global s) (.global t)
  | listener : ScopeStep globals body (.global []) (.listener [])
  | inner {s t : List ℕ} : ScopeChild body s t → ScopeStep globals body (.listener s) (.listener t)

/-- The second scope is properly inside the first. -/
def Inside (globals body : List RuleNode) : Scope → Scope → Prop :=
  Relation.TransGen (ScopeStep globals body)

namespace Scope

/-- The path that the walk gives a scope. -/
def path : Scope → List ℕ
  | .global addr => addr
  | .listener addr => 0 :: addr

/-- Properly inside, by addresses. -/
def Below : Scope → Scope → Prop
  | .global s, .global t => StrictPrefix s t
  | .global s, .listener _ => s = []
  | .listener s, .listener t => StrictPrefix s t
  | .listener _, .global _ => False

/-- The scope is one of the tree. -/
def Valid (globals body : List RuleNode) : Scope → Prop
  | .global addr => IsScope globals addr
  | .listener addr => IsScope body addr

theorem Below.trans {s t u : Scope} (h : s.Below t) (h' : t.Below u) : s.Below u := by
  rcases s with s | s <;> rcases t with t | t <;> rcases u with u | u
  · exact StrictPrefix.trans h h'
  · obtain rfl : t = [] := h'
    exact absurd h (not_strictPrefix_nil s)
  · exact h'.elim
  · exact h
  · exact h.elim
  · exact h.elim
  · exact h'.elim
  · exact StrictPrefix.trans h h'

end Scope

theorem ScopeStep.below {globals body : List RuleNode} {s t : Scope}
    (h : ScopeStep globals body s t) : s.Below t := by
  cases h with
  | global h => exact Descendant.strictPrefix (.single h)
  | listener => rfl
  | inner h => exact Descendant.strictPrefix (.single h)

/-- **Inside, by addresses.** -/
theorem inside_iff {globals body : List RuleNode} {s t : Scope} (ht : t.Valid globals body) :
    Inside globals body s t ↔ s.Below t := by
  constructor
  · intro h
    clear ht
    induction h with
    | single h => exact h.below
    | tail _ h ih => exact ih.trans h.below
  · intro h
    have hlift : ∀ {u v : List ℕ}, Descendant body u v →
        Inside globals body (.listener u) (.listener v) := fun huv =>
      Relation.TransGen.lift Scope.listener (fun _ _ => ScopeStep.inner) _ _ huv
    rcases s with s | s <;> rcases t with t | t
    · exact Relation.TransGen.lift Scope.global (fun _ _ => ScopeStep.global) _ _
        ((descendant_iff ht).mpr h)
    · obtain rfl : s = [] := h
      by_cases hnil : t = []
      · subst hnil
        exact .single .listener
      · exact .head .listener (hlift ((descendant_iff ht).mpr (strictPrefix_nil_iff.mpr hnil)))
    · exact h.elim
    · exact hlift ((descendant_iff ht).mpr h)

/-- A leaf, and whether it is one of the listener's. -/
structure Placed where
  inListener : Bool
  site : Site
  deriving DecidableEq, Repr

namespace Placed

/-- The scope a leaf stands in. -/
def scope (p : Placed) : Scope :=
  if p.inListener then .listener p.site.scope else .global p.site.scope

/-- The declaration that the walk makes of a leaf. -/
def decl (C : Crates) (redis : Option RedisConnection) (p : Placed) : Decl C :=
  { path := p.scope.path
    scopePred := andPredicates C (p.site.preds C)
    excludedPreds := []
    leaf := p.site.leaf
    redis := (redis.toList ++ p.site.conns).getLast?
    scopeLabel := ".".intercalate p.site.labels }

end Placed

/-- The leaves of the global rules and of the listener's, in the order of the
walk. -/
def placed (globals body : List RuleNode) : List Placed :=
  (leaves globals).map (Placed.mk false) ++
    (bodyLeaves body 0 (unnamed globals)).map (Placed.mk true)

theorem valid_of_mem_placed {globals body : List RuleNode} {p : Placed}
    (hp : p ∈ placed globals body) : p.scope.Valid globals body := by
  rcases List.mem_append.mp hp with hp | hp
  · obtain ⟨s, hs, rfl⟩ := List.mem_map.mp hp
    exact isScope_of_mem_bodyLeaves [] globals 0 0 rfl s hs
  · obtain ⟨s, hs, rfl⟩ := List.mem_map.mp hp
    exact isScope_of_mem_bodyLeaves [] body 0 (unnamed globals) rfl s hs

/-- **What `walk_listener_body` does.** -/
theorem walkListenerBody_spec {globals body : List RuleNode} {redis : Option RedisConnection}
    {cache cache' : RedisCache} {decls : List (Decl C)}
    (h : walkListenerBody globals body redis cache = .ok (decls, cache')) :
    decls = resolveExclusions ((placed globals body).map (Placed.decl C redis)) := by
  unfold walkListenerBody at h
  split at h
  · cases h
  · rename_i ctx raw hglobals
    obtain ⟨hsame, hcount, rfl⟩ := walkBody_spec globals 0 _ _ hglobals
    split at h
    · cases h
    · rename_i ctx' raw' hbody
      obtain ⟨_, _, rfl⟩ := walkBody_spec body 0 _ _ hbody
      cases h
      have hstart : (WalkCtx.start redis cache : WalkCtx C).scopeCounter = 0 := rfl
      rw [hstart, Nat.zero_add] at hcount
      rw [placed, List.map_append, List.map_map, List.map_map, List.nil_append]
      congr 2
      change List.map _ (bodyLeaves body 0 ctx.scopeCounter) = _
      rw [hcount]
      refine List.map_congr_left fun s _ => ?_
      simp only [WalkCtx.declOf, hsame.preds, hsame.path, hsame.scopeStack, hsame.redisStack]
      rfl

end Config
end Noxy

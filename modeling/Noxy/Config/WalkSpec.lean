/-
# The walk is faithful to the tree

`src/config.rs`: whenever `walk_body` succeeds, it has added one declaration per
leaf of the body, in pre-order, with the predicates, the index path, the labels
and the Redis connection of the match nodes around the leaf (`WalkCtx.declOf`),
and it has left its stacks as it found them (`walkBody_spec`).  The counter has
grown by the number of unnamed match nodes.

The induction is over the tree, with one case for each constructor of `RuleNode`
and of the body's list.  `walkMatch_ok` says what `walk_match` does around the walk of its
body, and `declOf_under` that a leaf's declaration does not depend on how many of the match
nodes around it are already in the context.
-/

import Noxy.Config.Tree

namespace Noxy
namespace Config

open Http

variable {C : Crates}

/-- The predicate of a match node, if it tests anything. -/
def Head.pred (C : Crates) (h : Head) : Option (Predicate C) :=
  (h.form.spec.intoPredicate C).toOption.join

/-- The predicate of the match node compiles. -/
def Head.Compiles (C : Crates) (h : Head) : Prop :=
  h.form.spec.intoPredicate C = .ok (h.pred C)

/-- The connection of a match node, if it has one. -/
def Head.conn (h : Head) : Option RedisConnection := h.redis.map RedisConfig.conn

namespace Site

/-- The predicates of the match nodes around a leaf. -/
def preds (C : Crates) (s : Site) : List (Predicate C) :=
  s.heads.flatMap fun h => (h.pred C).toList

/-- The connections of the match nodes around a leaf. -/
def conns (s : Site) : List RedisConnection := s.heads.flatMap fun h => h.conn.toList

/-- The labels of the match nodes around a leaf. -/
def labels (s : Site) : List String := s.heads.map Head.label

end Site

namespace WalkCtx

/-- The declaration of a leaf, with the match nodes of its site inside the
context. -/
def declOf (ctx : WalkCtx C) (s : Site) : Decl C :=
  { path := ctx.path ++ s.scope
    scopePred := andPredicates C (ctx.preds ++ s.preds C)
    excludedPreds := []
    leaf := s.leaf
    redis := (ctx.redisStack ++ s.conns).getLast?
    scopeLabel := ".".intercalate (ctx.scopeStack ++ s.labels) }

/-- The stacks of two contexts are the same. -/
structure SameStacks (ctx ctx' : WalkCtx C) : Prop where
  preds : ctx'.preds = ctx.preds
  path : ctx'.path = ctx.path
  scopeStack : ctx'.scopeStack = ctx.scopeStack
  redisStack : ctx'.redisStack = ctx.redisStack

theorem SameStacks.declOf_eq {ctx ctx' : WalkCtx C} (h : SameStacks ctx ctx') :
    ctx'.declOf = ctx.declOf := by
  funext s
  simp only [declOf, h.preds, h.path, h.scopeStack, h.redisStack]

theorem SameStacks.trans {ctx ctx' ctx'' : WalkCtx C} (h : SameStacks ctx ctx')
    (h' : SameStacks ctx' ctx'') : SameStacks ctx ctx'' where
  preds := h'.preds.trans h.preds
  path := h'.path.trans h.path
  scopeStack := h'.scopeStack.trans h.scopeStack
  redisStack := h'.redisStack.trans h.redisStack

/-- The context is inside one more match node. -/
structure Entered (h : Head) (ctx ctx' : WalkCtx C) : Prop where
  preds : ctx'.preds = ctx.preds ++ (h.pred C).toList
  path : ctx'.path = ctx.path ++ [h.idx]
  scopeStack : ctx'.scopeStack = ctx.scopeStack ++ [h.label]
  redisStack : ctx'.redisStack = ctx.redisStack ++ h.conn.toList

/-- **A leaf's declaration is the same from inside a match node around it.** -/
theorem Entered.declOf_under {h : Head} {ctx ctx' : WalkCtx C} (he : Entered h ctx ctx')
    (s : Site) : ctx'.declOf s = ctx.declOf (s.under h) := by
  simp only [declOf, he.preds, he.path, he.scopeStack, he.redisStack, Site.scope,
    Site.preds, Site.conns, Site.labels, Site.under, List.flatMap_cons, List.map_cons,
    List.append_assoc, List.singleton_append]

end WalkCtx

/-- What is taken off a stack when something was put on it. -/
theorem dropLast_append_toList {α : Type*} (xs : List α) (o : Option α) :
    (if o.isSome then (xs ++ o.toList).dropLast else xs ++ o.toList) = xs := by
  cases o <;> simp

/-- **What `walk_match` pushes**, before the index: the parts of the match node. -/
theorem enter_spec {form : MatchForm} {name : Option String} {redis : Option RedisConfig}
    {ctx ctx' : WalkCtx C} {pushed : Bool}
    (h : enter form.spec name redis ctx = .ok (ctx', pushed)) (idx : ℕ) :
    let head : Head := ⟨idx, form, name.getD (toString ctx.scopeCounter), redis⟩
    WalkCtx.Entered head ctx { ctx' with path := ctx'.path ++ [idx] } ∧ head.Compiles C ∧
      pushed = (head.pred C).isSome ∧
      ctx'.scopeCounter = ctx.scopeCounter + (if name.isNone then 1 else 0) := by
  intro head
  unfold enter at h
  cases hp : form.spec.intoPredicate C with
  | error e =>
      rw [hp] at h
      cases h
  | ok pred =>
      have hpred : head.pred C = pred := by
        rw [Head.pred, hp]
        rfl
      have hcompiles : head.Compiles C := by rw [Head.Compiles, hpred, hp]
      rw [hp] at h
      dsimp only at h
      cases redis with
      | none =>
          cases h
          cases name <;> exact ⟨⟨by rw [hpred]; rfl, rfl, rfl, (List.append_nil _).symm⟩,
            hcompiles, by rw [hpred], rfl⟩
      | some cfg =>
          dsimp only at h
          split at h
          · cases h
          · rename_i conn cache hopen
            cases h
            have hconn := openRedis_conn hopen
            subst hconn
            cases name <;> exact ⟨⟨by rw [hpred]; rfl, rfl, rfl, rfl⟩, hcompiles,
              by rw [hpred], rfl⟩

/-- **What `walk_match` pops** is what it pushed. -/
theorem leave_spec {h : Head} {ctx inner ctx' : WalkCtx C} (he : WalkCtx.Entered h ctx inner)
    (hs : WalkCtx.SameStacks inner ctx') :
    WalkCtx.SameStacks ctx (leave (h.pred C).isSome h.redis.isSome ctx') where
  preds := by
    rw [leave, hs.preds, he.preds]
    exact dropLast_append_toList _ _
  path := by rw [leave, hs.path, he.path, List.dropLast_concat]
  scopeStack := by rw [leave, hs.scopeStack, he.scopeStack, List.dropLast_concat]
  redisStack := by
    have hsome : h.redis.isSome = h.conn.isSome := by rw [Head.conn, Option.isSome_map]
    rw [leave, hs.redisStack, he.redisStack, hsome]
    exact dropLast_append_toList _ _

/-- **A `walk_match` that succeeds** has entered its node, walked the body and left. -/
theorem walkMatch_ok {form : MatchForm} {name : Option String} {redis : Option RedisConfig}
    {walk : WalkCtx C → List (Decl C) → WalkResult C} {idx : ℕ} {ctx ctx' : WalkCtx C}
    {out out' : List (Decl C)}
    (h : walkMatch form.spec name redis walk idx ctx out = .ok (ctx', out')) :
    let head : Head := ⟨idx, form, name.getD (toString ctx.scopeCounter), redis⟩
    ∃ inner after, WalkCtx.Entered head ctx inner ∧ head.Compiles C ∧
      inner.scopeCounter = ctx.scopeCounter + (if name.isNone then 1 else 0) ∧
      walk inner out = .ok (after, out') ∧
      ctx' = leave (head.pred C).isSome redis.isSome after := by
  unfold walkMatch at h
  split at h
  · cases h
  · rename_i entered pushed henter
    obtain ⟨hentered, hcompiles, rfl, hcounter⟩ := enter_spec henter idx
    split at h
    · cases h
    · rename_i after outAfter hbody
      cases h
      exact ⟨_, after, hentered, hcompiles, hcounter, hbody, rfl⟩

mutual

/-- What `walk_node` does. -/
theorem walkNode_spec :
    ∀ (node : RuleNode) (idx : ℕ) (ctx : WalkCtx C) (out : List (Decl C)) {ctx' : WalkCtx C}
      {out' : List (Decl C)}, walkNode node idx ctx out = .ok (ctx', out') →
      WalkCtx.SameStacks ctx ctx' ∧ ctx'.scopeCounter = ctx.scopeCounter + node.unnamed ∧
        out' = out ++ (nodeLeaves node idx ctx.scopeCounter).map ctx.declOf
  | .leaf leaf, idx, ctx, out, ctx', out', h => by
      rw [walkNode] at h
      cases h
      refine ⟨⟨rfl, rfl, rfl, rfl⟩, rfl, ?_⟩
      simp [nodeLeaves, WalkCtx.decl, WalkCtx.declOf, WalkCtx.currentScope, Site.scope, Site.preds,
        Site.conns, Site.labels]
  | .scope form name redis body, idx, ctx, out, ctx', out', h => by
      rw [walkNode] at h
      obtain ⟨inner, after, hentered, _, hcounter, hbody, rfl⟩ := walkMatch_ok h
      obtain ⟨hsame, hcount, hout⟩ := walkBody_spec body 0 _ _ hbody
      refine ⟨leave_spec hentered hsame, ?_, ?_⟩
      · rw [RuleNode.unnamed]
        change after.scopeCounter = _
        rw [hcount, hcounter, Nat.add_assoc]
      · rw [hout, nodeLeaves, List.map_map, hcounter]
        congr 1
        exact List.map_congr_left fun s _ => hentered.declOf_under s

/-- **What `walk_body` does.** -/
theorem walkBody_spec :
    ∀ (body : List RuleNode) (idx : ℕ) (ctx : WalkCtx C) (out : List (Decl C))
      {ctx' : WalkCtx C} {out' : List (Decl C)}, walkBody body idx ctx out = .ok (ctx', out') →
      WalkCtx.SameStacks ctx ctx' ∧ ctx'.scopeCounter = ctx.scopeCounter + unnamed body ∧
        out' = out ++ (bodyLeaves body idx ctx.scopeCounter).map ctx.declOf
  | [], idx, ctx, out, ctx', out', h => by
      rw [walkBody] at h
      cases h
      exact ⟨⟨rfl, rfl, rfl, rfl⟩, rfl, by simp [bodyLeaves]⟩
  | node :: nodes, idx, ctx, out, ctx', out', h => by
      rw [walkBody] at h
      split at h
      · cases h
      · rename_i mid outMid hnode
        obtain ⟨hsame, hcount, rfl⟩ := walkNode_spec node idx ctx out hnode
        obtain ⟨hsame', hcount', rfl⟩ := walkBody_spec nodes (idx + 1) mid _ h
        refine ⟨hsame.trans hsame', ?_, ?_⟩
        · rw [hcount', hcount, unnamed, Nat.add_assoc]
        · rw [hcount, hsame.declOf_eq, bodyLeaves, List.map_append, List.append_assoc]

end

mutual

/-- The match nodes around the leaves of a node that was walked compile. -/
theorem compiles_of_walkNode :
    ∀ (node : RuleNode) (idx : ℕ) (ctx : WalkCtx C) (out : List (Decl C)) {ctx' : WalkCtx C}
      {out' : List (Decl C)}, walkNode node idx ctx out = .ok (ctx', out') →
      ∀ s ∈ nodeLeaves node idx ctx.scopeCounter, ∀ h ∈ s.heads, h.Compiles C
  | .leaf leaf, idx, ctx, out, ctx', out', _ => by
      intro s hs
      rw [nodeLeaves, List.mem_singleton] at hs
      subst hs
      exact fun h hh => absurd hh List.not_mem_nil
  | .scope form name redis body, idx, ctx, out, ctx', out', h => by
      rw [walkNode] at h
      obtain ⟨inner, after, _, hcompiles, hcounter, hbody, _⟩ := walkMatch_ok h
      intro s hs
      rw [nodeLeaves, List.mem_map] at hs
      obtain ⟨s, hs, rfl⟩ := hs
      rw [← hcounter] at hs
      have hinner := compiles_of_walkBody body 0 _ _ hbody s hs
      exact List.forall_mem_cons.mpr ⟨hcompiles, hinner⟩

/-- The match nodes around the leaves of a body that was walked compile. -/
theorem compiles_of_walkBody :
    ∀ (body : List RuleNode) (idx : ℕ) (ctx : WalkCtx C) (out : List (Decl C))
      {ctx' : WalkCtx C} {out' : List (Decl C)}, walkBody body idx ctx out = .ok (ctx', out') →
      ∀ s ∈ bodyLeaves body idx ctx.scopeCounter, ∀ h ∈ s.heads, h.Compiles C
  | [], idx, ctx, out, ctx', out', _ => by
      intro s hs
      rw [bodyLeaves] at hs
      exact absurd hs List.not_mem_nil
  | node :: nodes, idx, ctx, out, ctx', out', h => by
      rw [walkBody] at h
      split at h
      · cases h
      · rename_i mid outMid hnode
        intro s hs
        rw [bodyLeaves, List.mem_append] at hs
        rcases hs with hs | hs
        · exact compiles_of_walkNode node idx ctx out hnode s hs
        · obtain ⟨_, hcount, _⟩ := walkNode_spec node idx ctx out hnode
          rw [← hcount] at hs
          exact compiles_of_walkBody nodes (idx + 1) mid _ h s hs

end

end Config
end Noxy

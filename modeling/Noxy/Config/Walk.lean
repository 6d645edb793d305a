/-
# The configuration walk

`src/config.rs`: `WalkCtx`, `walk_body`, `walk_node`, `walk_match`,
`resolve_exclusions`, `effective_predicate` and `walk_listener_body`.

The walk goes down the rule tree with four stacks, of the predicates, the
indices, the labels and the Redis connections around it, and collects a `Decl`
for every leaf.  Entering a match node pushes, leaving it pops; the number that
labels the next unnamed match node, and the cache of connections, are kept.  An
error leaves the whole walk at once.

`resolve_exclusions` then gives each declaration of an exclusive kind the
predicates of the same-kind declarations whose index path strictly extends its
own, and `effective_predicate` subtracts them.  It reads what it does not write,
so its loop is one pass over the declarations.  In `walk_listener_body` the
global rules are walked at the empty path and the listener's at the path `[0]`.
-/

import Noxy.Config.Match
import Noxy.Lib.HashMap

namespace Noxy
namespace Config

open Http Lib

/-- `RedisConnection`: what it was opened with. -/
structure RedisConnection where
  url : String
  keyPrefix : String
  deriving DecidableEq, Repr

/-- The connection that a `RedisConfig` names. -/
def RedisConfig.conn (cfg : RedisConfig) : RedisConnection :=
  ⟨cfg.url, cfg.keyPrefix.getD "noxy:"⟩

/-- `RedisCache`: a connection is stored under what it was opened with. -/
structure RedisCache where
  entries : HashMap (String × String) RedisConnection
  sound : ∀ key conn, entries.lookup key = some conn → conn = ⟨key.1, key.2⟩

/-- The empty cache. -/
def RedisCache.empty : RedisCache := ⟨∅, fun _ _ h => nomatch h⟩

/-- Store a new connection. -/
def RedisCache.insert (cache : RedisCache) (url keyPrefix : String) : RedisCache where
  entries := cache.entries.insert (url, keyPrefix) ⟨url, keyPrefix⟩
  sound key conn h := by
    by_cases hk : key = (url, keyPrefix)
    · subst hk
      rw [AList.lookup_insert] at h
      exact (Option.some.inj h).symm
    · rw [AList.lookup_insert_ne hk] at h
      exact cache.sound key conn h

/-- `open_redis`, which `listener_initial_redis` repeats. -/
def openRedis (C : Crates) (cfg : RedisConfig) (cache : RedisCache) :
    Except String (RedisConnection × RedisCache) :=
  let keyPrefix := cfg.keyPrefix.getD "noxy:"
  match cache.entries.lookup (cfg.url, keyPrefix) with
  | some conn => .ok (conn, cache)
  | none =>
      match C.redisOpen cfg.url with
      | .error e => .error e
      | .ok () => .ok (⟨cfg.url, keyPrefix⟩, cache.insert cfg.url keyPrefix)

/-- **A configuration opens the connection it names**, from the cache or not. -/
theorem openRedis_conn {C : Crates} {cfg : RedisConfig} {cache cache' : RedisCache}
    {conn : RedisConnection} (h : openRedis C cfg cache = .ok (conn, cache')) :
    conn = cfg.conn := by
  unfold openRedis at h
  dsimp only at h
  split at h
  · rename_i c hc
    cases h
    exact cache.sound _ _ hc
  · split at h
    · cases h
    · cases h
      rfl

/-- `WalkCtx`. -/
structure WalkCtx (C : Crates) where
  preds : List (Predicate C)
  path : List ℕ
  scopeStack : List String
  scopeCounter : ℕ
  redisStack : List RedisConnection
  redisCache : RedisCache

/-- `Decl`. -/
structure Decl (C : Crates) where
  path : List ℕ
  scopePred : Option (Predicate C)
  excludedPreds : List (Predicate C)
  leaf : Leaf
  redis : Option RedisConnection
  scopeLabel : String

/-- What the walk makes of a context and the declarations so far. -/
abbrev WalkResult (C : Crates) := Except String (WalkCtx C × List (Decl C))

variable {C : Crates}

namespace WalkCtx

/-- The context a walk starts with. -/
def start (redis : Option RedisConnection) (cache : RedisCache) : WalkCtx C :=
  ⟨[], [], [], 0, redis.toList, cache⟩

/-- `current_scope`. -/
def currentScope (ctx : WalkCtx C) : String := ".".intercalate ctx.scopeStack

/-- `push_scope`. -/
def pushScope (ctx : WalkCtx C) (name : Option String) : WalkCtx C :=
  match name with
  | some name => { ctx with scopeStack := ctx.scopeStack ++ [name] }
  | none =>
      { ctx with
        scopeStack := ctx.scopeStack ++ [toString ctx.scopeCounter]
        scopeCounter := ctx.scopeCounter + 1 }

/-- The declaration of a leaf in the context. -/
def decl (ctx : WalkCtx C) (leaf : Leaf) : Decl C :=
  { path := ctx.path
    scopePred := andPredicates C ctx.preds
    excludedPreds := []
    leaf := leaf
    redis := ctx.redisStack.getLast?
    scopeLabel := ctx.currentScope }

end WalkCtx

/-- What `walk_match` does on the way in, the push of the index apart, and whether
it pushed a predicate. -/
def enter (spec : MatchSpec) (name : Option String) (redis : Option RedisConfig)
    (ctx : WalkCtx C) : Except String (WalkCtx C × Bool) :=
  match spec.intoPredicate C with
  | .error e => .error e
  | .ok pred =>
      let pushed := pred.isSome
      let ctx := { ctx with preds := ctx.preds ++ pred.toList }
      let ctx := ctx.pushScope name
      match redis with
      | none => .ok (ctx, pushed)
      | some cfg =>
          match openRedis C cfg ctx.redisCache with
          | .error e => .error e
          | .ok (conn, cache) =>
              .ok ({ ctx with redisStack := ctx.redisStack ++ [conn], redisCache := cache }, pushed)

/-- What `walk_match` does on the way out: the pops, for what was pushed. -/
def leave (pushedPred pushedRedis : Bool) (ctx : WalkCtx C) : WalkCtx C :=
  { ctx with
    path := ctx.path.dropLast
    redisStack := if pushedRedis then ctx.redisStack.dropLast else ctx.redisStack
    preds := if pushedPred then ctx.preds.dropLast else ctx.preds
    scopeStack := ctx.scopeStack.dropLast }

/-- `walk_match`, with the walk of its body as a parameter. -/
def walkMatch (spec : MatchSpec) (name : Option String) (redis : Option RedisConfig)
    (walkBody : WalkCtx C → List (Decl C) → WalkResult C) (selfIdx : ℕ) (ctx : WalkCtx C)
    (out : List (Decl C)) : WalkResult C :=
  match enter spec name redis ctx with
  | .error e => .error e
  | .ok (ctx, pushed) =>
      match walkBody { ctx with path := ctx.path ++ [selfIdx] } out with
      | .error e => .error e
      | .ok (ctx, out) => .ok (leave pushed redis.isSome ctx, out)

mutual

/-- `walk_node`. -/
def walkNode : RuleNode → ℕ → WalkCtx C → List (Decl C) → WalkResult C
  | .scope form name redis body, selfIdx, ctx, out =>
      walkMatch form.spec name redis (walkBody body 0) selfIdx ctx out
  | .leaf leaf, _, ctx, out => .ok (ctx, out ++ [ctx.decl leaf])

/-- `walk_body`, from the index `idx` on. -/
def walkBody : List RuleNode → ℕ → WalkCtx C → List (Decl C) → WalkResult C
  | [], _, ctx, out => .ok (ctx, out)
  | node :: nodes, idx, ctx, out =>
      match walkNode node idx ctx out with
      | .error e => .error e
      | .ok (ctx, out) => walkBody nodes (idx + 1) ctx out

end

namespace Decl

/-- The test of the inner loop of `resolve_exclusions`: `other` is of the same kind
and its path strictly extends the declaration's. -/
def shadowedBy (d other : Decl C) : Bool :=
  d.leaf.kind == other.leaf.kind && decide (d.path.length < other.path.length) &&
    d.path.isPrefixOf other.path

/-- The predicate that a declaration excludes others with. -/
def exclusion (d : Decl C) : Predicate C := d.scopePred.getD fun _ => true

end Decl

/-- The inner loop of `resolve_exclusions`. -/
def excludedFor (decls : List (Decl C)) (i : ℕ) (d : Decl C) : List (Predicate C) :=
  decls.zipIdx.filterMap fun (other, j) =>
    if i ≠ j ∧ d.shadowedBy other = true then some other.exclusion else none

/-- `resolve_exclusions`. -/
def resolveExclusions (decls : List (Decl C)) : List (Decl C) :=
  decls.mapIdx fun i d =>
    if d.leaf.kind.isExclusive then { d with excludedPreds := excludedFor decls i d } else d

/-- `effective_predicate`. -/
def effectivePredicate (d : Decl C) : Option (Predicate C) :=
  if d.excludedPreds = [] then d.scopePred
  else
    some fun req =>
      if holds d.scopePred req = false then false
      else !(d.excludedPreds.any fun p => p req)

/-- The declaration's rule applies to the request. -/
def Decl.fires (d : Decl C) (req : Request C.http) : Bool := holds (effectivePredicate d) req

/-- `walk_listener_body`. -/
def walkListenerBody (globals body : List RuleNode) (initialRedis : Option RedisConnection)
    (cache : RedisCache) : Except String (List (Decl C) × RedisCache) :=
  match walkBody globals 0 (WalkCtx.start initialRedis cache) [] with
  | .error e => .error e
  | .ok (ctx, decls) =>
      match walkBody body 0 { ctx with path := ctx.path ++ [0] } decls with
      | .error e => .error e
      | .ok (ctx, decls) => .ok (resolveExclusions decls, ctx.redisCache)

/-- **A declaration fires exactly if its scope holds and no exclusion does.** -/
theorem fires_iff (d : Decl C) (req : Request C.http) :
    d.fires req = true ↔
      holds d.scopePred req = true ∧ ∀ p ∈ d.excludedPreds, p req = false := by
  unfold Decl.fires effectivePredicate
  split
  · rename_i hnil
    simp [hnil]
  · rw [holds, Option.all_some]
    cases hs : holds d.scopePred req <;> simp [hs]

end Config
end Noxy

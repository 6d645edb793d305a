/-
# What a flag adds to a configuration

`src/main.rs`: `apply_cli_and_run`; `src/config.rs`: `walk_listener_body`, `resolve_exclusions`,
`effective_predicate`.

The rules of the command line stand behind the global rules of the file, outside of every match
node.  So they shadow nothing, and whatever the file declares inside a match node or a listener
shadows them.  `flags_only_add` says it of every listener that is compiled: the declarations of the
file are what they are without the flags, in the same order, the exclusions included and all but
the Redis connection of the process, which `--redis-url` replaces (`Carried`); the flags are
between the global ones and the listener's own; and a flag of an exclusive kind applies to a request
unless a rule of its kind in a match node or in the listener does.  It does not give way to a
global rule of the file outside of the match nodes, nor that rule to it: with both, both apply.
-/

import Noxy.Config.ListenerShadowing
import Noxy.Config.Panics
import Noxy.Main.Cli

namespace Noxy
namespace Config

open Http

variable {C : Crates}

/-! ## Declarations that shadow nothing -/

/-- A declaration with the exclusions that it has among others. -/
def Decl.resolved (decls : List (Decl C)) (d : Decl C) : Decl C :=
  if d.leaf.kind.isExclusive then
    { d with excludedPreds := (decls.filter fun e => d.shadowedBy e).map Decl.exclusion }
  else d

theorem Decl.leaf_resolved (decls : List (Decl C)) (d : Decl C) :
    (d.resolved decls).leaf = d.leaf := by
  unfold Decl.resolved
  split <;> rfl

/-- **The exclusions do not depend on positions.** -/
theorem resolveExclusions_eq_map (decls : List (Decl C)) :
    resolveExclusions decls = decls.map (Decl.resolved decls) := by
  refine List.ext_getElem? fun i => ?_
  rw [resolveExclusions, List.getElem?_mapIdx, List.getElem?_map]
  cases hi : decls[i]? with
  | none => rfl
  | some d => rw [Option.map_some, Option.map_some, Decl.resolved, excludedFor_eq hi]

/-- Declarations that shadow no other exclude nothing. -/
theorem Decl.resolved_insert {before added after : List (Decl C)} {d : Decl C}
    (h : ∀ e ∈ added, ¬ d.shadowedBy e = true) :
    d.resolved (before ++ added ++ after) = d.resolved (before ++ after) := by
  have hnone : (added.filter fun e => d.shadowedBy e) = [] := List.filter_eq_nil_iff.mpr h
  simp only [Decl.resolved, List.filter_append, hnone, List.append_nil]

/-! ## Leaves behind the global rules -/

theorem unnamed_append_leaves (globals : List RuleNode) (flags : List Leaf) :
    unnamed (globals ++ flags.map .leaf) = unnamed globals := by
  induction globals with
  | nil =>
      induction flags with
      | nil => rfl
      | cons flag flags ih =>
          rw [List.nil_append] at ih ⊢
          simpa only [List.map_cons, unnamed, RuleNode.unnamed, Nat.zero_add] using ih
  | cons node nodes ih => rw [List.cons_append, unnamed, unnamed, ih]

theorem bodyLeaves_append_leaves (globals : List RuleNode) (flags : List Leaf) (idx n : ℕ) :
    bodyLeaves (globals ++ flags.map .leaf) idx n =
      bodyLeaves globals idx n ++ flags.map (Site.mk []) := by
  induction globals generalizing idx n with
  | nil =>
      rw [List.nil_append]
      induction flags generalizing idx n with
      | nil => rfl
      | cons flag flags ih =>
          simp only [List.map_cons, bodyLeaves, nodeLeaves, ih, List.nil_append,
            List.singleton_append]
  | cons node nodes ih => rw [List.cons_append, bodyLeaves, bodyLeaves, ih, List.append_assoc]

/-- The place of a rule of the command line. -/
def flagPlace (flag : Leaf) : Placed := ⟨false, ⟨[], flag⟩⟩

/-- The leaves of the global rules, and those of the listener's. -/
def globalPlaces (globals : List RuleNode) : List Placed := (leaves globals).map (Placed.mk false)

def listenerPlaces (globals body : List RuleNode) : List Placed :=
  (bodyLeaves body 0 (unnamed globals)).map (Placed.mk true)

theorem placed_append_leaves (globals body : List RuleNode) (flags : List Leaf) :
    placed (globals ++ flags.map .leaf) body =
      globalPlaces globals ++ flags.map flagPlace ++ listenerPlaces globals body := by
  rw [placed, leaves, bodyLeaves_append_leaves, unnamed_append_leaves, List.map_append,
    List.map_map]
  rfl

/-- What shadows the declaration of a flag: one of its kind in a match node or in the listener. -/
theorem flagPlace_shadowedBy_iff (redis : Option RedisConnection) (flag : Leaf) (q : Placed) :
    ((flagPlace flag).decl C redis).shadowedBy (q.decl C redis) = true ↔
      q.site.kind = flag.kind ∧ q.scope ≠ .global [] := by
  have hpath : StrictPrefix ((flagPlace flag).decl C redis).path (q.decl C redis).path ↔
      q.scope ≠ .global [] := by
    change StrictPrefix [] q.scope.path ↔ _
    rw [strictPrefix_nil_iff]
    cases q.scope <;> simp [Scope.path]
  rw [shadowedBy_iff]
  exact and_congr_right fun _ => hpath

/-- The declaration of a flag shadows nothing. -/
theorem not_shadowedBy_flagPlace (redis : Option RedisConnection) (flag : Leaf) (p : Placed) :
    ¬ (p.decl C redis).shadowedBy ((flagPlace flag).decl C redis) = true := by
  rw [shadowedBy_iff]
  exact fun h => not_strictPrefix_nil _ h.2

/-- The declaration of a place among others, with its exclusions. -/
def Placed.resolved (C : Crates) (redis : Option RedisConnection) (ps : List Placed) (p : Placed) :
    Decl C :=
  (p.decl C redis).resolved (ps.map (Placed.decl C redis))

theorem Listener.decls_eq_map (process : Option RedisConfig) (globals : List RuleNode)
    (l : Listener) :
    l.decls C process globals =
      (placed globals l.body).map (Placed.resolved C (l.conn process) (placed globals l.body)) := by
  rw [Listener.decls, resolveExclusions_eq_map, List.map_map]
  rfl

/-- **The connection of the listener counts where no other is opened**, and for nothing else. -/
theorem Placed.resolved_redis (redis redis' : Option RedisConnection) (ps : List Placed)
    (p : Placed) :
    p.resolved C redis' ps = { p.resolved C redis ps with
      redis := (redis'.toList ++ p.site.conns).getLast? } := by
  simp only [Placed.resolved, Decl.resolved, List.filter_map, List.map_map]
  by_cases hex : (p.decl C redis).leaf.kind.isExclusive = true
  · have hex' : (p.decl C redis').leaf.kind.isExclusive = true := hex
    rw [if_pos hex, if_pos hex']
    rfl
  · have hex' : ¬ (p.decl C redis').leaf.kind.isExclusive = true := hex
    rw [if_neg hex, if_neg hex']
    rfl

/-- A declaration of the file without the flags, and with them: it is the same, but for the
connection of the process, if that is what it has and the flags name another one. -/
structure Carried (l : Listener) (process url : Option RedisConfig) (d d' : Decl C) : Prop where
  same : d' = { d with redis := d'.redis }
  redis : d'.redis = d.redis ∨
    l.redis = none ∧ d.redis = process.map RedisConfig.conn ∧ url.isSome = true ∧
      d'.redis = url.map RedisConfig.conn

theorem carried_resolved (l : Listener) (process url : Option RedisConfig) (ps : List Placed)
    (p : Placed) :
    Carried l process url (p.resolved C (l.conn process) ps)
      (p.resolved C (l.conn (url.or process)) ps) := by
  have hredis : ∀ redis, (p.resolved C redis ps).redis =
      (redis.toList ++ p.site.conns).getLast? := fun redis => by
    rw [p.resolved_redis redis redis]
  refine ⟨?_, ?_⟩
  · rw [p.resolved_redis (l.conn process) (l.conn (url.or process))]
  · rw [hredis, hredis]
    cases hconns : p.site.conns with
    | cons conn conns => exact .inl (by simp [List.getLast?_append, List.getLast?_cons])
    | nil =>
        cases hown : l.redis with
        | some own => exact .inl (by simp [Listener.conn, hown])
        | none =>
            cases url with
            | none => exact .inl (by simp)
            | some url =>
                refine .inr ⟨rfl, ?_, rfl, by simp [Listener.conn, hown]⟩
                cases process <;> simp [Listener.conn, hown]

/-- **The declarations of the file with another Redis for the process.** -/
theorem carried_decls {l l' : Listener} (hbody : l'.body = l.body) (hown : l'.redis = l.redis)
    (process url : Option RedisConfig) (globals : List RuleNode) :
    List.Forall₂ (Carried l process url) (l.decls C process globals)
      (l'.decls C (url.or process) globals) := by
  have hconn : l'.conn (url.or process) = l.conn (url.or process) := by
    unfold Listener.conn
    rw [hown]
  rw [l.decls_eq_map, l'.decls_eq_map, hconn, hbody, List.forall₂_map_left_iff,
    List.forall₂_map_right_iff, List.forall₂_same]
  exact fun p _ => carried_resolved l process url _ p

/-- **The rules behind the global ones exclude nothing.** -/
theorem resolved_append_leaves (redis : Option RedisConnection) (globals body : List RuleNode)
    (flags : List Leaf) (p : Placed) :
    p.resolved C redis (placed (globals ++ flags.map .leaf) body) =
      p.resolved C redis (placed globals body) := by
  rw [Placed.resolved, placed_append_leaves, List.map_append, List.map_append,
    Decl.resolved_insert, ← List.map_append]
  · rfl
  · rintro _ he
    obtain ⟨_, hflag, rfl⟩ := List.mem_map.mp he
    obtain ⟨flag, _, rfl⟩ := List.mem_map.mp hflag
    exact not_shadowedBy_flagPlace redis flag p

/-- **When the rule of a flag applies.** -/
theorem fires_flagPlace (redis : Option RedisConnection) (flag : Leaf) (ps : List Placed)
    (req : Request C.http) :
    ((flagPlace flag).resolved C redis ps).fires req = true ↔
      (flag.kind.isExclusive = true → ∀ p ∈ ps, p.site.kind = flag.kind → p.site.InScope C req →
        p.scope = .global []) := by
  have hscope : holds ((flagPlace flag).decl C redis).scopePred req = true := rfl
  have hholds : ∀ p : Placed, (p.decl C redis).exclusion req = false ↔ ¬ p.site.InScope C req := by
    intro p
    rw [exclusion_apply, inScope_iff, ← holds_andPredicates C _ req, Bool.not_eq_true]
    rfl
  rw [fires_iff]
  unfold Placed.resolved Decl.resolved
  split
  · rename_i hex
    have hex : flag.kind.isExclusive = true := hex
    simp only [hex, true_implies, hscope, true_and, List.forall_mem_map, List.mem_filter,
      and_imp, flagPlace_shadowedBy_iff, hholds]
    refine forall₂_congr fun p _ => forall_congr' fun _ => ?_
    constructor
    · exact fun h hin => by_contra fun hscope => h hscope hin
    · exact fun h hscope hin => hscope (h hin)
  · rename_i hex
    exact iff_of_true ⟨hscope, fun p hp => absurd hp List.not_mem_nil⟩ fun h => absurd h hex

/-- **The declarations of a listener with rules behind the global ones.** -/
theorem Listener.decls_append_leaves (process : Option RedisConfig) (globals : List RuleNode)
    (flags : List Leaf) (l : Listener) :
    ∃ before added after : List (Decl C),
      l.decls C process globals = before ++ after ∧
      l.decls C process (globals ++ flags.map .leaf) = before ++ added ++ after ∧
      before.length = (leaves globals).length ∧ added.map Decl.leaf = flags ∧
      ∀ d ∈ added, ∀ req, d.fires req = true ↔ (d.leaf.kind.isExclusive = true →
        ∀ p ∈ placed globals l.body, p.site.kind = d.leaf.kind → p.site.InScope C req →
          p.scope = .global []) := by
  have hleaf : ∀ p : Placed,
      (p.resolved C (l.conn process) (placed globals l.body)).leaf = p.site.leaf :=
    fun p => Decl.leaf_resolved _ _
  refine ⟨(globalPlaces globals).map (Placed.resolved C (l.conn process) (placed globals l.body)),
    (flags.map flagPlace).map (Placed.resolved C (l.conn process) (placed globals l.body)),
    (listenerPlaces globals l.body).map
      (Placed.resolved C (l.conn process) (placed globals l.body)), ?_, ?_, ?_, ?_, ?_⟩
  · rw [l.decls_eq_map, ← List.map_append]
    rfl
  · have hsame := funext (resolved_append_leaves (C := C) (l.conn process) globals l.body flags)
    rw [l.decls_eq_map, hsame, placed_append_leaves, List.map_append, List.map_append]
  · rw [List.length_map, globalPlaces, List.length_map]
  · simp only [List.map_map, Function.comp_def, hleaf, flagPlace, List.map_id']
  · rintro d hd req
    obtain ⟨_, hflag, rfl⟩ := List.mem_map.mp hd
    obtain ⟨flag, _, rfl⟩ := List.mem_map.mp hflag
    rw [hleaf]
    exact fires_flagPlace _ flag _ req

end Config

namespace Main

open Config Http

/-- What the flags make of a listener `l` whose declarations are `decls` with them: between the
global declarations of the file and the listener's own there are those of the flags, and one of
them applies to a request exactly if, its kind being exclusive, no rule of its kind in a match node
or in the listener does. -/
def Added (C : Crates) (cfg : ProxyConfig) (cli : Cli) (flags : List Leaf) (l : Listener)
    (decls : List (Decl C)) : Prop :=
  ∃ before added after : List (Decl C),
    List.Forall₂ (Carried l cfg.redis cli.redis) (l.decls C cfg.redis cfg.body)
      (before ++ after) ∧
    decls = before ++ added ++ after ∧
    before.length = (leaves cfg.body).length ∧ added.map Decl.leaf = flags ∧
    ∀ d ∈ added, ∀ req, d.fires req = true ↔ (d.leaf.kind.isExclusive = true →
      ∀ p ∈ placed cfg.body l.body, p.site.kind = d.leaf.kind → p.site.InScope C req →
        p.scope = .global [])

/-- A file with a global rule for retries, and with a latency in its only listener. -/
def retryFile : ProxyConfig where
  redis := none
  forwards :=
    [⟨8080, none, ⟨"ca-cert.pem", "ca-key.pem"⟩, none, [], none, [.leaf (.latency "100ms")]⟩]
  reverses := []
  body := [.leaf (.retry (some 2) none none none none none none none)]

/-- `--latency 200ms --retry 3 --redis-url redis://cache`. -/
def retryFlags : Cli :=
  { latency := some "200ms", retry := some 3, redisUrl := some "redis://cache" }

-- The latency of the flag gives way to that of the listener; of the two retries, both apply.
example : (retryFile.listeners.map fun l => (l.decls .plain none
      (retryFile.body ++ [.leaf (.latency "200ms"),
        .leaf (.retry (some 3) none none none none none none none)])).map fun d =>
      (d.leaf.kind, d.fires requestToA)) =
    [[(.retry, true), (.latency, false), (.retry, true), (.latency, true)]] := by
  decide

end Main
end Noxy

/-
# Rules that share their state in Redis

`src/config.rs`: `ProxyConfig::into_listeners`.  A rule of the configuration is a
leaf of the global rules or of one listener's (`Source`); a global one has a
declaration in every listener.  `ProxyConfig.rules` lists the rules as the
configuration has them: with the connection of the innermost `redis` around them and
the label that the names and numbers of the match nodes around them make up.
`rules_compiled` says that these are the rules that come out of `into_listeners`.

`storesIsolated_iff` is the statement about their state: no two different rules of
one kind on one connection have a Redis key in common, exactly if their labels are
different.  Two rules in one scope have one label (`siblings_share_bucket`).
-/

import Noxy.Config.RedisKeys

namespace Noxy
namespace Config

open Http

variable {C : Crates}

/-- Which rule of the configuration a declaration is made of: the `n`-th of the
global rules, or the `n`-th of a listener's own. -/
inductive Source where
  | global (n : ℕ)
  | own (listener n : ℕ)
  deriving DecidableEq, Repr

/-- The rule that the `i`-th declaration of a listener is made of. -/
def Source.of (globals : List RuleNode) (listener i : ℕ) : Source :=
  if i < (leaves globals).length then .global i
  else .own listener (i - (leaves globals).length)

/-- A rule in a listener: its leaf, the connection in effect, and its label. -/
structure Rule where
  source : Source
  leaf : Leaf
  redis : Option RedisConnection
  scopeLabel : String
  deriving DecidableEq, Repr

/-- The rule that a declaration is compiled from. -/
def Decl.rule (d : Decl C) (source : Source) : Rule := ⟨source, d.leaf, d.redis, d.scopeLabel⟩

/-- The rules of a configuration, listener by listener. -/
def ProxyConfig.rules (cfg : ProxyConfig) : List Rule :=
  (cfg.listeners.mapIdx fun ℓ l =>
    (placed cfg.body l.body).mapIdx fun i p =>
      ⟨Source.of cfg.body ℓ i, p.site.leaf, ((l.conn cfg.redis).toList ++ p.site.conns).getLast?,
        ".".intercalate p.site.labels⟩).flatten

/-- The declarations of the compiled listeners, each with the rule it is made of. -/
def sourcedDecls (globals : List RuleNode) (out : List (CompiledListener C)) :
    List (Source × Decl C) :=
  ((out.map CompiledListener.decls).mapIdx fun ℓ decls =>
    decls.mapIdx fun i d => (Source.of globals ℓ i, d)).flatten

/-- Exclusions make no difference to the rule. -/
theorem rule_ite (d : Decl C) (p : Prop) [Decidable p] (excluded : List (Predicate C))
    (source : Source) :
    (if p then { d with excludedPreds := excluded } else d).rule source = d.rule source := by
  split <;> rfl

/-- **The rules come out as the configuration has them.** -/
theorem rules_compiled {install : Install C} {cfg : ProxyConfig}
    {out : List (CompiledListener C)} (h : cfg.intoListeners install = .ok out) :
    (sourcedDecls cfg.body out).map (fun x => x.2.rule x.1) = cfg.rules := by
  rw [sourcedDecls, intoListeners_spec h, ProxyConfig.rules, List.map_flatten]
  congr 1
  refine List.ext_getElem? fun ℓ => ?_
  rw [List.getElem?_map, List.getElem?_mapIdx, List.getElem?_mapIdx, List.getElem?_map]
  rcases cfg.listeners[ℓ]? with _ | l
  · rfl
  · simp only [Option.map_some, Listener.decls]
    congr 1
    refine List.ext_getElem? fun i => ?_
    rw [List.getElem?_map, List.getElem?_mapIdx, Option.map_map, List.getElem?_mapIdx,
      resolveExclusions, List.getElem?_mapIdx, Option.map_map, List.getElem?_map, Option.map_map]
    refine congrArg (Option.map · _) (funext fun p => ?_)
    simp only [Function.comp_apply, rule_ite]
    rfl

/-- Declarations of different rules of one kind on one connection have no Redis key in
common. -/
def StoresIsolated (decls : List (Source × Decl C)) : Prop :=
  ∀ x ∈ decls, ∀ y ∈ decls, x.1 ≠ y.1 → x.2.leaf.kind = y.2.leaf.kind →
    ∀ s t, x.2.redisStore = some s → y.2.redisStore = some t → s.conn = t.conn →
      Disjoint (s.keys C) (t.keys C)

/-- Different rules of one stateful kind on one connection have different labels. -/
def LabelsDistinct (rules : List Rule) : Prop :=
  ∀ r ∈ rules, ∀ r' ∈ rules, r.source ≠ r'.source → r.leaf.kind = r'.leaf.kind →
    r.leaf.kind.storeName.isSome = true → r.redis.isSome = true → r.redis = r'.redis →
      r.scopeLabel ≠ r'.scopeLabel

instance (rules : List Rule) : Decidable (LabelsDistinct rules) :=
  inferInstanceAs (Decidable (∀ r ∈ rules, ∀ r' ∈ rules, _))

/-- **Whose state is shared.**  The rules of a configuration that compiles have their
state in Redis to themselves exactly if no two different rules of one stateful kind on
one connection have the same label. -/
theorem storesIsolated_iff (hempty : ∃ req : Request C.http, hostKey C req = "")
    {install : Install C} {cfg : ProxyConfig} {out : List (CompiledListener C)}
    (h : cfg.intoListeners install = .ok out) :
    StoresIsolated (sourcedDecls cfg.body out) ↔ LabelsDistinct cfg.rules := by
  rw [← rules_compiled h, LabelsDistinct]
  simp only [List.forall_mem_map, Decl.rule]
  refine forall₂_congr fun x _ => forall₂_congr fun y _ => forall₂_congr fun _ hkind => ?_
  obtain ⟨perHost, hx⟩ := x.2.leaf.redisStore_eq
  obtain ⟨perHost', hy⟩ := y.2.leaf.redisStore_eq
  simp only [Decl.redisStore, hx, hy, ← hkind]
  -- Both sides speak of the same stores; what is left is when their keys are disjoint.
  constructor
  · intro hdisj hstate hredis heq
    obtain ⟨kind, hkind⟩ := Option.isSome_iff_exists.mp hstate
    obtain ⟨conn, hconn⟩ := Option.isSome_iff_exists.mp hredis
    rw [← heq, hconn, hkind] at hdisj
    exact (disjoint_keys_iff hempty ..).mp (hdisj _ _ rfl rfl rfl)
  · intro hlabels s t hs ht hconn
    obtain ⟨conn, hc, hs⟩ := Option.bind_eq_some_iff.mp hs
    obtain ⟨conn', hc', ht⟩ := Option.bind_eq_some_iff.mp ht
    obtain ⟨kind, hk, rfl⟩ := Option.map_eq_some_iff.mp hs
    obtain ⟨kind', hk', rfl⟩ := Option.map_eq_some_iff.mp ht
    obtain rfl : kind = kind' := Option.some.inj (hk.symm.trans hk')
    obtain rfl : conn = conn' := hconn
    refine (disjoint_keys_iff hempty ..).mpr (hlabels ?_ ?_ (hc.trans hc'.symm))
    · rw [hk, Option.isSome_some]
    · rw [hc, Option.isSome_some]

/-- A reverse proxy on port 8080 with a Redis and the given rules. -/
def reverseWith (rules : List RuleNode) : ProxyConfig :=
  { redis := some ⟨"redis://localhost", none⟩, forwards := [],
    reverses := [⟨8080, none, "http://localhost:3000", none, none, rules⟩], body := [] }

/-- A request with an empty `Host` line. -/
def hostlessRequest : Request HttpCrate.plain :=
  ⟨"GET", .ofPath none "/", "HTTP/1.1", [("host", [])], none, [], emptyBody⟩

/-- The hypotheses of `storesIsolated_iff` are met by a limit for every request and one
for the host `a`, and the two have their buckets to themselves. -/
theorem storesIsolated_iff_nested : ∃ out,
    (reverseWith [.leaf (.rateLimit 30 "1s" none false),
        .scope (.host "a") none none [.leaf (.rateLimit 5 "1s" none true)]]).intoListeners
      (fun _ _ _ => .ok () : Install .plain) = .ok out ∧ StoresIsolated (sourcedDecls [] out) := by
  obtain ⟨out, h⟩ : ∃ out,
      (reverseWith [.leaf (.rateLimit 30 "1s" none false),
          .scope (.host "a") none none [.leaf (.rateLimit 5 "1s" none true)]]).intoListeners
        (fun _ _ _ => .ok () : Install .plain) = .ok out := ⟨_, rfl⟩
  exact ⟨out, h, (storesIsolated_iff ⟨hostlessRequest, by decide⟩ h).mpr (by decide)⟩

/-- **Two limits in one scope share a bucket.** -/
theorem siblings_share_bucket : ∃ out,
    (reverseWith [.leaf (.rateLimit 30 "1s" none false),
        .leaf (.rateLimit 1500 "60s" none false)]).intoListeners
      (fun _ _ _ => .ok () : Install .plain) = .ok out ∧
    (sourcedDecls [] out).map (fun x =>
        (x.1, x.2.redisStore.map fun s => s.redisKey .plain requestToA)) =
      [(.own 0 0, some "noxy:rate_limit::"), (.own 0 1, some "noxy:rate_limit::")] :=
  ⟨_, rfl, by decide⟩

end Config
end Noxy

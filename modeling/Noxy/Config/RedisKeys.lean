/-
# The keys of the Redis stores

`src/config.rs`: the `emit` of the three rules that keep their state in Redis, and
`host_key`; `src/redis.rs`: `RedisConnection::prefixed_key`; the `scope` methods of
`RedisRateLimitStore`, `RedisSlidingWindowStore` and `RedisCircuitBreakerStore` in
`src/middleware`.

A store reads and writes one key for every request: the connection's prefix, the
store's namespace, a colon, and the request's key, which is the host of a rule per
host and empty otherwise.  The namespace is the kind's name, a colon, and the
label of the scope the rule stands in.  A request's key has no colon
(`colon_notMem_requestKey`), so the last colon of a Redis key ends the namespace
(`prefixedKey_inj`) and stores of one kind on one connection have keys in common
exactly if their labels are the same (`disjoint_keys_iff`).
-/

import Mathlib.Data.List.TakeWhile
import Mathlib.Data.Set.Lattice
import Mathlib.Order.CompletePartialOrder
import Noxy.Config.Listeners

namespace Noxy
namespace Config

open Http

/-- `RedisConnection::prefixed_key`. -/
def RedisConnection.prefixedKey (conn : RedisConnection) (keyspace key : String) : String :=
  conn.keyPrefix ++ keyspace ++ ":" ++ key

section RequestKey

variable (C : Crates)

/-- `host_key`. -/
def hostKey (req : Request C.http) : String := (requestHost C req).getD "unknown"

/-- The key function a rule gives its store. -/
def requestKey (perHost : Bool) : Request C.http → String :=
  if perHost then hostKey C else fun _ => ""

theorem colon_notMem_beforeColon (host : String) : ':' ∉ (beforeColon host).toList := by
  intro h
  rw [beforeColon, String.toList_ofList] at h
  exact absurd (List.mem_takeWhile_imp h) (by decide)

theorem colon_notMem_requestKey (perHost : Bool) (req : Request C.http) :
    ':' ∉ (requestKey C perHost req).toList := by
  cases perHost with
  | false => exact List.not_mem_nil
  | true =>
      show ':' ∉ (hostKey C req).toList
      rw [hostKey, requestHost]
      cases (C.http.host req.uri).orElse fun _ =>
          (HeaderMap.get req.headers "host").bind C.http.toStr with
      | none => decide
      | some host => exact colon_notMem_beforeColon host

end RequestKey

/-- A store on Redis: the connection, the namespace, and whether its rule is per
host. -/
structure RedisStore where
  conn : RedisConnection
  keyspace : String
  perHost : Bool
  deriving DecidableEq, Repr

namespace RedisStore

/-- A new store of a kind with its `scope` set. -/
def ofScope (kind : String) (conn : RedisConnection) (id : String) (perHost : Bool) : RedisStore :=
  ⟨conn, kind ++ ":" ++ id, perHost⟩

/-- `RedisRateLimitStore`. -/
def rateLimit : RedisConnection → String → Bool → RedisStore := ofScope "rate_limit"

/-- `RedisSlidingWindowStore`. -/
def slidingWindow : RedisConnection → String → Bool → RedisStore := ofScope "sliding_window"

/-- `RedisCircuitBreakerStore`. -/
def circuitBreaker : RedisConnection → String → Bool → RedisStore := ofScope "circuit_breaker"

/-- The Redis key of a request: what `take`, `check` and `record` hand to their
scripts, which touch no other key. -/
def redisKey (C : Crates) (s : RedisStore) (req : Request C.http) : String :=
  s.conn.prefixedKey s.keyspace (requestKey C s.perHost req)

/-- The keys that a store reads and writes. -/
def keys (C : Crates) (s : RedisStore) : Set String := Set.range (s.redisKey C)

end RedisStore

/-- The store that the `emit` of a leaf makes, if the leaf keeps state and a Redis is
in effect. -/
def Leaf.redisStore (leaf : Leaf) (redis : Option RedisConnection) (scopeLabel : String) :
    Option RedisStore :=
  match redis with
  | none => none
  | some conn =>
      match leaf with
      | .rateLimit _ _ _ perHost => some (.rateLimit conn scopeLabel perHost)
      | .slidingWindow _ _ perHost => some (.slidingWindow conn scopeLabel perHost)
      | .circuitBreaker _ _ _ perHost _ => some (.circuitBreaker conn scopeLabel perHost)
      | _ => none

/-- The store of a declaration. -/
def Decl.redisStore {C : Crates} (d : Decl C) : Option RedisStore :=
  d.leaf.redisStore d.redis d.scopeLabel

/-- The name of a kind in the namespaces of its stores, for the kinds that keep state
in Redis. -/
def Kind.storeName : Kind → Option String
  | .rateLimit => some "rate_limit"
  | .slidingWindow => some "sliding_window"
  | .circuitBreaker => some "circuit_breaker"
  | _ => none

/-- **The store of a leaf, by its kind.** -/
theorem Leaf.redisStore_eq (leaf : Leaf) : ∃ perHost, ∀ redis scopeLabel,
    leaf.redisStore redis scopeLabel = redis.bind fun conn =>
      leaf.kind.storeName.map fun kind => .ofScope kind conn scopeLabel perHost := by
  cases leaf with
  | rateLimit _ _ _ perHost => exact ⟨perHost, fun redis _ => by cases redis <;> rfl⟩
  | slidingWindow _ _ perHost => exact ⟨perHost, fun redis _ => by cases redis <;> rfl⟩
  | circuitBreaker _ _ _ perHost _ => exact ⟨perHost, fun redis _ => by cases redis <;> rfl⟩
  | _ => exact ⟨false, fun redis _ => by cases redis <;> rfl⟩

/-- Two texts with a colon and a rest without one are the same in both parts. -/
theorem append_colon_inj {a b k l : List Char} (hk : ':' ∉ k) (hl : ':' ∉ l)
    (h : a ++ ':' :: k = b ++ ':' :: l) : a = b ∧ k = l := by
  rcases List.append_eq_append_iff.mp h with ⟨mid, rfl, hmid⟩ | ⟨mid, rfl, hmid⟩
  · rcases mid with _ | ⟨c, mid⟩
    · exact ⟨(List.append_nil a).symm, (List.cons.inj hmid).2⟩
    · obtain ⟨_, rfl⟩ := List.cons.inj hmid
      exact absurd (List.mem_append_right mid List.mem_cons_self) hk
  · rcases mid with _ | ⟨c, mid⟩
    · exact ⟨List.append_nil b, (List.cons.inj hmid).2.symm⟩
    · obtain ⟨_, rfl⟩ := List.cons.inj hmid
      exact absurd (List.mem_append_right mid List.mem_cons_self) hl

/-- **The last colon ends the namespace.** -/
theorem prefixedKey_inj {conn : RedisConnection} {ns ns' key key' : String}
    (hkey : ':' ∉ key.toList) (hkey' : ':' ∉ key'.toList)
    (h : conn.prefixedKey ns key = conn.prefixedKey ns' key') : ns = ns' ∧ key = key' := by
  have hlist := congrArg String.toList h
  simp only [RedisConnection.prefixedKey, String.toList_append, List.append_assoc] at hlist
  obtain ⟨hns, hk⟩ := append_colon_inj hkey hkey' (List.append_cancel_left hlist)
  exact ⟨String.toList_injective hns, String.toList_injective hk⟩

/-- **Stores of one kind on one connection** have keys in common exactly if their
labels are the same.  Of a rule per host and one that is not, the key of a request
with an empty host is in common. -/
theorem disjoint_keys_iff {C : Crates} (hempty : ∃ req : Request C.http, hostKey C req = "")
    (kind : String) (conn : RedisConnection) (id id' : String) (perHost perHost' : Bool) :
    Disjoint ((RedisStore.ofScope kind conn id perHost).keys C)
        ((RedisStore.ofScope kind conn id' perHost').keys C) ↔ id ≠ id' := by
  rw [Set.disjoint_left]
  constructor
  · rintro hdisj rfl
    -- A request without a host has the empty key, per host or not.
    obtain ⟨req, hreq⟩ := hempty
    have hkey : ∀ b : Bool, requestKey C b req = "" := fun b => by
      cases b with
      | false => rfl
      | true => exact hreq
    refine hdisj ⟨req, rfl⟩ ⟨req, ?_⟩
    simp only [RedisStore.redisKey, RedisStore.ofScope, hkey]
  · rintro hne _ ⟨req, rfl⟩ ⟨req', h⟩
    obtain ⟨hns, _⟩ := prefixedKey_inj (colon_notMem_requestKey C _ _)
      (colon_notMem_requestKey C _ _) h.symm
    have hlist := congrArg String.toList hns
    simp only [RedisStore.ofScope, String.toList_append, List.append_assoc] at hlist
    exact hne (String.toList_injective
      (List.append_cancel_left (List.append_cancel_left hlist)))

end Config
end Noxy

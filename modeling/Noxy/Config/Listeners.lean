/-
# Compiling the listeners

`src/config.rs`: `ProxyConfig::into_listeners`, with `listener_initial_redis`,
`compile_forward`, `compile_reverse` and `validate_min_scope_global`.

The global rules are walked once on their own, to refuse the rules that belong in a
listener, and then once for every listener, in front of the listener's own rules.
All walks share one cache of Redis connections.  What follows a listener's walk,
the settings of the builder, the certificate files, the layers and `build`, can
fail but keeps nothing for the next listener: it is the parameter `install`.

`intoListeners_spec` says what comes out: for every listener, the forward ones
first, the declarations of the global rules and of its own, under the connection
that the listener names, or else the process.
-/

import Noxy.Config.ListenerTree

namespace Noxy
namespace Config

open Http

/-- `CaConfig`. -/
structure CaConfig where
  cert : String
  key : String

/-- `TlsConfig`. -/
structure TlsConfig where
  cert : String
  key : String

/-- `CredentialConfig`. -/
structure CredentialConfig where
  username : String
  password : String

/-- `ForwardListener`. -/
structure ForwardListener where
  port : UInt16
  bind : Option String
  ca : CaConfig
  tls : Option TlsConfig
  credentials : List CredentialConfig
  redis : Option RedisConfig
  body : List RuleNode

/-- `ReverseListener`. -/
structure ReverseListener where
  port : UInt16
  bind : Option String
  upstream : String
  tls : Option TlsConfig
  redis : Option RedisConfig
  body : List RuleNode

/-- `ProcessSettings`. -/
structure ProcessSettings where
  acceptInvalidUpstreamCerts : Bool := false
  handshakeTimeout : Option String := none
  idleTimeout : Option String := none
  connectTimeout : Option String := none
  requestTimeout : Option String := none
  maxConnections : Option ℕ := none
  drainTimeout : Option String := none
  poolMaxIdlePerHost : Option ℕ := none
  poolIdleTimeout : Option String := none

/-- `ProxyConfig`. -/
structure ProxyConfig extends ProcessSettings where
  redis : Option RedisConfig
  forwards : List ForwardListener
  reverses : List ReverseListener
  body : List RuleNode

/-- A listener of either kind. -/
inductive Listener where
  | forward (fwd : ForwardListener)
  | reverse (rev : ReverseListener)

namespace Listener

/-- The listener's own Redis. -/
def redis : Listener → Option RedisConfig
  | .forward fwd => fwd.redis
  | .reverse rev => rev.redis

/-- The listener's own rules. -/
def body : Listener → List RuleNode
  | .forward fwd => fwd.body
  | .reverse rev => rev.body

/-- The address to bind. -/
def addr : Listener → String
  | .forward fwd => fwd.bind.getD "127.0.0.1" ++ ":" ++ toString fwd.port
  | .reverse rev => rev.bind.getD "127.0.0.1" ++ ":" ++ toString rev.port

/-- The connection in effect at the listener's outermost scope. -/
def conn (process : Option RedisConfig) (l : Listener) : Option RedisConnection :=
  (l.redis.or process).map RedisConfig.conn

end Listener

/-- The listeners in the order they are compiled. -/
def ProxyConfig.listeners (cfg : ProxyConfig) : List Listener :=
  cfg.forwards.map .forward ++ cfg.reverses.map .reverse

/-- `listener_initial_redis`. -/
def listenerInitialRedis (C : Crates) (listener process : Option RedisConfig)
    (cache : RedisCache) : Except String (Option RedisConnection × RedisCache) :=
  match listener.or process with
  | none => .ok (none, cache)
  | some cfg =>
      match openRedis C cfg cache with
      | .error e => .error e
      | .ok (conn, cache) => .ok (some conn, cache)

variable {C : Crates}

/-- `validate_min_scope_global`. -/
def validateMinScopeGlobal : List (Decl C) → Except String Unit
  | [] => .ok ()
  | d :: decls =>
      if d.leaf.kind.minScope = .listener then
        .error ("`" ++ d.leaf.kind.nodeName ++
          "` is only valid inside a `forward \x7b \x7d` or `reverse \x7b \x7d` block")
      else validateMinScopeGlobal decls

/-- `CompiledListener`, with the declarations its proxy was built from. -/
structure CompiledListener (C : Crates) where
  addr : String
  decls : List (Decl C)

/-- The part of compiling a listener that the walk is not. -/
abbrev Install (C : Crates) :=
  ProcessSettings → Listener → List (Decl C) → Except String Unit

section Compile

variable (install : Install C) (settings : ProcessSettings) (process : Option RedisConfig)
  (globals : List RuleNode)

/-- `compile_forward` and `compile_reverse`, which differ in `install` only. -/
def compileListener (l : Listener) (cache : RedisCache) :
    Except String (CompiledListener C × RedisCache) :=
  match listenerInitialRedis C l.redis process cache with
  | .error e => .error e
  | .ok (initialRedis, cache) =>
      match walkListenerBody globals l.body initialRedis cache with
      | .error e => .error e
      | .ok (decls, cache) =>
          match install settings l decls with
          | .error e => .error e
          | .ok () => .ok (⟨l.addr, decls⟩, cache)

/-- The two loops of `into_listeners`. -/
def compileListeners : List Listener → RedisCache → Except String (List (CompiledListener C))
  | [], _ => .ok []
  | l :: rest, cache =>
      match compileListener install settings process globals l cache with
      | .error e => .error e
      | .ok (compiled, cache) =>
          match compileListeners rest cache with
          | .error e => .error e
          | .ok others => .ok (compiled :: others)

end Compile

/-- `into_listeners`. -/
def ProxyConfig.intoListeners (install : Install C) (cfg : ProxyConfig) :
    Except String (List (CompiledListener C)) :=
  if cfg.forwards.isEmpty && cfg.reverses.isEmpty then
    .error ("config has no listeners — declare at least one `forward \x7b \x7d` or " ++
      "`reverse \x7b \x7d` block")
  else
    match walkBody cfg.body 0 (WalkCtx.start none RedisCache.empty : WalkCtx C) [] with
    | .error e => .error e
    | .ok (_, probeDecls) =>
        match validateMinScopeGlobal probeDecls with
        | .error e => .error e
        | .ok () =>
            compileListeners install cfg.toProcessSettings cfg.redis cfg.body cfg.listeners
              RedisCache.empty

theorem listenerInitialRedis_conn {l : Listener} {process : Option RedisConfig}
    {cache cache' : RedisCache} {conn : Option RedisConnection}
    (h : listenerInitialRedis C l.redis process cache = .ok (conn, cache')) :
    conn = l.conn process := by
  unfold listenerInitialRedis at h
  unfold Listener.conn
  split at h
  · rename_i hnone
    cases h
    rw [hnone, Option.map_none]
  · rename_i cfg hsome
    split at h
    · cases h
    · rename_i hopen
      cases h
      rw [hsome, Option.map_some, openRedis_conn hopen]

/-- The declarations of a listener, by its rules. -/
def Listener.decls (C : Crates) (process : Option RedisConfig) (globals : List RuleNode)
    (l : Listener) : List (Decl C) :=
  resolveExclusions ((placed globals l.body).map (Placed.decl C (l.conn process)))

section Compile

variable {install : Install C} {settings : ProcessSettings} {process : Option RedisConfig}
  {globals : List RuleNode}

theorem compileListener_decls {l : Listener} {cache cache' : RedisCache}
    {compiled : CompiledListener C}
    (h : compileListener install settings process globals l cache = .ok (compiled, cache')) :
    compiled.decls = l.decls C process globals := by
  unfold compileListener at h
  split at h
  · cases h
  rename_i hredis
  split at h
  · cases h
  rename_i hwalk
  split at h
  · cases h
  cases h
  rw [walkListenerBody_spec hwalk, listenerInitialRedis_conn hredis, Listener.decls]

theorem compileListeners_decls {ls : List Listener} :
    ∀ {cache : RedisCache} {out : List (CompiledListener C)},
      compileListeners install settings process globals ls cache = .ok out →
      out.map CompiledListener.decls = ls.map (Listener.decls C process globals) := by
  induction ls with
  | nil =>
      rintro cache out h
      cases h
      rfl
  | cons l ls ih =>
      rintro cache out h
      rw [compileListeners] at h
      split at h
      · cases h
      rename_i hone
      split at h
      · cases h
      rename_i hrest
      cases h
      rw [List.map_cons, List.map_cons, ih hrest, compileListener_decls hone]

end Compile

/-- **What `into_listeners` compiles.** -/
theorem intoListeners_spec {install : Install C} {cfg : ProxyConfig}
    {out : List (CompiledListener C)} (h : cfg.intoListeners install = .ok out) :
    out.map CompiledListener.decls =
      cfg.listeners.map (Listener.decls C cfg.redis cfg.body) := by
  unfold ProxyConfig.intoListeners at h
  split at h
  · cases h
  split at h
  · cases h
  split at h
  · cases h
  exact compileListeners_decls h

end Config
end Noxy

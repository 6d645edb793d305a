/-
# Compiling a listener to its end

`src/config.rs`: `apply_process_settings` and the rest of `compile_forward` and
`compile_reverse` after the walk; `src/lib.rs`: `ProxyBuilder::ca_pem_files`,
`ProxyBuilder::tls_identity` and the parts of `ProxyBuilder::build` that can fail.

`Noxy.Config.Listeners` leaves what follows the walk to a parameter, `install`.  Here it is
what the code does (`setUp`): the settings of the process, the certificates or the upstream,
the declarations one after the other, and `build`.  It fails with an error or a panic, and so
does compiling the whole configuration (`ProxyConfig.compile`).  With `setUp` for `install`,
`into_listeners` does the same, except that it does not tell the one failure from the other
(`intoListeners_eq_compile`).  What a leaf makes is what the builder of `Noxy.Config.Emit` is given
of its declaration (`emitDecl_eq_emit`).
-/

import Noxy.Config.Listeners
import Noxy.Config.Middleware

namespace Noxy
namespace Config

open Http Lib Proxy

/-- The timeouts that the process settings give a builder. -/
structure Timeouts where
  handshake : Option ℕ
  idle : Option ℕ
  connect : Option ℕ
  request : Option ℕ
  drain : Option ℕ
  poolIdle : Option ℕ

/-- A setting that may be missing. -/
def optionalDuration : Option String → Except Failure (Option ℕ)
  | some text => (parseDuration text).map some
  | none => .ok none

/-- `apply_process_settings`. -/
def applyProcessSettings (s : ProcessSettings) : Except Failure Timeouts := do
  let handshake ← optionalDuration s.handshakeTimeout
  let idle ← optionalDuration s.idleTimeout
  let connect ← optionalDuration s.connectTimeout
  let request ← optionalDuration s.requestTimeout
  let drain ← optionalDuration s.drainTimeout
  let poolIdle ← optionalDuration s.poolIdleTimeout
  return ⟨handshake, idle, connect, request, drain, poolIdle⟩

/-- The certificate and key that a listener serves with. -/
def Listener.tls : Listener → Option TlsConfig
  | .forward fwd => fwd.tls
  | .reverse rev => rev.tls

/-- `Semaphore::MAX_PERMITS`, `usize::MAX >> 3`. -/
def MAX_PERMITS : ℕ := 2 ^ 61 - 1

/-- A listener with what its proxy was built from. -/
structure BuiltListener (C : Crates) where
  listener : CompiledListener C
  middlewares : List (Middleware C)

section SetUp

variable {C : Crates} (L : Libraries)

/-- The calls between the process settings and the declarations: `ca_pem_files` or
`reverse_proxy`, and `tls_identity`. -/
def openListener (C : Crates) (l : Listener) : Except String Unit := do
  match l with
  | .forward fwd => L.certificateAuthority fwd.ca.cert fwd.ca.key
  | .reverse rev =>
      ((ProxyBuilder.new : ProxyBuilder C.http).reverseProxy rev.upstream).map fun _ => ()
  match l.tls with
  | none => .ok ()
  | some tls => L.tlsIdentity tls.cert tls.key

/-- The declarations, one after the other, from a position on. -/
def emitAll : ℕ → List (Decl C) → Except Failure (List (Middleware C))
  | _, [] => .ok []
  | i, d :: decls => do
      let m ← d.leaf.emit L d.backend i
      (emitAll (i + 1) decls).map (m :: ·)

/-- `Semaphore::new` of the connections, which has its limit. -/
def semaphore : Option ℕ → Except Failure Unit
  | none => .ok ()
  | some n => if n ≤ MAX_PERMITS then .ok () else .error (.panic .permits)

/-- `build`: the identity is used, and the permits of the connections are made. -/
def build (maxConnections : Option ℕ) (l : Listener) : Except Failure Unit := do
  match l.tls with
  | none => .ok ()
  | some tls => fallible (L.singleCert tls.cert tls.key)
  semaphore maxConnections

/-- What follows the walk in `compile_forward` and `compile_reverse`. -/
def setUp (settings : ProcessSettings) (l : Listener) (decls : List (Decl C)) :
    Except Failure (List (Middleware C)) := do
  let _ ← applyProcessSettings settings
  let _ ← fallible (openListener L C l)
  let middlewares ← emitAll L 0 decls
  (build L settings.maxConnections l).map fun _ => middlewares

end SetUp

section Compile

variable {C : Crates} (L : Libraries) (settings : ProcessSettings) (process : Option RedisConfig)
  (globals : List RuleNode)

/-- `compile_forward` and `compile_reverse`. -/
def buildListener (l : Listener) (cache : RedisCache) :
    Except Failure (BuiltListener C × RedisCache) :=
  match listenerInitialRedis C l.redis process cache with
  | .error e => .error (.error e)
  | .ok (initialRedis, cache) =>
      match walkListenerBody globals l.body initialRedis cache with
      | .error e => .error (.error e)
      | .ok (decls, cache) =>
          (setUp L settings l decls).map fun middlewares => (⟨⟨l.addr, decls⟩, middlewares⟩, cache)

/-- The two loops of `into_listeners`. -/
def buildListeners : List Listener → RedisCache → Except Failure (List (BuiltListener C))
  | [], _ => .ok []
  | l :: rest, cache =>
      match buildListener L settings process globals l cache with
      | .error e => .error e
      | .ok (built, cache) => (buildListeners rest cache).map (built :: ·)

end Compile

variable {C : Crates}

/-- `into_listeners`. -/
def ProxyConfig.compile (C : Crates) (L : Libraries) (cfg : ProxyConfig) :
    Except Failure (List (BuiltListener C)) :=
  if cfg.forwards.isEmpty && cfg.reverses.isEmpty then
    .error (.error ("config has no listeners — declare at least one `forward \x7b \x7d` or " ++
      "`reverse \x7b \x7d` block"))
  else
    match walkBody cfg.body 0 (WalkCtx.start none RedisCache.empty : WalkCtx C) [] with
    | .error e => .error (.error e)
    | .ok (_, probeDecls) =>
        match validateMinScopeGlobal probeDecls with
        | .error e => .error (.error e)
        | .ok () =>
            buildListeners L cfg.toProcessSettings cfg.redis cfg.body cfg.listeners
              RedisCache.empty

/-- The text that is left of a failure when it is not known what kind it is. -/
def Failure.text : Failure → String
  | .error message => message
  | .panic _ => "panicked"

/-- `setUp` in the place of `install`. -/
def installWith (C : Crates) (L : Libraries) : Install C := fun settings l decls =>
  ((setUp L settings l decls).map fun _ => ()).mapError Failure.text

section Connection

variable {L : Libraries} {settings : ProcessSettings} {process : Option RedisConfig}
  {globals : List RuleNode}

theorem compileListener_eq_buildListener (l : Listener) (cache : RedisCache) :
    compileListener (installWith C L) settings process globals l cache =
      ((buildListener L settings process globals l cache).map fun built =>
        (built.1.listener, built.2)).mapError Failure.text := by
  unfold compileListener buildListener installWith
  cases listenerInitialRedis C l.redis process cache with
  | error e => rfl
  | ok opened =>
      dsimp only
      cases walkListenerBody globals l.body opened.1 opened.2 with
      | error e => rfl
      | ok walked =>
          dsimp only
          cases setUp L settings l walked.1 <;> rfl

theorem compileListeners_eq_buildListeners (ls : List Listener) (cache : RedisCache) :
    compileListeners (installWith C L) settings process globals ls cache =
      ((buildListeners L settings process globals ls cache).map fun out =>
        out.map BuiltListener.listener).mapError Failure.text := by
  induction ls generalizing cache with
  | nil => rfl
  | cons l ls ih =>
      rw [compileListeners, buildListeners, compileListener_eq_buildListener]
      cases buildListener L settings process globals l cache with
      | error e => rfl
      | ok built =>
          dsimp only [Except.map, Except.mapError]
          rw [ih]
          cases buildListeners L settings process globals ls built.2 <;> rfl

/-- **`into_listeners` compiles as `ProxyConfig.compile` does**, when the kind of a failure is
forgotten. -/
theorem intoListeners_eq_compile (cfg : ProxyConfig) :
    cfg.intoListeners (installWith C L) =
      ((cfg.compile C L).map fun out => out.map BuiltListener.listener).mapError Failure.text := by
  unfold ProxyConfig.intoListeners ProxyConfig.compile
  split
  · rfl
  · cases walkBody cfg.body 0 (WalkCtx.start none RedisCache.empty : WalkCtx C) [] with
    | error e => rfl
    | ok walked =>
        dsimp only
        cases validateMinScopeGlobal walked.2 with
        | error e => rfl
        | ok u => exact compileListeners_eq_buildListeners _ _

/-! ### The builder -/

variable (C L) in
/-- The layer of a declaration, by what its leaf makes and what layer that is. -/
def layerFrom (layer : ℕ → Middleware C → LayerFn C.http) (i : ℕ) (d : Decl C) :
    Except String (LayerFn C.http) :=
  ((d.leaf.emit L d.backend i).map (layer i)).mapError Failure.text

/-- What the builder is given of a declaration. -/
def addTo (layer : ℕ → Middleware C → LayerFn C.http) (i : ℕ) (d : Decl C)
    (b : ProxyBuilder C.http) (m : Middleware C) : ProxyBuilder C.http :=
  match d.leaf, m with
  | .upstream _ _, .upstream upstream => b.route (holds (effectivePredicate d)) upstream
  | _, m => { b with layers := b.layers ++ [applyLayer (effectivePredicate d) (layer i m)] }

/-- **`emit_decl` is the `emit` of the leaf**, handed to the builder. -/
theorem emitDecl_eq_emit (layer : ℕ → Middleware C → LayerFn C.http) (i : ℕ) (d : Decl C)
    (b : ProxyBuilder C.http) :
    emitDecl (layerFrom C L layer) i d b =
      ((d.leaf.emit L d.backend i).map (addTo layer i d b)).mapError Failure.text := by
  unfold emitDecl layerFrom addTo
  cases hleaf : d.leaf with
  | upstream urls balance =>
      simp only [emitUpstream, Leaf.emit, fallible]
      cases (newUpstream urls balance i : Except String (Upstream C.http)) <;> rfl
  | _ =>
      cases Leaf.emit L d.backend i _ <;> rfl

/-- **The declarations that are compiled are those that the builder takes.** -/
theorem emitDecls_isOk_iff (layer : ℕ → Middleware C → LayerFn C.http) (decls : List (Decl C)) :
    ∀ (i : ℕ) (b : ProxyBuilder C.http),
      (∃ b', emitDecls (layerFrom C L layer) i decls b = .ok b') ↔
        ∃ ms, emitAll L i decls = .ok ms := by
  induction decls with
  | nil => exact fun i b => iff_of_true ⟨b, rfl⟩ ⟨[], rfl⟩
  | cons d decls ih =>
      intro i b
      rw [emitDecls, emitDecl_eq_emit, emitAll]
      cases d.leaf.emit L d.backend i with
      | error e =>
          refine iff_of_false ?_ ?_
          · rintro ⟨_, h⟩
            cases h
          · rintro ⟨_, h⟩
            cases h
      | ok m =>
          refine (ih (i + 1) (addTo layer i d b m)).trans ?_
          exact exists_map_eq_ok_iff.symm

/-- The declarations of the listeners that are returned. -/
theorem compile_decls {cfg : ProxyConfig} {out : List (BuiltListener C)}
    (h : cfg.compile C L = .ok out) :
    out.map (fun built => built.listener.decls) =
      cfg.listeners.map (Listener.decls C cfg.redis cfg.body) := by
  have hinto := intoListeners_eq_compile (C := C) (L := L) cfg
  rw [h] at hinto
  have hspec := intoListeners_spec hinto
  rw [List.map_map] at hspec
  exact hspec

end Connection

end Config
end Noxy

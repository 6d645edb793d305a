/-
# From declarations to layers and routes

`src/config.rs`: `emit_decl`, `apply_layer`, the `emit` of `UpstreamConfig` and `BlockConfig`,
and `parse_balance_strategy`; `src/middleware/conditional.rs`: `ConditionalService::call`.

`compile_forward` and `compile_reverse` hand the declarations to the builder in order.  An
`upstream` becomes a route, under its effective predicate; every other declaration becomes a
layer, and `apply_layer` wraps it in a `Conditional` that asks the effective predicate of the
request as it arrives there.  What layer the rule itself makes, and whether it can, is the
parameter `layerOf`.

A `Conditional` is the same whatever its services answer with, so `Layer` leaves that open:
the layers of the proxy are those that answer as an `HttpService` does.  `emitDecls_spec` says
what a whole list of declarations makes of a builder.
-/

import Noxy.Config.Walk
import Noxy.Lib.Fallible
import Noxy.Proxy.BlockList

namespace Noxy
namespace Config

open Http Lib Proxy

/-- A layer around services that answer with an `R`. -/
abbrev Layer (H : HttpCrate) (R : Type) := (Request H → R) → Request H → R

/-- `ConditionalService::call`, of one rule. -/
def conditional {H : HttpCrate} {R : Type} (predicate : Request H → Bool) (layer : Layer H R) :
    Layer H R := fun inner req =>
  if predicate req then layer inner req else inner req

variable {C : Crates}

/-- `apply_layer`. -/
def applyLayer {R : Type} (pred : Option (Predicate C)) (layer : Layer C.http R) :
    Layer C.http R :=
  match pred with
  | some p => conditional p layer
  | none => layer

/-- **A layer acts on the requests that its predicate holds for.** -/
theorem applyLayer_apply {R : Type} (pred : Option (Predicate C)) (layer : Layer C.http R)
    (inner : Request C.http → R) (req : Request C.http) :
    applyLayer pred layer inner req = if holds pred req then layer inner req else inner req := by
  cases pred <;> rfl

/-- `parse_balance_strategy`. -/
def parseBalanceStrategy (s : String) : Except String LoadBalanceStrategy :=
  if s = "round-robin" then .ok .roundRobin
  else if s = "random" then .ok .random
  else .error s!"unknown balance strategy '{s}', expected 'round-robin' or 'random'"

/-- `UpstreamConfig::emit`, up to its route; the counter of the upstream is in the cell
`counter`. -/
def newUpstream {H : HttpCrate} (urls : List String) (balance : Option String) (counter : ℕ) :
    Except String (Upstream H) := do
  let upstream ← Upstream.new urls counter
  match balance with
  | none => return upstream
  | some balance => do
      let strategy ← parseBalanceStrategy balance
      return upstream.withStrategy strategy

/-- `UpstreamConfig::emit`. -/
def emitUpstream (urls : List String) (balance : Option String) (pred : Option (Predicate C))
    (counter : ℕ) (b : ProxyBuilder C.http) : Except String (ProxyBuilder C.http) :=
  (newUpstream urls balance counter).map fun upstream => b.route (holds pred) upstream

/-- `BlockConfig::emit`, up to its response. -/
def newBlockList (C : Crates) (hosts paths : List String) : Except String (BlockList C) := do
  let bl ← hosts.foldlM (fun (bl : BlockList C) h =>
    (bl.host h).mapError fun e => s!"invalid block host '{h}': {e}") (.new C)
  paths.foldlM (fun (bl : BlockList C) p =>
    (bl.path p).mapError fun e => s!"invalid block path '{p}': {e}") bl

section Emit

variable (layerOf : ℕ → Decl C → Except String (LayerFn C.http))

/-- `emit_decl`, of the declaration at a position. -/
def emitDecl (i : ℕ) (d : Decl C) (b : ProxyBuilder C.http) :
    Except String (ProxyBuilder C.http) :=
  match d.leaf with
  | .upstream urls balance => emitUpstream urls balance (effectivePredicate d) i b
  | _ =>
      match layerOf i d with
      | .error e => .error e
      | .ok layer =>
          .ok { b with layers := b.layers ++ [applyLayer (effectivePredicate d) layer] }

/-- The loop over the declarations, from a position on. -/
def emitDecls : ℕ → List (Decl C) → ProxyBuilder C.http → Except String (ProxyBuilder C.http)
  | _, [], b => .ok b
  | i, d :: decls, b =>
      match emitDecl layerOf i d b with
      | .error e => .error e
      | .ok b => emitDecls (i + 1) decls b

end Emit

/-- The declaration is an `upstream`. -/
def Decl.isUpstream (d : Decl C) : Bool := d.leaf.kind == .upstream

/-- The layers of the declarations that are not upstreams, from a position on. -/
def emitLayers {R : Type} (layerOf : ℕ → Decl C → Layer C.http R) :
    ℕ → List (Decl C) → List (Layer C.http R)
  | _, [] => []
  | i, d :: decls =>
      if d.isUpstream then emitLayers layerOf (i + 1) decls
      else applyLayer (effectivePredicate d) (layerOf i d) :: emitLayers layerOf (i + 1) decls

/-- A route by its predicate and the position of its declaration. -/
def routeKey (r : Route C.http) : (Request C.http → Bool) × ℕ := (r.1, r.2.counter)

/-- The routes of the declarations, by predicate and position. -/
def routeKeys (i : ℕ) (decls : List (Decl C)) : List ((Request C.http → Bool) × ℕ) :=
  ((decls.zipIdx i).filter fun e => e.1.isUpstream).map fun e => (e.1.fires, e.2)

theorem routeKeys_cons (i : ℕ) (d : Decl C) (decls : List (Decl C)) :
    routeKeys i (d :: decls) =
      if d.isUpstream then (d.fires, i) :: routeKeys (i + 1) decls
      else routeKeys (i + 1) decls := by
  rw [routeKeys, List.zipIdx_cons, List.filter_cons]
  split <;> rfl

theorem upstream_new_counter {H : HttpCrate} {urls : List String} {counter : ℕ} {u : Upstream H}
    (h : Upstream.new urls counter = .ok u) : u.counter = counter := by
  unfold Upstream.new at h
  split at h
  · cases h
  · split at h
    · cases h
      rfl
    · cases h

theorem newUpstream_counter {H : HttpCrate} {urls : List String} {balance : Option String}
    {counter : ℕ} {u : Upstream H} (h : newUpstream urls balance counter = .ok u) :
    u.counter = counter := by
  obtain ⟨u₀, hnew, h⟩ := doBind_eq_ok_iff.mp h
  cases balance with
  | none =>
      obtain rfl : u₀ = u := Except.ok.inj h
      exact upstream_new_counter hnew
  | some balance =>
      obtain ⟨strategy, _, h⟩ := doBind_eq_ok_iff.mp h
      obtain rfl : u₀.withStrategy strategy = u := Except.ok.inj h
      change u₀.counter = counter
      exact upstream_new_counter hnew

/-- What an `upstream` adds to the builder. -/
theorem emitUpstream_ok {urls : List String} {balance : Option String} {d : Decl C} {i : ℕ}
    {b b' : ProxyBuilder C.http}
    (h : emitUpstream urls balance (effectivePredicate d) i b = .ok b') :
    b'.layers = b.layers ∧ b'.routes.map routeKey = b.routes.map routeKey ++ [(d.fires, i)] := by
  obtain ⟨u, hu, rfl⟩ := map_eq_ok_iff.mp h
  refine ⟨rfl, ?_⟩
  rw [ProxyBuilder.route, List.map_append, List.map_singleton, routeKey, newUpstream_counter hu]
  rfl

/-- **What one declaration adds to the builder**: an `upstream` a route, and every other one
its layer. -/
theorem emitDecl_ok {layerOf : ℕ → Decl C → Except String (LayerFn C.http)} {i : ℕ} {d : Decl C}
    {b b' : ProxyBuilder C.http} (h : emitDecl layerOf i d b = .ok b') :
    (d.isUpstream = true ∧ b'.layers = b.layers ∧
        b'.routes.map routeKey = b.routes.map routeKey ++ [(d.fires, i)]) ∨
      (d.isUpstream = false ∧ b'.routes = b.routes ∧ ∃ layer, layerOf i d = .ok layer ∧
        b'.layers = b.layers ++ [applyLayer (effectivePredicate d) layer]) := by
  unfold emitDecl at h
  split at h
  · rename_i urls balance hleaf
    refine Or.inl ⟨?_, emitUpstream_ok h⟩
    rw [Decl.isUpstream, hleaf]
    rfl
  · rename_i hleaf
    split at h
    · cases h
    · rename_i layer hlayer
      cases h
      refine Or.inr ⟨?_, rfl, layer, hlayer, rfl⟩
      unfold Decl.isUpstream
      cases hd : d.leaf with
      | upstream urls balance => exact (hleaf urls balance hd).elim
      | _ => rfl

/-- **What the declarations make of a builder**: the layers in order, the first outermost, and
the routes in order. -/
theorem emitDecls_spec {layerOf : ℕ → Decl C → Except String (LayerFn C.http)}
    {layers : ℕ → Decl C → LayerFn C.http} {decls : List (Decl C)} :
    ∀ {i : ℕ} {b b' : ProxyBuilder C.http},
      (∀ j d layer, layerOf j d = .ok layer → layer = layers j d) →
      emitDecls layerOf i decls b = .ok b' →
      b'.layers = b.layers ++ emitLayers layers i decls ∧
        b'.routes.map routeKey = b.routes.map routeKey ++ routeKeys i decls := by
  induction decls with
  | nil =>
      intro i b b' _ h
      cases h
      exact ⟨(List.append_nil _).symm, (List.append_nil _).symm⟩
  | cons d decls ih =>
      intro i b b' hlayers h
      rw [emitDecls] at h
      split at h
      · cases h
      · rename_i b₁ hone
        obtain ⟨hlay, hrou⟩ := ih hlayers h
        rw [hlay, hrou, emitLayers, routeKeys_cons]
        rcases emitDecl_ok hone with ⟨hup, hl, hr⟩ | ⟨hup, hr, layer, hok, hl⟩
        · rw [hl, hr, if_pos hup, if_pos hup, List.append_assoc]
          exact ⟨rfl, rfl⟩
        · rw [hl, hr, hup, if_neg Bool.false_ne_true, if_neg Bool.false_ne_true,
            List.append_assoc, hlayers i d layer hok]
          exact ⟨rfl, rfl⟩

/-- **The service of a compiled listener**: the layers of its declarations, the first
outermost, around the service that routes. -/
theorem serve_emitDecls {out : Outside C.http}
    {layerOf : ℕ → Decl C → Except String (LayerFn C.http)}
    {layers : ℕ → Decl C → LayerFn C.http} {decls : List (Decl C)} {b b' : ProxyBuilder C.http}
    {p : BuiltProxy C.http} (hlayers : ∀ j d layer, layerOf j d = .ok layer → layer = layers j d)
    (hb : b.layers = []) (h : emitDecls layerOf 0 decls b = .ok b') (hp : b'.build out = .ok p)
    (connect : C.http.Authority) :
    p.serve out connect =
      (emitLayers layers 0 decls).foldr (fun layer service => layer service)
        (innermost out b'.routes ⟨(p.defaultTarget connect).authority,
          (p.defaultTarget connect).scheme, b'.requestTimeout⟩) := by
  have hl := (emitDecls_spec hlayers h).1
  rw [hb, List.nil_append] at hl
  rw [serve_build hp, hl]

end Config
end Noxy

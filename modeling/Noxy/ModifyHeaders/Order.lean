/-
# In which order header rules count

`src/config.rs`: `emit` of the six header rules, `emit_decl`, `apply_layer`;
`src/middleware/conditional.rs`: `ConditionalService::call`; `src/middleware/modify_headers.rs`.

Every header rule of a listener is a layer of its own, and the rule that is declared first is the
outermost.  A request meets the rules in the order of the declarations and its response meets them
in the opposite order.  So of two `set-request-header` of one name the later one counts, which in a
listener is the one of the narrower scope, and of two `set-response-header` the earlier one: a
global rule overwrites what a listener or a match node sets.

`serve_headerRules` is the whole behaviour of a listener whose rules are header rules and
upstreams.  The request that is routed has the headers that the rules in front of it leave, each of
them asked of the request as it arrives there, and for each name what is left is `written` by the
operations in one order on the way in and in the other on the way out.
-/

import Noxy.Config.Panics
import Noxy.ModifyHeaders.Service

namespace Noxy
namespace ModifyHeaders

open Config Http Proxy

variable {C : Crates} (L : Libraries)

/-- The operation of a header rule, as its `emit` makes it. -/
def headerRule (i : ℕ) (d : Decl C) : Option (Phase × HeaderOp) :=
  match (d.leaf.emit L d.backend i : Except Failure (Middleware C)) with
  | .ok (.modifyHeaders phase op) => some (phase, op)
  | _ => none

/-- The layer of one operation. -/
def ruleLayer {H : HttpCrate} (rule : Phase × HeaderOp) : LayerFn H := fun inner =>
  ((Layer.new.push rule.1 rule.2).layer inner).call

/-- The layer of a declaration, if it is a header rule. -/
def layerOf (i : ℕ) (d : Decl C) : Except String (LayerFn C.http) :=
  match headerRule L i d with
  | some rule => .ok (ruleLayer rule)
  | none => .error "not a header rule"

/-- The request behind a rule. -/
def onRequest {H : HttpCrate} (rule : Phase × HeaderOp) (req : Request H) : Request H :=
  { req with headers := applyOps req.headers (opsOf .request [rule]) }

/-- The rules that a request passes: those that fire on it as it arrives there. -/
def passed : ℕ → List (Decl C) → Request C.http → List (Phase × HeaderOp)
  | _, [], _ => []
  | i, d :: decls, req =>
      match headerRule L i d with
      | some rule =>
          if d.fires req then rule :: passed (i + 1) decls (onRequest rule req)
          else passed (i + 1) decls req
      | none => passed (i + 1) decls req

/-- What the rules do around a service. -/
def around {H : HttpCrate} (rules : List (Phase × HeaderOp)) (inner : HttpService H) :
    HttpService H := fun req world =>
  let sent := { req with headers := applyOps req.headers (opsOf .request rules) }
  ((inner sent world).1.map fun resp =>
      { resp with headers := applyOps resp.headers (opsOf .response rules).reverse },
    (inner sent world).2)

/-! ## Layer by layer -/

section Around

variable {H : HttpCrate} {inner : HttpService H}

theorem opsOf_cons_eq (phase : Phase) (rule : Phase × HeaderOp) (rules : List (Phase × HeaderOp)) :
    opsOf phase (rule :: rules) = opsOf phase [rule] ++ opsOf phase rules :=
  List.filterMap_append (l := [rule])

/-- One rule has at most one operation for a phase. -/
theorem reverse_opsOf_singleton (phase : Phase) (rule : Phase × HeaderOp) :
    (opsOf phase [rule]).reverse = opsOf phase [rule] := by
  rw [opsOf_cons]
  split_ifs <;> rfl

theorem around_nil (req : Request H) (world : World H) :
    around [] inner req world = inner req world := by
  unfold around
  refine Prod.ext ?_ rfl
  change (inner req world).1.map id = (inner req world).1
  exact congrFun Except.map_id _

/-- **One more rule in front.** -/
theorem around_cons (rule : Phase × HeaderOp) (rules : List (Phase × HeaderOp)) (req : Request H)
    (world : World H) :
    around (rule :: rules) inner req world = ruleLayer rule (around rules inner) req world := by
  have hsent : applyOps req.headers (opsOf .request (rule :: rules)) =
      applyOps (onRequest rule req).headers (opsOf .request rules) := by
    rw [opsOf_cons_eq, applyOps_append]
    rfl
  have hback : ∀ headers : HeaderMap, applyOps headers (opsOf .response (rule :: rules)).reverse =
      applyOps (applyOps headers (opsOf .response rules).reverse) (opsOf .response [rule]) := by
    intro headers
    rw [opsOf_cons_eq, List.reverse_append, applyOps_append, reverse_opsOf_singleton]
  simp only [around, hsent, hback]
  refine Prod.ext ?_ rfl
  change _ = Except.map _ (Except.map _ (inner { req with
    headers := applyOps (onRequest rule req).headers (opsOf .request rules) } world).1)
  cases (inner { req with
    headers := applyOps (onRequest rule req).headers (opsOf .request rules) } world).1 <;> rfl

end Around

variable {L}

theorem headerRule_of_isUpstream {i : ℕ} {d : Decl C} (h : d.isUpstream = true) :
    headerRule L i d = none := by
  unfold headerRule
  rw [Decl.isUpstream, beq_iff_eq] at h
  cases hleaf : d.leaf with
  | upstream urls balance =>
      simp only [Leaf.emit]
      cases (fallible (newUpstream urls balance i) : Except Failure (Upstream C.http)) <;> rfl
  | _ => rw [hleaf] at h; cases h

/-- The layer that a declaration has if it is a header rule, and no layer otherwise. -/
def ruleLayers (L : Libraries) (i : ℕ) (d : Decl C) : LayerFn C.http :=
  match headerRule L i d with
  | some rule => ruleLayer rule
  | none => id

theorem ruleLayers_of_ok {i : ℕ} {d : Decl C} {layer : LayerFn C.http}
    (h : layerOf L i d = .ok layer) : layer = ruleLayers L i d := by
  unfold layerOf at h
  unfold ruleLayers
  split at h
  · cases h
    rfl
  · cases h

/-- **The layers of the declarations do what the rules that are passed do.** -/
theorem foldr_emitLayers (inner : HttpService C.http) (decls : List (Decl C)) :
    ∀ (i : ℕ) (req : Request C.http) (world : World C.http),
      (emitLayers (ruleLayers L) i decls).foldr (fun layer service => layer service) inner
          req world =
        around (passed L i decls req) inner req world := by
  induction decls with
  | nil => exact fun _ req world => (around_nil req world).symm
  | cons d decls ih =>
      intro i req world
      rw [emitLayers, passed]
      cases hrule : headerRule L i d with
      | none =>
          -- An upstream is a route; no other declaration without a rule has an effect.
          dsimp only
          rw [← ih]
          split
          · rfl
          · rw [List.foldr_cons, applyLayer_apply, ruleLayers, hrule]
            split <;> rfl
      | some rule =>
          have hup : ¬ d.isUpstream = true := fun h => by
            rw [headerRule_of_isUpstream h] at hrule
            cases hrule
          dsimp only
          rw [if_neg hup, List.foldr_cons, applyLayer_apply, ruleLayers, hrule]
          cases hfires : d.fires req with
          | false =>
              rw [show holds (effectivePredicate d) req = false from hfires]
              exact ih (i + 1) req world
          | true =>
              rw [show holds (effectivePredicate d) req = true from hfires]
              simp only [if_true]
              rw [around_cons]
              have hinner : (emitLayers (ruleLayers L) (i + 1) decls).foldr
                  (fun layer service => layer service) inner (onRequest rule req) world =
                around (passed L (i + 1) decls (onRequest rule req)) inner (onRequest rule req)
                  world := ih (i + 1) _ world
              exact congrArg (fun r : Except String Response × World C.http =>
                (r.1.map fun resp => { resp with
                  headers := applyOps resp.headers (opsOf .response [rule]) }, r.2)) hinner

/-- **What a listener of header rules does.**  The request that is routed is the one that came, but
for its headers, which are for each name what the rules for requests leave in the order of the
declarations.  An error comes back as it is, and a response with the headers that the rules for
responses leave in the opposite order. -/
theorem serve_headerRules {out : Outside C.http} {decls : List (Decl C)}
    {b b' : ProxyBuilder C.http} {p : BuiltProxy C.http} (hb : b.layers = [])
    (h : emitDecls (layerOf L) 0 decls b = .ok b') (hp : b'.build out = .ok p)
    (connect : C.http.Authority) (req : Request C.http) (world : World C.http) :
    ∃ sent, (∀ name, HeaderMap.getAll sent name =
        written name (opsOf .request (passed L 0 decls req)) (HeaderMap.getAll req.headers name)) ∧
      match innermost out b'.routes ⟨(p.defaultTarget connect).authority,
          (p.defaultTarget connect).scheme, b'.requestTimeout⟩
          { req with headers := sent } world with
      | (.error e, world') => p.serve out connect req world = (.error e, world')
      | (.ok resp, world') => ∃ back,
          p.serve out connect req world = (.ok { resp with headers := back }, world') ∧
          ∀ name, HeaderMap.getAll back name =
            written name (opsOf .response (passed L 0 decls req)).reverse
              (HeaderMap.getAll resp.headers name) := by
  have hserve := congrFun (congrFun (serve_emitDecls (fun j d layer hl => ruleLayers_of_ok hl) hb h
    hp connect) req) world
  rw [foldr_emitLayers] at hserve
  refine ⟨_, fun name => getAll_applyOps req.headers _ name, ?_⟩
  simp only [around] at hserve
  split
  · rename_i e world' hinner
    rw [hserve, hinner]
    rfl
  · rename_i resp world' hinner
    rw [hinner] at hserve
    exact ⟨_, hserve, fun name => getAll_applyOps resp.headers _ name⟩

/-- The hypotheses of `serve_headerRules` are met by a global rule and a listener's rule that set
one header for responses, and the response has the value of the global one. -/
theorem serve_headerRules_global : ∃ decls cache b p resp world,
    walkListenerBody [.leaf (.setResponseHeader "server" "global")]
        [.leaf (.setResponseHeader "server" "own")] none .empty =
      .ok ((decls : List (Decl .plain)), cache) ∧
    emitDecls (layerOf .plain) 0 decls ⟨true, none, [], [], none⟩ = .ok b ∧
    b.build plainOutside = .ok p ∧
    p.serve plainOutside "a" (plainRequest "GET" (.ofPath none "/")) plainWorld =
      (.ok resp, world) ∧
    HeaderMap.getAll resp.headers "server" = [utf8 "global"] := by
  obtain ⟨decls, cache, b, p, resp, world, hwalk, hrules, hemit, hbuild, hok⟩ :
      ∃ decls cache b p resp world,
        walkListenerBody [.leaf (.setResponseHeader "server" "global")]
            [.leaf (.setResponseHeader "server" "own")] none .empty =
          .ok ((decls : List (Decl .plain)), cache) ∧
        passed .plain 0 decls (plainRequest "GET" (.ofPath none "/")) =
          [(.response, .set "server" (utf8 "global")), (.response, .set "server" (utf8 "own"))] ∧
        emitDecls (layerOf .plain) 0 decls ⟨true, none, [], [], none⟩ = .ok b ∧
        b.build plainOutside = .ok p ∧
        p.serve plainOutside "a" (plainRequest "GET" (.ofPath none "/")) plainWorld =
          (.ok resp, world) :=
    ⟨_, _, _, _, _, _, rfl, by decide, rfl, rfl, rfl⟩
  obtain ⟨sent, -, hserve⟩ := serve_headerRules rfl hemit hbuild "a"
    (plainRequest "GET" (.ofPath none "/")) plainWorld
  rw [hrules] at hserve
  refine ⟨decls, cache, b, p, resp, world, hwalk, hemit, hbuild, hok, ?_⟩
  split at hserve
  · cases hok.symm.trans hserve
  · obtain ⟨back, hresp, hback⟩ := hserve
    cases hok.symm.trans hresp
    rw [hback]
    exact written_concat_replace [.set "server" (utf8 "own")] rfl rfl

end ModifyHeaders
end Noxy

/-
# Building a proxy

`src/lib.rs`: `ProxyBuilder::route`, `ProxyBuilder::route_prefix`,
`ProxyBuilder::reverse_proxy`, `ProxyBuilder::build` and
`Proxy::build_service_chain`.

`build` puts the routes into one `Router`, as the last and so innermost layer, and
`build_service_chain` wraps the layers around a `ForwardService` for the default
target: the upstream of `reverse_proxy`, or the authority of the `CONNECT` in
forward mode.  The chain is the user's layers around an innermost service
(`buildServiceChain_build`), and the innermost service is where routing happens.

The router is built without a default upstream, so a request that no route takes
never reaches the `ForwardService`, with its default target, below it
(`unrouted_is_answered_502`).  `routed_iff` says exactly when a request is
forwarded where the routes say, or to the default target if none of them matches.
-/

import Noxy.Proxy.Router

namespace Noxy
namespace Proxy

open Http

/-- `LayerFn`. -/
abbrev LayerFn (H : HttpCrate) := HttpService H → HttpService H

/-- `ProxyBuilder`: the fields that decide how requests are served.  `ca` is whether
a certificate authority is set. -/
structure ProxyBuilder (H : HttpCrate) where
  ca : Bool
  upstreamTarget : Option (UpstreamTarget H)
  routes : List (Route H)
  layers : List (LayerFn H)
  requestTimeout : Option ℕ

/-- `ProxyMode`. -/
inductive ProxyMode (H : HttpCrate) where
  | reverse (upstream : UpstreamTarget H)
  | forward

/-- `Proxy`. -/
structure BuiltProxy (H : HttpCrate) where
  mode : ProxyMode H
  layers : List (LayerFn H)
  requestTimeout : Option ℕ

variable {H : HttpCrate}

namespace ProxyBuilder

/-- `Proxy::builder`. -/
def new : ProxyBuilder H := ⟨false, none, [], [], none⟩

/-- `ProxyBuilder::reverse_proxy`. -/
def reverseProxy (b : ProxyBuilder H) (url : String) : Except String (ProxyBuilder H) :=
  match H.parse url with
  | .error e => .error s!"invalid upstream URL: {e}"
  | .ok uri =>
      let scheme := (H.scheme uri).getD H.HTTP
      match H.authority uri with
      | none => .error "upstream URL must contain a host"
      | some authority => .ok { b with upstreamTarget := some ⟨authority, scheme⟩ }

/-- `ProxyBuilder::route`. -/
def route (b : ProxyBuilder H) (predicate : Request H → Bool) (upstream : Upstream H) :
    ProxyBuilder H :=
  { b with routes := b.routes ++ [(predicate, upstream)] }

/-- `ProxyBuilder::route_prefix_balanced`, of which `route_prefix` is the case of one
URL; the counter of the new upstream is in the cell `counter`. -/
def routePrefixBalanced (b : ProxyBuilder H) (start : String) (urls : List String)
    (counter : ℕ) : Except String (ProxyBuilder H) :=
  match Upstream.new urls counter with
  | .error e => .error e
  | .ok upstream =>
      .ok (b.route (fun req => start.toList.isPrefixOf (H.path req.uri).toList) upstream)

/-- `ProxyBuilder::build`. -/
def build (out : Outside H) (b : ProxyBuilder H) : Except String (BuiltProxy H) :=
  let mode : Except String (ProxyMode H) :=
    match b.upstreamTarget with
    | some upstream => .ok (.reverse upstream)
    | none => if b.ca then .ok .forward else .error "CertificateAuthority must be set"
  match mode with
  | .error e => .error e
  | .ok mode =>
      let layers :=
        if b.routes ≠ [] then
          let router := b.routes.foldl (fun r route => r.route route.1 route.2) Router.new
          b.layers ++ [router.layer out]
        else b.layers
      .ok ⟨mode, layers, b.requestTimeout⟩

end ProxyBuilder

namespace BuiltProxy

/-- `Proxy::build_service_chain`. -/
def buildServiceChain (out : Outside H) (p : BuiltProxy H) (authority : H.Authority)
    (scheme : H.Scheme) : HttpService H :=
  let forward : ForwardService H := ⟨authority, scheme, p.requestTimeout⟩
  p.layers.reverse.foldl (fun service layer => layer service) (forward.call out)

/-- The default target of a connection: the upstream of `reverse_proxy`, or the
`CONNECT` authority with `https`. -/
def defaultTarget (p : BuiltProxy H) (connect : H.Authority) : UpstreamTarget H :=
  match p.mode with
  | .reverse upstream => upstream
  | .forward => ⟨connect, H.HTTPS⟩

/-- The service of a connection. -/
def serve (out : Outside H) (p : BuiltProxy H) (connect : H.Authority) : HttpService H :=
  p.buildServiceChain out (p.defaultTarget connect).authority (p.defaultTarget connect).scheme

end BuiltProxy

/-- The router that `build` makes holds the routes in order. -/
theorem foldl_route (r : Router H) (routes : List (Route H)) :
    routes.foldl (fun r route => r.route route.1 route.2) r =
      { r with routes := r.routes ++ routes } := by
  induction routes generalizing r with
  | nil => rw [List.foldl_nil, List.append_nil]
  | cons route routes ih =>
      rw [List.foldl_cons, ih, Router.route, List.append_assoc, List.singleton_append]

/-- The innermost service: the router, if there are routes, around the forward
service. -/
def innermost (out : Outside H) (routes : List (Route H)) (fwd : ForwardService H) :
    HttpService H :=
  if routes ≠ [] then Router.layer out ⟨routes, none⟩ (fwd.call out) else fwd.call out

/-- **The service chain is the user's layers around the innermost service.** -/
theorem serve_build {out : Outside H} {b : ProxyBuilder H} {p : BuiltProxy H}
    (h : b.build out = .ok p) (connect : H.Authority) :
    p.serve out connect =
      b.layers.foldr (fun layer service => layer service)
        (innermost out b.routes ⟨(p.defaultTarget connect).authority,
          (p.defaultTarget connect).scheme, b.requestTimeout⟩) := by
  unfold ProxyBuilder.build at h
  dsimp only at h
  split at h
  · cases h
  · cases h
    simp only [BuiltProxy.serve, BuiltProxy.buildServiceChain, List.foldl_reverse, innermost]
    split
    · rw [List.foldr_append, foldl_route]
      rfl
    · rfl

/-- What the routes and the default say about a request. -/
def routeTarget (out : Outside H) (routes : List (Route H)) (default : UpstreamTarget H)
    (req : Request H) (world : World H) : UpstreamTarget H :=
  match Router.firstMatch routes req with
  | some upstream => (upstream.toTarget out world).1
  | none => default

/-- A request that a route takes is forwarded to the backend its upstream picks. -/
theorem innermost_of_match {out : Outside H} {routes : List (Route H)} {fwd : ForwardService H}
    {req : Request H} {upstream : Upstream H}
    (h : Router.firstMatch routes req = some upstream) (world : World H) :
    innermost out routes fwd req world =
      fwd.call out { req with upstreamTarget := some (upstream.toTarget out world).1 }
        (upstream.toTarget out world).2 := by
  have hne : routes ≠ [] := by
    rintro rfl
    cases h
  simp only [innermost, if_pos hne, Router.layer, h, Option.some_or]

/-- A request that no route takes is answered with 502, unless there are no
routes. -/
theorem innermost_of_no_match {out : Outside H} {routes : List (Route H)}
    {fwd : ForwardService H} {req : Request H} (h : Router.firstMatch routes req = none)
    (hne : routes ≠ []) (world : World H) :
    innermost out routes fwd req world = (.ok Router.noUpstream, world) := by
  simp only [innermost, if_pos hne, Router.layer, h, Option.none_or]

/-- A route takes a request exactly if one of the predicates holds. -/
theorem firstMatch_eq_none_iff {routes : List (Route H)} {req : Request H} :
    Router.firstMatch routes req = none ↔ ¬ ∃ r ∈ routes, r.1 req = true := by
  rw [Router.firstMatch, Option.map_eq_none_iff, List.find?_eq_none]
  exact ⟨fun h ⟨r, hr, hp⟩ => h r hr hp, fun h r hr hp => h ⟨r, hr, hp⟩⟩

/-- A forward service sends to the default exactly if the request's URI has a path
and the request is not marked with another target. -/
theorem forwardedTo_default_iff (hH : H.Lawful) (out : Outside H) (fwd : ForwardService H)
    (req : Request H) (world : World H) :
    ForwardService.ForwardedTo ⟨fwd.authority, fwd.scheme⟩ world (fwd.call out req world).2 ↔
      H.pathAndQuery req.uri ≠ none ∧ fwd.target req = ⟨fwd.authority, fwd.scheme⟩ := by
  have hsent : (fwd.call out req world).2.sent = world.sent ++ [fwd.outgoing req] := rfl
  have htarget := fwd.rewriteUri_target_iff hH req
  rw [ForwardService.forwardedTo_iff hsent, ForwardService.outgoing_uri]
  constructor
  · rintro ⟨hs, ha⟩
    have hp : H.pathAndQuery req.uri ≠ none := by
      intro hp
      have hu : fwd.rewriteUri req = req := by
        rw [ForwardService.rewriteUri, hp, hH.fromParts_no_path]
      rw [hu, hH.scheme_of_no_path _ hp] at hs
      cases hs
    obtain ⟨hs', ha'⟩ := htarget.mpr hp
    rw [hs, Option.some.injEq] at hs'
    rw [ha, Option.some.injEq] at ha'
    exact ⟨hp, UpstreamTarget.ext ha'.symm hs'.symm⟩
  · rintro ⟨hp, ht⟩
    rw [ht] at htarget
    exact htarget.mpr hp

/-- **Routing.**  The service of a connection is the user's layers around an
innermost service, and that forwards a request to the backend picked by the first
route whose predicate holds, or to the default target if there is none, exactly if
the request's URI has a path and either a predicate holds, or there are no routes
at all and no layer has marked the request with another target. -/
theorem routed_iff (hH : H.Lawful) {out : Outside H} {b : ProxyBuilder H} {p : BuiltProxy H}
    (hb : b.build out = .ok p) (connect : H.Authority) :
    ∃ inner : HttpService H,
      p.serve out connect = b.layers.foldr (fun layer service => layer service) inner ∧
      ∀ req world,
        ForwardService.ForwardedTo (routeTarget out b.routes (p.defaultTarget connect) req world)
            world (inner req world).2 ↔
          H.pathAndQuery req.uri ≠ none ∧
            ((∃ r ∈ b.routes, r.1 req = true) ∨
              (b.routes = [] ∧
                req.upstreamTarget.getD (p.defaultTarget connect) = p.defaultTarget connect)) := by
  refine ⟨_, serve_build hb connect, fun req world => ?_⟩
  set fwd : ForwardService H :=
    ⟨(p.defaultTarget connect).authority, (p.defaultTarget connect).scheme, b.requestTimeout⟩
  cases hm : Router.firstMatch b.routes req with
  | some upstream =>
      have hex : ∃ r ∈ b.routes, r.1 req = true := by
        by_contra hno
        rw [firstMatch_eq_none_iff.mpr hno] at hm
        cases hm
      have hsent := upstream.toTarget_sent out world
      rw [innermost_of_match hm, routeTarget, hm]
      have hfwd := fwd.forwardedTo_call_iff hH out
        { req with upstreamTarget := some (upstream.toTarget out world).1 }
        (upstream.toTarget out world).2
      rw [ForwardService.ForwardedTo, hsent] at hfwd
      exact hfwd.trans (by simp [hex])
  | none =>
      have hno := firstMatch_eq_none_iff.mp hm
      rw [routeTarget, hm]
      by_cases hne : b.routes = []
      · have hinner : innermost out b.routes fwd = fwd.call out := by
          rw [innermost, if_neg (not_not.mpr hne)]
        rw [hinner]
        refine (forwardedTo_default_iff hH out fwd req world).trans (and_congr_right fun _ => ?_)
        constructor
        · exact fun ht => Or.inr ⟨hne, ht⟩
        · rintro (hex | ⟨_, ht⟩)
          · exact absurd hex hno
          · exact ht
      · rw [innermost_of_no_match hm hne]
        refine iff_of_false ?_ fun h => ?_
        · rintro ⟨sent, hsent, _⟩
          simp at hsent
        · rcases h.2 with hex | ⟨hnil, _⟩
          · exact hno hex
          · exact hne hnil

/-- A reverse proxy for `http://localhost:3000` that sends `/api` to `api:8080`. -/
def apiBuilder : ProxyBuilder .plain :=
  { ca := false
    upstreamTarget := some ⟨"localhost:3000", "http"⟩
    routes := [(fun req => HttpCrate.plain.path req.uri == "/api",
      ⟨[⟨"api:8080", "http"⟩], by decide, .roundRobin, 0⟩)]
    layers := []
    requestTimeout := none }

/-- A `GET` of a path. -/
def getPath (path : String) : Request .plain :=
  plainRequest "GET" (.ofPath none path)

/-- The hypotheses of `routed_iff` are met by `HttpCrate.plain` and a proxy with one
route: `GET /api` goes to `api:8080`. -/
theorem routed_api : ∃ p : BuiltProxy .plain, apiBuilder.build plainOutside = .ok p ∧
    ForwardService.ForwardedTo ⟨"api:8080", "http"⟩ plainWorld
      (p.serve plainOutside "" (getPath "/api") plainWorld).2 := by
  obtain ⟨p, hp⟩ : ∃ p, apiBuilder.build plainOutside = .ok p := ⟨_, rfl⟩
  obtain ⟨inner, hserve, hinner⟩ := routed_iff HttpCrate.plain_lawful hp ""
  refine ⟨p, hp, ?_⟩
  rw [hserve]
  refine (hinner (getPath "/api") plainWorld).mpr ⟨Option.some_ne_none "/api", Or.inl ?_⟩
  exact ⟨_, List.mem_cons_self .., rfl⟩

/-- **A request that no route takes is not forwarded.**  The proxy has a default
upstream, but answers `GET /other` itself, with 502. -/
theorem unrouted_is_answered_502 : ∃ p : BuiltProxy .plain,
    apiBuilder.build plainOutside = .ok p ∧
      (p.serve plainOutside "" (getPath "/other") plainWorld).1 = .ok Router.noUpstream ∧
      (p.serve plainOutside "" (getPath "/other") plainWorld).2.sent = [] :=
  ⟨_, rfl, rfl, rfl⟩

end Proxy
end Noxy

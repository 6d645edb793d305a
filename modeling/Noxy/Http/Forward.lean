/-
# Forwarding to the upstream

`src/http.rs`: `ForwardService`, the innermost service of every proxy.  It
decides the upstream target of a request, writes it into the request's URI,
strips the hop-by-hop headers, hands the request to the pooled client and bounds
the time until the response headers.

The client is a parameter: what it answers to the `n`th request it is handed,
and after how long, is arbitrary (`Outside.client`).  A service acts on a `World`
that logs the requests the client was handed, so that what a service forwards,
and where to, is what it adds to the log.

The URI is rewritten only if `Uri::from_parts` accepts the new parts, and it does
not when the request's URI has no path.  So a request reaches its upstream target
exactly if its URI has one (`forwarded_to_target_iff`); an authority-form request
target, which any client may send, is handed to the client as it came
(`connect_dials_client_choice`).
-/

import Noxy.Http.Message

namespace Noxy
namespace Http

/-- What the pooled client gives for a request: the response, or an error, and
the time until then. -/
structure ClientReply where
  after : ℕ
  result : Except String Response

/-- What the services meet outside the code: the client, by the number of
requests it was handed before, and the random numbers, by the number drawn
before. -/
structure Outside (H : HttpCrate) where
  client : ℕ → Request H → ClientReply
  random : ℕ → ℕ

/-- What the services act on: the requests handed to the client, the shared
counters, and the number of random numbers drawn. -/
structure World (H : HttpCrate) where
  sent : List (Request H)
  counters : ℕ → ℕ
  drawn : ℕ

/-- `HttpService`. -/
abbrev HttpService (H : HttpCrate) := Request H → World H → Except String Response × World H

/-- `ForwardService`, its client apart. -/
structure ForwardService (H : HttpCrate) where
  authority : H.Authority
  scheme : H.Scheme
  requestTimeout : Option ℕ

/-- `gateway_timeout`. -/
def gatewayTimeout : Response := ⟨504, [], emptyBody⟩

namespace ForwardService

variable {H : HttpCrate} (fwd : ForwardService H)

/-- The target of a request: its extension, or the service's own. -/
def target (req : Request H) : UpstreamTarget H :=
  req.upstreamTarget.getD ⟨fwd.authority, fwd.scheme⟩

/-- The request with its URI rewritten, if `Uri::from_parts` accepts the parts. -/
def rewriteUri (req : Request H) : Request H :=
  match H.fromParts (some (fwd.target req).scheme) (some (fwd.target req).authority)
      (H.pathAndQuery req.uri) with
  | some uri => { req with uri := uri }
  | none => req

/-- The request that is handed to the client. -/
def outgoing (req : Request H) : Request H :=
  let req := fwd.rewriteUri req
  if requestsUpgrade H req.headers then req
  else { req with headers := stripHopByHop H req.headers }

/-- What is made of the client's response. -/
def incoming (resp : Response) : Response :=
  if resp.status = 101 then resp
  else { resp with headers := stripHopByHop H resp.headers }

/-- What is answered when the client's reply comes after `reply.after`. -/
def answer (reply : ClientReply) : Except String Response :=
  match fwd.requestTimeout with
  | some timeout =>
      if timeout < reply.after then .ok gatewayTimeout
      else reply.result.map (incoming (H := H))
  | none => reply.result.map (incoming (H := H))

/-- `ForwardService::call`. -/
def call (out : Outside H) : HttpService H := fun req world =>
  let req := fwd.outgoing req
  (fwd.answer (out.client world.sent.length req), { world with sent := world.sent ++ [req] })

theorem outgoing_uri (req : Request H) : (fwd.outgoing req).uri = (fwd.rewriteUri req).uri := by
  unfold outgoing
  dsimp only
  split <;> rfl

/-- **Where a request is forwarded to.**  The URI that the client is handed has
the scheme and the authority of the request's target exactly if the request's
own URI has a path. -/
theorem rewriteUri_target_iff (hH : H.Lawful) (req : Request H) :
    (H.scheme (fwd.rewriteUri req).uri = some (fwd.target req).scheme ∧
        H.authority (fwd.rewriteUri req).uri = some (fwd.target req).authority) ↔
      H.pathAndQuery req.uri ≠ none := by
  unfold rewriteUri
  cases hp : H.pathAndQuery req.uri with
  | none =>
      rw [hH.fromParts_no_path]
      refine iff_of_false ?_ (fun h => h rfl)
      rintro ⟨hs, _⟩
      rw [hH.scheme_of_no_path _ hp] at hs
      cases hs
  | some p =>
      obtain ⟨u, hu, hs, ha, _⟩ :=
        hH.fromParts_full (fwd.target req).scheme (fwd.target req).authority p
      rw [hu]
      exact iff_of_true ⟨hs, ha⟩ (fun h => by cases h)

/-- The request is handed to the client with the scheme and the authority of `t`. -/
def ForwardedTo (t : UpstreamTarget H) (before after : World H) : Prop :=
  ∃ req, after.sent = before.sent ++ [req] ∧
    H.scheme req.uri = some t.scheme ∧ H.authority req.uri = some t.authority

/-- A service that hands one request to the client forwards it where its URI
says. -/
theorem forwardedTo_iff {t : UpstreamTarget H} {before after : World H} {req : Request H}
    (h : after.sent = before.sent ++ [req]) :
    ForwardedTo t before after ↔
      H.scheme req.uri = some t.scheme ∧ H.authority req.uri = some t.authority := by
  constructor
  · rintro ⟨req', h', huri⟩
    rw [h, List.append_cancel_left_eq, List.cons.injEq] at h'
    rwa [h'.1]
  · exact fun huri => ⟨req, h, huri⟩

/-- What `ForwardService::call` forwards. -/
theorem forwardedTo_call_iff (hH : H.Lawful) (out : Outside H) (req : Request H)
    (world : World H) :
    ForwardedTo (fwd.target req) world (fwd.call out req world).2 ↔
      H.pathAndQuery req.uri ≠ none := by
  have hsent : (fwd.call out req world).2.sent = world.sent ++ [fwd.outgoing req] := rfl
  rw [forwardedTo_iff hsent, outgoing_uri]
  exact fwd.rewriteUri_target_iff hH req

/-- **Upstream target integrity.**  `ForwardService::call` hands every request to
the client, and with exactly the scheme and the authority of the request's
`UpstreamTarget` extension, or of the service if it has none, exactly if the
request's URI has a path. -/
theorem forwarded_to_target_iff (hH : H.Lawful) (out : Outside H) (req : Request H)
    (world : World H) :
    ForwardedTo (req.upstreamTarget.getD ⟨fwd.authority, fwd.scheme⟩) world
        (fwd.call out req world).2 ↔
      H.pathAndQuery req.uri ≠ none :=
  fwd.forwardedTo_call_iff hH out req world

end ForwardService

/-- A reverse proxy for `http://localhost:3000`. -/
def localhostForward : ForwardService .plain := ⟨"localhost:3000", "http", none⟩

/-- A request without headers, body and extensions. -/
def plainRequest (method : String) (uri : PlainUri) : Request .plain :=
  ⟨method, uri, "HTTP/1.1", [], none, [], emptyBody⟩

/-- A client that answers 200 at once, and random numbers that are all zero. -/
def plainOutside : Outside .plain := ⟨fun _ _ => ⟨0, .ok ⟨200, [], emptyBody⟩⟩, fun _ => 0⟩

/-- Nothing sent yet. -/
def plainWorld : World .plain := ⟨[], fun _ => 0, 0⟩

/-- The hypothesis of `forwarded_to_target_iff` is met by `HttpCrate.plain`: an
origin-form `GET /` goes to the upstream. -/
theorem forwarded_to_target_get :
    ForwardService.ForwardedTo ⟨"localhost:3000", "http"⟩ plainWorld
      (localhostForward.call plainOutside
        (plainRequest "GET" (.ofPath none "/")) plainWorld).2 :=
  (localhostForward.forwarded_to_target_iff HttpCrate.plain_lawful plainOutside
    (plainRequest "GET" (.ofPath none "/")) plainWorld).mpr
    (fun h => nomatch h)

/-- **A client can choose the host that is dialled.**  `CONNECT
evil.example:443`, sent to a reverse proxy for `http://localhost:3000`, is handed
to the client with the authority `evil.example:443`. -/
theorem connect_dials_client_choice :
    HttpCrate.plain.Lawful ∧
      ((localhostForward.call plainOutside
        (plainRequest "CONNECT" ⟨none, some "evil.example:443", none, fun _ => rfl⟩)
        plainWorld).2.sent.map fun req => HttpCrate.plain.authority req.uri) =
          [some "evil.example:443"] :=
  ⟨HttpCrate.plain_lawful, rfl⟩

end Http
end Noxy

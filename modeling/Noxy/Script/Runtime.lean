/-
# Scripts

`src/middleware/script.rs` and `src/middleware/script_runtime.js`: `ScriptService`, the ops
of the runtime, the classes `Request` and `Response`, and `__noxy_handle`.

A handler is the tree of the calls it makes (`Handler`): each call of the script API goes on
with what the call gave, an error included, which a script may catch.  `run` is the handler
and `ScriptService::call` together.  They share the body of the request, which can be taken
once: `req.body()` takes it to collect it, and `respond` takes it to forward it, unless the
script gives another body, and forwards an empty one if it is gone.

`forwarded_run` says what a handler forwards, from the first time it calls `respond`.  So a
`respond` without a replacement forwards the data of the request exactly if the script has
not read the body before, or there is no data (`body_kept_iff`).  The script of `README.md`
that reads the body and then responds forwards none of it (`read_then_respond_loses_body`).
-/

import Noxy.Http.Body
import Noxy.Http.Forward
import Noxy.Lib.Fallible
import Noxy.Script.Headers

namespace Noxy
namespace Script

open Http Lib

/-! ### The script's side -/

/-- The class `Request`, the body apart. -/
structure JsRequest where
  method : String
  url : String
  headers : Headers

/-- What a handler returns: the response that `respond` gave it, perhaps with another status
and other headers, or one of its own. -/
inductive JsResponse where
  | upstream (status : ℕ) (headers : Headers)
  | custom (status : ℕ) (headers : Headers) (body : List UInt8)

/-- A handler: the calls it makes, one after the other. -/
inductive Handler where
  /-- The end: a response. -/
  | done (res : JsResponse)
  /-- The end: an exception. -/
  | throw (err : String)
  /-- `await req.body()`. -/
  | reqBody (next : Except String (List UInt8) → Handler)
  /-- `await res.body()`, of the response that `respond` gave. -/
  | resBody (next : Except String (List UInt8) → Handler)
  /-- `await respond(req, newBody)`. -/
  | respond (req : JsRequest) (newBody : Option (List UInt8))
      (next : Except String (ℕ × Headers) → Handler)

/-- `ScriptResult`, as `op_noxy_finish` is given it. -/
structure ScriptResult where
  status : ℕ
  headers : List (String × String)
  body : Option (List UInt8)
  passthrough : Bool

/-! ### The Rust side -/

/-- The loop of `collect_limited`, from the data collected so far. -/
def collectFrames (maxBytes : ℕ) (ending : Ending) :
    List UInt8 → List Frame → Except String (List UInt8)
  | out, [] =>
      match ending with
      | .eof => .ok out
      | .error e => .error e
  | out, .data bytes :: frames =>
      if maxBytes < out.length + bytes.length then
        .error s!"Body exceeds script max_body_bytes limit ({maxBytes} bytes)"
      else collectFrames maxBytes ending (out ++ bytes) frames
  | out, .trailers _ :: frames => collectFrames maxBytes ending out frames

/-- `collect_limited`. -/
def collectLimited (body : Body) (maxBytes : ℕ) : Except String (List UInt8) :=
  collectFrames maxBytes body.ending [] body.frames

/-- `RequestMeta`. -/
structure RequestMeta where
  method : String
  url : String
  headers : List (String × String)

section Service

variable (T : TextCrate)

/-- `RequestMeta::into_request`: a builder's version, and no extension. -/
def RequestMeta.intoRequest (m : RequestMeta) (body : Body) :
    Except String (Request T.toHttpCrate) := do
  let method ← T.method m.method
  let uri ← T.parse m.url
  let headers ← appendHeaders T [] m.headers
  return ⟨method, uri, "HTTP/1.1", headers, none, [], body⟩

/-- The `meta` of a request. -/
def requestMeta (req : Request T.toHttpCrate) : RequestMeta :=
  ⟨req.method, T.uriText req.uri, headerPairs T req.headers⟩

/-- One request at a script: the flags of the JavaScript side, the bodies that can be taken
once, and the requests that the inner service was called with. -/
structure Exchange where
  body : Option Body
  bodyConsumed : Bool
  responded : Bool
  responseBody : Option Body
  resConsumed : Bool
  world : World T.toHttpCrate
  forwarded : List (Request T.toHttpCrate)

/-- `ScriptService`, with the handler of its isolate. -/
structure ScriptService where
  inner : HttpService T.toHttpCrate
  handler : JsRequest → Handler
  maxBodyBytes : ℕ

variable {T}

/-- **What a request is built from.** -/
theorem intoRequest_ok_iff {m : RequestMeta} {body : Body} {req : Request T.toHttpCrate} :
    m.intoRequest T body = .ok req ↔
      T.method m.method = .ok req.method ∧ T.parse m.url = .ok req.uri ∧
        appendHeaders T [] m.headers = .ok req.headers ∧
        req = ⟨req.method, req.uri, "HTTP/1.1", req.headers, none, [], body⟩ := by
  constructor
  · intro h
    obtain ⟨method, hmethod, h⟩ := doBind_eq_ok_iff.mp h
    obtain ⟨uri, huri, h⟩ := doBind_eq_ok_iff.mp h
    obtain ⟨headers, hheaders, h⟩ := doBind_eq_ok_iff.mp h
    cases h
    exact ⟨hmethod, huri, hheaders, rfl⟩
  · rintro ⟨hmethod, huri, hheaders, hreq⟩
    unfold RequestMeta.intoRequest
    rw [hmethod, huri, hheaders, hreq]
    rfl

namespace Exchange

/-- The exchange at the start. -/
def new (body : Body) (world : World T.toHttpCrate) : Exchange T :=
  ⟨some body, false, false, none, false, world, []⟩

/-- A body that was taken, collected; nothing if it was gone. -/
def collected (maxBytes : ℕ) : Option Body → Except String (List UInt8)
  | some body => collectLimited body maxBytes
  | none => .ok []

/-- `Request.body` and `op_noxy_req_body`. -/
def reqBody (maxBytes : ℕ) (x : Exchange T) : Except String (List UInt8) × Exchange T :=
  if x.bodyConsumed then (.error "Body already consumed", x)
  else (collected maxBytes x.body, { x with bodyConsumed := true, body := none })

/-- `Response.body` and `op_noxy_res_body`. -/
def resBody (maxBytes : ℕ) (x : Exchange T) : Except String (List UInt8) × Exchange T :=
  if x.resConsumed then (.error "Body already consumed", x)
  else (collected maxBytes x.responseBody, { x with resConsumed := true, responseBody := none })

/-- The body that a `respond` forwards. -/
def respondBody (x : Exchange T) : Option (List UInt8) → Body
  | some bytes => fullBody bytes
  | none => x.body.getD emptyBody

/-- The exchange after that body was taken. -/
def takeBody (x : Exchange T) : Option (List UInt8) → Exchange T
  | some _ => x
  | none => { x with body := none }

/-- What `ScriptService::call` does with a `RespondCommand`. -/
def command (inner : HttpService T.toHttpCrate) (m : RequestMeta) (newBody : Option (List UInt8))
    (x : Exchange T) : Except String (ℕ × List (String × String)) × Exchange T :=
  let y := x.takeBody newBody
  match m.intoRequest T (x.respondBody newBody) with
  | .error e => (.error e, y)
  | .ok req =>
      let (result, world) := inner req y.world
      let y := { y with world := world, forwarded := y.forwarded ++ [req] }
      match result with
      | .error e => (.error e, y)
      | .ok resp =>
          (.ok (resp.status, headerPairs T resp.headers), { y with responseBody := some resp.body })

/-- `respond` of `__noxy_handle` and `op_noxy_respond`. -/
def respond (inner : HttpService T.toHttpCrate) (req : JsRequest) (newBody : Option (List UInt8))
    (x : Exchange T) : Except String (ℕ × Headers) × Exchange T :=
  if x.responded then (.error "respond() already called", x)
  else
    let (reply, y) := command inner ⟨req.method, req.url, req.headers.entries⟩ newBody
      { x with responded := true }
    (reply.map fun res => (res.1, Headers.new res.2), y)

/-- The end of `__noxy_handle`. -/
def finish (x : Exchange T) : JsResponse → ScriptResult
  | .upstream status headers =>
      if x.resConsumed then ⟨status, headers.entries, some [], false⟩
      else ⟨status, headers.entries, none, true⟩
  | .custom status headers body => ⟨status, headers.entries, some body, false⟩

/-- The response that `handle_request` builds. -/
def response (x : Exchange T) (result : ScriptResult) : Except String Response :=
  if result.status < 100 ∨ 1000 ≤ result.status then .error "invalid status code"
  else do
    let headers ← appendHeaders T [] result.headers
    return ⟨result.status, headers,
      if result.passthrough then x.responseBody.getD emptyBody
      else fullBody (result.body.getD [])⟩

end Exchange

namespace ScriptService

variable (svc : ScriptService T)

/-- The handler, call by call. -/
def run : Handler → Exchange T → Except String ScriptResult × Exchange T
  | .done res, x => (.ok (x.finish res), x)
  | .throw err, x => (.error err, x)
  | .reqBody next, x =>
      run (next (x.reqBody svc.maxBodyBytes).1) (x.reqBody svc.maxBodyBytes).2
  | .resBody next, x =>
      run (next (x.resBody svc.maxBodyBytes).1) (x.resBody svc.maxBodyBytes).2
  | .respond req newBody next, x =>
      run (next (x.respond svc.inner req newBody).1) (x.respond svc.inner req newBody).2

/-- The `Request` that the handler is called with. -/
def jsRequest (req : Request T.toHttpCrate) : JsRequest :=
  ⟨(requestMeta T req).method, (requestMeta T req).url, .new (requestMeta T req).headers⟩

/-- One request at the script: the response, and the exchange at the end. -/
def exchange (req : Request T.toHttpCrate) (world : World T.toHttpCrate) :
    Except String Response × Exchange T :=
  let (result, x) := svc.run (svc.handler (jsRequest req)) (.new req.body world)
  (result.bind x.response, x)

/-- `ScriptService::call`. -/
def call : HttpService T.toHttpCrate := fun req world =>
  ((svc.exchange req world).1, (svc.exchange req world).2.world)

end ScriptService

/-! ### What is forwarded -/

/-- The first call of `respond` that a handler makes, if `req.body()` gives `data`: whether
the body was read before, and the arguments. -/
def Handler.firstRespond (data : Except String (List UInt8)) :
    Bool → Bool → Handler → Option (Bool × JsRequest × Option (List UInt8))
  | _, _, .done _ => none
  | _, _, .throw _ => none
  | read, resRead, .reqBody next =>
      firstRespond data true resRead (next (if read then .error "Body already consumed" else data))
  | read, resRead, .resBody next =>
      firstRespond data read true
        (next (if resRead then .error "Body already consumed" else .ok []))
  | read, _, .respond req newBody _ => some (read, req, newBody)

/-- The handler before its first `respond`: its request's body is there unless it was read. -/
structure Exchange.Before (x : Exchange T) (body : Body) : Prop where
  responded : x.responded = false
  body : x.body = if x.bodyConsumed then none else some body
  responseBody : x.responseBody = none

namespace ScriptService

variable (svc : ScriptService T)

/-- **After a `respond` nothing more is forwarded.** -/
theorem forwarded_run_of_responded (h : Handler) :
    ∀ {x : Exchange T}, x.responded = true → (svc.run h x).2.forwarded = x.forwarded := by
  induction h with
  | done res => exact fun _ => rfl
  | throw err => exact fun _ => rfl
  | reqBody next ih =>
      intro x hx
      have hstep : (x.reqBody svc.maxBodyBytes).2.responded = true ∧
          (x.reqBody svc.maxBodyBytes).2.forwarded = x.forwarded := by
        unfold Exchange.reqBody
        split <;> exact ⟨hx, rfl⟩
      rw [run, ih _ hstep.1, hstep.2]
  | resBody next ih =>
      intro x hx
      have hstep : (x.resBody svc.maxBodyBytes).2.responded = true ∧
          (x.resBody svc.maxBodyBytes).2.forwarded = x.forwarded := by
        unfold Exchange.resBody
        split <;> exact ⟨hx, rfl⟩
      rw [run, ih _ hstep.1, hstep.2]
  | respond req newBody next ih =>
      intro x hx
      have hstep : x.respond svc.inner req newBody = (.error "respond() already called", x) := by
        rw [Exchange.respond, if_pos hx]
      rw [run, hstep, ih _ hx]

/-- The requests that one `respond` hands to the inner service. -/
def handed (req : JsRequest) (body : Body) : List (Request T.toHttpCrate) :=
  ((RequestMeta.intoRequest T ⟨req.method, req.url, req.headers.entries⟩ body).toOption).toList

/-- The first `respond` forwards its request, if one can be built, with its body. -/
theorem respond_first {x : Exchange T} (hx : x.responded = false) (req : JsRequest)
    (newBody : Option (List UInt8)) :
    (x.respond svc.inner req newBody).2.responded = true ∧
      (x.respond svc.inner req newBody).2.forwarded =
        x.forwarded ++ handed req (x.respondBody newBody) := by
  have hbody : Exchange.respondBody { x with responded := true } newBody =
      x.respondBody newBody := by cases newBody <;> rfl
  have htake : (Exchange.takeBody { x with responded := true } newBody).responded = true ∧
      (Exchange.takeBody { x with responded := true } newBody).forwarded = x.forwarded := by
    cases newBody <;> exact ⟨rfl, rfl⟩
  unfold Exchange.respond handed
  rw [if_neg (by simp [hx])]
  simp only [Exchange.command, hbody]
  cases RequestMeta.intoRequest T ⟨req.method, req.url, req.headers.entries⟩
      (x.respondBody newBody) with
  | error e => exact ⟨htake.1, htake.2.trans (List.append_nil _).symm⟩
  | ok sent =>
      dsimp only
      split <;> exact ⟨htake.1, congrArg (· ++ [sent]) htake.2⟩

/-- What a read of the request's body does before the first `respond`. -/
theorem reqBody_before {x : Exchange T} {body : Body} (hx : x.Before body) (maxBytes : ℕ) :
    (x.reqBody maxBytes).1 = (if x.bodyConsumed then .error "Body already consumed"
        else collectLimited body maxBytes) ∧
      (x.reqBody maxBytes).2 = { x with bodyConsumed := true, body := none } := by
  unfold Exchange.reqBody
  have hbody := hx.body
  cases hread : x.bodyConsumed with
  | true =>
      rw [hread, if_pos rfl] at hbody
      refine ⟨rfl, ?_⟩
      rw [if_pos rfl, ← hread, ← hbody]
  | false =>
      rw [hread, if_neg Bool.false_ne_true] at hbody
      refine ⟨?_, rfl⟩
      rw [if_neg Bool.false_ne_true, if_neg Bool.false_ne_true, hbody]
      rfl

/-- What a read of the response's body does before there is a response. -/
theorem resBody_before {x : Exchange T} {body : Body} (hx : x.Before body) (maxBytes : ℕ) :
    (x.resBody maxBytes).1 =
        (if x.resConsumed then .error "Body already consumed" else .ok []) ∧
      (x.resBody maxBytes).2 = { x with resConsumed := true } := by
  unfold Exchange.resBody
  have hnone := hx.responseBody
  cases hread : x.resConsumed with
  | true =>
      refine ⟨rfl, ?_⟩
      rw [if_pos rfl, ← hread]
  | false =>
      rw [if_neg Bool.false_ne_true, if_neg Bool.false_ne_true, hnone]
      exact ⟨rfl, by rw [← hnone]⟩

/-- **What a handler forwards**: what its first `respond` does, with the body of the request
if no other is given and it was not read before. -/
theorem forwarded_run {body : Body} {read : Bool} {req : JsRequest}
    {newBody : Option (List UInt8)} (h : Handler) :
    ∀ {x : Exchange T}, x.Before body →
      h.firstRespond (collectLimited body svc.maxBodyBytes) x.bodyConsumed x.resConsumed =
        some (read, req, newBody) →
      (svc.run h x).2.forwarded = x.forwarded ++
        handed req (newBody.elim (if read then emptyBody else body) fullBody) := by
  induction h with
  | done res =>
      intro x _ hfirst
      cases hfirst
  | throw err =>
      intro x _ hfirst
      cases hfirst
  | reqBody next ih =>
      intro x hx hfirst
      obtain ⟨hreply, hafter⟩ := reqBody_before hx svc.maxBodyBytes
      rw [run, hreply, hafter]
      exact ih _ ⟨hx.responded, rfl, hx.responseBody⟩ hfirst
  | resBody next ih =>
      intro x hx hfirst
      obtain ⟨hreply, hafter⟩ := resBody_before hx svc.maxBodyBytes
      rw [run, hreply, hafter]
      exact ih _ ⟨hx.responded, hx.body, hx.responseBody⟩ hfirst
  | respond req' newBody' next _ =>
      intro x hx hfirst
      simp only [Handler.firstRespond, Option.some.injEq, Prod.mk.injEq] at hfirst
      obtain ⟨hread, rfl, rfl⟩ := hfirst
      obtain ⟨hresponded, hforwarded⟩ := svc.respond_first hx.responded req' newBody'
      have hbody : x.respondBody newBody' =
          newBody'.elim (if read then emptyBody else body) fullBody := by
        cases newBody' with
        | some bytes => rfl
        | none =>
            show x.body.getD emptyBody = if read then emptyBody else body
            rw [hx.body, hread]
            cases read <;> rfl
      rw [run, svc.forwarded_run_of_responded _ hresponded, hforwarded, hbody]

/-- `forwarded_run`, of a whole exchange. -/
theorem forwarded_exchange (req : Request T.toHttpCrate) (world : World T.toHttpCrate)
    {read : Bool} {arg : JsRequest} {newBody : Option (List UInt8)}
    (hfirst : (svc.handler (jsRequest req)).firstRespond
      (collectLimited req.body svc.maxBodyBytes) false false = some (read, arg, newBody)) :
    (svc.exchange req world).2.forwarded =
      handed arg (newBody.elim (if read then emptyBody else req.body) fullBody) :=
  svc.forwarded_run (svc.handler (jsRequest req)) (x := .new req.body world) ⟨rfl, rfl, rfl⟩
    hfirst

theorem handed_eq_singleton_iff {req : JsRequest} {body : Body} {sent : Request T.toHttpCrate} :
    handed req body = [sent] ↔
      RequestMeta.intoRequest T ⟨req.method, req.url, req.headers.entries⟩ body = .ok sent := by
  unfold handed
  cases RequestMeta.intoRequest T ⟨req.method, req.url, req.headers.entries⟩ body with
  | error e => exact iff_of_false (fun h => nomatch h) (fun h => nomatch h)
  | ok req' => simp [Except.toOption]

/-- The method, the URL and the headers that `respond` is given are those of a request. -/
def Buildable (T : TextCrate) (arg : JsRequest) : Prop :=
  (∃ method, T.method arg.method = .ok method) ∧ (∃ uri, T.parse arg.url = .ok uri) ∧
    ∃ headers, appendHeaders T [] arg.headers.entries = .ok headers

/-- **A script that responds without a replacement forwards the data of the request** exactly
if what it gives `respond` is a request and it has not read the body before, or there is no
data. -/
theorem body_kept_iff (req : Request T.toHttpCrate) (world : World T.toHttpCrate) {read : Bool}
    {arg : JsRequest}
    (hfirst : (svc.handler (jsRequest req)).firstRespond
      (collectLimited req.body svc.maxBodyBytes) false false = some (read, arg, none)) :
    (∃ sent, (svc.exchange req world).2.forwarded = [sent] ∧ sent.body.data = req.body.data) ↔
      Buildable T arg ∧ (read = false ∨ req.body.data = []) := by
  have hdata : Body.data (if read then emptyBody else req.body) = req.body.data ↔
      read = false ∨ req.body.data = [] := by
    cases read with
    | false => exact iff_of_true rfl (Or.inl rfl)
    | true => exact ⟨fun h => Or.inr h.symm, fun h => (h.resolve_left Bool.noConfusion).symm⟩
  rw [svc.forwarded_exchange req world hfirst, Option.elim_none, ← hdata]
  simp only [handed_eq_singleton_iff, intoRequest_ok_iff]
  constructor
  · rintro ⟨sent, ⟨hmethod, huri, hheaders, hsent⟩, hbody⟩
    rw [hsent] at hbody
    exact ⟨⟨⟨_, hmethod⟩, ⟨_, huri⟩, ⟨_, hheaders⟩⟩, hbody⟩
  · rintro ⟨⟨⟨method, hmethod⟩, ⟨uri, huri⟩, ⟨headers, hheaders⟩⟩, hbody⟩
    exact ⟨⟨method, uri, "HTTP/1.1", headers, none, [], _⟩, ⟨hmethod, huri, hheaders, rfl⟩, hbody⟩

end ScriptService
end Service

/-- A script that only responds. -/
def respondOnly (req : JsRequest) : Handler :=
  .respond req none fun
    | .ok res => .done (.upstream res.1 res.2)
    | .error e => .throw e

/-- The script of `README.md` that reads the body of the request, responds, and returns the
body of the response. -/
def readThenRespond (req : JsRequest) : Handler :=
  .reqBody fun
    | .error e => .throw e
    | .ok _ => .respond req none fun
        | .error e => .throw e
        | .ok res => .resBody fun
            | .error e => .throw e
            | .ok body => .done (.custom res.1 res.2 body)

/-- An upload of two bytes. -/
def upload : Request TextCrate.ascii.toHttpCrate :=
  ⟨"POST", "/upload", "HTTP/1.1", [("host", utf8 "a")], none, [], fullBody (utf8 "hi")⟩

/-- A script in front of a service that answers 200. -/
def scripted (handler : JsRequest → Handler) : ScriptService TextCrate.ascii :=
  ⟨fun _ world => (.ok ⟨200, [], emptyBody⟩, world), handler, 1024 * 1024⟩

/-- The condition of `body_kept_iff` can be met: the script that only responds forwards the
two bytes. -/
theorem body_kept_respond_only :
    ∃ sent, ((scripted respondOnly).exchange upload ⟨[], fun _ => 0, 0⟩).2.forwarded = [sent] ∧
      sent.body.data = upload.body.data :=
  ((scripted respondOnly).body_kept_iff upload ⟨[], fun _ => 0, 0⟩ rfl).mpr
    ⟨⟨⟨_, rfl⟩, ⟨_, rfl⟩, ⟨_, rfl⟩⟩, Or.inl rfl⟩

/-- **The body of the request is lost if it is read first.**  The script of `README.md` gets
the two bytes, and the request that it then forwards has an empty body. -/
theorem read_then_respond_loses_body :
    collectLimited upload.body (scripted readThenRespond).maxBodyBytes = .ok (utf8 "hi") ∧
      (((scripted readThenRespond).exchange upload ⟨[], fun _ => 0, 0⟩).2.forwarded.map
        fun sent => sent.body.data) = [[]] :=
  ⟨rfl, rfl⟩

end Script
end Noxy

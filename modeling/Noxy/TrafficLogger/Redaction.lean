/-
# Redacted values and the log

`src/middleware/traffic_logger.rs`: `log_headers` and `TrafficLoggerService::call`.

Two exchanges are compared that differ in the values of headers which are finally redacted.
A redacted value is not in the line of its header, so all that the log has of it is that there
is one; `content-length` is read again for the last line, and is left out of the comparison.
`redacted_values_not_logged` says that the two logs are the same.
-/

import Noxy.TrafficLogger.Service

namespace Noxy
namespace TrafficLog

open Http Lib

/-! ### Messages that differ in hidden values -/

section Same

variable (hidden : String → Prop)

/-- The same header, with the same value unless it is hidden. -/
def SameLine (l l' : String × List UInt8) : Prop := l.1 = l'.1 ∧ (¬ hidden l.1 → l.2 = l'.2)

/-- The same lines, up to hidden values. -/
def SameHeaders (headers headers' : HeaderMap) : Prop :=
  List.Forall₂ (SameLine hidden) headers headers'

/-- The same frame, up to hidden values of trailers. -/
inductive SameFrame : Frame → Frame → Prop
  | data (bytes : List UInt8) : SameFrame (.data bytes) (.data bytes)
  | trailers {lines lines' : HeaderMap} (h : SameHeaders hidden lines lines') :
      SameFrame (.trailers lines) (.trailers lines')

/-- The same body, up to hidden values of trailers. -/
structure SameBody (body body' : Body) : Prop where
  frames : List.Forall₂ (SameFrame hidden) body.frames body'.frames
  ending : body.ending = body'.ending
  exact : body.exact = body'.exact

/-- The same request, up to hidden values. -/
structure SameRequest {H : HttpCrate} (req req' : Request H) : Prop where
  method : req.method = req'.method
  uri : req.uri = req'.uri
  version : req.version = req'.version
  headers : SameHeaders hidden req.headers req'.headers
  upstreamTarget : req.upstreamTarget = req'.upstreamTarget
  extensions : req.extensions = req'.extensions
  body : SameBody hidden req.body req'.body

/-- The same response, up to hidden values. -/
structure SameReply (reply reply' : Reply) : Prop where
  version : reply.version = reply'.version
  status : reply.response.status = reply'.response.status
  headers : SameHeaders hidden reply.response.headers reply'.response.headers
  body : SameBody hidden reply.response.body reply'.response.body

/-- The same result: responses up to hidden values, or one error. -/
inductive SameResult : Except String Reply → Except String Reply → Prop
  | error (e : String) : SameResult (.error e) (.error e)
  | ok {reply reply' : Reply} (h : SameReply hidden reply reply') :
      SameResult (.ok reply) (.ok reply')

variable {hidden} {headers headers' : HeaderMap}

theorem SameHeaders.names (h : SameHeaders hidden headers headers') :
    headers.map Prod.fst = headers'.map Prod.fst := by
  induction h with
  | nil => rfl
  | cons hline _ ih => rw [List.map_cons, List.map_cons, hline.1, ih]

/-- A name has as many values. -/
theorem SameHeaders.length_getAll (h : SameHeaders hidden headers headers') (name : String) :
    (HeaderMap.getAll headers name).length = (HeaderMap.getAll headers' name).length := by
  unfold HeaderMap.getAll
  induction h with
  | nil => rfl
  | cons hline _ ih =>
      rw [List.length_map, List.length_map] at ih ⊢
      rw [List.filter_cons, List.filter_cons, hline.1]
      split
      · rw [List.length_cons, List.length_cons, ih]
      · exact ih

/-- A name that is not hidden has the same values. -/
theorem SameHeaders.getAll (h : SameHeaders hidden headers headers') {name : String}
    (hname : ¬ hidden name) : HeaderMap.getAll headers name = HeaderMap.getAll headers' name := by
  unfold HeaderMap.getAll
  induction h with
  | nil => rfl
  | @cons line line' _ _ hline _ ih =>
      rw [List.filter_cons, List.filter_cons, ← hline.1]
      split
      · rename_i heq
        rw [beq_iff_eq] at heq
        rw [List.map_cons, List.map_cons, ih, hline.2 (heq ▸ hname)]
      · exact ih

theorem SameHeaders.get (h : SameHeaders hidden headers headers') {name : String}
    (hname : ¬ hidden name) : HeaderMap.get headers name = HeaderMap.get headers' name := by
  rw [HeaderMap.get_eq_head?, HeaderMap.get_eq_head?, h.getAll hname]

theorem bytes_same {frames frames' : List Frame}
    (h : List.Forall₂ (SameFrame hidden) frames frames') :
    frames.flatMap Frame.bytes = frames'.flatMap Frame.bytes := by
  induction h with
  | nil => rfl
  | cons hframe _ ih =>
      rw [List.flatMap_cons, List.flatMap_cons, ih]
      cases hframe <;> rfl

/-- The data of a body is the same. -/
theorem SameBody.collect {body body' : Body} (h : SameBody hidden body body') :
    body.collect = body'.collect := by
  rw [Body.collect, Body.collect, Body.data, Body.data, h.ending, bytes_same h.frames]

end Same

/-! ### The log -/

section Log

variable {T : TextCrate} {hidden : String → Prop} {R : Redactor}

/-- The headers of a message are logged the same. -/
theorem logHeaders_same (hR : ∀ name, hidden name → R.isRedacted name = true)
    {headers headers' : HeaderMap} (h : SameHeaders hidden headers headers') (mark : String) :
    logHeaders T mark headers R = logHeaders T mark headers' R := by
  unfold logHeaders
  rw [h.names]
  refine List.flatMap_congr fun name _ => ?_
  by_cases hname : hidden name
  · -- every value is logged by the placeholder
    have hline : logLine T mark R name = fun _ =>
        writeln (mark ++ " " ++ name ++ ": " ++ REDACTED_PLACEHOLDER) := by
      funext value
      rw [logLine, if_pos (hR name hname)]
    rw [hline, List.flatMap_def, List.flatMap_def, List.map_const', List.map_const',
      h.length_getAll]
  · rw [h.getAll hname]

theorem logRequest_same (hR : ∀ name, hidden name → R.isRedacted name = true)
    {req req' : Request T.toHttpCrate} (h : SameRequest hidden req req') :
    logRequest T R req = logRequest T R req' := by
  rw [logRequest, logRequest, h.method, h.uri, h.version, logHeaders_same hR h.headers]

theorem logResponse_same (hR : ∀ name, hidden name → R.isRedacted name = true)
    (canonicalReason : ℕ → Option String) {reply reply' : Reply}
    (h : SameReply hidden reply reply') :
    logResponse T canonicalReason R reply = logResponse T canonicalReason R reply' := by
  rw [logResponse, logResponse, h.version, h.status, logHeaders_same hR h.headers]

end Log

/-- The values of the header may differ: it is finally redacted and not `content-length`. -/
def Hidden (T : TextCrate) (calls : List Call) (name : String) : Prop :=
  FinallyRedacted T calls name ∧ name ≠ "content-length"

/-- **Redacted values do not influence the log.**  However the logger is built, if redaction is
enabled in the end, two exchanges that take the same time and differ only in the values of
headers that are finally redacted are logged by the same bytes. -/
theorem redacted_values_not_logged {T : TextCrate} {canonicalReason : ℕ → Option String}
    {calls : List Call} (hredact : (built T calls).redact = true)
    {inner inner' : Request T.toHttpCrate → Except String Reply × ℕ}
    {req req' : Request T.toHttpCrate} (hreq : SameRequest (Hidden T calls) req req')
    (hresult : SameResult (Hidden T calls) (inner req).1 (inner' req').1)
    (htime : (inner req).2 = (inner' req').2) :
    (call T canonicalReason (built T calls) inner req).1 =
      (call T canonicalReason (built T calls) inner' req').1 := by
  have hR : ∀ name, Hidden T calls name → (built T calls).redactor.isRedacted name = true := by
    rintro name ⟨hname, -⟩
    rw [finallyRedacted_iff] at hname
    simp [Redactor.isRedacted, TrafficLogger.redactor, hredact, hname]
  unfold call
  rw [logRequest_same hR hreq]
  generalize inner req = answer at hresult htime ⊢
  generalize inner' req' = answer' at hresult htime ⊢
  obtain ⟨result, elapsed⟩ := answer
  obtain ⟨result', elapsed'⟩ := answer'
  obtain rfl : elapsed = elapsed' := htime
  cases hresult with
  | error e => rfl
  | @ok reply reply' hreply =>
      dsimp only
      rw [logResponse_same hR canonicalReason hreply, hreply.body.collect]
      cases (built T calls).logBodies with
      | true =>
          rw [if_pos rfl, if_pos rfl]
          cases reply'.response.body.collect with
          | error e => rfl
          | ok bytes => rfl
      | false =>
          have hlength : contentLength T reply.response.headers =
              contentLength T reply'.response.headers := by
            rw [contentLength, contentLength, hreply.headers.get fun h => h.2 rfl]
          rw [if_neg Bool.false_ne_true, if_neg Bool.false_ne_true, hlength]

/-- A logger that redacts `X-Token` as well, and logs `Authorization`. -/
def tokenCalls : List Call :=
  [.redactHeaders ["X-Token"], .revealHeaders ["authorization"], .logBodies true]

/-- A request with a token. -/
def withToken (token : String) : Request TextCrate.ascii.toHttpCrate :=
  ⟨"GET", "/", "HTTP/1.1", [("host", utf8 "a.com"), ("x-token", utf8 token)], none, [], emptyBody⟩

/-- The token is sent back after a millisecond. -/
def echo (req : Request TextCrate.ascii.toHttpCrate) : Except String Reply × ℕ :=
  (.ok ⟨"HTTP/1.1", ⟨200, req.headers, fullBody (utf8 "ok")⟩⟩, 10 ^ 6)

/-- Of two tokens nothing different is logged. -/
theorem redacted_values_not_logged_token :
    (built .ascii tokenCalls).redact = true ∧
      SameRequest (Hidden .ascii tokenCalls) (withToken "one") (withToken "another") ∧
      (call .ascii (fun _ => some "OK") (built .ascii tokenCalls) echo (withToken "one")).1 =
        (call .ascii (fun _ => some "OK") (built .ascii tokenCalls) echo
          (withToken "another")).1 := by
  have hhidden : Hidden .ascii tokenCalls "x-token" :=
    ⟨finallyRedacted_iff.mpr (by decide +kernel), by decide⟩
  have hheaders : SameHeaders (Hidden .ascii tokenCalls) (withToken "one").headers
      (withToken "another").headers :=
    .cons ⟨rfl, fun _ => rfl⟩ (.cons ⟨rfl, fun h => absurd hhidden h⟩ .nil)
  have hreq : SameRequest (Hidden .ascii tokenCalls) (withToken "one") (withToken "another") :=
    ⟨rfl, rfl, rfl, hheaders, rfl, rfl, .nil, rfl, rfl⟩
  have hbody : SameBody (Hidden .ascii tokenCalls) (fullBody (utf8 "ok")) (fullBody (utf8 "ok")) :=
    ⟨.cons (.data _) .nil, rfl, rfl⟩
  exact ⟨rfl, hreq, redacted_values_not_logged rfl hreq (.ok ⟨rfl, rfl, hheaders, hbody⟩) rfl⟩

end TrafficLog
end Noxy

/-
# What a leaf makes

`src/config.rs`: `emit` of the twenty-one leaf configurations, with `build_rate_limiter`,
`build_circuit_breaker`, `build_retry`, `parse_header_list` and `parse_method_list`;
`src/middleware/modify_headers.rs`: `parse_name` and `parse_value`; the constructors of
`Retry`, `BandwidthThrottle` and `ScriptLayer` that these call.

A leaf is handed on with the texts and numbers of its configuration read: a `Middleware` is
what the builder is given, the predicate apart.  Reading fails with an error or with a panic
(`Failure`): a constructor that is meant to be called from code asserts what it is given.
-/

import Noxy.Config.Durations
import Noxy.Config.Emit
import Noxy.Proxy.BlockList
import Noxy.Retry.Policy
import Noxy.Store.Keyed
import Noxy.UrlRewrite.Rule

namespace Noxy
namespace Config

open Http Proxy Store

/-- The rest of what compiling calls: crates, and the files of the machine. -/
structure Libraries where
  /-- `HeaderValue::from_str`. -/
  headerValue : String → Option (List UInt8)
  rewrite : UrlRewrite.Crates
  /-- `std::fs::read_to_string`. -/
  readToString : String → Except String String
  /-- `transpile_source`, of a source with a name. -/
  transpileSource : String → String → Except String String
  /-- `CertificateAuthority::from_pem_files`. -/
  certificateAuthority : String → String → Except String Unit
  /-- The certificates and the key that `tls_identity` reads. -/
  tlsIdentity : String → String → Except String Unit
  /-- `with_single_cert`, of the identity in the files. -/
  singleCert : String → String → Except String Unit

/-- A result whose failures are errors. -/
def fallible {α : Type} (result : Except String α) : Except Failure α := result.mapError .error

/-- A result whose failures are panics. -/
def asserted {α : Type} (result : Except Panic α) : Except Failure α := result.mapError .panic

/-- `StatusCode::from_u16`. -/
def statusCode (n : ℕ) : Except String ℕ :=
  if 100 ≤ n ∧ n < 1000 then .ok n else .error "invalid status code"

/-- `parse_header_list`. -/
def parseHeaderList (list : String) : List String :=
  (((list.toList.splitOnP fun c => c == ',' || c == ' ' || c == '\t' || c == '\n').map fun part =>
    trim (String.ofList part))).filter fun name => name ≠ ""

/-- Where a limiter or a breaker keeps its state: in Redis under a scope, or in memory. -/
abbrev Backend := Option (RedisConnection × String)

/-- `Retry`, with the ratio, the window and the minimum of its budget. -/
structure RetryLayer where
  service : Retry.RetryService
  budget : Option (ℚ × ℕ × ℕ)

/-- `Phase`. -/
inductive Phase where
  | request
  | response
  deriving DecidableEq, Repr

/-- `Op`. -/
inductive HeaderOp where
  | set (name : String) (value : List UInt8)
  | append (name : String) (value : List UInt8)
  | remove (name : String)
  deriving DecidableEq, Repr

/-- What the builder is given for a leaf. -/
inductive Middleware (C : Crates) where
  | upstream (u : Upstream C.http)
  | trafficLogger (logBodies redact : Bool) (redactHeaders revealHeaders : List String)
  | latencyInjector (delay : Delay)
  | bandwidthThrottle (bytesPerSecond : ℕ)
  | faultInjector (errorRate abortRate : ℚ) (errorStatus : ℕ)
  | rateLimiter (count window burst : ℕ) (perHost : Bool) (backend : Backend)
  | slidingWindow (count window : ℕ) (perHost : Bool) (backend : Backend)
  | retry (r : RetryLayer)
  | circuitBreaker (threshold recovery halfOpenProbes : ℕ) (perHost : Bool) (backend : Backend)
      (cacheTtl : Option ℕ)
  | setResponse (status : ℕ) (body : String)
  | blockList (bl : BlockList C)
  | modifyHeaders (phase : Phase) (op : HeaderOp)
  | urlRewrite (rules : List UrlRewrite.RewriteRule)
  | scriptLayer (source : String) (maxBodyBytes : ℕ) (shared : Bool)

variable {C : Crates}

/-- A declaration under a connection keeps its state there. -/
def Decl.backend (d : Decl C) : Backend := d.redis.map fun conn => (conn, d.scopeLabel)

/-! ### The leaves -/

/-- `LatencyConfig::emit`. -/
def emitLatency (value : String) : Except Failure (Middleware C) := do
  match ← DurationOrRange.fromStr value with
  | .fixed d => return .latencyInjector (.fixed d)
  | .range lo hi => return .latencyInjector (.uniform lo hi)

/-- `BandwidthConfig::emit`, with `BandwidthThrottle::new`. -/
def emitBandwidth (bps : ℕ) : Except Failure (Middleware C) :=
  if 0 < bps then .ok (.bandwidthThrottle bps) else .error (.panic .bytesPerSecond)

/-- `FaultConfig::emit`. -/
def emitFault (errorRate abortRate : ℚ) (errorStatus : Option ℕ) : Except Failure (Middleware C) :=
  match errorStatus with
  | none => .ok (.faultInjector errorRate abortRate 500)
  | some status => do
      let status ← fallible ((statusCode status).mapError fun e => s!"invalid error_status: {e}")
      return .faultInjector errorRate abortRate status

/-- `RateLimitConfig::emit`, with `build_rate_limiter`. -/
def emitRateLimit (count : ℕ) (window : String) (burst : Option ℕ) (perHost : Bool)
    (backend : Backend) : Except Failure (Middleware C) := do
  let window ← parseDuration window
  return .rateLimiter count window (burst.getD count) perHost backend

/-- `SlidingWindowConfig::emit`. -/
def emitSlidingWindow (count : ℕ) (window : String) (perHost : Bool) (backend : Backend) :
    Except Failure (Middleware C) := do
  let window ← parseDuration window
  return .slidingWindow count window perHost backend

/-- `default_retry_methods`. -/
def defaultRetryMethods : List String := ["GET", "HEAD", "PUT", "DELETE", "OPTIONS", "TRACE"]

/-- `parse_method_list`. -/
def parseMethodList (C : Crates) (list : String) : Except String (List String) :=
  (parseHeaderList list).mapM fun name =>
    (C.http.method (toAsciiUppercase name)).mapError fun _ =>
      s!"invalid HTTP method '{name}' in retry methods"

/-- The statuses of `Retry::on_statuses`. -/
def onStatuses (statuses : List ℕ) : Except Panic (List ℕ) :=
  statuses.mapM fun s => (statusCode s).mapError fun _ => .statusCode

/-- A duration of the configuration, or the one that the builder has. -/
def durationOr (default : ℕ) : Option String → Except Failure ℕ
  | some text => parseDuration text
  | none => .ok default

/-- The budget of `build_retry`. -/
def retryBudget : Option RetryBudget → Except Failure (Option (ℚ × ℕ × ℕ))
  | some b =>
      (parseDuration b.window).map fun window => some (b.ratio, window, b.minRetries.getD 30)
  | none => .ok none

/-- The methods of `build_retry`: all of them, or those of a list. -/
def retryMethods (C : Crates) (methods : Option String) (allMethods : Option Bool) :
    Except String (Option (List String)) :=
  if allMethods = some true then .ok none
  else match methods with
    | some list => (parseMethodList C list).map some
    | none => .ok (some defaultRetryMethods)

/-- The statuses of `build_retry`. -/
def retryStatuses : Option (List ℕ) → Except Panic (List ℕ)
  | some statuses => onStatuses statuses
  | none => .ok [429, 502, 503, 504]

/-- `build_retry`. -/
def buildRetry (C : Crates) (maxRetries : Option ℕ) (backoff maxBackoff : Option String)
    (maxReplayBodyBytes : Option ℕ) (methods : Option String) (allMethods : Option Bool)
    (statuses : Option (List ℕ)) (budget : Option RetryBudget) : Except Failure RetryLayer := do
  let statuses ← asserted (retryStatuses statuses)
  let backoff ← durationOr (fromSecs 1) backoff
  let maxBackoff ← durationOr (fromSecs 30) maxBackoff
  let methods ← fallible (retryMethods C methods allMethods)
  let budget ← retryBudget budget
  return ⟨⟨statuses, maxRetries.getD 3, backoff, maxBackoff, none,
    maxReplayBodyBytes.getD 1048576, methods⟩, budget⟩

/-- `CircuitBreakerConfig::emit`, with `build_circuit_breaker`: the time to live of a cache is
read for a store in Redis only. -/
def emitCircuitBreaker (threshold : ℕ) (recovery : String) (halfOpenProbes : Option ℕ)
    (perHost : Bool) (cacheTtl : Option String) (backend : Backend) :
    Except Failure (Middleware C) := do
  let recovery ← parseDuration recovery
  match backend, cacheTtl with
  | some _, some ttl => do
      let ttl ← parseDuration ttl
      return .circuitBreaker threshold recovery (halfOpenProbes.getD 1) perHost backend (some ttl)
  | _, _ =>
      return .circuitBreaker threshold recovery (halfOpenProbes.getD 1) perHost backend none

/-- `RespondConfig::emit`. -/
def emitRespond (body : String) (status : Option ℕ) : Except String (Middleware C) := do
  let status ← (statusCode (status.getD 200)).mapError fun e => s!"invalid respond status: {e}"
  return .setResponse status body

/-- `BlockConfig::emit`. -/
def emitBlock (hosts paths : List String) (response : Option BlockResponse) :
    Except String (Middleware C) := do
  let bl ← newBlockList C hosts paths
  match response with
  | none => return .blockList bl
  | some resp => do
      let status ← (statusCode (resp.status.getD 403)).mapError fun e =>
        s!"invalid block status: {e}"
      return .blockList (bl.response status (utf8 (resp.body.getD "")))

/-- `parse_name`. -/
def parseName (C : Crates) (name : String) : Except Panic String :=
  (C.http.headerName name).mapError fun _ => .headerName

/-- `parse_value`. -/
def parseValue (L : Libraries) (value : String) : Except Panic (List UInt8) :=
  match L.headerValue value with
  | some bytes => .ok bytes
  | none => .error .headerValue

/-- `emit` of the four leaves that write a header. -/
def emitWriteHeader (L : Libraries) (phase : Phase) (op : String → List UInt8 → HeaderOp)
    (name value : String) : Except Failure (Middleware C) := do
  let name ← asserted (parseName C name)
  let value ← asserted (parseValue L value)
  return .modifyHeaders phase (op name value)

/-- `emit` of the two leaves that remove a header. -/
def emitRemoveHeader (phase : Phase) (name : String) : Except Failure (Middleware C) := do
  let name ← asserted (parseName C name)
  return .modifyHeaders phase (.remove name)

/-- The layer of a script that has been transpiled. -/
def scriptLayer (source : String) (shared : Bool) (maxBodyBytes : Option ℕ) : Middleware C :=
  .scriptLayer source ((maxBodyBytes.map fun n => max n 1).getD 1048576) shared

/-- `emit_decl`, of a leaf under a connection and with a label; `counter` is the cell of an
upstream. -/
def Leaf.emit (L : Libraries) (backend : Backend) (counter : ℕ) :
    Leaf → Except Failure (Middleware C)
  | .upstream urls balance => (fallible (newUpstream urls balance counter)).map .upstream
  | .log bodies redact redactHeaders revealHeaders =>
      .ok (.trafficLogger (bodies.getD false) (redact.getD true)
        (redactHeaders.elim [] parseHeaderList) (revealHeaders.elim [] parseHeaderList))
  | .latency value => emitLatency value
  | .bandwidth bps => emitBandwidth bps
  | .fault errorRate abortRate errorStatus => emitFault errorRate abortRate errorStatus
  | .rateLimit count window burst perHost => emitRateLimit count window burst perHost backend
  | .slidingWindow count window perHost => emitSlidingWindow count window perHost backend
  | .retry maxRetries backoff maxBackoff maxReplayBodyBytes methods allMethods statuses budget =>
      (buildRetry C maxRetries backoff maxBackoff maxReplayBodyBytes methods allMethods statuses
        budget).map .retry
  | .circuitBreaker threshold recovery halfOpenProbes perHost cacheTtl =>
      emitCircuitBreaker threshold recovery halfOpenProbes perHost cacheTtl backend
  | .respond body status => fallible (emitRespond body status)
  | .block hosts paths response => fallible (emitBlock hosts paths response)
  | .setRequestHeader name value => emitWriteHeader L .request .set name value
  | .appendRequestHeader name value => emitWriteHeader L .request .append name value
  | .removeRequestHeader name => emitRemoveHeader .request name
  | .setResponseHeader name value => emitWriteHeader L .response .set name value
  | .appendResponseHeader name value => emitWriteHeader L .response .append name value
  | .removeResponseHeader name => emitRemoveHeader .response name
  | .rewritePath pattern replace =>
      (fallible ((UrlRewrite.path L.rewrite pattern replace).mapError fun e =>
        s!"invalid rewrite-path pattern '{pattern}': {e}")).map .urlRewrite
  | .rewritePathRegex pattern replace =>
      (fallible ((UrlRewrite.regex L.rewrite pattern replace).mapError fun e =>
        s!"invalid rewrite-path-regex regex '{pattern}': {e}")).map .urlRewrite
  | .script source shared maxBodyBytes =>
      (fallible (L.transpileSource source "<inline>")).map fun source =>
        scriptLayer source shared maxBodyBytes
  | .scriptFile file shared maxBodyBytes =>
      (fallible (do L.transpileSource (← L.readToString file) file)).map fun source =>
        scriptLayer source shared maxBodyBytes

end Config
end Noxy

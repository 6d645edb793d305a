/-
# The command line

`src/main.rs`: `Cli`, and `apply_cli_and_run` up to `into_listeners`, with `parse_header_arg`,
`parse_count_window`, `parse_rate_limit`, `parse_sliding_window` and `parse_circuit_breaker`.

The flags change a configuration that was read from a file, or the empty one.  Those that set the
pool, the timeouts and Redis overwrite what the file has; those that are rules are put behind the
global rules of the file, in the order of the code and not of the command line; and if the file
has no listener, one is made of the others.  The flags that name a file to read or an address for
health checks, that write certificates or choose the format of the log, change nothing here.

`apply_eq_ok` says what becomes of the configuration when no flag is refused.
-/

import Noxy.Config.Compile
import Noxy.Lib.Fallible

namespace Noxy
namespace Main

open Config Http

/-- `Cli`, with the defaults of its flags. -/
structure Cli where
  cert : String := "ca-cert.pem"
  key : String := "ca-key.pem"
  port : UInt16 := 8080
  bind : String := "127.0.0.1"
  upstream : Option String := none
  tlsCert : Option String := none
  tlsKey : Option String := none
  log : Bool := false
  logBodies : Bool := false
  logRedactHeaders : Option String := none
  logRevealHeaders : Option String := none
  logNoRedact : Bool := false
  latency : Option String := none
  bandwidth : Option ℕ := none
  rateLimits : List String := []
  perHostRateLimits : List String := []
  slidingWindows : List String := []
  perHostSlidingWindows : List String := []
  retry : Option ℕ := none
  retryMaxBody : Option ℕ := none
  retryMaxBackoff : Option String := none
  retryMethods : Option String := none
  retryAllMethods : Bool := false
  circuitBreaker : Option String := none
  poolMaxIdle : Option ℕ := none
  poolIdleTimeout : Option String := none
  connectTimeout : Option String := none
  requestTimeout : Option String := none
  setRequestHeaders : List String := []
  removeRequestHeaders : List String := []
  setResponseHeaders : List String := []
  removeResponseHeaders : List String := []
  blockHosts : List String := []
  blockPaths : List String := []
  rewritePaths : List String := []
  rewritePathRegexes : List String := []
  script : Option String := none
  scriptMaxBody : Option ℕ := none
  redisUrl : Option String := none
  acceptInvalidCerts : Bool := false
  credentials : List String := []

/-! ## Texts of flags -/

/-- `map_err` of an error, with a text in front of it; a panic goes on. -/
def context {α : Type} (start : String) : Except Failure α → Except Failure α
  | .error (.error e) => .error (.error (start ++ e))
  | other => other

/-- `split_once`, or an error. -/
def splitFlag (sep : Char) (message text : String) : Except Failure (String × String) :=
  match splitOnce sep text with
  | some parts => .ok parts
  | none => .error (.error message)

/-- `parse_header_arg`. -/
def parseHeaderArg (s : String) : Except Failure (String × String) := do
  let parts ← splitFlag ':' s!"header must be 'name: value', got '{s}'" s
  return (trim parts.1, trim parts.2)

/-- `parse_count_window`. -/
def parseCountWindow (s kind : String) : Except Failure (ℕ × String) := do
  let parts ← splitFlag '/' s!"{kind} must be count/window (e.g. 30/1s)" s
  let count ← context s!"invalid {kind} count: " (fallible (parseUnsigned 64 parts.1))
  let _ ← context s!"invalid {kind} window: " (parseDuration parts.2)
  return (count, parts.2)

/-- `parse_rate_limit`. -/
def parseRateLimit (perHost : Bool) (s : String) : Except Failure Leaf := do
  let (count, window) ← parseCountWindow s "rate limit"
  return .rateLimit count window none perHost

/-- `parse_sliding_window`. -/
def parseSlidingWindow (perHost : Bool) (s : String) : Except Failure Leaf := do
  let (count, window) ← parseCountWindow s "sliding window"
  return .slidingWindow count window perHost

/-- `parse_circuit_breaker`. -/
def parseCircuitBreaker (s : String) : Except Failure Leaf := do
  let parts ← splitFlag '/' "circuit breaker must be threshold/recovery (e.g. 5/30s)" s
  let threshold ←
    context "invalid circuit breaker threshold: " (fallible (parseUnsigned 32 parts.1))
  let _ ← context "invalid circuit breaker recovery: " (parseDuration parts.2)
  return .circuitBreaker threshold parts.2 none false none

/-- A credential of the command line. -/
def parseCredential (cred : String) : Except Failure CredentialConfig := do
  let parts ← splitFlag ':' "credential must be username:password" cred
  return ⟨parts.1, parts.2⟩

/-- A flag that sets a header. -/
def setHeaderFlag (leaf : String → String → Leaf) (h : String) : Except Failure Leaf := do
  let parts ← parseHeaderArg h
  return leaf parts.1 parts.2

/-- A flag that rewrites paths. -/
def rewriteFlag (flag source : String) (leaf : String → String → Leaf) (rw : String) :
    Except Failure Leaf := do
  let parts ← splitFlag '=' s!"{flag} must be '{source}=replacement', got '{rw}'" rw
  return leaf parts.1 parts.2

/-- Listeners with the same rules and the same Redis of their own. -/
def SameRules (l l' : Listener) : Prop := l'.body = l.body ∧ l'.redis = l.redis

namespace Cli

variable (cli : Cli)

/-! ## What the flags are -/

/-- The rule of the flags for the log. -/
def logRule : List Leaf :=
  if cli.log || cli.logBodies || cli.logNoRedact || cli.logRedactHeaders.isSome ||
      cli.logRevealHeaders.isSome then
    [.log (if cli.logBodies then some true else none) (if cli.logNoRedact then some false else none)
      cli.logRedactHeaders cli.logRevealHeaders]
  else []

/-- The rule of the flags for retries. -/
def retryRule : List Leaf :=
  cli.retry.toList.map fun maxRetries =>
    .retry (some maxRetries) none cli.retryMaxBackoff cli.retryMaxBody cli.retryMethods
      (if cli.retryAllMethods then some true else none) none none

/-- The rule of the flags for blocked hosts and paths. -/
def blockRule : List Leaf :=
  if cli.blockHosts.isEmpty && cli.blockPaths.isEmpty then []
  else [.block cli.blockHosts cli.blockPaths none]

/-- The rules that the flags put behind the global ones, in their order. -/
def rules : Except Failure (List Leaf) := do
  let rateLimits ← cli.rateLimits.mapM (parseRateLimit false)
  let perHostRateLimits ← cli.perHostRateLimits.mapM (parseRateLimit true)
  let slidingWindows ← cli.slidingWindows.mapM (parseSlidingWindow false)
  let perHostSlidingWindows ← cli.perHostSlidingWindows.mapM (parseSlidingWindow true)
  let circuitBreaker ← cli.circuitBreaker.toList.mapM parseCircuitBreaker
  let setRequest ← cli.setRequestHeaders.mapM (setHeaderFlag .setRequestHeader)
  let setResponse ← cli.setResponseHeaders.mapM (setHeaderFlag .setResponseHeader)
  let rewrite ← cli.rewritePaths.mapM (rewriteFlag "rewrite-path" "pattern" .rewritePath)
  let rewriteRegex ←
    cli.rewritePathRegexes.mapM (rewriteFlag "rewrite-path-regex" "regex" .rewritePathRegex)
  return cli.logRule ++ cli.latency.toList.map .latency ++ cli.bandwidth.toList.map .bandwidth ++
    rateLimits ++ perHostRateLimits ++ slidingWindows ++ perHostSlidingWindows ++ cli.retryRule ++
    circuitBreaker ++ setRequest ++ cli.removeRequestHeaders.map .removeRequestHeader ++
    setResponse ++ cli.removeResponseHeaders.map .removeResponseHeader ++ rewrite ++
    rewriteRegex ++ cli.blockRule ++
    cli.script.toList.map fun file => .scriptFile file false cli.scriptMaxBody

/-- A timeout of the command line, which has to be one. -/
def timeout (name : String) : Option String → Except Failure Unit
  | some text => (context s!"invalid {name}: " (parseDuration text)).map fun _ => ()
  | none => .ok ()

/-- The settings of the process, where a flag comes before the file. -/
def settings (s : ProcessSettings) : Except Failure ProcessSettings := do
  timeout "pool-idle-timeout" cli.poolIdleTimeout
  timeout "connect-timeout" cli.connectTimeout
  timeout "request-timeout" cli.requestTimeout
  return { s with
    acceptInvalidUpstreamCerts := cli.acceptInvalidCerts || s.acceptInvalidUpstreamCerts
    poolMaxIdlePerHost := cli.poolMaxIdle.or s.poolMaxIdlePerHost
    poolIdleTimeout := cli.poolIdleTimeout.or s.poolIdleTimeout
    connectTimeout := cli.connectTimeout.or s.connectTimeout
    requestTimeout := cli.requestTimeout.or s.requestTimeout }

/-- The certificate of a reverse proxy, if both flags for it are there. -/
def tls : Option TlsConfig :=
  match cli.tlsCert, cli.tlsKey with
  | some cert, some key => some ⟨cert, key⟩
  | _, _ => none

/-- The listeners: one is made if the file has none, and otherwise the credentials go to the
forward proxies of the file. -/
def withListeners (credentials : List CredentialConfig) (cfg : ProxyConfig) : ProxyConfig :=
  if cfg.forwards.isEmpty && cfg.reverses.isEmpty then
    match cli.upstream with
    | some upstream =>
        { cfg with reverses := [⟨cli.port, some cli.bind, upstream, cli.tls, none, []⟩] }
    | none =>
        { cfg with forwards :=
            [⟨cli.port, some cli.bind, ⟨cli.cert, cli.key⟩, none, credentials, none, []⟩] }
  else
    { cfg with forwards := cfg.forwards.map fun fwd =>
        { fwd with credentials := fwd.credentials ++ credentials } }

/-- The Redis of the command line. -/
def redis : Option RedisConfig := cli.redisUrl.map fun url => ⟨url, none⟩

/-- `apply_cli_and_run`, up to `into_listeners`. -/
def apply (cfg : ProxyConfig) : Except Failure ProxyConfig := do
  let settings ← cli.settings cfg.toProcessSettings
  let credentials ← cli.credentials.mapM parseCredential
  let rules ← cli.rules
  return cli.withListeners credentials { cfg with
    toProcessSettings := settings
    redis := cli.redis.or cfg.redis
    body := cfg.body ++ rules.map .leaf }

/-- No flag is given. -/
def bare : Cli := {}

variable {cli}

theorem withListeners_body (cli : Cli) (credentials : List CredentialConfig) (cfg : ProxyConfig) :
    (cli.withListeners credentials cfg).body = cfg.body ∧
      (cli.withListeners credentials cfg).redis = cfg.redis := by
  unfold withListeners
  split
  · split <;> exact ⟨rfl, rfl⟩
  · exact ⟨rfl, rfl⟩

/-- Whatever the flags are, the listeners have the rules and the Redis that the file gives them. -/
theorem forall₂_withListeners (cli cli' : Cli) (credentials credentials' : List CredentialConfig)
    (cfg cfg' : ProxyConfig) (hforwards : cfg'.forwards = cfg.forwards)
    (hreverses : cfg'.reverses = cfg.reverses) :
    List.Forall₂ SameRules (cli.withListeners credentials cfg).listeners
      (cli'.withListeners credentials' cfg').listeners := by
  unfold withListeners
  rw [hforwards, hreverses]
  split
  · rename_i hnone
    rw [Bool.and_eq_true, List.isEmpty_iff, List.isEmpty_iff] at hnone
    cases cli.upstream <;> cases cli'.upstream <;>
      simp [ProxyConfig.listeners, hnone.1, hnone.2, SameRules, Listener.body, Listener.redis]
  · simp only [ProxyConfig.listeners, List.map_map]
    refine List.rel_append ?_ ?_
    · rw [List.forall₂_map_left_iff, List.forall₂_map_right_iff, List.forall₂_same]
      exact fun fwd _ => ⟨rfl, rfl⟩
    · rw [List.forall₂_same]
      exact fun l _ => ⟨rfl, rfl⟩

/-- Without flags, a configuration gets a listener if it has none. -/
theorem apply_bare (cfg : ProxyConfig) : bare.apply cfg = .ok (bare.withListeners [] cfg) := by
  show Except.ok (bare.withListeners [] { cfg with body := cfg.body ++ [] }) = _
  rw [List.append_nil]

/-- **What the flags make of a configuration**, if none is refused. -/
theorem apply_eq_ok {cfg cfg' : ProxyConfig} (h : cli.apply cfg = .ok cfg') :
    ∃ credentials flags cfg₁, cli.rules = .ok flags ∧ cfg' = cli.withListeners credentials cfg₁ ∧
      cfg₁.forwards = cfg.forwards ∧ cfg₁.reverses = cfg.reverses ∧
      cfg₁.redis = cli.redis.or cfg.redis ∧ cfg₁.body = cfg.body ++ flags.map .leaf := by
  obtain ⟨settings, _, h⟩ := Lib.doBind_eq_ok_iff.mp h
  obtain ⟨credentials, _, h⟩ := Lib.doBind_eq_ok_iff.mp h
  obtain ⟨flags, hflags, h⟩ := Lib.doBind_eq_ok_iff.mp h
  cases h
  exact ⟨credentials, flags, _, hflags, rfl, rfl, rfl, rfl, rfl⟩

end Cli
end Main
end Noxy

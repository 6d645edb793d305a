/-
# The rule tree

`src/config.rs`: `RuleNode` and the configurations of its leaves, the table of
which leaves shadow (`rule_is_exclusive`), which need a listener around them
(`rule_min_scope`), and what they are called (`rule_node_name`).

`RuleNode` has five match-typed variants, which differ only in the predicate
they make, and twenty-one leaf variants.  Here the five are one constructor with
a `MatchForm` and the twenty-one are one with a `Leaf`; `Leaf.kind` is the
`std::mem::discriminant` that the code compares leaves by.  The tables are stated
on kinds, since no leaf's own `is_exclusive` or `min_scope` reads its fields.
Rates, which the file gives as decimals, are rationals.
-/

import Mathlib.Algebra.Order.Ring.Rat

namespace Noxy
namespace Config

/-- `RedisConfig`. -/
structure RedisConfig where
  url : String
  keyPrefix : Option String
  deriving DecidableEq, Repr

/-- `RetryBudget`. -/
structure RetryBudget where
  ratio : ℚ
  window : String
  minRetries : Option ℕ
  deriving DecidableEq, Repr

/-- `BlockResponse`. -/
structure BlockResponse where
  status : Option ℕ
  body : Option String
  deriving DecidableEq, Repr

/-- The leaf variants of `RuleNode`, with the fields of their configurations. -/
inductive Leaf where
  | upstream (urls : List String) (balance : Option String)
  | log (bodies redact : Option Bool) (redactHeaders revealHeaders : Option String)
  | latency (value : String)
  | bandwidth (bps : ℕ)
  | fault (errorRate abortRate : ℚ) (errorStatus : Option ℕ)
  | rateLimit (count : ℕ) (window : String) (burst : Option ℕ) (perHost : Bool)
  | slidingWindow (count : ℕ) (window : String) (perHost : Bool)
  | retry (maxRetries : Option ℕ) (backoff maxBackoff : Option String)
      (maxReplayBodyBytes : Option ℕ) (methods : Option String) (allMethods : Option Bool)
      (statuses : Option (List ℕ)) (budget : Option RetryBudget)
  | circuitBreaker (threshold : ℕ) (recovery : String) (halfOpenProbes : Option ℕ)
      (perHost : Bool) (cacheTtl : Option String)
  | respond (body : String) (status : Option ℕ)
  | block (hosts paths : List String) (response : Option BlockResponse)
  | setRequestHeader (name value : String)
  | appendRequestHeader (name value : String)
  | removeRequestHeader (name : String)
  | setResponseHeader (name value : String)
  | appendResponseHeader (name value : String)
  | removeResponseHeader (name : String)
  | rewritePath (pattern replace : String)
  | rewritePathRegex (pattern replace : String)
  | script (source : String) (shared : Bool) (maxBodyBytes : Option ℕ)
  | scriptFile (file : String) (shared : Bool) (maxBodyBytes : Option ℕ)
  deriving DecidableEq, Repr

/-- The discriminants of the leaf variants. -/
inductive Kind where
  | upstream | log | latency | bandwidth | fault | rateLimit | slidingWindow | retry
  | circuitBreaker | respond | block | setRequestHeader | appendRequestHeader
  | removeRequestHeader | setResponseHeader | appendResponseHeader | removeResponseHeader
  | rewritePath | rewritePathRegex | script | scriptFile
  deriving DecidableEq, Repr

/-- `std::mem::discriminant`. -/
def Leaf.kind : Leaf → Kind
  | .upstream .. => .upstream
  | .log .. => .log
  | .latency .. => .latency
  | .bandwidth .. => .bandwidth
  | .fault .. => .fault
  | .rateLimit .. => .rateLimit
  | .slidingWindow .. => .slidingWindow
  | .retry .. => .retry
  | .circuitBreaker .. => .circuitBreaker
  | .respond .. => .respond
  | .block .. => .block
  | .setRequestHeader .. => .setRequestHeader
  | .appendRequestHeader .. => .appendRequestHeader
  | .removeRequestHeader .. => .removeRequestHeader
  | .setResponseHeader .. => .setResponseHeader
  | .appendResponseHeader .. => .appendResponseHeader
  | .removeResponseHeader .. => .removeResponseHeader
  | .rewritePath .. => .rewritePath
  | .rewritePathRegex .. => .rewritePathRegex
  | .script .. => .script
  | .scriptFile .. => .scriptFile

/-- `rule_is_exclusive`: whether the leaves of the kind shadow each other. -/
def Kind.isExclusive : Kind → Bool
  | .log | .latency | .bandwidth | .fault | .retry | .circuitBreaker | .respond => true
  | _ => false

/-- `RuleScope`. -/
inductive RuleScope where
  | global
  | listener
  deriving DecidableEq, Repr

/-- `rule_min_scope`. -/
def Kind.minScope : Kind → RuleScope
  | .upstream => .listener
  | _ => .global

/-- `rule_node_name`, of the leaves. -/
def Kind.nodeName : Kind → String
  | .log => "log"
  | .latency => "latency"
  | .bandwidth => "bandwidth"
  | .fault => "fault"
  | .rateLimit => "rate-limit"
  | .slidingWindow => "sliding-window"
  | .retry => "retry"
  | .circuitBreaker => "circuit-breaker"
  | .respond => "respond"
  | .block => "block"
  | .setRequestHeader => "set-request-header"
  | .appendRequestHeader => "append-request-header"
  | .removeRequestHeader => "remove-request-header"
  | .setResponseHeader => "set-response-header"
  | .appendResponseHeader => "append-response-header"
  | .removeResponseHeader => "remove-response-header"
  | .rewritePath => "rewrite-path"
  | .rewritePathRegex => "rewrite-path-regex"
  | .upstream => "upstream"
  | .script => "script"
  | .scriptFile => "script-file"

/-- What a match node tests: `GeneralMatch`, `HostMatch`, `PathMatch`,
`MethodMatch` or `MethodsMatch`. -/
inductive MatchForm where
  | general (host path method : Option String) (header : Option (String × String))
  | host (host : String)
  | path (path : String)
  | method (method : String)
  | methods (methods : List String)
  deriving DecidableEq, Repr

/-- `RuleNode`. -/
inductive RuleNode where
  | scope (form : MatchForm) (name : Option String) (redis : Option RedisConfig)
      (body : List RuleNode)
  | leaf (leaf : Leaf)

end Config
end Noxy

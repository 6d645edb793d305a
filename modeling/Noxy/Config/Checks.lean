/-
# What compiling a configuration checks

`src/config.rs`: `ProxyConfig::into_listeners`, by what it asks of the configuration.

Compiling makes one check after the other on the texts and numbers of the configuration, and
stops at the first that fails.  A `Check` is one of them, with what is checked; the checks of
a leaf, of the settings and of the whole configuration are listed in the order of the code
(`Leaf.checks`, `ProxyConfig.checks`).  Most checks only ever fail with an error.  The others
panic on what is not `Harmless`: seconds of which there is no duration, a bandwidth of zero, a
name or value that no header can have, a status that is no status, and more connections than
there can be permits for (`Check.panics_iff`).

`consults_compile` connects the lists with the code: compiling fails as the first check of
`ProxyConfig.checks` that fails, and succeeds if none does.
-/

import Noxy.Config.Compile
import Noxy.Lib.Checks

namespace Noxy
namespace Config

open Http Proxy Lib

/-- A check that compiling makes. -/
inductive Check where
  /-- A check that fails with an error, if it does. -/
  | returned (result : Except String Unit)
  /-- `parse_duration`. -/
  | duration (text : String)
  /-- `BandwidthThrottle::new`. -/
  | bytesPerSecond (n : ℕ)
  /-- `parse_name`. -/
  | headerName (text : String)
  /-- `parse_value`. -/
  | headerValue (text : String)
  /-- A status of `Retry::on_statuses`. -/
  | status (n : ℕ)
  /-- `Semaphore::new`. -/
  | permits (n : ℕ)

section Checks

variable (C : Crates) (L : Libraries)

/-- What a check does. -/
def Check.run : Check → Except Failure Unit
  | .returned result => fallible result
  | .duration text => (parseDuration text).map fun _ => ()
  | .bytesPerSecond n => if 0 < n then .ok () else .error (.panic .bytesPerSecond)
  | .headerName text => (asserted (parseName C text)).map fun _ => ()
  | .headerValue text => (asserted (parseValue L text)).map fun _ => ()
  | .status n => (asserted ((statusCode n).mapError fun _ => .statusCode)).map fun _ => ()
  | .permits n => if n ≤ MAX_PERMITS then .ok () else .error (.panic .permits)

/-- What is checked does not make the check panic. -/
def Check.Harmless : Check → Prop
  | .returned _ => True
  | .duration text => ¬ OutOfRange text
  | .bytesPerSecond n => 0 < n
  | .headerName text => ∃ name, C.http.headerName text = .ok name
  | .headerValue text => ∃ value, L.headerValue text = some value
  | .status n => 100 ≤ n ∧ n < 1000
  | .permits n => n ≤ MAX_PERMITS

/-- **A check panics exactly if what is checked is not harmless.** -/
theorem Check.panics_iff (c : Check) :
    (∃ p, c.run C L = .error (.panic p)) ↔ ¬ c.Harmless C L := by
  cases c with
  | returned result => cases result <;> simp [run, Harmless, fallible, Except.mapError]
  | duration text =>
      rw [Harmless, not_not, ← parseDuration_panics_iff]
      cases h : parseDuration text <;> simp [run, h, Except.map]
  | bytesPerSecond n => by_cases hn : 0 < n <;> simp [run, Harmless, hn]
  | headerName text =>
      cases h : C.http.headerName text <;>
        simp [run, Harmless, asserted, parseName, h, Except.mapError, Except.map]
  | headerValue text =>
      cases h : L.headerValue text <;>
        simp [run, Harmless, asserted, parseValue, h, Except.mapError, Except.map]
  | status n =>
      by_cases hn : 100 ≤ n ∧ n < 1000 <;>
        simp [run, Harmless, asserted, statusCode, hn, Except.mapError, Except.map]
  | permits n => by_cases hn : n ≤ MAX_PERMITS <;> simp [run, Harmless, hn]

/-! ### The checks in the order of the code -/

/-- The checks of a leaf. -/
def Leaf.checks (backend : Backend) (counter : ℕ) : Leaf → List Check
  | .upstream urls balance =>
      [.returned
        ((newUpstream urls balance counter : Except String (Upstream C.http)).map fun _ => ())]
  | .log .. => []
  | .latency value =>
      match splitDots value.toList with
      | some (lo, hi) => [.duration (String.ofList lo), .duration (String.ofList hi)]
      | none => [.duration value]
  | .bandwidth bps => [.bytesPerSecond bps]
  | .fault _ _ none => []
  | .fault _ _ (some status) =>
      [.returned
        (((statusCode status).mapError fun e => s!"invalid error_status: {e}").map fun _ => ())]
  | .rateLimit _ window _ _ => [.duration window]
  | .slidingWindow _ window _ => [.duration window]
  | .retry _ backoff maxBackoff _ methods allMethods statuses budget =>
      (statuses.getD []).map .status ++ (backoff.toList.map .duration ++
        (maxBackoff.toList.map .duration ++
          (.returned ((retryMethods C methods allMethods).map fun _ => ()) ::
            (budget.map RetryBudget.window).toList.map .duration)))
  | .circuitBreaker _ recovery _ _ cacheTtl =>
      .duration recovery :: (backend.bind fun _ => cacheTtl).toList.map .duration
  | .respond body status =>
      [.returned ((emitRespond body status : Except String (Middleware C)).map fun _ => ())]
  | .block hosts paths response =>
      [.returned ((emitBlock hosts paths response : Except String (Middleware C)).map fun _ => ())]
  | .setRequestHeader name value | .appendRequestHeader name value
  | .setResponseHeader name value | .appendResponseHeader name value =>
      [.headerName name, .headerValue value]
  | .removeRequestHeader name | .removeResponseHeader name => [.headerName name]
  | .rewritePath pattern replace =>
      [.returned (((UrlRewrite.path L.rewrite pattern replace).mapError fun e =>
        s!"invalid rewrite-path pattern '{pattern}': {e}").map fun _ => ())]
  | .rewritePathRegex pattern replace =>
      [.returned (((UrlRewrite.regex L.rewrite pattern replace).mapError fun e =>
        s!"invalid rewrite-path-regex regex '{pattern}': {e}").map fun _ => ())]
  | .script source _ _ => [.returned ((L.transpileSource source "<inline>").map fun _ => ())]
  | .scriptFile file _ _ =>
      [.returned ((do L.transpileSource (← L.readToString file) file).map fun _ => ())]

/-- The checks of the process settings. -/
def ProcessSettings.checks (s : ProcessSettings) : List Check :=
  (s.handshakeTimeout.toList ++ (s.idleTimeout.toList ++ (s.connectTimeout.toList ++
    (s.requestTimeout.toList ++ (s.drainTimeout.toList ++
      s.poolIdleTimeout.toList))))).map .duration

variable {C}

/-- The checks of the declarations, from a position on. -/
def emitChecks : ℕ → List (Decl C) → List Check
  | _, [] => []
  | i, d :: decls => d.leaf.checks C L d.backend i ++ emitChecks (i + 1) decls

/-- The checks that follow the walk of a listener. -/
def setUpChecks (settings : ProcessSettings) (l : Listener) (decls : List (Decl C)) : List Check :=
  settings.checks ++ (.returned (openListener L C l) :: (emitChecks L 0 decls ++
    (l.tls.toList.map fun tls => .returned (L.singleCert tls.cert tls.key)) ++
      settings.maxConnections.toList.map .permits))

/-- The checks of the listeners.  A walk that fails is the last of them. -/
def listenersChecks (C : Crates) (settings : ProcessSettings) (process : Option RedisConfig)
    (globals : List RuleNode) : List Listener → RedisCache → List Check
  | [], _ => []
  | l :: rest, cache =>
      match listenerInitialRedis C l.redis process cache with
      | .error e => [.returned (.error e)]
      | .ok (initialRedis, cache) =>
          match walkListenerBody globals l.body initialRedis cache with
          | .error e => [.returned (.error e)]
          | .ok (decls, cache) =>
              setUpChecks L settings l (decls : List (Decl C)) ++
                listenersChecks C settings process globals rest cache

variable (C)

/-- The checks of a configuration. -/
def ProxyConfig.checks (cfg : ProxyConfig) : List Check :=
  if cfg.forwards.isEmpty && cfg.reverses.isEmpty then
    [.returned (.error ("config has no listeners — declare at least one `forward \x7b \x7d` or " ++
      "`reverse \x7b \x7d` block"))]
  else
    match walkBody cfg.body 0 (WalkCtx.start none RedisCache.empty : WalkCtx C) [] with
    | .error e => [.returned (.error e)]
    | .ok (_, probeDecls) =>
        match validateMinScopeGlobal probeDecls with
        | .error e => [.returned (.error e)]
        | .ok () =>
            listenersChecks L C cfg.toProcessSettings cfg.redis cfg.body cfg.listeners
              RedisCache.empty

end Checks

/-! ### Compiling makes these checks -/

section Consults

variable {C : Crates} {L : Libraries}

theorem consults_fallible {α : Type} (result : Except String α) :
    Consults (Check.run C L) (fallible result) [.returned (result.map fun _ => ())] := by
  refine Consults.single ?_
  unfold Check.run fallible
  cases result <;> rfl

theorem consults_returned (result : Except String Unit) :
    Consults (Check.run C L) (fallible result) [.returned result] := by
  refine Consults.single ?_
  unfold Check.run fallible
  cases result <;> rfl

theorem consults_parseDuration (text : String) :
    Consults (Check.run C L) (parseDuration text) [.duration text] :=
  Consults.single rfl

theorem consults_parseName (name : String) :
    Consults (Check.run C L) (asserted (parseName C name)) [.headerName name] :=
  Consults.single rfl

theorem consults_parseValue (value : String) :
    Consults (Check.run C L) (asserted (parseValue L value)) [.headerValue value] :=
  Consults.single rfl

theorem consults_emitLatency (backend : Backend) (i : ℕ) (value : String) :
    Consults (Check.run C L) (emitLatency value : Except Failure (Middleware C))
      ((Leaf.latency value).checks C L backend i) := by
  have hread : Consults (Check.run C L) (DurationOrRange.fromStr value)
      ((Leaf.latency value).checks C L backend i) := by
    unfold DurationOrRange.fromStr Leaf.checks
    dsimp only
    cases splitDots value.toList with
    | some parts =>
        exact (consults_parseDuration _).bind fun lo _ =>
          (consults_parseDuration _).bind_ok fun hi => ⟨.range lo hi, rfl⟩
    | none => exact (consults_parseDuration value).bind_ok fun d => ⟨.fixed d, rfl⟩
  refine hread.bind_ok fun r => ?_
  cases r <;> exact ⟨_, rfl⟩

theorem consults_onStatuses (statuses : List ℕ) :
    Consults (Check.run C L) (asserted (onStatuses statuses)) (statuses.map .status) := by
  have hmap : asserted (onStatuses statuses) =
      statuses.mapM fun s => asserted ((statusCode s).mapError fun _ => .statusCode) := by
    unfold onStatuses
    induction statuses with
    | nil => rfl
    | cons s statuses ih =>
        rw [List.mapM_cons, List.mapM_cons, ← ih]
        cases statusCode s with
        | error e => rfl
        | ok n =>
            cases statuses.mapM fun s => (statusCode s).mapError fun _ => Panic.statusCode <;> rfl
  have hone : ∀ s, Consults (Check.run C L)
      (asserted ((statusCode s).mapError fun _ => .statusCode)) [.status s] :=
    fun s => Consults.single rfl
  rw [hmap]
  exact Consults.mapM hone statuses

theorem consults_buildRetry (maxRetries : Option ℕ) (backoff maxBackoff : Option String)
    (maxReplayBodyBytes : Option ℕ) (methods : Option String) (allMethods : Option Bool)
    (statuses : Option (List ℕ)) (budget : Option RetryBudget) (backend : Backend) (i : ℕ) :
    Consults (Check.run C L)
      (buildRetry C maxRetries backoff maxBackoff maxReplayBodyBytes methods allMethods statuses
        budget)
      ((Leaf.retry maxRetries backoff maxBackoff maxReplayBodyBytes methods allMethods statuses
        budget).checks C L backend i) := by
  unfold buildRetry Leaf.checks
  dsimp only
  have hstatuses : Consults (Check.run C L) (asserted (retryStatuses statuses))
      ((statuses.getD []).map .status) := by
    cases statuses with
    | none => exact Consults.ok _
    | some statuses => exact consults_onStatuses statuses
  have hbackoff : ∀ (default : ℕ) (text : Option String),
      Consults (Check.run C L) (durationOr default text) (text.toList.map .duration) := by
    intro default text
    cases text with
    | none => exact Consults.ok default
    | some t => exact consults_parseDuration t
  have hbudget : Consults (Check.run C L) (retryBudget budget)
      ((budget.map RetryBudget.window).toList.map .duration) := by
    unfold retryBudget
    cases budget with
    | none => exact Consults.ok _
    | some b =>
        dsimp only
        exact (consults_parseDuration b.window).map _
  refine hstatuses.bind fun _ _ => (hbackoff _ _).bind fun _ _ => (hbackoff _ _).bind fun _ _ => ?_
  exact (consults_fallible _).bind fun _ _ => hbudget.bind_ok fun _ => ⟨_, rfl⟩

theorem consults_emitCircuitBreaker (threshold : ℕ) (recovery : String) (halfOpenProbes : Option ℕ)
    (perHost : Bool) (cacheTtl : Option String) (backend : Backend) (i : ℕ) :
    Consults (Check.run C L)
      (emitCircuitBreaker threshold recovery halfOpenProbes perHost cacheTtl backend :
        Except Failure (Middleware C))
      ((Leaf.circuitBreaker threshold recovery halfOpenProbes perHost cacheTtl).checks C L backend
        i) := by
  unfold emitCircuitBreaker Leaf.checks
  dsimp only
  refine (consults_parseDuration recovery).bind fun _ _ => ?_
  cases backend with
  | none => exact Consults.ok _
  | some conn =>
      cases cacheTtl with
      | none => exact Consults.ok _
      | some ttl => exact (consults_parseDuration ttl).bind_ok fun _ => ⟨_, rfl⟩

/-- **A leaf makes its checks.** -/
theorem consults_emit (leaf : Leaf) (backend : Backend) (i : ℕ) :
    Consults (Check.run C L) (leaf.emit L backend i : Except Failure (Middleware C))
      (leaf.checks C L backend i) := by
  cases leaf with
  | upstream urls balance => exact (consults_fallible _).map _
  | log bodies redact redactHeaders revealHeaders => exact Consults.ok _
  | latency value => exact consults_emitLatency backend i value
  | bandwidth bps =>
      refine Consults.single ?_
      unfold Leaf.emit emitBandwidth Check.run
      dsimp only
      split <;> rfl
  | fault errorRate abortRate errorStatus =>
      cases errorStatus with
      | none => exact Consults.ok _
      | some status => exact (consults_fallible _).bind_ok fun _ => ⟨_, rfl⟩
  | rateLimit count window burst perHost =>
      exact (consults_parseDuration window).bind_ok fun _ => ⟨_, rfl⟩
  | slidingWindow count window perHost =>
      exact (consults_parseDuration window).bind_ok fun _ => ⟨_, rfl⟩
  | retry maxRetries backoff maxBackoff maxReplayBodyBytes methods allMethods statuses budget =>
      exact (consults_buildRetry maxRetries backoff maxBackoff maxReplayBodyBytes methods allMethods
        statuses budget backend i).map _
  | circuitBreaker threshold recovery halfOpenProbes perHost cacheTtl =>
      exact consults_emitCircuitBreaker threshold recovery halfOpenProbes perHost cacheTtl backend i
  | respond body status => exact consults_fallible _
  | block hosts paths response => exact consults_fallible _
  | setRequestHeader name value | appendRequestHeader name value
  | setResponseHeader name value | appendResponseHeader name value =>
      exact (consults_parseName name).bind fun _ _ =>
        (consults_parseValue value).bind_ok fun _ => ⟨_, rfl⟩
  | removeRequestHeader name | removeResponseHeader name =>
      exact (consults_parseName name).bind_ok fun _ => ⟨_, rfl⟩
  | rewritePath pattern replace => exact (consults_fallible _).map _
  | rewritePathRegex pattern replace => exact (consults_fallible _).map _
  | script source shared maxBodyBytes => exact (consults_fallible _).map _
  | scriptFile file shared maxBodyBytes => exact (consults_fallible _).map _

theorem consults_emitAll (decls : List (Decl C)) (i : ℕ) :
    Consults (Check.run C L) (emitAll L i decls) (emitChecks L i decls) := by
  induction decls generalizing i with
  | nil => exact Consults.ok _
  | cons d decls ih => exact (consults_emit d.leaf d.backend i).bind fun m _ => (ih (i + 1)).map _

theorem consults_applyProcessSettings (s : ProcessSettings) :
    Consults (Check.run C L) (applyProcessSettings s) s.checks := by
  have hone : ∀ text, Consults (Check.run C L) (optionalDuration text)
      (text.toList.map .duration) := by
    intro text
    unfold optionalDuration
    cases text with
    | none => exact Consults.ok _
    | some t =>
        dsimp only
        exact (consults_parseDuration t).map some
  unfold applyProcessSettings ProcessSettings.checks
  simp only [List.map_append]
  refine (hone _).bind fun _ _ => (hone _).bind fun _ _ => (hone _).bind fun _ _ => ?_
  exact (hone _).bind fun _ _ => (hone _).bind fun _ _ => (hone _).bind_ok fun _ => ⟨_, rfl⟩

theorem consults_build (maxConnections : Option ℕ) (l : Listener) :
    Consults (Check.run C L) (build L maxConnections l)
      ((l.tls.toList.map fun tls => .returned (L.singleCert tls.cert tls.key)) ++
        maxConnections.toList.map .permits) := by
  have hpermits : Consults (Check.run C L) (semaphore maxConnections)
      (maxConnections.toList.map .permits) := by
    cases maxConnections with
    | none => exact Consults.ok ()
    | some n =>
        refine Consults.single ?_
        unfold Check.run semaphore
        dsimp only
        split <;> rfl
  unfold build
  cases l.tls with
  | none => exact hpermits
  | some tls => exact (consults_returned _).bind fun _ _ => hpermits

/-- **What follows the walk makes its checks.** -/
theorem consults_setUp (settings : ProcessSettings) (l : Listener) (decls : List (Decl C)) :
    Consults (Check.run C L) (setUp L settings l decls) (setUpChecks L settings l decls) := by
  unfold setUp setUpChecks
  rw [List.append_assoc]
  refine (consults_applyProcessSettings settings).bind fun _ _ => ?_
  refine (consults_returned _).bind fun _ _ => ?_
  exact (consults_emitAll decls 0).bind fun _ _ => (consults_build _ l).map _

theorem consults_error (e : String) {α : Type} :
    Consults (Check.run C L) (.error (.error e) : Except Failure α) [.returned (.error e)] :=
  Consults.single rfl

theorem consults_buildListeners (settings : ProcessSettings) (process : Option RedisConfig)
    (globals : List RuleNode) (ls : List Listener) (cache : RedisCache) :
    Consults (Check.run C L)
      (buildListeners L settings process globals ls cache : Except Failure (List (BuiltListener C)))
      (listenersChecks L C settings process globals ls cache) := by
  induction ls generalizing cache with
  | nil => exact Consults.ok _
  | cons l ls ih =>
      unfold buildListeners buildListener listenersChecks
      cases listenerInitialRedis C l.redis process cache with
      | error e => exact consults_error e
      | ok opened =>
          dsimp only
          cases walkListenerBody globals l.body opened.1 opened.2 with
          | error e => exact consults_error e
          | ok walked =>
              dsimp only
              have hrest := (consults_setUp settings l walked.1).bind fun ms _ =>
                (ih walked.2).map fun out => ⟨⟨l.addr, walked.1⟩, ms⟩ :: out
              cases hset : setUp L settings l walked.1 with
              | error e =>
                  rw [hset] at hrest
                  exact hrest
              | ok ms =>
                  rw [hset] at hrest
                  exact hrest

/-- **Compiling makes the checks of the configuration.** -/
theorem consults_compile (cfg : ProxyConfig) :
    Consults (Check.run C L) (cfg.compile C L) (cfg.checks C L) := by
  unfold ProxyConfig.compile ProxyConfig.checks
  split
  · exact consults_error _
  · cases walkBody cfg.body 0 (WalkCtx.start none RedisCache.empty : WalkCtx C) [] with
    | error e => exact consults_error e
    | ok walked =>
        dsimp only
        cases validateMinScopeGlobal walked.2 with
        | error e => exact consults_error e
        | ok u => exact consults_buildListeners _ _ _ _ _

end Consults

end Config
end Noxy

/-
# When compiling a configuration panics

`src/config.rs`: `ProxyConfig::into_listeners` as a whole;
`src/middleware/latency_injector.rs`: the delays of what it returns.

Compiling panics when a check is reached that is not harmless (`compile_ne_panic_iff`).  A
latency that is a range of two durations is compiled without a look at which of them is
longer, so a listener that is returned may panic at its first request; `mem_emitAll_latency`
says which delays it has.

`into_listeners_sound_iff` is exact: compiling never panics, and the latencies of what it
returns can be sampled, if and only if every check that is reached is harmless and, if all of
them pass, no latency is an empty range.  `into_listeners_panics` has a configuration for each
of the ways in which this fails.
-/

import Noxy.Config.Checks
import Noxy.Http.HopByHop
import Noxy.Lib.Fallible

namespace Noxy
namespace Config

open Http Proxy Lib

/-! ### The latencies of a listener that is returned -/

section Latencies

variable {C : Crates} {L : Libraries}

/-- The injector of a latency. -/
def DurationOrRange.delay : DurationOrRange → Delay
  | .fixed d => .fixed d
  | .range lo hi => .uniform lo hi

theorem emitLatency_eq (value : String) :
    (emitLatency value : Except Failure (Middleware C)) =
      (DurationOrRange.fromStr value).map fun r => .latencyInjector r.delay := by
  unfold emitLatency
  cases DurationOrRange.fromStr value with
  | error e => rfl
  | ok r => cases r <;> rfl

/-- Only a latency makes a latency injector. -/
theorem emit_eq_latencyInjector {leaf : Leaf} {backend : Backend} {i : ℕ} {delay : Delay}
    (h : leaf.emit L backend i = .ok (.latencyInjector delay : Middleware C)) :
    ∃ value r, leaf = .latency value ∧ DurationOrRange.fromStr value = .ok r ∧ delay = r.delay := by
  cases leaf with
  | latency value =>
      rw [Leaf.emit, emitLatency_eq, map_eq_ok_iff] at h
      obtain ⟨r, hr, hdelay⟩ := h
      exact ⟨value, r, rfl, hr, (Middleware.latencyInjector.inj hdelay).symm⟩
  | bandwidth bps =>
      rw [Leaf.emit, emitBandwidth] at h
      split at h <;> cases h
  | fault errorRate abortRate errorStatus =>
      cases errorStatus with
      | none => cases h
      | some status =>
          obtain ⟨_, -, h⟩ := doBind_eq_ok_iff.mp h
          cases h
  | circuitBreaker threshold recovery halfOpenProbes perHost cacheTtl =>
      obtain ⟨_, -, h⟩ := doBind_eq_ok_iff.mp h
      split at h
      · obtain ⟨_, -, h⟩ := doBind_eq_ok_iff.mp h
        cases h
      · cases h
  | block hosts paths response =>
      obtain ⟨_, -, h⟩ := doBind_eq_ok_iff.mp (mapError_eq_ok_iff.mp h)
      split at h
      · cases h
      · obtain ⟨_, -, h⟩ := doBind_eq_ok_iff.mp h
        cases h
  | _ =>
      simp only [Leaf.emit, emitRateLimit, emitSlidingWindow, emitRespond, emitWriteHeader,
        emitRemoveHeader, scriptLayer, fallible, map_eq_ok_iff, doBind_eq_ok_iff,
        mapError_eq_ok_iff, pure, Except.pure, Except.ok.injEq, reduceCtorEq, and_false,
        exists_false] at h

/-- **The latency injectors of the declarations** are those of their latencies. -/
theorem mem_emitAll_latency {decls : List (Decl C)} {i : ℕ} {ms : List (Middleware C)}
    (h : emitAll L i decls = .ok ms) (delay : Delay) :
    .latencyInjector delay ∈ ms ↔ ∃ d ∈ decls, ∃ value r, d.leaf = .latency value ∧
      DurationOrRange.fromStr value = .ok r ∧ delay = r.delay := by
  induction decls generalizing i ms with
  | nil =>
      cases h
      simp
  | cons d decls ih =>
      obtain ⟨m, hm, h⟩ := doBind_eq_ok_iff.mp h
      obtain ⟨rest, hrest, rfl⟩ := map_eq_ok_iff.mp h
      have hhead : .latencyInjector delay = m ↔ ∃ value r, d.leaf = .latency value ∧
          DurationOrRange.fromStr value = .ok r ∧ delay = r.delay := by
        constructor
        · rintro rfl
          exact emit_eq_latencyInjector hm
        · rintro ⟨value, r, hleaf, hr, rfl⟩
          rw [hleaf, Leaf.emit, emitLatency_eq, hr] at hm
          exact Except.ok.inj hm
      rw [List.mem_cons, hhead, ih hrest]
      simp

/-- A delay can be sampled, whatever is chosen, unless it is an empty range. -/
theorem duration_ne_error_iff (r : DurationOrRange) :
    (∀ choose p, r.delay.duration choose ≠ .error p) ↔ ∀ lo hi, r = .range lo hi → lo < hi := by
  cases r with
  | fixed d => simp [DurationOrRange.delay, Delay.duration]
  | range lo hi =>
      by_cases hlt : lo < hi
      · simp [DurationOrRange.delay, Delay.duration, hlt]
      · simp [DurationOrRange.delay, Delay.duration, hlt]

/-- What a listener was built from. -/
theorem emitAll_of_buildListeners {settings : ProcessSettings} {process : Option RedisConfig}
    {globals : List RuleNode} {ls : List Listener} {cache : RedisCache}
    {out : List (BuiltListener C)}
    (h : buildListeners L settings process globals ls cache = .ok out) :
    ∀ built ∈ out, emitAll L 0 built.listener.decls = .ok built.middlewares := by
  induction ls generalizing cache out with
  | nil =>
      cases h
      simp
  | cons l ls ih =>
      rw [buildListeners] at h
      split at h
      · cases h
      · rename_i built cache' hbuilt
        obtain ⟨rest, hrest, rfl⟩ := map_eq_ok_iff.mp h
        intro b hb
        rcases List.mem_cons.mp hb with rfl | hb
        · unfold buildListener at hbuilt
          split at hbuilt
          · cases hbuilt
          · split at hbuilt
            · cases hbuilt
            · obtain ⟨ms, hms, heq⟩ := map_eq_ok_iff.mp hbuilt
              obtain ⟨rfl, -⟩ := Prod.mk.inj heq
              obtain ⟨_, -, hms⟩ := doBind_eq_ok_iff.mp hms
              obtain ⟨_, -, hms⟩ := doBind_eq_ok_iff.mp hms
              obtain ⟨ms', hms', hms⟩ := doBind_eq_ok_iff.mp hms
              obtain ⟨_, -, rfl⟩ := map_eq_ok_iff.mp hms
              exact hms'
        · exact ih hrest b hb

theorem emitAll_of_compile {cfg : ProxyConfig} {out : List (BuiltListener C)}
    (h : cfg.compile C L = .ok out) :
    ∀ built ∈ out, emitAll L 0 built.listener.decls = .ok built.middlewares := by
  unfold ProxyConfig.compile at h
  split at h
  · cases h
  split at h
  · cases h
  split at h
  · cases h
  exact emitAll_of_buildListeners h

end Latencies

/-! ### The result -/

/-- Compiling does not panic, and the latencies of a listener that it returns can be sampled,
whatever `rand` chooses. -/
def ProxyConfig.Sound (C : Crates) (L : Libraries) (cfg : ProxyConfig) : Prop :=
  (∀ p, cfg.compile C L ≠ .error (.panic p)) ∧
    ∀ out, cfg.compile C L = .ok out → ∀ built ∈ out, ∀ delay,
      .latencyInjector delay ∈ built.middlewares → ∀ choose p, delay.duration choose ≠ .error p

section Result

variable {C : Crates} {L : Libraries} {cfg : ProxyConfig}

/-- Compiling does not panic exactly if every check that is reached is harmless. -/
theorem compile_ne_panic_iff :
    (∀ p, cfg.compile C L ≠ .error (.panic p)) ↔
      ∀ pre c post, cfg.checks C L = pre ++ c :: post →
        (∀ c' ∈ pre, c'.run C L = .ok ()) → c.Harmless C L := by
  constructor
  · intro h pre c post hchecks hpre
    by_contra hharm
    obtain ⟨p, hp⟩ := (c.panics_iff C L).mpr hharm
    exact h p ((consults_compile cfg).eq_error_iff.mpr ⟨pre, c, post, hchecks, hpre, hp⟩)
  · intro h p hp
    obtain ⟨pre, c, post, hchecks, hpre, hc⟩ := (consults_compile cfg).eq_error_iff.mp hp
    exact (c.panics_iff C L).mp ⟨p, hc⟩ (h pre c post hchecks hpre)

/-- The listeners that are returned have the declarations of the configuration. -/
theorem exists_built_iff {out : List (BuiltListener C)} (h : cfg.compile C L = .ok out)
    (decls : List (Decl C)) :
    (∃ built ∈ out, built.listener.decls = decls) ↔
      ∃ l ∈ cfg.listeners, l.decls C cfg.redis cfg.body = decls := by
  have hmem : decls ∈ out.map (fun built => built.listener.decls) ↔
      decls ∈ cfg.listeners.map (Listener.decls C cfg.redis cfg.body) := by
    rw [compile_decls h]
  simpa using hmem

/-- The latencies of what is returned can be sampled exactly if none is an empty range. -/
theorem latencies_sampled_iff {out : List (BuiltListener C)} (h : cfg.compile C L = .ok out) :
    (∀ built ∈ out, ∀ delay, .latencyInjector delay ∈ built.middlewares →
        ∀ choose p, delay.duration choose ≠ .error p) ↔
      ∀ l ∈ cfg.listeners, ∀ d ∈ l.decls C cfg.redis cfg.body, ∀ value lo hi,
        d.leaf = .latency value → DurationOrRange.fromStr value = .ok (.range lo hi) → lo < hi := by
  constructor
  · intro hall l hl d hd value lo hi hleaf hvalue
    obtain ⟨built, hbuilt, hdecls⟩ := (exists_built_iff h _).mpr ⟨l, hl, rfl⟩
    have hmem := (mem_emitAll_latency (emitAll_of_compile h built hbuilt)
      (DurationOrRange.delay (.range lo hi))).mpr
        ⟨d, by rwa [hdecls], value, _, hleaf, hvalue, rfl⟩
    exact (duration_ne_error_iff (.range lo hi)).mp (hall built hbuilt _ hmem) lo hi rfl
  · intro hall built hbuilt delay hmem
    obtain ⟨l, hl, hdecls⟩ := (exists_built_iff h _).mp ⟨built, hbuilt, rfl⟩
    obtain ⟨d, hd, value, r, hleaf, hvalue, rfl⟩ :=
      (mem_emitAll_latency (emitAll_of_compile h built hbuilt) delay).mp hmem
    refine (duration_ne_error_iff r).mpr fun lo hi hr => ?_
    exact hall l hl d (by rwa [hdecls]) value lo hi hleaf (hr ▸ hvalue)

end Result

/-- **When compiling a configuration is sound.**  Whatever the crates and the machine answer:
`into_listeners` never panics, and the latencies of the listeners that it returns can be
sampled, exactly if every check that is reached, all before it having passed, is harmless, and
if all pass, no latency of a listener is a range that is empty. -/
theorem into_listeners_sound_iff (C : Crates) (L : Libraries) (cfg : ProxyConfig) :
    cfg.Sound C L ↔
      (∀ pre c post, cfg.checks C L = pre ++ c :: post →
        (∀ c' ∈ pre, c'.run C L = .ok ()) → c.Harmless C L) ∧
      ((∀ c ∈ cfg.checks C L, c.run C L = .ok ()) →
        ∀ l ∈ cfg.listeners, ∀ d ∈ l.decls C cfg.redis cfg.body, ∀ value lo hi,
          d.leaf = .latency value → DurationOrRange.fromStr value = .ok (.range lo hi) →
            lo < hi) := by
  unfold ProxyConfig.Sound
  rw [compile_ne_panic_iff, ← (consults_compile cfg).isOk_iff]
  refine and_congr_right fun _ => ⟨?_, ?_⟩
  · rintro h ⟨out, hout⟩
    exact (latencies_sampled_iff hout).mp (h out hout)
  · intro h out hout
    exact (latencies_sampled_iff hout).mpr (h ⟨out, hout⟩)

/-- The texts of the real crate, globs that match themselves only, and a client that accepts
every URL. -/
def Crates.ascii : Crates where
  http := .ascii
  glob pattern := .ok (· == pattern)
  redisOpen _ := .ok ()

/-- Files that can all be read, visible header values, and no rewriting. -/
def Libraries.plain : Libraries where
  headerValue text := if (utf8 text).all isVisibleAscii then some (utf8 text) else none
  rewrite := ⟨fun _ => .error "unsupported", fun _ => .error "unsupported"⟩
  readToString _ := .ok ""
  transpileSource source _ := .ok source
  certificateAuthority _ _ := .ok ()
  tlsIdentity _ _ := .ok ()
  singleCert _ _ := .ok ()

/-- A forward listener with one rule. -/
def forwardWith (leaf : Leaf) : ProxyConfig where
  redis := none
  forwards :=
    [⟨UInt16.ofNat 8080, none, ⟨"ca-cert.pem", "ca-key.pem"⟩, none, [], none, [.leaf leaf]⟩]
  reverses := []
  body := []

/-- **Configurations that panic.**  A negative latency, a window that is too long, a bandwidth
of zero, a header name with a blank, a header value with a line feed and a status of two
digits each make `into_listeners` panic; and it returns a listener whose latency, from 500 ms
to 100 ms, can not be sampled. -/
theorem into_listeners_panics :
    (forwardWith (.latency "-1s")).compile .ascii .plain = .error (.panic .negativeDuration) ∧
    (forwardWith (.rateLimit 1 "1e20s" none false)).compile .ascii .plain =
      .error (.panic .durationOverflow) ∧
    (forwardWith (.bandwidth 0)).compile .ascii .plain = .error (.panic .bytesPerSecond) ∧
    (forwardWith (.setRequestHeader "x app" "1")).compile .ascii .plain =
      .error (.panic .headerName) ∧
    (forwardWith (.setRequestHeader "x-app" "a\nb")).compile .ascii .plain =
      .error (.panic .headerValue) ∧
    (forwardWith (.retry none none none none none none (some [42]) none)).compile .ascii .plain =
      .error (.panic .statusCode) ∧
    ∃ out, (forwardWith (.latency "500ms..100ms")).compile .ascii .plain = .ok out ∧
      ∃ built ∈ out, ∃ delay, .latencyInjector delay ∈ built.middlewares ∧
        ∀ choose, delay.duration choose = .error .emptyRange := by
  refine ⟨by decide +kernel, by decide +kernel, by decide +kernel, by decide +kernel,
    by decide +kernel, by decide +kernel, ?_⟩
  cases hout : (forwardWith (.latency "500ms..100ms")).compile .ascii .plain with
  | error e =>
      have hok : ((forwardWith (.latency "500ms..100ms")).compile .ascii .plain).isOk = true := by
        decide +kernel
      rw [hout] at hok
      cases hok
  | ok out =>
      obtain ⟨built, hbuilt, hdecls⟩ := (exists_built_iff hout _).mpr ⟨_, List.mem_cons_self, rfl⟩
      refine ⟨out, rfl, built, hbuilt, .uniform 500000000 100000000, ?_, fun _ => rfl⟩
      refine (mem_emitAll_latency (emitAll_of_compile hout built hbuilt) _).mpr ?_
      rw [hdecls]
      exact ⟨_, List.mem_cons_self, "500ms..100ms", .range 500000000 100000000, rfl,
        by decide +kernel, rfl⟩

end Config
end Noxy

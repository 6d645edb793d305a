/-
# Blocking hosts

`src/middleware/block_list.rs`: `BlockList` and `BlockListService`, and the part of
`Proxy::handshake` in `src/lib.rs` that makes the service of a tunnel from the
`CONNECT` authority.

A host list blocks a request by the host the request names: the host of its URI,
or else its `Host` line.  In forward mode the request goes elsewhere: to the
`CONNECT` authority, which the client sent before and independently
(`handshake`).  So in a tunnel to a blocked host a request is answered by the
block list exactly if the host that the request itself names is blocked too
(`tunnel_blocked_iff`), and a client that names another one reaches the blocked
host (`blocked_host_reached`).
-/

import Noxy.Config.Match
import Noxy.Http.Text
import Noxy.Lib.Fallible
import Noxy.Proxy.Builder

namespace Noxy
namespace Proxy

open Http Config Lib

/-- `BlockList`. -/
structure BlockList (C : Crates) where
  isBlocked : Request C.http → Bool
  respond : Request C.http → Response

/-- `default_respond`. -/
def defaultRespond (C : Crates) : Request C.http → Response := fun _ => ⟨403, [], emptyBody⟩

section Lists

variable (C : Crates)

/-- `extract_host`, which the match predicates have a copy of. -/
def extractHost (req : Request C.http) : Option String := requestHost C req

namespace BlockList

/-- `BlockList::new`. -/
def new : BlockList C := ⟨fun _ => false, defaultRespond C⟩

/-- `BlockList::matching`. -/
def matching (predicate : Request C.http → Bool) : BlockList C := ⟨predicate, defaultRespond C⟩

/-- `BlockList::hosts`. -/
def hosts (patterns : List String) : Except String (BlockList C) := do
  let matchers ← patterns.mapM (compileGlob C)
  return ⟨fun req => (extractHost C req).any fun host => matchers.any fun m => m host,
    defaultRespond C⟩

/-- `BlockList::paths`. -/
def paths (patterns : List String) : Except String (BlockList C) := do
  let matchers ← patterns.mapM (compileGlob C)
  return ⟨fun req => matchers.any fun m => m (C.http.path req.uri), defaultRespond C⟩

variable {C}

/-- `BlockList::host`. -/
def host (bl : BlockList C) (pattern : String) : Except String (BlockList C) := do
  let matcher ← compileGlob C pattern
  return ⟨fun req => bl.isBlocked req || (extractHost C req).any matcher, bl.respond⟩

/-- `BlockList::path`. -/
def path (bl : BlockList C) (pattern : String) : Except String (BlockList C) := do
  let matcher ← compileGlob C pattern
  return ⟨fun req => bl.isBlocked req || matcher (C.http.path req.uri), bl.respond⟩

/-- `BlockList::respond_with`. -/
def respondWith (bl : BlockList C) (f : Request C.http → Response) : BlockList C :=
  { bl with respond := f }

/-- `BlockList::response`. -/
def response (bl : BlockList C) (status : ℕ) (body : List UInt8) : BlockList C :=
  bl.respondWith fun _ => ⟨status, [], fullBody body⟩

/-- `BlockListService::call`, around the service `inner`. -/
def layer (bl : BlockList C) : LayerFn C.http := fun inner req world =>
  if bl.isBlocked req then (.ok (bl.respond req), world) else inner req world

variable (C)

/-- A list of host patterns: those of `hosts`, and those added with `host` one by
one. -/
def hostList (patterns more : List String) : Except String (BlockList C) := do
  more.foldlM host (← hosts C patterns)

end BlockList

/-- A host matches one of the patterns. -/
def MatchesAny (patterns : List String) (name : String) : Prop :=
  ∃ pattern ∈ patterns, ∃ matcher, compileGlob C pattern = .ok matcher ∧ matcher name = true

variable {C}

namespace BlockList

/-- The matchers of a list are those of its patterns. -/
theorem exists_mem_mapM_iff {patterns : List String} {matchers : List (String → Bool)}
    (h : patterns.mapM (compileGlob C) = .ok matchers) (name : String) :
    (∃ m ∈ matchers, m name = true) ↔ MatchesAny C patterns name := by
  have hall := mem_of_forall₂ (listMapM_eq_ok_iff.mp h)
  constructor
  · rintro ⟨m, hm, hname⟩
    obtain ⟨pattern, hpattern, hcompiled⟩ := (hall m).mp hm
    exact ⟨pattern, hpattern, m, hcompiled, hname⟩
  · rintro ⟨pattern, hpattern, m, hcompiled, hname⟩
    exact ⟨m, (hall m).mpr ⟨pattern, hpattern, hcompiled⟩, hname⟩

/-- What `hosts` blocks. -/
theorem isBlocked_hosts {patterns : List String} {bl : BlockList C}
    (h : hosts C patterns = .ok bl) (req : Request C.http) :
    bl.isBlocked req = true ↔
      ∃ name, extractHost C req = some name ∧ MatchesAny C patterns name := by
  obtain ⟨matchers, hm, hbl⟩ := doBind_eq_ok_iff.mp h
  obtain rfl := Except.ok.inj hbl
  cases hname : extractHost C req with
  | none => simp [hname]
  | some name => simp [hname, ← exists_mem_mapM_iff hm]

/-- What one more `host` blocks. -/
theorem isBlocked_host {bl bl' : BlockList C} {patterns : List String} {pattern : String}
    (h : bl.host pattern = .ok bl') {req : Request C.http}
    (hbl : bl.isBlocked req = true ↔
      ∃ name, extractHost C req = some name ∧ MatchesAny C patterns name) :
    bl'.isBlocked req = true ↔
      ∃ name, extractHost C req = some name ∧ MatchesAny C (patterns ++ [pattern]) name := by
  obtain ⟨m, hp, hok⟩ := doBind_eq_ok_iff.mp h
  obtain rfl := Except.ok.inj hok
  simp only [Bool.or_eq_true, hbl, MatchesAny, List.mem_append, List.mem_singleton]
  cases extractHost C req with
  | none => simp
  | some name =>
      simp only [Option.some.injEq, exists_eq_left', Option.any_some, or_and_right, exists_or,
        exists_eq_left, hp, Except.ok.injEq]

/-- **What a list of host patterns blocks:** the requests that name a host matching
one of them. -/
theorem isBlocked_hostList {patterns more : List String} {bl : BlockList C}
    (h : hostList C patterns more = .ok bl) (req : Request C.http) :
    bl.isBlocked req = true ↔
      ∃ name, extractHost C req = some name ∧ MatchesAny C (patterns ++ more) name := by
  obtain ⟨bl₀, hh, hmore⟩ := doBind_eq_ok_iff.mp h
  have hbl := isBlocked_hosts hh req
  clear h hh
  -- one more `host` at a time, with the patterns of the list so far
  induction more generalizing bl₀ patterns with
  | nil =>
      obtain rfl : bl₀ = bl := Except.ok.inj hmore
      rwa [List.append_nil]
  | cons pattern more ih =>
      rw [List.foldlM_cons] at hmore
      obtain ⟨bl₁, hp, hrest⟩ := doBind_eq_ok_iff.mp hmore
      rw [List.append_cons]
      exact ih bl₁ hrest (isBlocked_host hp hbl)

end BlockList
end Lists

/-- The host of a `CONNECT` authority: what is before its last colon. -/
def connectHost (authority : String) : String :=
  if ':' ∈ authority.toList then
    String.ofList (authority.toList.reverse.dropWhile (· != ':')).tail.reverse
  else authority

/-- The port of a `CONNECT` authority: what is after its last colon. -/
def connectPort (authority : String) : Except String ℕ :=
  if ':' ∈ authority.toList then
    parseUnsigned 16 (String.ofList (authority.toList.reverse.takeWhile (· != ':')).reverse)
  else .ok 443

variable {H : HttpCrate}

/-- `Proxy::handshake`, from the `CONNECT` authority on: the service of the tunnel.
`parse` is `str::parse::<Authority>`. -/
def handshake (parse : String → Except String H.Authority) (out : Outside H) (p : BuiltProxy H)
    (authority : String) : Except String (HttpService H) := do
  let host := connectHost authority
  let port ← connectPort authority
  let authority ← parse s!"{host}:{port}"
  return p.buildServiceChain out authority H.HTTPS

/-- The service of a tunnel is that of a connection in forward mode. -/
theorem handshake_ok {parse : String → Except String H.Authority} {out : Outside H}
    {p : BuiltProxy H} {authority : String} {service : HttpService H}
    (h : handshake parse out p authority = .ok service) :
    ∃ connect, service = p.buildServiceChain out connect H.HTTPS := by
  obtain ⟨port, -, hparsed⟩ := doBind_eq_ok_iff.mp h
  obtain ⟨connect, -, hservice⟩ := doBind_eq_ok_iff.mp hparsed
  exact ⟨connect, (Except.ok.inj hservice).symm⟩

/-- A forward proxy whose only layer is `layer` and that has no routes. -/
theorem buildServiceChain_single {out : Outside H} {b : ProxyBuilder H} {p : BuiltProxy H}
    {layer : LayerFn H} (hb : b.build out = .ok p) (hforward : b.upstreamTarget = none)
    (hroutes : b.routes = []) (hlayers : b.layers = [layer]) (connect : H.Authority) :
    p.buildServiceChain out connect H.HTTPS =
      layer ((⟨connect, H.HTTPS, b.requestTimeout⟩ : ForwardService H).call out) := by
  unfold ProxyBuilder.build at hb
  rw [hforward, hroutes, hlayers] at hb
  cases hca : b.ca with
  | false =>
      rw [hca] at hb
      cases hb
  | true =>
      rw [hca] at hb
      obtain rfl := Except.ok.inj hb
      rfl

/-- **When a tunnel to a blocked host is blocked.**  In forward mode, with a list of
host patterns as the only layer and no routes, take a tunnel to a host that matches
one of the patterns.  A request in it is answered by the block list and not
forwarded exactly if the host that the request itself names, in its URI or else in
its `Host` line, matches one of them. -/
theorem tunnel_blocked_iff {C : Crates} (parse : String → Except String C.http.Authority)
    {out : Outside C.http} {b : ProxyBuilder C.http} {p : BuiltProxy C.http}
    {patterns more : List String} {bl : BlockList C} (respond : Request C.http → Response)
    (hlist : BlockList.hostList C patterns more = .ok bl)
    (hb : b.build out = .ok p) (hforward : b.upstreamTarget = none) (hroutes : b.routes = [])
    (hlayers : b.layers = [(bl.respondWith respond).layer])
    {authority : String} {service : HttpService C.http}
    (hservice : handshake parse out p authority = .ok service)
    (req : Request C.http) (world : World C.http) :
    (MatchesAny C (patterns ++ more) (connectHost authority) →
        service req world = (.ok (respond req), world)) ↔
      (MatchesAny C (patterns ++ more) (connectHost authority) →
        ∃ name, extractHost C req = some name ∧ MatchesAny C (patterns ++ more) name) := by
  refine imp_congr_right fun _ => ?_
  obtain ⟨connect, rfl⟩ := handshake_ok hservice
  rw [buildServiceChain_single hb hforward hroutes hlayers, ← BlockList.isBlocked_hostList hlist]
  by_cases h : bl.isBlocked req = true
  · exact iff_of_true (if_pos h) h
  · refine iff_of_false (fun heq => ?_) h
    -- What is not blocked is handed to the client, so the world is another one.
    have hpass : (bl.respondWith respond).isBlocked req ≠ true := h
    rw [BlockList.layer, if_neg hpass] at heq
    have hsent := congrArg (fun r => r.2.sent.length) heq
    simp [ForwardService.call] at hsent

/-- A forward proxy with a block list. -/
def adBlocker (bl : BlockList .plain) : ProxyBuilder .plain :=
  { ca := true
    upstreamTarget := none
    routes := []
    layers := [bl.layer]
    requestTimeout := none }

/-- `GET /` with a `Host` line. -/
def getFrom (name : String) : Request .plain :=
  { plainRequest "GET" (.ofPath none "/") with headers := [("host", utf8 name)] }

/-- The hypotheses of `tunnel_blocked_iff` are met by a list of one host and a tunnel
to it: a request that names the host is answered with 403. -/
theorem tunnel_blocked_named : ∃ (bl : BlockList .plain) (p : BuiltProxy .plain)
    (service : HttpService .plain),
    (adBlocker bl).build plainOutside = .ok p ∧
      handshake .ok plainOutside p "ads.example:443" = .ok service ∧
      service (getFrom "ads.example") plainWorld = (.ok ⟨403, [], emptyBody⟩, plainWorld) := by
  obtain ⟨bl, hlist⟩ : ∃ bl, BlockList.hostList .plain ["ads.example"] [] = .ok bl := ⟨_, rfl⟩
  obtain ⟨p, hp⟩ : ∃ p, (adBlocker (bl.respondWith (defaultRespond .plain))).build
    plainOutside = .ok p := ⟨_, rfl⟩
  obtain ⟨service, hs⟩ : ∃ service,
    handshake .ok plainOutside p "ads.example:443" = .ok service := ⟨_, rfl⟩
  have hmatch : MatchesAny .plain (["ads.example"] ++ []) "ads.example" :=
    ⟨_, List.mem_singleton_self _, _, rfl, by decide⟩
  have hhost : connectHost "ads.example:443" = "ads.example" := by decide
  refine ⟨_, p, service, hp, hs, ?_⟩
  refine (tunnel_blocked_iff .ok (defaultRespond .plain) hlist hp rfl rfl rfl hs
    (getFrom "ads.example") plainWorld).mpr (fun _ => ⟨"ads.example", by decide, hmatch⟩) ?_
  rwa [hhost]

/-- **A blocked host is reached.**  `ads.example` is blocked.  In a tunnel to
`ads.example:443` a `GET /` with the line `Host: cdn.example` is sent to
`ads.example:443`. -/
theorem blocked_host_reached : ∃ (bl : BlockList .plain) (p : BuiltProxy .plain)
    (service : HttpService .plain),
    BlockList.hostList .plain ["ads.example"] [] = .ok bl ∧
      (adBlocker bl).build plainOutside = .ok p ∧
      handshake .ok plainOutside p "ads.example:443" = .ok service ∧
      MatchesAny .plain ["ads.example"] (connectHost "ads.example:443") ∧
      ((service (getFrom "cdn.example") plainWorld).2.sent.map fun req =>
        HttpCrate.plain.authority req.uri) = [some "ads.example:443"] :=
  ⟨_, _, _, rfl, rfl, rfl, ⟨_, List.mem_singleton_self _, _, rfl, by decide⟩, rfl⟩

end Proxy
end Noxy

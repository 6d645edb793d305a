/-
# Routing to upstreams

`src/middleware/router.rs`: `Upstream`, `Router` and `RouterService`.  A router
tries its predicates in order, marks the request with the backend that the first
matching upstream picks, and passes it on; a request that no predicate and no
default upstream takes is answered with 502.

An upstream has at least one backend, which `Upstream::new` checks and
`Upstream.nonempty` records, so that `pick` never indexes out of bounds.  Its
counter is shared by all clones: it is a cell of the `World`, and the upstream
holds the cell's address.  `rand::random_range` gives some index below the number
of backends.
-/

import Mathlib.Algebra.Order.Ring.Rat
import Noxy.Http.Forward

namespace Noxy
namespace Proxy

open Http

/-- `LoadBalanceStrategy`. -/
inductive LoadBalanceStrategy where
  | roundRobin
  | random
  deriving DecidableEq, Repr

/-- `Upstream`; a `Backend` is the target it makes, and the counter is the address
of its cell. -/
structure Upstream (H : HttpCrate) where
  backends : List (UpstreamTarget H)
  nonempty : 0 < backends.length
  strategy : LoadBalanceStrategy
  counter : ℕ

/-- The values of `usize`. -/
def USIZE_SIZE : ℕ := 2 ^ 64

variable {H : HttpCrate}

/-- `parse_backend`. -/
def parseBackend (url : String) : Except String (UpstreamTarget H) :=
  match H.parse url with
  | .error e => .error s!"invalid upstream URL '{url}': {e}"
  | .ok uri =>
      let scheme := (H.scheme uri).getD H.HTTP
      match H.authority uri with
      | none => .error s!"upstream URL '{url}' must contain a host"
      | some authority => .ok ⟨authority, scheme⟩

namespace Upstream

/-- `Upstream::new`, with its counter in the cell `counter`. -/
def new (urls : List String) (counter : ℕ) : Except String (Upstream H) :=
  match urls.mapM (parseBackend (H := H)) with
  | .error e => .error e
  | .ok backends =>
      if h : 0 < backends.length then .ok ⟨backends, h, .roundRobin, counter⟩
      else .error "at least one upstream URL is required"

/-- `Upstream::strategy`. -/
def withStrategy (u : Upstream H) (strategy : LoadBalanceStrategy) : Upstream H :=
  { u with strategy := strategy }

/-- The backend at an index, wrapped around. -/
def backend (u : Upstream H) (i : ℕ) : UpstreamTarget H :=
  u.backends.get ⟨i % u.backends.length, Nat.mod_lt _ u.nonempty⟩

/-- `to_target`, with the `pick` it makes. -/
def toTarget (out : Outside H) (u : Upstream H) (world : World H) : UpstreamTarget H × World H :=
  if u.backends.length = 1 then (u.backend 0, world)
  else
    match u.strategy with
    | .roundRobin =>
        (u.backend (world.counters u.counter),
          { world with
            counters := Function.update world.counters u.counter
              ((world.counters u.counter + 1) % USIZE_SIZE) })
    | .random => (u.backend (out.random world.drawn), { world with drawn := world.drawn + 1 })

/-- Picking a backend hands nothing to the client. -/
theorem toTarget_sent (out : Outside H) (u : Upstream H) (world : World H) :
    (u.toTarget out world).2.sent = world.sent := by
  unfold toTarget
  split
  · rfl
  · cases u.strategy <;> rfl

/-- **An upstream sends to its own backends only.** -/
theorem toTarget_mem (out : Outside H) (u : Upstream H) (world : World H) :
    (u.toTarget out world).1 ∈ u.backends := by
  unfold toTarget
  split
  · exact List.get_mem ..
  · cases u.strategy <;> exact List.get_mem ..

end Upstream

/-- A route: `(Predicate, Upstream)`. -/
abbrev Route (H : HttpCrate) := (Request H → Bool) × Upstream H

/-- `Router`. -/
structure Router (H : HttpCrate) where
  routes : List (Route H)
  default : Option (Upstream H)

namespace Router

/-- `Router::new`. -/
def new : Router H := ⟨[], none⟩

/-- `Router::route`. -/
def route (r : Router H) (predicate : Request H → Bool) (upstream : Upstream H) : Router H :=
  { r with routes := r.routes ++ [(predicate, upstream)] }

/-- The 502 of a request without an upstream. -/
def noUpstream : Response :=
  ⟨502, [], fullBody (utf8 "no upstream configured for this request")⟩

/-- The upstream of a request: that of the first route whose predicate holds. -/
def firstMatch (routes : List (Route H)) (req : Request H) : Option (Upstream H) :=
  (routes.find? fun r => r.1 req).map Prod.snd

/-- `RouterService::call`. -/
def layer (out : Outside H) (r : Router H) (inner : HttpService H) : HttpService H :=
  fun req world =>
    match (firstMatch r.routes req).or r.default with
    | some upstream =>
        let (target, world) := upstream.toTarget out world
        inner { req with upstreamTarget := some target } world
    | none => (.ok noUpstream, world)

end Router
end Proxy
end Noxy

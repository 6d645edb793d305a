/-
# Requests through the circuit breaker

`src/middleware/circuit_breaker.rs`: `CircuitBreakerService::call`, over the
in-memory store.

The future that `call` returns does two things to the store: `check`, at its
first poll, and `record`, when the inner response has come.  Between the two it
awaits the inner service, and there it can be suspended for any time: the inner
service may answer, it may fail, in which case the `?` leaves without a
`record`, or the future may be dropped, for instance because the client has gone
away.  Neither `check` nor `record` suspends, so a system of any number of
requests is a sequence of these four events (`Event`), in any order.

The state is the store and the requests that await the inner service.  A request
carries one bit that the code has not: whether it was let through in the
half-open episode its key is in now.  It is set when `check` leaves the circuit
half open and cleared as soon as the circuit is anything else.
-/

import Noxy.CircuitBreaker.State
import Noxy.Lib.Run

namespace Noxy
namespace CircuitBreaker

open Lib Store

/-- What `CircuitBreakerService` holds beside the inner service and the store. -/
structure CircuitBreakerService (Req Resp : Type*) where
  keyFn : Req → String
  failurePolicy : Resp → Bool
  rejectStatus : ℕ
  rejectBody : String

/-- `CircuitBreaker::keyed`, with the defaults of the builder; `serverError` is
`resp.status().is_server_error()`. -/
def CircuitBreakerService.keyed {Req Resp : Type*} (serverError : Resp → Bool)
    (keyFn : Req → String) : CircuitBreakerService Req Resp :=
  { keyFn := keyFn
    failurePolicy := serverError
    rejectStatus := 503
    rejectBody := "circuit breaker open" }

/-- `CircuitBreaker::global`. -/
def CircuitBreakerService.global {Req Resp : Type*} (serverError : Resp → Bool) :
    CircuitBreakerService Req Resp :=
  keyed serverError fun _ => ""

/-- A request that awaits the inner service.  `probe`: it was let through in the
half-open episode its key is in now. -/
structure Outstanding where
  key : String
  probe : Bool
  deriving DecidableEq, Repr

/-- The store and the requests that await the inner service. -/
structure System where
  store : SharedState
  outstanding : List Outstanding
  deriving DecidableEq

/-- What can happen to a request.  A request that awaits the inner service is
named by its position among those that do. -/
inductive Event (Req Resp Err : Type*) where
  /-- The future of a request is polled for the first time. -/
  | poll (req : Req) (now later : ℤ) (order : IterOrder String CircuitEntry)
  /-- The inner service answers. -/
  | respond (i : ℕ) (resp : Resp) (now later : ℤ) (order : IterOrder String CircuitEntry)
  /-- The inner service fails. -/
  | fail (i : ℕ) (err : Err)
  /-- The future is dropped. -/
  | drop (i : ℕ)

/-- What a request ends with. -/
inductive Answer (Resp Err : Type*) where
  | rejected (status : ℕ) (body : String)
  | response (resp : Resp)
  | error (err : Err)
  deriving DecidableEq, Repr

/-- The circuit is half open. -/
def isHalfOpen : Option State → Bool
  | some (.halfOpen _) => true
  | _ => false

/-- Clear the bit of the requests whose key is not half open. -/
def settle (store : SharedState) (outstanding : List Outstanding) : List Outstanding :=
  outstanding.map fun r => { r with probe := r.probe && isHalfOpen (store.circuit r.key) }

/-- The request that a `check` lets through, if it does. -/
def letIn (store : SharedState) (c : Call) : List Outstanding :=
  match store.answer c with
  | some .allow => [⟨c.key, isHalfOpen ((store.step c).circuit c.key)⟩]
  | _ => []

namespace System

/-- Nothing outstanding, and a new store with any settings. -/
def start (threshold recovery halfOpenProbes maxKeys idleTtl : ℕ) (now : ℤ) : System :=
  { store := (((SharedState.new threshold recovery now).setHalfOpenProbes
      halfOpenProbes).setMaxKeys maxKeys).setIdleTtl idleTtl
    outstanding := [] }

/-- How many requests for `k` are outstanding that were let through in the
half-open episode `k` is in. -/
def probes (sys : System) (k : String) : ℕ :=
  sys.outstanding.countP fun r => decide (r.key = k) && r.probe

end System

namespace CircuitBreakerService

variable {Req Resp Err : Type*} (svc : CircuitBreakerService Req Resp)

/-- The `check` of a request. -/
def checkCall (req : Req) (now later : ℤ) (order : IterOrder String CircuitEntry) : Call :=
  ⟨svc.keyFn req, .check, now, later, order⟩

/-- The `record` of an outstanding request. -/
def recordCall (r : Outstanding) (resp : Resp) (now later : ℤ)
    (order : IterOrder String CircuitEntry) : Call :=
  ⟨r.key, .record (!svc.failurePolicy resp), now, later, order⟩

/-- The system after an event. -/
def step (sys : System) : Event Req Resp Err → System
  | .poll req now later order =>
      let c := svc.checkCall req now later order
      let store := sys.store.step c
      { store := store, outstanding := settle store sys.outstanding ++ letIn sys.store c }
  | .respond i resp now later order =>
      match sys.outstanding[i]? with
      | none => sys
      | some r =>
          let store := sys.store.step (svc.recordCall r resp now later order)
          { store := store, outstanding := settle store (sys.outstanding.eraseIdx i) }
  | .fail i _ => { sys with outstanding := sys.outstanding.eraseIdx i }
  | .drop i => { sys with outstanding := sys.outstanding.eraseIdx i }

theorem step_respond_none {sys : System} {i : ℕ} (hi : sys.outstanding[i]? = none) (resp : Resp)
    (now later : ℤ) (order : IterOrder String CircuitEntry) :
    svc.step sys (.respond i resp now later order : Event Req Resp Err) = sys := by
  simp only [step, hi]

theorem step_respond_some {sys : System} {i : ℕ} {r : Outstanding}
    (hi : sys.outstanding[i]? = some r) (resp : Resp) (now later : ℤ)
    (order : IterOrder String CircuitEntry) :
    svc.step sys (.respond i resp now later order : Event Req Resp Err) =
      { store := sys.store.step (svc.recordCall r resp now later order)
        outstanding := settle (sys.store.step (svc.recordCall r resp now later order))
          (sys.outstanding.eraseIdx i) } := by
  simp only [step, hi]

/-- What the request of an event ends with, if it does. -/
def answer (sys : System) : Event Req Resp Err → Option (Answer Resp Err)
  | .poll req now later order =>
      match sys.store.answer (svc.checkCall req now later order) with
      | some .reject => some (.rejected svc.rejectStatus svc.rejectBody)
      | _ => none
  | .respond i resp _ _ _ => sys.outstanding[i]?.map fun _ => .response resp
  | .fail i err => sys.outstanding[i]?.map fun _ => .error err
  | .drop _ => none

end CircuitBreakerService
end CircuitBreaker
end Noxy

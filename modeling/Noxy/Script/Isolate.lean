/-
# The isolate of a script

`src/middleware/script.rs`: `spawn_v8_thread`, `handle_request`, the ops of the runtime, and the
loop of `ScriptService::call` that serves the commands of the op `respond`.

An isolate serves one request after the other, and its requests may come from different
connections.  The ops do not know which request called them.  They are lazy: an op reads the
`RequestState` when the event loop polls it for the first time, and `respond` writes to it when it
is done.  The event loop is polled while a request is served, until the promise of its handler is
settled; what is pending then stays pending, and goes on when the next request is served.

The state machine here has one event for each of these steps.  A request is a number, the place of
its envelope.  What an op or a `call` does is an `Effect` that names the request whose code asked
for it and the one that it is done to (`Effect.Own`).

A `call` ends here with its request only (`callReturns`).  In the source it may also end before: it
is dropped when its client disconnects, and it returns the error if `poll_ready` of the inner
service fails.  Neither is modelled.
-/

import Mathlib.Data.List.Basic
import Noxy.Lib.Run
import Noxy.Script.Runtime

namespace Noxy
namespace Script

open Http Lib

/-- The async ops, with their arguments. -/
inductive AsyncOp where
  | reqBody
  | respond (request : RequestMeta) (body : Option (List UInt8))
  | resBody

/-- How far an op has come. -/
inductive Stage where
  /-- It has not been polled yet. -/
  | called (op : AsyncOp)
  /-- `collect_limited`, of the body that it has taken. -/
  | reading (body : Option Body)
  /-- A `RespondCommand` is on its way to the `call` of a request. -/
  | sent (target : ℕ) (request : RequestMeta) (body : Option (List UInt8))
  /-- The command is answered: a handle of a response body, or an error. -/
  | replied (reply : Except String ℕ)

/-- An op in the event loop, and the request whose code called it. -/
structure Pending where
  owner : ℕ
  stage : Stage

/-- What code calls before it waits: ops, and `op_noxy_finish`, which is not async. -/
inductive ScriptCall where
  | op (op : AsyncOp)
  | finish (result : ScriptResult)

/-- The handle of a response body, with the request whose code asked for the response and the one
whose `call` got it. -/
structure ReplyHandle where
  owner : ℕ
  via : ℕ
  body : Option Body

/-- `RequestState`: the request stands for its body's handle and for `respond_tx`.  `finished` is
whether its own `__noxy_handle` has come to its end. -/
structure RequestState where
  request : ℕ
  responseBody : Option ℕ
  result : Option (ℕ × ScriptResult)
  finished : Bool

/-- The isolate, with the calls of its requests. -/
structure Isolate where
  /-- How many envelopes have been received. -/
  received : ℕ
  serving : Option ℕ
  state : Option RequestState
  bodies : ℕ → Option Body
  replies : List ReplyHandle
  /-- Whether the `call` of a request has returned. -/
  returned : ℕ → Bool
  pending : List Pending

/-- A step of the isolate, or of the `call` of a request. -/
inductive IsolateEvent where
  /-- The next envelope: its handler runs until it waits. -/
  | start (body : Body) (calls : List ScriptCall)
  /-- The event loop polls an op; if it is done, the code that waits for it runs on. -/
  | poll (i : ℕ) (calls : List ScriptCall)
  /-- The command of an op is served, and the inner service gives this result. -/
  | command (i : ℕ) (result : Except String Response)
  /-- The promise of the handler is fulfilled: `handle_request` gives a response. -/
  | fulfil
  /-- The promise is rejected, or the event loop fails: `handle_request` gives an error. -/
  | fail
  /-- The `call` of a request that is over returns. -/
  | callReturns (request : ℕ)

/-- What is done to a request, and whose code asked for it. -/
inductive Effect where
  /-- The body of a request is taken and given to the code of another. -/
  | readBody (owner source : ℕ)
  /-- The body of a response is taken and given to code. -/
  | readReply (owner sourceOwner sourceVia : ℕ)
  /-- The `call` of a request serves a command: it forwards its body, or one that the command has,
  with its own inner service. -/
  | serve (owner via : ℕ)
  /-- A request is answered with the result of some code, and with the body of a response. -/
  | answer (request author : ℕ) (source : Option (ℕ × ℕ))
  deriving DecidableEq, Repr

/-- The code of a request acts on its own request. -/
def Effect.Own : Effect → Prop
  | .readBody owner source => owner = source
  | .readReply owner sourceOwner sourceVia => owner = sourceOwner ∧ owner = sourceVia
  | .serve owner via => owner = via
  | .answer request author source =>
      author = request ∧ ∀ o v, source = some (o, v) → o = request ∧ v = request

namespace Isolate

/-- The isolate after the module is loaded. -/
def new : Isolate := ⟨0, none, none, fun _ => none, [], fun _ => false, []⟩

/-- One call of the code of a request. -/
def callOne (owner : ℕ) (s : Isolate) : ScriptCall → Isolate
  | .op op => { s with pending := s.pending ++ [⟨owner, .called op⟩] }
  | .finish result =>
      { s with state := s.state.map fun st =>
          { st with
            result := some (owner, result)
            finished := st.finished || st.request == owner } }

/-- What code calls before it waits. -/
def callAll (owner : ℕ) (calls : List ScriptCall) (s : Isolate) : Isolate :=
  calls.foldl (callOne owner) s

/-- An op goes on. -/
def advance (s : Isolate) (i owner : ℕ) (stage : Stage) : Isolate :=
  { s with pending := s.pending.set i ⟨owner, stage⟩ }

/-- An op is done, and the code that waits for it runs on. -/
def complete (s : Isolate) (i owner : ℕ) (calls : List ScriptCall) : Isolate :=
  callAll owner calls { s with pending := s.pending.eraseIdx i }

/-- The first poll of an op. -/
def pollCalled (s : Isolate) (i owner : ℕ) (st : RequestState) : AsyncOp → Isolate × List Effect
  | .reqBody =>
      ({ s with bodies := Function.update s.bodies st.request none }.advance i owner
        (.reading (s.bodies st.request)), [.readBody owner st.request])
  | .respond request body => (s.advance i owner (.sent st.request request body), [])
  | .resBody =>
      match st.responseBody.bind fun h => s.replies[h]?.map (Prod.mk h) with
      | none => (s.advance i owner (.reading none), [])
      | some (h, reply) =>
          ({ s with replies := s.replies.set h { reply with body := none } }.advance i owner
            (.reading reply.body), [.readReply owner reply.owner reply.via])

/-- A poll of an op. -/
def pollOp (s : Isolate) (i : ℕ) (p : Pending) (st : RequestState) (calls : List ScriptCall) :
    Isolate × List Effect :=
  match p.stage with
  | .called op => s.pollCalled i p.owner st op
  | .reading _ => (s.complete i p.owner calls, [])
  -- The sender of the reply is dropped with the `call`.
  | .sent target _ _ => (if s.returned target then s.complete i p.owner calls else s, [])
  | .replied (.error _) => (s.complete i p.owner calls, [])
  | .replied (.ok h) =>
      ({ s with state := some { st with responseBody := some h } }.complete i p.owner calls, [])

section Service

variable (T : TextCrate)

/-- The arm of `ScriptService::call` that serves a command. -/
def serveCommand (s : Isolate) (i owner target : ℕ) (request : RequestMeta)
    (body : Option (List UInt8)) (result : Except String Response) : Isolate :=
  let sentBody := match body with
    | some bytes => fullBody bytes
    | none => (s.bodies target).getD emptyBody
  let s := match body with
    | some _ => s
    | none => { s with bodies := Function.update s.bodies target none }
  match request.intoRequest T sentBody, result with
  | .error e, _ => s.advance i owner (.replied (.error e))
  | .ok _, .error e => s.advance i owner (.replied (.error e))
  | .ok _, .ok resp =>
      let replies := s.replies ++ [⟨owner, target, some resp.body⟩]
      { s with replies := replies }.advance i owner (.replied (.ok s.replies.length))

/-- What an event does. -/
def react (s : Isolate) : IsolateEvent → Isolate × List Effect
  | .start body calls =>
      if s.serving.isSome then (s, [])
      else
        (callAll s.received calls
          { s with
            received := s.received + 1
            serving := some s.received
            state := some ⟨s.received, none, none, false⟩
            bodies := Function.update s.bodies s.received (some body) }, [])
  | .poll i calls =>
      match s.serving, s.state, s.pending[i]? with
      | some _, some st, some p => s.pollOp i p st calls
      | _, _, _ => (s, [])
  | .command i result =>
      match s.pending[i]? with
      | some ⟨owner, .sent target request body⟩ =>
          if s.returned target then (s, [])
          else (s.serveCommand T i owner target request body result, [.serve owner target])
      | _ => (s, [])
  | .fulfil =>
      match s.serving, s.state with
      | some request, some st =>
          match st.finished, st.result with
          | true, some (author, result) =>
              let reply := st.responseBody.bind fun h => s.replies[h]?.map (Prod.mk h)
              let source := if result.passthrough then reply else none
              ({ s with
                serving := none
                state := none
                replies := match source with
                  | some (h, r) => s.replies.set h { r with body := none }
                  | none => s.replies },
                [.answer request author (source.map fun r => (r.2.owner, r.2.via))])
          | _, _ => (s, [])
      | _, _ => (s, [])
  | .fail => ({ s with serving := none }, [])
  | .callReturns request =>
      if request < s.received ∧ s.serving ≠ some request then
        ({ s with returned := Function.update s.returned request true }, [])
      else (s, [])

/-- The isolate after an event. -/
def step (s : Isolate) (e : IsolateEvent) : Isolate := (s.react T e).1

/-- What is done in the course of some events. -/
def effects : Isolate → List IsolateEvent → List Effect
  | _, [] => []
  | s, e :: events => (s.react T e).2 ++ effects (s.step T e) events

/-- When a request ends, no op that its code called is pending. -/
def Tidy (s : Isolate) (e : IsolateEvent) : Prop :=
  e = .fulfil ∨ e = .fail → ∀ request, s.serving = some request →
    ∀ p ∈ s.pending, p.owner ≠ request

end Service
end Isolate
end Script
end Noxy

/-
# The life of a connection

`src/lib.rs`: `Proxy::listen_on_with_shutdown`, `Proxy::handle_connection_inner`,
`Proxy::handle_forward_connection`, `Proxy::handle_reverse_connection`, `Proxy::serve_client`.

For `Noxy.Proxy.AcceptLoop` a task is one client that is there or not.  Here is what the task does
meanwhile, against a clock.  If the proxy has a TLS acceptor, the task first waits for the client
in `acceptor.accept`; in forward mode it then waits for the `CONNECT` handshake, under
`handshake_timeout` if there is one; at last `serve_client` hands the connection to hyper.  What
one event does to one connection is `Stage.next`.  A `Server` is the accept loop with tasks in
these stages, and a clock that does not pass the deadline of a handshake without its timer firing.

A connection that is served has sent nothing yet, waits for its next request, or has a request at
the service.  An exchange ends with its response; whether the connection is then kept is up to
the service, the upstream and the client (it is not after a `101` or with `Connection: close`).
Which connections hyper ends by itself, under the timers that `serve_client` sets from
`idle_timeout` and after `graceful_shutdown`, is hyper's part and a parameter (`Hyper`).

Forgetting the stages and the clock gives a run of the accept loop (`run_loop`), so what
`Noxy.Proxy.AcceptLoop` proves of permits holds here.
-/

import Noxy.Proxy.LoopMap

namespace Noxy
namespace Lifecycle

open Lib Proxy

/-- `ProxyMode`, as far as the handlers of connections branch on it. -/
inductive Mode where
  | forward
  | reverse
  deriving DecidableEq, Repr

/-- Where a connection is that hyper serves. -/
inductive Service where
  /-- Nothing of the client's has been read. -/
  | fresh
  /-- It waits for a request, or for the rest of its head. -/
  | waiting
  /-- A request is at the service, and its response is not written yet. -/
  | exchanging
  deriving DecidableEq, Repr

/-- What hyper does by itself with a connection of which nothing more is heard, neither from the
client nor from the service. -/
structure Hyper where
  /-- The timers of `idle_timeout` end it. -/
  idles : Service → Bool
  /-- It ends after `graceful_shutdown`. -/
  finishes : Service → Bool

/-- The fields of `Proxy` that decide how long a connection is in a stage, and hyper.
`tlsAcceptor` is whether there is one, and `idleTimeout` and `drainTimeout` as well. -/
structure Settings where
  mode : Mode
  tlsAcceptor : Bool
  handshakeTimeout : Option ℕ
  idleTimeout : Bool
  maxConnections : Option ℕ
  drainTimeout : Bool
  hyper : Hyper

/-- Where the task of a connection is. -/
inductive Stage where
  /-- Not yet spawned: the loop waits for a permit. -/
  | queued
  /-- In `acceptor.accept(stream)`. -/
  | accepting
  /-- In `self.handshake`, since the time given. -/
  | handshaking (since : ℕ)
  /-- In `serve_client`. -/
  | serving (place : Service)
  deriving DecidableEq, Repr

/-- A connection, and when its task was spawned. -/
structure Conn where
  began : ℕ
  stage : Stage
  deriving DecidableEq, Repr

/-- The accept loop and the time. -/
structure Server where
  now : ℕ
  loop : Loop Conn
  deriving DecidableEq, Repr

/-- What may happen to a connection. -/
inductive ConnEvent where
  /-- The client's TLS is accepted, or `acceptor.accept` fails. -/
  | tls (ok : Bool)
  /-- `self.handshake` is ready, with or without an error. -/
  | handshake (ok : Bool)
  /-- The timer of `handshake_timeout` fires. -/
  | expire
  /-- The first bytes of a request are read. -/
  | read
  /-- A request is handed to the service. -/
  | request
  /-- Its response is written, and the connection is kept for another request or not. -/
  | respond (keep : Bool)
  /-- The client closes a connection that is served, or it fails. -/
  | close
  /-- A timer of `idle_timeout` fires. -/
  | idle
  /-- A connection that is served ends after the shutdown signal. -/
  | finish
  deriving DecidableEq, Repr

/-- What may happen next.  A connection is named by its position among the tasks. -/
inductive Event where
  | accept
  | acceptError
  | spawn
  | complete
  | leave
  | drained
  | timeout
  | conn (i : ℕ) (e : ConnEvent)
  | wait (d : ℕ)
  deriving DecidableEq, Repr

/-- What becomes of a connection. -/
inductive Fate where
  | same
  | moves (stage : Stage)
  | ends
  deriving DecidableEq, Repr

namespace Settings

variable (cfg : Settings)

/-- The stage after `acceptor.accept`, or without it the first one. -/
def afterTls (now : ℕ) : Stage :=
  match cfg.mode with
  | .forward => .handshaking now
  | .reverse => .serving .fresh

/-- The stage in which `handle_connection_inner` begins. -/
def firstStage (now : ℕ) : Stage := if cfg.tlsAcceptor then .accepting else cfg.afterTls now

/-- The timer of a stage has not fired before `time`. -/
def inTime (time : ℕ) : Stage → Bool
  | .handshaking since =>
      match cfg.handshakeTimeout with
      | some timeout => decide (time ≤ since + timeout)
      | none => true
  | _ => true

end Settings

/-- **What an event does to a connection**, at the time `now` and with the shutdown signal sent
or not. -/
def Stage.next (cfg : Settings) (now : ℕ) (signalled : Bool) (stage : Stage) : ConnEvent → Fate
  | .tls ok =>
      match stage with
      | .accepting => if ok then .moves (cfg.afterTls now) else .ends
      | _ => .same
  | .handshake ok =>
      match stage with
      | .handshaking _ => if ok then .moves (.serving .fresh) else .ends
      | _ => .same
  | .expire =>
      match stage, cfg.handshakeTimeout with
      | .handshaking since, some timeout => if since + timeout ≤ now then .ends else .same
      | _, _ => .same
  | .read =>
      match stage with
      | .serving .fresh => .moves (.serving .waiting)
      | _ => .same
  | .request =>
      match stage with
      | .serving .fresh | .serving .waiting => .moves (.serving .exchanging)
      | _ => .same
  | .respond keep =>
      match stage with
      | .serving .exchanging => if keep then .moves (.serving .waiting) else .ends
      | _ => .same
  | .close =>
      match stage with
      | .serving _ => .ends
      | _ => .same
  | .idle =>
      match stage with
      | .serving place => if cfg.idleTimeout && cfg.hyper.idles place then .ends else .same
      | _ => .same
  | .finish =>
      match stage with
      | .serving place => if signalled && cfg.hyper.finishes place then .ends else .same
      | _ => .same

/-- A connection that is still queued is handled from now on. -/
def Conn.begin (cfg : Settings) (now : ℕ) (c : Conn) : Conn :=
  match c.stage with
  | .queued => ⟨now, cfg.firstStage now⟩
  | _ => c

namespace Server

variable (cfg : Settings)

/-- Before the first connection. -/
def start : Server := ⟨0, Loop.start cfg.maxConnections⟩

/-- What the accept loop does. -/
def onLoop (s : Server) (e : LoopEvent Conn) : Server :=
  { s with loop := s.loop.step cfg.drainTimeout e }

/-- A connection gets to another stage. -/
def setStage (s : Server) (i : ℕ) (c : Conn) : Server :=
  { s with loop := { s.loop with tasks := s.loop.tasks.set i c } }

/-- The tasks that were just spawned begin. -/
def beginTasks (s : Server) : Server :=
  { s with loop := { s.loop with tasks := s.loop.tasks.map (Conn.begin cfg s.now) } }

/-- The state after an event. -/
def step (s : Server) : Event → Server
  | .accept => s.onLoop cfg (.accept ⟨s.now, .queued⟩)
  | .acceptError => s.onLoop cfg .acceptError
  | .spawn => (s.onLoop cfg .spawn).beginTasks cfg
  | .complete => s.onLoop cfg .complete
  | .leave => s.onLoop cfg .leave
  | .drained => s.onLoop cfg .drained
  | .timeout => s.onLoop cfg .timeout
  | .conn i e =>
      match s.loop.tasks[i]? with
      | none => s
      | some c =>
          match c.stage.next cfg s.now s.loop.signalled e with
          | .same => s
          | .moves stage => s.setStage i ⟨c.began, stage⟩
          | .ends => s.onLoop cfg (.close i)
  | .wait d =>
      if s.loop.tasks.all fun c => cfg.inTime (s.now + d) c.stage then { s with now := s.now + d }
      else s

variable {cfg} {s : Server}

/-- What an event of a connection can do to the server. -/
theorem step_conn (cfg : Settings) (s : Server) (i : ℕ) (e : ConnEvent) :
    s.step cfg (.conn i e) = s ∨
      ∃ c, s.loop.tasks[i]? = some c ∧
        ((∃ stage, c.stage.next cfg s.now s.loop.signalled e = .moves stage ∧
            s.step cfg (.conn i e) = s.setStage i ⟨c.began, stage⟩) ∨
          c.stage.next cfg s.now s.loop.signalled e = .ends ∧
            s.step cfg (.conn i e) = s.onLoop cfg (.close i)) := by
  simp only [step]
  cases hi : s.loop.tasks[i]? with
  | none => exact .inl rfl
  | some c =>
      cases hnext : c.stage.next cfg s.now s.loop.signalled e with
      | same => simp only [hnext, true_or]
      | moves stage => exact .inr ⟨c, rfl, .inl ⟨stage, hnext, by simp only [hnext]⟩⟩
      | ends => exact .inr ⟨c, rfl, .inr ⟨hnext, by simp only [hnext]⟩⟩

/-- An event that ends a connection. -/
theorem step_conn_ends {i : ℕ} {c : Conn} {e : ConnEvent} (hi : s.loop.tasks[i]? = some c)
    (he : c.stage.next cfg s.now s.loop.signalled e = .ends) :
    s.step cfg (.conn i e) = { s with loop := s.loop.endTask i } := by
  simp only [step, hi, he]
  rfl

/-- Only the shutdown future completes the shutdown. -/
theorem completed_of_step {e : Event} (h : (s.step cfg e).loop.completed = true) :
    s.loop.completed = true ∨ e = .complete := by
  have honLoop : ∀ l : LoopEvent Conn, (s.onLoop cfg l).loop.completed = true → l ≠ .complete →
      s.loop.completed = true := fun l h hne => (Loop.completed_step h).resolve_right hne
  cases e with
  | complete => exact .inr rfl
  | accept => exact .inl (honLoop (.accept _) h nofun)
  | acceptError => exact .inl (honLoop .acceptError h nofun)
  | spawn => exact .inl (honLoop .spawn h nofun)
  | leave => exact .inl (honLoop .leave h nofun)
  | drained => exact .inl (honLoop .drained h nofun)
  | timeout => exact .inl (honLoop .timeout h nofun)
  | conn i e =>
      left
      rcases step_conn cfg s i e with hstep | ⟨c, -, ⟨stage, -, hstep⟩ | ⟨-, hstep⟩⟩
      · rwa [hstep] at h
      · rw [hstep] at h
        exact h
      · rw [hstep] at h
        exact honLoop (.close i) h nofun
  | wait d =>
      left
      simp only [step] at h
      split at h <;> exact h

/-! ## The accept loop below -/

/-- The accept loop without the stages of its tasks. -/
def untimed (s : Server) : Loop Unit := s.loop.map fun _ => ()

theorem onLoop_untimed (e : LoopEvent Conn) :
    (s.onLoop cfg e).untimed = s.untimed.step cfg.drainTimeout (e.map fun _ => ()) :=
  Loop.step_map cfg.drainTimeout e

theorem setStage_untimed (i : ℕ) (c : Conn) : (s.setStage i c).untimed = s.untimed := by
  have htasks : (s.loop.tasks.set i c).map (fun _ => ()) = s.loop.tasks.map fun _ => () := by
    rw [List.map_const', List.map_const', List.length_set]
  simp only [untimed, setStage, Loop.map, htasks]

theorem beginTasks_untimed : (s.beginTasks cfg).untimed = s.untimed := by
  have htasks : (s.loop.tasks.map (Conn.begin cfg s.now)).map (fun _ => ()) =
      s.loop.tasks.map fun _ => () := List.map_map
  simp only [untimed, beginTasks, Loop.map, htasks]

/-- **A step is at most one of the accept loop.** -/
theorem step_untimed (cfg : Settings) (s : Server) (e : Event) :
    (s.step cfg e).untimed = s.untimed ∨
      ∃ e', (s.step cfg e).untimed = s.untimed.step cfg.drainTimeout e' := by
  cases e with
  | accept => exact .inr ⟨_, onLoop_untimed _⟩
  | acceptError => exact .inr ⟨_, onLoop_untimed _⟩
  | spawn => exact .inr ⟨_, beginTasks_untimed.trans (onLoop_untimed _)⟩
  | complete => exact .inr ⟨_, onLoop_untimed _⟩
  | leave => exact .inr ⟨_, onLoop_untimed _⟩
  | drained => exact .inr ⟨_, onLoop_untimed _⟩
  | timeout => exact .inr ⟨_, onLoop_untimed _⟩
  | conn i e =>
      rcases step_conn cfg s i e with hstep | ⟨c, -, ⟨stage, -, hstep⟩ | ⟨-, hstep⟩⟩
      · exact .inl (by rw [hstep])
      · exact .inl (by rw [hstep, setStage_untimed])
      · exact .inr ⟨_, by rw [hstep, onLoop_untimed]⟩
  | wait d =>
      simp only [step]
      split <;> exact .inl rfl

/-- **A run is one of the accept loop.** -/
theorem run_loop (cfg : Settings) (events : List Event) :
    ∃ es, (run (step cfg) (start cfg) events).untimed =
      run (Loop.step cfg.drainTimeout) (Loop.start cfg.maxConnections) es := by
  refine run_of_kept (J := fun s : Server => ∃ es, s.untimed =
    run (Loop.step cfg.drainTimeout) (Loop.start cfg.maxConnections) es) ?_ ⟨[], rfl⟩
  rintro e - s ⟨es, hes⟩
  rcases step_untimed cfg s e with h | ⟨e', h⟩
  · exact ⟨es, h.trans hes⟩
  · refine ⟨es ++ [e'], ?_⟩
    rw [run_concat, ← hes, h]

/-- **The permits of the tasks and the free ones are all there are**, in whatever stages the tasks
are. -/
theorem sound_run (cfg : Settings) (events : List Event) :
    (run (step cfg) (start cfg) events).loop.Sound cfg.maxConnections := by
  obtain ⟨es, hes⟩ := run_loop cfg events
  rw [← Loop.sound_map (f := fun _ => ()), ← untimed, hes]
  exact run_of_kept (fun e _ s => Loop.sound_step s e) (Loop.sound_start _)

/-- A server that drains has told its tasks. -/
theorem tells_run (cfg : Settings) (events : List Event) :
    (run (step cfg) (start cfg) events).loop.Tells := by
  obtain ⟨es, hes⟩ := run_loop cfg events
  rw [← Loop.tells_map (f := fun _ => ()), ← untimed, hes]
  exact run_of_kept (J := Loop.Tells) (fun e _ s h => Loop.tells_step h e) fun h => by cases h

end Server
end Lifecycle
end Noxy

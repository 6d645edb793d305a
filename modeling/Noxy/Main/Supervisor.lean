/-
# The listeners of the program

`src/main.rs`: the end of `apply_cli_and_run`, which runs the listeners of the configuration.

Each listener is a task with a server (`Noxy.Proxy.Lifecycle`: an accept loop and its
connections) whose shutdown future is the receiver of a broadcast channel.  `main` subscribes the
receivers and spawns the tasks one after the other, spawns the task that waits for a signal of the
operating system, and joins the listeners as they end.  The signal task sends on the channel when
the signal comes, and `main` when it has joined a listener that failed or panicked.  The channel
holds one message; a receiver that has missed some is told so, and its future resolves all the
same.

What an event can do is said once (`Moved`).
-/

import Mathlib.Logic.Function.Basic
import Noxy.Proxy.Lifecycle

namespace Noxy
namespace Main

open Lib Lifecycle

/-- The task of a listener. -/
inductive Task where
  | unspawned
  /-- `listen_with_shutdown` runs; `since` is how many messages had been sent when the receiver
  subscribed. -/
  | running (server : Server) (since : ℕ)
  | ended (result : Except String Unit)
  | panicked (err : String)
  | joined

/-- The task that waits for a signal of the operating system. -/
inductive SignalTask where
  | unspawned
  | waiting
  | done
  deriving DecidableEq, Repr

/-- `apply_cli_and_run` and its tasks, for `n` listeners: `spawned` is how far the loop that
spawns them has come, `sent` how many messages were sent, and `joins` what was joined. -/
structure Supervisor (n : ℕ) where
  tasks : Fin n → Task
  spawned : ℕ
  signal : SignalTask
  sent : ℕ
  firstErr : Option String
  joins : List (Except String Unit)
  result : Option (Except String Unit)

/-- What may happen next. -/
inductive SupervisorEvent (n : ℕ) where
  /-- The next listener is subscribed and spawned. -/
  | spawn
  | spawnSignal
  /-- `SIGINT` or `SIGTERM`. -/
  | osSignal
  /-- An event of a listener's server. -/
  | server (i : Fin n) (e : Event)
  /-- `bind` or `accept` fails. -/
  | fail (i : Fin n) (err : String)
  /-- The future of a listener whose loop has returned completes. -/
  | finish (i : Fin n)
  | panic (i : Fin n) (err : String)
  | join (i : Fin n)
  /-- There is nothing left to join. -/
  | exit

namespace Task

def isJoined : Task → Bool
  | .joined => true
  | _ => false

theorem isJoined_iff {t : Task} : t.isJoined = true ↔ t = .joined := by
  cases t <;> simp [isJoined]

/-- What `join_next` gives, when the task has ended. -/
def outcome : Task → Option (Except String Unit)
  | .ended result => some result
  | .panicked err => some (.error s!"listener task panicked: {err}")
  | _ => none

end Task

namespace Supervisor

variable {n : ℕ}

def start : Supervisor n := ⟨fun _ => .unspawned, 0, .unspawned, 0, none, [], none⟩

/-- The supervisor with another task. -/
def put (s : Supervisor n) (i : Fin n) (t : Task) : Supervisor n :=
  { s with tasks := Function.update s.tasks i t }

/-- The body of the loop over `join_next`. -/
def joined (s : Supervisor n) (i : Fin n) : Except String Unit → Supervisor n
  | .ok () => { s.put i .joined with joins := s.joins ++ [.ok ()] }
  | .error err =>
      { s.put i .joined with
        joins := s.joins ++ [.error err]
        firstErr := s.firstErr.or (some err)
        sent := s.sent + 1 }

/-- What the function returns when all listeners are joined. -/
def conclude : Option String → Except String Unit
  | some err => .error err
  | none => .ok ()

/-- The state after an event; one that cannot happen changes nothing. -/
def step (listeners : Fin n → Settings) (s : Supervisor n) :
    SupervisorEvent n → Supervisor n
  | .spawn =>
      if h : s.spawned < n then
        { s.put ⟨s.spawned, h⟩ (.running (.start (listeners ⟨s.spawned, h⟩)) s.sent)
          with spawned := s.spawned + 1 }
      else s
  | .spawnSignal =>
      if s.spawned = n ∧ s.signal = .unspawned then { s with signal := .waiting } else s
  | .osSignal =>
      if s.signal = .waiting then { s with signal := .done, sent := s.sent + 1 } else s
  | .server i e =>
      match s.tasks i, e with
      | .running _ _, .acceptError => s
      | .running server since, .complete =>
          if since < s.sent then
            s.put i (.running (server.step (listeners i) .complete) since)
          else s
      | .running server since, e =>
          s.put i (.running (server.step (listeners i) e) since)
      | _, _ => s
  | .fail i err =>
      match s.tasks i with
      | .running server _ =>
          match server.loop.phase with
          | .select => s.put i (.ended (.error err))
          | _ => s
      | _ => s
  | .finish i =>
      match s.tasks i with
      | .running server _ =>
          match server.loop.phase with
          | .returned => s.put i (.ended (.ok ()))
          | _ => s
      | _ => s
  | .panic i err =>
      match s.tasks i with
      | .running _ _ => s.put i (.panicked err)
      | _ => s
  | .join i =>
      match s.signal, (s.tasks i).outcome with
      | .unspawned, _ => s
      | _, none => s
      | _, some result => s.joined i result
  | .exit =>
      if s.signal ≠ .unspawned ∧ (∀ i, (s.tasks i).isJoined = true) ∧ s.result = none then
        { s with result := some (conclude s.firstErr) }
      else s

/-! ### What an event can do -/

variable {listeners : Fin n → Settings} {s : Supervisor n}

/-- What may become of a task that runs: its loop goes on, where it hears of a shutdown only if
there was one, or it ends. -/
inductive Goes (cfg : Settings) (sent : ℕ) (server : Server) (since : ℕ) :
    Task → Prop where
  | on (e : Event) (heard : e = .complete → since < sent) :
      Goes cfg sent server since (.running (server.step cfg e) since)
  | ended (result : Except String Unit) : Goes cfg sent server since (.ended result)
  | panicked (err : String) : Goes cfg sent server since (.panicked err)

/-- **What an event can do.** -/
inductive Moved (listeners : Fin n → Settings) (s : Supervisor n) :
    Supervisor n → Prop where
  | stay : Moved listeners s s
  | spawn (h : s.spawned < n) :
      Moved listeners s
        { s.put ⟨s.spawned, h⟩ (.running (.start (listeners ⟨s.spawned, h⟩)) s.sent)
          with spawned := s.spawned + 1 }
  | spawnSignal (h : s.spawned = n) (hsignal : s.signal = .unspawned) :
      Moved listeners s { s with signal := .waiting }
  | osSignal (hsignal : s.signal = .waiting) :
      Moved listeners s { s with signal := .done, sent := s.sent + 1 }
  | task {i : Fin n} {server : Server} {since : ℕ} {t : Task}
      (hi : s.tasks i = .running server since)
      (ht : Goes (listeners i) s.sent server since t) : Moved listeners s (s.put i t)
  | join {i : Fin n} {result : Except String Unit} (hsignal : s.signal ≠ .unspawned)
      (hi : (s.tasks i).outcome = some result) : Moved listeners s (s.joined i result)
  | exit (hjoined : ∀ i, s.tasks i = .joined) (hnone : s.result = none) :
      Moved listeners s { s with result := some (conclude s.firstErr) }

/-- An event of an accept loop moves that loop, or nothing. -/
theorem step_server (listeners : Fin n → Settings) (s : Supervisor n) (i : Fin n)
    (e : Event) :
    s.step listeners (.server i e) = s ∨ ∃ server since, s.tasks i = .running server since ∧
      (e = .complete → since < s.sent) ∧ s.step listeners (.server i e) =
        s.put i (.running (server.step (listeners i) e) since) := by
  simp only [step]
  split
  · exact .inl rfl
  · rename_i server since hi
    split
    · rename_i hsince
      exact .inr ⟨server, since, hi, fun _ => hsince, rfl⟩
    · exact .inl rfl
  · rename_i server since hi _ hne
    exact .inr ⟨server, since, hi, fun he => absurd he hne, rfl⟩
  · exact .inl rfl

theorem moved_step (listeners : Fin n → Settings) (s : Supervisor n)
    (e : SupervisorEvent n) : Moved listeners s (s.step listeners e) := by
  cases e with
  | spawn =>
      simp only [step]
      split
      · rename_i h
        exact .spawn h
      · exact .stay
  | spawnSignal =>
      simp only [step]
      split
      · rename_i h
        exact .spawnSignal h.1 h.2
      · exact .stay
  | osSignal =>
      simp only [step]
      split
      · rename_i h
        exact .osSignal h
      · exact .stay
  | server i e =>
      rcases s.step_server listeners i e with h | ⟨server, since, hi, heard, h⟩
      · rw [h]
        exact .stay
      · rw [h]
        exact .task hi (.on e heard)
  | fail i err =>
      simp only [step]
      split
      · rename_i server since hi
        split
        · exact .task hi (.ended _)
        · exact .stay
      · exact .stay
  | finish i =>
      simp only [step]
      split
      · rename_i server since hi
        split
        · exact .task hi (.ended _)
        · exact .stay
      · exact .stay
  | panic i err =>
      simp only [step]
      split
      · rename_i server since hi
        exact .task hi (.panicked err)
      · exact .stay
  | join i =>
      simp only [step]
      split
      · exact .stay
      · exact .stay
      · rename_i result hi hsignal
        exact .join hsignal hi
  | exit =>
      simp only [step]
      split
      · rename_i h
        exact .exit (fun i => Task.isJoined_iff.mp (h.2.1 i)) h.2.2
      · exact .stay

/-- The tasks after one of them was replaced. -/
theorem tasks_put (s : Supervisor n) (i : Fin n) (t : Task) (j : Fin n) :
    (s.put i t).tasks j = if j = i then t else s.tasks j := by
  unfold put
  exact Function.update_apply s.tasks i t j

end Supervisor
end Main
end Noxy

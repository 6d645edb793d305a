/-
# Upgraded tunnels and the limit on connections

`src/lib.rs`: `HyperServiceAdapter::call` and the tasks of `listen_on_with_shutdown`.

A connection whose request asked for an upgrade and was answered with 101 is relayed by a
task of its own, which the accept loop does not know.  The connection future resolves once
the connection is upgraded, the connection's task ends and gives its permit back, and the
tunnel goes on until one side closes, an error, the idle timeout or the shutdown signal
ends it.  `Serving` is the accept loop with these tunnels.

A client that is relayed is still being served, but holds no permit.  So the number of
clients that are served stays within `max_connections` exactly if no connection is given a
permit while as many tunnels are relayed as permits are free (`served_le_iff`).
-/

import Noxy.Proxy.AcceptLoop

namespace Noxy
namespace Proxy

open Lib

/-- The accept loop, its tasks and the tunnels. -/
structure Serving (Client : Type*) where
  loop : Loop Client
  tunnels : List Client
  deriving DecidableEq, Repr

/-- What may happen next.  A task and a tunnel are named by their position. -/
inductive ServingEvent (Client : Type*) where
  /-- An event of the accept loop and its tasks. -/
  | loop (e : LoopEvent Client)
  /-- A request of a connection is answered: with what status, and whether the request
  asked for an upgrade. -/
  | respond (i : ℕ) (isUpgrade : Bool) (status : ℕ)
  /-- A tunnel ends. -/
  | tunnelEnd (j : ℕ)
  deriving DecidableEq, Repr

namespace Serving

variable {Client : Type*}

/-- Before the first connection. -/
def start (maxConnections : Option ℕ) : Serving Client := ⟨Loop.start maxConnections, []⟩

/-- The clients that are being served. -/
def served (s : Serving Client) : ℕ := s.loop.tasks.length + s.tunnels.length

/-- The state after an event. -/
def step (drainTimeout : Bool) (s : Serving Client) : ServingEvent Client → Serving Client
  | .loop e => { s with loop := s.loop.step drainTimeout e }
  | .respond i isUpgrade status =>
      match s.loop.tasks[i]? with
      | none => s
      | some client =>
          if status = 101 ∧ isUpgrade = true then
            -- The tunnel is spawned, the connection future resolves, and its task ends.
            { loop := s.loop.endTask i, tunnels := s.tunnels ++ [client] }
          else s
  | .tunnelEnd j => { s with tunnels := s.tunnels.eraseIdx j }

/-- The event gives a connection a permit while as many tunnels are relayed as permits are
free. -/
def Overbooks (s : Serving Client) (e : ServingEvent Client) : Prop :=
  e = .loop .spawn ∧ ∃ client free, s.loop.phase = .acquire client ∧ s.loop.free = some free ∧
    0 < free ∧ free ≤ s.tunnels.length

variable {n : ℕ} {drainTimeout : Bool}

theorem sound_step (s : Serving Client) (e : ServingEvent Client)
    (h : s.loop.Sound (some n)) : (s.step drainTimeout e).loop.Sound (some n) := by
  cases e with
  | loop e => exact Loop.sound_step s.loop e h
  | respond i isUpgrade status =>
      simp only [step]
      split
      · exact h
      · split
        · exact h.endTask i
        · exact h
  | tunnelEnd j => exact h

theorem length_tasks_endTask_le (s : Loop Client) (i : ℕ) :
    (s.endTask i).tasks.length ≤ s.tasks.length := by
  unfold Loop.endTask
  split
  · exact List.length_eraseIdx_le s.tasks i
  · exact Nat.le_refl _

/-- An event of the loop that spawns nothing adds no task. -/
theorem length_tasks_step_le (drainTimeout : Bool) (s : Loop Client) {e : LoopEvent Client}
    (he : e ≠ .spawn) :
    (s.step drainTimeout e).tasks.length ≤ s.tasks.length := by
  cases e with
  | spawn => exact absurd rfl he
  | accept client =>
      simp only [Loop.step]
      split <;> exact Nat.le_refl _
  | acceptError =>
      simp only [Loop.step]
      split
      · exact Nat.zero_le _
      · exact Nat.le_refl _
  | complete => exact Nat.le_refl _
  | leave =>
      simp only [Loop.step]
      split <;> exact Nat.le_refl _
  | close i => exact length_tasks_endTask_le s i
  | finish i =>
      simp only [Loop.step]
      split
      · exact length_tasks_endTask_le s i
      · exact Nat.le_refl _
  | drained =>
      simp only [Loop.step]
      split <;> exact Nat.le_refl _
  | timeout =>
      simp only [Loop.step]
      split
      · split
        · exact Nat.zero_le _
        · exact Nat.le_refl _
      · exact Nat.le_refl _

/-- **When an event keeps the number of clients within the limit.** -/
theorem served_step_iff (s : Serving Client) (e : ServingEvent Client)
    (h : s.loop.Sound (some n)) (hs : s.served ≤ n) :
    (s.step drainTimeout e).served ≤ n ↔ ¬ Overbooks s e := by
  unfold served at hs ⊢
  by_cases he : e = .loop .spawn
  · subst he
    simp only [step, Loop.step, Overbooks, true_and]
    obtain ⟨free, hfree, hpermits⟩ : ∃ free, s.loop.free = some free ∧
        free + s.loop.tasks.length = n := by
      have hpermits := h.permits
      rw [Option.map_eq_some_iff] at hpermits
      exact hpermits
    rw [hfree]
    cases hphase : s.loop.phase with
    | acquire client =>
        cases free with
        | zero => simpa using hs
        | succ free =>
            simp only [List.length_append, List.length_singleton]
            constructor
            · rintro hle ⟨_, _, _, hsome, _, hover⟩
              cases hsome
              omega
            · intro hno
              by_contra hgt
              exact hno ⟨client, free + 1, rfl, rfl, by omega, by omega⟩
    | _ => simpa using hs
  · refine iff_of_true ?_ fun hover => he hover.1
    cases e with
    | loop e =>
        have hne : e ≠ .spawn := fun h => he (by rw [h])
        have hle := length_tasks_step_le drainTimeout s.loop hne
        simp only [step]
        omega
    | respond i isUpgrade status =>
        simp only [step]
        split
        · exact hs
        · rename_i client hi
          split
          · have hlt := (List.getElem?_eq_some_iff.mp hi).1
            have hlength := List.length_eraseIdx_of_lt hlt
            simp only [Loop.endTask, if_pos hlt, List.length_append, List.length_singleton]
            omega
          · exact hs
    | tunnelEnd j =>
        have hle := List.length_eraseIdx_le s.tunnels j
        simp only [step]
        omega

/-- **`max_connections` bounds the clients that are served**, tunnels included, in every
state of a run, exactly if in that run no connection is given a permit while as many
tunnels are relayed as permits are free. -/
theorem served_le_iff (n : ℕ) (drainTimeout : Bool) (events : List (ServingEvent Client)) :
    Always (step drainTimeout) (fun s => s.served ≤ n) (start (some n)) events ↔
      Along (step drainTimeout) (fun s e => ¬ Overbooks s e) (start (some n)) events := by
  have hsound : (start (some n) : Serving Client).loop.Sound (some n) :=
    ⟨rfl, fun h => by cases h⟩
  exact always_iff_along (J := fun s : Serving Client => s.loop.Sound (some n)) sound_step
    served_step_iff hsound (Nat.zero_le n) events

end Serving

/-- **A tunnel does not count.**  With `max_connections` 1, the client `a` is upgraded to a
tunnel, and `b` is given the permit that `a` no longer holds: two clients are served. -/
theorem tunnel_exceeds_max_connections :
    let s := run (Serving.step false) (Serving.start (some 1))
      [.loop (.accept "a"), .loop .spawn, .respond 0 true 101, .loop (.accept "b"), .loop .spawn]
    s.loop.tasks = ["b"] ∧ s.tunnels = ["a"] ∧ s.served = 2 := by
  decide

end Proxy
end Noxy

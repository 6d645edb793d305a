/-
# What the accept loop does not look at

`src/lib.rs`: `Proxy::listen_on_with_shutdown`.

The loop of `Noxy.Proxy.AcceptLoop` hands its clients on to their tasks and does not look at them:
another name for each client gives the same run with the clients renamed (`Loop.step_map`), with the
permits and the signal as they were.  So a model that says more about the tasks is one of the same
loop (`Noxy.Proxy.Lifecycle`).
-/

import Mathlib.Data.List.InsertIdx
import Noxy.Proxy.AcceptLoop

namespace Noxy
namespace Proxy

open Lib

/-! ## The signal and the shutdown future -/

namespace Loop

variable {Client : Type*} {drainTimeout : Bool}

/-- A loop that drains has told its tasks. -/
def Tells (s : Loop Client) : Prop := s.phase = .drain → s.signalled = true

theorem tells_endTask {s : Loop Client} (h : s.Tells) (i : ℕ) : (s.endTask i).Tells := by
  unfold endTask
  split
  · exact h
  · exact h

theorem tells_abort (s : Loop Client) : s.abort.Tells := fun h => by cases h

theorem tells_step {s : Loop Client} (h : s.Tells) (e : LoopEvent Client) :
    (s.step drainTimeout e).Tells := by
  cases e with
  | accept client =>
      simp only [step]
      split
      · exact fun h => by cases h
      · exact h
  | acceptError =>
      simp only [step]
      split
      · exact tells_abort s
      · exact h
  | spawn =>
      simp only [step]
      split
      · exact fun h => by cases h
      · exact fun h => by cases h
      · exact h
  | complete => exact h
  | leave =>
      simp only [step]
      split
      · exact fun _ => rfl
      · exact h
  | close i => exact tells_endTask h i
  | finish i =>
      simp only [step]
      split
      · exact tells_endTask h i
      · exact h
  | drained =>
      simp only [step]
      split
      · exact fun h => by cases h
      · exact h
  | timeout =>
      simp only [step]
      split
      · split
        · exact tells_abort s
        · exact h
      · exact h

/-- Only the shutdown future completes the shutdown. -/
theorem completed_step {s : Loop Client} {e : LoopEvent Client}
    (h : (s.step drainTimeout e).completed = true) : s.completed = true ∨ e = .complete := by
  have hend : ∀ i, (s.endTask i).completed = s.completed := by
    intro i
    unfold endTask
    split <;> rfl
  cases e with
  | complete => exact .inr rfl
  | accept client => simp only [step] at h; split at h <;> exact .inl h
  | acceptError => simp only [step] at h; split at h <;> exact .inl h
  | spawn => simp only [step] at h; split at h <;> exact .inl h
  | leave => simp only [step] at h; split at h <;> exact .inl h
  | close i => exact .inl ((hend i).symm.trans h)
  | finish i =>
      simp only [step] at h
      split at h
      · exact .inl ((hend i).symm.trans h)
      · exact .inl h
  | drained => simp only [step] at h; split at h <;> exact .inl h
  | timeout =>
      simp only [step] at h
      split at h
      · split at h <;> exact .inl h
      · exact .inl h

theorem sound_start (maxConnections : Option ℕ) :
    (start maxConnections : Loop Client).Sound maxConnections :=
  ⟨by simp [start], fun hsignalled => by cases hsignalled⟩

end Loop

/-! ## Other names for the clients -/

section Map

variable {Client Client' : Type*} (f : Client → Client')

def Phase.map : Phase Client → Phase Client'
  | .select => .select
  | .acquire client => .acquire (f client)
  | .drain => .drain
  | .returned => .returned

def LoopEvent.map : LoopEvent Client → LoopEvent Client'
  | .accept client => .accept (f client)
  | .acceptError => .acceptError
  | .spawn => .spawn
  | .complete => .complete
  | .leave => .leave
  | .close i => .close i
  | .finish i => .finish i
  | .drained => .drained
  | .timeout => .timeout

namespace Loop

def map (s : Loop Client) : Loop Client' :=
  { phase := s.phase.map f, free := s.free, tasks := s.tasks.map f, completed := s.completed,
    signalled := s.signalled }

variable {f} {s : Loop Client}

theorem endTask_map (i : ℕ) : (s.endTask i).map f = (s.map f).endTask i := by
  by_cases hi : i < s.tasks.length
  · simp [endTask, map, hi, List.eraseIdx_map]
  · simp [endTask, map, hi]

theorem abort_map : s.abort.map f = (s.map f).abort := by simp [abort, map, Phase.map]

/-- **The loop does not look at its clients.** -/
theorem step_map (drainTimeout : Bool) (e : LoopEvent Client) :
    (s.step drainTimeout e).map f = (s.map f).step drainTimeout (e.map f) := by
  obtain ⟨phase, free, tasks, completed, signalled⟩ := s
  cases e with
  | accept client => cases phase <;> rfl
  | acceptError =>
      cases phase with
      | select => exact abort_map
      | _ => rfl
  | spawn =>
      cases phase with
      | acquire client =>
          match free with
          | none => simp [step, map, Phase.map, LoopEvent.map]
          | some 0 => rfl
          | some (n + 1) => simp [step, map, Phase.map, LoopEvent.map]
      | _ => rfl
  | complete => rfl
  | leave => cases phase <;> cases completed <;> rfl
  | close i => exact endTask_map i
  | finish i =>
      cases signalled with
      | false => rfl
      | true => exact endTask_map i
  | drained =>
      cases phase with
      | drain => cases tasks <;> rfl
      | _ => rfl
  | timeout =>
      cases phase with
      | drain =>
          cases drainTimeout with
          | false => rfl
          | true => exact abort_map
      | _ => rfl

theorem sound_map {maxConnections : Option ℕ} :
    (s.map f).Sound maxConnections ↔ s.Sound maxConnections := by
  have hleft : (s.map f).HasLeft ↔ s.HasLeft := by
    obtain ⟨phase, free, tasks, completed, signalled⟩ := s
    cases phase <;> simp [HasLeft, map, Phase.map]
  constructor
  · intro h
    exact ⟨by simpa [map] using h.permits, fun hs => hleft.mp (h.left hs)⟩
  · intro h
    exact ⟨by simpa [map] using h.permits, fun hs => hleft.mpr (h.left hs)⟩

theorem tells_map : (s.map f).Tells ↔ s.Tells := by
  obtain ⟨phase, free, tasks, completed, signalled⟩ := s
  cases phase <;> simp [Tells, map, Phase.map]

end Loop

end Map

end Proxy
end Noxy

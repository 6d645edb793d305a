/-
# The accept loop and its shutdown

`src/lib.rs`: `Proxy::listen_on_with_shutdown`.

The loop waits for a connection or for the shutdown future, whichever comes first.  When a
connection comes it waits for a permit of the semaphore and spawns the connection's task,
which gives the permit back at its end; when the future has completed it signals all tasks
and waits for their end.  A task ends when its client closes the connection, or after it
has received the signal.  A `Loop` is the state of the loop with the tasks that are running,
and a run is a sequence of what may happen next (`LoopEvent`).

The permit is awaited inside the branch of the `select!`, where nobody looks at the shutdown
future, and only the loop can send the signal that would make the tasks end.  With all
permits taken, a loop that awaits one is therefore moved by nothing but a client that
closes its connection (`stuck_iff`).  It gets there with the future completed exactly when
the future completes while it waits, or when it accepts one more connection after the
future has completed (`never_stuck_iff`).
-/

import Noxy.Lib.Run

namespace Noxy
namespace Proxy

open Lib

/-- Where `listen_on_with_shutdown` is. -/
inductive Phase (Client : Type*) where
  /-- At the `select!`. -/
  | select
  /-- In the accept branch, waiting for a permit. -/
  | acquire (client : Client)
  /-- After the loop, waiting for the tasks. -/
  | drain
  | returned
  deriving DecidableEq, Repr

/-- The loop and its tasks. -/
structure Loop (Client : Type*) where
  phase : Phase Client
  /-- The permits that are free; none if the number of connections is not limited. -/
  free : Option ℕ
  tasks : List Client
  /-- The shutdown future has completed. -/
  completed : Bool
  /-- `shutdown_tx` has sent the signal. -/
  signalled : Bool
  deriving DecidableEq, Repr

/-- What may happen next.  A task is named by its position. -/
inductive LoopEvent (Client : Type*) where
  /-- The `select!` takes the accept branch. -/
  | accept (client : Client)
  /-- `accept` fails, and the function returns the error. -/
  | acceptError
  /-- The permit comes, and the task is spawned. -/
  | spawn
  /-- The shutdown future completes. -/
  | complete
  /-- The `select!` takes the shutdown branch. -/
  | leave
  /-- A client closes its connection, and the task ends. -/
  | close (i : ℕ)
  /-- A task that has the signal ends. -/
  | finish (i : ℕ)
  /-- No task is left to wait for. -/
  | drained
  /-- The drain timeout is over, and the tasks are aborted. -/
  | timeout
  deriving DecidableEq, Repr

/-- The client acts on its own. -/
def LoopEvent.isClose {Client : Type*} : LoopEvent Client → Bool
  | .close _ => true
  | _ => false

namespace Loop

variable {Client : Type*}

/-- Before the first connection. -/
def start (maxConnections : Option ℕ) : Loop Client := ⟨.select, maxConnections, [], false, false⟩

/-- The task at a position ends, and its permit is free again. -/
def endTask (s : Loop Client) (i : ℕ) : Loop Client :=
  if i < s.tasks.length then
    { s with tasks := s.tasks.eraseIdx i, free := s.free.map (· + 1) }
  else s

/-- The function returns, and the tasks are aborted with the set they are in. -/
def abort (s : Loop Client) : Loop Client :=
  { s with phase := .returned, tasks := [], free := s.free.map (· + s.tasks.length) }

/-- The state after an event; `drainTimeout` is whether there is one. -/
def step (drainTimeout : Bool) (s : Loop Client) : LoopEvent Client → Loop Client
  | .accept client =>
      match s.phase with
      | .select => { s with phase := .acquire client }
      | _ => s
  | .acceptError =>
      match s.phase with
      | .select => s.abort
      | _ => s
  | .spawn =>
      match s.phase, s.free with
      | .acquire client, none => { s with phase := .select, tasks := s.tasks ++ [client] }
      | .acquire client, some (n + 1) =>
          { s with phase := .select, tasks := s.tasks ++ [client], free := some n }
      | _, _ => s
  | .complete => { s with completed := true }
  | .leave =>
      match s.phase, s.completed with
      | .select, true => { s with phase := .drain, signalled := true }
      | _, _ => s
  | .close i => s.endTask i
  | .finish i => if s.signalled then s.endTask i else s
  | .drained =>
      match s.phase, s.tasks with
      | .drain, [] => { s with phase := .returned }
      | _, _ => s
  | .timeout =>
      match s.phase with
      | .drain => if drainTimeout then s.abort else s
      | _ => s

/-- The loop has left for draining. -/
def HasLeft (s : Loop Client) : Prop := s.phase = .drain ∨ s.phase = .returned

/-- The permits that are free and those of the tasks are all there are, and the signal is
sent on leaving only. -/
structure Sound (maxConnections : Option ℕ) (s : Loop Client) : Prop where
  permits : s.free.map (· + s.tasks.length) = maxConnections
  left : s.signalled = true → s.HasLeft

variable {maxConnections : Option ℕ} {drainTimeout : Bool} {s : Loop Client}

theorem Sound.endTask (h : s.Sound maxConnections) (i : ℕ) :
    (s.endTask i).Sound maxConnections := by
  unfold Loop.endTask
  split
  · rename_i hi
    refine ⟨?_, h.left⟩
    rw [← h.permits, Option.map_map]
    congr 1
    funext n
    have hlength := List.length_eraseIdx_of_lt hi
    simp only [Function.comp_apply]
    omega
  · exact h

theorem Sound.abort (h : s.Sound maxConnections) : s.abort.Sound maxConnections := by
  refine ⟨?_, fun _ => Or.inr rfl⟩
  rw [← h.permits, Loop.abort, Option.map_map]
  rfl

theorem Sound.not_signalled (h : s.Sound maxConnections) (hleft : ¬ s.HasLeft) :
    s.signalled = false := by
  by_contra hsig
  exact hleft (h.left (by simpa using hsig))

theorem Sound.vacuous (h : s.Sound maxConnections) (hleft : ¬ s.HasLeft) {P : Prop}
    (hsig : s.signalled = true) : P := by
  rw [h.not_signalled hleft] at hsig
  cases hsig

/-- **Every event keeps the permits.** -/
theorem sound_step (s : Loop Client) (e : LoopEvent Client) (h : s.Sound maxConnections) :
    (step drainTimeout s e).Sound maxConnections := by
  cases e with
  | accept client =>
      simp only [step]
      split
      · rename_i hphase
        exact ⟨h.permits, h.vacuous (by simp [HasLeft, hphase])⟩
      · exact h
  | acceptError =>
      simp only [step]
      split
      · exact h.abort
      · exact h
  | spawn =>
      simp only [step]
      split
      · rename_i c hphase hfree
        refine ⟨?_, h.vacuous (by simp [HasLeft, hphase])⟩
        have hpermits := h.permits
        rw [hfree] at hpermits ⊢
        exact hpermits
      · rename_i c n hphase hfree
        refine ⟨?_, h.vacuous (by simp [HasLeft, hphase])⟩
        have hpermits := h.permits
        rw [hfree, Option.map_some] at hpermits
        rw [← hpermits, Option.map_some, List.length_append, List.length_singleton]
        congr 1
        omega
      · exact h
  | complete => exact ⟨h.permits, h.left⟩
  | leave =>
      simp only [step]
      split
      · exact ⟨h.permits, fun _ => Or.inl rfl⟩
      · exact h
  | close i => exact h.endTask i
  | finish i =>
      simp only [step]
      split
      · exact h.endTask i
      · exact h
  | drained =>
      simp only [step]
      split
      · rename_i htasks
        refine ⟨?_, fun _ => Or.inr rfl⟩
        exact h.permits
      · exact h
  | timeout =>
      simp only [step]
      split
      · split
        · exact h.abort
        · exact h
      · exact h

/-- **The loop is moved by nothing but a client that closes its connection**: without such
an event it stays where it is for ever, and with one it need not. -/
def OnlyByClose (drainTimeout : Bool) (s : Loop Client) : Prop :=
  (∀ es : List (LoopEvent Client), (∀ e ∈ es, e.isClose = false) →
      (run (step drainTimeout) s es).phase = s.phase) ∧
    ∃ es : List (LoopEvent Client), (run (step drainTimeout) s es).phase ≠ s.phase

/-- The shutdown future has completed, the loop has not left, and only a client can move
it. -/
def Stuck (drainTimeout : Bool) (s : Loop Client) : Prop :=
  s.completed = true ∧ ¬ s.HasLeft ∧ OnlyByClose drainTimeout s

/-- Where no permit is free, a loop that waits for one is not moved by what is not a
close. -/
theorem step_of_no_permit {client : Client} {e : LoopEvent Client}
    (hphase : s.phase = .acquire client) (hfree : s.free = some 0) (hsig : s.signalled = false)
    (he : e.isClose = false) :
    step drainTimeout s e = s ∨ step drainTimeout s e = { s with completed := true } := by
  cases e with
  | close i => cases he
  | complete => exact Or.inr rfl
  | _ =>
      left
      simp [step, hphase, hfree, hsig]

theorem phase_run_of_no_permit {client : Client} {es : List (LoopEvent Client)}
    (hphase : s.phase = .acquire client) (hfree : s.free = some 0) (hsig : s.signalled = false)
    (hes : ∀ e ∈ es, e.isClose = false) :
    (run (step drainTimeout) s es).phase = .acquire client := by
  have hkept : ∀ e ∈ es, ∀ t : Loop Client,
      t.phase = .acquire client ∧ t.free = some 0 ∧ t.signalled = false →
        (step drainTimeout t e).phase = .acquire client ∧ (step drainTimeout t e).free = some 0 ∧
          (step drainTimeout t e).signalled = false := by
    rintro e he t ⟨hphase, hfree, hsig⟩
    rcases step_of_no_permit hphase hfree hsig (hes e he) with hstep | hstep
    · rw [hstep]
      exact ⟨hphase, hfree, hsig⟩
    · rw [hstep]
      exact ⟨hphase, hfree, hsig⟩
  exact (run_of_kept hkept ⟨hphase, hfree, hsig⟩).1

/-- **When a loop is stuck**: it waits for a permit, and none is free. -/
theorem stuck_iff (hmax : maxConnections ≠ some 0) (h : s.Sound maxConnections) :
    Stuck drainTimeout s ↔
      s.completed = true ∧ (∃ client, s.phase = .acquire client) ∧ s.free = some 0 := by
  constructor
  · rintro ⟨hcompleted, hleft, hstill, _⟩
    have hleave := hstill [.leave] (by simp [LoopEvent.isClose])
    have hspawn := hstill [.spawn] (by simp [LoopEvent.isClose])
    rw [run_cons, run_nil] at hleave hspawn
    cases hphase : s.phase with
    | select => simp [step, hphase, hcompleted] at hleave
    | acquire client =>
        refine ⟨hcompleted, ⟨client, rfl⟩, ?_⟩
        match hfree : s.free with
        | some 0 => rfl
        | none => simp [step, hphase, hfree] at hspawn
        | some (n + 1) => simp [step, hphase, hfree] at hspawn
    | drain => exact absurd (Or.inl hphase) hleft
    | returned => exact absurd (Or.inr hphase) hleft
  · rintro ⟨hcompleted, ⟨client, hphase⟩, hfree⟩
    have hleft : ¬ s.HasLeft := by simp [HasLeft, hphase]
    have htasks : 0 < s.tasks.length := by
      have hpermits := h.permits
      rw [hfree, Option.map_some, Nat.zero_add] at hpermits
      rcases Nat.eq_zero_or_pos s.tasks.length with hzero | hpos
      · exact absurd (by rw [← hpermits, hzero]) hmax
      · exact hpos
    refine ⟨hcompleted, hleft, fun es hes => ?_, [.close 0, .spawn], ?_⟩
    · rw [phase_run_of_no_permit hphase hfree (h.not_signalled hleft) hes, hphase]
    · simp [step, Loop.endTask, htasks, hphase, hfree]

/-- The event gets the loop stuck: the future completes while the loop waits for a permit
and none is free, or the loop accepts a connection with the future completed and no permit
free. -/
def Wedges (s : Loop Client) : LoopEvent Client → Prop
  | .complete => (∃ client, s.phase = .acquire client) ∧ s.free = some 0
  | .accept _ => s.phase = .select ∧ s.completed = true ∧ s.free = some 0
  | _ => False

/-- A loop that was not waiting without a permit is not after the end of a task. -/
theorem endTask_not_waiting (i : ℕ)
    (hs : ¬ (s.completed = true ∧ (∃ client, s.phase = .acquire client) ∧ s.free = some 0)) :
    ¬ ((s.endTask i).completed = true ∧ (∃ client, (s.endTask i).phase = .acquire client) ∧
      (s.endTask i).free = some 0) := by
  unfold Loop.endTask
  split
  · rintro ⟨_, _, hfree⟩
    cases hs' : s.free <;> simp [hs'] at hfree
  · exact hs

/-- **When an event gets the loop stuck.** -/
theorem stuck_step_iff (hmax : maxConnections ≠ some 0) (s : Loop Client) (e : LoopEvent Client)
    (h : s.Sound maxConnections) (hs : ¬ Stuck drainTimeout s) :
    ¬ Stuck drainTimeout (step drainTimeout s e) ↔ ¬ Wedges s e := by
  rw [stuck_iff hmax h] at hs
  rw [stuck_iff hmax (sound_step s e h), not_iff_not]
  -- In the other phases the loop waits for no permit.
  have hmoved : ∀ t : Loop Client, (∀ client, t.phase ≠ .acquire client) →
      ¬ (t.completed = true ∧ (∃ client, t.phase = .acquire client) ∧ t.free = some 0) :=
    fun t ht ⟨_, ⟨client, hphase⟩, _⟩ => ht client hphase
  cases e with
  | accept client =>
      simp only [step, Wedges]
      split
      · rename_i hphase
        simp [hphase]
      · rename_i hphase
        exact iff_of_false hs fun hw => hphase hw.1
  | acceptError =>
      simp only [step, Wedges]
      split
      · exact iff_of_false (hmoved _ fun client hc => by cases hc) id
      · exact iff_of_false hs id
  | spawn =>
      simp only [step, Wedges]
      split
      · exact iff_of_false (hmoved _ fun client hc => by cases hc) id
      · exact iff_of_false (hmoved _ fun client hc => by cases hc) id
      · exact iff_of_false hs id
  | complete => simp [step, Wedges]
  | leave =>
      simp only [step, Wedges]
      split
      · exact iff_of_false (hmoved _ fun client hc => by cases hc) id
      · exact iff_of_false hs id
  | close i => exact iff_of_false (endTask_not_waiting i hs) id
  | finish i =>
      simp only [step, Wedges]
      split
      · exact iff_of_false (endTask_not_waiting i hs) id
      · exact iff_of_false hs id
  | drained =>
      simp only [step, Wedges]
      split
      · exact iff_of_false (hmoved _ fun client hc => by cases hc) id
      · exact iff_of_false hs id
  | timeout =>
      simp only [step, Wedges]
      split
      · split
        · exact iff_of_false (hmoved _ fun client hc => by cases hc) id
        · exact iff_of_false hs id
      · exact iff_of_false hs id

/-- **Shutdown never waits for a client**, in any state of a run, exactly if in that run the
shutdown future does not complete while the loop waits for a permit and none is free, and
no connection is accepted with the future completed and no permit free. -/
theorem never_stuck_iff (hmax : maxConnections ≠ some 0) (drainTimeout : Bool)
    (events : List (LoopEvent Client)) :
    Always (step drainTimeout) (fun s => ¬ Stuck drainTimeout s) (start maxConnections) events ↔
      Along (step drainTimeout) (fun s e => ¬ Wedges s e) (start maxConnections) events := by
  have hsound : (start maxConnections : Loop Client).Sound maxConnections :=
    ⟨by simp [start], fun h => by cases h⟩
  refine always_iff_along sound_step (stuck_step_iff hmax) hsound ?_ events
  rw [stuck_iff hmax hsound]
  simp [start]

end Loop

/-- With a permit left for every connection the shutdown goes through: the condition of
`Loop.never_stuck_iff` is met by a run in which one connection is served and closed, and the
future completes. -/
theorem never_stuck_one_connection :
    Always (Loop.step false) (fun s => ¬ Loop.Stuck false s) (Loop.start (some 1))
      [.accept "a", .spawn, .close 0, .complete, .leave, .drained] :=
  (Loop.never_stuck_iff (by simp) false _).mpr (by
    simp [Along, Loop.step, Loop.start, Loop.Wedges, Loop.endTask])

/-- **One connection too many holds up the shutdown.**  With `max_connections` 1 the loop
serves `a`, accepts `b` and waits for a permit.  The shutdown future completes, and the
loop leaves for draining only when `a` closes its connection. -/
theorem shutdown_waits_for_client :
    Loop.Stuck false (run (Loop.step false) (Loop.start (some 1))
      [.accept "a", .spawn, .accept "b", .complete]) := by
  have hsound : (run (Loop.step false) (Loop.start (some 1))
      [.accept "a", .spawn, .accept "b", .complete]).Sound (some 1) := ⟨rfl, fun h => by cases h⟩
  exact (Loop.stuck_iff (by simp) hsound).mpr ⟨rfl, ⟨"b", rfl⟩, rfl⟩

end Proxy
end Noxy

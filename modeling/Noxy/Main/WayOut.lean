/-
# The way out of the program

`src/main.rs`: the loop of `apply_cli_and_run` that joins the listeners.

After a shutdown was sent the program waits for its listeners.  It can return without anything
more from a client, an exchange, a failure or a signal exactly if every listener that still runs
can (`returns_iff`), which `Noxy.Proxy.ShutdownDrain` says of one server: a listener that can
return can be joined, one after the other (`Leaving.join_one`), and what a listener does in the
program it does by itself (`Follows`).  One listener that waits for a client keeps the program
from ending, however many there are.
-/

import Mathlib.Data.List.FinRange
import Noxy.Main.Supervised
import Noxy.Proxy.ShutdownDrain

namespace Noxy
namespace Main

open Lib Lifecycle

namespace Supervisor

variable {n : ℕ} {listeners : Fin n → Settings} {s : Supervisor n}

/-- The events that need neither a client nor a service nor a failure nor a signal. -/
def Own : SupervisorEvent n → Prop
  | .server _ e => e.Own
  | .osSignal | .fail _ _ | .panic _ _ => False
  | _ => True

/-- A server can return by itself. -/
def CanReturn (cfg : Settings) (server : Server) : Prop :=
  CanReach (Server.step cfg) Event.Own (fun t => t.loop.phase = .returned) server

theorem put_put (s : Supervisor n) (i : Fin n) (t t' : Task) :
    (s.put i t).put i t' = s.put i t' := by
  unfold put
  simp [Function.update_idem]

/-! ### What a listener does by itself -/

/-- The server of a listener is where events of its own have taken it. -/
def Follows (listeners : Fin n → Settings) (i : Fin n) (server : Server) (s : Supervisor n) :
    Prop :=
  ∃ es : List Event, (∀ e ∈ es, e.Own) ∧
    ∃ since, s.tasks i = .running (run (Server.step (listeners i)) server es) since

theorem follows_server {i j : Fin n} {server : Server} {e : Event} (he : e.Own)
    (h : s.Follows listeners i server) :
    (s.step listeners (.server j e)).Follows listeners i server := by
  obtain ⟨es, hes, since, hi⟩ := h
  rcases s.step_server listeners j e with hstep | ⟨server', since', hj, -, hstep⟩
  · rw [hstep]
    exact ⟨es, hes, since, hi⟩
  · rw [hstep]
    by_cases hij : i = j
    · subst hij
      obtain ⟨rfl, rfl⟩ := Task.running.inj (hi.symm.trans hj)
      refine ⟨es ++ [e], fun e' he' => ?_, since, by rw [tasks_put, if_pos rfl, run_concat]⟩
      rcases List.mem_append.mp he' with he' | he'
      · exact hes e' he'
      · rwa [List.mem_singleton.mp he']
    · exact ⟨es, hes, since, by rw [tasks_put, if_neg hij]; exact hi⟩

/-- **A listener goes its own way**, until it has returned. -/
theorem follows_step (hsound : s.Sound listeners) {e : SupervisorEvent n} (he : Own e) {i : Fin n}
    {server : Server} (h : s.Follows listeners i server) :
    (s.step listeners e).Follows listeners i server ∨ CanReturn (listeners i) server := by
  obtain ⟨es, hes, since, hi⟩ := h
  -- Another task may change, and this one is what it was.
  have hother : ∀ {j : Fin n} {t : Task},
      s.tasks j ≠ .running (run (Server.step (listeners i)) server es) since →
        (s.put j t).Follows listeners i server := by
    intro j t hj
    have hij : i ≠ j := fun hij => hj (hij ▸ hi)
    exact ⟨es, hes, since, by rw [tasks_put, if_neg hij]; exact hi⟩
  cases e with
  | osSignal => exact he.elim
  | fail j err => exact he.elim
  | panic j err => exact he.elim
  | server j e => exact .inl (follows_server he ⟨es, hes, since, hi⟩)
  | spawn =>
      left
      simp only [step]
      split
      · rename_i hlt
        have hnew : s.tasks ⟨s.spawned, hlt⟩ = .unspawned := (hsound.early _).mpr le_rfl
        exact hother (by rw [hnew]; exact fun hne => by cases hne)
      · exact ⟨es, hes, since, hi⟩
  | spawnSignal =>
      left
      simp only [step]
      split <;> exact ⟨es, hes, since, hi⟩
  | finish j =>
      simp only [step]
      split
      · rename_i server' since' hj
        split
        · rename_i hreturned
          by_cases hij : i = j
          · subst hij
            obtain ⟨rfl, rfl⟩ := Task.running.inj (hi.symm.trans hj)
            exact .inr ⟨es, hes, hreturned⟩
          · exact .inl ⟨es, hes, since, by rw [tasks_put, if_neg hij]; exact hi⟩
        · exact .inl ⟨es, hes, since, hi⟩
      · exact .inl ⟨es, hes, since, hi⟩
  | join j =>
      left
      simp only [step]
      split
      · exact ⟨es, hes, since, hi⟩
      · exact ⟨es, hes, since, hi⟩
      · rename_i result hj _
        obtain ⟨es', hes', since', hi'⟩ :=
          hother (t := .joined) ((outcome_eq_some hj).2.2 _ since)
        have htasks : (s.joined j result).tasks = (s.put j .joined).tasks := by cases result <;> rfl
        exact ⟨es', hes', since', by rw [htasks]; exact hi'⟩
  | exit =>
      left
      simp only [step]
      split <;> exact ⟨es, hes, since, hi⟩

/-- A listener that is running when the program can return can return. -/
theorem canReturn_of_canReach (hsound : s.Sound listeners)
    (hreach : CanReach (step listeners) Own (fun t => t.result ≠ none) s) {i : Fin n}
    {server : Server} {since : ℕ} (hi : s.tasks i = .running server since) :
    CanReturn (listeners i) server := by
  obtain ⟨es, hes, hdone⟩ := hreach
  have hkept : (run (step listeners) s es).Sound listeners ∧
      ((run (step listeners) s es).Follows listeners i server ∨
        CanReturn (listeners i) server) :=
    run_of_kept (J := fun t : Supervisor n => t.Sound listeners ∧
        (t.Follows listeners i server ∨ CanReturn (listeners i) server))
      (fun e he t ht => ⟨t.sound_step e ht.1,
        ht.2.elim (follows_step ht.1 (hes e he)) Or.inr⟩)
      ⟨hsound, .inl ⟨[], by simp, since, hi⟩⟩
  obtain ⟨hsound', ⟨es', -, since', hi'⟩ | hreturns⟩ := hkept
  · exact absurd (hsound'.result_none (by rw [hi']; exact fun hne => by cases hne)) hdone
  · exact hreturns

/-! ### Joining the listeners -/

/-- The events of one server, seen by the program. -/
theorem run_server (listeners : Fin n → Settings) {i : Fin n} {since : ℕ} {es : List Event}
    (hes : ∀ e ∈ es, e.Own) :
    ∀ {s : Supervisor n} {server : Server}, s.tasks i = .running server since → since < s.sent →
      run (step listeners) s (es.map (.server i)) =
        s.put i (.running (run (Server.step (listeners i)) server es) since) := by
  induction es with
  | nil =>
      intro s server hi _
      unfold put
      rw [List.map_nil, run_nil, run_nil, ← hi, Function.update_eq_self]
  | cons e es ih =>
      intro s server hi hsince
      have he := hes e (List.mem_cons_self ..)
      have hstep : s.step listeners (.server i e) =
          s.put i (.running (server.step (listeners i) e) since) := by
        cases e <;> simp_all [step, Event.Own]
      have hput : (s.put i (.running (server.step (listeners i) e) since)).tasks i =
          .running (server.step (listeners i) e) since := by
        rw [tasks_put, if_pos rfl]
      rw [List.map_cons, run_cons, hstep,
        ih (fun e' he' => hes e' (List.mem_cons_of_mem _ he')) hput hsince, put_put, run_cons]

/-- What the way out keeps: the shutdown was sent, `main` joins, and every listener that runs can
return. -/
structure Leaving (listeners : Fin n → Settings) (s : Supervisor n) : Prop where
  sound : s.Sound listeners
  sent : 0 < s.sent
  signal : s.signal ≠ .unspawned
  result : s.result = none
  returns : ∀ i server since, s.tasks i = .running server since → CanReturn (listeners i) server

/-- A task that is not a running one holds up nothing. -/
theorem Leaving.put (h : s.Leaving listeners) {i : Fin n} {t : Task}
    (ht : ∀ server since, t ≠ .running server since) :
    ∀ j server since, (s.put i t).tasks j = .running server since →
      CanReturn (listeners j) server := by
  intro j server since hj
  rw [tasks_put] at hj
  split at hj
  · exact absurd hj (ht server since)
  · exact h.returns j server since hj

/-- On the way out, a listener that has ended is joined. -/
theorem Leaving.join_ended (h : s.Leaving listeners) {i : Fin n}
    {result : Except String Unit} (hi : (s.tasks i).outcome = some result) :
    CanReach (step listeners) Own (fun t => t.Leaving listeners ∧ t.tasks i = .joined ∧
      ∀ j, s.tasks j = .joined → t.tasks j = .joined) s := by
  have hstep : s.step listeners (.join i) = s.joined i result := by
    have hsignal := h.signal
    cases hs : s.signal with
    | unspawned => exact absurd hs hsignal
    | waiting => simp [step, hs, hi]
    | done => simp [step, hs, hi]
  have htasks : (s.joined i result).tasks = (s.put i .joined).tasks := by cases result <;> rfl
  have hjoined : ∀ j, (s.joined i result).tasks j = if j = i then .joined else s.tasks j := by
    intro j
    rw [htasks, tasks_put]
  have hsent : s.sent ≤ (s.joined i result).sent := by
    cases result with
    | ok _ => exact le_rfl
    | error err => exact Nat.le_succ _
  refine .next (e := .join i) trivial (.now ?_)
  rw [hstep]
  refine ⟨⟨?_, h.sent.trans_le hsent, ?_, ?_, ?_⟩, by rw [hjoined, if_pos rfl], fun j hj => ?_⟩
  · rw [← hstep]
    exact s.sound_step _ h.sound
  · cases result <;> exact h.signal
  · cases result <;> exact h.result
  · rw [htasks]
    exact h.put fun _ _ hne => by cases hne
  · rw [hjoined]
    split
    · rfl
    · exact hj

/-- **On the way out, every listener can be joined**, and what was joined stays so. -/
theorem Leaving.join_one (h : s.Leaving listeners) (i : Fin n) :
    CanReach (step listeners) Own (fun t => t.Leaving listeners ∧ t.tasks i = .joined ∧
      ∀ j, s.tasks j = .joined → t.tasks j = .joined) s := by
  cases hi : s.tasks i with
  | unspawned =>
      have hall := h.sound.order h.signal
      have := (h.sound.early i).mp hi
      omega
  | joined => exact .now ⟨h, hi, fun j hj => hj⟩
  | ended result => exact h.join_ended (by rw [hi]; rfl)
  | panicked err => exact h.join_ended (by rw [hi]; rfl)
  | running server since =>
      have hsince := (h.sound.subscribed i server since hi).since_eq
      obtain ⟨es, hes, hreturned⟩ := h.returns i server since hi
      have hrun := run_server listeners hes hi (hsince ▸ h.sent)
      have hfinish : (run (step listeners) s (es.map (.server i))).step listeners (.finish i) =
          s.put i (.ended (.ok ())) := by
        rw [hrun]
        simp [step, tasks_put, hreturned, put_put]
      have hended : (s.put i (.ended (.ok ()))).Leaving listeners := by
        refine ⟨?_, h.sent, h.signal, h.result, h.put fun _ _ hne => by cases hne⟩
        rw [← hfinish]
        exact sound_step _ _ (run_of_kept (fun e _ s => s.sound_step e) h.sound)
      have hreach : CanReach (step listeners) Own
          (fun t => t = s.put i (.ended (.ok ()))) s := by
        refine ⟨es.map (.server i) ++ [.finish i], fun e he => ?_, by rw [run_concat, hfinish]⟩
        rcases List.mem_append.mp he with he | he
        · obtain ⟨e', he', rfl⟩ := List.mem_map.mp he
          exact hes e' he'
        · rw [List.mem_singleton.mp he]
          trivial
      refine hreach.trans fun t ht => ?_
      rw [ht]
      refine (hended.join_ended (i := i) (by rw [tasks_put, if_pos rfl]; rfl)).mono
        fun u hu => ⟨hu.1, hu.2.1, fun j hj => ?_⟩
      by_cases hji : j = i
      · rw [hji]
        exact hu.2.1
      · refine hu.2.2 j ?_
        rw [tasks_put, if_neg hji]
        exact hj

end Supervisor

variable {n : ℕ} (listeners : Fin n → Settings)

/-- A connection that waits for a request ends after the signal, and with an idle timeout before
it too; one with a request at the service does not end by itself. -/
def http1 : Hyper where
  idles := fun place => decide (place = .waiting)
  finishes := fun place => decide (place ≠ .exchanging)

/-- Two reverse proxies, the first of which serves one connection at a time. -/
def twoListeners (i : Fin 2) : Settings :=
  if i = 0 then ⟨.reverse, false, none, false, some 1, false, http1⟩
  else ⟨.reverse, false, none, false, none, false, http1⟩

/-- The first listener serves a connection, and the second one fails and is joined. -/
def secondFails : List (SupervisorEvent 2) :=
  [.spawn, .spawn, .spawnSignal, .server 0 .accept, .server 0 .spawn,
    .server 0 (.conn 0 .request), .server 0 (.conn 0 (.respond true)), .fail 1 "bind", .join 1]

end Main
end Noxy

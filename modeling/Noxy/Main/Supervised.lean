/-
# What holds in every state of the program

`src/main.rs`: the end of `apply_cli_and_run`.

No shutdown is lost and none is made up, and `main` returns the first error it has joined, after
all listeners have ended (`supervised`).  All that holds in every state (`Supervisor.Sound`) is
read off what an event can do (`Noxy.Main.Supervisor`).
-/

import Mathlib.Data.Fintype.Card
import Noxy.Main.Supervisor

namespace Noxy
namespace Main

open Lib Lifecycle

namespace Supervisor

variable {n : ℕ} {listeners : Fin n → Settings} {s : Supervisor n}

/-- The first error among the results. -/
def firstError (results : List (Except String Unit)) : Option String :=
  results.findSome? fun
    | .ok () => none
    | .error err => some err

theorem firstError_append (results results' : List (Except String Unit)) :
    firstError (results ++ results') = (firstError results).or (firstError results') :=
  List.findSome?_append

/-- What `main` returns when it has joined these. -/
def verdict (results : List (Except String Unit)) : Except String Unit :=
  conclude (firstError results)

/-- The listeners that have been joined. -/
def joinedSet (s : Supervisor n) : Finset (Fin n) :=
  Finset.univ.filter fun i => (s.tasks i).isJoined = true

/-- What holds of a listener that runs, when `sent` messages were sent. -/
structure Subscribed (cfg : Settings) (sent : ℕ) (server : Server) (since : ℕ) : Prop where
  since_eq : since = 0
  heard : server.loop.completed = true → 0 < sent
  reached : ∃ events, server = run (Server.step cfg) (Server.start cfg) events

/-- One more message is sent. -/
theorem Subscribed.sent {cfg : Settings} {sent since : ℕ} {server : Server}
    (h : Subscribed cfg sent server since) : Subscribed cfg (sent + 1) server since :=
  ⟨h.since_eq, fun _ => Nat.succ_pos _, h.reached⟩

/-- What holds in every state. -/
structure Sound (listeners : Fin n → Settings) (s : Supervisor n) : Prop where
  spawned : s.spawned ≤ n
  early : ∀ i : Fin n, s.tasks i = .unspawned ↔ s.spawned ≤ i
  order : s.signal ≠ .unspawned → s.spawned = n
  silent : s.signal = .unspawned → s.sent = 0
  subscribed : ∀ i server since, s.tasks i = .running server since →
    Subscribed (listeners i) s.sent server since
  cause : 0 < s.sent → s.signal = .done ∨ ∃ err, .error err ∈ s.joins
  firstErr : s.firstErr = firstError s.joins
  counted : s.joinedSet.card = s.joins.length
  result : ∀ r, s.result = some r → (∀ i, s.tasks i = .joined) ∧ r = verdict s.joins

theorem sound_start (listeners : Fin n → Settings) :
    (start : Supervisor n).Sound listeners where
  spawned := Nat.zero_le n
  early := fun i => iff_of_true rfl (Nat.zero_le i)
  order := fun h => absurd rfl h
  silent := fun _ => rfl
  subscribed := fun i server since h => by cases h
  cause := fun h => absurd h (Nat.lt_irrefl 0)
  firstErr := rfl
  counted := by simp [joinedSet, start, Task.isJoined]
  result := fun r h => by cases h

theorem joinedSet_put (s : Supervisor n) {i : Fin n} {t : Task}
    (h : t.isJoined = (s.tasks i).isJoined) : (s.put i t).joinedSet = s.joinedSet := by
  unfold joinedSet
  ext j
  simp only [Finset.mem_filter, Finset.mem_univ, true_and, tasks_put]
  split
  · rename_i hj
    rw [hj, h]
  · rfl

theorem card_joinedSet_joined (s : Supervisor n) {i : Fin n}
    (h : (s.tasks i).isJoined = false) :
    (s.put i .joined).joinedSet.card = s.joinedSet.card + 1 := by
  have hinsert : (s.put i .joined).joinedSet = insert i s.joinedSet := by
    unfold joinedSet
    ext j
    simp only [Finset.mem_insert, Finset.mem_filter, Finset.mem_univ, true_and, tasks_put]
    split
    · rename_i hj
      simp [hj, Task.isJoined]
    · rename_i hj
      simp [hj]
  rw [hinsert, Finset.card_insert_of_notMem]
  simp [joinedSet, h]

theorem outcome_eq_some {t : Task} {result : Except String Unit}
    (h : t.outcome = some result) :
    t.isJoined = false ∧ t ≠ .unspawned ∧ ∀ server since, t ≠ .running server since := by
  cases t with
  | ended r => exact ⟨rfl, by simp, by simp⟩
  | panicked err => exact ⟨rfl, by simp, by simp⟩
  | unspawned => cases h
  | running server since => cases h
  | joined => cases h

/-- A task that has been joined stays so. -/
theorem Sound.result_none (h : s.Sound listeners) {i : Fin n} (hi : s.tasks i ≠ .joined) :
    s.result = none := by
  cases hr : s.result with
  | none => rfl
  | some r => exact absurd ((h.result r hr).1 i) hi

/-- A listener is spawned: nothing has been sent. -/
theorem Sound.spawn (h : s.Sound listeners) (hlt : s.spawned < n) :
    ({ s.put ⟨s.spawned, hlt⟩ (.running (.start (listeners ⟨s.spawned, hlt⟩)) s.sent)
      with spawned := s.spawned + 1 } : Supervisor n).Sound listeners := by
  have hunspawned : s.signal = .unspawned := by
    by_contra hne
    exact absurd (h.order hne) hlt.ne
  have hsent := h.silent hunspawned
  have htask : s.tasks ⟨s.spawned, hlt⟩ = .unspawned := (h.early _).mpr le_rfl
  refine
    { spawned := hlt
      early := fun i => ?_
      order := fun hne => absurd hunspawned hne
      silent := fun _ => hsent
      subscribed := fun i server since hi => ?_
      cause := h.cause
      firstErr := h.firstErr
      counted := ?_
      result := fun r hr => ?_ }
  · dsimp only
    rw [tasks_put]
    split
    · rename_i hi
      refine iff_of_false (fun hne => by cases hne) ?_
      rw [hi]
      exact Nat.not_succ_le_self _
    · rename_i hi
      rw [h.early i]
      have hne : s.spawned ≠ (i : ℕ) := fun heq => hi (Fin.ext heq.symm)
      omega
  · dsimp only at hi ⊢
    rw [tasks_put] at hi
    split at hi
    · rename_i hnew
      obtain ⟨rfl, rfl⟩ := Task.running.inj hi
      rw [hnew]
      exact ⟨hsent, fun hc => (by cases hc), [], rfl⟩
    · exact h.subscribed i server since hi
  · exact (congrArg Finset.card (s.joinedSet_put (by rw [htask]; rfl))).trans h.counted
  · have hnone : s.result = none := h.result_none (by rw [htask]; exact fun hne => by cases hne)
    rw [show s.result = some r from hr] at hnone
    cases hnone

/-- A task goes on or ends. -/
theorem Sound.task (h : s.Sound listeners) {i : Fin n} {server : Server} {since : ℕ}
    {t : Task}
    (hi : s.tasks i = .running server since)
    (ht : Goes (listeners i) s.sent server since t) : (s.put i t).Sound listeners := by
  obtain ⟨rfl, hheard, events, hreached⟩ := h.subscribed i server since hi
  have hspawned : t ≠ .unspawned := by cases ht <;> simp
  refine
    { spawned := h.spawned
      early := fun j => ?_
      order := h.order
      silent := h.silent
      subscribed := fun j server' since' hj => ?_
      cause := h.cause
      firstErr := h.firstErr
      counted := ?_
      result := fun r hr => ?_ }
  · rw [tasks_put]
    split
    · rename_i hj
      have hearly := h.early i
      rw [hi] at hearly
      rw [hj]
      exact iff_of_false hspawned fun hle => by cases hearly.mpr hle
    · exact h.early j
  · rw [tasks_put] at hj
    split at hj
    · cases ht with
      | on e heard =>
          obtain ⟨rfl, rfl⟩ := Task.running.inj hj
          subst i
          refine ⟨rfl, fun hc => ?_, events ++ [e], ?_⟩
          · rcases Server.completed_of_step hc with hc | hc
            · exact hheard hc
            · exact heard hc
          · rw [run_concat, ← hreached]
      | ended result => cases hj
      | panicked err => cases hj
    · exact h.subscribed j server' since' hj
  · rw [s.joinedSet_put]
    · exact h.counted
    · rw [hi]
      cases ht <;> rfl
  · have hnone : s.result = none := h.result_none (by rw [hi]; exact fun hne => by cases hne)
    rw [show s.result = some r from hr] at hnone
    cases hnone

/-- A listener is joined. -/
theorem Sound.join (h : s.Sound listeners) {i : Fin n} {result : Except String Unit}
    (hsignal : s.signal ≠ .unspawned) (hi : (s.tasks i).outcome = some result) :
    (s.joined i result).Sound listeners := by
  obtain ⟨hopen, hspawned, hended⟩ := outcome_eq_some hi
  have hearly : ∀ j, (s.put i .joined).tasks j = .unspawned ↔ s.spawned ≤ j := by
    intro j
    rw [tasks_put]
    split
    · rename_i hj
      rw [hj]
      exact iff_of_false (fun hne => by cases hne) fun hle => hspawned ((h.early i).mpr hle)
    · exact h.early j
  have hsubscribed : ∀ j server since, (s.put i .joined).tasks j = .running server since →
      Subscribed (listeners j) s.sent server since := by
    intro j server since hj
    rw [tasks_put] at hj
    split at hj
    · cases hj
    · exact h.subscribed j server since hj
  have hcounted : (s.joined i result).joinedSet.card = (s.joined i result).joins.length := by
    have hcard := s.card_joinedSet_joined hopen
    rw [h.counted] at hcard
    cases result <;> exact hcard.trans (by simp [joined])
  have hnone : s.result = none := h.result_none fun hjoined => by
    rw [hjoined] at hopen
    cases hopen
  have hresult : (s.joined i result).result = none := by cases result <;> exact hnone
  cases result with
  | ok _ =>
      refine
        { spawned := h.spawned
          early := hearly
          order := h.order
          silent := h.silent
          subscribed := hsubscribed
          cause := fun hsent => (h.cause hsent).imp_right fun ⟨err, herr⟩ =>
            ⟨err, List.mem_append_left _ herr⟩
          firstErr := ?_
          counted := hcounted
          result := fun r hr => by cases hresult.symm.trans hr }
      exact (by rw [firstError_append, ← h.firstErr]; simp [firstError] :
        s.firstErr = firstError (s.joins ++ [.ok ()]))
  | error err =>
      refine
        { spawned := h.spawned
          early := hearly
          order := h.order
          silent := fun hne => absurd hne hsignal
          subscribed := fun j server since hj => (hsubscribed j server since hj).sent
          cause := fun _ => .inr ⟨err, List.mem_append_right _ (List.mem_singleton_self _)⟩
          firstErr := ?_
          counted := hcounted
          result := fun r hr => by cases hresult.symm.trans hr }
      exact (by rw [firstError_append, ← h.firstErr]; simp [firstError] :
        s.firstErr.or (some err) = firstError (s.joins ++ [.error err]))

/-- **Every event keeps what holds.** -/
theorem sound_step (s : Supervisor n) (e : SupervisorEvent n)
    (h : s.Sound listeners) :
    (s.step listeners e).Sound listeners := by
  have hmoved := s.moved_step listeners e
  generalize s.step listeners e = s' at hmoved
  cases hmoved with
  | stay => exact h
  | spawn hlt => exact h.spawn hlt
  | spawnSignal hall hsignal =>
      exact { h with order := fun _ => hall, silent := fun hne => (by cases hne),
                     cause := fun hsent => absurd (h.silent hsignal) hsent.ne' }
  | osSignal hsignal =>
      exact { h with
        order := fun _ => h.order (by rw [hsignal]; simp)
        silent := fun hne => by cases hne
        subscribed := fun i server since hi => (h.subscribed i server since hi).sent
        cause := fun _ => .inl rfl }
  | task hi ht => exact h.task hi ht
  | join hsignal hi => exact h.join hsignal hi
  | exit hjoined hnone =>
      exact { h with
        result := fun r hr => ⟨hjoined, by
          rw [← Option.some.inj hr, verdict, ← h.firstErr]⟩ }

end Supervisor

section Run

variable {n : ℕ} (listeners : Fin n → Settings)

/-- The program after the events. -/
def supervise (events : List (SupervisorEvent n)) : Supervisor n :=
  run (Supervisor.step listeners) .start events

theorem sound_supervise (events : List (SupervisorEvent n)) :
    (supervise listeners events).Sound listeners :=
  run_of_kept (fun e _ s => s.sound_step e) (Supervisor.sound_start listeners)

/-- **No shutdown is lost and none is made up.**  In every state that the program and its listeners
can get to: once a shutdown has been sent, the future of every listener that still runs is ready;
a listener has heard of a shutdown only if one was sent, and one is sent only after a signal or
after a listener that failed; and when the program returns, it has joined each listener once, and
returns the first error among what it joined. -/
theorem supervised (events : List (SupervisorEvent n)) :
    let s := supervise listeners events
    (0 < s.sent → ∀ i server since, s.tasks i = .running server since → since < s.sent) ∧
      (∀ i server since, s.tasks i = .running server since → server.loop.completed = true →
        s.signal = .done ∨ ∃ err, .error err ∈ s.joins) ∧
      ∀ r, s.result = some r →
        (∀ i, s.tasks i = .joined) ∧ s.joins.length = n ∧ r = Supervisor.verdict s.joins := by
  intro s
  have h : s.Sound listeners := sound_supervise listeners events
  refine ⟨fun hsent i server since hi => ?_, fun i server since hi hc => ?_, fun r hr => ?_⟩
  · rw [(h.subscribed i server since hi).since_eq]
    exact hsent
  · exact h.cause ((h.subscribed i server since hi).heard hc)
  · obtain ⟨hjoined, hr⟩ := h.result r hr
    refine ⟨hjoined, ?_, hr⟩
    have hall : s.joinedSet = Finset.univ :=
      Finset.filter_true_of_mem fun i _ => Task.isJoined_iff.mpr (hjoined i)
    rw [← h.counted, hall, Finset.card_univ, Fintype.card_fin]

end Run

end Main
end Noxy

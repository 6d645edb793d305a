/-
# When a shutdown completes

`src/lib.rs`: `Proxy::listen_on_with_shutdown`, `Proxy::handle_forward_connection`,
`Proxy::handle_reverse_connection`, `Proxy::serve_client`.

Only `serve_client` listens for the shutdown signal.  A task that is still in `acceptor.accept`
waits for its client and for nothing else, one in the handshake for its client or the handshake
timeout, and one with a request at the service for the end of the exchange, so whether
`listen_on_with_shutdown` returns after the shutdown future is ready depends on the stages its
tasks are in.  For every state a server can get to, `shutdown_completes_iff` says when it returns
although no client does anything more and no exchange comes to its end: a wait for a permit has to
be over at some time, which before the signal only the timeout of a handshake or the idle timeout
can bring about, and then there has to be a drain timeout, or no task, the one that waits for the
permit included, in a stage that nothing else ends.
-/

import Mathlib.Data.Nat.Find
import Noxy.Lib.Reach
import Noxy.Proxy.Unserved

namespace Noxy
namespace Lifecycle

open Lib Proxy

/-- The events of a connection that need neither its client nor its service. -/
def ConnEvent.Own : ConnEvent → Prop
  | .expire | .idle | .finish => True
  | _ => False

/-- The events that need no client, no service and no failure. -/
def Event.Own : Event → Prop
  | .accept | .acceptError => False
  | .conn _ e => e.Own
  | _ => True

namespace Stage

variable (cfg : Settings)

/-- A timer ends a task in this stage. -/
def expires : Stage → Bool
  | .handshaking _ => cfg.handshakeTimeout.isSome
  | .serving place => cfg.idleTimeout && cfg.hyper.idles place
  | _ => false

/-- The shutdown signal ends a task in this stage. -/
def finishes : Stage → Bool
  | .serving place => cfg.hyper.finishes place
  | _ => false

/-- A task in this stage ends by itself once the shutdown signal is sent; for one that is not
spawned yet this is its first stage. -/
def timely (stage : Stage) : Bool :=
  match stage with
  | .queued => (cfg.firstStage 0).expires cfg || (cfg.firstStage 0).finishes cfg
  | stage => stage.expires cfg || stage.finishes cfg

variable {cfg}

theorem timely_firstStage (cfg : Settings) (now : ℕ) :
    (cfg.firstStage now).timely cfg = Stage.queued.timely cfg := by
  unfold Settings.firstStage Settings.afterTls
  cases htls : cfg.tlsAcceptor <;> cases hmode : cfg.mode <;>
    simp [timely, Settings.firstStage, Settings.afterTls, htls, hmode, expires, finishes]

/-- **What ends without a client**, and why. -/
theorem next_of_own (cfg : Settings) (stage : Stage) (now : ℕ) (signalled : Bool) {e : ConnEvent}
    (he : e.Own) :
    stage.next cfg now signalled e = .same ∨
      stage.next cfg now signalled e = .ends ∧
        (stage.expires cfg = true ∨ signalled = true ∧ stage.finishes cfg = true) := by
  cases e with
  | expire =>
      simp only [next]
      split
      · rename_i since timeout htimeout
        split
        · exact .inr ⟨rfl, .inl (by simp [expires, htimeout])⟩
        · exact .inl rfl
      · exact .inl rfl
  | idle =>
      simp only [next]
      split
      · split
        · rename_i place hidle
          exact .inr ⟨rfl, .inl hidle⟩
        · exact .inl rfl
      · exact .inl rfl
  | finish =>
      simp only [next]
      split
      · split
        · rename_i place hfinish
          exact .inr ⟨rfl, .inr (by simpa [finishes] using hfinish)⟩
        · exact .inl rfl
      · exact .inl rfl
  | _ => exact he.elim

/-- A task that ends without its client is in a stage that does. -/
theorem timely_of_ends {stage : Stage} {signalled : Bool}
    (h : stage.expires cfg = true ∨ signalled = true ∧ stage.finishes cfg = true) :
    stage.timely cfg = true := by
  cases stage with
  | queued => rcases h with h | ⟨-, h⟩ <;> cases h
  | _ =>
      rcases h with h | ⟨-, h⟩
      · simp [timely, h]
      · simp [timely, h]

end Stage

theorem Conn.timely_begin (cfg : Settings) (now : ℕ) (c : Conn) :
    (c.begin cfg now).stage.timely cfg = c.stage.timely cfg := by
  obtain ⟨began, stage⟩ := c
  cases stage with
  | queued => exact Stage.timely_firstStage cfg now
  | _ => rfl

namespace Server

/-- A timer will end some task. -/
def Expiring (cfg : Settings) (s : Server) : Prop :=
  ∃ c ∈ s.loop.tasks, c.stage.expires cfg = true

/-- The wait for a permit comes to an end without a client. -/
def Admits (cfg : Settings) (s : Server) : Prop :=
  ∀ c, s.loop.phase = .acquire c → s.loop.free ≠ some 0 ∨ s.Expiring cfg

/-- All tasks, and the one that waits for its permit, end without their clients. -/
def AllTimely (cfg : Settings) (s : Server) : Prop :=
  (∀ c ∈ s.loop.tasks, c.stage.timely cfg = true) ∧
    ∀ c, s.loop.phase = .acquire c → c.stage.timely cfg = true

/-- **What a shutdown needs to complete** without a client: it has, or the wait for a permit comes
to an end, and there is a drain timeout or all tasks end. -/
def Ends (cfg : Settings) (s : Server) : Prop :=
  s.loop.phase = .returned ∨ s.Admits cfg ∧ (cfg.drainTimeout = true ∨ s.AllTimely cfg)

variable {cfg : Settings} {s : Server}

theorem Timed.beginTasks_eq (h : s.Timed cfg) : s.beginTasks cfg = s := by
  have htasks : s.loop.tasks.map (Conn.begin cfg s.now) = s.loop.tasks := by
    conv_rhs => rw [← List.map_id s.loop.tasks]
    exact List.map_congr_left fun c hc => (h.tasks c hc).begin s.now
  unfold beginTasks
  rw [htasks]

/-! ## What keeps a server from returning -/

/-- The loop waits for a permit that no timer frees. -/
structure Blocked (cfg : Settings) (s : Server) : Prop where
  timed : s.Timed cfg
  acquire : ∃ c, s.loop.phase = .acquire c
  free : s.loop.free = some 0
  expiring : ¬ s.Expiring cfg
  signalled : s.loop.signalled = false

theorem Blocked.step (h : s.Blocked cfg) {e : Event} (he : e.Own) :
    (s.step cfg e).Blocked cfg := by
  obtain ⟨c, hphase⟩ := h.acquire
  cases e with
  | accept => exact he.elim
  | acceptError => exact he.elim
  | spawn =>
      have hstep : s.onLoop cfg .spawn = s := by
        simp [onLoop, Loop.step, hphase, h.free]
      rw [Server.step, hstep, h.timed.beginTasks_eq]
      exact h
  | complete =>
      exact ⟨h.timed.step .complete, h.acquire, h.free, h.expiring, h.signalled⟩
  | leave =>
      have hstep : s.step cfg .leave = s := by simp [Server.step, onLoop, Loop.step, hphase]
      rwa [hstep]
  | drained =>
      have hstep : s.step cfg .drained = s := by simp [Server.step, onLoop, Loop.step, hphase]
      rwa [hstep]
  | timeout =>
      have hstep : s.step cfg .timeout = s := by simp [Server.step, onLoop, Loop.step, hphase]
      rwa [hstep]
  | conn i e =>
      rcases step_conn cfg s i e with hstep | ⟨d, hi, hmoves⟩
      · rwa [hstep]
      · -- Without the signal only a timer could end the task, and there is none.
        rcases Stage.next_of_own cfg d.stage s.now s.loop.signalled he with
          hsame | ⟨-, hexpires | ⟨hsignalled, -⟩⟩
        · rcases hmoves with ⟨stage, hnext, -⟩ | ⟨hnext, -⟩ <;> cases hsame.symm.trans hnext
        · exact absurd ⟨d, List.mem_of_getElem? hi, hexpires⟩ h.expiring
        · cases h.signalled.symm.trans hsignalled
  | wait d =>
      have htimed := h.timed.step (.wait d)
      simp only [Server.step] at htimed ⊢
      split
      · rename_i hall
        rw [if_pos hall] at htimed
        exact ⟨htimed, h.acquire, h.free, h.expiring, h.signalled⟩
      · exact h

/-- There is no drain timeout, and some task, or the one that waits for its permit, needs its
client. -/
structure Held (cfg : Settings) (s : Server) : Prop where
  phase : s.loop.phase ≠ .returned
  untimely : (∃ c ∈ s.loop.tasks, c.stage.timely cfg ≠ true) ∨
    ∃ c, s.loop.phase = .acquire c ∧ c.stage.timely cfg ≠ true

theorem Held.iff_not_allTimely (hphase : s.loop.phase ≠ .returned) :
    s.Held cfg ↔ ¬ s.AllTimely cfg := by
  have h : ¬ s.AllTimely cfg ↔ (∃ c ∈ s.loop.tasks, c.stage.timely cfg ≠ true) ∨
      ∃ c, s.loop.phase = .acquire c ∧ c.stage.timely cfg ≠ true := by
    simp only [AllTimely, not_and_or, not_forall, exists_prop, ne_eq]
  rw [h]
  exact ⟨Held.untimely, fun hu => ⟨hphase, hu⟩⟩

/-- The end of another task leaves a task there. -/
theorem mem_endTask_of_ne {l : Loop Conn} {i : ℕ} {c d : Conn} (hc : c ∈ l.tasks)
    (hd : l.tasks[i]? = some d) (hne : c ≠ d) : c ∈ (l.endTask i).tasks := by
  obtain ⟨j, hj⟩ := List.getElem?_of_mem hc
  have hij : i ≠ j := by
    rintro rfl
    exact hne (Option.some.inj (hj.symm.trans hd))
  unfold Loop.endTask
  split
  · exact List.mem_eraseIdx_iff_getElem?.mpr ⟨j, hij.symm, hj⟩
  · exact hc

/-- The end of a task that does not need its client. -/
theorem Held.endTask (h : s.Held cfg) {i : ℕ} {d : Conn} (hd : s.loop.tasks[i]? = some d)
    (htimely : d.stage.timely cfg = true) :
    ({ s with loop := s.loop.endTask i } : Server).Held cfg := by
  refine ⟨by rw [phase_endTask]; exact h.phase, ?_⟩
  rcases h.untimely with ⟨c, hc, huntimely⟩ | ⟨c, hphase, huntimely⟩
  · refine .inl ⟨c, mem_endTask_of_ne hc hd ?_, huntimely⟩
    rintro rfl
    exact huntimely htimely
  · exact .inr ⟨c, (phase_endTask i).trans hphase, huntimely⟩

theorem Held.beginTasks (h : s.Held cfg) : (s.beginTasks cfg).Held cfg := by
  refine ⟨h.phase, h.untimely.imp_left ?_⟩
  rintro ⟨c, hc, huntimely⟩
  exact ⟨c.begin cfg s.now, List.mem_map_of_mem hc,
    fun htimely => huntimely ((c.timely_begin cfg s.now).symm.trans htimely)⟩

theorem Held.spawn (h : s.Held cfg) : (s.onLoop cfg .spawn).Held cfg := by
  -- The task that had to wait is now among the others.
  have hmem : ∀ d, s.loop.phase = .acquire d →
      ∃ c ∈ s.loop.tasks ++ [d], c.stage.timely cfg ≠ true := by
    intro d hphase
    rcases h.untimely with ⟨c, hc, huntimely⟩ | ⟨c, hc, huntimely⟩
    · exact ⟨c, List.mem_append_left _ hc, huntimely⟩
    · rw [hphase, Phase.acquire.injEq] at hc
      exact ⟨c, List.mem_append_right _ (List.mem_singleton.mpr hc.symm), huntimely⟩
  simp only [onLoop, Loop.step]
  split
  · rename_i d hphase hfree
    exact ⟨fun hret => (by cases hret), .inl (hmem d hphase)⟩
  · rename_i d n hphase hfree
    exact ⟨fun hret => (by cases hret), .inl (hmem d hphase)⟩
  · exact h

theorem Held.step (hdrain : cfg.drainTimeout = false) (h : s.Held cfg) {e : Event} (he : e.Own) :
    (s.step cfg e).Held cfg := by
  cases e with
  | accept => exact he.elim
  | acceptError => exact he.elim
  | spawn => exact h.spawn.beginTasks
  | complete => exact ⟨h.phase, h.untimely⟩
  | leave =>
      simp only [Server.step, onLoop, Loop.step]
      split
      · rename_i hphase hcompleted
        refine ⟨fun hret => (by cases hret), .inl (h.untimely.resolve_right ?_)⟩
        rintro ⟨c, hc, -⟩
        cases hphase.symm.trans hc
      · exact h
  | drained =>
      simp only [Server.step, onLoop, Loop.step]
      split
      · rename_i hphase htasks
        rcases h.untimely with ⟨c, hc, -⟩ | ⟨c, hc, -⟩
        · rw [htasks] at hc
          cases hc
        · cases hphase.symm.trans hc
      · exact h
  | timeout =>
      simp only [Server.step, onLoop, Loop.step, hdrain]
      split <;> exact h
  | conn i e =>
      rcases step_conn cfg s i e with hstep | ⟨d, hi, hmoves⟩
      · rwa [hstep]
      · rcases Stage.next_of_own cfg d.stage s.now s.loop.signalled he with
          hsame | ⟨hends, hwhy⟩
        · rcases hmoves with ⟨stage, hnext, -⟩ | ⟨hnext, -⟩ <;> cases hsame.symm.trans hnext
        · rw [step_conn_ends hi hends]
          exact h.endTask hi (Stage.timely_of_ends hwhy)
  | wait d =>
      simp only [Server.step]
      split
      · exact ⟨h.phase, h.untimely⟩
      · exact h

/-! ## How a server returns -/

/-- What is left of a server when the task at a position has ended. -/
structure Ended (s : Server) (i : ℕ) (t : Server) : Prop where
  loop : t.loop = s.loop.endTask i
  inside : i < s.loop.tasks.length

theorem Ended.tasks {i : ℕ} {t : Server} (h : s.Ended i t) :
    t.loop.tasks = s.loop.tasks.eraseIdx i := by
  rw [h.loop, Loop.endTask, if_pos h.inside]

theorem Ended.length {i : ℕ} {t : Server} (h : s.Ended i t) :
    t.loop.tasks.length + 1 = s.loop.tasks.length := by
  have hpos := h.inside
  rw [h.tasks, List.length_eraseIdx_of_lt h.inside]
  omega

/-- An event that ends a connection, and needs no client, gets rid of its task. -/
theorem canReach_ends (h : s.Timed cfg) {i : ℕ} {c : Conn} {e : ConnEvent} (he : e.Own)
    (hi : s.loop.tasks[i]? = some c) (hends : c.stage.next cfg s.now s.loop.signalled e = .ends) :
    CanReach (step cfg) Event.Own (fun t => t.Timed cfg ∧ ∃ i, s.Ended i t) s := by
  refine .next (e := .conn i e) he (.now ⟨h.step _, i, ?_⟩)
  rw [step_conn_ends hi hends]
  exact ⟨rfl, (List.getElem?_eq_some_iff.mp hi).1⟩

/-- A task that is in a handshake since before all others in one. -/
theorem exists_earliest (h : ∃ c ∈ s.loop.tasks, ∃ since, c.stage = .handshaking since) :
    ∃ (i : ℕ) (began since : ℕ), s.loop.tasks[i]? = some ⟨began, .handshaking since⟩ ∧
      ∀ c ∈ s.loop.tasks, ∀ since', c.stage = .handshaking since' → since ≤ since' := by
  classical
  have hsince : ∃ since, ∃ c ∈ s.loop.tasks, c.stage = .handshaking since := by
    obtain ⟨c, hc, since, hstage⟩ := h
    exact ⟨since, c, hc, hstage⟩
  obtain ⟨⟨began, stage⟩, hc, hstage⟩ := Nat.find_spec hsince
  obtain ⟨i, hi⟩ := List.getElem?_of_mem hc
  refine ⟨i, began, Nat.find hsince, by rw [hi, ← hstage], fun c hc since' hc' => ?_⟩
  exact Nat.find_min' hsince ⟨c, hc, hc'⟩

/-- **The first handshake to time out does.** -/
theorem canReach_expire (h : s.Timed cfg) {timeout : ℕ}
    (htimeout : cfg.handshakeTimeout = some timeout)
    (hshaking : ∃ c ∈ s.loop.tasks, ∃ since, c.stage = .handshaking since) :
    CanReach (step cfg) Event.Own (fun t => t.Timed cfg ∧ ∃ i, s.Ended i t) s := by
  obtain ⟨i, began, since, hi, hmin⟩ := exists_earliest hshaking
  obtain ⟨-, -, htime, -⟩ := h.tasks _ (List.mem_of_getElem? hi)
  simp only [Settings.inTime, htimeout, decide_eq_true_eq] at htime
  -- Its deadline comes before those of the others, so the clock may go there.
  have hnow : s.now + (since + timeout - s.now) = since + timeout := by omega
  have hall : (s.loop.tasks.all fun c => cfg.inTime (since + timeout) c.stage) = true := by
    refine List.all_eq_true.mpr fun c hc => ?_
    cases hstage : c.stage with
    | handshaking since' =>
        have hle := hmin c hc since' hstage
        simp only [Settings.inTime, htimeout, decide_eq_true_eq]
        omega
    | _ => rfl
  have hwait :
      s.step cfg (.wait (since + timeout - s.now)) = { s with now := since + timeout } := by
    simp only [Server.step, hnow, if_pos hall]
  refine .next (e := .wait (since + timeout - s.now)) trivial ?_
  have htimed := h.step (.wait (since + timeout - s.now))
  rw [hwait] at htimed ⊢
  refine (canReach_ends htimed (e := .expire) trivial hi ?_).mono fun t ht =>
    ⟨ht.1, ht.2.imp fun i hended => ⟨hended.loop, hended.inside⟩⟩
  simp [Stage.next, htimeout]

/-- **Where a timer will end some task, one is ended.** -/
theorem canReach_of_expiring (h : s.Timed cfg) (hexpiring : s.Expiring cfg) :
    CanReach (step cfg) Event.Own (fun t => t.Timed cfg ∧ ∃ i, s.Ended i t) s := by
  obtain ⟨⟨began, stage⟩, hc, hexpires⟩ := hexpiring
  cases stage with
  | queued => cases hexpires
  | accepting => cases hexpires
  | handshaking since =>
      obtain ⟨timeout, htimeout⟩ := Option.isSome_iff_exists.mp hexpires
      exact canReach_expire h htimeout ⟨_, hc, since, rfl⟩
  | serving place =>
      obtain ⟨i, hi⟩ := List.getElem?_of_mem hc
      exact canReach_ends h (e := .idle) trivial hi (if_pos hexpires)

/-- A task that the signal ends does. -/
theorem canReach_finish (h : s.Timed cfg) (hsignalled : s.loop.signalled = true) {c : Conn}
    (hc : c ∈ s.loop.tasks) (hfinishes : c.stage.finishes cfg = true) :
    CanReach (step cfg) Event.Own (fun t => t.Timed cfg ∧ ∃ i, s.Ended i t) s := by
  obtain ⟨began, stage⟩ := c
  cases stage with
  | serving place =>
      obtain ⟨i, hi⟩ := List.getElem?_of_mem hc
      refine canReach_ends h (e := .finish) trivial hi (if_pos ?_)
      rw [hsignalled, Bool.true_and]
      exact hfinishes
  | _ => cases hfinishes

/-- A server that drains tasks which end without their clients returns. -/
theorem canReach_drained (m : ℕ) :
    ∀ s : Server, s.loop.tasks.length = m → s.Timed cfg → s.loop.phase = .drain →
      s.loop.signalled = true → (∀ c ∈ s.loop.tasks, c.stage.timely cfg = true) →
        CanReach (step cfg) Event.Own (fun t => t.loop.phase = .returned) s := by
  induction m with
  | zero =>
      intro s hlength _ hphase _ _
      have htasks : s.loop.tasks = [] := List.length_eq_zero_iff.mp hlength
      refine .next (e := .drained) trivial (.now ?_)
      simp [step, onLoop, Loop.step, hphase, htasks]
  | succ m ih =>
      intro s hlength htimed hphase hsignalled htimely
      have hend : CanReach (step cfg) Event.Own (fun t => t.Timed cfg ∧ ∃ i, s.Ended i t) s := by
        obtain ⟨c, hc⟩ := List.exists_mem_of_length_pos (l := s.loop.tasks) (by omega)
        have hstage : c.stage.expires cfg = true ∨ c.stage.finishes cfg = true := by
          have hhandled := htimed.tasks c hc
          have htimely := htimely c hc
          unfold Conn.Handled at hhandled
          cases hstage : c.stage with
          | queued => simp [hstage] at hhandled
          | _ => simpa [Stage.timely, hstage] using htimely
        rcases hstage with hexpires | hfinishes
        · exact canReach_of_expiring htimed ⟨c, hc, hexpires⟩
        · exact canReach_finish htimed hsignalled hc hfinishes
      refine hend.trans fun t ht => ?_
      obtain ⟨htimed', i, hended⟩ := ht
      have hloop := hended.loop
      rw [Loop.endTask, if_pos hended.inside] at hloop
      have hlength' := hended.length
      refine ih t (by omega) htimed' (by rw [hloop]; exact hphase) (by rw [hloop]; exact hsignalled)
        fun c hc => htimely c ?_
      rw [hended.tasks] at hc
      exact List.mem_of_mem_eraseIdx hc

theorem canReach_of_drain (h : s.Timed cfg) (hphase : s.loop.phase = .drain)
    (hsignalled : s.loop.signalled = true)
    (hcond : cfg.drainTimeout = true ∨ ∀ c ∈ s.loop.tasks, c.stage.timely cfg = true) :
    CanReach (step cfg) Event.Own (fun t => t.loop.phase = .returned) s := by
  rcases hcond with hdrain | htimely
  · refine .next (e := .timeout) trivial (.now ?_)
    simp [step, onLoop, Loop.step, hphase, hdrain, Loop.abort]
  · exact canReach_drained _ s rfl h hphase hsignalled htimely

theorem canReach_of_select (h : s.Timed cfg) (hphase : s.loop.phase = .select)
    (hcond : cfg.drainTimeout = true ∨ ∀ c ∈ s.loop.tasks, c.stage.timely cfg = true) :
    CanReach (step cfg) Event.Own (fun t => t.loop.phase = .returned) s := by
  have hleave : (s.step cfg .complete).step cfg .leave =
      { s with loop := { s.loop with completed := true, phase := .drain, signalled := true } } := by
    simp [step, onLoop, Loop.step, hphase]
  refine .next (e := .complete) trivial (.next (e := .leave) trivial ?_)
  have htimed := (h.step .complete).step .leave
  rw [hleave] at htimed ⊢
  exact canReach_of_drain htimed rfl rfl hcond

theorem canReach_of_permit (h : s.Timed cfg) {d : Conn} (hphase : s.loop.phase = .acquire d)
    (hfree : s.loop.free ≠ some 0) (hcond : cfg.drainTimeout = true ∨ s.AllTimely cfg) :
    CanReach (step cfg) Event.Own (fun t => t.loop.phase = .returned) s := by
  have hspawn : (s.onLoop cfg .spawn).loop.phase = .select ∧
      (s.onLoop cfg .spawn).loop.tasks = s.loop.tasks ++ [d] := by
    match hf : s.loop.free with
    | none => simp [onLoop, Loop.step, hphase, hf]
    | some 0 => exact absurd hf hfree
    | some (k + 1) => simp [onLoop, Loop.step, hphase, hf]
  refine .next (e := .spawn) trivial (canReach_of_select (h.step .spawn) hspawn.1 ?_)
  refine hcond.imp_right fun htimely c hc => ?_
  obtain ⟨d', hd', rfl⟩ := List.mem_map.mp hc
  rw [Conn.timely_begin]
  rw [hspawn.2] at hd'
  rcases List.mem_append.mp hd' with hd' | hd'
  · exact htimely.1 d' hd'
  · exact htimely.2 d' (by rw [hphase, List.mem_singleton.mp hd'])

theorem canReach_of_acquire (h : s.Timed cfg) {d : Conn} (hphase : s.loop.phase = .acquire d)
    (hadmits : s.Admits cfg) (hcond : cfg.drainTimeout = true ∨ s.AllTimely cfg) :
    CanReach (step cfg) Event.Own (fun t => t.loop.phase = .returned) s := by
  rcases hadmits d hphase with hfree | hexpiring
  · exact canReach_of_permit h hphase hfree hcond
  · refine (canReach_of_expiring h hexpiring).trans fun t ht => ?_
    obtain ⟨htimed, i, hended⟩ := ht
    have hloop := hended.loop
    rw [Loop.endTask, if_pos hended.inside] at hloop
    refine canReach_of_permit htimed (d := d) (by rw [hloop]; exact hphase) ?_ ?_
    · rw [hloop]
      cases hf : s.loop.free <;> simp
    · refine hcond.imp_right fun htimely => ⟨fun c hc => htimely.1 c ?_, fun c hc => htimely.2 c ?_⟩
      · rw [hended.tasks] at hc
        exact List.mem_of_mem_eraseIdx hc
      · rw [hloop] at hc
        exact hc

/-- A server that returns without its clients had what that needs. -/
theorem ends_of_canReach (cfg : Settings) (events : List Event)
    (hreach : CanReach (step cfg) Event.Own (fun t => t.loop.phase = .returned)
      (run (step cfg) (start cfg) events)) : (run (step cfg) (start cfg) events).Ends cfg := by
  have htimed := timed_run cfg events
  have hsound := sound_run cfg events
  generalize run (step cfg) (start cfg) events = s at htimed hsound hreach ⊢
  by_contra hnot
  rw [Ends, not_or] at hnot
  obtain ⟨hphase, hcond⟩ := hnot
  rcases not_and_or.mp hcond with hadmits | hcond
  · -- The loop waits for a permit for ever.
    simp only [Admits, not_forall, not_or, not_not] at hadmits
    obtain ⟨c, hacquire, hfree, hexpiring⟩ := hadmits
    have hsignalled : s.loop.signalled = false :=
      hsound.not_signalled (by simp [Loop.HasLeft, hacquire])
    refine absurd hreach (not_canReach (J := Blocked cfg) (fun s e he h => h.step he)
      (fun s h hret => ?_) ⟨htimed, ⟨c, hacquire⟩, hfree, hexpiring, hsignalled⟩)
    obtain ⟨c, hacquire⟩ := h.acquire
    cases hret.symm.trans hacquire
  · -- Some task waits for its client for ever.
    rw [not_or, Bool.not_eq_true] at hcond
    have hheld : s.Held cfg := (Held.iff_not_allTimely hphase).mpr hcond.2
    exact absurd hreach (not_canReach (J := Held cfg) (fun s e he h => h.step hcond.1 he)
      (fun s h => h.phase) hheld)

/-- A server that has what it needs returns. -/
theorem canReach_of_ends (cfg : Settings) (events : List Event)
    (hends : (run (step cfg) (start cfg) events).Ends cfg) :
    CanReach (step cfg) Event.Own (fun t => t.loop.phase = .returned)
      (run (step cfg) (start cfg) events) := by
  have htimed := timed_run cfg events
  have htells := tells_run cfg events
  generalize run (step cfg) (start cfg) events = s at htimed htells hends ⊢
  rcases hends with hphase | ⟨hadmits, hcond⟩
  · exact .now hphase
  · cases hphase : s.loop.phase with
    | select => exact canReach_of_select htimed hphase (hcond.imp_right And.left)
    | acquire d => exact canReach_of_acquire htimed hphase hadmits hcond
    | drain => exact canReach_of_drain htimed hphase (htells hphase) (hcond.imp_right And.left)
    | returned => exact .now hphase

end Server
end Lifecycle
end Noxy
